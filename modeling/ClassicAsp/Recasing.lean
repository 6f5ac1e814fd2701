import ClassicAsp.CaseTable
import ClassicAsp.Text.Folding

/-! Recasing: words, phrases and members of objects get the spelling of the case table.

The code is scanned from the left. At a word boundary the phrases are tried in their order, the
first that fits is replaced, and the scan goes on behind it. -/

namespace ClassicAsp.Recasing

open Text

/-- What may be left of a phrase after a character. A space stands for a run of blanks, so that
it may stay, and other characters are compared up to case. -/
def advance (c : Char) : List Char → List (List Char)
  | [] => []
  | ' ' :: rest => if isBlank c then [' ' :: rest, rest] else []
  | p :: rest => if sameLetter p c then [rest] else []

/-- How many characters a text takes until nothing is left of a phrase, where `n` characters
came before and `left` is what may be left of it. -/
def lengthFrom? (n : Nat) (left : List (List Char)) : List Char → Option Nat
  | [] => if left.contains [] then some n else none
  | c :: cs =>
    if left.contains [] then some n
    else if left.isEmpty then none
    else lengthFrom? (n + 1) (left.flatMap (advance c)).eraseDups cs

/-- How many characters of `cs` a phrase takes up to case, after `n` characters before. A space in
the phrase stands for a run of blanks, which ends where the phrase goes on with another
character. -/
def phraseLengthFrom? (n : Nat) : List Char → List Char → Option Nat
  | [], _ => some n
  | _ :: _, [] => none
  | ' ' :: rest, c :: cs =>
    if rest.head?.any isBlank then lengthFrom? n [' ' :: rest] (c :: cs)
    else
      let run := ((c :: cs).takeWhile isBlank).length
      if run = 0 then none else phraseLengthFrom? (n + run) rest ((c :: cs).drop run)
  | p :: ps, c :: cs => if sameLetter p c then phraseLengthFrom? (n + 1) ps cs else none

/-- How many characters of `cs` a phrase takes up to case, where a space in the phrase stands for
a run of blanks. A phrase that ends with a character other than a blank ends in one place only. -/
def phraseLength? (phrase cs : List Char) : Option Nat := phraseLengthFrom? 0 phrase cs

/-- The first result that `found` gives for a phrase that starts like the text. -/
def findPhrase? {α : Type} (index : PhraseIndex) (cs : List Char)
    (found : List Char → Option α) : Option α :=
  cs.head?.bind fun c => ((index.get? (foldCase c)).getD []).findSome? found

/-- Is there a word boundary `n` characters into `cs`? -/
def isBoundaryAt (n : Nat) (cs : List Char) : Bool :=
  isBoundary (cs.take n).getLast? (cs.drop n).head?

/-- How many characters of `cs` the first fitting phrase takes, if one stands here between word
boundaries. The text before is `before`, reversed. -/
def keywordLength? (phrases : PhraseIndex) (before cs : List Char) : Option Nat :=
  if isBoundary before.head? cs.head? then
    findPhrase? phrases cs fun p => (phraseLength? p cs).filter fun n => isBoundaryAt n cs
  else none

/-- Does a text, given reversed, end with a dot, blanks aside? -/
def endsWithDot (before : List Char) : Bool := (before.dropWhile isBlank).head? == some '.'

/-- The spelling of a keyword that stands after the reversed text `before`. A word that a dot
leads to is a member and stays. -/
def keywordSpelling (table : CaseTable) (before word : List Char) : List Char :=
  if endsWithDot before then word else (table.canonical? word).getD word

/-- Recases keywords after passing over `skip` characters. The text so far is `before` and the
result so far `out`, both reversed. -/
def keywordsAfter (table : CaseTable) (skip : Nat) (before out : List Char) :
    List Char → List Char
  | [] => out.reverse
  | c :: cs =>
    match skip with
    | skip + 1 => keywordsAfter table skip (c :: before) out cs
    | 0 =>
      match keywordLength? table.phrases before (c :: cs) with
      | some (n + 1) =>
        let word := keywordSpelling table before ((c :: cs).take (n + 1))
        keywordsAfter table n (c :: before) (word.reverse ++ out) cs
      | _ => keywordsAfter table 0 (c :: before) (c :: out) cs

/-- Gives the words and phrases of the table their spelling. -/
def keywords (table : CaseTable) (code : List Char) : List Char :=
  keywordsAfter table 0 [] [] code

/-- Can a member start with the character? It is an ASCII letter up to case, or an underscore. -/
def startsMember (c : Char) : Bool := (foldCase c).isAlpha || c == '_'

/-- A reference to a member: the object, the text between it and the member, and the member. -/
structure MemberRef where
  object : List Char
  link : List Char
  member : List Char
  deriving DecidableEq, Repr

/-- The number of characters of a reference. -/
def MemberRef.length (r : MemberRef) : Nat :=
  r.object.length + r.link.length + r.member.length

/-- The dot and the member that follow an object, with blanks around the dot. -/
def memberAfter? (object cs : List Char) : Option MemberRef :=
  match cs.dropWhile isBlank with
  | '.' :: rest =>
    match rest.dropWhile isBlank with
    | c :: tail =>
      if startsMember c then
        let link := cs.takeWhile isBlank ++ '.' :: rest.takeWhile isBlank
        some ⟨object, link, c :: tail.takeWhile isWordChar⟩
      else none
    | [] => none
  | _ => none

/-- The reference to a member of one of the objects that stands here after the reversed text
`before`. -/
def memberRef? (objects : PhraseIndex) (before cs : List Char) : Option MemberRef :=
  if isBoundary before.head? cs.head? then
    findPhrase? objects cs fun o =>
      (phraseLength? o cs).bind fun n => memberAfter? (cs.take n) (cs.drop n)
  else none

/-- The spelling of a reference, with nothing but a dot between object and member. -/
def memberSpelling (table : CaseTable) (r : MemberRef) : List Char :=
  let object := (table.canonical? r.object).getD r.object
  let member := (table.canonicalMember? object r.member).getD r.member
  object ++ '.' :: member

/-- Recases references to members, after passing over `skip` characters. The text so far is
`before` and the result so far `out`, both reversed. -/
def membersAfter (table : CaseTable) (skip : Nat) (before out : List Char) :
    List Char → List Char
  | [] => out.reverse
  | c :: cs =>
    match skip with
    | skip + 1 => membersAfter table skip (c :: before) out cs
    | 0 =>
      match memberRef? table.objects before (c :: cs) with
      | some r =>
        membersAfter table (r.length - 1) (c :: before)
          ((memberSpelling table r).reverse ++ out) cs
      | none => membersAfter table 0 (c :: before) (c :: out) cs

/-- Gives references to members of the table's objects their spelling. -/
def members (table : CaseTable) (code : List Char) : List Char :=
  membersAfter table 0 [] [] code

end ClassicAsp.Recasing
