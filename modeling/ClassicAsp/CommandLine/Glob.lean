/-! Patterns for paths, as a library for such patterns reads and fits them: a question mark stands
for a character, an asterisk for any text, two asterisks for any names in a row, and brackets for
one of several characters. -/

namespace ClassicAsp.CommandLine

/-- A character or a range of them, in brackets. -/
inductive CharSpec where
  | single (c : Char)
  | range (first last : Char)
  deriving DecidableEq, Repr

/-- Does the character fit? -/
def CharSpec.holds : CharSpec → Char → Bool
  | .single d, c => c == d
  | .range first last, c => first ≤ c && c ≤ last

/-- A part of a pattern. -/
inductive GlobPart where
  | char (c : Char)
  | anyChar
  | anyText
  | anyNames
  | within (specs : List CharSpec)
  | except (specs : List CharSpec)
  deriving DecidableEq, Repr

/-- A pattern. -/
abbrev Glob := List GlobPart

/-- What is wrong with a pattern. -/
inductive GlobFault where
  | wildcards
  | recursiveWildcards
  | range
  deriving DecidableEq, Repr

/-- What is wrong with a pattern and at which character. -/
structure GlobError where
  position : Nat
  fault : GlobFault
  deriving DecidableEq, Repr

/-- The text of an error. -/
def GlobError.message (e : GlobError) : String :=
  let text := match e.fault with
    | .wildcards => "wildcards are either regular `*` or recursive `**`"
    | .recursiveWildcards => "recursive wildcards must form a single path component"
    | .range => "invalid range pattern"
  "Pattern syntax error near position " ++ toString e.position ++ ": " ++ text

namespace Glob

/-- The characters and ranges in a text, after the reversed ones `done`. -/
def specsAfter (done : List CharSpec) : List Char → List CharSpec
  | first :: '-' :: last :: rest => specsAfter (.range first last :: done) rest
  | c :: rest => specsAfter (.single c :: done) rest
  | [] => done.reverse

/-- The characters and ranges between brackets. -/
def specs (text : List Char) : List CharSpec := specsAfter [] text

/-- The text between brackets, given what follows the opening one, and its length with the
closing one. A closing bracket right at the start is part of the text. -/
def bracketed? : List Char → Option (List Char × Nat)
  | [] => none
  | c :: rest =>
    let inner := rest.takeWhile (· != ']')
    if (rest.drop inner.length).isEmpty then none else some (c :: inner, inner.length + 2)

/-- The part that starts with a bracket, and how many characters follow the bracket. -/
def bracketPart? : List Char → Option (GlobPart × Nat)
  | '!' :: rest => (bracketed? rest).map fun (text, n) => (.except (specs text), n + 1)
  | rest => (bracketed? rest).map fun (text, n) => (.within (specs text), n)

/-- The part that two asterisks make, and how many characters follow the first. They have to be a
whole name. `before` is the character before them and `start` their position. -/
def namesPart (before : Option Char) (start : Nat) (rest : List Char) :
    Except GlobError (GlobPart × Nat) :=
  if before.all (· == '/') then
    match rest with
    | [] => .ok (.anyNames, 1)
    | '/' :: _ => .ok (.anyNames, 2)
    | _ => .error ⟨start + 2, .recursiveWildcards⟩
  else .error ⟨start - 1, .recursiveWildcards⟩

/-- The part that starts with `c`, and how many characters it has after that. -/
def partAt (before : Option Char) (position : Nat) (c : Char) (rest : List Char) :
    Except GlobError (GlobPart × Nat) :=
  if c == '?' then .ok (.anyChar, 0)
  else if c == '[' then
    match bracketPart? rest with
    | some part => .ok part
    | none => .error ⟨position, .range⟩
  else if c == '*' then
    match rest with
    | '*' :: '*' :: _ => .error ⟨position + 2, .wildcards⟩
    | '*' :: rest => namesPart before position rest
    | _ => .ok (.anyText, 0)
  else .ok (.char c, 0)

/-- Adds a part to reversed parts; two runs of names become one, unless they start the pattern. -/
def push (done : List GlobPart) (part : GlobPart) : List GlobPart :=
  match done with
  | .anyNames :: _ :: _ => if part = .anyNames then done else part :: done
  | _ => part :: done

/-- Reads a pattern from a position on, after passing over `skip` characters. -/
def readAfter (skip : Nat) (before : Option Char) (position : Nat) (done : List GlobPart) :
    List Char → Except GlobError Glob
  | [] => .ok done.reverse
  | c :: rest =>
    match skip with
    | skip + 1 => readAfter skip (some c) (position + 1) done rest
    | 0 =>
      match partAt before position c rest with
      | .error e => .error e
      | .ok (part, n) => readAfter n (some c) (position + 1) (push done part) rest

/-- Reads a pattern. -/
def read (pattern : List Char) : Except GlobError Glob := readAfter 0 none 0 [] pattern

/-- The outcome of fitting a pattern to a text. -/
inductive Fit where
  | fits
  | fails
  /-- The text was used up, so that no shorter rest of it can fit either. -/
  | usedUp
  deriving DecidableEq, Repr

/-- Lets a wildcard take more and more of the text until the parts after it fit. A wildcard for
names stops behind slashes only. -/
def widen (names : Bool) (after : List Char → Fit) : List Char → Fit
  | [] => after []
  | c :: rest =>
    if names && c != '/' then widen names after rest
    else
      match after rest with
      | .fails => widen names after rest
      | fit => fit

/-- Fits one character to a part. -/
def fitsChar (c : Char) : GlobPart → Bool
  | .char d => c == d
  | .within specs => specs.any (·.holds c)
  | .except specs => !specs.any (·.holds c)
  | _ => true

/-- Fits a pattern to a text. -/
def fit : Glob → List Char → Fit
  | [], text => if text.isEmpty then .fits else .fails
  | part :: parts, text =>
    if part = .anyText || part = .anyNames then
      match fit parts text with
      | .fails => widen (part = .anyNames) (fit parts) text
      | result => result
    else
      match text with
      | [] => .usedUp
      | c :: rest => if fitsChar c part then fit parts rest else .fails

/-- Does the pattern fit the whole text? -/
def fitsAll (pattern : Glob) (text : List Char) : Bool := fit pattern text = .fits

/-- Reads a pattern and gives the texts that fit it, or says what is wrong with it. This is where a
library stands in the program, and the only thing of it that is used. -/
def reader (pattern : List Char) : Except String (List Char → Bool) :=
  match read pattern with
  | .ok parts => .ok (fitsAll parts)
  | .error e => .error e.message

end Glob

end ClassicAsp.CommandLine
