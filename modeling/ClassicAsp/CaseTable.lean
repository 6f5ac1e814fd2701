import ClassicAsp.Assoc
import ClassicAsp.Fault
import ClassicAsp.Text.Bytes
import ClassicAsp.Text.Folding
import ClassicAsp.Text.Split
import ClassicAsp.Text.Word

/-! Case tables: the spelling of keywords and of members of objects, and which operators get
spaces around them. -/

namespace ClassicAsp

/-- The layout of a case table as it is written down. -/
structure CaseSchema where
  functions : List (List Char) := []
  /-- Spellings of words and phrases. -/
  spellings : List (List Char × List Char) := []
  /-- Objects with the spellings of their members. -/
  objects : List (List Char × List (List Char)) := []
  /-- Keywords by group. -/
  keywords : List (List Char × List (List Char)) := []
  /-- Operators by group, each with a name. -/
  operators : List (List Char × List (List Char × List Char)) := []
  /-- The groups of operators that get spaces. -/
  spacedGroups : List (List Char) := []
  /-- The keywords that get spaces like operators. -/
  spacedKeywords : List (List Char) := []
  deriving Repr

/-- Where a table comes from. -/
inductive TableOrigin where
  | bundled
  | file (path : String)
  | builtin
  deriving DecidableEq, Repr

/-- Phrases to look for in code, by their first letter up to case, and in the order they are
tried. -/
abbrev PhraseIndex := Assoc Char (List (List Char))

/-- Does the phrase start with a letter, which is folded? -/
def startsWithLetter (letter : Char) (phrase : List Char) : Bool :=
  phrase.head?.any (Text.foldCase · == letter)

/-- The index of phrases that are given in the order they are tried. -/
def PhraseIndex.ofPhrases (phrases : List (List Char)) : PhraseIndex :=
  let letters := (phrases.filterMap fun p => p.head?.map Text.foldCase).eraseDups
  letters.map fun letter => (letter, phrases.filter (startsWithLetter letter))

/-- A table made ready for look-up. -/
structure CaseTable where
  /-- Lower-case words and phrases with their spellings. -/
  spellings : Assoc (List Char) (List Char) := []
  /-- Lower-case objects with their lower-case members and the spellings of these. -/
  members : Assoc (List Char) (Assoc (List Char) (List Char)) := []
  keywords : List (List Char) := []
  /-- The operators that the table names to get spaces. -/
  namedOperators : List (List Char) := []
  spacedKeywords : List (List Char) := []
  /-- The words and phrases to look for in code. -/
  phrases : PhraseIndex := []
  /-- The objects to look for in code. -/
  objects : PhraseIndex := []
  origin : TableOrigin := .builtin
  /-- Why this table stands in for another one. -/
  fallback : Option Fault := none
  deriving Repr

namespace CaseTable

/-- A phrase in lower case with one space between its words. -/
def key (phrase : List Char) : List Char :=
  Text.unwords ((Text.words phrase).map Text.lowercase)

/-- Can the phrase stand between word boundaries? -/
def isSearchable (phrase : List Char) : Bool :=
  phrase.head?.any Text.isNameChar && phrase.getLast?.any Text.isNameChar

/-- The order in which phrases are tried: long ones first, then by code points. -/
def triedBefore (a b : List Char) : Bool :=
  let m := Text.byteLength a
  let n := Text.byteLength b
  n < m || (n == m && !decide (b < a))

/-- The phrases to look for, in the order they are tried. -/
def searchOrder (phrases : List (List Char)) : List (List Char) :=
  (phrases.filter isSearchable).mergeSort triedBefore

/-- The spellings of a schema. An explicit spelling wins over the name of a function. -/
def spellingsOf (s : CaseSchema) : Assoc (List Char) (List Char) :=
  let explicit := s.spellings.map fun e => (key e.1, e.2)
  s.functions.foldl
    (fun m name => if (key name).isEmpty then m else m.insertNew (key name) name)
    (Assoc.ofList (explicit.filter (!·.1.isEmpty)))

/-- The members of the objects of a schema. -/
def membersOf (s : CaseSchema) : Assoc (List Char) (Assoc (List Char) (List Char)) :=
  Assoc.ofList (s.objects.map fun e =>
    (Text.lowercase e.1, Assoc.ofList (e.2.map fun m => (Text.lowercase m, m))))

/-- The operators of the groups that get spaces, each once. -/
def operatorsOf (s : CaseSchema) : List (List Char) :=
  let symbols := s.spacedGroups.flatMap fun group =>
    ((Assoc.get? s.operators group).getD []).map (·.2)
  (symbols.filter (!·.isEmpty)).foldl
    (fun ops op => if ops.contains op then ops else ops ++ [op]) []

/-- Makes the table of a schema ready. -/
def ofSchema (s : CaseSchema) (origin : TableOrigin) : CaseTable :=
  let spellings := spellingsOf s
  let members := membersOf s
  { spellings
    members
    keywords := (s.keywords.flatMap (·.2)).map key
    namedOperators := operatorsOf s
    spacedKeywords := s.spacedKeywords.map Text.lowercase
    phrases := .ofPhrases (searchOrder (spellings.map (·.1)))
    objects := .ofPhrases (searchOrder (members.map (·.1)))
    origin }

/-- A table without entries. -/
def empty : CaseTable := {}

/-- The spelling of a word or phrase in any case. -/
def canonical? (t : CaseTable) (word : List Char) : Option (List Char) :=
  t.spellings.get? (key word)

/-- The spelling of a member of an object, both in any case. -/
def canonicalMember? (t : CaseTable) (object member : List Char) : Option (List Char) :=
  (t.members.get? (Text.lowercase object)).bind (·.get? (Text.lowercase member))

/-- Is the word listed as a keyword? -/
def isKeyword (t : CaseTable) (word : List Char) : Bool := t.keywords.contains (key word)

/-- The operators that get spaces when a table names none. -/
def commonOperators : List (List Char) := ["<>", "<=", ">=", "=", "<", ">", "&"].map String.toList

/-- The operators that get spaces around them. -/
def spacedOperators (t : CaseTable) : List (List Char) :=
  if t.namedOperators.isEmpty then commonOperators else t.namedOperators

/-- Does the keyword get spaces around it? -/
def isSpacedKeyword (t : CaseTable) (word : List Char) : Bool :=
  t.spacedKeywords.contains (Text.lowercase word)

/-- The number of spellings of words and phrases. -/
def size (t : CaseTable) : Nat := t.spellings.length

/-- Has the table neither spellings nor objects? -/
def isEmpty (t : CaseTable) : Bool := t.spellings.isEmpty && t.members.isEmpty

end CaseTable

end ClassicAsp
