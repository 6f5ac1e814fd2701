import ClassicAsp.Literal

/-! Tokens of masked code, as far as the spacing of operators needs them. -/

namespace ClassicAsp

/-- The kinds of tokens. -/
inductive TokenKind where
  | word
  | number
  | operator
  | opening
  | closing
  | comma
  | colon
  | dot
  | other
  deriving DecidableEq, Repr

/-- A token, and whether blanks stood before it. -/
structure Token where
  kind : TokenKind
  text : List Char
  spaced : Bool
  deriving DecidableEq, Repr

namespace Token

/-- The operators, the longer ones first. -/
def operators : List (List Char) :=
  ["<>", "<=", ">=", "=", "<", ">", "+", "-", "*", "/", "\\", "^", "&"].map String.toList

/-- How many characters are taken up to and including `stop`, or all. -/
def lengthThrough (stop : Char) (cs : List Char) : Nat :=
  let n := (cs.takeWhile (· != stop)).length
  if (cs.drop n).isEmpty then n else n + 1

/-- The number of digits at the start. -/
def digitsLength (cs : List Char) : Nat := (cs.takeWhile Char.isDigit).length

/-- Does a digit come first? -/
def startsDigit (cs : List Char) : Bool := cs.head?.any Char.isDigit

/-- The length of a fraction: a point and digits. -/
def fractionLength : List Char → Nat
  | '.' :: rest => if startsDigit rest then 1 + digitsLength rest else 0
  | _ => 0

/-- The length of an exponent: a mark, an optional sign and digits. -/
def exponentLength : List Char → Nat
  | [] => 0
  | e :: rest =>
    if e == 'e' || e == 'E' then
      let sign := if rest.head?.any fun c => c == '+' || c == '-' then 1 else 0
      if startsDigit (rest.drop sign) then 1 + sign + digitsLength (rest.drop sign) else 0
    else 0

/-- The length of a decimal number at the start, with fraction and exponent. -/
def numberLength (cs : List Char) : Nat :=
  let n := digitsLength cs
  let n := n + fractionLength (cs.drop n)
  n + exponentLength (cs.drop n)

/-- Is the character a hexadecimal digit? -/
def isHexDigit (c : Char) : Bool :=
  c.isDigit || (c.toLower.toNat ≥ 'a'.toNat && c.toLower.toNat ≤ 'f'.toNat)

/-- Is the character an octal digit? -/
def isOctalDigit (c : Char) : Bool := '0'.toNat ≤ c.toNat && c.toNat ≤ '7'.toNat

/-- The length of a hexadecimal or octal number after its `&`. Characters of a name behind it
make it a concatenation instead. -/
def radixLength? : List Char → Option Nat
  | [] => none
  | mark :: rest =>
    let digits :=
      if mark.toLower == 'h' then rest.takeWhile isHexDigit
      else if mark.toLower == 'o' then rest.takeWhile isOctalDigit
      else []
    let n := digits.length
    let n := if (rest.drop n).head? == some '&' then n + 1 else n
    if digits.isEmpty || (rest.drop n).head?.any Text.isNameChar then none else some (n + 1)

/-- The kind of a character that is a token of its own. -/
def punctuation (c : Char) : TokenKind :=
  if c == '(' then .opening
  else if c == ')' then .closing
  else if c == ',' then .comma
  else if c == ':' then .colon
  else if c == '.' then .dot
  else .other

/-- The kind of the token that starts with `c`, and how many characters it has after that. -/
def measure (c : Char) (rest : List Char) : TokenKind × Nat :=
  if c == Masked.opening then (.word, lengthThrough Masked.closing rest)
  else if c == '[' then (.word, lengthThrough ']' rest)
  else if c == '.' && startsDigit rest then (.number, numberLength rest)
  else if c.isDigit then (.number, numberLength (c :: rest) - 1)
  else if Text.isNameChar c then (.word, (rest.takeWhile Text.isNameChar).length)
  else
    match if c == '&' then radixLength? rest else none with
    | some n => (.number, n)
    | none =>
      match operators.find? (·.isPrefixOf (c :: rest)) with
      | some op => (.operator, op.length - 1)
      | none => (punctuation c, 0)

/-- Reads tokens after passing over `skip` characters. `spaced` tells whether blanks came before,
and `done` holds the tokens so far, the last one first. -/
def readAfter (skip : Nat) (spaced : Bool) (done : List Token) : List Char → List Token
  | [] => done.reverse
  | c :: rest =>
    match skip with
    | skip + 1 => readAfter skip spaced done rest
    | 0 =>
      if Text.isBlank c then readAfter 0 true done rest
      else
        let (kind, n) := measure c rest
        readAfter n false (⟨kind, c :: rest.take n, spaced⟩ :: done) rest

/-- The tokens of masked code. -/
def read (code : List Char) : List Token := readAfter 0 false [] code

end Token

end ClassicAsp
