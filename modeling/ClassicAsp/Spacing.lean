import ClassicAsp.CaseTable
import ClassicAsp.Token

/-! Spaces around operators. Operators and keywords that the table lists get one space on each
side, a sign keeps no space behind it, and every other run of blanks becomes one space. -/

namespace ClassicAsp.Spacing

/-- The keywords after which a plus or minus is a sign. -/
def signKeywords : List (List Char) :=
  ["to", "step", "then", "else", "case", "until", "while", "return", "in", "and", "or", "not",
    "xor", "eqv", "imp", "mod", "is"].map String.toList

/-- Is a plus or minus a sign after this token? -/
def isSignPosition : Option Token → Bool
  | none => true
  | some t =>
    match t.kind with
    | .operator => true
    | .opening => true
    | .comma => true
    | .colon => true
    | .word => signKeywords.contains (Text.lowercase t.text)
    | _ => false

/-- Is the token a sign, given the one before it? -/
def isSign (prev : Option Token) (t : Token) : Bool :=
  t.kind == .operator && (t.text == ['+'] || t.text == ['-']) && isSignPosition prev

/-- Does the token get spaces, given the one before it? A keyword that a dot leads to is a
member. -/
def isSpaced (table : CaseTable) (prev : Option Token) (t : Token) : Bool :=
  !isSign prev t &&
    match t.kind with
    | .operator => table.spacedOperators.contains t.text
    | .word => table.isSpacedKeyword t.text && !prev.any (·.kind == .dot)
    | _ => false

/-- Does a space go before the token? `after` is what the token before it asks for. -/
def hasSpaceBefore (table : CaseTable) (prev : Option Token) (after : Option Bool)
    (t : Token) : Bool :=
  if isSpaced table prev t then prev.any (·.kind != .opening)
  else after.getD t.spaced

/-- What a token asks for behind it: a space, none, or nothing in particular. -/
def spaceAfter (table : CaseTable) (prev : Option Token) (t : Token) : Option Bool :=
  if isSpaced table prev t then some true
  else if isSign prev t then some false
  else none

/-- Puts a token on a reversed text, with a space before it if asked for. The text does not start
with a space. -/
def push (out : List Char) (space : Bool) (t : List Char) : List Char :=
  t.reverse ++ if space && !out.isEmpty then ' ' :: out else out

/-- Writes tokens after the token `prev`, which asks for the space `after`; the text so far is
`out`, reversed. The space before a final underscore stays as it was, since it decides whether
the line continues. -/
def writeAfter (table : CaseTable) (prev : Option Token) (after : Option Bool)
    (out : List Char) : List Token → List Char
  | [] => out.reverse
  | t :: rest =>
    if rest.isEmpty && t.text == ['_'] then (push out t.spaced t.text).reverse
    else
      writeAfter table (some t) (spaceAfter table prev t)
        (push out (hasSpaceBefore table prev after t) t.text) rest

/-- Normalizes the spaces of masked code. -/
def operators (table : CaseTable) (code : List Char) : List Char :=
  writeAfter table none none [] (Token.read code)

end ClassicAsp.Spacing
