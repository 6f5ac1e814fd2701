import ClassicAsp.Fault
import ClassicAsp.Text.Blank
import ClassicAsp.Text.Folding
import ClassicAsp.Text.Numeral
import ClassicAsp.Text.Word

/-! Literals and comments of a script line.

A line is cut into pieces: characters of code, string and date literals, and a comment that
runs to its end. Masking writes a numbered placeholder for each literal, so that what is done
to the code cannot touch a literal; restoring puts the literals back. -/

namespace ClassicAsp

/-- A part of a script line. -/
inductive Piece where
  /-- A character of code. -/
  | code (c : Char)
  /-- A string or date literal with its delimiters. -/
  | literal (text : List Char)
  /-- A comment, and the blanks that stood before it when it is a `Rem` after a colon. -/
  | comment (gap text : List Char)
  deriving DecidableEq, Repr

namespace Piece

/-- The text of a piece in the line. -/
def text : Piece → List Char
  | code c => [c]
  | literal t => t
  | comment gap t => gap ++ t

/-- Counts the characters of a string literal, given what follows its opening quote and `n`
characters before that. Two quotes in a row are a quote in the literal; without a closing quote
it takes all. -/
def stringLength (n : Nat) : List Char → Nat
  | '"' :: '"' :: rest => stringLength (n + 2) rest
  | '"' :: _ => n + 1
  | _ :: rest => stringLength (n + 1) rest
  | [] => n

/-- The characters of a date. -/
def isDateChar (c : Char) : Bool :=
  c.isAlphanum || c == '/' || c == '-' || c == ':' || c == '.' || c == ',' || c == ' '

/-- The number of characters of a date literal after its opening `#`. It holds characters of
dates only, and a digit. -/
def dateLength? (cs : List Char) : Option Nat :=
  let inner := cs.takeWhile (· != '#')
  if (cs.drop inner.length).isEmpty then none
  else if inner.all isDateChar && inner.any Char.isDigit then some (inner.length + 1)
  else none

/-- The number of characters after the first, if a literal starts with `c`. -/
def literalLength? (c : Char) (rest : List Char) : Option Nat :=
  if c == '"' then some (stringLength 0 rest)
  else if c == '#' then dateLength? rest
  else none

/-- Does a `Rem` comment start here? -/
def startsRem (cs : List Char) : Bool :=
  (cs.take 3).map Char.toLower == ['r', 'e', 'm'] && !(cs.drop 3).head?.any Text.isNameChar

/-- The comment that runs from `c` to the end of the line, with the code before it. -/
def comment? (c : Char) (rest : List Char) : Option (List Piece) :=
  if c == '\x27' then some [.comment [] (c :: rest)]
  else if c == ':' && startsRem (Text.trimStart rest) then
    some [.code c, .comment (rest.takeWhile Text.isBlank) (Text.trimStart rest)]
  else none

/-- Cuts a line into pieces after passing over `skip` characters; `done` holds the pieces so
far, the last one first. -/
def cutAfter (skip : Nat) (done : List Piece) : List Char → List Piece
  | [] => done.reverse
  | c :: rest =>
    match skip with
    | skip + 1 => cutAfter skip done rest
    | 0 =>
      match literalLength? c rest with
      | some n => cutAfter n (.literal (c :: rest.take n) :: done) rest
      | none =>
        match comment? c rest with
        | some ending => done.reverse ++ ending
        | none => cutAfter 0 (.code c :: done) rest

/-- The pieces of a line. -/
def cut (line : List Char) : List Piece := cutAfter 0 [] line

end Piece

/-- A line whose literals are replaced by placeholders. -/
structure Masked where
  code : List Char
  literals : Array (List Char)
  /-- The comment at the end, with the apostrophe or `Rem` that starts it. -/
  comment : Option (List Char)
  deriving DecidableEq, Repr

namespace Masked

/-- The character that opens a placeholder. -/
def opening : Char := '\uE000'

/-- The character that closes a placeholder. -/
def closing : Char := '\uE001'

/-- The placeholder of the literal with this index. -/
def placeholder (index : Nat) : List Char := opening :: Text.decimal index ++ [closing]

/-- Adds a piece to a mask whose code is reversed. -/
def push (m : Masked) : Piece → Masked
  | .code c => { m with code := c :: m.code }
  | .literal t => { m with
      code := (placeholder m.literals.size).reverse ++ m.code
      literals := m.literals.push t }
  | .comment _ t => { m with comment := some t }

/-- The mask of a line given by its pieces. -/
def ofPieces (pieces : List Piece) : Masked :=
  let m := pieces.foldl push ⟨[], #[], none⟩
  { m with code := m.code.reverse }

/-- A failure on text that could be mistaken for a placeholder. -/
def hazard (reason : String) : Fault := .hazard .normalize reason

/-- Masks a line, unless it holds a character reserved for placeholders. -/
def ofLine (line : List Char) : Except Fault Masked :=
  if line.any fun c => c == opening || c == closing then
    .error (hazard "reserved placeholder character")
  else .ok (ofPieces (Piece.cut line))

/-- The literal that the text inside a placeholder stands for. -/
def literal? (m : Masked) (index : List Char) : Option (List Char) :=
  (Text.readWord? index).bind (m.literals[·]?)

/-- Replaces placeholders by literals, one step of the budget for each. `inside` holds the text
of the placeholder that the scan is in, and `out` the result so far, both reversed. -/
def restoreAfter (m : Masked) (budget : Budget) (inside : Option (List Char))
    (out : List Char) : List Char → Except Fault (List Char)
  | [] =>
    match inside with
    | some _ => .error (hazard "unclosed placeholder")
    | none =>
      if out.contains closing then .error (hazard "stray placeholder") else .ok out.reverse
  | c :: rest =>
    match inside with
    | none =>
      if c == opening then
        match budget.tick? with
        | none => .error (.limitReached .normalize .loopIterations budget.spent)
        | some budget => restoreAfter m budget (some []) out rest
      else restoreAfter m budget none (c :: out) rest
    | some index =>
      if c == closing then
        match m.literal? index.reverse with
        | none => .error (hazard "unknown placeholder")
        | some text => restoreAfter m budget none (text.reverse ++ out) rest
      else restoreAfter m budget (some (c :: index)) out rest

/-- Puts the literals back into masked code, in at most `maxSteps` steps. -/
def restore (m : Masked) (code : List Char) (maxSteps : Nat) : Except Fault (List Char) :=
  restoreAfter m ⟨maxSteps, 0⟩ none [] code

end Masked

/-- What decides the role of a line: its masked code without the comment, or the whole line if
it cannot be masked. -/
def classificationCode (line : List Char) : List Char :=
  match Masked.ofLine line with
  | .ok m => Text.trim m.code
  | .error _ => Text.trim line

end ClassicAsp
