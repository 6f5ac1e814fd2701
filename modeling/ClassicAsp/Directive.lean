import ClassicAsp.Text.Folding
import ClassicAsp.Text.Numeral
import ClassicAsp.Text.Split

/-! Directives: comments by which a document chooses how it is formatted, on a line of their own
inside a region or as a region of one line. -/

namespace ClassicAsp

/-- The settings that a directive changes. -/
structure Overrides where
  indent : Option Nat := none
  imposeIndent : Option Bool := none
  imposeCase : Option Bool := none
  imposeWhitespace : Option Bool := none
  blankLines : Option Bool := none
  deriving DecidableEq, Repr

/-- A directive. -/
inductive Directive where
  /-- The document is left alone. -/
  | off
  | overrides (settings : Overrides)
  deriving DecidableEq, Repr

namespace Directive

open Text

/-- What follows an optional opening marker. -/
def dropOpening : List Char → List Char
  | '<' :: '%' :: rest => rest
  | cs => cs

/-- What comes before an optional closing marker at the end. -/
def dropClosing (cs : List Char) : List Char :=
  match cs.reverse with
  | '>' :: '%' :: before => before.reverse
  | _ => cs

/-- The arguments of a directive line: what follows the mark, without the blanks and the closing
marker around it. -/
def arguments? (line : List Char) : Option (List Char) :=
  match trimStart (dropOpening (trimStart line)) with
  | '\x27' :: rest =>
    (dropFolded? "aspfmt:".toList (trimStart rest)).bind fun rest =>
      let args := trimEnd (dropClosing (trim rest))
      if args.contains '\n' then none else some args
  | _ => none

/-- Is the line a directive? -/
def isLine (line : List Char) : Bool := (arguments? line).isSome

/-- The change of settings by one option without a value; unknown ones change nothing. -/
def applyOption (o : Overrides) (option : List Char) : Overrides :=
  match String.ofList option with
  | "--no-indent" => { o with imposeIndent := some false }
  | "--enable-indent" => { o with imposeIndent := some true }
  | "--no-case" => { o with imposeCase := some false }
  | "--enable-case" => { o with imposeCase := some true }
  | "--no-whitespace" => { o with imposeWhitespace := some false }
  | "--enable-whitespace" => { o with imposeWhitespace := some true }
  | "--no-blank-lines" => { o with blankLines := some false }
  | "--enable-blank-lines" => { o with blankLines := some true }
  | _ => o

/-- Does the option take a number as its value? -/
def isIndentOption (option : List Char) : Bool :=
  option == "-i".toList || option == "--indent".toList

/-- The changes of settings by options in order. An indent that is no number takes back an
earlier one. -/
def applyOptions (o : Overrides) : List (List Char) → Overrides
  | [] => o
  | [option] => if isIndentOption option then o else applyOption o option
  | option :: value :: rest =>
    if isIndentOption option then applyOptions { o with indent := readWord? value } rest
    else applyOptions (applyOption o option) (value :: rest)

/-- The directive of a line, if there is one and it sets anything. -/
def parse? (line : List Char) : Option Directive :=
  (arguments? line).bind fun args =>
    if eqIgnoringAsciiCase args "off".toList then some .off
    else
      let o := applyOptions {} (words args)
      if o = {} then none else some (.overrides o)

/-- The directive of a text. Only the first directive line counts, even if it sets nothing. -/
def find? (text : List Char) : Option Directive :=
  ((feedLines text).find? isLine).bind parse?

/-- Lines of bytes, each with the line feed that ends it; the current line is reversed. -/
def byteLinesAfter (done : List (List UInt8)) (line : List UInt8) :
    List UInt8 → List (List UInt8)
  | [] => (if line.isEmpty then done else line.reverse :: done).reverse
  | b :: bs =>
    if b == 10 then byteLinesAfter ((b :: line).reverse :: done) [] bs
    else byteLinesAfter done (b :: line) bs

/-- The first directive line of lines of bytes; a line that is not UTF-8 ends the search. -/
def findLine? : List (List UInt8) → Option (List Char)
  | [] => none
  | line :: rest =>
    match String.fromUTF8? ⟨line.toArray⟩ with
    | none => none
    | some text => if isLine text.toList then some text.toList else findLine? rest

/-- The directive of a text given in bytes. -/
def findInBytes? (bytes : List UInt8) : Option Directive :=
  (findLine? (byteLinesAfter [] [] bytes)).bind parse?

end Directive

end ClassicAsp
