/-! Blocks of a script and what opens them. -/

namespace ClassicAsp

/-- The kinds of blocks. -/
inductive BlockKind where
  | control
  | loop
  | procedure
  | selection
  | classBody
  deriving DecidableEq, Repr

namespace BlockKind

/-- All kinds, in their order. -/
def all : List BlockKind := [control, loop, procedure, selection, classBody]

/-- The place of a kind in the order. -/
def index : BlockKind → Nat
  | control => 0
  | loop => 1
  | procedure => 2
  | selection => 3
  | classBody => 4

/-- The name of a kind in reports. -/
def label : BlockKind → String
  | control => "CONTROL"
  | loop => "LOOP"
  | procedure => "PROCEDURE"
  | selection => "SELECTION"
  | classBody => "CLASS"

/-- The keywords that open a block of the kind. -/
def openers : BlockKind → List String
  | control => ["if"]
  | loop => ["for", "while", "do"]
  | procedure => ["function", "sub", "property"]
  | selection => ["select", "case"]
  | classBody => ["class"]

/-- The phrases that close a block of the kind. -/
def closers : BlockKind → List String
  | control => ["end if"]
  | loop => ["next", "wend", "loop"]
  | procedure => ["end function", "end sub", "end property"]
  | selection => ["end select"]
  | classBody => ["end class"]

/-- How many levels the body is indented. A selection has a level for its cases and one for
the statements under them. -/
def bodyIndent : BlockKind → Nat
  | selection => 2
  | _ => 1

end BlockKind

/-- The statements that open blocks. -/
inductive Construct where
  | ifThen
  | forLoop
  | whileLoop
  | doLoop
  | function
  | sub
  | property
  | selectCase
  | classDef
  deriving DecidableEq, Repr

namespace Construct

/-- All constructs, in the order they are tried. -/
def all : List Construct :=
  [ifThen, forLoop, whileLoop, doLoop, function, sub, property, selectCase, classDef]

/-- The kind of block that a construct opens. -/
def kind : Construct → BlockKind
  | ifThen => .control
  | forLoop => .loop
  | whileLoop => .loop
  | doLoop => .loop
  | function => .procedure
  | sub => .procedure
  | property => .procedure
  | selectCase => .selection
  | classDef => .classBody

/-- The keyword of a construct. -/
def keyword : Construct → String
  | ifThen => "if"
  | forLoop => "for"
  | whileLoop => "while"
  | doLoop => "do"
  | function => "function"
  | sub => "sub"
  | property => "property"
  | selectCase => "select"
  | classDef => "class"

/-- The name of a construct in reports. -/
def label (c : Construct) : String := String.ofList (c.keyword.toList.map Char.toUpper)

end Construct

/-- A block of a document: where it starts and ends, by line, and its place among the others. -/
structure Block where
  construct : Construct
  startLine : Nat
  /-- The line that closes it, or the last line of the document. -/
  endLine : Nat
  /-- The number of blocks around it. -/
  depth : Nat
  parent : Option Nat
  children : Array Nat
  closed : Bool
  deriving DecidableEq, Repr

/-- The kind of a block. -/
def Block.kind (b : Block) : BlockKind := b.construct.kind

/-- A change of the open blocks. -/
inductive BlockEvent where
  | opened (kind : BlockKind)
  | closed
  deriving DecidableEq, Repr

end ClassicAsp
