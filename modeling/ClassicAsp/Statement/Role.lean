import ClassicAsp.Block
import ClassicAsp.Statement.Form
import ClassicAsp.Text.Split

/-! The role of a line of code in the block structure. -/

namespace ClassicAsp

/-- What a line of code does to the open blocks. -/
inductive Role where
  /-- Nothing. -/
  | plain
  /-- It opens a block. -/
  | start (construct : Construct)
  /-- It closes a block that the construct opens. -/
  | stop (construct : Construct)
  /-- It is an `Else` or `ElseIf`. -/
  | branch
  /-- It is a `Case`. -/
  | case
  deriving DecidableEq, Repr

namespace Construct

/-- The form of the statement that opens the construct. -/
def openingForm : Construct → Statement.Form
  | ifThen => .ifBlock
  | forLoop => .forLoop
  | whileLoop => .whileLoop
  | doLoop => .doLoop
  | function => .functionHead
  | sub => .subHead
  | property => .propertyHead
  | selectCase => .selectHead
  | classDef => .classHead

/-- The form of the statement that closes the construct. -/
def closingForm : Construct → Statement.Form
  | ifThen => .endIf
  | forLoop => .next
  | whileLoop => .wend
  | doLoop => .loop
  | function => .endFunction
  | sub => .endSub
  | property => .endProperty
  | selectCase => .endSelect
  | classDef => .endClass

/-- The constructs whose opening is read off one statement. The opening of an `If` is read off
the whole line. -/
def statementOpeners : List Construct :=
  [forLoop, whileLoop, doLoop, function, sub, property, selectCase, classDef]

end Construct

namespace Statement

/-- The statements of masked code, which colons divide. -/
def splitCode (code : List Char) : List (List Char) :=
  ((Text.splitAt (· == ':') code).map Text.trim).filter (! ·.isEmpty)

/-- The first of the constructs that the statement closes. -/
def closes? (closers : List Construct) (statement : List Char) : Option Construct :=
  closers.find? fun c => c.closingForm.holds statement

end Statement

namespace Role

open Statement

/-- The role of masked code, trying the constructs in the given orders. The first statement
decides; an opening whose closing stands later on the line has no role. -/
def classifyWith (openers closers : List Construct) (code : List Char) : Role :=
  match splitCode (Text.trim code) with
  | [] => .plain
  | first :: later =>
    match closes? closers first with
    | some c => .stop c
    | none =>
      if Form.elseIf.holds first || Form.elseBranch.holds first then .branch
      else if Form.caseBranch.holds first then .case
      else if Form.ifBlock.holds (Text.trim code) then .start .ifThen
      else
        match openers.find? fun c => c.openingForm.holds first with
        | none => .plain
        | some c =>
          if (later.filterMap (closes? closers)).any fun d => d.kind == c.kind then .plain
          else .start c

/-- The role of masked code. -/
def classify (code : List Char) : Role :=
  classifyWith Construct.statementOpeners Construct.all code

end Role

end ClassicAsp
