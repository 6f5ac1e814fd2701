import ClassicAsp.Limits

/-! Failures of one phase of the work on a line, a document or a table. -/

namespace ClassicAsp

/-- The phases of formatting, as messages name them. -/
inductive Phase where
  | split
  | regions
  | blockStructure
  | indent
  | normalize
  | blankLines
  | join
  | specTable
  deriving DecidableEq, Repr

/-- The name of a phase in messages. -/
def Phase.label : Phase → String
  | .split => "split"
  | .regions => "regions"
  | .blockStructure => "structure"
  | .indent => "indent"
  | .normalize => "normalize"
  | .blankLines => "blank-lines"
  | .join => "join"
  | .specTable => "spec-table"

/-- Why a phase gave up. -/
inductive Fault where
  /-- A safety ceiling was hit. -/
  | limitReached (phase : Phase) (ceiling : Ceiling) (value : Nat)
  /-- The text cannot be processed without risk to its content. -/
  | hazard (phase : Phase) (reason : String)
  /-- The case table could not be loaded. -/
  | tableUnavailable (reason : String)
  /-- A pattern made from a case table is not usable. -/
  | badPattern (phase : Phase) (reason : String)
  deriving DecidableEq, Repr

/-- The phase that failed. -/
def Fault.phase : Fault → Phase
  | .limitReached p _ _ => p
  | .hazard p _ => p
  | .tableUnavailable _ => .specTable
  | .badPattern p _ => p

/-- The text of a failure. -/
def Fault.message : Fault → String
  | .limitReached p l v =>
    "Safety limit reached in " ++ p.label ++ " - " ++ l.label ++ ": " ++ toString v
  | .hazard p reason => "Unsafe input in " ++ p.label ++ ": " ++ reason
  | .tableUnavailable reason => "Spec table unavailable: " ++ reason
  | .badPattern p reason => "Invalid pattern in " ++ p.label ++ ": " ++ reason

/-- How a warning came about. -/
inductive DiagnosticKind where
  /-- A ceiling was hit and the work degraded. -/
  | limitReached
  /-- The minimal case table stands in for one that could not be loaded. -/
  | tableFallback
  /-- A phase failed and what it worked on was left alone. -/
  | failure
  deriving DecidableEq, Repr

/-- The kind of warning that a failure gives. -/
def Fault.kind : Fault → DiagnosticKind
  | .limitReached .. => .limitReached
  | .tableUnavailable _ => .tableFallback
  | .hazard .. => .failure
  | .badPattern .. => .failure

/-- A warning, about one line (counted from 1) or about the whole document. -/
structure Diagnostic where
  line : Option Nat
  kind : DiagnosticKind
  message : String
  deriving DecidableEq, Repr

/-- The warning that reports a failure. -/
def Diagnostic.ofFault (line : Option Nat) (fault : Fault) : Diagnostic :=
  ⟨line, fault.kind, fault.message⟩

/-- A warning with its line number in front. -/
def Diagnostic.render (d : Diagnostic) : String :=
  match d.line with
  | some n => "line " ++ toString n ++ ": " ++ d.message
  | none => d.message

end ClassicAsp
