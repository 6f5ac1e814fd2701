/-! Safety ceilings, and the step budget of one bounded scan. -/

namespace ClassicAsp

/-- What a ceiling bounds. -/
inductive Ceiling where
  | loopIterations
  | documentLines
  | tokenLength
  | textLength
  | nestingDepth
  deriving DecidableEq, Repr

/-- The name of a ceiling in messages. -/
def Ceiling.label : Ceiling → String
  | .loopIterations => "max loop iterations"
  | .documentLines => "max document lines"
  | .tokenLength => "max token length"
  | .textLength => "max text length"
  | .nestingDepth => "max nesting depth"

/-- The ceilings in force. Lengths are in bytes. -/
structure Limits where
  /-- Steps of a single bounded scan. -/
  maxLoopIterations : Nat := 1000
  /-- Lines past this many are passed through verbatim. -/
  maxLines : Nat := 10000
  /-- Longer script lines are only indented. -/
  maxTokenLength : Nat := 10000
  /-- Longer documents are left alone. -/
  maxTextLength : Nat := 1000000
  /-- Blocks below this depth are treated as plain lines. -/
  maxNestingDepth : Nat := 500
  deriving DecidableEq, Repr, Inhabited

/-- The value of a ceiling. -/
def Limits.ceiling (l : Limits) : Ceiling → Nat
  | .loopIterations => l.maxLoopIterations
  | .documentLines => l.maxLines
  | .tokenLength => l.maxTokenLength
  | .textLength => l.maxTextLength
  | .nestingDepth => l.maxNestingDepth

/-- Is the value above the ceiling? -/
def Limits.exceeds (l : Limits) (kind : Ceiling) (value : Nat) : Bool :=
  l.ceiling kind < value

/-- The steps left and the steps taken of a bounded scan. -/
structure Budget where
  remaining : Nat
  spent : Nat := 0
  deriving DecidableEq, Repr

/-- One step, unless none is left. -/
def Budget.tick? (b : Budget) : Option Budget :=
  if b.remaining = 0 then none else some ⟨b.remaining - 1, b.spent + 1⟩

end ClassicAsp
