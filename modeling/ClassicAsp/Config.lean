import ClassicAsp.Directive
import ClassicAsp.Limits

/-! Settings of the formatter. -/

namespace ClassicAsp

/-- The settings. -/
structure Config where
  /-- Spaces per level. -/
  indent : Nat := 4
  imposeIndent : Bool := true
  imposeCase : Bool := true
  imposeWhitespace : Bool := true
  /-- Put blank lines above declarations of procedures. -/
  blankLines : Bool := true
  /-- A case table to use in place of the bundled one, by path. -/
  tablePath : Option String := none
  /-- How long an analysis is kept, in seconds. -/
  cacheSeconds : Nat := 30
  limits : Limits := {}
  deriving DecidableEq, Repr, Inhabited

namespace Config

/-- The widest indent. -/
def maxIndent : Nat := 16

/-- What is wrong with settings. -/
inductive Problem where
  | noIndent
  | wideIndent (indent : Nat)
  | zeroLimit (name : String)
  deriving DecidableEq, Repr

/-- The text of a problem. -/
def Problem.message : Problem → String
  | .noIndent => "indent must be at least 1"
  | .wideIndent n => "indent " ++ toString n ++ " exceeds maximum of " ++ toString maxIndent
  | .zeroLimit name => "limits." ++ name ++ " must be at least 1"

/-- The limits with the names that settings files give them. -/
def namedLimits (l : Limits) : List (String × Nat) := [
  ("max_loop_iterations", l.maxLoopIterations),
  ("max_lines", l.maxLines),
  ("max_token_length", l.maxTokenLength),
  ("max_text_length", l.maxTextLength),
  ("max_nesting_depth", l.maxNestingDepth)]

/-- The first problem of the settings. -/
def problem? (c : Config) : Option Problem :=
  if c.indent = 0 then some .noIndent
  else if maxIndent < c.indent then some (.wideIndent c.indent)
  else ((namedLimits c.limits).find? (·.2 = 0)).map fun l => .zeroLimit l.1

/-- Applies the changes of a directive. An indent that is not valid is left out. -/
def override (c : Config) (o : Overrides) : Config :=
  { c with
    indent := (o.indent.filter fun n => 1 ≤ n && n ≤ maxIndent).getD c.indent
    imposeIndent := o.imposeIndent.getD c.imposeIndent
    imposeCase := o.imposeCase.getD c.imposeCase
    imposeWhitespace := o.imposeWhitespace.getD c.imposeWhitespace
    blankLines := o.blankLines.getD c.blankLines }

end Config

/-- The settings that a file gives; the others stay as they are. -/
structure Settings where
  indent : Option Nat := none
  imposeIndent : Option Bool := none
  imposeCase : Option Bool := none
  imposeWhitespace : Option Bool := none
  blankLines : Option Bool := none
  tablePath : Option String := none
  cacheSeconds : Option Nat := none
  maxLoopIterations : Option Nat := none
  maxLines : Option Nat := none
  maxTokenLength : Option Nat := none
  maxTextLength : Option Nat := none
  maxNestingDepth : Option Nat := none
  deriving DecidableEq, Repr

/-- Applies the settings of a file. -/
def Config.apply (c : Config) (s : Settings) : Config where
  indent := s.indent.getD c.indent
  imposeIndent := s.imposeIndent.getD c.imposeIndent
  imposeCase := s.imposeCase.getD c.imposeCase
  imposeWhitespace := s.imposeWhitespace.getD c.imposeWhitespace
  blankLines := s.blankLines.getD c.blankLines
  tablePath := s.tablePath.or c.tablePath
  cacheSeconds := s.cacheSeconds.getD c.cacheSeconds
  limits := {
    maxLoopIterations := s.maxLoopIterations.getD c.limits.maxLoopIterations
    maxLines := s.maxLines.getD c.limits.maxLines
    maxTokenLength := s.maxTokenLength.getD c.limits.maxTokenLength
    maxTextLength := s.maxTextLength.getD c.limits.maxTextLength
    maxNestingDepth := s.maxNestingDepth.getD c.limits.maxNestingDepth }

end ClassicAsp
