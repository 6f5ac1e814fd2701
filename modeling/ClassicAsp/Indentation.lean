import ClassicAsp.Outline

/-! Indent levels: the stack changes of the lines are replayed on a stack of levels, and
comments take the level of the statement that they stand above. -/

namespace ClassicAsp

/-- The levels of the bodies of the open blocks, the innermost first. -/
abbrev LevelStack := List Nat

namespace LevelStack

/-- The level of the innermost open body. -/
def current (levels : LevelStack) : Nat := levels.headD 0

/-- Replays one change of the open blocks. -/
def replay (levels : LevelStack) : BlockEvent → LevelStack
  | .opened kind => (levels.current + kind.bodyIndent) :: levels
  | .closed => levels.tail

end LevelStack

/-- The level of a line, and the stack after it. `head` is the level of the last statement. -/
def OwnedLine.level (line : OwnedLine) (o : Outline) (head : Nat) (levels : LevelStack) :
    Nat × LevelStack :=
  if !line.isScript || line.frozen then (0, levels)
  else if o.continues.isSome then (head + 1, levels)
  else if line.isComment || line.isBlank then (levels.current, levels)
  else
    let after := o.events.foldl LevelStack.replay levels
    if o.closes then (after.current, after)
    else if o.isBranch || o.isCase then (levels.current - 1, after)
    else (levels.current, after)

namespace Indentation

/-- Levels of lines in order, before comments are settled, after the reversed lines `done`. -/
def levelsAfter (done : List (OwnedLine × Nat)) (head : Nat) (levels : LevelStack) :
    List (OwnedLine × Outline) → List (OwnedLine × Nat)
  | [] => done.reverse
  | (line, o) :: rest =>
    let (level, levels) := line.level o head levels
    levelsAfter ((line, level) :: done) (if o.continues.isSome then head else level) levels rest

/-- What a comment meets when it looks for the statement below it. -/
structure Ahead where
  /-- How many lines it looks at. -/
  steps : Nat
  /-- The level of the statement, if it meets one. -/
  level? : Option Nat
  deriving DecidableEq, Repr

/-- What a comment meets that stands above a line. Blank lines, comments and bare opening markers
are passed over; any other line ends the search. -/
def Ahead.above (ahead : Ahead) (line : OwnedLine) (level : Nat) : Ahead :=
  if line.isBareOpening then { ahead with steps := ahead.steps + 1 }
  else if !line.isBody then ⟨1, none⟩
  else if line.isBlank || line.isComment then { ahead with steps := ahead.steps + 1 }
  else ⟨1, some level⟩

/-- The levels and warnings of the lines from some line on. -/
structure Settled where
  levels : List Nat := []
  warnings : List Diagnostic := []
  ahead : Ahead := ⟨0, none⟩
  deriving DecidableEq, Repr

/-- Adds a line above. A comment moves to the level of the statement below it, unless the search
for it takes more steps than the ceiling allows. -/
def Settled.above (limits : Limits) (line : OwnedLine × Nat) (s : Settled) : Settled :=
  let (line, level) := line
  let ahead := s.ahead.above line level
  if line.isBody && line.isComment then
    if s.ahead.steps ≤ limits.maxLoopIterations then
      ⟨s.ahead.level?.getD level :: s.levels, s.warnings, ahead⟩
    else
      let fault := Fault.limitReached .indent .loopIterations limits.maxLoopIterations
      ⟨level :: s.levels, .ofFault (some (line.index + 1)) fault :: s.warnings, ahead⟩
  else ⟨level :: s.levels, s.warnings, ahead⟩

end Indentation

/-- The indent level of each line, and warnings. -/
def indentLevels (limits : Limits) (lines : List (OwnedLine × Outline)) :
    List Nat × List Diagnostic :=
  let levels := Indentation.levelsAfter [] 0 [] lines
  let settled := levels.foldr (Indentation.Settled.above limits) {}
  (settled.levels, settled.warnings)

/-- The largest size of a text in memory. -/
def maxTextSize : Nat := 0x7FFFFFFFFFFFFFFF

/-- The spaces of an indent, unless they are more than fit in memory. The number of spaces is a
word of 64 bits. -/
def indentText? (level width : Nat) : Option (List Char) :=
  let size := level * width % (Text.maxWord + 1)
  if size ≤ maxTextSize then some (List.replicate size ' ') else none

end ClassicAsp
