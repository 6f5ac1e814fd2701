import ClassicAsp.Recasing
import ClassicAsp.Spacing

/-! Normalization of a line of script: spelling and spacing of its code, with literals and
comment kept as they are. -/

namespace ClassicAsp

/-- What normalization does. -/
structure Normalization where
  imposeCase : Bool := true
  imposeWhitespace : Bool := true
  deriving DecidableEq, Repr

namespace Normalization

/-- Normalizes masked code. -/
def code (n : Normalization) (table : CaseTable) (code : List Char) : List Char :=
  let code := if n.imposeCase then Recasing.keywords table (Recasing.members table code) else code
  if n.imposeWhitespace then Spacing.operators table code else code

/-- Code and comment with one space between them. -/
def withComment (code : List Char) : Option (List Char) → List Char
  | none => code
  | some comment => if code.isEmpty then comment else code ++ ' ' :: comment

/-- Normalizes a line. -/
def line (n : Normalization) (table : CaseTable) (limits : Limits) (text : List Char) :
    Except Fault (List Char) := do
  let text := Text.trim text
  let size := Text.byteLength text
  if limits.exceeds .tokenLength size then
    throw (.limitReached .normalize .tokenLength size)
  let masked ← Masked.ofLine text
  let code ← masked.restore (n.code table (Text.trim masked.code)) limits.maxLoopIterations
  return Text.trimEnd (withComment code masked.comment)

end Normalization

end ClassicAsp
