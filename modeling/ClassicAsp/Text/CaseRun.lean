import ClassicAsp.Text.PivotTree

/-! Character mappings given by regular runs. -/

namespace ClassicAsp.Text

/-- The code points `first`, `first + step`, … up to `last`, each moved by `shift`. -/
structure CaseRun where
  first : Nat
  last : Nat
  step : Nat
  shift : Int

/-- The image of a code point of the run. -/
def CaseRun.image? (r : CaseRun) (n : Nat) : Option Nat :=
  if r.first ≤ n && n ≤ r.last && (n - r.first) % r.step == 0 then
    some (Int.ofNat n + r.shift).toNat
  else none

/-- A character mapping, made ready for look-up. -/
structure CaseMap where
  tree : PivotTree CaseRun

/-- The mapping that runs give. They come in increasing order and do not overlap. -/
def CaseMap.ofRuns (runs : List CaseRun) : CaseMap := ⟨.ofSorted CaseRun.first runs⟩

/-- The image of a character, if it is in a run. -/
def CaseMap.image? (m : CaseMap) (c : Char) : Option Char :=
  ((m.tree.find? c.toNat).bind (·.image? c.toNat)).map Char.ofNat

end ClassicAsp.Text
