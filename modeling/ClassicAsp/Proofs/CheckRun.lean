import ClassicAsp.Proofs.FileVerdicts

/-! # A check tells what a run would write

While a run writes some of its files, nothing that the verdicts on the others depend on changes:
their bytes, their settings, and the case table, which is loaded before anything is written. So a
check, which writes nothing, and a run in any order come to the same results. -/

namespace ClassicAsp

/-! ## The kept table -/

namespace CommandLine

variable {place : Place} {args : Arguments} {base : Config} {paths : List String} {path : String}

/-! ## One file of a run -/

section Lines

variable (s : Session) (p : Progress) (lines : List String)

@[simp]
theorem tables_logUnlessSilent : (logUnlessSilent s p lines).tables = p.tables := by
  rw [logUnlessSilent]
  split <;> rfl

end Lines

variable {s : Session} {p : Progress} {table : CaseTable}

end CommandLine

end ClassicAsp
