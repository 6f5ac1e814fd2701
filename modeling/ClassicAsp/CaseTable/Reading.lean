import ClassicAsp.CaseTable
import ClassicAsp.Toml.Decode

/-! Case tables from files in the TOML format. Every section is optional, and keys that are not
known are passed over. -/

namespace ClassicAsp

open Toml

namespace CaseSchema

/-- The spellings of the members of an object. -/
def members? (v : Value) : Option (List (List Char)) := do
  let fields ← v.record? ["methods"] true
  return (← fields.field? "methods" Value.texts?).getD []

/-- The groups of operators and the keywords that get spaces. -/
def formatting? (v : Value) : Option (List (List Char) × List (List Char)) := do
  let fields ← v.record? ["operators_with_spaces", "keywords_with_spaces"] true
  return ((← fields.field? "operators_with_spaces" Value.texts?).getD [],
    (← fields.field? "keywords_with_spaces" Value.texts?).getD [])

/-- The layout that a document gives. -/
def ofEntries? (entries : Entries) : Option CaseSchema := do
  let formatting := (← entries.field? "formatting" formatting?).getD ([], [])
  return {
    functions := (← entries.field? "sys_functions" Value.texts?).getD []
    spellings := (← entries.field? "case_map" (Value.map? Value.text?)).getD []
    objects := (← entries.field? "objects" (Value.map? members?)).getD []
    keywords := (← entries.field? "keywords" (Value.map? Value.texts?)).getD []
    operators := (← entries.field? "operators" (Value.map? (Value.map? Value.text?))).getD []
    spacedGroups := formatting.1
    spacedKeywords := formatting.2 }

/-- Reads a layout. -/
def read (text : List Char) : Except String CaseSchema :=
  match (Toml.read? text).bind ofEntries? with
  | some schema => .ok schema
  | none => .error "malformed table"

end CaseSchema

/-- What tables are read with. Both are libraries of their own, which say in their own words what is
wrong; those that stand here unless others are given do so in fewer words. -/
structure TableReader where
  /-- Reads a layout from a text in the TOML format. -/
  schema : List Char → Except String CaseSchema := CaseSchema.read
  /-- Why no patterns can be made of a layout, which happens to very large ones only. -/
  refusal? : CaseSchema → Option String := fun _ => none

/-- Reads a table. -/
def CaseTable.read (text : List Char) (origin : TableOrigin) (reader : TableReader := {}) :
    Except Fault CaseTable :=
  match reader.schema text with
  | .error reason => .error (.tableUnavailable reason)
  | .ok schema =>
    match reader.refusal? schema with
    | some reason => .error (.badPattern .specTable reason)
    | none => .ok (ofSchema schema origin)

end ClassicAsp
