import ClassicAsp.Config
import ClassicAsp.Toml.Decode

/-! Settings from files in the TOML format. Keys that are not known are passed over. -/

namespace ClassicAsp.Settings

open Toml

/-- The names of the limits, in their order. -/
def limitNames : List String :=
  ["max_loop_iterations", "max_lines", "max_token_length", "max_text_length", "max_nesting_depth"]

/-- Adds the limits of a file. -/
def withLimits (s : Settings) (limits : Entries) : Option Settings := do
  return { s with
    maxLoopIterations := ← limits.field? "max_loop_iterations" Value.nat?
    maxLines := ← limits.field? "max_lines" Value.nat?
    maxTokenLength := ← limits.field? "max_token_length" Value.nat?
    maxTextLength := ← limits.field? "max_text_length" Value.nat?
    maxNestingDepth := ← limits.field? "max_nesting_depth" Value.nat? }

/-- The settings of a document. -/
def ofEntries? (entries : Entries) : Option Settings := do
  let path ← entries.field? "spec_table" Value.text?
  let s : Settings := {
    indent := ← entries.field? "indent" Value.nat?
    imposeIndent := ← entries.field? "impose_indent" Value.bool?
    imposeCase := ← entries.field? "impose_case" Value.bool?
    imposeWhitespace := ← entries.field? "impose_whitespace" Value.bool?
    blankLines := ← entries.field? "blank_lines" Value.bool?
    tablePath := path.map String.ofList
    cacheSeconds := ← entries.field? "cache_ttl_secs" Value.nat? }
  match ← entries.field? "limits" (Value.record? limitNames false) with
  | none => return s
  | some limits => s.withLimits limits

/-- What is said about a text that gives no settings. -/
def malformed : String := "malformed settings"

/-- Reads settings. -/
def read (text : List Char) : Except String Settings :=
  match (Toml.read? text).bind ofEntries? with
  | some s => .ok s
  | none => .error malformed

end ClassicAsp.Settings
