import ClassicAsp.CaseTable.Builtin
import ClassicAsp.CaseTable.Reading
import ClassicAsp.FileTree

/-! The case table in use. It is loaded when it is first asked for and kept until it is dropped.
The minimal table stands in for one that cannot be loaded. -/

namespace ClassicAsp

/-- Where a table is loaded from. -/
inductive TableSource where
  | bundled
  | file (path : String)
  | inline (text : List Char)
  deriving DecidableEq, Repr

namespace TableSource

/-- The source that settings name: a file, or else the bundled table. -/
def named : Option String → TableSource
  | some path => .file path
  | none => .bundled

/-- Loads a table from the files as they are. -/
def load (source : TableSource) (files : FileTree) (cwd : List String)
    (reader : TableReader := {}) : Except Fault CaseTable :=
  match source with
  | .bundled => .ok .bundled
  | .inline text => CaseTable.read text .bundled reader
  | .file path =>
    match files.readText cwd path with
    | .ok text => CaseTable.read text (.file path) reader
    | .error e => .error (.tableUnavailable (path ++ ": " ++ e.message))

/-- Loads a table, or the minimal one with the reason why. -/
def loadOrBuiltin (source : TableSource) (files : FileTree) (cwd : List String)
    (reader : TableReader := {}) : CaseTable :=
  match source.load files cwd reader with
  | .ok table => table
  | .error fault => .standIn fault

end TableSource

/-- A source with the table loaded from it, which is numbered by the loads so far. -/
structure TableStore where
  source : TableSource
  reader : TableReader := {}
  loaded : Option (Nat × CaseTable) := none
  loads : Nat := 0

namespace TableStore

/-- The table with its number, loaded if need be. -/
def get (s : TableStore) (files : FileTree) (cwd : List String) :
    (Nat × CaseTable) × TableStore :=
  match s.loaded with
  | some table => (table, s)
  | none =>
    let table := (s.loads, s.source.loadOrBuiltin files cwd s.reader)
    (table, { s with loaded := some table, loads := s.loads + 1 })

/-- Is a table loaded? -/
def isLoaded (s : TableStore) : Bool := s.loaded.isSome

/-- Drops the table. -/
def drop (s : TableStore) : TableStore := { s with loaded := none }

end TableStore

end ClassicAsp
