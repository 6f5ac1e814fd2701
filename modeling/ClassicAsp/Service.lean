import ClassicAsp.AnalysisCache
import ClassicAsp.Format
import ClassicAsp.TableStore

/-! A formatting service: settings, the case table in use and kept analyses. No failure leaves it;
a document whose formatting stops is given back as it is. -/

namespace ClassicAsp

/-- An analysis, numbered by the analyses made before it. -/
structure NumberedAnalysis where
  number : Nat
  analysis : Analysis
  deriving Repr

/-- A service that tells texts apart by fingerprints. -/
structure Service (κ : Type) where
  config : Config
  tables : TableStore
  cache : AnalysisCache κ NumberedAnalysis
  /-- The number of analyses made. -/
  analyses : Nat := 0

/-- The surroundings of a request: the files, the current directory, the time when it is made, and
how long an analysis takes if one is made. Times are in nanoseconds. -/
structure Surroundings where
  files : FileTree := []
  cwd : List String := []
  now : Nat := 0
  effort : Nat := 0

/-- The time when an analysis is done. -/
def Surroundings.done (w : Surroundings) : Nat := w.now + w.effort

/-- How long an analysis is kept, in nanoseconds. -/
def Config.cacheLifetime (c : Config) : Nat := c.cacheSeconds * 1000000000

/-- The report of a formatting that stopped. -/
def Abort.diagnostic (a : Abort) : Diagnostic :=
  ⟨none, .failure, "Formatting aborted, input left unchanged: " ++ a.message⟩

/-- Formats a text, or gives it back with a report if formatting stops. -/
def formatOrKeep (config : Config) (table : CaseTable) (text : List Char) : Formatted :=
  match format config table text with
  | .ok out => out
  | .error a => .unchanged text [a.diagnostic]

namespace Service

variable {κ : Type} [DecidableEq κ]

/-- A service with a store of tables of its own. -/
def withTables (config : Config) (tables : TableStore) : Service κ :=
  { config, tables, cache := { lifetime := config.cacheLifetime } }

/-- A service with a table source of its own. -/
def withSource (config : Config) (source : TableSource) : Service κ := withTables config { source }

/-- A service that takes its table from where the settings say. -/
def new (config : Config) : Service κ :=
  withSource config (.named config.tablePath)

/-- The table in use, with its number. -/
def table (s : Service κ) (w : Surroundings) : (Nat × CaseTable) × Service κ :=
  let (table, tables) := s.tables.get w.files w.cwd
  (table, { s with tables })

/-- The warning that the minimal table stands in for another one. -/
def tableWarning (s : Service κ) (w : Surroundings) : Option Diagnostic × Service κ :=
  let ((_, table), s) := s.table w
  (table.fallback.map (Diagnostic.ofFault none), s)

/-- Formats a text with given settings. -/
def formatWith (s : Service κ) (w : Surroundings) (config : Config) (text : List Char) :
    Formatted × Service κ :=
  let ((_, table), s) := s.table w
  (formatOrKeep config table text, s)

/-- Formats a document with given settings. The kept analyses of a document that changes are
dropped. -/
def formatDocumentWith (s : Service κ) (w : Surroundings) (config : Config) (id : String)
    (text : List Char) : Formatted × Service κ :=
  let (out, s) := s.formatWith w config text
  (out, if out.changed then { s with cache := s.cache.invalidate id } else s)

/-- Formats a document with the settings of the service. -/
def formatDocument (s : Service κ) (w : Surroundings) (id : String) (text : List Char) :
    Formatted × Service κ :=
  s.formatDocumentWith w s.config id text

/-- The analysis of a document, kept or made anew. -/
def analyze (fingerprint : List Char → κ) (s : Service κ) (w : Surroundings) (id : String)
    (text : List Char) : NumberedAnalysis × Service κ :=
  let (kept, cache) := s.cache.get w.now id (fingerprint text)
  match kept with
  | some a => (a, { s with cache })
  | none =>
    let a : NumberedAnalysis := ⟨s.analyses, Analysis.ofText s.config.limits text⟩
    (a, { s with
      cache := cache.insert w.done id (fingerprint text) a
      analyses := s.analyses + 1 })

/-- What is at a byte of a document. -/
def positionAt (fingerprint : List Char → κ) (s : Service κ) (w : Surroundings) (id : String)
    (text : List Char) (offset : Nat) : Option Position × Service κ :=
  let (a, s) := s.analyze fingerprint w id text
  (a.analysis.positionAt? offset, s)

/-- Drops the kept analyses of a document. -/
def invalidate (s : Service κ) (id : String) : Service κ :=
  { s with cache := s.cache.invalidate id }

/-- Drops all kept analyses and the table. -/
def clear (s : Service κ) : Service κ :=
  { s with cache := s.cache.clear, tables := s.tables.drop }

end Service

end ClassicAsp
