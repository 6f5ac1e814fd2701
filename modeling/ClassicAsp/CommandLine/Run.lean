import ClassicAsp.CommandLine.Files
import ClassicAsp.CommandLine.Help
import ClassicAsp.Service

/-! A run of the command line on a tree of files: what it writes to the standard output and the
error output, which files it changes, and its exit status. -/

namespace ClassicAsp.CommandLine

/-- What happened to a file. -/
inductive FileResult where
  | changed
  | unchanged
  | skipped
  | failed (message : String)
  deriving DecidableEq, Repr

/-- What a run leaves behind. -/
structure Outcome where
  exit : Nat
  stdout : List Char
  /-- The messages of the error output, each of which ends with a line feed. -/
  stderr : List String
  files : FileTree
  /-- What happened to the files that were named, in order. -/
  results : List FileResult := []

/-- The largest file that is formatted, in bytes. -/
def maxFileSize : Nat := 100 * 1024 * 1024

/-- A number of bytes in megabytes. -/
def megabytes (size : Nat) : String := toString (size / (1024 * 1024))

/-- Settings changed by what the command line says. -/
def Arguments.override (args : Arguments) (c : Config) : Config :=
  { c with
    indent := args.indent.getD c.indent
    imposeIndent := c.imposeIndent && !args.noIndent
    imposeCase := c.imposeCase && !args.noCase
    imposeWhitespace := c.imposeWhitespace && !args.noWhitespace
    blankLines := c.blankLines && !args.noBlankLines
    tablePath := args.tablePath.or c.tablePath }

/-- The debug lines on the settings files of a path. -/
def discoveryReport (place : Place) (path : String) : List String :=
  match Settings.discover place path with
  | [] => ["[DEBUG] No config files discovered for: " ++ path]
  | found => ("[DEBUG] Discovered config files for " ++ path ++ ":") ::
      found.map ("[DEBUG]   - " ++ ·)

/-- The settings before the command line changes them, with lines for the error output. A
settings file that is named replaces the search for them. -/
def baseConfig (place : Place) (args : Arguments) (path : String) :
    List String × Except String Config :=
  match args.config with
  | some file =>
    (if args.debug then ["[DEBUG] Using explicit config file: " ++ file] else [],
      (Config.load place file).mapError SettingsError.message)
  | none =>
    let (config, warnings) := Config.discovered place path
    ((if args.debug then discoveryReport place path else []) ++ warnings, .ok config)

/-- The settings for a path, with lines for the error output. -/
def configFor (place : Place) (args : Arguments) (path : String) :
    List String × Except String Config :=
  let (lines, base) := baseConfig place args path
  (lines, do
    let config := args.override (← base)
    match config.problem? with
    | some p => throw ("Invalid configuration: " ++ p.message)
    | none => return config)

/-- A truth value as text. -/
def boolText (b : Bool) : String := if b then "true" else "false"

/-- Fields of a record as text. -/
def recordText (name : String) (fields : List (String × String)) : String :=
  name ++ " \x7b " ++ ", ".intercalate (fields.map fun f => f.1 ++ ": " ++ f.2) ++ " \x7d"

/-- An optional value as text. -/
def optionText {α : Type} (text : α → String) : Option α → String
  | some a => "Some(" ++ text a ++ ")"
  | none => "None"

/-- The debug lines on settings. -/
def configReport (c : Config) (name : String) : List String :=
  let limits := (Config.namedLimits c.limits).map fun l => (l.1, toString l.2)
  ["[DEBUG] Configuration for " ++ name ++ ":",
    "[DEBUG]   indent: " ++ toString c.indent,
    "[DEBUG]   impose_indent: " ++ boolText c.imposeIndent,
    "[DEBUG]   impose_case: " ++ boolText c.imposeCase,
    "[DEBUG]   impose_whitespace: " ++ boolText c.imposeWhitespace,
    "[DEBUG]   blank_lines: " ++ boolText c.blankLines] ++
  (c.tablePath.map ("[DEBUG]   spec_table: " ++ ·)).toList ++
  ["[DEBUG]   limits: " ++ recordText "SafetyLimits" limits]

/-- The changes of a directive as text. -/
def overridesText (o : Overrides) : String :=
  recordText "DirectiveOverrides" [
    ("indent", optionText (fun n : Nat => toString n) o.indent),
    ("impose_indent", optionText boolText o.imposeIndent),
    ("impose_case", optionText boolText o.imposeCase),
    ("impose_whitespace", optionText boolText o.imposeWhitespace),
    ("blank_lines", optionText boolText o.blankLines)]

/-- The debug lines on the directive of a text. -/
def directiveReport (text : List Char) (name : String) : List String :=
  match Directive.find? text with
  | some .off => ["[DEBUG] Formatting disabled by directive in " ++ name]
  | some (.overrides o) =>
    ["[DEBUG] Found file directive in " ++ name ++ ": " ++ overridesText o]
  | none => []

/-- The lines on the statistics of a text. -/
def statsReport (a : Analysis) (name : String) : List String :=
  let s := a.statistics
  let n := fun (k : Nat) => toString k
  [name ++ ":",
    "  regions: " ++ n a.regions.length ++ ", lines: " ++ n s.totalLines ++ " (script " ++
      n s.scriptLines ++ ", markup " ++ n s.markupLines ++ ", comment " ++ n s.commentLines ++ ")",
    "  blocks: " ++ n s.totalBlocks ++ " (max depth " ++ n s.maxDepth ++ ", unclosed " ++
      n s.unclosed ++ ", unmatched ends " ++ n s.unmatchedEnds ++ ")"] ++
  s.byKind.map fun (k, count) => "    " ++ k.label ++ ": " ++ n count

/-- A warning about a document. -/
def warningLine (name : String) (d : Diagnostic) : String :=
  match d.line with
  | some line => "Warning: " ++ name ++ ":" ++ toString line ++ ": " ++ d.message
  | none => "Warning: " ++ name ++ ": " ++ d.message

/-- The part of a run that all documents share. -/
structure Session where
  args : Arguments
  cwd : List String
  /-- The ceilings for statistics, which do not depend on the document. -/
  limits : Limits

/-- Formats a document; the lines go to the error output. -/
def formatNamed (s : Session) (config : Config) (table : CaseTable) (name : String)
    (text : List Char) : Formatted × List String :=
  let out := formatOrKeep config table text
  let debug := if s.args.debug then configReport config name ++ directiveReport text name else []
  let stats := if s.args.stats || s.args.debug then
      statsReport (Analysis.ofText s.limits text) name
    else []
  let warnings := if s.args.silent then [] else out.diagnostics.map (warningLine name)
  (out, debug ++ stats ++ warnings)

/-- What the run has done so far. The texts for the outputs are reversed. -/
structure Progress where
  files : FileTree
  tables : TableStore
  stdout : List (List Char) := []
  stderr : List String := []
  results : List FileResult := []

namespace Progress

/-- Adds lines to the error output. -/
def log (p : Progress) (lines : List String) : Progress :=
  { p with stderr := lines.reverse ++ p.stderr }

/-- Adds text to the standard output. -/
def print (p : Progress) (text : List Char) : Progress := { p with stdout := text :: p.stdout }

/-- Records what happened to a file. -/
def record (p : Progress) (result : FileResult) : Progress :=
  { p with results := result :: p.results }

/-- The case table in use. -/
def table (p : Progress) (s : Session) : CaseTable × Progress :=
  let ((_, table), tables) := p.tables.get p.files s.cwd
  (table, { p with tables })

/-- How many files ended in one way. -/
def count (p : Progress) (ended : FileResult → Bool) : Nat := p.results.countP ended

/-- The outcome of the run with an exit status. -/
def finish (p : Progress) (exit : Nat) : Outcome :=
  { exit, stdout := p.stdout.reverse.flatten, stderr := p.stderr.reverse, files := p.files
    results := p.results.reverse }

end Progress

/-- The line that says a document would change. -/
def wouldChange (name : String) : List Char := ("Would reformat: " ++ name ++ "\n").toList

/-- Adds lines for the error output unless the run is silent. -/
def logUnlessSilent (s : Session) (p : Progress) (lines : List String) : Progress :=
  if s.args.silent then p else p.log lines

/-- Delivers a formatted file: reports it, prints it or writes it back. -/
def deliver (s : Session) (p : Progress) (path : String) (out : Formatted) : Progress :=
  let result : FileResult := if out.changed then .changed else .unchanged
  if s.args.check then
    (if out.changed && !s.args.silent then p.print (wouldChange path) else p).record result
  else if s.args.stdout then (p.print out.text).record result
  else if out.changed then
    match p.files.write s.cwd path (String.ofList out.text).toUTF8 with
    | .error e =>
      (p.log ["Error formatting " ++ path ++ ": " ++ e.message]).record (.failed e.message)
    | .ok files =>
      (logUnlessSilent s { p with files } ["Formatted: " ++ path]).record result
  else p.record result

/-- Formats one file with given settings. -/
def formatFile (s : Session) (p : Progress) (path : String) (config : Config) : Progress :=
  match p.files.read s.cwd path with
  | .error e =>
    (p.log ["Error formatting " ++ path ++ ": " ++ e.message]).record (.failed e.message)
  | .ok bytes =>
    if maxFileSize < bytes.size then
      (logUnlessSilent s p ["Skipping " ++ path ++ " (" ++ megabytes bytes.size ++
        " MB exceeds limit of " ++ megabytes maxFileSize ++ " MB)"]).record .skipped
    else
      match String.fromUTF8? bytes with
      | none =>
        (logUnlessSilent s p ["Skipping " ++ path ++ " (not valid UTF-8)"]).record .skipped
      | some text =>
        let (table, p) := p.table s
        let (out, lines) := formatNamed s config table path text.toList
        deliver s (p.log lines) path out

/-- Formats one file with the settings that apply to it. Settings from a file that is named are
the same for all. -/
def runFile (s : Session) (place : Place) (base : Config) (p : Progress) (path : String) :
    Progress :=
  if s.args.config.isSome then formatFile s p path base
  else
    let (lines, config) := configFor { place with files := p.files } s.args path
    let p := p.log lines
    match config with
    | .error e => (p.log ["Error formatting " ++ path ++ ": " ++ e]).record (.failed e)
    | .ok config => formatFile s p path config

/-- Did the file change? -/
def FileResult.isChanged (r : FileResult) : Bool := r == .changed

/-- Did the file stay as it was? -/
def FileResult.isUnchanged (r : FileResult) : Bool := r == .unchanged

/-- Was the file passed over? -/
def FileResult.isSkipped (r : FileResult) : Bool := r == .skipped

/-- Did the file fail? -/
def FileResult.isFailed : FileResult → Bool
  | .failed _ => true
  | _ => false

/-- The last line of a run. -/
def summary (p : Progress) (check : Bool) : String :=
  let skipped := p.count FileResult.isSkipped
  let failed := p.count FileResult.isFailed
  toString (p.count FileResult.isChanged) ++ " files " ++
    (if check then "would be reformatted" else "reformatted") ++ ", " ++
    toString (p.count FileResult.isUnchanged) ++ " unchanged" ++
    (if 0 < skipped then ", " ++ toString skipped ++ " skipped" else "") ++
    (if 0 < failed then ", " ++ toString failed ++ " errors" else "") ++ "."

/-- Formats the files that the command line names. -/
def runFiles (s : Session) (place : Place) (base : Config) (p : Progress) : Outcome :=
  let (files, warnings) := collectFiles place s.args
  let p := p.log warnings
  if files.isEmpty then (logUnlessSilent s p ["No ASP files found to format."]).finish 0
  else
    let p := files.foldl (runFile s place base) p
    let failed := (s.args.check && 0 < p.count FileResult.isChanged) ||
      0 < p.count FileResult.isFailed
    (logUnlessSilent s p [summary p s.args.check]).finish (if failed then 1 else 0)

/-- Formats the standard input. -/
def runStdin (s : Session) (base : Config) (p : Progress) (stdin : ByteArray) : Outcome :=
  match String.fromUTF8? stdin with
  | none => (p.log ["Error: " ++ ReadError.notUtf8.message]).finish 1
  | some text =>
    if maxFileSize < stdin.size then
      (p.log ["Error: stdin input too large (" ++ megabytes stdin.size ++
        " MB exceeds limit of " ++ megabytes maxFileSize ++ " MB)"]).finish 1
    else
      let (table, p) := p.table s
      let (out, lines) := formatNamed s base table "stdin" text.toList
      let p := p.log lines
      if s.args.check then
        (if out.changed && !s.args.silent then p.print (wouldChange "stdin") else p).finish
          (if out.changed then 1 else 0)
      else (p.print out.text).finish 0

/-- The warning about the case table, unless the run is silent. -/
def warnTable (s : Session) (p : Progress) : Progress :=
  if s.args.silent then p
  else
    let (table, p) := p.table s
    p.log (table.fallback.map fun f => "Warning: " ++ (Diagnostic.ofFault none f).render).toList

/-- Runs the program with arguments that were read. -/
def runWith (place : Place) (args : Arguments) (stdin : ByteArray) : Outcome :=
  let (lines, config) := configFor place args place.cwdPath
  match config with
  | .error e =>
    { exit := 1, stdout := [], stderr := lines ++ ["Error: " ++ e], files := place.files }
  | .ok base =>
    let s : Session := ⟨args, place.cwd, base.limits⟩
    let tables : TableStore := { source := .named base.tablePath, reader := place.tables }
    let p : Progress := { files := place.files, tables }
    let p := warnTable s (p.log lines)
    if args.readsStdin then runStdin s base p stdin else runFiles s place base p

/-- Runs the program with a command line. -/
def run (place : Place) (args : List (List Char)) (stdin : ByteArray) : Outcome :=
  match Arguments.read args with
  | .ok args => runWith place args stdin
  | .error .help => { exit := 0, stdout := helpText.toList, stderr := [], files := place.files }
  | .error .version =>
    { exit := 0, stdout := versionText.toList, stderr := [], files := place.files }
  | .error _ =>
    { exit := 2, stdout := [], stderr := ["error: invalid command line"], files := place.files }

end ClassicAsp.CommandLine
