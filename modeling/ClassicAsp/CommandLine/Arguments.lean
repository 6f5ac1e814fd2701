import ClassicAsp.Text.Lowercase
import ClassicAsp.Text.Numeral

/-! Arguments of the command line.

Options may be written with one dash and a letter or with two dashes and a name, a value follows
as the next argument or after an equals sign, letters may be run together, and a double dash makes
all later arguments paths. -/

namespace ClassicAsp.CommandLine

/-- What a command line asks for. -/
structure Arguments where
  inputs : List String := []
  indent : Option Nat := none
  noIndent : Bool := false
  noCase : Bool := false
  noWhitespace : Bool := false
  noBlankLines : Bool := false
  tablePath : Option String := none
  config : Option String := none
  stdout : Bool := false
  check : Bool := false
  recursive : Bool := false
  exclude : List String := []
  /-- Further extensions of files to format, in lower case and without dots in front. -/
  extensions : List String := []
  jobs : Option Nat := none
  stats : Bool := false
  silent : Bool := false
  debug : Bool := false
  deriving DecidableEq, Repr

/-- Is the standard input to be formatted? -/
def Arguments.readsStdin (a : Arguments) : Bool := a.inputs.isEmpty || a.inputs.contains "-"

/-- Why a command line is not run. -/
inductive Refusal where
  | unknownOption
  | missingValue
  | emptyPath
  | badNumber
  | repeatedOption
  | unexpectedValue
  /-- Help is asked for. -/
  | help
  /-- The version is asked for. -/
  | version
  deriving DecidableEq, Repr

/-- Options without a value. -/
inductive Flag where
  | noIndent
  | noCase
  | noWhitespace
  | noBlankLines
  | stdout
  | check
  | recursive
  | stats
  | silent
  | debug
  | help
  | version
  deriving DecidableEq, Repr

/-- Options with a value. -/
inductive Setting where
  | indent
  | tablePath
  | config
  | exclude
  | extension
  | jobs
  deriving DecidableEq, Repr

/-- An option. -/
inductive Switch where
  | flag (f : Flag)
  | setting (s : Setting)
  deriving DecidableEq, Repr

/-- The options by name. -/
def longOptions : List (String × Switch) := [
  ("indent", .setting .indent), ("no-indent", .flag .noIndent), ("no-case", .flag .noCase),
  ("no-whitespace", .flag .noWhitespace), ("no-blank-lines", .flag .noBlankLines),
  ("spec-table", .setting .tablePath), ("config", .setting .config), ("stdout", .flag .stdout),
  ("check", .flag .check), ("recursive", .flag .recursive), ("exclude", .setting .exclude),
  ("ext", .setting .extension), ("jobs", .setting .jobs), ("stats", .flag .stats),
  ("silent", .flag .silent), ("debug", .flag .debug), ("help", .flag .help),
  ("version", .flag .version)]

/-- The options by letter. -/
def shortOptions : List (Char × Switch) := [
  ('i', .setting .indent), ('c', .setting .config), ('s', .flag .stdout),
  ('r', .flag .recursive), ('e', .setting .exclude), ('j', .setting .jobs),
  ('S', .flag .silent), ('D', .flag .debug), ('h', .flag .help), ('V', .flag .version)]

/-- The option of a name. -/
def longOption? (name : List Char) : Option Switch :=
  (longOptions.find? (·.1.toList == name)).map (·.2)

/-- The option of a letter. -/
def shortOption? (letter : Char) : Option Switch :=
  (shortOptions.find? (·.1 == letter)).map (·.2)

/-- Values that were read but not taken in yet. -/
inductive Pending where
  | nothing
  /-- Paths, the last one first. -/
  | paths (reversed : List (List Char))
  /-- An option, and its value once it was read. -/
  | setting (s : Setting) (value : Option (List Char))
  deriving DecidableEq, Repr

/-- The state of reading. -/
structure Reading where
  result : Arguments := {}
  pending : Pending := .nothing
  /-- Has a double dash been read? -/
  onlyPaths : Bool := false
  deriving Repr

/-- Reads a number. -/
def number (value : List Char) : Except Refusal Nat :=
  match Text.readWord? value with
  | some n => .ok n
  | none => .error .badNumber

/-- Reads a path. -/
def path (value : List Char) : Except Refusal String :=
  if value.isEmpty then .error .emptyPath else .ok (String.ofList value)

/-- An extension in lower case without dots in front. -/
def extension (value : List Char) : String :=
  String.ofList (Text.lowercase (value.dropWhile (· == '.')))

/-- Takes in the value of an option. One that counts once must not be given again. -/
def Arguments.set (a : Arguments) (s : Setting) (value : List Char) :
    Except Refusal Arguments :=
  match s with
  | .indent =>
    if a.indent.isSome then .error .repeatedOption
    else (number value).map fun n => { a with indent := some n }
  | .jobs =>
    if a.jobs.isSome then .error .repeatedOption
    else (number value).map fun n => { a with jobs := some n }
  | .tablePath =>
    if a.tablePath.isSome then .error .repeatedOption
    else (path value).map fun p => { a with tablePath := some p }
  | .config =>
    if a.config.isSome then .error .repeatedOption
    else (path value).map fun p => { a with config := some p }
  | .exclude => .ok { a with exclude := a.exclude ++ [String.ofList value] }
  | .extension => .ok { a with extensions := a.extensions ++ [extension value] }

/-- Turns a truth value on, unless it is on. -/
def turnOn (current : Bool) (result : Arguments) : Except Refusal Arguments :=
  if current then .error .repeatedOption else .ok result

/-- Takes in an option without a value. -/
def Arguments.turn (a : Arguments) : Flag → Except Refusal Arguments
  | .noIndent => turnOn a.noIndent { a with noIndent := true }
  | .noCase => turnOn a.noCase { a with noCase := true }
  | .noWhitespace => turnOn a.noWhitespace { a with noWhitespace := true }
  | .noBlankLines => turnOn a.noBlankLines { a with noBlankLines := true }
  | .stdout => turnOn a.stdout { a with stdout := true }
  | .check => turnOn a.check { a with check := true }
  | .recursive => turnOn a.recursive { a with recursive := true }
  | .stats => turnOn a.stats { a with stats := true }
  | .silent => turnOn a.silent { a with silent := true }
  | .debug => turnOn a.debug { a with debug := true }
  | .help => .error .help
  | .version => .error .version

namespace Reading

/-- Takes in what is pending. -/
def settle (r : Reading) : Except Refusal Reading :=
  match r.pending with
  | .nothing => .ok r
  | .paths reversed => do
    let inputs ← reversed.reverse.mapM path
    return { r with
      result := { r.result with inputs := r.result.inputs ++ inputs }
      pending := .nothing }
  | .setting _ none => .error .missingValue
  | .setting s (some value) => do
    return { r with result := ← r.result.set s value, pending := .nothing }

/-- Takes in an option without a value. -/
def flag (r : Reading) (f : Flag) : Except Refusal Reading := do
  let r ← r.settle
  return { r with result := ← r.result.turn f }

/-- Takes in an option with its value, or waits for the value. -/
def setting (r : Reading) (s : Setting) : Option (List Char) → Except Refusal Reading
  | some value => do
    let r ← r.settle
    return { r with result := ← r.result.set s value }
  | none => do
    let r ← r.settle
    return { r with pending := .setting s none }

/-- The value that follows letters: what comes after an equals sign, or all. -/
def attached? : List Char → Option (List Char)
  | [] => none
  | '=' :: value => some value
  | value => some value

/-- Reads options by letter. -/
def letters (r : Reading) : List Char → Except Refusal Reading
  | [] => .ok r
  | letter :: rest =>
    match shortOption? letter with
    | none => .error .unknownOption
    | some (.setting s) => r.setting s (attached? rest)
    | some (.flag f) =>
      match r.flag f with
      | .ok r => r.letters rest
      | .error e => .error e

/-- Reads an option by name, with the value after an equals sign. -/
def named (r : Reading) (text : List Char) : Except Refusal Reading :=
  let name := text.takeWhile (· != '=')
  let value := if name.length < text.length then some (text.drop (name.length + 1)) else none
  match longOption? name, value with
  | none, _ => .error .unknownOption
  | some (.setting s), value => r.setting s value
  | some (.flag f), none => r.flag f
  | some (.flag _), some _ => .error .unexpectedValue

/-- Reads a path. -/
def input (r : Reading) (text : List Char) : Except Refusal Reading :=
  match r.pending with
  | .paths reversed => .ok { r with pending := .paths (text :: reversed) }
  | _ => do
    let r ← r.settle
    return { r with pending := .paths [text] }

/-- Reads an argument. -/
def argument (r : Reading) (text : List Char) : Except Refusal Reading :=
  if r.onlyPaths then r.input text
  else
    match text with
    | ['-', '-'] => .ok { r with onlyPaths := true }
    | '-' :: '-' :: name => r.named name
    | '-' :: letter :: rest => r.letters (letter :: rest)
    | _ =>
      match r.pending with
      | .setting s none => .ok { r with pending := .setting s (some text) }
      | _ => r.input text

end Reading

/-- Reads a command line without the name of the program. -/
def Arguments.read (args : List (List Char)) : Except Refusal Arguments := do
  let r ← args.foldlM Reading.argument {}
  return (← r.settle).result

end ClassicAsp.CommandLine
