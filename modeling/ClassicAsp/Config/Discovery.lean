import ClassicAsp.CaseTable.Reading
import ClassicAsp.CommandLine.Glob
import ClassicAsp.Config.Reading
import ClassicAsp.FileTree

/-! Settings files: reading one, and finding those that apply to a path. -/

namespace ClassicAsp

/-- Why a settings file gives nothing. -/
inductive SettingsError where
  | unreadable (cause : ReadError)
  | malformed (reason : String := Settings.malformed)
  deriving DecidableEq, Repr

/-- The text of the reason. -/
def SettingsError.message : SettingsError → String
  | .unreadable cause => cause.message
  | .malformed reason => reason

/-- Where a run takes place: the files, the current directory and the home directory. The texts that
a run is given are read with libraries, which are part of the place. -/
structure Place where
  files : FileTree := []
  cwd : List String := []
  home : Option String := none
  tables : TableReader := {}
  /-- Reads settings from a text in the TOML format, or says what is wrong with it. -/
  settings : List Char → Except String Settings := Settings.read
  /-- Reads a pattern for paths and gives the texts that fit it, or says what is wrong with it. -/
  pattern : List Char → Except String (List Char → Bool) := CommandLine.Glob.reader

namespace Place

/-- The home directory, where the environment names it in one of two ways; the first one counts. -/
def homeOf? (home profile : Option String) : Option String := home.or profile

/-- The current directory as a path. -/
def cwdPath (p : Place) : String := "/" ++ "/".intercalate p.cwd

/-- Does the path lead to a file? -/
def isFile (p : Place) (path : String) : Bool := p.files.isFile p.cwd path

/-- Does the path lead to a directory? -/
def isDirectory (p : Place) (path : String) : Bool := p.files.isDirectory p.cwd path

end Place

namespace Settings

/-- The settings in a file. -/
def load (place : Place) (path : String) : Except SettingsError Settings :=
  match place.files.readText place.cwd path with
  | .error e => .error (.unreadable e)
  | .ok text =>
    match place.settings text with
    | .ok s => .ok s
    | .error reason => .error (.malformed reason)

/-- The name of settings files. -/
def fileName : String := "aspfmt.toml"

/-- The directory where the search for a path starts: that of a file, a directory itself, or
else the current directory. -/
def startDirectory? (place : Place) (path : String) : Option String :=
  if place.isFile path then Path.parent? path
  else if place.isDirectory path then some path
  else some place.cwdPath

/-- Adds a path that is not among the others. -/
def addPath (found : List String) (path : String) : List String :=
  if found.any fun f => Path.parts f == Path.parts path then found else found ++ [path]

/-- The settings files for a path, those that count less first: the one in the home directory,
and those in the directories from the root down to where the path is. -/
def discover (place : Place) (path : String) : List String :=
  let home := (place.home.map (Path.join · fileName)).toList
  let above := ((startDirectory? place path).map Path.ancestors).getD []
  let candidates := above.reverse.map (Path.join · fileName)
  (candidates.filter place.isFile).foldl addPath (home.filter place.isFile)

end Settings

namespace Config

/-- Settings from one file alone. -/
def load (place : Place) (path : String) : Except SettingsError Config :=
  (Settings.load place path).map ({} : Config).apply

/-- Merges the settings in a file: whether that works, and the settings after it. -/
def merge (c : Config) (place : Place) (path : String) : Except SettingsError Unit × Config :=
  match Settings.load place path with
  | .ok s => (.ok (), c.apply s)
  | .error e => (.error e, c)

/-- The warning about a settings file that is left out. -/
def leftOut (path : String) : SettingsError → String
  | .malformed reason => "Warning: failed to parse " ++ path ++ ": " ++ reason
  | .unreadable cause => "Warning: failed to read " ++ path ++ ": " ++ cause.message

/-- Settings changed by those in a file if it gives any, with the warnings so far. -/
def mergeOrWarn (place : Place) (state : Config × List String) (path : String) :
    Config × List String :=
  match Settings.load place path with
  | .ok s => (state.1.apply s, state.2)
  | .error e => (state.1, state.2 ++ [leftOut path e])

/-- The settings for a path from all files that apply to it, with warnings. -/
def discovered (place : Place) (path : String) : Config × List String :=
  (Settings.discover place path).foldl (mergeOrWarn place) ({}, [])

end Config

end ClassicAsp
