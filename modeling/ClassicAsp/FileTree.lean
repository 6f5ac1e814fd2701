import ClassicAsp.Path

/-! Trees of files, and access to them by paths relative to a current directory. -/

namespace ClassicAsp

/-- What is at a place of the tree. -/
inductive FileNode where
  | file (bytes : ByteArray)
  /-- A file that gives no access to its bytes, and the reason that the system has for this. -/
  | locked (reason : String)
  | directory

/-- Files and directories by the names that lead to them from the root. Directories around an
entry exist without an entry of their own. -/
abbrev FileTree := List (List String × FileNode)

/-- Why a file cannot be read. -/
inductive ReadError where
  | notFound
  | notDirectory
  | isDirectory
  | nameTooLong
  | badName
  | notUtf8
  /-- The system does not give access to the file. -/
  | denied (reason : String)
  deriving DecidableEq, Repr

/-- The text of a reading error. -/
def ReadError.message : ReadError → String
  | .notFound => "No such file or directory (os error 2)"
  | .notDirectory => "Not a directory (os error 20)"
  | .isDirectory => "Is a directory (os error 21)"
  | .nameTooLong => "File name too long (os error 36)"
  | .badName => "file name contained an unexpected NUL byte"
  | .notUtf8 => "stream did not contain valid UTF-8"
  | .denied reason => reason

namespace FileTree

/-- What is at a place. -/
def node? (t : FileTree) (place : List String) : Option FileNode :=
  match t.find? (·.1 == place) with
  | some e => some e.2
  | none =>
    if place.isEmpty || t.any (fun e => place.isPrefixOf e.1) then some .directory else none

/-- One step from a place, which has to be a directory, by a name that is not too long. -/
def step (t : FileTree) (place : List String) (piece : String) :
    Except ReadError (List String) :=
  match t.node? place with
  | none => .error .notFound
  | some (.file _) | some (.locked _) => .error .notDirectory
  | some .directory =>
    if Path.maxNameLength < piece.utf8ByteSize then .error .nameTooLong
    else .ok (Path.stepFrom place piece)

/-- The place that a path leads to from the current directory. -/
def resolve (t : FileTree) (cwd : List String) (path : String) : Except ReadError (List String) :=
  if path == "" then .error .notFound
  else if path.toList.contains '\x00' then .error .badName
  else if Path.maxLength < path.utf8ByteSize then .error .nameTooLong
  else (Path.pieces path).foldlM t.step (Path.start cwd path)

/-- What a path leads to. -/
def lookup (t : FileTree) (cwd : List String) (path : String) :
    Except ReadError (List String × FileNode) := do
  let place ← t.resolve cwd path
  match t.node? place with
  | none => throw .notFound
  | some node => return (place, node)

/-- The bytes of a file. -/
def read (t : FileTree) (cwd : List String) (path : String) : Except ReadError ByteArray :=
  match t.lookup cwd path with
  | .error e => .error e
  | .ok (_, .directory) => .error .isDirectory
  | .ok (_, .locked reason) => .error (.denied reason)
  | .ok (_, .file bytes) => .ok bytes

/-- The text of a file. -/
def readText (t : FileTree) (cwd : List String) (path : String) : Except ReadError (List Char) :=
  match t.read cwd path with
  | .error e => .error e
  | .ok bytes =>
    match String.fromUTF8? bytes with
    | some text => .ok text.toList
    | none => .error .notUtf8

/-- Does the path lead to a file? -/
def isFile (t : FileTree) (cwd : List String) (path : String) : Bool :=
  match t.lookup cwd path with
  | .ok (_, .file _) | .ok (_, .locked _) => true
  | _ => false

/-- Does the path lead to a directory? -/
def isDirectory (t : FileTree) (cwd : List String) (path : String) : Bool :=
  match t.lookup cwd path with
  | .ok (_, .directory) => true
  | _ => false

/-- Puts a node where the tree has an entry for a place. -/
def replace (t : FileTree) (place : List String) (node : FileNode) : FileTree :=
  t.map fun e => if e.1 == place then (place, node) else e

/-- Puts a node at a place. -/
def put (t : FileTree) (place : List String) (node : FileNode) : FileTree :=
  if t.any (·.1 == place) then t.replace place node else t ++ [(place, node)]

/-- Makes the place a directory unless something is there. -/
def ensureDirectory (t : FileTree) (place : List String) : FileTree :=
  if (t.node? place).isSome then t else t.put place .directory

/-- Makes the directories that steps from a place lead through, up to a step that fails. -/
def makeSteps (t : FileTree) (place : List String) : List String → FileTree
  | [] => t
  | piece :: rest =>
    match t.step place piece with
    | .ok next => (t.ensureDirectory next).makeSteps next rest
    | .error _ => t

/-- Makes the directories on a path. -/
def makeDirectories (t : FileTree) (cwd : List String) (path : String) : FileTree :=
  if path.toList.contains '\x00' || Path.maxLength < path.utf8ByteSize then t
  else t.makeSteps (Path.start cwd path) (Path.pieces path)

/-- Makes a directory, or a file together with the directories around it. What cannot be made is
left out, and a directory is not replaced by a file. -/
def create (t : FileTree) (cwd : List String) (path : String) : FileNode → FileTree
  | .directory => t.makeDirectories cwd path
  | node =>
    let t := t.makeDirectories cwd ((Path.parent? path).getD "")
    match t.resolve cwd path with
    | .error _ => t
    | .ok place =>
      match t.node? place with
      | some .directory => t
      | _ => t.put place node

/-- Takes a file away, where a path leads to one. The directory around it stays. -/
def erase (t : FileTree) (cwd : List String) (path : String) : FileTree :=
  match t.lookup cwd path with
  | .ok (place, .file _) | .ok (place, .locked _) =>
    ensureDirectory (t.filter (!·.1 == place)) place.dropLast
  | _ => t

/-- Puts new bytes into the file that a path leads to. -/
def write (t : FileTree) (cwd : List String) (path : String) (bytes : ByteArray) :
    Except ReadError FileTree := do
  let place ← t.resolve cwd path
  match t.node? place with
  | some (.locked reason) => throw (.denied reason)
  | _ => return t.put place (.file bytes)

/-- The names in a directory, in the order of their code points, each once. -/
def namesIn (t : FileTree) (place : List String) : List String :=
  let below := t.filterMap fun e =>
    if place.isPrefixOf e.1 then e.1[place.length]? else none
  below.eraseDups.mergeSort fun a b => !decide (b < a)

/-- The files below a directory, down to a depth, in order. Each comes with the path that leads
to it from the path of the directory. -/
def filesBelow (t : FileTree) : Nat → List String → String → List String
  | 0, _, _ => []
  | depth + 1, place, path =>
    (t.namesIn place).flatMap fun name =>
      match t.node? (place ++ [name]) with
      | some (.file _) | some (.locked _) => [Path.join path name]
      | some .directory => filesBelow t depth (place ++ [name]) (Path.join path name)
      | none => []

/-- The files of one tree whose bytes are different in another one, with the new bytes. -/
def changes (before after : FileTree) : List (List String × ByteArray) :=
  before.filterMap fun (place, node) =>
    match node, after.node? place with
    | .file old, some (.file new) => if old == new then none else some (place, new)
    | _, _ => none

end FileTree

end ClassicAsp
