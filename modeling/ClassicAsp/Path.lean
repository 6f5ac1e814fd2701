import ClassicAsp.Text.Split

/-! Paths of files as texts, with names between slashes.

Empty names and dots in the middle do not count; a dot in front does. -/

namespace ClassicAsp.Path

/-- The most bytes that a name may have. -/
def maxNameLength : Nat := 255

/-- The most bytes that a path may have. -/
def maxLength : Nat := 4095

/-- Does the path start at the root? -/
def isAbsolute (path : String) : Bool := path.toList.head? == some '/'

/-- The texts between slashes. -/
def pieces (path : String) : List String :=
  (Text.splitAt (· == '/') path.toList).map String.ofList

/-- Does a piece that is not the first one count for nothing? -/
def isFiller (piece : String) : Bool := piece == "" || piece == "."

/-- The parts of a path that count: a slash for the root, and names. -/
def parts (path : String) : List String :=
  match pieces path with
  | [] => []
  | first :: rest =>
    let rest := rest.filter (!isFiller ·)
    if first == "" then (if isAbsolute path then "/" :: rest else rest) else first :: rest

/-- Is the path the empty one or the root? -/
def isTop (path : String) : Bool := (parts path).all (· == "/")

/-- Drops pieces that count for nothing from reversed pieces, but for the first piece. -/
def dropFillers : List String → List String
  | piece :: first :: rest =>
    if isFiller piece then dropFillers (first :: rest) else piece :: first :: rest
  | pieces => pieces

/-- The path without its last part. -/
def parent? (path : String) : Option String :=
  if isTop path then none
  else
    let kept := (dropFillers ((dropFillers (pieces path).reverse).drop 1)).reverse
    let text := "/".intercalate kept
    some (if text == "" && isAbsolute path then "/" else text)

/-- The path and the paths above it, at most as many as the fuel. -/
def ancestorsWithin : Nat → String → List String
  | 0, _ => []
  | fuel + 1, path =>
    path :: match parent? path with
      | some above => ancestorsWithin fuel above
      | none => []

/-- The path and the paths above it, up to the root or the empty path. -/
def ancestors (path : String) : List String := ancestorsWithin ((parts path).length + 1) path

/-- A path below another one. -/
def join (base name : String) : String :=
  if isAbsolute name || base == "" then name
  else if base.toList.getLast? == some '/' then base ++ name
  else base ++ "/" ++ name

/-- One piece of a path as a step from a place, which is given by the names from the root. -/
def stepFrom (place : List String) (piece : String) : List String :=
  if isFiller piece then place else if piece == ".." then place.dropLast else place ++ [piece]

/-- The place where a path starts: the root or the current directory. -/
def start (cwd : List String) (path : String) : List String :=
  if isAbsolute path then [] else cwd

/-- The place that a path names from a current directory, whatever is there. -/
def place (cwd : List String) (path : String) : List String :=
  (pieces path).foldl stepFrom (start cwd path)

/-- The proper names in a path. -/
def names (path : String) : List String :=
  (parts path).filter fun p => p != "/" && p != "." && p != ".."

/-- The last part, if it is a proper name. -/
def fileName? (path : String) : Option String :=
  (parts path).getLast?.filter fun p => p != "/" && p != "." && p != ".."

/-- What follows the last dot of the file name, if something is before it. -/
def extension? (path : String) : Option (List Char) :=
  (fileName? path).bind fun name =>
    let cs := name.toList
    let ext := (cs.reverse.takeWhile (· != '.')).reverse
    if ext.length + 1 < cs.length then some ext else none

end ClassicAsp.Path
