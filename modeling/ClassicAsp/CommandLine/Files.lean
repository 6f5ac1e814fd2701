import ClassicAsp.CommandLine.Arguments
import ClassicAsp.Config.Discovery

/-! The files that a command line names. -/

namespace ClassicAsp.CommandLine

/-- The extensions of files that are formatted in directories. -/
def usualExtensions : List (List Char) := ["asp", "asa", "inc"].map String.toList

/-- Has the path an extension of files to format, in any case? -/
def hasExtension (extra : List String) (path : String) : Bool :=
  (Path.extension? path).any fun ext =>
    let ext := Text.lowercase ext
    usualExtensions.contains ext || extra.any (·.toList == ext)

/-- Does a pattern fit the path or a name in it? -/
def isExcluded (patterns : List (List Char → Bool)) (path : String) : Bool :=
  patterns.any fun fits => fits path.toList || (Path.names path).any (fits ·.toList)

/-- The patterns that can be read, and warnings about the others. -/
def readPatterns (place : Place) (texts : List String) :
    List (List Char → Bool) × List String :=
  let read := texts.map fun t => (t, place.pattern t.toList)
  (read.filterMap fun (_, r) => r.toOption,
    read.filterMap fun (t, r) =>
      match r with
      | .ok _ => none
      | .error reason => some ("Warning: ignoring exclude pattern " ++ t ++ ": " ++ reason))

/-- How deep directories are searched. -/
def searchDepth (args : Arguments) : Nat := if args.recursive then 256 else 1

/-- The files that an input stands for, and a warning if there is nothing. A file that is named
is taken whatever its extension. -/
def filesOf (place : Place) (args : Arguments) (patterns : List (List Char → Bool))
    (input : String) : List String × Option String :=
  match place.files.lookup place.cwd input with
  | .ok (_, .file _) | .ok (_, .locked _) =>
    (if isExcluded patterns input then [] else [input], none)
  | .ok (dir, .directory) =>
    ((place.files.filesBelow (searchDepth args) dir input).filter fun path =>
      hasExtension args.extensions path && !isExcluded patterns path, none)
  | .error _ => ([], some ("Warning: no such file or directory: " ++ input))

/-- All files to format, in order, and warnings. -/
def collectFiles (place : Place) (args : Arguments) : List String × List String :=
  let (patterns, warnings) := readPatterns place args.exclude
  let found := args.inputs.map (filesOf place args patterns)
  (found.flatMap (·.1), warnings ++ found.filterMap (·.2))

end ClassicAsp.CommandLine
