import ClassicAsp.CommandLine.Run

/-! The program on a disk. The files that a run may look at are read first, the run is worked out
on them, and the files that changed are written back. -/

namespace ClassicAsp.CommandLine

/-- The place of a directory or file as a path. -/
def diskPath (place : List String) : String := "/" ++ "/".intercalate place

/-- Adds the file at a place, if there is one. -/
def addFile (files : FileTree) (place : List String) : IO FileTree := do
  let path := System.mkFilePath [diskPath place]
  if files.any (·.1 == place) || (← path.isDir) || !(← path.pathExists) then return files
  try
    let bytes ← IO.FS.readBinFile path
    return files.put place (.file bytes)
  catch e => return files.put place (.locked (toString e))

/-- Adds what is at a place and below it, down to a depth. -/
def addBelow : Nat → FileTree → List String → IO FileTree
  | 0, files, _ => return files
  | depth + 1, files, place => do
    let path := System.mkFilePath [diskPath place]
    if ← path.isDir then
      let mut found := files.put place .directory
      for entry in ← path.readDir do
        found ← addBelow depth found (place ++ [entry.fileName])
      return found
    else addFile files place

/-- Adds the settings files of a directory and of those above it. -/
def addSettings (files : FileTree) (place : List String) : IO FileTree :=
  (List.range (place.length + 1)).foldlM
    (fun files n => addFile files (place.take n ++ [Settings.fileName])) files

/-- The files that a run with these arguments may look at. -/
def snapshot (args : Arguments) (cwd : List String) (home : Option String) : IO FileTree := do
  let inputs := if args.readsStdin then [] else args.inputs.map (Path.place cwd)
  let mut files : FileTree := [(cwd, .directory)]
  for input in inputs do
    files ← addBelow (searchDepth args + 1) files input
  for place in (cwd :: files.map (·.1.dropLast)).eraseDups do
    files ← addSettings files place
  for directory in home.toList do
    files ← addFile files (Path.place cwd directory ++ [Settings.fileName])
  for path in args.config.toList ++ args.tablePath.toList do
    files ← addFile files (Path.place cwd path)
  let settings := (files.map (·.1)).filter (·.getLast? == some Settings.fileName)
  for place in args.config.toList.map (Path.place cwd) ++ settings do
    if let .ok { tablePath := some path, .. } := Settings.load { files, cwd } (diskPath place) then
      files ← addFile files (Path.place cwd path)
  return files

/-- Where the program runs, with the files that it may look at. -/
def currentPlace (args : Arguments) : IO Place := do
  let cwd := Path.place [] (← IO.currentDir).toString
  let home := Place.homeOf? (← IO.getEnv "HOME") (← IO.getEnv "USERPROFILE")
  return { files := ← snapshot args cwd home, cwd, home }

/-- Prints what a run says and writes the files that it changed. -/
def perform (before : FileTree) (out : Outcome) : IO UInt32 := do
  IO.print (String.ofList out.stdout)
  for line in out.stderr do
    IO.eprintln line
  for (place, bytes) in before.changes out.files do
    IO.FS.writeBinFile (diskPath place) bytes
  return UInt32.ofNat out.exit

end ClassicAsp.CommandLine

open ClassicAsp CommandLine in
/-- Runs the program. Without inputs and at a terminal it only says how it is used. -/
def main (arguments : List String) : IO UInt32 := do
  let texts := arguments.map String.toList
  match Arguments.read texts with
  | .error _ => perform [] (run {} texts ByteArray.empty)
  | .ok args =>
    let stdin ← IO.getStdin
    if args.inputs.isEmpty && (← stdin.isTty) then
      IO.print usageText
      return 0
    let place ← currentPlace args
    let input ← if args.readsStdin then stdin.readBinToEnd else pure ByteArray.empty
    perform place.files (runWith place args input)
