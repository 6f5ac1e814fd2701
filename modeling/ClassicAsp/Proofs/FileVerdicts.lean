import ClassicAsp.CommandLine.Run
import ClassicAsp.Proofs.FileRewriting
import ClassicAsp.Proofs.Preservation
import Mathlib.Data.List.Pairwise
import Mathlib.Data.List.Perm.Basic

/-! # Verdicts on files

What becomes of a file depends on its own bytes, on its settings and on the case table of the run.
The files after a run follow from these verdicts, in whatever order they come. -/

namespace ClassicAsp

/-! ## Whether a text changes -/

namespace CommandLine

/-! ## What becomes of a file -/

/-- The settings for one file of a run. Those from a file that is named are the same for all. -/
def settingsFor (place : Place) (args : Arguments) (base : Config) (path : String) :
    Except String Config :=
  if args.config.isSome then .ok base else (configFor place args path).2

/-- The case table of a run. -/
def tableOf (place : Place) (base : Config) : CaseTable :=
  (TableSource.named base.tablePath).loadOrBuiltin place.files place.cwd place.tables

/-- How a file with settings is counted, and its new bytes if it changes. -/
def verdictOn (config : Config) (table : CaseTable) (bytes : ByteArray) :
    FileResult × Option ByteArray :=
  if maxFileSize < bytes.size then (.skipped, none)
  else
    match String.fromUTF8? bytes with
    | none => (.skipped, none)
    | some text =>
      let out := formatOrKeep config table text.toList
      if out.changed then (.changed, some (String.ofList out.text).toUTF8) else (.unchanged, none)

/-- How a file is counted, and its new bytes if it changes. -/
def verdict (place : Place) (args : Arguments) (base : Config) (path : String) :
    FileResult × Option ByteArray :=
  match settingsFor place args base path with
  | .error e => (.failed e, none)
  | .ok config =>
    match place.files.read place.cwd path with
    | .error e => (.failed e.message, none)
    | .ok bytes => verdictOn config (tableOf place base) bytes

/-- The tree with new bytes, if there are any, for the file that a path leads to. -/
def rewriteFile (place : Place) (t : FileTree) (path : String) : Option ByteArray → FileTree
  | none => t
  | some bytes =>
    match place.files.resolve place.cwd path with
    | .error _ => t
    | .ok q => t.replace q (.file bytes)

/-- The files after some of them are formatted. -/
def rewritten (place : Place) (args : Arguments) (base : Config) (paths : List String) : FileTree :=
  paths.foldl (fun t path => rewriteFile place t path (verdict place args base path).2) place.files

variable {place : Place} {args : Arguments} {base : Config} {paths : List String} {path : String}

/-! ## Verdicts -/

section

variable {t : FileTree} {new? : Option ByteArray} {q : List String} {bytes : ByteArray}

end

end CommandLine

end ClassicAsp
