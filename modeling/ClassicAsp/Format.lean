import ClassicAsp.Analysis
import ClassicAsp.BlankLine
import ClassicAsp.Config
import ClassicAsp.Normalization

/-! Formatting of whole documents.

Markup and lines with markers are kept byte for byte. A line that cannot be normalized keeps its
text, and a document that is too long or asks to be left alone is kept whole. -/

namespace ClassicAsp

/-- The result of formatting. -/
structure Formatted where
  text : List Char
  changed : Bool
  diagnostics : List Diagnostic
  deriving DecidableEq, Repr

/-- The result that keeps a text. -/
def Formatted.unchanged (text : List Char) (diagnostics : List Diagnostic) : Formatted :=
  ⟨text, false, diagnostics⟩

/-- Why formatting stopped altogether. -/
inductive Abort where
  /-- An indent does not fit in memory. -/
  | indentTooLarge
  deriving DecidableEq, Repr

/-- The text of the reason. -/
def Abort.message : Abort → String
  | .indentTooLarge => "capacity overflow"

namespace Format

/-- The normalization that the settings ask for. -/
def normalization (config : Config) : Normalization :=
  ⟨config.imposeCase, config.imposeWhitespace⟩

/-- The blanks before the content of a line at a level. -/
def lead (config : Config) (line : OwnedLine) (level : Nat) : Except Abort (List Char) :=
  if config.imposeIndent then
    match indentText? level config.indent with
    | some spaces => .ok spaces
    | none => .error .indentTooLarge
  else .ok (line.content.takeWhile Text.isBlank)

/-- The content of a line without the blanks around it, normalized if it can be. -/
def content (config : Config) (table : CaseTable) (line : OwnedLine) :
    List Char × Option Diagnostic :=
  if line.isComment || !(config.imposeCase || config.imposeWhitespace) then (line.trimmed, none)
  else
    match (normalization config).line table config.limits line.trimmed with
    | .ok text => (text, none)
    | .error fault => (line.trimmed, some (.ofFault (some (line.index + 1)) fault))

/-- A line at a level as formatting writes it, with its ending. -/
def line (config : Config) (table : CaseTable) (l : OwnedLine) (level : Nat) :
    Except Abort (List Char × Option Diagnostic) :=
  if !l.isBody then .ok (l.content ++ l.ending.text, none)
  else if l.isBlank then .ok (l.ending.text, none)
  else do
    let lead ← lead config l level
    let (text, warning) := content config table l
    return (lead ++ text ++ l.ending.text, warning)

/-- Writes lines after the pieces and warnings so far, both reversed. Each line comes with its
level and whether a blank line goes above it. -/
def linesAfter (config : Config) (table : CaseTable) (ending : Ending)
    (done : List (List Char)) (warnings : List Diagnostic) :
    List ((OwnedLine × Nat) × Bool) → Except Abort (List (List Char) × List Diagnostic)
  | [] => .ok (done.reverse, warnings.reverse)
  | ((l, level), insert) :: rest =>
    match line config table l level with
    | .error e => .error e
    | .ok (text, warning) =>
      let piece := (if insert then ending.text else []) ++ text
      linesAfter config table ending (piece :: done) (warning.toList ++ warnings) rest

/-- Formats a text with settings that no directive changes any more. -/
def withSettings (config : Config) (table : CaseTable) (text : List Char) :
    Except Abort Formatted := do
  let layout := Layout.ofText config.limits text
  let outlined := layout.lines.map (·.1)
  let plan := if config.blankLines then BlankLine.plan outlined
    else outlined.map fun _ => false
  let levels := layout.lines.map fun ((l, _), level) => (l, level)
  let (pieces, warnings) ←
    linesAfter config table layout.document.ending [] [] (levels.zip plan)
  let out := pieces.flatten
  return ⟨out, out != text, layout.diagnostics ++ warnings⟩

end Format

/-- Formats a text. The first directive in it changes the settings. -/
def format (config : Config) (table : CaseTable) (text : List Char) : Except Abort Formatted :=
  let length := Text.byteLength text
  if config.limits.exceeds .textLength length then
    .ok (.unchanged text [Analysis.tooLong length])
  else
    match Directive.find? text with
    | some .off => .ok (.unchanged text [])
    | directive =>
      let config := match directive with
        | some (.overrides o) => config.override o
        | _ => config
      if Region.hasOpening text then Format.withSettings config table text
      else .ok (.unchanged text [])

end ClassicAsp
