/-! What the program says about itself. -/

namespace ClassicAsp.CommandLine

/-- The name of the program. -/
def programName : String := "aspfmt"

/-- The version of the program. -/
def version : String := "0.1.0"

/-- What is printed for the version. -/
def versionText : String := programName ++ " " ++ version ++ "\n"

/-- Lines as one text. -/
def linesText (lines : List String) : String := String.join (lines.map (· ++ "\n"))

/-- The options with what each is for. -/
def optionHelp : List (String × String) := [
  ("-i, --indent <NUM>", "Number of spaces per indent level [default: 4]"),
  ("    --no-indent", "Keep existing indentation of script lines"),
  ("    --no-case", "Do not normalize keyword and object member case"),
  ("    --no-whitespace", "Do not normalize spacing around operators"),
  ("    --no-blank-lines", "Do not insert blank lines around procedures"),
  ("    --spec-table <FILE>", "Path to a keyword table replacing the bundled one"),
  ("-c, --config <FILE>", "Path to configuration file (overrides auto-discovery)"),
  ("-s, --stdout", "Output to stdout instead of modifying files in-place"),
  ("    --check", "Write nothing; list files that would change and exit 1 if any"),
  ("-r, --recursive", "Recursively format directories"),
  ("-e, --exclude <PATTERN>",
    "Exclude files/directories matching pattern (glob syntax, can be repeated)"),
  ("    --ext <EXT>", "Additional file extension to format (can be repeated, e.g., --ext aspx)"),
  ("-j, --jobs <NUM>", "Number of parallel jobs (0=auto, 1=sequential)"),
  ("    --stats", "Print region and block statistics for each file"),
  ("-S, --silent", "Silent mode (no output, for editor integration)"),
  ("-D, --debug", "Enable debug output (shows config, statistics, diagnostics)"),
  ("-h, --help", "Print help"),
  ("-V, --version", "Print version")]

/-- Fills a text up with spaces to a width. -/
def padded (width : Nat) (text : String) : String :=
  text ++ String.ofList (List.replicate (width - text.length) ' ')

/-- What is printed for help. -/
def helpText : String :=
  let width := (optionHelp.map (·.1.length)).foldl max 0
  linesText ([
    "Formatter for Classic ASP pages (VBScript embedded in HTML)",
    "",
    "Usage: " ++ programName ++ " [OPTIONS] [PATH]...",
    "",
    "Arguments:",
    "  [PATH]...  Files or directories to format (use - for stdin)",
    "",
    "Options:"] ++
    optionHelp.map fun (option, text) => "  " ++ padded width option ++ "  " ++ text)

/-- What is printed if there is nothing to read. -/
def usageText : String :=
  linesText [
    programName ++ " v" ++ version ++ " - Classic ASP page formatter",
    "",
    "Re-indents VBScript inside <% %> regions and leaves markup untouched.",
    "",
    "Usage:",
    "  aspfmt [OPTIONS] <PATH>...",
    "  aspfmt [OPTIONS] -r <DIRECTORY>",
    "  aspfmt [OPTIONS] -              # Read from stdin",
    "",
    "Examples:",
    "  aspfmt default.asp              # Format single file in-place",
    "  aspfmt -r site/                 # Recursively format directory",
    "  aspfmt --check -r site/         # List files that would change",
    "  aspfmt -i 2 --no-case page.asp  # 2-space indent, keep keyword case",
    "  cat page.asp | aspfmt           # Pipe through aspfmt",
    "",
    "Run `aspfmt --help` for every option.",
    "",
    "Supported extensions: .asp, .asa, .inc (plus --ext)",
    "",
    "Config file auto-discovery:",
    "  Searches for aspfmt.toml in parent directories",
    "  starting from the file being formatted up to the root directory.",
    "  Also checks aspfmt.toml in the home directory.",
    "  More specific configs (closer to file) override less specific ones."]

end ClassicAsp.CommandLine
