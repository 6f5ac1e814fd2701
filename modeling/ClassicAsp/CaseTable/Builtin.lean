import ClassicAsp.CaseTable.Bundled

/-! The minimal case table, which stands in for one that cannot be loaded. -/

namespace ClassicAsp.CaseTable

/-- The spellings of the minimal table. -/
def builtinSpellings : List (String × String) := [
  ("dim", "Dim"), ("set", "Set"), ("const", "Const"), ("redim", "ReDim"),
  ("preserve", "Preserve"), ("public", "Public"), ("private", "Private"), ("class", "Class"),
  ("end class", "End Class"), ("option", "Option"), ("explicit", "Explicit"),
  ("function", "Function"), ("sub", "Sub"), ("property", "Property"),
  ("end function", "End Function"), ("end sub", "End Sub"), ("end property", "End Property"),
  ("call", "Call"), ("exit", "Exit"), ("if", "If"), ("then", "Then"), ("else", "Else"),
  ("elseif", "ElseIf"), ("end if", "End If"), ("end", "End"), ("select", "Select"),
  ("case", "Case"), ("end select", "End Select"), ("for", "For"), ("each", "Each"),
  ("in", "In"), ("to", "To"), ("step", "Step"), ("next", "Next"), ("while", "While"),
  ("wend", "Wend"), ("do", "Do"), ("loop", "Loop"), ("until", "Until"),
  ("on error resume next", "On Error Resume Next"), ("on error goto", "On Error GoTo"),
  ("on", "On"), ("resume", "Resume"), ("err", "Err"), ("and", "And"), ("or", "Or"),
  ("not", "Not"), ("xor", "Xor"), ("eqv", "Eqv"), ("imp", "Imp"), ("mod", "Mod"), ("is", "Is"),
  ("empty", "Empty"), ("nothing", "Nothing"), ("null", "Null"), ("true", "True"),
  ("false", "False"), ("response", "Response"), ("request", "Request"), ("server", "Server"),
  ("session", "Session"), ("application", "Application")]

/-- The minimal table: spellings of words and phrases only. -/
def builtin : CaseTable := ofSchema { spellings := charPairs builtinSpellings } .builtin

/-- The minimal table, with the reason why it stands in for another one. -/
def standIn (reason : Fault) : CaseTable := { builtin with fallback := some reason }

end ClassicAsp.CaseTable
