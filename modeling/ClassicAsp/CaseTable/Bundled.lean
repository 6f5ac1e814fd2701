import ClassicAsp.CaseTable

/-! The case table that comes with the library: VBScript keywords and functions, and the object
model of Classic ASP. -/

namespace ClassicAsp.CaseTable

/-- Turns the texts of a list into lists of characters. -/
def chars (words : List String) : List (List Char) := words.map String.toList

/-- Turns the texts of pairs into lists of characters. -/
def charPairs (pairs : List (String × String)) : List (List Char × List Char) :=
  pairs.map fun p => (p.1.toList, p.2.toList)

/-- The functions of VBScript. -/
def bundledFunctions : List String := [
  "Abs", "Array", "Asc", "AscB", "AscW", "Atn", "CBool", "CByte", "CCur", "CDate", "CDbl",
  "Chr", "ChrB", "ChrW", "CInt", "CLng", "Cos", "CreateObject", "CSng", "CStr", "Date",
  "DateAdd", "DateDiff", "DatePart", "DateSerial", "DateValue", "Day", "Escape", "Eval",
  "Execute", "ExecuteGlobal", "Exp", "Filter", "Fix", "FormatCurrency", "FormatDateTime",
  "FormatNumber", "FormatPercent", "GetLocale", "GetObject", "GetRef", "Hex", "Hour",
  "InputBox", "InStr", "InStrB", "InStrRev", "Int", "IsArray", "IsDate", "IsEmpty", "IsNull",
  "IsNumeric", "IsObject", "Join", "LBound", "LCase", "Left", "LeftB", "Len", "LenB",
  "LoadPicture", "Log", "LTrim", "Mid", "MidB", "Minute", "Month", "MonthName", "MsgBox", "Now",
  "Oct", "Replace", "RGB", "Right", "RightB", "Rnd", "Round", "RTrim", "ScriptEngine",
  "ScriptEngineBuildVersion", "ScriptEngineMajorVersion", "ScriptEngineMinorVersion", "Second",
  "SetLocale", "Sgn", "Sin", "Space", "Split", "Sqr", "StrComp", "String", "StrReverse", "Tan",
  "Time", "Timer", "TimeSerial", "TimeValue", "Trim", "TypeName", "UBound", "UCase", "Unescape",
  "VarType", "Weekday", "WeekdayName", "Year"]

/-- The spellings of keywords, keyword phrases and intrinsic objects. -/
def bundledSpellings : List (String × String) := [
  ("dim", "Dim"), ("set", "Set"), ("let", "Let"), ("get", "Get"), ("const", "Const"),
  ("redim", "ReDim"), ("preserve", "Preserve"), ("erase", "Erase"), ("public", "Public"),
  ("private", "Private"), ("default", "Default"), ("class", "Class"),
  ("end class", "End Class"), ("option", "Option"), ("explicit", "Explicit"), ("new", "New"),
  ("me", "Me"), ("byval", "ByVal"), ("byref", "ByRef"), ("randomize", "Randomize"),
  ("function", "Function"), ("sub", "Sub"), ("property", "Property"),
  ("end function", "End Function"), ("end sub", "End Sub"), ("end property", "End Property"),
  ("call", "Call"), ("exit", "Exit"), ("if", "If"), ("then", "Then"), ("else", "Else"),
  ("elseif", "ElseIf"), ("end if", "End If"), ("end", "End"), ("select", "Select"),
  ("case", "Case"), ("end select", "End Select"), ("for", "For"), ("each", "Each"),
  ("in", "In"), ("to", "To"), ("step", "Step"), ("next", "Next"), ("while", "While"),
  ("wend", "Wend"), ("do", "Do"), ("loop", "Loop"), ("until", "Until"), ("with", "With"),
  ("end with", "End With"), ("on error resume next", "On Error Resume Next"),
  ("on error goto", "On Error GoTo"), ("on", "On"), ("error", "Error"), ("resume", "Resume"),
  ("goto", "GoTo"), ("err", "Err"), ("and", "And"), ("or", "Or"), ("not", "Not"),
  ("xor", "Xor"), ("eqv", "Eqv"), ("imp", "Imp"), ("mod", "Mod"), ("is", "Is"),
  ("empty", "Empty"), ("nothing", "Nothing"), ("null", "Null"), ("true", "True"),
  ("false", "False"), ("response", "Response"), ("request", "Request"), ("server", "Server"),
  ("session", "Session"), ("application", "Application"), ("objectcontext", "ObjectContext"),
  ("asperror", "ASPError")]

/-- The members of the intrinsic objects. -/
def bundledObjects : List (String × List String) := [
  ("response", [
    "AddHeader", "AppendToLog", "BinaryWrite", "Buffer", "CacheControl", "Charset", "Clear",
    "CodePage", "ContentType", "Cookies", "End", "Expires", "ExpiresAbsolute", "Flush",
    "IsClientConnected", "LCID", "PICS", "Redirect", "Status", "Write"]),
  ("request", [
    "BinaryRead", "ClientCertificate", "Cookies", "Form", "QueryString", "ServerVariables",
    "TotalBytes"]),
  ("server", [
    "CreateObject", "Execute", "GetLastError", "HTMLEncode", "MapPath", "ScriptTimeout",
    "Transfer", "URLEncode"]),
  ("session", [
    "Abandon", "CodePage", "Contents", "LCID", "SessionID", "StaticObjects", "Timeout"]),
  ("application", [
    "Contents", "Lock", "StaticObjects", "Unlock"]),
  ("err", [
    "Clear", "Description", "HelpContext", "HelpFile", "Number", "Raise", "Source"])]

/-- The keywords by group. -/
def bundledKeywords : List (String × List String) := [
  ("declarations", [
    "dim", "set", "let", "get", "const", "redim", "preserve", "erase", "public", "private",
    "default", "class", "option", "explicit", "new", "me", "byval", "byref"]),
  ("procedures", [
    "function", "sub", "property", "call", "exit"]),
  ("conditions", [
    "if", "then", "else", "elseif", "end", "select", "case"]),
  ("loops", [
    "for", "each", "in", "to", "step", "next", "while", "wend", "do", "loop", "until", "with"]),
  ("errors", [
    "on", "error", "resume", "goto"]),
  ("operators", [
    "and", "or", "not", "xor", "eqv", "imp", "mod", "is"]),
  ("literals", [
    "empty", "nothing", "null", "true", "false"])]

/-- The operators by group. -/
def bundledOperators : List (String × List (String × String)) := [
  ("comparison", [
    ("not_equal", "<>"), ("less_equal", "<="), ("greater_equal", ">="), ("equal", "="),
    ("less", "<"), ("greater", ">")]),
  ("concatenation", [
    ("concat", "&")]),
  ("arithmetic", [
    ("plus", "+"), ("minus", "-"), ("multiply", "*"), ("divide", "/"), ("int_divide", "\\"),
    ("power", "^")])]

/-- The layout of the table. -/
def bundledSchema : CaseSchema where
  functions := chars bundledFunctions
  spellings := charPairs bundledSpellings
  objects := bundledObjects.map fun e => (e.1.toList, chars e.2)
  keywords := bundledKeywords.map fun e => (e.1.toList, chars e.2)
  operators := bundledOperators.map fun e => (e.1.toList, charPairs e.2)
  spacedGroups := chars ["comparison", "concatenation", "arithmetic"]
  spacedKeywords := chars ["and", "or", "xor", "eqv", "imp", "mod", "is", "not"]

/-- The table that comes with the library. -/
def bundled : CaseTable := ofSchema bundledSchema .bundled

end ClassicAsp.CaseTable
