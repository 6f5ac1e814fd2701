/-! Values of the TOML format. -/

namespace ClassicAsp.Toml

/-- How a table came to be, which decides what may be added to it. -/
inductive TableKind where
  /-- By a header of its own. -/
  | header
  /-- As a table around one that has a header. -/
  | implied
  /-- By the front part of a dotted key. -/
  | dotted
  /-- Between braces. -/
  | inline
  deriving DecidableEq, Repr

/-- A value. Of numbers with a fraction only their kind is kept. -/
inductive Value where
  | string (text : List Char)
  | integer (n : Int)
  | float
  | boolean (b : Bool)
  /-- A date, a time, or both, in the normal form. -/
  | moment (text : List Char)
  | array (items : List Value)
  | table (kind : TableKind) (entries : List (List Char × Value))
  /-- Tables by headers in double brackets, the last one first. -/
  | tables (elements : List (List (List Char × Value)))
  deriving Repr

/-- The entries of a table. -/
abbrev Entries := List (List Char × Value)

namespace Entries

/-- The value of a key. -/
def get? (entries : Entries) (key : List Char) : Option Value :=
  (entries.find? (·.1 == key)).map (·.2)

/-- Puts a value in the place of that of a key. -/
def replace (entries : Entries) (key : List Char) (value : Value) : Entries :=
  entries.map fun e => if e.1 == key then (key, value) else e

/-- Adds a key that is not there yet. -/
def add? (entries : Entries) (key : List Char) (value : Value) : Option Entries :=
  if (get? entries key).isSome then none else some (entries ++ [(key, value)])

/-- Changes the entries of the table that a path leads to. Tables that are missing on the way are
made, and of an array of tables the last one counts. -/
def update (change : Entries → Option Entries) : List (List Char) → Entries → Option Entries
  | [], entries => change entries
  | key :: path, entries =>
    match get? entries key with
    | none => (update change path []).map fun sub => entries ++ [(key, .table .implied sub)]
    | some (.table .inline _) => none
    | some (.table kind sub) =>
      (update change path sub).map fun sub => replace entries key (.table kind sub)
    | some (.tables (last :: before)) =>
      (update change path last).map fun last => replace entries key (.tables (last :: before))
    | some _ => none

/-- Adds a value under a dotted key. Its front part may only lead through tables without a header,
and the last of these has to come from a dotted key. -/
def addDotted (value : Value) (last : List Char) : List (List Char) → Entries → Option Entries
  | [], entries => add? entries last value
  | key :: path, entries =>
    match get? entries key with
    | none =>
      (addDotted value last path []).map fun sub => entries ++ [(key, .table .dotted sub)]
    | some (.table .dotted sub) =>
      (addDotted value last path sub).map fun sub => replace entries key (.table .dotted sub)
    | some (.table .implied sub) =>
      if path.isEmpty then none
      else (addDotted value last path sub).map fun sub => replace entries key (.table .implied sub)
    | some (.tables (front :: before)) =>
      if path.isEmpty then none
      else (addDotted value last path front).map fun front =>
        replace entries key (.tables (front :: before))
    | some _ => none

/-- Adds a value under a key of one or more parts. -/
def addKey (entries : Entries) (key : List (List Char)) (value : Value) : Option Entries :=
  match key.reverse with
  | [] => none
  | last :: front => addDotted value last front.reverse entries

/-- Opens the table of a header, which must not have one yet. -/
def openTable (last : List Char) (entries : Entries) : Option Entries :=
  match get? entries last with
  | none => some (entries ++ [(last, .table .header [])])
  | some (.table .implied sub) => some (replace entries last (.table .header sub))
  | some _ => none

/-- Opens one more table of an array of tables. -/
def openElement (last : List Char) (entries : Entries) : Option Entries :=
  match get? entries last with
  | none => some (entries ++ [(last, .tables [[]])])
  | some (.tables elements) => some (replace entries last (.tables ([] :: elements)))
  | some _ => none

end Entries

end ClassicAsp.Toml
