import ClassicAsp.Toml.Reader

/-! Typed access to values. A value of another type than the one asked for is refused. -/

namespace ClassicAsp.Toml

namespace Value

/-- A number that is not negative. -/
def nat? : Value → Option Nat
  | .integer (.ofNat n) => some n
  | _ => none

/-- A truth value. -/
def bool? : Value → Option Bool
  | .boolean b => some b
  | _ => none

/-- A text. -/
def text? : Value → Option (List Char)
  | .string text => some text
  | _ => none

/-- The items of an array. -/
def items? : Value → Option (List Value)
  | .array items => some items
  | .tables elements => some (elements.reverse.map (.table .header))
  | _ => none

/-- The texts of an array. -/
def texts? (v : Value) : Option (List (List Char)) := v.items?.bind (·.mapM text?)

/-- The key of the text of a date or time where a table is asked for. -/
def momentKey : List Char := "$__toml_private_datetime".toList

/-- The entries of a table. A date or time has one entry with its text. -/
def entries? : Value → Option Entries
  | .table _ entries => some entries
  | .moment text => some [(momentKey, .string text)]
  | _ => none

/-- The entries of a table, each value decoded. -/
def map? {α : Type} (decode : Value → Option α) (v : Value) : Option (List (List Char × α)) :=
  v.entries?.bind (·.mapM fun e => (decode e.2).map (e.1, ·))

end Value

/-- The decoded value of a key, if the key is there. -/
def Entries.field? {α : Type} (entries : Entries) (name : String) (decode : Value → Option α) :
    Option (Option α) :=
  match Entries.get? entries name.toList with
  | none => some none
  | some v => (decode v).map some

/-- The fields of a record by name. A record may also be written as an array, with the fields in
their order; then a record that is not `optional` needs all of them. -/
def Value.record? (names : List String) (optional : Bool) (v : Value) : Option Entries :=
  v.entries?.or <| v.items?.bind fun items =>
    if items.length < names.length && !optional then none
    else some ((names.map String.toList).zip items)

end ClassicAsp.Toml
