/-! Association lists: the first entry of a key counts, and a key occurs once if entries are
added with `insert`. -/

namespace ClassicAsp

/-- Entries with their keys. -/
abbrev Assoc (α β : Type) := List (α × β)

namespace Assoc

variable {α β : Type} [BEq α]

/-- The value of a key. -/
def get? (entries : Assoc α β) (key : α) : Option β :=
  (entries.find? (·.1 == key)).map (·.2)

/-- Is there an entry for the key? -/
def hasKey (entries : Assoc α β) (key : α) : Bool := entries.any (·.1 == key)

/-- Sets the value of a key, in its place if it has one. -/
def insert (entries : Assoc α β) (key : α) (value : β) : Assoc α β :=
  if entries.hasKey key then entries.map fun e => if e.1 == key then (key, value) else e
  else entries ++ [(key, value)]

/-- Sets the value of a key that has none. -/
def insertNew (entries : Assoc α β) (key : α) (value : β) : Assoc α β :=
  if entries.hasKey key then entries else entries ++ [(key, value)]

/-- Removes the entry of a key. -/
def erase (entries : Assoc α β) (key : α) : Assoc α β := entries.filter (!·.1 == key)

/-- Adds entries one after the other, so that the last one of a key counts. -/
def ofList (entries : List (α × β)) : Assoc α β :=
  entries.foldl (fun m e => m.insert e.1 e.2) []

end Assoc

end ClassicAsp
