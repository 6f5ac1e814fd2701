/-! Results kept for a limited time, by the document they belong to and a fingerprint of its
text. -/

namespace ClassicAsp

/-- A kept result. -/
structure CacheEntry (κ α : Type) where
  id : String
  fingerprint : κ
  value : α
  storedAt : Nat
  deriving Repr

/-- Kept results and how long they are fresh. -/
structure AnalysisCache (κ α : Type) where
  lifetime : Nat
  entries : List (CacheEntry κ α) := []
  deriving Repr

namespace AnalysisCache

variable {κ α : Type} [DecidableEq κ]

/-- Is the entry younger than the lifetime? -/
def isFresh (c : AnalysisCache κ α) (now : Nat) (e : CacheEntry κ α) : Bool :=
  now - e.storedAt < c.lifetime

/-- Is the entry that of a document with a fingerprint? -/
def isFor (id : String) (fingerprint : κ) (e : CacheEntry κ α) : Bool :=
  e.id == id && e.fingerprint == fingerprint

/-- The fresh result of a document; one that is not fresh any more is dropped. -/
def get (c : AnalysisCache κ α) (now : Nat) (id : String) (fingerprint : κ) :
    Option α × AnalysisCache κ α :=
  match c.entries.find? (isFor id fingerprint) with
  | none => (none, c)
  | some e =>
    if c.isFresh now e then (some e.value, c)
    else (none, { c with entries := c.entries.filter (!isFor id fingerprint ·) })

/-- Keeps a result, and drops all that are not fresh any more. -/
def insert (c : AnalysisCache κ α) (now : Nat) (id : String) (fingerprint : κ) (value : α) :
    AnalysisCache κ α :=
  let fresh := c.entries.filter fun e => c.isFresh now e && !isFor id fingerprint e
  { c with entries := fresh ++ [⟨id, fingerprint, value, now⟩] }

/-- Drops all results of a document. -/
def invalidate (c : AnalysisCache κ α) (id : String) : AnalysisCache κ α :=
  { c with entries := c.entries.filter (·.id != id) }

/-- Drops all results. -/
def clear (c : AnalysisCache κ α) : AnalysisCache κ α := { c with entries := [] }

/-- The number of kept results. -/
def size (c : AnalysisCache κ α) : Nat := c.entries.length

end AnalysisCache

end ClassicAsp
