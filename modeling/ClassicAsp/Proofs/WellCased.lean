import ClassicAsp.CaseTable.Builtin
import ClassicAsp.Proofs.Letters

/-! # Well-cased tables

A table is well-cased when its spellings differ from the words that they stand for in case only.
The bundled table and the minimal one are well-cased. -/

namespace ClassicAsp

/-! ## Entries -/

namespace Assoc

variable {α β : Type} {entries : Assoc α β} {e : α × β} {key : α} {value : β}

/-- A fold that adds entries has those it starts with and those that it adds. -/
theorem mem_foldl {γ : Type} {step : Assoc α β → γ → Assoc α β} {P : α × β → Prop}
    {xs : List γ} (hstep : ∀ m, ∀ x ∈ xs, ∀ e ∈ step m x, e ∈ m ∨ P e)
    (hstart : ∀ e ∈ entries, P e) : ∀ e ∈ xs.foldl step entries, P e := by
  induction xs generalizing entries with
  | nil => exact hstart
  | cons x xs ih =>
      refine ih (fun m y hy => hstep m y (by simp [hy])) ?_
      intro e he
      rcases hstep entries x (by simp) e he with hold | hnew
      · exact hstart e hold
      · exact hnew

variable [BEq α]

theorem mem_of_get? [LawfulBEq α] (h : entries.get? key = some value) : (key, value) ∈ entries := by
  rw [get?, Option.map_eq_some_iff] at h
  obtain ⟨e, he, rfl⟩ := h
  have hkey : e.1 = key := by simpa using List.find?_some he
  have hmem := List.mem_of_find?_eq_some he
  rwa [← hkey]

theorem mem_insert (h : e ∈ entries.insert key value) : e ∈ entries ∨ e = (key, value) := by
  rw [insert] at h
  split at h
  · obtain ⟨e', he', rfl⟩ := List.mem_map.mp h
    split
    · exact .inr rfl
    · exact .inl he'
  · simpa using h

theorem mem_insertNew (h : e ∈ entries.insertNew key value) : e ∈ entries ∨ e = (key, value) := by
  rw [insertNew] at h
  split at h
  · exact .inl h
  · simpa using h

theorem mem_of_mem_ofList {list : List (α × β)} (h : e ∈ ofList list) : e ∈ list := by
  refine mem_foldl (P := (· ∈ list)) ?_ (by simp) e h
  intro m x hx e he
  rcases mem_insert he with hold | rfl
  · exact .inl hold
  · exact .inr hx

end Assoc

namespace CaseTable

open Text

theorem mem_spellingsOf {s : CaseSchema} {e : List Char × List Char} (h : e ∈ spellingsOf s) :
    (∃ f ∈ s.spellings, e = (key f.1, f.2)) ∨ ∃ name ∈ s.functions, e = (key name, name) := by
  refine Assoc.mem_foldl (P := fun e => (∃ f ∈ s.spellings, e = (key f.1, f.2)) ∨
    ∃ name ∈ s.functions, e = (key name, name)) ?_ ?_ e h
  · intro m name hname e he
    split at he
    · exact .inl he
    · rcases Assoc.mem_insertNew he with hold | rfl
      · exact .inl hold
      · exact .inr (.inr ⟨name, hname, rfl⟩)
  · intro e he
    have hmem := (List.mem_filter.mp (Assoc.mem_of_mem_ofList he)).1
    obtain ⟨f, hf, rfl⟩ := List.mem_map.mp hmem
    exact .inl ⟨f, hf, rfl⟩

theorem mem_membersOf {s : CaseSchema} {e : List Char × Assoc (List Char) (List Char)}
    (h : e ∈ membersOf s) :
    ∃ object ∈ s.objects, e.1 = lowercase object.1 ∧
      ∀ m ∈ e.2, m.2 ∈ object.2 ∧ m.1 = lowercase m.2 := by
  obtain ⟨object, hobject, rfl⟩ := List.mem_map.mp (Assoc.mem_of_mem_ofList h)
  refine ⟨object, hobject, rfl, ?_⟩
  intro m hm
  obtain ⟨name, hname, rfl⟩ := List.mem_map.mp (Assoc.mem_of_mem_ofList hm)
  exact ⟨hname, rfl⟩

/-! ## The tables -/

/-- The tables there are: each is made of a schema, and may stand in for another table. -/
def Compiled (t : CaseTable) : Prop :=
  ∃ schema origin fallback, t = { ofSchema schema origin with fallback := fallback }

/-- Keys, object names and member names are ASCII, a spelling in lower case is its key, and the
name of an object has no blanks. -/
structure WellCased (t : CaseTable) : Prop where
  key_isAscii : ∀ e ∈ t.spellings, e.1.all isAscii = true
  lowercase_spelling : ∀ e ∈ t.spellings, lowercase e.2 = e.1
  object_isAscii : ∀ o ∈ t.members, o.1.all isAscii = true
  object_unspaced : ∀ o ∈ t.members, o.1.all (!isBlank ·) = true
  member_isAscii : ∀ o ∈ t.members, ∀ m ∈ o.2, m.2.all isAscii = true

/-- Is the spelling in lower case its key, and the key ASCII? -/
def isWellSpelt (word spelling : List Char) : Bool :=
  (key word).all isAscii && lowercase spelling == key word

/-- Is the object ASCII without blanks, and are its members ASCII? -/
def isPlainObject (object : List Char) (members : List (List Char)) : Bool :=
  (lowercase object).all (fun c => isAscii c && !isBlank c) && members.all (·.all isAscii)

/-- A schema whose words and objects are in order gives a well-cased table. -/
theorem wellCased_ofSchema {s : CaseSchema} (origin : TableOrigin)
    (hspellings : s.spellings.all (fun e => isWellSpelt e.1 e.2) = true)
    (hfunctions : s.functions.all (fun name => isWellSpelt name name) = true)
    (hobjects : s.objects.all (fun o => isPlainObject o.1 o.2) = true) :
    (ofSchema s origin).WellCased := by
  have hspelt : ∀ e ∈ spellingsOf s, e.1.all isAscii = true ∧ lowercase e.2 = e.1 := by
    intro e he
    rcases mem_spellingsOf he with ⟨f, hf, rfl⟩ | ⟨name, hname, rfl⟩
    · simpa [isWellSpelt] using List.all_eq_true.mp hspellings f hf
    · simpa [isWellSpelt] using List.all_eq_true.mp hfunctions name hname
  have hplain : ∀ o ∈ membersOf s, (o.1.all isAscii = true ∧ o.1.all (!isBlank ·) = true) ∧
      ∀ m ∈ o.2, m.2.all isAscii = true := by
    intro o ho
    obtain ⟨object, hobject, hname, hmembers⟩ := mem_membersOf ho
    have hok := List.all_eq_true.mp hobjects object hobject
    rw [isPlainObject, Bool.and_eq_true] at hok
    refine ⟨?_, fun m hm => List.all_eq_true.mp hok.2 _ (hmembers m hm).1⟩
    rw [hname]
    constructor
    · refine List.all_eq_true.mpr fun c hc => ?_
      exact (Bool.and_eq_true_iff.mp (List.all_eq_true.mp hok.1 c hc)).1
    · refine List.all_eq_true.mpr fun c hc => ?_
      exact (Bool.and_eq_true_iff.mp (List.all_eq_true.mp hok.1 c hc)).2
  exact {
    key_isAscii := fun e he => (hspelt e he).1
    lowercase_spelling := fun e he => (hspelt e he).2
    object_isAscii := fun o ho => (hplain o ho).1.1
    object_unspaced := fun o ho => (hplain o ho).1.2
    member_isAscii := fun o ho => (hplain o ho).2 }

theorem compiled_ofSchema (s : CaseSchema) (origin : TableOrigin) :
    (ofSchema s origin).Compiled :=
  ⟨s, origin, none, rfl⟩

theorem compiled_bundled : bundled.Compiled := compiled_ofSchema bundledSchema .bundled

theorem wellCased_bundled : bundled.WellCased :=
  wellCased_ofSchema .bundled (by decide +kernel) (by decide +kernel) (by decide +kernel)

theorem compiled_builtin : builtin.Compiled :=
  compiled_ofSchema { spellings := charPairs builtinSpellings } .builtin

theorem wellCased_builtin : builtin.WellCased :=
  wellCased_ofSchema .builtin (by decide +kernel) rfl rfl

end CaseTable

end ClassicAsp
