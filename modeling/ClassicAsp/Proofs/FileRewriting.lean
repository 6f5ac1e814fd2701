import ClassicAsp.Config.Discovery
import Mathlib.Data.List.Basic
import Mathlib.Data.Set.Insert

/-! # New bytes for files

A file whose bytes are replaced stays where it is. Paths lead to the same places as before, and
only what is read from that very file is different. -/

namespace ClassicAsp

namespace FileTree

variable {t t' : FileTree} {place other : List String} {node : FileNode} {bytes : ByteArray}

/-! ## Replacing one file -/

theorem any_replace (test : List String → Bool) :
    (t.replace place node).any (fun e => test e.1) = t.any (fun e => test e.1) := by
  rw [replace, List.any_map]
  congr 1
  funext e
  by_cases h : e.1 = place
  · simp [h]
  · simp [h]

theorem replace_cons (e : List String × FileNode) :
    replace (e :: t) place node =
      (if e.1 = place then (place, node) else e) :: replace t place node := by
  simp [replace]

theorem find?_replace_of_ne (h : other ≠ place) :
    (t.replace place node).find? (·.1 == other) = t.find? (·.1 == other) := by
  induction t with
  | nil => rfl
  | cons e t ih =>
      rw [replace_cons]
      by_cases he : e.1 = place
      · rw [if_pos he, List.find?_cons_of_neg (by simp [h.symm]), ih,
          List.find?_cons_of_neg (by simp [he, h.symm])]
      · rw [if_neg he, List.find?_cons, List.find?_cons, ih]

theorem node?_replace_of_ne (h : other ≠ place) :
    (t.replace place node).node? other = t.node? other := by
  simp only [node?, find?_replace_of_ne h, any_replace fun p => other.isPrefixOf p]

theorem any_of_node? (h : t.node? place = some (.file bytes)) : t.any (·.1 == place) = true := by
  rw [node?] at h
  cases hfind : t.find? (·.1 == place) with
  | some e =>
      rw [List.any_eq_true]
      exact ⟨e, List.mem_of_find?_eq_some hfind, by simpa using List.find?_some hfind⟩
  | none =>
      simp only [hfind] at h
      split at h <;> cases h

theorem node?_replace_self (h : t.any (·.1 == place) = true) :
    (t.replace place node).node? place = some node := by
  have hfind : (t.replace place node).find? (·.1 == place) = some (place, node) := by
    induction t with
    | nil => cases h
    | cons e t ih =>
        rw [replace_cons]
        by_cases he : e.1 = place
        · rw [if_pos he, List.find?_cons_of_pos (by simp)]
        · rw [List.any_cons, beq_false_of_ne he, Bool.false_or] at h
          rw [if_neg he, List.find?_cons_of_neg (by simpa using he), ih h]
  simp only [node?, hfind]

/-- The trees differ in the bytes of the files at these places only. -/
structure Rewrites (places : Set (List String)) (t t' : FileTree) : Prop where
  elsewhere : ∀ place ∉ places, t'.node? place = t.node? place
  rewritten : ∀ place ∈ places,
    (∃ bytes, t.node? place = some (.file bytes)) ∧ ∃ bytes, t'.node? place = some (.file bytes)

variable {places : Set (List String)} {cwd : List String} {path : String}

theorem Rewrites.refl (t : FileTree) : Rewrites ∅ t t :=
  ⟨fun _ _ => rfl, fun _ h => h.elim⟩

theorem Rewrites.replace (h : Rewrites places t t') (hplace : t.node? place = some (.file bytes))
    (bytes' : ByteArray) : Rewrites (insert place places) t (t'.replace place (.file bytes')) := by
  have hfile : ∃ old, t'.node? place = some (.file old) := by
    by_cases hmem : place ∈ places
    · exact (h.rewritten place hmem).2
    · exact ⟨bytes, (h.elsewhere place hmem).trans hplace⟩
  refine ⟨fun other hother => ?_, fun other hother => ?_⟩
  · rw [Set.mem_insert_iff, not_or] at hother
    rw [node?_replace_of_ne hother.1, h.elsewhere other hother.2]
  · by_cases heq : other = place
    · subst heq
      obtain ⟨old, hold⟩ := hfile
      exact ⟨⟨bytes, hplace⟩, bytes', node?_replace_self (any_of_node? hold)⟩
    · rw [node?_replace_of_ne heq]
      exact h.rewritten other (hother.resolve_left heq)

theorem Rewrites.mono {places' : Set (List String)} (h : Rewrites places t t')
    (hsub : places ⊆ places')
    (hfiles : ∀ place ∈ places', ∃ bytes, t.node? place = some (.file bytes)) :
    Rewrites places' t t' := by
  refine ⟨fun place hplace => h.elsewhere place fun hmem => hplace (hsub hmem),
    fun place hplace => ⟨hfiles place hplace, ?_⟩⟩
  by_cases hmem : place ∈ places
  · exact (h.rewritten place hmem).2
  · rw [h.elsewhere place hmem]
    exact hfiles place hplace

end FileTree

/-! ## Settings files next to new bytes -/

section Settings

variable {place : Place} {files : FileTree} {places : Set (List String)} {path : String}

end Settings

end ClassicAsp
