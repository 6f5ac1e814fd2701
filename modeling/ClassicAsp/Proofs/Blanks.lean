import ClassicAsp.Text.Blank
import Mathlib.Data.List.DropRight

/-! # Trimming

A text is its trimmed form with blanks on both sides, and trimming does not see these blanks. -/

namespace ClassicAsp.Text

/-! ## Runs at the front -/

theorem take_length_takeWhile (p : Char → Bool) (cs : List Char) :
    cs.take (cs.takeWhile p).length = cs.takeWhile p :=
  (List.prefix_iff_eq_take.mp (List.takeWhile_prefix p)).symm

theorem drop_length_takeWhile (p : Char → Bool) (cs : List Char) :
    cs.drop (cs.takeWhile p).length = cs.dropWhile p := by
  calc
    cs.drop (cs.takeWhile p).length =
        (cs.takeWhile p ++ cs.dropWhile p).drop (cs.takeWhile p).length := by
      rw [List.takeWhile_append_dropWhile]
    _ = cs.dropWhile p := List.drop_left

/-! ## Texts of blanks -/

theorem allBlank_iff {cs : List Char} : allBlank cs = true ↔ ∀ c ∈ cs, isBlank c = true :=
  List.all_eq_true

@[simp] theorem allBlank_nil : allBlank [] = true := rfl

@[simp] theorem allBlank_cons (c : Char) (cs : List Char) :
    allBlank (c :: cs) = (isBlank c && allBlank cs) := rfl

@[simp] theorem allBlank_append (front back : List Char) :
    allBlank (front ++ back) = (allBlank front && allBlank back) :=
  List.all_append

@[simp] theorem allBlank_takeWhile (cs : List Char) : allBlank (cs.takeWhile isBlank) = true :=
  List.all_takeWhile

theorem allBlank_replicate (n : Nat) : allBlank (List.replicate n ' ') = true := by
  rw [allBlank_iff]
  intro c hc
  rw [List.eq_of_mem_replicate hc]
  decide

/-! ## One side -/

@[simp] theorem trimStart_cons (c : Char) (cs : List Char) :
    trimStart (c :: cs) = if isBlank c then trimStart cs else c :: cs :=
  List.dropWhile_cons

theorem trimStart_append_of_allBlank {front : List Char} (h : allBlank front = true)
    (cs : List Char) : trimStart (front ++ cs) = trimStart cs :=
  List.dropWhile_append_of_pos (allBlank_iff.mp h)

theorem trimStart_eq_nil_iff {cs : List Char} : trimStart cs = [] ↔ allBlank cs = true := by
  rw [trimStart, List.dropWhile_eq_nil_iff, allBlank_iff]

theorem trimStart_append_of_not_allBlank {cs : List Char} (h : allBlank cs = false)
    (back : List Char) : trimStart (cs ++ back) = trimStart cs ++ back := by
  have hne : trimStart cs ≠ [] := by
    intro hnil
    rw [trimStart_eq_nil_iff.mp hnil] at h
    cases h
  have he : (List.dropWhile isBlank cs).isEmpty = false := by simpa [trimStart] using hne
  rw [trimStart, List.dropWhile_append, he]
  rfl

theorem trimEnd_eq_rdropWhile (cs : List Char) : trimEnd cs = cs.rdropWhile isBlank := rfl

theorem trimEnd_append_of_allBlank {back : List Char} (h : allBlank back = true)
    (cs : List Char) : trimEnd (cs ++ back) = trimEnd cs := by
  have hr : ∀ c ∈ back.reverse, isBlank c = true := by
    intro c hc
    exact allBlank_iff.mp h c (List.mem_reverse.mp hc)
  simp only [trimEnd, dropEndWhile, List.reverse_append, List.dropWhile_append_of_pos hr]

theorem trimEnd_eq_nil_iff {cs : List Char} : trimEnd cs = [] ↔ allBlank cs = true := by
  rw [trimEnd_eq_rdropWhile, List.rdropWhile_eq_nil_iff, allBlank_iff]

/-- What trimming at the end drops is blank. -/
theorem exists_trimEnd (cs : List Char) :
    ∃ back, allBlank back = true ∧ cs = trimEnd cs ++ back := by
  refine ⟨(cs.reverse.takeWhile isBlank).reverse, ?_, ?_⟩
  · rw [allBlank_iff]
    intro c hc
    exact allBlank_iff.mp (allBlank_takeWhile _) c (List.mem_reverse.mp hc)
  · rw [trimEnd, dropEndWhile, ← List.reverse_append, List.takeWhile_append_dropWhile,
      List.reverse_reverse]

theorem isBlank_getLast_trimEnd {cs : List Char} {c : Char}
    (h : (trimEnd cs).getLast? = some c) : isBlank c = false := by
  have hne : trimEnd cs ≠ [] := by
    intro hnil
    simp [hnil] at h
  have hlast := List.rdropWhile_last_not isBlank cs hne
  rw [List.getLast?_eq_some_getLast hne, Option.some.injEq] at h
  rw [← h]
  exact Bool.eq_false_iff.mpr hlast

/-! ## Both sides -/

/-- A text that trimming leaves alone: neither its first nor its last character is blank. -/
structure Trimmed (cs : List Char) : Prop where
  head : ∀ c, cs.head? = some c → isBlank c = false
  last : ∀ c, cs.getLast? = some c → isBlank c = false

theorem isBlank_head_trimStart {cs : List Char} {c : Char}
    (h : (trimStart cs).head? = some c) : isBlank c = false := by
  have hd := List.head?_dropWhile_not isBlank cs
  rw [← trimStart, h] at hd
  exact hd

theorem head_trimEnd {cs : List Char} {c : Char} (h : (trimEnd cs).head? = some c) :
    cs.head? = some c := by
  obtain ⟨back, -, hcs⟩ := exists_trimEnd cs
  rw [hcs, List.head?_append, h]
  rfl

theorem trimmed_trim (cs : List Char) : Trimmed (trim cs) where
  head _ h := isBlank_head_trimStart (head_trimEnd h)
  last _ h := isBlank_getLast_trimEnd h

theorem Trimmed.trimStart_eq {cs : List Char} (h : Trimmed cs) : trimStart cs = cs := by
  cases cs with
  | nil => rfl
  | cons c cs => simp [h.head c rfl]

theorem trimEnd_eq_self {cs : List Char}
    (h : ∀ c, cs.getLast? = some c → isBlank c = false) : trimEnd cs = cs := by
  rw [trimEnd_eq_rdropWhile, List.rdropWhile_eq_self_iff]
  intro hne
  rw [h (cs.getLast hne) (List.getLast?_eq_some_getLast hne)]
  decide

theorem Trimmed.trim_eq {cs : List Char} (h : Trimmed cs) : trim cs = cs := by
  rw [trim, h.trimStart_eq, trimEnd_eq_self h.last]

@[simp] theorem trim_trim (cs : List Char) : trim (trim cs) = trim cs :=
  (trimmed_trim cs).trim_eq

theorem trim_eq_nil_iff {cs : List Char} : trim cs = [] ↔ allBlank cs = true := by
  rw [trim, trimEnd_eq_nil_iff]
  constructor
  · intro h
    have := List.takeWhile_append_dropWhile (p := isBlank) (l := cs)
    rw [← trimStart] at this
    rw [← this, allBlank_append, allBlank_takeWhile, h]
    rfl
  · intro h
    rw [trimStart_eq_nil_iff.mpr h]
    rfl

theorem trim_append_of_allBlank_front {front : List Char} (h : allBlank front = true)
    (cs : List Char) : trim (front ++ cs) = trim cs := by
  rw [trim, trimStart_append_of_allBlank h, ← trim]

theorem trim_append_of_allBlank_back {back : List Char} (h : allBlank back = true)
    (cs : List Char) : trim (cs ++ back) = trim cs := by
  cases hcs : allBlank cs with
  | true =>
      have hb : allBlank (cs ++ back) = true := by simp [hcs, h]
      rw [trim_eq_nil_iff.mpr hb, trim_eq_nil_iff.mpr hcs]
  | false =>
      rw [trim, trimStart_append_of_not_allBlank hcs, trimEnd_append_of_allBlank h, ← trim]

/-- A text is its trimmed form between blanks; those in front are its leading blanks. -/
theorem exists_trim (cs : List Char) :
    ∃ back, allBlank back = true ∧ cs = cs.takeWhile isBlank ++ (trim cs ++ back) := by
  obtain ⟨back, hb, he⟩ := exists_trimEnd (trimStart cs)
  refine ⟨back, hb, ?_⟩
  rw [trim, ← he, trimStart, List.takeWhile_append_dropWhile]

theorem mem_of_mem_trim {cs : List Char} {c : Char} (h : c ∈ trim cs) : c ∈ cs := by
  obtain ⟨back, -, he⟩ := exists_trim cs
  rw [he]
  simp [h]

/-- The blanks in front of a trimmed text are the leading blanks. -/
theorem takeWhile_isBlank_append {lead text : List Char} (hl : allBlank lead = true)
    (ht : Trimmed text) : (lead ++ text).takeWhile isBlank = lead := by
  rw [List.takeWhile_append_of_pos (allBlank_iff.mp hl)]
  cases text with
  | nil => simp
  | cons c text => simp [ht.head c rfl]

end ClassicAsp.Text
