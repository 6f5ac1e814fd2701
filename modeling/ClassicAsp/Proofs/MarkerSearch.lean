import ClassicAsp.Proofs.Ownership
import Mathlib.Data.List.TakeWhile

/-! # Regions by searching for markers

The regions of a text are found by searching for the next opening marker and then for the next
closing marker behind it, again and again. The scan finds the same regions, and every shortcut
that asks less of a text agrees with them. -/

namespace ClassicAsp

/-! ## Places in a text -/

namespace Text

/-- A character of the text starts at byte `pos`, or the text ends there. -/
def IsCut (text : List Char) (pos : Nat) : Prop :=
  ∃ front back, text = front ++ back ∧ byteLength front = pos

/-- The text `part` stands at byte `pos`. -/
def StandsAt (part text : List Char) (pos : Nat) : Prop :=
  ∃ front back, text = front ++ (part ++ back) ∧ byteLength front = pos

/-- The first place at or after byte `start` at which `part` stands. -/
structure FirstFrom (part text : List Char) (start pos : Nat) : Prop where
  stands : StandsAt part text pos
  start_le : start ≤ pos
  le_of_stands : ∀ p, StandsAt part text p → start ≤ p → pos ≤ p

section

variable {part text : List Char} {start pos pos' : Nat}

theorem FirstFrom.unique (h : FirstFrom part text start pos)
    (h' : FirstFrom part text start pos') : pos = pos' :=
  Nat.le_antisymm (h.le_of_stands _ h'.stands h'.start_le) (h'.le_of_stands _ h.stands h.start_le)

theorem FirstFrom.not_forall_lt (h : FirstFrom part text start pos)
    (hnone : ∀ p, StandsAt part text p → p < start) : False :=
  Nat.not_lt.mpr h.start_le (hnone _ h.stands)

theorem StandsAt.isCut (h : StandsAt part text pos) : IsCut text pos := by
  obtain ⟨front, back, rfl, hpos⟩ := h
  exact ⟨front, part ++ back, rfl, hpos⟩

theorem StandsAt.isCut_add (h : StandsAt part text pos) : IsCut text (pos + byteLength part) := by
  obtain ⟨front, back, rfl, rfl⟩ := h
  exact ⟨front ++ part, back, by simp, by simp⟩

theorem IsCut.le_byteLength (h : IsCut text pos) : pos ≤ byteLength text := by
  obtain ⟨front, back, rfl, rfl⟩ := h
  simp

theorem isCut_byteLength (text : List Char) : IsCut text (byteLength text) :=
  ⟨text, [], by simp, rfl⟩

/-- Two cuts of a text at the same number of bytes or at more of them. -/
theorem exists_append_of_byteLength_le {front back front' back' : List Char}
    (h : front ++ back = front' ++ back') (hle : byteLength front ≤ byteLength front') :
    ∃ mid, front' = front ++ mid ∧ back = mid ++ back' := by
  rcases List.append_eq_append_iff.mp h with ⟨mid, hfront, hback⟩ | ⟨mid, hfront, hback⟩
  · exact ⟨mid, hfront, hback⟩
  · -- the longer start has no bytes to spare, so that nothing lies between the two cuts
    have hmid : mid = [] := by
      cases mid with
      | nil => rfl
      | cons c mid =>
          have hpos := c.utf8Size_pos
          rw [hfront, byteLength_append, byteLength_cons] at hle
          omega
    subst hmid
    exact ⟨[], by simpa using hfront.symm, by simpa using hback.symm⟩

/-- A text stands behind a front where it stands in the rest. -/
theorem standsAt_append_iff {front rest : List Char} (hpos : byteLength front ≤ pos) :
    StandsAt part (front ++ rest) pos ↔
      ∃ a b, rest = a ++ (part ++ b) ∧ pos = byteLength front + byteLength a := by
  constructor
  · rintro ⟨front', back, h, rfl⟩
    obtain ⟨mid, rfl, hrest⟩ := exists_append_of_byteLength_le h hpos
    exact ⟨mid, back, hrest, byteLength_append front mid⟩
  · rintro ⟨a, b, rfl, rfl⟩
    exact ⟨front ++ a, b, by simp, byteLength_append front a⟩

end

end Text

namespace Region

open Text

/-! ## The search -/

/-- The marker that opens a region. -/
def openingMarker : List Char := ['<', '%']

/-- The marker that closes a region. -/
def closingMarker : List Char := ['%', '>']

/-- The regions that a search from a byte on finds: it takes the next opening marker, then the
next closing marker behind that, and goes on behind the closing marker. Without a closing marker
the region takes the rest of the text. -/
inductive Searched (text : List Char) : Nat → List Region → Prop where
  | none {pos} (hopen : ∀ p, StandsAt openingMarker text p → p < pos) : Searched text pos []
  | opened {pos start} (hstart : FirstFrom openingMarker text pos start)
      (hclose : ∀ p, StandsAt closingMarker text p → p < start + markerLength) :
      Searched text pos [⟨start, byteLength text, false⟩]
  | closed {pos start stop regions} (hstart : FirstFrom openingMarker text pos start)
      (hstop : FirstFrom closingMarker text (start + markerLength) stop) :
      Searched text (stop + markerLength) regions →
      Searched text pos (⟨start, stop + markerLength, true⟩ :: regions)

/-- A search finds one list of regions. -/
theorem Searched.unique {text : List Char} {pos : Nat} {regions regions' : List Region}
    (h : Searched text pos regions) (h' : Searched text pos regions') : regions = regions' := by
  induction h generalizing regions' with
  | none hopen =>
      cases h' with
      | none => rfl
      | opened hstart => exact (hstart.not_forall_lt hopen).elim
      | closed hstart => exact (hstart.not_forall_lt hopen).elim
  | opened hstart hclose =>
      cases h' with
      | none hopen => exact (hstart.not_forall_lt hopen).elim
      | opened hstart' => rw [hstart.unique hstart']
      | closed hstart' hstop' =>
          obtain rfl := hstart.unique hstart'
          exact (hstop'.not_forall_lt hclose).elim
  | closed hstart hstop _ ih =>
      cases h' with
      | none hopen => exact (hstart.not_forall_lt hopen).elim
      | opened hstart' hclose' =>
          obtain rfl := hstart.unique hstart'
          exact (hstop.not_forall_lt hclose').elim
      | closed hstart' hstop' hrest' =>
          obtain rfl := hstart.unique hstart'
          obtain rfl := hstop.unique hstop'
          rw [ih hrest']

/-! ## The scan searches -/

/-- The marker that a scan looks for inside a region or outside one. -/
def nextMarker : Bool → List Char
  | false => openingMarker
  | true => closingMarker

/-- A row has the characters of the text up to the first marker that the scan looks for, and this
marker behind them. -/
theorem marks_first (inside : Bool) (text : List Char) :
    (marks inside text = text.map .text ∧ ∀ a b, text ≠ a ++ (nextMarker inside ++ b)) ∨
      ∃ front back, text = front ++ (nextMarker inside ++ back) ∧
        marks inside text = front.map .text ++ .marker :: marks (!inside) back ∧
        ∀ a b, text = a ++ (nextMarker inside ++ b) → front.length ≤ a.length := by
  fun_induction marks inside text with
  | case1 rest => exact .inr ⟨[], rest, rfl, rfl, by simp⟩
  | case2 rest => exact .inr ⟨[], rest, rfl, rfl, by simp⟩
  | case3 inside c rest ho hc ih =>
      -- the first character starts no marker, so that a marker stands in the rest
      have hstart : ∀ b, c :: rest ≠ nextMarker inside ++ b := by
        intro b hb
        cases inside with
        | false =>
            obtain ⟨rfl, rfl⟩ := List.cons.inj hb
            exact ho b rfl rfl rfl
        | true =>
            obtain ⟨rfl, rfl⟩ := List.cons.inj hb
            exact hc b rfl rfl rfl
      have htail : ∀ a b, c :: rest = a ++ (nextMarker inside ++ b) →
          ∃ a', a = c :: a' ∧ rest = a' ++ (nextMarker inside ++ b) := by
        intro a b hab
        cases a with
        | nil => exact absurd hab (hstart b)
        | cons d a' =>
            obtain ⟨rfl, hrest⟩ := List.cons.inj hab
            exact ⟨a', rfl, hrest⟩
      rcases ih with ⟨hrow, hnone⟩ | ⟨front, back, hrest, hrow, hfirst⟩
      · refine .inl ⟨by rw [hrow, List.map_cons], fun a b hab => ?_⟩
        obtain ⟨a', rfl, hrest⟩ := htail a b hab
        exact hnone a' b hrest
      · refine .inr ⟨c :: front, back, by rw [hrest, List.cons_append], ?_, fun a b hab => ?_⟩
        · rw [hrow, List.map_cons, List.cons_append]
        · obtain ⟨a', rfl, hrest'⟩ := htail a b hab
          have := hfirst a' b hrest'
          simpa using this
  | case4 inside =>
      refine .inl ⟨rfl, ?_⟩
      cases inside <;> simp [nextMarker, openingMarker, closingMarker]

/-- The row of the rest of a text tells where the search from there on finds the marker that the
scan looks for. -/
theorem search_marks (inside : Bool) (front rest : List Char) :
    (marks inside rest = rest.map .text ∧
      ∀ p, StandsAt (nextMarker inside) (front ++ rest) p → p < byteLength front) ∨
    ∃ a b, rest = a ++ (nextMarker inside ++ b) ∧
      marks inside rest = a.map .text ++ .marker :: marks (!inside) b ∧
      FirstFrom (nextMarker inside) (front ++ rest) (byteLength front)
        (byteLength front + byteLength a) := by
  rcases marks_first inside rest with ⟨hrow, hnone⟩ | ⟨a, b, hrest, hrow, hfirst⟩
  · refine .inl ⟨hrow, fun p hp => ?_⟩
    by_contra hlt
    obtain ⟨a, b, hrest, -⟩ := (standsAt_append_iff (Nat.not_lt.mp hlt)).mp hp
    exact hnone a b hrest
  · refine .inr ⟨a, b, hrest, hrow, ?_, Nat.le_add_right _ _, ?_⟩
    · exact (standsAt_append_iff (Nat.le_add_right _ _)).mpr ⟨a, b, hrest, rfl⟩
    · intro p hp hle
      obtain ⟨a', b', hrest', rfl⟩ := (standsAt_append_iff hle).mp hp
      have hprefix : a <+: a' :=
        List.prefix_of_prefix_length_le ⟨_, hrest.symm⟩ ⟨_, hrest'.symm⟩ (hfirst a' b' hrest')
      obtain ⟨mid, rfl⟩ := hprefix
      rw [byteLength_append]
      omega

theorem regionsFrom_map_text_nil (opened : Option Nat) (pos : Nat) (text : List Char) :
    regionsFrom opened pos (text.map .text) =
      regionsFrom opened (pos + byteLength text) [] := by
  have h := regionsFrom_map_text opened pos text []
  rwa [List.append_nil] at h

theorem byteLength_through (inside : Bool) (front a : List Char) :
    byteLength front + byteLength a + markerLength =
      byteLength (front ++ (a ++ nextMarker inside)) := by
  have hmarker : byteLength (nextMarker inside) = markerLength := by cases inside <;> decide
  rw [byteLength_append, byteLength_append, hmarker, Nat.add_assoc]

/-- The scan finds from a place outside the regions on what the search finds from there on. -/
theorem searched_regionsFrom (front rest : List Char) :
    Searched (front ++ rest) (byteLength front)
      (regionsFrom none (byteLength front) (marks false rest)) := by
  -- each region takes two markers off the rest
  induction hn : rest.length using Nat.strongRecOn generalizing front rest with
  | _ n ih =>
      rcases search_marks false front rest with ⟨hrow, hnone⟩ | ⟨a, b, rfl, hrow, hstart⟩
      · rw [hrow, regionsFrom_map_text_nil]
        exact .none hnone
      · have hpos := byteLength_through false front a
        rw [hrow, regionsFrom_map_text, regionsFrom, hpos, Bool.not_false]
        set front' := front ++ (a ++ nextMarker false) with hfront'
        have htext : front ++ (a ++ (nextMarker false ++ b)) = front' ++ b := by simp [hfront']
        rw [htext] at hstart ⊢
        rcases search_marks true front' b with ⟨hrow', hnone⟩ | ⟨a', b', rfl, hrow', hstop⟩
        · rw [hrow', regionsFrom_map_text_nil, regionsFrom, ← byteLength_append front']
          exact .opened hstart (by rwa [hpos])
        · have hpos' := byteLength_through true front' a'
          rw [hrow', regionsFrom_map_text, regionsFrom]
          refine .closed hstart (by rwa [hpos]) ?_
          rw [hpos', Bool.not_true]
          have htext' : front' ++ (a' ++ (nextMarker true ++ b')) =
              front' ++ (a' ++ nextMarker true) ++ b' := by simp
          rw [htext']
          refine ih b'.length ?_ _ b' rfl
          rw [← hn]
          simp only [List.length_append, nextMarker, openingMarker, List.length_cons]
          omega

theorem searched_detect (text : List Char) : Searched text 0 (detect text) := by
  rw [detect_eq]
  exact searched_regionsFrom [] text

theorem detect_eq_iff (text : List Char) (regions : List Region) :
    detect text = regions ↔ Searched text 0 regions := by
  constructor
  · rintro rfl
    exact searched_detect text
  · exact (searched_detect text).unique

/-! ## Where regions are -/

/-- A region that takes bytes of a text, whose ends and those of its interior do not cut a
character. -/
structure Placed (text : List Char) (r : Region) : Prop where
  start_lt_stop : r.start < r.stop
  start_isCut : IsCut text r.start
  stop_isCut : IsCut text r.stop
  innerStart_isCut : IsCut text r.innerStart
  innerStop_isCut : IsCut text r.innerStop

/-- Regions come in order and do not overlap. -/
def Ordered (regions : List Region) : Prop := regions.Pairwise (·.stop ≤ ·.start)

theorem isCut_innerStart {text : List Char} {start : Nat}
    (h : StandsAt openingMarker text start) : IsCut text (start + markerLength) := by
  rw [← byteLength_opening]
  exact h.isCut_add

theorem isCut_behindClosing {text : List Char} {pos : Nat}
    (h : StandsAt closingMarker text pos) : IsCut text (pos + markerLength) := by
  rw [← byteLength_closing]
  exact h.isCut_add

namespace Searched

variable {text : List Char} {pos : Nat} {regions : List Region}

theorem pos_le_start (h : Searched text pos regions) : ∀ r ∈ regions, pos ≤ r.start := by
  induction h with
  | none => simp
  | opened hstart => simpa using hstart.start_le
  | closed hstart hstop _ ih =>
      intro r hr
      rcases List.mem_cons.mp hr with rfl | hr
      · exact hstart.start_le
      · have := ih r hr
        have := hstart.start_le
        have := hstop.start_le
        omega

theorem ordered (h : Searched text pos regions) : Ordered regions := by
  induction h with
  | none => exact .nil
  | opened => exact List.pairwise_singleton _ _
  | closed _ _ hrest ih => exact List.pairwise_cons.mpr ⟨hrest.pos_le_start, ih⟩

theorem placed (h : Searched text pos regions) : ∀ r ∈ regions, r.Placed text := by
  induction h with
  | none => simp
  | opened hstart =>
      intro r hr
      obtain rfl := List.mem_singleton.mp hr
      have hinner := isCut_innerStart hstart.stands
      have hle := hinner.le_byteLength
      exact {
        start_lt_stop := by simp only [markerLength] at hle ⊢; omega
        start_isCut := hstart.stands.isCut
        stop_isCut := isCut_byteLength text
        innerStart_isCut := hinner
        innerStop_isCut := by
          simp only [innerStop, innerStart, Bool.false_eq_true, if_false]
          rw [Nat.max_eq_left hle]
          exact isCut_byteLength text }
  | closed hstart hstop _ ih =>
      intro r hr
      rcases List.mem_cons.mp hr with rfl | hr
      · have hle := hstop.start_le
        exact {
          start_lt_stop := by simp only [markerLength] at hle ⊢; omega
          start_isCut := hstart.stands.isCut
          stop_isCut := isCut_behindClosing hstop.stands
          innerStart_isCut := isCut_innerStart hstart.stands
          innerStop_isCut := by
            simp only [innerStop, innerStart, if_true, Nat.add_sub_cancel]
            rw [Nat.max_eq_left hle]
            exact hstop.stands.isCut }
      · exact ih r hr

theorem terminated (h : Searched text pos regions) :
    ∀ r ∈ regions.dropLast, r.terminated = true := by
  induction h with
  | none => simp
  | opened => simp
  | @closed pos start stop regions _ _ _ ih =>
      intro r hr
      cases regions with
      | nil => simp at hr
      | cons s regions =>
          rw [List.dropLast_cons_cons] at hr
          rcases List.mem_cons.mp hr with rfl | hr
          · rfl
          · exact ih r hr

theorem ne_nil_iff (h : Searched text pos regions) :
    regions ≠ [] ↔ ∃ p, StandsAt openingMarker text p ∧ pos ≤ p := by
  cases h with
  | none hopen =>
      simp only [ne_eq, not_true_eq_false, false_iff, not_exists, not_and, Nat.not_le]
      exact hopen
  | opened hstart => simpa using ⟨_, hstart.stands, hstart.start_le⟩
  | closed hstart => simpa using ⟨_, hstart.stands, hstart.start_le⟩

end Searched

/-! ## Shortcuts -/

/-- Of regions in order the one around a byte is the one that contains it. -/
theorem at?_eq_some_iff {regions : List Region} (h : Ordered regions) {offset : Nat}
    {r : Region} : at? regions offset = some r ↔ r ∈ regions ∧ r.contains offset = true := by
  induction regions with
  | nil => simp [at?]
  | cons s regions ih =>
      obtain ⟨hs, hrest⟩ := List.pairwise_cons.mp h
      by_cases hstop : s.stop ≤ offset
      · have hout : s.contains offset = false := by simp [contains, hstop]
        have hskip : at? (s :: regions) offset = at? regions offset := by simp [at?, hstop]
        rw [hskip, ih hrest, List.mem_cons]
        constructor
        · rintro ⟨hr, hin⟩
          exact ⟨.inr hr, hin⟩
        · rintro ⟨rfl | hr, hin⟩
          · rw [hout] at hin
            cases hin
          · exact ⟨hr, hin⟩
      · have hhead : at? (s :: regions) offset = (some s).filter (·.contains offset) := by
          simp [at?, hstop]
        rw [hhead, Option.filter_eq_some_iff, Option.some.injEq, List.mem_cons]
        constructor
        · rintro ⟨rfl, hin⟩
          exact ⟨.inl rfl, hin⟩
        · rintro ⟨rfl | hr, hin⟩
          · exact ⟨rfl, hin⟩
          · -- a later region starts behind this one, and so behind the byte
            have hle := hs r hr
            simp only [contains, Bool.and_eq_true, decide_eq_true_eq] at hin
            omega

/-- The regions that end up to a byte come before the others, so that a search by halves finds
where the others start. -/
theorem exists_partition {regions : List Region} (h : Ordered regions)
    (hne : ∀ r ∈ regions, r.start < r.stop) (offset : Nat) :
    ∃ front back, regions = front ++ back ∧ (∀ r ∈ front, r.stop ≤ offset) ∧
      (∀ r ∈ back, offset < r.stop) ∧
      at? regions offset = back.head?.filter (·.contains offset) := by
  refine ⟨regions.takeWhile (·.stop ≤ offset), regions.dropWhile (·.stop ≤ offset),
    List.takeWhile_append_dropWhile.symm, ?_, ?_, rfl⟩
  · intro r hr
    simpa using List.mem_takeWhile_imp hr
  · have hsuffix := List.dropWhile_suffix (·.stop ≤ offset) (l := regions)
    have hback := h.sublist hsuffix.sublist
    intro r hr
    cases hd : regions.dropWhile (·.stop ≤ offset) with
    | nil => simp [hd] at hr
    | cons s back =>
        have hs : offset < s.stop := by
          have := List.head?_dropWhile_not (·.stop ≤ offset) regions
          simpa [hd] using this
        rw [hd] at hr hback hsuffix
        rcases List.mem_cons.mp hr with rfl | hr
        · exact hs
        · have hle := (List.pairwise_cons.mp hback).1 r hr
          have hlt := hne r (hsuffix.subset (List.mem_cons_of_mem _ hr))
          omega

theorem terminations_true_ne_nil (ms : List Mark) : terminations true ms ≠ [] := by
  induction ms with
  | nil => simp [terminations]
  | cons m ms ih => cases m <;> simp [terminations, ih]

theorem terminations_ne_nil_iff (text : List Char) :
    terminations false (marks false text) ≠ [] ↔ hasOpening text = true := by
  fun_induction hasOpening text with
  | case1 rest => simp [marks, terminations, terminations_true_ne_nil]
  | case2 => simp [terminations]
  | case3 c rest hne ih =>
      rw [marks, terminations]
      · exact ih
      · exact fun rest' _ => hne rest'
      · simp

theorem mem_terminations_true_iff (text : List Char) :
    true ∈ terminations true (marks true text) ↔ hasClosing text = true := by
  fun_induction hasClosing text with
  | case1 rest => simp [marks, terminations]
  | case2 => simp [terminations]
  | case3 c rest hne ih =>
      rw [marks, terminations]
      · exact ih
      · simp
      · exact fun rest' _ => hne rest'

theorem mem_terminations_iff (text : List Char) :
    true ∈ terminations false (marks false text) ↔ hasScript text = true := by
  fun_induction hasScript text with
  | case1 rest => simpa [marks, terminations] using mem_terminations_true_iff rest
  | case2 => simp [terminations]
  | case3 c rest hne ih =>
      rw [marks, terminations]
      · exact ih
      · exact fun rest' _ => hne rest'
      · simp

theorem map_terminated_detect (text : List Char) :
    (detect text).map (·.terminated) = terminations false (marks false text) := by
  rw [detect_eq]
  exact map_terminated_regionsFrom none 0 _

/-- There is an opening marker exactly if there is a region. -/
theorem hasOpening_iff (text : List Char) : hasOpening text = true ↔ detect text ≠ [] := by
  rw [← terminations_ne_nil_iff, ← map_terminated_detect, ne_eq, List.map_eq_nil_iff]

/-- There is script exactly if a region is terminated. -/
theorem hasScript_iff (text : List Char) :
    hasScript text = true ↔ ∃ r ∈ detect text, r.terminated = true := by
  rw [← mem_terminations_iff, ← map_terminated_detect, List.mem_map]

theorem isInScript_iff (text : List Char) (offset : Nat) :
    (RegionMap.ofText text).isInScript offset = true ↔
      ∃ r ∈ detect text, r.contains offset = true := by
  have hsearch := searched_detect text
  rw [RegionMap.isInScript, Bool.and_eq_true, decide_eq_true_eq, Option.isSome_iff_exists]
  constructor
  · rintro ⟨-, r, hr⟩
    exact ⟨r, (at?_eq_some_iff hsearch.ordered).mp hr⟩
  · rintro ⟨r, hr, hin⟩
    refine ⟨?_, r, (at?_eq_some_iff hsearch.ordered).mpr ⟨hr, hin⟩⟩
    have hle := (hsearch.placed r hr).stop_isCut.le_byteLength
    simp only [contains, Bool.and_eq_true, decide_eq_true_eq] at hin
    exact Nat.lt_of_lt_of_le hin.2 hle

/-- The scan finds the regions that a search for one marker after the other finds. They take
bytes, do not overlap, come in order and cut no character, and only the last can lack its closing
marker. The region around a byte is found among them, and whether a byte is in script, whether
there is an opening marker and whether there is script can be told without them. -/
theorem detect_agrees_with_search (text : List Char) :
    (∀ regions, detect text = regions ↔ Searched text 0 regions) ∧
      (∀ r ∈ detect text, r.Placed text) ∧ Ordered (detect text) ∧
      (∀ r ∈ (detect text).dropLast, r.terminated = true) ∧
      (∀ offset r, at? (detect text) offset = some r ↔
        r ∈ detect text ∧ r.contains offset = true) ∧
      (∀ offset, ∃ front back, detect text = front ++ back ∧ (∀ r ∈ front, r.stop ≤ offset) ∧
        (∀ r ∈ back, offset < r.stop) ∧
        at? (detect text) offset = back.head?.filter (·.contains offset)) ∧
      (∀ offset, (RegionMap.ofText text).isInScript offset = true ↔
        ∃ r ∈ detect text, r.contains offset = true) ∧
      (hasOpening text = true ↔ ∃ pos, StandsAt openingMarker text pos) ∧
      (hasOpening text = true ↔ detect text ≠ []) ∧
      (hasScript text = true ↔ ∃ r ∈ detect text, r.terminated = true) := by
  have hsearch := searched_detect text
  have hplaced := hsearch.placed
  refine ⟨detect_eq_iff text, hplaced, hsearch.ordered, hsearch.terminated,
    fun offset r => at?_eq_some_iff hsearch.ordered,
    exists_partition hsearch.ordered fun r hr => (hplaced r hr).start_lt_stop,
    isInScript_iff text, ?_, hasOpening_iff text, hasScript_iff text⟩
  rw [hasOpening_iff, hsearch.ne_nil_iff]
  simp

end Region

end ClassicAsp
