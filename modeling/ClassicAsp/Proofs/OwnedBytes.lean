import ClassicAsp.Proofs.Writing
import ClassicAsp.Proofs.LinePlaces
import Mathlib.Data.List.Pairwise

/-! # Owners by bytes

The owner of a line is found from the regions that take a byte of it. Said by the bytes alone: a
line that no region takes a byte of is markup, a line that is inside a region is script between
markers, and any other line has a marker on it. Counting lines by a probe of their first bytes
gives the same numbers. -/

namespace ClassicAsp

open Text Region

/-! ## Regions that take bytes of a range -/

namespace Region

theorem dropWhile_dropWhile_stop {a b : Nat} (h : a ≤ b) (regions : List Region) :
    (regions.dropWhile (·.stop ≤ a)).dropWhile (·.stop ≤ b) = regions.dropWhile (·.stop ≤ b) := by
  induction regions with
  | nil => rfl
  | cons r regions ih =>
      by_cases hstop : r.stop ≤ a
      · rw [List.dropWhile_cons_of_pos (by simpa using hstop), ih,
          List.dropWhile_cons_of_pos (by simpa using Nat.le_trans hstop h)]
      · rw [List.dropWhile_cons_of_neg (by simpa using hstop)]

section

variable {regions : List Region}

/-- Regions in order that take bytes of a range stand together. -/
theorem takeWhile_dropWhile_eq_filter (h : Ordered regions)
    (hne : ∀ r ∈ regions, r.start < r.stop) (start stop : Nat) :
    (regions.dropWhile (·.stop ≤ start)).takeWhile (·.start < stop) =
      regions.filter (·.overlaps start stop) := by
  induction regions with
  | nil => rfl
  | cons r regions ih =>
      obtain ⟨hlater, hrest⟩ := List.pairwise_cons.mp h
      have ih := ih hrest fun s hs => hne s (by simp [hs])
      by_cases hstop : r.stop ≤ start
      · have hout : r.overlaps start stop = false := by simp [overlaps, Nat.not_lt.mpr hstop]
        rw [List.dropWhile_cons_of_pos (by simpa using hstop), ih,
          List.filter_cons_of_neg (by simpa using hout)]
      · rw [List.dropWhile_cons_of_neg (by simpa using hstop)]
        have hkept : regions.dropWhile (·.stop ≤ start) = regions := by
          rw [List.dropWhile_eq_self_iff]
          intro hpos
          have hmem := List.getElem_mem hpos
          have := hlater _ hmem
          have := hne _ (List.mem_cons_of_mem r hmem)
          simp only [decide_eq_true_eq]
          omega
        rw [hkept] at ih
        by_cases hstart : r.start < stop
        · have hin : r.overlaps start stop = true := by
            simp only [overlaps, Bool.and_eq_true, decide_eq_true_eq]
            omega
          rw [List.takeWhile_cons_of_pos (by simpa using hstart), ih,
            List.filter_cons_of_pos (by simpa using hin)]
        · -- what comes later starts even further behind the range
          rw [List.takeWhile_cons_of_neg (by simpa using hstart), eq_comm, List.filter_eq_nil_iff]
          intro s hs
          have hle : stop ≤ s.start := by
            have := hne r (by simp)
            rcases List.mem_cons.mp hs with rfl | hs
            · omega
            · have := hlater s hs
              omega
          simp [overlaps, Nat.not_lt.mpr hle]

/-- Two regions in order are the same, or one ends before the other starts. -/
theorem Ordered.eq_or_apart (h : Ordered regions) {r s : Region} (hr : r ∈ regions)
    (hs : s ∈ regions) : r = s ∨ r.stop ≤ s.start ∨ s.stop ≤ r.start := by
  by_cases hrs : r = s
  · exact .inl hrs
  · have happart : regions.Pairwise fun a b => a.stop ≤ b.start ∨ b.stop ≤ a.start :=
      h.imp fun hle => .inl hle
    have : Std.Symm fun a b : Region => a.stop ≤ b.start ∨ b.stop ≤ a.start :=
      ⟨fun _ _ hab => hab.symm⟩
    exact .inr (happart.forall hr hs hrs)

end

theorem start_lt_stop_of_mem {text : List Char} : ∀ r ∈ detect text, r.start < r.stop :=
  fun r hr => ((searched_detect text).placed r hr).start_lt_stop

theorem ordered_detect (text : List Char) : Ordered (detect text) := (searched_detect text).ordered

end Region

/-! ## The owner of a line -/

theorem OwnedLine.isScript_eq_false_iff (l : OwnedLine) :
    l.isScript = false ↔ l.owner = .markup := by
  rw [isScript]
  cases l.owner <;> simp

namespace Line

/-- A line with its owner, given all regions. -/
def owned (regions : List Region) (l : Line) : OwnedLine :=
  { l with owner := l.owner (regions.dropWhile (·.stop ≤ l.offset)) }

/-- The regions that take a byte of the line. -/
def overlapping (regions : List Region) (l : Line) : List Region :=
  regions.filter (·.overlaps l.offset l.probeStop)

/-- What the owner of a line can be, by the regions that take a byte of it. -/
inductive OwnedBy (l : Line) : List Region → Owner → Prop where
  | markup : OwnedBy l [] .markup
  | body {r} (hinside : l.IsInside r) :
      OwnedBy l [r] (.body (Statement.Form.comment.holds l.trimmed))
  | marker {regions} (hne : regions ≠ []) (houtside : ∀ r, regions = [r] → ¬l.IsInside r) :
      OwnedBy l regions (.marker (l.fragmentsIn regions))

theorem ownedBy_owner (l : Line) (regions : List Region) :
    OwnedBy l (regions.takeWhile (·.start < l.probeStop)) (l.owner regions) := by
  change OwnedBy l (regions.takeWhile (·.start < max l.stop (l.offset + 1))) _
  simp only [owner]
  split
  · next hnone =>
      rw [hnone]
      exact .markup
  · next r hone =>
      rw [hone]
      simp only [Bool.and_eq_true, decide_eq_true_eq]
      split
      · next hinside => exact .body hinside
      · next houtside =>
          refine .marker (by simp) fun s hs => ?_
          rw [← (List.cons.inj hs).1]
          exact houtside
  · next hnone hone => exact .marker hnone fun r hr => absurd hr (hone r)

theorem ownedBy_owned (text : List Char) (l : Line) :
    OwnedBy l (l.overlapping (detect text)) (l.owned (detect text)).owner := by
  have h := ownedBy_owner l ((detect text).dropWhile (·.stop ≤ l.offset))
  rwa [takeWhile_dropWhile_eq_filter (ordered_detect text) start_lt_stop_of_mem] at h

theorem owner_eq_markup_iff (text : List Char) (l : Line) :
    (l.owned (detect text)).owner = .markup ↔ l.overlapping (detect text) = [] := by
  have howned := ownedBy_owned text l
  generalize (l.owned (detect text)).owner = owner at howned
  generalize l.overlapping (detect text) = regions at howned
  cases howned with
  | markup => simp
  | body => simp
  | marker hne => simpa using hne

theorem le_offset_placeAfter {pieces : List (List Char × Ending)} {index offset : Nat} {l : Line}
    (h : l ∈ placeAfter [] index offset pieces) : offset ≤ l.offset := by
  induction pieces generalizing index offset with
  | nil => simp [placeAfter] at h
  | cons piece pieces ih =>
      obtain ⟨content, ending⟩ := piece
      rw [placeAfter_cons] at h
      rcases List.mem_cons.mp h with rfl | h
      · exact Nat.le_refl _
      · have := ih h
        omega

end Line

/-- Owners are assigned to each line on its own. -/
theorem Document.ownAfter_placeAfter (done : List OwnedLine) (regions : List Region)
    (index offset : Nat) (pieces : List (List Char × Ending)) :
    ownAfter done regions (Line.placeAfter [] index offset pieces) =
      done.reverse ++ (Line.placeAfter [] index offset pieces).map (Line.owned regions) := by
  induction pieces generalizing done regions index offset with
  | nil => simp [Line.placeAfter, ownAfter]
  | cons piece pieces ih =>
      obtain ⟨content, ending⟩ := piece
      rw [Line.placeAfter_cons, ownAfter, ih, List.map_cons]
      simp only [List.reverse_cons, List.append_assoc, List.singleton_append]
      refine congrArg (done.reverse ++ _ :: ·) (List.map_congr_left fun l hl => ?_)
      have hle := Line.le_offset_placeAfter hl
      rw [Line.owned, dropWhile_dropWhile_stop (by omega)]
      rfl

theorem Document.lines_eq_map (text : List Char) :
    (ofText text).lines = (Line.split text).map (Line.owned (detect text)) :=
  ownAfter_placeAfter [] (detect text) 0 0 (Line.pieces text)

namespace Line.StandsBetween

variable {text before after : List Char} {l : Line}

/-- A line that is inside a region shares no byte with another one. -/
theorem overlapping_of_inside (h : l.StandsBetween text before after) {r : Region}
    (hr : r ∈ detect text) (hinside : l.IsInside r) : l.overlapping (detect text) = [r] := by
  obtain ⟨hreach, hoverlaps⟩ := h.overlaps_of_inside (marked_detect hr) hinside
  have hmem : r ∈ l.overlapping (detect text) := List.mem_filter.mpr ⟨hr, hoverlaps⟩
  have hall : ∀ s ∈ l.overlapping (detect text), s = r := by
    intro s hs
    obtain ⟨hs, hover⟩ := List.mem_filter.mp hs
    have hstart : r.start + markerLength ≤ l.offset := hinside.1
    simp only [overlaps, Bool.and_eq_true, decide_eq_true_eq, markerLength] at hover hstart
    rcases (ordered_detect text).eq_or_apart hs hr with rfl | hbefore | hbehind
    · rfl
    · omega
    · omega
  have hordered : Ordered (l.overlapping (detect text)) := (ordered_detect text).filter _
  cases hover : l.overlapping (detect text) with
  | nil =>
      rw [hover] at hmem
      cases hmem
  | cons s rest =>
      rw [hover] at hordered hall
      cases rest with
      | nil => rw [hall s (by simp)]
      | cons t rest =>
          have hle := (List.pairwise_cons.mp hordered).1 t (by simp)
          rw [hall s (by simp), hall t (by simp)] at hle
          exact absurd hle (Nat.not_le.mpr (start_lt_stop_of_mem r hr))

theorem owner_eq_body_iff (h : l.StandsBetween text before after) :
    (∃ isComment, (l.owned (detect text)).owner = .body isComment) ↔
      ∃ r ∈ detect text, l.IsInside r := by
  constructor
  · rintro ⟨isComment, howner⟩
    have howned := ownedBy_owned text l
    rw [howner] at howned
    generalize hover : l.overlapping (detect text) = regions at howned
    cases howned with
    | @body r hinside =>
        have hmem : r ∈ l.overlapping (detect text) := by rw [hover]; simp
        exact ⟨r, (List.mem_filter.mp hmem).1, hinside⟩
  · rintro ⟨r, hr, hinside⟩
    have howned := ownedBy_owned text l
    rw [h.overlapping_of_inside hr hinside] at howned
    generalize (l.owned (detect text)).owner = owner at howned
    cases howned with
    | body => exact ⟨_, rfl⟩
    | marker _ houtside => exact absurd hinside (houtside r rfl)

end Line.StandsBetween

/-! ## Fragments -/

namespace Text

theorem byteSlice_eq_nil {start stop : Nat} (h : stop ≤ start) (cs : List Char) :
    byteSlice start stop cs = [] := by
  rw [byteSlice, Nat.sub_eq_zero_of_le h, ← byteLength_nil]
  exact congrArg Prod.fst (cutBytes_append [] _)

section

variable {text front rest back : List Char} {p q : Nat}

/-- A part of a text that is cut in two places. -/
theorem exists_parts (htext : text = front ++ (rest ++ back)) (hp : IsCut text p)
    (hq : IsCut text q) (hfront : byteLength front ≤ p) (hpq : p ≤ q)
    (hrest : q ≤ byteLength front + byteLength rest) :
    ∃ a b c, rest = a ++ (b ++ c) ∧ p = byteLength front + byteLength a ∧
      q = byteLength front + byteLength a + byteLength b := by
  obtain ⟨u, u', hu, rfl⟩ := hp
  obtain ⟨v, v', hv, rfl⟩ := hq
  obtain ⟨a, rfl, -⟩ := exists_append_of_byteLength_le (htext.symm.trans hu) hfront
  obtain ⟨b, rfl, -⟩ := exists_append_of_byteLength_le (hu.symm.trans hv) hpq
  have hsplit : front ++ a ++ b ++ v' = front ++ rest ++ back := by
    rw [← hv, htext, List.append_assoc]
  rw [← byteLength_append] at hrest
  obtain ⟨c, hc, -⟩ := exists_append_of_byteLength_le hsplit hrest
  refine ⟨a, b, c, ?_, ?_, ?_⟩
  · simpa using hc
  · rw [byteLength_append]
  · rw [byteLength_append, byteLength_append]

theorem IsCut.max (hp : IsCut text p) (hq : IsCut text q) : IsCut text (max p q) := by
  rcases Nat.le_total p q with h | h
  · rwa [Nat.max_eq_right h]
  · rwa [Nat.max_eq_left h]

theorem IsCut.min (hp : IsCut text p) (hq : IsCut text q) : IsCut text (min p q) := by
  rcases Nat.le_total p q with h | h
  · rwa [Nat.min_eq_left h]
  · rwa [Nat.min_eq_right h]

end

end Text

namespace Line

/-- The part of the line that is between the markers of the region. -/
def partIn (text : List Char) (l : Line) (r : Region) : List Char :=
  byteSlice (max r.innerStart l.offset) (min r.innerStop l.stop) text

/-- The parts of a line inside regions in order are cut off one after the other. -/
theorem fragmentsAfter_eq_parts {text : List Char} {l : Line} {regions : List Region}
    (hordered : Ordered regions) (hplaced : ∀ r ∈ regions, r.Placed text ∧ r.Marked text)
    (hstop : IsCut text l.stop) (done : List (List Char)) {front rest back : List Char}
    (htext : text = front ++ (rest ++ back)) (hoffset : l.offset ≤ byteLength front)
    (hfront : ∀ r ∈ regions, byteLength front = l.offset ∨ byteLength front ≤ r.innerStart)
    (hrest : l.stop = byteLength front + byteLength rest) :
    fragmentsAfter done (byteLength front) l.stop rest regions =
      done.reverse ++ (regions.map (l.partIn text)).filter (!·.isEmpty) := by
  induction regions generalizing done front rest with
  | nil => simp [fragmentsAfter]
  | cons r regions ih =>
      obtain ⟨hlater, hordered⟩ := List.pairwise_cons.mp hordered
      obtain ⟨hr, hmarked⟩ := hplaced r (by simp)
      have hplaced := fun s hs => hplaced s (List.mem_cons_of_mem r hs)
      have hstart : max r.innerStart (byteLength front) = max r.innerStart l.offset := by
        rcases hfront r (by simp) with h | h <;> omega
      rw [fragmentsAfter, List.map_cons, hstart]
      by_cases hlt : max r.innerStart l.offset < min r.innerStop l.stop
      · have hcut : IsCut text (byteLength front) := ⟨front, rest ++ back, htext, rfl⟩
        have hfrom := hr.innerStart_isCut.max hcut
        rw [hstart] at hfrom
        obtain ⟨a, b, c, rfl, ha, hb⟩ := exists_parts htext hfrom (hr.innerStop_isCut.min hstop)
          (by omega) (Nat.le_of_lt hlt) (by omega)
        have hpart : l.partIn text r = b := by
          have hsplit : text = (front ++ a) ++ (b ++ (c ++ back)) := by rw [htext]; simp
          rw [partIn, ha, hb, ← byteLength_append, hsplit, byteSlice_append]
        have hne : (!b.isEmpty) = true := by
          cases b with
          | nil => simp only [byteLength_nil] at hb; omega
          | cons c b => rfl
        have hfst : max r.innerStart l.offset - byteLength front = byteLength a := by omega
        have hsnd : min r.innerStop l.stop - max r.innerStart l.offset = byteLength b := by omega
        rw [if_pos hlt, hpart, List.filter_cons_of_pos (by simpa using hne), hfst, hsnd,
          cutBytes_append, cutBytes_append]
        have hnext : min r.innerStop l.stop = byteLength (front ++ (a ++ b)) := by
          rw [hb, byteLength_append, byteLength_append, Nat.add_assoc]
        rw [hnext, ih hordered hplaced (b :: done) (by rw [htext]; simp)]
        · simp
        · rw [← hnext]
          omega
        · -- the later regions start behind this one
          intro s hs
          have := hlater s hs
          have := hmarked.innerStop_le
          rw [← hnext]
          simp only [innerStart]
          omega
        · rw [hrest]
          simp only [byteLength_append]
          omega
      · have hpart : l.partIn text r = [] := byteSlice_eq_nil (Nat.not_lt.mp hlt) text
        rw [if_neg hlt, hpart, List.filter_cons_of_neg (by simp)]
        exact ih hordered hplaced done htext hoffset (fun s hs => hfront s (by simp [hs])) hrest

theorem filter_map_overlapping (text : List Char) (l : Line) :
    ((l.overlapping (detect text)).map (l.partIn text)).filter (!·.isEmpty) =
      ((detect text).map (l.partIn text)).filter (!·.isEmpty) := by
  rw [List.filter_map, List.filter_map, overlapping, List.filter_filter]
  refine congrArg (List.map (l.partIn text)) (List.filter_congr fun r hr => ?_)
  by_cases hover : r.overlaps l.offset l.probeStop = true
  · rw [hover, Bool.and_true]
  · -- a region that takes no byte of the line has no part of it
    have hpart : l.partIn text r = [] := by
      apply byteSlice_eq_nil
      have hle := (marked_detect hr).innerStop_le
      have hinner : r.start ≤ r.innerStart := Nat.le_add_right _ _
      have hprobe : l.stop ≤ l.probeStop := Nat.le_max_left _ _
      simp only [overlaps, Bool.and_eq_true, decide_eq_true_eq, Nat.not_lt, not_and] at hover
      omega
    simp [hpart]

theorem StandsBetween.fragmentsIn_eq {text before after : List Char} {l : Line}
    (h : l.StandsBetween text before after) :
    l.fragmentsIn (l.overlapping (detect text)) =
      ((detect text).map (l.partIn text)).filter (!·.isEmpty) := by
  rw [← filter_map_overlapping, fragmentsIn, h.offset_eq]
  refine fragmentsAfter_eq_parts ((ordered_detect text).filter _) ?_ h.isCut_stop [] h.text_eq
    (Nat.le_of_eq h.offset_eq) (fun r _ => .inl h.offset_eq.symm) (by rw [stop, h.offset_eq])
  intro r hr
  have hmem := (List.mem_filter.mp hr).1
  exact ⟨(searched_detect text).placed r hmem, marked_detect hmem⟩

end Line

/-! ## Counting lines -/

namespace Text

theorem dropEndWhile_append_of_forall {p : Char → Bool} {back : List Char}
    (h : ∀ c ∈ back, p c = true) (front : List Char) :
    dropEndWhile p (front ++ back) = dropEndWhile p front := by
  have hback : ∀ c ∈ back.reverse, p c = true := fun c hc => h c (List.mem_reverse.mp hc)
  rw [dropEndWhile, List.reverse_append, List.dropWhile_append_of_pos hback, dropEndWhile]

theorem exists_dropEndWhile_append (p : Char → Bool) (cs : List Char) :
    ∃ back, cs = dropEndWhile p cs ++ back := by
  refine ⟨(cs.reverse.takeWhile p).reverse, ?_⟩
  rw [dropEndWhile, ← List.reverse_append, List.takeWhile_append_dropWhile, List.reverse_reverse]

theorem exists_dropEndWhile_eq {p : Char → Bool} {c : Char} (hc : p c = false)
    (front back : List Char) :
    ∃ rest, dropEndWhile p (front ++ c :: back) = front ++ c :: rest := by
  refine ⟨dropEndWhile p back, ?_⟩
  simp only [dropEndWhile, List.reverse_append, List.reverse_cons, List.append_assoc,
    List.dropWhile_append]
  cases hback : (back.reverse.dropWhile p).isEmpty with
  | true => simp [hc, List.isEmpty_iff.mp hback]
  | false => simp

end Text

namespace Region

theorem any_dropWhile_stop {a start : Nat} (h : a ≤ start) (stop : Nat) (regions : List Region) :
    (regions.dropWhile (·.stop ≤ a)).any (·.overlaps start stop) =
      regions.any (·.overlaps start stop) := by
  induction regions with
  | nil => rfl
  | cons r regions ih =>
      by_cases hstop : r.stop ≤ a
      · have hout : r.overlaps start stop = false := by
          simp [overlaps, Nat.not_lt.mpr (Nat.le_trans hstop h)]
        rw [List.dropWhile_cons_of_pos (by simpa using hstop), ih, List.any_cons, hout,
          Bool.false_or]
      · rw [List.dropWhile_cons_of_neg (by simpa using hstop)]

/-- Of regions in order, the first that ends behind a byte decides about the range from there. -/
theorem head?_dropWhile_any_overlaps {regions : List Region} (h : Ordered regions)
    (hne : ∀ r ∈ regions, r.start < r.stop) (start stop : Nat) :
    (regions.dropWhile (·.stop ≤ start)).head?.any (·.overlaps start stop) =
      regions.any (·.overlaps start stop) := by
  rw [← any_dropWhile_stop (Nat.le_refl start)]
  have hsublist := List.dropWhile_sublist (l := regions) fun r => decide (r.stop ≤ start)
  have hordered : Ordered (regions.dropWhile (·.stop ≤ start)) := h.sublist hsublist
  cases hleft : regions.dropWhile (·.stop ≤ start) with
  | nil => rfl
  | cons r rest =>
      rw [hleft] at hsublist hordered
      rw [List.head?_cons, Option.any_some, List.any_cons]
      cases hover : r.overlaps start stop with
      | true => rfl
      | false =>
          have hbehind : start < r.stop := by
            have := List.head?_dropWhile_not (fun r : Region => decide (r.stop ≤ start)) regions
            rw [hleft] at this
            simpa using this
          refine (List.any_eq_false.mpr fun s hs => ?_).symm
          have := (List.pairwise_cons.mp hordered).1 s hs
          have := hne r (hsublist.mem (by simp))
          simp only [overlaps, hbehind, decide_true, Bool.true_and,
            decide_eq_false_iff_not] at hover
          simp only [overlaps, Bool.and_eq_true, decide_eq_true_eq]
          omega

end Region

namespace Line

/-- The end of the bytes of a line that counting looks at: returns and feeds at the end of the line
are left out. -/
def countStop (l : Line) : Nat :=
  max (l.offset + byteLength (dropEndWhile (fun c => c == '\r' || c == '\n')
    (l.content ++ l.ending.text))) (l.offset + 1)

/-- The line counts as script. -/
def counts (regions : List Region) (l : Line) : Bool :=
  regions.any (·.overlaps l.offset l.countStop)

theorem tally_placeAfter {regions : List Region} (h : Ordered regions)
    (hne : ∀ r ∈ regions, r.start < r.stop) (index offset : Nat) (c : LineCounts)
    (pieces : List (List Char × Ending)) :
    LineCounts.tally regions offset c (pieces.map fun piece => piece.1 ++ piece.2.text) =
      ⟨c.script + ((placeAfter [] index offset pieces).map (counts regions)).count true,
        c.markup + ((placeAfter [] index offset pieces).map (counts regions)).count false⟩ := by
  induction pieces generalizing regions index offset c with
  | nil => rfl
  | cons piece pieces ih =>
      obtain ⟨content, ending⟩ := piece
      have hsublist := List.dropWhile_sublist (l := regions) fun r => decide (r.stop ≤ offset)
      have hlater : ∀ l ∈ placeAfter [] (index + 1)
          (offset + byteLength content + byteLength ending.text) pieces,
          counts (regions.dropWhile (·.stop ≤ offset)) l = counts regions l := by
        intro l hl
        have := le_offset_placeAfter hl
        exact any_dropWhile_stop (by omega) _ _
      have hfirst : (regions.dropWhile (·.stop ≤ offset)).head?.any
          (·.overlaps offset (countStop ⟨index, content, ending, offset⟩)) =
            counts regions ⟨index, content, ending, offset⟩ :=
        head?_dropWhile_any_overlaps h hne _ _
      rw [List.map_cons, LineCounts.tally, placeAfter_cons, List.map_cons, byteLength_append,
        ← Nat.add_assoc,
        ih (h.sublist hsublist) (fun r hr => hne r (hsublist.mem hr)) (index + 1),
        List.map_congr_left hlater]
      simp only [countStop] at hfirst
      rw [hfirst]
      cases counts regions ⟨index, content, ending, offset⟩ with
      | true => simp [Nat.add_assoc, Nat.add_comm 1]
      | false => simp [Nat.add_assoc, Nat.add_comm 1]

theorem countStop_le_probeStop (l : Line) : l.countStop ≤ l.probeStop := by
  have hending : ∀ c ∈ l.ending.text, (c == '\r' || c == '\n') = true := by
    cases l.ending <;> simp [Ending.text]
  obtain ⟨back, hback⟩ := exists_dropEndWhile_append (fun c => c == '\r' || c == '\n') l.content
  have hlength := congrArg byteLength hback
  rw [byteLength_append] at hlength
  rw [countStop, dropEndWhile_append_of_forall hending, probeStop, stop]
  omega

/-- A marker on a line is in front of the returns and feeds at the end of it. -/
theorem lt_countStop_of_holds {l : Line} {pos : Nat} (h : l.Holds openingMarker pos) :
    pos < l.countStop := by
  obtain ⟨p, ⟨front, back, hcontent, rfl⟩, rfl⟩ := h
  have hsplit : l.content ++ l.ending.text =
      (front ++ ['<']) ++ '%' :: (back ++ l.ending.text) := by
    rw [hcontent, openingMarker]
    simp
  obtain ⟨rest, hrest⟩ := exists_dropEndWhile_eq (p := fun c => c == '\r' || c == '\n')
    (c := '%') rfl (front ++ ['<']) (back ++ l.ending.text)
  rw [countStop, hsplit, hrest]
  simp only [byteLength_append, byteLength_cons, byteLength_nil]
  have : 0 < Char.utf8Size '<' := by decide
  omega

/-- Counting looks at fewer bytes of a line, but at enough of them. -/
theorem StandsBetween.counts_eq_any {text before after : List Char} {l : Line}
    (h : l.StandsBetween text before after) :
    l.counts (detect text) = (detect text).any (·.overlaps l.offset l.probeStop) := by
  rw [counts, Bool.eq_iff_iff, List.any_eq_true, List.any_eq_true]
  refine exists_congr fun r => and_congr_right fun hr => ?_
  have hle := l.countStop_le_probeStop
  have hfinish := h.probeStop_le_finish
  have hoffset : l.offset < l.countStop := Nat.le_max_right _ _
  have hstart : r.start < l.countStop ↔ r.start < l.probeStop := by
    rcases h.marker_cases false (marked_detect hr).opens with habove | hholds | hbelow
    · omega
    · have := lt_countStop_of_holds hholds
      omega
    · omega
  simp only [overlaps, hstart]

theorem isScript_owned (text : List Char) (l : Line) :
    (l.owned (detect text)).isScript = (detect text).any (·.overlaps l.offset l.probeStop) := by
  rw [Bool.eq_iff_iff, ← not_iff_not, Bool.not_eq_true, Bool.not_eq_true,
    OwnedLine.isScript_eq_false_iff, owner_eq_markup_iff, overlapping,
    List.filter_eq_nil_iff, List.any_eq_false]

end Line

namespace Document

/-- What does not look at the freezing of lines is the same for frozen lines. -/
theorem map_freezeFrom {α : Type} {f : OwnedLine → α}
    (hf : ∀ l, f { l with frozen := true } = f l) (doc : Document) (n : Nat) :
    (doc.freezeFrom n).lines.map f = doc.lines.map f := by
  rw [freezeFrom, List.map_append, List.map_map, Function.comp_def, funext hf, ← List.map_append,
    List.take_append_drop]

theorem map_limited {α : Type} {f : OwnedLine → α}
    (hf : ∀ l, f { l with frozen := true } = f l) (limits : Limits) (doc : Document) :
    (doc.limited limits).lines.map f = doc.lines.map f := by
  rw [limited]
  split
  · exact map_freezeFrom hf doc limits.maxLines
  · rfl

theorem map_isScript_ofText (text : List Char) :
    (ofText text).lines.map (·.isScript) = (Line.split text).map (Line.counts (detect text)) := by
  rw [lines_eq_map, List.map_map]
  refine List.map_congr_left fun l hl => ?_
  obtain ⟨before, after, h⟩ := Line.exists_between hl
  rw [h.counts_eq_any]
  exact Line.isScript_owned text l

end Document

theorem LineCounts.ofText_eq (text : List Char) :
    ofText text = ⟨(Document.ofText text).lines.countP (·.isScript),
      (Document.ofText text).lines.countP (!·.isScript)⟩ := by
  have h := Line.tally_placeAfter (ordered_detect text) start_lt_stop_of_mem 0 0 {}
    (Line.pieces text)
  rw [← Line.feedLines_eq] at h
  rw [ofText, h, ← Line.split, ← Document.map_isScript_ofText]
  simp [List.count_eq_countP, List.countP_map, Function.comp_def]

theorem Limits.exceeds_textLength {limits : Limits} {text : List Char}
    (h : byteLength text ≤ limits.maxTextLength) :
    limits.exceeds .textLength (byteLength text) = false :=
  decide_eq_false (Nat.not_lt.mpr h)

/-- The statistics of a text that is analyzed count its lines, frozen or not. -/
theorem Analysis.statistics_lines {limits : Limits} {text : List Char}
    (h : byteLength text ≤ limits.maxTextLength) :
    (ofText limits text).statistics.scriptLines = (LineCounts.ofText text).script ∧
      (ofText limits text).statistics.markupLines = (LineCounts.ofText text).markup ∧
      (ofText limits text).statistics.totalLines = (LineCounts.ofText text).total := by
  obtain ⟨blocks, unmatched, hstatistics⟩ : ∃ blocks unmatched,
      (ofText limits text).statistics =
        Statistics.of ((Document.ofText text).limited limits) blocks unmatched := by
    rw [ofText, Limits.exceeds_textLength h, if_neg Bool.false_ne_true]
    exact ⟨_, _, rfl⟩
  have hscript : ((Document.ofText text).limited limits).lines.map (·.isScript) =
      (Document.ofText text).lines.map (·.isScript) :=
    Document.map_limited (fun _ => rfl) limits _
  have hcount : ∀ b, ((Document.ofText text).limited limits).lines.countP (·.isScript == b) =
      (Document.ofText text).lines.countP (·.isScript == b) := by
    intro b
    have := congrArg (List.count b) hscript
    rwa [List.count_eq_countP, List.count_eq_countP, List.countP_map, List.countP_map] at this
  have hlength := congrArg List.length hscript
  rw [List.length_map, List.length_map] at hlength
  rw [hstatistics, LineCounts.ofText_eq]
  refine ⟨?_, ?_, ?_⟩
  · simpa [Statistics.of] using hcount true
  · simpa [Statistics.of] using hcount false
  · have htotal := List.length_eq_countP_add_countP (fun l : OwnedLine => l.isScript)
      (l := (Document.ofText text).lines)
    simpa [LineCounts.total, Statistics.of, hlength] using htotal

/-! ## Owners and counts together -/

namespace Line

/-- A byte that decides about the owner of a line: one of its content, or the first one of its
ending if there is no content. -/
def Probes (l : Line) (pos : Nat) : Prop :=
  l.offset ≤ pos ∧ pos < l.stop ∨ l.content = [] ∧ pos = l.offset

theorem probes_iff (l : Line) (pos : Nat) : l.Probes pos ↔ l.offset ≤ pos ∧ pos < l.probeStop := by
  rw [Probes, probeStop]
  by_cases hcontent : l.content = []
  · have hstop : l.stop = l.offset := by rw [stop, hcontent, byteLength_nil, Nat.add_zero]
    simp only [hcontent, true_and]
    omega
  · have := offset_lt_stop hcontent
    simp only [hcontent, false_and, or_false]
    omega

theorem overlaps_iff_exists {r : Region} (hr : r.start < r.stop) (l : Line) :
    r.overlaps l.offset l.probeStop = true ↔ ∃ pos, l.Probes pos ∧ r.contains pos = true := by
  have hoffset : l.offset < l.probeStop := Nat.le_max_right _ _
  simp only [probes_iff, overlaps, contains, Bool.and_eq_true, decide_eq_true_eq]
  constructor
  · intro h
    exact ⟨max l.offset r.start, by omega, by omega⟩
  · rintro ⟨pos, hpos⟩
    omega

end Line

/-- The owner of a line of a text is right, said by bytes. -/
structure OwnedLine.OwnedByBytes (text : List Char) (l : OwnedLine) : Prop where
  markup_iff : l.owner = .markup ↔
    ∀ r ∈ detect text, ∀ pos, l.Probes pos → r.contains pos = false
  body_iff : (∃ isComment, l.owner = .body isComment) ↔ ∃ r ∈ detect text, l.IsInside r
  marker : ∀ fragments, l.owner = .marker fragments →
    (∃ r ∈ detect text, l.HoldsMarkerOf r) ∧
      fragments = ((detect text).map (l.partIn text)).filter (!·.isEmpty)

theorem Line.StandsBetween.ownedByBytes {text before after : List Char} {l : Line}
    (h : l.StandsBetween text before after) : (l.owned (detect text)).OwnedByBytes text where
  markup_iff := by
    rw [Line.owner_eq_markup_iff, Line.overlapping, List.filter_eq_nil_iff]
    refine forall_congr' fun r => forall_congr' fun hr => ?_
    rw [Line.overlaps_iff_exists (start_lt_stop_of_mem r hr)]
    simp only [not_exists, not_and, Bool.not_eq_true]
    rfl
  body_iff := h.owner_eq_body_iff
  marker := by
    intro fragments howner
    have howned := Line.ownedBy_owned text l
    rw [howner] at howned
    have hfragments := h.fragmentsIn_eq
    generalize hover : l.overlapping (detect text) = regions at howned hfragments
    cases howned with
    | marker hne houtside =>
        refine ⟨?_, hfragments⟩
        obtain ⟨r, hr⟩ := List.exists_mem_of_ne_nil regions hne
        rw [← hover] at hr
        obtain ⟨hmem, hoverlaps⟩ := List.mem_filter.mp hr
        refine ⟨r, hmem, ?_⟩
        rcases h.inside_or_holds (marked_detect hmem) hoverlaps with hinside | hholds
        · have hone := h.overlapping_of_inside hmem hinside
          exact absurd hinside (houtside r (hover ▸ hone))
        · exact hholds

/-- The owners of lines follow from the bytes that regions take of them, and both ways of counting
agree on any text that is analyzed. -/
theorem Document.lines_partitioned (text : List Char) :
    (∀ l ∈ (ofText text).lines, l.OwnedByBytes text) ∧
      ∀ limits : Limits, byteLength text ≤ limits.maxTextLength →
        (Analysis.ofText limits text).statistics.scriptLines = (LineCounts.ofText text).script ∧
        (Analysis.ofText limits text).statistics.markupLines = (LineCounts.ofText text).markup ∧
        (Analysis.ofText limits text).statistics.totalLines = (LineCounts.ofText text).total := by
  refine ⟨fun l hl => ?_, fun limits h => Analysis.statistics_lines h⟩
  rw [lines_eq_map] at hl
  obtain ⟨l, hmem, rfl⟩ := List.mem_map.mp hl
  obtain ⟨before, after, h⟩ := Line.exists_between hmem
  exact h.ownedByBytes

theorem Document.lines_partitioned_mixed_endings :
    let text := "a\r\r\n<% x\n\r\n\ny %>b<%= z %>\r".toList
    (ofText text).lines.map (·.owner) =
        [.markup, .marker [" x".toList], .body false, .body false,
          .marker ["y ".toList, "= z ".toList]] ∧
      (∀ l ∈ (ofText text).lines, l.OwnedByBytes text) ∧
      byteLength text ≤ ({} : Limits).maxTextLength ∧
      (Analysis.ofText {} text).statistics.scriptLines = 4 ∧
      (Analysis.ofText {} text).statistics.markupLines = 1 := by
  intro text
  have hlength : byteLength text ≤ ({} : Limits).maxTextLength := by decide +kernel
  obtain ⟨howned, hcounts⟩ := lines_partitioned text
  obtain ⟨hscript, hmarkup, -⟩ := hcounts {} hlength
  refine ⟨by decide +kernel, howned, hlength, hscript.trans ?_, hmarkup.trans ?_⟩
  · decide +kernel
  · decide +kernel

/-- A text that is too long is not analyzed, and its statistics count no lines. -/
theorem Analysis.statistics_of_too_long :
    let text := "a\n<%\nx\n%>".toList
    let analysis := ofText { maxTextLength := 3 } text
    analysis.statistics.scriptLines ≠ (LineCounts.ofText text).script ∧
      analysis.statistics.markupLines ≠ (LineCounts.ofText text).markup ∧
      analysis.statistics.totalLines ≠ (LineCounts.ofText text).total := by
  decide +kernel

end ClassicAsp
