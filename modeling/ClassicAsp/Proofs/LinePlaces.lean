import ClassicAsp.Proofs.MarkerSearch

/-! # Places of lines

A line stands at its place in the text, and a marker stands above it, in its content or below it:
no marker reaches over the end of a line. So a region that takes a byte of a line has the whole
line between its markers, or has one of its markers on it. -/

namespace ClassicAsp

open Text Region

/-! ## Cuts that nothing reaches over -/

namespace Text

theorem StandsAt.add_le {part text : List Char} {pos : Nat} (h : StandsAt part text pos) :
    pos + byteLength part ≤ byteLength text := by
  obtain ⟨front, back, rfl, rfl⟩ := h
  simp only [byteLength_append]
  omega

/-- A text that stands in a concatenation stands in one of the two parts, if it does not hold the
characters on one side of the cut. -/
theorem standsAt_append_cases {part front back : List Char} {pos : Nat}
    (h : StandsAt part (front ++ back) pos)
    (hcut : (∀ c, front.getLast? = some c → c ∉ part) ∨ ∀ c, back.head? = some c → c ∉ part) :
    StandsAt part front pos ∨ ∃ p, StandsAt part back p ∧ pos = byteLength front + p := by
  obtain ⟨a, b, htext, rfl⟩ := h
  rcases List.append_eq_append_iff.mp htext with ⟨mid, rfl, hback⟩ | ⟨mid, rfl, hpart⟩
  · exact .inr ⟨byteLength mid, ⟨mid, b, hback, rfl⟩, byteLength_append front mid⟩
  · rcases List.append_eq_append_iff.mp hpart with ⟨rest, rfl, hb⟩ | ⟨rest, rfl, rfl⟩
    · exact .inl ⟨a, rest, rfl, rfl⟩
    · -- the cut is inside of the part, unless the part starts or ends there
      cases hmid : mid.getLast? with
      | none =>
          obtain rfl := List.getLast?_eq_none_iff.mp hmid
          exact .inr ⟨0, ⟨[], b, rfl, rfl⟩, by simp⟩
      | some c =>
          cases rest with
          | nil => exact .inl ⟨a, [], by simp, rfl⟩
          | cons d rest =>
              exfalso
              rcases hcut with hfront | hback
              · refine hfront c ?_ (List.mem_append_left _ (List.mem_of_getLast? hmid))
                rw [List.getLast?_append, hmid, Option.some_or]
              · exact hback d rfl (by simp)

end Text

/-! ## Lines in their text -/

namespace Line

/-- The byte that the line below starts at. -/
def finish (l : Line) : Nat := l.stop + byteLength l.ending.text

/-- The line stands in the text, between what stands before and after it. -/
structure StandsBetween (text before after : List Char) (l : Line) : Prop where
  text_eq : text = before ++ (l.content ++ (l.ending.text ++ after))
  offset_eq : l.offset = byteLength before
  before_feed : ∀ c, before.getLast? = some c → c = '\n'
  last : l.ending = .none → l.content ≠ [] ∧ after = []

theorem getLast?_ending {ending : Ending} {c : Char} (h : ending.text.getLast? = some c) :
    c = '\n' := by
  cases ending with
  | none => cases h
  | lf => exact (Option.some.inj h).symm
  | crlf => exact (Option.some.inj h).symm

theorem getLast?_behind {before content : List Char} {ending : Ending} (hending : ending ≠ .none)
    {c : Char} (h : (before ++ (content ++ ending.text)).getLast? = some c) : c = '\n' := by
  obtain ⟨d, hd⟩ : ∃ d, ending.text.getLast? = some d := by
    cases ending with
    | none => exact absurd rfl hending
    | lf => exact ⟨_, rfl⟩
    | crlf => exact ⟨_, rfl⟩
  rw [List.getLast?_append, List.getLast?_append, hd] at h
  obtain rfl : d = c := Option.some.inj h
  exact getLast?_ending hd

theorem exists_between_of_canonical {lines : List (List Char × Ending)} (h : Canonical lines)
    (before : List Char) (hbefore : ∀ c, before.getLast? = some c → c = '\n') (index : Nat)
    {l : Line} (hl : l ∈ placeAfter [] index (byteLength before) lines) :
    ∃ before' after, l.StandsBetween (before ++ join lines) before' after := by
  induction h generalizing before index with
  | nil => simp [placeAfter] at hl
  | @last content hne hfeed =>
      rw [placeAfter_cons] at hl
      obtain rfl := List.mem_singleton.mp hl
      exact ⟨before, [], by simp, rfl, hbefore, fun _ => ⟨hne, rfl⟩⟩
  | @line content ending lines hending hfeed hcr _ ih =>
      rw [placeAfter_cons] at hl
      rcases List.mem_cons.mp hl with rfl | hl
      · exact ⟨before, join lines, by simp, rfl, hbefore, fun hnone => absurd hnone hending⟩
      · have hlength : byteLength before + byteLength content + byteLength ending.text =
            byteLength (before ++ (content ++ ending.text)) := by
          rw [byteLength_append, byteLength_append, Nat.add_assoc]
        rw [hlength] at hl
        obtain ⟨before', after, hbetween⟩ :=
          ih _ (fun c hc => getLast?_behind hending hc) (index + 1) hl
        refine ⟨before', after, ?_⟩
        simpa using hbetween

/-- Every line of a text stands in it. -/
theorem exists_between {text : List Char} {l : Line} (hl : l ∈ split text) :
    ∃ before after, l.StandsBetween text before after := by
  have h := exists_between_of_canonical (canonical_pieces text) [] (by simp) 0 hl
  rwa [List.nil_append, join_pieces] at h

/-- The lines follow each other without a gap. -/
theorem offset_of_next {lines : List (List Char × Ending)} {index offset i : Nat} {l next : Line}
    (hl : (placeAfter [] index offset lines)[i]? = some l)
    (hnext : (placeAfter [] index offset lines)[i + 1]? = some next) :
    next.offset = l.finish := by
  induction lines generalizing index offset i with
  | nil => simp [placeAfter] at hl
  | cons piece lines ih =>
      obtain ⟨content, ending⟩ := piece
      rw [placeAfter_cons] at hl hnext
      cases i with
      | succ i => exact ih hl hnext
      | zero =>
          obtain rfl := Option.some.inj hl
          cases lines with
          | nil => simp [placeAfter] at hnext
          | cons piece lines =>
              obtain ⟨content', ending'⟩ := piece
              rw [List.getElem?_cons_succ, placeAfter_cons] at hnext
              obtain rfl := Option.some.inj hnext
              rfl

/-- The byte after those that decide about the owner of a line: the content, or the first byte of
the ending of a line without content. -/
def probeStop (l : Line) : Nat := max l.stop (l.offset + 1)

/-- The marker stands in the content of the line, at byte `pos` of the text. -/
def Holds (l : Line) (marker : List Char) (pos : Nat) : Prop :=
  ∃ p, StandsAt marker l.content p ∧ pos = l.offset + p

section

variable {text before after : List Char} {l : Line} {pos : Nat}

theorem byteLength_nextMarker (inside : Bool) : byteLength (nextMarker inside) = markerLength := by
  cases inside <;> decide

theorem feed_notMem_nextMarker (inside : Bool) : '\n' ∉ nextMarker inside := by
  cases inside <;> decide

theorem holds_le (inside : Bool) (h : l.Holds (nextMarker inside) pos) :
    l.offset ≤ pos ∧ pos + markerLength ≤ l.stop := by
  obtain ⟨p, hp, rfl⟩ := h
  have hle := hp.add_le
  rw [byteLength_nextMarker] at hle
  rw [stop]
  omega

theorem not_standsAt_ending (ending : Ending) (inside : Bool) (pos : Nat) :
    ¬StandsAt (nextMarker inside) ending.text pos := by
  rintro ⟨front, back, htext, -⟩
  have hmem : '%' ∈ ending.text := by
    rw [htext]
    cases inside <;> simp [nextMarker, openingMarker, closingMarker]
  revert hmem
  cases ending <;> decide

namespace StandsBetween

/-- A marker stands above a line, in its content or below it. -/
theorem marker_cases (h : l.StandsBetween text before after) (inside : Bool)
    (hm : StandsAt (nextMarker inside) text pos) :
    pos + markerLength ≤ l.offset ∨ l.Holds (nextMarker inside) pos ∨ l.finish ≤ pos := by
  rw [h.text_eq] at hm
  have habove : ∀ c, before.getLast? = some c → c ∉ nextMarker inside := by
    intro c hc
    rw [h.before_feed c hc]
    exact feed_notMem_nextMarker inside
  have hbehind : ∀ c, (l.ending.text ++ after).head? = some c → c ∉ nextMarker inside := by
    intro c hc
    cases hending : l.ending with
    | none =>
        rw [hending, (h.last hending).2] at hc
        cases hc
    | lf =>
        rw [hending] at hc
        obtain rfl := Option.some.inj hc
        exact feed_notMem_nextMarker inside
    | crlf =>
        rw [hending] at hc
        obtain rfl := Option.some.inj hc
        cases inside <;> decide
  have hending : ∀ c, l.ending.text.getLast? = some c → c ∉ nextMarker inside := by
    intro c hc
    rw [getLast?_ending hc]
    exact feed_notMem_nextMarker inside
  rcases standsAt_append_cases hm (.inl habove) with hin | ⟨p, hrest, rfl⟩
  · have hle := hin.add_le
    rw [byteLength_nextMarker, ← h.offset_eq] at hle
    exact .inl hle
  · rcases standsAt_append_cases hrest (.inr hbehind) with hin | ⟨q, hrest', rfl⟩
    · exact .inr (.inl ⟨p, hin, by rw [h.offset_eq]⟩)
    · rcases standsAt_append_cases hrest' (.inl hending) with hin | ⟨r, -, rfl⟩
      · exact absurd hin (not_standsAt_ending l.ending inside q)
      · refine .inr (.inr ?_)
        rw [finish, stop, h.offset_eq]
        omega

theorem probeStop_le_finish (h : l.StandsBetween text before after) :
    l.probeStop ≤ l.finish := by
  have hbytes : l.stop < l.finish ∨ l.offset < l.stop := by
    cases hending : l.ending with
    | none => exact .inr (offset_lt_stop (h.last hending).1)
    | lf => exact .inl (by rw [finish, hending]; exact Nat.lt_add_of_pos_right (by decide))
    | crlf => exact .inl (by rw [finish, hending]; exact Nat.lt_add_of_pos_right (by decide))
  have hle : l.stop ≤ l.finish := Nat.le_add_right _ _
  have hoffset : l.offset ≤ l.stop := Nat.le_add_right _ _
  rw [probeStop]
  omega

theorem finish_le (h : l.StandsBetween text before after) : l.finish ≤ byteLength text := by
  rw [h.text_eq, finish, stop, h.offset_eq]
  simp only [byteLength_append]
  omega

theorem isCut_stop (h : l.StandsBetween text before after) : IsCut text l.stop := by
  refine ⟨before ++ l.content, l.ending.text ++ after, ?_, ?_⟩
  · rw [h.text_eq, List.append_assoc]
  · rw [byteLength_append, stop, h.offset_eq]

end StandsBetween

end

end Line

/-! ## Regions and their markers -/

namespace Region

/-- The markers of a region stand in the text, and without a closing one the region takes the rest
of the text. -/
structure Marked (text : List Char) (r : Region) : Prop where
  opens : StandsAt openingMarker text r.start
  closes : r.terminated = true →
    StandsAt closingMarker text r.innerStop ∧ r.stop = r.innerStop + markerLength
  reaches : r.terminated = false → r.innerStop = byteLength text ∧ r.stop = byteLength text

theorem Searched.marked {text : List Char} {pos : Nat} {regions : List Region}
    (h : Searched text pos regions) : ∀ r ∈ regions, r.Marked text := by
  induction h with
  | none => simp
  | opened hstart =>
      intro r hr
      obtain rfl := List.mem_singleton.mp hr
      refine ⟨hstart.stands, by simp, fun _ => ⟨?_, rfl⟩⟩
      simp only [innerStop, innerStart, Bool.false_eq_true, if_false]
      exact Nat.max_eq_left (isCut_innerStart hstart.stands).le_byteLength
  | closed hstart hstop _ ih =>
      intro r hr
      rcases List.mem_cons.mp hr with rfl | hr
      · have hinner := Nat.max_eq_left hstop.start_le
        refine ⟨hstart.stands, fun _ => ?_, by simp⟩
        simp only [innerStop, innerStart, if_true, Nat.add_sub_cancel, hinner]
        exact ⟨hstop.stands, trivial⟩
      · exact ih r hr

theorem marked_detect {text : List Char} {r : Region} (hr : r ∈ detect text) : r.Marked text :=
  (searched_detect text).marked r hr

theorem innerStart_le_innerStop (r : Region) : r.innerStart ≤ r.innerStop :=
  Nat.le_max_right _ _

theorem Marked.innerStop_le {text : List Char} {r : Region} (h : r.Marked text) :
    r.innerStop ≤ r.stop := by
  cases hterminated : r.terminated with
  | true => exact (h.closes hterminated).2 ▸ Nat.le_add_right _ _
  | false => rw [(h.reaches hterminated).1, (h.reaches hterminated).2]

end Region

namespace Line

/-- The whole content of the line is between the markers of the region. -/
def IsInside (l : Line) (r : Region) : Prop := r.innerStart ≤ l.offset ∧ l.stop ≤ r.innerStop

/-- The content of the line holds the opening marker of the region or its closing one. -/
def HoldsMarkerOf (l : Line) (r : Region) : Prop :=
  l.Holds openingMarker r.start ∨
    r.terminated = true ∧ ∃ pos, l.Holds closingMarker pos ∧ r.stop = pos + markerLength

/-- A region with a marker on a line takes bytes of the line and does not have it inside. -/
theorem overlaps_of_holds {text : List Char} {l : Line} {r : Region} (hholds : l.HoldsMarkerOf r)
    (hr : r.Marked text) :
    r.overlaps l.offset l.probeStop = true ∧ ¬l.IsInside r := by
  have hinner : r.start + markerLength ≤ r.innerStop := innerStart_le_innerStop r
  have hstop := hr.innerStop_le
  have hprobe : l.stop ≤ l.probeStop := Nat.le_max_left _ _
  simp only [Region.overlaps, IsInside, innerStart, Bool.and_eq_true, decide_eq_true_eq,
    markerLength] at hinner ⊢
  rcases hholds with hholds | ⟨hterminated, pos, hholds, hpos⟩
  · have hle := holds_le false hholds
    simp only [markerLength] at hle
    omega
  · have hle := holds_le true hholds
    have hlength := (hr.closes hterminated).2
    simp only [markerLength] at hle hpos hlength
    omega

namespace StandsBetween

variable {text before after : List Char} {l : Line} {r : Region}

/-- A region that starts above a line and does not end above it has the line inside, or its
closing marker is on the line. -/
theorem inside_or_closes (h : l.StandsBetween text before after) (hr : r.Marked text)
    (hstart : r.innerStart ≤ l.offset) (hstop : l.offset < r.stop) :
    l.IsInside r ∨ r.terminated = true ∧ l.Holds closingMarker r.innerStop := by
  cases hterminated : r.terminated with
  | false =>
      have hle := h.finish_le
      have hreaches := (hr.reaches hterminated).1
      refine .inl ⟨hstart, ?_⟩
      rw [hreaches]
      exact Nat.le_trans (Nat.le_add_right _ _) hle
  | true =>
      obtain ⟨hcloses, hlength⟩ := hr.closes hterminated
      rcases h.marker_cases true hcloses with habove | hholds | hbelow
      · omega
      · exact .inr ⟨rfl, hholds⟩
      · exact .inl ⟨hstart, Nat.le_trans (Nat.le_add_right _ _) hbelow⟩

/-- A region that takes a byte of a line has the line inside, or one of its markers is on the
line. -/
theorem inside_or_holds (h : l.StandsBetween text before after) (hr : r.Marked text)
    (hoverlaps : r.overlaps l.offset l.probeStop = true) : l.IsInside r ∨ l.HoldsMarkerOf r := by
  simp only [overlaps, Bool.and_eq_true, decide_eq_true_eq] at hoverlaps
  rcases h.marker_cases false hr.opens with habove | hholds | hbelow
  · rcases h.inside_or_closes hr habove hoverlaps.1 with hinside | ⟨hterminated, hholds⟩
    · exact .inl hinside
    · exact .inr (.inr ⟨hterminated, _, hholds, (hr.closes hterminated).2⟩)
  · exact .inr (.inl hholds)
  · have := h.probeStop_le_finish
    omega

/-- A region that has a line inside takes the bytes of the line. -/
theorem overlaps_of_inside (h : l.StandsBetween text before after) (hr : r.Marked text)
    (hinside : l.IsInside r) : l.probeStop ≤ r.stop ∧ r.overlaps l.offset l.probeStop = true := by
  obtain ⟨hstart, hstop⟩ := hinside
  have hfinish := h.finish_le
  have hprobe := h.probeStop_le_finish
  have hoffset : l.offset < l.probeStop := Nat.le_max_right _ _
  have hreach : l.probeStop ≤ r.stop := by
    cases hterminated : r.terminated with
    | true =>
        have hle : l.offset ≤ l.stop := Nat.le_add_right _ _
        have hlength := (hr.closes hterminated).2
        simp only [probeStop, markerLength] at hlength ⊢
        omega
    | false =>
        rw [(hr.reaches hterminated).2]
        omega
  simp only [overlaps, innerStart, Bool.and_eq_true, decide_eq_true_eq] at hstart ⊢
  omega

end StandsBetween

end Line

end ClassicAsp
