import ClassicAsp.Proofs.Continuations
import ClassicAsp.Proofs.OwnedBytes

/-! # Levels of comments

A comment between markers looks down for the statement that it stands above. What it passes over is
inside the region of the comment, and the region ends with a line that holds its closing marker and
so ends the search. So a comment has the level of a statement in its own region, or that of the
blocks around it. -/

namespace ClassicAsp

open Text Region Block BlockScan

/-! ## Lines below a line that is inside a region -/

namespace Text

theorem exists_sameLetter_of_dropFolded? {pattern cs rest : List Char} {c : Char}
    (h : dropFolded? pattern cs = some rest) (hrest : allBlank rest = true) (hc : c ∈ cs)
    (hvisible : isBlank c = false) : ∃ p ∈ pattern, sameLetter p c = true := by
  induction pattern generalizing cs with
  | nil =>
      obtain rfl := Option.some.inj h
      rw [allBlank_iff.mp hrest c hc] at hvisible
      cases hvisible
  | cons p pattern ih =>
      cases cs with
      | nil => cases h
      | cons d cs =>
          rw [dropFolded?] at h
          split at h
          · next hsame =>
              rcases List.mem_cons.mp hc with rfl | hc
              · exact ⟨p, by simp, hsame⟩
              · obtain ⟨q, hq, hqc⟩ := ih h hc
                exact ⟨q, by simp [hq], hqc⟩
          · cases h

theorem mem_trim_of_mem {cs : List Char} {c : Char} (hc : c ∈ cs) (hvisible : isBlank c = false) :
    c ∈ trim cs := by
  obtain ⟨back, hback, hsplit⟩ := exists_trim cs
  have hfront : ∀ d ∈ cs.takeWhile isBlank, isBlank d = true := fun d => List.mem_takeWhile_imp
  rw [hsplit, List.mem_append, List.mem_append] at hc
  rcases hc with hc | hc | hc
  · rw [hfront c hc] at hvisible
    cases hvisible
  · exact hc
  · rw [allBlank_iff.mp hback c hc] at hvisible
    cases hvisible

end Text

theorem OwnedLine.of_isBody {l : OwnedLine} (h : l.isBody = true) :
    (∃ isComment, l.owner = .body isComment) ∧ l.frozen = false := by
  rw [isBody] at h
  cases howner : l.owner with
  | markup => simp [howner] at h
  | marker fragments => simp [howner] at h
  | body isComment =>
      simp only [howner, Bool.not_eq_true'] at h
      exact ⟨⟨isComment, rfl⟩, h⟩

/-- A line that holds a closing marker is not a bare opening marker. -/
theorem OwnedLine.isBareOpening_of_holds {l : OwnedLine} {pos : Nat}
    (h : l.Holds closingMarker pos) : l.isBareOpening = false := by
  obtain ⟨p, ⟨front, back, hcontent, -⟩, -⟩ := h
  have hmem : '>' ∈ l.trimmed := by
    refine mem_trim_of_mem ?_ (by decide)
    rw [hcontent]
    simp [closingMarker]
  rw [isBareOpening, Bool.and_eq_false_iff]
  refine .inr (Bool.eq_false_iff.mpr fun hbare => ?_)
  rw [Statement.Form.holds, Option.any_eq_true] at hbare
  obtain ⟨rest, hrest, hblank⟩ := hbare
  obtain ⟨c, hc, hsame⟩ := exists_sameLetter_of_dropFolded? hrest hblank hmem (by decide)
  change c ∈ ['<', '%'] at hc
  rcases List.mem_cons.mp hc with rfl | hc
  · exact absurd hsame (by decide)
  · obtain rfl := List.mem_singleton.mp hc
    exact absurd hsame (by decide)

/-- Below a line that is inside a region is one that is inside too, or one that closes the
region. -/
theorem Line.inside_or_closes_of_next {text : List Char} {i : Nat} {l next : Line} {r : Region}
    (hl : (split text)[i]? = some l) (hnext : (split text)[i + 1]? = some next)
    (hr : r ∈ detect text) (hinside : l.IsInside r) :
    next.IsInside r ∨ r.terminated = true ∧ next.Holds closingMarker r.innerStop := by
  have hmarked := marked_detect hr
  obtain ⟨before, after, h⟩ := exists_between (List.mem_of_getElem? hl)
  obtain ⟨before', after', h'⟩ := exists_between (List.mem_of_getElem? hnext)
  have hoffset : next.offset = l.finish := offset_of_next hl hnext
  have hle : l.offset ≤ l.stop ∧ l.stop ≤ l.finish := ⟨Nat.le_add_right _ _, Nat.le_add_right _ _⟩
  have hfinish := h'.finish_le
  have hprobe := h'.probeStop_le_finish
  have hlt : next.offset < next.probeStop := Nat.le_max_right _ _
  refine h'.inside_or_closes hmarked (Nat.le_trans hinside.1 (by omega)) ?_
  cases hterminated : r.terminated with
  | false =>
      rw [(hmarked.reaches hterminated).2]
      omega
  | true =>
      -- the closing marker is below the first line, and so not above the second
      obtain ⟨hcloses, hlength⟩ := hmarked.closes hterminated
      have hstop := hinside.2
      simp only [markerLength] at hlength
      rcases h.marker_cases true hcloses with habove | hholds | hbelow
      · simp only [markerLength] at habove
        omega
      · have := holds_le true hholds
        simp only [markerLength] at this
        omega
      · omega

namespace Document

variable {text : List Char} {frozenFrom i : Nat} {l : OwnedLine} {r : Region}

theorem getElem?_split_of_frozen (h : ((ofText text).freezeFrom frozenFrom).lines[i]? = some l) :
    (Line.split text)[i]? = some l.toLine ∧ l.owner = (l.toLine.owned (detect text)).owner := by
  have hmap := map_freezeFrom (f := fun l => (l.toLine, l.owner)) (fun _ => rfl) (ofText text)
    frozenFrom
  have hrow := congrArg (·[i]?) hmap
  simp only [List.getElem?_map, h, Option.map_some, lines_eq_map] at hrow
  cases hl : (Line.split text)[i]? with
  | none => simp [hl] at hrow
  | some l' =>
      simp only [hl, Option.map_some, Option.some.injEq, Prod.mk.injEq] at hrow
      obtain ⟨hline, howner⟩ := hrow
      have hline : l.toLine = l' := hline
      rw [hline]
      exact ⟨rfl, howner⟩

/-- The lines between markers, frozen or not, are those that are inside a region. -/
theorem owner_eq_body_iff_of_frozen
    (h : ((ofText text).freezeFrom frozenFrom).lines[i]? = some l) :
    (∃ isComment, l.owner = .body isComment) ↔ ∃ r ∈ detect text, l.IsInside r := by
  obtain ⟨hsplit, howner⟩ := getElem?_split_of_frozen h
  obtain ⟨before, after, hbetween⟩ := Line.exists_between (List.mem_of_getElem? hsplit)
  rw [howner]
  exact hbetween.owner_eq_body_iff

theorem exists_inside_of_isBody (h : ((ofText text).freezeFrom frozenFrom).lines[i]? = some l)
    (hbody : l.isBody = true) : ∃ r ∈ detect text, l.IsInside r :=
  (owner_eq_body_iff_of_frozen h).mp (OwnedLine.of_isBody hbody).1

/-- A line that holds the closing marker of a region is not between markers. -/
theorem isBody_of_holds (h : ((ofText text).freezeFrom frozenFrom).lines[i]? = some l)
    (hr : r ∈ detect text) (hterminated : r.terminated = true)
    (hholds : l.Holds closingMarker r.innerStop) : l.isBody = false := by
  refine Bool.eq_false_iff.mpr fun hbody => ?_
  obtain ⟨s, hs, hinside⟩ := exists_inside_of_isBody h hbody
  obtain ⟨hsplit, -⟩ := getElem?_split_of_frozen h
  obtain ⟨before, after, hbetween⟩ := Line.exists_between (List.mem_of_getElem? hsplit)
  have hmarked := marked_detect hr
  obtain ⟨hover, houtside⟩ := Line.overlaps_of_holds
    (.inr ⟨hterminated, _, hholds, (hmarked.closes hterminated).2⟩) hmarked
  -- the region takes a byte of the line, and is the only one that does
  have hmem : r ∈ l.toLine.overlapping (detect text) := List.mem_filter.mpr ⟨hr, hover⟩
  rw [hbetween.overlapping_of_inside hs hinside, List.mem_singleton] at hmem
  exact houtside (hmem ▸ hinside)

end Document

/-! ## What a comment passes over -/

/-- Does a comment above pass over the line? -/
def OwnedLine.isPassed (l : OwnedLine) : Bool := l.isBody && (l.isBlank || l.isComment)

namespace Document

variable {text : List Char} {frozenFrom i j : Nat} {l next : OwnedLine} {r : Region}

/-- A search down from line `i` comes to line `j`: it passes over all lines in between. -/
def LooksTo (doc : Document) (i j : Nat) : Prop :=
  i < j ∧ ∀ k l, i < k → k < j → doc.lines[k]? = some l → l.isPassed = true

/-- The first line below line `i` that is not passed over. -/
structure FirstBelow (doc : Document) (i j : Nat) (next : OwnedLine) : Prop where
  looksTo : doc.LooksTo i j
  isLine : doc.lines[j]? = some next
  stops : next.isPassed = false

/-- What the search passes over stays inside the region that it started in. -/
theorem inside_of_looksTo (h : ((ofText text).freezeFrom frozenFrom).lines[i]? = some l)
    (hr : r ∈ detect text) (hinside : l.IsInside r)
    (hlooks : ((ofText text).freezeFrom frozenFrom).LooksTo i j)
    (hnext : ((ofText text).freezeFrom frozenFrom).lines[j]? = some next) :
    next.IsInside r ∨ r.terminated = true ∧ next.Holds closingMarker r.innerStop := by
  obtain ⟨hlt, hpassed⟩ := hlooks
  obtain ⟨d, rfl⟩ : ∃ d, j = i + d + 1 := ⟨j - i - 1, by omega⟩
  clear hlt
  induction d generalizing next with
  | zero =>
      exact Line.inside_or_closes_of_next (getElem?_split_of_frozen h).1
        (getElem?_split_of_frozen hnext).1 hr hinside
  | succ d ih =>
      obtain ⟨m, hm⟩ : ∃ m, ((ofText text).freezeFrom frozenFrom).lines[i + d + 1]? = some m :=
        ⟨_, List.getElem?_eq_getElem (Nat.lt_of_succ_lt (List.getElem?_eq_some_iff.mp hnext).1)⟩
      have hbody : m.isBody = true := by
        have := hpassed (i + d + 1) m (by omega) (by omega) hm
        rw [OwnedLine.isPassed, Bool.and_eq_true] at this
        exact this.1
      rcases ih hm (fun k l' hk hk' => hpassed k l' hk (by omega)) with hinside' | ⟨hclosed, hholds⟩
      · exact Line.inside_or_closes_of_next (getElem?_split_of_frozen hm).1
          (getElem?_split_of_frozen hnext).1 hr hinside'
      · rw [isBody_of_holds hm hr hclosed hholds] at hbody
        cases hbody

/-- The search never meets a bare opening marker. -/
theorem isBareOpening_of_looksTo (h : ((ofText text).freezeFrom frozenFrom).lines[i]? = some l)
    (hbody : l.isBody = true) (hlooks : ((ofText text).freezeFrom frozenFrom).LooksTo i j)
    (hnext : ((ofText text).freezeFrom frozenFrom).lines[j]? = some next) :
    next.isBareOpening = false := by
  obtain ⟨r, hr, hinside⟩ := exists_inside_of_isBody h hbody
  rcases inside_of_looksTo h hr hinside hlooks hnext with hnextr | ⟨-, hholds⟩
  · obtain ⟨isComment, howner⟩ := (owner_eq_body_iff_of_frozen hnext).mpr ⟨r, hr, hnextr⟩
    rw [OwnedLine.isBareOpening, OwnedLine.isMarker, howner]
    rfl
  · exact OwnedLine.isBareOpening_of_holds hholds

/-- The statement that the search finds is in the region that it started in. -/
theorem exists_region_of_looksTo (h : ((ofText text).freezeFrom frozenFrom).lines[i]? = some l)
    (hbody : l.isBody = true) (hlooks : ((ofText text).freezeFrom frozenFrom).LooksTo i j)
    (hnext : ((ofText text).freezeFrom frozenFrom).lines[j]? = some next)
    (hnextBody : next.isBody = true) :
    ∃ r ∈ detect text, l.IsInside r ∧ next.IsInside r := by
  obtain ⟨r, hr, hinside⟩ := exists_inside_of_isBody h hbody
  refine ⟨r, hr, hinside, ?_⟩
  rcases inside_of_looksTo h hr hinside hlooks hnext with hnextr | ⟨hclosed, hholds⟩
  · exact hnextr
  · rw [isBody_of_holds hnext hr hclosed hholds] at hnextBody
    cases hnextBody

end Document

/-! ## The search -/

namespace Indentation

/-- What a comment meets that stands above these lines. -/
def aheadOf (rows : List (OwnedLine × Nat)) : Ahead :=
  rows.foldr (fun row ahead => ahead.above row.1 row.2) ⟨0, none⟩

theorem ahead_settled (limits : Limits) (rows : List (OwnedLine × Nat)) :
    (rows.foldr (Settled.above limits) {}).ahead = aheadOf rows := by
  induction rows with
  | nil => rfl
  | cons row rows ih =>
      obtain ⟨line, level⟩ := row
      rw [List.foldr_cons, Settled.above_ahead, ih]
      rfl

/-- The level of a comment, by what it meets below it. -/
theorem getElem?_settled_of_comment (limits : Limits) {rows : List (OwnedLine × Nat)} {i : Nat}
    {line : OwnedLine} {level : Nat} (hrow : rows[i]? = some (line, level))
    (hbody : line.isBody = true) (hcomment : line.isComment = true) :
    (rows.foldr (Settled.above limits) {}).levels[i]? =
      some (if (aheadOf (rows.drop (i + 1))).steps ≤ limits.maxLoopIterations then
        (aheadOf (rows.drop (i + 1))).level?.getD level else level) := by
  induction rows generalizing i with
  | nil => simp at hrow
  | cons row rows ih =>
      rw [List.foldr_cons]
      cases i with
      | zero =>
          obtain rfl := Option.some.inj hrow
          rw [List.drop_succ_cons, List.drop_zero, ← ahead_settled limits]
          simp only [Settled.above, hbody, hcomment, Bool.and_self, if_true]
          split <;> rfl
      | succ i =>
          obtain ⟨x, hx⟩ := Settled.exists_levels limits row (rows.foldr (Settled.above limits) {})
          rw [hx]
          exact ih hrow

theorem Ahead.above_of_isPassed {line : OwnedLine} (h : line.isPassed = true) (ahead : Ahead)
    (level : Nat) : ahead.above line level = { ahead with steps := ahead.steps + 1 } := by
  rw [OwnedLine.isPassed, Bool.and_eq_true] at h
  simp only [Ahead.above, h.1, h.2, Bool.not_true, Bool.false_eq_true, if_false, if_true, ite_self]

theorem Ahead.above_of_stops {line : OwnedLine} (h : line.isPassed = false)
    (hbare : line.isBareOpening = false) (ahead : Ahead) (level : Nat) :
    ahead.above line level = ⟨1, if line.isCode then some level else none⟩ := by
  simp only [Ahead.above, hbare, OwnedLine.isCode, Bool.false_eq_true, if_false]
  by_cases hbody : line.isBody = true
  · rw [OwnedLine.isPassed, hbody, Bool.true_and, Bool.or_eq_false_iff] at h
    simp [hbody, h.1, h.2]
  · simp [hbody]

/-- A search passes over all lines, or stops at the first one that it does not pass over. -/
theorem aheadOf_cases {rows : List (OwnedLine × Nat)}
    (hbare : ∀ (k : Nat) (row : OwnedLine × Nat), rows[k]? = some row →
      (∀ above ∈ rows.take k, above.1.isPassed = true) → row.1.isBareOpening = false) :
    (∀ row ∈ rows, row.1.isPassed = true) ∧ (aheadOf rows).level? = none ∨
    ∃ k line level, rows[k]? = some (line, level) ∧
      (∀ above ∈ rows.take k, above.1.isPassed = true) ∧ line.isPassed = false ∧
      aheadOf rows = ⟨k + 1, if line.isCode then some level else none⟩ := by
  induction rows with
  | nil => exact .inl ⟨by simp, rfl⟩
  | cons row rows ih =>
      obtain ⟨line, level⟩ := row
      have hcons : aheadOf ((line, level) :: rows) = (aheadOf rows).above line level := rfl
      cases hpassed : line.isPassed with
      | false =>
          have hfirst := hbare 0 (line, level) rfl (by simp)
          refine .inr ⟨0, line, level, rfl, by simp, hpassed, ?_⟩
          rw [hcons, Ahead.above_of_stops hpassed hfirst]
      | true =>
          have hlater : ∀ {k : Nat}, (∀ above ∈ rows.take k, above.1.isPassed = true) →
              ∀ above ∈ ((line, level) :: rows).take (k + 1), above.1.isPassed = true := by
            intro k h above habove
            rcases List.mem_cons.mp habove with rfl | habove
            · exact hpassed
            · exact h above habove
          rw [hcons, Ahead.above_of_isPassed hpassed]
          rcases ih fun k row hrow h => hbare (k + 1) row hrow (hlater h) with
            ⟨hall, hnone⟩ | ⟨k, next, level', hnext, h, hstops, hahead⟩
          · refine .inl ⟨fun row hrow => ?_, hnone⟩
            rcases List.mem_cons.mp hrow with rfl | hrow
            · exact hpassed
            · exact hall row hrow
          · refine .inr ⟨k + 1, next, level', hnext, hlater h, hstops, ?_⟩
            rw [hahead]

end Indentation

/-! ## The levels of a text -/

theorem OwnedLine.level_of_comment {l : OwnedLine} (hbody : l.isBody = true)
    (hcomment : l.isComment = true) {o : Outline} (hstarts : o.continues = none) (head : Nat)
    (levels : LevelStack) : (l.level o head levels).1 = levels.current := by
  obtain ⟨⟨isComment, howner⟩, hfrozen⟩ := of_isBody hbody
  simp [level, isScript, howner, hfrozen, hstarts, hcomment]

namespace Document

variable {limits : Limits} {doc : Document}

/-- The lines of a document with their levels before comments are settled. -/
def firstLevels (limits : Limits) (doc : Document) : List (OwnedLine × Nat) :=
  Indentation.levelsAfter [] 0 [] (doc.outlined limits)

theorem map_fst_firstLevels (limits : Limits) (doc : Document) :
    (doc.firstLevels limits).map (·.1) = doc.lines := by
  rw [firstLevels, Indentation.map_fst_levelsAfter, outlined, outlines_blockStructure,
    List.map_fst_zip (by simp)]

theorem exists_firstLevel (limits : Limits) {i : Nat} {line : OwnedLine}
    (h : doc.lines[i]? = some line) :
    ∃ level, (doc.firstLevels limits)[i]? = some (line, level) := by
  rw [← map_fst_firstLevels limits doc, List.getElem?_map] at h
  obtain ⟨⟨line, level⟩, hrow, rfl⟩ := Option.map_eq_some_iff.mp h
  exact ⟨level, hrow⟩

theorem getElem?_lines_of_firstLevels {i : Nat} {row : OwnedLine × Nat}
    (h : (doc.firstLevels limits)[i]? = some row) : doc.lines[i]? = some row.1 := by
  rw [← map_fst_firstLevels limits doc, List.getElem?_map, h, Option.map_some]

/-- At first a comment has the level of the blocks around it. -/
theorem firstLevel_of_comment (limits : Limits) (hlines : Numbered 0 doc.lines)
    (hshow : ShowMarkers doc.lines) {i : Nat} {line : OwnedLine}
    (hline : doc.lines[i]? = some line) (hbody : line.isBody = true)
    (hcomment : line.isComment = true) :
    (doc.firstLevels limits)[i]? =
      some (line, indent (around (doc.blockStructure limits).blocks i)) := by
  obtain ⟨p, hp, rfl, ho⟩ := getElem?_passages limits hline
  obtain ⟨above, habove⟩ := getElem?_levelsAfter hlines hshow (sound_initial _) 0 hp
  have hcontinues : (p.step limits).outline.continues = none := by
    refine continues_eq_none ho fun j hj => Bool.eq_false_iff.mpr fun hjoins => ?_
    obtain ⟨-, next, -, hnext, -, hcode⟩ := exists_of_joinsAt hjoins
    rw [← hj, hline] at hnext
    obtain rfl := Option.some.inj hnext
    rw [OwnedLine.isCode, hcomment] at hcode
    simp at hcode
  have hindex : p.line.index = i := by simpa using hlines.index_eq hline
  rw [OwnedLine.level_of_comment hbody hcomment hcontinues,
    current_before hlines (List.mem_of_getElem? hp), hindex] at habove
  rw [firstLevels, outlined, outlines_blockStructure]
  exact habove

theorem FirstBelow.unique {i j j' : Nat} {next next' : OwnedLine} (h : doc.FirstBelow i j next)
    (h' : doc.FirstBelow i j' next') : j = j' ∧ next = next' := by
  have hj : j = j' := by
    rcases Nat.lt_trichotomy j j' with hlt | heq | hgt
    · have := h'.looksTo.2 j next h.looksTo.1 hlt h.isLine
      rw [h.stops] at this
      cases this
    · exact heq
    · have := h.looksTo.2 j' next' h'.looksTo.1 hgt h'.isLine
      rw [h'.stops] at this
      cases this
  subst hj
  exact ⟨rfl, Option.some.inj (h.isLine.symm.trans h'.isLine)⟩

/-- Lines that stand between `i` and `i + 1 + k` and are passed over. -/
theorem looksTo_of_passed {i k : Nat}
    (h : ∀ row ∈ ((doc.firstLevels limits).drop (i + 1)).take k, row.1.isPassed = true) :
    doc.LooksTo i (i + 1 + k) := by
  refine ⟨by omega, fun m l hm hmk hl => ?_⟩
  obtain ⟨level, hrow⟩ := exists_firstLevel limits hl
  refine h (l, level) (List.mem_of_getElem? (i := m - (i + 1)) ?_)
  rw [List.getElem?_take_of_lt (by omega), List.getElem?_drop, ← hrow]
  congr 1
  omega

/-- What a comment at line `i` meets: nothing, or the first line that it does not pass over. -/
theorem aheadOf_below (limits : Limits) {i : Nat}
    (hbare : ∀ (j : Nat) (next : OwnedLine), doc.LooksTo i j → doc.lines[j]? = some next →
      next.isBareOpening = false) :
    (∀ j next, ¬doc.FirstBelow i j next) ∧
        (Indentation.aheadOf ((doc.firstLevels limits).drop (i + 1))).level? = none ∨
      ∃ j next level, doc.FirstBelow i j next ∧
        (doc.firstLevels limits)[j]? = some (next, level) ∧
        Indentation.aheadOf ((doc.firstLevels limits).drop (i + 1)) =
          ⟨j - i, if next.isCode then some level else none⟩ := by
  have hrows : ∀ (k : Nat) (row : OwnedLine × Nat),
      ((doc.firstLevels limits).drop (i + 1))[k]? = some row →
      doc.lines[i + 1 + k]? = some row.1 := by
    intro k row hrow
    rw [List.getElem?_drop] at hrow
    exact getElem?_lines_of_firstLevels hrow
  rcases Indentation.aheadOf_cases fun k row hrow h =>
      hbare _ _ (looksTo_of_passed h) (hrows k row hrow) with
    ⟨hall, hnone⟩ | ⟨k, next, level, hnext, h, hstops, hahead⟩
  · refine .inl ⟨fun j next hfirst => ?_, hnone⟩
    obtain ⟨level, hrow⟩ := exists_firstLevel limits hfirst.isLine
    have hlt := hfirst.looksTo.1
    have hmem : (next, level) ∈ (doc.firstLevels limits).drop (i + 1) := by
      refine List.mem_of_getElem? (i := j - (i + 1)) ?_
      rw [List.getElem?_drop, ← hrow]
      congr 1
      omega
    have := hall _ hmem
    rw [hfirst.stops] at this
    cases this
  · refine .inr ⟨i + 1 + k, next, level, ⟨looksTo_of_passed h, hrows k _ hnext, hstops⟩, ?_, ?_⟩
    · rw [← List.getElem?_drop, hnext]
    · rw [hahead]
      congr 1
      omega

section

variable {i : Nat} {line : OwnedLine} (hlines : Numbered 0 doc.lines)
  (hshow : ShowMarkers doc.lines) (hline : doc.lines[i]? = some line) (hbody : line.isBody = true)
  (hcomment : line.isComment = true)
  (hbare : ∀ (j : Nat) (next : OwnedLine), doc.LooksTo i j → doc.lines[j]? = some next →
    next.isBareOpening = false)

include hlines hshow hline hbody hcomment

theorem level_of_comment (limits : Limits) :
    (doc.levels limits)[i]? =
      some (if (Indentation.aheadOf ((doc.firstLevels limits).drop (i + 1))).steps ≤
          limits.maxLoopIterations then
        (Indentation.aheadOf ((doc.firstLevels limits).drop (i + 1))).level?.getD
          (indent (around (doc.blockStructure limits).blocks i))
      else indent (around (doc.blockStructure limits).blocks i)) :=
  Indentation.getElem?_settled_of_comment limits
    (firstLevel_of_comment limits hlines hshow hline hbody hcomment) hbody hcomment

include hbare

/-- A comment above a statement that it reaches has the level of the statement. -/
theorem level_of_firstBelow {j : Nat} {next : OwnedLine} (hbelow : doc.FirstBelow i j next)
    (hsteps : j - i ≤ limits.maxLoopIterations) (hcode : next.isCode = true) :
    ∃ level, (doc.levels limits)[i]? = some level ∧ (doc.levels limits)[j]? = some level := by
  have hlevel := level_of_comment hlines hshow hline hbody hcomment limits
  rcases aheadOf_below limits hbare with ⟨hno, -⟩ | ⟨j', next', level, hbelow', hrow, hahead⟩
  · exact absurd hbelow (hno j next)
  · obtain ⟨rfl, rfl⟩ := hbelow.unique hbelow'
    rw [hahead, if_pos hcode, if_pos hsteps, Option.getD_some] at hlevel
    exact ⟨level, hlevel, getElem?_levels hrow hcode⟩

/-- A comment that reaches no statement has the level of the blocks around it. -/
theorem level_of_no_statement
    (hnone : ∀ (j : Nat) (next : OwnedLine), doc.FirstBelow i j next →
      j - i ≤ limits.maxLoopIterations → next.isCode = false) :
    (doc.levels limits)[i]? = some (indent (around (doc.blockStructure limits).blocks i)) := by
  rw [level_of_comment hlines hshow hline hbody hcomment]
  rcases aheadOf_below limits hbare with ⟨-, hahead⟩ | ⟨j, next, level, hbelow, -, hahead⟩
  · rw [hahead, Option.getD_none, ite_self]
  · rw [hahead]
    by_cases hsteps : j - i ≤ limits.maxLoopIterations
    · rw [hnone j next hbelow hsteps, if_pos hsteps]
      rfl
    · rw [if_neg hsteps]

end

end Document

/-- A comment between markers has the level of the first line below that it does not pass over, if
this is a statement that the search reaches; it is in the same region then. Any other comment has
the level of the blocks around it. And no search meets a bare opening marker. -/
theorem Document.comment_levels (limits : Limits) (text : List Char) (frozenFrom : Nat) :
    let doc := (ofText text).freezeFrom frozenFrom
    ∀ (i : Nat) (line : OwnedLine), doc.lines[i]? = some line → line.isBody = true →
      line.isComment = true →
      (∀ (j : Nat) (next : OwnedLine), doc.FirstBelow i j next →
        j - i ≤ limits.maxLoopIterations → next.isCode = true →
        (∃ r ∈ doc.regions, line.IsInside r ∧ next.IsInside r) ∧
        ∃ level, (doc.levels limits)[i]? = some level ∧ (doc.levels limits)[j]? = some level) ∧
      ((∀ (j : Nat) (next : OwnedLine), doc.FirstBelow i j next →
        j - i ≤ limits.maxLoopIterations → next.isCode = false) →
        (doc.levels limits)[i]? =
          some (indent (around (doc.blockStructure limits).blocks i))) ∧
      ∀ (j : Nat) (next : OwnedLine), doc.LooksTo i j → doc.lines[j]? = some next →
        next.isBareOpening = false := by
  intro doc i line hline hbody hcomment
  have hlines : Numbered 0 doc.lines := numbered_frozen text frozenFrom
  have hshow : ShowMarkers doc.lines := showMarkers_frozen text frozenFrom
  have hbare : ∀ (j : Nat) (next : OwnedLine), doc.LooksTo i j → doc.lines[j]? = some next →
      next.isBareOpening = false :=
    fun j next hlooks hnext => isBareOpening_of_looksTo hline hbody hlooks hnext
  refine ⟨fun j next hbelow hsteps hcode => ⟨?_, ?_⟩, ?_, hbare⟩
  · have hnextBody : next.isBody = true := by
      rw [OwnedLine.isCode, Bool.and_eq_true, Bool.and_eq_true] at hcode
      exact hcode.1.1
    exact exists_region_of_looksTo hline hbody hbelow.looksTo hbelow.isLine hnextBody
  · exact level_of_firstBelow hlines hshow hline hbody hcomment hbare hbelow hsteps hcode
  · exact level_of_no_statement hlines hshow hline hbody hcomment hbare

/-- The theorem at a comment above an `End If`: it is aligned with this if the search may take two
steps, and with the lines above if it may take one. -/
theorem Document.comment_levels_above_end :
    ∃ doc next, doc = (ofText "<%\nif a then\n' b\n\nend if\n%>".toList).freezeFrom 6 ∧
      doc.FirstBelow 2 4 next ∧ next.isCode = true ∧
      (doc.levels { maxLoopIterations := 2 })[2]? = some 0 ∧
      (doc.levels { maxLoopIterations := 1 })[2]? = some 1 := by
  have hline : ((ofText "<%\nif a then\n' b\n\nend if\n%>".toList).freezeFrom 6).lines[2]? =
      some ⟨⟨2, "' b".toList, .lf, 13⟩, .body true, false⟩ := by decide +kernel
  have hfirst : ((ofText "<%\nif a then\n' b\n\nend if\n%>".toList).freezeFrom 6).FirstBelow 2 4
      ⟨⟨4, "end if".toList, .lf, 18⟩, .body false, false⟩ := by
    refine ⟨⟨by decide, fun k l hk hk' hl => ?_⟩, by decide +kernel, by decide +kernel⟩
    obtain rfl : k = 3 := by omega
    have hblank : some l = some ⟨⟨3, [], .lf, 17⟩, .body false, false⟩ :=
      hl.symm.trans (by decide +kernel)
    rw [Option.some.inj hblank]
    decide +kernel
  refine ⟨_, _, rfl, hfirst, by decide +kernel, ?_, ?_⟩
  · obtain ⟨habove, -, -⟩ := comment_levels { maxLoopIterations := 2 } _ 6 2 _ hline rfl rfl
    obtain ⟨-, level, hlevel, hend⟩ := habove 4 _ hfirst (Nat.le_refl 2) (by decide +kernel)
    obtain rfl : 0 = level := Option.some.inj (Eq.trans (by decide +kernel) hend)
    exact hlevel
  · obtain ⟨-, hnone, -⟩ := comment_levels { maxLoopIterations := 1 } _ 6 2 _ hline rfl rfl
    refine (hnone fun j next hbelow hsteps => ?_).trans (by decide +kernel)
    obtain ⟨rfl, -⟩ := hfirst.unique hbelow
    exact absurd hsteps (by decide)

end ClassicAsp
