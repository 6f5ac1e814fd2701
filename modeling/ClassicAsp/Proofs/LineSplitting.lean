import ClassicAsp.Proofs.Ownership

/-! # Splitting into lines

Splitting loses nothing and has one result. The lines of a text, put together, give the text, they
are numbered and placed in order, and any list of contents and endings with the properties of lines
is what splitting gives for its text. -/

namespace ClassicAsp.Line

open Text

/-- The content of a line and its ending. -/
def piece (l : Line) : List Char × Ending := (l.content, l.ending)

/-- The lines are numbered from zero, and each starts at the byte where those before it end. -/
def InPlace (lines : List Line) : Prop :=
  ∀ (i : Nat) (l : Line), lines[i]? = some l →
    l.index = i ∧ l.offset = byteLength (join ((lines.take i).map piece))

/-- What makes contents and endings those of lines: no content holds a line feed, before a line
feed alone there is no carriage return, and only the last line, which is not empty then, has no
ending. -/
structure AreLines (pieces : List (List Char × Ending)) : Prop where
  feed_notMem : ∀ p ∈ pieces, '\n' ∉ p.1
  last_ne_return : ∀ p ∈ pieces, p.2 = .lf → p.1.getLast? ≠ some '\r'
  of_none : ∀ (i : Nat) (p : List Char × Ending), pieces[i]? = some p → p.2 = .none →
    i + 1 = pieces.length ∧ p.1 ≠ []

section

variable {p : List Char × Ending} {pieces : List (List Char × Ending)}

theorem AreLines.tail (h : AreLines (p :: pieces)) : AreLines pieces where
  feed_notMem q hq := h.feed_notMem q (List.mem_cons_of_mem p hq)
  last_ne_return q hq := h.last_ne_return q (List.mem_cons_of_mem p hq)
  of_none i q hq hnone := by
    obtain ⟨hlast, hne⟩ := h.of_none (i + 1) q hq hnone
    exact ⟨Nat.succ.inj hlast, hne⟩

theorem AreLines.canonical (h : AreLines pieces) : Canonical pieces := by
  induction pieces with
  | nil => exact .nil
  | cons p pieces ih =>
      obtain ⟨content, ending⟩ := p
      have hfeed := h.feed_notMem (content, ending) (by simp)
      by_cases hending : ending = .none
      · obtain ⟨hlast, hne⟩ := h.of_none 0 (content, ending) rfl hending
        obtain rfl : pieces = [] := List.length_eq_zero_iff.mp (Nat.succ.inj hlast).symm
        rw [hending]
        exact .last hne hfeed
      · exact .line hending hfeed (h.last_ne_return (content, ending) (by simp)) (ih h.tail)

theorem Canonical.areLines (h : Canonical pieces) : AreLines pieces := by
  induction h with
  | nil => exact ⟨by simp, by simp, by simp⟩
  | @last content hne hfeed =>
      refine ⟨by simpa using hfeed, by simp, ?_⟩
      intro i p hp _
      cases i with
      | zero =>
          obtain rfl := Option.some.inj hp
          exact ⟨rfl, hne⟩
      | succ i => simp at hp
  | @line content ending pieces hending hfeed hcr _ ih =>
      refine ⟨?_, ?_, ?_⟩
      · intro p hp
        rcases List.mem_cons.mp hp with rfl | hp
        · exact hfeed
        · exact ih.feed_notMem p hp
      · intro p hp
        rcases List.mem_cons.mp hp with rfl | hp
        · exact hcr
        · exact ih.last_ne_return p hp
      · intro i p hp hnone
        cases i with
        | zero =>
            obtain rfl := Option.some.inj hp
            exact absurd hnone hending
        | succ i =>
            obtain ⟨hlast, hne⟩ := ih.of_none i p hp hnone
            exact ⟨congrArg (· + 1) hlast, hne⟩

end

theorem map_piece_placeAfter (index offset : Nat) (pieces : List (List Char × Ending)) :
    (placeAfter [] index offset pieces).map piece = pieces :=
  (map_placeAfter Prod.mk index offset pieces).trans (List.map_id _)

/-- A line is placed behind the lines before it. -/
theorem getElem?_placeAfter {index offset i : Nat} {pieces : List (List Char × Ending)} {l : Line}
    (h : (placeAfter [] index offset pieces)[i]? = some l) :
    l.index = index + i ∧ l.offset = offset + byteLength (join (pieces.take i)) := by
  induction pieces generalizing index offset i with
  | nil => simp [placeAfter] at h
  | cons p pieces ih =>
      obtain ⟨content, ending⟩ := p
      rw [placeAfter_cons] at h
      cases i with
      | zero =>
          obtain rfl := Option.some.inj h
          exact ⟨rfl, rfl⟩
      | succ i =>
          obtain ⟨hindex, hoffset⟩ := ih h
          refine ⟨by omega, ?_⟩
          simp only [hoffset, List.take_succ_cons, join_cons, byteLength_append]
          omega

theorem inPlace_placeAfter (pieces : List (List Char × Ending)) :
    InPlace (placeAfter [] 0 0 pieces) := by
  intro i l hl
  obtain ⟨hindex, hoffset⟩ := getElem?_placeAfter hl
  rw [Nat.zero_add] at hindex hoffset
  exact ⟨hindex, by rw [List.map_take, map_piece_placeAfter, hoffset]⟩

/-- The lines of a text give the text, are in place and have the properties of lines; and contents
and endings are given back by splitting their text exactly if they have these properties. -/
theorem split_is_lossless :
    (∀ text, join ((split text).map piece) = text ∧ InPlace (split text) ∧
      AreLines ((split text).map piece)) ∧
    ∀ pieces, AreLines pieces ↔ (split (join pieces)).map piece = pieces := by
  have hpieces : ∀ text, (split text).map piece = pieces text := fun text =>
    map_piece_placeAfter 0 0 (pieces text)
  refine ⟨fun text => ⟨?_, inPlace_placeAfter _, ?_⟩, fun lines => ⟨fun h => ?_, fun h => ?_⟩⟩
  · rw [hpieces, join_pieces]
  · rw [hpieces]
    exact (canonical_pieces text).areLines
  · rw [hpieces, pieces_join h.canonical]
  · rw [← h, hpieces]
    exact (canonical_pieces _).areLines

-- A return before the return of an ending belongs to the content, as does one at the end.
example : (split "a\r\r\n\nb\r".toList).map piece =
    [("a\r".toList, .crlf), ([], .lf), ("b\r".toList, .none)] := by decide

end ClassicAsp.Line
