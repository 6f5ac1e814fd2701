import ClassicAsp.Proofs.InnermostBlocks

/-! # Positions by counting bytes

What stands at a byte is found in the table of the bytes at which lines start and in the list of
regions. The answers are those of the plain text: the line is the number of line feeds before the
byte, and the region is the one that takes the byte. -/

namespace ClassicAsp

open Text Region

/-! ## Line feeds among bytes -/

namespace Text

/-- The bytes of the UTF-8 form. -/
def bytes (cs : List Char) : List UInt8 := (String.ofList cs).toUTF8.data.toList

/-- The byte of a line feed. -/
def feedByte : UInt8 := 0x0A

/-- How many line feeds there are among the bytes before `offset`. -/
def feedsBefore (cs : List Char) (offset : Nat) : Nat :=
  ((bytes cs).take offset).count feedByte

@[simp]
theorem bytes_nil : bytes [] = [] := rfl

theorem bytes_cons (c : Char) (cs : List Char) :
    bytes (c :: cs) = String.utf8EncodeChar c ++ bytes cs := by
  simp only [bytes, String.toUTF8_eq_toByteArray, String.toByteArray_ofList]
  rw [List.utf8Encode_cons, List.utf8Encode_singleton, ByteArray.data_append,
    Array.toList_append, List.toList_data_toByteArray]

theorem bytes_append (front back : List Char) :
    bytes (front ++ back) = bytes front ++ bytes back := by
  induction front with
  | nil => rfl
  | cons c front ih => rw [List.cons_append, bytes_cons, bytes_cons, ih, List.append_assoc]

theorem length_bytes (cs : List Char) : (bytes cs).length = byteLength cs := by
  induction cs with
  | nil => rfl
  | cons c cs ih =>
      rw [bytes_cons, List.length_append, ih, String.length_utf8EncodeChar, byteLength_cons]

/-- No byte of a character but the line feed is that of a line feed: the others are the code of an
ASCII character or are not below 128. -/
theorem feedByte_mem_utf8EncodeChar {c : Char} (h : feedByte ∈ String.utf8EncodeChar c) :
    c = '\n' := by
  have hbyte : ∀ n, feedByte = UInt8.ofNat n → n % 256 = 10 := by
    intro n hn
    have := congrArg UInt8.toNat hn
    simpa [feedByte] using this.symm
  simp only [String.utf8EncodeChar] at h
  split at h
  · have := hbyte _ (List.mem_singleton.mp h)
    have hcode : c.val.toNat = 10 := by omega
    exact Char.ext (UInt32.toNat_inj.mp hcode)
  · -- a leading byte is at least 192 and a byte behind it at least 128
    exfalso
    split at h
    · simp only [List.mem_cons, List.not_mem_nil, or_false] at h
      rcases h with h | h <;> have := hbyte _ h <;> omega
    · split at h
      · simp only [List.mem_cons, List.not_mem_nil, or_false] at h
        rcases h with h | h | h <;> have := hbyte _ h <;> omega
      · simp only [List.mem_cons, List.not_mem_nil, or_false] at h
        rcases h with h | h | h | h <;> have := hbyte _ h <;> omega

theorem feedByte_notMem_bytes {cs : List Char} (h : '\n' ∉ cs) : feedByte ∉ bytes cs := by
  induction cs with
  | nil => simp
  | cons c cs ih =>
      rw [bytes_cons, List.mem_append]
      rintro (hc | hcs)
      · exact h (by simp [feedByte_mem_utf8EncodeChar hc])
      · exact ih (fun hmem => h (List.mem_cons_of_mem _ hmem)) hcs

theorem feedsBefore_of_no_feed {cs : List Char} (h : '\n' ∉ cs) (offset : Nat) :
    feedsBefore cs offset = 0 :=
  List.count_eq_zero.mpr fun hmem => feedByte_notMem_bytes h (List.mem_of_mem_take hmem)

theorem feedsBefore_append_of_le {front : List Char} {offset : Nat}
    (h : offset ≤ byteLength front) (back : List Char) :
    feedsBefore (front ++ back) offset = feedsBefore front offset := by
  rw [← length_bytes] at h
  rw [feedsBefore, bytes_append, List.take_append_of_le_length h, feedsBefore]

theorem feedsBefore_append_add (front back : List Char) (offset : Nat) :
    feedsBefore (front ++ back) (byteLength front + offset) =
      (bytes front).count feedByte + feedsBefore back offset := by
  rw [feedsBefore, bytes_append, ← length_bytes, List.take_length_add_append, List.count_append,
    feedsBefore]

end Text

/-! ## The table of line starts -/

namespace Line

/-- A line that is not the last has its only line feed at its end. -/
theorem exists_body {content : List Char} {ending : Ending} (hending : ending ≠ .none)
    (hfeed : '\n' ∉ content) :
    ∃ body, content ++ ending.text = body ++ ['\n'] ∧ '\n' ∉ body := by
  cases ending with
  | none => exact absurd rfl hending
  | lf => exact ⟨content, rfl, hfeed⟩
  | crlf => exact ⟨content ++ ['\r'], by simp [Ending.text], by simp [hfeed]⟩

theorem count_feedByte_line {body : List Char} (h : '\n' ∉ body) :
    (bytes (body ++ ['\n'])).count feedByte = 1 := by
  rw [bytes_append, List.count_append, List.count_eq_zero.mpr (feedByte_notMem_bytes h)]
  rfl

theorem takeWhile_offset_eq_nil {lines : List (List Char × Ending)} {index base n : Nat}
    (h : n < base) :
    ((placeAfter [] index base lines).map (·.offset)).takeWhile (· ≤ n) = [] := by
  rw [List.takeWhile_eq_nil_iff]
  intro hpos
  obtain ⟨l, hl, hoffset⟩ := List.mem_map.mp (List.get_mem _ ⟨0, hpos⟩)
  have := le_offset_placeAfter hl
  rw [← hoffset, decide_eq_true_eq]
  omega

/-- The lines that start up to a byte are as many as the line feeds before it, and the first one. -/
theorem length_takeWhile_offset {lines : List (List Char × Ending)} (h : Canonical lines)
    (index base : Nat) {n : Nat} (hn : n < byteLength (join lines)) :
    (((placeAfter [] index base lines).map (·.offset)).takeWhile (· ≤ base + n)).length =
      feedsBefore (join lines) n + 1 := by
  induction h generalizing index base n with
  | nil => simp at hn
  | @last content hne hfeed =>
      have hjoin : join [(content, .none)] = content := by simp [Ending.text]
      rw [hjoin, feedsBefore_of_no_feed hfeed, placeAfter_cons]
      simp [placeAfter]
  | @line content ending lines hending hfeed _ _ ih =>
      obtain ⟨body, hbody, hbodyFeed⟩ := exists_body hending hfeed
      have hjoin : join ((content, ending) :: lines) = (body ++ ['\n']) ++ join lines := by
        rw [join_cons, ← hbody]
      have hlength : byteLength content + byteLength ending.text = byteLength (body ++ ['\n']) := by
        rw [← byteLength_append, hbody]
      rw [hjoin] at hn ⊢
      rw [placeAfter_cons, List.map_cons, List.takeWhile_cons_of_pos (by simp), List.length_cons,
        Nat.add_assoc base, hlength]
      congr 1
      by_cases hin : n < byteLength (body ++ ['\n'])
      · -- the line below starts behind the byte, and the line feed is not before it
        have hle : n ≤ byteLength body := by
          rw [byteLength_append] at hin
          exact Nat.le_of_lt_succ hin
        rw [takeWhile_offset_eq_nil (Nat.add_lt_add_left hin base),
          feedsBefore_append_of_le (Nat.le_of_lt hin), feedsBefore_append_of_le hle,
          feedsBefore_of_no_feed hbodyFeed, List.length_nil]
      · obtain ⟨m, rfl⟩ := Nat.exists_eq_add_of_le (Nat.le_of_not_lt hin)
        have hm : m < byteLength (join lines) := by
          rw [byteLength_append (body ++ ['\n'])] at hn
          omega
        rw [← Nat.add_assoc base, ih (index + 1) _ hm, feedsBefore_append_add,
          count_feedByte_line hbodyFeed, Nat.add_comm]

theorem offset_lt_byteLength {text : List Char} {l : Line} (hl : l ∈ split text) :
    l.offset < byteLength text := by
  obtain ⟨before, after, h⟩ := exists_between hl
  have hoffset : l.offset < l.probeStop := Nat.le_max_right _ _
  exact Nat.lt_of_lt_of_le hoffset (Nat.le_trans h.probeStop_le_finish h.finish_le)

/-- The lines start one behind the other. -/
theorem pairwise_offset {lines : List (List Char × Ending)} (h : Canonical lines)
    (index base : Nat) : ((placeAfter [] index base lines).map (·.offset)).Pairwise (· < ·) := by
  induction h generalizing index base with
  | nil => exact .nil
  | last => rw [placeAfter_cons]; exact List.pairwise_singleton _ _
  | @line content ending lines hending _ _ _ ih =>
      have hpos : 0 < byteLength ending.text := by
        cases ending with
        | none => exact absurd rfl hending
        | lf => decide
        | crlf => decide
      rw [placeAfter_cons, List.map_cons, List.pairwise_cons]
      refine ⟨fun offset hoffset => ?_, ih _ _⟩
      obtain ⟨l, hl, rfl⟩ := List.mem_map.mp hoffset
      have hle := le_offset_placeAfter hl
      change base < l.offset
      omega

theorem split_eq_nil_iff (text : List Char) : split text = [] ↔ text = [] := by
  constructor
  · intro h
    rw [← join_pieces text]
    cases hpieces : pieces text with
    | nil => rfl
    | cons piece rest =>
        obtain ⟨content, ending⟩ := piece
        rw [split, hpieces, placeAfter_cons] at h
        cases h
  · rintro rfl
    rfl

end Line

/-! ## Queries by byte -/

namespace Analysis

variable {limits : Limits} {text : List Char}

theorem limited_offsets (limits : Limits) (text : List Char) :
    ((Document.ofText text).limited limits).lines.map (·.offset) =
      (Line.split text).map (·.offset) := by
  rw [Document.map_limited (fun _ => rfl), Document.lines_eq_map, List.map_map]
  rfl

theorem lineOffsets_ofText (h : byteLength text ≤ limits.maxTextLength) :
    (ofText limits text).lineOffsets = (Line.split text).map (·.offset) := by
  rw [← limited_offsets limits, ofText, Limits.exceeds_textLength h, if_neg Bool.false_ne_true]
  rfl

theorem regions_ofText (h : byteLength text ≤ limits.maxTextLength) :
    (ofText limits text).regions = detect text := by
  rw [ofText, Limits.exceeds_textLength h, if_neg Bool.false_ne_true]
  simp only [Layout.ofText]
  split <;> rfl

theorem textLength_ofText (h : byteLength text ≤ limits.maxTextLength) :
    (ofText limits text).textLength = byteLength text := by
  rw [ofText, Limits.exceeds_textLength h, if_neg Bool.false_ne_true]

theorem exists_hierarchy (h : byteLength text ≤ limits.maxTextLength) {line : Nat}
    (hline : line < (Line.split text).length) :
    ∃ place, (ofText limits text).hierarchyAt? line = some place := by
  have hlength := congrArg List.length (limited_offsets limits text)
  rw [List.length_map, List.length_map] at hlength
  obtain ⟨place, hplace, -⟩ := getElem?_lines h (hlength ▸ hline)
  exact ⟨place, hplace⟩

/-- The number of lines that start up to a byte. -/
def linesUpTo (text : List Char) (offset : Nat) : Nat :=
  (((Line.split text).map (·.offset)).takeWhile (· ≤ offset)).length

theorem linesUpTo_of_lt {offset : Nat} (h : offset < byteLength text) :
    linesUpTo text offset = feedsBefore text offset + 1 := by
  have hjoin := Line.join_pieces text
  have hlength := Line.length_takeWhile_offset (Line.canonical_pieces text) 0 0 (hjoin.symm ▸ h)
  rwa [Nat.zero_add, hjoin] at hlength

theorem linesUpTo_byteLength (text : List Char) :
    linesUpTo text (byteLength text) = (Line.split text).length := by
  have hall : ((Line.split text).map (·.offset)).takeWhile (· ≤ byteLength text) =
      (Line.split text).map (·.offset) := by
    refine List.takeWhile_eq_self_iff.mpr fun offset hoffset => ?_
    obtain ⟨l, hl, rfl⟩ := List.mem_map.mp hoffset
    exact decide_eq_true (Nat.le_of_lt (Line.offset_lt_byteLength hl))
  rw [linesUpTo, hall, List.length_map]

theorem linesUpTo_le (text : List Char) (offset : Nat) :
    linesUpTo text offset ≤ (Line.split text).length := by
  have hle : linesUpTo text offset ≤ ((Line.split text).map (·.offset)).length :=
    (List.takeWhile_sublist _).length_le
  rwa [List.length_map] at hle

/-- Up to every byte of a text that is not empty starts a line. -/
theorem exists_linesUpTo (hne : text ≠ []) {offset : Nat} (h : offset ≤ byteLength text) :
    ∃ line, linesUpTo text offset = line + 1 := by
  rcases Nat.lt_or_eq_of_le h with hlt | rfl
  · exact ⟨_, linesUpTo_of_lt hlt⟩
  · rw [linesUpTo_byteLength]
    refine Nat.exists_eq_succ_of_ne_zero fun hzero => hne ?_
    exact (Line.split_eq_nil_iff text).mp (List.eq_nil_of_length_eq_zero hzero)

/-- What is found at a byte up to the end of a text that is not empty. -/
theorem positionAt?_eq_some (h : byteLength text ≤ limits.maxTextLength) {offset line : Nat}
    (hoffset : offset ≤ byteLength text) (hline : linesUpTo text offset = line + 1) :
    ∃ place, (ofText limits text).hierarchyAt? line = some place ∧
      (ofText limits text).positionAt? offset =
        some ⟨line, at? (detect text) offset, place⟩ := by
  obtain ⟨place, hplace⟩ := exists_hierarchy h
    (Nat.lt_of_succ_le (hline ▸ linesUpTo_le text offset))
  refine ⟨place, hplace, ?_⟩
  rw [linesUpTo, ← lineOffsets_ofText h] at hline
  rw [positionAt?, textLength_ofText h, if_neg (Nat.not_lt.mpr hoffset), hline, regions_ofText h]
  simp only [hplace, Option.map_some]

theorem positionAt?_eq_none_iff (h : byteLength text ≤ limits.maxTextLength) (offset : Nat) :
    (ofText limits text).positionAt? offset = none ↔ text = [] ∨ byteLength text < offset := by
  constructor
  · intro hnone
    by_contra hsome
    obtain ⟨hne, hle⟩ := not_or.mp hsome
    obtain ⟨line, hline⟩ := exists_linesUpTo hne (Nat.le_of_not_lt hle)
    obtain ⟨place, -, hposition⟩ := positionAt?_eq_some h (Nat.le_of_not_lt hle) hline
    rw [hnone] at hposition
    cases hposition
  · rintro (rfl | hlt)
    · rw [positionAt?, lineOffsets_ofText h]
      split <;> rfl
    · rw [positionAt?, textLength_ofText h, if_pos hlt]

theorem at?_detect_byteLength (text : List Char) :
    at? (detect text) (byteLength text) = none := by
  refine Option.eq_none_iff_forall_ne_some.mpr fun r hr => ?_
  obtain ⟨hmem, hin⟩ := (at?_eq_some_iff (ordered_detect text)).mp hr
  have hle := ((searched_detect text).placed r hmem).stop_isCut.le_byteLength
  simp only [contains, Bool.and_eq_true, decide_eq_true_eq] at hin
  omega

end Analysis

/-- Queries by byte agree with the plain text. There is an answer up to the end of a text that is
not empty. The line of a byte is the number of line feeds before it, its region is the one that
takes it, and behind the last byte are the last line and no region. The table of line starts is
increasing, so that a search by halves finds the same line. -/
theorem Analysis.position_agrees_with_text (limits : Limits) (text : List Char)
    (h : byteLength text ≤ limits.maxTextLength) (offset : Nat) :
    (ofText limits text).lineOffsets.Pairwise (· < ·) ∧
      ((ofText limits text).positionAt? offset = none ↔
        text = [] ∨ byteLength text < offset) ∧
      ∀ p, (ofText limits text).positionAt? offset = some p →
        (ofText limits text).hierarchyAt? p.line = some p.hierarchy ∧
        (offset < byteLength text →
          p.line = feedsBefore text offset ∧
          p.inScript = (RegionMap.ofText text).isInScript offset ∧
          ∀ r, p.region = some r ↔ r ∈ detect text ∧ r.contains offset = true) ∧
        (offset = byteLength text →
          p.line + 1 = (Line.split text).length ∧ p.inScript = false) := by
  refine ⟨?_, positionAt?_eq_none_iff h offset, fun p hp => ?_⟩
  · rw [lineOffsets_ofText h]
    exact Line.pairwise_offset (Line.canonical_pieces text) 0 0
  · have hsome := (not_congr (positionAt?_eq_none_iff h offset)).mp (by rw [hp]; simp)
    obtain ⟨hne, hle⟩ := not_or.mp hsome
    obtain ⟨line, hline⟩ := exists_linesUpTo hne (Nat.le_of_not_lt hle)
    obtain ⟨place, hplace, hposition⟩ := positionAt?_eq_some h (Nat.le_of_not_lt hle) hline
    obtain rfl := Option.some.inj (hposition.symm.trans hp)
    refine ⟨hplace, fun hlt => ⟨?_, ?_, fun r => at?_eq_some_iff (ordered_detect text)⟩, ?_⟩
    · exact Nat.succ_inj.mp (hline.symm.trans (linesUpTo_of_lt hlt))
    · simp [Position.inScript, RegionMap.isInScript, RegionMap.ofText, hlt]
    · rintro rfl
      rw [← hline, linesUpTo_byteLength, Position.inScript, at?_detect_byteLength]
      exact ⟨rfl, rfl⟩

/-- The theorem at a text with a character of two bytes and a region that nothing closes: between
return and feed, at the first byte behind a region, in the open region, and at the end. -/
theorem Analysis.position_agrees_with_text_open :
    let text := "é\r\n<%a%>b\n<%".toList
    let analysis := ofText { maxLines := 2 } text
    byteLength text ≤ ({} : Limits).maxTextLength ∧ byteLength text = 13 ∧
      (∃ p, analysis.positionAt? 3 = some p ∧ p.line = 0 ∧ p.inScript = false) ∧
      (∃ p, analysis.positionAt? 9 = some p ∧ p.line = 1 ∧ p.region = none) ∧
      (∃ p, analysis.positionAt? 11 = some p ∧ p.line = 2 ∧ p.region = some ⟨11, 13, false⟩) ∧
      (∃ p, analysis.positionAt? 13 = some p ∧ p.line + 1 = 3 ∧ p.inScript = false) ∧
      analysis.positionAt? 14 = none := by
  intro text analysis
  have hlength : byteLength text ≤ ({} : Limits).maxTextLength := by decide +kernel
  have hbytes : byteLength text = 13 := by decide +kernel
  have hne : text ≠ [] := by decide +kernel
  have hagrees := position_agrees_with_text { maxLines := 2 } text hlength
  have hfound : ∀ offset ≤ 13, ∃ p, analysis.positionAt? offset = some p := by
    intro offset hoffset
    refine Option.ne_none_iff_exists'.mp fun hnone => ?_
    rcases (hagrees offset).2.1.mp hnone with hnil | hlt
    · exact hne hnil
    · omega
  obtain ⟨p, hp⟩ := hfound 3 (by decide)
  obtain ⟨q, hq⟩ := hfound 9 (by decide)
  obtain ⟨r, hr⟩ := hfound 11 (by decide)
  obtain ⟨s, hs⟩ := hfound 13 (by decide)
  obtain ⟨hpline, hpscript, -⟩ := ((hagrees 3).2.2 p hp).2.1 (by omega)
  obtain ⟨hqline, -, hqregion⟩ := ((hagrees 9).2.2 q hq).2.1 (by omega)
  obtain ⟨hrline, -, hrregion⟩ := ((hagrees 11).2.2 r hr).2.1 (by omega)
  obtain ⟨hsline, hsscript⟩ := ((hagrees 13).2.2 s hs).2.2 (by omega)
  refine ⟨hlength, hbytes, ⟨p, hp, hpline.trans ?_, hpscript.trans ?_⟩,
    ⟨q, hq, hqline.trans ?_, ?_⟩, ⟨r, hr, hrline.trans ?_, ?_⟩, ⟨s, hs, hsline, hsscript⟩, ?_⟩
  · decide +kernel
  · decide +kernel
  · decide +kernel
  · refine Option.eq_none_iff_forall_ne_some.mpr fun region hregion => ?_
    obtain ⟨hmem, hin⟩ := (hqregion region).mp hregion
    have hout : ∀ r ∈ detect text, r.contains 9 = false := by decide +kernel
    rw [hout region hmem] at hin
    cases hin
  · decide +kernel
  · exact (hrregion _).mpr (by decide +kernel)
  · exact (hagrees 14).2.1.mpr (.inr (by omega))

end ClassicAsp
