import ClassicAsp.Proofs.Placeholders

/-! # The numbers of literals

After recasing the placeholder of a literal holds its number or what the table spells for that.
Restoring puts in the literal that is named there, so that the literals of a line come out in
their places exactly if the numbers so spelled name the same literals. -/

namespace ClassicAsp

open Text

/-! ## Restored code -/

namespace Text

/-- A text without its blanks. -/
def dropBlanks (cs : List Char) : List Char := cs.filter (!isBlank ·)

theorem dropBlanks_of_isDigit {cs : List Char} (h : ∀ c ∈ cs, c.isDigit = true) :
    dropBlanks cs = cs := by
  refine List.filter_eq_self.mpr fun c hc => ?_
  simp [(isCaseless_of_digit (.inl (h c hc))).2]

theorem eq_of_map_lowercase {a b : List Char}
    (h : a.map (fun c => lowercase [c]) = b.map fun c => lowercase [c])
    (hb : ∀ c ∈ b, isCaseless c = true) : a = b := by
  induction b generalizing a with
  | nil => simpa using h
  | cons d b ih =>
      cases a with
      | nil => cases h
      | cons c a =>
          rw [List.map_cons, List.map_cons, List.cons.injEq] at h
          rw [eq_of_lowercase_eq (hb d (by simp)) h.1, ih h.2 fun e he => hb e (by simp [he])]

/-- A text that looks like one of digits and signs is that one with blanks in it. -/
theorem dropBlanks_eq {a b : List Char} (h : visible a = visible b)
    (hb : ∀ c ∈ b, isCaseless c = true ∧ isBlank c = false) : dropBlanks a = b := by
  have hplain : b.filter (!isBlank ·) = b :=
    List.filter_eq_self.mpr fun c hc => by simp [(hb c hc).2]
  refine eq_of_map_lowercase ?_ fun c hc => (hb c hc).1
  conv_rhs => rw [← hplain]
  exact h

end Text

namespace Masked

/-- A placeholder with some text in it. -/
def enclose (index : List Char) : List Char := opening :: index ++ [closing]

namespace Woven

variable {indices : List (List Char)} {c : List Char}

theorem eq_nil_of_visible (h : Woven indices c) (hc : visible c = []) : indices = [] := by
  induction h with
  | nil => rfl
  | @char d indices b hd _ ih =>
      cases hblank : isBlank d with
      | true =>
          rw [visible_cons_of_isBlank hblank] at hc
          exact ih hc
      | false =>
          rw [visible_cons_of_not hblank] at hc
          cases hc
  | holder =>
      rw [visible_opening_cons] at hc
      cases hc

/-- Code from the second visible character on, if the first one opens no placeholder. -/
theorem exists_tail (h : Woven indices c) {d : Char} {shown : List (List Char)}
    (hd : d ≠ opening) (hc : visible c = lowercase [d] :: shown) :
    ∃ c', Woven indices c' ∧ visible c' = shown := by
  induction h with
  | nil => cases hc
  | @char e indices b he hb ih =>
      cases hblank : isBlank e with
      | true =>
          rw [visible_cons_of_isBlank hblank] at hc
          exact ih hc
      | false =>
          rw [visible_cons_of_not hblank] at hc
          exact ⟨b, hb, (List.cons.inj hc).2⟩
  | holder =>
      rw [visible_opening_cons, ← lowercase_of_isCaseless isCaseless_opening] at hc
      exact absurd (eq_of_lowercase_eq isCaseless_opening (List.cons.inj hc).1.symm) hd

/-- Code whose first visible character opens a placeholder. -/
theorem exists_holder (h : Woven indices c) {shown : List (List Char)}
    (hc : visible c = [opening] :: shown) :
    ∃ index rest c', indices = index :: rest ∧ Woven rest c' ∧ closing ∉ index ∧
      shown = visible index ++ [closing] :: visible c' := by
  induction h with
  | nil => cases hc
  | @char e indices b he hb ih =>
      cases hblank : isBlank e with
      | true =>
          rw [visible_cons_of_isBlank hblank] at hc
          exact ih hc
      | false =>
          rw [visible_cons_of_not hblank, ← lowercase_of_isCaseless isCaseless_opening] at hc
          exact absurd (eq_of_lowercase_eq isCaseless_opening (List.cons.inj hc).1) he.1
  | @holder index indices b hindex hb =>
      rw [visible_opening_cons, visible_append, visible_closing_cons] at hc
      exact ⟨index, indices, b, rfl, hb, hindex, (List.cons.inj hc).2.symm⟩

end Woven

/-- Restored code is the gaps of the code around the literals that its placeholders name. These
are, but for blanks, those of any code that looks the same. -/
theorem Restores.weave_places {m : Masked} {b r : List Char} (h : Restores m b r)
    {indices : List (List Char)} {c : List Char} (hwoven : Woven indices c)
    (hlook : visible b = visible c) :
    ∃ gaps places, gaps.length = indices.length + 1 ∧ (∀ gap ∈ gaps, Unreserved gap) ∧
      b = weave gaps ((indices.map dropBlanks).map enclose) ∧ r = weave gaps places ∧
      (indices.map dropBlanks).map m.literal? = places.map some := by
  induction h generalizing indices c with
  | nil =>
      obtain rfl := hwoven.eq_nil_of_visible hlook.symm
      exact ⟨[[]], [], rfl, by simp [Unreserved], rfl, rfl, rfl⟩
  | @char d b r ho hcl _ ih =>
      have hnext : ∃ c', Woven indices c' ∧ visible b = visible c' := by
        cases hblank : isBlank d with
        | true => exact ⟨c, hwoven, by rwa [visible_cons_of_isBlank hblank] at hlook⟩
        | false =>
            rw [visible_cons_of_not hblank] at hlook
            obtain ⟨c', hc', hshown⟩ := hwoven.exists_tail ho hlook.symm
            exact ⟨c', hc', hshown.symm⟩
      obtain ⟨c', hc', hlook'⟩ := hnext
      obtain ⟨gaps, places, hlength, hfree, rfl, rfl, hplaces⟩ := ih hc' hlook'
      cases gaps with
      | nil => cases hlength
      | cons gap gaps =>
          refine ⟨(d :: gap) :: gaps, places, hlength, ?_, (weave_cons_left ..).symm,
            (weave_cons_left ..).symm, hplaces⟩
          intro g hg
          rcases List.mem_cons.mp hg with rfl | hg
          · exact unreserved_append (a := [d]).mpr
              ⟨unreserved_iff.mpr (by simpa using ⟨ho, hcl⟩), hfree gap (by simp)⟩
          · exact hfree g (by simp [hg])
  | @literal index t b r hindex ht _ ih =>
      rw [visible_opening_cons, visible_append, visible_closing_cons] at hlook
      obtain ⟨spelt, rest, c', rfl, hc', hspelt, hshown⟩ := hwoven.exists_holder hlook.symm
      obtain ⟨hnumber, hlook'⟩ := eq_of_append_closing (closing_notMem_visible hindex)
        (closing_notMem_visible hspelt) hshown
      obtain ⟨n, hread, -⟩ := Option.bind_eq_some_iff.mp ht
      have hspelling : dropBlanks spelt = index :=
        dropBlanks_eq hnumber.symm fun d hd => isCaseless_of_digit (readWord?_chars hread d hd)
      obtain ⟨gaps, places, hlength, hfree, rfl, rfl, hplaces⟩ := ih hc' hlook'
      refine ⟨[] :: gaps, t :: places, by simp [hlength], ?_, ?_, rfl, ?_⟩
      · intro g hg
        rcases List.mem_cons.mp hg with rfl | hg
        · simp [Unreserved]
        · exact hfree g hg
      · simp [hspelling, enclose]
      · rw [List.map_cons, List.map_cons, List.map_cons, hspelling, ht, hplaces]

end Masked

/-! ## Normalized lines -/

namespace Text

/-- Gaps, the last one without the blanks at its end. -/
def trimLast : List (List Char) → List (List Char)
  | [] => []
  | [gap] => [trimEnd gap]
  | gap :: gaps => gap :: trimLast gaps

theorem length_trimLast (gaps : List (List Char)) : (trimLast gaps).length = gaps.length := by
  fun_induction trimLast gaps <;> simp_all

theorem mem_of_mem_trimLast {gaps : List (List Char)} {gap : List Char}
    (h : gap ∈ trimLast gaps) : ∃ g ∈ gaps, ∀ c ∈ gap, c ∈ g := by
  fun_induction trimLast gaps with
  | case1 => cases h
  | case2 g =>
      obtain rfl := List.mem_singleton.mp h
      obtain ⟨back, -, hback⟩ := exists_trimEnd g
      refine ⟨g, by simp, fun c hc => ?_⟩
      rw [hback]
      exact List.mem_append_left _ hc
  | case3 g gaps _ ih =>
      rcases List.mem_cons.mp h with rfl | h
      · exact ⟨gap, by simp, fun _ hc => hc⟩
      · obtain ⟨g', hg', hall⟩ := ih h
        exact ⟨g', by simp [hg'], hall⟩

theorem trimEnd_append_of_endsVisible {a : List Char} (ha : a ≠ [] ∧ EndsVisible a)
    (b : List Char) : trimEnd (a ++ b) = a ++ trimEnd b := by
  obtain ⟨back, hback, hb⟩ := exists_trimEnd b
  conv_lhs => rw [hb, ← List.append_assoc]
  rw [trimEnd_append_of_allBlank hback]
  refine trimEnd_eq_self ?_
  by_cases hnil : trimEnd b = []
  · rw [hnil, List.append_nil]
    exact ha.2
  · exact endsVisible_append (fun c hc => isBlank_getLast_trimEnd hc) hnil

theorem trimEnd_weave {gaps texts : List (List Char)} (hlength : gaps.length = texts.length + 1)
    (htexts : ∀ t ∈ texts, t ≠ [] ∧ EndsVisible t) :
    trimEnd (weave gaps texts) = weave (trimLast gaps) texts := by
  induction texts generalizing gaps with
  | nil =>
      obtain ⟨gap, rfl⟩ := List.length_eq_one_iff.mp hlength
      rfl
  | cons t texts ih =>
      cases gaps with
      | nil => cases hlength
      | cons gap gaps =>
          have htail : gaps.length = texts.length + 1 := by simpa using hlength
          obtain ⟨ht, hlast⟩ := htexts t (by simp)
          have hfront : gap ++ t ≠ [] ∧ EndsVisible (gap ++ t) :=
            ⟨by simp [ht], endsVisible_append hlast ht⟩
          have htrim : trimLast (gap :: gaps) = gap :: trimLast gaps := by
            cases gaps with
            | nil => cases htail
            | cons => rfl
          rw [htrim, weave_cons_cons, weave_cons_cons, ← List.append_assoc,
            trimEnd_append_of_endsVisible hfront, List.append_assoc,
            ih htail fun u hu => htexts u (by simp [hu])]

end Text

namespace Normalization

variable {n : Normalization} {table : CaseTable}

/-- The text in the placeholder of a literal after normalization, blanks aside: its number, or
what the table spells for that. -/
def numeral (n : Normalization) (table : CaseTable) (k : Nat) : List Char :=
  if n.imposeCase then dropBlanks ((table.canonical? (decimal k)).getD (decimal k)) else decimal k

/-- Normalized code, with gaps of code around placeholders, and a normalized line, with the same
gaps around the literals that the placeholders name. -/
structure Places (n : Normalization) (table : CaseTable) (m : Masked) (out : List Char)
    (gaps places : List (List Char)) : Prop where
  length_gaps : gaps.length = m.literals.size + 1
  unreserved : ∀ gap ∈ gaps, Masked.Unreserved gap
  code_eq : trimEnd (n.code table (trim m.code)) = trimEnd (weave gaps
    ((List.range m.literals.size).map fun k => Masked.enclose (n.numeral table k)))
  out_eq : out = withComment (weave gaps places) m.comment
  length_places : places.length = m.literals.size
  place_eq : ∀ k < m.literals.size, places[k]? = m.literal? (n.numeral table k)

/-- What normalized code looks like: code with the numbers as the table spells them. -/
theorem exists_woven (hcompiled : table.Compiled) (hfree : table.Unreserved)
    {numbers : List Nat} {code : List Char} (h : Masked.Woven (numbers.map decimal) code) :
    ∃ indices c, Masked.Woven indices c ∧ visible (n.code table code) = visible c ∧
      indices.map dropBlanks = numbers.map (n.numeral table) := by
  have hnumerals : ∀ index ∈ numbers.map decimal, IsNumeral index := by
    intro index hindex
    obtain ⟨k, -, rfl⟩ := List.mem_map.mp hindex
    exact isNumeral_decimal k
  have hspaced : ∀ c, visible (if n.imposeWhitespace then Spacing.operators table c else c) =
      visible c := by
    intro c
    split
    · exact (Spacing.operators_restyled table c).visible_eq
    · rfl
  rw [Normalization.code, hspaced]
  cases hcase : n.imposeCase with
  | true =>
      refine ⟨_, _, Recasing.woven_keywordsAfter hcompiled hfree
        (Recasing.woven_membersAfter hcompiled hfree h hnumerals []) hnumerals [], rfl, ?_⟩
      simp [numeral, hcase, Function.comp_def]
  | false =>
      refine ⟨_, _, h, rfl, ?_⟩
      simp [numeral, hcase, Function.comp_def,
        dropBlanks_of_isDigit fun c => isDigit_of_mem_decimal]

theorem woven_trim_code {m : Masked} {line : List Char} {ps tail : List Piece}
    (h : m.Stands line ps tail) :
    Masked.Woven ((List.range m.literals.size).map decimal) (trim m.code) := by
  have hfree : Masked.Unreserved (Piece.join ps) :=
    ⟨fun hc => h.unreserved.1 (h.mem_line hc), fun hc => h.unreserved.2 (h.mem_line hc)⟩
  have hwoven := Masked.Woven.of_row h.row hfree 0
  rw [← h.code_eq, ← h.size_eq, ← List.range_eq_range'] at hwoven
  obtain ⟨back, hback, hcode⟩ := exists_trim m.code
  rw [hcode] at hwoven
  exact (hwoven.drop (Masked.unreserved_of_allBlank (allBlank_takeWhile _))).dropEnd
    (Masked.unreserved_of_allBlank hback)

theorem endsVisible_enclose (index : List Char) :
    Masked.enclose index ≠ [] ∧ EndsVisible (Masked.enclose index) := by
  refine ⟨by simp [Masked.enclose], endsVisible_append ?_ (by simp)⟩
  intro c hc
  obtain rfl : Masked.closing = c := by simpa using hc
  decide

/-- Trimming a line without a comment takes blanks from the last gap only. -/
theorem Places.of_trimEnd {m : Masked} {r : List Char} {gaps places : List (List Char)}
    (h : n.Places table m (withComment r m.comment) gaps places) (hr : r = weave gaps places)
    (hcomment : ∀ t, m.comment = some t → t ≠ [] ∧ Trimmed t)
    (hplaces : ∀ t ∈ places, t ≠ [] ∧ EndsVisible t) :
    ∃ gaps, n.Places table m (trimEnd (withComment r m.comment)) gaps places := by
  cases hsome : m.comment with
  | some comment =>
      rw [trimEnd_withComment_some r (hcomment comment hsome), ← hsome]
      exact ⟨gaps, h⟩
  | none =>
      have hlength : gaps.length = places.length + 1 := by rw [h.length_gaps, h.length_places]
      refine ⟨trimLast gaps, ?_, ?_, ?_, ?_, h.length_places, h.place_eq⟩
      · rw [length_trimLast, h.length_gaps]
      · intro gap hgap
        obtain ⟨g, hg, hall⟩ := mem_of_mem_trimLast hgap
        have hfree := h.unreserved g hg
        exact ⟨fun hc => hfree.1 (hall _ hc), fun hc => hfree.2 (hall _ hc)⟩
      · rw [h.code_eq, ← trimEnd_weave (by simp [h.length_gaps]) (by simp [endsVisible_enclose]),
          trimEnd_eq_self fun c hc => isBlank_getLast_trimEnd hc]
      · rw [hsome, withComment, withComment, hr, trimEnd_weave hlength hplaces]

theorem exists_places (hcompiled : table.Compiled) (hfree : table.Unreserved) {limits : Limits}
    {text out : List Char} (h : n.line table limits text = .ok out) :
    ∃ m gaps places, Masked.ofLine (trim text) = .ok m ∧ n.Places table m out gaps places := by
  obtain ⟨m, r, hm, hrestore, rfl⟩ := line_eq_ok h
  obtain ⟨ps, tail, hstands⟩ := Masked.exists_stands hm
  have hvisibly : EndsVisible (trim text) := (trimmed_trim text).last
  obtain ⟨indices, c, hwoven, hlook, hindices⟩ :=
    exists_woven (n := n) hcompiled hfree (woven_trim_code hstands)
  obtain ⟨gaps, places, hlength, hgaps, hcode, hr, hnamed⟩ :=
    (Masked.restore_ok hrestore).weave_places hwoven hlook
  have hsize : indices.length = m.literals.size := by
    simpa using congrArg List.length hindices
  rw [hindices] at hcode hnamed
  have hlast : ∀ t ∈ places, t ≠ [] ∧ EndsVisible t := by
    intro t ht
    have hmem : some t ∈ places.map some := List.mem_map_of_mem ht
    rw [← hnamed] at hmem
    obtain ⟨index, -, hk⟩ := List.mem_map.mp hmem
    obtain ⟨j, -, hj⟩ := Option.bind_eq_some_iff.mp hk
    exact (hstands.literal_trimmed hvisibly t (Array.mem_of_getElem? hj)).imp_right (·.last)
  have hfull : n.Places table m (withComment r m.comment) gaps places := by
    refine ⟨by rw [hlength, hsize], hgaps, ?_, by rw [hr], ?_, ?_⟩
    · rw [hcode, List.map_map]
      rfl
    · simpa using (congrArg List.length hnamed).symm
    · intro k hk
      have hplace := congrArg (·[k]?) hnamed
      simp only [List.getElem?_map, List.getElem?_range hk, Option.map_some] at hplace
      cases hget : places[k]? with
      | none =>
          rw [hget] at hplace
          cases hplace
      | some t =>
          rw [hget] at hplace
          exact (Option.some.inj hplace).symm
  obtain ⟨gaps', hgaps'⟩ :=
    hfull.of_trimEnd hr (hstands.comment_trimmed hvisibly) hlast
  exact ⟨m, gaps', places, hm, hgaps'⟩

/-- The literals of a line come out in the places of their placeholders, each as the literal that
the table's spelling of its number names. So they are kept exactly if these spellings name equal
literals, as they do if the table spells no number of a literal otherwise. -/
theorem line_keeps_literals_iff (hcompiled : table.Compiled) (hfree : table.Unreserved)
    {limits : Limits} {text out : List Char} (h : n.line table limits text = .ok out) :
    ∃ m gaps places, Masked.ofLine (trim text) = .ok m ∧ n.Places table m out gaps places ∧
      (places = m.literals.toList ↔
        ∀ k < m.literals.size, m.literal? (n.numeral table k) = m.literals[k]?) ∧
      ((∀ k < m.literals.size, n.numeral table k = decimal k) → places = m.literals.toList) := by
  obtain ⟨m, gaps, places, hm, hplaces⟩ := exists_places hcompiled hfree h
  have hiff : places = m.literals.toList ↔
      ∀ k < m.literals.size, m.literal? (n.numeral table k) = m.literals[k]? := by
    constructor
    · rintro rfl k hk
      rw [← hplaces.place_eq k hk, Array.getElem?_toList]
    · intro hnames
      refine List.ext_getElem? fun k => ?_
      rcases Nat.lt_or_ge k m.literals.size with hk | hk
      · rw [hplaces.place_eq k hk, hnames k hk, Array.getElem?_toList]
      · rw [List.getElem?_eq_none (by rwa [hplaces.length_places]),
          List.getElem?_eq_none (by simpa using hk)]
  refine ⟨m, gaps, places, hm, hplaces, hiff, fun hplain => hiff.mpr fun k hk => ?_⟩
  -- a number that can be read back is the number of its literal
  have hplace := hplaces.place_eq k hk
  have hsome : k < places.length := by rwa [hplaces.length_places]
  rw [hplain k hk, List.getElem?_eq_getElem hsome] at hplace
  obtain ⟨j, hread, hget⟩ := Option.bind_eq_some_iff.mp hplace.symm
  rw [hplain k hk, ← hplace, ← hget, eq_of_readWord?_decimal hread]

/-- A table that spells one number as a text. -/
def respelling (number spelling : String) : CaseTable :=
  .ofSchema { spellings := [(number.toList, spelling.toList)] } .builtin

/-- The theorem at a table that writes the number of the first literal with a zero in front. -/
theorem line_keeps_literals_iff_padded :
    (respelling "0" "00").Compiled ∧ (respelling "0" "00").Unreserved ∧
      ({} : Normalization).line (respelling "0" "00") {} "x=\"a\"&\"b\"".toList =
        .ok "x = \"a\" & \"b\"".toList ∧
      ∃ m gaps places, Masked.ofLine (trim "x=\"a\"&\"b\"".toList) = .ok m ∧
        ({} : Normalization).Places (respelling "0" "00") m "x = \"a\" & \"b\"".toList gaps places ∧
        (places = m.literals.toList ↔ ∀ k < m.literals.size,
          m.literal? (({} : Normalization).numeral (respelling "0" "00") k) = m.literals[k]?) := by
  have hcompiled : (respelling "0" "00").Compiled := CaseTable.compiled_ofSchema _ _
  have hfree : (respelling "0" "00").Unreserved := by
    refine ⟨?_, ?_, ?_, ?_⟩ <;> decide +kernel
  have hline : ({} : Normalization).line (respelling "0" "00") {} "x=\"a\"&\"b\"".toList =
      .ok "x = \"a\" & \"b\"".toList := by
    decide +kernel
  obtain ⟨m, gaps, places, hm, hplaces, hiff, -⟩ :=
    line_keeps_literals_iff hcompiled hfree hline
  exact ⟨hcompiled, hfree, hline, m, gaps, places, hm, hplaces, hiff⟩

/-- A table that spells the number of the first literal as that of the second one puts the second
literal in the place of the first. -/
theorem line_confuses_literals :
    (respelling "0" "1").Compiled ∧
      (Masked.ofLine "x = \"a\" & \"b\"".toList).map (·.literals) =
        .ok #["\"a\"".toList, "\"b\"".toList] ∧
      ({} : Normalization).line (respelling "0" "1") {} "x = \"a\" & \"b\"".toList =
        .ok "x = \"b\" & \"b\"".toList ∧
      ¬"\"a\"".toList <:+: "x = \"b\" & \"b\"".toList := by
  refine ⟨CaseTable.compiled_ofSchema _ _, ?_, ?_, ?_⟩ <;> decide +kernel

end Normalization

end ClassicAsp
