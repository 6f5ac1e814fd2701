import ClassicAsp.Proofs.LiteralGaps
import ClassicAsp.Proofs.RecasingSteps

/-! # Placeholders under recasing

Any table may be used on masked code, so that its words meet the numbers in the placeholders. If
no text of the table holds a reserved character, a word that is found in masked code lies between
two placeholders or is the whole number in one. Recasing then keeps the placeholders, each with
what the table spells for its number. -/

namespace ClassicAsp

open Text

/-! ## Reserved characters -/

namespace Masked

theorem unreserved_iff {cs : List Char} :
    Unreserved cs ↔ ∀ c ∈ cs, c ≠ opening ∧ c ≠ closing := by
  constructor
  · intro h c hc
    exact ⟨fun he => h.1 (he ▸ hc), fun he => h.2 (he ▸ hc)⟩
  · intro h
    exact ⟨fun hm => (h _ hm).1 rfl, fun hm => (h _ hm).2 rfl⟩

theorem unreserved_append {a b : List Char} :
    Unreserved (a ++ b) ↔ Unreserved a ∧ Unreserved b := by
  simp only [Unreserved, List.mem_append, not_or]
  exact ⟨fun h => ⟨⟨h.1.1, h.2.1⟩, h.1.2, h.2.2⟩, fun h => ⟨⟨h.1.1, h.2.1⟩, h.1.2, h.2.2⟩⟩

theorem ne_reserved_of_isBlank {c : Char} (h : isBlank c = true) :
    c ≠ opening ∧ c ≠ closing := by
  constructor <;> rintro rfl <;> exact absurd h (by decide)

theorem unreserved_of_allBlank {cs : List Char} (h : allBlank cs = true) : Unreserved cs :=
  unreserved_iff.mpr fun c hc => ne_reserved_of_isBlank (allBlank_iff.mp h c hc)

theorem ne_reserved_of_sameLetter {c d : Char} (h : sameLetter d c = true)
    (hd : d ≠ opening ∧ d ≠ closing) : c ≠ opening ∧ c ≠ closing := by
  constructor
  · rintro rfl
    exact hd.1 (eq_of_sameLetter isCaseless_opening h)
  · rintro rfl
    exact hd.2 (eq_of_sameLetter isCaseless_closing h)

theorem ne_reserved_of_isWordChar {c : Char} (h : isWordChar c = true) :
    c ≠ opening ∧ c ≠ closing := by
  constructor <;> rintro rfl <;> exact absurd h (by decide +kernel)

theorem ne_reserved_of_startsMember {c : Char} (h : Recasing.startsMember c = true) :
    c ≠ opening ∧ c ≠ closing := by
  constructor <;> rintro rfl <;> exact absurd h (by decide +kernel)

end Masked

/-- No text of the table holds a reserved character. -/
structure CaseTable.Unreserved (t : CaseTable) : Prop where
  key : ∀ e ∈ t.spellings, Masked.Unreserved e.1
  spelling : ∀ e ∈ t.spellings, Masked.Unreserved e.2
  object : ∀ o ∈ t.members, Masked.Unreserved o.1
  member : ∀ o ∈ t.members, ∀ m ∈ o.2, Masked.Unreserved m.2

/-! ## Found phrases hold no reserved character -/

/-- No phrase of the index holds a reserved character. -/
def PhraseIndex.Unreserved (index : PhraseIndex) : Prop :=
  ∀ e ∈ index, ∀ p ∈ e.2, Masked.Unreserved p

theorem PhraseIndex.mem_of_mem_ofPhrases {phrases : List (List Char)} {e : Char × List (List Char)}
    (he : e ∈ PhraseIndex.ofPhrases phrases) {p : List Char} (hp : p ∈ e.2) : p ∈ phrases := by
  obtain ⟨letter, -, rfl⟩ := List.mem_map.mp he
  exact (List.mem_filter.mp hp).1

theorem CaseTable.mem_of_mem_searchOrder {phrases : List (List Char)} {p : List Char}
    (hp : p ∈ searchOrder phrases) : p ∈ phrases := by
  rw [searchOrder, List.mem_mergeSort] at hp
  exact (List.mem_filter.mp hp).1

theorem CaseTable.Unreserved.index {t : CaseTable} (h : t.Unreserved) (hcompiled : t.Compiled) :
    t.phrases.Unreserved ∧ t.objects.Unreserved := by
  obtain ⟨schema, origin, fallback, rfl⟩ := hcompiled
  constructor
  · intro e he p hp
    obtain ⟨entry, hentry, rfl⟩ := List.mem_map.mp
      (mem_of_mem_searchOrder (PhraseIndex.mem_of_mem_ofPhrases he hp))
    exact h.key entry hentry
  · intro e he p hp
    obtain ⟨entry, hentry, rfl⟩ := List.mem_map.mp
      (mem_of_mem_searchOrder (PhraseIndex.mem_of_mem_ofPhrases he hp))
    exact h.object entry hentry

namespace Recasing

theorem lengthFrom?_nil (n : Nat) (cs : List Char) : lengthFrom? n [] cs = none := by
  cases cs <;> simp [lengthFrom?]

theorem unreserved_of_advance {c : Char} {l l' : List Char} (hl : Masked.Unreserved l)
    (h : l' ∈ advance c l) : (c ≠ Masked.opening ∧ c ≠ Masked.closing) ∧ Masked.Unreserved l' := by
  fun_cases advance c l with
  | case1 => simp [advance] at h
  | case2 rest hc =>
      rw [advance, if_pos hc] at h
      refine ⟨Masked.ne_reserved_of_isBlank hc, ?_⟩
      rcases List.mem_cons.mp h with rfl | h
      · exact hl
      · obtain rfl := List.mem_singleton.mp h
        exact (Masked.unreserved_append (a := [' ']).mp hl).2
  | case3 rest hc => simp [advance, hc] at h
  | case4 p rest hp hsame =>
      rw [advance, if_pos hsame] at h
      · obtain rfl := List.mem_singleton.mp h
        exact ⟨Masked.ne_reserved_of_sameLetter hsame (Masked.unreserved_iff.mp hl p (by simp)),
          (Masked.unreserved_append (a := [p]).mp hl).2⟩
      · exact hp
  | case5 p rest hp hsame =>
      rw [advance, if_neg hsame] at h
      · simp at h
      · exact hp

theorem unreserved_of_lengthFrom? {n m : Nat} {left : List (List Char)} {cs : List Char}
    (h : lengthFrom? n left cs = some m) (hleft : ∀ l ∈ left, Masked.Unreserved l) :
    n ≤ m ∧ Masked.Unreserved (cs.take (m - n)) := by
  induction cs generalizing n left with
  | nil =>
      rw [lengthFrom?] at h
      split at h
      · obtain rfl := Option.some.inj h
        exact ⟨Nat.le_refl _, by simp [Masked.Unreserved]⟩
      · cases h
  | cons c cs ih =>
      rw [lengthFrom?] at h
      split at h
      · obtain rfl := Option.some.inj h
        exact ⟨Nat.le_refl _, by simp [Masked.Unreserved]⟩
      · split at h
        · cases h
        · have hnext : ∀ l' ∈ (left.flatMap (advance c)).eraseDups,
              (c ≠ Masked.opening ∧ c ≠ Masked.closing) ∧ Masked.Unreserved l' := by
            intro l' hl'
            obtain ⟨l, hl, hadv⟩ := List.mem_flatMap.mp (List.mem_eraseDups.mp hl')
            exact unreserved_of_advance (hleft l hl) hadv
          obtain ⟨hle, htaken⟩ := ih h fun l' hl' => (hnext l' hl').2
          have hc : c ≠ Masked.opening ∧ c ≠ Masked.closing := by
            cases hadv : (left.flatMap (advance c)).eraseDups with
            | nil =>
                rw [hadv, lengthFrom?_nil] at h
                cases h
            | cons l' _ => exact (hnext l' (by simp [hadv])).1
          refine ⟨by omega, ?_⟩
          rw [show m - n = (m - (n + 1)) + 1 by omega, List.take_succ_cons]
          exact Masked.unreserved_append (a := [c]).mpr
            ⟨Masked.unreserved_iff.mpr (by simpa using hc), htaken⟩

theorem unreserved_of_phraseLengthFrom? {n m : Nat} {p cs : List Char}
    (h : phraseLengthFrom? n p cs = some m) (hp : Masked.Unreserved p) :
    n ≤ m ∧ Masked.Unreserved (cs.take (m - n)) := by
  fun_induction phraseLengthFrom? n p cs with
  | case1 n cs =>
      obtain rfl := Option.some.inj h
      exact ⟨Nat.le_refl _, by simp [Masked.Unreserved]⟩
  | case2 => cases h
  | case3 n rest c cs hblank =>
      refine unreserved_of_lengthFrom? h fun l hl => ?_
      obtain rfl := List.mem_singleton.mp hl
      exact hp
  | case4 => cases h
  | case5 n rest c cs hblank run hrun ih =>
      obtain ⟨hle, htaken⟩ := ih h (Masked.unreserved_append (a := [' ']).mp hp).2
      refine ⟨by omega, ?_⟩
      rw [show m - n = run + (m - (n + run)) by omega, List.take_add]
      refine Masked.unreserved_append.mpr ⟨?_, htaken⟩
      rw [take_length_takeWhile]
      exact Masked.unreserved_of_allBlank (allBlank_takeWhile _)
  | case6 n p ps c cs hspace hsame ih =>
      obtain ⟨hle, htaken⟩ := ih h (Masked.unreserved_append (a := [p]).mp hp).2
      refine ⟨by omega, ?_⟩
      rw [show m - n = (m - (n + 1)) + 1 by omega, List.take_succ_cons]
      have hc := Masked.ne_reserved_of_sameLetter hsame (Masked.unreserved_iff.mp hp p (by simp))
      exact Masked.unreserved_append (a := [c]).mpr
        ⟨Masked.unreserved_iff.mpr (by simpa using hc), htaken⟩
  | case7 => cases h

theorem unreserved_of_phraseLength? {n : Nat} {p cs : List Char} (h : phraseLength? p cs = some n)
    (hp : Masked.Unreserved p) : Masked.Unreserved (cs.take n) :=
  (unreserved_of_phraseLengthFrom? h hp).2

/-- A keyword that is found in code stands between word boundaries and holds no reserved
character. -/
theorem keywordLength?_spec {phrases : PhraseIndex} (hfree : phrases.Unreserved)
    (hsearch : phrases.Searchable) {n : Nat} {before cs : List Char}
    (h : keywordLength? phrases before cs = some n) :
    0 < n ∧ isBoundaryAt n cs = true ∧ Masked.Unreserved (cs.take n) := by
  rw [keywordLength?] at h
  split at h
  · obtain ⟨e, he, p, hp, hfound⟩ := exists_of_findPhrase? h
    rw [Option.filter_eq_some_iff] at hfound
    obtain ⟨c, word, rest, -, hn, -⟩ := phraseLength?_eq_some hfound.1 (hsearch e he p hp)
    exact ⟨by omega, hfound.2, unreserved_of_phraseLength? hfound.1 (hfree e he p hp)⟩
  · cases h

theorem unreserved_of_memberAfter? {object cs : List Char} {r : MemberRef}
    (h : memberAfter? object cs = some r) : Masked.Unreserved r.member := by
  simp only [memberAfter?] at h
  split at h
  · split at h
    · next c tail _ =>
        split at h
        · next hstart =>
            obtain rfl := Option.some.inj h
            refine Masked.unreserved_iff.mpr fun d hd => ?_
            rcases List.mem_cons.mp hd with rfl | hd
            · exact Masked.ne_reserved_of_startsMember hstart
            · exact Masked.ne_reserved_of_isWordChar (List.mem_takeWhile_imp hd)
        · cases h
    · cases h
  · cases h

/-- A reference to a member that is found in code holds a dot and no reserved character. -/
theorem memberRef?_spec {objects : PhraseIndex} (hfree : objects.Unreserved)
    {before cs : List Char} {r : MemberRef} (h : memberRef? objects before cs = some r) :
    Masked.Unreserved r.object ∧ Masked.Unreserved r.link ∧ Masked.Unreserved r.member ∧
      '.' ∈ r.link := by
  rw [memberRef?] at h
  split at h
  · obtain ⟨e, he, p, hp, hfound⟩ := exists_of_findPhrase? h
    obtain ⟨n, hlength, hmember⟩ := Option.bind_eq_some_iff.mp hfound
    obtain ⟨hobject, x, y, _, _, _, hx, hy, -, -, hlink, -, -⟩ := memberAfter?_eq_some hmember
    refine ⟨?_, ?_, unreserved_of_memberAfter? hmember, by simp [hlink]⟩
    · rw [hobject]
      exact unreserved_of_phraseLength? hlength (hfree e he p hp)
    · rw [hlink]
      refine Masked.unreserved_append.mpr ⟨Masked.unreserved_of_allBlank hx, ?_⟩
      exact Masked.unreserved_append (a := ['.']).mpr
        ⟨by simp [Masked.Unreserved, Masked.opening, Masked.closing],
          Masked.unreserved_of_allBlank hy⟩
  · cases h

end Recasing

/-! ## Masked code -/

namespace Masked

/-- Code with placeholders in it, given by the texts inside them. -/
inductive Woven : List (List Char) → List Char → Prop where
  | nil : Woven [] []
  | char {c indices b} (hc : c ≠ opening ∧ c ≠ closing) :
      Woven indices b → Woven indices (c :: b)
  | holder {index indices b} (hindex : closing ∉ index) :
      Woven indices b → Woven (index :: indices) (opening :: (index ++ closing :: b))

namespace Woven

variable {indices : List (List Char)} {a b w : List Char}

theorem append (hw : Unreserved w) (h : Woven indices b) : Woven indices (w ++ b) := by
  induction w with
  | nil => exact h
  | cons c w ih =>
      rw [← List.singleton_append, unreserved_append] at hw
      exact .char (unreserved_iff.mp hw.1 c (by simp)) (ih hw.2)

theorem tail {c : Char} (hc : c ≠ opening) (h : Woven indices (c :: b)) : Woven indices b := by
  generalize hx : c :: b = x at h
  cases h with
  | nil => cases hx
  | char _ hrest =>
      obtain ⟨rfl, rfl⟩ := List.cons.inj hx
      exact hrest
  | holder => exact absurd (List.cons.inj hx).1 hc

theorem drop (hw : Unreserved w) (h : Woven indices (w ++ b)) : Woven indices b := by
  induction w with
  | nil => exact h
  | cons c w ih =>
      rw [← List.singleton_append, unreserved_append] at hw
      exact ih hw.2 (h.tail (unreserved_iff.mp hw.1 c (by simp)).1)

theorem eq_nil (hw : Unreserved w) (h : Woven indices w) : indices = [] := by
  have hnil : Woven indices [] := drop hw (by rwa [List.append_nil])
  cases hnil
  rfl

theorem dropEnd (hw : Unreserved w) (h : Woven indices (a ++ w)) : Woven indices a := by
  generalize hx : a ++ w = x at h
  induction h generalizing a with
  | nil =>
      rw [(List.append_eq_nil_iff.mp hx).1]
      exact .nil
  | @char c indices b hc hrest ih =>
      cases a with
      | nil =>
          have hw' : Unreserved b := by
            obtain rfl : w = c :: b := hx
            exact (unreserved_append (a := [c]).mp hw).2
          rw [eq_nil hw' hrest]
          exact .nil
      | cons d a =>
          obtain ⟨rfl, htail⟩ := List.cons.inj hx
          exact .char hc (ih htail)
  | @holder index indices b hindex hrest ih =>
      cases a with
      | nil =>
          obtain rfl : w = opening :: (index ++ closing :: b) := hx
          exact absurd hw.1 (by simp)
      | cons d a =>
          obtain ⟨rfl, htail⟩ := List.cons.inj hx
          -- the closing character of the placeholder cannot stand in `w`
          rcases List.append_eq_append_iff.mp htail with ⟨c, -, hback⟩ | ⟨c, rfl, hback⟩
          · exact absurd (show closing ∈ w by simp [hback]) hw.2
          · cases c with
            | nil =>
                have hclosing : closing ∈ w := by simp [← hback.trans (List.nil_append w)]
                exact absurd hclosing hw.2
            | cons e c =>
                obtain ⟨rfl, hb⟩ := List.cons.inj hback
                exact holder hindex (ih hb.symm)

/-- The mask of pieces holds their numbers. -/
theorem of_row {ps : List Piece} (hrow : Piece.Row ps) (hfree : Unreserved (Piece.join ps))
    (k : Nat) : Woven ((List.range' k (literalsOf ps).length).map decimal) (maskFrom k ps) := by
  induction hrow generalizing k with
  | nil => exact .nil
  | @code c ps _ ih =>
      rw [Piece.join_cons, unreserved_append] at hfree
      exact .char (unreserved_iff.mp hfree.1 c (by simp [Piece.text])) (ih hfree.2 k)
  | @literal t ps _ _ _ ih =>
      rw [Piece.join_cons, unreserved_append] at hfree
      have hrest := holder (closing_notMem_decimal k) (ih hfree.2 (k + 1))
      simpa [maskFrom, placeholder, literalsOf, List.range'_succ] using hrest

end Woven

end Masked

/-! ## Numbers as words -/

namespace Text

theorem isWordChar_of_isDigit {c : Char} (h : c.isDigit = true) : isWordChar c = true := by
  simp [isWordChar, isAscii_of_isDigit h, Char.isAlphanum, h]

theorem lowercaseOnto_of_isCaseless {before cs : List Char}
    (h : ∀ c ∈ cs, isCaseless c = true) : lowercaseOnto [] before cs = cs := by
  induction cs generalizing before with
  | nil => rfl
  | cons c cs ih =>
      have hc := h c (by simp)
      have hsigma : c ≠ '\u03A3' := by
        rintro rfl
        exact absurd hc (by decide)
      rw [lowercaseOnto_cons, ih fun d hd => h d (by simp [hd]), lowerAt,
        if_neg (by simpa using isCaseless_ne_dottedI hc), if_neg (by simpa using hsigma),
        lowerChar_of_isCaseless hc]
      rfl

end Text

/-- The text is a run of digits. -/
structure Text.IsNumeral (cs : List Char) : Prop where
  ne_nil : cs ≠ []
  isDigit : ∀ c ∈ cs, c.isDigit = true

theorem Text.isNumeral_decimal (n : Nat) : IsNumeral (decimal n) :=
  ⟨by simp [decimal], fun _ => isDigit_of_mem_decimal⟩

theorem Text.IsNumeral.key_eq {cs : List Char} (h : IsNumeral cs) : CaseTable.key cs = cs := by
  have hwords : words cs = [cs] := by
    have hsplit : splitAt isBlank cs = [cs] :=
      splitAt_of_forall_not fun c hc => (isCaseless_of_digit (.inl (h.isDigit c hc))).2
    simp [words, hsplit, h.ne_nil]
  have hlower : lowercase cs = cs :=
    lowercaseOnto_of_isCaseless fun c hc => (isCaseless_of_digit (.inl (h.isDigit c hc))).1
  simp [CaseTable.key, hwords, hlower, unwords]

/-! ## Keywords and placeholders -/

namespace Recasing

variable {table : CaseTable} {before cs : List Char} {c : Char}

theorem phraseLengthFrom?_numeral {ds : List Char} (h : ∀ d ∈ ds, d.isDigit = true) (n : Nat)
    (rest : List Char) : phraseLengthFrom? n ds (ds ++ rest) = some (n + ds.length) := by
  induction ds generalizing n with
  | nil => simp [phraseLengthFrom?]
  | cons d ds ih =>
      have hspace : d ≠ ' ' := by
        rintro rfl
        exact absurd (h ' ' (by simp)) (by decide)
      rw [List.cons_append, phraseLengthFrom?, if_pos (by simp [sameLetter]),
        ih fun e he => h e (by simp [he])]
      · simp only [List.length_cons, Option.some.injEq]
        omega
      · exact fun he => absurd he hspace

theorem keywordLength?_of_reserved {phrases : PhraseIndex} (hfree : phrases.Unreserved)
    (hsearch : phrases.Searchable) (hc : c = Masked.opening ∨ c = Masked.closing) :
    keywordLength? phrases before (c :: cs) = none := by
  cases h : keywordLength? phrases before (c :: cs) with
  | none => rfl
  | some n =>
      obtain ⟨hn, -, hword⟩ := keywordLength?_spec hfree hsearch h
      have hmem : c ∈ (c :: cs).take n := by
        obtain ⟨k, rfl⟩ := Nat.exists_eq_succ_of_ne_zero hn.ne'
        simp
      have hne := Masked.unreserved_iff.mp hword c hmem
      exact absurd hc (not_or.mpr hne)

/-- No keyword starts inside a number. -/
theorem keywordsAfter_digits {d : Char} {ds : List Char} (hd : d.isDigit = true)
    (hds : ∀ e ∈ ds, e.isDigit = true) (before rest : List Char) :
    keywordsAfter table 0 (d :: before) [] (ds ++ rest) =
      ds ++ keywordsAfter table 0 (ds.reverse ++ d :: before) [] rest := by
  induction ds generalizing d before with
  | nil => rfl
  | cons e ds ih =>
      have he := hds e (by simp)
      have hnone : keywordLength? table.phrases (d :: before) (e :: (ds ++ rest)) = none := by
        rw [keywordLength?, if_neg]
        simp [isBoundary, isWordChar_of_isDigit hd, isWordChar_of_isDigit he]
      rw [List.cons_append, keywordsAfter_of_none hnone,
        ih he (fun e' he' => hds e' (by simp [he']))]
      simp

/-- A keyword that is found at the number of a placeholder is the whole number. -/
theorem keywordLength?_numeral {phrases : PhraseIndex} (hfree : phrases.Unreserved)
    (hsearch : phrases.Searchable) {index : List Char} (hindex : IsNumeral index) {n : Nat}
    {rest : List Char}
    (h : keywordLength? phrases before (index ++ Masked.closing :: rest) = some n) :
    n = index.length := by
  obtain ⟨hn, hboundary, hword⟩ := keywordLength?_spec hfree hsearch h
  rcases Nat.lt_trichotomy n index.length with hlt | rfl | hlt
  · -- inside the number there is no word boundary
    have hlast : ∃ d, ((index ++ Masked.closing :: rest).take n).getLast? = some d ∧ d ∈ index := by
      rw [List.take_append_of_le_length hlt.le]
      have hne : index.take n ≠ [] := by
        rw [ne_eq, List.take_eq_nil_iff, not_or]
        exact ⟨hn.ne', hindex.ne_nil⟩
      exact ⟨_, List.getLast?_eq_some_getLast hne, List.mem_of_mem_take (List.getLast_mem hne)⟩
    have hhead : ∃ e, ((index ++ Masked.closing :: rest).drop n).head? = some e ∧ e ∈ index := by
      rw [List.drop_append_of_le_length hlt.le]
      have hne : index.drop n ≠ [] := by
        rw [ne_eq, List.drop_eq_nil_iff]
        omega
      refine ⟨_, ?_, List.mem_of_mem_drop (List.head_mem hne)⟩
      rw [List.head?_append, List.head?_eq_some_head hne]
      rfl
    obtain ⟨d, hd, hdmem⟩ := hlast
    obtain ⟨e, he, hemem⟩ := hhead
    rw [isBoundaryAt, hd, he] at hboundary
    simp [isBoundary, isWordChar_of_isDigit (hindex.isDigit d hdmem),
      isWordChar_of_isDigit (hindex.isDigit e hemem)] at hboundary
  · rfl
  · -- the closing character is reserved
    refine absurd ?_ hword.2
    obtain ⟨k, rfl⟩ := Nat.exists_eq_add_of_lt hlt
    rw [Nat.add_assoc, List.take_length_add_append]
    simp

theorem keywordSpelling_opening (before word : List Char) :
    keywordSpelling table (Masked.opening :: before) word = (table.canonical? word).getD word := by
  rw [keywordSpelling, if_neg]
  simp [endsWithDot, show isBlank Masked.opening = false by decide,
    show Masked.opening ≠ '.' by decide]

theorem isSearchable_of_isNumeral {index : List Char} (h : IsNumeral index) :
    CaseTable.isSearchable index = true := by
  rw [CaseTable.isSearchable, List.head?_eq_some_head h.ne_nil,
    List.getLast?_eq_some_getLast h.ne_nil]
  simp [isNameChar_of_isDigit (h.isDigit _ (List.head_mem h.ne_nil)),
    isNameChar_of_isDigit (h.isDigit _ (List.getLast_mem h.ne_nil))]

/-- A number that the table spells is found in its placeholder. -/
theorem canonical?_of_keywordLength? (hcompiled : table.Compiled) {index : List Char}
    (hindex : IsNumeral index) {rest : List Char}
    (h : keywordLength? table.phrases (Masked.opening :: before)
      (index ++ Masked.closing :: rest) = none) : table.canonical? index = none := by
  cases hspelt : table.canonical? index with
  | none => rfl
  | some spelling =>
      have hmem : (index, spelling) ∈ table.spellings := by
        rw [CaseTable.canonical?, hindex.key_eq] at hspelt
        exact Assoc.mem_of_get? hspelt
      obtain ⟨d, ds, rfl⟩ := List.exists_cons_of_ne_nil hindex.ne_nil
      have hdigit := isWordChar_of_isDigit (hindex.isDigit d (by simp))
      obtain ⟨found, hget, hfound⟩ := hcompiled.exists_phrases hmem
        (isSearchable_of_isNumeral hindex) rfl
      have hlength : phraseLength? (d :: ds) (d :: ds ++ Masked.closing :: rest) =
          some (d :: ds).length := by
        rw [phraseLength?, phraseLengthFrom?_numeral hindex.isDigit, Nat.zero_add]
      have hend : isBoundaryAt (d :: ds).length (d :: ds ++ Masked.closing :: rest) = true := by
        have hlast := isWordChar_of_isDigit (hindex.isDigit _ (List.getLast_mem hindex.ne_nil))
        rw [isBoundaryAt, List.take_left, List.drop_left,
          List.getLast?_eq_some_getLast hindex.ne_nil]
        simp only [isBoundary, Option.any_some, hlast, List.head?_cons]
        decide +kernel
      have hsome : (keywordLength? table.phrases (Masked.opening :: before)
          (d :: ds ++ Masked.closing :: rest)).isSome = true := by
        rw [keywordLength?, if_pos]
        · refine isSome_findPhrase? rfl hget hfound ?_
          simp only [hlength, Option.filter, hend, if_true, Option.isSome_some]
        · simp [isBoundary, hdigit, show isWordChar Masked.opening = false by decide +kernel]
      rw [h] at hsome
      cases hsome

theorem keywordsAfter_holder (hcompiled : table.Compiled) (hfree : table.Unreserved)
    {index : List Char} (hindex : IsNumeral index) (before rest : List Char) :
    ∃ before',
      keywordsAfter table 0 before [] (Masked.opening :: (index ++ Masked.closing :: rest)) =
        Masked.opening :: ((table.canonical? index).getD index ++
          Masked.closing :: keywordsAfter table 0 before' [] rest) := by
  have hphrases := (hfree.index hcompiled).1
  have hsearch := hcompiled.searchable.1
  obtain ⟨d, ds, rfl⟩ := List.exists_cons_of_ne_nil hindex.ne_nil
  rw [keywordsAfter_of_none (keywordLength?_of_reserved hphrases hsearch (.inl rfl)),
    List.cons_append]
  cases hfound : keywordLength? table.phrases (Masked.opening :: before)
      (d :: (ds ++ Masked.closing :: rest)) with
  | none =>
      have hnone := canonical?_of_keywordLength? hcompiled hindex hfound
      rw [keywordsAfter_of_none hfound, hnone, Option.getD_none,
        keywordsAfter_digits (hindex.isDigit d (by simp))
          (fun e he => hindex.isDigit e (by simp [he])),
        keywordsAfter_of_none (keywordLength?_of_reserved hphrases hsearch (.inr rfl))]
      exact ⟨_, rfl⟩
  | some n =>
      obtain rfl : n = (d :: ds).length := keywordLength?_numeral hphrases hsearch hindex hfound
      have htake : (d :: (ds ++ Masked.closing :: rest)).take (d :: ds).length = d :: ds := by simp
      have hdrop : (d :: (ds ++ Masked.closing :: rest)).drop (d :: ds).length =
        Masked.closing :: rest := by simp
      rw [keywordsAfter_of_some (by simp) hfound, htake, hdrop, keywordSpelling_opening,
        keywordsAfter_of_none (keywordLength?_of_reserved hphrases hsearch (.inr rfl))]
      exact ⟨_, rfl⟩

theorem unreserved_keywordSpelling (hfree : table.Unreserved) (before : List Char)
    {word : List Char} (hword : Masked.Unreserved word) :
    Masked.Unreserved (keywordSpelling table before word) := by
  rw [keywordSpelling]
  split
  · exact hword
  · cases h : table.canonical? word with
    | none => exact hword
    | some spelling => exact hfree.spelling _ (Assoc.mem_of_get? h)

/-- Recasing of keywords gives the number in a placeholder the spelling of the table. -/
theorem woven_keywordsAfter (hcompiled : table.Compiled) (hfree : table.Unreserved)
    {indices : List (List Char)} {code : List Char} (h : Masked.Woven indices code)
    (hindices : ∀ index ∈ indices, IsNumeral index) (before : List Char) :
    Masked.Woven (indices.map fun index => (table.canonical? index).getD index)
      (keywordsAfter table 0 before [] code) := by
  induction hn : code.length using Nat.strongRecOn generalizing indices code before with
  | _ n ih =>
      cases h with
      | nil =>
          rw [keywordsAfter]
          exact .nil
      | @char c indices code hc hcode =>
          cases hfound : keywordLength? table.phrases before (c :: code) with
          | none =>
              rw [keywordsAfter_of_none hfound]
              exact .char hc (ih _ (by simp [← hn]) hcode hindices _ rfl)
          | some k =>
              obtain ⟨hk, -, hword⟩ := keywordLength?_spec (hfree.index hcompiled).1
                hcompiled.searchable.1 hfound
              have hrest : Masked.Woven indices ((c :: code).drop k) := by
                refine Masked.Woven.drop hword ?_
                rw [List.take_append_drop]
                exact .char hc hcode
              rw [keywordsAfter_of_some hk hfound]
              refine .append (unreserved_keywordSpelling hfree before hword) ?_
              refine ih _ ?_ hrest hindices _ rfl
              rw [← hn, List.length_drop, List.length_cons]
              omega
      | @holder index indices rest hindex hrest =>
          obtain ⟨before', hholder⟩ := keywordsAfter_holder hcompiled hfree
            (hindices index (by simp)) before rest
          have hspelt : Masked.Unreserved ((table.canonical? index).getD index) := by
            rw [← keywordSpelling_opening []]
            refine unreserved_keywordSpelling hfree _ (Masked.unreserved_iff.mpr fun c hc => ?_)
            exact Masked.ne_reserved_of_isWordChar
              (isWordChar_of_isDigit ((hindices index (by simp)).isDigit c hc))
          rw [hholder, List.map_cons]
          refine .holder hspelt.2 (ih _ ?_ hrest (fun i hi => hindices i (by simp [hi])) _ rfl)
          rw [← hn]
          simp
          omega

/-! ## Members and placeholders -/

theorem exists_memberRef? {objects : PhraseIndex} (hfree : objects.Unreserved)
    (hsearch : objects.Searchable) {r : MemberRef} (h : memberRef? objects before cs = some r) :
    0 < r.length ∧ '.' ∈ cs.take r.length ∧ Masked.Unreserved (cs.take r.length) := by
  obtain ⟨hobject, hlink, hmember, hdot⟩ := memberRef?_spec hfree h
  obtain ⟨_, _, c, tail, rest, -, -, -, -, -, hname, -, -, hcs⟩ := memberRef?_eq_some hsearch h
  have htake : cs.take r.length = r.object ++ (r.link ++ r.member) := by
    have hlen : r.length = (r.object ++ (r.link ++ r.member)).length := by
      simp [MemberRef.length]
      omega
    rw [hcs, hlen, ← List.append_assoc, ← List.append_assoc, ← List.append_assoc, List.take_left]
  refine ⟨?_, by rw [htake]; simp [hdot], ?_⟩
  · rw [MemberRef.length, hname, List.length_cons]
    omega
  · rw [htake]
    exact Masked.unreserved_append.mpr ⟨hobject, Masked.unreserved_append.mpr ⟨hlink, hmember⟩⟩

/-- No reference to a member starts in a placeholder. -/
theorem memberRef?_inside {objects : PhraseIndex} (hfree : objects.Unreserved)
    (hsearch : objects.Searchable) {inside rest : List Char} (hinside : '.' ∉ inside) :
    memberRef? objects before (inside ++ Masked.closing :: rest) = none := by
  cases h : memberRef? objects before (inside ++ Masked.closing :: rest) with
  | none => rfl
  | some r =>
      obtain ⟨-, hdot, hword⟩ := exists_memberRef? hfree hsearch h
      rcases Nat.lt_or_ge inside.length r.length with hlt | hle
      · refine absurd ?_ hword.2
        obtain ⟨k, hk⟩ := Nat.exists_eq_add_of_lt hlt
        rw [hk, Nat.add_assoc, List.take_length_add_append]
        simp
      · rw [List.take_append_of_le_length hle] at hdot
        exact absurd (List.mem_of_mem_take hdot) hinside

theorem membersAfter_holder (hfree : table.objects.Unreserved) (hsearch : table.objects.Searchable)
    {inside : List Char} (hinside : '.' ∉ inside) (before rest : List Char) :
    ∃ before', membersAfter table 0 before [] (inside ++ Masked.closing :: rest) =
      inside ++ Masked.closing :: membersAfter table 0 before' [] rest := by
  induction inside generalizing before with
  | nil =>
      have hnone : memberRef? table.objects before ([] ++ Masked.closing :: rest) = none :=
        memberRef?_inside hfree hsearch hinside
      exact ⟨_, membersAfter_of_none hnone⟩
  | cons c inside ih =>
      rw [List.mem_cons, not_or] at hinside
      obtain ⟨before', hrest⟩ := ih hinside.2 (c :: before)
      refine ⟨before', ?_⟩
      have hnone : memberRef? table.objects before (c :: inside ++ Masked.closing :: rest) = none :=
        memberRef?_inside hfree hsearch (by simp [hinside])
      rw [List.cons_append] at hnone ⊢
      rw [membersAfter_of_none hnone, hrest, List.cons_append]

theorem unreserved_memberSpelling (hfree : table.Unreserved) {r : MemberRef}
    (hobject : Masked.Unreserved r.object) (hmember : Masked.Unreserved r.member) :
    Masked.Unreserved (memberSpelling table r) := by
  rw [memberSpelling]
  set object := (table.canonical? r.object).getD r.object with hobj
  have hfirst : Masked.Unreserved object := by
    rw [hobj]
    cases h : table.canonical? r.object with
    | none => exact hobject
    | some spelling => exact hfree.spelling _ (Assoc.mem_of_get? h)
  have hsecond : Masked.Unreserved ((table.canonicalMember? object r.member).getD r.member) := by
    cases h : table.canonicalMember? object r.member with
    | none => exact hmember
    | some spelling =>
        obtain ⟨members, hget, hspelling⟩ := Option.bind_eq_some_iff.mp h
        exact hfree.member _ (Assoc.mem_of_get? hget) _ (Assoc.mem_of_get? hspelling)
  refine Masked.unreserved_append.mpr
    ⟨hfirst, Masked.unreserved_append (a := ['.']).mpr ⟨?_, hsecond⟩⟩
  simp [Masked.Unreserved, Masked.opening, Masked.closing]

/-- Recasing of members leaves placeholders alone. -/
theorem woven_membersAfter (hcompiled : table.Compiled) (hfree : table.Unreserved)
    {indices : List (List Char)} {code : List Char} (h : Masked.Woven indices code)
    (hindices : ∀ index ∈ indices, IsNumeral index) (before : List Char) :
    Masked.Woven indices (membersAfter table 0 before [] code) := by
  have hobjects := (hfree.index hcompiled).2
  have hsearch := hcompiled.searchable.2
  induction hn : code.length using Nat.strongRecOn generalizing indices code before with
  | _ n ih =>
      cases h with
      | nil =>
          rw [membersAfter]
          exact .nil
      | @char c indices code hc hcode =>
          cases hfound : memberRef? table.objects before (c :: code) with
          | none =>
              rw [membersAfter_of_none hfound]
              exact .char hc (ih _ (by simp [← hn]) hcode hindices _ rfl)
          | some r =>
              obtain ⟨hpos, -, hword⟩ := exists_memberRef? hobjects hsearch hfound
              obtain ⟨hobject, -, hmember, -⟩ := memberRef?_spec hobjects hfound
              have hrest : Masked.Woven indices ((c :: code).drop r.length) := by
                refine Masked.Woven.drop hword ?_
                rw [List.take_append_drop]
                exact .char hc hcode
              rw [membersAfter_of_some hpos hfound]
              refine .append (unreserved_memberSpelling hfree hobject hmember) ?_
              refine ih _ ?_ hrest hindices _ rfl
              rw [← hn, List.length_drop, List.length_cons]
              omega
      | @holder index indices rest hindex hrest =>
          have hdot : '.' ∉ Masked.opening :: index := by
            rw [List.mem_cons, not_or]
            refine ⟨by decide, fun hm => ?_⟩
            exact absurd ((hindices index (by simp)).isDigit _ hm) (by decide)
          obtain ⟨before', hholder⟩ := membersAfter_holder hobjects hsearch hdot before rest
          rw [List.cons_append] at hholder
          rw [hholder]
          refine .holder hindex (ih _ ?_ hrest (fun i hi => hindices i (by simp [hi])) _ rfl)
          rw [← hn]
          simp
          omega

end Recasing

end ClassicAsp
