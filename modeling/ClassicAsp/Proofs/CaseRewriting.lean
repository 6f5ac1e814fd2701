import ClassicAsp.Proofs.Lines
import ClassicAsp.Proofs.Restyling
import ClassicAsp.Proofs.WellCased
import ClassicAsp.Recasing

/-! # Recasing restyles code

A phrase of the table that is found in code starts and ends with a visible character, and its
spelling in a well-cased table is the found text in another case with one space for each run of
blanks. -/

namespace ClassicAsp

open Text

/-! ## Blanks are no letters -/

namespace Text

/-- What holds of the blanks one by one holds of every blank. -/
theorem forall_isBlank {P : Char → Bool} (h : ∀ n ∈ blankCodes, P (Char.ofNat n) = true)
    {c : Char} (hc : isBlank c = true) : P c = true := by
  have := h c.toNat (toNat_mem_blankCodes hc)
  rwa [Char.ofNat_toNat] at this

theorem isBlank_of_isNameChar {c : Char} (h : isNameChar c = true) : isBlank c = false := by
  by_contra hc
  have := forall_isBlank (P := (!isNameChar ·)) (by decide +kernel) (by simpa using hc)
  simp [h] at this

theorem isBlank_of_isWordChar {c : Char} (h : isWordChar c = true) : isBlank c = false := by
  by_contra hc
  have := forall_isBlank (P := (!isWordChar ·)) (by decide +kernel) (by simpa using hc)
  simp [h] at this

theorem isBlank_of_startsMember {c : Char} (h : Recasing.startsMember c = true) :
    isBlank c = false := by
  by_contra hc
  have := forall_isBlank (P := (!Recasing.startsMember ·)) (by decide +kernel) (by simpa using hc)
  simp [h] at this

/-- No blank comes last. -/
def EndsVisible (cs : List Char) : Prop := ∀ c, cs.getLast? = some c → isBlank c = false

theorem EndsVisible.of_append {a b : List Char} (h : EndsVisible (a ++ b)) :
    EndsVisible b := by
  intro c hc
  refine h c ?_
  rw [List.getLast?_append, hc]
  rfl

theorem endsVisible_append {a b : List Char} (h : EndsVisible b) (hb : b ≠ []) :
    EndsVisible (a ++ b) := by
  intro c hc
  refine h c ?_
  rwa [List.getLast?_append_of_ne_nil _ hb] at hc

end Text

/-! ## Phrases found in code -/

/-- Every phrase of the index starts and ends with a character of a name. -/
def PhraseIndex.Searchable (index : PhraseIndex) : Prop :=
  ∀ e ∈ index, ∀ p ∈ e.2, CaseTable.isSearchable p = true

/-- A letter leads to the phrases that start with it, in the order they are tried. -/
theorem PhraseIndex.getD_get?_ofPhrases (phrases : List (List Char)) (letter : Char) :
    ((ofPhrases phrases).get? letter).getD [] = phrases.filter (startsWithLetter letter) := by
  rw [ofPhrases, Assoc.get?, List.find?_map]
  set letters := (phrases.filterMap fun p => p.head?.map foldCase).eraseDups with hletters
  have hkeys : ((fun e : Char × List (List Char) => e.1 == letter) ∘
      fun letter => (letter, phrases.filter (startsWithLetter letter))) = (· == letter) := rfl
  rw [hkeys]
  cases hfind : letters.find? (· == letter) with
  | some d =>
      obtain rfl : d = letter := by simpa using List.find?_some hfind
      rfl
  | none =>
      refine (List.filter_eq_nil_iff.mpr fun p hp hstarts => ?_).symm
      cases p with
      | nil => cases hstarts
      | cons c p =>
          have hmem : letter ∈ letters := by
            rw [hletters, List.mem_eraseDups, List.mem_filterMap]
            exact ⟨c :: p, hp, congrArg some (beq_iff_eq.mp hstarts)⟩
          exact absurd (List.find?_eq_none.mp hfind letter hmem) (by simp)

/-- Every phrase is tried where its first letter stands. -/
theorem PhraseIndex.exists_get? {phrases : List (List Char)} {p : List Char} {c : Char}
    (hp : p ∈ phrases) (hc : p.head? = some c) :
    ∃ found, (ofPhrases phrases).get? (foldCase c) = some found ∧ p ∈ found := by
  have hmem : p ∈ ((ofPhrases phrases).get? (foldCase c)).getD [] := by
    rw [getD_get?_ofPhrases]
    exact List.mem_filter.mpr ⟨hp, by simp [startsWithLetter, hc]⟩
  cases hget : (ofPhrases phrases).get? (foldCase c) with
  | none => simp [hget] at hmem
  | some found => exact ⟨found, rfl, by simpa [hget] using hmem⟩

theorem PhraseIndex.searchable_ofPhrases (phrases : List (List Char)) :
    (PhraseIndex.ofPhrases (CaseTable.searchOrder phrases)).Searchable := by
  intro e he p hp
  obtain ⟨letter, -, rfl⟩ := List.mem_map.mp he
  have hmem := (List.mem_filter.mp hp).1
  rw [CaseTable.searchOrder, List.mem_mergeSort] at hmem
  exact (List.mem_filter.mp hmem).2

theorem CaseTable.Compiled.searchable {t : CaseTable} (h : t.Compiled) :
    t.phrases.Searchable ∧ t.objects.Searchable := by
  obtain ⟨schema, origin, fallback, rfl⟩ := h
  exact ⟨PhraseIndex.searchable_ofPhrases _, PhraseIndex.searchable_ofPhrases _⟩

theorem CaseTable.endsVisible_of_isSearchable {p : List Char} (h : isSearchable p = true) :
    EndsVisible p := by
  intro d hd
  rw [isSearchable, hd, Bool.and_eq_true] at h
  exact isBlank_of_isNameChar h.2

namespace Recasing

theorem exists_of_findPhrase? {α : Type} {index : PhraseIndex} {cs : List Char}
    {found : List Char → Option α} {a : α} (h : findPhrase? index cs found = some a) :
    ∃ e ∈ index, ∃ p ∈ e.2, found p = some a := by
  rw [findPhrase?, Option.bind_eq_some_iff] at h
  obtain ⟨c, -, hc⟩ := h
  obtain ⟨p, hp, hfound⟩ := List.exists_of_findSome?_eq_some hc
  cases hget : index.get? (foldCase c) with
  | none => simp [hget] at hp
  | some phrases =>
      rw [hget, Option.getD_some] at hp
      exact ⟨_, Assoc.mem_of_get? hget, p, hp, hfound⟩

/-- What may be left of a phrase after a character: an end of it that ends the same, and all of it
only if the character is visible. -/
theorem endsVisible_of_advance {c : Char} {l l' : List Char} (hl : l ≠ [] → EndsVisible l)
    (h : l' ∈ advance c l) : (l' = [] → isBlank c = false) ∧ (l' ≠ [] → EndsVisible l') := by
  fun_cases advance c l with
  | case1 => simp [advance] at h
  | case2 rest hc =>
      rw [advance, if_pos hc] at h
      have hlast := hl (by simp)
      rcases List.mem_cons.mp h with rfl | h
      · exact ⟨by simp, fun _ => hlast⟩
      · obtain rfl := List.mem_singleton.mp h
        constructor
        · rintro rfl
          exact absurd (hlast ' ' rfl) (by decide)
        · exact fun _ => EndsVisible.of_append (a := [' ']) hlast
  | case3 rest hc => simp [advance, hc] at h
  | case4 p rest hp hsame =>
      rw [advance, if_pos hsame] at h
      · obtain rfl := List.mem_singleton.mp h
        have hlast := hl (by simp)
        constructor
        · rintro rfl
          cases hc : isBlank c with
          | false => rfl
          | true => exact absurd (hlast p rfl) (by simp [isBlank_of_sameLetter hsame hc])
        · exact fun _ => EndsVisible.of_append (a := [p]) hlast
      · exact hp
  | case5 p rest hp hsame =>
      rw [advance, if_neg hsame] at h
      · simp at h
      · exact hp

theorem lengthFrom?_eq_some {n m : Nat} {left : List (List Char)} {cs seen : List Char}
    (h : lengthFrom? n left cs = some m)
    (hleft : ∀ l ∈ left, (l = [] → EndsVisible seen) ∧ (l ≠ [] → EndsVisible l)) :
    ∃ taken rest, cs = taken ++ rest ∧ m = n + taken.length ∧ EndsVisible (seen ++ taken) := by
  induction cs generalizing n left seen with
  | nil =>
      rw [lengthFrom?] at h
      split at h
      · next hnil =>
          obtain rfl := Option.some.inj h
          have hmem : [] ∈ left := List.contains_iff_mem.mp hnil
          exact ⟨[], [], rfl, rfl, by simpa using (hleft [] hmem).1 rfl⟩
      · cases h
  | cons c cs ih =>
      rw [lengthFrom?] at h
      split at h
      · next hnil =>
          obtain rfl := Option.some.inj h
          have hmem : [] ∈ left := List.contains_iff_mem.mp hnil
          exact ⟨[], c :: cs, rfl, rfl, by simpa using (hleft [] hmem).1 rfl⟩
      · split at h
        · cases h
        · have hnext : ∀ l' ∈ (left.flatMap (advance c)).eraseDups,
              (l' = [] → EndsVisible (seen ++ [c])) ∧ (l' ≠ [] → EndsVisible l') := by
            intro l' hl'
            obtain ⟨l, hl, hadv⟩ := List.mem_flatMap.mp (List.mem_eraseDups.mp hl')
            obtain ⟨hnil, hne⟩ := endsVisible_of_advance (hleft l hl).2 hadv
            refine ⟨fun he => endsVisible_append ?_ (by simp), hne⟩
            intro d hd
            obtain rfl : c = d := by simpa using hd
            exact hnil he
          obtain ⟨taken, rest, rfl, rfl, hvis⟩ := ih h hnext
          exact ⟨c :: taken, rest, rfl, by simp; omega, by simpa using hvis⟩

theorem phraseLengthFrom?_eq_some {n m : Nat} {p cs : List Char} (seen : List Char)
    (h : phraseLengthFrom? n p cs = some m) (hp : p ≠ [] → EndsVisible p)
    (hseen : p = [] → EndsVisible seen) :
    ∃ taken rest, cs = taken ++ rest ∧ m = n + taken.length ∧ EndsVisible (seen ++ taken) := by
  fun_induction phraseLengthFrom? n p cs generalizing seen with
  | case1 n cs =>
      obtain rfl := Option.some.inj h
      exact ⟨[], cs, rfl, rfl, by simpa using hseen rfl⟩
  | case2 => cases h
  | case3 n rest c cs hblank =>
      refine lengthFrom?_eq_some h ?_
      intro l hl
      obtain rfl := List.mem_singleton.mp hl
      exact ⟨by simp, fun _ => hp (by simp)⟩
  | case4 => cases h
  | case5 n rest c cs hblank run hrun ih =>
      have hlast := hp (by simp)
      have hrest : rest ≠ [] := by
        rintro rfl
        exact absurd (hlast ' ' rfl) (by decide)
      obtain ⟨taken, tail, hdrop, rfl, hvis⟩ :=
        ih (seen ++ (c :: cs).take run) h
          (fun _ => EndsVisible.of_append (a := [' ']) hlast) (fun hnil => absurd hnil hrest)
      have hlen : ((c :: cs).take run).length = run := by
        rw [List.length_take]
        exact Nat.min_eq_left (List.takeWhile_prefix _).length_le
      refine ⟨(c :: cs).take run ++ taken, tail, ?_, ?_, ?_⟩
      · rw [List.append_assoc, ← hdrop, List.take_append_drop]
      · rw [List.length_append, hlen]
        omega
      · rwa [← List.append_assoc]
  | case6 n p ps c cs hspace hsame ih =>
      have hlast := hp (by simp)
      obtain ⟨taken, tail, rfl, rfl, hvis⟩ := ih (seen ++ [c]) h
        (fun _ => EndsVisible.of_append (a := [p]) hlast) (by
          rintro rfl
          refine endsVisible_append ?_ (by simp)
          intro d hd
          obtain rfl : c = d := by simpa using hd
          cases hc : isBlank c with
          | false => rfl
          | true => exact absurd (hlast p rfl) (by simp [isBlank_of_sameLetter hsame hc]))
      exact ⟨c :: taken, tail, rfl, by simp; omega, by simpa using hvis⟩
  | case7 => cases h

/-- A phrase that is found in code takes a text without blanks at its ends. -/
theorem phraseLength?_eq_some {n : Nat} {p cs : List Char} (h : phraseLength? p cs = some n)
    (hp : CaseTable.isSearchable p = true) :
    ∃ c word rest, cs = c :: (word ++ rest) ∧ n = word.length + 1 ∧ Trimmed (c :: word) := by
  have hends := CaseTable.endsVisible_of_isSearchable hp
  rw [CaseTable.isSearchable, Bool.and_eq_true] at hp
  cases p with
  | nil => simp at hp
  | cons q qs =>
      have hq : isBlank q = false := isBlank_of_isNameChar (by simpa using hp.1)
      have hlast : EndsVisible (q :: qs) := hends
      cases cs with
      | nil => cases h
      | cons c cs =>
          have hspace : q ≠ ' ' := by
            rintro rfl
            exact absurd hq (by decide)
          rw [phraseLength?, phraseLengthFrom?] at h
          · split at h
            · next hsame =>
                have hc : isBlank c = false := by
                  by_contra hblank
                  rw [isBlank_of_sameLetter hsame (by simpa using hblank)] at hq
                  cases hq
                obtain ⟨taken, rest, rfl, rfl, hvis⟩ :=
                  phraseLengthFrom?_eq_some [c] h
                    (fun _ => EndsVisible.of_append (a := [q]) hlast) (fun _ => by
                      intro d hd
                      obtain rfl : c = d := by simpa using hd
                      exact hc)
                refine ⟨c, taken, rest, rfl, by omega, ?_, hvis⟩
                intro d hd
                obtain rfl : c = d := by simpa using hd
                exact hc
            · cases h
          · intro hne
            exact absurd hne hspace

end Recasing

/-! ## Words with one space between them -/

namespace Text

theorem words_cons_of_isBlank {c : Char} (h : isBlank c = true) (cs : List Char) :
    words (c :: cs) = words cs := by
  simp [words, splitAt_cons_sep h]

theorem words_of_allBlank_append {x : List Char} (h : allBlank x = true) (cs : List Char) :
    words (x ++ cs) = words cs := by
  induction x with
  | nil => rfl
  | cons c x ih =>
      rw [allBlank_cons, Bool.and_eq_true] at h
      rw [List.cons_append, words_cons_of_isBlank h.1, ih h.2]

theorem words_cons_cons_of_isBlank {c d : Char} (hc : isBlank c = false) (hd : isBlank d = true)
    (cs : List Char) : words (c :: d :: cs) = [c] :: words cs := by
  simp [words, splitAt_cons_of_not hc, splitAt_cons_sep hd]

/-- The first word of a text that starts with a visible character. -/
theorem exists_words_cons {c : Char} (hc : isBlank c = false) (cs : List Char) :
    ∃ word rest, words (c :: cs) = (c :: word) :: rest ∧
      ∀ b, isBlank b = false → words (b :: c :: cs) = (b :: c :: word) :: rest := by
  cases hs : splitAt isBlank cs with
  | nil => exact absurd hs (splitAt_ne_nil _ _)
  | cons piece pieces =>
      refine ⟨piece, pieces.filter (! ·.isEmpty), ?_, ?_⟩
      · simp [words, splitAt_cons_of_not hc, hs]
      · intro b hb
        simp [words, splitAt_cons_of_not hb, splitAt_cons_of_not hc, hs]

end Text

theorem exists_visible {cs : List Char} (h : EndsVisible cs) (hne : cs ≠ []) :
    ∃ x d ds, cs = x ++ d :: ds ∧ allBlank x = true ∧ isBlank d = false := by
  induction cs with
  | nil => exact absurd rfl hne
  | cons c cs ih =>
      cases hc : isBlank c with
      | false => exact ⟨[], c, cs, rfl, rfl, hc⟩
      | true =>
          have hcs : cs ≠ [] := by
            rintro rfl
            exact absurd (h c rfl) (by simp [hc])
          obtain ⟨x, d, ds, rfl, hx, hd⟩ := ih (EndsVisible.of_append (a := [c]) h) hcs
          exact ⟨c :: x, d, ds, rfl, by simp [hc, hx], hd⟩

/-- A text without blanks at its ends is restyled by putting one space between its words. -/
theorem Restyled.unwords_words {prev : Option Char} {w : List Char}
    (hw : Trimmed w) : Restyled prev w (unwords (words w)) := by
  induction hn : w.length using Nat.strongRecOn generalizing prev w with
  | _ n ih =>
      cases w with
      | nil => exact .nil
      | cons c cs =>
          have hc := hw.head c rfl
          have hlast : EndsVisible (c :: cs) := hw.last
          by_cases hnil : cs = []
          · rw [hnil, show unwords (words [c]) = [c] by
              simp [words, splitAt_cons_of_not hc, unwords]]
            exact .refl prev [c]
          · obtain ⟨x, d, ds, rfl, hx, hd⟩ :=
              exists_visible (EndsVisible.of_append (a := [c]) hlast) hnil
            have htail : Trimmed (d :: ds) :=
              ⟨by simp [hd], EndsVisible.of_append (a := c :: x) hlast⟩
            obtain ⟨word, rest, hwords, hcons⟩ := exists_words_cons hd ds
            have hrest : Restyled (some c) (d :: ds) (unwords (words (d :: ds))) :=
              ih _ (by simp only [← hn, List.length_append, List.length_cons]; omega) htail rfl
            have hkeep : lastVisible prev [c] = some c := by simp [hc]
            rw [← hkeep] at hrest
            cases x with
            | nil =>
                rw [List.nil_append, hcons c hc, unwords, List.intercalate_cons_cons_left,
                  ← unwords, ← hwords]
                exact .keep hrest
            | cons b x =>
                rw [allBlank_cons, Bool.and_eq_true] at hx
                have hspaced : unwords (words (c :: (b :: x ++ d :: ds))) =
                    c :: ([' '] ++ unwords (words (d :: ds))) := by
                  rw [List.cons_append, words_cons_cons_of_isBlank hc hx.1,
                    words_of_allBlank_append hx.2, hwords]
                  simp [unwords]
                rw [hspaced]
                refine .keep (hrest.front hd ?_ (by decide) (by simp) (by simp))
                simp [hx]

/-! ## Spellings -/

namespace Text

theorem lowercase_of_isAscii {cs : List Char} (h : (lowercase cs).all isAscii = true) :
    lowercase cs = cs.map lowerChar ∧ ∀ c ∈ cs, lowercase [c] = [lowerChar c] :=
  lowercaseOnto_of_isAscii h

theorem isAscii_lowerAt {before after : List Char} {c : Char} (h : isAscii c = true) :
    (lowerAt before c after).all isAscii = true := by
  have hne : ∀ d, isAscii d = false → (c == d) = false := by
    intro d hd
    rw [beq_eq_false_iff_ne]
    rintro rfl
    rw [h] at hd
    cases hd
  have hlower : isAscii c.toLower = true := by
    simp only [isAscii, decide_eq_true_eq, toNat_toLower] at h ⊢
    split <;> omega
  simp [lowerAt, hne _ (show isAscii '\u0130' = false by decide),
    hne _ (show isAscii '\u03A3' = false by decide), lowerChar, h, hlower]

theorem isAscii_lowercaseOnto {before cs : List Char} (h : cs.all isAscii = true) :
    (lowercaseOnto [] before cs).all isAscii = true := by
  induction cs generalizing before with
  | nil => rfl
  | cons c cs ih =>
      rw [List.all_cons, Bool.and_eq_true] at h
      rw [lowercaseOnto_cons, List.all_append, isAscii_lowerAt h.1, ih h.2]
      rfl

theorem unwords_map_lowercase {ws : List (List Char)}
    (h : (unwords (ws.map lowercase)).all isAscii = true) :
    unwords (ws.map lowercase) = (unwords ws).map lowerChar ∧
      ∀ c ∈ unwords ws, lowercase [c] = [lowerChar c] := by
  induction ws with
  | nil => exact ⟨rfl, by simp [unwords]⟩
  | cons w ws ih =>
      cases ws with
      | nil =>
          simp only [unwords, List.map_cons, List.map_nil, List.intercalate_singleton] at h ⊢
          exact lowercase_of_isAscii h
      | cons w' ws =>
          have hcons : ∀ u v vs, unwords (u :: v :: vs) = u ++ ' ' :: unwords (v :: vs) := by
            simp [unwords]
          rw [List.map_cons, List.map_cons, hcons, List.all_append, List.all_cons,
            Bool.and_eq_true, Bool.and_eq_true, ← List.map_cons] at h
          obtain ⟨hmap, heach⟩ := lowercase_of_isAscii h.1
          obtain ⟨hmaps, heachs⟩ := ih h.2.2
          have hspace : isCaseless ' ' = true := isCaseless_of_isBlank (by decide)
          constructor
          · rw [List.map_cons, List.map_cons, hcons, ← List.map_cons, hmaps, hcons, hmap,
              List.map_append, List.map_cons, lowerChar_of_isCaseless hspace]
          · intro c hc
            rw [hcons, List.mem_append, List.mem_cons] at hc
            rcases hc with hc | rfl | hc
            · exact heach c hc
            · rw [lowercase_of_isCaseless hspace, lowerChar_of_isCaseless hspace]
            · exact heachs c hc

end Text

namespace Restyled

variable {prev : Option Char}

theorem of_map_lowerChar {u v : List Char} (h : v.map lowerChar = u.map lowerChar)
    (hu : ∀ c ∈ u, lowercase [c] = [lowerChar c])
    (hv : ∀ c ∈ v, lowercase [c] = [lowerChar c]) : Restyled prev u v := by
  induction u generalizing prev v with
  | nil =>
      obtain rfl : v = [] := by simpa using h
      exact nil
  | cons c u ih =>
      cases v with
      | nil => simp at h
      | cons d v =>
          rw [List.map_cons, List.map_cons, List.cons.injEq] at h
          have hletter : lowercase [c] = lowercase [d] := by
            rw [hu c (by simp), hv d (by simp), h.1]
          have hrest : ∀ prev, Restyled prev u v := fun prev =>
            ih h.2 (fun e he => hu e (by simp [he])) (fun e he => hv e (by simp [he]))
          cases hc : isBlank c with
          | true =>
              rw [← eq_of_lowercase_eq (isCaseless_of_isBlank hc) hletter.symm]
              exact keep (hrest _)
          | false =>
              exact visible (x := []) (y := []) rfl rfl id hc hletter (fun _ => .inl rfl)
                (hrest _)

theorem of_lowercase_eq {w v : List Char} (h : lowercase v = lowercase w)
    (hascii : (lowercase w).all isAscii = true) : Restyled prev w v := by
  obtain ⟨hw, hweach⟩ := lowercase_of_isAscii hascii
  rw [← h] at hascii
  obtain ⟨hv, hveach⟩ := lowercase_of_isAscii hascii
  exact of_map_lowerChar (by rw [← hv, ← hw, h]) hweach hveach

/-- A spelling whose lower-case form is the key of a word restyles the word. -/
theorem of_lowercase_eq_key {w v : List Char} (hw : Trimmed w)
    (h : lowercase v = CaseTable.key w) (hascii : (CaseTable.key w).all isAscii = true) :
    Restyled prev w v := by
  obtain ⟨hkey, heach⟩ := unwords_map_lowercase hascii
  rw [← h] at hascii
  obtain ⟨hv, hveach⟩ := lowercase_of_isAscii hascii
  have hspelt : Restyled prev (unwords (words w)) v :=
    of_map_lowerChar (by rw [← hv, h, CaseTable.key, hkey]) heach hveach
  exact (unwords_words hw).trans hspelt Iff.rfl

end Restyled

namespace CaseTable

variable {table : CaseTable} {prev : Option Char}

theorem restyled_canonical (hwell : table.WellCased) {w : List Char} (hw : Trimmed w) :
    Restyled prev w ((table.canonical? w).getD w) := by
  cases h : table.canonical? w with
  | none => exact .refl prev w
  | some v =>
      have hmem := Assoc.mem_of_get? h
      exact .of_lowercase_eq_key hw (hwell.lowercase_spelling _ hmem) (hwell.key_isAscii _ hmem)

theorem Compiled.lowercase_member (hcompiled : table.Compiled) :
    ∀ o ∈ table.members, ∀ m ∈ o.2, m.1 = lowercase m.2 := by
  obtain ⟨schema, origin, fallback, rfl⟩ := hcompiled
  intro o ho m hm
  obtain ⟨object, -, -, hmembers⟩ := mem_membersOf ho
  exact (hmembers m hm).2

theorem restyled_canonicalMember (hcompiled : table.Compiled) (hwell : table.WellCased)
    (object member : List Char) :
    Restyled prev member ((table.canonicalMember? object member).getD member) := by
  cases h : table.canonicalMember? object member with
  | none => exact .refl prev member
  | some v =>
      rw [canonicalMember?, Option.bind_eq_some_iff] at h
      obtain ⟨members, hobject, hmember⟩ := h
      have ho := Assoc.mem_of_get? hobject
      have hm := Assoc.mem_of_get? hmember
      have hlower : lowercase member = lowercase v := hcompiled.lowercase_member _ ho _ hm
      refine .of_lowercase_eq hlower.symm ?_
      rw [hlower]
      exact isAscii_lowercaseOnto (hwell.member_isAscii _ ho _ hm)

end CaseTable

/-! ## The two passes -/

namespace Recasing

variable {table : CaseTable}

/-- A keyword that is found in code is a text without blanks at its ends. -/
theorem keywordLength?_eq_some {phrases : PhraseIndex} (hsearch : phrases.Searchable) {n : Nat}
    {before cs : List Char} (h : keywordLength? phrases before cs = some n) :
    ∃ c word rest, cs = c :: (word ++ rest) ∧ n = word.length + 1 ∧ Trimmed (c :: word) := by
  rw [keywordLength?] at h
  split at h
  · obtain ⟨e, he, p, hp, hfound⟩ := exists_of_findPhrase? h
    rw [Option.filter_eq_some_iff] at hfound
    exact phraseLength?_eq_some hfound.1 (hsearch e he p hp)
  · cases h

theorem restyled_keywordSpelling (hwell : table.WellCased) {prev : Option Char}
    (before : List Char) {w : List Char} (hw : Trimmed w) :
    Restyled prev w (keywordSpelling table before w) := by
  rw [keywordSpelling]
  split
  · exact .refl prev w
  · exact table.restyled_canonical hwell hw

theorem keywordsAfter_restyled (hcompiled : table.Compiled) (hwell : table.WellCased)
    (skip : Nat) (before out cs : List Char) :
    ∃ text, keywordsAfter table skip before out cs = out.reverse ++ text ∧
      ∀ prev, Restyled prev (cs.drop skip) text := by
  induction cs generalizing skip before out with
  | nil =>
      refine ⟨[], by simp [keywordsAfter], fun prev => ?_⟩
      rw [List.drop_nil]
      exact .nil
  | cons c cs ih =>
      cases skip with
      | succ skip =>
          rw [keywordsAfter, List.drop_succ_cons]
          exact ih skip (c :: before) out
      | zero =>
          rw [keywordsAfter, List.drop_zero]
          split
          · next n hfound =>
              obtain ⟨d, word, rest, hcs, hn, htrim⟩ :=
                keywordLength?_eq_some hcompiled.searchable.1 hfound
              obtain ⟨rfl, rfl⟩ := List.cons.inj hcs
              obtain rfl : n = word.length := by omega
              have htake : (c :: (word ++ rest)).take (word.length + 1) = c :: word := by simp
              rw [htake]
              set spelling := keywordSpelling table before (c :: word)
              obtain ⟨text, hwrite, hstyle⟩ :=
                ih word.length (c :: before) (spelling.reverse ++ out)
              rw [List.drop_left] at hstyle
              refine ⟨spelling ++ text, by rw [hwrite]; simp, fun prev => ?_⟩
              rw [← List.cons_append]
              exact (restyled_keywordSpelling hwell before htrim).append htrim.last (hstyle _)
          · obtain ⟨text, hwrite, hstyle⟩ := ih 0 (c :: before) (c :: out)
            exact ⟨c :: text, by rw [hwrite]; simp, fun prev => .keep (hstyle _)⟩

theorem keywords_restyled (hcompiled : table.Compiled) (hwell : table.WellCased)
    (code : List Char) : Restyled none code (keywords table code) := by
  obtain ⟨text, hwrite, hstyle⟩ := keywordsAfter_restyled hcompiled hwell 0 [] [] code
  rw [keywords, hwrite]
  exact hstyle none

/-- A member behind an object: a dot with blanks around it, and a word. -/
theorem memberAfter?_eq_some {object cs : List Char} {r : MemberRef}
    (h : memberAfter? object cs = some r) :
    r.object = object ∧ ∃ x y c tail rest, allBlank x = true ∧ allBlank y = true ∧
      isBlank c = false ∧ EndsVisible (c :: tail) ∧ r.link = x ++ '.' :: y ∧
      r.member = c :: tail ∧ cs = r.link ++ (r.member ++ rest) := by
  simp only [memberAfter?] at h
  split at h
  · next rest hdot =>
      split at h
      · next c tail hname =>
          split at h
          · next hstart =>
              obtain rfl := Option.some.inj h
              have hc := isBlank_of_startsMember hstart
              refine ⟨rfl, cs.takeWhile isBlank, rest.takeWhile isBlank, c,
                tail.takeWhile isWordChar, tail.dropWhile isWordChar, by simp, by simp, hc, ?_,
                rfl, rfl, ?_⟩
              · intro d hd
                rcases List.mem_cons.mp (List.mem_of_getLast? hd) with rfl | hd
                · exact hc
                · exact isBlank_of_isWordChar (List.mem_takeWhile_imp hd)
              · simp only [List.append_assoc, List.cons_append,
                  List.takeWhile_append_dropWhile]
                rw [← hname, List.takeWhile_append_dropWhile, ← hdot,
                  List.takeWhile_append_dropWhile]
          · cases h
      · cases h
  · cases h

theorem memberRef?_eq_some {objects : PhraseIndex} (hsearch : objects.Searchable)
    {before cs : List Char} {r : MemberRef} (h : memberRef? objects before cs = some r) :
    ∃ x y c tail rest, allBlank x = true ∧ allBlank y = true ∧ isBlank c = false ∧
      EndsVisible (c :: tail) ∧ r.link = x ++ '.' :: y ∧ r.member = c :: tail ∧
      r.object ≠ [] ∧ Trimmed r.object ∧ cs = r.object ++ (r.link ++ (r.member ++ rest)) := by
  rw [memberRef?] at h
  split at h
  · obtain ⟨e, he, p, hp, hfound⟩ := exists_of_findPhrase? h
    rw [Option.bind_eq_some_iff] at hfound
    obtain ⟨n, hlength, hmember⟩ := hfound
    obtain ⟨d, word, rest, rfl, rfl, htrim⟩ := phraseLength?_eq_some hlength (hsearch e he p hp)
    obtain ⟨hobject, x, y, c, tail, rest', hx, hy, hc, hlast, hlink, hname, hdrop⟩ :=
      memberAfter?_eq_some hmember
    have htake : (d :: (word ++ rest)).take (word.length + 1) = d :: word := by simp
    rw [htake] at hobject
    refine ⟨x, y, c, tail, rest', hx, hy, hc, hlast, hlink, hname, by simp [hobject],
      by rwa [hobject], ?_⟩
    rw [← hdrop, hobject]
    simp
  · cases h

theorem restyled_memberSpelling (hcompiled : table.Compiled) (hwell : table.WellCased)
    {prev : Option Char} {r : MemberRef} {x y tail : List Char} {c : Char}
    (hx : allBlank x = true) (hy : allBlank y = true) (hc : isBlank c = false)
    (hlink : r.link = x ++ '.' :: y) (hmember : r.member = c :: tail)
    (hobject : Trimmed r.object) :
    Restyled prev (r.object ++ (r.link ++ r.member)) (memberSpelling table r) := by
  rw [memberSpelling]
  set object := (table.canonical? r.object).getD r.object
  have hname : Restyled (some '.') (y ++ r.member)
      ([] ++ (table.canonicalMember? object r.member).getD r.member) := by
    rw [hmember]
    exact (table.restyled_canonicalMember hcompiled hwell object (c :: tail)).front hc hy rfl
      (by simp) (by simp)
  refine (table.restyled_canonical hwell hobject).append hobject.last ?_
  rw [hlink, List.append_assoc, List.cons_append]
  exact .visible (y := []) hx rfl (by simp) (by decide) rfl (by simp) hname

theorem membersAfter_restyled (hcompiled : table.Compiled) (hwell : table.WellCased)
    (skip : Nat) (before out cs : List Char) :
    ∃ text, membersAfter table skip before out cs = out.reverse ++ text ∧
      ∀ prev, Restyled prev (cs.drop skip) text := by
  induction cs generalizing skip before out with
  | nil =>
      refine ⟨[], by simp [membersAfter], fun prev => ?_⟩
      rw [List.drop_nil]
      exact .nil
  | cons c cs ih =>
      cases skip with
      | succ skip =>
          rw [membersAfter, List.drop_succ_cons]
          exact ih skip (c :: before) out
      | zero =>
          rw [membersAfter, List.drop_zero]
          split
          · next r hfound =>
              obtain ⟨x, y, d, tail, rest, hx, hy, hd, hlast, hlink, hmember, hne, htrim, hcs⟩ :=
                memberRef?_eq_some hcompiled.searchable.2 hfound
              obtain ⟨text, hwrite, hstyle⟩ :=
                ih (r.length - 1) (c :: before) ((memberSpelling table r).reverse ++ out)
              have hpos : 0 < r.length := by
                rw [MemberRef.length, hmember, List.length_cons]
                omega
              have hdrop : cs.drop (r.length - 1) = rest := by
                have hlen : r.length = (r.object ++ (r.link ++ r.member)).length := by
                  simp [MemberRef.length]
                  omega
                rw [← List.drop_succ_cons, Nat.sub_add_cancel hpos, hcs, hlen]
                simp [← List.append_assoc]
              rw [hdrop] at hstyle
              refine ⟨memberSpelling table r ++ text, by rw [hwrite]; simp, fun prev => ?_⟩
              have hword : c :: cs = (r.object ++ (r.link ++ r.member)) ++ rest := by
                rw [hcs]
                simp
              rw [hword]
              refine (restyled_memberSpelling hcompiled hwell hx hy hd hlink hmember
                htrim).append ?_ (hstyle _)
              rw [← List.append_assoc, hmember]
              exact endsVisible_append hlast (by simp)
          · obtain ⟨text, hwrite, hstyle⟩ := ih 0 (c :: before) (c :: out)
            exact ⟨c :: text, by rw [hwrite]; simp, fun prev => .keep (hstyle _)⟩

theorem members_restyled (hcompiled : table.Compiled) (hwell : table.WellCased)
    (code : List Char) : Restyled none code (members table code) := by
  obtain ⟨text, hwrite, hstyle⟩ := membersAfter_restyled hcompiled hwell 0 [] [] code
  rw [members, hwrite]
  exact hstyle none

end Recasing

end ClassicAsp
