import ClassicAsp.Proofs.Outlines

/-! # Phrases in texts with one outline

A phrase of a table takes a text whose outline is the phrase up to case. So texts with one outline
have the same phrases in the same places. -/

namespace ClassicAsp

open Text

/-- Every phrase of the index is its own outline. -/
def PhraseIndex.Tidy (index : PhraseIndex) : Prop := ∀ e ∈ index, ∀ p ∈ e.2, outline p = p

theorem CaseTable.Compiled.outline_key_eq {table : CaseTable} (hcompiled : table.Compiled)
    {e : List Char × List Char} (he : e ∈ table.spellings) (hascii : e.1.all isAscii = true) :
    outline e.1 = e.1 := by
  obtain ⟨schema, origin, fallback, rfl⟩ := hcompiled
  rcases mem_spellingsOf he with ⟨f, -, rfl⟩ | ⟨name, -, rfl⟩
  · exact outline_key hascii
  · exact outline_key hascii

theorem CaseTable.Compiled.tidy {table : CaseTable} (hcompiled : table.Compiled)
    (hwell : table.WellCased) : table.phrases.Tidy := by
  have houtline : ∀ e ∈ table.spellings, outline e.1 = e.1 := fun e he =>
    hcompiled.outline_key_eq he (hwell.key_isAscii e he)
  obtain ⟨schema, origin, fallback, rfl⟩ := hcompiled
  intro e he p hp
  obtain ⟨entry, hentry, rfl⟩ := List.mem_map.mp
    (mem_of_mem_searchOrder (PhraseIndex.mem_of_mem_ofPhrases he hp))
  exact houtline entry hentry

namespace Recasing

/-- What follows a space of a phrase that is its own outline. -/
theorem startsVisible_of_outline_space {p : List Char} (h : outline (' ' :: p) = ' ' :: p) :
    StartsVisible p ∧ outline p = p := by
  rw [outline] at h
  split at h
  · have := length_outline_le p
    rw [h, List.length_cons] at this
    omega
  · next hblank =>
      have hspace : isBlank ' ' = true := by decide
      rw [hspace, Bool.true_and, Bool.not_eq_true] at hblank
      exact ⟨hblank, (List.cons.inj h).2⟩

theorem isBlank_of_outline_cons {c : Char} {p : List Char} (hc : c ≠ ' ')
    (h : outline (c :: p) = c :: p) : isBlank c = false ∧ outline p = p := by
  have hblank : isBlank c = false := by
    by_contra hblank
    rw [Bool.not_eq_false] at hblank
    have hhead := congrArg List.head? h
    rw [head?_outline, List.head?_cons, Option.map_some, outlineChar, if_pos hblank,
      Option.some.injEq] at hhead
    exact hc hhead.symm
  rw [outline_cons_of_not hblank, List.cons.injEq] at h
  exact ⟨hblank, h.2⟩

/-- The phrase is the outline of the first `k` characters of a text, up to case, and these end
visibly. -/
def Takes (p cs : List Char) (k : Nat) : Prop :=
  ∃ word rest, cs = word ++ rest ∧ k = word.length ∧ EndsVisible word ∧
    (outline word).map foldCase = p.map foldCase

theorem takes_nil (cs : List Char) (k : Nat) : Takes [] cs k ↔ k = 0 := by
  constructor
  · rintro ⟨word, rest, -, rfl, -, hword⟩
    rw [outline_eq_nil_iff.mp (List.map_eq_nil_iff.mp hword)]
    rfl
  · rintro rfl
    exact ⟨[], cs, rfl, rfl, by simp [EndsVisible], rfl⟩

theorem Takes.exists_cons {q : Char} {qs cs : List Char} {k : Nat} (h : Takes (q :: qs) cs k) :
    ∃ c rest, cs = c :: rest ∧ foldCase (outlineChar c) = foldCase q := by
  obtain ⟨word, rest, rfl, -, -, hword⟩ := h
  have hhead := congrArg List.head? hword
  rw [List.head?_map, head?_outline, Option.map_map, List.map_cons, List.head?_cons,
    Option.map_eq_some_iff] at hhead
  obtain ⟨c, hc, hfold⟩ := hhead
  obtain ⟨tail, rfl⟩ := List.head?_eq_some_iff.mp hc
  exact ⟨c, tail ++ rest, rfl, hfold⟩

/-- A letter of a phrase takes one character. -/
theorem takes_letter {q c : Char} (hc : isBlank c = false) (hsame : sameLetter q c = true)
    (qs cs : List Char) (k : Nat) :
    Takes (q :: qs) (c :: cs) k ↔ ∃ j, k = j + 1 ∧ Takes qs cs j := by
  have hletter : foldCase q = foldCase c := beq_iff_eq.mp hsame
  constructor
  · rintro ⟨word, rest, hcs, rfl, hvisible, hword⟩
    cases word with
    | nil => simp at hword
    | cons d word =>
        obtain ⟨rfl, rfl⟩ := List.cons.inj hcs
        rw [outline_cons_of_not hc, List.map_cons, List.map_cons, List.cons.injEq] at hword
        exact ⟨word.length, rfl, word, rest, rfl, rfl, EndsVisible.of_append (a := [c]) hvisible,
          hword.2⟩
  · rintro ⟨_, rfl, word, rest, rfl, rfl, hvisible, hword⟩
    refine ⟨c :: word, rest, rfl, rfl, endsVisible_cons hc hvisible, ?_⟩
    rw [outline_cons_of_not hc, List.map_cons, List.map_cons, hword, foldCase_plain, hletter]

/-- A space of a phrase takes a run of blanks. -/
theorem takes_gap {p gap cs : List Char} (hp : p ≠ []) (hgap : allBlank gap = true)
    (hne : gap ≠ []) (hcs : StartsVisible cs) (k : Nat) :
    Takes (' ' :: p) (gap ++ cs) k ↔ ∃ j, k = gap.length + j ∧ Takes p cs j := by
  constructor
  · rintro ⟨word, rest, htext, rfl, hvisible, hword⟩
    have hword' : word ≠ [] := by
      rintro rfl
      simp at hword
    obtain ⟨gap', d, ds, rfl, hgap', hd⟩ := exists_visible hvisible hword'
    have hstart : StartsVisible (d :: ds ++ rest) := hd
    have hsplit : ∀ {x a : List Char}, allBlank x = true → StartsVisible a →
        (x ++ a).takeWhile isBlank = x := fun hx ha => takeWhile_append_eq (allBlank_iff.mp hx) ha
    rw [List.append_assoc] at htext
    obtain rfl : gap = gap' := by rw [← hsplit hgap hcs, htext, hsplit hgap' hstart]
    rw [outline_append (.inr (show StartsVisible (d :: ds) from hd)),
      outline_of_allBlank hgap hne] at hword
    exact ⟨(d :: ds).length, List.length_append, d :: ds, rest, List.append_cancel_left htext, rfl,
      EndsVisible.of_append hvisible, (List.cons.inj hword).2⟩
  · rintro ⟨_, rfl, word, rest, rfl, rfl, hvisible, hword⟩
    have hword' : word ≠ [] := by
      rintro rfl
      exact hp (by simpa [eq_comm] using hword)
    have hstart : StartsVisible word := by
      obtain ⟨d, word, rfl⟩ := List.exists_cons_of_ne_nil hword'
      exact hcs
    refine ⟨gap ++ word, rest, (List.append_assoc ..).symm, List.length_append.symm,
      endsVisible_append hvisible hword', ?_⟩
    rw [outline_append (.inr hstart), outline_of_allBlank hgap hne, List.map_append, hword]
    rfl

/-- A phrase that is its own outline takes a text whose outline is the phrase up to case. -/
theorem phraseLengthFrom?_eq_some_iff {p : List Char} (hp : outline p = p) (hend : EndsVisible p)
    (n m : Nat) (cs : List Char) :
    phraseLengthFrom? n p cs = some m ↔ ∃ k, m = n + k ∧ Takes p cs k := by
  fun_induction phraseLengthFrom? n p cs with
  | case1 n cs => simp [takes_nil, eq_comm]
  | case2 n q qs =>
      refine iff_of_false (by simp) ?_
      rintro ⟨k, -, htakes⟩
      obtain ⟨c, rest, hcs, -⟩ := htakes.exists_cons
      cases hcs
  | case3 n rest c cs hblank =>
      have := (startsVisible_of_outline_space hp).1
      rw [StartsVisible, hblank] at this
      cases this
  | case4 n rest c cs hblank run hrun =>
      have hc : isBlank c = false := by
        by_contra hc
        simp [run, hc] at hrun
      refine iff_of_false (by simp) ?_
      rintro ⟨k, -, htakes⟩
      obtain ⟨d, rest', hcs, hfold⟩ := htakes.exists_cons
      obtain ⟨rfl, -⟩ := List.cons.inj hcs
      rw [outlineChar_of_not hc, foldCase_plain, foldCase_of_isCaseless isCaseless_space] at hfold
      rw [eq_of_foldCase_eq isCaseless_space hfold] at hc
      exact absurd hc (by decide)
  | case5 n rest c cs hblank run hrun ih =>
      have hrest : rest ≠ [] := by
        rintro rfl
        exact absurd (hend ' ' rfl) (by decide)
      have hgap : (c :: cs).takeWhile isBlank ≠ [] := fun hnil => hrun (by simp [run, hnil])
      have hback : StartsVisible ((c :: cs).drop run) := by
        rw [drop_length_takeWhile]
        exact startsVisible_iff.mpr fun d hd => isBlank_head_trimStart hd
      have htext : c :: cs = (c :: cs).takeWhile isBlank ++ (c :: cs).drop run := by
        rw [drop_length_takeWhile, List.takeWhile_append_dropWhile]
      rw [ih (startsVisible_of_outline_space hp).2 (EndsVisible.of_append (a := [' ']) hend)]
      nth_rewrite 2 [htext]
      simp only [takes_gap hrest (allBlank_takeWhile _) hgap hback]
      constructor
      · rintro ⟨k, rfl, htakes⟩
        exact ⟨run + k, by omega, k, rfl, htakes⟩
      · rintro ⟨_, rfl, k, rfl, htakes⟩
        exact ⟨k, by omega, htakes⟩
  | case6 n q qs c cs hspace hsame ih =>
      obtain ⟨hq, hqs⟩ := isBlank_of_outline_cons hspace hp
      have hc : isBlank c = false := by
        by_contra hc
        rw [isBlank_of_sameLetter hsame (by simpa using hc)] at hq
        cases hq
      rw [ih hqs (EndsVisible.of_append (a := [q]) hend)]
      simp only [takes_letter hc hsame]
      constructor
      · rintro ⟨k, rfl, htakes⟩
        exact ⟨k + 1, by omega, k, rfl, htakes⟩
      · rintro ⟨_, rfl, k, rfl, htakes⟩
        exact ⟨k, by omega, htakes⟩
  | case7 n q qs c cs hspace hsame =>
      refine iff_of_false (by simp) ?_
      rintro ⟨k, -, htakes⟩
      obtain ⟨d, rest, hcs, hfold⟩ := htakes.exists_cons
      obtain ⟨rfl, -⟩ := List.cons.inj hcs
      rw [outlineChar] at hfold
      split at hfold
      · rw [foldCase_of_isCaseless isCaseless_space] at hfold
        exact hspace (eq_of_foldCase_eq isCaseless_space hfold.symm)
      · rw [foldCase_plain] at hfold
        exact hsame (beq_iff_eq.mpr hfold.symm)

theorem phraseLength?_eq_some_iff {p : List Char} (hp : outline p = p) (hend : EndsVisible p)
    (n : Nat) (cs : List Char) : phraseLength? p cs = some n ↔ Takes p cs n := by
  simp [phraseLength?, phraseLengthFrom?_eq_some_iff hp hend]

/-- A cut of a text and one of another text at the same place of one outline. -/
structure SameCut (cs cs' : List Char) (n n' : Nat) : Prop where
  taken : outline (cs.take n) = outline (cs'.take n')
  left : outline (cs.drop n) = outline (cs'.drop n')
  visible : EndsVisible (cs.take n)
  visible' : EndsVisible (cs'.take n')

section

variable {cs cs' : List Char} {n n' : Nat}

theorem head?_foldCase_of_outline (h : outline cs = outline cs') (hcs : StartsVisible cs) :
    cs.head?.map foldCase = cs'.head?.map foldCase := by
  have hfold : ∀ cs, StartsVisible cs →
      (outline cs).head?.map foldCase = cs.head?.map foldCase := by
    intro cs hcs
    rw [head?_outline]
    cases cs with
    | nil => rfl
    | cons c cs =>
        have hc : isBlank c = false := startsVisible_iff.mp hcs c rfl
        rw [List.head?_cons, Option.map_some, outlineChar_of_not hc, Option.map_some,
          foldCase_plain, Option.map_some]
  rw [← hfold cs hcs, h, hfold cs' ((startsVisible_iff_of_outline h).mp hcs)]

theorem isWordChar_head_of_outline (h : outline cs = outline cs') :
    cs.head?.any isWordChar = cs'.head?.any isWordChar := by
  have hhead := congrArg (Option.any isWordChar) (congrArg List.head? h)
  simpa only [head?_outline, Option.any_map, isWordChar_outlineChar] using hhead

theorem isWordChar_getLast_of_outline (h : outline cs = outline cs') :
    cs.getLast?.any isWordChar = cs'.getLast?.any isWordChar := by
  have hlast := congrArg (Option.any isWordChar) (congrArg List.getLast? h)
  simpa only [getLast?_outline, Option.any_map, isWordChar_outlineChar] using hlast

theorem isWordChar_getLast_of_plain (h : cs.map plain = cs'.map plain) :
    cs.getLast?.any isWordChar = cs'.getLast?.any isWordChar := by
  refine isWordChar_getLast_of_outline ?_
  rw [← outline_map_plain, h, outline_map_plain]

theorem SameCut.isBoundaryAt_eq (h : SameCut cs cs' n n') :
    isBoundaryAt n cs = isBoundaryAt n' cs' := by
  rw [isBoundaryAt, isBoundary, isWordChar_getLast_of_outline h.taken,
    isWordChar_head_of_outline h.left, isBoundaryAt, isBoundary]

theorem exists_phraseLength? {p : List Char} (hp : outline p = p) (hend : EndsVisible p)
    (h : outline cs = outline cs') (hn : phraseLength? p cs = some n) :
    ∃ n', phraseLength? p cs' = some n' ∧ SameCut cs cs' n n' := by
  rw [phraseLength?_eq_some_iff hp hend] at hn
  obtain ⟨word, rest, rfl, rfl, hvisible, hword⟩ := hn
  rw [outline_append (.inl hvisible)] at h
  have hvisible' : EndsVisible (outline word) :=
    endsVisible_of_outline (outline_outline word) hvisible
  obtain ⟨word', rest', rfl, hends, hfront, hback⟩ := exists_of_outline_eq_append h.symm hvisible'
  refine ⟨word'.length, ?_, ?_, ?_, ?_, ?_⟩
  · rw [phraseLength?_eq_some_iff hp hend]
    exact ⟨word', rest', rfl, rfl, hends, by rw [hfront, hword]⟩
  · rw [List.take_left, List.take_left, hfront]
  · rw [List.drop_left, List.drop_left, hback]
  · rwa [List.take_left]
  · rwa [List.take_left]

theorem phraseLength?_rel {p : List Char} (hp : outline p = p) (hend : EndsVisible p)
    (h : outline cs = outline cs') :
    Option.Rel (SameCut cs cs') (phraseLength? p cs) (phraseLength? p cs') := by
  cases hn : phraseLength? p cs with
  | some n =>
      obtain ⟨n', hn', hcut⟩ := exists_phraseLength? hp hend h hn
      rw [hn']
      exact .some hcut
  | none =>
      cases hn' : phraseLength? p cs' with
      | none => exact .none
      | some n' =>
          obtain ⟨n, hn'', -⟩ := exists_phraseLength? hp hend h.symm hn'
          rw [hn] at hn''
          cases hn''

theorem findSome?_rel {α β γ : Type} {R : β → γ → Prop} {f : α → Option β} {g : α → Option γ}
    {xs : List α} (h : ∀ x ∈ xs, Option.Rel R (f x) (g x)) :
    Option.Rel R (xs.findSome? f) (xs.findSome? g) := by
  induction xs with
  | nil => exact .none
  | cons x xs ih =>
      have hx := h x (by simp)
      rw [List.findSome?_cons, List.findSome?_cons]
      generalize f x = y, g x = z at hx
      cases hx with
      | some hr => exact .some hr
      | none => exact ih fun y hy => h y (by simp [hy])

theorem filter_rel {α β : Type} {R : α → β → Prop} {x : Option α} {y : Option β} {p : α → Bool}
    {q : β → Bool} (h : Option.Rel R x y) (hpq : ∀ a b, R a b → p a = q b) :
    Option.Rel R (x.filter p) (y.filter q) := by
  cases h with
  | none => exact .none
  | @some a b hr =>
      rw [Option.filter_some, Option.filter_some, hpq a b hr]
      split
      · exact .some hr
      · exact .none

/-- The phrases of an index are found at the same places of texts with one outline. -/
theorem keywordLength?_rel {index : PhraseIndex} (hsearch : index.Searchable) (htidy : index.Tidy)
    {before before' : List Char}
    (hbefore : before.head?.any isWordChar = before'.head?.any isWordChar)
    (hhead : cs.head?.map foldCase = cs'.head?.map foldCase) (h : outline cs = outline cs') :
    Option.Rel (SameCut cs cs') (keywordLength? index before cs)
      (keywordLength? index before' cs') := by
  rw [keywordLength?, keywordLength?, isBoundary, isBoundary, hbefore, isWordChar_head_of_outline h]
  split
  · have hfind : ∀ (cs : List Char) (found : List Char → Option Nat), findPhrase? index cs found =
        (cs.head?.map foldCase).bind fun c => ((index.get? c).getD []).findSome? found := by
      intro cs found
      cases cs <;> rfl
    rw [hfind, hfind, hhead]
    cases cs'.head?.map foldCase with
    | none => exact .none
    | some letter =>
        refine findSome?_rel fun p hp => ?_
        cases hget : index.get? letter with
        | none => simp [hget] at hp
        | some phrases =>
            rw [hget, Option.getD_some] at hp
            have hmem := Assoc.mem_of_get? hget
            have hend : EndsVisible p :=
              CaseTable.endsVisible_of_isSearchable (hsearch _ hmem p hp)
            exact filter_rel (phraseLength?_rel (htidy _ hmem p hp) hend h) fun _ _ hcut =>
              hcut.isBoundaryAt_eq
  · exact .none

end

end Recasing

end ClassicAsp
