import ClassicAsp.Proofs.SettledMembers

/-! # Recasing twice is recasing once

Recasing is the pass over references and then the pass over keywords. The second time, the first
pass may write back some letters that the keywords changed. These letters belong to phrases that
the second pass spells again, so that the result is the same. -/

namespace ClassicAsp.Recasing

open Text CaseTable

/-! ## Texts between two texts -/

/-- The visible characters of a text. -/
def glyphs (cs : List Char) : List Char := cs.filter (!isBlank ·)

/-- The third text has the blanks of the second one. Each of its visible characters is that of the
second text or that of the first one, which is given by its visible characters, and these two
differ in ASCII case only. -/
inductive Between : List Char → List Char → List Char → Prop where
  | nil : Between [] [] []
  | blank {c gs u v} (hc : isBlank c = true) : Between gs u v → Between gs (c :: u) (c :: v)
  | letter {g d e gs u v} (hd : isBlank d = false) (hplain : plain g = plain d)
      (he : e = g ∨ e = d) : Between gs u v → Between (g :: gs) (d :: u) (e :: v)

@[simp] theorem glyphs_append (a b : List Char) : glyphs (a ++ b) = glyphs a ++ glyphs b := by
  simp [glyphs]

theorem glyphs_cons_of_isBlank {c : Char} (h : isBlank c = true) (cs : List Char) :
    glyphs (c :: cs) = glyphs cs := by
  simp [glyphs, h]

theorem glyphs_cons_of_not {c : Char} (h : isBlank c = false) (cs : List Char) :
    glyphs (c :: cs) = c :: glyphs cs := by
  simp [glyphs, h]

theorem glyphs_of_visible {cs : List Char} (h : ∀ c ∈ cs, isBlank c = false) : glyphs cs = cs := by
  rw [glyphs, List.filter_eq_self]
  intro c hc
  simp [h c hc]

theorem glyphs_of_allBlank {cs : List Char} (h : allBlank cs = true) : glyphs cs = [] := by
  rw [glyphs, List.filter_eq_nil_iff]
  intro c hc
  simp [allBlank_iff.mp h c hc]

/-- A text has as many visible characters as its outline. -/
theorem glyphs_outline (cs : List Char) : glyphs (outline cs) = (glyphs cs).map plain := by
  induction cs with
  | nil => rfl
  | cons c cs ih =>
      rw [outline]
      cases hc : isBlank c with
      | true =>
          rw [glyphs_cons_of_isBlank hc, ← ih]
          split
          · rfl
          · rw [glyphs_cons_of_isBlank (by rw [isBlank_outlineChar, hc])]
      | false =>
          rw [Bool.false_and, if_neg Bool.false_ne_true, outlineChar_of_not hc,
            glyphs_cons_of_not (by rw [isBlank_plain, hc]), glyphs_cons_of_not hc, ih]
          rfl

theorem length_glyphs_of_outline {a b : List Char} (h : outline a = outline b) :
    (glyphs a).length = (glyphs b).length := by
  rw [← List.length_map plain, ← glyphs_outline, h, glyphs_outline, List.length_map]

namespace Between

variable {gs gs' u v w : List Char}

theorem outline_eq (h : Between gs u v) : outline v = outline u := by
  induction h with
  | nil => rfl
  | blank _ _ ih => exact outline_cons_congr ih _
  | @letter g d e gs u v hd hplain he _ ih =>
      have heq : plain e = plain d := by
        rcases he with rfl | rfl
        · exact hplain
        · rfl
      have hblank : isBlank e = false := by rw [← isBlank_plain, heq, isBlank_plain, hd]
      rw [outline_cons_of_not hblank, outline_cons_of_not hd, heq, ih]

theorem exists_of_isBlank {c : Char} (hc : isBlank c = true) (h : Between gs (c :: u) w) :
    ∃ v, w = c :: v ∧ Between gs u v := by
  cases h with
  | blank _ hrest => exact ⟨_, rfl, hrest⟩
  | letter hd => rw [hc] at hd; cases hd

theorem exists_of_not {g d : Char} (hd : isBlank d = false) (h : Between (g :: gs) (d :: u) w) :
    ∃ e v, w = e :: v ∧ plain g = plain d ∧ (e = g ∨ e = d) ∧ Between gs u v := by
  cases h with
  | blank hc => rw [hd] at hc; cases hc
  | letter _ hplain he hrest => exact ⟨_, _, rfl, hplain, he, hrest⟩

/-- A text between two texts is cut where the second one is. -/
theorem exists_append {s : List Char} (hlength : gs.length = (glyphs s).length)
    (h : Between (gs ++ gs') (s ++ u) w) :
    ∃ s' v, w = s' ++ v ∧ Between gs s s' ∧ Between gs' u v := by
  induction s generalizing gs w with
  | nil =>
      obtain rfl : gs = [] := List.eq_nil_of_length_eq_zero hlength
      exact ⟨[], w, rfl, .nil, h⟩
  | cons c s ih =>
      cases hc : isBlank c with
      | true =>
          rw [glyphs_cons_of_isBlank hc] at hlength
          obtain ⟨w, rfl, hrest⟩ := h.exists_of_isBlank hc
          obtain ⟨s', v, rfl, hs, hv⟩ := ih hlength hrest
          exact ⟨c :: s', v, rfl, .blank hc hs, hv⟩
      | false =>
          rw [glyphs_cons_of_not hc, List.length_cons] at hlength
          obtain ⟨g, gs, rfl⟩ := List.exists_cons_of_length_eq_add_one hlength
          obtain ⟨e, w, rfl, hplain, he, hrest⟩ := h.exists_of_not hc
          obtain ⟨s', v, rfl, hs, hv⟩ := ih (by simpa using hlength) hrest
          exact ⟨e :: s', v, rfl, .letter hc hplain he hs, hv⟩

/-- Between a text and itself there is only the text. -/
theorem eq_self (h : Between (glyphs u) u v) : v = u := by
  induction u generalizing v with
  | nil =>
      cases h with
      | nil => rfl
  | cons c u ih =>
      cases hc : isBlank c with
      | true =>
          rw [glyphs_cons_of_isBlank hc] at h
          obtain ⟨v, rfl, hrest⟩ := h.exists_of_isBlank hc
          rw [ih hrest]
      | false =>
          rw [glyphs_cons_of_not hc] at h
          obtain ⟨e, v, rfl, -, he, hrest⟩ := h.exists_of_not hc
          rw [ih hrest, or_self_iff.mp he]

/-- A word, or a plainly equal one, may stand in front. -/
theorem word_append {word word' spelling : List Char} (hword : ∀ c ∈ word', isBlank c = false)
    (hplain : word'.map plain = word.map plain) (hspelling : spelling = word ∨ spelling = word')
    (h : Between gs u v) : Between (word ++ gs) (word' ++ u) (spelling ++ v) := by
  induction word generalizing word' spelling with
  | nil =>
      obtain rfl : word' = [] := by simpa using hplain
      obtain rfl : spelling = [] := or_self_iff.mp hspelling
      exact h
  | cons g word ih =>
      obtain ⟨d, word', rfl, hd, hrest⟩ := List.map_eq_cons_iff.mp hplain
      have hblank := hword d (by simp)
      have hrest' := fun c hc => hword c (List.mem_cons_of_mem d hc)
      rcases hspelling with rfl | rfl
      · exact .letter hblank hd.symm (.inl rfl) (ih hrest' hrest (.inl rfl))
      · exact .letter hblank hd.symm (.inr rfl) (ih hrest' hrest (.inr rfl))

end Between

/-! ## The pass over keywords -/

/-- After texts that end so, keywords are found and spelt in the same way. -/
structure SameEnd (before before' : List Char) : Prop where
  word : before.head?.any isWordChar = before'.head?.any isWordChar
  dot : endsWithDot before = endsWithDot before'

theorem SameEnd.cons {before before' : List Char} (h : SameEnd before before') (c : Char) :
    SameEnd (c :: before) (c :: before') where
  word := rfl
  dot := by
    have hdot := h.dot
    rw [endsWithDot, endsWithDot] at hdot ⊢
    rw [List.dropWhile_cons, List.dropWhile_cons]
    split
    · exact hdot
    · rfl

/-- After words with one outline, keywords are found and spelt in the same way. -/
theorem sameEnd_of_outline {w w' : List Char} (h : outline w = outline w') (hw : EndsVisible w)
    (hne : w ≠ []) (before before' : List Char) :
    SameEnd (w.reverse ++ before) (w'.reverse ++ before') := by
  have hlast := congrArg List.getLast? h
  rw [getLast?_outline, getLast?_outline, List.getLast?_eq_head?_reverse,
    List.getLast?_eq_head?_reverse] at hlast
  obtain ⟨c, rest, hrev⟩ := List.exists_cons_of_ne_nil (List.reverse_ne_nil_iff.mpr hne)
  have hc : isBlank c = false := hw c (by rw [List.getLast?_eq_head?_reverse, hrev]; rfl)
  rw [hrev, List.head?_cons, Option.map_some, eq_comm, Option.map_eq_some_iff] at hlast
  obtain ⟨c', hhead, hface⟩ := hlast
  obtain ⟨rest', hrev'⟩ := List.head?_eq_some_iff.mp hhead
  have hc' : isBlank c' = false := by rw [← isBlank_outlineChar, hface, isBlank_outlineChar, hc]
  rw [outlineChar_of_not hc, outlineChar_of_not hc'] at hface
  rw [hrev, hrev', List.cons_append, List.cons_append]
  constructor
  · rw [List.head?_cons, List.head?_cons, Option.any_some, Option.any_some, ← isWordChar_plain,
      ← hface, isWordChar_plain]
  · have hdot : ∀ {d d' : Char}, plain d = plain d' → d = '.' → d' = '.' := by
      rintro d d' heq rfl
      exact eq_dot_of_plain (heq.symm.trans (by decide))
    rw [endsWithDot, endsWithDot, List.dropWhile_cons_of_neg (by simp [hc]),
      List.dropWhile_cons_of_neg (by simp [hc']), Bool.eq_iff_iff]
    simp only [List.head?_cons, beq_iff_eq, Option.some.injEq]
    exact ⟨hdot hface.symm, hdot hface⟩

/-- A run over a text after the reversed text `before`: what it reads, and what it writes. -/
inductive KeywordsRun (t : CaseTable) : List Char → List Char → List Char → Prop where
  | nil (before) : KeywordsRun t before [] []
  | copy {before c cs out} (h : keywordLength? t.phrases before (c :: cs) = none) :
      KeywordsRun t (c :: before) cs out → KeywordsRun t before (c :: cs) (c :: out)
  | phrase {before word rest out}
      (h : keywordLength? t.phrases before (word ++ rest) = some word.length) (hne : word ≠ [])
      (htrim : Trimmed word) : KeywordsRun t (word.reverse ++ before) rest out →
      KeywordsRun t before (word ++ rest) (keywordSpelling t before word ++ out)

section

variable {t : CaseTable} {before cs out : List Char}

theorem keywordsAfter_of_word {word rest : List Char}
    (h : keywordLength? t.phrases before (word ++ rest) = some word.length) (hne : word ≠ []) :
    keywordsAfter t 0 before [] (word ++ rest) = keywordSpelling t before word ++
      keywordsAfter t 0 (word.reverse ++ before) [] rest := by
  obtain ⟨c, tail, rfl⟩ := List.exists_cons_of_ne_nil hne
  rw [List.cons_append] at h ⊢
  rw [keywordsAfter_of_some (by simp) h, ← List.cons_append, List.take_left, List.drop_left]

theorem KeywordsRun.execution (h : KeywordsRun t before cs out) :
    keywordsAfter t 0 before [] cs = out := by
  induction h with
  | nil => rfl
  | copy h _ ih => rw [keywordsAfter_of_none h, ih]
  | phrase h hne _ _ ih => rw [keywordsAfter_of_word h hne, ih]

theorem keywordsRun (hcompiled : t.Compiled) (before cs : List Char) :
    KeywordsRun t before cs (keywordsAfter t 0 before [] cs) := by
  induction hn : cs.length using Nat.strongRecOn generalizing before cs with
  | _ n ih =>
      cases hfound : keywordLength? t.phrases before cs with
      | some k =>
          obtain ⟨c, word, rest, rfl, rfl, htrim⟩ :=
            keywordLength?_eq_some hcompiled.searchable.1 hfound
          rw [← List.cons_append] at hfound hn ⊢
          rw [← List.length_cons (a := c)] at hfound
          rw [keywordsAfter_of_word hfound (by simp)]
          refine .phrase hfound (by simp) htrim (ih _ ?_ _ rest rfl)
          rw [← hn, List.length_append, List.length_cons]
          omega
      | none =>
          cases cs with
          | nil => exact .nil before
          | cons c cs =>
              rw [keywordsAfter_of_none hfound]
              refine .copy hfound (ih _ ?_ _ cs rfl)
              rw [← hn, List.length_cons]
              omega

theorem outline_keywordSpelling (hwell : t.WellCased) {w : List Char} (hw : Trimmed w)
    (before : List Char) : outline (keywordSpelling t before w) = outline w := by
  rw [keywordSpelling]
  split
  · rfl
  · exact outline_canonical hwell hw

theorem KeywordsRun.outline_eq (hwell : t.WellCased) (h : KeywordsRun t before cs out) :
    outline out = outline cs := by
  induction h with
  | nil => rfl
  | copy _ _ ih => exact outline_cons_congr ih _
  | @phrase before word rest out _ _ htrim _ ih =>
      have hspelling := outline_keywordSpelling hwell htrim before
      rw [outline_append (.inl htrim.last),
        outline_append (.inl (endsVisible_of_outline hspelling htrim.last)), hspelling, ih]

/-- A phrase is found in a text with the same outline. -/
theorem keywordLength?_of_outline (hcompiled : t.Compiled) (hwell : t.WellCased)
    {before' word word' rest rest' : List Char} (hbefore : SameEnd before before')
    (h : keywordLength? t.phrases before (word ++ rest) = some word.length) (htrim : Trimmed word)
    (hword : outline word' = outline word) (hrest : outline rest' = outline rest) :
    keywordLength? t.phrases before' (word' ++ rest') = some word'.length := by
  have hends : EndsVisible word' := endsVisible_of_outline hword htrim.last
  have houtline : outline (word ++ rest) = outline (word' ++ rest') := by
    rw [outline_append (.inl htrim.last), outline_append (.inl hends), hword, hrest]
  have hhead : (word ++ rest).head?.map foldCase = (word' ++ rest').head?.map foldCase := by
    refine head?_foldCase_of_outline houtline ?_
    obtain ⟨c, tail, back, hcs, -, hvisible⟩ := keywordLength?_eq_some hcompiled.searchable.1 h
    rw [hcs]
    exact hvisible.head c rfl
  have hrel := keywordLength?_rel hcompiled.searchable.1 (hcompiled.tidy hwell) hbefore.word hhead
    houtline
  rw [h] at hrel
  cases hfound : keywordLength? t.phrases before' (word' ++ rest') with
  | none =>
      rw [hfound] at hrel
      cases hrel
  | some n =>
      rw [hfound] at hrel
      cases hrel with
      | some hcut =>
          obtain ⟨d, tail', back', hcs', rfl, -⟩ :=
            keywordLength?_eq_some hcompiled.searchable.1 hfound
          have htake : (word' ++ rest').take (tail'.length + 1) = d :: tail' := by
            rw [hcs', ← List.cons_append, ← List.length_cons (a := d), List.take_left]
          have htaken := hcut.taken
          have hvisible := hcut.visible'
          rw [htake] at hvisible
          rw [List.take_left, htake, ← hword] at htaken
          obtain ⟨rfl, -⟩ := eq_of_append_of_outline (hcs'.trans (List.cons_append ..).symm) hends
            hvisible htaken
          rfl

/-- No phrase is found where none is found in a text with the same outline and first character. -/
theorem keywordLength?_eq_none_of_outline (hcompiled : t.Compiled) (hwell : t.WellCased)
    {before' cs' : List Char} {c : Char} (hbefore : SameEnd before before')
    (h : keywordLength? t.phrases before (c :: cs) = none) (houtline : outline cs' = outline cs) :
    keywordLength? t.phrases before' (c :: cs') = none := by
  have hrel := keywordLength?_rel hcompiled.searchable.1 (hcompiled.tidy hwell) hbefore.word
    (show (c :: cs).head?.map foldCase = (c :: cs').head?.map foldCase from rfl)
    (outline_cons_congr houtline.symm c)
  rw [h] at hrel
  cases hfound : keywordLength? t.phrases before' (c :: cs') with
  | none => rfl
  | some n =>
      rw [hfound] at hrel
      cases hrel

/-- What is between a phrase and its spelling has the same spelling. -/
theorem keywordSpelling_between {before' word word' : List Char} (hbefore : SameEnd before before')
    (hword : outline word' = outline word)
    (h : Between (glyphs word) (keywordSpelling t before word) word') :
    keywordSpelling t before' word' = keywordSpelling t before word := by
  rw [keywordSpelling] at h
  rw [keywordSpelling, keywordSpelling, ← hbefore.dot, canonical?_eq_of_outline hword]
  split at h
  · next hdot => rw [if_pos hdot, if_pos hdot, h.eq_self]
  · next hdot =>
      rw [if_neg hdot, if_neg hdot]
      cases hspelling : t.canonical? word with
      | some spelling => rfl
      | none =>
          rw [hspelling] at h
          exact h.eq_self

theorem trimmed_of_outline {w w' : List Char} (h : outline w' = outline w) (hw : Trimmed w) :
    Trimmed w' where
  head := by
    rw [← startsVisible_iff, startsVisible_iff_of_outline h]
    exact startsVisible_iff.mpr hw.head
  last := endsVisible_of_outline h hw.last

/-- A text between the text of a run and its result has the same result. -/
theorem KeywordsRun.between (hcompiled : t.Compiled) (hwell : t.WellCased)
    (h : KeywordsRun t before cs out) {before' v : List Char} (hbefore : SameEnd before before')
    (hv : Between (glyphs cs) out v) : KeywordsRun t before' v out := by
  induction h generalizing before' v with
  | nil =>
      cases hv with
      | nil => exact .nil before'
  | @copy before c cs out hnone hrun ih =>
      obtain ⟨v, rfl, hrest⟩ : ∃ v', v = c :: v' ∧ Between (glyphs cs) out v' := by
        cases hc : isBlank c with
        | true =>
            rw [glyphs_cons_of_isBlank hc] at hv
            exact hv.exists_of_isBlank hc
        | false =>
            rw [glyphs_cons_of_not hc] at hv
            obtain ⟨e, v, rfl, -, he, hrest⟩ := hv.exists_of_not hc
            exact ⟨v, by rw [or_self_iff.mp he], hrest⟩
      have houtline : outline v = outline cs := hrest.outline_eq.trans (hrun.outline_eq hwell)
      exact .copy (keywordLength?_eq_none_of_outline hcompiled hwell hbefore hnone houtline)
        (ih (hbefore.cons c) hrest)
  | @phrase before word rest out hfound hne htrim hrun ih =>
      have hspelling := outline_keywordSpelling (t := t) hwell htrim before
      rw [glyphs_append] at hv
      obtain ⟨word', v, rfl, hword, hv⟩ :=
        hv.exists_append (length_glyphs_of_outline hspelling.symm)
      have houtline : outline word' = outline word := hword.outline_eq.trans hspelling
      have hrest : outline v = outline rest := hv.outline_eq.trans (hrun.outline_eq hwell)
      have hne' : word' ≠ [] := fun hnil =>
        hne (outline_eq_nil_iff.mp (by rw [← houtline, hnil]; rfl))
      have hrun' := KeywordsRun.phrase
        (keywordLength?_of_outline hcompiled hwell hbefore hfound htrim houtline hrest) hne'
        (trimmed_of_outline houtline htrim)
        (ih (sameEnd_of_outline houtline.symm htrim.last hne before before') hv)
      rwa [keywordSpelling_between hbefore houtline hword] at hrun'

end

/-! ## The pass over references -/

theorem getD_eq_or {α : Type} {found : Option α} {a : α} (h : found.getD a = a) (b : α) :
    found.getD b = a ∨ found.getD b = b := by
  cases found with
  | none => exact .inr rfl
  | some c => exact .inl h

section

variable {t : CaseTable} (hcompiled : t.Compiled) (hwell : t.WellCased) (hapart : t.ObjectsApart)
  {before cs : List Char}

include hcompiled hwell

/-- A settled text is settled after the blanks at its start. -/
theorem MembersRun.drop_blanks {gap rest : List Char} (hgap : allBlank gap = true)
    (h : MembersRun t before (gap ++ rest) (gap ++ rest)) :
    MembersRun t (gap.reverse ++ before) rest rest := by
  induction gap generalizing before with
  | nil => exact h
  | cons c gap ih =>
      rw [allBlank_cons, Bool.and_eq_true] at hgap
      rcases h.cases_settled hcompiled hwell rfl with hnil | ⟨d, rest', hcs, -, hrun⟩ |
        ⟨r, rest', -, hreads, -, -⟩
      · cases hnil
      · obtain ⟨rfl, rfl⟩ := List.cons.inj hcs
        rw [List.reverse_cons, List.append_assoc]
        exact ih hgap.2 hrun
      · obtain ⟨d, tail, hobject, -⟩ := hreads.object.exists_cons
        have hd : isBlank d = false := hreads.object.visible hwell d (by simp [hobject])
        have htext := hreads.text
        rw [hobject, List.cons_append, List.cons_append, List.cons.injEq] at htext
        rw [← htext.1, hgap.1] at hd
        cases hd

/-- A settled text with the outline of a blank and a text is settled after its blanks. -/
theorem MembersRun.exists_drop_blanks (h : MembersRun t before cs cs) {c : Char} {u : List Char}
    (hc : isBlank c = true) (hu : StartsVisible u) (houtline : outline (c :: u) = outline cs) :
    ∃ gap rest, cs = gap ++ rest ∧ allBlank gap = true ∧ gap ≠ [] ∧ outline rest = outline u ∧
      MembersRun t (gap.reverse ++ before) rest rest := by
  have hsplit : outline cs = outline [c] ++ outline u := by
    rw [← houtline]
    exact outline_append (a := [c]) (.inr hu)
  have hu' : StartsVisible (outline u) :=
    (startsVisible_iff_of_outline (outline_outline u)).mpr hu
  obtain ⟨gap, rest, rfl, hgap, -, hrest⟩ := exists_of_outline_gap (by simpa using hc) hu' hsplit
  refine ⟨gap, rest, rfl, hgap, ?_, hrest, h.drop_blanks hcompiled hwell hgap⟩
  rintro rfl
  rw [List.nil_append, hrest] at hsplit
  exact absurd (congrArg List.length hsplit) (by simp [outline])

include hapart

/-- A reference is found in a text with the same outline. -/
theorem memberRef?_of_outline {before' cs' rest : List Char} {r : MemberRef}
    (hbefore : before.head?.any isWordChar = before'.head?.any isWordChar)
    (houtline : outline cs' = outline cs) (h : memberRef? t.objects before cs = some r)
    (hreads : Reads t cs r rest) :
    ∃ r' rest', memberRef? t.objects before' cs' = some r' ∧ Reads t cs' r' rest' ∧
      r'.object.map plain = r.object.map plain ∧ r'.member.map plain = r.member.map plain ∧
      outline rest' = outline rest ∧ (r.link = ['.'] → r'.link = ['.']) := by
  obtain ⟨r', rest', hreads', hsame⟩ := hreads.of_outline hwell houtline
  refine ⟨r', rest', (memberRef?_eq_some_iff hcompiled hwell hapart).mpr ⟨?_, rest', hreads'⟩,
    hreads', hsame⟩
  rw [isBoundary, isWordChar_head_of_outline houtline, ← hbefore]
  exact ((memberRef?_eq_some_iff hcompiled hwell hapart).mp h).1

omit hcompiled hapart in
/-- The spelling of a reference is between the reference and a settled one. -/
theorem between_memberSpelling {r r₀ : MemberRef} {gs u v : List Char} (hname : t.Names r.object)
    (hmember : IsMember r.member) (hlink : r.link = ['.']) (hspelt : spelt t r₀ = r₀)
    (hobject' : r.object.map plain = r₀.object.map plain)
    (hmember' : r.member.map plain = r₀.member.map plain) (h : Between gs u v) :
    Between (r₀.object ++ ('.' :: (r₀.member ++ gs))) (r.object ++ (r.link ++ (r.member ++ u)))
      (memberSpelling t r ++ v) := by
  have hcanonical : t.canonical? r.object = t.canonical? r₀.object := by
    refine canonical?_eq_of_outline ?_
    rw [← outline_map_plain, hobject', outline_map_plain]
  have hobject : (t.canonical? r₀.object).getD r₀.object = r₀.object :=
    congrArg MemberRef.object hspelt
  have hmember₀ : (t.canonicalMember? (spelt t r₀).object r₀.member).getD r₀.member = r₀.member :=
    congrArg MemberRef.member hspelt
  have hspelling : t.canonicalMember? (spelt t r).object r.member =
      t.canonicalMember? (spelt t r₀).object r₀.member := by
    refine canonicalMember?_eq_of_plain ?_ hmember'
    rw [hspelt, ← hobject']
    exact map_plain_canonical hwell hname
  rw [memberSpelling_eq, hlink, List.append_assoc, List.singleton_append, List.cons_append]
  refine .word_append (hname.visible hwell) hobject' ?_ (.letter (by decide) rfl (.inl rfl)
    (.word_append hmember.visible hmember' ?_ h))
  · rw [← hcanonical] at hobject
    exact getD_eq_or hobject r.object
  · rw [← hspelling] at hmember₀
    exact getD_eq_or hmember₀ r.member

omit hcompiled hwell hapart in
theorem isWordChar_head_of_allBlank {gap : List Char} (hgap : allBlank gap = true) (hne : gap ≠ [])
    (before : List Char) : (gap.reverse ++ before).head?.any isWordChar = false := by
  obtain ⟨c, rest, hrev⟩ := List.exists_cons_of_ne_nil (List.reverse_ne_nil_iff.mpr hne)
  have hc : isBlank c = true := allBlank_iff.mp hgap c (List.mem_reverse.mp (by simp [hrev]))
  rw [hrev]
  exact isWordChar_of_isBlank hc

/-- The pass over a text with the outline of a settled one writes a text between the two. -/
theorem MembersRun.between {before' u v : List Char} (h : MembersRun t before' u v)
    (hsettled : MembersRun t before cs cs) (houtline : outline u = outline cs)
    (hbefore : StartsVisible cs →
      before.head?.any isWordChar = before'.head?.any isWordChar) :
    Between (glyphs cs) u v := by
  induction h generalizing before cs with
  | nil =>
      obtain rfl : cs = [] := outline_eq_nil_iff.mp houtline.symm
      exact .nil
  | @copy before' c u v hnone hrun ih =>
      cases hc : isBlank c with
      | true =>
          by_cases hstart : StartsVisible u
          · obtain ⟨gap, rest, rfl, hgap, hne, hrest, hrun'⟩ :=
              hsettled.exists_drop_blanks hcompiled hwell hc hstart houtline
            rw [glyphs_append, glyphs_of_allBlank hgap, List.nil_append]
            refine .blank hc (ih hrun' hrest.symm fun _ => ?_)
            rw [isWordChar_head_of_allBlank hgap hne]
            exact (isWordChar_of_isBlank hc).symm
          · -- the run of blanks goes on
            have hblank : u.head?.any isBlank = true := by simpa [StartsVisible] using hstart
            rw [outline, if_pos (by rw [hc, hblank]; rfl)] at houtline
            refine .blank hc (ih hsettled houtline fun hvisible => ?_)
            exact absurd ((startsVisible_iff_of_outline houtline).mpr hvisible) hstart
      | false =>
          have hvisible : StartsVisible cs := (startsVisible_iff_of_outline houtline).mp hc
          rcases hsettled.cases_settled hcompiled hwell rfl with rfl | ⟨d, rest, rfl, -, hrun'⟩ |
            ⟨r, rest, hsome, hreads, -, -⟩
          · rw [outline_cons_of_not hc] at houtline
            cases houtline
          · have hd : isBlank d = false := startsVisible_iff.mp hvisible d rfl
            rw [outline_cons_of_not hc, outline_cons_of_not hd, List.cons.injEq] at houtline
            rw [glyphs_cons_of_not hd]
            refine .letter hc houtline.1.symm (.inr rfl) (ih hrun' houtline.2 fun _ => ?_)
            show isWordChar d = isWordChar c
            rw [← isWordChar_plain, ← houtline.1, isWordChar_plain]
          · obtain ⟨r', rest', hsome', -⟩ := memberRef?_of_outline hcompiled hwell hapart
              (hbefore hvisible) houtline hsome hreads
            rw [hnone] at hsome'
            cases hsome'
  | @reference before' u r rest v hsome hreads hrun ih =>
      have hvisible : StartsVisible cs := by
        refine (startsVisible_iff_of_outline houtline).mp ?_
        obtain ⟨c, tail, hobject, -⟩ := hreads.object.exists_cons
        rw [hreads.text, hobject]
        exact hreads.object.visible hwell c (by simp [hobject])
      rcases hsettled.cases_settled hcompiled hwell rfl with rfl | ⟨d, rest₀, rfl, hnone, -⟩ |
        ⟨r₀, rest₀, hsome₀, hreads₀, hspelt, hrun₀⟩
      · obtain ⟨c, tail, rfl, -⟩ := hreads.exists_cons
        cases outline_eq_nil_iff.mp houtline
      · obtain ⟨r', rest', hsome', -⟩ := memberRef?_of_outline hcompiled hwell hapart
          (hbefore hvisible).symm houtline.symm hsome hreads
        rw [hnone] at hsome'
        cases hsome'
      · obtain ⟨r', rest', hsome', hreads', hobject, hmember, hrest, hlink⟩ :=
          memberRef?_of_outline hcompiled hwell hapart (hbefore hvisible) houtline hsome₀ hreads₀
        obtain ⟨rfl, rfl⟩ := hreads'.unique hwell hapart hreads
        have hlink₀ : r₀.link = ['.'] := (congrArg MemberRef.link hspelt).symm
        have hglyphs : glyphs cs = r₀.object ++ ('.' :: (r₀.member ++ glyphs rest₀)) := by
          rw [hreads₀.text, hlink₀, glyphs_append, glyphs_append, glyphs_append,
            glyphs_of_visible (hreads₀.object.visible hwell),
            glyphs_of_visible hreads₀.member.visible]
          rfl
        rw [hglyphs, hreads.text]
        refine between_memberSpelling hwell hreads.object hreads.member (hlink hlink₀) hspelt
          hobject hmember (ih hrun₀ hrest fun _ => ?_)
        rw [head?_reverse_reference hreads₀, head?_reverse_reference hreads,
          isWordChar_getLast_of_plain hmember]

end

/-! ## Both passes -/

/-- In a table without an object whose name, with a dot behind it, is part of the name of an
object, recasing a second time changes nothing. -/
theorem recased_again {t : CaseTable} (hcompiled : t.Compiled) (hwell : t.WellCased)
    (hapart : t.ObjectsApart) (code : List Char) :
    keywords t (members t (keywords t (members t code))) = keywords t (members t code) := by
  have hsettled := (membersRun hcompiled hwell hapart [] code).settled hcompiled hwell hapart rfl
  have hkeywords := keywordsRun hcompiled [] (members t code)
  have hmembers := membersRun hcompiled hwell hapart [] (keywords t (members t code))
  have hbetween := hmembers.between hcompiled hwell hapart hsettled (hkeywords.outline_eq hwell)
    fun _ => rfl
  exact (hkeywords.between hcompiled hwell ⟨rfl, rfl⟩ hbetween).execution

/-- With a well-cased table whose objects are single words, recasing a second time changes
nothing. -/
theorem recasing_idempotent {t : CaseTable} (hcompiled : t.Compiled) (hwell : t.WellCased)
    (hwords : t.ObjectsAreWords) (code : List Char) :
    keywords t (members t (keywords t (members t code))) = keywords t (members t code) :=
  recased_again hcompiled hwell hwords.objectsApart code

example : bundled.ObjectsAreWords ∧ builtin.ObjectsAreWords := by decide +kernel

/-- A table with a phrase and an object that has a member. -/
def pageTable : CaseTable :=
  .ofSchema { spellings := [("end if".toList, "End If".toList)]
              objects := [("response".toList, ["Write".toList])] } .builtin

/-- The theorem at a line with the phrase and the member. -/
theorem recasing_idempotent_line :
    pageTable.Compiled ∧ pageTable.WellCased ∧ pageTable.ObjectsAreWords ∧
      keywords pageTable (members pageTable "RESPONSE . write x : end  IF".toList) =
        "RESPONSE.Write x : End If".toList ∧
      keywords pageTable (members pageTable "RESPONSE.Write x : End If".toList) =
        "RESPONSE.Write x : End If".toList := by
  have hcompiled : pageTable.Compiled := compiled_ofSchema _ _
  have hwell : pageTable.WellCased :=
    wellCased_ofSchema .builtin (by decide +kernel) rfl (by decide +kernel)
  have hwords : pageTable.ObjectsAreWords := by decide +kernel
  have honce : keywords pageTable (members pageTable "RESPONSE . write x : end  IF".toList) =
      "RESPONSE.Write x : End If".toList := by
    decide +kernel
  have htwice := recasing_idempotent hcompiled hwell hwords
    "RESPONSE . write x : end  IF".toList
  rw [honce] at htwice
  exact ⟨hcompiled, hwell, hwords, honce, htwice⟩

/-- The layout of a table with the members of `Response` and those of its member `Cookies`, which
is an object of its own. With the dot its name is no single word. -/
def nestedSchema : CaseSchema where
  objects := [("response.cookies".toList, ["Item".toList]), ("response".toList, ["Cookies".toList])]

/-- The objects of the layout are in the order they are tried. -/
theorem nestedSchema_table :
    ofSchema nestedSchema .builtin =
      { members := [("response.cookies".toList, [("item".toList, "Item".toList)]),
          ("response".toList, [("cookies".toList, "Cookies".toList)])]
        objects := .ofPhrases ["response.cookies".toList, "response".toList] } := by
  have hmembers : membersOf nestedSchema =
      [("response.cookies".toList, [("item".toList, "Item".toList)]),
        ("response".toList, [("cookies".toList, "Cookies".toList)])] := by
    decide +kernel
  have horder : searchOrder ["response.cookies".toList, "response".toList] =
      ["response.cookies".toList, "response".toList] := by
    rw [searchOrder, List.mergeSort_of_pairwise (by decide +kernel)]
    decide +kernel
  have hnone : searchOrder [] = [] := by
    rw [searchOrder, List.filter_nil, List.mergeSort_nil]
  rw [ofSchema, hmembers, show spellingsOf nestedSchema = [] from rfl]
  simp only [List.map_cons, List.map_nil, horder, hnone]
  rfl

/-- Objects that are no single words have to stand apart. The first time, `response . cookies` is a
reference to a member. What it leaves is the object `response.cookies` before a dot, so that the
second time the blanks around that dot go. -/
theorem recased_differently_of_dotted :
    let t := ofSchema nestedSchema .builtin
    let code := "response . cookies . item".toList
    t.Compiled ∧ t.WellCased ∧ keywords t (members t code) = "response.Cookies . item".toList ∧
      keywords t (members t (keywords t (members t code))) = "response.Cookies.Item".toList ∧
      keywords t (members t (keywords t (members t code))) ≠ keywords t (members t code) := by
  refine ⟨compiled_ofSchema _ _, wellCased_ofSchema .builtin rfl rfl (by decide +kernel), ?_⟩
  rw [nestedSchema_table]
  decide +kernel

end ClassicAsp.Recasing
