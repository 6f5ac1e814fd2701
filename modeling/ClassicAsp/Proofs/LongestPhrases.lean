import ClassicAsp.Proofs.EntryOrder
import ClassicAsp.Proofs.RecasingFixpoint

/-! # The longest phrase is taken

Recasing of keywords tries the phrases of the table by the length of the phrase. A text that a
phrase takes has the outline of the phrase, whatever its runs of blanks are, so that of two phrases
in one place the longer one takes the longer text: the first phrase that fits takes the longest
text that any phrase takes there. -/

namespace ClassicAsp

open Text CaseTable

/-! ## Texts that phrases stand for -/

namespace Text

theorem byteLength_of_isAscii {cs : List Char} (h : cs.all isAscii = true) :
    byteLength cs = cs.length := by
  induction cs with
  | nil => rfl
  | cons c cs ih =>
      rw [List.all_cons, Bool.and_eq_true] at h
      have hsize : c.utf8Size = 1 :=
        beq_iff_eq.mp (forall_isAscii (P := (·.utf8Size == 1)) (by decide +kernel) h.1)
      rw [byteLength_cons, ih h.2, hsize, List.length_cons, Nat.add_comm]

end Text

namespace Recasing

/-- The phrase stands for the text: its letters up to case, and each of its spaces for a run of
blanks. -/
inductive Spells : List Char → List Char → Prop where
  | nil : Spells [] []
  | gap {phrase gap text} (hne : gap ≠ []) (hblank : allBlank gap = true) :
      Spells phrase text → Spells (' ' :: phrase) (gap ++ text)
  | letter {p c phrase text} (hp : p ≠ ' ') (hsame : sameLetter p c = true) :
      Spells phrase text → Spells (p :: phrase) (c :: text)

section

variable {p q cs text : List Char} {k m : Nat}

theorem Spells.startsVisible (h : Spells p text) (hp : StartsVisible p) : StartsVisible text := by
  cases h with
  | nil => rfl
  | gap => exact absurd hp (by simp [StartsVisible]; decide)
  | @letter p c phrase text hne hsame _ =>
      refine startsVisible_iff.mpr fun d hd => ?_
      obtain rfl := Option.some.inj hd
      by_contra hc
      have hblank := isBlank_of_sameLetter hsame (by simpa using hc)
      rw [startsVisible_iff.mp hp p rfl] at hblank
      cases hblank

theorem Spells.ne_nil (h : Spells p text) (hp : isSearchable p = true) : text ≠ [] := by
  cases h with
  | nil => cases hp
  | gap hne => exact fun hnil => hne (List.append_eq_nil_iff.mp hnil).1
  | letter => exact List.cons_ne_nil _ _

/-- A phrase that is its own outline stands for the texts that it takes as a whole. -/
theorem spells_iff_takes (hp : outline p = p) (hend : EndsVisible p) :
    Spells p text ↔ Takes p text text.length := by
  induction p generalizing text with
  | nil =>
      rw [takes_nil, List.length_eq_zero_iff]
      constructor
      · rintro ⟨⟩
        rfl
      · rintro rfl
        exact .nil
  | cons q qs ih =>
      by_cases hspace : q = ' '
      · subst hspace
        obtain ⟨hvisible, hqs⟩ := startsVisible_of_outline_space hp
        have hend' : EndsVisible qs := EndsVisible.of_append (a := [' ']) hend
        have hne : qs ≠ [] := by
          rintro rfl
          exact absurd (hend ' ' rfl) (by decide)
        constructor
        · intro h
          cases h with
          | @gap _ gap rest hgap hblank hrest =>
              rw [takes_gap hne hblank hgap (hrest.startsVisible hvisible)]
              exact ⟨rest.length, List.length_append, (ih hqs hend').mp hrest⟩
          | letter hp' => exact absurd rfl hp'
        · intro h
          obtain ⟨c, rest, rfl, hfold⟩ := h.exists_cons
          have hgap : (c :: rest).takeWhile isBlank ≠ [] := by
            have hc : isBlank c = true := by
              rw [foldCase_of_isCaseless isCaseless_space] at hfold
              rw [← isBlank_outlineChar, eq_of_foldCase_eq isCaseless_space hfold]
              decide
            simp [hc]
          have htext := List.takeWhile_append_dropWhile (p := isBlank) (l := c :: rest)
          have hback : StartsVisible ((c :: rest).dropWhile isBlank) :=
            startsVisible_iff.mpr fun d hd => isBlank_head_trimStart hd
          rw [← htext, takes_gap hne (allBlank_takeWhile _) hgap hback] at h
          obtain ⟨j, hj, htakes⟩ := h
          rw [List.length_append, Nat.add_left_cancel_iff] at hj
          rw [← htext]
          exact .gap hgap (allBlank_takeWhile _) ((ih hqs hend').mpr (hj ▸ htakes))
      · obtain ⟨hq, hqs⟩ := isBlank_of_outline_cons hspace hp
        have hend' : EndsVisible qs := EndsVisible.of_append (a := [q]) hend
        constructor
        · intro h
          cases h with
          | gap => exact absurd rfl hspace
          | @letter _ c _ rest _ hsame hrest =>
              have hc : isBlank c = false := by
                by_contra hc
                rw [isBlank_of_sameLetter hsame (by simpa using hc)] at hq
                cases hq
              rw [takes_letter hc hsame]
              exact ⟨rest.length, rfl, (ih hqs hend').mp hrest⟩
        · intro h
          obtain ⟨c, rest, rfl, hfold⟩ := h.exists_cons
          have hc : isBlank c = false := by
            by_contra hc
            rw [outlineChar, if_pos (by simpa using hc),
              foldCase_of_isCaseless isCaseless_space] at hfold
            exact hspace (eq_of_foldCase_eq isCaseless_space hfold.symm)
          rw [outlineChar_of_not hc, foldCase_plain] at hfold
          have hsame : sameLetter q c = true := beq_iff_eq.mpr hfold.symm
          rw [takes_letter hc hsame] at h
          obtain ⟨j, hj, htakes⟩ := h
          rw [List.length_cons, Nat.succ_inj] at hj
          exact .letter hspace hsame ((ih hqs hend').mpr (hj ▸ htakes))

/-- A phrase takes the texts at the start of `cs` that it stands for. -/
theorem phraseLength?_eq_some_iff_spells {rest : List Char} (hp : outline p = p)
    (hend : EndsVisible p) :
    phraseLength? p (text ++ rest) = some text.length ↔ Spells p text := by
  rw [phraseLength?_eq_some_iff hp hend, spells_iff_takes hp hend]
  constructor
  · rintro ⟨word, rest', htext, hlength, hword⟩
    obtain ⟨rfl, -⟩ := List.append_inj htext hlength
    exact ⟨text, [], (List.append_nil _).symm, rfl, hword⟩
  · rintro ⟨word, rest', htext, hlength, hword⟩
    obtain ⟨rfl, -⟩ := List.append_inj ((List.append_nil _).trans htext) hlength
    exact ⟨text, rest, rfl, rfl, hword⟩

/-- Of two phrases in one place the longer one takes the longer text. -/
theorem Takes.le_of_length_le (h : Takes p cs k) (h' : Takes q cs m) (hle : p.length ≤ q.length) :
    k ≤ m := by
  obtain ⟨word, rest, rfl, rfl, hvisible, hword⟩ := h
  obtain ⟨word', rest', htext, rfl, hvisible', hword'⟩ := h'
  by_contra hlt
  -- the text of the longer phrase would be a proper start of the other one
  obtain ⟨tail, rfl⟩ : ∃ tail, word = word' ++ tail := by
    rcases List.append_eq_append_iff.mp htext with ⟨mid, rfl, -⟩ | ⟨mid, rfl, -⟩
    · rw [List.length_append] at hlt
      omega
    · exact ⟨mid, rfl⟩
  have htail : outline tail ≠ [] := by
    rw [Ne, outline_eq_nil_iff]
    rintro rfl
    simp at hlt
  have hlength := congrArg List.length hword
  have hlength' := congrArg List.length hword'
  rw [outline_append (.inl hvisible')] at hlength
  simp only [List.length_map, List.length_append] at hlength hlength'
  have := List.length_pos_iff.mpr htail
  omega

end

/-! ## Phrases of the table in one place -/

/-- A phrase of the table that can be looked for stands for `word`, and `word` is between word
boundaries where it stands behind the text `before` and in front of `rest`. -/
structure Matches (t : CaseTable) (before word rest : List Char) : Prop where
  phrase : ∃ e ∈ t.spellings, isSearchable e.1 = true ∧ Spells e.1 word
  starts : isBoundary before.getLast? word.head? = true
  ends : isBoundary word.getLast? rest.head? = true

/-- The table has no match in this place that is longer than `word`. -/
structure IsLongest (t : CaseTable) (before word rest : List Char) : Prop
    extends Matches t before word rest where
  longest : ∀ word' rest', word' ++ rest' = word ++ rest → Matches t before word' rest' →
    word'.length ≤ word.length

/-- The phrases that are tried at a character, in order. -/
def tried (t : CaseTable) (c : Char) : List (List Char) := (t.phrases.get? (foldCase c)).getD []

section

variable {t : CaseTable} {c : Char} {p : List Char}

theorem tried_eq (hcompiled : t.Compiled) (c : Char) :
    tried t c =
      (searchOrder (t.spellings.map (·.1))).filter (startsWithLetter (foldCase c)) := by
  obtain ⟨schema, origin, fallback, rfl⟩ := hcompiled
  exact PhraseIndex.getD_get?_ofPhrases _ _

theorem mem_tried_iff (hcompiled : t.Compiled) :
    p ∈ tried t c ↔ ((∃ e ∈ t.spellings, e.1 = p) ∧ isSearchable p = true) ∧
      startsWithLetter (foldCase c) p = true := by
  rw [tried_eq hcompiled, List.mem_filter, searchOrder, List.mem_mergeSort, List.mem_filter,
    List.mem_map]

theorem pairwise_tried (hcompiled : t.Compiled) (c : Char) :
    (tried t c).Pairwise fun p q => triedBefore p q = true := by
  rw [tried_eq hcompiled]
  exact (List.pairwise_mergeSort triedBefore_trans triedBefore_total _).filter _

theorem startsWithLetter_of_spells {word : List Char} (hsearch : isSearchable p = true)
    (h : Spells p word) (hc : word.head? = some c) :
    startsWithLetter (foldCase c) p = true := by
  cases h with
  | nil => simp [isSearchable] at hsearch
  | gap =>
      rw [isSearchable, Bool.and_eq_true] at hsearch
      exact absurd (show isNameChar ' ' = true from hsearch.1) (by decide)
  | letter hp hsame =>
      obtain rfl := Option.some.inj hc
      exact hsame

end

section

variable {t : CaseTable} {p before word rest : List Char}

theorem filter_phraseLength?_eq_some_iff (hp : outline p = p) (hend : EndsVisible p) :
    (phraseLength? p (word ++ rest)).filter (isBoundaryAt · (word ++ rest)) = some word.length ↔
      Spells p word ∧ isBoundary word.getLast? rest.head? = true := by
  rw [Option.filter_eq_some_iff, phraseLength?_eq_some_iff_spells hp hend, isBoundaryAt,
    List.take_left, List.drop_left]

variable (hcompiled : t.Compiled) (hascii : ∀ e ∈ t.spellings, e.1.all isAscii = true)

include hcompiled hascii

/-- A match is one of the phrases that are tried, and takes the text. -/
theorem matches_iff {c : Char} (hc : (word ++ rest).head? = some c) :
    Matches t before word rest ↔ isBoundary before.getLast? (some c) = true ∧
      ∃ p ∈ tried t c, (phraseLength? p (word ++ rest)).filter (isBoundaryAt · (word ++ rest)) =
        some word.length := by
  have hfound : ∀ e ∈ t.spellings, isSearchable e.1 = true →
      ((phraseLength? e.1 (word ++ rest)).filter (isBoundaryAt · (word ++ rest)) =
        some word.length ↔ Spells e.1 word ∧ isBoundary word.getLast? rest.head? = true) :=
    fun e he hsearch => filter_phraseLength?_eq_some_iff
      (hcompiled.outline_key_eq he (hascii e he)) (endsVisible_of_isSearchable hsearch)
  have hhead : ∀ {p}, isSearchable p = true → Spells p word → word.head? = some c := by
    intro p hsearch hspells
    rwa [List.head?_append_of_ne_nil _ (hspells.ne_nil hsearch)] at hc
  constructor
  · rintro ⟨⟨e, he, hsearch, hspells⟩, hstarts, hends⟩
    have hletter := startsWithLetter_of_spells hsearch hspells (hhead hsearch hspells)
    refine ⟨hhead hsearch hspells ▸ hstarts, e.1, ?_, (hfound e he hsearch).mpr ⟨hspells, hends⟩⟩
    exact (mem_tried_iff hcompiled).mpr ⟨⟨⟨e, he, rfl⟩, hsearch⟩, hletter⟩
  · rintro ⟨hstarts, p, hp, hlength⟩
    obtain ⟨⟨⟨e, he, rfl⟩, hsearch⟩, -⟩ := (mem_tried_iff hcompiled).mp hp
    obtain ⟨hspells, hends⟩ := (hfound e he hsearch).mp hlength
    exact ⟨⟨e, he, hsearch, hspells⟩, hhead hsearch hspells ▸ hstarts, hends⟩

/-- A phrase that is tried later takes no longer text. -/
theorem le_of_triedBefore {cs p q : List Char} {c : Char} {k m : Nat} (hp : p ∈ tried t c)
    (hq : q ∈ tried t c) (hbefore : triedBefore p q = true) (hk : phraseLength? p cs = some k)
    (hm : phraseLength? q cs = some m) : m ≤ k := by
  obtain ⟨⟨⟨e, he, rfl⟩, hsearch⟩, -⟩ := (mem_tried_iff hcompiled).mp hp
  obtain ⟨⟨⟨e', he', rfl⟩, hsearch'⟩, -⟩ := (mem_tried_iff hcompiled).mp hq
  rw [phraseLength?_eq_some_iff (hcompiled.outline_key_eq he (hascii e he))
    (endsVisible_of_isSearchable hsearch)] at hk
  rw [phraseLength?_eq_some_iff (hcompiled.outline_key_eq he' (hascii e' he'))
    (endsVisible_of_isSearchable hsearch')] at hm
  refine hm.le_of_length_le hk ?_
  rw [triedBefore_iff, byteLength_of_isAscii (hascii e he),
    byteLength_of_isAscii (hascii e' he')] at hbefore
  omega

/-- What is found is the longest match. -/
theorem isLongest_of_keywordLength?
    (h : keywordLength? t.phrases before.reverse (word ++ rest) = some word.length) :
    IsLongest t before word rest := by
  rw [keywordLength?, List.head?_reverse] at h
  split at h
  · next hstarts =>
      rw [findPhrase?, Option.bind_eq_some_iff] at h
      obtain ⟨c, hc, hfind⟩ := h
      obtain ⟨front, p, back, htried, hlength, hfront⟩ := List.findSome?_eq_some_iff.mp hfind
      change tried t c = _ at htried
      have hp : p ∈ tried t c := by simp [htried]
      rw [hc] at hstarts
      refine ⟨(matches_iff hcompiled hascii hc).mpr ⟨hstarts, p, hp, hlength⟩, ?_⟩
      intro word' rest' htext hmatches
      rw [← htext] at hc
      obtain ⟨-, q, hq, hlength'⟩ := (matches_iff hcompiled hascii hc).mp hmatches
      rw [htext] at hlength'
      have hpairwise := pairwise_tried hcompiled c
      have hlater := hq
      rw [htried, List.mem_append, List.mem_cons] at hlater
      rcases hlater with hmem | rfl | hmem
      · rw [hfront q hmem] at hlength'
        cases hlength'
      · rw [hlength] at hlength'
        exact (Option.some.inj hlength').ge
      · rw [htried, List.pairwise_append, List.pairwise_cons] at hpairwise
        exact le_of_triedBefore hcompiled hascii hp hq (hpairwise.2.1.1 q hmem)
          (Option.filter_eq_some_iff.mp hlength).1 (Option.filter_eq_some_iff.mp hlength').1
  · cases h

theorem isSome_keywordLength? (h : Matches t before word rest) :
    (keywordLength? t.phrases before.reverse (word ++ rest)).isSome = true := by
  cases hc : (word ++ rest).head? with
  | none =>
      obtain ⟨e, -, hsearch, hspells⟩ := h.phrase
      exact absurd (List.append_eq_nil_iff.mp (List.head?_eq_none_iff.mp hc)).1
        (hspells.ne_nil hsearch)
  | some c =>
      obtain ⟨hstarts, p, hp, hlength⟩ := (matches_iff hcompiled hascii hc).mp h
      rw [keywordLength?, List.head?_reverse, hc, if_pos hstarts, findPhrase?, hc,
        Option.bind_some, List.findSome?_isSome_iff]
      exact ⟨p, hp, by rw [hlength]; rfl⟩

theorem keywordLength?_eq_some_iff :
    keywordLength? t.phrases before.reverse (word ++ rest) = some word.length ↔
      IsLongest t before word rest := by
  refine ⟨isLongest_of_keywordLength? hcompiled hascii, fun h => ?_⟩
  obtain ⟨n, hn⟩ := Option.isSome_iff_exists.mp (isSome_keywordLength? hcompiled hascii h.toMatches)
  obtain ⟨c, word', rest', htext, rfl, -⟩ := keywordLength?_eq_some hcompiled.searchable.1 hn
  rw [htext, ← List.cons_append, ← List.length_cons (a := c)] at hn
  have h' := isLongest_of_keywordLength? hcompiled hascii hn
  have hle := h.longest _ _ htext.symm h'.toMatches
  have hge := h'.longest _ _ htext h.toMatches
  rw [htext, ← List.cons_append, hn, Nat.le_antisymm hle hge]

theorem keywordLength?_eq_none_iff {cs : List Char} :
    keywordLength? t.phrases before.reverse cs = none ↔
      ∀ word rest, cs = word ++ rest → ¬Matches t before word rest := by
  constructor
  · rintro h word rest rfl hmatches
    have hsome := isSome_keywordLength? hcompiled hascii hmatches
    rw [h] at hsome
    cases hsome
  · intro h
    refine Option.eq_none_iff_forall_ne_some.mpr fun n hn => ?_
    obtain ⟨c, word, rest, rfl, rfl, -⟩ := keywordLength?_eq_some hcompiled.searchable.1 hn
    exact h (c :: word) rest rfl (isLongest_of_keywordLength? hcompiled hascii hn).toMatches

end

/-! ## The whole text -/

/-- The rewriting of a text behind `before` that takes the longest match at the first place that
has one. A match stays if it has no spelling, or if the text before it ends with a dot, blanks
aside; otherwise it gets its spelling. The rewriting goes on behind the match. -/
inductive LongestRewrite (t : CaseTable) : List Char → List Char → List Char → Prop where
  | nil (before) : LongestRewrite t before [] []
  | copy {before c cs out}
      (hnone : ∀ word rest, c :: cs = word ++ rest → ¬Matches t before word rest) :
      LongestRewrite t (before ++ [c]) cs out → LongestRewrite t before (c :: cs) (c :: out)
  | keep {before word rest out} (hlongest : IsLongest t before word rest)
      (hkeep : (trimEnd before).getLast? = some '.' ∨ t.spellings.get? (key word) = none) :
      LongestRewrite t (before ++ word) rest out →
      LongestRewrite t before (word ++ rest) (word ++ out)
  | respell {before word rest out spelling} (hlongest : IsLongest t before word rest)
      (hdot : (trimEnd before).getLast? ≠ some '.')
      (hspelling : t.spellings.get? (key word) = some spelling) :
      LongestRewrite t (before ++ word) rest out →
      LongestRewrite t before (word ++ rest) (spelling ++ out)

theorem endsWithDot_reverse (before : List Char) :
    endsWithDot before.reverse = true ↔ (trimEnd before).getLast? = some '.' := by
  rw [endsWithDot, beq_iff_eq, trimEnd, dropEndWhile, List.getLast?_reverse]

section

variable {t : CaseTable} {before cs out : List Char} (hcompiled : t.Compiled)
  (hascii : ∀ e ∈ t.spellings, e.1.all isAscii = true)

include hcompiled hascii

theorem LongestRewrite.execution (h : LongestRewrite t before cs out) :
    keywordsAfter t 0 before.reverse [] cs = out := by
  have hword : ∀ {before word rest}, IsLongest t before word rest →
      keywordsAfter t 0 before.reverse [] (word ++ rest) =
        keywordSpelling t before.reverse word ++
          keywordsAfter t 0 (before ++ word).reverse [] rest := by
    intro before word rest hlongest
    have hlength := (keywordLength?_eq_some_iff hcompiled hascii).mpr hlongest
    have hne : word ≠ [] := by
      rintro rfl
      obtain ⟨c, word, rest, -, hzero, -⟩ :=
        keywordLength?_eq_some hcompiled.searchable.1 hlength
      cases hzero
    rw [keywordsAfter_of_word hlength hne, List.reverse_append]
  induction h with
  | nil => rfl
  | copy hnone _ ih =>
      rw [keywordsAfter_of_none ((keywordLength?_eq_none_iff hcompiled hascii).mpr hnone), ← ih,
        List.reverse_append]
      rfl
  | @keep before word rest out hlongest hkeep _ ih =>
      have hspelling : keywordSpelling t before.reverse word = word := by
        rw [keywordSpelling]
        split
        · rfl
        · next hdot =>
            rw [endsWithDot_reverse] at hdot
            rw [canonical?, hkeep.resolve_left hdot, Option.getD_none]
      rw [hword hlongest, ih, hspelling]
  | @respell before word rest out spelling hlongest hdot hspelling _ ih =>
      rw [Ne, ← endsWithDot_reverse] at hdot
      rw [hword hlongest, ih, keywordSpelling, if_neg hdot, canonical?, hspelling,
        Option.getD_some]

theorem KeywordsRun.longestRewrite (h : KeywordsRun t before cs out) :
    LongestRewrite t before.reverse cs out := by
  induction h with
  | nil before => exact .nil _
  | @copy before c cs out hnone _ ih =>
      rw [List.reverse_cons] at ih
      refine .copy ((keywordLength?_eq_none_iff hcompiled hascii).mp ?_) ih
      rwa [List.reverse_reverse]
  | @phrase before word rest out hlength _ _ _ ih =>
      rw [← List.reverse_reverse before] at hlength
      have hlongest := (keywordLength?_eq_some_iff hcompiled hascii).mp hlength
      rw [List.reverse_append, List.reverse_reverse] at ih
      rw [keywordSpelling]
      have hdot_iff := endsWithDot_reverse before.reverse
      rw [List.reverse_reverse] at hdot_iff
      split
      · next hdot => exact .keep hlongest (.inl (hdot_iff.mp hdot)) ih
      · next hdot =>
          rw [hdot_iff] at hdot
          cases hspelling : t.canonical? word with
          | none => exact .keep hlongest (.inr hspelling) ih
          | some spelling => exact .respell hlongest hdot hspelling ih

end

/-- With keys in ASCII, recasing of keywords is the rewriting that takes the longest match. -/
theorem keywords_take_longest {t : CaseTable} (hcompiled : t.Compiled)
    (hascii : ∀ e ∈ t.spellings, e.1.all isAscii = true) (code out : List Char) :
    LongestRewrite t [] code out ↔ keywords t code = out := by
  constructor
  · exact fun h => h.execution hcompiled hascii
  · rintro rfl
    exact (keywordsRun hcompiled [] code).longestRewrite hcompiled hascii

/-- The theorem at a table with `end` and `end if`: the longer phrase is taken over any blanks, and
stays behind a dot. -/
theorem keywords_take_longest_end_if :
    let t := ofSchema { spellings := [("end".toList, "End".toList),
      ("end if".toList, "End If".toList)] } .builtin
    t.Compiled ∧ (∀ e ∈ t.spellings, e.1.all isAscii = true) ∧
      LongestRewrite t [] "END \tiF: x . end if: end".toList
        "End If: x . end if: End".toList := by
  intro t
  have hcompiled : t.Compiled := compiled_ofSchema _ _
  have hascii : ∀ e ∈ t.spellings, e.1.all isAscii = true := by decide +kernel
  have horder : searchOrder ["end".toList, "end if".toList] = ["end if".toList, "end".toList] := by
    rw [searchOrder_of_perm (List.Perm.swap _ _ []), searchOrder,
      List.mergeSort_of_pairwise (by decide +kernel)]
    decide +kernel
  let t' : CaseTable := { t with phrases := .ofPhrases ["end if".toList, "end".toList] }
  have hphrases : t.phrases = t'.phrases := congrArg PhraseIndex.ofPhrases horder
  refine ⟨hcompiled, hascii, (keywords_take_longest hcompiled hascii _ _).mpr ?_⟩
  rw [keywords_congr hphrases fun _ => rfl]
  decide +kernel

end Recasing

end ClassicAsp
