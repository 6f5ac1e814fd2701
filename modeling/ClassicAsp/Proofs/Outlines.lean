import ClassicAsp.Proofs.Placeholders
import ClassicAsp.Proofs.TokenForms

/-! # Outlines of texts

The outline of a text has its letters without ASCII case and one space for each run of blanks. A
word with the outline of another one has the same spelling, and the spelling has that outline. -/

namespace ClassicAsp

open Text

namespace Text

/-! ## Letters without ASCII case -/

/-- The lower-case form of a character where it is an ASCII character. The Kelvin sign is the one
character above ASCII that has such a form. -/
def plain (c : Char) : Char :=
  if isAscii c then c.toLower else if c = '\u212A' then 'k' else c

/-- A function that tells no ASCII letter from its lower-case form, nor the Kelvin sign from `k`,
tells no character from its plain form. -/
theorem apply_plain {α : Type} [DecidableEq α] (f : Char → α)
    (hascii : ∀ n < 128, f (Char.ofNat n).toLower = f (Char.ofNat n)) (hkelvin : f 'k' = f '\u212A')
    (c : Char) : f (plain c) = f c := by
  rw [plain]
  split
  · next hc =>
      have := forall_isAscii (P := fun c => decide (f c.toLower = f c))
        (fun n hn => decide_eq_true (hascii n hn)) hc
      exact of_decide_eq_true this
  · split
    · next hc => rw [hc, hkelvin]
    · rfl

/-- What recasing asks of a character: its forms and its classes. -/
structure Traits where
  plain : Char
  folded : Char
  lower : Char
  isBlank : Bool
  isWordChar : Bool
  startsMember : Bool
  isCased : Bool
  isCaseIgnorable : Bool
  isDot : Bool
  isDottedI : Bool
  isSigma : Bool
deriving DecidableEq

def traits (c : Char) : Traits where
  plain := plain c
  folded := foldCase c
  lower := lowerChar c
  isBlank := isBlank c
  isWordChar := isWordChar c
  startsMember := Recasing.startsMember c
  isCased := isCased c
  isCaseIgnorable := isCaseIgnorable c
  isDot := c == '.'
  isDottedI := c == '\u0130'
  isSigma := c == '\u03A3'

theorem traits_plain (c : Char) : traits (plain c) = traits c :=
  apply_plain traits (by decide +kernel) (by decide +kernel) c

@[simp] theorem plain_plain (c : Char) : plain (plain c) = plain c :=
  congrArg Traits.plain (traits_plain c)

@[simp] theorem foldCase_plain (c : Char) : foldCase (plain c) = foldCase c :=
  congrArg Traits.folded (traits_plain c)

theorem map_foldCase_plain (cs : List Char) : (cs.map plain).map foldCase = cs.map foldCase := by
  rw [List.map_map]
  exact List.map_congr_left fun c _ => foldCase_plain c

theorem map_foldCase_of_plain {v w : List Char} (h : v.map plain = w.map plain) :
    v.map foldCase = w.map foldCase := by
  rw [← map_foldCase_plain, h, map_foldCase_plain]

@[simp] theorem isBlank_plain (c : Char) : isBlank (plain c) = isBlank c :=
  congrArg Traits.isBlank (traits_plain c)

@[simp] theorem isWordChar_plain (c : Char) : isWordChar (plain c) = isWordChar c :=
  congrArg Traits.isWordChar (traits_plain c)

@[simp] theorem startsMember_plain (c : Char) :
    Recasing.startsMember (plain c) = Recasing.startsMember c :=
  congrArg Traits.startsMember (traits_plain c)

theorem eq_dot_of_plain {c : Char} (h : plain c = '.') : c = '.' := by
  have hdot : (plain c == '.') = (c == '.') := congrArg Traits.isDot (traits_plain c)
  simpa [h] using hdot

theorem meetsCased_map_plain (cs : List Char) : meetsCased (cs.map plain) = meetsCased cs := by
  have hignorable : isCaseIgnorable ∘ plain = isCaseIgnorable :=
    funext fun c => congrArg Traits.isCaseIgnorable (traits_plain c)
  have hcased : isCased ∘ plain = isCased :=
    funext fun c => congrArg Traits.isCased (traits_plain c)
  rw [meetsCased, List.dropWhile_map, hignorable, List.head?_map, Option.any_map, meetsCased]
  exact congrArg (Option.any · _) hcased

theorem lowerChar_plain (c : Char) : lowerChar (plain c) = lowerChar c :=
  congrArg Traits.lower (traits_plain c)

theorem lowerAt_plain (before : List Char) (c : Char) (after : List Char) :
    lowerAt (before.map plain) (plain c) (after.map plain) = lowerAt before c after := by
  have hdotted : (plain c == '\u0130') = (c == '\u0130') :=
    congrArg Traits.isDottedI (traits_plain c)
  have hsigma : (plain c == '\u03A3') = (c == '\u03A3') :=
    congrArg Traits.isSigma (traits_plain c)
  rw [lowerAt, hdotted, hsigma, lowerChar_plain, meetsCased_map_plain, meetsCased_map_plain,
    lowerAt]

theorem lowercaseOnto_map_plain (before cs : List Char) :
    lowercaseOnto [] (before.map plain) (cs.map plain) = lowercaseOnto [] before cs := by
  induction cs generalizing before with
  | nil => rfl
  | cons c cs ih =>
      rw [List.map_cons, lowercaseOnto_cons, lowercaseOnto_cons, lowerAt_plain, ← List.map_cons, ih]

theorem lowercase_map_plain (cs : List Char) : lowercase (cs.map plain) = lowercase cs :=
  lowercaseOnto_map_plain [] cs

/-- Texts that are plainly equal have one lower-case form. -/
theorem lowercase_eq_of_plain {v w : List Char} (h : v.map plain = w.map plain) :
    lowercase v = lowercase w := by
  rw [← lowercase_map_plain v, h, lowercase_map_plain]

/-- The run of the Kelvin sign is the only one that leads to ASCII. -/
theorem lowerRuns_above_ascii : ∀ r ∈ lowerRuns, r.first = 0x212A ∧ r.last = 0x212A ∨
    127 < Int.ofNat r.first + r.shift ∧ (Int.ofNat r.last + r.shift < 0xD800 ∨
      0xDFFF < Int.ofNat r.first + r.shift ∧ Int.ofNat r.last + r.shift < 0x110000) := by
  decide +kernel

theorem isAscii_ofNat {n : Nat} (hn : 127 < n) (hvalid : n.isValidChar) :
    isAscii (Char.ofNat n) = false := by
  have : (Char.ofNat n).toNat = n := by
    rw [Char.ofNat, dif_pos hvalid]
    rfl
  simp only [isAscii, this, decide_eq_false_iff_not]
  omega

theorem isAscii_of_lowerChar {c : Char} (h : isAscii (lowerChar c) = true) (hc : c ≠ '\u212A') :
    isAscii c = true := by
  by_contra habove
  rw [lowerChar, if_neg habove] at h
  cases himage : lowerMap.image? c with
  | none => exact habove (by simpa [himage] using h)
  | some d =>
      rw [himage, Option.getD_some] at h
      obtain ⟨r, hr, hin, rfl⟩ := CaseMap.exists_run himage
      rcases lowerRuns_above_ascii r hr with ⟨hfirst, hlast⟩ | ⟨hlow, hhigh⟩
      · refine hc (Char.toNat_inj.mp ?_)
        show c.toNat = 0x212A
        omega
      · simp only [Int.ofNat_eq_natCast] at h hlow hhigh
        rw [isAscii_ofNat (by omega) (by simp only [Nat.isValidChar]; omega)] at h
        cases h

/-- A lower-case form in ASCII is the plain form. -/
theorem lowerChar_eq_plain {c : Char} (h : isAscii (lowerChar c) = true) :
    lowerChar c = plain c := by
  by_cases hc : c = '\u212A'
  · rw [hc, ← lowerChar_plain]
    decide
  · have hascii := isAscii_of_lowerChar h hc
    rw [lowerChar, plain, if_pos hascii, if_pos hascii]

theorem lowercase_eq_map_plain {cs : List Char} (h : (lowercase cs).all isAscii = true) :
    lowercase cs = cs.map plain := by
  have hlower := (lowercase_of_isAscii h).1
  rw [hlower] at h ⊢
  refine List.map_congr_left fun c hc => lowerChar_eq_plain ?_
  exact List.all_eq_true.mp h _ (List.mem_map_of_mem hc)

/-- Texts with one lower-case form in ASCII are plainly equal. -/
theorem map_plain_eq {v w : List Char} (h : lowercase v = lowercase w)
    (hascii : (lowercase w).all isAscii = true) : v.map plain = w.map plain := by
  rw [← lowercase_eq_map_plain hascii, ← lowercase_eq_map_plain (by rwa [h]), h]

/-! ## Outlines -/

theorem isCaseless_space : isCaseless ' ' = true := isCaseless_of_isBlank (by decide)

theorem isCaseless_dot : isCaseless '.' = true := by decide

theorem endsVisible_cons {c : Char} {cs : List Char} (hc : isBlank c = false)
    (h : EndsVisible cs) : EndsVisible (c :: cs) := by
  intro d hd
  rw [List.getLast?_cons] at hd
  cases hlast : cs.getLast? with
  | none =>
      rw [hlast] at hd
      obtain rfl := Option.some.inj hd
      exact hc
  | some e =>
      rw [hlast] at hd
      obtain rfl := Option.some.inj hd
      exact h e hlast

/-- A character in an outline. -/
def outlineChar (c : Char) : Char := if isBlank c then ' ' else plain c

/-- The letters of a text without ASCII case, and one space for each run of blanks. -/
def outline : List Char → List Char
  | [] => []
  | c :: cs =>
    if isBlank c && cs.head?.any isBlank then outline cs else outlineChar c :: outline cs

/-- No blank comes first. -/
def StartsVisible (cs : List Char) : Prop := cs.head?.any isBlank = false

theorem startsVisible_iff {cs : List Char} :
    StartsVisible cs ↔ ∀ c, cs.head? = some c → isBlank c = false := by
  simp [StartsVisible, Option.any_eq_false]

theorem trimmed_of_visible {cs : List Char} (h : ∀ c ∈ cs, isBlank c = false) : Trimmed cs where
  head c hc := h c (List.mem_of_head? hc)
  last c hc := h c (List.mem_of_getLast? hc)

theorem outlineChar_of_not {c : Char} (h : isBlank c = false) : outlineChar c = plain c := by
  simp [outlineChar, h]

@[simp] theorem isBlank_outlineChar (c : Char) : isBlank (outlineChar c) = isBlank c := by
  cases h : isBlank c with
  | true =>
      rw [outlineChar, if_pos h]
      rfl
  | false => rw [outlineChar_of_not h, isBlank_plain, h]

theorem isWordChar_of_isBlank {c : Char} (h : isBlank c = true) : isWordChar c = false := by
  by_contra hc
  rw [isBlank_of_isWordChar (by simpa using hc)] at h
  cases h

@[simp] theorem isWordChar_outlineChar (c : Char) : isWordChar (outlineChar c) = isWordChar c := by
  cases h : isBlank c with
  | true =>
      rw [outlineChar, if_pos h, isWordChar_of_isBlank h]
      decide
  | false => rw [outlineChar_of_not h, isWordChar_plain]

section

variable {c : Char} {a b cs : List Char}

@[simp] theorem outline_nil : outline [] = [] := rfl

theorem outline_cons (h : isBlank c = false ∨ StartsVisible cs) :
    outline (c :: cs) = outlineChar c :: outline cs := by
  rw [outline, if_neg]
  rw [Bool.and_eq_true, not_and_or]
  exact h.imp (by simp [·]) (by simp [StartsVisible] at *; exact ·)

theorem outline_cons_of_not (h : isBlank c = false) (cs : List Char) :
    outline (c :: cs) = plain c :: outline cs := by
  rw [outline_cons (.inl h), outlineChar_of_not h]

theorem outline_cons_cons (hc : isBlank c = true) {d : Char} (hd : isBlank d = true)
    (cs : List Char) : outline (c :: d :: cs) = outline (d :: cs) := by
  rw [outline, if_pos (by simp [hc, hd])]

theorem head?_outline (cs : List Char) : (outline cs).head? = cs.head?.map outlineChar := by
  induction cs with
  | nil => rfl
  | cons c cs ih =>
      rw [outline]
      split
      · next h =>
          rw [Bool.and_eq_true] at h
          rw [ih]
          cases cs with
          | nil => simp at h
          | cons d cs =>
              have hd : isBlank d = true := by simpa using h.2
              simp [outlineChar, h.1, hd]
      · rfl

theorem getLast?_outline (cs : List Char) :
    (outline cs).getLast? = cs.getLast?.map outlineChar := by
  induction cs with
  | nil => rfl
  | cons c cs ih =>
      rw [outline]
      split
      · next h =>
          cases cs with
          | nil => simp at h
          | cons d cs => rw [ih, List.getLast?_cons_cons]
      · rw [List.getLast?_cons, ih, List.getLast?_cons]
        cases cs.getLast? <;> rfl

theorem length_outline_le (cs : List Char) : (outline cs).length ≤ cs.length := by
  induction cs with
  | nil => exact Nat.le_refl 0
  | cons c cs ih =>
      rw [outline]
      split <;> simp only [List.length_cons] <;> omega

theorem outline_eq_nil_iff : outline cs = [] ↔ cs = [] := by
  rw [← List.head?_eq_none_iff, head?_outline, Option.map_eq_none_iff, List.head?_eq_none_iff]

/-- An outline is put together from those of parts that do not meet in a run of blanks. -/
theorem outline_append (h : EndsVisible a ∨ StartsVisible b) :
    outline (a ++ b) = outline a ++ outline b := by
  induction a with
  | nil => rfl
  | cons c a ih =>
      cases a with
      | nil =>
          rw [List.cons_append, List.nil_append, outline_cons (h.imp_left fun hc => hc c rfl),
            outline_cons (.inr (show StartsVisible [] from rfl))]
          rfl
      | cons d a =>
          have hrest := ih (h.imp_left (EndsVisible.of_append (a := [c])))
          rw [List.cons_append, outline, outline, hrest]
          by_cases hblank : (isBlank c && isBlank d) = true
          · simp [hblank]
          · simp [hblank]

/-- Two texts with one outline start with blanks or not, and end so. -/
theorem startsVisible_iff_of_outline (h : outline a = outline b) :
    StartsVisible a ↔ StartsVisible b := by
  have hhead := congrArg (Option.any isBlank) (congrArg List.head? h)
  simp only [head?_outline, Option.any_map, isBlank_outlineChar] at hhead
  rw [StartsVisible, StartsVisible, hhead]

theorem endsVisible_of_outline (h : outline a = outline b) (hb : EndsVisible b) :
    EndsVisible a := by
  intro c hc
  have hlast := congrArg List.getLast? h
  rw [getLast?_outline, getLast?_outline, hc, Option.map_some, eq_comm,
    Option.map_eq_some_iff] at hlast
  obtain ⟨d, hd, heq⟩ := hlast
  rw [← isBlank_outlineChar c, ← heq, isBlank_outlineChar]
  exact hb d hd

theorem outline_cons_congr (h : outline a = outline b) (c : Char) :
    outline (c :: a) = outline (c :: b) := by
  have hhead : a.head?.any isBlank = b.head?.any isBlank := by
    have := startsVisible_iff_of_outline h
    rw [StartsVisible, StartsVisible] at this
    cases ha : a.head?.any isBlank <;> cases hb : b.head?.any isBlank <;> simp_all
  rw [outline, outline, hhead, h]

theorem outline_of_visible (h : ∀ c ∈ cs, isBlank c = false) : outline cs = cs.map plain := by
  induction cs with
  | nil => rfl
  | cons c cs ih =>
      rw [outline_cons_of_not (h c (by simp)), ih fun d hd => h d (by simp [hd])]
      rfl

theorem outline_of_allBlank (h : allBlank cs = true) (hne : cs ≠ []) : outline cs = [' '] := by
  induction cs with
  | nil => exact absurd rfl hne
  | cons c cs ih =>
      rw [allBlank_cons, Bool.and_eq_true] at h
      cases cs with
      | nil => simp [outline, outlineChar, h.1]
      | cons d cs =>
          have hd : isBlank d = true := (Bool.and_eq_true_iff.mp (allBlank_cons d cs ▸ h.2)).1
          rw [outline_cons_cons h.1 hd, ih h.2 (by simp)]

/-- A text has the blanks that its outline has. -/
theorem visible_of_outline (h : ∀ c ∈ outline cs, isBlank c = false) :
    ∀ c ∈ cs, isBlank c = false := by
  induction cs with
  | nil => simp
  | cons c cs ih =>
      have hc : isBlank c = false := by
        have hhead := head?_outline (c :: cs)
        rw [← isBlank_outlineChar]
        exact h _ (List.mem_of_head? hhead)
      rw [outline_cons_of_not hc] at h
      intro d hd
      rcases List.mem_cons.mp hd with rfl | hd
      · exact hc
      · exact ih (fun e he => h e (by simp [he])) d hd

theorem outline_outline (cs : List Char) : outline (outline cs) = outline cs := by
  induction cs with
  | nil => rfl
  | cons c cs ih =>
      rw [outline]
      split
      · exact ih
      · next hblank =>
          have hhead : (outline cs).head?.any isBlank = cs.head?.any isBlank := by
            cases cs <;> simp [head?_outline]
          rw [outline, hhead, isBlank_outlineChar, if_neg hblank, ih]
          rw [outlineChar, isBlank_outlineChar, outlineChar]
          split <;> simp

/-- The text of a start of an outline, where the start ends visibly. -/
theorem exists_of_outline_eq_append {q s : List Char} (h : outline cs = q ++ s)
    (hq : EndsVisible q) :
    ∃ front back, cs = front ++ back ∧ EndsVisible front ∧ outline front = q ∧
      outline back = s := by
  induction cs generalizing q with
  | nil =>
      obtain ⟨rfl, rfl⟩ : q = [] ∧ s = [] := by simpa [eq_comm] using h
      exact ⟨[], [], rfl, by simp [EndsVisible], rfl, rfl⟩
  | cons c cs ih =>
      cases q with
      | nil => exact ⟨[], c :: cs, rfl, by simp [EndsVisible], rfl, h⟩
      | cons d q =>
          have hskip : ∀ q', EndsVisible q' → q' ≠ [] → outline cs = q' ++ s →
              ∃ front back, cs = front ++ back ∧ EndsVisible (c :: front) ∧ outline front = q' ∧
                outline back = s ∧ front.head? = cs.head? := by
            intro q' hq' hne hcs
            obtain ⟨front, back, rfl, hfront, hq, hs⟩ := ih hcs hq'
            have hne' : front ≠ [] := by
              rintro rfl
              exact hne hq.symm
            refine ⟨front, back, rfl, endsVisible_append (a := [c]) hfront hne', hq, hs, ?_⟩
            rw [List.head?_append_of_ne_nil _ hne']
          rw [outline] at h
          split at h
          · next hblank =>
              obtain ⟨front, back, rfl, hfront, hq', hs, hhead⟩ := hskip (d :: q) hq (by simp) h
              refine ⟨c :: front, back, rfl, hfront, ?_, hs⟩
              rw [outline, hhead, if_pos hblank, hq']
          · next hblank =>
              rw [List.cons_append, List.cons.injEq] at h
              by_cases hnil : q = []
              · subst hnil
                have hc : isBlank c = false := by
                  rw [← isBlank_outlineChar, h.1]
                  exact hq d rfl
                refine ⟨[c], cs, rfl, ?_, ?_, h.2⟩
                · intro e he
                  obtain rfl : c = e := by simpa using he
                  exact hc
                · rw [outline_cons (.inl hc), h.1]
                  rfl
              · obtain ⟨front, back, rfl, hfront, hq', hs, hhead⟩ :=
                  hskip q (EndsVisible.of_append (a := [d]) hq) hnil h.2
                refine ⟨c :: front, back, rfl, hfront, ?_, hs⟩
                rw [outline, hhead, if_neg hblank, hq', h.1]

/-- The text of a word at the start of an outline. -/
theorem exists_of_outline_word {word s : List Char} (hword : ∀ c ∈ word, isBlank c = false)
    (h : outline cs = word.map plain ++ s) :
    ∃ word' back, cs = word' ++ back ∧ word'.map plain = word.map plain ∧ outline back = s := by
  have hvisible : ∀ c ∈ word.map plain, isBlank c = false := by
    intro c hc
    obtain ⟨d, hd, rfl⟩ := List.mem_map.mp hc
    rw [isBlank_plain, hword d hd]
  obtain ⟨front, back, rfl, -, hfront, hback⟩ :=
    exists_of_outline_eq_append h (trimmed_of_visible hvisible).last
  refine ⟨front, back, rfl, ?_, hback⟩
  rw [← hfront, outline_of_visible (visible_of_outline (by rwa [hfront]))]

/-- The text of blanks at the start of an outline. -/
theorem exists_of_outline_gap {gap s : List Char} (hgap : allBlank gap = true)
    (hs : StartsVisible s) (h : outline cs = outline gap ++ s) :
    ∃ gap' back, cs = gap' ++ back ∧ allBlank gap' = true ∧ (gap = [] → gap' = []) ∧
      outline back = s := by
  have hback : StartsVisible (cs.dropWhile isBlank) :=
    startsVisible_iff.mpr fun c hc => isBlank_head_trimStart hc
  have hback' : StartsVisible (outline (cs.dropWhile isBlank)) :=
    (startsVisible_iff_of_outline (outline_outline _)).mpr hback
  have hcs := List.takeWhile_append_dropWhile (p := isBlank) (l := cs)
  refine ⟨cs.takeWhile isBlank, cs.dropWhile isBlank, hcs.symm, allBlank_takeWhile cs, ?_⟩
  rw [← hcs, outline_append (.inr hback)] at h
  have hspace : isBlank ' ' = true := by decide
  by_cases hnil : gap = []
  · rw [hnil, outline_nil, List.nil_append] at h
    by_cases hnil' : cs.takeWhile isBlank = []
    · rw [hnil'] at h
      exact ⟨fun _ => hnil', h⟩
    · rw [outline_of_allBlank (allBlank_takeWhile cs) hnil'] at h
      rw [← h] at hs
      simp [StartsVisible, hspace] at hs
  · refine ⟨fun h => absurd h hnil, ?_⟩
    rw [outline_of_allBlank hgap hnil] at h
    by_cases hnil' : cs.takeWhile isBlank = []
    · rw [hnil', outline_nil, List.nil_append] at h
      rw [h] at hback'
      simp [StartsVisible, hspace] at hback'
    · rw [outline_of_allBlank (allBlank_takeWhile cs) hnil'] at h
      exact (List.cons.inj h).2

/-- A text has one start of an outline that ends visibly. -/
theorem eq_of_append_of_outline {front front' back back' : List Char}
    (h : front ++ back = front' ++ back') (hfront : EndsVisible front)
    (hfront' : EndsVisible front') (houtline : outline front = outline front') :
    front = front' ∧ back = back' := by
  rcases List.append_eq_append_iff.mp h with ⟨mid, rfl, rfl⟩ | ⟨mid, rfl, rfl⟩
  · rw [outline_append (.inl hfront)] at houtline
    obtain rfl := outline_eq_nil_iff.mp (List.self_eq_append_right.mp houtline)
    simp
  · rw [outline_append (.inl hfront')] at houtline
    obtain rfl := outline_eq_nil_iff.mp (List.append_right_eq_self.mp houtline)
    simp

end

theorem outline_map_plain (cs : List Char) : outline (cs.map plain) = outline cs := by
  induction cs with
  | nil => rfl
  | cons c cs ih =>
      have hhead : (cs.map plain).head?.any isBlank = cs.head?.any isBlank := by
        cases cs <;> simp
      rw [List.map_cons, outline, outline, hhead, ih, isBlank_plain, outlineChar, outlineChar,
        isBlank_plain, plain_plain]

/-! ## Words and their spellings -/

theorem words_outline (w : List Char) : words (outline w) = (words w).map (List.map plain) := by
  induction w with
  | nil => rfl
  | cons c cs ih =>
      cases hc : isBlank c with
      | true =>
          rw [words_cons_of_isBlank hc, ← ih, outline]
          split
          · rfl
          · exact words_cons_of_isBlank (by rw [isBlank_outlineChar, hc]) _
      | false =>
          have hplain : isBlank (plain c) = false := by rw [isBlank_plain, hc]
          rw [outline_cons_of_not hc]
          cases cs with
          | nil => simp [words, splitAt_cons_of_not hc, splitAt_cons_of_not hplain]
          | cons d cs =>
              obtain ⟨front, hfront⟩ : ∃ front, outline (d :: cs) = outlineChar d :: front :=
                List.head?_eq_some_iff.mp (head?_outline (d :: cs))
              rw [hfront] at ih ⊢
              cases hd : isBlank d with
              | true =>
                  have hd' : isBlank (outlineChar d) = true := by rw [isBlank_outlineChar, hd]
                  rw [words_cons_of_isBlank hd', words_cons_of_isBlank hd] at ih
                  rw [words_cons_cons_of_isBlank hplain hd', words_cons_cons_of_isBlank hc hd, ih]
                  rfl
              | false =>
                  have hd' : isBlank (outlineChar d) = false := by rw [isBlank_outlineChar, hd]
                  obtain ⟨word, rest, hwords, hcons⟩ := exists_words_cons hd cs
                  obtain ⟨word', rest', hwords', hcons'⟩ := exists_words_cons hd' front
                  rw [hwords, hwords', List.map_cons, List.cons.injEq, List.map_cons,
                    List.cons.injEq] at ih
                  rw [hcons c hc, hcons' (plain c) hplain, ih.1.1, ih.1.2, ih.2]
                  rfl

/-- A text has the key of its outline. -/
theorem key_outline (w : List Char) : CaseTable.key (outline w) = CaseTable.key w := by
  rw [CaseTable.key, words_outline, List.map_map, CaseTable.key]
  congr 2
  exact funext lowercase_map_plain

/-- What the words of a text with a visible start are after its first character. -/
theorem unwords_words_cons {c : Char} (hc : isBlank c = false) (cs : List Char) :
    unwords (words (c :: cs)) =
      c :: ((if cs.head?.any isBlank && !(words cs).isEmpty then [' '] else []) ++
        unwords (words cs)) := by
  cases cs with
  | nil => simp [words, splitAt_cons_of_not hc, unwords]
  | cons d cs =>
      cases hd : isBlank d with
      | true =>
          rw [words_cons_cons_of_isBlank hc hd, words_cons_of_isBlank hd]
          cases words cs with
          | nil => simp [unwords]
          | cons w ws => simp [unwords, hd]
      | false =>
          obtain ⟨word, rest, hwords, hcons⟩ := exists_words_cons hd cs
          rw [hcons c hc, hwords, unwords, List.intercalate_cons_cons_left]
          simp [hd, unwords]

theorem startsVisible_unwords_words (w : List Char) : StartsVisible (unwords (words w)) := by
  induction w with
  | nil => rfl
  | cons c cs ih =>
      cases hc : isBlank c with
      | true => rwa [words_cons_of_isBlank hc]
      | false =>
          rw [unwords_words_cons hc]
          simpa [StartsVisible] using hc

theorem outline_unwords_words (w : List Char) :
    outline (unwords (words w)) = (unwords (words w)).map plain := by
  induction w with
  | nil => rfl
  | cons c cs ih =>
      cases hc : isBlank c with
      | true => rwa [words_cons_of_isBlank hc]
      | false =>
          rw [unwords_words_cons hc, outline_cons_of_not hc,
            outline_append (.inr (startsVisible_unwords_words cs)), ih]
          split <;> rfl

theorem words_ne_nil {w : List Char} (h : EndsVisible w) (hne : w ≠ []) : words w ≠ [] := by
  obtain ⟨x, d, ds, rfl, hx, hd⟩ := exists_visible h hne
  obtain ⟨word, rest, hwords, -⟩ := exists_words_cons hd ds
  rw [words_of_allBlank_append hx, hwords]
  simp

/-- The outline of a text that ends visibly has its words, after a space if it starts with a
blank. -/
theorem outline_eq_words {w : List Char} (h : EndsVisible w) :
    outline w = (if w.head?.any isBlank then [' '] else []) ++ (unwords (words w)).map plain := by
  induction w with
  | nil => rfl
  | cons c cs ih =>
      have hrest := ih (EndsVisible.of_append (a := [c]) h)
      cases hc : isBlank c with
      | true =>
          rw [words_cons_of_isBlank hc, outline, hrest, outlineChar, hc]
          cases cs.head?.any isBlank <;> simp [hc]
      | false =>
          rw [unwords_words_cons hc, outline_cons_of_not hc, hrest]
          cases hhead : cs.head?.any isBlank with
          | false => simp [hc]
          | true =>
              have hne : words cs ≠ [] := by
                refine words_ne_nil (EndsVisible.of_append (a := [c]) h) ?_
                rintro rfl
                cases hhead
              have hempty : (words cs).isEmpty = false := by simpa using hne
              simp [hc, hempty, show plain ' ' = ' ' by decide]

end Text

namespace CaseTable

variable {table : CaseTable} {v w : List Char}

/-- Words with one outline have one spelling. -/
theorem canonical?_eq_of_outline (h : outline v = outline w) :
    table.canonical? v = table.canonical? w := by
  rw [canonical?, canonical?, ← key_outline v, h, key_outline]

theorem key_eq_map_plain (h : (key w).all isAscii = true) :
    key w = (unwords (words w)).map plain := by
  have hlower := (unwords_map_lowercase h).1
  rw [key, hlower] at h
  rw [key, hlower]
  refine List.map_congr_left fun c hc => lowerChar_eq_plain ?_
  exact List.all_eq_true.mp h _ (List.mem_map_of_mem hc)

theorem outline_key (h : (key w).all isAscii = true) : outline (key w) = key w := by
  rw [key_eq_map_plain h, outline_map_plain, outline_unwords_words]

/-- The spelling of a word has its outline. -/
theorem outline_canonical (hwell : table.WellCased) (hw : Trimmed w) :
    outline ((table.canonical? w).getD w) = outline w := by
  cases h : table.canonical? w with
  | none => rfl
  | some v =>
      have hmem := Assoc.mem_of_get? h
      have hkey : lowercase v = key w := hwell.lowercase_spelling _ hmem
      have hascii : (key w).all isAscii = true := hwell.key_isAscii _ hmem
      have hstart : w.head?.any isBlank = false := startsVisible_iff.mpr hw.head
      have hplain : v.map plain = outline w := by
        rw [← lowercase_eq_map_plain (by rwa [hkey]), hkey, key_eq_map_plain hascii,
          outline_eq_words hw.last, hstart]
        rfl
      rw [Option.getD_some, ← outline_map_plain, hplain, outline_outline]

theorem canonicalMember?_eq_of_plain {o o' m m' : List Char} (ho : o.map plain = o'.map plain)
    (hm : m.map plain = m'.map plain) :
    table.canonicalMember? o m = table.canonicalMember? o' m' := by
  rw [canonicalMember?, canonicalMember?, lowercase_eq_of_plain ho, lowercase_eq_of_plain hm]

/-- The spelling of a member is the member up to ASCII case. -/
theorem map_plain_canonicalMember (hcompiled : table.Compiled) (hwell : table.WellCased)
    (o m : List Char) : ((table.canonicalMember? o m).getD m).map plain = m.map plain := by
  cases h : table.canonicalMember? o m with
  | none => rfl
  | some v =>
      rw [canonicalMember?, Option.bind_eq_some_iff] at h
      obtain ⟨members, hobject, hmember⟩ := h
      have ho := Assoc.mem_of_get? hobject
      have hm := Assoc.mem_of_get? hmember
      have hlower : lowercase m = lowercase v := hcompiled.lowercase_member _ ho _ hm
      exact (map_plain_eq hlower (isAscii_lowercaseOnto (hwell.member_isAscii _ ho _ hm))).symm

end CaseTable

end ClassicAsp
