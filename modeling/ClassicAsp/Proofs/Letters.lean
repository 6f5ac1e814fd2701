import ClassicAsp.Text.Blank
import ClassicAsp.Text.Folding
import Mathlib.Data.List.Basic

/-! # Letters and visible characters

Lower-casing and folding move letters to letters. They neither make nor move a character without
case, and the blanks are such characters. -/

namespace ClassicAsp.Text

/-! ## Characters that no run touches -/

theorem toNat_toLower (c : Char) :
    c.toLower.toNat = if 65 ≤ c.toNat ∧ c.toNat ≤ 90 then c.toNat + 32 else c.toNat := by
  unfold Char.toLower
  split
  · next h =>
      simp only [ge_iff_le, UInt32.le_iff_toNat_le] at h
      have hup : 65 ≤ c.toNat ∧ c.toNat ≤ 90 := h
      rw [if_pos hup]
      simp only [Char.toNat, UInt32.toNat_add]
      simp only [Char.toNat] at hup
      show (c.val.toNat + 32) % 4294967296 = _
      omega
  · next h =>
      simp only [ge_iff_le, UInt32.le_iff_toNat_le] at h
      have hup : ¬(65 ≤ c.toNat ∧ c.toNat ≤ 90) := h
      rw [if_neg hup]

theorem toNat_of_ofNat_eq {n : Nat} {d : Char} (h : Char.ofNat n = d) (hd : d.toNat ≠ 0) :
    n = d.toNat := by
  by_cases hv : n.isValidChar
  · rw [← h, Char.ofNat, dif_pos hv]
    rfl
  · rw [Char.ofNat, dif_neg hv] at h
    rw [← h] at hd
    exact absurd rfl hd

/-- Is the code point in the run, or between the images of its ends? -/
def CaseRun.touches (r : CaseRun) (n : Nat) : Bool :=
  (r.first ≤ n && n ≤ r.last) ||
    (decide (Int.ofNat r.first + r.shift ≤ Int.ofNat n) &&
      decide (Int.ofNat n ≤ Int.ofNat r.last + r.shift))

/-- A mapping moves a character by the shift of its run. -/
theorem CaseMap.exists_run {runs : List CaseRun} {c d : Char}
    (h : (ofRuns runs).image? c = some d) :
    ∃ r ∈ runs, (r.first ≤ c.toNat ∧ c.toNat ≤ r.last) ∧
      d = Char.ofNat (Int.ofNat c.toNat + r.shift).toNat := by
  rw [image?, Option.map_eq_some_iff] at h
  obtain ⟨n, hn, rfl⟩ := h
  rw [Option.bind_eq_some_iff] at hn
  obtain ⟨r, hr, himage⟩ := hn
  have hmem : r ∈ runs := by
    have := PivotTree.mem_values_of_find? hr
    rwa [ofRuns, PivotTree.values_ofSorted] at this
  simp only [CaseRun.image?] at himage
  split at himage
  · next hin =>
      simp only [Bool.and_eq_true, decide_eq_true_eq] at hin
      exact ⟨r, hmem, hin.1, by rw [Option.some.inj himage]⟩
  · cases himage

/-- A run touches what it maps and what it maps to. -/
theorem CaseMap.touches_of_image? {runs : List CaseRun} {c d : Char}
    (h : (ofRuns runs).image? c = some d) (hd : d.toNat ≠ 0) :
    ∃ r ∈ runs, r.touches c.toNat = true ∧ r.touches d.toNat = true := by
  obtain ⟨r, hr, hin, hshift⟩ := exists_run h
  have heq := toNat_of_ofNat_eq hshift.symm hd
  refine ⟨r, hr, ?_, ?_⟩
  · simp [CaseRun.touches, hin]
  · simp only [CaseRun.touches, Bool.or_eq_true, Bool.and_eq_true, decide_eq_true_eq]
    right
    simp only [Int.ofNat_eq_natCast] at heq ⊢
    omega

theorem CaseMap.image?_eq_none {runs : List CaseRun} {c : Char}
    (h : ∀ r ∈ runs, r.touches c.toNat = false) : (ofRuns runs).image? c = none := by
  cases himage : (ofRuns runs).image? c with
  | none => rfl
  | some d =>
      obtain ⟨r, hr, hin, -⟩ := exists_run himage
      have := h r hr
      simp [CaseRun.touches, hin] at this

/-! ## Characters without case -/

/-- The code points that lower-casing and folding neither move nor reach. -/
def isCaselessCode (n : Nat) : Bool :=
  n != 0 && n != 0x130 && !(65 ≤ n && n ≤ 90) && !(97 ≤ n && n ≤ 122) &&
    !lowerRuns.any (·.touches n) && !foldRuns.any (·.touches n)

/-- Has the character no case? -/
def isCaseless (c : Char) : Bool := isCaselessCode c.toNat

/-- The code points of the blanks. -/
def blankCodes : List Nat :=
  [0x09, 0x0A, 0x0B, 0x0C, 0x0D, 0x20, 0x85, 0xA0, 0x1680, 0x2000, 0x2001, 0x2002, 0x2003,
    0x2004, 0x2005, 0x2006, 0x2007, 0x2008, 0x2009, 0x200A, 0x2028, 0x2029, 0x202F, 0x205F,
    0x3000]

theorem toNat_mem_blankCodes {c : Char} (h : isBlank c = true) : c.toNat ∈ blankCodes := by
  simp only [isBlank, Bool.or_eq_true, Bool.and_eq_true, decide_eq_true_eq, beq_iff_eq] at h
  simp only [blankCodes, List.mem_cons, List.not_mem_nil, or_false]
  omega

theorem isCaselessCode_of_mem_blankCodes : ∀ n ∈ blankCodes, isCaselessCode n = true := by
  decide +kernel

theorem isCaseless_of_isBlank {c : Char} (h : isBlank c = true) : isCaseless c = true :=
  isCaselessCode_of_mem_blankCodes _ (toNat_mem_blankCodes h)

section

variable {c d : Char}

theorem toNat_ne_zero_of_isCaseless (h : isCaseless d = true) : d.toNat ≠ 0 := by
  simp only [isCaseless, isCaselessCode, Bool.and_eq_true, bne_iff_ne] at h
  exact h.1.1.1.1.1

theorem isCaseless_ne_dottedI (h : isCaseless d = true) : d ≠ '\u0130' := by
  rintro rfl
  exact absurd h (by decide)

theorem lowerRuns_touches_eq_false (h : isCaseless d = true) :
    ∀ r ∈ lowerRuns, r.touches d.toNat = false := by
  simp only [isCaseless, isCaselessCode, Bool.and_eq_true, Bool.not_eq_true',
    List.any_eq_false] at h
  intro r hr
  simpa using h.1.2 r hr

theorem foldRuns_touches_eq_false (h : isCaseless d = true) :
    ∀ r ∈ foldRuns, r.touches d.toNat = false := by
  simp only [isCaseless, isCaselessCode, Bool.and_eq_true, Bool.not_eq_true',
    List.any_eq_false] at h
  intro r hr
  simpa using h.2 r hr

theorem not_letter_of_isCaseless (h : isCaseless d = true) :
    ¬(65 ≤ d.toNat ∧ d.toNat ≤ 90) ∧ ¬(97 ≤ d.toNat ∧ d.toNat ≤ 122) := by
  simp only [isCaseless, isCaselessCode, Bool.and_eq_true, Bool.not_eq_true',
    Bool.and_eq_false_iff, decide_eq_false_iff_not] at h
  omega

theorem toLower_of_isCaseless (h : isCaseless d = true) : d.toLower = d := by
  apply Char.toNat_inj.mp
  rw [toNat_toLower, if_neg (not_letter_of_isCaseless h).1]

theorem eq_of_toLower_eq (hd : isCaseless d = true) (h : c.toLower = d) : c = d := by
  have hn := not_letter_of_isCaseless hd
  have hc := toNat_toLower c
  rw [h] at hc
  apply Char.toNat_inj.mp
  split at hc
  · omega
  · exact hc.symm

theorem lowerChar_of_isCaseless (h : isCaseless d = true) : lowerChar d = d := by
  rw [lowerChar]
  split
  · exact toLower_of_isCaseless h
  · rw [lowerMap, CaseMap.image?_eq_none (lowerRuns_touches_eq_false h)]
    rfl

theorem eq_of_lowerChar_eq (hd : isCaseless d = true) (h : lowerChar c = d) : c = d := by
  rw [lowerChar] at h
  split at h
  · exact eq_of_toLower_eq hd h
  · cases himage : lowerMap.image? c with
    | none => simpa [himage] using h
    | some e =>
        obtain rfl : e = d := by simpa [himage] using h
        obtain ⟨r, hr, -, ht⟩ :=
          CaseMap.touches_of_image? himage (toNat_ne_zero_of_isCaseless hd)
        rw [lowerRuns_touches_eq_false hd r hr] at ht
        cases ht

theorem foldCase_of_isCaseless (h : isCaseless d = true) : foldCase d = d := by
  rw [foldCase]
  split
  · exact toLower_of_isCaseless h
  · split
    · rfl
    · rw [foldMap, CaseMap.image?_eq_none (foldRuns_touches_eq_false h)]
      exact lowerChar_of_isCaseless h

theorem eq_of_foldCase_eq (hd : isCaseless d = true) (h : foldCase c = d) : c = d := by
  rw [foldCase] at h
  split at h
  · exact eq_of_toLower_eq hd h
  · split at h
    · exact h
    · cases himage : foldMap.image? c with
      | none => exact eq_of_lowerChar_eq hd (by simpa [himage] using h)
      | some e =>
          obtain rfl : e = d := by simpa [himage] using h
          obtain ⟨r, hr, -, ht⟩ :=
            CaseMap.touches_of_image? himage (toNat_ne_zero_of_isCaseless hd)
          rw [foldRuns_touches_eq_false hd r hr] at ht
          cases ht

/-- A character compares equal to one without case only if it is that character. -/
theorem eq_of_sameLetter (hd : isCaseless d = true) (h : sameLetter c d = true) : c = d := by
  rw [sameLetter, beq_iff_eq, foldCase_of_isCaseless hd] at h
  exact eq_of_foldCase_eq hd h

theorem isBlank_of_sameLetter (h : sameLetter c d = true) (hd : isBlank d = true) :
    isBlank c = true := by
  rw [eq_of_sameLetter (isCaseless_of_isBlank hd) h]
  exact hd

end

/-! ## Lower case -/

theorem lowercaseOnto_eq (out before cs : List Char) :
    lowercaseOnto out before cs = out.reverse ++ lowercaseOnto [] before cs := by
  induction cs generalizing out before with
  | nil => simp [lowercaseOnto]
  | cons c cs ih =>
      rw [lowercaseOnto, ih, lowercaseOnto, ih ((lowerAt before c cs).reverse ++ [])]
      simp

theorem lowercaseOnto_cons (before : List Char) (c : Char) (cs : List Char) :
    lowercaseOnto [] before (c :: cs) =
      lowerAt before c cs ++ lowercaseOnto [] (c :: before) cs := by
  rw [lowercaseOnto, lowercaseOnto_eq]
  simp

@[simp] theorem lowercase_nil : lowercase [] = [] := rfl

theorem lowercase_singleton (c : Char) : lowercase [c] = lowerAt [] c [] := by
  rw [lowercase, lowercaseOnto_cons]
  simp [lowercaseOnto]

theorem lowercase_of_isCaseless {d : Char} (h : isCaseless d = true) : lowercase [d] = [d] := by
  have hsigma : d ≠ '\u03A3' := by
    rintro rfl
    exact absurd h (by decide)
  rw [lowercase_singleton, lowerAt, if_neg (by simpa using isCaseless_ne_dottedI h),
    if_neg (by simpa using hsigma), lowerChar_of_isCaseless h]

/-- A character with the lower-case form of one without case is that character. -/
theorem eq_of_lowercase_eq {c d : Char} (hd : isCaseless d = true)
    (h : lowercase [c] = lowercase [d]) : c = d := by
  rw [lowercase_of_isCaseless hd, lowercase_singleton, lowerAt] at h
  split at h
  · simp at h
  · split at h
    · have he : '\u03C3' = d := by simpa [meetsCased] using h
      rw [← he] at hd
      exact absurd hd (by decide)
    · exact eq_of_lowerChar_eq hd (by simpa using h)

theorem isBlank_eq_of_lowercase_eq {c d : Char} (h : lowercase [c] = lowercase [d]) :
    isBlank c = isBlank d := by
  cases hd : isBlank d with
  | true =>
      rw [eq_of_lowercase_eq (isCaseless_of_isBlank hd) h]
      exact hd
  | false =>
      cases hc : isBlank c with
      | false => rfl
      | true =>
          rw [eq_of_lowercase_eq (isCaseless_of_isBlank hc) h.symm, hc] at hd
          cases hd

/-- Where the lower-case form is ASCII, each character has its own. -/
theorem lowercaseOnto_of_isAscii {before cs : List Char}
    (h : (lowercaseOnto [] before cs).all isAscii = true) :
    lowercaseOnto [] before cs = cs.map lowerChar ∧ ∀ c ∈ cs, lowercase [c] = [lowerChar c] := by
  induction cs generalizing before with
  | nil => exact ⟨rfl, by simp⟩
  | cons c cs ih =>
      rw [lowercaseOnto_cons, List.all_append, Bool.and_eq_true] at h
      obtain ⟨htail, heach⟩ := ih h.2
      have hplain : c ≠ '\u0130' ∧ c ≠ '\u03A3' := by
        constructor
        · rintro rfl
          exact absurd h.1 (by simp [lowerAt, isAscii])
        · rintro rfl
          have hlow := h.1
          simp only [lowerAt] at hlow
          split at hlow
          · simp at *
          · split at hlow
            · split at hlow <;> exact absurd hlow (by decide)
            · simp at *
      have hlower : ∀ before after, lowerAt before c after = [lowerChar c] := by
        intro before after
        rw [lowerAt, if_neg (by simpa using hplain.1), if_neg (by simpa using hplain.2)]
      constructor
      · rw [lowercaseOnto_cons, hlower, htail]
        rfl
      · intro d hd
        rcases List.mem_cons.mp hd with rfl | hd
        · rw [lowercase_singleton, hlower]
        · exact heach d hd

/-! ## Visible characters -/

/-- The visible characters of a text, each in lower case. -/
def visible (cs : List Char) : List (List Char) :=
  (cs.filter (!isBlank ·)).map fun c => lowercase [c]

@[simp] theorem visible_nil : visible [] = [] := rfl

@[simp] theorem visible_append (front back : List Char) :
    visible (front ++ back) = visible front ++ visible back := by
  simp [visible]

theorem visible_cons_of_isBlank {c : Char} (h : isBlank c = true) (cs : List Char) :
    visible (c :: cs) = visible cs := by
  simp [visible, h]

theorem visible_cons_of_not {c : Char} (h : isBlank c = false) (cs : List Char) :
    visible (c :: cs) = lowercase [c] :: visible cs := by
  simp [visible, h]

theorem visible_eq_nil_iff {cs : List Char} : visible cs = [] ↔ cs.all isBlank = true := by
  simp [visible, List.filter_eq_nil_iff]

theorem visible_of_allBlank {cs : List Char} (h : cs.all isBlank = true) : visible cs = [] :=
  visible_eq_nil_iff.mpr h

end ClassicAsp.Text
