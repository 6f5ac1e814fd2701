import ClassicAsp.Proofs.Blanks
import ClassicAsp.Proofs.Letters
import ClassicAsp.Token

/-! # The forms of tokens

What characters the tokens of code have, and where they end. The length of a token depends on
little of what follows it: its next character, whether a fraction or an exponent comes next, and,
for an `&`, whether the digits of a radix do. -/

namespace ClassicAsp

/-! ## Characters of names -/

namespace Text

theorem isAscii_of_isDigit {c : Char} (h : c.isDigit = true) : isAscii c = true := by
  simp only [Char.isDigit, Bool.and_eq_true, decide_eq_true_eq, ge_iff_le,
    UInt32.le_iff_toNat_le] at h
  have hle : c.toNat ≤ 57 := h.2
  simp only [isAscii, decide_eq_true_eq]
  omega

theorem isNameChar_of_isDigit {c : Char} (h : c.isDigit = true) : isNameChar c = true := by
  simp [isNameChar, isAlphanumeric, isAscii_of_isDigit h, Char.isAlphanum, h]

theorem forall_isAscii {P : Char → Bool} (h : ∀ n < 128, P (Char.ofNat n) = true) {c : Char}
    (hc : isAscii c = true) : P c = true := by
  rw [← Char.ofNat_toNat c]
  exact h _ (by simpa [isAscii] using hc)

theorem takeWhile_append_eq {p : Char → Bool} {a b : List Char} (ha : ∀ c ∈ a, p c = true)
    (hb : b.head?.any p = false) : (a ++ b).takeWhile p = a := by
  rw [List.takeWhile_append_of_pos ha]
  cases b with
  | nil => simp
  | cons c b => rw [List.takeWhile_cons_of_neg (by simpa using hb), List.append_nil]

theorem head?_dropWhile (p : Char → Bool) (cs : List Char) :
    (cs.dropWhile p).head?.any p = false := by
  cases hd : cs.dropWhile p with
  | nil => rfl
  | cons c rest =>
      have := List.head?_dropWhile_not p cs
      simpa [hd] using this

theorem exists_dropWhile_append {p : Char → Bool} {a : List Char} (ha : ¬a.all p = true)
    (b : List Char) : ∃ c tail, (a ++ b).dropWhile p = c :: tail ∧ c ∈ a := by
  induction a with
  | nil => exact absurd rfl ha
  | cons c a ih =>
      by_cases hc : p c = true
      · obtain ⟨d, tail, hdrop, hmem⟩ := ih (by simpa [hc] using ha)
        exact ⟨d, tail, by rw [List.cons_append, List.dropWhile_cons_of_pos hc, hdrop],
          List.mem_cons_of_mem c hmem⟩
      · exact ⟨c, a ++ b, by rw [List.cons_append, List.dropWhile_cons_of_neg hc], by simp⟩

end Text

open Text

namespace Token

theorem isNameChar_of_isHexDigit {c : Char} (h : isHexDigit c = true) : isNameChar c = true := by
  have hascii : isAscii c = true := by
    simp only [isHexDigit, Bool.or_eq_true, Bool.and_eq_true, decide_eq_true_eq, ge_iff_le,
      toNat_toLower] at h
    rcases h with hdigit | ⟨-, hle⟩
    · exact isAscii_of_isDigit hdigit
    · have hf : 'f'.toNat = 102 := rfl
      simp only [isAscii, decide_eq_true_eq]
      split at hle <;> omega
  have hall := forall_isAscii (P := fun c => !isHexDigit c || isNameChar c) (by decide +kernel)
    hascii
  simpa [h] using hall

theorem isNameChar_of_isOctalDigit {c : Char} (h : isOctalDigit c = true) :
    isNameChar c = true := by
  have hascii : isAscii c = true := by
    have hseven : '7'.toNat = 55 := rfl
    simp only [isOctalDigit, Bool.and_eq_true, decide_eq_true_eq] at h
    simp only [isAscii, decide_eq_true_eq]
    omega
  have hall := forall_isAscii (P := fun c => !isOctalDigit c || isNameChar c) (by decide +kernel)
    hascii
  simpa [h] using hall

/-! ## Decimal numbers -/

theorem take_digitsLength (cs : List Char) :
    cs.take (digitsLength cs) = cs.takeWhile Char.isDigit := take_length_takeWhile ..

theorem startsDigit_drop_digitsLength (cs : List Char) :
    startsDigit (cs.drop (digitsLength cs)) = false := by
  rw [digitsLength, drop_length_takeWhile]
  exact head?_dropWhile ..

theorem digitsLength_append (cs : List Char) {b : List Char} (hb : startsDigit b = false) :
    digitsLength (cs.take (digitsLength cs) ++ b) = digitsLength cs := by
  rw [take_digitsLength, digitsLength, takeWhile_append_eq (fun c => List.mem_takeWhile_imp) hb]
  rfl

theorem startsDigit_digits_append {cs : List Char} (h : startsDigit cs = true) (b : List Char) :
    startsDigit (cs.take (digitsLength cs) ++ b) = true := by
  cases cs with
  | nil => cases h
  | cons c cs =>
      have hc : c.isDigit = true := by simpa [startsDigit] using h
      rw [take_digitsLength, List.takeWhile_cons_of_pos hc]
      exact hc

theorem startsDigit_eq_false {cs : List Char} (h : cs.head?.any isNameChar = false) :
    startsDigit cs = false := by
  cases cs with
  | nil => rfl
  | cons c cs =>
      by_contra hc
      have hdigit : c.isDigit = true := by simpa [startsDigit] using hc
      simp [isNameChar_of_isDigit hdigit] at h

theorem fractionLength_append (cs : List Char) {b : List Char} (hb : startsDigit b = false)
    (hnone : fractionLength cs = 0 → fractionLength b = 0) :
    fractionLength (cs.take (fractionLength cs) ++ b) = fractionLength cs := by
  fun_cases fractionLength cs with
  | case1 rest hdigit =>
      rw [Nat.add_comm, List.take_succ_cons, List.cons_append, fractionLength,
        if_pos (startsDigit_digits_append hdigit b), digitsLength_append rest hb, Nat.add_comm]
  | case2 rest hdigit => simpa using hnone (by rw [fractionLength, if_neg hdigit])
  | case3 cs hpoint => simpa using hnone (by rw [fractionLength.eq_2 _ hpoint])

/-- The marks of exponents, and the signs that may come behind them. -/
theorem exponentLength_eq {e : Char} {sign digits : List Char} (he : e = 'e' ∨ e = 'E')
    (hsign : sign = [] ∨ sign = ['+'] ∨ sign = ['-']) (hdigits : startsDigit digits = true) :
    exponentLength (e :: (sign ++ digits)) = 1 + sign.length + digitsLength digits := by
  cases digits with
  | nil => cases hdigits
  | cons d digits =>
      have hd : d.isDigit = true := by simpa [startsDigit] using hdigits
      have hne : d ≠ '+' ∧ d ≠ '-' := by
        constructor <;> rintro rfl <;> exact absurd hd (by decide)
      rcases he with rfl | rfl <;> rcases hsign with rfl | rfl | rfl <;>
        simp [exponentLength, startsDigit, hd, hne]

theorem exponentLength_cases (cs : List Char) :
    exponentLength cs = 0 ∨ ∃ e sign digits, (e = 'e' ∨ e = 'E') ∧
      (sign = [] ∨ sign = ['+'] ∨ sign = ['-']) ∧ startsDigit digits = true ∧
      cs = e :: (sign ++ digits) := by
  fun_cases exponentLength cs with
  | case1 => exact .inl rfl
  | case2 e rest he sign hdigit =>
      refine .inr ⟨e, rest.take sign, rest.drop sign, by simpa using he, ?_, hdigit, by simp⟩
      cases rest with
      | nil => simp
      | cons c rest =>
          by_cases hc : c = '+' ∨ c = '-'
          · rcases hc with rfl | rfl <;> simp [sign]
          · simp [sign, hc]
  | case3 => exact .inl rfl
  | case4 => exact .inl rfl

/-- Whether the mark of an exponent is one is decided by a character of a name behind it. -/
theorem exponentLength_name {e d : Char} (he : e = 'e' ∨ e = 'E') (hd : isNameChar d = true)
    (rest : List Char) : exponentLength (e :: d :: rest) = 0 ↔ d.isDigit = false := by
  have hmark : (e == 'e' || e == 'E') = true := by simpa using he
  have hne : d ≠ '+' ∧ d ≠ '-' := by
    constructor <;> rintro rfl <;> exact absurd hd (by decide)
  have hsign : (d == '+' || d == '-') = false := by simp [hne]
  cases hdigit : d.isDigit with
  | true => simp [exponentLength, hmark, hsign, startsDigit, hdigit]
  | false => simp [exponentLength, hmark, hsign, startsDigit, hdigit]

theorem exponentLength_append (cs : List Char) {b : List Char} (hb : startsDigit b = false)
    (hnone : exponentLength cs = 0 → exponentLength b = 0) :
    exponentLength (cs.take (exponentLength cs) ++ b) = exponentLength cs := by
  rcases exponentLength_cases cs with hzero | ⟨e, sign, digits, he, hsign, hdigits, rfl⟩
  · rw [hzero]
    simpa using hnone hzero
  · have htake : (e :: (sign ++ digits)).take (1 + sign.length + digitsLength digits) =
        e :: (sign ++ digits.take (digitsLength digits)) := by
      rw [Nat.add_assoc, Nat.add_comm, List.take_succ_cons, List.take_length_add_append]
    rw [exponentLength_eq he hsign hdigits, htake, List.cons_append, List.append_assoc,
      exponentLength_eq he hsign (startsDigit_digits_append hdigits b),
      digitsLength_append digits hb]

theorem startsDigit_drop_fractionLength {cs : List Char} (h : startsDigit cs = false) :
    startsDigit (cs.drop (fractionLength cs)) = false := by
  fun_cases fractionLength cs with
  | case1 rest hdigit =>
      rw [Nat.add_comm, List.drop_succ_cons]
      exact startsDigit_drop_digitsLength rest
  | case2 => exact h
  | case3 => exact h

theorem startsDigit_drop_exponentLength {cs : List Char} (h : startsDigit cs = false) :
    startsDigit (cs.drop (exponentLength cs)) = false := by
  rcases exponentLength_cases cs with hzero | ⟨e, sign, digits, he, hsign, hdigits, rfl⟩
  · rwa [hzero, List.drop_zero]
  · rw [exponentLength_eq he hsign hdigits, Nat.add_assoc, Nat.add_comm, List.drop_succ_cons,
      List.drop_length_add_append]
    exact startsDigit_drop_digitsLength digits

theorem startsDigit_take_append {cs b : List Char} (hcs : startsDigit cs = false)
    (hb : startsDigit b = false) (n : Nat) : startsDigit (cs.take n ++ b) = false := by
  cases cs with
  | nil => simpa using hb
  | cons c cs =>
      cases n with
      | zero => simpa using hb
      | succ n => exact hcs

theorem fractionLength_take_append {cs b : List Char}
    (h : exponentLength cs = 0 → fractionLength b = 0) :
    fractionLength (cs.take (exponentLength cs) ++ b) = 0 := by
  rcases exponentLength_cases cs with hzero | ⟨e, sign, digits, he, hsign, hdigits, rfl⟩
  · rw [hzero]
    simpa using h hzero
  · rw [exponentLength_eq he hsign hdigits, Nat.add_assoc, Nat.add_comm, List.take_succ_cons]
    rcases he with rfl | rfl <;> rfl

theorem any_head_of_forall {a b : List Char}
    (h : ∀ c, b.head? = some c → c = ' ' ∨ a.head? = some c) {p : Char → Bool}
    (hp : p ' ' = false) (ha : a.head?.any p = false) : b.head?.any p = false := by
  cases hb : b.head? with
  | none => rfl
  | some c =>
      rcases h c hb with rfl | hc
      · exact hp
      · rwa [hc] at ha

/-- The text `b` ends every token that `a` ends: it goes on as `a` does, or with a space. -/
structure EndsAlike (a b : List Char) : Prop where
  nil : a = [] → b = []
  head : ∀ c, b.head? = some c → c = ' ' ∨ a.head? = some c
  fraction : fractionLength a = 0 → fractionLength b = 0
  exponent : exponentLength a = 0 → exponentLength b = 0

theorem EndsAlike.any {a b : List Char} (h : EndsAlike a b) {p : Char → Bool} (hp : p ' ' = false)
    (ha : a.head?.any p = false) : b.head?.any p = false :=
  any_head_of_forall h.head hp ha

theorem digitsLength_le (cs : List Char) : digitsLength cs ≤ cs.length :=
  (List.takeWhile_prefix _).length_le

theorem fractionLength_le (cs : List Char) : fractionLength cs ≤ cs.length := by
  fun_cases fractionLength cs with
  | case1 rest hdigit =>
      have := digitsLength_le rest
      simp only [List.length_cons]
      omega
  | case2 => omega
  | case3 => omega

theorem exponentLength_le (cs : List Char) : exponentLength cs ≤ cs.length := by
  rcases exponentLength_cases cs with hzero | ⟨e, sign, digits, he, hsign, hdigits, rfl⟩
  · omega
  · have := digitsLength_le digits
    rw [exponentLength_eq he hsign hdigits]
    simp only [List.length_cons, List.length_append]
    omega

theorem numberLength_le (cs : List Char) : numberLength cs ≤ cs.length := by
  have hdigits := digitsLength_le cs
  have hfraction := fractionLength_le (cs.drop (digitsLength cs))
  have hexponent := exponentLength_le
    (cs.drop (digitsLength cs + fractionLength (cs.drop (digitsLength cs))))
  simp only [List.length_drop] at hfraction hexponent
  simp only [numberLength]
  omega

theorem numberLength_append (cs : List Char) {b : List Char}
    (h : EndsAlike (cs.drop (numberLength cs)) b) :
    numberLength (cs.take (numberLength cs) ++ b) = numberLength cs := by
  generalize hn : digitsLength cs = n
  generalize hrest : cs.drop n = rest
  generalize hf : fractionLength rest = f
  generalize htail : rest.drop f = tail
  generalize he : exponentLength tail = e
  have hlength : numberLength cs = n + f + e := by
    simp [numberLength, ← List.drop_drop, hn, hrest, hf, htail, he]
  have hparts : cs.take (n + f + e) ++ b = cs.take n ++ (rest.take f ++ (tail.take e ++ b)) := by
    rw [List.take_add, List.take_add, ← List.drop_drop, hrest, htail]
    simp
  have hend : EndsAlike (tail.drop e) b := by
    rwa [hlength, ← List.drop_drop, ← List.drop_drop, hrest, htail] at h
  have hdigitRest : startsDigit rest = false := by
    rw [← hrest, ← hn]
    exact startsDigit_drop_digitsLength cs
  have hdigitTail : startsDigit tail = false := by
    rw [← htail, ← hf]
    exact startsDigit_drop_fractionLength hdigitRest
  have hdigit : startsDigit b = false := by
    refine hend.any (by decide) ?_
    rw [← he]
    exact startsDigit_drop_exponentLength hdigitTail
  have hdigitEnd := startsDigit_take_append hdigitTail hdigit e
  -- each part ends where it did, since what comes next starts no digits
  have hdigits : digitsLength (cs.take n ++ (rest.take f ++ (tail.take e ++ b))) = n := by
    rw [← hn]
    exact digitsLength_append cs (startsDigit_take_append hdigitRest hdigitEnd f)
  have hfraction : fractionLength (rest.take f ++ (tail.take e ++ b)) = f := by
    rw [← hf]
    refine fractionLength_append rest hdigitEnd fun hzero => ?_
    rw [← he]
    refine fractionLength_take_append fun hnone => hend.fraction ?_
    rwa [← he, hnone, ← htail, ← hf, hzero]
  have hexponent : exponentLength (tail.take e ++ b) = e := by
    rw [← he]
    refine exponentLength_append tail hdigit fun hzero => hend.exponent ?_
    rwa [← he, hzero]
  have hdropDigits : (cs.take n ++ (rest.take f ++ (tail.take e ++ b))).drop n =
      rest.take f ++ (tail.take e ++ b) :=
    List.drop_left' (List.length_take_of_le (hn ▸ digitsLength_le cs))
  have hdropFraction : (rest.take f ++ (tail.take e ++ b)).drop f = tail.take e ++ b :=
    List.drop_left' (List.length_take_of_le (hf ▸ fractionLength_le rest))
  rw [hlength, hparts]
  simp only [numberLength, ← List.drop_drop, hdigits, hdropDigits, hfraction, hdropFraction,
    hexponent]

/-! ## Numbers with a radix -/

/-- The digits that may come behind the mark of a radix. -/
def isRadixDigit (mark : Char) : Char → Bool :=
  if mark.toLower == 'h' then isHexDigit
  else if mark.toLower == 'o' then isOctalDigit
  else fun _ => false

/-- Is the name that starts with `mark` and goes on with `name` the mark and the digits of a
radix? -/
def isRadix (mark : Char) (name : List Char) : Bool :=
  !name.isEmpty && name.all (isRadixDigit mark)

theorem isNameChar_of_isRadixDigit {mark c : Char} (h : isRadixDigit mark c = true) :
    isNameChar c = true := by
  simp only [isRadixDigit] at h
  split at h
  · exact isNameChar_of_isHexDigit h
  · split at h
    · exact isNameChar_of_isOctalDigit h
    · cases h

theorem radixLength?_cons (mark : Char) (rest : List Char) :
    radixLength? (mark :: rest) =
      let digits := rest.takeWhile (isRadixDigit mark)
      let next := rest.dropWhile (isRadixDigit mark)
      if next.head? = some '&' then
        if digits.isEmpty || (next.drop 1).head?.any isNameChar then none
        else some (digits.length + 2)
      else if digits.isEmpty || next.head?.any isNameChar then none
      else some (digits.length + 1) := by
  have hdigits : (if mark.toLower == 'h' then rest.takeWhile isHexDigit
      else if mark.toLower == 'o' then rest.takeWhile isOctalDigit else []) =
      rest.takeWhile (isRadixDigit mark) := by
    rw [isRadixDigit]
    split
    · rfl
    · split
      · rfl
      · cases rest <;> simp
  simp only [radixLength?, hdigits, drop_length_takeWhile]
  by_cases hamp : (rest.dropWhile (isRadixDigit mark)).head? = some '&'
  · simp only [hamp, beq_self_eq_true, ↓reduceIte, ← List.drop_drop, drop_length_takeWhile]
  · simp only [hamp, beq_iff_eq, ↓reduceIte, drop_length_takeWhile]

/-- The length of a number with a radix, read from the name behind its `&` and what follows that
name. -/
theorem radixLength?_name {mark : Char} {name rest : List Char}
    (hname : ∀ c ∈ name, isNameChar c = true) (hrest : rest.head?.any isNameChar = false) :
    radixLength? (mark :: (name ++ rest)) =
      if isRadix mark name then
        if rest.head? = some '&' then
          if (rest.drop 1).head?.any isNameChar then none else some (name.length + 2)
        else some (name.length + 1)
      else none := by
  rw [radixLength?_cons]
  by_cases hall : name.all (isRadixDigit mark) = true
  · have hstop : rest.head?.any (isRadixDigit mark) = false := by
      cases hd : rest.head? with
      | none => rfl
      | some c =>
          rw [hd] at hrest
          by_contra hc
          rw [Option.any_some, Bool.not_eq_false] at hc
          simp [isNameChar_of_isRadixDigit hc] at hrest
    have hdigits : (name ++ rest).takeWhile (isRadixDigit mark) = name :=
      takeWhile_append_eq (List.all_eq_true.mp hall) hstop
    have hnext : (name ++ rest).dropWhile (isRadixDigit mark) = rest := by
      rw [← drop_length_takeWhile, hdigits, List.drop_left]
    simp only [hdigits, hnext, isRadix, hall, hrest, Bool.and_true, Bool.or_false]
    cases name <;> simp
  · -- some character of the name is no digit, and the first such one comes next
    have hnext : ∃ c tail, (name ++ rest).dropWhile (isRadixDigit mark) = c :: tail ∧
        isNameChar c = true := by
      obtain ⟨c, tail, hdrop, hmem⟩ := exists_dropWhile_append hall rest
      exact ⟨c, tail, hdrop, hname c hmem⟩
    obtain ⟨c, tail, hnext, hc⟩ := hnext
    have hamp : c ≠ '&' := by
      rintro rfl
      exact absurd hc (by decide)
    simp [hnext, hc, hamp, isRadix, hall]

/-- The mark of a radix starts a name. -/
theorem mark_of_isRadix {mark : Char} {name : List Char} (h : isRadix mark name = true) :
    isNameChar mark = true ∧ mark.isDigit = false ∧ mark ≠ '_' := by
  cases name with
  | nil => cases h
  | cons d name =>
      have hd : isRadixDigit mark d = true := by
        simp only [isRadix, List.all_cons, Bool.and_eq_true] at h
        exact h.2.1
      have hmark : mark.toLower = 'h' ∨ mark.toLower = 'o' := by
        by_contra hne
        rw [not_or] at hne
        simp [isRadixDigit, hne] at hd
      have hascii : isAscii mark = true := by
        have hlower := toNat_toLower mark
        have hh : 'h'.toNat = 104 := rfl
        have ho : 'o'.toNat = 111 := rfl
        simp only [isAscii, decide_eq_true_eq]
        rcases hmark with hm | hm <;> rw [hm] at hlower <;> split at hlower <;> omega
      have hall := forall_isAscii (P := fun c => !(c.toLower == 'h' || c.toLower == 'o') ||
        isNameChar c && !c.isDigit && c != '_') (by decide +kernel) hascii
      rcases hmark with hm | hm <;> simpa [hm, and_assoc] using hall

theorem isNameChar_of_mem_radix {mark : Char} {name : List Char} (h : isRadix mark name = true) :
    ∀ c ∈ name, isNameChar c = true := by
  intro c hc
  rw [isRadix, Bool.and_eq_true, List.all_eq_true] at h
  exact isNameChar_of_isRadixDigit (h.2 c hc)

/-- A number with a radix may end with an `&`. -/
theorem radixLength?_eq {mark : Char} {name close rest : List Char}
    (hradix : isRadix mark name = true)
    (hclose : close = ['&'] ∨ close = [] ∧ rest.head? ≠ some '&')
    (hrest : rest.head?.any isNameChar = false) :
    radixLength? (mark :: (name ++ (close ++ rest))) = some (name.length + close.length + 1) := by
  have hamp : isNameChar '&' = false := by decide
  have hnames := isNameChar_of_mem_radix hradix
  rcases hclose with rfl | ⟨rfl, hne⟩
  · rw [radixLength?_name hnames (by simpa using hamp), if_pos hradix]
    simp [hrest]
  · rw [List.nil_append, radixLength?_name hnames hrest, if_pos hradix, if_neg hne]
    rfl

theorem radixLength?_eq_some {cs : List Char} {n : Nat} (h : radixLength? cs = some n) :
    ∃ mark name close rest, cs = mark :: (name ++ (close ++ rest)) ∧ isRadix mark name = true ∧
      (close = ['&'] ∨ close = [] ∧ rest.head? ≠ some '&') ∧
      rest.head?.any isNameChar = false ∧ n = name.length + close.length + 1 := by
  cases cs with
  | nil => cases h
  | cons mark cs =>
      have hstop := head?_dropWhile isNameChar cs
      rw [← List.takeWhile_append_dropWhile (p := isNameChar) (l := cs)] at h ⊢
      rw [radixLength?_name (fun c => List.mem_takeWhile_imp) hstop] at h
      generalize cs.takeWhile isNameChar = name at *
      generalize cs.dropWhile isNameChar = rest at *
      split at h
      · next hradix =>
          split at h
          · next hamp =>
              obtain ⟨tail, rfl⟩ := List.head?_eq_some_iff.mp hamp
              split at h
              · cases h
              · next hend =>
                  cases h
                  exact ⟨mark, name, ['&'], tail, rfl, hradix, .inl rfl, by simpa using hend, rfl⟩
          · next hamp =>
              cases h
              exact ⟨mark, name, [], rest, rfl, hradix, .inr ⟨rfl, hamp⟩, hstop, rfl⟩
      · cases h

theorem take_radix (mark : Char) (name close rest : List Char) :
    (mark :: (name ++ (close ++ rest))).take (name.length + close.length + 1) =
      mark :: (name ++ close) := by
  rw [List.take_succ_cons, ← List.append_assoc, ← List.length_append, List.take_left]

theorem drop_radix (mark : Char) (name close rest : List Char) :
    (mark :: (name ++ (close ++ rest))).drop (name.length + close.length + 1) = rest := by
  rw [List.drop_succ_cons, ← List.append_assoc, ← List.length_append, List.drop_left]

theorem radixLength?_append {cs : List Char} {n : Nat} (hn : radixLength? cs = some n)
    {b : List Char} (h : EndsAlike (cs.drop n) b) : radixLength? (cs.take n ++ b) = some n := by
  obtain ⟨mark, name, close, rest, rfl, hradix, hclose, hrest, rfl⟩ := radixLength?_eq_some hn
  rw [drop_radix] at h
  rw [take_radix, List.cons_append, List.append_assoc]
  refine radixLength?_eq hradix ?_ (h.any (by decide) hrest)
  refine hclose.imp_right fun hnone => ⟨hnone.1, fun hhead => ?_⟩
  rcases h.head _ hhead with hspace | hamp
  · cases hspace
  · exact hnone.2 hamp

/-! ## Operators -/

/-- The operators of two characters, which are looked for first, and those of one. -/
def pairOperators : List (List Char) := ["<>", "<=", ">="].map String.toList

@[inherit_doc pairOperators]
def singleOperators : List (List Char) :=
  ["=", "<", ">", "+", "-", "*", "/", "\\", "^", "&"].map String.toList

theorem operators_eq : operators = pairOperators ++ singleOperators := rfl

theorem exists_of_mem_pairOperators {op : List Char} (h : op ∈ pairOperators) :
    ∃ x y, op = [x, y] ∧ y ≠ ' ' := by
  have hall : ∀ op ∈ pairOperators, op.length = 2 ∧ op[1]? ≠ some ' ' := by decide
  obtain ⟨hlength, hspace⟩ := hall op h
  obtain ⟨x, y, rfl⟩ := List.length_eq_two.mp hlength
  exact ⟨x, y, rfl, by simpa using hspace⟩

theorem exists_of_mem_singleOperators {op : List Char} (h : op ∈ singleOperators) :
    ∃ x, op = [x] := by
  have hall : ∀ op ∈ singleOperators, op.length = 1 := by decide
  exact List.length_eq_one_iff.mp (hall op h)

/-- An operator at the start ends where it did before other text too, if that does not make it a
longer one. -/
theorem find?_operators_append {c : Char} {rest op : List Char}
    (h : operators.find? (·.isPrefixOf (c :: rest)) = some op) {b : List Char}
    (hb : ∀ d, b.head? = some d → d = ' ' ∨ (rest.drop (op.length - 1)).head? = some d) :
    operators.find? (·.isPrefixOf (c :: (rest.take (op.length - 1) ++ b))) = some op := by
  rw [operators_eq, List.find?_append] at h ⊢
  cases hpair : pairOperators.find? (·.isPrefixOf (c :: rest)) with
  | some pair =>
      obtain rfl : pair = op := by simpa [hpair] using h
      obtain ⟨x, y, rfl, -⟩ := exists_of_mem_pairOperators (List.mem_of_find?_eq_some hpair)
      cases rest with
      | nil => simpa using List.find?_some hpair
      | cons d rest =>
          have hsame : pairOperators.find? (·.isPrefixOf (c :: d :: b)) =
              pairOperators.find? (·.isPrefixOf (c :: d :: rest)) := rfl
          simp [hsame, hpair]
  | none =>
      have hsingle : singleOperators.find? (·.isPrefixOf (c :: rest)) = some op := by
        simpa [hpair] using h
      obtain ⟨x, rfl⟩ := exists_of_mem_singleOperators (List.mem_of_find?_eq_some hsingle)
      have hnone : pairOperators.find? (·.isPrefixOf (c :: b)) = none := by
        rw [List.find?_eq_none] at hpair ⊢
        intro pair hmem hpre
        refine hpair pair hmem ?_
        obtain ⟨x, y, rfl, hy⟩ := exists_of_mem_pairOperators hmem
        obtain ⟨rfl, hhead⟩ : x = c ∧ b.head? = some y := by
          cases b <;> simp_all
        obtain ⟨tail, htail⟩ := List.head?_eq_some_iff.mp ((hb y hhead).resolve_left hy)
        have hrest : rest = y :: tail := htail
        simp [hrest]
      have hsame : singleOperators.find? (·.isPrefixOf (c :: b)) =
          singleOperators.find? (·.isPrefixOf (c :: rest)) := rfl
      simp [hnone, hsame, hsingle]

theorem find?_operators_eq_none {c : Char} {rest : List Char}
    (h : operators.find? (·.isPrefixOf (c :: rest)) = none) (b : List Char) :
    operators.find? (·.isPrefixOf (c :: b)) = none := by
  have hsingle : ∀ op ∈ operators, op.take 1 ∈ operators := by decide
  rw [List.find?_eq_none] at h ⊢
  intro op hop hpre
  cases op with
  | nil => exact absurd hop (by decide)
  | cons d op =>
      obtain rfl : d = c := by
        simp at hpre
        exact hpre.1
      exact h [d] (hsingle _ hop) (by simp)

/-! ## Where tokens end -/

theorem lengthThrough_eq {stop : Char} {front : List Char} (h : stop ∉ front) (rest : List Char) :
    lengthThrough stop (front ++ stop :: rest) = front.length + 1 := by
  have hfront : (front ++ stop :: rest).takeWhile (· != stop) = front := by
    refine takeWhile_append_eq (fun c hc => ?_) (by simp)
    simpa using fun heq : c = stop => h (heq ▸ hc)
  rw [lengthThrough, hfront, List.drop_left]
  simp

/-- What is taken up to a character is all, or ends with the first such character. -/
theorem lengthThrough_cases (stop : Char) (cs : List Char) :
    lengthThrough stop cs = cs.length ∨ ∃ front rest, stop ∉ front ∧ cs = front ++ stop :: rest ∧
      lengthThrough stop cs = front.length + 1 := by
  by_cases hmem : stop ∈ cs
  · obtain ⟨front, rest, rfl, hfront⟩ := List.eq_append_cons_of_mem hmem
    exact .inr ⟨front, rest, hfront, rfl, lengthThrough_eq hfront rest⟩
  · have hall : cs.takeWhile (· != stop) = cs := by
      refine List.takeWhile_eq_self_iff.mpr fun c hc => ?_
      simpa using fun heq : c = stop => hmem (heq ▸ hc)
    left
    rw [lengthThrough, hall]
    simp

theorem take_lengthThrough {stop : Char} {cs : List Char}
    (h : cs.drop (lengthThrough stop cs) ≠ []) :
    ∃ front, cs.take (lengthThrough stop cs) = front ++ [stop] := by
  rcases lengthThrough_cases stop cs with hall | ⟨front, rest, -, rfl, hlength⟩
  · rw [hall, List.drop_length] at h
    exact absurd rfl h
  · refine ⟨front, ?_⟩
    rw [hlength, List.take_length_add_append]
    rfl

theorem lengthThrough_append (stop : Char) (cs : List Char) {b : List Char}
    (hb : cs.drop (lengthThrough stop cs) = [] → b = []) :
    lengthThrough stop (cs.take (lengthThrough stop cs) ++ b) = lengthThrough stop cs := by
  rcases lengthThrough_cases stop cs with hall | ⟨front, rest, hfront, rfl, hlength⟩
  · rw [hall, List.drop_length] at hb
    rw [hall, hb rfl, List.append_nil, List.take_length, hall]
  · have htake : (front ++ stop :: rest).take (front.length + 1) ++ b = front ++ stop :: b := by
      rw [List.take_length_add_append]
      simp
    rw [hlength, htake, lengthThrough_eq hfront]

theorem numberLength_pos {cs : List Char} (h : startsDigit cs = true) : 0 < numberLength cs := by
  have hdigits : 0 < digitsLength cs := by
    cases cs with
    | nil => cases h
    | cons c cs =>
        have hc : c.isDigit = true := by simpa [startsDigit] using h
        simp [digitsLength, List.takeWhile_cons_of_pos hc]
  simp only [numberLength]
  omega

/-- The character is no part of a name, and opens neither a placeholder nor brackets. -/
def IsMark (c : Char) : Prop := isNameChar c = false ∧ c ≠ Masked.opening ∧ c ≠ '['

/-- The kind and the length of a token, by its first character. -/
inductive Measured : Char → List Char → TokenKind → Nat → Prop where
  | placeholder {rest} : Measured Masked.opening rest .word (lengthThrough Masked.closing rest)
  | bracketed {rest} : Measured '[' rest .word (lengthThrough ']' rest)
  | fraction {rest} (hdigit : startsDigit rest = true) :
      Measured '.' rest .number (numberLength rest)
  | number {c rest n} (hdigit : c.isDigit = true) (hn : numberLength (c :: rest) = n + 1) :
      Measured c rest .number n
  | name {c rest} (hname : isNameChar c = true) (hdigit : c.isDigit = false) :
      Measured c rest .word (rest.takeWhile isNameChar).length
  | radix {rest n} (hn : radixLength? rest = some n) : Measured '&' rest .number n
  | operator {c rest op} (hmark : IsMark c) (hradix : c = '&' → radixLength? rest = none)
      (hfind : operators.find? (·.isPrefixOf (c :: rest)) = some op) :
      Measured c rest .operator (op.length - 1)
  | punctuation {c rest} (hmark : IsMark c) (hpoint : c = '.' → startsDigit rest = false)
      (hfind : operators.find? (·.isPrefixOf (c :: rest)) = none) :
      Measured c rest (punctuation c) 0

theorem measured (c : Char) (rest : List Char) :
    Measured c rest (measure c rest).1 (measure c rest).2 := by
  fun_cases measure c rest with
  | case1 hc =>
      obtain rfl : c = Masked.opening := by simpa using hc
      exact .placeholder
  | case2 hc hbracket =>
      obtain rfl : c = '[' := by simpa using hbracket
      exact .bracketed
  | case3 hc hbracket hpoint =>
      rw [Bool.and_eq_true, beq_iff_eq] at hpoint
      obtain ⟨rfl, hdigit⟩ := hpoint
      exact .fraction hdigit
  | case4 hc hbracket hpoint hdigit =>
      have hpos : 0 < numberLength (c :: rest) :=
        numberLength_pos (by simpa [startsDigit] using hdigit)
      exact .number hdigit (Nat.sub_add_cancel hpos).symm
  | case5 hc hbracket hpoint hdigit hname => exact .name hname (by simpa using hdigit)
  | case6 hc hbracket hpoint hdigit hname n hradix =>
      split at hradix
      · next hamp =>
          obtain rfl : c = '&' := by simpa using hamp
          exact .radix hradix
      · cases hradix
  | case7 hc hbracket hpoint hdigit hname hradix op hfind =>
      refine .operator ⟨by simpa using hname, by simpa using hc, by simpa using hbracket⟩ ?_ hfind
      rintro rfl
      simpa using hradix
  | case8 hc hbracket hpoint hdigit hname hradix hfind =>
      refine .punctuation
        ⟨by simpa using hname, by simpa using hc, by simpa using hbracket⟩ ?_ hfind
      rintro rfl
      simpa using hpoint

theorem Measured.measure_eq {c : Char} {rest : List Char} {kind : TokenKind} {n : Nat}
    (h : Measured c rest kind n) : measure c rest = (kind, n) := by
  cases h with
  | placeholder => rw [measure, if_pos (by simp)]
  | bracketed => rw [measure, if_neg (by decide), if_pos (by simp)]
  | fraction hdigit =>
      rw [measure, if_neg (by decide), if_neg (by decide), if_pos (by simp [hdigit])]
  | number hdigit hn =>
      have hne : ∀ d : Char, d.isDigit = false → c ≠ d := by
        rintro d hd rfl
        rw [hdigit] at hd
        cases hd
      rw [measure, if_neg (by simpa using hne _ (by decide)),
        if_neg (by simpa using hne _ (by decide)), if_neg (by simp [hne '.' (by decide)]),
        if_pos hdigit, hn, Nat.add_sub_cancel]
  | name hname hdigit =>
      have hne : ∀ d : Char, isNameChar d = false → c ≠ d := by
        rintro d hd rfl
        rw [hname] at hd
        cases hd
      rw [measure, if_neg (by simpa using hne _ (by decide +kernel)),
        if_neg (by simpa using hne _ (by decide)),
        if_neg (by simp [hne '.' (by decide)]), if_neg (by simp [hdigit]), if_pos hname]
  | radix hn =>
      have hname : isNameChar '&' = false := by decide
      rw [measure, if_neg (by decide), if_neg (by decide), if_neg (by simp), if_neg (by decide),
        if_neg (by simp [hname]), if_pos (by simp), hn]
  | operator hmark hradix hfind =>
      obtain ⟨hname, hopening, hbracket⟩ := hmark
      have hdigit : ¬c.isDigit = true := fun hc => by simp [isNameChar_of_isDigit hc] at hname
      have hpoint : c ≠ '.' := by
        rintro rfl
        cases hfind
      have hnone : (if c == '&' then radixLength? rest else none) = none := by
        split
        · next hamp => exact hradix (by simpa using hamp)
        · rfl
      rw [measure, if_neg (by simpa using hopening), if_neg (by simpa using hbracket),
        if_neg (by simp [hpoint]), if_neg hdigit, if_neg (by simp [hname]), hnone, hfind]
  | punctuation hmark hpoint hfind =>
      obtain ⟨hname, hopening, hbracket⟩ := hmark
      have hdigit : ¬c.isDigit = true := fun hc => by simp [isNameChar_of_isDigit hc] at hname
      have hamp : c ≠ '&' := by
        rintro rfl
        cases hfind
      have hstart : ¬(c == '.' && startsDigit rest) = true := by
        intro hboth
        rw [Bool.and_eq_true, beq_iff_eq] at hboth
        rw [hpoint hboth.1] at hboth
        cases hboth.2
      rw [measure, if_neg (by simpa using hopening), if_neg (by simpa using hbracket),
        if_neg hstart, if_neg hdigit, if_neg (by simp [hname]), if_neg (by simpa using hamp), hfind]

theorem measured_sign {c : Char} (hc : c = '+' ∨ c = '-') (rest : List Char) :
    Measured c rest .operator 0 := by
  rcases hc with rfl | rfl
  · show Measured '+' rest .operator (['+'].length - 1)
    exact .operator ⟨by decide, by decide, by decide⟩ (by simp) rfl
  · show Measured '-' rest .operator (['-'].length - 1)
    exact .operator ⟨by decide, by decide, by decide⟩ (by simp) rfl

theorem Measured.unique {c : Char} {rest : List Char} {kind kind' : TokenKind} {n n' : Nat}
    (h : Measured c rest kind n) (h' : Measured c rest kind' n') : kind = kind' ∧ n = n' :=
  Prod.mk.inj (h.measure_eq.symm.trans h'.measure_eq)

theorem Measured.kind_of_isNameChar {c : Char} {rest : List Char} {kind : TokenKind} {n : Nat}
    (h : Measured c rest kind n) (hc : isNameChar c = true) : kind = .number ∨ kind = .word := by
  cases h with
  | placeholder => exact .inr rfl
  | bracketed => exact .inr rfl
  | fraction => exact .inl rfl
  | number => exact .inl rfl
  | name => exact .inr rfl
  | radix => exact .inl rfl
  | operator hmark =>
      rw [hmark.1] at hc
      cases hc
  | punctuation hmark =>
      rw [hmark.1] at hc
      cases hc

theorem measured_ampersand {rest : List Char} (h : radixLength? rest = none) :
    Measured '&' rest .operator 0 := by
  show Measured '&' rest .operator (['&'].length - 1)
  exact .operator ⟨by decide, by decide, by decide⟩ (fun _ => h) rfl

/-- An opening bracket is one before any text. -/
theorem Measured.append_of_opening {c : Char} {rest : List Char} {kind : TokenKind} {n : Nat}
    (h : Measured c rest kind n) (hkind : kind = .opening) (b : List Char) :
    Measured c (rest.take n ++ b) kind n := by
  cases h with
  | punctuation hmark hpoint hfind =>
      refine .punctuation hmark ?_ (find?_operators_eq_none hfind _)
      rintro rfl
      cases hkind
  | _ => cases hkind

theorem lengthThrough_le (stop : Char) (cs : List Char) : lengthThrough stop cs ≤ cs.length := by
  rcases lengthThrough_cases stop cs with hall | ⟨front, rest, -, rfl, hlength⟩
  · omega
  · rw [hlength]
    simp

theorem Measured.le_length {c : Char} {rest : List Char} {kind : TokenKind} {n : Nat}
    (h : Measured c rest kind n) : n ≤ rest.length := by
  cases h with
  | placeholder => exact lengthThrough_le ..
  | bracketed => exact lengthThrough_le ..
  | fraction => exact numberLength_le rest
  | number hdigit hn =>
      have hle := numberLength_le (c :: rest)
      rw [hn, List.length_cons] at hle
      omega
  | name => exact (List.takeWhile_prefix _).length_le
  | radix hn =>
      obtain ⟨mark, name, close, tail, rfl, -, -, -, rfl⟩ := radixLength?_eq_some hn
      simp only [List.length_cons, List.length_append]
      omega
  | @operator _ _ op _ _ hfind =>
      have hpre : op <+: c :: rest := by simpa using List.find?_some hfind
      have hle := hpre.length_le
      rw [List.length_cons] at hle
      omega
  | punctuation => omega

/-- A token ends where it did before any text that ends tokens alike. For an `&` that is no
number this takes that the other text does not make it one. -/
theorem Measured.append {c : Char} {rest b : List Char} {kind : TokenKind} {n : Nat}
    (hm : Measured c rest kind n) (h : EndsAlike (rest.drop n) b)
    (hamp : c = '&' → kind = .operator → radixLength? b = none) :
    Measured c (rest.take n ++ b) kind n := by
  cases hm with
  | placeholder =>
      have hend : Measured Masked.opening
          (rest.take (lengthThrough Masked.closing rest) ++ b) _ _ := .placeholder
      rwa [lengthThrough_append _ _ h.nil] at hend
  | bracketed =>
      have hend : Measured '[' (rest.take (lengthThrough ']' rest) ++ b) _ _ := .bracketed
      rwa [lengthThrough_append _ _ h.nil] at hend
  | fraction hdigit =>
      obtain ⟨n, hn⟩ := Nat.exists_eq_add_one.mpr (numberLength_pos hdigit)
      have hstart : startsDigit (rest.take (numberLength rest) ++ b) = true := by
        cases rest with
        | nil => cases hdigit
        | cons d rest =>
            rw [hn]
            exact hdigit
      have hend := Measured.fraction hstart
      rwa [numberLength_append rest h] at hend
  | number hdigit hn =>
      refine .number hdigit ?_
      have hlength := numberLength_append (c :: rest) (b := b) (by rwa [hn])
      rwa [hn, List.take_succ_cons, List.cons_append] at hlength
  | name hname hdigit =>
      rw [drop_length_takeWhile] at h
      have hstop : b.head?.any isNameChar = false :=
        h.any (by decide) (head?_dropWhile ..)
      have hend : Measured c (rest.takeWhile isNameChar ++ b) _ _ := .name hname hdigit
      rw [takeWhile_append_eq (fun d => List.mem_takeWhile_imp) hstop] at hend
      rwa [take_length_takeWhile]
  | radix hn => exact .radix (radixLength?_append hn h)
  | @operator _ _ op hmark hradix hfind =>
      refine .operator hmark ?_ (find?_operators_append hfind h.head)
      rintro rfl
      obtain rfl : ['&'] = op := Option.some.inj hfind
      exact hamp rfl rfl
  | punctuation hmark hpoint hfind =>
      refine .punctuation hmark ?_ (find?_operators_eq_none hfind _)
      intro hc
      exact h.any (by decide) (hpoint hc)

/-! ## The characters of tokens -/

/-- May the character stand in a token behind its first one? Texts in brackets and placeholders
apart. -/
def isInner (c : Char) : Bool := isNameChar c || ['.', '+', '-', '&', '>', '='].contains c

theorem isInner_of_isDigit {c : Char} (h : c.isDigit = true) : isInner c = true := by
  rw [isInner, isNameChar_of_isDigit h, Bool.true_or]

theorem isInner_digits (cs : List Char) : ∀ c ∈ cs.take (digitsLength cs), isInner c = true := by
  intro c hc
  rw [take_digitsLength] at hc
  exact isInner_of_isDigit (List.mem_takeWhile_imp hc)

theorem isInner_fraction (cs : List Char) :
    ∀ c ∈ cs.take (fractionLength cs), isInner c = true := by
  fun_cases fractionLength cs with
  | case1 rest hdigit =>
      rw [Nat.add_comm, List.take_succ_cons, List.forall_mem_cons]
      exact ⟨by decide, isInner_digits rest⟩
  | case2 => simp
  | case3 => simp

theorem isInner_exponent (cs : List Char) :
    ∀ c ∈ cs.take (exponentLength cs), isInner c = true := by
  rcases exponentLength_cases cs with hzero | ⟨e, sign, digits, he, hsign, hdigits, rfl⟩
  · simp [hzero]
  · have hmark : isInner e = true := by rcases he with rfl | rfl <;> decide
    have hsigns : sign.all isInner = true := by
      rcases hsign with rfl | rfl | rfl <;> decide
    rw [exponentLength_eq he hsign hdigits, Nat.add_assoc, Nat.add_comm, List.take_succ_cons,
      List.take_length_add_append, List.forall_mem_cons, List.forall_mem_append]
    exact ⟨hmark, List.all_eq_true.mp hsigns, isInner_digits digits⟩

theorem isInner_number (cs : List Char) : ∀ c ∈ cs.take (numberLength cs), isInner c = true := by
  simp only [numberLength]
  rw [List.take_add, List.take_add, List.forall_mem_append, List.forall_mem_append]
  exact ⟨⟨isInner_digits cs, isInner_fraction _⟩, isInner_exponent _⟩

theorem isInner_radix {cs : List Char} {n : Nat} (h : radixLength? cs = some n) :
    ∀ c ∈ cs.take n, isInner c = true := by
  obtain ⟨mark, name, close, rest, rfl, hradix, hclose, -, rfl⟩ := radixLength?_eq_some h
  have hnames : ∀ c ∈ name, isInner c = true := fun c hc => by
    rw [isInner, isNameChar_of_mem_radix hradix c hc, Bool.true_or]
  have hends : close.all isInner = true := by
    rcases hclose with rfl | ⟨rfl, -⟩ <;> decide
  rw [take_radix, List.forall_mem_cons, List.forall_mem_append]
  exact ⟨by rw [isInner, (mark_of_isRadix hradix).1, Bool.true_or], hnames,
    List.all_eq_true.mp hends⟩

theorem isInner_operator {c : Char} {rest op : List Char}
    (h : operators.find? (·.isPrefixOf (c :: rest)) = some op) :
    ∀ d ∈ rest.take (op.length - 1), isInner d = true := by
  have hall : ∀ op ∈ operators, (op.drop 1).all isInner = true := by decide
  have hpre : op <+: c :: rest := by simpa using List.find?_some h
  intro d hd
  refine List.all_eq_true.mp (hall op (List.mem_of_find?_eq_some h)) d ?_
  rw [List.prefix_iff_eq_take.mp hpre, List.drop_take]
  exact hd

/-- Texts in brackets and placeholders apart, a token is its first character and inner ones. -/
theorem Measured.isInner {c : Char} {rest : List Char} {kind : TokenKind} {n : Nat}
    (hm : Measured c rest kind n) (hc : c ≠ Masked.opening ∧ c ≠ '[') :
    ∀ d ∈ rest.take n, isInner d = true := by
  cases hm with
  | placeholder => exact absurd rfl hc.1
  | bracketed => exact absurd rfl hc.2
  | fraction => exact isInner_number rest
  | number hdigit hn =>
      have hall := isInner_number (c :: rest)
      rw [hn, List.take_succ_cons, List.forall_mem_cons] at hall
      exact hall.2
  | name =>
      rw [take_length_takeWhile]
      intro d hd
      rw [Token.isInner, List.mem_takeWhile_imp hd, Bool.true_or]
  | radix hn => exact isInner_radix hn
  | operator _ _ hfind => exact isInner_operator hfind
  | punctuation => simp

end Token

end ClassicAsp
