import ClassicAsp.Literal
import ClassicAsp.Proofs.Restyling

/-! # Pieces of a line, masks and restored code

A line is the concatenation of its pieces. If masked code is restyled and can be restored, each
placeholder is still the one that was written for its literal, so that the literals come back in
their places. -/

namespace ClassicAsp

open Text

/-! ## Pieces -/

namespace Piece

/-- The text of pieces. -/
def join (pieces : List Piece) : List Char := pieces.flatMap text

@[simp] theorem join_nil : join [] = [] := rfl

@[simp] theorem join_cons (p : Piece) (ps : List Piece) : join (p :: ps) = p.text ++ join ps := rfl

@[simp] theorem join_append (front back : List Piece) :
    join (front ++ back) = join front ++ join back :=
  List.flatMap_append

/-- Code and literals as cutting leaves them: a literal starts with its delimiter, and only one
that nothing closes and nothing follows can end with a percent sign. -/
inductive Row : List Piece → Prop where
  | nil : Row []
  | code (c : Char) {ps} : Row ps → Row (.code c :: ps)
  | literal {t ps} (hhead : t.head? = some '"' ∨ t.head? = some '#')
      (hlast : t.getLast? = some '%' → ps = []) : Row ps → Row (.literal t :: ps)

/-- What follows code and literals: nothing, or a comment after blanks. -/
def Closing (tail : List Piece) : Prop :=
  tail = [] ∨ ∃ gap t, tail = [.comment gap t] ∧ allBlank gap = true

theorem Row.eq_nil {ps : List Piece} (h : Row ps) (hjoin : join ps = []) : ps = [] := by
  cases h with
  | nil => rfl
  | code => simp [text] at hjoin
  | literal hhead =>
      obtain ⟨rfl, -⟩ : _ = [] ∧ _ := by simpa [text] using hjoin
      simp at hhead

theorem stringLength_spec (n : Nat) (cs : List Char) :
    ∃ k, stringLength n cs = n + k ∧
      (cs.drop k = [] ∨ (cs.take k).getLast? = some '"') := by
  fun_induction stringLength n cs with
  | case1 n rest ih =>
      obtain ⟨k, hk, hrest⟩ := ih
      refine ⟨k + 2, by rw [hk]; omega, ?_⟩
      rcases hrest with hnil | hlast
      · exact .inl (by simpa using hnil)
      · refine .inr ?_
        rw [List.take_succ_cons, List.take_succ_cons, List.getLast?_cons_cons,
          List.getLast?_cons, hlast]
        rfl
  | case2 n rest hne => exact ⟨1, rfl, .inr rfl⟩
  | case3 n c rest hpair hquote ih =>
      obtain ⟨k, hk, hrest⟩ := ih
      refine ⟨k + 1, by rw [hk]; omega, ?_⟩
      rcases hrest with hnil | hlast
      · exact .inl (by simpa using hnil)
      · refine .inr ?_
        rw [List.take_succ_cons, List.getLast?_cons, hlast]
        rfl
  | case4 n => exact ⟨0, rfl, .inl rfl⟩

theorem dateLength?_spec {cs : List Char} {n : Nat} (h : dateLength? cs = some n) :
    (cs.take n).getLast? = some '#' := by
  simp only [dateLength?, drop_length_takeWhile] at h
  cases hd : cs.dropWhile (· != '#') with
  | nil => simp [hd] at h
  | cons c rest =>
      obtain rfl : c = '#' := by
        have := List.head?_dropWhile_not (· != '#') cs
        simpa [hd] using this
      obtain rfl : (cs.takeWhile (· != '#')).length + 1 = n := by
        rw [hd] at h
        split at h
        · cases h
        · split at h
          · exact Option.some.inj h
          · cases h
      rw [List.take_add, take_length_takeWhile, drop_length_takeWhile, hd]
      simp

/-- A literal starts with its delimiter, and ends with it or with the line. -/
theorem literalLength?_spec {c : Char} {rest : List Char} {n : Nat}
    (h : literalLength? c rest = some n) :
    (c = '"' ∨ c = '#') ∧
      (rest.drop n = [] ∨ (c :: rest.take n).getLast? ≠ some '%') := by
  rw [literalLength?] at h
  split at h
  · next hc =>
      rw [beq_iff_eq] at hc
      obtain ⟨k, hk, hrest⟩ := stringLength_spec 0 rest
      obtain rfl : k = n := by simpa [hk] using h
      refine ⟨.inl hc, hrest.imp_right fun hlast => ?_⟩
      rw [List.getLast?_cons, hlast]
      simp
  · split at h
    · next hc =>
        rw [beq_iff_eq] at hc
        refine ⟨.inr hc, .inr ?_⟩
        rw [List.getLast?_cons, dateLength?_spec h]
        simp
    · cases h

theorem comment?_spec {c : Char} {rest : List Char} {ending : List Piece}
    (h : comment? c rest = some ending) :
    ∃ ps tail, ending = ps ++ tail ∧ Row ps ∧ Closing tail ∧ join (ps ++ tail) = c :: rest := by
  rw [comment?] at h
  split at h
  · obtain rfl := Option.some.inj h
    exact ⟨[], _, rfl, .nil, .inr ⟨[], c :: rest, rfl, rfl⟩, by simp [text]⟩
  · split at h
    · obtain rfl := Option.some.inj h
      refine ⟨[.code c], _, rfl, .code c .nil, .inr ⟨_, _, rfl, by simp⟩, ?_⟩
      simp [text, trimStart]
    · cases h

theorem cutAfter_spec (skip : Nat) (done : List Piece) (cs : List Char) :
    ∃ ps tail, cutAfter skip done cs = done.reverse ++ (ps ++ tail) ∧ Row ps ∧ Closing tail ∧
      join (ps ++ tail) = cs.drop skip := by
  induction cs generalizing skip done with
  | nil => exact ⟨[], [], by simp [cutAfter], .nil, .inl rfl, by simp⟩
  | cons c rest ih =>
      cases skip with
      | succ skip =>
          rw [cutAfter, List.drop_succ_cons]
          exact ih skip done
      | zero =>
          rw [cutAfter, List.drop_zero]
          split
          · next n hlit =>
              obtain ⟨hdelim, hend⟩ := literalLength?_spec hlit
              obtain ⟨ps, tail, hcut, hrow, htail, hjoin⟩ :=
                ih n (.literal (c :: rest.take n) :: done)
              refine ⟨.literal (c :: rest.take n) :: ps, tail, by rw [hcut]; simp, ?_, htail, ?_⟩
              · refine .literal (by simpa using hdelim) ?_ hrow
                intro hpercent
                rcases hend with hnil | hne
                · rw [hnil, join_append, List.append_eq_nil_iff] at hjoin
                  exact hrow.eq_nil hjoin.1
                · exact absurd hpercent hne
              · rw [List.cons_append, join_cons, hjoin]
                simp [text]
          · split
            · next ending hcomment =>
                obtain ⟨ps, tail, rfl, hrow, htail, hjoin⟩ := comment?_spec hcomment
                exact ⟨ps, tail, rfl, hrow, htail, hjoin⟩
            · obtain ⟨ps, tail, hcut, hrow, htail, hjoin⟩ := ih 0 (.code c :: done)
              refine ⟨.code c :: ps, tail, by rw [hcut]; simp, .code c hrow, htail, ?_⟩
              rw [List.cons_append, join_cons, hjoin]
              simp [text]

/-- A line is code and literals, and a comment behind them or not. -/
theorem cut_spec (line : List Char) :
    ∃ ps tail, cut line = ps ++ tail ∧ Row ps ∧ Closing tail ∧ join (ps ++ tail) = line := by
  obtain ⟨ps, tail, hcut, hrow, htail, hjoin⟩ := cutAfter_spec 0 [] line
  exact ⟨ps, tail, by rw [cut, hcut]; rfl, hrow, htail, hjoin⟩

end Piece

/-! ## Masks -/

namespace Masked

/-- The mask of pieces, whose literals are numbered from `k` on. -/
def maskFrom (k : Nat) : List Piece → List Char
  | [] => []
  | .code c :: ps => c :: maskFrom k ps
  | .literal _ :: ps => placeholder k ++ maskFrom (k + 1) ps
  | .comment _ _ :: ps => maskFrom k ps

/-- The literals among pieces. -/
def literalsOf (ps : List Piece) : List (List Char) :=
  ps.filterMap fun p => match p with
    | .literal t => some t
    | _ => none

theorem foldl_push {ps : List Piece} (h : Piece.Row ps) (m : Masked) :
    ps.foldl push m = ⟨(maskFrom m.literals.size ps).reverse ++ m.code,
      m.literals ++ (literalsOf ps).toArray, m.comment⟩ := by
  induction h generalizing m with
  | nil => simp [maskFrom, literalsOf]
  | code c _ ih => simp [push, ih, maskFrom, literalsOf]
  | literal _ _ _ ih => simp [push, ih, maskFrom, literalsOf]

theorem ofPieces_row {ps tail : List Piece} (hrow : Piece.Row ps) (htail : Piece.Closing tail) :
    ∃ comment, ofPieces (ps ++ tail) = ⟨maskFrom 0 ps, (literalsOf ps).toArray, comment⟩ ∧
      (comment = none ∧ tail = [] ∨
        ∃ gap t, comment = some t ∧ tail = [.comment gap t] ∧ allBlank gap = true) := by
  rcases htail with rfl | ⟨gap, t, rfl, hgap⟩
  · refine ⟨none, ?_, .inl ⟨rfl, rfl⟩⟩
    simp [ofPieces, foldl_push hrow]
  · refine ⟨some t, ?_, .inr ⟨gap, t, rfl, rfl, hgap⟩⟩
    simp [ofPieces, foldl_push hrow, push]

end Masked

/-! ## Numbers in placeholders -/

namespace Text

theorem isDigit_of_mem_decimal {n : Nat} {c : Char} (h : c ∈ decimal n) : c.isDigit = true :=
  Nat.isDigit_of_mem_toDigits (by decide) (by decide) h

theorem cappedValue_eq (limit : Nat) (ds : List Char) (n : Nat) :
    ds.foldl (fun n d => min limit (n * 10 + (d.toNat - '0'.toNat))) (min limit n) =
      min limit (Nat.ofDigitChars 10 ds n) := by
  induction ds generalizing n with
  | nil => simp
  | cons d ds ih =>
      have hstep : min limit (min limit n * 10 + (d.toNat - '0'.toNat)) =
          min limit (10 * n + (d.toNat - '0'.toNat)) := by omega
      rw [List.foldl_cons, hstep, ih, Nat.ofDigitChars_cons]

/-- The digits of a number are read as that number, if it fits a word. -/
theorem readWord?_decimal (k : Nat) :
    readWord? (decimal k) = if k ≤ maxWord then some k else none := by
  have hvalue : cappedValue (maxWord + 1) (decimal k) = min (maxWord + 1) k := by
    have := cappedValue_eq (maxWord + 1) (decimal k) 0
    rwa [Nat.min_zero, decimal, Nat.ofDigitChars_ten_toDigits] at this
  have hplain : readWord? (decimal k) =
      if (decimal k).isEmpty || !(decimal k).all Char.isDigit ||
        maxWord < cappedValue (maxWord + 1) (decimal k) then none
      else some (cappedValue (maxWord + 1) (decimal k)) := by
    simp only [readWord?]
    split
    · next ds hds =>
        have : '+' ∈ decimal k := by rw [hds]; simp
        exact absurd (isDigit_of_mem_decimal this) (by decide)
    · rfl
  have hdigits : (decimal k).all Char.isDigit = true :=
    List.all_eq_true.mpr fun c hc => isDigit_of_mem_decimal hc
  have hne : (decimal k).isEmpty = false := by
    rw [List.isEmpty_eq_false_iff]
    exact Nat.toDigits_ne_nil
  rw [hplain, hvalue, hdigits, hne]
  by_cases hk : k ≤ maxWord
  · simp [hk, Nat.le_succ_of_le hk]
  · have hlt : maxWord < min (maxWord + 1) k := by omega
    simp [hk, hlt]

/-- Reading the digits of a number gives that number, if it gives one. -/
theorem eq_of_readWord?_decimal {k n : Nat} (h : readWord? (decimal k) = some n) : n = k := by
  rw [readWord?_decimal] at h
  split at h
  · exact (Option.some.inj h).symm
  · cases h

/-- The digits and the plus sign have no case. -/
theorem isCaseless_of_digit {c : Char} (h : c.isDigit = true ∨ c = '+') :
    isCaseless c = true ∧ isBlank c = false := by
  have hall : ∀ n ∈ List.range 128, (Char.ofNat n).isDigit || Char.ofNat n == '+' →
      isCaseless (Char.ofNat n) = true ∧ isBlank (Char.ofNat n) = false := by
    decide +kernel
  have hlt : c.toNat < 128 := by
    rcases h with h | rfl
    · simp only [Char.isDigit, Bool.and_eq_true, decide_eq_true_eq, ge_iff_le,
        UInt32.le_iff_toNat_le] at h
      have : c.toNat ≤ 57 := h.2
      omega
    · decide
  have := hall c.toNat (by simpa using hlt)
  rw [Char.ofNat_toNat] at this
  exact this (by simpa using h)

theorem visible_of_isCaseless {cs : List Char}
    (h : ∀ c ∈ cs, isCaseless c = true ∧ isBlank c = false) : visible cs = cs.map ([·]) := by
  induction cs with
  | nil => rfl
  | cons c cs ih =>
      obtain ⟨hc, hblank⟩ := h c (by simp)
      rw [visible_cons_of_not hblank, lowercase_of_isCaseless hc,
        ih (fun d hd => h d (by simp [hd]))]
      rfl

theorem readWord?_chars {cs : List Char} {n : Nat} (h : readWord? cs = some n) :
    ∀ c ∈ cs, c.isDigit = true ∨ c = '+' := by
  simp only [readWord?] at h
  split at h
  · split at h
    · cases h
    · next ds _ hok =>
        simp only [Bool.or_eq_true, not_or, Bool.not_eq_true', Bool.not_eq_false] at hok
        intro c hc
        rcases List.mem_cons.mp hc with rfl | hc
        · exact .inr rfl
        · exact .inl (List.all_eq_true.mp hok.1.2 c hc)
  · split at h
    · cases h
    · next hok =>
        simp only [Bool.or_eq_true, not_or, Bool.not_eq_true', Bool.not_eq_false] at hok
        intro c hc
        exact .inl (List.all_eq_true.mp hok.1.2 c hc)

/-- A text that looks like the digits of a number and reads as a number reads as that one. -/
theorem eq_of_readWord? {cs : List Char} {k n : Nat} (h : readWord? cs = some n)
    (hvisible : visible cs = visible (decimal k)) : n = k := by
  rw [visible_of_isCaseless fun c hc => isCaseless_of_digit (readWord?_chars h c hc),
    visible_of_isCaseless fun c hc => isCaseless_of_digit (.inl (isDigit_of_mem_decimal hc)),
    List.map_inj_right (by simp)] at hvisible
  rw [hvisible] at h
  exact eq_of_readWord?_decimal h

end Text

/-! ## Restored code -/

namespace Masked

/-- Code whose placeholders are replaced by the literals that they stand for. -/
inductive Restores (m : Masked) : List Char → List Char → Prop where
  | nil : Restores m [] []
  | char {c b r} (ho : c ≠ opening) (hc : c ≠ closing) :
      Restores m b r → Restores m (c :: b) (c :: r)
  | literal {index t b r} (hindex : closing ∉ index) (ht : m.literal? index = some t) :
      Restores m b r → Restores m (opening :: (index ++ closing :: b)) (t ++ r)

theorem restoreAfter_ok {m : Masked} (cs : List Char) (budget : Budget) (out r : List Char) :
    (restoreAfter m budget none out cs = .ok r → ∃ text, r = out.reverse ++ text ∧
      (closing ∉ r → Restores m cs text)) ∧
    ∀ index, restoreAfter m budget (some index) out cs = .ok r →
      ∃ inside rest t text, cs = inside ++ closing :: rest ∧ closing ∉ inside ∧
        m.literal? (index.reverse ++ inside) = some t ∧ r = out.reverse ++ (t ++ text) ∧
        (closing ∉ r → Restores m rest text) := by
  induction cs generalizing budget out with
  | nil =>
      constructor
      · intro h
        simp only [restoreAfter] at h
        split at h
        · cases h
        · exact ⟨[], by simpa using (Except.ok.inj h).symm, fun _ => .nil⟩
      · intro index h
        simp [restoreAfter] at h
  | cons c cs ih =>
      constructor
      · intro h
        simp only [restoreAfter] at h
        split at h
        · next hc =>
            rw [beq_iff_eq] at hc
            split at h
            · cases h
            · obtain ⟨inside, rest, t, text, rfl, hinside, ht, rfl, hrest⟩ :=
                (ih _ out).2 [] h
              refine ⟨t ++ text, rfl, fun hno => ?_⟩
              rw [hc]
              exact .literal hinside ht (hrest hno)
        · next hc =>
            obtain ⟨text, rfl, hrest⟩ := (ih budget (c :: out)).1 h
            refine ⟨c :: text, by simp, fun hno => ?_⟩
            refine .char (by simpa using hc) ?_ (hrest hno)
            rintro rfl
            exact hno (by simp)
      · intro index h
        simp only [restoreAfter] at h
        split at h
        · next hc =>
            rw [beq_iff_eq] at hc
            split at h
            · cases h
            · next t ht =>
                obtain ⟨text, rfl, hrest⟩ := (ih budget _).1 h
                refine ⟨[], cs, t, text, by rw [hc]; rfl, by simp, by simpa using ht, by simp, ?_⟩
                exact hrest
        · next hc =>
            obtain ⟨inside, rest, t, text, rfl, hinside, ht, rfl, hrest⟩ :=
              (ih budget out).2 (c :: index) h
            refine ⟨c :: inside, rest, t, text, rfl, ?_, by simpa using ht, rfl, hrest⟩
            simp only [List.mem_cons, not_or]
            exact ⟨fun he => hc (by simp [he]), hinside⟩

theorem closing_notMem_of_restoreAfter {m : Masked} {budget : Budget}
    {inside : Option (List Char)} {out cs r : List Char}
    (h : restoreAfter m budget inside out cs = .ok r) : closing ∉ r := by
  induction cs generalizing budget inside out with
  | nil =>
      simp only [restoreAfter] at h
      split at h
      · cases h
      · split at h
        · cases h
        · next hno =>
            rw [← Except.ok.inj h, List.mem_reverse]
            simpa using hno
  | cons c cs ih =>
      simp only [restoreAfter] at h
      split at h
      · split at h
        · split at h
          · cases h
          · exact ih h
        · exact ih h
      · split at h
        · split at h
          · cases h
          · exact ih h
        · exact ih h

theorem restore_ok {m : Masked} {code r : List Char} {maxSteps : Nat}
    (h : m.restore code maxSteps = .ok r) : Restores m code r := by
  obtain ⟨text, rfl, hrest⟩ := (restoreAfter_ok code ⟨maxSteps, 0⟩ [] r).1 h
  exact hrest (closing_notMem_of_restoreAfter h)

/-! ## Pieces and restored code side by side -/

/-- Pieces, their mask after restyling, and what it is restored to. Blanks between the pieces may
differ, and letters in the code may have another case. -/
inductive Rendered : List Piece → List Char → List Char → Prop where
  | nil : Rendered [] [] []
  | gap {c ps b r} (hc : isBlank c = true) : Rendered ps b r → Rendered ps (c :: b) (c :: r)
  | blank {c ps b r} (hc : isBlank c = true) : Rendered ps b r → Rendered (.code c :: ps) b r
  | code {c d ps b r} (hc : isBlank c = false) (hletter : lowercase [c] = lowercase [d]) :
      Rendered ps b r → Rendered (.code c :: ps) (d :: b) (d :: r)
  | literal {t ps index b r} (hhead : t.head? = some '"' ∨ t.head? = some '#')
      (hlast : t.getLast? = some '%' → ps = []) :
      Rendered ps b r → Rendered (.literal t :: ps) (opening :: (index ++ closing :: b)) (t ++ r)

theorem isCaseless_opening : isCaseless opening = true := by decide

theorem isCaseless_closing : isCaseless closing = true := by decide

theorem visible_opening_cons (cs : List Char) :
    visible (opening :: cs) = [opening] :: visible cs := by
  rw [visible_cons_of_not (by decide), lowercase_of_isCaseless isCaseless_opening]

theorem visible_closing_cons (cs : List Char) :
    visible (closing :: cs) = [closing] :: visible cs := by
  rw [visible_cons_of_not (by decide), lowercase_of_isCaseless isCaseless_closing]

theorem closing_notMem_visible {cs : List Char} (h : closing ∉ cs) : [closing] ∉ visible cs := by
  intro hm
  obtain ⟨c, hc, heq⟩ := List.mem_map.mp hm
  rw [← lowercase_of_isCaseless isCaseless_closing] at heq
  rw [eq_of_lowercase_eq isCaseless_closing heq] at hc
  exact h (List.mem_filter.mp hc).1

theorem closing_notMem_decimal (k : Nat) : closing ∉ decimal k := by
  intro hm
  exact absurd (isDigit_of_mem_decimal hm) (by decide)

theorem eq_of_append_closing {a b a' b' : List (List Char)} (ha : [closing] ∉ a)
    (ha' : [closing] ∉ a') (h : a ++ [closing] :: b = a' ++ [closing] :: b') :
    a = a' ∧ b = b' := by
  induction a generalizing a' with
  | nil =>
      cases a' with
      | nil => exact ⟨rfl, (List.cons.inj h).2⟩
      | cons e a' =>
          obtain ⟨rfl, -⟩ := List.cons.inj h
          simp at ha'
  | cons e a ih =>
      cases a' with
      | nil =>
          obtain ⟨rfl, -⟩ := List.cons.inj h
          simp at ha
      | cons e' a' =>
          obtain ⟨rfl, htail⟩ := List.cons.inj h
          obtain ⟨rfl, rfl⟩ := ih (fun hm => ha (by simp [hm])) (fun hm => ha' (by simp [hm])) htail
          exact ⟨rfl, rfl⟩

theorem visible_placeholder_append (k : Nat) (cs : List Char) :
    visible (placeholder k ++ cs) =
      [opening] :: (visible (decimal k) ++ [closing] :: visible cs) := by
  rw [placeholder, List.cons_append, List.cons_append, visible_opening_cons, List.append_assoc,
    visible_append, List.singleton_append, visible_closing_cons]

/-- The pieces from some piece on have the literals of the mask from number `k` on. -/
def Numbered (m : Masked) (k : Nat) (ps : List Piece) : Prop :=
  ∀ i t, (literalsOf ps)[i]? = some t → m.literals[k + i]? = some t

theorem Numbered.literal {m : Masked} {k : Nat} {t : List Char} {ps : List Piece}
    (h : Numbered m k (.literal t :: ps)) :
    m.literals[k]? = some t ∧ Numbered m (k + 1) ps := by
  refine ⟨h 0 t rfl, fun i u hu => ?_⟩
  have := h (i + 1) u hu
  rwa [Nat.add_comm i 1, ← Nat.add_assoc] at this

/-- Restored code that looks like the mask of pieces has the pieces in their places. -/
theorem Restores.rendered {m : Masked} {b r : List Char} (h : Restores m b r) {k : Nat}
    {ps : List Piece} (hrow : Piece.Row ps) (hreserved : opening ∉ Piece.join ps)
    (hnumbered : Numbered m k ps) (hvisible : visible b = visible (maskFrom k ps)) :
    Rendered ps b r := by
  induction h generalizing k ps with
  | nil =>
      induction hrow with
      | nil => exact .nil
      | @code c ps _ ihps =>
          cases hc : isBlank c with
          | true =>
              rw [maskFrom, visible_cons_of_isBlank hc] at hvisible
              exact .blank hc (ihps (fun hm => hreserved (by simp [hm])) hnumbered hvisible)
          | false => simp [maskFrom, visible_cons_of_not hc] at hvisible
      | literal =>
          rw [maskFrom, visible_placeholder_append] at hvisible
          cases hvisible
  | @char d b r ho hcl _ ih =>
      cases hd : isBlank d with
      | true =>
          rw [visible_cons_of_isBlank hd] at hvisible
          exact .gap hd (ih hrow hreserved hnumbered hvisible)
      | false =>
          rw [visible_cons_of_not hd] at hvisible
          induction hrow with
          | nil => simp [maskFrom] at hvisible
          | @code c ps hps ihps =>
              have hreserved' : opening ∉ Piece.join ps := fun hm => hreserved (by simp [hm])
              cases hc : isBlank c with
              | true =>
                  rw [maskFrom, visible_cons_of_isBlank hc] at hvisible
                  exact .blank hc (ihps hreserved' hnumbered hvisible)
              | false =>
                  rw [maskFrom, visible_cons_of_not hc, List.cons.injEq] at hvisible
                  exact .code hc hvisible.1.symm (ih hps hreserved' hnumbered hvisible.2)
          | literal =>
              rw [maskFrom, visible_placeholder_append, List.cons.injEq,
                ← lowercase_of_isCaseless isCaseless_opening] at hvisible
              exact absurd (eq_of_lowercase_eq isCaseless_opening hvisible.1) ho
  | @literal index t b r hindex ht _ ih =>
      rw [visible_opening_cons, visible_append, visible_closing_cons] at hvisible
      induction hrow with
      | nil => simp [maskFrom] at hvisible
      | @code c ps hps ihps =>
          have hreserved' : opening ∉ Piece.join ps := fun hm => hreserved (by simp [hm])
          cases hc : isBlank c with
          | true =>
              rw [maskFrom, visible_cons_of_isBlank hc] at hvisible
              exact .blank hc (ihps hreserved' hnumbered hvisible)
          | false =>
              rw [maskFrom, visible_cons_of_not hc, List.cons.injEq,
                ← lowercase_of_isCaseless isCaseless_opening] at hvisible
              obtain rfl := eq_of_lowercase_eq isCaseless_opening hvisible.1.symm
              exact absurd hreserved (by simp [Piece.text])
      | @literal t' ps hhead hlast hps _ =>
          rw [maskFrom, visible_placeholder_append, List.cons.injEq] at hvisible
          obtain ⟨hdigits, hrest⟩ := eq_of_append_closing (closing_notMem_visible hindex)
            (closing_notMem_visible (closing_notMem_decimal k)) hvisible.2
          obtain ⟨hliteral, hnumbered'⟩ := hnumbered.literal
          have hreserved' : opening ∉ Piece.join ps := fun hm => hreserved (by simp [hm])
          obtain ⟨n, hread, hget⟩ := Option.bind_eq_some_iff.mp ht
          rw [eq_of_readWord? hread hdigits, hliteral] at hget
          obtain rfl := Option.some.inj hget
          exact .literal hhead hlast (ih hps hreserved' hnumbered' hrest)

namespace Rendered

variable {ps : List Piece} {b r : List Char}

theorem visible_eq (h : Rendered ps b r) : visible r = visible (Piece.join ps) := by
  induction h with
  | nil => rfl
  | gap hc _ ih => rw [visible_cons_of_isBlank hc, ih]
  | blank hc _ ih =>
      rw [ih, Piece.join_cons, Piece.text, List.singleton_append, visible_cons_of_isBlank hc]
  | code hc hletter _ ih =>
      have hd := (isBlank_eq_of_lowercase_eq hletter).symm.trans hc
      rw [Piece.join_cons, Piece.text, List.singleton_append, visible_cons_of_not hd,
        visible_cons_of_not hc, hletter, ih]
  | literal _ _ _ ih => rw [visible_append, ih, Piece.join_cons, Piece.text, visible_append]

theorem head_eq_greater (h : Rendered ps b r) (hr : r.head? = some '>') :
    b.head? = some '>' := by
  induction h with
  | nil => exact hr
  | gap => exact hr
  | blank _ _ ih => exact ih hr
  | code => exact hr
  | literal hhead =>
      rw [List.head?_append] at hr
      rcases hhead with hq | hq
      · rw [hq] at hr
        cases hr
      · rw [hq] at hr
        cases hr

theorem hasClosing_eq_false (h : Rendered ps b r)
    (hliterals : ∀ t ∈ literalsOf ps, Region.hasClosing t = false)
    (hb : Region.hasClosing b = false) : Region.hasClosing r = false := by
  induction h with
  | nil => exact hb
  | gap hc _ ih =>
      rw [Region.hasClosing_cons_of_isBlank hc] at hb ⊢
      exact ih hliterals hb
  | blank _ _ ih => exact ih hliterals hb
  | @code c d ps b r _ _ hrest ih =>
      rw [Region.hasClosing_cons, Bool.or_eq_false_iff] at hb ⊢
      refine ⟨?_, ih hliterals hb.2⟩
      by_contra hglued
      rw [Bool.not_eq_false, Bool.and_eq_true, beq_iff_eq, beq_iff_eq] at hglued
      have hhead := hrest.head_eq_greater hglued.2
      simp [hglued.1, hhead] at hb
  | @literal t ps index b r hhead hlast hrest ih =>
      have hb' : Region.hasClosing b = false := by
        have hcut : Region.hasClosing ((opening :: index ++ [closing]) ++ b) = false := by
          simpa using hb
        have hapart : ¬((opening :: index ++ [closing]).getLast? = some '%' ∧
            b.head? = some '>') := by
          rw [List.getLast?_append]
          simp [closing]
        rw [Region.hasClosing_append hapart, Bool.or_eq_false_iff] at hcut
        exact hcut.2
      have hapart : ¬(t.getLast? = some '%' ∧ r.head? = some '>') := by
        rintro ⟨hpercent, hgreater⟩
        obtain ⟨rest, rfl⟩ := List.head?_eq_some_iff.mp hgreater
        have hvisible := hrest.visible_eq
        rw [hlast hpercent, visible_cons_of_not (by decide)] at hvisible
        cases hvisible
      rw [Region.hasClosing_append hapart, hliterals t (by simp [literalsOf]),
        ih (fun u hu => hliterals u (by simp [literalsOf] at hu ⊢; exact .inr hu)) hb']
      rfl

theorem feed_mem (h : Rendered ps b r) (hr : '\n' ∈ r) :
    '\n' ∈ b ∨ '\n' ∈ Piece.join ps := by
  induction h with
  | nil => exact .inl hr
  | gap _ _ ih =>
      rcases List.mem_cons.mp hr with rfl | hr
      · exact .inl (by simp)
      · exact (ih hr).imp_left fun hb => by simp [hb]
  | blank _ _ ih => exact (ih hr).imp_right fun hm => by simp [hm]
  | code _ _ _ ih =>
      rcases List.mem_cons.mp hr with rfl | hr
      · exact .inl (by simp)
      · exact (ih hr).imp (fun hb => by simp [hb]) (fun hm => by simp [hm])
  | literal _ _ _ ih =>
      rcases List.mem_append.mp hr with ht | hr
      · exact .inr (by simp [Piece.text, ht])
      · exact (ih hr).imp (fun hb => by simp [hb]) (fun hm => by simp [hm])

end Rendered

/-! ## Markers and line feeds in masks -/

theorem percent_notMem_placeholder (k : Nat) : '%' ∉ placeholder k := by
  intro h
  simp only [placeholder, List.cons_append, List.mem_cons, List.mem_append, List.not_mem_nil,
    or_false] at h
  rcases h with h | h | h
  · exact absurd h (by decide)
  · exact absurd (isDigit_of_mem_decimal h) (by decide)
  · exact absurd h (by decide)

theorem head_maskFrom {ps : List Piece} (h : Piece.Row ps) {k : Nat}
    (hhead : (maskFrom k ps).head? = some '>') : (Piece.join ps).head? = some '>' := by
  cases h with
  | nil => exact hhead
  | code c => simpa [maskFrom, Piece.text] using hhead
  | literal => simp [maskFrom, placeholder, opening] at hhead

theorem hasClosing_maskFrom {ps : List Piece} (h : Piece.Row ps) {k : Nat}
    (hjoin : Region.hasClosing (Piece.join ps) = false) :
    Region.hasClosing (maskFrom k ps) = false := by
  induction h generalizing k with
  | nil => rfl
  | @code c ps hps ih =>
      rw [Piece.join_cons, Piece.text, List.singleton_append, Region.hasClosing_cons,
        Bool.or_eq_false_iff] at hjoin
      rw [maskFrom, Region.hasClosing_cons, Bool.or_eq_false_iff]
      refine ⟨?_, ih hjoin.2⟩
      by_contra hglued
      rw [Bool.not_eq_false, Bool.and_eq_true, beq_iff_eq, beq_iff_eq] at hglued
      simp [hglued.1, head_maskFrom hps hglued.2] at hjoin
  | literal _ _ _ ih =>
      rw [Piece.join_cons] at hjoin
      rw [maskFrom, Region.hasClosing_append_of_notMem (percent_notMem_placeholder k)]
      exact ih (Region.hasClosing_parts hjoin).2

theorem hasClosing_of_mem_literalsOf {ps : List Piece}
    (hjoin : Region.hasClosing (Piece.join ps) = false) {t : List Char}
    (ht : t ∈ literalsOf ps) : Region.hasClosing t = false := by
  obtain ⟨p, hp, hliteral⟩ := List.mem_filterMap.mp ht
  obtain ⟨front, back, rfl⟩ := List.append_of_mem hp
  cases p with
  | code => cases hliteral
  | literal u =>
      obtain rfl := Option.some.inj hliteral
      rw [Piece.join_append, Piece.join_cons] at hjoin
      exact (Region.hasClosing_parts (Region.hasClosing_parts hjoin).2).1
  | comment => cases hliteral

theorem feed_mem_maskFrom {ps : List Piece} {k : Nat} (h : '\n' ∈ maskFrom k ps) :
    '\n' ∈ Piece.join ps := by
  fun_induction maskFrom k ps with
  | case1 => simp at h
  | case2 k c ps ih =>
      rw [Piece.join_cons, Piece.text, List.singleton_append]
      rcases List.mem_cons.mp h with rfl | h
      · simp
      · simp [ih h]
  | case3 k t ps ih =>
      rcases List.mem_append.mp h with h | h
      · simp only [placeholder, List.cons_append, List.mem_cons, List.mem_append,
          List.not_mem_nil, or_false] at h
        rcases h with h | h | h
        · exact absurd h (by decide)
        · exact absurd (isDigit_of_mem_decimal h) (by decide)
        · exact absurd h (by decide)
      · simp [ih h]
  | case4 k gap t ps ih => simp [ih h]

end Masked

end ClassicAsp
