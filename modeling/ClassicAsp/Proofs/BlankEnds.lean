import ClassicAsp.Directive
import ClassicAsp.Proofs.CaseRewriting
import ClassicAsp.Proofs.Masking

/-! # Blanks around a line

What a line does to the block structure and whether it is a directive depends on the line without
the blanks around it. -/

namespace ClassicAsp

open Text

/-! ## Directives -/

namespace Text

theorem dropFolded?_append_of_allBlank {pattern cs back : List Char}
    (hpattern : pattern.all (!isBlank ·) = true) (hback : allBlank back = true) :
    dropFolded? pattern (cs ++ back) = (dropFolded? pattern cs).map (· ++ back) := by
  induction pattern generalizing cs with
  | nil => cases cs <;> simp [dropFolded?]
  | cons p ps ih =>
      rw [List.all_cons, Bool.and_eq_true, Bool.not_eq_true'] at hpattern
      cases cs with
      | nil =>
          cases back with
          | nil => rfl
          | cons b back =>
              rw [allBlank_cons, Bool.and_eq_true] at hback
              have hne : sameLetter p b = false := by
                by_contra hsame
                have := isBlank_of_sameLetter (by simpa using hsame) hback.1
                rw [hpattern.1] at this
                cases this
              simp [dropFolded?, hne]
      | cons c cs =>
          simp only [List.cons_append, dropFolded?]
          split
          · exact ih hpattern.2
          · rfl

end Text

namespace Directive

/-- A mark at the start of a text is not made by blanks behind it. -/
theorem dropOpening_append {t back : List Char} (hback : allBlank back = true) :
    dropOpening (t ++ back) = dropOpening t ++ back := by
  have hopen : ∀ rest, t ++ back = '<' :: '%' :: rest → ∃ rest', t = '<' :: '%' :: rest' := by
    intro rest hrest
    rw [List.append_eq_cons_iff] at hrest
    rcases hrest with ⟨-, hb⟩ | ⟨t', rfl, hrest⟩
    · rw [hb] at hback
      exact absurd hback (by simp [isBlank])
    · rw [eq_comm, List.append_eq_cons_iff] at hrest
      rcases hrest with ⟨-, hb⟩ | ⟨t'', rfl, -⟩
      · rw [hb] at hback
        exact absurd hback (by simp [isBlank])
      · exact ⟨t'', rfl⟩
  by_cases h : ∃ rest, t = '<' :: '%' :: rest
  · obtain ⟨rest, rfl⟩ := h
    rfl
  · rw [dropOpening.eq_2 (t ++ back) (fun rest hrest => h (hopen rest hrest)),
      dropOpening.eq_2 t (fun rest hrest => h ⟨rest, hrest⟩)]

/-- The arguments of a directive do not see blanks around the line. -/
theorem arguments?_trim (line : List Char) : arguments? (trim line) = arguments? line := by
  obtain ⟨back, hback, hline⟩ := exists_trimEnd (trimStart line)
  have hstart : trimStart (trim line) = trim line := (trimmed_trim line).trimStart_eq
  rw [← trim] at hline
  simp only [arguments?, hstart, hline, dropOpening_append hback]
  generalize dropOpening (trim line) = t
  cases ht : allBlank t with
  | true =>
      have hboth : allBlank (t ++ back) = true := by simp [ht, hback]
      rw [trimStart_eq_nil_iff.mpr ht, trimStart_eq_nil_iff.mpr hboth]
  | false =>
      rw [trimStart_append_of_not_allBlank ht]
      cases hcode : trimStart t with
      | nil => rw [trimStart_eq_nil_iff.mp hcode] at ht; cases ht
      | cons c rest =>
          by_cases hc : c = '\x27'
          · subst hc
            simp only [List.cons_append]
            cases hrest : allBlank rest with
            | true =>
                have hboth : allBlank (rest ++ back) = true := by simp [hrest, hback]
                rw [trimStart_eq_nil_iff.mpr hrest, trimStart_eq_nil_iff.mpr hboth]
            | false =>
                rw [trimStart_append_of_not_allBlank hrest,
                  dropFolded?_append_of_allBlank (by decide) hback, Option.bind_map]
                simp only [Function.comp_def, trim_append_of_allBlank_back hback]
          · split
            · next h => exact absurd (List.cons.inj h).1 hc
            · split
              · next h => exact absurd (List.cons.inj h).1 hc
              · rfl

/-- The arguments of the first directive line decide. -/
theorem find?_congr {text text' : List Char}
    (h : (feedLines text').findSome? arguments? = (feedLines text).findSome? arguments?) :
    find? text' = find? text := by
  obtain ⟨read, hread⟩ : ∃ read, ∀ line, parse? line = (arguments? line).bind read :=
    ⟨_, fun _ => rfl⟩
  have hfind : ∀ lines : List (List Char),
      (lines.find? isLine).bind parse? = (lines.findSome? arguments?).bind read := by
    intro lines
    induction lines with
    | nil => rfl
    | cons line lines ih =>
        rw [List.find?_cons, List.findSome?_cons]
        cases hargs : arguments? line with
        | none => simpa [isLine, hargs] using ih
        | some args => simp [isLine, hargs, hread]
  rw [find?, find?, hfind, hfind, h]

end Directive

/-! ## Masks -/

namespace Piece

theorem cutAfter_eq (skip : Nat) (done : List Piece) (cs : List Char) :
    cutAfter skip done cs = done.reverse ++ cut (cs.drop skip) := by
  induction cs generalizing skip done with
  | nil => simp [cutAfter, cut]
  | cons c rest ih =>
      cases skip with
      | succ skip =>
          rw [cutAfter, List.drop_succ_cons]
          exact ih skip done
      | zero =>
          rw [List.drop_zero, cut, cutAfter, cutAfter]
          split
          · next n _ =>
              rw [ih, ih n [_]]
              simp
          · split
            · simp
            · rw [ih, ih 0 [_]]
              simp

/-- The pieces of a line from its first character on. -/
theorem cut_cons (c : Char) (rest : List Char) :
    cut (c :: rest) =
      match literalLength? c rest with
      | some n => .literal (c :: rest.take n) :: cut (rest.drop n)
      | none => (comment? c rest).getD (.code c :: cut rest) := by
  rw [cut, cutAfter]
  cases literalLength? c rest with
  | some n => exact cutAfter_eq n [_] rest
  | none =>
      cases comment? c rest with
      | some ending => rfl
      | none => exact cutAfter_eq 0 [_] rest

theorem cut_append_of_allBlank {front : List Char} (h : allBlank front = true) (cs : List Char) :
    cut (front ++ cs) = front.map .code ++ cut cs := by
  induction front with
  | nil => rfl
  | cons c front ih =>
      rw [allBlank_cons, Bool.and_eq_true] at h
      have hliteral : literalLength? c (front ++ cs) = none := by
        have := forall_isBlank (P := fun c => c != '"' && c != '#') (by decide) h.1
        rw [Bool.and_eq_true, bne_iff_ne, bne_iff_ne] at this
        simp [literalLength?, this]
      have hcomment : comment? c (front ++ cs) = none := by
        have := forall_isBlank (P := fun c => c != '\x27' && c != ':') (by decide) h.1
        rw [Bool.and_eq_true, bne_iff_ne, bne_iff_ne] at this
        simp [comment?, this]
      rw [List.cons_append, cut_cons, hliteral, hcomment, Option.getD_none, ih h.2]
      rfl

theorem stringLength_of_notMem {cs : List Char} (h : '"' ∉ cs) (n : Nat) :
    stringLength n cs = n + cs.length := by
  fun_induction stringLength n cs with
  | case1 n rest ih => simp at h
  | case2 n rest hne => simp at h
  | case3 n c rest hpair hquote ih =>
      rw [ih (fun hm => h (by simp [hm])), List.length_cons]
      omega
  | case4 n => rfl

theorem quote_notMem_of_allBlank {back : List Char} (h : allBlank back = true) : '"' ∉ back := by
  intro hm
  exact absurd (allBlank_iff.mp h _ hm) (by decide)

/-- Blanks behind a text change no string literal that is closed, and one that is not takes them
all. -/
theorem stringLength_append {back : List Char} (hback : allBlank back = true) (n : Nat)
    (cs : List Char) :
    (stringLength n (cs ++ back) = stringLength n cs ∧ stringLength n cs ≤ n + cs.length) ∨
      (n + cs.length ≤ stringLength n cs ∧
        n + (cs ++ back).length ≤ stringLength n (cs ++ back)) := by
  fun_induction stringLength n cs with
  | case1 n rest ih =>
      simp only [List.cons_append, stringLength, List.length_cons] at ih ⊢
      omega
  | case2 n rest hne =>
      left
      refine ⟨?_, by simp⟩
      rw [List.cons_append, stringLength]
      intro rest' hrest'
      rcases List.append_eq_cons_iff.mp hrest' with ⟨-, hb⟩ | ⟨t, ht, -⟩
      · exact quote_notMem_of_allBlank hback (by simp [hb])
      · exact hne t ht
  | case3 n c rest hpair hquote ih =>
      rw [List.cons_append, stringLength]
      · simp only [List.length_cons] at ih ⊢
        omega
      · exact fun rest' hc => absurd hc hquote
      · exact hquote
  | case4 n =>
      right
      rw [List.nil_append, stringLength_of_notMem (quote_notMem_of_allBlank hback)]
      simp

theorem dateLength?_le {cs : List Char} {n : Nat} (h : dateLength? cs = some n) :
    n ≤ cs.length := by
  simp only [dateLength?] at h
  split at h
  · cases h
  · next hne =>
      rw [List.isEmpty_iff, List.drop_eq_nil_iff, Nat.not_le] at hne
      split at h
      · exact Option.some.inj h ▸ hne
      · cases h

theorem dateLength?_append {back : List Char} (hback : allBlank back = true) (cs : List Char) :
    dateLength? (cs ++ back) = dateLength? cs := by
  have hhash : ∀ c ∈ back, (c != '#') = true := by
    intro c hc
    exact forall_isBlank (P := (· != '#')) (by decide) (allBlank_iff.mp hback c hc)
  simp only [dateLength?, drop_length_takeWhile]
  by_cases h : ∀ c ∈ cs, (c != '#') = true
  · have hboth : ∀ c ∈ cs ++ back, (c != '#') = true := by
      intro c hc
      rcases List.mem_append.mp hc with hc | hc
      · exact h c hc
      · exact hhash c hc
    rw [List.dropWhile_eq_nil_iff.mpr h, List.dropWhile_eq_nil_iff.mpr hboth]
    rfl
  · have hne : cs.dropWhile (· != '#') ≠ [] := fun hnil => h (List.dropWhile_eq_nil_iff.mp hnil)
    have hdrop : (cs ++ back).dropWhile (· != '#') = cs.dropWhile (· != '#') ++ back := by
      rw [List.dropWhile_append]
      simp [hne]
    have htake : (cs ++ back).takeWhile (· != '#') = cs.takeWhile (· != '#') := by
      have hcs := List.takeWhile_append_dropWhile (p := (· != '#')) (l := cs ++ back)
      rw [hdrop, ← List.append_assoc] at hcs
      have hcs' := List.append_cancel_right hcs
      have hsame := List.takeWhile_append_dropWhile (p := (· != '#')) (l := cs)
      conv_rhs at hcs' => rw [← hsame]
      exact List.append_cancel_right hcs'
    rw [hdrop, htake]
    simp [hne]

theorem startsRem_append {back : List Char} (hback : allBlank back = true) (t : List Char) :
    startsRem (t ++ back) = startsRem t := by
  cases back with
  | nil => rw [List.append_nil]
  | cons b back =>
      rw [allBlank_cons, Bool.and_eq_true] at hback
      have hb := forall_isBlank
        (P := fun b => b.toLower != 'r' && b.toLower != 'e' && b.toLower != 'm')
        (by decide) hback.1
      simp only [Bool.and_eq_true, bne_iff_ne] at hb
      have hname : isNameChar b = false := by
        by_contra h
        rw [Bool.not_eq_false] at h
        rw [isBlank_of_isNameChar h] at hback
        cases hback.1
      match t with
      | [] => simp [startsRem, hb]
      | [c] => simp [startsRem, hb]
      | [c, d] => simp [startsRem, hb]
      | [c, d, e] => simp [startsRem, hname]
      | c :: d :: e :: f :: t => simp [startsRem]

theorem startsRem_trimStart_append {back : List Char} (hback : allBlank back = true)
    (rest : List Char) : startsRem (trimStart (rest ++ back)) = startsRem (trimStart rest) := by
  cases h : allBlank rest with
  | true =>
      have hboth : allBlank (rest ++ back) = true := by simp [h, hback]
      rw [trimStart_eq_nil_iff.mpr h, trimStart_eq_nil_iff.mpr hboth]
  | false => rw [trimStart_append_of_not_allBlank h, startsRem_append hback]

end Piece

namespace Masked

open Piece

theorem code_foldl_push (ps : List Piece) (m : Masked) :
    (ps.foldl push m).code = (maskFrom m.literals.size ps).reverse ++ m.code := by
  induction ps generalizing m with
  | nil => rfl
  | cons p ps ih =>
      rw [List.foldl_cons, ih]
      cases p <;> simp [push, maskFrom]

theorem code_ofPieces (ps : List Piece) : (ofPieces ps).code = maskFrom 0 ps := by
  simp [ofPieces, code_foldl_push]

theorem maskFrom_map_code (k : Nat) (front : List Char) (ps : List Piece) :
    maskFrom k (front.map .code ++ ps) = front ++ maskFrom k ps := by
  induction front with
  | nil => rfl
  | cons c front ih => exact congrArg (c :: ·) ih

/-- Blanks behind the text that a comment is in belong to the comment. -/
theorem maskFrom_comment? {back : List Char} (hback : allBlank back = true) (k : Nat) (c : Char)
    (rest : List Char) :
    (comment? c (rest ++ back)).map (maskFrom k) = (comment? c rest).map (maskFrom k) := by
  simp only [comment?, startsRem_trimStart_append hback]
  split
  · rfl
  · split <;> rfl

/-- The literal at the start of a text is not changed by blanks behind the text, or it runs to the
end of the text. -/
theorem literalLength?_append {back : List Char} (hback : allBlank back = true) {c : Char}
    {rest : List Char} {n : Nat} (h : literalLength? c rest = some n) :
    ∃ m, literalLength? c (rest ++ back) = some m ∧
      ((rest ++ back).drop m = rest.drop n ++ back ∨
        (rest ++ back).drop m = [] ∧ rest.drop n = []) := by
  rw [literalLength?] at h
  split at h
  · next hquote =>
      obtain rfl := Option.some.inj h
      refine ⟨stringLength 0 (rest ++ back), by rw [literalLength?, if_pos hquote], ?_⟩
      rcases stringLength_append hback 0 rest with ⟨hsame, hle⟩ | ⟨hrest, hboth⟩
      · rw [hsame]
        exact .inl (List.drop_append_of_le_length (by omega))
      · exact .inr ⟨List.drop_eq_nil_of_le (by omega), List.drop_eq_nil_of_le (by omega)⟩
  · next hquote =>
      split at h
      · next hhash =>
          refine ⟨n, ?_, .inl (List.drop_append_of_le_length (dateLength?_le h))⟩
          rw [literalLength?, if_neg hquote, if_pos hhash, dateLength?_append hback, h]
      · cases h

theorem literalLength?_append_of_none {back : List Char} (hback : allBlank back = true)
    {c : Char} {rest : List Char} (h : literalLength? c rest = none) :
    literalLength? c (rest ++ back) = none := by
  rw [literalLength?] at h ⊢
  split at h
  · cases h
  · next hquote =>
      rw [if_neg hquote, dateLength?_append hback]
      exact h

/-- Blanks behind a line stand behind its mask, or are in its last literal or its comment. -/
theorem maskFrom_cut_append {back : List Char} (hback : allBlank back = true) (k : Nat)
    (cs : List Char) :
    ∃ gap, allBlank gap = true ∧ maskFrom k (cut (cs ++ back)) = maskFrom k (cut cs) ++ gap := by
  induction hn : cs.length using Nat.strongRecOn generalizing cs k with
  | _ n ih =>
      cases cs with
      | nil =>
          refine ⟨back, hback, ?_⟩
          have hcut := cut_append_of_allBlank hback []
          rw [List.append_nil] at hcut
          rw [List.nil_append, hcut, maskFrom_map_code]
          simp [cut, cutAfter, maskFrom]
      | cons c rest =>
          rw [List.length_cons] at hn
          rw [List.cons_append, cut_cons, cut_cons]
          cases hliteral : literalLength? c rest with
          | some m =>
              obtain ⟨m', hliteral', hdrop⟩ := literalLength?_append hback hliteral
              rw [hliteral']
              rcases hdrop with hdrop | ⟨hboth, hrest⟩
              · obtain ⟨gap, hgap, heq⟩ := ih (rest.drop m).length
                  (by rw [List.length_drop]; omega) (k + 1) (rest.drop m) rfl
                refine ⟨gap, hgap, ?_⟩
                simp only [maskFrom, hdrop, heq, List.append_assoc]
              · refine ⟨[], rfl, ?_⟩
                simp [maskFrom, hboth, hrest]
          | none =>
              rw [literalLength?_append_of_none hback hliteral]
              have hcomment := maskFrom_comment? hback k c rest
              cases h : comment? c rest with
              | some ending =>
                  rw [h] at hcomment
                  obtain ⟨ending', hending', heq⟩ := Option.map_eq_some_iff.mp hcomment
                  refine ⟨[], rfl, ?_⟩
                  simp only [hending', Option.getD_some, heq, List.append_nil]
              | none =>
                  rw [h] at hcomment
                  rw [Option.map_none, Option.map_eq_none_iff] at hcomment
                  obtain ⟨gap, hgap, heq⟩ := ih rest.length (by omega) k rest rfl
                  refine ⟨gap, hgap, ?_⟩
                  simp only [hcomment, Option.getD_none, maskFrom, heq, List.cons_append]

end Masked

/-- What decides the role of a line does not depend on the blanks around it. -/
theorem classificationCode_trim (line : List Char) :
    classificationCode (trim line) = classificationCode line := by
  obtain ⟨back, hback, hline⟩ := exists_trim line
  have hany : ∀ cs, allBlank cs = true →
      cs.any (fun c => c == Masked.opening || c == Masked.closing) = false := by
    intro cs hcs
    rw [List.any_eq_false]
    intro c hc
    have := forall_isBlank (P := fun c => !(c == Masked.opening || c == Masked.closing))
      (by decide) (allBlank_iff.mp hcs c hc)
    simpa using this
  have hreserved : line.any (fun c => c == Masked.opening || c == Masked.closing) =
      (trim line).any fun c => c == Masked.opening || c == Masked.closing := by
    conv_lhs => rw [hline]
    rw [List.any_append, List.any_append, hany _ (allBlank_takeWhile line), hany _ hback,
      Bool.false_or, Bool.or_false]
  obtain ⟨gap, hgap, hmask⟩ := Masked.maskFrom_cut_append hback 0 (trim line)
  have hcode : trim (Masked.maskFrom 0 (Piece.cut line)) =
      trim (Masked.maskFrom 0 (Piece.cut (trim line))) := by
    conv_lhs => rw [hline]
    rw [Piece.cut_append_of_allBlank (allBlank_takeWhile line), Masked.maskFrom_map_code,
      trim_append_of_allBlank_front (allBlank_takeWhile line), hmask,
      trim_append_of_allBlank_back hgap]
  simp only [classificationCode, Masked.ofLine, hreserved]
  cases (trim line).any fun c => c == Masked.opening || c == Masked.closing with
  | true => exact trim_trim line
  | false =>
      simp [Masked.code_ofPieces, hcode]

end ClassicAsp
