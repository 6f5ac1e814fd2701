import ClassicAsp.Proofs.BlankEnds
import ClassicAsp.Proofs.Placeholders

/-! # Restoring undoes masking

The code of a masked line has no quotes and no apostrophe left. Its placeholders are as many as
its literals, so that a budget of that many steps restores the line up to its comment, and a
smaller one runs out. -/

namespace ClassicAsp

open Text

/-! ## Pieces by rules -/

namespace Piece

/-- The pieces that a line can have. A character of code starts neither a literal nor a comment,
and a literal takes what its delimiters say, both in view of all that follows. The rules do not
cut a line. -/
inductive Lexed : List Piece → Prop where
  | nil : Lexed []
  | code {c ps} (hliteral : literalLength? c (join ps) = none)
      (hcomment : comment? c (join ps) = none) : Lexed ps → Lexed (.code c :: ps)
  | literal {c t ps} (h : literalLength? c (t ++ join ps) = some t.length) :
      Lexed ps → Lexed (.literal (c :: t) :: ps)
  | apostrophe (t) : Lexed [.comment [] ('\x27' :: t)]
  | rem {gap t} (hgap : allBlank gap = true) (ht : startsRem t = true) :
      Lexed [.code ':', .comment gap t]

theorem join_cut (line : List Char) : join (cut line) = line := by
  obtain ⟨ps, tail, hcut, -, -, hjoin⟩ := cut_spec line
  rw [hcut, hjoin]

theorem stringLength_le (n : Nat) (cs : List Char) : stringLength n cs ≤ n + cs.length := by
  fun_induction stringLength n cs with
  | case1 n rest ih => simp only [List.length_cons]; omega
  | case2 n rest => simp
  | case3 n c rest _ _ ih => simp only [List.length_cons]; omega
  | case4 n => simp

theorem literalLength?_le {c : Char} {rest : List Char} {n : Nat}
    (h : literalLength? c rest = some n) : n ≤ rest.length := by
  rw [literalLength?] at h
  split at h
  · have := stringLength_le 0 rest
    have := Option.some.inj h
    omega
  · split at h
    · exact dateLength?_le h
    · cases h

theorem isBlank_head_of_startsRem {t : List Char} (h : startsRem t = true) :
    ∀ c, t.head? = some c → isBlank c = false := by
  intro c hc
  obtain ⟨rest, rfl⟩ := List.head?_eq_some_iff.mp hc
  simp only [startsRem, List.take_succ_cons, List.map_cons, Bool.and_eq_true, beq_iff_eq,
    List.cons.injEq] at h
  by_contra hblank
  have := forall_isBlank (P := (·.toLower != 'r')) (by decide) (by simpa using hblank)
  simp [h.1.1] at this

theorem comment?_rem {gap t : List Char} (hgap : allBlank gap = true) (ht : startsRem t = true) :
    comment? ':' (gap ++ t) = some [.code ':', .comment gap t] := by
  have hvisible := isBlank_head_of_startsRem ht
  have htrim : trimStart t = t := by
    cases t with
    | nil => rfl
    | cons c t => rw [trimStart_cons, hvisible c rfl]; rfl
  have htake : (gap ++ t).takeWhile isBlank = gap := by
    cases t with
    | nil => simpa using allBlank_iff.mp hgap
    | cons c t =>
        rw [List.takeWhile_append_of_pos (allBlank_iff.mp hgap),
          List.takeWhile_cons_of_neg (by simp [hvisible c rfl]), List.append_nil]
  have hstart : trimStart (gap ++ t) = t := by
    rw [trimStart_append_of_allBlank hgap, htrim]
  rw [comment?, hstart, ht, htake]
  rfl

theorem lexed_comment? {c : Char} {rest : List Char} {ending : List Piece}
    (h : comment? c rest = some ending) : Lexed ending := by
  rw [comment?] at h
  split at h
  · next hc =>
      obtain rfl := Option.some.inj h
      rw [beq_iff_eq] at hc
      rw [hc]
      exact .apostrophe rest
  · split at h
    · next hc =>
        obtain rfl := Option.some.inj h
        rw [Bool.and_eq_true, beq_iff_eq] at hc
        rw [hc.1]
        exact .rem (allBlank_takeWhile rest) hc.2
    · cases h

theorem lexed_cut (line : List Char) : Lexed (cut line) := by
  induction hn : line.length using Nat.strongRecOn generalizing line with
  | _ n ih =>
      cases line with
      | nil => exact .nil
      | cons c rest =>
          rw [List.length_cons] at hn
          rw [cut_cons]
          cases hliteral : literalLength? c rest with
          | some k =>
              have hlength : (rest.take k).length = k :=
                List.length_take_of_le (literalLength?_le hliteral)
              refine .literal ?_ (ih _ ?_ (rest.drop k) rfl)
              · rw [join_cut, List.take_append_drop, hlength, hliteral]
              · rw [List.length_drop]
                omega
          | none =>
              cases hcomment : comment? c rest with
              | some ending => exact lexed_comment? hcomment
              | none =>
                  refine .code ?_ ?_ (ih _ (by omega) rest rfl)
                  · rw [join_cut, hliteral]
                  · rw [join_cut, hcomment]

/-- A line that has pieces as the rules say is cut into them. -/
theorem Lexed.cut_join {ps : List Piece} (h : Lexed ps) : cut (join ps) = ps := by
  induction h with
  | nil => rfl
  | code hliteral hcomment _ ih =>
      rw [join_cons, text, List.singleton_append, cut_cons, hliteral, hcomment, Option.getD_none,
        ih]
  | @literal c t ps hlength _ ih =>
      rw [join_cons, text, List.cons_append, cut_cons, hlength]
      simp [ih]
  | apostrophe t => simp [join_cons, text, cut_cons, literalLength?, comment?]
  | rem hgap ht =>
      rw [join_cons, join_cons, join_nil, List.append_nil, text, text, List.singleton_append,
        cut_cons, comment?_rem hgap ht]
      rfl

/-- Quotes and apostrophes are no code. -/
theorem Lexed.code_ne {ps : List Piece} (h : Lexed ps) {c : Char} (hc : .code c ∈ ps) :
    c ≠ '"' ∧ c ≠ '\x27' := by
  induction h with
  | nil => simp at hc
  | code hliteral hcomment _ ih =>
      rcases List.mem_cons.mp hc with heq | hc
      · obtain rfl := Piece.code.inj heq
        constructor
        · rintro rfl
          simp [literalLength?] at hliteral
        · rintro rfl
          simp [comment?] at hcomment
      · exact ih hc
  | literal _ _ ih => exact ih (by simpa using hc)
  | apostrophe => simp at hc
  | rem =>
      obtain rfl : c = ':' := by simpa using hc
      decide

end Piece

/-! ## Placeholders are read back -/

namespace Masked

variable {m : Masked}

theorem literal?_decimal {k : Nat} {t : List Char} (hk : k ≤ maxWord)
    (ht : m.literals[k]? = some t) : m.literal? (decimal k) = some t := by
  rw [literal?, readWord?_decimal, if_pos hk]
  exact ht

theorem restoreAfter_inside {budget : Budget} {index out inside rest t : List Char}
    (hinside : closing ∉ inside) (ht : m.literal? (index.reverse ++ inside) = some t) :
    restoreAfter m budget (some index) out (inside ++ closing :: rest) =
      restoreAfter m budget none (t.reverse ++ out) rest := by
  induction inside generalizing index with
  | nil =>
      rw [List.append_nil] at ht
      simp [restoreAfter, ht]
  | cons c inside ih =>
      have hc : (c == closing) = false := by
        rw [beq_eq_false_iff_ne]
        rintro rfl
        simp at hinside
      rw [List.cons_append, restoreAfter]
      simp only [hc, Bool.false_eq_true, if_false]
      exact ih (fun hm => hinside (by simp [hm])) (by simpa using ht)

/-- A placeholder takes one step and gives its literal. -/
theorem restoreAfter_placeholder {remaining spent k : Nat} {out rest t : List Char}
    (ht : m.literal? (decimal k) = some t) :
    restoreAfter m ⟨remaining + 1, spent⟩ none out (placeholder k ++ rest) =
      restoreAfter m ⟨remaining, spent + 1⟩ none (t.reverse ++ out) rest := by
  have hplaceholder : placeholder k ++ rest = opening :: (decimal k ++ closing :: rest) := by
    simp [placeholder]
  rw [hplaceholder, restoreAfter]
  simp only [beq_self_eq_true, if_true, Budget.tick?, Nat.add_one_ne_zero, if_false,
    Nat.add_sub_cancel]
  exact restoreAfter_inside (closing_notMem_decimal k) ht

theorem restoreAfter_exhausted {spent k : Nat} {out rest : List Char} :
    restoreAfter m ⟨0, spent⟩ none out (placeholder k ++ rest) =
      .error (.limitReached .normalize .loopIterations spent) := by
  simp [placeholder, restoreAfter, Budget.tick?]

/-- The mask of pieces, whose literals are those of the mask from number `k` on, is restored in as
many steps as there are literals. The numbers up to the last step fit a word, so that each is read
back. -/
theorem restoreAfter_maskFrom {ps : List Piece} (hrow : Piece.Row ps) {k : Nat} {budget : Budget}
    {out : List Char} (hfree : Unreserved (Piece.join ps)) (hnumbered : Numbered m k ps)
    (hword : k + budget.remaining ≤ maxWord) (hout : closing ∉ out) :
    restoreAfter m budget none out (maskFrom k ps) =
      if (literalsOf ps).length ≤ budget.remaining then .ok (out.reverse ++ Piece.join ps)
      else .error (.limitReached .normalize .loopIterations (budget.spent + budget.remaining)) := by
  induction hrow generalizing k budget out with
  | nil => simp [maskFrom, restoreAfter, literalsOf, hout]
  | @code c ps _ ih =>
      obtain ⟨hc, hrest⟩ := unreserved_append.mp hfree
      have hopen : (c == opening) = false := by
        rw [beq_eq_false_iff_ne]
        rintro rfl
        simp [Unreserved, Piece.text] at hc
      have hout' : closing ∉ c :: out := by
        intro hm
        rcases List.mem_cons.mp hm with rfl | hm
        · simp [Unreserved, Piece.text] at hc
        · exact hout hm
      have hliterals : literalsOf (.code c :: ps) = literalsOf ps := rfl
      rw [maskFrom, restoreAfter]
      simp only [hopen, Bool.false_eq_true, if_false]
      rw [ih hrest hnumbered hword hout', hliterals]
      simp [Piece.text]
  | @literal t ps _ _ _ ih =>
      obtain ⟨hliteral, hnumbered'⟩ := hnumbered.literal
      obtain ⟨remaining, spent⟩ := budget
      have hliterals : (literalsOf (.literal t :: ps)).length = (literalsOf ps).length + 1 := rfl
      rw [maskFrom, hliterals]
      cases remaining with
      | zero => simp [restoreAfter_exhausted]
      | succ remaining =>
          simp only at hword
          obtain ⟨ht, hrest⟩ := unreserved_append.mp hfree
          have hout' : closing ∉ t.reverse ++ out := by
            intro hm
            rcases List.mem_append.mp hm with hm | hm
            · exact ht.2 (List.mem_reverse.mp hm)
            · exact hout hm
          rw [restoreAfter_placeholder (literal?_decimal (by omega) hliteral),
            ih hrest hnumbered' (by simp only; omega) hout']
          simp only [Nat.add_le_add_iff_right, Piece.join_cons, Piece.text, List.reverse_append,
            List.reverse_reverse, List.append_assoc]
          rw [Nat.add_assoc spent 1, Nat.add_comm 1]

/-! ## The comment of a line -/

/-- The blanks that stand between code and the comment after it. There are none unless the comment
is a `Rem` after a colon. -/
inductive CommentAfter (code : List Char) : List Char → Option (List Char) → Prop where
  | none : CommentAfter code [] none
  | apostrophe (t) : CommentAfter code [] (some ('\x27' :: t))
  | rem {gap t} (hcolon : code.getLast? = some ':') (hgap : allBlank gap = true)
      (ht : Piece.startsRem t = true) : CommentAfter code gap (some t)

theorem CommentAfter.append {code gap : List Char} {comment : Option (List Char)}
    (h : CommentAfter code gap comment) (front : List Char) :
    CommentAfter (front ++ code) gap comment := by
  cases h with
  | none => exact .none
  | apostrophe t => exact .apostrophe t
  | rem hcolon hgap ht => exact .rem (by rw [List.getLast?_append, hcolon]; rfl) hgap ht

theorem commentAfter_of_lexed {ps : List Piece} {gap t : List Char}
    (h : Piece.Lexed (ps ++ [.comment gap t])) : CommentAfter (Piece.join ps) gap (some t) := by
  generalize hqs : ps ++ [.comment gap t] = qs at h
  induction h generalizing ps with
  | nil => simp at hqs
  | code _ _ _ ih =>
      rcases List.append_eq_cons_iff.mp hqs with ⟨-, heq⟩ | ⟨ps', rfl, heq⟩
      · simp at heq
      · exact (ih heq.symm).append _
  | literal _ _ ih =>
      rcases List.append_eq_cons_iff.mp hqs with ⟨-, heq⟩ | ⟨ps', rfl, heq⟩
      · simp at heq
      · exact (ih heq.symm).append _
  | apostrophe t =>
      obtain ⟨rfl, heq⟩ := List.append_eq_singleton_iff.mp hqs |>.resolve_right (by simp)
      obtain ⟨rfl, rfl⟩ : gap = [] ∧ _ := by simpa using heq
      exact .apostrophe t
  | @rem gap' t' hgap ht =>
      have hlast : ps ++ [.comment gap t] = [.code ':'] ++ [.comment gap' t'] := hqs
      obtain ⟨rfl, heq⟩ := List.append_inj' hlast rfl
      obtain ⟨rfl, rfl⟩ : gap = gap' ∧ t = t' := by simpa using heq
      exact .rem rfl hgap ht

theorem mem_maskFrom {ps : List Piece} {k : Nat} {c : Char} (h : c ∈ maskFrom k ps) :
    .code c ∈ ps ∨ c = opening ∨ c.isDigit = true ∨ c = closing := by
  fun_induction maskFrom k ps with
  | case1 => simp at h
  | case2 k d ps ih =>
      rcases List.mem_cons.mp h with rfl | h
      · exact .inl (by simp)
      · exact (ih h).imp_left (List.mem_cons_of_mem _)
  | case3 k t ps ih =>
      rcases List.mem_append.mp h with h | h
      · right
        simp only [placeholder, List.cons_append, List.mem_cons, List.mem_append,
          List.not_mem_nil, or_false] at h
        exact h.imp_right (.imp_left isDigit_of_mem_decimal)
      · exact (ih h).imp_left (List.mem_cons_of_mem _)
  | case4 k gap t ps ih => exact (ih h).imp_left (List.mem_cons_of_mem _)

variable {line : List Char} {ps tail : List Piece}

theorem ofLine_of_unreserved (h : Unreserved line) :
    ofLine line = .ok (ofPieces (Piece.cut line)) := by
  have hnone : line.any (fun c => c == opening || c == closing) = false := by
    rw [List.any_eq_false]
    intro c hc
    simp only [Bool.or_eq_true, beq_iff_eq]
    rintro (rfl | rfl)
    · exact h.1 hc
    · exact h.2 hc
  rw [ofLine, hnone, if_neg Bool.false_ne_true]

theorem ofLine_eq_error_iff :
    (∃ fault, ofLine line = .error fault) ↔ opening ∈ line ∨ closing ∈ line := by
  constructor
  · rintro ⟨fault, h⟩
    by_contra hnone
    rw [ofLine_of_unreserved (not_or.mp hnone)] at h
    cases h
  · intro h
    have hany : line.any (fun c => c == opening || c == closing) = true := by
      rw [List.any_eq_true]
      rcases h with h | h
      · exact ⟨_, h, by simp⟩
      · exact ⟨_, h, by simp⟩
    exact ⟨_, by rw [ofLine, hany, if_pos rfl]⟩

theorem Stands.lexed (h : m.Stands line ps tail) : Piece.Lexed (ps ++ tail) := by
  rw [← h.cut_eq]
  exact Piece.lexed_cut line

theorem Stands.delimiters_notMem (h : m.Stands line ps tail) :
    '"' ∉ m.code ∧ '\x27' ∉ m.code := by
  have hcode : ∀ c ∈ m.code, c ≠ '"' ∧ c ≠ '\x27' := by
    intro c hc
    rw [h.code_eq] at hc
    rcases mem_maskFrom hc with hc | rfl | hc | rfl
    · exact h.lexed.code_ne (List.mem_append_left _ hc)
    · decide
    · constructor <;> (rintro rfl; exact absurd hc (by decide))
    · decide
  exact ⟨fun hm => (hcode _ hm).1 rfl, fun hm => (hcode _ hm).2 rfl⟩

/-- A budget restores the code and literals of a line if it has a step for each literal. -/
theorem Stands.restore_eq (h : m.Stands line ps tail) {n : Nat} (hn : n ≤ maxWord) :
    m.restore m.code n =
      if m.literals.size ≤ n then .ok (Piece.join ps)
      else .error (.limitReached .normalize .loopIterations n) := by
  have hfree : Unreserved (Piece.join ps) :=
    ⟨fun hm => h.unreserved.1 (h.mem_line hm), fun hm => h.unreserved.2 (h.mem_line hm)⟩
  rw [restore, h.code_eq, h.size_eq,
    restoreAfter_maskFrom h.row hfree h.numbered (by simpa using hn) (by simp)]
  simp

theorem Stands.exists_gap (h : m.Stands line ps tail) :
    ∃ gap, line = Piece.join ps ++ (gap ++ m.comment.getD []) ∧
      CommentAfter (Piece.join ps) gap m.comment := by
  have hjoin := h.join_eq
  have hlexed := h.lexed
  rw [Piece.join_append] at hjoin
  rcases h.comment_eq with ⟨hcomment, rfl⟩ | ⟨gap, t, hcomment, rfl, -⟩
  · refine ⟨[], ?_, ?_⟩ <;> rw [hcomment]
    · simpa using hjoin.symm
    · exact .none
  · refine ⟨gap, ?_, ?_⟩ <;> rw [hcomment]
    · simpa [Piece.text] using hjoin.symm
    · exact commentAfter_of_lexed hlexed

/-- A line cannot be masked exactly if it holds a reserved character. The code of a mask has no
quotes and no apostrophe, a budget restores it exactly if it has a step for each literal, and what
is restored is the line up to the comment and the blanks that belong to it. -/
theorem mask_inverts (line : List Char) :
    ((∃ fault, ofLine line = .error fault) ↔ opening ∈ line ∨ closing ∈ line) ∧
      ∀ m, ofLine line = .ok m → '"' ∉ m.code ∧ '\x27' ∉ m.code ∧ ∀ n ≤ maxWord,
        (m.literals.size ≤ n → ∃ restored gap, m.restore m.code n = .ok restored ∧
          line = restored ++ (gap ++ m.comment.getD []) ∧ CommentAfter restored gap m.comment) ∧
        (n < m.literals.size →
          m.restore m.code n = .error (.limitReached .normalize .loopIterations n)) := by
  refine ⟨ofLine_eq_error_iff, fun m hm => ?_⟩
  obtain ⟨ps, tail, hstands⟩ := exists_stands hm
  obtain ⟨gap, hline, hgap⟩ := hstands.exists_gap
  refine ⟨hstands.delimiters_notMem.1, hstands.delimiters_notMem.2, fun n hn => ?_⟩
  rw [hstands.restore_eq hn]
  constructor
  · intro hsize
    exact ⟨Piece.join ps, gap, by rw [if_pos hsize], hline, hgap⟩
  · intro hsize
    rw [if_neg (Nat.not_le.mpr hsize)]

/-- A line with a quote in a string, a date and a `Rem` behind two blanks. -/
def remarkedLine : List Char := "s = \"a\"\"b\" & #1/2/2000# :  Rem it\x27s".toList

/-- Its mask. -/
def remarkedMask : Masked where
  code := "s = \uE0000\uE001 & \uE0001\uE001 :".toList
  literals := #["\"a\"\"b\"".toList, "#1/2/2000#".toList]
  comment := some "Rem it\x27s".toList

/-- The theorem at a line with two literals, for a budget of two steps and one of one step. -/
theorem mask_inverts_remarkedLine :
    ofLine remarkedLine = .ok remarkedMask ∧
      (∃ restored gap, remarkedMask.restore remarkedMask.code 2 = .ok restored ∧
        remarkedLine = restored ++ (gap ++ "Rem it\x27s".toList) ∧
        CommentAfter restored gap remarkedMask.comment) ∧
      remarkedMask.restore remarkedMask.code 1 =
        .error (.limitReached .normalize .loopIterations 1) := by
  have hmask : ofLine remarkedLine = .ok remarkedMask := by decide +kernel
  obtain ⟨-, -, hrestore⟩ := (mask_inverts remarkedLine).2 remarkedMask hmask
  exact ⟨hmask, (hrestore 2 (by decide)).1 (by decide), (hrestore 1 (by decide)).2 (by decide)⟩

end Masked

end ClassicAsp
