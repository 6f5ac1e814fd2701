import ClassicAsp.Proofs.Restoring
import ClassicAsp.Statement.Role

/-! # What literals and comments say

Another content of a string literal and another comment leave the pieces of a line in their
places. So the code that decides the role of a line does not depend on what its strings and its
comment say. -/

namespace ClassicAsp

open Text

namespace Piece

/-! ## Quoted contents -/

/-- A content with each of its quotes written twice. -/
def doubled (content : List Char) : List Char :=
  content.flatMap fun c => if c = '"' then ['"', '"'] else [c]

/-- The terminated string literal of a content. -/
def quote (content : List Char) : List Char := '"' :: (doubled content ++ ['"'])

@[simp] theorem doubled_nil : doubled [] = [] := rfl

theorem doubled_cons_quote (content : List Char) :
    doubled ('"' :: content) = '"' :: '"' :: doubled content := rfl

theorem doubled_cons {c : Char} (hc : c ≠ '"') (content : List Char) :
    doubled (c :: content) = c :: doubled content := by
  simp [doubled, hc]

/-- A string literal ends at the quote behind its content, unless another quote follows. -/
theorem stringLength_doubled (n : Nat) (content : List Char) {rest : List Char}
    (hrest : rest.head? ≠ some '"') :
    stringLength n (doubled content ++ '"' :: rest) = n + (doubled content ++ ['"']).length := by
  induction content generalizing n with
  | nil =>
      rw [doubled_nil, List.nil_append, stringLength]
      · simp
      · rintro rest' rfl
        exact hrest rfl
  | cons c content ih =>
      by_cases hc : c = '"'
      · rw [hc, doubled_cons_quote, List.cons_append, List.cons_append, stringLength, ih]
        simp only [List.cons_append, List.length_cons]
        omega
      · rw [doubled_cons hc, List.cons_append, stringLength, ih]
        · simp only [List.cons_append, List.length_cons]
          omega
        · exact fun rest' hquote => absurd hquote hc
        · exact hc

/-- A string literal is quoted, or nothing closes it and it takes all that is left. -/
theorem exists_doubled (n : Nat) (cs : List Char) :
    ∃ k content, stringLength n cs = n + k ∧
      (cs.take k = doubled content ++ ['"'] ∧ (cs.drop k).head? ≠ some '"' ∨
        cs.take k = doubled content ∧ cs.drop k = []) := by
  fun_induction stringLength n cs with
  | case1 n rest ih =>
      obtain ⟨k, content, hk, h⟩ := ih
      refine ⟨k + 2, '"' :: content, by rw [hk]; omega, ?_⟩
      rw [doubled_cons_quote, List.drop_succ_cons, List.drop_succ_cons, List.take_succ_cons,
        List.take_succ_cons]
      exact h.imp (.imp_left fun ht => by rw [ht]; rfl) (.imp_left fun ht => by rw [ht])
  | case2 n rest hne =>
      refine ⟨1, [], rfl, .inl ⟨rfl, ?_⟩⟩
      intro hquote
      obtain ⟨rest', hrest'⟩ := List.head?_eq_some_iff.mp hquote
      exact hne rest' hrest'
  | case3 n c rest _ hc ih =>
      obtain ⟨k, content, hk, h⟩ := ih
      refine ⟨k + 1, c :: content, by rw [hk]; omega, ?_⟩
      rw [doubled_cons hc, List.drop_succ_cons, List.take_succ_cons]
      exact h.imp (.imp_left fun ht => by rw [ht]; rfl) (.imp_left fun ht => by rw [ht])
  | case4 n => exact ⟨0, [], rfl, .inr ⟨rfl, rfl⟩⟩

theorem literalLength?_quote (content : List Char) {rest : List Char}
    (hrest : rest.head? ≠ some '"') :
    literalLength? '"' (doubled content ++ ['"'] ++ rest) =
      some (doubled content ++ ['"']).length := by
  have h := stringLength_doubled 0 content hrest
  rw [Nat.zero_add] at h
  rw [List.append_assoc, List.singleton_append, literalLength?, beq_self_eq_true, if_pos rfl, h]

/-- No quote follows a string literal. -/
theorem head?_of_literalLength? {t rest : List Char}
    (h : literalLength? '"' (t ++ rest) = some t.length) : rest.head? ≠ some '"' := by
  obtain ⟨k, content, hk, hend⟩ := exists_doubled 0 (t ++ rest)
  rw [literalLength?, beq_self_eq_true, if_pos rfl, hk, Nat.zero_add, Option.some.injEq] at h
  rw [h, List.drop_left] at hend
  rcases hend with ⟨-, hhead⟩ | ⟨-, rfl⟩
  · exact hhead
  · simp

/-! ## Changed contents -/

/-- The second pieces come from the first by other contents of terminated string literals, and
another text after the apostrophe of a comment. -/
inductive Reworded : List Piece → List Piece → Prop where
  | nil : Reworded [] []
  | same (p) {ps ps'} : Reworded ps ps' → Reworded (p :: ps) (p :: ps')
  | string (a) {b ps ps'} (hb : Masked.Unreserved b) :
      Reworded ps ps' → Reworded (.literal (quote a) :: ps) (.literal (quote b) :: ps')
  | remark (a) {b} (hb : Masked.Unreserved b) :
      Reworded [.comment [] ('\x27' :: a)] [.comment [] ('\x27' :: b)]

/-- The texts are equal, or they are up to a quote or an apostrophe. -/
def AgreesToDelimiter (text text' : List Char) : Prop :=
  text' = text ∨ ∃ front d back back', (d = '"' ∨ d = '\x27') ∧
    text = front ++ d :: back ∧ text' = front ++ d :: back'

theorem AgreesToDelimiter.append {text text' : List Char} (h : AgreesToDelimiter text text')
    (start : List Char) : AgreesToDelimiter (start ++ text) (start ++ text') := by
  rcases h with rfl | ⟨front, d, back, back', hd, rfl, rfl⟩
  · exact .inl rfl
  · exact .inr ⟨start ++ front, d, back, back', hd, by simp, by simp⟩

theorem AgreesToDelimiter.head? {text text' : List Char} (h : AgreesToDelimiter text text') :
    text'.head? = text.head? := by
  rcases h with rfl | ⟨front, d, back, back', -, rfl, rfl⟩
  · rfl
  · simp [List.head?_append]

theorem Reworded.agrees {ps ps' : List Piece} (h : Reworded ps ps') :
    AgreesToDelimiter (join ps) (join ps') := by
  induction h with
  | nil => exact .inl rfl
  | same p _ ih => exact ih.append p.text
  | string a hb _ ih => exact .inr ⟨[], '"', _, _, .inl rfl, rfl, rfl⟩
  | remark a hb => exact .inr ⟨[], '\x27', _, _, .inr rfl, rfl, rfl⟩

/-! ## Literals and comments before a delimiter -/

theorem dateLength?_hash {inner : List Char} (h : '#' ∉ inner) (rest : List Char) :
    dateLength? (inner ++ '#' :: rest) =
      if inner.all isDateChar && inner.any Char.isDigit then some (inner.length + 1) else none := by
  have hinner : ∀ c ∈ inner, (c != '#') = true := by
    intro c hc
    rw [bne_iff_ne]
    rintro rfl
    exact h hc
  have htake : (inner ++ '#' :: rest).takeWhile (· != '#') = inner := by
    rw [List.takeWhile_append_of_pos hinner]
    simp
  simp [dateLength?, htake]

theorem dateLength?_of_notMem {cs : List Char} (h : '#' ∉ cs) : dateLength? cs = none := by
  have htake : cs.takeWhile (· != '#') = cs := by
    rw [List.takeWhile_eq_self_iff]
    intro c hc
    rw [bne_iff_ne]
    rintro rfl
    exact h hc
  simp [dateLength?, htake]

/-- The number sign that a date ends with is the last character it takes. -/
theorem exists_date {cs : List Char} {n : Nat} (h : dateLength? cs = some n) :
    ∃ inner rest, '#' ∉ inner ∧ cs = inner ++ '#' :: rest ∧ n = inner.length + 1 := by
  by_cases hm : '#' ∈ cs
  · obtain ⟨inner, rest, rfl, hinner⟩ := List.eq_append_cons_of_mem hm
    rw [dateLength?_hash hinner] at h
    split at h
    · exact ⟨inner, rest, hinner, rfl, (Option.some.inj h).symm⟩
    · cases h
  · rw [dateLength?_of_notMem hm] at h
    cases h

theorem isDateChar_of_delimiter {d : Char} (hd : d = '"' ∨ d = '\x27') : isDateChar d = false := by
  rcases hd with rfl | rfl <;> decide

/-- A date does not reach over a delimiter. -/
theorem dateLength?_delimiter {d : Char} (hd : d = '"' ∨ d = '\x27') {front : List Char}
    (h : '#' ∉ front) (back : List Char) : dateLength? (front ++ d :: back) = none := by
  cases hdate : dateLength? (front ++ d :: back) with
  | none => rfl
  | some n =>
      obtain ⟨inner, rest, hinner, heq, -⟩ := exists_date hdate
      -- the number sign is behind the delimiter, which is then one of the characters of the date
      have hmem : d ∈ inner := by
        rcases List.append_eq_append_iff.mp heq with ⟨mid, rfl, hmid⟩ | ⟨mid, rfl, hmid⟩
        · cases mid with
          | nil =>
              obtain ⟨rfl, -⟩ := List.cons.inj hmid
              rcases hd with hd | hd <;> exact absurd hd (by decide)
          | cons e mid =>
              obtain ⟨rfl, -⟩ := List.cons.inj hmid
              simp
        · cases mid with
          | nil =>
              obtain ⟨rfl, -⟩ := List.cons.inj hmid
              rcases hd with hd | hd <;> exact absurd hd (by decide)
          | cons e mid =>
              obtain ⟨rfl, -⟩ := List.cons.inj hmid
              exact absurd h (by simp)
      rw [heq, dateLength?_hash hinner] at hdate
      split at hdate
      · next hall =>
          rw [Bool.and_eq_true, List.all_eq_true] at hall
          have := hall.1 d hmem
          rw [isDateChar_of_delimiter hd] at this
          cases this
      · cases hdate

section

variable {text text' : List Char} (h : AgreesToDelimiter text text')

include h

theorem AgreesToDelimiter.dateLength?_eq : dateLength? text' = dateLength? text := by
  rcases h with rfl | ⟨front, d, back, back', hd, rfl, rfl⟩
  · rfl
  · by_cases hm : '#' ∈ front
    · obtain ⟨inner, rest, rfl, hinner⟩ := List.eq_append_cons_of_mem hm
      rw [List.append_assoc, List.append_assoc, List.cons_append, List.cons_append,
        dateLength?_hash hinner, dateLength?_hash hinner]
    · rw [dateLength?_delimiter hd hm, dateLength?_delimiter hd hm]

theorem AgreesToDelimiter.startsRem_eq : startsRem text' = startsRem text := by
  rcases h with rfl | ⟨front, d, back, back', hd, rfl, rfl⟩
  · rfl
  · have hletter : (d.toLower == 'r') = false ∧ (d.toLower == 'e') = false ∧
        (d.toLower == 'm') = false := by
      rcases hd with rfl | rfl <;> decide
    match front with
    | [] => simp [startsRem, hletter]
    | [c] => simp [startsRem, hletter]
    | [c, e] => simp [startsRem, hletter]
    | [c, e, f] => simp [startsRem]
    | c :: e :: f :: g :: front => simp [startsRem]

theorem AgreesToDelimiter.trimStart : AgreesToDelimiter (trimStart text) (trimStart text') := by
  rcases h with rfl | ⟨front, d, back, back', hd, rfl, rfl⟩
  · exact .inl rfl
  · have hblank : isBlank d = false := by rcases hd with rfl | rfl <;> decide
    cases hfront : allBlank front with
    | true =>
        rw [trimStart_append_of_allBlank hfront, trimStart_append_of_allBlank hfront,
          trimStart_cons, trimStart_cons, hblank]
        exact .inr ⟨[], d, back, back', hd, rfl, rfl⟩
    | false =>
        rw [trimStart_append_of_not_allBlank hfront, trimStart_append_of_not_allBlank hfront]
        exact .inr ⟨_, d, back, back', hd, rfl, rfl⟩

/-- A character that starts no literal before a text starts none before one that agrees with it. -/
theorem AgreesToDelimiter.literalLength?_eq_none {c : Char} (hc : literalLength? c text = none) :
    literalLength? c text' = none := by
  rw [literalLength?] at hc ⊢
  split at hc
  · cases hc
  · next hquote => rwa [if_neg hquote, h.dateLength?_eq]

theorem AgreesToDelimiter.comment?_eq_none {c : Char} (hc : comment? c text = none) :
    comment? c text' = none := by
  rw [comment?] at hc ⊢
  split at hc
  · cases hc
  · next hmark =>
      rw [if_neg hmark, h.trimStart.startsRem_eq]
      split at hc
      · cases hc
      · next hrem => rw [if_neg hrem]

/-- A literal ends in the same place before a text and before one that agrees with it. -/
theorem AgreesToDelimiter.literalLength?_eq_some {c : Char} {t : List Char}
    (hc : literalLength? c (t ++ text) = some t.length) :
    literalLength? c (t ++ text') = some t.length := by
  by_cases hquote : c = '"'
  · subst hquote
    obtain ⟨k, content, hk, hend⟩ := exists_doubled 0 (t ++ text)
    obtain rfl : k = t.length := by simpa [literalLength?, hk] using hc
    rw [List.take_left, List.drop_left] at hend
    rcases hend with ⟨ht, hhead⟩ | ⟨ht, hnil⟩
    · rw [ht]
      exact literalLength?_quote content (by rwa [h.head?])
    · -- nothing follows a literal that is not terminated
      have htext' : text' = [] := by
        rw [← List.head?_eq_none_iff, h.head?, hnil]
        rfl
      rw [htext']
      rwa [hnil] at hc
  · have hdate : ∀ cs, literalLength? c cs = if c == '#' then dateLength? cs else none := by
      simp [literalLength?, hquote]
    rw [hdate] at hc ⊢
    split at hc
    · next hhash =>
        obtain ⟨inner, rest, hinner, heq, hlength⟩ := exists_date hc
        have htext : t = inner ++ ['#'] := by
          have hsplit : t ++ text = (inner ++ ['#']) ++ rest := by simpa using heq
          exact (List.append_inj hsplit (by simp [hlength])).1
        rw [if_pos hhash]
        rw [htext, List.append_assoc, List.singleton_append, dateLength?_hash hinner] at hc ⊢
        exact hc
    · cases hc

end

/-! ## The pieces stay in their places -/

/-- Pieces with other contents are the pieces of their text. -/
theorem Lexed.reworded {ps ps' : List Piece} (hlexed : Lexed ps) (h : Reworded ps ps') :
    Lexed ps' := by
  induction hlexed generalizing ps' with
  | nil =>
      cases h with
      | nil => exact .nil
  | code hliteral hcomment _ ih =>
      cases h with
      | same _ hrest =>
          exact .code (hrest.agrees.literalLength?_eq_none hliteral)
            (hrest.agrees.comment?_eq_none hcomment) (ih hrest)
  | literal hlength _ ih =>
      cases h with
      | same _ hrest =>
          exact .literal (hrest.agrees.literalLength?_eq_some hlength) (ih hrest)
      | string a hb hrest =>
          refine .literal (literalLength?_quote _ ?_) (ih hrest)
          rw [hrest.agrees.head?]
          exact head?_of_literalLength? hlength
  | apostrophe t =>
      cases h with
      | same _ hrest =>
          cases hrest with
          | nil => exact .apostrophe t
      | remark => exact .apostrophe _
  | rem hgap ht =>
      cases h with
      | same _ hrest =>
          cases hrest with
          | same _ hnil =>
              cases hnil with
              | nil => exact .rem hgap ht
          | remark a => simp [startsRem] at ht

theorem Reworded.maskFrom_eq {ps ps' : List Piece} (h : Reworded ps ps') (k : Nat) :
    Masked.maskFrom k ps' = Masked.maskFrom k ps := by
  induction h generalizing k with
  | nil => rfl
  | same p _ ih => cases p <;> simp [Masked.maskFrom, ih]
  | string _ _ _ ih => simp [Masked.maskFrom, ih]
  | remark => rfl

theorem mem_quote {content : List Char} {c : Char} (h : c ∈ quote content) :
    c = '"' ∨ c ∈ content := by
  simp only [quote, doubled, List.mem_cons, List.mem_append, List.mem_flatMap, List.not_mem_nil,
    or_false] at h
  rcases h with h | ⟨d, hd, h⟩ | h
  · exact .inl h
  · split at h
    · exact .inl (by simpa using h)
    · obtain rfl := List.mem_singleton.mp h
      exact .inr hd
  · exact .inl h

theorem unreserved_quote {content : List Char} (h : Masked.Unreserved content) :
    Masked.Unreserved (quote content) := by
  rw [Masked.unreserved_iff] at h ⊢
  intro c hc
  rcases mem_quote hc with rfl | hc
  · decide
  · exact h c hc

/-- New contents without reserved characters bring none into a line. -/
theorem Reworded.unreserved {ps ps' : List Piece} (h : Reworded ps ps')
    (hfree : Masked.Unreserved (join ps)) : Masked.Unreserved (join ps') := by
  induction h with
  | nil => exact hfree
  | same p _ ih =>
      rw [join_cons, Masked.unreserved_append] at hfree ⊢
      exact ⟨hfree.1, ih hfree.2⟩
  | string a hb _ ih =>
      rw [join_cons, Masked.unreserved_append] at hfree ⊢
      exact ⟨unreserved_quote hb, ih hfree.2⟩
  | remark a hb =>
      rw [Masked.unreserved_iff] at hb ⊢
      intro c hc
      rcases List.mem_cons.mp (by simpa [text] using hc) with rfl | hc
      · decide
      · exact hb c hc

end Piece

/-- Other contents of the terminated strings of a line and another text of its comment change
neither where its pieces are nor the code that decides its role, whether it goes on on the next
line, and its statements. -/
theorem classification_ignores_contents {line : List Char} {m : Masked}
    (hmask : Masked.ofLine line = .ok m) {ps : List Piece}
    (h : Piece.Reworded (Piece.cut line) ps) :
    Piece.cut (Piece.join ps) = ps ∧
      (∃ m', Masked.ofLine (Piece.join ps) = .ok m' ∧ m'.code = m.code) ∧
      classificationCode (Piece.join ps) = classificationCode line ∧
      Role.classify (classificationCode (Piece.join ps)) =
        Role.classify (classificationCode line) ∧
      Statement.Form.continuation.holds (classificationCode (Piece.join ps)) =
        Statement.Form.continuation.holds (classificationCode line) ∧
      Statement.splitCode (classificationCode (Piece.join ps)) =
        Statement.splitCode (classificationCode line) := by
  have hfree : Masked.Unreserved line := by
    obtain ⟨_, _, hstands⟩ := Masked.exists_stands hmask
    exact hstands.unreserved
  have hcut := ((Piece.lexed_cut line).reworded h).cut_join
  rw [Masked.ofLine_of_unreserved hfree, Except.ok.injEq] at hmask
  have hmask' : Masked.ofLine (Piece.join ps) = .ok (Masked.ofPieces ps) := by
    rw [Masked.ofLine_of_unreserved (h.unreserved (by rwa [Piece.join_cut])), hcut]
  have hcode : (Masked.ofPieces ps).code = m.code := by
    rw [← hmask, Masked.code_ofPieces, Masked.code_ofPieces, h.maskFrom_eq]
  have hclass : classificationCode (Piece.join ps) = classificationCode line := by
    rw [classificationCode, classificationCode, hmask', Masked.ofLine_of_unreserved hfree, hmask]
    exact congrArg trim hcode
  exact ⟨hcut, ⟨_, hmask', hcode⟩, hclass, by rw [hclass], by rw [hclass], by rw [hclass]⟩

/-- The pieces of `If s = "a:b" Then ' on` and of the same line with a keyword, a colon and quotes
in its string and a comment that reads as code. -/
def rewordedLine (content note : List Char) : List Piece :=
  "If s = ".toList.map .code ++ .literal (Piece.quote content) :: " Then ".toList.map .code ++
    [.comment [] ('\x27' :: note)]

theorem classification_ignores_contents_branch :
    let line := "If s = \"a:b\" Then \x27 on".toList
    let line' := "If s = \"\"\"Then\"\" : Rem\" Then \x27: Next \"".toList
    classificationCode line' = classificationCode line ∧
      Statement.splitCode (classificationCode line') =
        Statement.splitCode (classificationCode line) := by
  intro line line'
  have hcut : Piece.cut line = rewordedLine "a:b".toList " on".toList := by decide +kernel
  have hjoin : Piece.join (rewordedLine "\"Then\" : Rem".toList ": Next \"".toList) = line' := by
    decide +kernel
  have hmask : Masked.ofLine line = .ok (Masked.ofPieces (Piece.cut line)) :=
    Masked.ofLine_of_unreserved (by decide +kernel)
  have hreworded : Piece.Reworded (Piece.cut line)
      (rewordedLine "\"Then\" : Rem".toList ": Next \"".toList) := by
    rw [hcut]
    repeat' first
      | exact .remark _ (by decide +kernel)
      | refine .string _ (by decide +kernel) ?_
      | refine .same _ ?_
  obtain ⟨-, -, hcode, -, -, hsplit⟩ := classification_ignores_contents hmask hreworded
  rw [hjoin] at hcode hsplit
  exact ⟨hcode, hsplit⟩

end ClassicAsp
