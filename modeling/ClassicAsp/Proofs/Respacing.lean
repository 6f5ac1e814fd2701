import ClassicAsp.Proofs.CaseRewriting
import ClassicAsp.Proofs.OperatorSpacing

/-! # Spaces as marks of tokens

Spacing settles for each token whether a space goes before it, and writes the tokens so marked.
The marks depend on the kinds and texts of the tokens, so that settling them twice is settling
them once. -/

namespace ClassicAsp

open Text

namespace Token

/-- Tokens as text, with one space before each that is spaced. -/
def print : List Token → List Char
  | [] => []
  | t :: ts => (if t.spaced then [' '] else []) ++ (t.text ++ print ts)

/-- A token apart from the blanks before it. -/
def form (t : Token) : TokenKind × List Char := (t.kind, t.text)

end Token

namespace Spacing

variable {table : CaseTable}

/-! ## Settled marks -/

/-- Is a space written before the token? `last` tells whether it is the last one. -/
def writesSpace (table : CaseTable) (prev : Option Token) (after : Option Bool) (t : Token)
    (last : Bool) : Bool :=
  prev.isSome && if last && t.text == ['_'] then t.spaced else hasSpaceBefore table prev after t

/-- The tokens marked with the spaces that are written. -/
def respace (table : CaseTable) (prev : Option Token) (after : Option Bool) :
    List Token → List Token
  | [] => []
  | t :: ts =>
    { t with spaced := writesSpace table prev after t ts.isEmpty } ::
      respace table (some t) (spaceAfter table prev t) ts

theorem isEmpty_respace (prev : Option Token) (after : Option Bool) (ts : List Token) :
    (respace table prev after ts).isEmpty = ts.isEmpty := by
  cases ts <;> rfl

theorem map_form_respace (prev : Option Token) (after : Option Bool) (ts : List Token) :
    (respace table prev after ts).map Token.form = ts.map Token.form := by
  induction ts generalizing prev after with
  | nil => rfl
  | cons t ts ih =>
      rw [respace, List.map_cons, List.map_cons, ih]
      rfl

/-- The writer writes the tokens with their settled marks. -/
theorem writeAfter_eq {prev : Option Token} {after : Option Bool} {out : List Char}
    {ts : List Token} (hout : out.isEmpty = prev.isNone) (hts : ∀ t ∈ ts, t.text ≠ []) :
    writeAfter table prev after out ts =
      out.reverse ++ Token.print (respace table prev after ts) := by
  induction ts generalizing prev after out with
  | nil => simp [writeAfter, respace, Token.print]
  | cons t ts ih =>
      have hspace : (!out.isEmpty) = prev.isSome := by
        rw [hout]
        cases prev <;> rfl
      by_cases hlast : ts.isEmpty && t.text == ['_']
      · have hnil : ts = [] := by
          rw [Bool.and_eq_true, List.isEmpty_iff] at hlast
          exact hlast.1
        rw [writeAfter, if_pos hlast, reverse_push, hspace, respace, writesSpace, if_pos hlast,
          hnil, respace, Token.print, Token.print, Bool.and_comm]
        simp
      · rw [writeAfter, if_neg hlast, ih, reverse_push, hspace, respace, writesSpace,
          if_neg hlast, Token.print, Bool.and_comm]
        · simp
        · have ht : t.text ≠ [] := hts t (by simp)
          simp [push, ht]
        · exact fun u hu => hts u (by simp [hu])

/-! ## Marks do not count

What a token asks for depends on its form and that of the token before it. -/

theorem isSpaced_marked (prev : Option Token) (t : Token) (s : Bool) :
    isSpaced table prev { t with spaced := s } = isSpaced table prev t := rfl

theorem spaceAfter_marked (prev : Option Token) (t : Token) (s : Bool) :
    spaceAfter table prev { t with spaced := s } = spaceAfter table prev t := rfl

theorem respace_marked (t : Token) (s : Bool) (after : Option Bool) (ts : List Token) :
    respace table (some { t with spaced := s }) after ts = respace table (some t) after ts := by
  cases ts <;> rfl

theorem writesSpace_marked (prev : Option Token) (after : Option Bool) (t : Token) (last : Bool) :
    writesSpace table prev after { t with spaced := writesSpace table prev after t last } last =
      writesSpace table prev after t last := by
  simp only [writesSpace, hasSpaceBefore, isSpaced_marked]
  by_cases hlast : last && t.text == ['_']
  · simp only [if_pos hlast, Bool.and_self_left]
  · simp only [if_neg hlast]
    cases isSpaced table prev t with
    | true => rfl
    | false => cases after <;> simp

/-- Settled marks stay. -/
theorem respace_respace (table : CaseTable) (prev : Option Token) (after : Option Bool)
    (ts : List Token) :
    respace table prev after (respace table prev after ts) = respace table prev after ts := by
  induction ts generalizing prev after with
  | nil => rfl
  | cons t ts ih =>
      rw [respace, respace, isEmpty_respace, writesSpace_marked, spaceAfter_marked, respace_marked,
        ih]

/-! ## The text behind a token -/

/-- The text that is written behind a token. -/
def written (table : CaseTable) (prev : Option Token) (t : Token) (ts : List Token) : List Char :=
  Token.print (respace table (some t) (spaceAfter table prev t) ts)

theorem print_respace_cons (prev : Option Token) (after : Option Bool) (t : Token)
    (ts : List Token) :
    Token.print (respace table prev after (t :: ts)) =
      (if writesSpace table prev after t ts.isEmpty then [' '] else []) ++
        (t.text ++ written table prev t ts) := rfl

/-- Blanks behind the token are not dropped: it is neither a sign nor an opening bracket. -/
def KeepsBlanks (prev : Option Token) (t : Token) : Prop :=
  t.kind ≠ .opening ∧ isSign prev t = false

theorem writesSpace_of_spaced {prev : Option Token} {t : Token} (hkeeps : KeepsBlanks prev t)
    {u : Token} (hu : u.spaced = true) (last : Bool) :
    writesSpace table (some t) (spaceAfter table prev t) u last = true := by
  have hopening : (t.kind != .opening) = true := by simpa using hkeeps.1
  rw [writesSpace, hasSpaceBefore, spaceAfter, hkeeps.2, hu]
  cases isSpaced table (some t) u <;> cases isSpaced table prev t <;> simp [hopening]

theorem isSpaced_of_writesSpace {t u : Token} {last : Bool} (hu : u.spaced = false)
    (h : writesSpace table (some t) none u last = true) : isSpaced table (some t) u = true := by
  by_contra hno
  rw [writesSpace, hasSpaceBefore, if_neg hno, hu] at h
  simp at h

theorem respace_unspaced {t u : Token} (hu : u.spaced = false)
    (hno : isSpaced table (some t) u = false) (us : List Token) :
    respace table (some t) none (u :: us) =
      u :: respace table (some u) (spaceAfter table (some t) u) us := by
  have hspace : writesSpace table (some t) none u us.isEmpty = u.spaced := by
    rw [hu]
    by_contra hyes
    rw [isSpaced_of_writesSpace hu (by simpa using hyes)] at hno
    cases hno
  rw [respace, hspace]

end Spacing

namespace Token

/-! ## Reading a token -/

theorem Reads.exists_of_cons {spaced : Bool} {cs : List Char} {ts : List Token}
    (h : Reads spaced cs ts) {t : Token} {us : List Token} (hts : ts = t :: us) :
    ∃ blanks c rest kind n, cs = blanks ++ c :: rest ∧ isBlank c = false ∧
      Measured c rest kind n ∧ t = ⟨kind, c :: rest.take n, spaced || !blanks.isEmpty⟩ ∧
      Reads false (rest.drop n) us := by
  induction h with
  | nil => cases hts
  | @blank spaced c cs ts _ _ ih =>
      obtain ⟨blanks, d, rest, kind, n, rfl, hd, hm, rfl, hus⟩ := ih hts
      exact ⟨c :: blanks, d, rest, kind, n, rfl, hd, hm, by simp, hus⟩
  | @token spaced c rest ts hc hus =>
      cases hts
      exact ⟨[], c, rest, _, _, rfl, hc, measured c rest, by simp, hus⟩

/-- Where no blank comes first, the first token is the one that is measured there. -/
theorem Reads.exists_of_visible {c : Char} {rest : List Char} {ts : List Token}
    (h : Reads false (c :: rest) ts) (hc : isBlank c = false) {kind : TokenKind} {n : Nat}
    (hm : Measured c rest kind n) :
    ∃ us, ts = ⟨kind, c :: rest.take n, false⟩ :: us ∧ Reads false (rest.drop n) us := by
  cases h with
  | blank hblank =>
      rw [hc] at hblank
      cases hblank
  | token _ hus =>
      rw [hm.measure_eq] at hus ⊢
      exact ⟨_, rfl, hus⟩

/-- A token that is measured the same before other text is read there. -/
theorem Reads.print_cons {c : Char} {text rest : List Char} {kind : TokenKind} {us : List Token}
    (spaced : Bool) (hc : isBlank c = false) (hm : Measured c (text ++ rest) kind text.length)
    (hus : Reads false rest us) :
    Reads false ((if spaced then [' '] else []) ++ (c :: text ++ rest))
      (⟨kind, c :: text, spaced⟩ :: us) := by
  have htoken : ∀ s, Reads s (c :: (text ++ rest)) (⟨kind, c :: text, s⟩ :: us) := by
    intro s
    have hread : Reads s (c :: (text ++ rest)) (_ :: us) :=
      .token hc (by rwa [hm.measure_eq, List.drop_left])
    rwa [hm.measure_eq, List.take_left] at hread
  cases spaced with
  | false => exact htoken false
  | true => exact .blank (by decide) (htoken true)

theorem Reads.eq {spaced : Bool} {cs : List Char} {ts us : List Token} (h : Reads spaced cs ts)
    (h' : Reads spaced cs us) : ts = us := by
  induction h generalizing us with
  | nil =>
      cases h'
      rfl
  | blank hc _ ih =>
      cases h' with
      | blank _ h' => exact ih h'
      | token hc' =>
          rw [hc] at hc'
          cases hc'
  | token hc _ ih =>
      cases h' with
      | blank hc' =>
          rw [hc] at hc'
          cases hc'
      | token _ h' => rw [ih h']

end Token

namespace Spacing

variable {table : CaseTable}

open Token in
/-- The text that is written behind a token that keeps blanks goes on with a space, or as the code
does. -/
inductive Resumes (table : CaseTable) (prev : Option Token) (t : Token) :
    List Char → List Token → List Char → Prop where
  | done {cs} : Resumes table prev t cs [] []
  | space {cs u us}
      (hspace : writesSpace table (some t) (spaceAfter table prev t) u us.isEmpty = true) :
      Resumes table prev t cs (u :: us) (' ' :: (u.text ++ written table (some t) u us))
  | token {c rest kind n us} (hc : isBlank c = false) (hm : Measured c rest kind n)
      (hus : Reads false (rest.drop n) us)
      (hspace : writesSpace table (some t) (spaceAfter table prev t)
        ⟨kind, c :: rest.take n, false⟩ us.isEmpty = false) :
      Resumes table prev t (c :: rest) (⟨kind, c :: rest.take n, false⟩ :: us)
        (c :: (rest.take n ++ written table (some t) ⟨kind, c :: rest.take n, false⟩ us))

section Behind

variable {prev : Option Token} {t : Token} {cs : List Char} {ts : List Token}

theorem resumes (table : CaseTable) (hkeeps : KeepsBlanks prev t) (h : Token.Reads false cs ts) :
    Resumes table prev t cs ts (written table prev t ts) := by
  cases ts with
  | nil => exact .done
  | cons u us =>
      rw [written, print_respace_cons]
      cases hspace : writesSpace table (some t) (spaceAfter table prev t) u us.isEmpty with
      | true => exact .space hspace
      | false =>
          obtain ⟨blanks, c, rest, kind, n, rfl, hc, hm, rfl, hus⟩ := h.exists_of_cons rfl
          have hnil : blanks = [] := by
            by_contra hne
            rw [writesSpace_of_spaced hkeeps (by simp [hne])] at hspace
            cases hspace
          subst hnil
          exact .token hc hm hus hspace

theorem head_written (hkeeps : KeepsBlanks prev t) (h : Token.Reads false cs ts) (c : Char)
    (hc : (written table prev t ts).head? = some c) : c = ' ' ∨ cs.head? = some c := by
  have hr := resumes table hkeeps h
  generalize written table prev t ts = b at hr hc
  cases hr with
  | done => cases hc
  | space => exact .inl (Option.some.inj hc).symm
  | token => exact .inr hc

theorem any_written (hkeeps : KeepsBlanks prev t) (h : Token.Reads false cs ts)
    {p : Char → Bool} (hp : p ' ' = false) (hcs : cs.head?.any p = false) :
    (written table prev t ts).head?.any p = false :=
  Token.any_head_of_forall (head_written hkeeps h) hp hcs

theorem fractionLength_written (hkeeps : KeepsBlanks prev t) (h : Token.Reads false cs ts)
    (hnone : Token.fractionLength cs = 0) :
    Token.fractionLength (written table prev t ts) = 0 := by
  have hr := resumes table hkeeps h
  generalize written table prev t ts = b at hr
  cases hr with
  | done => rfl
  | space => rfl
  | @token c rest kind n us hc hm hus hspace =>
      by_cases hpoint : c = '.'
      · subst hpoint
        have hdigit : Token.startsDigit rest = false := by
          by_contra hstart
          rw [Token.fractionLength, if_pos (by simpa using hstart)] at hnone
          omega
        have hdot : Token.Measured '.' rest .dot 0 :=
          .punctuation ⟨by decide, by decide, by decide⟩ (fun _ => hdigit) rfl
        obtain ⟨rfl, rfl⟩ := hm.unique hdot
        have hnext : Token.startsDigit (written table (some t) ⟨.dot, ['.'], false⟩ us) = false :=
          any_written ⟨by simp, rfl⟩ hus (by decide) hdigit
        rw [List.take_zero, List.nil_append, Token.fractionLength, if_neg (by simp [hnext])]
      · rw [Token.fractionLength.eq_2]
        simpa using hpoint

/-- A plus or minus behind the mark of an exponent keeps the blanks behind it, since that mark is
no keyword that a sign follows. -/
theorem startsDigit_of_sign {mark sign : Char} (hmark : mark = 'e' ∨ mark = 'E')
    (hsign : sign = '+' ∨ sign = '-') {s : Bool} {digits : List Char}
    (h : Token.Reads false cs ts)
    (hwritten : written table prev ⟨.word, [mark], s⟩ ts = sign :: digits)
    (hdigits : Token.startsDigit digits = true) :
    ∃ rest, cs = sign :: rest ∧ Token.startsDigit rest = true := by
  have hr : Resumes table prev ⟨.word, [mark], s⟩ cs ts (sign :: digits) := by
    rw [← hwritten]
    exact resumes table ⟨by simp, rfl⟩ h
  cases hr with
  | space => rcases hsign with hs | hs <;> cases hs
  | @token c rest kind n us hc hm hus hspace =>
      obtain ⟨rfl, rfl⟩ := hm.unique (Token.measured_sign hsign rest)
      refine ⟨rest, rfl, ?_⟩
      by_contra hstart
      have hkeeps : KeepsBlanks (some ⟨.word, [mark], s⟩) ⟨.operator, [sign], false⟩ := by
        have hposition : isSignPosition (some ⟨.word, [mark], s⟩) = false := by
          show signKeywords.contains (lowercase [mark]) = false
          rcases hmark with rfl | rfl <;> decide
        exact ⟨by simp, by rw [isSign, hposition, Bool.and_false]⟩
      have hnext : Token.startsDigit (written table _ ⟨.operator, [sign], false⟩ us) = false :=
        any_written hkeeps hus (by decide) (Bool.eq_false_iff.mpr hstart)
      rw [List.take_zero, List.nil_append, hnext] at hdigits
      cases hdigits

theorem exponentLength_mark {mark : Char} (hmark : mark = 'e' ∨ mark = 'E') {s : Bool}
    (h : Token.Reads false cs ts) (hnone : Token.exponentLength (mark :: cs) = 0)
    (hstop : cs.head?.any isNameChar = false) :
    Token.exponentLength (mark :: written table prev ⟨.word, [mark], s⟩ ts) = 0 := by
  rcases Token.exponentLength_cases (mark :: written table prev ⟨.word, [mark], s⟩ ts) with
    hzero | ⟨e, sign, digits, -, hsign, hdigits, heq⟩
  · exact hzero
  obtain ⟨rfl, htail⟩ := List.cons.inj heq
  have hnext : ∀ c, sign = [c] → c = '+' ∨ c = '-' → False := by
    rintro c rfl hc
    obtain ⟨rest, rfl, hrest⟩ := startsDigit_of_sign hmark hc h htail hdigits
    have hlength := Token.exponentLength_eq hmark hsign hrest
    rw [List.singleton_append, hnone] at hlength
    omega
  rcases hsign with rfl | rfl | rfl
  · have hname : (written table prev ⟨.word, [mark], s⟩ ts).head?.any isNameChar = false :=
      any_written ⟨by simp, rfl⟩ h (by decide) hstop
    rw [htail, List.nil_append] at hname
    rw [Token.startsDigit_eq_false hname] at hdigits
    cases hdigits
  · exact (hnext '+' rfl (.inl rfl)).elim
  · exact (hnext '-' rfl (.inr rfl)).elim

theorem exponentLength_written (hkeeps : KeepsBlanks prev t) (h : Token.Reads false cs ts)
    (hnone : Token.exponentLength cs = 0) :
    Token.exponentLength (written table prev t ts) = 0 := by
  have hr := resumes table hkeeps h
  generalize written table prev t ts = b at hr
  cases hr with
  | done => rfl
  | space => rfl
  | @token c rest kind n us hc hm hus hspace =>
      by_cases hmark : c = 'e' ∨ c = 'E'
      · have hword : Token.Measured c rest .word (rest.takeWhile isNameChar).length := by
          rcases hmark with rfl | rfl <;> exact .name (by decide) (by decide)
        obtain ⟨rfl, rfl⟩ := hm.unique hword
        rw [drop_length_takeWhile] at hus
        rw [take_length_takeWhile]
        -- the word is the mark alone, or its next character decides
        cases rest with
        | nil => exact exponentLength_mark hmark hus hnone rfl
        | cons d rest =>
            by_cases hname : isNameChar d = true
            · rw [List.takeWhile_cons_of_pos hname, List.cons_append,
                Token.exponentLength_name hmark hname]
              exact (Token.exponentLength_name hmark hname rest).mp hnone
            · rw [List.dropWhile_cons_of_neg hname] at hus
              rw [List.takeWhile_cons_of_neg hname]
              exact exponentLength_mark hmark hus hnone (by simpa using hname)
      · rw [Token.exponentLength, if_neg (by simpa using hmark)]

/-- Tokens end before what is written where they ended before the code. -/
theorem endsAlike_written (hkeeps : KeepsBlanks prev t) (h : Token.Reads false cs ts) :
    Token.EndsAlike cs (written table prev t ts) where
  nil := by
    rintro rfl
    cases h
    rfl
  head := head_written hkeeps h
  fraction := fractionLength_written hkeeps h
  exponent := exponentLength_written hkeeps h

end Behind

/-! ## Numbers that spaces make -/

/-- Read back, the tokens are those that were written, but that `&`, a name and `&` before a
keyword may have become a number: the space before the keyword ends it. This takes a table that
puts no spaces around `&`. -/
inductive Regroups (table : CaseTable) : List Token → List Token → Prop where
  | nil : Regroups table [] []
  | keep {t ts us} : Regroups table ts us → Regroups table (t :: ts) (t :: us)
  | radix {s name k ks us} (hamp : table.spacedOperators.contains ['&'] = false)
      (hkind : k.kind = .word) (hkeyword : table.isSpacedKeyword k.text = true) :
      Regroups table (k :: ks) us →
      Regroups table (⟨.operator, ['&'], s⟩ :: ⟨.word, name, false⟩ :: ⟨.operator, ['&'], false⟩ ::
        k :: ks) (⟨.number, '&' :: name ++ ['&'], s⟩ :: us)

theorem Regroups.eq {ts us : List Token} (h : Regroups table ts us)
    (hamp : table.spacedOperators.contains ['&'] = true) : us = ts := by
  induction h with
  | nil => rfl
  | keep _ ih => rw [ih]
  | radix hno =>
      rw [hamp] at hno
      cases hno

theorem isSpaced_ampersand (prev : Option Token) (s : Bool) :
    isSpaced table prev ⟨.operator, ['&'], s⟩ = table.spacedOperators.contains ['&'] := rfl

theorem keepsBlanks_ampersand (prev : Option Token) (s : Bool) :
    KeepsBlanks prev ⟨.operator, ['&'], s⟩ := ⟨by simp, rfl⟩

theorem keepsBlanks_word (prev : Option Token) (text : List Char) (s : Bool) :
    KeepsBlanks prev ⟨.word, text, s⟩ := ⟨by simp, rfl⟩

/-- A token that asks for a space gets it, but for a final underscore. -/
theorem writesSpace_of_after {t u : Token} {last : Bool} (ht : t.kind ≠ .opening)
    (hu : ¬(last = true ∧ u.text = ['_'])) :
    writesSpace table (some t) (some true) u last = true := by
  have hopening : (t.kind != .opening) = true := by simpa using ht
  rw [writesSpace, hasSpaceBefore, if_neg (by simpa using hu)]
  cases isSpaced table (some t) u <;> simp [hopening]

theorem writesSpace_of_isSpaced {prev : Option Token} {u : Token} {last : Bool}
    {after : Option Bool} (hu : ¬(last = true ∧ u.text = ['_']))
    (h : isSpaced table prev u = true) :
    writesSpace table prev after u last = prev.any (·.kind != .opening) := by
  rw [writesSpace, hasSpaceBefore, if_neg (by simpa using hu), if_pos h]
  cases prev <;> simp

section Radix

variable {prev : Option Token} {s : Bool} {cs close tail : List Char} {ts : List Token}

theorem tail_eq_of_close {rest : List Char}
    (hclose : close = ['&'] ∨ close = [] ∧ tail.head? ≠ some '&')
    (h : '&' :: rest = close ++ tail) : tail = rest := by
  rcases hclose with rfl | ⟨rfl, hne⟩
  · exact (List.cons.inj h).2.symm
  · rw [List.nil_append] at h
    rw [← h] at hne
    exact absurd rfl hne

/-- If what is written behind a name closes a number with a radix, and the code does not, a
keyword follows in the code. -/
theorem exists_keyword {name : List Char} (hamp : table.spacedOperators.contains ['&'] = false)
    (hafter : spaceAfter table prev ⟨.word, name, s⟩ = none)
    (h : Token.Reads false ('&' :: cs) ts) (hcs : cs.head?.any isNameChar = true)
    (hwritten : written table prev ⟨.word, name, s⟩ ts = close ++ tail)
    (hclose : close = ['&'] ∨ close = [] ∧ tail.head? ≠ some '&')
    (htail : tail.head?.any isNameChar = false) :
    ∃ k ks, ts = ⟨.operator, ['&'], false⟩ :: k :: ks ∧ Token.Reads false cs (k :: ks) ∧
      k.kind = .word ∧ table.isSpacedKeyword k.text = true ∧
      respace table (some ⟨.word, name, s⟩) none ts = ⟨.operator, ['&'], false⟩ ::
        respace table (some ⟨.operator, ['&'], false⟩) none (k :: ks) ∧
      tail = Token.print (respace table (some ⟨.operator, ['&'], false⟩) none (k :: ks)) := by
  obtain ⟨c, rest, rfl⟩ : ∃ c rest, cs = c :: rest := by
    cases cs with
    | nil => cases hcs
    | cons c rest => exact ⟨c, rest, rfl⟩
  have hname : isNameChar c = true := by simpa using hcs
  rw [written, hafter] at hwritten
  cases hradix : Token.radixLength? (c :: rest) with
  | some n =>
      -- the second `&` starts a number itself, with the character of a name behind it
      obtain ⟨us, rfl, -⟩ := h.exists_of_visible (by decide) (.radix hradix)
      obtain ⟨_, name', close', _, -, -, -, -, rfl⟩ := Token.radixLength?_eq_some hradix
      rw [respace_unspaced rfl rfl, Token.print, List.take_succ_cons] at hwritten
      rw [tail_eq_of_close hclose hwritten] at htail
      have hno : isNameChar c = false := htail
      rw [hname] at hno
      cases hno
  | none =>
      obtain ⟨us, rfl, hus⟩ := h.exists_of_visible (by decide) (Token.measured_ampersand hradix)
      obtain ⟨ks, rfl, hks⟩ :=
        hus.exists_of_visible (isBlank_of_isNameChar hname) (Token.measured c rest)
      generalize hk : (⟨(Token.measure c rest).1, c :: rest.take (Token.measure c rest).2, false⟩ :
        Token) = k at *
      have hafter' : spaceAfter table (some ⟨.word, name, s⟩) ⟨.operator, ['&'], false⟩ = none := by
        rw [spaceAfter, isSpaced_ampersand, hamp]
        rfl
      have hrespace : respace table (some ⟨.word, name, s⟩) none
          (⟨.operator, ['&'], false⟩ :: k :: ks) = ⟨.operator, ['&'], false⟩ ::
          respace table (some ⟨.operator, ['&'], false⟩) none (k :: ks) := by
        have hplain : isSpaced table (some ⟨.word, name, s⟩) ⟨.operator, ['&'], false⟩ = false :=
          hamp
        rw [respace_unspaced rfl hplain, hafter']
      have htailEq : tail = Token.print (respace table (some ⟨.operator, ['&'], false⟩) none
          (k :: ks)) := by
        refine tail_eq_of_close hclose ?_
        rw [← hwritten]
        exact (congrArg Token.print hrespace).symm
      have hspace : writesSpace table (some ⟨.operator, ['&'], false⟩) none k ks.isEmpty =
          true := by
        by_contra hno
        rw [htailEq, print_respace_cons, if_neg hno, ← hk] at htail
        simp [hname] at htail
      have hspaced := isSpaced_of_writesSpace (by rw [← hk]) hspace
      have hkind : k.kind = .word := by
        rcases (Token.measured c rest).kind_of_isNameChar hname with hnumber | hword
        · rw [← hk, isSpaced, hnumber] at hspaced
          cases hspaced
        · rw [← hk, hword]
      refine ⟨k, ks, rfl, hus, hkind, ?_, hrespace, htailEq⟩
      simp only [isSpaced, hkind, Bool.and_eq_true] at hspaced
      exact hspaced.2.1

/-- A written `&` starts a number where it starts none in the code: a name of radix digits,
another `&` and a keyword follow. -/
theorem exists_regrouped (h : Token.Reads false cs ts) (hnone : Token.radixLength? cs = none)
    (hsome : Token.radixLength? (written table prev ⟨.operator, ['&'], s⟩ ts) ≠ none) :
    table.spacedOperators.contains ['&'] = false ∧
    ∃ mark name k ks rest,
      ts = ⟨.word, mark :: name, false⟩ :: ⟨.operator, ['&'], false⟩ :: k :: ks ∧
      Token.isRadix mark name = true ∧ Token.Reads false rest (k :: ks) ∧ k.kind = .word ∧
      table.isSpacedKeyword k.text = true ∧
      respace table (some ⟨.operator, ['&'], s⟩) (spaceAfter table prev ⟨.operator, ['&'], s⟩) ts =
        ⟨.word, mark :: name, false⟩ :: ⟨.operator, ['&'], false⟩ ::
          respace table (some ⟨.operator, ['&'], false⟩) none (k :: ks) ∧
      (Token.print (respace table (some ⟨.operator, ['&'], false⟩) none (k :: ks))).head?.any
        isNameChar = false := by
  obtain ⟨n, hn⟩ := Option.ne_none_iff_exists'.mp hsome
  have hr := resumes table (keepsBlanks_ampersand prev s) h
  obtain ⟨mark, name, close, tail, hwritten, hradix, hclose, htail, -⟩ :=
    Token.radixLength?_eq_some hn
  obtain ⟨hmark, hdigit, hunderscore⟩ := Token.mark_of_isRadix hradix
  have hspaceChar : isNameChar ' ' = false := by decide
  have hampChar : isNameChar '&' = false := by decide
  rw [hwritten] at hr
  generalize hb : mark :: (name ++ (close ++ tail)) = b at hr
  cases hr with
  | done => cases hb
  | space hspace =>
      obtain ⟨rfl, -⟩ := List.cons.inj hb
      rw [hspaceChar] at hmark
      cases hmark
  | @token c rest kind n us hc hm hus hspace =>
      obtain ⟨rfl, hb⟩ := List.cons.inj hb
      obtain ⟨rfl, rfl⟩ := hm.unique (.name hmark hdigit)
      have hstop := head?_dropWhile isNameChar rest
      have hsplit := List.takeWhile_append_dropWhile (p := isNameChar) (l := rest)
      have hnames : ∀ d ∈ rest.takeWhile isNameChar, isNameChar d = true :=
        fun d => List.mem_takeWhile_imp
      rw [take_length_takeWhile] at hspace hb ⊢
      rw [drop_length_takeWhile] at hus
      rw [← hsplit, Token.radixLength?_name hnames hstop] at hnone
      generalize rest.takeWhile isNameChar = word at *
      generalize rest.dropWhile isNameChar = next at *
      have hwrittenStop : (written table (some ⟨.operator, ['&'], s⟩)
          ⟨.word, mark :: word, false⟩ us).head?.any isNameChar = false :=
        any_written (keepsBlanks_word ..) hus hspaceChar hstop
      have hcloseStop : (close ++ tail).head?.any isNameChar = false := by
        rcases hclose with rfl | ⟨rfl, -⟩
        · simpa using hampChar
        · exact htail
      obtain rfl : name = word := by
        have hwords := congrArg (List.takeWhile isNameChar) hb
        rwa [takeWhile_append_eq (Token.isNameChar_of_mem_radix hradix) hcloseStop,
          takeWhile_append_eq hnames hwrittenStop] at hwords
      have hbehind := List.append_cancel_left hb
      -- a space after the first `&` or before the name would have kept them apart
      have hamp : table.spacedOperators.contains ['&'] = false := by
        by_contra hyes
        have hafter : spaceAfter table prev ⟨.operator, ['&'], s⟩ = some true := by
          rw [spaceAfter, isSpaced_ampersand, if_pos (by simpa using hyes)]
        rw [hafter, writesSpace_of_after (by simp) (by simp [hunderscore])] at hspace
        cases hspace
      have hplain : isSpaced table (some ⟨.operator, ['&'], s⟩) ⟨.word, mark :: name, false⟩ =
          false := by
        by_contra hyes
        rw [writesSpace_of_isSpaced (by simp [hunderscore]) (by simpa using hyes)] at hspace
        cases hspace
      have hafter : spaceAfter table (some ⟨.operator, ['&'], s⟩) ⟨.word, mark :: name, false⟩ =
          none := by
        rw [spaceAfter, hplain]
        rfl
      rw [if_pos hradix] at hnone
      split at hnone
      · next hnext =>
          obtain ⟨after, rfl⟩ := List.head?_eq_some_iff.mp hnext
          split at hnone
          · next hcs =>
              obtain ⟨k, ks, rfl, hks, hkind, hkeyword, hrespace, rfl⟩ := exists_keyword hamp hafter
                hus (by simpa using hcs) hbehind.symm hclose htail
              refine ⟨hamp, mark, name, k, ks, after, rfl, hradix, hks, hkind, hkeyword, ?_, htail⟩
              rw [respace, hspace, hafter, hrespace]
          · cases hnone
      · cases hnone

end Radix

/-! ## Reading what is written -/

/-- A token is measured the same before what is written, unless it is an `&` that becomes the
start of a number there. -/
theorem measured_written (table : CaseTable) {c : Char} {rest : List Char} {kind : TokenKind}
    {n : Nat} (hm : Token.Measured c rest kind n) (s : Bool) {us : List Token} (prev : Option Token)
    (hus : Token.Reads false (rest.drop n) us) :
    Token.Measured c (rest.take n ++ written table prev ⟨kind, c :: rest.take n, s⟩ us) kind n ∨
      c = '&' ∧ kind = .operator ∧ n = 0 ∧ Token.radixLength? rest = none ∧
        Token.radixLength? (written table prev ⟨.operator, ['&'], s⟩ us) ≠ none := by
  by_cases hkeeps : KeepsBlanks prev ⟨kind, c :: rest.take n, s⟩
  · have hends : Token.EndsAlike (rest.drop n)
        (written table prev ⟨kind, c :: rest.take n, s⟩ us) := endsAlike_written hkeeps hus
    by_cases hamp : c = '&' ∧ kind = .operator
    · obtain ⟨rfl, rfl⟩ := hamp
      cases hradix : Token.radixLength? rest with
      | some m => cases (hm.unique (.radix hradix)).1
      | none =>
          obtain ⟨-, rfl⟩ := hm.unique (Token.measured_ampersand hradix)
          by_cases hnone : Token.radixLength? (written table prev ⟨.operator, ['&'], s⟩ us) = none
          · exact .inl (hm.append hends fun _ _ => hnone)
          · exact .inr ⟨rfl, rfl, rfl, rfl, hnone⟩
    · exact .inl (hm.append hends fun hc hkind => absurd ⟨hc, hkind⟩ hamp)
  · -- an opening bracket or a sign is one before any text
    left
    by_cases hopening : kind = .opening
    · exact hm.append_of_opening hopening _
    · have hsign : isSign prev ⟨kind, c :: rest.take n, s⟩ = true := by
        by_contra hno
        exact hkeeps ⟨hopening, by simpa using hno⟩
      have hc : c = '+' ∨ c = '-' := by
        simp only [isSign, Bool.and_eq_true, Bool.or_eq_true, beq_iff_eq, List.cons.injEq] at hsign
        exact hsign.1.2.imp And.left And.left
      obtain ⟨rfl, rfl⟩ := hm.unique (Token.measured_sign hc rest)
      exact Token.measured_sign hc _

/-- What is written reads back as the tokens with their settled marks, up to numbers that spaces
make. -/
theorem reads_respace (table : CaseTable) {spaced : Bool} {cs : List Char} {ts : List Token}
    (h : Token.Reads spaced cs ts) (prev : Option Token) (after : Option Bool) :
    ∃ us, Token.Reads false (Token.print (respace table prev after ts)) us ∧
      Regroups table (respace table prev after ts) us := by
  -- the tokens that become a number are passed over at once, hence the induction on the length
  induction hlength : ts.length using Nat.strong_induction_on generalizing spaced cs ts prev after
  with
  | _ length ih =>
      cases ts with
      | nil => exact ⟨[], .nil, .nil⟩
      | cons t ts =>
          obtain ⟨blanks, c, rest, kind, n, rfl, hc, hm, rfl, hus⟩ := h.exists_of_cons rfl
          generalize hs : (spaced || !blanks.isEmpty) = s at *
          subst hlength
          rw [print_respace_cons, respace]
          generalize writesSpace table prev after ⟨kind, c :: rest.take n, s⟩ ts.isEmpty = w
          rcases measured_written table hm s prev hus with
            hsame | ⟨rfl, rfl, rfl, hnone, hsome⟩
          · obtain ⟨us, hread, hgroup⟩ := ih ts.length (by simp) hus _ _ rfl
            refine ⟨_, .print_cons w hc ?_ hread, .keep hgroup⟩
            rwa [List.length_take_of_le hm.le_length]
          · obtain ⟨hamp, mark, name, k, ks, next, rfl, hradix, hks, hkind, hkeyword, hrespace,
              hstop⟩ := exists_regrouped hus hnone hsome
            obtain ⟨us, hread, hgroup⟩ := ih (k :: ks).length (by simp) hks
              (some ⟨.operator, ['&'], false⟩) none rfl
            have hnumber : Token.Measured '&' (mark :: name ++ ['&'] ++ Token.print (respace table
                (some ⟨.operator, ['&'], false⟩) none (k :: ks))) .number
                (mark :: name ++ ['&']).length := by
              simpa using Token.Measured.radix (Token.radixLength?_eq hradix (.inl rfl) hstop)
            refine ⟨⟨.number, '&' :: (mark :: name) ++ ['&'], w⟩ :: us, ?_, ?_⟩
            · rw [written, List.take_zero, hrespace]
              simpa [Token.print] using Token.Reads.print_cons w hc hnumber hread
            · rw [List.take_zero, hrespace]
              exact .radix hamp hkind hkeyword hgroup

end Spacing

end ClassicAsp
