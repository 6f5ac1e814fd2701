import ClassicAsp.Proofs.Respacing

/-! # Spaced code

Spaced code has the tokens of the code, with single spaces where the table asks for them, and
spacing it again changes nothing. -/

namespace ClassicAsp

open Text

/-! ## The texts of tokens -/

namespace Token

theorem isBlank_of_isInner {c : Char} (h : isInner c = true) : isBlank c = false := by
  rw [isInner, Bool.or_eq_true] at h
  rcases h with hname | hmark
  · exact isBlank_of_isNameChar hname
  · have hall : ['.', '+', '-', '&', '>', '='].all (!isBlank ·) = true := by decide
    simpa using List.all_eq_true.mp hall c (by simpa using hmark)

theorem Measured.isBlank_eq_false {c : Char} {rest : List Char} {kind : TokenKind} {n : Nat}
    (h : Measured c rest kind n) (hc : isBlank c = false) (hopen : c ≠ Masked.opening ∧ c ≠ '[') :
    ∀ d ∈ c :: rest.take n, isBlank d = false := by
  rw [List.forall_mem_cons]
  exact ⟨hc, fun d hd => isBlank_of_isInner (h.isInner hopen d hd)⟩

theorem endsVisible_of_forall {cs : List Char} (h : ∀ c ∈ cs, isBlank c = false) :
    EndsVisible cs :=
  fun c hc => h c (List.mem_of_getLast? hc)

theorem endsVisible_lengthThrough {stop c : Char} {rest : List Char} (hstop : isBlank stop = false)
    (hrest : rest.drop (lengthThrough stop rest) ≠ []) :
    EndsVisible (c :: rest.take (lengthThrough stop rest)) := by
  obtain ⟨front, hfront⟩ := take_lengthThrough hrest
  rw [hfront, ← List.cons_append]
  refine endsVisible_append ?_ (by simp)
  intro d hd
  obtain rfl : stop = d := by simpa using hd
  exact hstop

/-- A token that something follows ends visibly. -/
theorem Measured.endsVisible {c : Char} {rest : List Char} {kind : TokenKind} {n : Nat}
    (h : Measured c rest kind n) (hc : isBlank c = false) (hrest : rest.drop n ≠ []) :
    EndsVisible (c :: rest.take n) := by
  by_cases hopening : c = Masked.opening
  · subst hopening
    obtain ⟨-, rfl⟩ := h.unique .placeholder
    exact endsVisible_lengthThrough (by decide) hrest
  by_cases hbracket : c = '['
  · subst hbracket
    obtain ⟨-, rfl⟩ := h.unique .bracketed
    exact endsVisible_lengthThrough (by decide) hrest
  · exact endsVisible_of_forall (h.isBlank_eq_false hc ⟨hopening, hbracket⟩)

/-- Blanks stand in no token but for placeholders and texts in brackets, and none comes first. -/
structure Solid (t : Token) : Prop where
  head : ∃ c rest, t.text = c :: rest ∧ isBlank c = false
  inside : t.text.head? ≠ some Masked.opening → t.text.head? ≠ some '[' →
    ∀ c ∈ t.text, isBlank c = false

theorem Measured.solid {c : Char} {rest : List Char} {kind : TokenKind} {n : Nat}
    (h : Measured c rest kind n) (hc : isBlank c = false) (s : Bool) :
    Solid ⟨kind, c :: rest.take n, s⟩ where
  head := ⟨c, rest.take n, rfl, hc⟩
  inside hopening hbracket :=
    h.isBlank_eq_false hc ⟨by simpa using hopening, by simpa using hbracket⟩

theorem Reads.solid {spaced : Bool} {cs : List Char} {ts : List Token} (h : Reads spaced cs ts) :
    ∀ t ∈ ts, Solid t := by
  induction h with
  | nil => simp
  | blank _ _ ih => exact ih
  | token hc _ ih =>
      rw [List.forall_mem_cons]
      exact ⟨(measured ..).solid hc _, ih⟩

theorem Reads.eq_nil {spaced : Bool} {ts : List Token} (h : Reads spaced [] ts) : ts = [] := by
  cases h
  rfl

/-- All tokens but the last one end visibly. -/
theorem Reads.endsVisible_print {spaced : Bool} {cs : List Char} {front back : List Token}
    (h : Reads spaced cs (front ++ back)) (hback : back ≠ []) : EndsVisible (print front) := by
  induction front generalizing spaced cs with
  | nil => simp [print, EndsVisible]
  | cons t front ih =>
      obtain ⟨blanks, c, rest, kind, n, rfl, hc, hm, rfl, hus⟩ := h.exists_of_cons rfl
      have hrest : rest.drop n ≠ [] := by
        intro hnil
        rw [hnil] at hus
        exact hback (List.append_eq_nil_iff.mp hus.eq_nil).2
      rw [print]
      refine endsVisible_append ?_ (by simp)
      by_cases hprint : print front = []
      · rw [hprint, List.append_nil]
        exact hm.endsVisible hc hrest
      · exact endsVisible_append (ih hus) hprint

end Token

/-! ## Spacing twice -/

namespace Spacing

variable {table : CaseTable}

theorem operators_eq (table : CaseTable) (code : List Char) :
    operators table code = Token.print (respace table none none (Token.read code)) := by
  have hts : ∀ t ∈ Token.read code, t.text ≠ [] := by
    intro t ht
    obtain ⟨c, rest, htext, -⟩ := ((Token.read_reads code).solid t ht).head
    simp [htext]
  rw [operators, writeAfter_eq rfl hts]
  rfl

theorem regroups_operators (table : CaseTable) (code : List Char) :
    Regroups table (respace table none none (Token.read code))
      (Token.read (operators table code)) := by
  obtain ⟨us, hread, hgroup⟩ := reads_respace table (Token.read_reads code) none none
  rw [← operators_eq] at hread
  rwa [(Token.read_reads _).eq hread]

theorem Regroups.isEmpty_eq {ts us : List Token} (h : Regroups table ts us) :
    us.isEmpty = ts.isEmpty := by
  cases h <;> rfl

theorem Regroups.exists_of_word {k : Token} {ks us : List Token} (h : Regroups table (k :: ks) us)
    (hk : k.kind = .word) : ∃ vs, us = k :: vs := by
  cases h with
  | keep => exact ⟨_, rfl⟩
  | radix => cases hk

/-- A keyword is spaced alike behind an operator and behind a number. -/
theorem respace_keyword {t t' k : Token} (hkind : k.kind = .word)
    (hkeyword : table.isSpacedKeyword k.text = true) (ht : t.kind = .number)
    (ht' : t'.kind = .operator) (ks : List Token) :
    respace table (some t) none (k :: ks) = respace table (some t') none (k :: ks) := by
  have hspaced : isSpaced table (some t) k = true := by
    simp [isSpaced, isSign, hkind, hkeyword, ht]
  have hspaced' : isSpaced table (some t') k = true := by
    simp [isSpaced, isSign, hkind, hkeyword, ht']
  rw [respace, respace, writesSpace, writesSpace, hasSpaceBefore, hasSpaceBefore, spaceAfter,
    spaceAfter, if_pos hspaced, if_pos hspaced', if_pos hspaced, if_pos hspaced']
  simp only [Option.any_some, ht, ht']
  rfl

/-- Tokens that are read back from settled ones are written as these. -/
theorem Regroups.print_respace {ts us : List Token} (h : Regroups table ts us)
    {prev : Option Token} {after : Option Bool} (hsettled : respace table prev after ts = ts) :
    Token.print (respace table prev after us) = Token.print ts := by
  induction h generalizing prev after with
  | nil => rfl
  | @keep t ts us h ih =>
      rw [respace, List.cons.injEq] at hsettled
      rw [respace, h.isEmpty_eq, hsettled.1, Token.print, Token.print, ih hsettled.2]
  | @radix s name k ks us hamp hkind hkeyword h ih =>
      obtain ⟨vs, rfl⟩ := h.exists_of_word hkind
      obtain ⟨hmark, htail⟩ := List.cons.inj hsettled
      have hbare : ∀ p b, spaceAfter table p ⟨.operator, ['&'], b⟩ = none := by
        intro p b
        rw [spaceAfter, isSpaced_ampersand, hamp]
        rfl
      -- the number gets the space of the `&` it starts with
      have hspace : writesSpace table prev after ⟨.number, '&' :: name ++ ['&'], s⟩ false = s := by
        have hs := congrArg Token.spaced hmark
        have hno : ['&'] ∉ table.spacedOperators := by simpa using hamp
        simpa [writesSpace, hasSpaceBefore, isSpaced, isSign, hno] using hs
      have hkeywords : Token.print (respace table (some ⟨.operator, ['&'], false⟩) none
          (k :: vs)) = Token.print (k :: ks) := by
        have hrest := (List.cons.inj (List.cons.inj htail).2).2
        rw [hbare] at hrest
        exact ih hrest
      have hnumber : spaceAfter table prev ⟨.number, '&' :: name ++ ['&'], s⟩ = none := rfl
      have hswap : respace table (some ⟨.number, '&' :: name ++ ['&'], s⟩) none (k :: vs) =
          respace table (some ⟨.operator, ['&'], false⟩) none (k :: vs) :=
        respace_keyword hkind hkeyword rfl rfl vs
      rw [respace, List.isEmpty_cons, hspace, hnumber, Token.print, hswap, hkeywords]
      simp [Token.print]

/-- What spacing writes is spaced already. -/
theorem operators_operators (table : CaseTable) (code : List Char) :
    operators table (operators table code) = operators table code := by
  have hsettled := respace_respace table none none (Token.read code)
  rw [operators_eq table (operators table code),
    (regroups_operators table code).print_respace hsettled, ← operators_eq]

/-- Spaced code is spaced: spacing it again changes nothing, whatever the table. -/
theorem operators_idempotent (table : CaseTable) (code : List Char) :
    operators table (operators table code) = operators table code :=
  operators_operators table code

/-! ## Where the spaces are -/

/-- The token gets a space on each side: an operator of the table that is no sign, or a keyword of
the table that no dot leads to. -/
inductive TakesSpaces (table : CaseTable) (prev : Option Token) (t : Token) : Prop where
  | operator (hkind : t.kind = .operator) (hmem : t.text ∈ table.spacedOperators)
      (hsign : isSign prev t = false)
  | keyword (hkind : t.kind = .word) (hkeyword : table.isSpacedKeyword t.text = true)
      (hdot : ∀ p ∈ prev, p.kind ≠ .dot)

theorem isSpaced_iff {prev : Option Token} {t : Token} :
    isSpaced table prev t = true ↔ TakesSpaces table prev t := by
  constructor
  · intro h
    rw [isSpaced, Bool.and_eq_true] at h
    obtain ⟨hsign, hform⟩ := h
    cases hkind : t.kind with
    | operator =>
        rw [hkind] at hform
        exact .operator hkind (by simpa using hform) (by simpa using hsign)
    | word =>
        rw [hkind] at hform
        simp only [Bool.and_eq_true] at hform
        refine .keyword hkind hform.1 ?_
        rintro p rfl
        simpa using hform.2
    | _ =>
        rw [hkind] at hform
        cases hform
  · intro h
    cases h with
    | operator hkind hmem hsign => simp [isSpaced, hsign, hkind, hmem]
    | keyword hkind hkeyword hdot =>
        have hprev : prev.any (·.kind == .dot) = false := by
          cases prev with
          | none => rfl
          | some p => simpa using hdot p rfl
        simp [isSpaced, isSign, hkind, hkeyword, hprev]

/-- The token is an underscore at the end, where `back` comes behind it. -/
def IsFinalUnderscore (t : Token) (back : List Token) : Prop := back = [] ∧ t.text = ['_']

/-- The spaces around the token `t` between the tokens `front` and `back` of a text. The text in
front ends visibly and the token starts so: what is between them is the space of the token, if
it is spaced. -/
structure Neat (table : CaseTable) (front : List Token) (t : Token) (back : List Token) :
    Prop where
  solid : t.Solid
  front_endsVisible : EndsVisible (Token.print front)
  first : front = [] → t.spaced = false
  before : TakesSpaces table front.getLast? t → ¬IsFinalUnderscore t back →
    t.spaced = front.getLast?.any (·.kind != .opening)
  after : TakesSpaces table front.getLast? t → ∀ u us, back = u :: us →
    ¬IsFinalUnderscore u us → u.spaced = true
  sign : isSign front.getLast? t = true → ∀ u us, back = u :: us → u.spaced = true →
    TakesSpaces table (some t) u ∨ IsFinalUnderscore u us

/-- Settled marks are settled from every token on. -/
theorem exists_settled {front back : List Token} {prev : Option Token} {after : Option Bool}
    (h : respace table prev after (front ++ back) = front ++ back) :
    ∃ asked, respace table (front.getLast?.or prev) asked back = back := by
  induction front generalizing prev after with
  | nil => exact ⟨after, h⟩
  | cons t front ih =>
      obtain ⟨asked, hasked⟩ := ih (List.cons.inj h).2
      have hlast : (t :: front).getLast?.or prev = front.getLast?.or (some t) := by
        cases front with
        | nil => rfl
        | cons u front => simp [List.getLast?_cons]
      exact ⟨asked, by rw [hlast, hasked]⟩

theorem neat_of_settled {front back : List Token} {t : Token} {asked : Option Bool}
    (h : respace table front.getLast? asked (t :: back) = t :: back) (hsolid : t.Solid)
    (hfront : EndsVisible (Token.print front)) : Neat table front t back := by
  obtain ⟨hmark, hback⟩ := List.cons.inj h
  have hspaced : writesSpace table front.getLast? asked t back.isEmpty = t.spaced :=
    congrArg Token.spaced hmark
  have hnext : ∀ u us, back = u :: us →
      writesSpace table (some t) (spaceAfter table front.getLast? t) u us.isEmpty = u.spaced := by
    rintro u us rfl
    exact congrArg Token.spaced (List.cons.inj hback).1
  refine ⟨hsolid, hfront, ?_, ?_, ?_, ?_⟩
  · rintro rfl
    rw [← hspaced]
    rfl
  · intro htakes hlast
    rw [← hspaced, writesSpace_of_isSpaced ?_ (isSpaced_iff.mpr htakes)]
    simpa [IsFinalUnderscore] using hlast
  · intro htakes u us hu hlast
    have hopening : t.kind ≠ .opening := by
      cases htakes with
      | operator hkind => simp [hkind]
      | keyword hkind => simp [hkind]
    rw [← hnext u us hu, spaceAfter, if_pos (isSpaced_iff.mpr htakes)]
    exact writesSpace_of_after hopening (by simpa [IsFinalUnderscore] using hlast)
  · intro hsign u us hu hspace
    have hafter : spaceAfter table front.getLast? t = some false := by
      simp [spaceAfter, isSpaced, hsign]
    by_contra hnot
    rw [not_or] at hnot
    have hlast : ¬(us.isEmpty && u.text == ['_']) = true := by
      simpa [IsFinalUnderscore] using hnot.2
    have hno := hnext u us hu
    rw [hafter, writesSpace, hasSpaceBefore, if_neg hlast,
      if_neg fun hyes => hnot.1 (isSpaced_iff.mp hyes), hspace] at hno
    cases hno

/-- Spacing keeps the tokens of code, if the table puts spaces around `&`: none is merged or
split, and the spaces stand where the table asks for them. -/
theorem operators_keep_tokens (hamp : ['&'] ∈ table.spacedOperators) (code : List Char) :
    (Token.read (operators table code)).map Token.form = (Token.read code).map Token.form ∧
      operators table code = Token.print (Token.read (operators table code)) ∧
      ∀ front t back, Token.read (operators table code) = front ++ t :: back →
        Neat table front t back := by
  have hread : Token.read (operators table code) = respace table none none (Token.read code) :=
    (regroups_operators table code).eq (by simpa using hamp)
  refine ⟨?_, ?_, ?_⟩
  · rw [hread, map_form_respace]
  · rw [hread, operators_eq]
  · intro front t back hsplit
    have hreads : Token.Reads false (operators table code) (front ++ t :: back) := by
      rw [← hsplit]
      exact Token.read_reads _
    have hsettled := respace_respace table none none (Token.read code)
    rw [← hread, hsplit] at hsettled
    obtain ⟨asked, hasked⟩ := exists_settled hsettled
    rw [Option.or_none] at hasked
    exact neat_of_settled hasked (hreads.solid t (by simp)) (hreads.endsVisible_print (by simp))

/-- Code with signs, exponents, concatenations and numbers with a radix close together. -/
def denseCode : List Char := "If x=-1e - 5&H1&And(Not - .5)<>[ a]&o.And&_".toList

/-- The theorem at dense code, and the tables it is for. -/
theorem operators_keep_tokens_dense :
    (['&'] ∈ CaseTable.bundled.spacedOperators ∧ ['&'] ∈ CaseTable.builtin.spacedOperators ∧
      ['&'] ∈ CaseTable.empty.spacedOperators) ∧
    operators .bundled denseCode =
      "If x = -1e - 5 & H1 & And (Not -.5) <> [ a] & o.And &_".toList ∧
    (Token.read (operators .bundled denseCode)).map Token.form =
      (Token.read denseCode).map Token.form ∧
    ∀ front t back, Token.read (operators .bundled denseCode) = front ++ t :: back →
      Neat .bundled front t back := by
  have hamp : ['&'] ∈ CaseTable.bundled.spacedOperators := by decide +kernel
  obtain ⟨hforms, -, hneat⟩ := operators_keep_tokens hamp denseCode
  refine ⟨⟨hamp, ?_, ?_⟩, ?_, hforms, hneat⟩ <;> decide +kernel

/-- A table that puts spaces around a keyword but not around `&`: the space before the keyword
ends a number. -/
example :
    let table : CaseTable := { namedOperators := [['=']], spacedKeywords := ["and".toList] }
    operators table "a&H1&and b".toList = "a&H1& and b".toList ∧
      (Token.read "a&H1&and b".toList).length = 6 ∧
      (Token.read "a&H1& and b".toList).length = 4 := by
  decide +kernel

end Spacing

end ClassicAsp
