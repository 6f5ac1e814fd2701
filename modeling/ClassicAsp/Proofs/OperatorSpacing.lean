import ClassicAsp.Proofs.Restyling
import ClassicAsp.Proofs.TokenForms
import ClassicAsp.Spacing

/-! # Spaces around operators

The tokens of code are its visible parts in order. Writing them with other spaces restyles the
code: a `%` is a token of its own that asks for no space, so that it stays apart from a `>`. -/

namespace ClassicAsp

open Text

/-! ## Tokens that end with a percent sign -/

namespace Token

theorem mem_of_lastVisible {prev : Option Char} {cs : List Char} {d : Char}
    (h : lastVisible prev cs = some d) : prev = some d ∨ d ∈ cs := by
  induction cs generalizing prev with
  | nil => exact .inl h
  | cons c cs ih =>
      rw [lastVisible_cons] at h
      rcases ih h with hp | hd
      · split at hp
        · exact .inl hp
        · obtain rfl := Option.some.inj hp
          exact .inr (by simp)
      · exact .inr (by simp [hd])

theorem lastVisible_ne_percent {cs : List Char} (h : '%' ∉ cs) :
    lastVisible none cs ≠ some '%' := by
  intro hlast
  rcases mem_of_lastVisible hlast with hp | hm
  · cases hp
  · exact h hm

/-- What is taken through a character that is no percent sign does not end with one, unless
nothing comes after it. -/
theorem percent_lengthThrough {stop c : Char} {rest : List Char} (hstop : isBlank stop = false)
    (hne : stop ≠ '%')
    (hlast : lastVisible none (c :: rest.take (lengthThrough stop rest)) = some '%') :
    rest.drop (lengthThrough stop rest) = [] := by
  by_contra hrest
  obtain ⟨front, hfront⟩ := take_lengthThrough hrest
  rw [hfront, ← List.cons_append, lastVisible_append, lastVisible_cons, hstop] at hlast
  exact hne (Option.some.inj hlast)

/-- A token that ends with a percent sign is that sign, or nothing comes after it. -/
theorem percent_measure {c : Char} {rest : List Char}
    (hlast : lastVisible none (c :: rest.take (measure c rest).2) = some '%') :
    (measure c rest).1 = .other ∨ rest.drop (measure c rest).2 = [] := by
  by_cases hopening : c = Masked.opening
  · subst hopening
    rw [Measured.placeholder.measure_eq] at hlast ⊢
    exact .inr (percent_lengthThrough (by decide) (by decide) hlast)
  by_cases hbracket : c = '['
  · subst hbracket
    rw [Measured.bracketed.measure_eq] at hlast ⊢
    exact .inr (percent_lengthThrough (by decide) (by decide) hlast)
  -- the percent sign is no inner character of any other token
  have hinner := (measured c rest).isInner ⟨hopening, hbracket⟩
  have hmem : '%' ∈ c :: rest.take (measure c rest).2 := by
    by_contra hno
    exact lastVisible_ne_percent hno hlast
  rcases List.mem_cons.mp hmem with rfl | hm
  · have hother : Measured '%' rest .other 0 :=
      .punctuation ⟨by decide, hopening, hbracket⟩ (by simp) rfl
    rw [hother.measure_eq]
    exact .inl rfl
  · exact absurd (hinner _ hm) (by decide)

/-! ## Reading -/

/-- The tokens of code, where `spaced` tells whether blanks came before it. -/
inductive Reads : Bool → List Char → List Token → Prop where
  | nil {spaced} : Reads spaced [] []
  | blank {spaced c cs ts} (hc : isBlank c = true) : Reads true cs ts → Reads spaced (c :: cs) ts
  | token {spaced c rest ts} (hc : isBlank c = false) :
      Reads false (rest.drop (measure c rest).2) ts →
      Reads spaced (c :: rest)
        (⟨(measure c rest).1, c :: rest.take (measure c rest).2, spaced⟩ :: ts)

theorem readAfter_reads (skip : Nat) (spaced : Bool) (done : List Token) (cs : List Char) :
    ∃ ts, readAfter skip spaced done cs = done.reverse ++ ts ∧
      Reads spaced (cs.drop skip) ts := by
  induction cs generalizing skip spaced done with
  | nil => exact ⟨[], by simp [readAfter], by simpa using .nil⟩
  | cons c rest ih =>
      cases skip with
      | succ skip =>
          rw [readAfter, List.drop_succ_cons]
          exact ih skip spaced done
      | zero =>
          rw [readAfter, List.drop_zero]
          cases hc : isBlank c with
          | true =>
              rw [if_pos rfl]
              obtain ⟨ts, hread, hts⟩ := ih 0 true done
              exact ⟨ts, hread, .blank hc hts⟩
          | false =>
              rw [if_neg (by simp)]
              obtain ⟨ts, hread, hts⟩ := ih (measure c rest).2 false
                (⟨(measure c rest).1, c :: rest.take (measure c rest).2, spaced⟩ :: done)
              exact ⟨_, hread.trans (by simp), .token hc hts⟩

theorem read_reads (code : List Char) : Reads false code (read code) := by
  obtain ⟨ts, hread, hts⟩ := readAfter_reads 0 false [] code
  rw [read, hread]
  exact hts

theorem Reads.allBlank {spaced : Bool} {cs : List Char} (h : Reads spaced cs []) :
    Text.allBlank cs = true := by
  generalize hts : ([] : List Token) = ts at h
  induction h with
  | nil => rfl
  | blank hc _ ih => rw [allBlank_cons, hc, ih hts]; rfl
  | token => cases hts

end Token

/-! ## Writing -/

namespace Spacing

variable {table : CaseTable}

theorem reverse_push (out : List Char) (space : Bool) (t : List Char) :
    (push out space t).reverse =
      out.reverse ++ ((if space && !out.isEmpty then [' '] else []) ++ t) := by
  rw [push, List.reverse_append, List.reverse_reverse]
  split <;> simp

theorem spaceAfter_other {prev : Option Token} {t : Token} (h : t.kind = .other) :
    spaceAfter table prev t = none := by
  simp [spaceAfter, isSpaced, isSign, h]

/-- A token behind a percent sign keeps the blanks before it. -/
theorem hasSpaceBefore_of_other {prev : Option Token} {t : Token}
    (hprev : prev.any (·.kind != .opening) = true) (ht : t.spaced = true) :
    hasSpaceBefore table prev none t = true := by
  rw [hasSpaceBefore]
  split
  · exact hprev
  · exact ht

/-- One token: the blanks `x` before it become a space or nothing. -/
theorem restyled_token {p : Option Char} {x t a b : List Char} {c : Char} (space : Bool)
    (hx : allBlank x = true) (hc : isBlank c = false)
    (hapart : space = false → x = [] ∨ p ≠ some '%' ∨ c ≠ '>')
    (h : Restyled (lastVisible none (c :: t)) a b) :
    Restyled p (x ++ c :: (t ++ a)) ((if space then [' '] else []) ++ c :: (t ++ b)) := by
  have hrest : Restyled (some c) (t ++ a) (t ++ b) := by
    refine Restyled.keep_append t ?_
    rwa [lastVisible_cons, hc] at h
  refine Restyled.visible hx ?_ ?_ hc rfl ?_ hrest
  · cases space <;> decide
  · cases space <;> simp
  · intro hy
    refine hapart ?_
    cases space
    · rfl
    · cases hy

/-- The state of the writer fits the last visible character: behind a percent sign nothing
follows, or the writer asks for no space and the blanks stay. -/
def Fits (p : Option Char) (ts : List Token) (prev : Option Token) (after : Option Bool)
    (out : List Char) : Prop :=
  p = some '%' → ts = [] ∨
    after = none ∧ prev.any (·.kind != .opening) = true ∧ out.isEmpty = false

theorem writeAfter_restyled (table : CaseTable) {spaced : Bool} {cs : List Char} {ts : List Token}
    (h : Token.Reads spaced cs ts) (x : List Char) (p : Option Char) (prev : Option Token)
    (after : Option Bool) (out : List Char) (hx : allBlank x = true)
    (hspaced : spaced = !x.isEmpty) (hfits : Fits p ts prev after out) :
    ∃ text, writeAfter table prev after out ts = out.reverse ++ text ∧
      Restyled p (x ++ cs) text := by
  induction h generalizing x p prev after out with
  | nil =>
      refine ⟨[], by simp [writeAfter], ?_⟩
      rw [List.append_nil]
      exact .blank hx rfl (fun _ => rfl) (by simp)
  | @blank spaced c cs ts hc _ ih =>
      have hxc : allBlank (x ++ [c]) = true := by simp [hx, hc]
      obtain ⟨text, hwrite, hstyle⟩ := ih (x ++ [c]) p prev after out hxc (by simp) hfits
      exact ⟨text, hwrite, by simpa using hstyle⟩
  | @token spaced c rest ts hc hreads ih =>
      generalize hn : (Token.measure c rest).2 = n at *
      generalize hkind : (Token.measure c rest).1 = kind at *
      have hsplit : c :: rest = c :: (rest.take n ++ rest.drop n) := by
        rw [List.take_append_drop]
      have hpercent : lastVisible none (c :: rest.take n) = some '%' →
          kind = .other ∨ rest.drop n = [] := by
        intro hlast
        rw [← hn, ← hkind]
        exact Token.percent_measure (by rw [hn]; exact hlast)
      rw [hsplit]
      by_cases hunder : ts.isEmpty && (c :: rest.take n) == ['_']
      · rw [Bool.and_eq_true, List.isEmpty_iff, beq_iff_eq] at hunder
        obtain ⟨rfl, hmark⟩ := hunder
        refine ⟨_, ?_, restyled_token (b := []) (spaced && !out.isEmpty) hx hc ?_
          (.blank hreads.allBlank rfl (fun _ => rfl) (by simp))⟩
        · rw [writeAfter, if_pos (by simp [hmark]), reverse_push]
          simp
        · intro _
          obtain rfl : c = '_' := (List.cons.inj hmark).1
          exact .inr (.inr (by decide))
      · set t : Token := ⟨kind, c :: rest.take n, spaced⟩ with ht
        set space := hasSpaceBefore table prev after t with hspace
        have hfits' : Fits (lastVisible none (c :: rest.take n)) ts (some t)
            (spaceAfter table prev t) (push out space t.text) := by
          intro hlast
          rcases hpercent hlast with hother | hnil
          · right
            exact ⟨spaceAfter_other hother, by simp [ht, hother], by simp [push, ht]⟩
          · left
            rw [hnil] at hreads
            cases hreads
            rfl
        obtain ⟨text, hwrite, hstyle⟩ := ih [] (lastVisible none (c :: rest.take n)) (some t)
          (spaceAfter table prev t) (push out space t.text) rfl rfl hfits'
        refine ⟨_, ?_, restyled_token (space && !out.isEmpty) hx hc ?_ hstyle⟩
        · rw [writeAfter, if_neg hunder, hwrite, reverse_push]
          simp [ht]
        · intro hno
          by_contra hall
          rw [not_or, not_or, not_not, not_not] at hall
          obtain ⟨hxne, hp, -⟩ := hall
          rcases hfits hp with hnil | ⟨rfl, hprev, hout⟩
          · cases hnil
          · have hs : spaced = true := by rw [hspaced]; simpa using hxne
            rw [hout, hspace, hasSpaceBefore_of_other hprev hs] at hno
            cases hno

/-- Spacing restyles code. -/
theorem operators_restyled (table : CaseTable) (code : List Char) :
    Restyled none code (operators table code) := by
  obtain ⟨text, hwrite, hstyle⟩ := writeAfter_restyled table (Token.read_reads code)
    [] none none none [] rfl rfl (by simp [Fits])
  rw [operators, hwrite]
  exact hstyle

end Spacing

end ClassicAsp
