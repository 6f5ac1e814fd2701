import ClassicAsp.Proofs.BlankEnds
import ClassicAsp.Proofs.LineNormalization

/-! # Code around literals

The pieces of a line are gaps of code around literals, with a comment behind them or not.
Normalizing a line with a well-cased table writes the gaps anew, each with the same visible
characters up to case, and keeps the literals between them and the comment. -/

namespace ClassicAsp

open Text

/-! ## Weaving -/

/-- Gaps with texts between them. -/
def Text.weave : List (List Char) → List (List Char) → List Char
  | [], _ => []
  | gap :: _, [] => gap
  | gap :: gaps, t :: texts => gap ++ (t ++ weave gaps texts)

@[simp] theorem Text.weave_cons_cons (gap t : List Char) (gaps texts : List (List Char)) :
    weave (gap :: gaps) (t :: texts) = gap ++ (t ++ weave gaps texts) := rfl

theorem Text.weave_cons_left (c : Char) (gap : List Char) (gaps texts : List (List Char)) :
    weave ((c :: gap) :: gaps) texts = c :: weave (gap :: gaps) texts := by
  cases texts <;> rfl

namespace Piece

/-- The code between the literals. -/
def gaps : List Piece → List (List Char)
  | [] => [[]]
  | .code c :: ps => (gaps ps).modifyHead (c :: ·)
  | .literal _ :: ps => [] :: gaps ps
  | .comment _ _ :: ps => gaps ps

theorem exists_gaps_cons (ps : List Piece) : ∃ gap rest, gaps ps = gap :: rest := by
  induction ps with
  | nil => exact ⟨[], [], rfl⟩
  | cons p ps ih =>
      obtain ⟨gap, rest, hgaps⟩ := ih
      cases p with
      | code c => exact ⟨c :: gap, rest, by rw [gaps, hgaps]; rfl⟩
      | literal t => exact ⟨[], gaps ps, rfl⟩
      | comment => exact ⟨gap, rest, hgaps⟩

theorem weave_gaps_code (c : Char) (ps : List Piece) (texts : List (List Char)) :
    weave (gaps (.code c :: ps)) texts = c :: weave (gaps ps) texts := by
  obtain ⟨gap, rest, hgaps⟩ := exists_gaps_cons ps
  rw [gaps, hgaps]
  exact weave_cons_left c gap rest texts

theorem length_gaps {ps : List Piece} (h : Row ps) :
    (gaps ps).length = (Masked.literalsOf ps).length + 1 := by
  induction h with
  | nil => rfl
  | code c _ ih => simpa [gaps, Masked.literalsOf] using ih
  | literal _ _ _ ih => simpa [gaps, Masked.literalsOf] using ih

theorem join_eq_weave {ps : List Piece} (h : Row ps) :
    join ps = weave (gaps ps) (Masked.literalsOf ps) := by
  induction h with
  | nil => rfl
  | code c _ ih =>
      rw [join_cons, text, ih]
      exact (weave_gaps_code c _ _).symm
  | literal _ _ _ ih =>
      rw [join_cons, text, ih]
      rfl

theorem maskFrom_eq_weave {ps : List Piece} (h : Row ps) (k : Nat) :
    Masked.maskFrom k ps =
      weave (gaps ps) ((List.range' k (Masked.literalsOf ps).length).map Masked.placeholder) := by
  induction h generalizing k with
  | nil => rfl
  | code c _ ih =>
      rw [Masked.maskFrom, ih k]
      exact (weave_gaps_code c _ _).symm
  | literal _ _ _ ih =>
      rw [Masked.maskFrom, ih (k + 1)]
      rfl

theorem mem_join_of_mem_gaps {ps : List Piece} (h : Row ps) {gap : List Char}
    (hgap : gap ∈ gaps ps) {c : Char} (hc : c ∈ gap) : c ∈ join ps := by
  induction h generalizing gap with
  | nil =>
      obtain rfl := List.mem_singleton.mp hgap
      cases hc
  | @code d ps _ ih =>
      obtain ⟨first, rest, hgaps⟩ := exists_gaps_cons ps
      rw [gaps, hgaps, List.modifyHead_cons] at hgap
      rw [join_cons, text, List.singleton_append, List.mem_cons]
      rcases List.mem_cons.mp hgap with rfl | hrest
      · rcases List.mem_cons.mp hc with hd | hfirst
        · exact .inl hd
        · exact .inr (ih (by simp [hgaps]) hfirst)
      · exact .inr (ih (by simp [hgaps, hrest]) hc)
  | literal _ _ _ ih =>
      rw [gaps, List.mem_cons] at hgap
      rcases hgap with rfl | hrest
      · cases hc
      · rw [join_cons, List.mem_append]
        exact .inr (ih hrest hc)

/-! ## No blanks around literals and comments -/

/-- A literal or a comment has characters, and neither its first nor its last one is a blank. -/
def Solid : Piece → Prop
  | .code _ => True
  | .literal t => t ≠ [] ∧ Trimmed t
  | .comment _ t => t ≠ [] ∧ Trimmed t

theorem trimmed_cons {c : Char} {cs : List Char} (hc : isBlank c = false)
    (hlast : EndsVisible (c :: cs)) : Trimmed (c :: cs) where
  head d hd := by
    obtain rfl : c = d := by simpa using hd
    exact hc
  last := hlast

theorem trimmed_literal {c : Char} {rest : List Char} {n : Nat}
    (h : literalLength? c rest = some n) (hline : EndsVisible (c :: rest)) :
    Trimmed (c :: rest.take n) := by
  rw [literalLength?] at h
  split at h
  · next hc =>
      obtain rfl : c = '"' := by simpa using hc
      obtain ⟨k, hk, hend⟩ := stringLength_spec 0 rest
      obtain rfl : k = n := by simpa [hk] using h
      refine trimmed_cons (by decide) ?_
      rcases hend with hnil | hquote
      · -- nothing follows an open string
        rwa [List.take_of_length_le (List.drop_eq_nil_iff.mp hnil)]
      · intro d hd
        rw [List.getLast?_cons, hquote] at hd
        obtain rfl : '"' = d := by simpa using hd
        decide
  · split at h
    · next hc =>
        obtain rfl : c = '#' := by simpa using hc
        refine trimmed_cons (by decide) fun d hd => ?_
        rw [List.getLast?_cons, dateLength?_spec h] at hd
        obtain rfl : '#' = d := by simpa using hd
        decide
    · cases h

theorem solid_comment? {c : Char} {rest : List Char} {ending : List Piece}
    (h : comment? c rest = some ending) (hline : EndsVisible (c :: rest)) :
    ∀ p ∈ ending, p.Solid := by
  rw [comment?] at h
  split at h
  · next hc =>
      obtain rfl : c = '\x27' := by simpa using hc
      obtain rfl := Option.some.inj h
      intro p hp
      obtain rfl := List.mem_singleton.mp hp
      exact ⟨by simp, trimmed_cons (by decide) hline⟩
  · split at h
    · next hrem =>
        obtain rfl := Option.some.inj h
        have hne : trimStart rest ≠ [] := by
          intro hnil
          rw [hnil] at hrem
          simp [startsRem] at hrem
        have hlast : EndsVisible (trimStart rest) := by
          refine EndsVisible.of_append (a := c :: rest.takeWhile isBlank) ?_
          rwa [List.cons_append, trimStart, List.takeWhile_append_dropWhile]
        intro p hp
        rcases List.mem_cons.mp hp with rfl | hp
        · trivial
        · obtain rfl := List.mem_singleton.mp hp
          exact ⟨hne, fun _ => isBlank_head_trimStart, hlast⟩
    · cases h

/-- On a line that ends visibly no literal has blanks around it, and neither has the comment. -/
theorem solid_of_mem_cut {line : List Char} (hline : EndsVisible line) :
    ∀ p ∈ cut line, p.Solid := by
  induction hn : line.length using Nat.strongRecOn generalizing line with
  | _ n ih =>
      cases line with
      | nil => simp [cut, cutAfter]
      | cons c rest =>
          have htail : ∀ k, EndsVisible (rest.drop k) := fun k =>
            EndsVisible.of_append (a := c :: rest.take k) (by simpa using hline)
          have hless : ∀ k, (rest.drop k).length < n := by
            intro k
            rw [← hn, List.length_drop, List.length_cons]
            omega
          intro p hp
          rw [cut_cons] at hp
          cases hliteral : literalLength? c rest with
          | some k =>
              rw [hliteral] at hp
              rcases List.mem_cons.mp hp with rfl | hp
              · exact ⟨by simp, trimmed_literal hliteral hline⟩
              · exact ih _ (hless k) (htail k) rfl p hp
          | none =>
              rw [hliteral] at hp
              cases hcomment : comment? c rest with
              | some ending =>
                  rw [hcomment] at hp
                  exact solid_comment? hcomment hline p hp
              | none =>
                  rw [hcomment] at hp
                  rcases List.mem_cons.mp hp with rfl | hp
                  · trivial
                  · exact ih _ (hless 0) (htail 0) rfl p hp

end Piece

/-! ## Restyled gaps -/

namespace Masked

theorem mem_of_mem_literalsOf {ps : List Piece} {t : List Char} (h : t ∈ literalsOf ps) :
    .literal t ∈ ps := by
  obtain ⟨p, hp, hliteral⟩ := List.mem_filterMap.mp h
  cases p with
  | code => cases hliteral
  | literal u =>
      obtain rfl := Option.some.inj hliteral
      exact hp
  | comment => cases hliteral

/-- Restored code has the literals in their places, and each gap shows what it showed. -/
theorem Rendered.weave_gaps {ps : List Piece} {b r : List Char} (h : Rendered ps b r) :
    ∃ styled, r = weave styled (literalsOf ps) ∧
      styled.map visible = (Piece.gaps ps).map visible := by
  induction h with
  | nil => exact ⟨[[]], rfl, rfl⟩
  | @gap c ps b r hc _ ih =>
      obtain ⟨styled, rfl, hvisible⟩ := ih
      obtain ⟨gap, rest, hgaps⟩ := Piece.exists_gaps_cons ps
      cases styled with
      | nil => simp [hgaps] at hvisible
      | cons s styled =>
          refine ⟨(c :: s) :: styled, (weave_cons_left c s styled _).symm, ?_⟩
          rwa [List.map_cons, visible_cons_of_isBlank hc]
  | @blank c ps b r hc _ ih =>
      obtain ⟨styled, rfl, hvisible⟩ := ih
      obtain ⟨gap, rest, hgaps⟩ := Piece.exists_gaps_cons ps
      refine ⟨styled, rfl, hvisible.trans ?_⟩
      rw [Piece.gaps, hgaps, List.modifyHead_cons, List.map_cons, List.map_cons,
        visible_cons_of_isBlank hc]
  | @code c d ps b r hc hletter _ ih =>
      obtain ⟨styled, rfl, hvisible⟩ := ih
      obtain ⟨gap, rest, hgaps⟩ := Piece.exists_gaps_cons ps
      have hd := (isBlank_eq_of_lowercase_eq hletter).symm.trans hc
      cases styled with
      | nil => simp [hgaps] at hvisible
      | cons s styled =>
          rw [hgaps, List.map_cons, List.map_cons, List.cons.injEq] at hvisible
          refine ⟨(d :: s) :: styled, (weave_cons_left d s styled _).symm, ?_⟩
          rw [Piece.gaps, hgaps, List.modifyHead_cons, List.map_cons, List.map_cons,
            visible_cons_of_not hd, visible_cons_of_not hc, hletter, hvisible.1, hvisible.2]
  | literal _ _ _ ih =>
      obtain ⟨styled, rfl, hvisible⟩ := ih
      exact ⟨[] :: styled, rfl, by rw [Piece.gaps, List.map_cons, List.map_cons, hvisible]⟩

theorem Restores.eq_nil {m : Masked} {r : List Char} (h : Restores m [] r) : r = [] := by
  cases h
  rfl

theorem Restores.endsVisible {m : Masked} (hsolid : ∀ t ∈ m.literals, t ≠ [] ∧ Trimmed t)
    {b r : List Char} (h : Restores m b r) (hb : EndsVisible b) :
    (b ≠ [] → r ≠ []) ∧ EndsVisible r := by
  induction h with
  | nil => exact ⟨id, hb⟩
  | @char c b r _ _ _ ih =>
      refine ⟨by simp, ?_⟩
      obtain ⟨hne, hlast⟩ := ih (EndsVisible.of_append (a := [c]) hb)
      by_cases hnil : r = []
      · have hbnil : b = [] := by
          by_contra hbne
          exact hne hbne hnil
        rwa [hnil, ← hbnil]
      · exact endsVisible_append (a := [c]) hlast hnil
  | @literal index t b r _ ht _ ih =>
      obtain ⟨n, -, hget⟩ := Option.bind_eq_some_iff.mp ht
      obtain ⟨hne, hsolid⟩ := hsolid t (Array.mem_of_getElem? hget)
      refine ⟨by simp [hne], ?_⟩
      have hback : EndsVisible b :=
        EndsVisible.of_append (a := opening :: (index ++ [closing])) (by simpa using hb)
      by_cases hnil : r = []
      · rw [hnil, List.append_nil]
        exact hsolid.last
      · exact endsVisible_append (ih hback).2 hnil

end Masked

namespace Restyled

variable {prev : Option Char} {a b : List Char}

theorem endsVisible (h : Restyled prev a b) (ha : EndsVisible a) : EndsVisible b := by
  induction h with
  | @blank prev x y hx hy hnil hfeed =>
      have hxnil : x = [] := by
        by_contra hne
        have hlast := ha _ (List.getLast?_eq_some_getLast hne)
        rw [allBlank_iff.mp hx _ (List.getLast_mem hne)] at hlast
        cases hlast
      rwa [hnil hxnil, ← hxnil]
  | @visible prev x y c d a b hx hy hfeed hc hletter hapart hrest ih =>
      have hd := (isBlank_eq_of_lowercase_eq hletter).symm.trans hc
      refine endsVisible_append ?_ (by simp)
      by_cases hb : b = []
      · intro e he
        obtain rfl : d = e := by simpa [hb] using he
        exact hd
      · refine endsVisible_append (a := [d]) (ih ?_) hb
        exact EndsVisible.of_append (a := x ++ [c]) (by simpa using ha)

/-- Restyling neither empties a trimmed text nor fills an empty one. -/
theorem eq_nil_iff (h : Restyled prev a b) (ha : Trimmed a) : b = [] ↔ a = [] := by
  constructor
  · rintro rfl
    have hvisible := h.visible_eq
    cases a with
    | nil => rfl
    | cons c a =>
        rw [visible_cons_of_not (ha.head c rfl)] at hvisible
        cases hvisible
  · intro hnil
    cases h with
    | blank _ _ hback => exact hback hnil
    | visible => simp at hnil

end Restyled

/-! ## Masked lines -/

namespace Masked

/-- The text holds no character that is reserved for placeholders. -/
def Unreserved (cs : List Char) : Prop := opening ∉ cs ∧ closing ∉ cs

instance (cs : List Char) : Decidable (Unreserved cs) :=
  inferInstanceAs (Decidable (_ ∧ _))

/-- The gaps of the code of a mask: its placeholders stand between them in their order. -/
structure HasGaps (m : Masked) (gaps : List (List Char)) : Prop where
  length_eq : gaps.length = m.literals.size + 1
  code_eq : m.code = weave gaps ((List.range m.literals.size).map placeholder)
  unreserved : ∀ gap ∈ gaps, Unreserved gap

/-- A mask stands for code and literals, and a comment behind them or not. -/
structure Stands (m : Masked) (line : List Char) (ps tail : List Piece) : Prop where
  cut_eq : Piece.cut line = ps ++ tail
  row : Piece.Row ps
  join_eq : Piece.join (ps ++ tail) = line
  code_eq : m.code = maskFrom 0 ps
  literals_eq : m.literals = (literalsOf ps).toArray
  comment_eq : m.comment = none ∧ tail = [] ∨
    ∃ gap t, m.comment = some t ∧ tail = [.comment gap t] ∧ allBlank gap = true
  unreserved : Unreserved line

theorem exists_stands {line : List Char} {m : Masked} (h : ofLine line = .ok m) :
    ∃ ps tail, m.Stands line ps tail := by
  rw [ofLine] at h
  split at h
  · cases h
  · next hreserved =>
      obtain rfl := Except.ok.inj h
      obtain ⟨ps, tail, hcut, hrow, htail, hjoin⟩ := Piece.cut_spec line
      obtain ⟨comment, hpieces, hcomment⟩ := ofPieces_row hrow htail
      simp only [List.any_eq_true, Bool.or_eq_true, beq_iff_eq, not_exists, not_and] at hreserved
      have hfree : Unreserved line :=
        ⟨fun hm => hreserved _ hm (.inl rfl), fun hm => hreserved _ hm (.inr rfl)⟩
      refine ⟨ps, tail, hcut, hrow, hjoin, ?_, ?_, ?_, hfree⟩ <;> rw [hcut, hpieces]
      exact hcomment

namespace Stands

variable {m : Masked} {line : List Char} {ps tail : List Piece}

theorem mem_line (h : m.Stands line ps tail) {c : Char} (hc : c ∈ Piece.join ps) : c ∈ line := by
  rw [← h.join_eq, Piece.join_append]
  exact List.mem_append_left _ hc

theorem size_eq (h : m.Stands line ps tail) : m.literals.size = (literalsOf ps).length := by
  rw [h.literals_eq, List.size_toArray]

theorem hasGaps (h : m.Stands line ps tail) : m.HasGaps (Piece.gaps ps) where
  length_eq := by rw [h.size_eq, Piece.length_gaps h.row]
  code_eq := by rw [h.code_eq, Piece.maskFrom_eq_weave h.row, h.size_eq, List.range_eq_range']
  unreserved := fun gap hgap =>
    ⟨fun hc => h.unreserved.1 (h.mem_line (Piece.mem_join_of_mem_gaps h.row hgap hc)),
      fun hc => h.unreserved.2 (h.mem_line (Piece.mem_join_of_mem_gaps h.row hgap hc))⟩

/-- The line itself has the literals between the gaps. -/
theorem exists_line_eq (h : m.Stands line ps tail) :
    ∃ between, allBlank between = true ∧
      line = weave (Piece.gaps ps) m.literals.toList ++ (between ++ m.comment.getD []) := by
  have hjoin := h.join_eq
  rw [Piece.join_append, Piece.join_eq_weave h.row] at hjoin
  rcases h.comment_eq with ⟨hcomment, rfl⟩ | ⟨gap, t, hcomment, rfl, hgap⟩
  · exact ⟨[], rfl, by rw [h.literals_eq, hcomment, ← hjoin]; simp⟩
  · exact ⟨gap, hgap, by rw [h.literals_eq, hcomment, ← hjoin]; simp [Piece.text]⟩

/-- No literal of a line that ends visibly has blanks around it, and neither has its comment. -/
theorem literal_trimmed (h : m.Stands line ps tail) (hline : EndsVisible line) :
    ∀ t ∈ m.literals, t ≠ [] ∧ Trimmed t := by
  intro t ht
  rw [h.literals_eq, List.mem_toArray] at ht
  refine Piece.solid_of_mem_cut hline (.literal t) ?_
  rw [h.cut_eq]
  exact List.mem_append_left _ (mem_of_mem_literalsOf ht)

theorem comment_trimmed (h : m.Stands line ps tail) (hline : EndsVisible line) :
    ∀ t, m.comment = some t → t ≠ [] ∧ Trimmed t := by
  intro t ht
  rcases h.comment_eq with ⟨hcomment, -⟩ | ⟨gap, u, hcomment, htail, -⟩
  · rw [hcomment] at ht
    cases ht
  · obtain rfl : u = t := Option.some.inj (hcomment.symm.trans ht)
    refine Piece.solid_of_mem_cut hline (.comment gap u) ?_
    rw [h.cut_eq, htail]
    simp

theorem numbered (h : m.Stands line ps tail) : m.Numbered 0 ps := by
  intro i t ht
  rw [h.literals_eq, Nat.zero_add]
  simpa using ht

end Stands

end Masked

/-! ## Normalized lines -/

namespace Normalization

variable {table : CaseTable}

/-- A comment that ends visibly is all that trimming meets. -/
theorem trimEnd_withComment_some (code : List Char) {comment : List Char}
    (h : comment ≠ [] ∧ Trimmed comment) :
    trimEnd (withComment code (some comment)) = withComment code (some comment) := by
  rw [withComment]
  split
  · exact trimEnd_eq_self h.2.last
  · refine trimEnd_eq_self (endsVisible_append ?_ (by simp))
    exact endsVisible_append (a := [' ']) h.2.last h.1

/-- A normalized line is its code, each gap restyled, around the same literals, and behind one
space the same comment. -/
theorem line_keeps_literals_and_comment (hcompiled : table.Compiled) (hwell : table.WellCased)
    {n : Normalization} {limits : Limits} {text out : List Char}
    (h : n.line table limits text = .ok out) :
    ∃ m gaps styled between, Masked.ofLine (trim text) = .ok m ∧ m.HasGaps gaps ∧
      allBlank between = true ∧
      trim text = weave gaps m.literals.toList ++ (between ++ m.comment.getD []) ∧
      styled.map visible = gaps.map visible ∧ EndsVisible (weave styled m.literals.toList) ∧
      out = match m.comment with
        | none => weave styled m.literals.toList
        | some comment =>
          if allBlank m.code then comment
          else weave styled m.literals.toList ++ ' ' :: comment := by
  obtain ⟨m, code, hm, hrestore, rfl⟩ := line_eq_ok h
  obtain ⟨ps, tail, hstands⟩ := Masked.exists_stands hm
  obtain ⟨between, hbetween, hline⟩ := hstands.exists_line_eq
  have hvisibly : EndsVisible (trim text) := (trimmed_trim text).last
  have hstyle := code_restyled hcompiled hwell n (trim m.code)
  have hrestores := Masked.restore_ok hrestore
  have hlook : visible (n.code table (trim m.code)) = visible (Masked.maskFrom 0 ps) := by
    rw [hstyle.visible_eq, visible_trim, hstands.code_eq]
  obtain ⟨styled, rfl, hgaps⟩ := (hrestores.rendered hstands.row
    (fun hc => hstands.unreserved.1 (hstands.mem_line hc)) hstands.numbered hlook).weave_gaps
  obtain ⟨hfilled, hends⟩ := hrestores.endsVisible (hstands.literal_trimmed hvisibly)
    (hstyle.endsVisible (trimmed_trim m.code).last)
  have hempty : (weave styled (Masked.literalsOf ps)).isEmpty = allBlank m.code := by
    rw [Bool.eq_iff_iff, List.isEmpty_iff, ← trim_eq_nil_iff,
      ← hstyle.eq_nil_iff (trimmed_trim m.code)]
    exact ⟨fun hr => by_contra fun hb => hfilled hb hr, fun hb => (hb ▸ hrestores).eq_nil⟩
  refine ⟨m, Piece.gaps ps, styled, between, hm, hstands.hasGaps, hbetween, hline, hgaps, ?_, ?_⟩
  · rwa [hstands.literals_eq]
  · rw [hstands.literals_eq]
    cases hcomment : m.comment with
    | none => exact trimEnd_eq_self hends
    | some comment =>
        rw [trimEnd_withComment_some _ (hstands.comment_trimmed hvisibly _ hcomment),
          withComment, hempty]

/-- A small table with a keyword and a member. -/
def sampleTable : CaseTable :=
  .ofSchema {
    spellings := [("and".toList, "And".toList)]
    objects := [("response".toList, ["Write".toList])]
    spacedKeywords := ["and".toList] } .builtin

/-- A line for that table. -/
def sampleLine : List Char :=
  "  RESPONSE . write [a \"b\"  c]&\"if \"\"x\"\"\"and   #1/2/2020#  'If  a=\"b and c ".toList

/-- The line, normalized. -/
def sampleResult : List Char :=
  "RESPONSE.Write [a \"b\"  c] & \"if \"\"x\"\"\" And #1/2/2020# 'If  a=\"b and c".toList

/-- The theorem at a line with a glued keyword, a member, a doubled quote, a date, a literal in a
bracketed name, and quotes and keywords in its comment. -/
theorem line_keeps_literals_and_comment_sample :
    sampleTable.Compiled ∧ sampleTable.WellCased ∧
      ({} : Normalization).line sampleTable {} sampleLine = .ok sampleResult ∧
      ∃ m gaps styled between, Masked.ofLine (trim sampleLine) = .ok m ∧ m.HasGaps gaps ∧
        allBlank between = true ∧
        trim sampleLine = weave gaps m.literals.toList ++ (between ++ m.comment.getD []) ∧
        styled.map visible = gaps.map visible ∧ EndsVisible (weave styled m.literals.toList) ∧
        sampleResult = match m.comment with
          | none => weave styled m.literals.toList
          | some comment =>
            if allBlank m.code then comment
            else weave styled m.literals.toList ++ ' ' :: comment := by
  have hcompiled : sampleTable.Compiled := CaseTable.compiled_ofSchema _ _
  have hwell : sampleTable.WellCased :=
    CaseTable.wellCased_ofSchema .builtin (by decide +kernel) rfl (by decide +kernel)
  have hline : ({} : Normalization).line sampleTable {} sampleLine = .ok sampleResult := by
    decide +kernel
  exact ⟨hcompiled, hwell, hline, line_keeps_literals_and_comment hcompiled hwell hline⟩

end Normalization

end ClassicAsp
