import ClassicAsp.Proofs.SecondPass

/-! # Layout is a fixpoint after one pass

With settings that change neither case nor spacing, formatting only trims and indents lines, empties
blank ones and puts blank lines above declarations. One pass settles every line, so that formatting
the output changes nothing. -/

namespace ClassicAsp

open Text

/-- Settings that leave everything but the blanks around lines alone. -/
structure Config.LayoutOnly (config : Config) : Prop where
  imposeCase_eq : config.imposeCase = false
  imposeWhitespace_eq : config.imposeWhitespace = false

/-- A line between markers knows whether it is a comment. -/
theorem Document.Owned.comment_eq {inside : Bool} {pieces : List (List Char × Ending)}
    {lines : List OwnedLine} (h : Owned inside pieces lines) :
    ∀ l ∈ lines, l.isBody = true → Statement.Form.comment.holds l.trimmed = l.isComment := by
  induction h with
  | nil => simp
  | @cons inside pieces line lines howner _ ih =>
      intro l hl hbody
      rcases List.mem_cons.mp hl with rfl | hl
      · obtain ⟨isComment, hcomment⟩ := OwnedLine.owner_of_isBody hbody
        obtain ⟨rfl, hclosing⟩ := Owner.eq_body (howner.symm.trans hcomment)
        rw [Owner.ofContent, if_neg (by simp [Region.marks_of_not_hasClosing hclosing]),
          if_pos rfl] at howner
        rw [OwnedLine.isComment, howner]
        rfl
      · exact ih l hl hbody

namespace BlockScan

/-- Changing the blanks around lines leaves the statements as they are. -/
theorem readsAlike_of_alike {f : OwnedLine → OwnedLine} (hf : ∀ l, OwnedLine.Alike l (f l))
    (limits : Limits) (pending : Nat) (lines : List OwnedLine) :
    ReadsAlike limits f pending lines := by
  induction lines generalizing pending with
  | nil => exact trivial
  | cons l rest ih =>
      refine ⟨fun _ _ => statementAt_aligned (hf l) (Aligned.of_map fun a _ => hf a) ?_, ih _⟩
      intro m hm
      obtain ⟨-, -, rfl⟩ := List.mem_map.mp (List.mem_of_mem_take hm)
      rfl

end BlockScan

namespace Format

variable {config : Config} {table : CaseTable}

theorem content_of_layoutOnly (hlayout : config.LayoutOnly) (table : CaseTable) (l : OwnedLine) :
    content config table l = (l.trimmed, none) := by
  simp [content, hlayout.imposeCase_eq, hlayout.imposeWhitespace_eq]

theorem faithful_of_layoutOnly (hlayout : config.LayoutOnly) (table : CaseTable) :
    Faithful config table where
  keeps l := by
    rw [content_of_layoutOnly hlayout]
    exact .trim l.content
  trimmed l := by
    rw [content_of_layoutOnly hlayout]
    exact trimmed_trim l.content

theorem trimmed_normalized (hlayout : config.LayoutOnly) (l : OwnedLine) :
    (normalized config table l).trimmed = l.trimmed := by
  rw [normalized]
  split
  · rw [content_of_layoutOnly hlayout]
    exact trim_trim l.content
  · rfl

theorem alike_normalized (hlayout : config.LayoutOnly) (l : OwnedLine) :
    l.Alike (normalized config table l) where
  owner_eq := (sameKind_normalized (faithful_of_layoutOnly hlayout table) l).owner_eq
  frozen_eq := (sameKind_normalized (faithful_of_layoutOnly hlayout table) l).frozen_eq
  trimmed_eq := trimmed_normalized hlayout l

theorem settlesLine_of_layoutOnly (hlayout : config.LayoutOnly) {l : OwnedLine}
    (hcode : l.isCode = true) (hcomment : Statement.Form.comment.holds l.trimmed = false) :
    SettlesLine config table l where
  again := by
    have hkind := sameKind_normalized (faithful_of_layoutOnly hlayout table) l
    rw [normalized, if_pos (hkind.isCode_eq.trans hcode), content_of_layoutOnly hlayout,
      trimmed_normalized hlayout, normalized, if_pos hcode, content_of_layoutOnly hlayout]
  comment := by rw [trimmed_normalized hlayout, hcomment]
  directive := by
    rw [← Directive.arguments?_trim (normalized config table l).content,
      ← Directive.arguments?_trim l.content]
    exact congrArg Directive.arguments? (trimmed_normalized hlayout l)

/-- One pass settles every text. -/
theorem settles_of_layoutOnly (hlayout : config.LayoutOnly) (table : CaseTable) (limits : Limits)
    (text : List Char) :
    Settles config table ((Document.ofText text).limited limits).lines where
  line l hl hcode := by
    refine settlesLine_of_layoutOnly hlayout hcode ?_
    rw [(Document.owned_limited limits text).comment_eq l hl (OwnedLine.isBody_of_isCode hcode)]
    simp only [OwnedLine.isCode, Bool.and_eq_true, Bool.not_eq_true'] at hcode
    exact hcode.1.2
  reads := BlockScan.readsAlike_of_alike (alike_normalized hlayout) config.limits 0 _

end Format

/-! ## The fixpoint -/

/-- With settings that change neither case nor spacing, formatting the output of formatting gives
it back, and its directive is the one of the text. Blank lines must not push the output over the
ceiling of lines. -/
theorem format_layout_fixpoint (config : Config) (table : CaseTable) (text : List Char)
    (hconfig : config.problem? = none) (hcase : (config.within text).imposeCase = false)
    (hspace : (config.within text).imposeWhitespace = false) :
    (byteLength text < Format.safeLength → ∃ out, format config table text = .ok out) ∧
      ∀ out, format config table text = .ok out →
        Directive.find? out.text = Directive.find? text ∧
          ((config.within text).blankLines = false ∨
              (Line.split out.text).length ≤ config.limits.maxLines →
            ∃ again, format config table out.text = .ok again ∧ again.text = out.text) := by
  have hlayout : (config.within text).LayoutOnly := ⟨hcase, hspace⟩
  refine ⟨exists_format hconfig table, fun out hout => ?_⟩
  exact format_again (Format.faithful_of_layoutOnly hlayout table)
    (Format.settles_of_layoutOnly hlayout table config.limits text) hout

/-- The theorem at a page whose directive turns case and spacing off, where a blank line is put
above a declaration that goes on on a second line. -/
theorem format_layout_fixpoint_page :
    ∃ text, text =
        "<%\n' aspfmt: --no-case --no-whitespace\nx=1\n sub f( _\n a)  \nend sub\n%>".toList ∧
      ({} : Config).problem? = none ∧ (({} : Config).within text).imposeCase = false ∧
      (({} : Config).within text).imposeWhitespace = false ∧
      ∃ out, format {} CaseTable.bundled text = .ok out ∧
        out.text =
          "<%\n' aspfmt: --no-case --no-whitespace\nx=1\n\nsub f( _\n    a)\nend sub\n%>".toList ∧
        ∃ again, format {} CaseTable.bundled out.text = .ok again ∧ again.text = out.text := by
  obtain ⟨-, hall⟩ := format_layout_fixpoint {} CaseTable.bundled
    "<%\n' aspfmt: --no-case --no-whitespace\nx=1\n sub f( _\n a)  \nend sub\n%>".toList
    (by decide) (by decide +kernel) (by decide +kernel)
  obtain ⟨out, hout, htext⟩ : ∃ out, format {} CaseTable.bundled
      "<%\n' aspfmt: --no-case --no-whitespace\nx=1\n sub f( _\n a)  \nend sub\n%>".toList =
        .ok out ∧ out.text =
      "<%\n' aspfmt: --no-case --no-whitespace\nx=1\n\nsub f( _\n    a)\nend sub\n%>".toList :=
    format_of_text (by decide +kernel)
  refine ⟨_, rfl, by decide, by decide +kernel, by decide +kernel, out, hout, htext, ?_⟩
  refine (hall out hout).2 (.inr ?_)
  rw [htext]
  decide +kernel

end ClassicAsp
