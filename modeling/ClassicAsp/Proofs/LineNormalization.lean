import ClassicAsp.Normalization
import ClassicAsp.Proofs.CaseRewriting
import ClassicAsp.Proofs.Masking
import ClassicAsp.Proofs.OperatorSpacing

/-! # What normalization keeps of a line

With a well-cased table a normalized line shows the same characters as before, up to case, and
has no closing marker and no line feed that the line did not have. -/

namespace ClassicAsp

open Text

namespace Normalization

variable {table : CaseTable}

theorem code_restyled (hcompiled : table.Compiled) (hwell : table.WellCased)
    (n : Normalization) (code : List Char) : Restyled none code (n.code table code) := by
  have hcase : Restyled none code
      (if n.imposeCase then Recasing.keywords table (Recasing.members table code) else code) := by
    split
    · exact (Recasing.members_restyled hcompiled hwell code).trans
        (Recasing.keywords_restyled hcompiled hwell _) Iff.rfl
    · exact .refl none code
  simp only [Normalization.code]
  split
  · exact hcase.trans (Spacing.operators_restyled table _) Iff.rfl
  · exact hcase

theorem visible_trim (cs : List Char) : visible (trim cs) = visible cs := by
  obtain ⟨back, hback, hcs⟩ := exists_trim cs
  conv_rhs => rw [hcs]
  rw [visible_append, visible_append, visible_of_allBlank hback,
    visible_of_allBlank (allBlank_takeWhile cs)]
  simp

theorem visible_trimEnd (cs : List Char) : visible (trimEnd cs) = visible cs := by
  obtain ⟨back, hback, hcs⟩ := exists_trimEnd cs
  conv_rhs => rw [hcs]
  rw [visible_append, visible_of_allBlank hback, List.append_nil]

theorem hasClosing_trim {cs : List Char} (h : Region.hasClosing cs = false) :
    Region.hasClosing (trim cs) = false := by
  obtain ⟨back, -, hcs⟩ := exists_trim cs
  rw [hcs] at h
  exact (Region.hasClosing_parts (Region.hasClosing_parts h).2).1

theorem hasClosing_trimEnd {cs : List Char} (h : Region.hasClosing cs = false) :
    Region.hasClosing (trimEnd cs) = false := by
  obtain ⟨back, -, hcs⟩ := exists_trimEnd cs
  rw [hcs] at h
  exact (Region.hasClosing_parts h).1

/-- What a text keeps of another one. -/
structure Keeps (before after : List Char) : Prop where
  visible_eq : visible after = visible before
  hasClosing_eq : Region.hasClosing before = false → Region.hasClosing after = false
  feed_mem : '\n' ∈ after → '\n' ∈ before

/-- Restyled and restored code keeps what its pieces hold. -/
theorem keeps_restore {ps : List Piece} (hrow : Piece.Row ps)
    (hreserved : Masked.opening ∉ Piece.join ps) {m : Masked}
    (hm : m.literals = (Masked.literalsOf ps).toArray) {b r : List Char} {maxSteps : Nat}
    (hstyle : Restyled none (trim (Masked.maskFrom 0 ps)) b)
    (hrestore : m.restore b maxSteps = .ok r) : Keeps (Piece.join ps) r := by
  have hvisible : visible b = visible (Masked.maskFrom 0 ps) := by
    rw [hstyle.visible_eq, visible_trim]
  have hnumbered : m.Numbered 0 ps := by
    intro i t ht
    rw [hm, Nat.zero_add]
    simpa using ht
  have hrendered := (Masked.restore_ok hrestore).rendered hrow hreserved hnumbered hvisible
  refine ⟨hrendered.visible_eq, fun hjoin => ?_, fun hfeed => ?_⟩
  · have hb := hstyle.hasClosing_eq_false (hasClosing_trim (Masked.hasClosing_maskFrom hrow hjoin))
    exact hrendered.hasClosing_eq_false
      (fun t ht => Masked.hasClosing_of_mem_literalsOf hjoin ht) hb
  · rcases hrendered.feed_mem hfeed with hb | hjoin
    · exact Masked.feed_mem_maskFrom (mem_of_mem_trim (hstyle.feed_mem hb))
    · exact hjoin

theorem keeps_withComment {code r gap t : List Char} (h : Keeps code r)
    (hgap : allBlank gap = true) : Keeps (code ++ (gap ++ t)) (withComment r (some t)) := by
  have hspaced :
      Region.hasClosing (r ++ ' ' :: t) = (Region.hasClosing r || Region.hasClosing t) := by
    rw [Region.hasClosing_append (by simp), Region.hasClosing_cons_of_isBlank (by decide)]
  refine ⟨?_, fun hjoin => ?_, fun hfeed => ?_⟩
  · rw [visible_append, visible_append, visible_of_allBlank hgap, List.nil_append, ← h.visible_eq,
      withComment]
    split
    · next hr => simp [List.isEmpty_iff.mp hr]
    · rw [visible_append, visible_cons_of_isBlank (by decide)]
  · obtain ⟨hcode, hback⟩ := Region.hasClosing_parts hjoin
    have ht := (Region.hasClosing_parts hback).2
    rw [withComment]
    split
    · exact ht
    · rw [hspaced, h.hasClosing_eq hcode, ht]
      rfl
  · rw [withComment] at hfeed
    split at hfeed
    · simp [hfeed]
    · rcases List.mem_append.mp hfeed with hr | ht
      · simp [h.feed_mem hr]
      · have : '\n' ∈ t := by simpa using ht
        simp [this]

/-- How a line is normalized, if it is. -/
theorem line_eq_ok {n : Normalization} {limits : Limits} {text r : List Char}
    (h : n.line table limits text = .ok r) :
    ∃ masked code, Masked.ofLine (trim text) = .ok masked ∧
      masked.restore (n.code table (trim masked.code)) limits.maxLoopIterations = .ok code ∧
      r = trimEnd (withComment code masked.comment) := by
  simp only [Normalization.line, bind, Except.bind, pure, Except.pure, throw, throwThe,
    MonadExceptOf.throw] at h
  split at h
  · cases h
  · split at h
    · cases h
    · next masked hmasked =>
        split at h
        · cases h
        · next code hcode => exact ⟨masked, code, hmasked, hcode, (Except.ok.inj h).symm⟩

/-- A normalized line keeps what the line holds. -/
theorem keeps_line (hcompiled : table.Compiled) (hwell : table.WellCased) {n : Normalization}
    {limits : Limits} {text r : List Char} (h : n.line table limits text = .ok r) :
    Keeps text r := by
  obtain ⟨masked, code, hmasked, hrestore, rfl⟩ := line_eq_ok h
  rw [Masked.ofLine] at hmasked
  split at hmasked
  · cases hmasked
  · next hreserved =>
      obtain rfl := Except.ok.inj hmasked
      obtain ⟨ps, tail, hcut, hrow, htail, hjoin⟩ := Piece.cut_spec (trim text)
      rw [hcut] at hrestore ⊢
      obtain ⟨comment, hpieces, hcomment⟩ := Masked.ofPieces_row hrow htail
      rw [hpieces] at hrestore ⊢
      have hfree : Masked.opening ∉ Piece.join ps := by
        intro hm
        have hline : Masked.opening ∈ trim text := by
          rw [← hjoin]
          simp [hm]
        exact hreserved (List.any_eq_true.mpr ⟨_, hline, by simp⟩)
      have hcode := keeps_restore hrow hfree rfl (code_restyled hcompiled hwell n _) hrestore
      have hline : Keeps (trim text) (withComment code comment) := by
        rcases hcomment with ⟨rfl, rfl⟩ | ⟨gap, t, rfl, rfl, hgap⟩
        · rwa [← hjoin, List.append_nil]
        · rw [← hjoin]
          simpa [Piece.text] using keeps_withComment (t := t) hcode hgap
      refine ⟨?_, fun hclosing => ?_, fun hfeed => ?_⟩
      · rw [visible_trimEnd, hline.visible_eq, visible_trim]
      · exact hasClosing_trimEnd (hline.hasClosing_eq (hasClosing_trim hclosing))
      · obtain ⟨back, -, hback⟩ := exists_trimEnd (withComment code comment)
        refine mem_of_mem_trim (hline.feed_mem ?_)
        rw [hback]
        simp [hfeed]

end Normalization

end ClassicAsp
