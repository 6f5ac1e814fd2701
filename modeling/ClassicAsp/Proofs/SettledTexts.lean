import ClassicAsp.CaseTable.Bundled
import ClassicAsp.Proofs.LiteralGaps
import ClassicAsp.Proofs.RecasingFixpoint
import ClassicAsp.Proofs.SecondPass
import ClassicAsp.Proofs.SpacedTokens

/-! # Texts that one pass settles

With a well-cased table neither of the passes over a line of code, the one for spelling and the one
for spacing, changes anything when it is run again. A line may still change once more: spelling goes
first, and spacing may then set a word apart that is a keyword, or make a comment or the head of a
loop out of an assignment. Where the normalized lines are read as the lines that they are made of,
one pass is enough. -/

namespace ClassicAsp

open Text

/-! ## Normalized lines start visibly -/

/-- A mask without the blanks around its code. -/
def Masked.trimmed (m : Masked) : Masked := { m with code := trim m.code }

/-- Restoring looks at the literals of a mask only. -/
theorem Masked.restore_congr {m m' : Masked} (h : m'.literals = m.literals) (code : List Char)
    (maxSteps : Nat) : m'.restore code maxSteps = m.restore code maxSteps := by
  have hafter : ∀ (cs : List Char) (budget : Budget) (inside : Option (List Char))
      (out : List Char), restoreAfter m' budget inside out cs =
        restoreAfter m budget inside out cs := by
    intro cs
    induction cs with
    | nil => intro budget inside out; rfl
    | cons c cs ih =>
        intro budget inside out
        simp only [restoreAfter, literal?, h, ih]
  exact hafter code _ none []

/-- What is put back for masked code that starts visibly does so too. -/
theorem Masked.Restores.startsVisible {m : Masked}
    (hsolid : ∀ t ∈ m.literals, t ≠ [] ∧ Trimmed t) {b r : List Char} (h : Restores m b r)
    (hb : StartsVisible b) : StartsVisible r := by
  cases h with
  | nil => exact hb
  | char => exact hb
  | @literal index t b r _ ht _ =>
      obtain ⟨n, -, hget⟩ := Option.bind_eq_some_iff.mp ht
      obtain ⟨hne, htrimmed⟩ := hsolid t (Array.mem_of_getElem? hget)
      obtain ⟨c, rest, rfl⟩ := List.exists_cons_of_ne_nil hne
      exact htrimmed.head c rfl

namespace Normalization

variable {table : CaseTable}

/-- The pass over references does not touch what stands before the first visible character. -/
theorem startsVisible_members (hcompiled : table.Compiled) (hwell : table.WellCased)
    {code : List Char} (h : StartsVisible code) :
    StartsVisible (Recasing.members table code) := by
  cases code with
  | nil => exact h
  | cons c cs =>
      cases hfound : Recasing.memberRef? table.objects [] (c :: cs) with
      | none =>
          rw [Recasing.members, Recasing.membersAfter_of_none hfound]
          exact h
      | some r =>
          obtain ⟨x, y, d, tail, rest, -, -, -, -, -, hmember, hne, htrim, -⟩ :=
            Recasing.memberRef?_eq_some hcompiled.searchable.2 hfound
          have hpos : 0 < r.length := by
            rw [Recasing.MemberRef.length, hmember, List.length_cons]
            omega
          have houtline := CaseTable.outline_canonical hwell htrim
          have hobject : StartsVisible ((table.canonical? r.object).getD r.object) :=
            (startsVisible_iff_of_outline houtline).mpr (startsVisible_iff.mpr htrim.head)
          have hfilled : (table.canonical? r.object).getD r.object ≠ [] := by
            intro hnil
            rw [hnil] at houtline
            exact hne (outline_eq_nil_iff.mp houtline.symm)
          rw [Recasing.members, Recasing.membersAfter_of_some hpos hfound,
            Recasing.memberSpelling]
          obtain ⟨e, name, hname⟩ := List.exists_cons_of_ne_nil hfilled
          rw [hname] at hobject ⊢
          exact hobject

theorem startsVisible_operators (table : CaseTable) (code : List Char) :
    StartsVisible (Spacing.operators table code) := by
  rw [Spacing.operators_eq]
  have hsolid := (Token.read_reads code).solid
  cases hread : Token.read code with
  | nil => rfl
  | cons t ts =>
      obtain ⟨c, rest, htext, hc⟩ := (hsolid t (by simp [hread])).head
      rw [Spacing.print_respace_cons, Spacing.writesSpace, htext]
      exact hc

theorem startsVisible_code (hcompiled : table.Compiled) (hwell : table.WellCased)
    (n : Normalization) {code : List Char} (h : StartsVisible code) :
    StartsVisible (n.code table code) := by
  rw [Normalization.code]
  split
  · exact startsVisible_operators table _
  · split
    · have hmembers := startsVisible_members hcompiled hwell h
      have hrun := Recasing.keywordsRun hcompiled [] (Recasing.members table code)
      exact (startsVisible_iff_of_outline (hrun.outline_eq hwell)).mpr hmembers
    · exact h

/-- A normalized line has no blanks around it. -/
theorem trimmed_line (hcompiled : table.Compiled) (hwell : table.WellCased) {n : Normalization}
    {limits : Limits} {text out : List Char} (h : n.line table limits text = .ok out) :
    Trimmed out := by
  obtain ⟨m, code, hm, hrestore, rfl⟩ := line_eq_ok h
  obtain ⟨ps, tail, hstands⟩ := Masked.exists_stands hm
  have hvisibly : EndsVisible (trim text) := (trimmed_trim text).last
  have hstart : StartsVisible code :=
    (Masked.restore_ok hrestore).startsVisible (hstands.literal_trimmed hvisibly)
      (startsVisible_code hcompiled hwell n (startsVisible_iff.mpr (trimmed_trim m.code).head))
  have hwhole : StartsVisible (withComment code m.comment) := by
    cases hcomment : m.comment with
    | none => exact hstart
    | some comment =>
        have htrimmed := (hstands.comment_trimmed hvisibly comment hcomment).2
        rw [withComment]
        cases code with
        | nil => exact startsVisible_iff.mpr htrimmed.head
        | cons c cs => exact hstart
  exact ⟨fun c hc => startsVisible_iff.mp hwhole c (head_trimEnd hc),
    fun c hc => isBlank_getLast_trimEnd hc⟩

/-! ## Lines that are settled -/

/-- Code is normalized for good if spacing it gives no other casing. -/
theorem code_code (hcompiled : table.Compiled) (hwell : table.WellCased)
    (hapart : table.ObjectsApart) {n : Normalization} {code : List Char}
    (hcasing : n.imposeCase = true → n.imposeWhitespace = true →
      Recasing.keywords table (Recasing.members table (n.code table code)) = n.code table code) :
    n.code table (n.code table code) = n.code table code := by
  cases hspace : n.imposeWhitespace with
  | true =>
      have hspaced : Spacing.operators table (n.code table code) = n.code table code := by
        rw [Normalization.code, if_pos hspace, Spacing.operators_operators]
      rw [Normalization.code, if_pos hspace]
      split
      · next hcase => rw [hcasing hcase hspace, hspaced]
      · exact hspaced
  | false =>
      simp only [Normalization.code, hspace, Bool.false_eq_true, if_false]
      split
      · exact Recasing.recased_again hcompiled hwell hapart code
      · rfl

/-- A line, normalized, is masked as the code that it is made of, with the same literals and the
same comment, and there is no other casing for this code now that it is spaced. -/
def ReadsBack (n : Normalization) (table : CaseTable) (limits : Limits) (text : List Char) : Prop :=
  ∀ m ∈ (Masked.ofLine (trim text)).toOption, ∀ out ∈ (n.line table limits text).toOption,
    (Masked.ofLine out).map Masked.trimmed = .ok { m with code := n.code table (trim m.code) } ∧
      (n.imposeCase = true → n.imposeWhitespace = true →
        Recasing.keywords table (Recasing.members table (n.code table (trim m.code))) =
          n.code table (trim m.code))

instance (n : Normalization) (table : CaseTable) (limits : Limits) (text : List Char) :
    Decidable (n.ReadsBack table limits text) :=
  inferInstanceAs (Decidable (∀ m ∈ (Masked.ofLine (trim text)).toOption,
    ∀ out ∈ (n.line table limits text).toOption, _))

/-- A normalized line that reads back is normalized for good. -/
theorem line_again (hcompiled : table.Compiled) (hwell : table.WellCased)
    (hapart : table.ObjectsApart) {n : Normalization} {limits : Limits}
    {text out again : List Char} (h : n.line table limits text = .ok out)
    (hreads : n.ReadsBack table limits text) (hagain : n.line table limits out = .ok again) :
    again = out := by
  have htrimmed := trimmed_line hcompiled hwell h
  obtain ⟨m, code, hm, hrestore, rfl⟩ := line_eq_ok h
  obtain ⟨hmask, hcasing⟩ := hreads m (by rw [hm]; rfl) _ (by rw [h]; rfl)
  obtain ⟨m', code', hm', hrestore', rfl⟩ := line_eq_ok hagain
  rw [htrimmed.trim_eq] at hm'
  rw [hm'] at hmask
  have hsame : m'.trimmed = { m with code := n.code table (trim m.code) } := Except.ok.inj hmask
  rw [Masked.trimmed, Masked.mk.injEq] at hsame
  obtain ⟨hcode', hliterals, hcomment⟩ := hsame
  rw [hcode', code_code hcompiled hwell hapart hcasing, Masked.restore_congr hliterals,
    hrestore] at hrestore'
  rw [Except.ok.inj hrestore', hcomment]

end Normalization

/-! ## Formatting twice -/

namespace Format

theorem faithful_of_wellCased {table : CaseTable} (hcompiled : table.Compiled)
    (hwell : table.WellCased) (config : Config) : Faithful config table where
  keeps _ := keeps_content hcompiled hwell
  trimmed l := by
    rw [content]
    split
    · exact trimmed_trim l.content
    · split
      · next text htext => exact Normalization.trimmed_line hcompiled hwell htext
      · exact trimmed_trim l.content

/-- The lines of code, normalized, are read as they were: the same literals, comments and words
are found in them, none is a comment or another directive, and their statements go on over as many
lines and have the same roles. -/
structure ReadsBack (config : Config) (table : CaseTable) (lines : List OwnedLine) : Prop where
  code : ∀ l ∈ lines, l.isCode = true →
    (normalization config).ReadsBack table config.limits l.trimmed
  comment : ∀ l ∈ lines, l.isCode = true →
    Statement.Form.comment.holds (normalized config table l).trimmed = false
  directive : ∀ l ∈ lines, l.isCode = true →
    Directive.arguments? (normalized config table l).content = Directive.arguments? l.content
  statements : BlockScan.ReadsAlike config.limits (normalized config table) 0 lines

instance (config : Config) (table : CaseTable) (lines : List OwnedLine) :
    Decidable (ReadsBack config table lines) :=
  decidable_of_iff
    ((∀ l ∈ lines, l.isCode = true →
        (normalization config).ReadsBack table config.limits l.trimmed) ∧
      (∀ l ∈ lines, l.isCode = true →
        Statement.Form.comment.holds (normalized config table l).trimmed = false) ∧
      (∀ l ∈ lines, l.isCode = true → Directive.arguments? (normalized config table l).content =
        Directive.arguments? l.content) ∧
      BlockScan.ReadsAlike config.limits (normalized config table) 0 lines)
    ⟨fun h => ⟨h.1, h.2.1, h.2.2.1, h.2.2.2⟩,
      fun h => ⟨h.code, h.comment, h.directive, h.statements⟩⟩

/-- Normalizing a line of code that reads back is enough. -/
theorem normalized_normalized {config : Config} {table : CaseTable} (hcompiled : table.Compiled)
    (hwell : table.WellCased) (hapart : table.ObjectsApart) {l : OwnedLine}
    (hcode : l.isCode = true)
    (hreads : (normalization config).ReadsBack table config.limits l.trimmed) :
    normalized config table (normalized config table l) = normalized config table l := by
  have hfaithful := faithful_of_wellCased hcompiled hwell config
  have hkind := sameKind_normalized hfaithful l
  have htrimmed : (normalized config table l).trimmed = (content config table l).1 := by
    rw [Line.trimmed, content_normalized hcode]
    exact (hfaithful.trimmed l).trim_eq
  have hcontent : (content config table (normalized config table l)).1 =
      (content config table l).1 := by
    rw [content, htrimmed, hkind.isComment_eq]
    split
    · rfl
    · next hnormal =>
        cases hline : (normalization config).line table config.limits l.trimmed with
        | error fault =>
            have hkept : (content config table l).1 = l.trimmed := by
              rw [content, if_neg hnormal, hline]
            rw [hkept, hline]
        | ok out =>
            have hout : (content config table l).1 = out := by
              rw [content, if_neg hnormal, hline]
            rw [hout]
            cases hagain : (normalization config).line table config.limits out with
            | error => rfl
            | ok again =>
                exact Normalization.line_again hcompiled hwell hapart hline hreads hagain
  have hcode' : (normalized config table l).isCode = true := hkind.isCode_eq.trans hcode
  rw [normalized, if_pos hcode', hcontent, ← content_normalized hcode]

/-- One pass settles lines that read back. -/
theorem ReadsBack.settles {config : Config} {table : CaseTable} {lines : List OwnedLine}
    (h : ReadsBack config table lines) (hcompiled : table.Compiled) (hwell : table.WellCased)
    (hapart : table.ObjectsApart) : Settles config table lines where
  line l hl hcode :=
    ⟨normalized_normalized hcompiled hwell hapart hcode (h.code l hl hcode), h.comment l hl hcode,
      h.directive l hl hcode⟩
  reads := h.statements

end Format

/-- With a table like the bundled one a second pass changes nothing, if the normalized lines are
read as the lines that they are made of. Blank lines must not push the output over the ceiling of
lines. -/
theorem format_idempotent_of_readsBack {table : CaseTable} (hcompiled : table.Compiled)
    (hwell : table.WellCased) (hwords : table.ObjectsAreWords) (config : Config)
    (text : List Char) (hconfig : config.problem? = none)
    (hreads : Format.ReadsBack (config.within text) table
      ((Document.ofText text).limited config.limits).lines) :
    (byteLength text < Format.safeLength → ∃ out, format config table text = .ok out) ∧
      ∀ out, format config table text = .ok out →
        ((config.within text).blankLines = false ∨
            (Line.split out.text).length ≤ config.limits.maxLines) →
          ∃ again, format config table out.text = .ok again ∧ again.text = out.text := by
  refine ⟨exists_format hconfig table, fun out hout hceiling => ?_⟩
  exact (format_again (Format.faithful_of_wellCased hcompiled hwell _)
    (hreads.settles hcompiled hwell hwords.objectsApart) hout).2 hceiling

/-- A page with glued operators, a keyword and a member in the wrong case, a statement on two lines
and a procedure without a blank line above it. -/
def untidyPage : List Char :=
  ("<%\n' a=b\nif x=1 AND y then\nRESPONSE . write( _\n\"a=b\" )\nend if\nsub f\n" ++
    "end sub\n%>").toList

/-- The page after one pass. -/
def tidyPage : List Char :=
  ("<%\n' a=b\nif x = 1 And y then\n    RESPONSE.Write( _\n        \"a=b\" )\nend if\n\n" ++
    "sub f\nend sub\n%>").toList

/-- The theorem at the page. -/
theorem format_idempotent_of_readsBack_page :
    Normalization.sampleTable.Compiled ∧ Normalization.sampleTable.WellCased ∧
      Normalization.sampleTable.ObjectsAreWords ∧ ({} : Config).problem? = none ∧
      Format.ReadsBack (({} : Config).within untidyPage) Normalization.sampleTable
        ((Document.ofText untidyPage).limited ({} : Config).limits).lines ∧
      ∃ out, format {} Normalization.sampleTable untidyPage = .ok out ∧ out.text = tidyPage ∧
        ∃ again, format {} Normalization.sampleTable out.text = .ok again ∧
          again.text = out.text := by
  have hcompiled : Normalization.sampleTable.Compiled := CaseTable.compiled_ofSchema _ _
  have hwell : Normalization.sampleTable.WellCased :=
    CaseTable.wellCased_ofSchema .builtin (by decide +kernel) rfl (by decide +kernel)
  have hwords : Normalization.sampleTable.ObjectsAreWords := by decide +kernel
  have hreads : Format.ReadsBack (({} : Config).within untidyPage) Normalization.sampleTable
      ((Document.ofText untidyPage).limited ({} : Config).limits).lines := by
    decide +kernel
  obtain ⟨-, hall⟩ :=
    format_idempotent_of_readsBack hcompiled hwell hwords {} untidyPage (by decide) hreads
  obtain ⟨out, hout, htext⟩ : ∃ out, format {} Normalization.sampleTable untidyPage = .ok out ∧
      out.text = tidyPage :=
    format_of_text (by decide +kernel)
  refine ⟨hcompiled, hwell, hwords, by decide, hreads, out, hout, htext,
    hall out hout (.inr ?_)⟩
  rw [htext]
  decide +kernel

/-- Spacing makes the head of a loop out of an assignment, so that the second pass indents the
line below it. -/
theorem format_not_idempotent :
    ({ imposeCase := false } : Config).problem? = none ∧
      ∃ out again, format { imposeCase := false } CaseTable.bundled "<%\nfor=1\nx\n%>".toList =
          .ok out ∧
        format { imposeCase := false } CaseTable.bundled out.text = .ok again ∧
        out.text = "<%\nfor = 1\nx\n%>".toList ∧
        again.text = "<%\nfor = 1\n    x\n%>".toList ∧ again.text ≠ out.text := by
  obtain ⟨out, hout, htext⟩ : ∃ out, format { imposeCase := false } CaseTable.bundled
      "<%\nfor=1\nx\n%>".toList = .ok out ∧ out.text = "<%\nfor = 1\nx\n%>".toList :=
    format_of_text (by decide +kernel)
  obtain ⟨again, hagain, htext'⟩ : ∃ again, format { imposeCase := false } CaseTable.bundled
      out.text = .ok again ∧ again.text = "<%\nfor = 1\n    x\n%>".toList := by
    rw [htext]
    exact format_of_text (by decide +kernel)
  refine ⟨by decide, out, again, hout, hagain, htext, htext', ?_⟩
  rw [htext, htext']
  decide +kernel

end ClassicAsp
