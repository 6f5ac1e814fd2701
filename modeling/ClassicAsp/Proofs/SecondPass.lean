import ClassicAsp.Proofs.Preservation
import ClassicAsp.Proofs.Relayout

/-! # The second pass

Formatting reads its own output line by line as it read the text, if normalization settles each
line of code and leaves the statements what they are: then the lines of the output are aligned with
those of the text, they have the same levels, and each is written as it is. -/

namespace ClassicAsp

open Text Region

/-! ## Texts that are written as they are -/

namespace Format

/-- Every line of the text is written as it is, and no blank line is put above one. -/
def Stable (config : Config) (table : CaseTable) (text : List Char) : Prop :=
  ∀ r ∈ rows config text, r.2 = false ∧ Written config table r.1.1 r.1.2 r.1.1.content

theorem output_of_stable {config : Config} {table : CaseTable} (ending : Ending)
    {rows : List ((OwnedLine × Nat) × Bool)}
    (h : ∀ r ∈ rows, r.2 = false ∧ Written config table r.1.1 r.1.2 r.1.1.content) :
    Output config table ending rows (rows.map fun r => (r.1.1.content, r.1.1.ending)) := by
  induction rows with
  | nil => exact .nil
  | cons r rows ih =>
      obtain ⟨⟨l, level⟩, insert⟩ := r
      obtain ⟨hinsert, hwritten⟩ := h ((l, level), insert) (by simp)
      obtain rfl : insert = false := hinsert
      exact .line hwritten (ih fun r hr => h r (by simp [hr]))

/-- A stable text is what formatting makes of it. -/
theorem withSettings_of_stable {config : Config} {table : CaseTable} {text : List Char}
    (h : Stable config table text) :
    ∃ out, withSettings config table text = .ok out ∧ out.text = text := by
  have hpieces : Line.pieces text =
      (rows config text).map fun r => (r.1.1.content, r.1.1.ending) := by
    rw [(owned_rows config text).pieces_eq, List.map_map]
    rfl
  refine withSettings_ok_iff.mpr ⟨_, output_of_stable _ h, ?_⟩
  rw [← hpieces, Line.join_pieces]

end Format

/-- The result of formatting, from the text that it is evaluated to. -/
theorem format_of_text {config : Config} {table : CaseTable} {text result : List Char}
    (h : (format config table text).toOption.map (·.text) = some result) :
    ∃ out, format config table text = .ok out ∧ out.text = result := by
  cases hout : format config table text with
  | error e =>
      rw [hout] at h
      cases h
  | ok out =>
      rw [hout] at h
      exact ⟨out, rfl, Option.some.inj h⟩

/-! ## Settled lines -/

namespace Format

variable {config : Config} {table : CaseTable} {l l' : OwnedLine} {level : Nat}
  {written : List Char}

/-- The line with its content normalized, if it is a line of code. -/
def normalized (config : Config) (table : CaseTable) (l : OwnedLine) : OwnedLine :=
  if l.isCode then { l with content := (content config table l).1 } else l

/-- One pass settles the line: what it is normalized to is normalized already, is no comment, and
is the directive that the line is, if it is one. -/
structure SettlesLine (config : Config) (table : CaseTable) (l : OwnedLine) : Prop where
  again : normalized config table (normalized config table l) = normalized config table l
  comment : Statement.Form.comment.holds (normalized config table l).trimmed = false
  directive : Directive.arguments? (normalized config table l).content =
    Directive.arguments? l.content

/-- One pass settles the lines of code, and their statements go on over as many lines and have the
same roles afterwards. -/
structure Settles (config : Config) (table : CaseTable) (lines : List OwnedLine) : Prop where
  line : ∀ l ∈ lines, l.isCode = true → SettlesLine config table l
  reads : BlockScan.ReadsAlike config.limits (normalized config table) 0 lines

/-- With these settings and this table, the content that is written for a line keeps what the line
holds, and has no blanks around it. -/
structure Faithful (config : Config) (table : CaseTable) : Prop where
  keeps (l : OwnedLine) : Normalization.Keeps l.content (content config table l).1
  trimmed (l : OwnedLine) : Trimmed (content config table l).1

theorem normalized_of_not_isCode (h : l.isCode = false) : normalized config table l = l := by
  rw [normalized, if_neg (by simp [h])]

theorem content_normalized (h : l.isCode = true) :
    (normalized config table l).content = (content config table l).1 := by
  rw [normalized, if_pos h]

theorem content_of_isComment (h : l.isComment = true) :
    content config table l = (l.trimmed, none) := by
  simp [content, h]

/-- The content of a line depends on the text between the blanks around it. -/
theorem content_congr (htrimmed : l'.trimmed = l.trimmed) (hcomment : l'.isComment = l.isComment) :
    (content config table l').1 = (content config table l).1 := by
  rw [content, content, htrimmed, hcomment]
  split
  · rfl
  · split <;> rfl

theorem isCode_of_isBody (hbody : l.isBody = true) (hblank : l.isBlank = false)
    (hcomment : l.isComment = false) : l.isCode = true := by
  simp [OwnedLine.isCode, hbody, hblank, hcomment]

/-! ## One line -/

theorem Written.trim_eq (h : Written config table l level written) :
    trim written = (normalized config table l).trimmed := by
  cases h with
  | verbatim hbody =>
      rw [normalized_of_not_isCode (by simp [OwnedLine.isCode, hbody])]
      rfl
  | blank _ hblank =>
      rw [normalized_of_not_isCode (by simp [OwnedLine.isCode, hblank])]
      exact (trim_eq_nil_iff.mpr hblank).symm
  | code hbody hblank hlead =>
      rw [trim_append_of_allBlank_front (lead_ok hlead).1]
      cases hcomment : l.isComment with
      | true =>
          rw [normalized_of_not_isCode (by simp [OwnedLine.isCode, hcomment]),
            content_of_isComment hcomment]
          exact trim_trim l.content
      | false =>
          rw [Line.trimmed, content_normalized (isCode_of_isBody hbody hblank hcomment)]

section

variable (hfaithful : Faithful config table)

include hfaithful

/-- Normalization leaves the kind of a line. -/
theorem sameKind_normalized (l : OwnedLine) : l.SameKind (normalized config table l) := by
  cases hcode : l.isCode with
  | false =>
      rw [normalized_of_not_isCode hcode]
      exact .refl l
  | true =>
      have hmarker : l.isMarker = false := by
        by_contra hmarker
        rw [OwnedLine.isCode_of_isMarker (by simpa using hmarker)] at hcode
        cases hcode
      rw [normalized, if_pos hcode]
      refine ⟨rfl, rfl, ?_, ?_⟩
      · rw [Bool.eq_iff_iff, Line.isBlank, Line.isBlank, allBlank, allBlank,
          ← visible_eq_nil_iff, ← visible_eq_nil_iff]
        exact iff_of_eq (congrArg (· = []) (hfaithful.keeps l).visible_eq)
      · have hmarker' : ({ l with content := (content config table l).1 } : OwnedLine).isMarker =
            false := hmarker
        rw [OwnedLine.isBareOpening, OwnedLine.isBareOpening, hmarker, hmarker']
        rfl

namespace Written

theorem keeps (h : Written config table l level written) :
    Normalization.Keeps l.content written :=
  h.keeps_of_content (hfaithful.keeps l)

theorem content_ne_nil (hblank : l.isBlank = false) : (content config table l).1 ≠ [] := by
  intro hnil
  have hvisible := (hfaithful.keeps l).visible_eq
  rw [hnil] at hvisible
  rw [Line.isBlank, allBlank, visible_eq_nil_iff.mp hvisible.symm] at hblank
  cases hblank

/-- Only a blank line is written as an empty one. -/
theorem isGap_of_nil (h : Written config table l level []) (hne : l.content ≠ []) : l.IsGap := by
  generalize hw : ([] : List Char) = w at h
  cases h with
  | verbatim => exact absurd hw.symm hne
  | blank hbody hblank => exact ⟨hbody, hblank⟩
  | code _ hblank _ =>
      exact absurd (List.append_eq_nil_iff.mp hw.symm).2 (content_ne_nil hfaithful hblank)

theorem last_ne_return (h : Written config table l level written)
    (hlast : l.content.getLast? ≠ some '\r') : written.getLast? ≠ some '\r' := by
  cases h with
  | verbatim => exact hlast
  | blank => simp
  | code _ hblank _ =>
      rw [List.getLast?_append_of_ne_nil _ (content_ne_nil hfaithful hblank)]
      intro hreturn
      exact absurd ((hfaithful.trimmed l).last _ hreturn) (by decide)

variable (hsettles : l.isCode = true → SettlesLine config table l)

include hsettles

/-- A written line has the owner of the line that it is written for. -/
theorem owner_eq (h : Written config table l level written) {inside : Bool}
    (howner : l.owner = Owner.ofContent inside l.content) :
    Owner.ofContent inside written = l.owner ∧
      leads inside (marks inside written) = leads inside (marks inside l.content) := by
  cases hbody : l.isBody with
  | false =>
      rw [h.eq_content hbody]
      exact ⟨howner.symm, rfl⟩
  | true =>
      obtain ⟨isComment, hcomment⟩ := OwnedLine.owner_of_isBody hbody
      obtain ⟨rfl, hclosing⟩ := Owner.eq_body (howner.symm.trans hcomment)
      have hclosing' := (keeps hfaithful h).hasClosing_eq hclosing
      have hof : ∀ cs, hasClosing cs = false →
          Owner.ofContent true cs = .body (Statement.Form.comment.holds (trim cs)) := by
        intro cs hcs
        rw [Owner.ofContent, if_neg (by simp [marks_of_not_hasClosing hcs]), if_pos rfl]
      constructor
      · rw [hof _ hclosing', h.trim_eq]
        cases hcode : l.isCode with
        | false => rw [normalized_of_not_isCode hcode, howner, hof _ hclosing, Line.trimmed]
        | true =>
            have hno : l.isComment = false := by
              simp only [OwnedLine.isCode, Bool.and_eq_true, Bool.not_eq_true'] at hcode
              exact hcode.1.2
            rw [OwnedLine.isComment, hcomment] at hno
            obtain rfl : isComment = false := hno
            rw [(hsettles hcode).comment, hcomment]
      · rw [marks_of_not_hasClosing hclosing, marks_of_not_hasClosing hclosing', leads_map_text,
          leads_map_text]

/-- A written line is written as it is. -/
theorem again (halike : (normalized config table l).Alike l')
    (h : Written config table l level l'.content) :
    Written config table l' level l'.content := by
  have hkind := (sameKind_normalized hfaithful l).trans halike.sameKind
  have hcontent : (content config table l').1 = (content config table l).1 := by
    cases hcode : l.isCode with
    | false =>
        rw [normalized_of_not_isCode hcode] at halike
        exact content_congr halike.trimmed_eq hkind.isComment_eq
    | true =>
        have hcode' : (normalized config table l).isCode = true :=
          (sameKind_normalized hfaithful l).isCode_eq.trans hcode
        rw [content_congr halike.trimmed_eq halike.sameKind.isComment_eq,
          ← content_normalized hcode', (hsettles hcode).again, content_normalized hcode]
  generalize hw : l'.content = w at h
  cases h with
  | verbatim hbody => exact hw ▸ .verbatim (hkind.isBody_eq.trans hbody)
  | blank hbody hblank =>
      exact .blank (hkind.isBody_eq.trans hbody) (hkind.isBlank_eq.trans hblank)
  | @code front hbody hblank hlead =>
      rw [← hcontent]
      refine .code (hkind.isBody_eq.trans hbody) (hkind.isBlank_eq.trans hblank) ?_
      rw [← hlead, lead, lead]
      split
      · rfl
      · next hindent =>
          rw [lead, if_neg hindent] at hlead
          have hfront : front = l.content.takeWhile isBlank := (Except.ok.inj hlead).symm
          rw [hw, hfront]
          exact congrArg Except.ok
            (takeWhile_isBlank_append (allBlank_takeWhile _) (hfaithful.trimmed l))

end Written

end

/-! ## The lines of the output -/

/-- A line of the output that is written for a line at a level. -/
structure Rewritten (config : Config) (table : CaseTable) (r : OwnedLine × Nat)
    (l' : OwnedLine) : Prop where
  written : Written config table r.1 r.2 l'.content
  ending_eq : l'.ending = r.1.ending
  owner_eq : l'.owner = r.1.owner

/-- A line of the output that is put above another one. -/
structure Added (l' : OwnedLine) : Prop where
  content_eq : l'.content = []
  owner_eq : ∃ isComment, l'.owner = .body isComment

end Format

/-- Is there nothing in the line, not even an ending? -/
def Line.isVoid (line : List Char × Ending) : Bool := line.1.isEmpty && line.2 == .none

theorem Line.isVoid_iff {line : List Char × Ending} : isVoid line = true ↔ line = ([], .none) := by
  obtain ⟨content, ending⟩ := line
  simp [isVoid]

theorem Line.join_filter (lines : List (List Char × Ending)) :
    join (lines.filter (!isVoid ·)) = join lines := by
  induction lines with
  | nil => rfl
  | cons line lines ih =>
      rw [List.filter_cons]
      split
      · rw [join_cons, ih, join_cons]
      · next hvoid =>
          obtain rfl := isVoid_iff.mp (by simpa using hvoid)
          exact ih

namespace Format

variable {config : Config} {table : CaseTable} {l : OwnedLine} {level : Nat} {written : List Char}

theorem canonical_written (hfaithful : Faithful config table)
    (h : Written config table l level written) {pieces lines : List (List Char × Ending)}
    (hcanon : Line.Canonical ((l.content, l.ending) :: pieces)) (hlines : Line.Canonical lines)
    (hlast : l.ending = .none → lines = []) (hvoid : Line.isVoid (written, l.ending) = false) :
    Line.Canonical ((written, l.ending) :: lines) := by
  have hfeed : '\n' ∉ written := fun hm => hcanon.feed_notMem ((h.keeps hfaithful).feed_mem hm)
  by_cases hending : l.ending = .none
  · rw [hlast hending, hending]
    refine .last ?_ hfeed
    rintro rfl
    simp [Line.isVoid, hending] at hvoid
  · exact .line hending hfeed
      (fun hlf => h.last_ne_return hfaithful (hcanon.last_ne_return hlf)) hlines

/-- The first line of a document whose text starts with a written line. -/
theorem exists_rewritten (hfaithful : Faithful config table)
    (hsettles : l.isCode = true → SettlesLine config table l)
    (h : Written config table l level written) {inside : Bool}
    (howner : l.owner = Owner.ofContent inside l.content)
    {pieces : List (List Char × Ending)} {lines' : List OwnedLine}
    (hlines' : Document.Owned inside ((written, l.ending) :: pieces) lines') :
    ∃ l' rest', lines' = l' :: rest' ∧ Rewritten config table (l, level) l' ∧
      Document.Owned (leads inside (marks inside l.content)) pieces rest' := by
  obtain ⟨howner', hleads⟩ := h.owner_eq hfaithful hsettles howner
  obtain ⟨l', rest', rfl, rfl, hending, howned, hrest⟩ := hlines'.exists_cons
  rw [hleads] at hrest
  exact ⟨l', rest', rfl, ⟨h, hending, howned.trans howner'⟩, hrest⟩

/-- Nothing is written behind a line without an ending. -/
theorem Output.eq_nil_of_none {ending : Ending} {rows : List ((OwnedLine × Nat) × Bool)}
    {lines pieces : List (List Char × Ending)} {inside : Bool}
    (h : Output config table ending rows lines)
    (hcanon : Line.Canonical ((l.content, l.ending) :: pieces))
    (howned : Document.Owned inside pieces (rows.map (·.1.1))) (hnone : l.ending = .none) :
    rows = [] ∧ lines = [] := by
  rw [hcanon.eq_nil_of_none hnone] at howned
  exact h.eq_nil howned

/-- The output is split into the written lines, but for a blank line without an ending, and the
lines of its document are aligned with the rows. -/
theorem Output.aligned (hfaithful : Faithful config table) {ending : Ending}
    (hending : ending ≠ .none) {rows : List ((OwnedLine × Nat) × Bool)}
    {lines : List (List Char × Ending)}
    (h : Output config table ending rows lines) {inside : Bool}
    {pieces : List (List Char × Ending)}
    (howned : Document.Owned inside pieces (rows.map (·.1.1))) (hcanon : Line.Canonical pieces)
    (hsettles : ∀ r ∈ rows, r.1.1.isCode = true → SettlesLine config table r.1.1)
    (hcode : ∀ r ∈ rows, r.2 = true → r.1.1.isCode = true) :
    Line.Canonical (lines.filter (!Line.isVoid ·)) ∧
      ∀ lines', Document.Owned inside (lines.filter (!Line.isVoid ·)) lines' →
        Aligned (Rewritten config table) (fun _ l' => Added l') (fun r => r.1.IsGap)
          (rows.map (·.1)) (rows.map (·.2)) lines' := by
  induction h generalizing inside pieces with
  | nil =>
      refine ⟨.nil, fun lines' hlines' => ?_⟩
      cases hlines'
      exact .nil
  | @line l level written rows lines hwritten hout ih =>
      cases howned with
      | cons _ howner hrest =>
          obtain ⟨hcanon', haligned⟩ := ih hrest hcanon.tail
            (fun r hr => hsettles r (by simp [hr])) (fun r hr => hcode r (by simp [hr]))
          cases hvoid : Line.isVoid (written, l.ending) with
          | true =>
              obtain ⟨rfl, hnone⟩ := Prod.mk.inj (Line.isVoid_iff.mp hvoid)
              obtain ⟨rfl, rfl⟩ := hout.eq_nil_of_none hcanon hrest hnone
              rw [List.filter_cons_of_neg (by simpa using hvoid), List.filter_nil]
              refine ⟨.nil, fun lines' hlines' => ?_⟩
              cases hlines'
              exact .dropped (hwritten.isGap_of_nil hfaithful (hcanon.ne_nil_of_none hnone))
          | false =>
              rw [List.filter_cons_of_pos (by simp [hvoid])]
              have hlast : l.ending = .none → lines.filter (!Line.isVoid ·) = [] := fun hnone => by
                rw [(hout.eq_nil_of_none hcanon hrest hnone).2, List.filter_nil]
              refine ⟨canonical_written hfaithful hwritten hcanon hcanon' hlast hvoid,
                fun lines' hlines' => ?_⟩
              obtain ⟨l', rest', rfl, hrewritten, hrest'⟩ :=
                exists_rewritten hfaithful (hsettles _ (by simp)) hwritten howner hlines'
              exact .line hrewritten (haligned rest' hrest')
  | @insert l level written rows lines hwritten hout ih =>
      cases howned with
      | cons _ howner hrest =>
          obtain ⟨hcanon', haligned⟩ := ih hrest hcanon.tail
            (fun r hr => hsettles r (by simp [hr])) (fun r hr => hcode r (by simp [hr]))
          have hline : l.isCode = true := hcode ((l, level), true) (by simp) rfl
          have hvoid : Line.isVoid (written, l.ending) = false := by
            by_contra hvoid
            obtain ⟨rfl, hnone⟩ := Prod.mk.inj (Line.isVoid_iff.mp (by simpa using hvoid))
            have hgap := hwritten.isGap_of_nil hfaithful (hcanon.ne_nil_of_none hnone)
            rw [hgap.isCode_eq] at hline
            cases hline
          rw [List.filter_cons_of_pos (by simp [Line.isVoid, hending]),
            List.filter_cons_of_pos (by simp [hvoid])]
          have hlast : l.ending = .none → lines.filter (!Line.isVoid ·) = [] := fun hnone => by
            rw [(hout.eq_nil_of_none hcanon hrest hnone).2, List.filter_nil]
          refine ⟨.line hending (by simp) (by simp)
            (canonical_written hfaithful hwritten hcanon hcanon' hlast hvoid),
            fun lines' hlines' => ?_⟩
          obtain ⟨isComment, hbody⟩ := OwnedLine.owner_of_isBody (OwnedLine.isBody_of_isCode hline)
          obtain ⟨rfl, -⟩ := Owner.eq_body (howner.symm.trans hbody)
          obtain ⟨gap, rest, rfl, hcontent, -, hgap, hrest'⟩ := hlines'.exists_cons
          obtain ⟨l', rest', rfl, hrewritten, hrest'⟩ :=
            exists_rewritten hfaithful (hsettles _ (by simp)) hwritten howner hrest'
          exact .insert ⟨hcontent, _, hgap⟩ hrewritten (haligned rest' hrest')

/-! ## Frozen lines -/

/-- A line of the output, frozen if the line that it is written for is. -/
structure Carried (config : Config) (table : CaseTable) (r : OwnedLine × Nat)
    (l' : OwnedLine) : Prop extends Rewritten config table r l' where
  frozen_eq : l'.frozen = r.1.frozen

/-- A blank line of the output that is not frozen. -/
structure Placed (l' : OwnedLine) : Prop extends Added l' where
  frozen_eq : l'.frozen = false

/-- Past the ceiling only as many lines are frozen in the output as in the text. -/
theorem carried_of_rewritten {text out : List Char}
    (h : Aligned (Rewritten config table) (fun _ l' => Added l') (fun r => r.1.IsGap)
      (leveled config.limits text) (plan config text)
      ((Document.ofText out).limited config.limits).lines)
    (hceiling : config.blankLines = false ∨
      (Line.pieces out).length ≤ config.limits.maxLines) :
    Aligned (Carried config table) (fun _ l' => Placed l') (fun r => r.1.IsGap)
      (leveled config.limits text) (plan config text)
      ((Document.ofText out).limited config.limits).lines := by
  have hlength : (leveled config.limits text).length = (Line.pieces text).length := by
    rw [← Document.length_limited config.limits text, ← map_fst_leveled, List.length_map]
  have hlength' := Document.length_limited config.limits out
  by_cases hboth : (Line.pieces text).length ≤ config.limits.maxLines ∧
      (Line.pieces out).length ≤ config.limits.maxLines
  · have hout := Document.frozen_of_le hboth.2
    refine h.imp (fun a ha b hb hab => ⟨hab, ?_⟩) (fun a _ b hb hab => ⟨hab, hout b hb⟩)
      (fun _ _ => id)
    have hmem : a.1 ∈ ((Document.ofText text).limited config.limits).lines := by
      rw [← map_fst_leveled]
      exact List.mem_map_of_mem ha
    rw [hout b hb, Document.frozen_of_le hboth.1 _ hmem]
  · have hlong : config.limits.maxLines < (Line.pieces text).length := by
      by_contra hshort
      rcases hceiling with hblank | hle
      · have := h.length_le_of_unmarked (plan_of_not_blankLines hblank text)
        omega
      · omega
    have hle : (Line.pieces text).length ≤ (Line.pieces out).length := by
      rcases h.length_le with hle | ⟨a, ha, hgap⟩
      · omega
      · have hlast : ((Document.ofText text).limited config.limits).lines.getLast? = some a.1 := by
          rw [← map_fst_leveled, List.getLast?_map, ha]
          rfl
        have := Document.frozen_last hlong hlast
        rw [hgap.frozen_eq] at this
        cases this
    have hunmarked : ∀ m ∈ plan config text, m = false := by
      rcases hceiling with hblank | hle'
      · exact plan_of_not_blankLines hblank text
      · omega
    have hsame := h.length_le_of_unmarked hunmarked
    have hfrozen : (leveled config.limits text).map (·.1.frozen) =
        ((Document.ofText out).limited config.limits).lines.map (·.frozen) := by
      have hcount : (Line.pieces out).length = (Line.pieces text).length := by omega
      rw [Document.map_frozen_limited, hcount, ← Document.map_frozen_limited,
        ← map_fst_leveled, List.map_map]
      rfl
    refine (h.with_values hunmarked hfrozen).imp ?_ (fun _ _ _ _ => id) (fun _ _ => id)
    exact fun a _ b _ hab => ⟨hab.1, hab.2⟩

/-! ## The second pass -/

/-- The lines of the output are aligned with the normalized lines of the text. -/
theorem alike_of_carried {r : OwnedLine × Nat} {l' : OwnedLine} (h : Carried config table r l') :
    (normalized config table r.1).Alike l' := by
  have hfrozen : (normalized config table r.1).frozen = r.1.frozen := by
    rw [normalized]
    split <;> rfl
  have howner : (normalized config table r.1).owner = r.1.owner := by
    rw [normalized]
    split <;> rfl
  exact ⟨h.owner_eq.trans howner.symm, h.frozen_eq.trans hfrozen.symm, h.written.trim_eq⟩

theorem isGap_of_placed {l' : OwnedLine} (h : Placed l') : l'.IsGap := by
  obtain ⟨isComment, howner⟩ := h.owner_eq
  exact ⟨by simp [OwnedLine.isBody, howner, h.frozen_eq], by simp [Line.isBlank, h.content_eq]⟩

/-- The output is stable. -/
theorem stable_of_carried (hfaithful : Faithful config table) {text out : List Char}
    (hsettles : Settles config table ((Document.ofText text).limited config.limits).lines)
    (h : Aligned (Carried config table) (fun _ l' => Placed l') (fun r => r.1.IsGap)
      (leveled config.limits text) (plan config text)
      ((Document.ofText out).limited config.limits).lines) :
    Stable config table out := by
  have hrelaid : Relaid config text out := by
    refine relaid_of_aligned (sameKind_normalized hfaithful) ?_ hsettles.reads
    rw [← map_fst_leveled config.limits text]
    refine Aligned.map_left (·.1) (h.imp ?_ ?_ (fun _ _ => id))
    · exact fun _ _ _ _ => alike_of_carried
    · exact fun _ _ _ _ => isGap_of_placed
  have hall := hrelaid.levels.both (Aligned.of_map_right (·.1) (by rwa [map_fst_leveled]))
  intro r hr
  have hmark : r.2 ∈ plan config out := by
    rw [← map_snd_rows]
    exact List.mem_map_of_mem hr
  have hrow : r.1 ∈ leveled config.limits out := by
    rw [← map_leveled_rows config out]
    exact List.mem_map_of_mem hr
  refine ⟨hrelaid.plan_eq_false _ hmark, ?_⟩
  obtain ⟨a, ha, ⟨hlevel, hcarried⟩ | ⟨-, hplaced⟩⟩ := hall.exists_of_mem hrow
  · have hmem : a.1 ∈ ((Document.ofText text).limited config.limits).lines := by
      rw [← map_fst_leveled]
      exact List.mem_map_of_mem ha
    rw [hlevel]
    exact hcarried.written.again hfaithful (hsettles.line _ hmem) (alike_of_carried hcarried)
  · rw [hplaced.content_eq]
    exact .blank (isGap_of_placed hplaced).isBody (isGap_of_placed hplaced).isBlank

/-! ## Directives -/

theorem findSome_arguments (limits : Limits) (text : List Char) :
    (feedLines text).findSome? Directive.arguments? =
      ((Document.ofText text).limited limits).lines.findSome? fun l =>
        Directive.arguments? l.content := by
  rw [Line.feedLines_eq, (Document.owned_limited limits text).pieces_eq, List.map_map,
    List.findSome?_map]
  congr 1
  funext l
  have hending : allBlank l.ending.text = true := by
    cases l.ending <;> decide
  rw [Function.comp_apply, Function.comp_apply, ← Directive.arguments?_trim,
    trim_append_of_allBlank_back hending, Directive.arguments?_trim]

theorem arguments?_of_isGap {l : OwnedLine} (h : l.IsGap) :
    Directive.arguments? l.content = none := by
  rw [← Directive.arguments?_trim, trim_eq_nil_iff.mpr h.isBlank]
  rfl

/-- A line of the output is the directive that its line of the text is. -/
theorem Rewritten.arguments?_eq {r : OwnedLine × Nat} {l' : OwnedLine}
    (hsettles : r.1.isCode = true → SettlesLine config table r.1)
    (h : Rewritten config table r l') :
    Directive.arguments? l'.content = Directive.arguments? r.1.content := by
  have hline : Directive.arguments? (normalized config table r.1).content =
      Directive.arguments? r.1.content := by
    cases hcode : r.1.isCode with
    | false => rw [normalized_of_not_isCode hcode]
    | true => exact (hsettles hcode).directive
  rw [← hline, ← Directive.arguments?_trim l'.content, h.written.trim_eq]
  exact Directive.arguments?_trim _

/-- The output has the directive of the text. -/
theorem findSome_arguments_aligned {rows : List (OwnedLine × Nat)} {marked : List Bool}
    {lines' : List OwnedLine}
    (h : Aligned (Rewritten config table) (fun _ l' => Added l') (fun r => r.1.IsGap)
      rows marked lines')
    (hsettles : ∀ r ∈ rows, r.1.isCode = true → SettlesLine config table r.1) :
    (lines'.findSome? fun l => Directive.arguments? l.content) =
      (rows.map (·.1)).findSome? fun l => Directive.arguments? l.content := by
  induction h with
  | nil => rfl
  | dropped hgap => simp [arguments?_of_isGap hgap]
  | @line r l' rows marked lines' hr _ ih =>
      rw [List.map_cons, List.findSome?_cons, List.findSome?_cons,
        hr.arguments?_eq (hsettles r (by simp)), ih fun r hr => hsettles r (by simp [hr])]
  | @insert r gap l' rows marked lines' hgap hr _ ih =>
      have hnone : Directive.arguments? gap.content = none := by
        rw [hgap.content_eq]
        rfl
      rw [List.map_cons, List.findSome?_cons, hnone, List.findSome?_cons, List.findSome?_cons,
        hr.arguments?_eq (hsettles r (by simp)), ih fun r hr => hsettles r (by simp [hr])]

end Format

/-! ## Formatting twice -/

theorem Config.limits_within (config : Config) (text : List Char) :
    (config.within text).limits = config.limits := by
  rw [within]
  split <;> rfl

/-- If one pass settles the lines of a text, formatting the output of formatting gives it back, and
its directive is the one of the text. Blank lines must not push the output over the ceiling of
lines. -/
theorem format_again {config : Config} {table : CaseTable} {text : List Char}
    (hfaithful : Format.Faithful (config.within text) table)
    (hsettles : Format.Settles (config.within text) table
      ((Document.ofText text).limited config.limits).lines)
    {out : Formatted} (hout : format config table text = .ok out) :
    Directive.find? out.text = Directive.find? text ∧
      ((config.within text).blankLines = false ∨
          (Line.split out.text).length ≤ config.limits.maxLines →
        ∃ again, format config table out.text = .ok again ∧ again.text = out.text) := by
  rcases format_ok hout with hsame | ⟨lines, hlines, htext⟩
  · rw [hsame]
    exact ⟨rfl, fun _ => ⟨out, hout, hsame⟩⟩
  · rw [← config.limits_within text] at hsettles
    have hrows : ∀ r ∈ Format.leveled (config.within text).limits text, r.1.isCode = true →
        Format.SettlesLine (config.within text) table r.1 := by
      intro r hr
      refine hsettles.line _ ?_
      rw [← Format.map_fst_leveled]
      exact List.mem_map_of_mem hr
    have hcode : ∀ r ∈ Format.rows (config.within text) text, r.2 = true → r.1.1.isCode = true := by
      rintro ⟨⟨l, level⟩, insert⟩ hr rfl
      exact Format.isCode_of_mem_rows hr
    obtain ⟨hcanon, haligned⟩ := hlines.aligned hfaithful (Line.dominantEnding_ne_none _)
      (Format.owned_rows _ text) (Line.canonical_pieces text)
      (fun r hr => hrows r.1 (Format.map_leveled_rows _ text ▸ List.mem_map_of_mem hr)) hcode
    have hpieces : Line.pieces out.text = lines.filter (!Line.isVoid ·) := by
      rw [htext, ← Line.join_filter, Line.pieces_join hcanon]
    rw [← hpieces, Format.map_snd_rows, Format.map_leveled_rows] at haligned
    have hrewritten := haligned _ (Document.owned_limited (config.within text).limits out.text)
    have hdirective : Directive.find? out.text = Directive.find? text := by
      refine Directive.find?_congr ?_
      rw [Format.findSome_arguments (config.within text).limits,
        Format.findSome_arguments (config.within text).limits,
        Format.findSome_arguments_aligned hrewritten hrows, Format.map_fst_leveled]
    refine ⟨hdirective, fun hceiling => ?_⟩
    cases hkept : Format.isKept config out.text with
    | true => exact format_of_isKept table hkept
    | false =>
        have hwithin : config.within out.text = config.within text := by
          rw [Config.within, Config.within, hdirective]
        rw [format_of_not_isKept table hkept, hwithin]
        refine Format.withSettings_of_stable (Format.stable_of_carried hfaithful hsettles
          (Format.carried_of_rewritten hrewritten ?_))
        rwa [Line.length_split, ← config.limits_within text] at hceiling

end ClassicAsp
