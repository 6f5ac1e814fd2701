import ClassicAsp.Format
import ClassicAsp.Proofs.Blanks
import ClassicAsp.Proofs.Levels
import Mathlib.Algebra.Ring.Nat

/-! # What formatting writes

Formatting writes one line for each line of the text, and blank lines above some of them. -/

namespace ClassicAsp

open Region

/-! ## Owners of lines, frozen or not -/

/-- The lines have the contents, endings and owners of the pieces of a text that starts inside a
region or not. -/
inductive Document.Owned : Bool → List (List Char × Ending) → List OwnedLine → Prop where
  | nil {inside} : Owned inside [] []
  | cons {inside pieces} (line : OwnedLine) {lines}
      (howner : line.owner = Owner.ofContent inside line.content) :
      Owned (leads inside (marks inside line.content)) pieces lines →
      Owned inside ((line.content, line.ending) :: pieces) (line :: lines)

namespace Document

theorem Owned.exists_cons {inside : Bool} {piece : List Char × Ending}
    {pieces : List (List Char × Ending)} {lines : List OwnedLine}
    (h : Owned inside (piece :: pieces) lines) :
    ∃ l rest, lines = l :: rest ∧ l.content = piece.1 ∧ l.ending = piece.2 ∧
      l.owner = Owner.ofContent inside piece.1 ∧
      Owned (leads inside (marks inside piece.1)) pieces rest := by
  cases h with
  | cons line howner hrest => exact ⟨line, _, rfl, rfl, rfl, howner, hrest⟩

theorem Owned.pieces_eq {inside : Bool} {pieces : List (List Char × Ending)}
    {lines : List OwnedLine} (h : Owned inside pieces lines) :
    pieces = lines.map fun l => (l.content, l.ending) := by
  induction h with
  | nil => rfl
  | cons line _ _ ih => rw [List.map_cons, ← ih]

theorem owned_linesFrom (inside : Bool) (index offset : Nat)
    (pieces : List (List Char × Ending)) :
    Owned inside pieces (linesFrom inside index offset pieces) := by
  induction pieces generalizing inside index offset with
  | nil => exact .nil
  | cons piece pieces ih =>
      obtain ⟨content, ending⟩ := piece
      exact .cons ⟨⟨index, content, ending, offset⟩, Owner.ofContent inside content, false⟩ rfl
        (ih _ _ _)

theorem Owned.freeze {inside : Bool} {pieces : List (List Char × Ending)}
    {lines : List OwnedLine} (h : Owned inside pieces lines) (n : Nat) :
    Owned inside pieces
      (lines.take n ++ (lines.drop n).map fun l => { l with frozen := true }) := by
  induction h generalizing n with
  | nil => simpa using .nil
  | @cons inside pieces line lines howner _ ih =>
      cases n with
      | zero =>
          have hrest := ih 0
          simp only [List.take_zero, List.drop_zero, List.nil_append, List.map_cons] at hrest ⊢
          exact .cons { line with frozen := true } howner hrest
      | succ n => exact .cons line howner (ih n)

/-- The document with the lines frozen that are past the ceiling. -/
def limited (limits : Limits) (doc : Document) : Document :=
  if limits.exceeds .documentLines doc.lines.length then doc.freezeFrom limits.maxLines else doc

theorem owned_frozen (text : List Char) (index : Nat) :
    Owned false (Line.pieces text) ((ofText text).freezeFrom index).lines := by
  have h : Owned false (Line.pieces text) (ofText text).lines := by
    rw [lines_ofText]
    exact owned_linesFrom false 0 0 _
  exact h.freeze index

theorem owned_limited (limits : Limits) (text : List Char) :
    Owned false (Line.pieces text) ((ofText text).limited limits).lines := by
  have h : Owned false (Line.pieces text) (ofText text).lines := by
    rw [lines_ofText]
    exact owned_linesFrom false 0 0 _
  rw [limited]
  split
  · exact h.freeze limits.maxLines
  · exact h

theorem length_linesFrom (inside : Bool) (index offset : Nat)
    (pieces : List (List Char × Ending)) :
    (linesFrom inside index offset pieces).length = pieces.length := by
  induction pieces generalizing inside index offset with
  | nil => rfl
  | cons piece pieces ih => rw [linesFrom, List.length_cons, ih, List.length_cons]

theorem map_frozen_linesFrom (inside : Bool) (index offset : Nat)
    (pieces : List (List Char × Ending)) :
    (linesFrom inside index offset pieces).map (·.frozen) =
      List.replicate pieces.length false := by
  induction pieces generalizing inside index offset with
  | nil => rfl
  | cons piece pieces ih =>
      rw [linesFrom, List.map_cons, ih, List.length_cons, List.replicate_succ]

/-- The lines past the ceiling are frozen. -/
theorem map_frozen_limited (limits : Limits) (text : List Char) :
    ((ofText text).limited limits).lines.map (·.frozen) =
      List.replicate (min (Line.pieces text).length limits.maxLines) false ++
        List.replicate ((Line.pieces text).length - limits.maxLines) true := by
  have hfrozen := map_frozen_linesFrom false 0 0 (Line.pieces text)
  have hlength := length_linesFrom false 0 0 (Line.pieces text)
  rw [← lines_ofText] at hfrozen hlength
  rw [limited, Limits.exceeds, hlength]
  split
  · next hlong =>
      rw [decide_eq_true_eq] at hlong
      rw [freezeFrom, List.map_append, List.map_take, hfrozen, List.take_replicate, List.map_map]
      refine congr_arg₂ (· ++ ·) (by rw [Nat.min_comm]) ?_
      rw [List.eq_replicate_iff]
      refine ⟨by simp [hlength], fun b hb => ?_⟩
      obtain ⟨l, -, rfl⟩ := List.mem_map.mp hb
      rfl
  · next hshort =>
      rw [decide_eq_true_eq] at hshort
      have hshort' : (Line.pieces text).length ≤ limits.maxLines := Nat.le_of_not_lt hshort
      rw [hfrozen, Nat.min_eq_left hshort', Nat.sub_eq_zero_of_le hshort']
      simp

theorem length_limited (limits : Limits) (text : List Char) :
    ((ofText text).limited limits).lines.length = (Line.pieces text).length := by
  have h := congrArg List.length (map_frozen_limited limits text)
  simp only [List.length_map, List.length_append, List.length_replicate] at h
  omega

theorem frozen_of_le {limits : Limits} {text : List Char}
    (h : (Line.pieces text).length ≤ limits.maxLines) :
    ∀ l ∈ ((ofText text).limited limits).lines, l.frozen = false := by
  intro l hl
  have hmem := List.mem_map_of_mem (f := fun l : OwnedLine => l.frozen) hl
  rw [map_frozen_limited, Nat.sub_eq_zero_of_le h, List.replicate_zero, List.append_nil] at hmem
  exact List.eq_of_mem_replicate hmem

theorem frozen_last {limits : Limits} {text : List Char}
    (h : limits.maxLines < (Line.pieces text).length) {l : OwnedLine}
    (hl : ((ofText text).limited limits).lines.getLast? = some l) : l.frozen = true := by
  have hlast := congrArg List.getLast? (map_frozen_limited limits text)
  obtain ⟨n, hn⟩ : ∃ n, (Line.pieces text).length - limits.maxLines = n + 1 :=
    ⟨(Line.pieces text).length - limits.maxLines - 1, by omega⟩
  rw [List.getLast?_map, hl, hn, List.getLast?_append_of_ne_nil _ (by simp)] at hlast
  simpa [List.getLast?_replicate] using hlast

theorem ending_limited (limits : Limits) (doc : Document) :
    (doc.limited limits).ending = doc.ending := by
  rw [limited]
  split <;> rfl

end Document

/-- If no run weighs more than its characters, all runs of a row do not weigh more than the row. -/
theorem sum_runs_le (weight : List Char → Nat)
    (hweight : ∀ run, run ≠ [] → weight run ≤ run.length) (ms : List Mark) :
    ((runs none ms).map weight).sum ≤ (unmark false ms).length ∧
      ∀ run, ((runs (some run) ms).map weight).sum ≤ run.length + (unmark true ms).length := by
  have hfragment : ∀ run, ((fragment run).map weight).sum ≤ run.length := by
    intro run
    cases run with
    | nil => simp [fragment]
    | cons c run => simpa [fragment] using hweight (c :: run) (by simp)
  induction ms with
  | nil => exact ⟨by simp [runs], fun run => by simpa [runs, unmark] using hfragment run⟩
  | cons m ms ih =>
      obtain ⟨hnone, hsome⟩ := ih
      cases m with
      | text c =>
          constructor
          · simp only [runs, unmark, List.length_cons]
            omega
          · intro run
            have := hsome (run ++ [c])
            simp only [runs, unmark, List.length_cons, List.length_append, List.length_nil]
              at this ⊢
            omega
      | marker =>
          constructor
          · have := hsome []
            simp only [runs, unmark, List.length_cons, List.length_nil] at this ⊢
            omega
          · intro run
            have := hfragment run
            simp only [runs, unmark, List.map_append, List.sum_append, List.length_cons]
            omega

theorem sum_fragments_le (weight : List Char → Nat)
    (hweight : ∀ run, run ≠ [] → weight run ≤ run.length) {line : OwnedLine} {inside : Bool}
    (h : line.owner = Owner.ofContent inside line.content) :
    (line.fragments.map weight).sum ≤ line.content.length := by
  rw [OwnedLine.fragments, h, Owner.ofContent]
  split
  · next fragments hfragments =>
      split at hfragments
      · obtain rfl := Owner.marker.inj hfragments
        have hruns := sum_runs_le weight hweight (marks inside line.content)
        have hunmark := unmark_marks inside line.content
        cases inside with
        | false => simpa [hunmark] using hruns.1
        | true => simpa [hunmark] using hruns.2 []
      · split at hfragments <;> cases hfragments
  · simp

/-- The fragments of a line are not more than its characters. -/
theorem length_fragments {line : OwnedLine} {inside : Bool}
    (h : line.owner = Owner.ofContent inside line.content) :
    line.fragments.length ≤ line.content.length := by
  simpa using sum_fragments_le (fun _ => 1) (fun _ => List.length_pos_iff.mpr) h

theorem Document.Owned.length_fragments {inside : Bool} {pieces : List (List Char × Ending)}
    {lines : List OwnedLine} (h : Owned inside pieces lines) :
    ∀ l ∈ lines, l.fragments.length ≤ l.content.length := by
  induction h with
  | nil => simp
  | cons line howner _ ih =>
      intro l hl
      rcases List.mem_cons.mp hl with rfl | hl
      · exact ClassicAsp.length_fragments howner
      · exact ih l hl

theorem Document.Owned.length_contents {inside : Bool} {pieces : List (List Char × Ending)}
    {lines : List OwnedLine} (h : Owned inside pieces lines) :
    (lines.flatMap (·.content)).length ≤ (Line.join pieces).length := by
  induction h with
  | nil => simp
  | cons _ _ _ ih =>
      simp only [List.flatMap_cons, Line.join_cons, List.length_append]
      omega

/-! ## The plan of blank lines -/

theorem OwnedLine.isBody_of_isCode {l : OwnedLine} (h : l.isCode = true) : l.isBody = true := by
  rw [isCode, Bool.and_eq_true, Bool.and_eq_true] at h
  exact h.1.1

namespace BlankLine

theorem planAfter_eq (done : List Bool) (above : Option OwnedLine)
    (lines : List (OwnedLine × Outline)) :
    planAfter done above lines = done.reverse ++ planAfter [] above lines := by
  induction lines generalizing done above with
  | nil => simp [planAfter]
  | cons row lines ih =>
      obtain ⟨line, o⟩ := row
      rw [planAfter, ih, planAfter, ih [_]]
      simp

theorem planAfter_cons (above : Option OwnedLine) (line : OwnedLine) (o : Outline)
    (lines : List (OwnedLine × Outline)) :
    planAfter [] above ((line, o) :: lines) =
      (isDeclaration line o && above.any (!isSettledBelow ·)) ::
        planAfter [] (some line) lines := by
  rw [planAfter, planAfter_eq]
  rfl

theorem length_planAfter (above : Option OwnedLine) (lines : List (OwnedLine × Outline)) :
    (planAfter [] above lines).length = lines.length := by
  induction lines generalizing above with
  | nil => rfl
  | cons row lines ih =>
      obtain ⟨line, o⟩ := row
      rw [planAfter_cons, List.length_cons, ih, List.length_cons]

/-- Only above lines of code are blank lines put. -/
theorem isCode_of_mem_zip_planAfter {above : Option OwnedLine}
    {lines : List (OwnedLine × Outline)} {line : OwnedLine}
    (h : (line, true) ∈ (lines.map (·.1)).zip (planAfter [] above lines)) :
    line.isCode = true := by
  induction lines generalizing above with
  | nil => simp at h
  | cons row lines ih =>
      obtain ⟨l, o⟩ := row
      rw [planAfter_cons, List.map_cons, List.zip_cons_cons] at h
      rcases List.mem_cons.mp h with hfirst | hrest
      · obtain ⟨rfl, hdecl⟩ := Prod.mk.inj hfirst
        have hplan := hdecl.symm
        rw [Bool.and_eq_true, isDeclaration, Bool.and_eq_true, Bool.and_eq_true] at hplan
        exact hplan.1.1.1
      · exact ih hrest

end BlankLine

/-! ## The rows that are written -/

/-- The lines of a text with their outlines. -/
def Layout.outlined (limits : Limits) (text : List Char) : List (OwnedLine × Outline) :=
  let lines := ((Document.ofText text).limited limits).lines
  lines.zip (BlockScan.outlines limits 0 0 {} lines)

theorem Layout.map_fst_outlined (limits : Limits) (text : List Char) :
    (outlined limits text).map (·.1) = ((Document.ofText text).limited limits).lines :=
  List.map_fst_zip (by simp)

theorem Layout.lines_ofText (limits : Limits) (text : List Char) :
    (Layout.ofText limits text).lines =
      (outlined limits text).zip (indentLevels limits (outlined limits text)).1 := by
  simp only [Layout.ofText, BlockScan.outlines_blockStructure]
  rfl

theorem Layout.ending_ofText (limits : Limits) (text : List Char) :
    (Layout.ofText limits text).document.ending = (Document.ofText text).ending :=
  Document.ending_limited limits (Document.ofText text)

namespace Format

/-- Which lines of a text get a blank line above them. -/
def plan (config : Config) (text : List Char) : List Bool :=
  let outlined := Layout.outlined config.limits text
  if config.blankLines then BlankLine.plan outlined else outlined.map fun _ => false

/-- The lines of a text with their levels. -/
def leveled (limits : Limits) (text : List Char) : List (OwnedLine × Nat) :=
  ((Layout.outlined limits text).map (·.1)).zip
    (indentLevels limits (Layout.outlined limits text)).1

/-- The lines of a text with their levels and the plan. -/
def rows (config : Config) (text : List Char) : List ((OwnedLine × Nat) × Bool) :=
  (leveled config.limits text).zip (plan config text)

theorem length_leveled (limits : Limits) (text : List Char) :
    (leveled limits text).length = (Layout.outlined limits text).length := by
  simp [leveled, length_indentLevels]

theorem plan_of_not_blankLines {config : Config} (h : config.blankLines = false)
    (text : List Char) : ∀ m ∈ plan config text, m = false := by
  intro m hm
  simp only [plan, h, Bool.false_eq_true, if_false, List.mem_map] at hm
  obtain ⟨-, -, rfl⟩ := hm
  rfl

theorem length_plan (config : Config) (text : List Char) :
    (plan config text).length = (Layout.outlined config.limits text).length := by
  simp only [plan]
  split
  · exact BlankLine.length_planAfter none _
  · simp

theorem map_leveled_rows (config : Config) (text : List Char) :
    (rows config text).map (·.1) = leveled config.limits text := by
  exact List.map_fst_zip (by rw [length_plan, length_leveled])

theorem map_fst_leveled (limits : Limits) (text : List Char) :
    (leveled limits text).map (·.1) = ((Document.ofText text).limited limits).lines := by
  have hlevels := length_indentLevels limits (Layout.outlined limits text)
  rw [leveled, List.map_fst_zip (by simp [hlevels]), Layout.map_fst_outlined]

theorem map_fst_rows (config : Config) (text : List Char) :
    (rows config text).map (·.1.1) =
      ((Document.ofText text).limited config.limits).lines := by
  rw [← map_fst_leveled, ← map_leveled_rows, List.map_map]
  rfl

theorem map_snd_rows (config : Config) (text : List Char) :
    (rows config text).map (·.2) = plan config text := by
  exact List.map_snd_zip (by rw [length_plan, length_leveled])

/-- The blank lines stand above code. -/
theorem isCode_of_mem_rows {config : Config} {text : List Char} {line : OwnedLine} {level : Nat}
    (h : ((line, level), true) ∈ rows config text) : line.isCode = true := by
  have hmem : (line, true) ∈
      ((Layout.outlined config.limits text).map (·.1)).zip (plan config text) := by
    have := List.mem_map_of_mem (f := Prod.map Prod.fst id) h
    rw [rows, ← List.zip_map_left] at this
    rw [Layout.map_fst_outlined, ← map_fst_leveled]
    exact this
  simp only [plan] at hmem
  split at hmem
  · exact BlankLine.isCode_of_mem_zip_planAfter hmem
  · have := List.of_mem_zip hmem
    simp at this

/-! ## Written lines -/

/-- The content of a line as formatting writes it at a level. -/
inductive Written (config : Config) (table : CaseTable) (l : OwnedLine) (level : Nat) :
    List Char → Prop where
  | verbatim (hbody : l.isBody = false) : Written config table l level l.content
  | blank (hbody : l.isBody = true) (hblank : l.isBlank = true) : Written config table l level []
  | code {front} (hbody : l.isBody = true) (hblank : l.isBlank = false)
      (hlead : lead config l level = .ok front) :
      Written config table l level (front ++ (content config table l).1)

theorem Written.eq_content {config : Config} {table : CaseTable} {l : OwnedLine} {level : Nat}
    {written : List Char} (h : Written config table l level written)
    (hbody : l.isBody = false) : written = l.content := by
  cases h with
  | verbatim => rfl
  | blank hb =>
      rw [hbody] at hb
      cases hb
  | code hb =>
      rw [hbody] at hb
      cases hb

theorem line_ok_iff {config : Config} {table : CaseTable} {l : OwnedLine} {level : Nat}
    {text : List Char} :
    (∃ warning, line config table l level = .ok (text, warning)) ↔
      ∃ written, Written config table l level written ∧ text = written ++ l.ending.text := by
  constructor
  · rintro ⟨warning, h⟩
    simp only [line] at h
    split at h
    · next hbody =>
        obtain ⟨rfl, -⟩ := Prod.mk.inj (Except.ok.inj h)
        exact ⟨l.content, .verbatim (by simpa using hbody), rfl⟩
    · next hbody =>
        have hbody' : l.isBody = true := by simpa using hbody
        split at h
        · next hblank =>
            obtain ⟨rfl, -⟩ := Prod.mk.inj (Except.ok.inj h)
            exact ⟨[], .blank hbody' hblank, rfl⟩
        · next hblank =>
            cases hlead : lead config l level with
            | error e => simp [hlead, bind, Except.bind] at h
            | ok front =>
                simp only [hlead, bind, Except.bind, pure, Except.pure] at h
                obtain ⟨rfl, -⟩ := Prod.mk.inj (Except.ok.inj h)
                exact ⟨_, .code hbody' (by simpa using hblank) hlead, rfl⟩
  · rintro ⟨written, hwritten, rfl⟩
    cases hwritten with
    | verbatim hbody => exact ⟨none, by simp [line, hbody]⟩
    | blank hbody hblank => exact ⟨none, by simp [line, hbody, hblank]⟩
    | code hbody hblank hlead =>
        exact ⟨(content config table l).2, by
          simp [line, hbody, hblank, hlead, bind, Except.bind, pure, Except.pure]⟩

/-- The lines that rows are written as, where added lines have this ending. -/
inductive Output (config : Config) (table : CaseTable) (ending : Ending) :
    List ((OwnedLine × Nat) × Bool) → List (List Char × Ending) → Prop where
  | nil : Output config table ending [] []
  | line {l level written rows lines} (hwritten : Written config table l level written) :
      Output config table ending rows lines →
      Output config table ending (((l, level), false) :: rows) ((written, l.ending) :: lines)
  | insert {l level written rows lines} (hwritten : Written config table l level written) :
      Output config table ending rows lines →
      Output config table ending (((l, level), true) :: rows)
        (([], ending) :: (written, l.ending) :: lines)

theorem linesAfter_ok_iff {config : Config} {table : CaseTable} {ending : Ending}
    {rows : List ((OwnedLine × Nat) × Bool)} {done : List (List Char)}
    {warnings : List Diagnostic} {text : List Char} :
    (∃ r, linesAfter config table ending done warnings rows = .ok r ∧ r.1.flatten = text) ↔
      ∃ lines, Output config table ending rows lines ∧
        text = done.reverse.flatten ++ Line.join lines := by
  induction rows generalizing done warnings with
  | nil =>
      constructor
      · rintro ⟨r, h, rfl⟩
        obtain rfl := Except.ok.inj h
        exact ⟨[], .nil, by simp⟩
      · rintro ⟨lines, hlines, rfl⟩
        cases hlines
        exact ⟨_, rfl, by simp⟩
  | cons row rows ih =>
      obtain ⟨⟨l, level⟩, insert⟩ := row
      have hone : ∀ piece warning, line config table l level = .ok (piece, warning) →
          linesAfter config table ending done warnings (((l, level), insert) :: rows) =
            linesAfter config table ending
              (((if insert then ending.text else []) ++ piece) :: done)
              (warning.toList ++ warnings) rows := by
        intro piece warning h
        simp [linesAfter, h]
      constructor
      · rintro ⟨r, h, rfl⟩
        cases hline : line config table l level with
        | error e => simp [linesAfter, hline] at h
        | ok one =>
            obtain ⟨piece, warning⟩ := one
            rw [hone piece warning hline] at h
            obtain ⟨lines, hlines, htext⟩ := ih.mp ⟨r, h, rfl⟩
            obtain ⟨written, hwritten, rfl⟩ := line_ok_iff.mp ⟨warning, hline⟩
            cases insert with
            | false =>
                refine ⟨_, .line hwritten hlines, ?_⟩
                rw [htext]
                simp
            | true =>
                refine ⟨_, .insert hwritten hlines, ?_⟩
                rw [htext]
                simp
      · rintro ⟨lines, hlines, rfl⟩
        cases hlines with
        | line hwritten hrest =>
            obtain ⟨warning, hline⟩ := line_ok_iff.mpr ⟨_, hwritten, rfl⟩
            rw [hone _ warning hline]
            exact ih.mpr ⟨_, hrest, by simp⟩
        | insert hwritten hrest =>
            obtain ⟨warning, hline⟩ := line_ok_iff.mpr ⟨_, hwritten, rfl⟩
            rw [hone _ warning hline]
            exact ih.mpr ⟨_, hrest, by simp⟩

theorem withSettings_eq (config : Config) (table : CaseTable) (text : List Char) :
    withSettings config table text =
      (linesAfter config table (Document.ofText text).ending [] [] (rows config text)).map
        fun r => ⟨r.1.flatten, r.1.flatten != text,
          (Layout.ofText config.limits text).diagnostics ++ r.2⟩ := by
  have hlength := length_indentLevels config.limits (Layout.outlined config.limits text)
  have houtlined : (Layout.ofText config.limits text).lines.map (·.1) =
      Layout.outlined config.limits text := by
    rw [Layout.lines_ofText]
    exact List.map_fst_zip (by rw [hlength])
  have hleveled : ((Layout.ofText config.limits text).lines.map fun p => (p.1.1, p.2)) =
      leveled config.limits text := by
    rw [Layout.lines_ofText, leveled, List.zip_map_left]
    rfl
  simp only [withSettings, houtlined, Layout.ending_ofText]
  change (linesAfter config table (Document.ofText text).ending [] []
    (((Layout.ofText config.limits text).lines.map fun p => (p.1.1, p.2)).zip
      (plan config text))).bind _ = _
  rw [hleveled, ← rows]
  cases linesAfter config table (Document.ofText text).ending [] [] (rows config text) <;> rfl

/-- Formatting with settings gives a text if and only if that text is the rows as written. -/
theorem withSettings_ok_iff {config : Config} {table : CaseTable} {text out : List Char} :
    (∃ formatted, withSettings config table text = .ok formatted ∧ formatted.text = out) ↔
      ∃ lines, Output config table (Document.ofText text).ending (rows config text) lines ∧
        out = Line.join lines := by
  have hlines : (∃ r, linesAfter config table (Document.ofText text).ending [] []
        (rows config text) = .ok r ∧ r.1.flatten = out) ↔
      ∃ lines, Output config table (Document.ofText text).ending (rows config text) lines ∧
        out = Line.join lines := linesAfter_ok_iff
  rw [withSettings_eq, ← hlines]
  cases linesAfter config table (Document.ofText text).ending [] [] (rows config text) <;>
    simp [Except.map]

/-! ## Formatting gives a result -/

theorem eventCount_outlined (limits : Limits) (text : List Char) :
    BlockScan.eventCount ((Layout.outlined limits text).map (·.2)) ≤ text.length := by
  have howned := Document.owned_limited limits text
  have hevents := BlockScan.eventCount_outlines limits 0 0 {} howned.length_fragments
  have hcontents := howned.length_contents
  rw [Line.join_pieces] at hcontents
  rw [Layout.outlined, List.map_snd_zip (by simp)]
  omega

theorem level_le_of_mem_rows {config : Config} {text : List Char}
    {r : (OwnedLine × Nat) × Bool} (h : r ∈ rows config text) :
    r.1.2 ≤ 2 * text.length + 1 := by
  have hlevel : r.1.2 ∈ (indentLevels config.limits (Layout.outlined config.limits text)).1 :=
    (List.of_mem_zip (List.of_mem_zip h).1).2
  have hle := indentLevels_le config.limits (Layout.outlined config.limits text) _ hlevel
  have hcount := eventCount_outlined config.limits text
  omega

theorem exists_indentText {level width : Nat} (h : level * width ≤ maxTextSize) :
    indentText? level width = some (List.replicate (level * width) ' ') := by
  have hword : level * width % (Text.maxWord + 1) = level * width := by
    refine Nat.mod_eq_of_lt (Nat.lt_of_le_of_lt h ?_)
    decide
  simp only [indentText?]
  rw [hword, if_pos h]

theorem exists_written (config : Config) (table : CaseTable) (l : OwnedLine) {level : Nat}
    (h : level * config.indent ≤ maxTextSize) :
    ∃ written, Written config table l level written := by
  cases hbody : l.isBody with
  | false => exact ⟨_, .verbatim hbody⟩
  | true =>
      cases hblank : l.isBlank with
      | true => exact ⟨_, .blank hbody hblank⟩
      | false =>
          have hlead : ∃ front, lead config l level = .ok front := by
            rw [lead, exists_indentText h]
            split
            · exact ⟨_, rfl⟩
            · exact ⟨_, rfl⟩
          obtain ⟨front, hfront⟩ := hlead
          exact ⟨_, .code hbody hblank hfront⟩

theorem exists_output (config : Config) (table : CaseTable) (ending : Ending)
    {rows : List ((OwnedLine × Nat) × Bool)}
    (h : ∀ r ∈ rows, r.1.2 * config.indent ≤ maxTextSize) :
    ∃ lines, Output config table ending rows lines := by
  induction rows with
  | nil => exact ⟨[], .nil⟩
  | cons row rows ih =>
      obtain ⟨⟨l, level⟩, insert⟩ := row
      obtain ⟨lines, hlines⟩ := ih (fun r hr => h r (by simp [hr]))
      obtain ⟨written, hwritten⟩ :=
        exists_written config table l (h ((l, level), insert) (by simp))
      cases insert with
      | false => exact ⟨_, .line hwritten hlines⟩
      | true => exact ⟨_, .insert hwritten hlines⟩

theorem length_le_byteLength (cs : List Char) : cs.length ≤ Text.byteLength cs := by
  induction cs with
  | nil => exact Nat.le_refl 0
  | cons c cs ih =>
      have := c.utf8Size_pos
      rw [List.length_cons, Text.byteLength_cons]
      omega

/-- The longest text, in bytes, whose indents fit in memory whatever its structure. -/
def safeLength : Nat := 0x0400000000000000

/-- A text of less than the safe length is formatted with settings that are in order. -/
theorem exists_withSettings {config : Config} (table : CaseTable) {text : List Char}
    (hindent : config.indent ≤ Config.maxIndent) (htext : Text.byteLength text < safeLength) :
    ∃ formatted, withSettings config table text = .ok formatted := by
  have hrows : ∀ r ∈ rows config text, r.1.2 * config.indent ≤ maxTextSize := by
    intro r hr
    have hlevel := level_le_of_mem_rows hr
    have hlength := length_le_byteLength text
    simp only [safeLength] at htext
    calc
      r.1.2 * config.indent ≤ (2 * (0x0400000000000000 - 1) + 1) * 16 :=
        Nat.mul_le_mul (by omega) hindent
      _ ≤ maxTextSize := by decide
  obtain ⟨lines, hlines⟩ := exists_output config table (Document.ofText text).ending hrows
  obtain ⟨formatted, hformatted, -⟩ := withSettings_ok_iff.mpr ⟨lines, hlines, rfl⟩
  exact ⟨formatted, hformatted⟩

end Format

/-! ## Formatting of whole texts -/

/-- The settings that a text is formatted with. -/
def Config.within (config : Config) (text : List Char) : Config :=
  match Directive.find? text with
  | some (.overrides o) => config.override o
  | _ => config

/-- Is the text kept as it is whatever its lines hold? It is too long, asks to be left alone or
holds no region. -/
def Format.isKept (config : Config) (text : List Char) : Bool :=
  config.limits.exceeds .textLength (Text.byteLength text) ||
    Directive.find? text == some .off || !Region.hasOpening text

theorem format_of_isKept {config : Config} (table : CaseTable) {text : List Char}
    (h : Format.isKept config text = true) :
    ∃ out, format config table text = .ok out ∧ out.text = text := by
  simp only [format]
  split
  · exact ⟨_, rfl, rfl⟩
  · next hlength =>
      split
      · exact ⟨_, rfl, rfl⟩
      · next directive hoff =>
          split
          · next hopening =>
              simp only [Format.isKept, hlength, hopening, Bool.or_eq_true, beq_iff_eq] at h
              simp at h
              exact absurd h hoff
          · exact ⟨_, rfl, rfl⟩

theorem format_of_not_isKept {config : Config} (table : CaseTable) {text : List Char}
    (h : Format.isKept config text = false) :
    format config table text = Format.withSettings (config.within text) table text := by
  simp only [Format.isKept, Bool.or_eq_false_iff, Bool.not_eq_false', beq_eq_false_iff_ne] at h
  obtain ⟨⟨hlength, hoff⟩, hopening⟩ := h
  cases hfind : Directive.find? text with
  | none => simp [format, Config.within, hfind, hlength, hopening]
  | some directive =>
      cases directive with
      | off => exact absurd hfind hoff
      | overrides o => simp [format, Config.within, hfind, hlength, hopening]

end ClassicAsp
