import ClassicAsp.Proofs.LineNormalization
import ClassicAsp.Proofs.Writing

/-! # What formatting preserves

Formatting changes blanks and the case of letters between markers. It keeps the markers, the text
outside of the regions, and every visible character. -/

namespace ClassicAsp

open Text Region

/-! ## One line -/

namespace Normalization.Keeps

variable {a b c : List Char}

theorem refl (a : List Char) : Keeps a a := ⟨rfl, id, id⟩

theorem trans (hab : Keeps a b) (hbc : Keeps b c) : Keeps a c where
  visible_eq := hbc.visible_eq.trans hab.visible_eq
  hasClosing_eq h := hbc.hasClosing_eq (hab.hasClosing_eq h)
  feed_mem h := hab.feed_mem (hbc.feed_mem h)

theorem trim (a : List Char) : Keeps a (trim a) :=
  ⟨visible_trim a, hasClosing_trim, mem_of_mem_trim⟩

/-- Blanks in front do no harm. -/
theorem indent (h : Keeps a b) {front : List Char} (hfront : allBlank front = true)
    (hfeed : '\n' ∈ front → '\n' ∈ a) : Keeps a (front ++ b) where
  visible_eq := by
    rw [visible_append, visible_of_allBlank hfront, List.nil_append, h.visible_eq]
  hasClosing_eq ha := by
    rw [hasClosing_append_of_allBlank hfront]
    exact h.hasClosing_eq ha
  feed_mem hm := by
    rcases List.mem_append.mp hm with hm | hm
    · exact hfeed hm
    · exact h.feed_mem hm

end Normalization.Keeps

namespace Format

open Normalization

variable {config : Config} {table : CaseTable} {l : OwnedLine} {level : Nat}

theorem keeps_content (hcompiled : table.Compiled) (hwell : table.WellCased) :
    Keeps l.content (content config table l).1 := by
  rw [content]
  split
  · exact .trim l.content
  · split
    · next r hr => exact (Keeps.trim l.content).trans (keeps_line hcompiled hwell hr)
    · exact .trim l.content

/-- What stands before the content of a line is blank, and has no line feed of its own. -/
theorem lead_ok {front : List Char} (h : lead config l level = .ok front) :
    allBlank front = true ∧ ('\n' ∈ front → '\n' ∈ l.content) := by
  rw [lead] at h
  split at h
  · split at h
    · next spaces hspaces =>
        obtain rfl := Except.ok.inj h
        simp only [indentText?] at hspaces
        split at hspaces
        · obtain rfl := Option.some.inj hspaces
          refine ⟨allBlank_replicate _, fun hm => ?_⟩
          exact absurd (List.eq_of_mem_replicate hm) (by decide)
        · cases hspaces
    · cases h
  · obtain rfl := Except.ok.inj h
    exact ⟨allBlank_takeWhile _, fun hm => (List.takeWhile_prefix _).subset hm⟩

theorem Written.keeps_of_content {written : List Char}
    (h : Written config table l level written)
    (hcontent : Keeps l.content (content config table l).1) : Keeps l.content written := by
  cases h with
  | verbatim => exact .refl _
  | blank _ hblank => exact ⟨(visible_of_allBlank hblank).symm, fun _ => rfl, by simp⟩
  | code _ _ hlead =>
      obtain ⟨hfront, hfeed⟩ := lead_ok hlead
      exact hcontent.indent hfront hfeed

/-- A written line keeps what the line holds. -/
theorem keeps_written (hcompiled : table.Compiled) (hwell : table.WellCased)
    {written : List Char} (h : Written config table l level written) :
    Keeps l.content written :=
  h.keeps_of_content (keeps_content hcompiled hwell)

end Format

/-! ## Texts with the same markup -/

/-- The parts outside of regions, and which regions are terminated, are the same for two texts
that start inside a region or not. -/
structure SameMarkup (inside : Bool) (a b : List Char) : Prop where
  outside_eq : ∀ current, outside inside current (marks inside a) =
    outside inside current (marks inside b)
  terminations_eq : terminations inside (marks inside a) = terminations inside (marks inside b)

namespace Region

theorem outside_append {inside : Bool} {ms x y : List Mark}
    (h : ∀ current, outside (leads inside ms) current x = outside (leads inside ms) current y)
    (current : List Char) :
    outside inside current (ms ++ x) = outside inside current (ms ++ y) := by
  induction ms generalizing inside current with
  | nil => exact h current
  | cons m ms ih =>
      cases m with
      | text c => cases inside <;> simpa [outside] using ih h _
      | marker =>
          rw [leads] at h
          cases inside with
          | false => exact congrArg (current :: ·) (ih h [])
          | true => exact ih h current

theorem terminations_append {inside : Bool} {ms x y : List Mark}
    (h : terminations (leads inside ms) x = terminations (leads inside ms) y) :
    terminations inside (ms ++ x) = terminations inside (ms ++ y) := by
  induction ms generalizing inside with
  | nil => exact h
  | cons m ms ih =>
      cases m with
      | text c => cases inside <;> simpa [terminations] using ih h
      | marker =>
          rw [leads] at h
          cases inside with
          | false => exact ih h
          | true => exact congrArg (true :: ·) (ih h)

theorem outside_map_text (text current : List Char) (ms : List Mark) :
    outside true current (text.map .text ++ ms) = outside true current ms := by
  induction text with
  | nil => rfl
  | cons c text ih => simpa [outside] using ih

theorem terminations_map_text (inside : Bool) (text : List Char) (ms : List Mark) :
    terminations inside (text.map .text ++ ms) = terminations inside ms := by
  induction text with
  | nil => rfl
  | cons c text ih => simpa [terminations] using ih

end Region

namespace SameMarkup

variable {inside : Bool} {a b : List Char}

theorem refl (inside : Bool) (a : List Char) : SameMarkup inside a a := ⟨fun _ => rfl, rfl⟩

/-- Texts without closing markers inside a region. -/
theorem of_not_hasClosing (ha : hasClosing a = false) (hb : hasClosing b = false) :
    SameMarkup true a b := by
  constructor
  · intro current
    rw [marks_of_not_hasClosing ha, marks_of_not_hasClosing hb,
      ← List.append_nil (a.map Mark.text), ← List.append_nil (b.map Mark.text), outside_map_text,
      outside_map_text]
  · rw [marks_of_not_hasClosing ha, marks_of_not_hasClosing hb,
      ← List.append_nil (a.map Mark.text), ← List.append_nil (b.map Mark.text),
      terminations_map_text, terminations_map_text]

/-- The same line in front. -/
theorem line {content : List Char} {ending : Ending} (hending : ending ≠ .none)
    (h : SameMarkup (leads inside (marks inside content)) a b) :
    SameMarkup inside (content ++ ending.text ++ a) (content ++ ending.text ++ b) := by
  have hleads : leads inside (marks inside content ++ ending.text.map .text) =
      leads inside (marks inside content) := by
    rw [leads_append, leads_map_text]
  constructor
  · intro current
    rw [marks_line content hending, marks_line content hending, ← List.append_assoc,
      ← List.append_assoc]
    refine outside_append (fun current => ?_) current
    rw [hleads]
    exact h.outside_eq current
  · rw [marks_line content hending, marks_line content hending, ← List.append_assoc,
      ← List.append_assoc]
    refine terminations_append ?_
    rw [hleads]
    exact h.terminations_eq

/-- Different lines in front, both inside a region. -/
theorem body {content content' : List Char} {ending : Ending} (hending : ending ≠ .none)
    (hcontent : hasClosing content = false) (hcontent' : hasClosing content' = false)
    (h : SameMarkup true a b) :
    SameMarkup true (content ++ ending.text ++ a) (content' ++ ending.text ++ b) := by
  have hrow : ∀ content rest, hasClosing content = false →
      marks true (content ++ ending.text ++ rest) =
        (content ++ ending.text).map .text ++ marks true rest := by
    intro content rest hno
    rw [marks_line content hending, marks_of_not_hasClosing hno, leads_map_text]
    simp
  constructor
  · intro current
    rw [hrow content a hcontent, hrow content' b hcontent', outside_map_text, outside_map_text]
    exact h.outside_eq current
  · rw [hrow content a hcontent, hrow content' b hcontent', terminations_map_text,
      terminations_map_text]
    exact h.terminations_eq

/-- A blank line in front of the second text. -/
theorem insert {ending : Ending} (hending : ending ≠ .none) (h : SameMarkup true a b) :
    SameMarkup true a (ending.text ++ b) := by
  constructor
  · intro current
    rw [marks_ending ending hending, outside_map_text]
    exact h.outside_eq current
  · rw [marks_ending ending hending, terminations_map_text]
    exact h.terminations_eq

end SameMarkup

/-! ## The whole output -/

/-- A line between markers is inside a region and holds no closing marker. -/
theorem Owner.eq_body {inside isComment : Bool} {content : List Char}
    (h : Owner.ofContent inside content = .body isComment) :
    inside = true ∧ hasClosing content = false := by
  rw [ofContent] at h
  split at h
  · cases h
  · next hmarker =>
      split at h
      · next hinside =>
          obtain rfl : inside = true := hinside
          exact ⟨rfl, hasClosing_of_marker_notMem hmarker⟩
      · cases h

theorem OwnedLine.owner_of_isBody {l : OwnedLine} (h : l.isBody = true) :
    ∃ isComment, l.owner = .body isComment := by
  rw [isBody] at h
  split at h
  · next isComment howner => exact ⟨isComment, howner⟩
  · cases h

namespace Format

open Normalization

variable {config : Config} {table : CaseTable} {ending : Ending}
  {rows : List ((OwnedLine × Nat) × Bool)} {lines : List (List Char × Ending)}

/-- Nothing is written for no lines. -/
theorem Output.eq_nil (h : Output config table ending rows lines) {inside : Bool}
    (howned : Document.Owned inside [] (rows.map (·.1.1))) : rows = [] ∧ lines = [] := by
  cases h with
  | nil => exact ⟨rfl, rfl⟩
  | line => cases howned
  | insert => cases howned

theorem Output.join_eq_nil (h : Output config table ending rows lines) {inside : Bool}
    {pieces : List (List Char × Ending)}
    (howned : Document.Owned inside pieces (rows.map (·.1.1))) (hnil : pieces = []) :
    Line.join pieces = [] ∧ Line.join lines = [] := by
  rw [hnil] at howned ⊢
  obtain ⟨-, rfl⟩ := h.eq_nil howned
  exact ⟨rfl, rfl⟩

/-- One line, with what follows it. Nothing follows a line without ending. -/
theorem sameMarkup_written (hcompiled : table.Compiled) (hwell : table.WellCased)
    {l : OwnedLine} {level : Nat} {written : List Char}
    (hwritten : Written config table l level written) {inside : Bool}
    (howner : l.owner = Owner.ofContent inside l.content) {a b : List Char}
    (hrest : SameMarkup (leads inside (marks inside l.content)) a b)
    (hlast : l.ending = .none → a = [] ∧ b = []) :
    SameMarkup inside (l.content ++ l.ending.text ++ a) (written ++ l.ending.text ++ b) := by
  have hkeeps := keeps_written hcompiled hwell hwritten
  cases hbody : l.isBody with
  | false =>
      obtain rfl := hwritten.eq_content hbody
      by_cases hending : l.ending = .none
      · obtain ⟨rfl, rfl⟩ := hlast hending
        exact .refl inside _
      · exact .line hending hrest
  | true =>
      obtain ⟨isComment, hbodyOwner⟩ := OwnedLine.owner_of_isBody hbody
      obtain ⟨rfl, hclosing⟩ := Owner.eq_body (howner.symm.trans hbodyOwner)
      have hclosing' := hkeeps.hasClosing_eq hclosing
      by_cases hending : l.ending = .none
      · obtain ⟨rfl, rfl⟩ := hlast hending
        simp only [hending, Ending.text, List.append_nil]
        exact .of_not_hasClosing hclosing hclosing'
      · rw [marks_of_not_hasClosing hclosing, leads_map_text] at hrest
        exact .body hending hclosing hclosing' hrest

/-- The written lines have the markup of the lines that they are written for. -/
theorem Output.sameMarkup (hcompiled : table.Compiled) (hwell : table.WellCased)
    (hending : ending ≠ .none) (h : Output config table ending rows lines) {inside : Bool}
    {pieces : List (List Char × Ending)}
    (howned : Document.Owned inside pieces (rows.map (·.1.1))) (hcanon : Line.Canonical pieces)
    (hbody : ∀ r ∈ rows, r.2 = true → r.1.1.isBody = true) :
    SameMarkup inside (Line.join pieces) (Line.join lines) := by
  induction h generalizing inside pieces with
  | nil =>
      cases howned
      exact .refl inside []
  | @line l level written rows lines hwritten hout ih =>
      cases howned with
      | cons _ howner hrest =>
          refine sameMarkup_written hcompiled hwell hwritten howner
            (ih hrest hcanon.tail (fun r hr => hbody r (by simp [hr]))) ?_
          exact fun hnone => hout.join_eq_nil hrest (hcanon.eq_nil_of_none hnone)
  | @insert l level written rows lines hwritten hout ih =>
      cases howned with
      | cons _ howner hrest =>
          have hline := sameMarkup_written hcompiled hwell hwritten howner
            (ih hrest hcanon.tail (fun r hr => hbody r (by simp [hr])))
            (fun hnone => hout.join_eq_nil hrest (hcanon.eq_nil_of_none hnone))
          have hinside : inside = true := by
            obtain ⟨isComment, hbodyOwner⟩ :=
              OwnedLine.owner_of_isBody (hbody ((l, level), true) (by simp) rfl)
            exact (Owner.eq_body (howner.symm.trans hbodyOwner)).1
          subst hinside
          exact hline.insert hending

end Format

/-! ## Settings and results -/

/-- Settings are in order if the indent is in its range and no limit is zero. -/
theorem Config.problem?_eq_none_iff {config : Config} :
    config.problem? = none ↔
      (1 ≤ config.indent ∧ config.indent ≤ maxIndent) ∧
        ∀ l ∈ namedLimits config.limits, l.2 ≠ 0 := by
  rw [problem?]
  split
  · next hzero => simp [hzero]
  · next hzero =>
      split
      · next hwide =>
          simp only [reduceCtorEq, false_iff]
          omega
      · next hwide =>
          rw [Option.map_eq_none_iff, List.find?_eq_none]
          have hrange : 1 ≤ config.indent ∧ config.indent ≤ maxIndent := by omega
          simp [hrange]

/-- No directive brings settings out of order. -/
theorem Config.problem?_override {config : Config} (h : config.problem? = none) (o : Overrides) :
    (config.override o).problem? = none := by
  obtain ⟨hindent, hlimits⟩ := problem?_eq_none_iff.mp h
  refine problem?_eq_none_iff.mpr ⟨?_, hlimits⟩
  simp only [override]
  cases hfilter : o.indent.filter fun n => 1 ≤ n && n ≤ maxIndent with
  | none => exact hindent
  | some n =>
      rw [Option.filter_eq_some_iff, Bool.and_eq_true, decide_eq_true_eq,
        decide_eq_true_eq] at hfilter
      exact hfilter.2

theorem Config.problem?_within {config : Config} (h : config.problem? = none)
    (text : List Char) : (config.within text).problem? = none := by
  rw [within]
  split
  · next o _ => exact problem?_override h o
  · exact h

/-- With settings in order a text of less than the safe length is formatted. -/
theorem exists_format {config : Config} (hconfig : config.problem? = none) (table : CaseTable)
    {text : List Char} (htext : byteLength text < Format.safeLength) :
    ∃ out, format config table text = .ok out := by
  cases hkept : Format.isKept config text with
  | true =>
      obtain ⟨out, hout, -⟩ := format_of_isKept table hkept
      exact ⟨out, hout⟩
  | false =>
      rw [format_of_not_isKept table hkept]
      have hrange := Config.problem?_eq_none_iff.mp (Config.problem?_within hconfig text)
      exact Format.exists_withSettings table hrange.1.2 htext

/-- What formatting gives is the text itself, or the rows as written. -/
theorem format_ok {config : Config} {table : CaseTable} {text : List Char} {out : Formatted}
    (h : format config table text = .ok out) :
    out.text = text ∨ ∃ lines, Format.Output (config.within text) table
      (Document.ofText text).ending (Format.rows (config.within text) text) lines ∧
      out.text = Line.join lines := by
  cases hkept : Format.isKept config text with
  | true =>
      obtain ⟨out', hout', htext⟩ := format_of_isKept table hkept
      rw [hout'] at h
      rw [← Except.ok.inj h]
      exact .inl htext
  | false =>
      rw [format_of_not_isKept table hkept] at h
      exact .inr (Format.withSettings_ok_iff.mp ⟨out, h, rfl⟩)

theorem Line.dominantEnding_ne_none (lines : List Line) : dominantEnding lines ≠ .none := by
  simp only [dominantEnding]
  split <;> simp

theorem Format.owned_rows (config : Config) (text : List Char) :
    Document.Owned false (Line.pieces text) ((rows config text).map (·.1.1)) := by
  rw [map_fst_rows]
  exact Document.owned_limited config.limits text

/-! ## Markup -/

theorem SameMarkup.markup_eq {a b : List Char} (h : SameMarkup false a b) :
    markup b = markup a ∧ (detect b).map (·.terminated) = (detect a).map (·.terminated) := by
  constructor
  · rw [Region.markup_eq, Region.markup_eq, h.outside_eq]
  · rw [detect_eq, detect_eq, map_terminated_regionsFrom, map_terminated_regionsFrom]
    exact h.terminations_eq.symm

/-- Formatting with a well-cased table keeps the regions and the text outside of them. -/
theorem format_preserves_markup (config : Config) (table : CaseTable) (text : List Char)
    (hconfig : config.problem? = none) (hcompiled : table.Compiled) (hwell : table.WellCased) :
    (byteLength text < Format.safeLength → ∃ out, format config table text = .ok out) ∧
      ∀ out, format config table text = .ok out →
        (detect out.text).map (·.terminated) = (detect text).map (·.terminated) ∧
          markup out.text = markup text := by
  refine ⟨exists_format hconfig table, fun out hout => ?_⟩
  rcases format_ok hout with hsame | ⟨lines, hlines, htext⟩
  · rw [hsame]
    exact ⟨rfl, rfl⟩
  · have hmarkup := hlines.sameMarkup hcompiled hwell (Line.dominantEnding_ne_none _)
      (Format.owned_rows _ text) (Line.canonical_pieces text) (by
        rintro ⟨⟨l, level⟩, insert⟩ hr rfl
        exact OwnedLine.isBody_of_isCode (Format.isCode_of_mem_rows hr))
    rw [Line.join_pieces, ← htext] at hmarkup
    exact ⟨hmarkup.markup_eq.2, hmarkup.markup_eq.1⟩

/-- The theorem at a page with markup around two regions, the second of them not terminated. -/
theorem format_preserves_markup_page :
    ({} : Config).problem? = none ∧ CaseTable.bundled.Compiled ∧ CaseTable.bundled.WellCased ∧
      ∃ out, format {} CaseTable.bundled
          "<p>%>\n<%\nif x=1and y% >2 then response . write \"%\"\n%></p><%\nloop".toList =
            .ok out ∧
        (detect out.text).map (·.terminated) = [true, false] ∧
        markup out.text = ["<p>%>\n".toList, "</p>".toList, []] := by
  obtain ⟨hexists, hall⟩ := format_preserves_markup {} CaseTable.bundled
    "<p>%>\n<%\nif x=1and y% >2 then response . write \"%\"\n%></p><%\nloop".toList
    (by decide) CaseTable.compiled_bundled CaseTable.wellCased_bundled
  obtain ⟨out, hout⟩ := hexists (by decide +kernel)
  obtain ⟨hterminated, hmarkup⟩ := hall out hout
  refine ⟨by decide, CaseTable.compiled_bundled, CaseTable.wellCased_bundled, out, hout, ?_, ?_⟩
  · rw [hterminated]
    decide +kernel
  · rw [hmarkup]
    decide +kernel

/-! ## Visible characters, line by line -/

theorem Ending.visible_text (ending : Ending) : visible ending.text = [] := by
  cases ending <;> rfl

theorem Line.visible_join (lines : List (List Char × Ending)) :
    visible (join lines) = lines.flatMap fun line => visible line.1 := by
  induction lines with
  | nil => rfl
  | cons line lines ih =>
      rw [join_cons, visible_append, visible_append, Ending.visible_text, List.append_nil, ih]
      rfl

/-- What is written for one line: the ending of a blank line above it, if there is one, its
content, and its ending. -/
structure Emission where
  above : Option Ending
  content : List Char
  ending : Ending

/-- The text of an emission. -/
def Emission.text (e : Emission) : List Char :=
  (e.above.map Ending.text).getD [] ++ (e.content ++ e.ending.text)

/-- The emissions for the lines of a text: each line keeps its ending and its visible characters,
and has no line feed but in its ending. The blank lines above have this ending. -/
structure Emits (ending : Ending) (lines : List (List Char × Ending)) (es : List Emission) :
    Prop where
  ending_eq : es.map (·.ending) = lines.map (·.2)
  visible_eq : es.map (fun e => visible e.content) = lines.map fun l => visible l.1
  feed_notMem : ∀ e ∈ es, '\n' ∉ e.content
  above_eq : ∀ e ∈ es, e.above = none ∨ e.above = some ending

namespace Emits

variable {ending : Ending} {lines : List (List Char × Ending)} {es : List Emission}

theorem cons (h : Emits ending lines es) {line : List Char × Ending} {e : Emission}
    (hending : e.ending = line.2) (hvisible : visible e.content = visible line.1)
    (hfeed : '\n' ∉ e.content) (habove : e.above = none ∨ e.above = some ending) :
    Emits ending (line :: lines) (e :: es) where
  ending_eq := by rw [List.map_cons, List.map_cons, hending, h.ending_eq]
  visible_eq := by rw [List.map_cons, List.map_cons, hvisible, h.visible_eq]
  feed_notMem e' he' := by
    rcases List.mem_cons.mp he' with rfl | he'
    · exact hfeed
    · exact h.feed_notMem e' he'
  above_eq e' he' := by
    rcases List.mem_cons.mp he' with rfl | he'
    · exact habove
    · exact h.above_eq e' he'

/-- A text emitted verbatim. -/
theorem verbatim {lines : List (List Char × Ending)} (h : Line.Canonical lines) :
    Emits ending lines (lines.map fun l => ⟨none, l.1, l.2⟩) := by
  induction lines with
  | nil => exact ⟨rfl, rfl, by simp, by simp⟩
  | cons line lines ih => exact (ih h.tail).cons rfl rfl h.feed_notMem (.inl rfl)

theorem visible_flatMap (h : Emits ending lines es) :
    visible (es.flatMap Emission.text) = lines.flatMap fun l => visible l.1 := by
  have hone : ∀ e ∈ es, visible e.text = visible e.content := by
    intro e he
    rw [Emission.text, visible_append, visible_append, Ending.visible_text, List.append_nil]
    rcases h.above_eq e he with habove | habove
    · rw [habove]
      rfl
    · rw [habove]
      exact congrArg (· ++ visible e.content) (Ending.visible_text ending)
  have hall : visible (es.flatMap Emission.text) = (es.map fun e => visible e.content).flatten := by
    clear h
    induction es with
    | nil => rfl
    | cons e es ih =>
        rw [List.flatMap_cons, visible_append, hone e (by simp), List.map_cons,
          List.flatten_cons, ih (fun e' he' => hone e' (by simp [he']))]
  rw [hall, h.visible_eq, List.flatMap_def]

end Emits

theorem Format.Output.emits {config : Config} {table : CaseTable} {ending : Ending}
    {rows : List ((OwnedLine × Nat) × Bool)} {lines : List (List Char × Ending)}
    (hcompiled : table.Compiled) (hwell : table.WellCased)
    (h : Output config table ending rows lines) {inside : Bool}
    {pieces : List (List Char × Ending)}
    (howned : Document.Owned inside pieces (rows.map (·.1.1)))
    (hcanon : Line.Canonical pieces) :
    ∃ es, Emits ending pieces es ∧ Line.join lines = es.flatMap Emission.text := by
  induction h generalizing inside pieces with
  | nil =>
      cases howned
      exact ⟨[], ⟨rfl, rfl, by simp, by simp⟩, rfl⟩
  | @line l level written rows lines hwritten _ ih =>
      cases howned with
      | cons _ howner hrest =>
          obtain ⟨es, hes, hjoin⟩ := ih hrest hcanon.tail
          have hkeeps := keeps_written hcompiled hwell hwritten
          refine ⟨⟨none, written, l.ending⟩ :: es, hes.cons rfl hkeeps.visible_eq
            (fun hm => hcanon.feed_notMem (hkeeps.feed_mem hm)) (.inl rfl), ?_⟩
          rw [Line.join_cons, hjoin, List.flatMap_cons]
          rfl
  | @insert l level written rows lines hwritten _ ih =>
      cases howned with
      | cons _ howner hrest =>
          obtain ⟨es, hes, hjoin⟩ := ih hrest hcanon.tail
          have hkeeps := keeps_written hcompiled hwell hwritten
          refine ⟨⟨some ending, written, l.ending⟩ :: es, hes.cons rfl hkeeps.visible_eq
            (fun hm => hcanon.feed_notMem (hkeeps.feed_mem hm)) (.inr rfl), ?_⟩
          rw [Line.join_cons, Line.join_cons, hjoin, List.flatMap_cons]
          simp [Emission.text]

/-- Formatting with a well-cased table loses, repeats and moves no visible character. The output
is one piece for each line, which ends with the ending of that line and has no other line feed,
with at most one ending of a blank line before it. -/
theorem format_preserves_visible (config : Config) (table : CaseTable) (text : List Char)
    (hconfig : config.problem? = none) (hcompiled : table.Compiled) (hwell : table.WellCased) :
    (byteLength text < Format.safeLength → ∃ out, format config table text = .ok out) ∧
      ∀ out, format config table text = .ok out →
        visible out.text = visible text ∧
          ∃ es, Emits (Line.dominantEnding (Line.split text))
              ((Line.split text).map fun l => (l.content, l.ending)) es ∧
            out.text = es.flatMap Emission.text := by
  refine ⟨exists_format hconfig table, fun out hout => ?_⟩
  have hpieces : ((Line.split text).map fun l => (l.content, l.ending)) = Line.pieces text := by
    rw [Line.split, Line.map_placeAfter]
    exact List.map_id _
  rw [hpieces]
  have hemits : ∃ es, Emits (Line.dominantEnding (Line.split text)) (Line.pieces text) es ∧
      out.text = es.flatMap Emission.text := by
    rcases format_ok hout with hsame | ⟨lines, hlines, htext⟩
    · refine ⟨_, .verbatim (Line.canonical_pieces text), ?_⟩
      conv_lhs => rw [hsame, ← Line.join_pieces text]
      rw [Line.join, List.flatMap_map]
      rfl
    · obtain ⟨es, hes, hjoin⟩ := hlines.emits hcompiled hwell (Format.owned_rows _ text)
        (Line.canonical_pieces text)
      exact ⟨es, hes, htext.trans hjoin⟩
  refine ⟨?_, hemits⟩
  obtain ⟨es, hes, hes_text⟩ := hemits
  rw [hes_text, hes.visible_flatMap, ← Line.visible_join, Line.join_pieces]

/-- The theorem at a page with a literal, a comment and glued tokens. -/
theorem format_preserves_visible_page :
    ({} : Config).problem? = none ∧ CaseTable.bundled.Compiled ∧ CaseTable.bundled.WellCased ∧
      ∃ out, format {} CaseTable.bundled
          "<%\nif X=1and y<>\"A  b\" then 'Is it\r\n  sub f _\n%>".toList = .ok out ∧
        (visible out.text).flatten = "<%ifx=1andy<>\"ab\"then'isitsubf_%>".toList := by
  obtain ⟨hexists, hall⟩ := format_preserves_visible {} CaseTable.bundled
    "<%\nif X=1and y<>\"A  b\" then 'Is it\r\n  sub f _\n%>".toList
    (by decide) CaseTable.compiled_bundled CaseTable.wellCased_bundled
  obtain ⟨out, hout⟩ := hexists (by decide +kernel)
  refine ⟨by decide, CaseTable.compiled_bundled, CaseTable.wellCased_bundled, out, hout, ?_⟩
  rw [(hall out hout).1]
  decide +kernel

end ClassicAsp
