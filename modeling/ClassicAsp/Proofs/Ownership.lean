import ClassicAsp.Document
import ClassicAsp.Proofs.Lines
import ClassicAsp.Proofs.Markers

/-! # Owners of lines

The owner of a line is found by comparing bytes of the line with bytes of regions. It depends on
the content of the line only, and on whether the line starts inside a region. -/

namespace ClassicAsp

namespace Text

theorem cutBytesFrom_snd (front front' : List Char) (n : Nat) (cs : List Char) :
    (cutBytesFrom front n cs).2 = (cutBytesFrom front' n cs).2 := by
  induction cs generalizing front front' n with
  | nil => rfl
  | cons c cs ih =>
      simp only [cutBytesFrom]
      split
      · rfl
      · exact ih _ _ _

theorem cutBytes_append_add (a rest : List Char) (n : Nat) :
    (cutBytes (byteLength a + n) (a ++ rest)).2 = (cutBytes n rest).2 := by
  induction a with
  | nil => simp
  | cons c a ih =>
      have hpos : c.utf8Size + byteLength a + n ≠ 0 := by
        have := c.utf8Size_pos
        omega
      have hsub : c.utf8Size + byteLength a + n - c.utf8Size = byteLength a + n := by omega
      rw [byteLength_cons, List.cons_append, cutBytes, cutBytesFrom, if_neg hpos, hsub,
        cutBytesFrom_snd _ [], ← cutBytes, ih]

end Text

namespace Region

/-! ## The regions around a position -/

theorem regionsFrom_map_text (opened : Option Nat) (pos : Nat) (text : List Char)
    (ms : List Mark) :
    regionsFrom opened pos (text.map .text ++ ms) =
      regionsFrom opened (pos + Text.byteLength text) ms := by
  induction text generalizing pos with
  | nil => rfl
  | cons c text ih =>
      rw [List.map_cons, List.cons_append, regionsFrom, ih, Text.byteLength_cons, Nat.add_assoc]

/-- Regions do not start before the one that the scan is in, or before the scan. -/
theorem le_start_regionsFrom (opened : Option Nat) (pos : Nat) (ms : List Mark)
    (h : ∀ start, opened = some start → start ≤ pos) :
    ∀ r ∈ regionsFrom opened pos ms, opened.getD pos ≤ r.start := by
  induction ms generalizing opened pos with
  | nil => cases opened <;> simp [regionsFrom]
  | cons m ms ih =>
      cases m with
      | text c =>
          intro r hr
          have hle := ih opened (pos + c.utf8Size)
            (fun start hs => Nat.le_add_right_of_le (h start hs)) r hr
          cases opened with
          | none => exact Nat.le_trans (Nat.le_add_right _ _) hle
          | some start => exact hle
      | marker =>
          cases opened with
          | none =>
              intro r hr
              exact ih (some pos) (pos + markerLength) (by simp) r hr
          | some start =>
              intro r hr
              rcases List.mem_cons.mp hr with rfl | hr
              · exact Nat.le_refl start
              · have hs := h start rfl
                have hle := ih none (pos + markerLength) (by simp) r hr
                simp only [Option.getD_none] at hle
                exact Nat.le_trans hs (Nat.le_trans (Nat.le_add_right _ _) hle)

theorem le_start_regionsFrom_none {pos : Nat} {ms : List Mark} {r : Region}
    (h : r ∈ regionsFrom none pos ms) : pos ≤ r.start :=
  le_start_regionsFrom none pos ms (by simp) r h

/-- The region that a scan is in comes first. It ends after the scan, with room for its closing
marker if it has one, and the others start after it. -/
theorem regionsFrom_some (start pos : Nat) (ms : List Mark) :
    ∃ stop terminated regions,
      regionsFrom (some start) pos ms = ⟨start, stop, terminated⟩ :: regions ∧
      pos + (if terminated then markerLength else 0) ≤ stop ∧
      ∀ r ∈ regions, pos + markerLength ≤ r.start := by
  induction ms generalizing pos with
  | nil => exact ⟨pos, false, [], rfl, by simp, by simp⟩
  | cons m ms ih =>
      cases m with
      | text c =>
          obtain ⟨stop, terminated, regions, he, hstop, hr⟩ := ih (pos + c.utf8Size)
          refine ⟨stop, terminated, regions, he, by omega, ?_⟩
          intro r hmem
          have := hr r hmem
          omega
      | marker =>
          refine ⟨pos + markerLength, true, _, rfl, by simp, ?_⟩
          intro r hmem
          exact le_start_regionsFrom_none hmem

theorem takeWhile_start_eq_nil {regions : List Region} {stop : Nat}
    (h : ∀ r ∈ regions, stop ≤ r.start) : regions.takeWhile (·.start < stop) = [] := by
  cases regions with
  | nil => rfl
  | cons r regions => simp [Nat.not_lt.mpr (h r (by simp))]

/-! ## Fragments -/

/-- A run of characters as a list of fragments: none if it is empty. -/
def fragment (run : List Char) : List (List Char) := if run.isEmpty then [] else [run]

/-- The runs of characters of a row that are inside regions, where the optional text is the start
of the run that the scan is in. -/
def runs : Option (List Char) → List Mark → List (List Char)
  | none, .text _ :: ms => runs none ms
  | some run, .text c :: ms => runs (some (run ++ [c])) ms
  | none, .marker :: ms => runs (some []) ms
  | some run, .marker :: ms => fragment run ++ runs none ms
  | none, [] => []
  | some run, [] => fragment run

theorem runs_none_map_text (text : List Char) (ms : List Mark) :
    runs none (text.map .text ++ ms) = runs none ms := by
  induction text with
  | nil => rfl
  | cons c text ih => rw [List.map_cons, List.cons_append, runs, ih]

theorem runs_some_map_text (run text : List Char) (ms : List Mark) :
    runs (some run) (text.map .text ++ ms) = runs (some (run ++ text)) ms := by
  induction text generalizing run with
  | nil => rw [List.append_nil]; rfl
  | cons c text ih =>
      rw [List.map_cons, List.cons_append, runs, ih, List.append_assoc]
      rfl

/-- Induction over a row from marker to marker. -/
theorem row_induction {motive : List Mark → Prop}
    (texts : ∀ text : List Char, motive (text.map .text))
    (marker : ∀ (text : List Char) (ms : List Mark), motive ms →
      motive (text.map .text ++ .marker :: ms))
    (ms : List Mark) : motive ms := by
  have hfront : ∀ front : List Char, motive (front.map .text ++ ms) := by
    induction ms with
    | nil => intro front; simpa using texts front
    | cons m ms ih =>
        intro front
        cases m with
        | text c => simpa using ih (front ++ [c])
        | marker => exact marker front ms (by simpa using ih [])
  simpa using hfront []

end Region

open Region

/-- Text in front of all regions is passed over. -/
theorem Line.fragmentsAfter_skip {done : List (List Char)} {pos stop : Nat}
    {a rest : List Char} {regions : List Region}
    (h : ∀ r ∈ regions, pos + Text.byteLength a ≤ r.innerStart) :
    fragmentsAfter done pos stop (a ++ rest) regions =
      fragmentsAfter done (pos + Text.byteLength a) stop rest regions := by
  induction regions with
  | nil => rfl
  | cons r regions ih =>
      have hr := h r (by simp)
      have hcut : (Text.cutBytes (r.innerStart - pos) (a ++ rest)).2 =
          (Text.cutBytes (r.innerStart - (pos + Text.byteLength a)) rest).2 := by
        have he : r.innerStart - pos =
            Text.byteLength a + (r.innerStart - (pos + Text.byteLength a)) := by omega
        rw [he, Text.cutBytes_append_add]
      have hmax : max r.innerStart pos = r.innerStart := by omega
      have hmax' : max r.innerStart (pos + Text.byteLength a) = r.innerStart := by omega
      simp only [fragmentsAfter, hmax, hmax', hcut]
      split
      · rfl
      · exact ih (fun s hs => h s (by simp [hs]))

/-- A run inside the region that the scan is in becomes a fragment. -/
theorem Line.fragmentsAfter_run {done : List (List Char)} {pos stop : Nat} {run rest : List Char}
    {region : Region} {regions : List Region} (hstart : region.innerStart ≤ pos)
    (hstop : min region.innerStop stop = pos + Text.byteLength run) :
    fragmentsAfter done pos stop (run ++ rest) (region :: regions) =
      fragmentsAfter ((fragment run).reverse ++ done) (pos + Text.byteLength run) stop rest
        regions := by
  have hmax : max region.innerStart pos = pos := by omega
  simp only [fragmentsAfter, hmax, hstop, Nat.sub_self, Nat.add_sub_cancel_left]
  have hzero : (Text.cutBytes 0 (run ++ rest)).2 = run ++ rest := by
    rw [← Text.byteLength_nil]
    exact congrArg Prod.snd (Text.cutBytes_append [] (run ++ rest))
  rw [hzero, Text.cutBytes_append]
  cases run with
  | nil => simp [fragment]
  | cons c run =>
      have hpos : 0 < Text.byteLength (c :: run) := by
        have := c.utf8Size_pos
        rw [Text.byteLength_cons]
        omega
      rw [if_pos (Nat.lt_add_of_pos_right hpos)]
      simp [fragment]

/-- The fragments of a line are the runs of its row inside regions. -/
theorem Line.fragmentsAfter_eq (tail ms : List Mark) :
    ∀ (opened : Option Nat) (pos stop : Nat) (done : List (List Char)),
      (∀ start, opened = some start → start + markerLength ≤ pos) →
      stop = pos + Text.byteLength (unmark opened.isSome ms) →
      fragmentsAfter done pos stop (unmark opened.isSome ms)
          ((regionsFrom opened pos (ms ++ tail)).takeWhile (·.start < stop)) =
        done.reverse ++ runs (opened.map fun _ => []) ms := by
  induction ms using row_induction with
  | texts text =>
      intro opened pos stop done hopened hstop
      rw [unmark_map_text] at hstop ⊢
      rw [regionsFrom_map_text, ← hstop]
      cases opened with
      | none =>
          rw [takeWhile_start_eq_nil (fun r hr => le_start_regionsFrom_none hr)]
          have hruns := runs_none_map_text text []
          rw [List.append_nil] at hruns
          simp [fragmentsAfter, hruns, runs]
      | some start =>
          obtain ⟨last, terminated, regions, he, hlast, hregions⟩ :=
            regionsFrom_some start stop tail
          have hs := hopened start rfl
          have hlt : start < stop := by simp only [markerLength] at hs; omega
          have hnil : regions.takeWhile (·.start < stop) = [] :=
            takeWhile_start_eq_nil (fun r hr => by have := hregions r hr; omega)
          rw [he, List.takeWhile_cons_of_pos (by simpa using hlt), hnil]
          have hmin : min (Region.innerStop ⟨start, last, terminated⟩) stop =
              pos + Text.byteLength text := by
            rw [← hstop]
            cases terminated <;>
              simp only [innerStop, innerStart, markerLength, if_true, if_false,
                Bool.false_eq_true] at * <;> omega
          have hinner : Region.innerStart ⟨start, last, terminated⟩ ≤ pos := hs
          have hrun : fragmentsAfter done pos stop (text ++ []) [⟨start, last, terminated⟩] = _ :=
            fragmentsAfter_run hinner hmin
          rw [List.append_nil] at hrun
          have hruns := runs_some_map_text [] text []
          rw [List.append_nil] at hruns
          rw [hrun]
          simp [fragmentsAfter, hruns, runs]
  | marker text ms ih =>
      intro opened pos stop done hopened hstop
      cases opened with
      | none =>
          rw [Option.isSome_none, unmark_map_text_append, unmark] at hstop ⊢
          rw [List.append_assoc, regionsFrom_map_text, List.cons_append, regionsFrom]
          have hpos : pos + Text.byteLength text + markerLength =
              pos + Text.byteLength (text ++ ['<', '%']) := by
            rw [Text.byteLength_append, byteLength_opening, Nat.add_assoc]
          have hstop' : stop = pos + Text.byteLength text + markerLength +
              Text.byteLength (unmark (some (pos + Text.byteLength text)).isSome ms) := by
            rw [hstop, hpos, Nat.add_assoc, ← Text.byteLength_append]
            simp
          have hskip : ∀ r ∈ (regionsFrom (some (pos + Text.byteLength text))
              (pos + Text.byteLength text + markerLength) (ms ++ tail)).takeWhile (·.start < stop),
              pos + Text.byteLength (text ++ ['<', '%']) ≤ r.innerStart := by
            intro r hr
            have hle := le_start_regionsFrom _ _ _ (by simp) r
              ((List.takeWhile_sublist _).subset hr)
            rw [← hpos]
            exact Nat.add_le_add_right hle markerLength
          have hsplit : text ++ '<' :: '%' :: unmark true ms =
              (text ++ ['<', '%']) ++ unmark true ms := by simp
          rw [hsplit, fragmentsAfter_skip hskip, ← hpos, Option.map_none, runs_none_map_text]
          exact ih (some (pos + Text.byteLength text)) _ stop done (by simp) hstop'
      | some start =>
          rw [Option.isSome_some, unmark_map_text_append, unmark] at hstop ⊢
          rw [List.append_assoc, regionsFrom_map_text, List.cons_append, regionsFrom]
          have hs := hopened start rfl
          have hpos : pos + Text.byteLength text + markerLength =
              pos + Text.byteLength text + Text.byteLength ['%', '>'] := by
            rw [byteLength_closing]
          have hstop' : stop = pos + Text.byteLength text + markerLength +
              Text.byteLength (unmark (none : Option Nat).isSome ms) := by
            rw [hstop, hpos, Nat.add_assoc, Nat.add_assoc, ← Text.byteLength_append,
              ← Text.byteLength_append]
            simp
          have hlt : start < stop := by simp only [markerLength] at hs hstop'; omega
          have hmin : min (Region.innerStop
              ⟨start, pos + Text.byteLength text + markerLength, true⟩) stop =
              pos + Text.byteLength text := by
            simp only [innerStop, innerStart, if_true, markerLength] at hs hstop' ⊢
            omega
          have hskip : ∀ r ∈ (regionsFrom none (pos + Text.byteLength text + markerLength)
              (ms ++ tail)).takeWhile (·.start < stop),
              pos + Text.byteLength text + Text.byteLength ['%', '>'] ≤ r.innerStart := by
            intro r hr
            have hle := le_start_regionsFrom_none ((List.takeWhile_sublist _).subset hr)
            rw [← hpos]
            exact Nat.le_add_right_of_le hle
          have hsplit : '%' :: '>' :: unmark false ms = ['%', '>'] ++ unmark false ms := rfl
          rw [List.takeWhile_cons_of_pos (by simpa using hlt), fragmentsAfter_run hs hmin, hsplit,
            fragmentsAfter_skip hskip, ← hpos]
          have hih := ih none _ stop ((fragment text).reverse ++ done) (by simp) hstop'
          rw [Option.isSome_none] at hih
          rw [hih, Option.map_some, runs_some_map_text, List.nil_append, runs]
          simp

/-! ## The owner of a line -/

/-- The owner of a line by its content, when the line starts inside a region or not. -/
def Owner.ofContent (inside : Bool) (content : List Char) : Owner :=
  if .marker ∈ marks inside content then
    .marker (runs (if inside then some [] else none) (marks inside content))
  else if inside then .body (Statement.Form.comment.holds (Text.trim content))
  else .markup

theorem byteLength_unmark_marker (inside : Bool) (ms : List Mark) :
    Text.byteLength (unmark inside (.marker :: ms)) =
      markerLength + Text.byteLength (unmark (!inside) ms) := by
  cases inside with
  | false => rw [unmark, ← byteLength_opening, ← Text.byteLength_append]; rfl
  | true => rw [unmark, ← byteLength_closing, ← Text.byteLength_append]; rfl

theorem exists_marker_split {ms : List Mark} (h : .marker ∈ ms) :
    ∃ (text : List Char) (rest : List Mark), ms = text.map .text ++ .marker :: rest := by
  induction ms with
  | nil => simp at h
  | cons m ms ih =>
      cases m with
      | text c =>
          obtain ⟨text, rest, rfl⟩ := ih (by simpa using h)
          exact ⟨c :: text, rest, rfl⟩
      | marker => exact ⟨[], ms, rfl⟩

/-- The first region of a row with a marker starts in the row and does not hold all of it. -/
theorem exists_region_of_marker {opened : Option Nat} {pos stop : Nat} {ms : List Mark}
    (hm : .marker ∈ ms) (tail : List Mark)
    (hopened : ∀ start, opened = some start → start + markerLength ≤ pos)
    (hstop : stop = pos + Text.byteLength (unmark opened.isSome ms)) :
    ∃ region regions, regionsFrom opened pos (ms ++ tail) = region :: regions ∧
      region.start < stop ∧ ¬(region.innerStart ≤ pos ∧ stop ≤ region.innerStop) := by
  obtain ⟨text, rest, rfl⟩ := exists_marker_split hm
  rw [unmark_map_text_append, Text.byteLength_append] at hstop
  rw [List.append_assoc, regionsFrom_map_text, List.cons_append]
  cases opened with
  | none =>
      rw [byteLength_unmark_marker] at hstop
      obtain ⟨last, terminated, regions, he, -, -⟩ := regionsFrom_some
        (pos + Text.byteLength text) (pos + Text.byteLength text + markerLength) (rest ++ tail)
      rw [regionsFrom, he]
      refine ⟨_, _, rfl, ?_, ?_⟩
      · show pos + Text.byteLength text < stop
        simp only [markerLength] at hstop
        omega
      · simp only [innerStart, markerLength]
        omega
  | some start =>
      rw [byteLength_unmark_marker] at hstop
      have hs := hopened start rfl
      rw [regionsFrom]
      refine ⟨_, _, rfl, ?_, ?_⟩
      · show start < stop
        simp only [markerLength] at hs
        omega
      · simp only [innerStop, innerStart, markerLength, if_true] at hs hstop ⊢
        omega

/-- A line owns the fragments of the regions that start before its end, unless there is only one
and the line is inside it. -/
theorem Line.owner_of_marker {line : Line} {region : Region} {regions : List Region}
    (hfirst : region.start < max line.stop (line.offset + 1))
    (hout : ¬(region.innerStart ≤ line.offset ∧ line.stop ≤ region.innerStop)) :
    line.owner (region :: regions) = .marker (line.fragmentsIn
      ((region :: regions).takeWhile (·.start < max line.stop (line.offset + 1)))) := by
  simp only [Line.owner]
  rw [List.takeWhile_cons_of_pos (by simpa using hfirst)]
  split
  · next hnil => cases hnil
  · next first hone =>
      obtain ⟨rfl, hnil⟩ := List.cons.inj hone
      rw [if_neg (by simpa using hout), hnil]
  · rfl

/-- A line between markers has the region around it as the only one that starts before its end. -/
theorem Line.owner_of_body {line : Line} {region : Region} {regions : List Region}
    (hfirst : region.start < max line.stop (line.offset + 1))
    (hothers : ∀ r ∈ regions, max line.stop (line.offset + 1) ≤ r.start)
    (hin : region.innerStart ≤ line.offset) (hstop : line.stop ≤ region.innerStop) :
    line.owner (region :: regions) = .body (Statement.Form.comment.holds line.trimmed) := by
  simp only [Line.owner]
  rw [List.takeWhile_cons_of_pos (by simpa using hfirst), takeWhile_start_eq_nil hothers]
  simp [hin, hstop]

theorem Line.owner_of_markup {line : Line} {regions : List Region}
    (h : ∀ r ∈ regions, max line.stop (line.offset + 1) ≤ r.start) :
    line.owner regions = .markup := by
  simp only [Line.owner, takeWhile_start_eq_nil h]

theorem Line.offset_lt_stop {line : Line} (h : line.content ≠ []) : line.offset < line.stop := by
  cases hc : line.content with
  | nil => exact absurd hc h
  | cons c cs =>
      have := c.utf8Size_pos
      simp only [Line.stop, hc, Text.byteLength_cons]
      omega

/-- What follows an empty line starts with a character of its ending, which counts for it. -/
theorem Line.le_start_after {line : Line} {tail : List Mark}
    (htail : line.content = [] → ∃ c rest, tail = .text c :: rest) {r : Region}
    (hr : r ∈ regionsFrom none line.stop tail) : max line.stop (line.offset + 1) ≤ r.start := by
  by_cases hnil : line.content = []
  · obtain ⟨c, rest, rfl⟩ := htail hnil
    rw [regionsFrom] at hr
    have hle := le_start_regionsFrom_none hr
    have hpos := c.utf8Size_pos
    have hstop : line.stop = line.offset := by simp [Line.stop, hnil]
    omega
  · have hlt := Line.offset_lt_stop hnil
    have hle := le_start_regionsFrom_none hr
    omega

/-- The owner of a line whose row is followed by `tail`, given the regions from its start on. -/
theorem Line.owner_eq {line : Line} {opened : Option Nat} {tail : List Mark}
    (hopened : ∀ start, opened = some start → start + markerLength ≤ line.offset)
    (htail : line.content = [] → ∃ c rest, tail = .text c :: rest) :
    line.owner (regionsFrom opened line.offset (marks opened.isSome line.content ++ tail)) =
      Owner.ofContent opened.isSome line.content := by
  have hunmark := unmark_marks opened.isSome line.content
  by_cases hm : .marker ∈ marks opened.isSome line.content
  · have hstop : line.stop = line.offset +
        Text.byteLength (unmark opened.isSome (marks opened.isSome line.content)) := by
      rw [hunmark]
      rfl
    have hne : line.content ≠ [] := by
      intro hnil
      simp [hnil] at hm
    have hmax : max line.stop (line.offset + 1) = line.stop := by
      have := Line.offset_lt_stop hne
      omega
    obtain ⟨region, regions, he, hfirst, hout⟩ := exists_region_of_marker hm tail hopened hstop
    have hfragments := fragmentsAfter_eq tail _ opened line.offset line.stop [] hopened hstop
    have hruns : (opened.map fun _ => ([] : List Char)) =
        if opened.isSome then some [] else none := by
      cases opened <;> rfl
    rw [hunmark, hruns] at hfragments
    rw [Owner.ofContent, if_pos hm, he, owner_of_marker (by omega) hout, hmax, ← he]
    exact congrArg Owner.marker hfragments
  · rw [Owner.ofContent, if_neg hm, marks_eq_map_text hm, regionsFrom_map_text]
    have hstop : line.offset + Text.byteLength line.content = line.stop := rfl
    rw [hstop]
    cases opened with
    | none => exact owner_of_markup (fun r hr => Line.le_start_after htail hr)
    | some start =>
        obtain ⟨last, terminated, regions, he, hlast, hregions⟩ :=
          regionsFrom_some start line.stop tail
        have hs := hopened start rfl
        rw [he]
        refine owner_of_body ?_ ?_ hs ?_
        · show start < _
          simp only [markerLength] at hs
          omega
        · intro r hr
          have := hregions r hr
          simp only [Line.stop, markerLength] at this ⊢
          omega
        · cases terminated <;>
            simp only [innerStop, innerStart, markerLength, if_true, if_false,
              Bool.false_eq_true] at hlast ⊢ <;> omega

/-! ## The lines of a document -/

namespace Region

/-- Where the region starts that the scan is in after a row. -/
def openedAfter : Option Nat → Nat → List Mark → Option Nat
  | opened, _, [] => opened
  | opened, pos, .text c :: ms => openedAfter opened (pos + c.utf8Size) ms
  | none, pos, .marker :: ms => openedAfter (some pos) (pos + markerLength) ms
  | some _, pos, .marker :: ms => openedAfter none (pos + markerLength) ms

theorem isSome_openedAfter (opened : Option Nat) (pos : Nat) (ms : List Mark) :
    (openedAfter opened pos ms).isSome = leads opened.isSome ms := by
  induction ms generalizing opened pos with
  | nil => rfl
  | cons m ms ih =>
      cases m with
      | text c => exact ih opened _
      | marker => cases opened <;> exact ih _ _

theorem openedAfter_le {opened : Option Nat} {pos : Nat} {ms : List Mark} {start : Nat}
    (h : ∀ start, opened = some start → start + markerLength ≤ pos)
    (hs : openedAfter opened pos ms = some start) :
    start + markerLength ≤ pos + Text.byteLength (unmark opened.isSome ms) := by
  induction ms generalizing opened pos with
  | nil => exact h start hs
  | cons m ms ih =>
      cases m with
      | text c =>
          have := ih (fun start hs => Nat.le_add_right_of_le (h start hs)) hs
          rw [unmark, Text.byteLength_cons]
          omega
      | marker =>
          rw [byteLength_unmark_marker]
          cases opened with
          | none =>
              have := ih (by simp) hs
              simp only [Option.isSome_none, Option.isSome_some, Bool.not_false] at this ⊢
              omega
          | some first =>
              have := ih (by simp) hs
              simp only [Option.isSome_none, Option.isSome_some, Bool.not_true] at this ⊢
              omega

/-- The regions that end after a row are those from its end on. -/
theorem dropWhile_regionsFrom_append (opened : Option Nat) (pos stop : Nat) (ms ms' : List Mark)
    (hstop : stop = pos + Text.byteLength (unmark opened.isSome ms)) :
    (regionsFrom opened pos (ms ++ ms')).dropWhile (·.stop ≤ stop) =
      (regionsFrom (openedAfter opened pos ms) stop ms').dropWhile (·.stop ≤ stop) := by
  induction ms generalizing opened pos with
  | nil =>
      obtain rfl : stop = pos := hstop
      rfl
  | cons m ms ih =>
      cases m with
      | text c =>
          rw [unmark, Text.byteLength_cons] at hstop
          exact ih opened _ (by omega)
      | marker =>
          rw [byteLength_unmark_marker] at hstop
          cases opened with
          | none => exact ih (some pos) _ (by rw [hstop]; exact (Nat.add_assoc _ _ _).symm)
          | some start =>
              have hle : pos + markerLength ≤ stop := by omega
              rw [List.cons_append, regionsFrom,
                List.dropWhile_cons_of_pos (by simpa using hle)]
              exact ih none _ (by rw [hstop]; exact (Nat.add_assoc _ _ _).symm)

/-- Regions end after the scan, unless it is in one at the end of the text. -/
theorem lt_stop_regionsFrom {opened : Option Nat} {pos : Nat} {ms : List Mark} {r : Region}
    (hr : r ∈ regionsFrom opened pos ms) (h : opened = none ∨ ms ≠ []) : pos < r.stop := by
  induction ms generalizing opened pos with
  | nil =>
      rcases h with rfl | h
      · simp [regionsFrom] at hr
      · exact absurd rfl h
  | cons m ms ih =>
      cases m with
      | text c =>
          have hpos := c.utf8Size_pos
          by_cases hlast : opened = none ∨ ms ≠ []
          · have := ih hr hlast
            omega
          · simp only [not_or, not_not] at hlast
            obtain ⟨hne, rfl⟩ := hlast
            obtain ⟨start, rfl⟩ := Option.ne_none_iff_exists'.mp hne
            simp only [regionsFrom, List.mem_singleton] at hr
            simp only [hr]
            omega
      | marker =>
          cases opened with
          | none =>
              by_cases hlast : ms = []
              · subst hlast
                simp only [regionsFrom, List.mem_singleton] at hr
                simp only [hr, markerLength]
                omega
              · have := ih hr (.inr hlast)
                omega
          | some start =>
              rcases List.mem_cons.mp hr with rfl | hr
              · simp only [markerLength]
                omega
              · have := ih hr (.inl rfl)
                omega

theorem dropWhile_regionsFrom {opened : Option Nat} {pos : Nat} {ms : List Mark}
    (h : opened = none ∨ ms ≠ []) :
    (regionsFrom opened pos ms).dropWhile (·.stop ≤ pos) = regionsFrom opened pos ms := by
  cases hr : regionsFrom opened pos ms with
  | nil => rfl
  | cons r regions =>
      have hlt : pos < r.stop := lt_stop_regionsFrom (hr ▸ List.mem_cons_self) h
      rw [List.dropWhile_cons_of_neg (by simpa using hlt)]

end Region

/-- Lines from an index and a byte on, owned by their content and the side of the markers that
the first of them starts on. -/
def Document.linesFrom (inside : Bool) (index offset : Nat) :
    List (List Char × Ending) → List OwnedLine
  | [] => []
  | (content, ending) :: rest =>
    { index, content, ending, offset, owner := Owner.ofContent inside content } ::
      linesFrom (leads inside (marks inside content)) (index + 1)
        (offset + Text.byteLength content + Text.byteLength ending.text) rest

theorem Line.placeAfter_eq (done : List Line) (index offset : Nat)
    (lines : List (List Char × Ending)) :
    placeAfter done index offset lines = done.reverse ++ placeAfter [] index offset lines := by
  induction lines generalizing done index offset with
  | nil => simp [placeAfter]
  | cons line lines ih =>
      rw [placeAfter, ih, placeAfter, ih [_]]
      simp

theorem Line.placeAfter_cons (index offset : Nat) (content : List Char) (ending : Ending)
    (lines : List (List Char × Ending)) :
    placeAfter [] index offset ((content, ending) :: lines) =
      ⟨index, content, ending, offset⟩ :: placeAfter [] (index + 1)
        (offset + Text.byteLength content + Text.byteLength ending.text) lines := by
  rw [placeAfter, placeAfter_eq]
  rfl

theorem Line.map_placeAfter {α : Type} (f : List Char → Ending → α) (index offset : Nat)
    (pieces : List (List Char × Ending)) :
    (placeAfter [] index offset pieces).map (fun l => f l.content l.ending) =
      pieces.map fun p => f p.1 p.2 := by
  induction pieces generalizing index offset with
  | nil => rfl
  | cons piece pieces ih =>
      obtain ⟨content, ending⟩ := piece
      rw [placeAfter_cons, List.map_cons, ih, List.map_cons]

theorem Line.length_split (text : List Char) : (split text).length = (pieces text).length := by
  have h := congrArg List.length (map_placeAfter (fun _ _ => ()) 0 0 (pieces text))
  rwa [List.length_map, List.length_map] at h

/-- Owners assigned line by line, with the regions that end after the start of the lines. -/
theorem Document.ownAfter_eq {lines : List (List Char × Ending)} (hlines : Line.Canonical lines) :
    ∀ (done : List OwnedLine) (regions : List Region) (opened : Option Nat) (index offset : Nat),
      (∀ start, opened = some start → start + markerLength ≤ offset) →
      regions.dropWhile (·.stop ≤ offset) =
        (regionsFrom opened offset (marks opened.isSome (Line.join lines))).dropWhile
          (·.stop ≤ offset) →
      ownAfter done regions (Line.placeAfter [] index offset lines) =
        done.reverse ++ linesFrom opened.isSome index offset lines := by
  induction hlines with
  | nil =>
      intro done regions opened index offset _ _
      simp [Line.placeAfter, ownAfter, linesFrom]
  | @last content hne hfeed =>
      intro done regions opened index offset hopened hregions
      have hmarks : marks opened.isSome (Line.join [(content, .none)]) =
          marks opened.isSome content ++ [] := by
        simp [Ending.text]
      have hnil : marks opened.isSome content ++ [] ≠ [] := by
        intro hm
        apply hne
        rw [← unmark_marks opened.isSome content, ← List.append_nil (marks _ content), hm]
        rfl
      rw [hmarks, dropWhile_regionsFrom (.inr hnil)] at hregions
      rw [Line.placeAfter_cons, ownAfter, hregions, Line.owner_eq hopened (fun h => absurd h hne)]
      simp [Line.placeAfter, ownAfter, linesFrom]
  | @line content ending lines hending hfeed hcr _ ih =>
      intro done regions opened index offset hopened hregions
      have hmarks : marks opened.isSome (Line.join ((content, ending) :: lines)) =
          marks opened.isSome content ++ (ending.text.map .text ++
            marks (leads opened.isSome (marks opened.isSome content)) (Line.join lines)) :=
        marks_line content hending _
      obtain ⟨c, cs, hc⟩ : ∃ c cs, ending.text = c :: cs := by
        cases ending with
        | none => exact absurd rfl hending
        | lf => exact ⟨_, _, rfl⟩
        | crlf => exact ⟨_, _, rfl⟩
      rw [hmarks, dropWhile_regionsFrom (.inr (by simp [hc]))] at hregions
      rw [Line.placeAfter_cons, ownAfter, hregions,
        Line.owner_eq hopened (fun _ => ⟨c, _, by rw [hc]; rfl⟩)]
      have hrow : Text.byteLength (unmark opened.isSome
          (marks opened.isSome content ++ ending.text.map .text)) =
          Text.byteLength content + Text.byteLength ending.text := by
        rw [unmark_append, unmark_marks, unmark_map_text, Text.byteLength_append]
      have hleads : (openedAfter opened offset
          (marks opened.isSome content ++ ending.text.map .text)).isSome =
          leads opened.isSome (marks opened.isSome content) := by
        rw [isSome_openedAfter, leads_append, leads_map_text]
      rw [ih _ _ (openedAfter opened offset (marks opened.isSome content ++ ending.text.map .text)),
        hleads, linesFrom]
      · simp
      · intro start hs
        have := openedAfter_le hopened hs
        omega
      · rw [← List.append_assoc, hleads]
        exact dropWhile_regionsFrom_append opened offset _ _ _ (by omega)

/-- The lines of a document, owned by their content. -/
theorem Document.lines_ofText (text : List Char) :
    (ofText text).lines = linesFrom false 0 0 (Line.pieces text) := by
  have h := ownAfter_eq (Line.canonical_pieces text) [] (detect text) none 0 0 (by simp)
    (by rw [detect_eq, Line.join_pieces]; rfl)
  exact h

end ClassicAsp
