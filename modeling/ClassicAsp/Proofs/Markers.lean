import ClassicAsp.Line
import ClassicAsp.Region
import Mathlib.Data.List.Basic

/-! # Markers

A scan for regions sees a text as a row of markers and other characters. What it finds depends on
this row only, and the row of a line on the line and the side of the markers that it starts on. -/

namespace ClassicAsp

/-! ## Cuts at byte positions -/

namespace Text

theorem cutBytesFrom_append (front a b : List Char) :
    cutBytesFrom front (byteLength a) (a ++ b) = (front.reverse ++ a, b) := by
  induction a generalizing front with
  | nil => cases b <;> simp [cutBytesFrom]
  | cons c a ih =>
      have hpos : c.utf8Size + byteLength a ≠ 0 := by
        have := c.utf8Size_pos
        omega
      rw [byteLength_cons, List.cons_append, cutBytesFrom, if_neg hpos, Nat.add_sub_cancel_left, ih]
      simp

theorem cutBytes_append (a b : List Char) : cutBytes (byteLength a) (a ++ b) = (a, b) :=
  cutBytesFrom_append [] a b

/-- The slice between two cuts of a concatenation. -/
theorem byteSlice_append (a b c : List Char) :
    byteSlice (byteLength a) (byteLength a + byteLength b) (a ++ (b ++ c)) = b := by
  rw [byteSlice, cutBytes_append, Nat.add_sub_cancel_left, cutBytes_append]

end Text

namespace Region

/-! ## The markers of a text -/

/-- What a scan meets: the marker that it looks for, or a character that is no part of it. -/
inductive Mark where
  | text (c : Char)
  | marker
  deriving DecidableEq, Repr

/-- The row of markers and other characters of a text that starts inside a region or not. -/
def marks : Bool → List Char → List Mark
  | false, '<' :: '%' :: rest => .marker :: marks true rest
  | true, '%' :: '>' :: rest => .marker :: marks false rest
  | inside, c :: rest => .text c :: marks inside rest
  | _, [] => []

/-- The text of a row. -/
def unmark : Bool → List Mark → List Char
  | _, [] => []
  | inside, .text c :: ms => c :: unmark inside ms
  | false, .marker :: ms => '<' :: '%' :: unmark true ms
  | true, .marker :: ms => '%' :: '>' :: unmark false ms

/-- Is the scan inside a region after a row? -/
def leads : Bool → List Mark → Bool
  | inside, [] => inside
  | inside, .text _ :: ms => leads inside ms
  | inside, .marker :: ms => leads (!inside) ms

@[simp] theorem marks_nil (inside : Bool) : marks inside [] = [] := by
  cases inside <;> rfl

theorem unmark_marks (inside : Bool) (text : List Char) :
    unmark inside (marks inside text) = text := by
  fun_induction marks inside text with
  | case1 rest ih => rw [unmark, ih]
  | case2 rest ih => rw [unmark, ih]
  | case3 inside c rest _ _ ih => rw [unmark, ih]
  | case4 => rfl

@[simp] theorem unmark_map_text (inside : Bool) (text : List Char) :
    unmark inside (text.map .text) = text := by
  induction text with
  | nil => rfl
  | cons c text ih => rw [List.map_cons, unmark, ih]

theorem unmark_append (inside : Bool) (ms ms' : List Mark) :
    unmark inside (ms ++ ms') = unmark inside ms ++ unmark (leads inside ms) ms' := by
  induction ms generalizing inside with
  | nil => rfl
  | cons m ms ih =>
      cases m with
      | text c => simp [unmark, leads, ih]
      | marker => cases inside <;> simp [unmark, leads, ih]

@[simp] theorem leads_map_text (inside : Bool) (text : List Char) :
    leads inside (text.map .text) = inside := by
  induction text with
  | nil => rfl
  | cons c text ih => rw [List.map_cons, leads, ih]

theorem unmark_map_text_append (inside : Bool) (text : List Char) (ms : List Mark) :
    unmark inside (text.map .text ++ ms) = text ++ unmark inside ms := by
  rw [unmark_append, unmark_map_text, leads_map_text]

theorem leads_append (inside : Bool) (ms ms' : List Mark) :
    leads inside (ms ++ ms') = leads (leads inside ms) ms' := by
  induction ms generalizing inside with
  | nil => rfl
  | cons m ms ih => cases m <;> simp [leads, ih]

theorem marks_of_not_hasClosing {text : List Char} (h : hasClosing text = false) :
    marks true text = text.map .text := by
  fun_induction hasClosing text with
  | case1 => cases h
  | case2 => rfl
  | case3 c rest hc ih =>
      rw [marks, ih h, List.map_cons]
      · simp
      · intro rest' _ hlt hrest
        exact hc rest' hlt hrest

/-- Inside a region a text without markers is a text without closing markers. -/
theorem hasClosing_of_marker_notMem {text : List Char} (h : .marker ∉ marks true text) :
    hasClosing text = false := by
  fun_induction hasClosing text with
  | case1 => simp [marks] at h
  | case2 => rfl
  | case3 c rest hc ih =>
      rw [marks] at h
      · exact ih (fun hm => h (List.mem_cons_of_mem _ hm))
      · simp
      · intro rest' _ hlt hrest
        exact hc rest' hlt hrest

/-- A row without markers holds the characters of the text. -/
theorem marks_eq_map_text {inside : Bool} {text : List Char}
    (h : .marker ∉ marks inside text) : marks inside text = text.map .text := by
  fun_induction marks inside text with
  | case1 => simp at h
  | case2 => simp at h
  | case3 inside c rest _ _ ih => rw [ih (fun hm => h (List.mem_cons_of_mem _ hm)), List.map_cons]
  | case4 => rfl

/-! ## Rows of concatenations -/

/-- No marker reaches over the cut between two texts. -/
def Apart (front back : List Char) : Prop :=
  ∀ x y, front.getLast? = some x → back.head? = some y →
    ¬(x = '<' ∧ y = '%') ∧ ¬(x = '%' ∧ y = '>')

theorem Apart.tail {c : Char} {front back : List Char} (h : Apart (c :: front) back)
    (hne : front ≠ []) : Apart front back := by
  intro x y hx hy
  refine h x y ?_ hy
  rw [List.getLast?_cons_of_ne_nil hne, hx]

theorem marks_append {inside : Bool} {front back : List Char} (h : Apart front back) :
    marks inside (front ++ back) =
      marks inside front ++ marks (leads inside (marks inside front)) back := by
  fun_induction marks inside front with
  | case1 rest ih =>
      rw [List.cons_append, List.cons_append, marks, List.cons_append, leads]
      by_cases hne : rest = []
      · simp [hne, leads]
      · rw [ih ((h.tail (by simp)).tail hne)]
        rfl
  | case2 rest ih =>
      rw [List.cons_append, List.cons_append, marks, List.cons_append, leads]
      by_cases hne : rest = []
      · simp [hne, leads]
      · rw [ih ((h.tail (by simp)).tail hne)]
        rfl
  | case3 inside c rest ho hc ih =>
      cases rest with
      | nil =>
          rw [List.cons_append, List.nil_append, marks]
          · simp [leads]
          · rintro tail - rfl rfl
            exact (h _ _ rfl rfl).1 ⟨rfl, rfl⟩
          · rintro tail - rfl rfl
            exact (h _ _ rfl rfl).2 ⟨rfl, rfl⟩
      | cons d rest =>
          rw [List.cons_append, marks, ih (h.tail (by simp))]
          · rfl
          · intro tail hi hlt htail
            obtain ⟨rfl, -⟩ := List.cons.inj htail
            exact ho _ hi hlt rfl
          · intro tail hi hlt htail
            obtain ⟨rfl, -⟩ := List.cons.inj htail
            exact hc _ hi hlt rfl
  | case4 inside => simp [leads]

theorem marks_cons_feed (inside : Bool) (rest : List Char) :
    marks inside ('\n' :: rest) = .text '\n' :: marks inside rest := by
  rw [marks] <;> simp

theorem marks_ending {inside : Bool} (ending : Ending) (h : ending ≠ .none) (rest : List Char) :
    marks inside (ending.text ++ rest) = ending.text.map .text ++ marks inside rest := by
  cases ending with
  | none => exact absurd rfl h
  | lf => exact marks_cons_feed inside rest
  | crlf =>
      rw [show Ending.text .crlf = ['\r', '\n'] from rfl, List.cons_append, marks]
      · exact congrArg (Mark.text '\r' :: ·) (marks_cons_feed inside rest)
      · simp
      · simp

/-- The row of a line, its ending and the text after it. -/
theorem marks_line {inside : Bool} (content : List Char) {ending : Ending} (h : ending ≠ .none)
    (rest : List Char) :
    marks inside (content ++ ending.text ++ rest) =
      marks inside content ++ (ending.text.map .text ++
        marks (leads inside (marks inside content)) rest) := by
  have hapart : Apart content (ending.text ++ rest) := by
    intro x y _ hy
    cases ending with
    | none => exact absurd rfl h
    | lf =>
        obtain rfl : '\n' = y := by simpa [Ending.text] using hy
        simp
    | crlf =>
        obtain rfl : '\r' = y := by simpa [Ending.text] using hy
        simp
  rw [List.append_assoc, marks_append hapart, marks_ending ending h]

/-! ## The regions of a row -/

/-- The regions of a row that starts at a byte, inside the region that starts at the optional
byte. -/
def regionsFrom : Option Nat → Nat → List Mark → List Region
  | opened, pos, .text c :: ms => regionsFrom opened (pos + c.utf8Size) ms
  | none, pos, .marker :: ms => regionsFrom (some pos) (pos + markerLength) ms
  | some start, pos, .marker :: ms =>
    ⟨start, pos + markerLength, true⟩ :: regionsFrom none (pos + markerLength) ms
  | some start, pos, [] => [⟨start, pos, false⟩]
  | none, _, [] => []

theorem scan_eq (found : List Region) (opened : Option Nat) (pos : Nat) (text : List Char) :
    scan found opened pos text =
      found.reverse ++ regionsFrom opened pos (marks opened.isSome text) := by
  fun_induction scan found opened pos text with
  | case1 found pos rest ih => rw [ih]; rfl
  | case2 found start pos rest ih => rw [ih]; simp [marks, regionsFrom]
  | case3 found opened pos c rest ho hc ih =>
      rw [ih, marks]
      · rfl
      · intro tail hi
        exact ho tail (by simpa using hi)
      · intro tail hi
        obtain ⟨start, hs⟩ := Option.isSome_iff_exists.mp hi
        exact hc start tail hs
  | case4 found start pos => simp [regionsFrom]
  | case5 found pos => simp [regionsFrom]

theorem detect_eq (text : List Char) : detect text = regionsFrom none 0 (marks false text) :=
  scan_eq [] none 0 text

/-- Which regions of a row are terminated. -/
def terminations : Bool → List Mark → List Bool
  | inside, .text _ :: ms => terminations inside ms
  | false, .marker :: ms => terminations true ms
  | true, .marker :: ms => true :: terminations false ms
  | true, [] => [false]
  | false, [] => []

theorem map_terminated_regionsFrom (opened : Option Nat) (pos : Nat) (ms : List Mark) :
    (regionsFrom opened pos ms).map (·.terminated) = terminations opened.isSome ms := by
  induction ms generalizing opened pos with
  | nil => cases opened <;> rfl
  | cons m ms ih =>
      cases m with
      | text c => exact ih opened _
      | marker =>
          cases opened with
          | none => exact ih (some pos) _
          | some start => exact congrArg (true :: ·) (ih none _)

/-! ## The text outside the regions -/

/-- The parts of a text from a byte on that are outside the regions, which follow that byte. -/
def markupFrom (text : List Char) (pos : Nat) : List Region → List (List Char)
  | [] => [Text.byteSlice pos (Text.byteLength text) text]
  | region :: regions =>
    Text.byteSlice pos region.start text :: markupFrom text region.stop regions

/-- The markup of a text: what comes before its first region, between one region and the next,
and after the last one. -/
def markup (text : List Char) : List (List Char) := markupFrom text 0 (detect text)

/-- The parts of a row outside the regions, where `current` is the start of the first of them. -/
def outside : Bool → List Char → List Mark → List (List Char)
  | false, current, .text c :: ms => outside false (current ++ [c]) ms
  | true, current, .text _ :: ms => outside true current ms
  | false, current, .marker :: ms => current :: outside true [] ms
  | true, current, .marker :: ms => outside false current ms
  | _, current, [] => [current]

theorem byteLength_opening : Text.byteLength ['<', '%'] = markerLength := by decide

theorem byteLength_closing : Text.byteLength ['%', '>'] = markerLength := by decide

theorem byteSlice_front {front current back text : List Char}
    (h : text = front ++ (current ++ back)) :
    Text.byteSlice (Text.byteLength front) (Text.byteLength (front ++ current)) text = current := by
  rw [h, Text.byteLength_append, Text.byteSlice_append]

/-- Outside a region the part that the scan is in starts at the last marker. Inside one it is
complete, and the regions that follow start with the one that the scan is in. -/
theorem markupFrom_regionsFrom (text : List Char) (ms : List Mark) :
    (∀ front current, text = front ++ (current ++ unmark false ms) →
      markupFrom text (Text.byteLength front)
        (regionsFrom none (Text.byteLength (front ++ current)) ms) = outside false current ms) ∧
    ∀ front pos start, text = front ++ unmark true ms →
      markupFrom text pos (regionsFrom (some start) (Text.byteLength front) ms) =
        Text.byteSlice pos start text :: outside true [] ms := by
  induction ms with
  | nil =>
      constructor
      · intro front current h
        have hlen : Text.byteLength text = Text.byteLength (front ++ current) := by
          rw [h, unmark, List.append_nil]
        rw [regionsFrom, markupFrom, outside, hlen, byteSlice_front h]
      · intro front pos start h
        have hlen : Text.byteLength text = Text.byteLength (front ++ []) := by
          rw [h, unmark]
        have hslice : Text.byteSlice (Text.byteLength front) (Text.byteLength text) text = [] := by
          rw [hlen]
          have hnil : text = front ++ ([] ++ []) := by simp [h, unmark]
          exact byteSlice_front hnil
        simp only [regionsFrom, markupFrom, outside]
        rw [hslice]
  | cons m ms ih =>
      obtain ⟨ihOut, ihIn⟩ := ih
      cases m with
      | text c =>
          constructor
          · intro front current h
            have he : Text.byteLength (front ++ current) + c.utf8Size =
                Text.byteLength (front ++ (current ++ [c])) := by simp; omega
            rw [regionsFrom, outside, he]
            exact ihOut front (current ++ [c]) (by rw [h, unmark]; simp)
          · intro front pos start h
            have he : Text.byteLength front + c.utf8Size = Text.byteLength (front ++ [c]) := by simp
            rw [regionsFrom, outside, he]
            exact ihIn (front ++ [c]) pos start (by rw [h, unmark]; simp)
      | marker =>
          constructor
          · intro front current h
            have he : Text.byteLength (front ++ current) + markerLength =
                Text.byteLength (front ++ current ++ ['<', '%']) := by
              rw [Text.byteLength_append (front ++ current), byteLength_opening]
            rw [regionsFrom, outside, he,
              ihIn (front ++ current ++ ['<', '%']) _ _ (by rw [h, unmark]; simp),
              byteSlice_front h]
          · intro front pos start h
            have he : Text.byteLength front + markerLength =
                Text.byteLength (front ++ ['%', '>']) := by
              rw [Text.byteLength_append, byteLength_closing]
            have hout := ihOut (front ++ ['%', '>']) [] (by rw [h, unmark]; simp)
            rw [List.append_nil] at hout
            rw [regionsFrom, outside, markupFrom, he, hout]

theorem markup_eq (text : List Char) : markup text = outside false [] (marks false text) := by
  rw [markup, detect_eq]
  exact (markupFrom_regionsFrom text (marks false text)).1 [] [] (unmark_marks false text).symm

end Region

end ClassicAsp
