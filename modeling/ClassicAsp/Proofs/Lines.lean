import ClassicAsp.Line
import Mathlib.Data.List.Basic

/-! # Lines and their text

A text is the concatenation of its lines, and a list of lines that is written the way splitting
writes it is what splitting gives back. -/

namespace ClassicAsp

/-! ## Cutting at line feeds -/

namespace Text

theorem splitAt_ne_nil (sep : Char → Bool) (cs : List Char) : splitAt sep cs ≠ [] := by
  cases cs with
  | nil => simp
  | cons c cs =>
      cases hc : sep c with
      | true => simp [splitAt_cons_sep hc]
      | false =>
          rw [splitAt_cons_of_not hc]
          have ih := splitAt_ne_nil sep cs
          cases hs : splitAt sep cs with
          | nil => exact absurd hs ih
          | cons piece pieces => simp

theorem splitAt_of_forall_not {sep : Char → Bool} {cs : List Char}
    (h : ∀ c ∈ cs, sep c = false) : splitAt sep cs = [cs] := by
  induction cs with
  | nil => rfl
  | cons c cs ih =>
      have hc : sep c = false := h c (by simp)
      rw [splitAt_cons_of_not hc, ih (fun d hd => h d (by simp [hd]))]
      rfl

theorem splitAt_append_sep {sep : Char → Bool} {front : List Char} {s : Char}
    (hf : ∀ c ∈ front, sep c = false) (hs : sep s = true) (rest : List Char) :
    splitAt sep (front ++ s :: rest) = front :: splitAt sep rest := by
  induction front with
  | nil => exact splitAt_cons_sep hs rest
  | cons c front ih =>
      have hc : sep c = false := hf c (by simp)
      rw [List.cons_append, splitAt_cons_of_not hc, ih (fun d hd => hf d (by simp [hd]))]
      rfl

theorem not_feed {cs : List Char} (h : '\n' ∉ cs) : ∀ c ∈ cs, (c == '\n') = false := by
  intro c hc
  rw [beq_eq_false_iff_ne]
  rintro rfl
  exact h hc

/-- A text that holds a line feed is a line and the text after it. -/
theorem exists_feed {cs : List Char} (h : '\n' ∈ cs) :
    ∃ front rest, cs = front ++ '\n' :: rest ∧ '\n' ∉ front := by
  obtain ⟨front, rest, he, hf⟩ := List.eq_append_cons_of_mem h
  exact ⟨front, rest, he, hf⟩

theorem feedLines_append_feed {front : List Char} (h : '\n' ∉ front) (rest : List Char) :
    feedLines (front ++ '\n' :: rest) = (front ++ ['\n']) :: feedLines rest := by
  have hne := splitAt_ne_nil (· == '\n') rest
  simp only [feedLines]
  rw [splitAt_append_sep (not_feed h) (by decide), List.dropLast_cons_of_ne_nil hne,
    List.getLast?_cons_of_ne_nil hne]
  rfl

theorem feedLines_of_no_feed {cs : List Char} (h : '\n' ∉ cs) :
    feedLines cs = if cs = [] then [] else [cs] := by
  rw [feedLines, splitAt_of_forall_not (not_feed h)]
  cases cs <;> simp

end Text

namespace Line

/-- The text of lines given by content and ending. -/
def join (lines : List (List Char × Ending)) : List Char :=
  lines.flatMap fun line => line.1 ++ line.2.text

@[simp] theorem join_nil : join [] = [] := rfl

@[simp] theorem join_cons (line : List Char × Ending) (lines : List (List Char × Ending)) :
    join (line :: lines) = line.1 ++ line.2.text ++ join lines := rfl

@[simp] theorem join_append (front back : List (List Char × Ending)) :
    join (front ++ back) = join front ++ join back :=
  List.flatMap_append

/-- Lines as splitting writes them: no content holds a line feed, a carriage return before a line
feed belongs to the ending, and only the last line, which is not empty then, lacks an ending. -/
inductive Canonical : List (List Char × Ending) → Prop where
  | nil : Canonical []
  | last {content} (hne : content ≠ []) (hfeed : '\n' ∉ content) : Canonical [(content, .none)]
  | line {content ending lines} (hending : ending ≠ .none) (hfeed : '\n' ∉ content)
      (hcr : ending = .lf → content.getLast? ≠ some '\r') :
      Canonical lines → Canonical ((content, ending) :: lines)

theorem Canonical.tail {line : List Char × Ending} {lines : List (List Char × Ending)}
    (h : Canonical (line :: lines)) : Canonical lines := by
  cases h with
  | last => exact .nil
  | line _ _ _ hrest => exact hrest

theorem Canonical.feed_notMem {line : List Char × Ending} {lines : List (List Char × Ending)}
    (h : Canonical (line :: lines)) : '\n' ∉ line.1 := by
  cases h with
  | last _ hfeed => exact hfeed
  | line _ hfeed => exact hfeed

theorem Canonical.eq_nil_of_none {line : List Char × Ending}
    {lines : List (List Char × Ending)} (h : Canonical (line :: lines))
    (hnone : line.2 = .none) : lines = [] := by
  cases h with
  | last => rfl
  | line hending => exact absurd hnone hending

theorem Canonical.ne_nil_of_none {line : List Char × Ending}
    {lines : List (List Char × Ending)} (h : Canonical (line :: lines))
    (hnone : line.2 = .none) : line.1 ≠ [] := by
  cases h with
  | last hne => exact hne
  | line hending => exact absurd hnone hending

theorem Canonical.last_ne_return {line : List Char × Ending}
    {lines : List (List Char × Ending)} (h : Canonical (line :: lines))
    (hlf : line.2 = .lf) : line.1.getLast? ≠ some '\r' := by
  cases h with
  | last => cases hlf
  | line _ _ hcr => exact hcr hlf

theorem pieces_append_feed {front : List Char} (h : '\n' ∉ front) (rest : List Char) :
    pieces (front ++ '\n' :: rest) = ofFeedPiece front :: pieces rest := by
  have hne := Text.splitAt_ne_nil (· == '\n') rest
  simp only [pieces]
  rw [Text.splitAt_append_sep (Text.not_feed h) (by decide), List.dropLast_cons_of_ne_nil hne,
    List.getLast?_cons_of_ne_nil hne]
  rfl

theorem pieces_of_no_feed {cs : List Char} (h : '\n' ∉ cs) :
    pieces cs = if cs = [] then [] else [(cs, .none)] := by
  rw [pieces, Text.splitAt_of_forall_not (Text.not_feed h)]
  cases cs <;> simp

/-- Content and ending of a line that a line feed ends, by the character before the line feed. -/
theorem ofFeedPiece_cases (front : List Char) :
    (∃ content, front = content ++ ['\r'] ∧ ofFeedPiece front = (content, .crlf)) ∨
      (front.getLast? ≠ some '\r' ∧ ofFeedPiece front = (front, .lf)) := by
  by_cases h : front.getLast? = some '\r'
  · left
    obtain ⟨content, rfl⟩ := List.getLast?_eq_some_iff.mp h
    exact ⟨content, rfl, by simp [ofFeedPiece]⟩
  · right
    exact ⟨h, by simp [ofFeedPiece, h]⟩

/-! ## The two directions -/

/-- Induction over a text line by line. -/
theorem text_induction {motive : List Char → Prop} (nil : motive [])
    (last : ∀ cs, cs ≠ [] → '\n' ∉ cs → motive cs)
    (feed : ∀ front rest, '\n' ∉ front → motive rest → motive (front ++ '\n' :: rest))
    (text : List Char) : motive text := by
  induction hn : text.length using Nat.strongRecOn generalizing text with
  | _ n ih =>
      by_cases h : '\n' ∈ text
      · obtain ⟨front, rest, rfl, hf⟩ := Text.exists_feed h
        refine feed front rest hf (ih rest.length ?_ rest rfl)
        simp only [List.length_append, List.length_cons] at hn
        omega
      · by_cases hne : text = []
        · rw [hne]
          exact nil
        · exact last text hne h

/-- A text is the concatenation of its lines. -/
theorem join_pieces (text : List Char) : join (pieces text) = text := by
  induction text using text_induction with
  | nil => rfl
  | last cs hne hf => simp [pieces_of_no_feed hf, hne, Ending.text]
  | feed front rest hf ih =>
      rw [pieces_append_feed hf, join_cons, ih]
      rcases ofFeedPiece_cases front with ⟨content, rfl, he⟩ | ⟨-, he⟩
      · simp [he, Ending.text]
      · simp [he, Ending.text]

theorem canonical_pieces (text : List Char) : Canonical (pieces text) := by
  induction text using text_induction with
  | nil => exact .nil
  | last cs hne hf =>
      rw [pieces_of_no_feed hf, if_neg hne]
      exact .last hne hf
  | feed front rest hf ih =>
      rw [pieces_append_feed hf]
      rcases ofFeedPiece_cases front with ⟨content, rfl, he⟩ | ⟨hcr, he⟩
      · rw [he]
        exact .line (by simp) (fun h => hf (by simp [h])) (by simp) ih
      · rw [he]
        exact .line (by simp) hf (fun _ => hcr) ih

/-- Splitting gives back lines that are written as it writes them. -/
theorem pieces_join {lines : List (List Char × Ending)} (h : Canonical lines) :
    pieces (join lines) = lines := by
  induction h with
  | nil => rfl
  | last hne hf => simp [join, Ending.text, pieces_of_no_feed hf, hne]
  | @line content ending lines hending hf hcr _ ih =>
      cases ending with
      | none => exact absurd rfl hending
      | lf =>
          have he : join ((content, .lf) :: lines) = content ++ '\n' :: join lines := by
            simp [Ending.text]
          rw [he, pieces_append_feed hf, ih]
          simp [ofFeedPiece, hcr rfl]
      | crlf =>
          have he : join ((content, .crlf) :: lines) =
              (content ++ ['\r']) ++ '\n' :: join lines := by
            simp [Ending.text]
          rw [he, pieces_append_feed (by simp [hf]), ih]
          simp [ofFeedPiece]

/-- The lines with their endings, as the search for directives reads them. -/
theorem feedLines_eq (text : List Char) :
    Text.feedLines text = (pieces text).map fun line => line.1 ++ line.2.text := by
  induction text using text_induction with
  | nil => rfl
  | last cs hne hf => simp [Text.feedLines_of_no_feed hf, pieces_of_no_feed hf, hne, Ending.text]
  | feed front rest hf ih =>
      rw [Text.feedLines_append_feed hf, pieces_append_feed hf, ih, List.map_cons]
      rcases ofFeedPiece_cases front with ⟨content, rfl, he⟩ | ⟨-, he⟩
      · simp [he, Ending.text]
      · simp [he, Ending.text]

end Line

end ClassicAsp
