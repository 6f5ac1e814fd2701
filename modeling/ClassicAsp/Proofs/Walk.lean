import ClassicAsp.Indentation
import ClassicAsp.Proofs.Ownership

/-! # The walk over the lines

The walk takes one step for each line and finds out one outline for each. A line has at most as
many block events as characters, so that no level is larger than twice the length of the text
and one more. -/

namespace ClassicAsp

namespace BlockScan

/-! ## Steps -/

/-- What one step of the walk gives: the outline of the line, how many of the next lines continue
its statement, where that statement starts, and the state after it. -/
structure Step where
  outline : Outline
  pending : Nat
  head : Nat
  state : BlockScan

/-- The state after the statement of a line, before its role is applied. -/
def noting (s : BlockScan) (line : OwnedLine) (statement : LogicalLine) : BlockScan :=
  match statement.exhausted with
  | some spent => s.warn (line.index + statement.joined + 1) .loopIterations spent
  | none => s

/-- One step of the walk. -/
def step (limits : Limits) (pending head : Nat) (s : BlockScan) (line : OwnedLine)
    (rest : List OwnedLine) : Step :=
  match pending with
  | pending + 1 => ⟨{ continues := some head, nesting := s.depth }, pending, head, s⟩
  | 0 =>
    if line.frozen then ⟨{}, 0, 0, s⟩
    else if line.isMarker then
      let after := (line.fragments.map fragmentRole).foldl (apply limits line.index)
        (s, { nesting := s.depth })
      ⟨after.2, 0, 0, after.1⟩
    else if line.isCode then
      let statement := statementAt limits line rest
      let after := apply limits line.index (s.noting line statement, { nesting := s.depth })
        (Role.classify statement.code)
      ⟨after.2, statement.joined, line.index, after.1⟩
    else ⟨{ nesting := s.depth }, 0, 0, s⟩

theorem walk_cons (limits : Limits) (pending head : Nat) (done : List Outline) (s : BlockScan)
    (line : OwnedLine) (rest : List OwnedLine) :
    walk limits pending head done s (line :: rest) =
      walk limits (step limits pending head s line rest).pending
        (step limits pending head s line rest).head
        ((step limits pending head s line rest).outline :: done)
        (step limits pending head s line rest).state rest := by
  cases pending with
  | succ pending => rfl
  | zero =>
      simp only [walk, step]
      split
      · rfl
      · split
        · rfl
        · split
          · rfl
          · rfl

/-- The outlines of lines. -/
def outlines (limits : Limits) (pending head : Nat) (s : BlockScan) :
    List OwnedLine → List Outline
  | [] => []
  | line :: rest =>
    let next := step limits pending head s line rest
    next.outline :: outlines limits next.pending next.head next.state rest

theorem walk_fst (limits : Limits) (pending head : Nat) (done : List Outline) (s : BlockScan)
    (lines : List OwnedLine) :
    (walk limits pending head done s lines).1 =
      done.reverse ++ outlines limits pending head s lines := by
  induction lines generalizing pending head done s with
  | nil => simp [walk, outlines]
  | cons line rest ih =>
      rw [walk_cons, ih, outlines]
      simp

@[simp] theorem length_outlines (limits : Limits) (pending head : Nat) (s : BlockScan)
    (lines : List OwnedLine) : (outlines limits pending head s lines).length = lines.length := by
  induction lines generalizing pending head s with
  | nil => rfl
  | cons line rest ih => simp [outlines, ih]

theorem outlines_blockStructure (limits : Limits) (doc : Document) :
    (doc.blockStructure limits).outlines = outlines limits 0 0 {} doc.lines := by
  simp [Document.blockStructure, walk_fst]

/-! ## Events -/

theorem size_events_apply (limits : Limits) (index : Nat) (state : BlockScan × Outline)
    (role : Role) :
    (apply limits index state role).2.events.size ≤ state.2.events.size + 1 := by
  cases role with
  | plain => simp [apply]
  | branch => simp [apply]
  | case =>
      simp only [apply]
      split <;> simp
  | start construct =>
      simp only [apply, openBlock]
      split <;> simp
  | stop construct =>
      simp only [apply, closeBlock]
      split
      · simp
      · split
        · split <;> simp
        · simp

theorem size_events_foldl (limits : Limits) (index : Nat) (state : BlockScan × Outline)
    (roles : List Role) :
    (roles.foldl (apply limits index) state).2.events.size ≤
      state.2.events.size + roles.length := by
  induction roles generalizing state with
  | nil => simp
  | cons role roles ih =>
      have hstep := size_events_apply limits index state role
      have hrest := ih (apply limits index state role)
      rw [List.foldl_cons, List.length_cons]
      omega

theorem size_events_step (limits : Limits) (pending head : Nat) (s : BlockScan)
    {line : OwnedLine} (rest : List OwnedLine)
    (hfragments : line.fragments.length ≤ line.content.length) :
    (step limits pending head s line rest).outline.events.size ≤ line.content.length := by
  cases pending with
  | succ pending => simp [step]
  | zero =>
      simp only [step]
      split
      · simp
      · split
        · have := size_events_foldl limits line.index (s, { nesting := s.depth })
            (line.fragments.map fragmentRole)
          rw [List.length_map] at this
          exact Nat.le_trans this (by simpa using hfragments)
        · split
          · next hcode =>
              have hne : line.content ≠ [] := by
                rintro hnil
                simp [OwnedLine.isCode, Line.isBlank, hnil, Text.allBlank] at hcode
              have hpos : 0 < line.content.length := List.length_pos_iff.mpr hne
              have := size_events_apply limits line.index
                (s.noting line (statementAt limits line rest), { nesting := s.depth })
                (Role.classify (statementAt limits line rest).code)
              exact Nat.le_trans this hpos
          · simp

/-- The number of events of outlines. -/
def eventCount (os : List Outline) : Nat := (os.flatMap (·.events.toList)).length

@[simp] theorem eventCount_cons (o : Outline) (os : List Outline) :
    eventCount (o :: os) = o.events.size + eventCount os := by
  simp [eventCount]

theorem eventCount_outlines (limits : Limits) (pending head : Nat) (s : BlockScan)
    {lines : List OwnedLine}
    (hfragments : ∀ l ∈ lines, l.fragments.length ≤ l.content.length) :
    eventCount (outlines limits pending head s lines) ≤
      (lines.flatMap (·.content)).length := by
  induction lines generalizing pending head s with
  | nil => simp [outlines, eventCount]
  | cons line rest ih =>
      have hline := size_events_step limits pending head s rest (hfragments line (by simp))
      have hrest := ih (step limits pending head s line rest).pending
        (step limits pending head s line rest).head (step limits pending head s line rest).state
        (fun l hl => hfragments l (by simp [hl]))
      rw [outlines, eventCount_cons, List.flatMap_cons, List.length_append]
      omega

end BlockScan

end ClassicAsp
