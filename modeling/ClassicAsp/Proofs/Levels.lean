import ClassicAsp.Analysis
import ClassicAsp.Proofs.Walk

/-! # Levels

Every line gets one level, and an opened block adds at most two to it. So the levels of a text
stay below a bound that its length gives, and their indents fit in memory. -/

namespace ClassicAsp

namespace Indentation

/-! ## Levels before comments are settled -/

theorem levelsAfter_push (done : List (OwnedLine × Nat)) (head : Nat) (levels : LevelStack)
    (line : OwnedLine) (o : Outline) (rows : List (OwnedLine × Outline)) :
    levelsAfter done head levels ((line, o) :: rows) =
      levelsAfter ((line, (line.level o head levels).1) :: done)
        (if o.continues.isSome then head else (line.level o head levels).1)
        (line.level o head levels).2 rows :=
  rfl

theorem levelsAfter_eq (done : List (OwnedLine × Nat)) (head : Nat) (levels : LevelStack)
    (rows : List (OwnedLine × Outline)) :
    levelsAfter done head levels rows = done.reverse ++ levelsAfter [] head levels rows := by
  induction rows generalizing done head levels with
  | nil => simp [levelsAfter]
  | cons row rows ih =>
      obtain ⟨line, o⟩ := row
      rw [levelsAfter_push, ih, levelsAfter_push, ih [_]]
      simp

theorem levelsAfter_cons (head : Nat) (levels : LevelStack) (line : OwnedLine) (o : Outline)
    (rows : List (OwnedLine × Outline)) :
    levelsAfter [] head levels ((line, o) :: rows) =
      (line, (line.level o head levels).1) ::
        levelsAfter [] (if o.continues.isSome then head else (line.level o head levels).1)
          (line.level o head levels).2 rows := by
  rw [levelsAfter_push, levelsAfter_eq]
  rfl

theorem map_fst_levelsAfter (head : Nat) (levels : LevelStack)
    (rows : List (OwnedLine × Outline)) :
    (levelsAfter [] head levels rows).map (·.1) = rows.map (·.1) := by
  induction rows generalizing head levels with
  | nil => rfl
  | cons row rows ih =>
      obtain ⟨line, o⟩ := row
      rw [levelsAfter_cons, List.map_cons, ih, List.map_cons]

/-! ## A bound -/

theorem current_le {levels : LevelStack} {bound : Nat} (h : ∀ x ∈ levels, x ≤ bound) :
    levels.current ≤ bound := by
  cases levels with
  | nil => exact Nat.zero_le _
  | cons x levels => exact h x (by simp)

theorem bodyIndent_le (kind : BlockKind) : kind.bodyIndent ≤ 2 := by
  cases kind <;> decide

theorem le_of_mem_replay {levels : LevelStack} {n : Nat} (h : ∀ x ∈ levels, x ≤ 2 * n)
    (event : BlockEvent) : ∀ x ∈ levels.replay event, x ≤ 2 * (n + 1) := by
  intro x hx
  cases event with
  | opened kind =>
      rcases List.mem_cons.mp hx with rfl | hx
      · have hcurrent := current_le h
        have hkind := bodyIndent_le kind
        omega
      · have := h x hx
        omega
  | closed =>
      have := h x (List.mem_of_mem_tail hx)
      omega

theorem le_of_mem_foldl_replay {levels : LevelStack} {n : Nat} (events : List BlockEvent)
    (h : ∀ x ∈ levels, x ≤ 2 * n) :
    ∀ x ∈ events.foldl LevelStack.replay levels, x ≤ 2 * (n + events.length) := by
  induction events generalizing levels n with
  | nil => exact h
  | cons event events ih =>
      intro x hx
      have := ih (le_of_mem_replay h event) x hx
      rw [List.length_cons]
      omega

/-- A line stands no deeper than the last statement and the bodies around it before and after its
events, unless it continues a statement: then it stands at most one level deeper. -/
theorem level_le (line : OwnedLine) {o : Outline} {head bound : Nat} {levels : LevelStack}
    (hhead : head ≤ bound) (hbefore : levels.current ≤ bound)
    (hafter : (o.events.foldl LevelStack.replay levels).current ≤ bound) :
    (line.level o head levels).1 ≤ bound + 1 ∧
      (o.continues.isSome = false → (line.level o head levels).1 ≤ bound) := by
  simp only [OwnedLine.level]
  split
  · exact ⟨by omega, fun _ => by omega⟩
  · split
    · next hcontinues => exact ⟨by omega, by simp [hcontinues]⟩
    · split
      · exact ⟨by omega, fun _ => by omega⟩
      · split
        · exact ⟨by omega, fun _ => by omega⟩
        · split
          · exact ⟨by omega, fun _ => by omega⟩
          · exact ⟨by omega, fun _ => by omega⟩

theorem level_snd_cases (line : OwnedLine) (o : Outline) (head : Nat) (levels : LevelStack) :
    (line.level o head levels).2 = levels ∨
      (line.level o head levels).2 = o.events.foldl LevelStack.replay levels := by
  simp only [OwnedLine.level]
  split
  · exact .inl rfl
  · split
    · exact .inl rfl
    · split
      · exact .inl rfl
      · split
        · exact .inr rfl
        · split <;> exact .inr rfl

/-- The level that the next line finds above it keeps the bound. -/
theorem next_head_le (line : OwnedLine) {o : Outline} {head bound : Nat} {levels : LevelStack}
    (hhead : head ≤ bound) (hbefore : levels.current ≤ bound)
    (hafter : (o.events.foldl LevelStack.replay levels).current ≤ bound) :
    (if o.continues.isSome then head else (line.level o head levels).1) ≤ bound := by
  split
  · exact hhead
  · next hcontinues => exact (level_le line hhead hbefore hafter).2 (by simpa using hcontinues)

/-- Each event moves the bound by two. -/
theorem levelsAfter_le {rows : List (OwnedLine × Outline)} {head n : Nat} {levels : LevelStack}
    (hhead : head ≤ 2 * n) (h : ∀ x ∈ levels, x ≤ 2 * n) :
    ∀ r ∈ levelsAfter [] head levels rows,
      r.2 ≤ 2 * (n + BlockScan.eventCount (rows.map (·.2))) + 1 := by
  induction rows generalizing head n levels with
  | nil => simp [levelsAfter]
  | cons row rows ih =>
      obtain ⟨line, o⟩ := row
      have hcount : BlockScan.eventCount (((line, o) :: rows).map (·.2)) =
          o.events.size + BlockScan.eventCount (rows.map (·.2)) :=
        BlockScan.eventCount_cons o _
      have hbefore : ∀ x ∈ levels, x ≤ 2 * (n + o.events.size) := by
        intro x hx
        have := h x hx
        omega
      have hafter : ∀ x ∈ o.events.foldl LevelStack.replay levels,
          x ≤ 2 * (n + o.events.size) := by
        intro x hx
        rw [← Array.foldl_toList] at hx
        exact le_of_mem_foldl_replay o.events.toList h x hx
      have hhead' : head ≤ 2 * (n + o.events.size) := by omega
      have hlevel := (level_le line hhead' (current_le hbefore) (current_le hafter)).1
      rw [hcount, levelsAfter_cons]
      intro r hr
      rcases List.mem_cons.mp hr with rfl | hr
      · simp only
        omega
      · have hstack : ∀ x ∈ (line.level o head levels).2, x ≤ 2 * (n + o.events.size) := by
          rcases level_snd_cases line o head levels with he | he
          · rwa [he]
          · rwa [he]
        have hnext := next_head_le line hhead' (current_le hbefore) (current_le hafter)
        have := ih hnext hstack r hr
        omega

/-! ## Settled levels -/

theorem Settled.above_levels (limits : Limits) (line : OwnedLine) (level : Nat) (s : Settled) :
    (s.above limits (line, level)).levels = level :: s.levels ∨
      ∃ x, s.ahead.level? = some x ∧ (s.above limits (line, level)).levels = x :: s.levels := by
  simp only [Settled.above]
  split
  · split
    · cases hahead : s.ahead.level? with
      | none => exact .inl rfl
      | some x => exact .inr ⟨x, rfl, rfl⟩
    · exact .inl rfl
  · exact .inl rfl

theorem Ahead.level?_above {ahead : Ahead} {line : OwnedLine} {level x : Nat}
    (h : (ahead.above line level).level? = some x) : ahead.level? = some x ∨ x = level := by
  simp only [Ahead.above] at h
  split at h
  · exact .inl h
  · split at h
    · cases h
    · split at h
      · exact .inl h
      · exact .inr (Option.some.inj h).symm

theorem Settled.above_ahead (limits : Limits) (line : OwnedLine) (level : Nat) (s : Settled) :
    (s.above limits (line, level)).ahead = s.ahead.above line level := by
  simp only [Settled.above]
  split
  · split <;> rfl
  · rfl

theorem length_settled (limits : Limits) (rows : List (OwnedLine × Nat)) :
    (rows.foldr (Settled.above limits) {}).levels.length = rows.length := by
  induction rows with
  | nil => rfl
  | cons row rows ih =>
      obtain ⟨line, level⟩ := row
      rw [List.foldr_cons, List.length_cons, ← ih]
      rcases Settled.above_levels limits line level (rows.foldr (Settled.above limits) {}) with
        h | ⟨x, -, h⟩
      · rw [h, List.length_cons]
      · rw [h, List.length_cons]

theorem settled_le (limits : Limits) {rows : List (OwnedLine × Nat)} {bound : Nat}
    (h : ∀ r ∈ rows, r.2 ≤ bound) :
    (∀ x ∈ (rows.foldr (Settled.above limits) {}).levels, x ≤ bound) ∧
      ∀ x, (rows.foldr (Settled.above limits) {}).ahead.level? = some x → x ≤ bound := by
  induction rows with
  | nil => simp
  | cons row rows ih =>
      obtain ⟨line, level⟩ := row
      have hlevel : level ≤ bound := h (line, level) (by simp)
      obtain ⟨hlevels, hahead⟩ := ih (fun r hr => h r (by simp [hr]))
      rw [List.foldr_cons]
      constructor
      · intro x hx
        rcases Settled.above_levels limits line level (rows.foldr (Settled.above limits) {}) with
          he | ⟨y, hy, he⟩
        · rw [he] at hx
          rcases List.mem_cons.mp hx with rfl | hx
          · exact hlevel
          · exact hlevels x hx
        · rw [he] at hx
          rcases List.mem_cons.mp hx with rfl | hx
          · exact hahead x hy
          · exact hlevels x hx
      · intro x hx
        rw [Settled.above_ahead] at hx
        rcases Ahead.level?_above hx with hx | rfl
        · exact hahead x hx
        · exact hlevel

end Indentation

theorem length_indentLevels (limits : Limits) (rows : List (OwnedLine × Outline)) :
    (indentLevels limits rows).1.length = rows.length := by
  have h := congrArg List.length (Indentation.map_fst_levelsAfter 0 [] rows)
  rw [List.length_map, List.length_map] at h
  rw [indentLevels, Indentation.length_settled, h]

theorem indentLevels_le (limits : Limits) (rows : List (OwnedLine × Outline)) :
    ∀ x ∈ (indentLevels limits rows).1,
      x ≤ 2 * BlockScan.eventCount (rows.map (·.2)) + 1 := by
  have h : ∀ r ∈ Indentation.levelsAfter [] 0 [] rows,
      r.2 ≤ 2 * (0 + BlockScan.eventCount (rows.map (·.2))) + 1 :=
    Indentation.levelsAfter_le (Nat.le_refl 0) (by simp)
  rw [Nat.zero_add] at h
  exact (Indentation.settled_le limits h).1

end ClassicAsp
