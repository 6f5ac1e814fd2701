import ClassicAsp.Proofs.Alignment

/-! # The structure of aligned lines

Lines that are aligned have the same outlines and levels if their statements have the same roles:
gaps stand only where no statement goes on, so that the walk finds the same statements, and above a
gap stands a line that ends the search of every comment. -/

namespace ClassicAsp

open Text

/-! ## States of the walk -/

/-- Outlines that differ in the numbers of lines and in the nesting at most. -/
structure Outline.Same (o o' : Outline) : Prop where
  continues_eq : o'.continues.isSome = o.continues.isSome
  opens_eq : o'.opens = o.opens
  closes_eq : o'.closes = o.closes
  isCase_eq : o'.isCase = o.isCase
  isBranch_eq : o'.isBranch = o.isBranch
  kind_eq : o'.kind = o.kind
  events_eq : o'.events = o.events

namespace BlockScan

/-- States of the walk with the same open blocks, which may be on other lines. -/
structure Same (s s' : BlockScan) : Prop where
  opened_eq : s'.opened = s.opened
  overflow_eq : s'.overflow = s.overflow
  kinds_eq : s'.blocks.map Block.kind = s.blocks.map Block.kind

/-- The state of the walk and the outline of the line that it is at. -/
structure SameAt (x x' : BlockScan × Outline) : Prop where
  state : Same x.1 x'.1
  outline : Outline.Same x.2 x'.2

theorem map_kind_modify {f : Block → Block} (hf : ∀ b, (f b).kind = b.kind)
    (blocks : Array Block) (i : Nat) :
    (blocks.modify i f).map Block.kind = blocks.map Block.kind := by
  apply Array.ext
  · simp
  · intro j hj hj'
    rw [Array.getElem_map, Array.getElem_map, Array.getElem_modify]
    split
    · exact hf _
    · rfl

theorem topKind?_eq (s : BlockScan) :
    s.topKind? = s.opened.back?.bind ((s.blocks.map Block.kind)[·]?) := by
  rw [topKind?, Option.map_bind]
  congr 1
  funext i
  simp

namespace Same

variable {s s' : BlockScan}

theorem refl (s : BlockScan) : Same s s := ⟨rfl, rfl, rfl⟩

theorem depth_eq (h : Same s s') : s'.depth = s.depth := by
  rw [depth, depth, h.opened_eq]

theorem topKind?_eq (h : Same s s') : s'.topKind? = s.topKind? := by
  rw [BlockScan.topKind?_eq, BlockScan.topKind?_eq, h.opened_eq, h.kinds_eq]

theorem size_blocks_eq (h : Same s s') : s'.blocks.size = s.blocks.size := by
  have := congrArg Array.size h.kinds_eq
  rwa [Array.size_map, Array.size_map] at this

theorem warn (h : Same s s') (index index' : Nat) (ceiling : Ceiling) (value value' : Nat) :
    Same (s.warn index ceiling value) (s'.warn index' ceiling value') :=
  ⟨h.opened_eq, h.overflow_eq, h.kinds_eq⟩

theorem noting (h : Same s s') (line line' : OwnedLine) (statement statement' : LogicalLine) :
    Same (s.noting line statement) (s'.noting line' statement') := by
  simp only [BlockScan.noting]
  split <;> split <;> exact ⟨h.opened_eq, h.overflow_eq, h.kinds_eq⟩

end Same

variable {s s' : BlockScan} {o o' : Outline}

theorem sameAt_openBlock (limits : Limits) (index index' : Nat) (construct : Construct)
    (hs : Same s s') (ho : Outline.Same o o') :
    SameAt (openBlock limits index construct s o) (openBlock limits index' construct s' o') := by
  simp only [openBlock, hs.depth_eq, hs.overflow_eq]
  split
  · have hwarned : Same (if s.overflow = 0 then s.warn index .nestingDepth (s.depth + 1) else s)
        (if s.overflow = 0 then s'.warn index' .nestingDepth (s.depth + 1) else s') := by
      split
      · exact hs.warn index index' _ _ _
      · exact hs
    exact ⟨⟨hwarned.opened_eq, congrArg (· + 1) hwarned.overflow_eq, hwarned.kinds_eq⟩, ho⟩
  · refine ⟨⟨?_, rfl, ?_⟩, ?_⟩
    · simp only [hs.opened_eq, hs.size_blocks_eq]
    · rw [hs.opened_eq, Array.map_push, Array.map_push]
      refine congrArg (Array.push · construct.kind) ?_
      split
      · rw [map_kind_modify, map_kind_modify, hs.kinds_eq] <;> exact fun _ => rfl
      · exact hs.kinds_eq
    · exact { ho with
        opens_eq := rfl
        kind_eq := rfl
        events_eq := congrArg (Array.push · _) ho.events_eq }

theorem sameAt_closeBlock (index index' : Nat) (construct : Construct) (hs : Same s s')
    (ho : Outline.Same o o') :
    SameAt (closeBlock index construct s o) (closeBlock index' construct s' o') := by
  simp only [closeBlock, hs.overflow_eq, hs.topKind?_eq]
  split
  · exact ⟨⟨hs.opened_eq, rfl, hs.kinds_eq⟩, ho⟩
  · split
    · rw [hs.opened_eq]
      split
      · exact ⟨hs, ho⟩
      · refine ⟨⟨rfl, rfl, ?_⟩, ?_⟩
        · rw [map_kind_modify, map_kind_modify, hs.kinds_eq] <;> exact fun _ => rfl
        · exact { ho with
            closes_eq := rfl
            kind_eq := rfl
            events_eq := congrArg (Array.push · _) ho.events_eq }
    · exact ⟨⟨hs.opened_eq, rfl, hs.kinds_eq⟩, ho⟩

/-- A role acts the same way on states with the same open blocks. -/
theorem SameAt.apply {x x' : BlockScan × Outline} (h : SameAt x x') (limits : Limits)
    (index index' : Nat) (role : Role) :
    SameAt (apply limits index x role) (apply limits index' x' role) := by
  cases role with
  | plain => exact h
  | branch => exact ⟨h.state, { h.outline with isBranch_eq := rfl }⟩
  | case =>
      simp only [BlockScan.apply, h.state.topKind?_eq]
      split
      · exact ⟨h.state, { h.outline with isCase_eq := rfl, kind_eq := rfl }⟩
      · exact h
  | start construct => exact sameAt_openBlock limits index index' construct h.state h.outline
  | stop construct => exact sameAt_closeBlock index index' construct h.state h.outline

theorem SameAt.foldl_apply {x x' : BlockScan × Outline} (h : SameAt x x') (limits : Limits)
    (index index' : Nat) (roles : List Role) :
    SameAt (roles.foldl (BlockScan.apply limits index) x)
      (roles.foldl (BlockScan.apply limits index') x') := by
  induction roles generalizing x x' with
  | nil => exact h
  | cons role roles ih => exact ih (h.apply limits index index' role)

/-! ## Statements -/

/-- A statement ends above the next line, or goes on with it. -/
theorem gather_cases (budget : Budget) (reversed : List Char) (joined : Nat) (next : OwnedLine) :
    (∃ exhausted, ∀ rest, gather budget reversed joined (next :: rest) =
      ⟨reversed.reverse, joined, exhausted⟩) ∨
      ∃ budget' reversed', ∀ rest, gather budget reversed joined (next :: rest) =
        gather budget' reversed' (joined + 1) rest := by
  simp only [gather]
  split
  · split
    · split
      · exact .inl ⟨_, fun _ => rfl⟩
      · exact .inr ⟨_, _, fun _ => rfl⟩
    · exact .inl ⟨_, fun _ => rfl⟩
  · exact .inl ⟨_, fun _ => rfl⟩

theorem gather_of_not_isCode (budget : Budget) (reversed : List Char) (joined : Nat)
    {next : OwnedLine} (h : next.isCode = false) (rest : List OwnedLine) :
    gather budget reversed joined (next :: rest) = ⟨reversed.reverse, joined, none⟩ := by
  simp only [gather, h]
  split
  · simp
  · rfl

theorem gather_alike (budget : Budget) (reversed : List Char) (joined : Nat) {l l' : OwnedLine}
    (h : l.Alike l') (rest : List OwnedLine) :
    gather budget reversed joined (l' :: rest) = gather budget reversed joined (l :: rest) := by
  simp only [gather, h.sameKind.isCode_eq, h.classificationCode_eq]

theorem le_joined_gather (budget : Budget) (reversed : List Char) (joined : Nat)
    (lines : List OwnedLine) : joined ≤ (gather budget reversed joined lines).joined := by
  induction lines generalizing budget reversed joined with
  | nil => exact Nat.le_refl joined
  | cons next rest ih =>
      rcases gather_cases budget reversed joined next with ⟨exhausted, he⟩ | ⟨budget', code', he⟩
      · rw [he]
      · rw [he]
        exact Nat.le_trans (Nat.le_succ joined) (ih _ _ _)

/-- The code of a statement and the number of lines that continue its first line are the same in
aligned lines, if no gap is put between these lines. -/
theorem gather_aligned {lines lines' : List OwnedLine} {marked : List Bool}
    (h : Aligned OwnedLine.Alike (fun _ gap => gap.IsGap) OwnedLine.IsGap lines marked lines')
    (budget : Budget) (reversed : List Char) (joined more : Nat)
    (hjoined : (gather budget reversed joined lines).joined = joined + more)
    (hmarked : ∀ m ∈ marked.take more, m = false) :
    (gather budget reversed joined lines').joined = joined + more ∧
      (gather budget reversed joined lines').code =
        (gather budget reversed joined lines).code := by
  induction h generalizing budget reversed joined more with
  | nil => exact ⟨hjoined, rfl⟩
  | dropped hgap =>
      rw [gather_of_not_isCode _ _ _ hgap.isCode_eq] at hjoined ⊢
      exact ⟨hjoined, rfl⟩
  | @line l l' lines marked lines' halike _ ih =>
      rw [gather_alike _ _ _ halike]
      rcases gather_cases budget reversed joined l with ⟨exhausted, he⟩ | ⟨budget', code', he⟩
      · rw [he] at hjoined ⊢
        rw [he]
        exact ⟨hjoined, rfl⟩
      · have hle := le_joined_gather budget' code' (joined + 1) lines
        rw [he] at hjoined ⊢
        rw [he]
        rw [hjoined] at hle
        obtain ⟨k, rfl⟩ : ∃ k, more = k + 1 := ⟨more - 1, by omega⟩
        rw [Nat.add_comm k 1, ← Nat.add_assoc] at hjoined ⊢
        exact ih _ _ _ _ hjoined fun m hm => hmarked m (by simp [hm])
  | @insert l gap l' lines marked lines' hgap halike _ ih =>
      have hmore : more = 0 := by
        by_contra hne
        obtain ⟨k, rfl⟩ := Nat.exists_eq_succ_of_ne_zero hne
        exact absurd (hmarked true (by simp)) (by decide)
      subst hmore
      rw [gather_of_not_isCode _ _ _ hgap.isCode_eq]
      rcases gather_cases budget reversed joined l with ⟨exhausted, he⟩ | ⟨budget', code', he⟩
      · rw [he]
        exact ⟨rfl, rfl⟩
      · have hle := le_joined_gather budget' code' (joined + 1) lines
        rw [he] at hjoined
        omega

/-- Statements that go on over as many lines and have the same role. -/
structure SameStatement (a b : LogicalLine) : Prop where
  joined_eq : b.joined = a.joined
  role_eq : Role.classify b.code = Role.classify a.code

instance (a b : LogicalLine) : Decidable (SameStatement a b) :=
  decidable_of_iff (b.joined = a.joined ∧ Role.classify b.code = Role.classify a.code)
    ⟨fun h => ⟨h.1, h.2⟩, fun h => ⟨h.joined_eq, h.role_eq⟩⟩

theorem SameStatement.trans {a b c : LogicalLine} (h : SameStatement a b)
    (h' : SameStatement b c) : SameStatement a c :=
  ⟨h'.joined_eq.trans h.joined_eq, h'.role_eq.trans h.role_eq⟩

/-- How many lines below a line go on with its statement, if at the line `pending` lines go on with
one that starts above. -/
def pendingAfter (limits : Limits) (pending : Nat) (l : OwnedLine) (rest : List OwnedLine) : Nat :=
  match pending with
  | pending + 1 => pending
  | 0 => if l.isCode then (statementAt limits l rest).joined else 0

/-- The lines hold the same statements when each line is changed by `f`. The first `pending` lines
go on with a statement that starts above. -/
def ReadsAlike (limits : Limits) (f : OwnedLine → OwnedLine) (pending : Nat) :
    List OwnedLine → Prop
  | [] => True
  | l :: rest =>
    (pending = 0 → l.isCode = true →
      SameStatement (statementAt limits l rest) (statementAt limits (f l) (rest.map f))) ∧
        ReadsAlike limits f (pendingAfter limits pending l rest) rest

instance ReadsAlike.decidable (limits : Limits) (f : OwnedLine → OwnedLine) :
    (pending : Nat) → (lines : List OwnedLine) → Decidable (ReadsAlike limits f pending lines)
  | _, [] => inferInstanceAs (Decidable True)
  | pending, l :: rest =>
    haveI := ReadsAlike.decidable limits f (pendingAfter limits pending l rest) rest
    inferInstanceAs (Decidable (_ ∧ _))

/-- A statement is the same in aligned lines, if no gap is put between its lines. -/
theorem statementAt_aligned {limits : Limits} {l l' : OwnedLine} {lines lines' : List OwnedLine}
    {marked : List Bool} (halike : l.Alike l')
    (h : Aligned OwnedLine.Alike (fun _ gap => gap.IsGap) OwnedLine.IsGap lines marked lines')
    (hmarked : ∀ m ∈ marked.take (statementAt limits l lines).joined, m = false) :
    SameStatement (statementAt limits l lines) (statementAt limits l' lines') := by
  have hgather := gather_aligned h ⟨limits.maxLoopIterations, 0⟩
    (classificationCode l.content).reverse 0 (statementAt limits l lines).joined
    (Nat.zero_add _).symm hmarked
  rw [Nat.zero_add, ← halike.classificationCode_eq] at hgather
  constructor
  · exact hgather.1
  · rw [statementAt, statementAt, hgather.2, halike.classificationCode_eq]

end BlockScan

/-! ## Marks of a plan -/

/-- The marks above lines as a plan of blank lines may set them: only above a declaration that
stands below a line, and not below a line that keeps it from getting a blank line. -/
inductive BlankLine.Planned : Option OwnedLine → List (OwnedLine × Outline) → List Bool → Prop where
  | nil {above} : Planned above [] []
  | cons {above l o rows m marked}
      (hmark : m = true → isDeclaration l o = true ∧ above.any (!isSettledBelow ·) = true) :
      Planned (some l) rows marked → Planned above ((l, o) :: rows) (m :: marked)

namespace BlankLine

theorem planned_planAfter (above : Option OwnedLine) (rows : List (OwnedLine × Outline)) :
    Planned above rows (planAfter [] above rows) := by
  induction rows generalizing above with
  | nil => exact .nil
  | cons row rows ih =>
      obtain ⟨l, o⟩ := row
      rw [planAfter_cons]
      exact .cons (fun h => by rwa [Bool.and_eq_true] at h) (ih (some l))

theorem planned_unmarked (above : Option OwnedLine) (rows : List (OwnedLine × Outline)) :
    Planned above rows (rows.map fun _ => false) := by
  induction rows generalizing above with
  | nil => exact .nil
  | cons row rows ih =>
      obtain ⟨l, o⟩ := row
      exact .cons (fun h => by cases h) (ih (some l))

/-- No mark stands right below a line that keeps a declaration from getting a blank line. -/
def Fits : List OwnedLine → List Bool → Prop
  | l :: lines, _ :: marked =>
    (marked.head? = some true → isSettledBelow l = false) ∧ Fits lines marked
  | _, _ => True

theorem Planned.fits {above : Option OwnedLine} {rows : List (OwnedLine × Outline)}
    {marked : List Bool} (h : Planned above rows marked) : Fits (rows.map (·.1)) marked := by
  induction h with
  | nil => exact trivial
  | @cons above l o rows m marked _ hrest ih =>
      refine ⟨fun hhead => ?_, ih⟩
      cases hrest with
      | nil => cases hhead
      | cons hmark _ => simpa using (hmark (Option.some.inj hhead)).2

theorem isDeclaration_iff {l : OwnedLine} {o : Outline} :
    isDeclaration l o = true ↔ l.isCode = true ∧ o.opens = true ∧ o.kind = some .procedure := by
  rw [isDeclaration, Bool.and_eq_true, Bool.and_eq_true, beq_iff_eq, and_assoc]

end BlankLine

namespace BlockScan

open BlankLine

/-! ## Outlines -/

theorem pending_unmarked {limits : Limits} {pending head : Nat} {s : BlockScan}
    {lines : List OwnedLine} {above : Option OwnedLine} {marked : List Bool}
    (h : Planned above (lines.zip (outlines limits pending head s lines)) marked) :
    ∀ m ∈ marked.take pending, m = false := by
  induction lines generalizing pending head s above marked with
  | nil =>
      cases h
      simp
  | cons l lines ih =>
      cases pending with
      | zero => simp
      | succ pending =>
          cases h with
          | @cons _ _ _ _ m marked hmark hrest =>
              intro m' hm'
              rw [List.take_succ_cons] at hm'
              rcases List.mem_cons.mp hm' with rfl | hm'
              · cases hm : m' with
                | false => rfl
                | true =>
                    have hopens := (isDeclaration_iff.mp (hmark hm).1).2.1
                    cases hopens
              · exact ih hrest m' hm'

/-- Steps of the walk with the same outcome. -/
structure Step.Same (x x' : Step) : Prop where
  outline : Outline.Same x.outline x'.outline
  pending_eq : x'.pending = x.pending
  state : BlockScan.Same x.state x'.state

variable {limits : Limits} {s s' : BlockScan} {lines lines' : List OwnedLine}
  {marked : List Bool}

theorem outline_same_nesting (n n' : Nat) :
    Outline.Same { nesting := n } { nesting := n' } :=
  ⟨rfl, rfl, rfl, rfl, rfl, rfl, rfl⟩

theorem pending_step (pending head : Nat) (l : OwnedLine) :
    (step limits pending head s l lines).pending = pendingAfter limits pending l lines := by
  cases pending with
  | succ pending => rfl
  | zero =>
      simp only [step, pendingAfter]
      split
      · next hfrozen => rw [OwnedLine.isCode_of_frozen hfrozen, if_neg Bool.false_ne_true]
      · split
        · next hmarker => rw [OwnedLine.isCode_of_isMarker hmarker, if_neg Bool.false_ne_true]
        · split <;> rfl

/-- Lines of the same kind that start the same statement are steps with the same outcome. -/
theorem step_same {l l' : OwnedLine} (hkind : l.SameKind l') (hs : Same s s')
    (pending head head' : Nat)
    (hstatement : pending = 0 → l.isCode = true → SameStatement
      (statementAt limits l lines) (statementAt limits l' lines')) :
    (step limits pending head s l lines).Same (step limits pending head' s' l' lines') := by
  cases pending with
  | succ pending => exact ⟨⟨rfl, rfl, rfl, rfl, rfl, rfl, rfl⟩, rfl, hs⟩
  | zero =>
      simp only [step, hkind.frozen_eq, hkind.isMarker_eq, hkind.isCode_eq]
      split
      · exact ⟨outline_same_nesting 0 0, rfl, hs⟩
      · split
        · have hstart : SameAt (s, { nesting := s.depth }) (s', { nesting := s'.depth }) :=
            ⟨hs, outline_same_nesting _ _⟩
          have hafter := hstart.foldl_apply limits l.index l'.index
            (l.fragments.map fragmentRole)
          rw [hkind.fragments_eq]
          exact ⟨hafter.outline, rfl, hafter.state⟩
        · split
          · next hcode =>
              have hsame := hstatement rfl hcode
              have hstart : SameAt
                  (s.noting l (statementAt limits l lines), { nesting := s.depth })
                  (s'.noting l' (statementAt limits l' lines'), { nesting := s'.depth }) :=
                ⟨hs.noting _ _ _ _, outline_same_nesting _ _⟩
              have hafter := hstart.apply limits l.index l'.index
                (Role.classify (statementAt limits l lines).code)
              rw [hsame.role_eq]
              exact ⟨hafter.outline, hsame.joined_eq, hafter.state⟩
          · exact ⟨outline_same_nesting _ _, rfl, hs⟩

/-- Statements of aligned lines are the same where the walk starts one. -/
theorem sameStatement_of_aligned {f : OwnedLine → OwnedLine}
    (hkind : ∀ l, OwnedLine.SameKind l (f l)) {l l' : OwnedLine} (halike : (f l).Alike l')
    (h : Aligned (fun l l' => (f l).Alike l') (fun _ gap => gap.IsGap) OwnedLine.IsGap
      lines marked lines') {pending head : Nat} (hreads : ReadsAlike limits f pending (l :: lines))
    (hmarked : ∀ m ∈ marked.take (step limits pending head s l lines).pending, m = false)
    (hpending : pending = 0) (hcode : l.isCode = true) :
    SameStatement (statementAt limits l lines) (statementAt limits l' lines') := by
  have hsame := hreads.1 hpending hcode
  rw [pending_step, hpending, pendingAfter, if_pos hcode, ← hsame.joined_eq] at hmarked
  have hlines : Aligned OwnedLine.Alike (fun _ gap => gap.IsGap) OwnedLine.IsGap
      (lines.map f) marked lines' :=
    Aligned.map_left f (h.imp (fun _ _ _ _ => id) (fun _ _ _ _ => id)
      fun l _ hgap => (hkind l).isGap hgap)
  exact hsame.trans (statementAt_aligned halike hlines hmarked)

/-- A gap is passed over by the walk between two statements. -/
theorem step_gap {gap : OwnedLine} (h : gap.IsGap) (head : Nat) (lines : List OwnedLine) :
    step limits 0 head s gap lines = ⟨{ nesting := s.depth }, 0, 0, s⟩ := by
  simp [step, h.frozen_eq, h.isMarker_eq, h.isCode_eq]

theorem continues_apply (limits : Limits) (index : Nat) (x : BlockScan × Outline) (role : Role) :
    (apply limits index x role).2.continues = x.2.continues := by
  cases role with
  | plain => rfl
  | branch => rfl
  | case =>
      simp only [apply]
      split <;> rfl
  | start construct =>
      simp only [apply, openBlock]
      split <;> rfl
  | stop construct =>
      simp only [apply, closeBlock]
      split
      · rfl
      · split
        · split <;> rfl
        · rfl

theorem continues_foldl_apply (limits : Limits) (index : Nat) (x : BlockScan × Outline)
    (roles : List Role) :
    (roles.foldl (apply limits index) x).2.continues = x.2.continues := by
  induction roles generalizing x with
  | nil => rfl
  | cons role roles ih => rw [List.foldl_cons, ih, continues_apply]

/-- A line that no statement reaches starts one of its own. -/
theorem continues_step_zero (head : Nat) (l : OwnedLine) (lines : List OwnedLine) :
    (step limits 0 head s l lines).outline.continues.isSome = false := by
  simp only [step]
  split
  · rfl
  · split
    · rw [continues_foldl_apply]
      rfl
    · split
      · rw [continues_apply]
        rfl
      · rfl

/-- Lines with their outlines: the lines are of the same kind, and the outlines the same. -/
structure SameRow (r r' : OwnedLine × Outline) : Prop where
  kind : r.1.SameKind r'.1
  outline : r.2.Same r'.2

/-- A gap above a line that starts a statement. -/
structure GapRow (r r' : OwnedLine × Outline) : Prop where
  continues_eq : r.2.continues.isSome = false
  isGap : r'.1.IsGap

/-- The outlines of aligned lines are the same, if the gaps are planned. -/
theorem outlines_aligned {f : OwnedLine → OwnedLine} (hkind : ∀ l, OwnedLine.SameKind l (f l))
    (h : Aligned (fun l l' => (f l).Alike l') (fun _ gap => gap.IsGap) OwnedLine.IsGap
      lines marked lines') {pending head head' : Nat}
    (hreads : ReadsAlike limits f pending lines) (hs : Same s s') {above : Option OwnedLine}
    (hplanned : Planned above (lines.zip (outlines limits pending head s lines)) marked) :
    Aligned SameRow GapRow (fun r => r.1.IsGap)
      (lines.zip (outlines limits pending head s lines)) marked
      (lines'.zip (outlines limits pending head' s' lines')) := by
  induction h generalizing pending head head' s s' above with
  | nil => exact .nil
  | dropped hgap => exact .dropped hgap
  | @line l l' lines marked lines' halike hrest ih =>
      cases hplanned with
      | cons _ hplanned =>
          have hline : l.SameKind l' := (hkind l).trans halike.sameKind
          have hstep := step_same hline hs pending head head'
            (sameStatement_of_aligned hkind halike hrest hreads (pending_unmarked hplanned))
          have hreads' := hreads.2
          rw [← pending_step pending head l] at hreads'
          rw [outlines, outlines]
          simp only [hstep.pending_eq]
          exact .line ⟨hline, hstep.outline⟩ (ih hreads' hstep.state hplanned)
  | @insert l gap l' lines marked lines' hgap halike hrest ih =>
      cases hplanned with
      | cons hmark hplanned =>
          cases pending with
          | succ pending =>
              have hopens := (isDeclaration_iff.mp (hmark rfl).1).2.1
              cases hopens
          | zero =>
              have hline : l.SameKind l' := (hkind l).trans halike.sameKind
              have hstep := step_same hline hs 0 head 0
                (sameStatement_of_aligned hkind halike hrest hreads (pending_unmarked hplanned))
              have hreads' := hreads.2
              rw [← pending_step 0 head l] at hreads'
              rw [outlines, outlines, step_gap hgap, outlines]
              simp only [hstep.pending_eq]
              refine .insert ⟨?_, hgap⟩ ⟨hline, hstep.outline⟩ (ih hreads' hstep.state hplanned)
              exact continues_step_zero head l lines

end BlockScan

/-! ## Levels -/

namespace Indentation

open BlockScan

theorem level_same {l l' : OwnedLine} {o o' : Outline} (hkind : l.SameKind l') (ho : o.Same o')
    (head : Nat) (levels : LevelStack) : l'.level o' head levels = l.level o head levels := by
  simp only [OwnedLine.level, hkind.isScript_eq, hkind.frozen_eq, hkind.isComment_eq,
    hkind.isBlank_eq, ho.continues_eq, ho.closes_eq, ho.isBranch_eq, ho.isCase_eq, ho.events_eq]

theorem level_of_not_continues {o : Outline} (h : o.continues.isSome = false) (l : OwnedLine)
    (head head' : Nat) (levels : LevelStack) : l.level o head levels = l.level o head' levels := by
  simp only [OwnedLine.level, h]
  rfl

theorem level_gap {gap : OwnedLine} (h : gap.IsGap) (o : Outline) (head : Nat)
    (levels : LevelStack) : (gap.level o head levels).2 = levels := by
  simp only [OwnedLine.level, h.isBlank, Bool.or_true]
  split
  · rfl
  · split
    · rfl
    · rfl

/-- Lines with their levels: the lines are of the same kind, and the levels the same. -/
structure SameLevel (r r' : OwnedLine × Nat) : Prop where
  kind : r.1.SameKind r'.1
  level_eq : r'.2 = r.2

theorem levelsAfter_aligned {rows rows' : List (OwnedLine × Outline)} {marked : List Bool}
    (h : Aligned SameRow GapRow (fun r => r.1.IsGap) rows marked rows') (head : Nat)
    (levels : LevelStack) :
    Aligned SameLevel (fun _ r' => r'.1.IsGap) (fun r => r.1.IsGap)
      (levelsAfter [] head levels rows) marked (levelsAfter [] head levels rows') := by
  induction h generalizing head levels with
  | nil => exact .nil
  | dropped hgap => exact .dropped hgap
  | @line r r' rows marked rows' hrow _ ih =>
      obtain ⟨l, o⟩ := r
      obtain ⟨l', o'⟩ := r'
      obtain ⟨hkind, ho⟩ := hrow
      rw [levelsAfter_cons, levelsAfter_cons, level_same hkind ho, ho.continues_eq]
      exact .line ⟨hkind, rfl⟩ (ih _ _)
  | @insert r gap r' rows marked rows' hgap hrow _ ih =>
      obtain ⟨l, o⟩ := r
      obtain ⟨l', o'⟩ := r'
      obtain ⟨hkind, ho⟩ := hrow
      obtain ⟨hcontinues, hgap⟩ := hgap
      obtain ⟨gap, og⟩ := gap
      have hlevel := level_of_not_continues hcontinues l
        (if og.continues.isSome then head else (gap.level og head levels).1) head levels
      rw [levelsAfter_cons, levelsAfter_cons, levelsAfter_cons, level_gap hgap,
        level_same hkind ho, ho.continues_eq, hlevel, hcontinues]
      exact .insert hgap ⟨hkind, rfl⟩ (ih _ _)

/-! ## Comments -/

/-- What comments meet below two lines: the same level, after the same steps if there is one. -/
structure Ahead.Same (a a' : Ahead) : Prop where
  level?_eq : a'.level? = a.level?
  steps_eq : a.level?.isSome = true → a'.steps = a.steps

theorem Ahead.Same.refl (a : Ahead) : a.Same a := ⟨rfl, fun _ => rfl⟩

theorem Ahead.Same.above {a a' : Ahead} (h : a.Same a') (l : OwnedLine) (level : Nat) :
    (a.above l level).Same (a'.above l level) := by
  simp only [Ahead.above]
  split
  · exact ⟨h.level?_eq, fun hsome => congrArg (· + 1) (h.steps_eq hsome)⟩
  · split
    · exact .refl _
    · split
      · exact ⟨h.level?_eq, fun hsome => congrArg (· + 1) (h.steps_eq hsome)⟩
      · exact .refl _

theorem Ahead.above_sameKind {l l' : OwnedLine} (h : l.SameKind l') (a : Ahead) (level : Nat) :
    a.above l' level = a.above l level := by
  simp only [Ahead.above, h.isBareOpening_eq, h.isBody_eq, h.isBlank_eq, h.isComment_eq]

/-- A line that does not keep a declaration below it from getting a blank line ends the search of
every comment above it. -/
theorem Ahead.above_of_not_isSettledBelow {l : OwnedLine}
    (h : BlankLine.isSettledBelow l = false) (level : Nat) (a a' : Ahead) :
    a.above l level = a'.above l level := by
  simp only [BlankLine.isSettledBelow, Bool.or_eq_false_iff] at h
  obtain ⟨⟨⟨hblank, hcomment⟩, hmarker⟩, -⟩ := h
  simp [Ahead.above, OwnedLine.isBareOpening, hblank, hcomment, hmarker]

theorem Ahead.above_gap {gap : OwnedLine} (h : gap.IsGap) (a : Ahead) (level : Nat) :
    a.above gap level = { a with steps := a.steps + 1 } := by
  simp [Ahead.above, OwnedLine.isBareOpening, h.isMarker_eq, h.isBody, h.isBlank]

theorem Settled.levels_sameKind {l l' : OwnedLine} (h : l.SameKind l') (limits : Limits)
    (level : Nat) (s : Settled) :
    (s.above limits (l', level)).levels = (s.above limits (l, level)).levels := by
  simp only [Settled.above, h.isBody_eq, h.isComment_eq]
  split
  · split <;> rfl
  · rfl

/-- The level of a comment depends on what it meets. -/
theorem Settled.levels_same {s s' : Settled} (h : s.ahead.Same s'.ahead) (limits : Limits)
    (l : OwnedLine) (level : Nat) :
    ∃ x, (s.above limits (l, level)).levels = x :: s.levels ∧
      (s'.above limits (l, level)).levels = x :: s'.levels := by
  simp only [Settled.above, h.level?_eq]
  split
  · cases hlevel : s.ahead.level? with
    | none =>
        refine ⟨level, ?_, ?_⟩
        · split <;> rfl
        · split <;> rfl
    | some x =>
        rw [h.steps_eq (by rw [hlevel]; rfl)]
        split
        · exact ⟨x, rfl, rfl⟩
        · exact ⟨level, rfl, rfl⟩
  · exact ⟨level, rfl, rfl⟩

/-- One line above aligned lines. What stands below it may differ where the line itself ends the
search of comments. -/
theorem Settled.above_same {s s' : Settled} {l l' : OwnedLine}
    (h : BlankLine.isSettledBelow l = false ∨ s.ahead.Same s'.ahead) (hkind : l.SameKind l')
    (limits : Limits) (level : Nat) :
    (∃ x, (s.above limits (l, level)).levels = x :: s.levels ∧
      (s'.above limits (l', level)).levels = x :: s'.levels) ∧
      (s.above limits (l, level)).ahead.Same (s'.above limits (l', level)).ahead := by
  rw [levels_sameKind hkind, above_ahead, above_ahead, Ahead.above_sameKind hkind]
  rcases h with hends | hsame
  · have hcomment : l.isComment = false := by
      simp only [BlankLine.isSettledBelow, Bool.or_eq_false_iff] at hends
      exact hends.1.1.2
    refine ⟨⟨level, ?_, ?_⟩, ?_⟩
    · simp [Settled.above, hcomment]
    · simp [Settled.above, hcomment]
    · rw [Ahead.above_of_not_isSettledBelow hends level s.ahead s'.ahead]
      exact .refl _
  · exact ⟨levels_same hsame limits l level, hsame.above l level⟩

theorem Settled.exists_levels (limits : Limits) (row : OwnedLine × Nat) (s : Settled) :
    ∃ x, (s.above limits row).levels = x :: s.levels := by
  obtain ⟨l, level⟩ := row
  rcases above_levels limits l level s with h | ⟨x, -, h⟩
  · exact ⟨level, h⟩
  · exact ⟨x, h⟩

/-- The levels of aligned lines are the same after comments are settled. -/
theorem settled_aligned {rows rows' : List (OwnedLine × Nat)} {marked : List Bool}
    (h : Aligned SameLevel (fun _ r' => r'.1.IsGap) (fun r => r.1.IsGap) rows marked rows')
    (hfits : BlankLine.Fits (rows.map (·.1)) marked) (limits : Limits) :
    (marked.head? = some true ∨ (rows.foldr (Settled.above limits) {}).ahead.Same
      (rows'.foldr (Settled.above limits) {}).ahead) ∧
      Aligned (fun r r' => r'.2 = r.2) (fun _ _ => True) (fun _ => True)
        ((rows.map (·.1)).zip (rows.foldr (Settled.above limits) {}).levels) marked
        ((rows'.map (·.1)).zip (rows'.foldr (Settled.above limits) {}).levels) := by
  induction h with
  | nil => exact ⟨.inr (.refl _), .nil⟩
  | @dropped r hgap =>
      obtain ⟨l, level⟩ := r
      constructor
      · right
        rw [List.foldr_cons, Settled.above_ahead, Ahead.above_gap hgap]
        exact ⟨rfl, fun h => by cases h⟩
      · obtain ⟨x, hx⟩ := Settled.exists_levels limits (l, level) {}
        rw [List.foldr_cons, List.foldr_nil, hx]
        exact .dropped trivial
  | @line r r' rows marked rows' hrow _ ih =>
      obtain ⟨l, level⟩ := r
      obtain ⟨l', level'⟩ := r'
      obtain ⟨hkind, hlevel⟩ := hrow
      obtain rfl : level' = level := hlevel
      obtain ⟨hahead, hrest⟩ := ih hfits.2
      obtain ⟨⟨x, hx, hx'⟩, hsame⟩ :=
        Settled.above_same (hahead.imp_left hfits.1) hkind limits level'
      refine ⟨.inr hsame, ?_⟩
      rw [List.foldr_cons, List.foldr_cons, hx, hx']
      exact .line rfl hrest
  | @insert r gap r' rows marked rows' hgap hrow _ ih =>
      obtain ⟨l, level⟩ := r
      obtain ⟨l', level'⟩ := r'
      obtain ⟨gap, gapLevel⟩ := gap
      obtain ⟨hkind, hlevel⟩ := hrow
      obtain rfl : level' = level := hlevel
      obtain ⟨hahead, hrest⟩ := ih hfits.2
      obtain ⟨⟨x, hx, hx'⟩, -⟩ :=
        Settled.above_same (hahead.imp_left hfits.1) hkind limits level'
      refine ⟨.inl rfl, ?_⟩
      obtain ⟨y, hy⟩ := Settled.exists_levels limits (gap, gapLevel)
        ((rows'.foldr (Settled.above limits) {}).above limits (l', level'))
      rw [List.foldr_cons, List.foldr_cons, List.foldr_cons, hy, hx, hx']
      exact .insert trivial rfl hrest

end Indentation

/-! ## The plan and the levels of a text -/

namespace BlankLine

open BlockScan

/-- Aligned lines get no more blank lines: where one is planned, there is a gap now. -/
theorem planAfter_aligned {rows rows' : List (OwnedLine × Outline)} {marked : List Bool}
    (h : Aligned SameRow GapRow (fun r => r.1.IsGap) rows marked rows')
    {above above' : Option OwnedLine} (hmarked : marked = planAfter [] above rows)
    (habove : above'.any (!isSettledBelow ·) = above.any (!isSettledBelow ·)) :
    ∀ m ∈ planAfter [] above' rows', m = false := by
  induction h generalizing above above' with
  | nil => simp [planAfter]
  | dropped => simp [planAfter]
  | @line r r' rows marked rows' hrow _ ih =>
      obtain ⟨l, o⟩ := r
      obtain ⟨l', o'⟩ := r'
      obtain ⟨hkind, ho⟩ := hrow
      rw [planAfter_cons, List.cons.injEq] at hmarked
      have hdecl : isDeclaration l' o' = isDeclaration l o := by
        rw [isDeclaration, isDeclaration, hkind.isCode_eq, ho.opens_eq, ho.kind_eq]
      intro m hm
      rw [planAfter_cons, hdecl, habove, ← hmarked.1] at hm
      rcases List.mem_cons.mp hm with rfl | hm
      · rfl
      · exact ih hmarked.2 (by simp [hkind.isSettledBelow_eq]) m hm
  | @insert r gap r' rows marked rows' hgap hrow _ ih =>
      obtain ⟨l, o⟩ := r
      obtain ⟨l', o'⟩ := r'
      obtain ⟨gap, og⟩ := gap
      rw [planAfter_cons, List.cons.injEq] at hmarked
      have hdecl : isDeclaration gap og = false := by
        rw [isDeclaration, hgap.isGap.isCode_eq, Bool.false_and, Bool.false_and]
      have hbelow : (some gap).any (!isSettledBelow ·) = false := by
        simp [hgap.isGap.isSettledBelow_eq]
      intro m hm
      rw [planAfter_cons, planAfter_cons, hdecl, hbelow, Bool.false_and, Bool.and_false] at hm
      rcases List.mem_cons.mp hm with rfl | hm
      · rfl
      · rcases List.mem_cons.mp hm with rfl | hm
        · rfl
        · exact ih hmarked.2 (by simp [hrow.kind.isSettledBelow_eq]) m hm

end BlankLine

namespace Format

variable {config : Config} {text text' : List Char}

theorem planned_plan (config : Config) (text : List Char) :
    BlankLine.Planned none (Layout.outlined config.limits text) (plan config text) := by
  simp only [plan]
  split
  · exact BlankLine.planned_planAfter none _
  · exact BlankLine.planned_unmarked none _

/-- Texts with the same outlines, but for gaps where the plan of the first has them. -/
def Relaid (config : Config) (text text' : List Char) : Prop :=
  Aligned BlockScan.SameRow BlockScan.GapRow (fun r => r.1.IsGap)
    (Layout.outlined config.limits text) (plan config text)
    (Layout.outlined config.limits text')

/-- Lines that are aligned once they are changed by `f` make the text relaid, if `f` keeps the
kinds of lines and the statements. -/
theorem relaid_of_aligned {f : OwnedLine → OwnedLine} (hkind : ∀ l, OwnedLine.SameKind l (f l))
    (h : Aligned (fun l l' => (f l).Alike l') (fun _ gap => gap.IsGap) OwnedLine.IsGap
      ((Document.ofText text).limited config.limits).lines (plan config text)
      ((Document.ofText text').limited config.limits).lines)
    (hreads : BlockScan.ReadsAlike config.limits f 0
      ((Document.ofText text).limited config.limits).lines) : Relaid config text text' :=
  BlockScan.outlines_aligned hkind h hreads (.refl {}) (planned_plan config text)

/-- No blank line is planned in the second text. -/
theorem Relaid.plan_eq_false (h : Relaid config text text') :
    ∀ m ∈ plan config text', m = false := by
  intro m hm
  cases hblank : config.blankLines with
  | false => exact plan_of_not_blankLines hblank text' m hm
  | true =>
      have hplan : ∀ text, plan config text =
          BlankLine.planAfter [] none (Layout.outlined config.limits text) := by
        intro text
        simp [plan, hblank, BlankLine.plan]
      rw [hplan] at hm
      exact BlankLine.planAfter_aligned h (hplan text) rfl m hm

/-- The lines of the two texts have the same levels. -/
theorem Relaid.levels (h : Relaid config text text') :
    Aligned (fun r r' => r'.2 = r.2) (fun _ _ => True) (fun _ => True)
      (leveled config.limits text) (plan config text) (leveled config.limits text') := by
  have hlevels := Indentation.levelsAfter_aligned h 0 []
  have hfits := (planned_plan config text).fits
  rw [← Indentation.map_fst_levelsAfter 0 []] at hfits
  have hsettled := (Indentation.settled_aligned hlevels hfits config.limits).2
  rw [Indentation.map_fst_levelsAfter, Indentation.map_fst_levelsAfter] at hsettled
  exact hsettled

end Format

end ClassicAsp
