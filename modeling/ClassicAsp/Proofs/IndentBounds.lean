import ClassicAsp.Proofs.InnermostBlocks
import ClassicAsp.Proofs.LeadingWords
import ClassicAsp.Proofs.Preservation

/-! # Bounds of levels

A level is what the open blocks add, and one more for a line that continues a statement. There are
no more open blocks than the nesting ceiling allows, and what opens a block has at least as many
characters as the block adds levels, also where many blocks are opened on one line. So a level is
bounded by the ceiling and by the length of the text, and the spaces of an indent can be counted in
a word. -/

namespace ClassicAsp

open Text Block BlockScan

/-! ## How long an opening is -/

theorem Text.length_of_dropFolded? {word cs rest : List Char}
    (h : dropFolded? word cs = some rest) : cs.length = word.length + rest.length := by
  induction word generalizing cs with
  | nil =>
      obtain rfl := Option.some.inj h
      simp
  | cons p word ih =>
      cases cs with
      | nil => cases h
      | cons c cs =>
          rw [dropFolded?] at h
          split at h
          · have := ih h
            simp only [List.length_cons]
            omega
          · cases h

theorem Text.length_trimStart_le (cs : List Char) : (trimStart cs).length ≤ cs.length :=
  (List.dropWhile_sublist isBlank).length_le

theorem Text.length_trim_le (cs : List Char) : (trim cs).length ≤ cs.length := by
  obtain ⟨back, -, hcs⟩ := exists_trim cs
  have hlength := congrArg List.length hcs
  simp only [List.length_append] at hlength
  omega

theorem Text.length_le_of_mem_splitAt {sep : Char → Bool} {cs piece : List Char}
    (h : piece ∈ Text.splitAt sep cs) : piece.length ≤ cs.length := by
  induction cs generalizing piece with
  | nil => simp_all
  | cons c cs ih =>
      cases hc : sep c with
      | true =>
          rw [splitAt_cons_sep hc, List.mem_cons] at h
          rcases h with rfl | h
          · simp
          · exact Nat.le_succ_of_le (ih h)
      | false =>
          rw [splitAt_cons_of_not hc] at h
          cases hpieces : Text.splitAt sep cs with
          | nil => simp [hpieces] at h
          | cons first pieces =>
              rw [hpieces, List.modifyHead_cons, List.mem_cons] at h
              rcases h with rfl | h
              · exact Nat.succ_le_succ (ih (by simp [hpieces]))
              · exact Nat.le_succ_of_le (ih (by simp [hpieces, h]))

theorem Statement.length_lt_of_gap? {cs rest : List Char} (h : gap? cs = some rest) :
    rest.length < cs.length := by
  cases cs with
  | nil => cases h
  | cons c cs =>
      rw [gap?] at h
      split at h
      · obtain rfl := Option.some.inj h
        exact Nat.lt_succ_of_le (length_trimStart_le cs)
      · cases h

theorem Statement.length_le_of_phrase? {words : List String} {cs rest : List Char}
    (h : phrase? words cs = some rest) :
    (words.map (·.toList.length)).sum + rest.length ≤ cs.length := by
  induction words generalizing cs with
  | nil =>
      obtain rfl := Option.some.inj h
      simp
  | cons word words ih =>
      rw [List.map_cons, List.sum_cons]
      cases words with
      | nil =>
          have := length_of_dropFolded? h
          simp only [List.map_nil, List.sum_nil]
          omega
      | cons next words =>
          rw [phrase?_cons_cons, Option.bind_eq_some_iff] at h
          obtain ⟨back, hback, hrest⟩ := h
          obtain ⟨after, hafter, hgap⟩ := Option.bind_eq_some_iff.mp hback
          have hword := length_of_dropFolded? hafter
          have hblank := length_lt_of_gap? hgap
          have := ih hrest
          omega

theorem Statement.length_le_of_startsWith {words : List String} {cs : List Char}
    (h : startsWith words cs = true) : (words.map (·.toList.length)).sum ≤ cs.length := by
  rw [startsWith, Option.any_eq_true] at h
  obtain ⟨rest, hrest, -⟩ := h
  have := length_le_of_phrase? hrest
  omega

theorem Piece.cut_singleton {c : Char} (hquote : c ≠ '"') (hmark : c ≠ '\x27') :
    cut [c] = [.code c] := by
  have hliteral : literalLength? c [] = none := by simp [literalLength?, dateLength?, hquote]
  have hcomment : comment? c [] = none := by simp [comment?, startsRem, trimStart, hmark]
  simp only [cut, cutAfter, hliteral, hcomment, List.reverse_singleton]

/-- One character is a literal at most, and its placeholder has three. -/
theorem length_classificationCode_singleton (c : Char) :
    (classificationCode [c]).length ≤ 3 := by
  have htrim : (trim [c]).length ≤ 3 := Nat.le_trans (length_trim_le [c]) (by simp)
  by_cases hquote : c = '"'
  · subst hquote
    decide
  · by_cases hmark : c = '\x27'
    · subst hmark
      decide
    · simp only [classificationCode, Masked.ofLine, Piece.cut_singleton hquote hmark]
      split
      · next m hm =>
          split at hm
          · cases hm
          · obtain rfl := Except.ok.inj hm
            exact htrim
      · exact htrim

theorem bodyIndent_le_one {construct : Construct} (h : construct ≠ .selectCase) :
    construct.kind.bodyIndent ≤ 1 := by
  cases construct with
  | selectCase => exact absurd rfl h
  | _ => decide

/-- The levels that a statement with a role adds for the lines below it. -/
def Role.indent : Role → Nat
  | .start construct => construct.kind.bodyIndent
  | _ => 0

theorem Role.indent_le_two (role : Role) : role.indent ≤ 2 := by
  cases role with
  | start construct => exact Indentation.bodyIndent_le construct.kind
  | _ => exact Nat.zero_le 2

/-- What opens a block other than an `If` is a statement of the code. -/
theorem Role.holds_of_classify {code : List Char} {construct : Construct}
    (h : classify code = .start construct) (hif : construct ≠ .ifThen) :
    ∃ first ∈ Statement.splitCode (trim code), construct.openingForm.holds first = true := by
  rw [classify, classifyWith] at h
  split at h
  · cases h
  · next first later hcode =>
      refine ⟨first, by simp [hcode], ?_⟩
      split at h
      · cases h
      · split at h
        · cases h
        · split at h
          · cases h
          · split at h
            · exact absurd (Role.start.inj h).symm hif
            · split at h
              · cases h
              · next c hfind =>
                  split at h
                  · cases h
                  · obtain rfl := Role.start.inj h
                    have hholds := List.find?_some hfind
                    exact hholds

/-- A selection is opened by ten letters at least. -/
theorem Role.ten_le_length_of_selection {code : List Char}
    (h : classify code = .start .selectCase) : 10 ≤ code.length := by
  obtain ⟨first, hfirst, hholds⟩ := holds_of_classify h (by decide)
  obtain ⟨piece, hpiece, rfl⟩ := List.mem_map.mp (List.mem_filter.mp hfirst).1
  calc
    10 ≤ (trim piece).length := Statement.length_le_of_startsWith hholds
    _ ≤ piece.length := length_trim_le piece
    _ ≤ (trim code).length := length_le_of_mem_splitAt hpiece
    _ ≤ code.length := length_trim_le code

theorem Role.indent_classify_le_one {code : List Char} (h : code.length < 10) :
    (classify code).indent ≤ 1 := by
  cases hrole : classify code with
  | start construct =>
      refine bodyIndent_le_one fun hselect => ?_
      rw [hselect] at hrole
      have := ten_le_length_of_selection hrole
      omega
  | _ => exact Nat.zero_le 1

/-- A statement adds no more levels than it has characters. -/
theorem Role.indent_classify_le (code : List Char) :
    (classify (classificationCode code)).indent ≤ code.length := by
  match code with
  | [] => decide
  | [c] =>
      have := length_classificationCode_singleton c
      exact indent_classify_le_one (by omega)
  | c :: d :: code =>
      refine Nat.le_trans (indent_le_two _) ?_
      simp

theorem indent_fragmentRole_le (fragment : List Char) :
    (fragmentRole fragment).indent ≤ fragment.length := by
  rw [fragmentRole]
  split
  · exact Nat.zero_le _
  · exact Nat.zero_le _
  · exact Nat.le_trans (Role.indent_classify_le _) (length_trim_le fragment)

/-! ## What a line adds -/

/-- The levels that a change of the open blocks adds for the lines below it. -/
def BlockEvent.indent : BlockEvent → Nat
  | .opened kind => kind.bodyIndent
  | .closed => 0

/-- The levels that the openings on a line add for those below it. -/
def Outline.indent (o : Outline) : Nat := (o.events.toList.map BlockEvent.indent).sum

@[simp] theorem Outline.indent_nesting (nesting : Nat) : Outline.indent { nesting } = 0 := rfl

namespace BlockScan

theorem indent_apply_le (limits : Limits) (index : Nat) (x : BlockScan × Outline) (role : Role) :
    (apply limits index x role).2.indent ≤ x.2.indent + role.indent := by
  cases role with
  | plain => exact Nat.le_add_right _ _
  | branch => exact Nat.le_add_right _ _
  | case =>
      simp only [apply]
      split <;> exact Nat.le_add_right _ _
  | start construct =>
      simp only [apply, openBlock]
      split
      · exact Nat.le_add_right _ _
      · simp [Outline.indent, BlockEvent.indent, Role.indent]
  | stop construct =>
      simp only [apply, closeBlock]
      split
      · exact Nat.le_add_right _ _
      · split
        · split
          · exact Nat.le_add_right _ _
          · simp [Outline.indent, BlockEvent.indent]
        · exact Nat.le_add_right _ _

theorem indent_foldl_apply_le (limits : Limits) (index : Nat) (x : BlockScan × Outline)
    (roles : List Role) :
    (roles.foldl (apply limits index) x).2.indent ≤
      x.2.indent + (roles.map Role.indent).sum := by
  induction roles generalizing x with
  | nil => simp
  | cons role roles ih =>
      have hstep := indent_apply_le limits index x role
      have hrest := ih (apply limits index x role)
      rw [List.foldl_cons, List.map_cons, List.sum_cons]
      omega

/-- The statement of a line of code adds no more levels than the line has characters, its ending
included. -/
theorem indent_statementAt_le (limits : Limits) {line : OwnedLine} (hcode : line.isCode = true)
    {rest : List OwnedLine} (hending : rest = [] ∨ line.ending.text ≠ []) :
    (Role.classify (statementAt limits line rest).code).indent ≤
      line.content.length + line.ending.text.length := by
  rcases hending with rfl | hending
  · have hone : (statementAt limits line []).code = classificationCode line.content := by
      rw [statementAt, gather, List.reverse_reverse]
    rw [hone]
    exact Nat.le_add_right_of_le (Role.indent_classify_le line.content)
  · -- a statement of several lines may have its keywords below this one, but the line is not empty
    have hcontent : line.content ≠ [] := by
      rintro hnil
      simp [OwnedLine.isCode, Line.isBlank, hnil, Text.allBlank] at hcode
    have := List.length_pos_iff.mpr hcontent
    have := List.length_pos_iff.mpr hending
    have := Role.indent_le_two (Role.classify (statementAt limits line rest).code)
    omega

/-- A line adds no more levels than it has characters. -/
theorem indent_step_le (limits : Limits) (pending head : Nat) (s : BlockScan) {line : OwnedLine}
    {rest : List OwnedLine} {inside : Bool}
    (howner : line.owner = Owner.ofContent inside line.content)
    (hending : rest = [] ∨ line.ending.text ≠ []) :
    (step limits pending head s line rest).outline.indent ≤
      line.content.length + line.ending.text.length := by
  cases pending with
  | succ pending => exact Nat.zero_le _
  | zero =>
      simp only [step]
      split
      · exact Nat.zero_le _
      · split
        · have hroles := indent_foldl_apply_le limits line.index (s, { nesting := s.depth })
            (line.fragments.map fragmentRole)
          have hfragments := sum_fragments_le (fun fragment => (fragmentRole fragment).indent)
            (fun fragment _ => indent_fragmentRole_le fragment) howner
          rw [List.map_map, Outline.indent_nesting, Nat.zero_add] at hroles
          exact Nat.le_add_right_of_le (Nat.le_trans hroles hfragments)
        · split
          · next hcode =>
              have hrole := indent_apply_le limits line.index
                (s.noting line (statementAt limits line rest), { nesting := s.depth })
                (Role.classify (statementAt limits line rest).code)
              rw [Outline.indent_nesting, Nat.zero_add] at hrole
              exact Nat.le_trans hrole (indent_statementAt_le limits hcode hending)
          · exact Nat.zero_le _

/-! ## The indent of the open blocks -/

/-- The level of the innermost open body. -/
def indent (s : BlockScan) : Nat := (s.openKinds.map (·.bodyIndent)).sum

theorem current_ofKinds_openKinds (s : BlockScan) :
    (LevelStack.ofKinds s.openKinds).current = s.indent :=
  LevelStack.current_ofKinds s.openKinds

theorem current_foldl_replay_le (kinds : List BlockKind) (events : List BlockEvent) :
    (events.foldl LevelStack.replay (.ofKinds kinds)).current ≤
      (LevelStack.ofKinds kinds).current + (events.map BlockEvent.indent).sum := by
  induction events generalizing kinds with
  | nil => simp
  | cons event events ih =>
      rw [List.foldl_cons, List.map_cons, List.sum_cons]
      cases event with
      | opened kind =>
          have hrest := ih (kind :: kinds)
          have hcurrent : (LevelStack.ofKinds (kind :: kinds)).current =
              (LevelStack.ofKinds kinds).current + kind.bodyIndent := rfl
          rw [hcurrent] at hrest
          have hreplay : LevelStack.replay (.ofKinds kinds) (.opened kind) =
              .ofKinds (kind :: kinds) := rfl
          rw [hreplay, BlockEvent.indent]
          omega
      | closed =>
          have hrest := ih kinds.tail
          have hreplay : LevelStack.replay (.ofKinds kinds) .closed = .ofKinds kinds.tail := by
            cases kinds <;> rfl
          have hcurrent : (LevelStack.ofKinds kinds.tail).current ≤
              (LevelStack.ofKinds kinds).current := by
            cases kinds with
            | nil => exact Nat.le_refl _
            | cons kind kinds => exact Nat.le_add_right _ _
          rw [hreplay]
          omega

variable {limits : Limits}

theorem indent_state_step_le {n : Nat} (pending head : Nat) {s : BlockScan} {line : OwnedLine}
    (rest : List OwnedLine) (hindex : line.index = n)
    (hsound : Sound limits.maxNestingDepth n s.arena s.stack) :
    (step limits pending head s line rest).state.indent ≤
      s.indent + (step limits pending head s line rest).outline.indent := by
  have hle := current_foldl_replay_le s.openKinds
    (step limits pending head s line rest).outline.events.toList
  rw [Array.foldl_toList, replay_step pending head rest hindex hsound] at hle
  rwa [current_ofKinds_openKinds, current_ofKinds_openKinds] at hle

theorem sum_bodyIndent_le (kinds : List BlockKind) :
    (kinds.map (·.bodyIndent)).sum ≤ 2 * kinds.length := by
  induction kinds with
  | nil => simp
  | cons kind kinds ih =>
      have := Indentation.bodyIndent_le kind
      rw [List.map_cons, List.sum_cons, List.length_cons]
      omega

/-- The open blocks are not more than the ceiling allows, and each adds two levels at most. -/
theorem indent_le_of_sound {limit n : Nat} {s : BlockScan} (h : Sound limit n s.arena s.stack) :
    s.indent ≤ 2 * limit := by
  have hdepth : s.stack.length ≤ limit := by
    have hopened := h.opened
    generalize s.stack = stack at hopened
    cases hopened with
    | nil => exact Nat.zero_le _
    | @cons number block rest hblock _ hdepth =>
        have := h.depth_lt number block hblock
        rw [List.length_cons]
        omega
  have hkinds : s.openKinds.length ≤ s.stack.length := List.length_filterMap_le _ _
  have hsum : s.indent ≤ 2 * s.openKinds.length := sum_bodyIndent_le s.openKinds
  omega

/-! ## Bounds along the walk -/

open Document in
/-- What the lines of a text add is paid for by their characters. -/
theorem indent_passages_le {inside : Bool} {pieces : List (List Char × Ending)}
    {lines : List OwnedLine} (howned : Owned inside pieces lines)
    (hcanonical : Line.Canonical pieces) {n : Nat} (pending head : Nat) {s : BlockScan}
    (hlines : Numbered n lines) (hsound : Sound limits.maxNestingDepth n s.arena s.stack) :
    ∀ p ∈ passages limits pending head s lines,
      p.before.indent ≤ s.indent + (Line.join pieces).length ∧
        (p.step limits).state.indent ≤ s.indent + (Line.join pieces).length := by
  induction howned generalizing n pending head s with
  | nil => simp [passages]
  | @cons inside pieces line lines howner hrest ih =>
      have hending : lines = [] ∨ line.ending.text ≠ [] := by
        cases hnone : line.ending with
        | none =>
            have hnil := hcanonical.eq_nil_of_none hnone
            rw [hrest.pieces_eq, List.map_eq_nil_iff] at hnil
            exact .inl hnil
        | lf => exact .inr (by decide)
        | crlf => exact .inr (by decide)
      have hline := indent_step_le limits pending head s howner hending
      have hstate := indent_state_step_le pending head lines hlines.head hsound
      have hafter := ih hcanonical.tail (step limits pending head s line lines).pending
        (step limits pending head s line lines).head hlines.tail
        (sound_step pending head lines hlines.head hsound)
      have hlength : (Line.join ((line.content, line.ending) :: pieces)).length =
          line.content.length + line.ending.text.length + (Line.join pieces).length := by
        rw [Line.join_cons, List.length_append, List.length_append]
      intro p hp
      rcases List.mem_cons.mp hp with rfl | hp
      · simp only [Passage.step]
        omega
      · have := hafter p hp
        omega

/-- If the open blocks never add more levels than some bound, no line stands deeper than one level
below it. -/
theorem levelsAfter_le_of_indent {bound n : Nat} {pending head : Nat} {s : BlockScan}
    {lines : List OwnedLine} (hlines : Numbered n lines) (hshow : ShowMarkers lines)
    (hsound : Sound limits.maxNestingDepth n s.arena s.stack)
    (hindent : ∀ p ∈ passages limits pending head s lines,
      p.before.indent ≤ bound ∧ (p.step limits).state.indent ≤ bound)
    {level : Nat} (hlevel : level ≤ bound) :
    ∀ r ∈ Indentation.levelsAfter [] level (.ofKinds s.openKinds)
      (lines.zip (outlines limits pending head s lines)), r.2 ≤ bound + 1 := by
  induction lines generalizing n pending head s level with
  | nil => simp [outlines, Indentation.levelsAfter]
  | cons line rest ih =>
      rw [outlines, List.zip_cons_cons, Indentation.levelsAfter_cons]
      have hreplay := replay_step pending head rest hlines.head hsound
      obtain ⟨hbefore, hafter⟩ := hindent ⟨line, rest, pending, head, s⟩ List.mem_cons_self
      rw [← current_ofKinds_openKinds] at hbefore hafter
      simp only [Passage.step, ← hreplay] at hafter
      intro r hr
      rcases List.mem_cons.mp hr with rfl | hr
      · exact (Indentation.level_le line hlevel hbefore hafter).1
      · rw [level_snd_step pending head rest hlines.head (hshow line List.mem_cons_self)
          hsound] at hr
        exact ih hlines.tail (fun l hl => hshow l (List.mem_cons_of_mem _ hl))
          (sound_step pending head rest hlines.head hsound)
          (fun p hp => hindent p (List.mem_cons_of_mem _ hp))
          (Indentation.next_head_le line hlevel hbefore hafter) r hr

end BlockScan

/-- A line stands one level deeper, at most, than the nesting ceiling allows for open blocks and
than the text has characters. -/
theorem Layout.level_le (limits : Limits) (text : List Char) {row : (OwnedLine × Outline) × Nat}
    (h : row ∈ (Layout.ofText limits text).lines) :
    row.2 ≤ min (2 * limits.maxNestingDepth) text.length + 1 := by
  have hnumbered := Document.numbered_limited limits text
  have howned := Document.owned_limited limits text
  have hindent : ∀ p ∈ passages limits 0 0 {} ((Document.ofText text).limited limits).lines,
      p.before.indent ≤ min (2 * limits.maxNestingDepth) text.length ∧
        (p.step limits).state.indent ≤ min (2 * limits.maxNestingDepth) text.length := by
    intro p hp
    have hbefore := indent_le_of_sound ((sound_passages hnumbered).1 p hp)
    have hafter := indent_le_of_sound (sound_after hnumbered hp)
    have htext := indent_passages_le howned (Line.canonical_pieces text) 0 0 hnumbered
      (sound_initial _) p hp
    have hnone : ({} : BlockScan).indent = 0 := rfl
    rw [Line.join_pieces, hnone, Nat.zero_add] at htext
    exact ⟨le_min hbefore htext.1, le_min hafter htext.2⟩
  have hlevels := levelsAfter_le_of_indent hnumbered howned.showMarkers (sound_initial _) hindent
    (Nat.zero_le _)
  rw [Layout.lines_ofText] at h
  exact (Indentation.settled_le limits hlevels).1 row.2 (List.of_mem_zip h).2

/-! ## Indents -/

/-- Every line of a text has a level, which is bounded by the nesting ceiling and by the length of
the text in bytes. Settings in order stay so under the directive of the text, so that the spaces of
an indent fit in a word if the text has less than 2^58 bytes: they are counted without overflow, and
the text is formatted. -/
theorem Format.indents_never_overflow (text : List Char) :
    (∀ limits : Limits,
      (Layout.ofText limits text).lines.length = (Line.split text).length ∧
      ∀ row ∈ (Layout.ofText limits text).lines,
        row.2 ≤ 2 * limits.maxNestingDepth + 1 ∧ row.2 ≤ byteLength text + 1) ∧
    ∀ config : Config, config.problem? = none →
      let settings := config.within text
      settings.problem? = none ∧ 1 ≤ settings.indent ∧ settings.indent ≤ Config.maxIndent ∧
      (byteLength text < 2 ^ 58 →
        (∀ row ∈ (Layout.ofText settings.limits text).lines,
          row.2 * settings.indent ≤ maxWord ∧
            indentText? row.2 settings.indent =
              some (List.replicate (row.2 * settings.indent) ' ')) ∧
        ∀ table, ∃ out, format config table text = .ok out) := by
  have hlength := length_le_byteLength text
  have hlevel : ∀ limits : Limits, ∀ row ∈ (Layout.ofText limits text).lines,
      row.2 ≤ 2 * limits.maxNestingDepth + 1 ∧ row.2 ≤ byteLength text + 1 := by
    intro limits row hrow
    have := Layout.level_le limits text hrow
    omega
  have hlines : ∀ limits : Limits,
      (Layout.ofText limits text).lines.length = (Line.split text).length := by
    intro limits
    rw [Analysis.length_layout, Document.length_limited, Line.length_split]
  refine ⟨fun limits => ⟨hlines limits, hlevel limits⟩, ?_⟩
  intro config hconfig settings
  have hsettings : settings.problem? = none := Config.problem?_within hconfig text
  obtain ⟨⟨hone, hmax⟩, -⟩ := Config.problem?_eq_none_iff.mp hsettings
  refine ⟨hsettings, hone, hmax, fun htext => ⟨fun row hrow => ?_, fun table => ?_⟩⟩
  · have hsize : row.2 * settings.indent ≤ maxTextSize := by
      have := (hlevel settings.limits row hrow).2
      calc
        row.2 * settings.indent ≤ 2 ^ 58 * 16 := Nat.mul_le_mul (by omega) hmax
        _ ≤ maxTextSize := by decide
    exact ⟨Nat.le_trans hsize (by decide), exists_indentText hsize⟩
  · exact exists_format hconfig table (Nat.lt_of_lt_of_le htext (by decide))

/-- The theorem at a page that asks for the widest indent, at the line that meets the bound which
the nesting ceiling gives. -/
theorem Format.indents_never_overflow_page :
    ∃ (text : List Char) (config : Config) (row : (OwnedLine × Outline) × Nat),
      text = "<%\n' aspfmt: -i 16\nselect case a\ncase 1\nb = c _\n+ d".toList ∧
      config = { limits := { maxNestingDepth := 1 } } ∧ config.problem? = none ∧
      byteLength text < 2 ^ 58 ∧ config.within text = { config with indent := 16 } ∧
      (config.within text).problem? = none ∧ row ∈ (Layout.ofText config.limits text).lines ∧
      row.2 = 3 ∧ row.2 ≤ 2 * 1 + 1 ∧ row.2 ≤ byteLength text + 1 ∧ row.2 * 16 ≤ maxWord ∧
      indentText? row.2 16 = some (List.replicate (row.2 * 16) ' ') ∧
      ∃ out, format config .bundled text = .ok out := by
  obtain ⟨text, htext⟩ : ∃ text, text =
    "<%\n' aspfmt: -i 16\nselect case a\ncase 1\nb = c _\n+ d".toList := ⟨_, rfl⟩
  obtain ⟨hlevels, hconfigs⟩ := indents_never_overflow text
  have hbytes : byteLength text < 2 ^ 58 := by rw [htext]; decide +kernel
  have hwithin : Config.within { limits := { maxNestingDepth := 1 } } text =
      { indent := 16, limits := { maxNestingDepth := 1 } } := by rw [htext]; decide +kernel
  obtain ⟨row, hrow, hthree⟩ :
      ∃ row ∈ (Layout.ofText { maxNestingDepth := 1 } text).lines, row.2 = 3 :=
    List.mem_map.mp (by rw [htext]; decide +kernel)
  obtain ⟨hsettings, -, -, hindents⟩ :=
    hconfigs { limits := { maxNestingDepth := 1 } } (by decide)
  obtain ⟨hrows, hout⟩ := hindents hbytes
  rw [hwithin] at hrows
  obtain ⟨hdepth, hlength⟩ := (hlevels { maxNestingDepth := 1 }).2 row hrow
  obtain ⟨hword, hspaces⟩ := hrows row hrow
  exact ⟨text, _, row, htext, rfl, by decide, hbytes, hwithin, hsettings, hrow, hthree, hdepth,
    hlength, hword, hspaces, hout .bundled⟩

end ClassicAsp
