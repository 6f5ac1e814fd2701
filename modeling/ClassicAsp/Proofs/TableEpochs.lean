import ClassicAsp.Proofs.ServiceTrace

/-! # One table for each epoch

A service whose table is read from a file reads it when a request first needs it, and again only
after everything that is kept was cleared. The requests of such an epoch share one table, whatever
becomes of the file in the meantime. -/

namespace ClassicAsp

/-! ## Reading a table from a file -/

/-- What a file gives: its own table, or the minimal one that carries the reason. -/
inductive TableFromFile (path : String) (files : FileTree) (cwd : List String)
    (reader : TableReader) : Option Fault → CaseTable → Prop where
  | read (text : List Char) (table : CaseTable) (htext : files.readText cwd path = .ok text)
      (htable : CaseTable.read text (.file path) reader = .ok table) :
      TableFromFile path files cwd reader none table
  | rejected (text : List Char) (fault : Fault) (htext : files.readText cwd path = .ok text)
      (htable : CaseTable.read text (.file path) reader = .error fault) :
      TableFromFile path files cwd reader (some fault) (.standIn fault)
  | unreadable (e : ReadError) (htext : files.readText cwd path = .error e) :
      TableFromFile path files cwd reader (some (.tableUnavailable (path ++ ": " ++ e.message)))
        (.standIn (.tableUnavailable (path ++ ": " ++ e.message)))

section

variable {path : String} {files : FileTree} {cwd : List String} {reader : TableReader}

variable (path files cwd reader) in
theorem exists_tableFromFile : ∃ fault?, TableFromFile path files cwd reader fault?
    ((TableSource.file path).loadOrBuiltin files cwd reader) := by
  simp only [TableSource.loadOrBuiltin, TableSource.load]
  cases htext : files.readText cwd path with
  | error e => exact ⟨_, .unreadable e htext⟩
  | ok text =>
      simp only
      cases htable : CaseTable.read text (.file path) reader with
      | error fault => exact ⟨_, .rejected text fault htext htable⟩
      | ok table => exact ⟨_, .read text table htext htable⟩

/-- A table that could be read stands in for no other. -/
theorem CaseTable.fallback_read {text : List Char} {origin : TableOrigin} {table : CaseTable}
    (h : CaseTable.read text origin reader = .ok table) : table.fallback = none := by
  rw [CaseTable.read] at h
  cases hschema : reader.schema text with
  | error reason =>
      rw [hschema] at h
      cases h
  | ok schema =>
      rw [hschema] at h
      cases hrefusal : reader.refusal? schema with
      | some reason => simp only [hrefusal, reduceCtorEq] at h
      | none =>
          simp only [hrefusal] at h
          cases h
          rfl

theorem TableFromFile.fallback_eq {fault? : Option Fault} {table : CaseTable}
    (h : TableFromFile path files cwd reader fault? table) : table.fallback = fault? := by
  cases h with
  | read text table htext htable => exact CaseTable.fallback_read htable
  | rejected => rfl
  | unreadable => rfl

end

/-! ## What an event does to the kept table -/

namespace Service

variable {κ : Type} [DecidableEq κ]

namespace Event

/-- Is the table needed? -/
def UsesTable (e : Event κ) : Prop := e.request.usesTable = true

/-- Is everything that is kept dropped? -/
def Clears (e : Event κ) : Prop := e.request = .clear

/-- The table in use, with its number. -/
def table (e : Event κ) : Nat × CaseTable := (e.before.table e.around).1

omit [DecidableEq κ] in
theorem UsesTable.not_clears {e : Event κ} (h : e.UsesTable) : ¬ e.Clears := by
  intro hclears
  rw [UsesTable, hclears] at h
  cases h

end Event

/-- An event takes the table that is kept, loads one, drops it, or leaves it alone. -/
inductive TableEffect (s : Service κ) (e : Event κ) : Prop where
  | keep (huses : e.UsesTable) (hloaded : s.tables.loaded = some e.table)
      (hafter : e.after.tables = s.tables)
  | load (huses : e.UsesTable) (hloaded : s.tables.loaded = none)
      (htable : e.table = (s.tables.loads,
        s.tables.source.loadOrBuiltin e.around.files e.around.cwd s.tables.reader))
      (hafter : e.after.tables =
        { s.tables with loaded := some e.table, loads := s.tables.loads + 1 })
  | drop (huses : ¬ e.UsesTable) (hclears : e.Clears) (hafter : e.after.tables = s.tables.drop)
  | ignore (huses : ¬ e.UsesTable) (hclears : ¬ e.Clears) (hafter : e.after.tables = s.tables)

theorem tableEffect_event (fingerprint : List Char → κ) (s : Service κ)
    (step : Surroundings × Request) : TableEffect s (s.event fingerprint step) := by
  cases huses : step.2.usesTable with
  | true =>
      have hafter : (s.event fingerprint step).after.tables =
          (s.tables.get step.1.files step.1.cwd).2 :=
        (answer_of_usesTable fingerprint s step.1 huses).2
      have htable : (s.event fingerprint step).table =
          (s.tables.get step.1.files step.1.cwd).1 := rfl
      cases hloaded : s.tables.loaded with
      | some t =>
          simp only [TableStore.get, hloaded] at hafter htable
          exact .keep huses (hloaded.trans (congrArg some htable.symm)) hafter
      | none =>
          simp only [TableStore.get, hloaded] at hafter htable
          exact .load huses hloaded htable (by rw [hafter, htable])
  | false =>
      have hnot : ¬ (s.event fingerprint step).UsesTable := by
        rw [Event.UsesTable, Bool.not_eq_true]
        exact huses
      by_cases hclear : step.2 = .clear
      · refine .drop hnot hclear ?_
        rw [event, hclear]
        rfl
      · exact .ignore hnot hclear (tables_of_not_usesTable huses hclear)

/-! ## Epochs -/

/-- An epoch of a run, as far as it has come: what went before it, the request that loaded its
table, and what came since. -/
structure Epoch (path : String) (reader : TableReader) (front : List (Event κ))
    (first : Event κ) (back : List (Event κ)) (fault? : Option Fault) (table : Nat × CaseTable) :
    Prop where
  /-- The table was needed, and not before since everything was last cleared. -/
  first_uses : first.UsesTable
  not_since : ¬ Since Event.UsesTable Event.Clears front
  not_clears : ∀ later ∈ back, ¬ later.Clears
  /-- The table is what the file gave then. -/
  loaded : TableFromFile path first.around.files first.around.cwd reader fault? table.2
  /-- It is the one table of the epoch, and an object of its own. -/
  shared : ∀ e ∈ first :: back, e.UsesTable → e.table = table
  number_lt : ∀ e ∈ front, e.UsesTable → e.table.1 < table.1

/-- What holds of the kept table after some events. -/
structure Epochal (path : String) (reader : TableReader) (events : List (Event κ))
    (s : Service κ) : Prop where
  config : s.tables.source = .file path ∧ s.tables.reader = reader
  unused : s.tables.loaded = none → ¬ Since Event.UsesTable Event.Clears events
  epoch : ∀ t, s.tables.loaded = some t → ∃ front first back fault?,
    events = front ++ first :: back ∧ Epoch path reader front first back fault? t
  number_lt : ∀ e ∈ events, e.UsesTable → e.table.1 < s.tables.loads

variable {path : String} {reader : TableReader} {events : List (Event κ)}
  {s : Service κ} {e : Event κ}

omit [DecidableEq κ] in
/-- An epoch goes on until everything is cleared. -/
theorem Epoch.snoc {front back : List (Event κ)} {first : Event κ} {fault? : Option Fault}
    {table : Nat × CaseTable} (h : Epoch path reader front first back fault? table)
    (hclears : ¬ e.Clears) (hshared : e.UsesTable → e.table = table) :
    Epoch path reader front first (back ++ [e]) fault? table := by
  refine { h with not_clears := fun later hlater => ?_, shared := fun later hlater => ?_ }
  · rcases List.mem_append.mp hlater with hlater | hlater
    · exact h.not_clears later hlater
    · rwa [List.mem_singleton.mp hlater]
  · rw [← List.cons_append] at hlater
    rcases List.mem_append.mp hlater with hlater | hlater
    · exact h.shared later hlater
    · rwa [List.mem_singleton.mp hlater]

omit [DecidableEq κ] in
theorem Epochal.event (h : Epochal path reader events s) (heffect : TableEffect s e) :
    Epochal path reader (events ++ [e]) e.after := by
  -- the epoch that is under way goes on
  have hgoes : ¬ e.Clears → ∀ t, s.tables.loaded = some t → (e.UsesTable → e.table = t) →
      ∃ front first back fault?, events ++ [e] = front ++ first :: back ∧
        Epoch path reader front first back fault? t := by
    intro hclears t ht hshared
    obtain ⟨front, first, back, fault?, rfl, hepoch⟩ := h.epoch t ht
    exact ⟨front, first, back ++ [e], fault?, by simp, hepoch.snoc hclears hshared⟩
  have hnumber : s.tables.loads ≤ e.after.tables.loads →
      (e.UsesTable → e.table.1 < e.after.tables.loads) →
      ∀ e' ∈ events ++ [e], e'.UsesTable → e'.table.1 < e.after.tables.loads := by
    intro hle hlast e' he' huses
    rcases List.mem_append.mp he' with he' | he'
    · exact Nat.lt_of_lt_of_le (h.number_lt e' he' huses) hle
    · rw [List.mem_singleton.mp he'] at huses ⊢
      exact hlast huses
  cases heffect with
  | keep huses hloaded hafter =>
      rw [hafter] at hnumber
      refine ⟨hafter ▸ h.config, fun hnone => ?_, fun t ht => ?_, ?_⟩
      · rw [hafter, hloaded] at hnone
        cases hnone
      · rw [hafter, hloaded] at ht
        cases ht
        exact hgoes huses.not_clears e.table hloaded fun _ => rfl
      · obtain ⟨front, first, back, fault?, rfl, hepoch⟩ := h.epoch e.table hloaded
        rw [hafter]
        refine hnumber (Nat.le_refl _) fun _ => ?_
        rw [← hepoch.shared first (by simp) hepoch.first_uses]
        exact h.number_lt first (by simp) hepoch.first_uses
  | load huses hloaded htable hafter =>
      rw [hafter] at hnumber
      refine ⟨hafter ▸ h.config, fun hnone => ?_, fun t ht => ?_, ?_⟩
      · rw [hafter] at hnone
        cases hnone
      · rw [hafter] at ht
        cases ht
        obtain ⟨fault?, hfile⟩ := exists_tableFromFile path e.around.files e.around.cwd reader
        rw [h.config.1, h.config.2] at htable
        refine ⟨events, e, [], fault?, rfl, huses, h.unused hloaded, by simp, ?_, ?_, ?_⟩
        · rw [htable]
          exact hfile
        · rintro later (- | ⟨-, ⟨⟩⟩) -
          rfl
        · rw [htable]
          exact h.number_lt
      · rw [hafter]
        refine hnumber (Nat.le_succ _) fun _ => ?_
        rw [htable]
        exact Nat.lt_succ_self _
  | drop huses hclears hafter =>
      rw [hafter] at hnumber
      refine ⟨hafter ▸ h.config, fun _ hsince => ?_, fun t ht => ?_, ?_⟩
      · rcases since_append_singleton.mp hsince with hlast | ⟨-, hnot⟩
        · exact huses hlast
        · exact hnot hclears
      · rw [hafter] at ht
        cases ht
      · rw [hafter]
        exact hnumber (Nat.le_refl _) fun hlast => absurd hlast huses
  | ignore huses hclears hafter =>
      rw [hafter] at hnumber
      refine ⟨hafter ▸ h.config, fun hnone hsince => ?_, fun t ht => ?_, ?_⟩
      · rw [hafter] at hnone
        rcases since_append_singleton.mp hsince with hlast | ⟨hsince, -⟩
        · exact huses hlast
        · exact h.unused hnone hsince
      · rw [hafter] at ht
        exact hgoes hclears t ht fun hlast => absurd hlast huses
      · rw [hafter]
        exact hnumber (Nat.le_refl _) fun hlast => absurd hlast huses

theorem epochal_run {fingerprint : List Char → κ} {config : Config}
    {steps : List (Surroundings × Request)} {before after : List (Event κ)}
    (h : (withTables config { source := .file path, reader }).trace fingerprint steps =
      before ++ e :: after) :
    (e.before.config = config ∧ Epochal path reader before e.before) ∧
      e = e.before.event fingerprint (e.around, e.request) := by
  refine holds_before fingerprint
    (P := fun events t => t.config = config ∧ Epochal path reader events t) ?_ ?_ h
  · refine ⟨rfl, ⟨rfl, rfl⟩, fun _ hsince => ?_, fun t ht => ?_, fun e he => ?_⟩
    · obtain ⟨front, e, back, hempty, -⟩ := hsince
      simp at hempty
    · cases ht
    · cases he
  · rintro events t step ⟨hconfig, hepochal⟩
    exact ⟨settings_answer.1.trans hconfig, hepochal.event (tableEffect_event _ _ _)⟩

/-- A service whose table is read from a file uses one table for each epoch. Take any run, in which
the files are whatever they are at each request, and anything to read tables with. A request that
needs the table belongs to an epoch: there is a first request since the last clearing that needed
it, the table is what the file gave at that request, and all requests since share that very object,
by which they are answered. A warning is given exactly if the table is not that of the file, with
the reason. A request that neither needs the table nor clears loads none. -/
theorem one_table_per_epoch (fingerprint : List Char → κ) (config : Config) (path : String)
    (reader : TableReader) (steps : List (Surroundings × Request))
    (before after : List (Event κ)) (e : Event κ)
    (hrun : (withTables config { source := .file path, reader }).trace fingerprint steps =
      before ++ e :: after) :
    (e.UsesTable → ∃ front first back fault?, before ++ [e] = front ++ first :: back ∧
      Epoch path reader front first back fault? e.table ∧
      e.answer.unnumbered = e.request.plainAnswer config e.table.2 ∧
      (e.request = .table → e.answer = .table e.table.1 e.table.2) ∧
      (e.request = .warning → e.answer = .warning (fault?.map (Diagnostic.ofFault none)))) ∧
    (¬ e.UsesTable → ¬ e.Clears → e.after.tables = e.before.tables) := by
  obtain ⟨⟨hconfig, hepochal⟩, heq⟩ := epochal_run hrun
  have heffect : TableEffect e.before e := heq ▸ tableEffect_event _ _ _
  refine ⟨fun huses => ?_, fun huses hclears => ?_⟩
  · have hloaded : e.after.tables.loaded = some e.table := by
      cases heffect with
      | keep _ hloaded hafter => rw [hafter, hloaded]
      | load _ _ _ hafter => rw [hafter]
      | drop hnot => exact absurd huses hnot
      | ignore hnot => exact absurd huses hnot
    obtain ⟨front, first, back, fault?, hsplit, hepoch⟩ :=
      (hepochal.event heffect).epoch e.table hloaded
    have hanswer : e.answer.unnumbered = e.request.plainAnswer config e.table.2 := by
      rw [heq, ← hconfig]
      exact (answer_of_usesTable fingerprint e.before e.around huses).1
    refine ⟨front, first, back, fault?, hsplit, hepoch, hanswer, fun hrequest => ?_,
      fun hrequest => ?_⟩
    · rw [heq, event, hrequest]
      rfl
    · rw [← hepoch.loaded.fallback_eq, heq, event, hrequest]
      rfl
  · cases heffect with
    | keep hnot => exact absurd hnot huses
    | load hnot => exact absurd hnot huses
    | drop _ hnot => exact absurd hnot hclears
    | ignore _ _ hafter => exact hafter

/-- The theorem where the file is missing in the first epoch, is read in the second one, and is gone
again when a warning is asked for. -/
theorem one_table_per_epoch_page :
    ∃ (files : FileTree) (first second third fourth : Event Nat),
      files = [(["table.toml"], .file "sys_functions = [\"Len\"]".toUTF8)] ∧
      (withTables {} { source := .file "table.toml" }).trace List.length
        [({}, .table), ({ files }, .clear), ({ files }, .table), ({}, .warning)] =
          [first, second, third, fourth] ∧
      fourth.table = third.table ∧ first.table.1 < fourth.table.1 ∧
      fourth.answer = .warning none := by
  obtain ⟨files, hfiles⟩ : ∃ files : FileTree,
      files = [(["table.toml"], .file "sys_functions = [\"Len\"]".toUTF8)] := ⟨_, rfl⟩
  obtain ⟨first, second, third, fourth, hrun⟩ : ∃ first second third fourth,
      (withTables {} { source := .file "table.toml" }).trace List.length
        [({}, .table), ({ files }, .clear), ({ files }, .table), ({}, .warning)] =
          [first, second, third, fourth] := ⟨_, _, _, _, rfl⟩
  refine ⟨files, first, second, third, fourth, hfiles, hrun, ?_⟩
  have hsteps := congrArg (List.map fun e => (e.around, e.request)) hrun
  rw [map_trace] at hsteps
  simp only [List.map_cons, List.map_nil, List.cons.injEq, Prod.mk.injEq, and_true] at hsteps
  obtain ⟨⟨-, hfirst⟩, ⟨-, hsecond⟩, ⟨hthird, hthird'⟩, ⟨-, hfourth⟩⟩ := hsteps
  have huses : first.UsesTable ∧ ¬ second.UsesTable ∧ third.UsesTable ∧ fourth.UsesTable := by
    simp only [Event.UsesTable, ← hfirst, ← hsecond, ← hthird', ← hfourth]
    decide
  obtain ⟨front, opening, back, fault?, hsplit, hepoch, -, -, hwarning⟩ :=
    (one_table_per_epoch List.length {} "table.toml" {} _ [first, second, third] []
      fourth hrun).1 huses.2.2.2
  -- the epoch starts with the third request
  obtain ⟨rfl, rfl⟩ : [first, second] = front ∧ third = opening := by
    match front, hsplit with
    | [], hsplit =>
        cases hsplit
        exact absurd hsecond.symm (hepoch.not_clears second (by simp))
    | [_], hsplit =>
        cases hsplit
        exact absurd hepoch.first_uses huses.2.1
    | [_, _], hsplit =>
        cases hsplit
        exact ⟨rfl, rfl⟩
    | [_, _, _], hsplit =>
        cases hsplit
        exact absurd ⟨[_, _], _, [], rfl, huses.2.2.1, by simp⟩ hepoch.not_since
    | _ :: _ :: _ :: _ :: front, hsplit => simp at hsplit
  refine ⟨(hepoch.shared third (by simp) huses.2.2.1).symm,
    hepoch.number_lt first (by simp) huses.1, ?_⟩
  have hread : ((TableSource.file "table.toml").load files []).isOk = true := by
    rw [hfiles]
    decide +kernel
  have hloaded := hepoch.loaded
  rw [← hthird] at hloaded
  rw [hwarning hfourth.symm]
  generalize fourth.table.2 = table at hloaded
  cases hloaded with
  | read => rfl
  | rejected text fault htext htable =>
      simp only [TableSource.load, htext, htable] at hread
      cases hread
  | unreadable e htext =>
      simp only [TableSource.load, htext] at hread
      cases hread

end Service

end ClassicAsp
