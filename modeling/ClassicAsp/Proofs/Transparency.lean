import ClassicAsp.Proofs.ServiceTrace
import Mathlib.Data.Set.Function

/-! # A service without a memory

What a service keeps never shows in its answers, but for the numbers that tell objects apart. A
kept analysis is that of the only text with its fingerprint, and a table that is not read from a
file is the same whenever it is loaded. -/

namespace ClassicAsp

/-! ## The kept table -/

namespace TableStore

/-- A store that loads this table whatever the files are, and holds no other. -/
structure Gives (table : CaseTable) (store : TableStore) : Prop where
  load_eq : ∀ files cwd, store.source.loadOrBuiltin files cwd store.reader = table
  loaded_eq : ∀ t, store.loaded = some t → t.2 = table

variable {table : CaseTable} {store : TableStore}

theorem Gives.get (h : store.Gives table) (files : FileTree) (cwd : List String) :
    (store.get files cwd).1.2 = table ∧ (store.get files cwd).2.Gives table := by
  cases hloaded : store.loaded with
  | some t =>
      rw [TableStore.get, hloaded]
      exact ⟨h.loaded_eq t hloaded, h⟩
  | none =>
      rw [TableStore.get, hloaded]
      refine ⟨h.load_eq files cwd, h.load_eq, fun t ht => ?_⟩
      cases ht
      exact h.load_eq files cwd

end TableStore

namespace Service

variable {κ : Type} [DecidableEq κ]

/-- A service with these settings that has this table, whose kept analyses are those of texts among
these. -/
structure Faithful (fingerprint : List Char → κ) (texts : Set (List Char)) (config : Config)
    (table : CaseTable) (s : Service κ) : Prop where
  config_eq : s.config = config
  tables : s.tables.Gives table
  entries : ∀ e ∈ s.cache.entries, ∃ text ∈ texts, e.fingerprint = fingerprint text ∧
    e.value.analysis = .ofText config.limits text

section

variable {fingerprint : List Char → κ} {texts : Set (List Char)} {config : Config}
  {table : CaseTable} {s : Service κ}

/-- A look-up finds the analysis of the text. -/
theorem Faithful.analyze (h : Faithful fingerprint texts config table s)
    (hinj : Set.InjOn fingerprint texts) (w : Surroundings) (id : String) {text : List Char}
    (htext : text ∈ texts) :
    (s.analyze fingerprint w id text).1.analysis = .ofText config.limits text ∧
      Faithful fingerprint texts config table (s.analyze fingerprint w id text).2 := by
  rcases analyze_cases fingerprint s w id text with ⟨a, ⟨e, hfind, -, rfl⟩, ha⟩ | ⟨-, ha⟩
  · rw [ha]
    refine ⟨?_, h⟩
    obtain ⟨other, hother, hfingerprint, hvalue⟩ := h.entries e (List.mem_of_find?_eq_some hfind)
    have hfor := List.find?_some hfind
    simp only [AnalysisCache.isFor, Bool.and_eq_true, beq_iff_eq] at hfor
    rw [hvalue, hinj hother htext (hfingerprint.symm.trans hfor.2)]
  · rw [ha]
    refine ⟨by rw [h.config_eq], h.config_eq, h.tables, fun e he => ?_⟩
    rcases List.mem_append.mp he with he | he
    · exact h.entries e (List.mem_filter.mp he).1
    · rw [List.mem_singleton.mp he, h.config_eq]
      exact ⟨text, htext, rfl, rfl⟩

/-- One request: the answer is the plain one, and what is kept stays right. -/
theorem Faithful.answer (h : Faithful fingerprint texts config table s)
    (hinj : Set.InjOn fingerprint texts) (w : Surroundings) (request : Request)
    (htexts : ∀ id text, request.document? = some (id, text) → text ∈ texts) :
    (s.answer fingerprint w request).1.unnumbered = request.plainAnswer config table ∧
      Faithful fingerprint texts config table (s.answer fingerprint w request).2 := by
  -- the request looks an analysis up, or it drops some and may take the table
  cases hdocument : request.document? with
  | some document =>
      obtain ⟨id, text⟩ := document
      obtain ⟨hanalysis, hkept⟩ := h.analyze hinj w id (htexts id text hdocument)
      rw [answer_of_document? hdocument]
      refine ⟨?_, hkept⟩
      cases request with
      | analyze id text =>
          cases hdocument
          rw [Request.plainAnswer, ← hanalysis]
          rfl
      | position id text offset =>
          cases hdocument
          rw [Request.plainAnswer, ← hanalysis]
          rfl
      | _ => cases hdocument
  | none =>
      have hconfig : (s.answer fingerprint w request).2.config = config :=
        settings_answer.1.trans h.config_eq
      have hentries : ∀ e ∈ (s.answer fingerprint w request).2.cache.entries,
          e ∈ s.cache.entries := by
        intro e he
        rw [(answer_of_document?_eq_none fingerprint s w hdocument).1] at he
        exact (List.mem_filter.mp he).1
      suffices hanswer : (s.answer fingerprint w request).1.unnumbered =
          request.plainAnswer config table ∧
          (s.answer fingerprint w request).2.tables.Gives table from
        ⟨hanswer.1, hconfig, hanswer.2, fun e he => h.entries e (hentries e he)⟩
      cases huses : request.usesTable with
      | true =>
          obtain ⟨hanswer, htables⟩ := answer_of_usesTable fingerprint s w huses
          obtain ⟨htable, hgives⟩ := h.tables.get w.files w.cwd
          rw [hanswer, htables, h.config_eq]
          exact ⟨congrArg (request.plainAnswer config) htable, hgives⟩
      | false =>
          cases request with
          | invalidate id => exact ⟨rfl, h.tables⟩
          | clear => exact ⟨rfl, h.tables.load_eq, fun t ht => by cases ht⟩
          | analyze => cases hdocument
          | position => cases hdocument
          | _ => cases huses

/-- Requests in a row. -/
theorem Faithful.run (h : Faithful fingerprint texts config table s)
    (hinj : Set.InjOn fingerprint texts) {steps : List (Surroundings × Request)}
    (htexts : ∀ step ∈ steps, ∀ id text, step.2.document? = some (id, text) → text ∈ texts) :
    (s.run fingerprint steps).1.map Answer.unnumbered =
      steps.map fun step => step.2.plainAnswer config table := by
  induction steps generalizing s with
  | nil => rfl
  | cons step rest ih =>
      obtain ⟨hanswer, hafter⟩ := h.answer hinj step.1 step.2 (htexts step (by simp))
      rw [List.map_cons, ← hanswer, ← ih hafter fun other hother => htexts other (by simp [hother])]
      rfl

end

end Service

/-! ## What plain answers depend on -/

namespace Request

end Request

namespace Service

end Service

end ClassicAsp
