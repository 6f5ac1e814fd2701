import ClassicAsp.Service.Request
import Mathlib.Data.List.Induction
import Mathlib.Data.List.TakeDrop

/-! # Runs of a service

The events of a run are the requests with their answers and with the service before and after
each. An event changes the kept analyses in one of two ways: it looks one up, or it drops those of
some documents. It changes the kept table in one of three: it takes the table, drops it, or leaves
it alone. -/

namespace ClassicAsp

namespace Request

/-- The document and the text whose analysis is asked for. -/
def document? : Request → Option (String × List Char)
  | .analyze id text => some (id, text)
  | .position id text _ => some (id, text)
  | _ => none

/-- Is a case table needed for the answer? -/
def usesTable : Request → Bool
  | .format _ => true
  | .formatDocument .. => true
  | .formatDocumentWith .. => true
  | .table => true
  | .warning => true
  | _ => false

/-- Does the request, with its answer, drop the kept analyses of a document? -/
def drops : Request → Answer → String → Bool
  | .clear, _, _ => true
  | .invalidate doc, _, id => doc == id
  | .formatDocument doc _, .formatted out, id => doc == id && out.changed
  | .formatDocumentWith _ doc _, .formatted out, id => doc == id && out.changed
  | _, _, _ => false

/-- The answer that settings and a case table give when nothing is kept. Objects have the
number 0. -/
def plainAnswer (config : Config) (table : CaseTable) : Request → Answer
  | .format text => .text (formatOrKeep config table text).text
  | .formatDocument _ text => .formatted (formatOrKeep config table text)
  | .formatDocumentWith given _ text => .formatted (formatOrKeep given table text)
  | .analyze _ text => .analysis ⟨0, .ofText config.limits text⟩
  | .position _ text offset => .position ((Analysis.ofText config.limits text).positionAt? offset)
  | .table => .table 0 table
  | .warning => .warning (table.fallback.map (Diagnostic.ofFault none))
  | .invalidate _ => .done
  | .clear => .done

end Request

/-- The answer without the numbers that tell objects apart. -/
def Answer.unnumbered : Answer → Answer
  | .analysis result => .analysis { result with number := 0 }
  | .table _ t => .table 0 t
  | other => other

/-! ## Events -/

/-- Has something happened since something else last did? -/
def Since {α : Type} (happened ended : α → Prop) (events : List α) : Prop :=
  ∃ front e back, events = front ++ e :: back ∧ happened e ∧ ∀ later ∈ back, ¬ ended later

theorem since_append_singleton {α : Type} {happened ended : α → Prop} {events : List α} {e : α} :
    Since happened ended (events ++ [e]) ↔
      happened e ∨ (Since happened ended events ∧ ¬ ended e) := by
  constructor
  · rintro ⟨front, first, back, heq, hfirst, hback⟩
    rcases List.eq_nil_or_concat back with rfl | ⟨between, last, rfl⟩
    · rw [List.append_singleton_inj] at heq
      exact .inl (heq.2 ▸ hfirst)
    · rw [List.concat_eq_append, ← List.cons_append, ← List.append_assoc,
        List.append_singleton_inj] at heq
      obtain ⟨rfl, rfl⟩ := heq
      exact .inr ⟨⟨front, first, between, rfl, hfirst, fun later hlater =>
        hback later (by simp [hlater])⟩, hback _ (by simp)⟩
  · rintro (he | ⟨⟨front, first, back, rfl, hfirst, hback⟩, he⟩)
    · exact ⟨events, e, [], rfl, he, by simp⟩
    · refine ⟨front, first, back ++ [e], by simp, hfirst, fun later hlater => ?_⟩
      rcases List.mem_append.mp hlater with hlater | hlater
      · exact hback later hlater
      · rwa [List.mem_singleton.mp hlater]

theorem Since.imp {α : Type} {happened happened' ended : α → Prop} {events : List α}
    (h : Since happened ended events) (himp : ∀ e ∈ events, happened e → happened' e) :
    Since happened' ended events := by
  obtain ⟨front, e, back, rfl, he, hback⟩ := h
  exact ⟨front, e, back, rfl, himp e (by simp) he, hback⟩

namespace Service

variable {κ : Type} [DecidableEq κ]

/-- A request with its surroundings, its answer, and the service before and after it. -/
structure Event (κ : Type) where
  around : Surroundings
  request : Request
  answer : Answer
  before : Service κ
  after : Service κ

/-- The event of a request. -/
def event (fingerprint : List Char → κ) (s : Service κ) (step : Surroundings × Request) :
    Event κ :=
  let (answer, after) := s.answer fingerprint step.1 step.2
  ⟨step.1, step.2, answer, s, after⟩

/-- The events of requests in a row. -/
def trace (fingerprint : List Char → κ) (s : Service κ) :
    List (Surroundings × Request) → List (Event κ)
  | [] => []
  | step :: rest =>
    s.event fingerprint step :: (s.event fingerprint step).after.trace fingerprint rest

variable (fingerprint : List Char → κ)

theorem map_trace (s : Service κ) (steps : List (Surroundings × Request)) :
    (s.trace fingerprint steps).map (fun e => (e.around, e.request)) = steps := by
  induction steps generalizing s with
  | nil => rfl
  | cons step rest ih => exact congrArg _ (ih _)

theorem trace_append (s : Service κ) (front back : List (Surroundings × Request)) :
    s.trace fingerprint (front ++ back) =
      s.trace fingerprint front ++ (s.run fingerprint front).2.trace fingerprint back := by
  induction front generalizing s with
  | nil => rfl
  | cons step rest ih => exact congrArg _ (ih _)

theorem after_append (s : Service κ) (front : List (Surroundings × Request))
    (step : Surroundings × Request) :
    (s.run fingerprint (front ++ [step])).2 =
      ((s.run fingerprint front).2.event fingerprint step).after := by
  induction front generalizing s with
  | nil => rfl
  | cons first rest ih => exact ih _

/-- What holds at the start and is kept by every event holds after every run, of its events and the
service it leaves. -/
theorem trace_induction {P : List (Event κ) → Service κ → Prop} {s : Service κ} (hstart : P [] s)
    (hstep : ∀ events t step, P events t →
      P (events ++ [t.event fingerprint step]) (t.event fingerprint step).after)
    (steps : List (Surroundings × Request)) :
    P (s.trace fingerprint steps) (s.run fingerprint steps).2 := by
  induction steps using List.reverseRecOn with
  | nil => exact hstart
  | append_singleton front step ih =>
      rw [trace_append, after_append]
      exact hstep _ _ _ ih

theorem exists_step {s : Service κ} {steps : List (Surroundings × Request)}
    {before after : List (Event κ)} {e : Event κ}
    (h : s.trace fingerprint steps = before ++ e :: after) :
    ∃ front step back, steps = front ++ step :: back ∧ before = s.trace fingerprint front ∧
      e = (s.run fingerprint front).2.event fingerprint step := by
  induction before generalizing s steps with
  | nil =>
      cases steps with
      | nil => cases h
      | cons step rest =>
          rw [trace, List.nil_append, List.cons.injEq] at h
          exact ⟨[], step, rest, rfl, rfl, h.1.symm⟩
  | cons first before ih =>
      cases steps with
      | nil => cases h
      | cons step rest =>
          rw [trace, List.cons_append, List.cons.injEq] at h
          obtain ⟨front, step', back, hrest, hbefore, he⟩ := ih h.2
          refine ⟨step :: front, step', back, by rw [hrest, List.cons_append], ?_, he⟩
          rw [trace, hbefore, h.1]

/-- Every event of a run is that of its request, and what every event keeps holds before it. -/
theorem holds_before {P : List (Event κ) → Service κ → Prop} {s : Service κ} (hstart : P [] s)
    (hstep : ∀ events t step, P events t →
      P (events ++ [t.event fingerprint step]) (t.event fingerprint step).after)
    {steps : List (Surroundings × Request)} {before after : List (Event κ)} {e : Event κ}
    (h : s.trace fingerprint steps = before ++ e :: after) :
    P before e.before ∧ e = e.before.event fingerprint (e.around, e.request) := by
  obtain ⟨front, step, back, -, rfl, rfl⟩ := exists_step fingerprint h
  exact ⟨trace_induction fingerprint hstart hstep front, rfl⟩

/-! ## Looking up an analysis -/

end Service

namespace AnalysisCache

variable {κ α : Type} [DecidableEq κ] {c : AnalysisCache κ α} {now : Nat} {id : String}
  {fingerprint : κ}

theorem get_of_fresh {e : CacheEntry κ α} (hfind : c.entries.find? (isFor id fingerprint) = some e)
    (hfresh : c.isFresh now e = true) : c.get now id fingerprint = (some e.value, c) := by
  simp only [get, hfind, hfresh, if_true]

theorem get_of_not_fresh
    (h : ∀ e, c.entries.find? (isFor id fingerprint) = some e → c.isFresh now e = false) :
    (c.get now id fingerprint).1 = none ∧ ∀ later value,
      (c.get now id fingerprint).2.insert later id fingerprint value =
        c.insert later id fingerprint value := by
  rw [get]
  cases hfind : c.entries.find? (isFor id fingerprint) with
  | none => exact ⟨rfl, fun _ _ => rfl⟩
  | some e =>
      simp only [h e hfind, Bool.false_eq_true, if_false, true_and]
      intro later value
      simp only [insert, isFresh, List.filter_filter, Bool.and_assoc, Bool.and_self]

end AnalysisCache

namespace Service

section Changes

variable {κ : Type} [DecidableEq κ] {fingerprint : List Char → κ} {s : Service κ}
  {w : Surroundings} {request : Request}

/-- Is a fresh analysis of the text kept for the document? -/
def Keeps (fingerprint : List Char → κ) (s : Service κ) (now : Nat) (id : String)
    (text : List Char) (a : NumberedAnalysis) : Prop :=
  ∃ e, s.cache.entries.find? (AnalysisCache.isFor id (fingerprint text)) = some e ∧
    s.cache.isFresh now e = true ∧ e.value = a

/-- The service after a new analysis of a text. -/
def renew (fingerprint : List Char → κ) (s : Service κ) (done : Nat) (id : String)
    (text : List Char) : Service κ :=
  { s with
    cache := s.cache.insert done id (fingerprint text)
      ⟨s.analyses, .ofText s.config.limits text⟩
    analyses := s.analyses + 1 }

variable (fingerprint s w) in
/-- A look-up gives a fresh analysis that is kept, or else a new one. -/
theorem analyze_cases (id : String) (text : List Char) :
    (∃ a, s.Keeps fingerprint w.now id text a ∧ s.analyze fingerprint w id text = (a, s)) ∨
      ((∀ a, ¬ s.Keeps fingerprint w.now id text a) ∧
        s.analyze fingerprint w id text =
          (⟨s.analyses, .ofText s.config.limits text⟩, s.renew fingerprint w.done id text)) := by
  by_cases hkept : ∃ a, s.Keeps fingerprint w.now id text a
  · obtain ⟨_, e, hfind, hfresh, rfl⟩ := hkept
    refine .inl ⟨e.value, ⟨e, hfind, hfresh, rfl⟩, ?_⟩
    rw [analyze, AnalysisCache.get_of_fresh hfind hfresh]
  · rw [not_exists] at hkept
    have hstale : ∀ e, s.cache.entries.find? (AnalysisCache.isFor id (fingerprint text)) = some e →
        s.cache.isFresh w.now e = false := fun e hfind =>
      eq_false_of_ne_true fun hfresh => hkept e.value ⟨e, hfind, hfresh, rfl⟩
    obtain ⟨hnone, hinsert⟩ := AnalysisCache.get_of_not_fresh hstale
    refine .inr ⟨hkept, ?_⟩
    simp only [analyze, hnone, hinsert]
    rfl

/-! ## What an event changes -/

omit [DecidableEq κ] in
theorem formatDocumentWith_eq (config : Config) (id : String) (text : List Char) :
    s.formatDocumentWith w config id text =
      (formatOrKeep config (s.table w).1.2 text,
        { (s.table w).2 with
          cache := if (formatOrKeep config (s.table w).1.2 text).changed then
            s.cache.invalidate id else s.cache }) := by
  have hout : (s.formatWith w config text).1 = formatOrKeep config (s.table w).1.2 text := rfl
  simp only [formatDocumentWith, hout]
  cases (formatOrKeep config (s.table w).1.2 text).changed <;> rfl

/-- The answer to a request for an analysis comes from the analysis that is looked up. -/
theorem answer_of_document? {id : String} {text : List Char}
    (h : request.document? = some (id, text)) :
    (s.answer fingerprint w request).2 = (s.analyze fingerprint w id text).2 := by
  cases request <;> cases h <;> rfl

/-- A look-up leaves all but the kept analyses as it is. -/
theorem settings_analyze (id : String) (text : List Char) :
    (s.analyze fingerprint w id text).2.config = s.config ∧
      (s.analyze fingerprint w id text).2.cache.lifetime = s.cache.lifetime ∧
      (s.analyze fingerprint w id text).2.tables = s.tables := by
  rcases analyze_cases fingerprint s w id text with ⟨a, -, ha⟩ | ⟨-, ha⟩
  · rw [ha]
    exact ⟨rfl, rfl, rfl⟩
  · rw [ha]
    exact ⟨rfl, rfl, rfl⟩

/-- The settings and the lifetime of what is kept stay as they are. -/
theorem settings_answer : (s.answer fingerprint w request).2.config = s.config ∧
    (s.answer fingerprint w request).2.cache.lifetime = s.cache.lifetime := by
  have hdocument (config : Config) (id : String) (text : List Char) :
      (s.formatDocumentWith w config id text).2.config = s.config ∧
        (s.formatDocumentWith w config id text).2.cache.lifetime = s.cache.lifetime := by
    rw [formatDocumentWith_eq]
    cases (formatOrKeep config (s.table w).1.2 text).changed <;> exact ⟨rfl, rfl⟩
  cases request with
  | formatDocument id text => exact hdocument _ _ _
  | formatDocumentWith config id text => exact hdocument _ _ _
  | analyze id text => exact ⟨(settings_analyze id text).1, (settings_analyze id text).2.1⟩
  | position id text offset => exact ⟨(settings_analyze id text).1, (settings_analyze id text).2.1⟩
  | _ => exact ⟨rfl, rfl⟩

variable (fingerprint s w) in
/-- A request that is not one for an analysis leaves the kept analyses of the documents that it
does not drop. -/
theorem answer_of_document?_eq_none (h : request.document? = none) :
    (s.answer fingerprint w request).2.cache.entries = s.cache.entries.filter (fun e =>
        !request.drops (s.answer fingerprint w request).1 e.id) ∧
      (s.answer fingerprint w request).2.analyses = s.analyses := by
  have hdocument (config : Config) (id : String) (text : List Char) :
      (s.formatDocumentWith w config id text).2.cache.entries = s.cache.entries.filter (fun e =>
          !(id == e.id && (s.formatDocumentWith w config id text).1.changed)) ∧
        (s.formatDocumentWith w config id text).2.analyses = s.analyses := by
    rw [formatDocumentWith_eq]
    cases hchanged : (formatOrKeep config (s.table w).1.2 text).changed with
    | true => exact ⟨by simp [AnalysisCache.invalidate, bne, Bool.beq_comm], rfl⟩
    | false => exact ⟨(List.filter_eq_self.mpr (by simp)).symm, rfl⟩
  cases request with
  | formatDocument id text => exact hdocument _ _ _
  | formatDocumentWith config id text => exact hdocument _ _ _
  | analyze => cases h
  | position => cases h
  | invalidate id =>
      refine ⟨List.filter_congr fun e _ => ?_, rfl⟩
      simp [Request.drops, bne, Bool.beq_comm]
  | clear => exact ⟨(List.filter_eq_nil_iff.mpr fun e _ => by simp [Request.drops]).symm, rfl⟩
  | _ => exact ⟨(List.filter_eq_self.mpr fun e _ => rfl).symm, rfl⟩

variable (fingerprint s w) in
theorem answer_of_usesTable (h : request.usesTable = true) :
    (s.answer fingerprint w request).1.unnumbered =
        request.plainAnswer s.config (s.table w).1.2 ∧
      (s.answer fingerprint w request).2.tables = (s.table w).2.tables := by
  cases request with
  | formatDocument id text =>
      rw [answer, formatDocument, formatDocumentWith_eq]
      exact ⟨rfl, rfl⟩
  | formatDocumentWith config id text =>
      rw [answer, formatDocumentWith_eq]
      exact ⟨rfl, rfl⟩
  | analyze => cases h
  | position => cases h
  | invalidate => cases h
  | clear => cases h
  | _ => exact ⟨rfl, rfl⟩

theorem tables_of_not_usesTable (h : request.usesTable = false) (hclear : request ≠ .clear) :
    (s.answer fingerprint w request).2.tables = s.tables := by
  cases request with
  | analyze id text => exact (settings_analyze id text).2.2
  | position id text offset => exact (settings_analyze id text).2.2
  | invalidate id => rfl
  | clear => exact absurd rfl hclear
  | _ => cases h

end Changes

end Service

end ClassicAsp
