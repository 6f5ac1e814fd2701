import ClassicAsp.Proofs.ServiceTrace
import Mathlib.Data.Set.Function

/-! # Kept analyses are used again

A request for an analysis is answered from a kept one exactly if the same text of the same document
has been looked up since the analyses of that document were last dropped. What is served then is
the object that the last new analysis of that text made. -/

namespace ClassicAsp.Service

variable {κ : Type} [DecidableEq κ]

namespace Event

/-- Is the analysis of this text of a document asked for? -/
def LooksUp (id : String) (text : List Char) (e : Event κ) : Prop :=
  e.request.document? = some (id, text)

/-- Does the event drop the kept analyses of a document? -/
def Drops (id : String) (e : Event κ) : Prop := e.request.drops e.answer id = true

/-- Is a new analysis made? -/
def Recomputes (e : Event κ) : Prop := e.after.analyses ≠ e.before.analyses

instance (id : String) (text : List Char) (e : Event κ) : Decidable (e.LooksUp id text) :=
  inferInstanceAs (Decidable (_ = _))

instance (id : String) (e : Event κ) : Decidable (e.Drops id) :=
  inferInstanceAs (Decidable (_ = _))

instance (e : Event κ) : Decidable e.Recomputes := inferInstanceAs (Decidable (_ ≠ _))

/-- The analysis that the answer is taken from. -/
def served? (fingerprint : List Char → κ) (e : Event κ) : Option NumberedAnalysis :=
  e.request.document?.map fun document =>
    (e.before.analyze fingerprint e.around document.1 document.2).1

end Event

/-! ## What an event does to the kept analyses -/

/-- An event serves a kept analysis, makes a new one, or drops those of some documents. -/
inductive Effect (fingerprint : List Char → κ) (s : Service κ) (e : Event κ) : Prop where
  | serve (id : String) (text : List Char) (a : NumberedAnalysis) (hlooks : e.LooksUp id text)
      (hkept : s.Keeps fingerprint e.around.now id text a)
      (hserved : e.served? fingerprint = some a) (hafter : e.after = s)
  | make (id : String) (text : List Char) (hlooks : e.LooksUp id text)
      (hkept : ∀ a, ¬ s.Keeps fingerprint e.around.now id text a)
      (hserved : e.served? fingerprint = some ⟨s.analyses, .ofText s.config.limits text⟩)
      (hafter : e.after = s.renew fingerprint e.around.done id text)
  | drop (hserved : e.served? fingerprint = none)
      (hentries : ∀ entry, entry ∈ e.after.cache.entries ↔
        entry ∈ s.cache.entries ∧ ¬ e.Drops entry.id)
      (hanalyses : e.after.analyses = s.analyses)

variable (fingerprint : List Char → κ) (s : Service κ) (step : Surroundings × Request)

theorem effect_event : Effect fingerprint s (s.event fingerprint step) := by
  cases hdocument : step.2.document? with
  | none =>
      obtain ⟨hentries, hanalyses⟩ := answer_of_document?_eq_none fingerprint s step.1 hdocument
      refine .drop (congrArg (Option.map _) hdocument) (fun entry => ?_) hanalyses
      rw [event, hentries, List.mem_filter, Bool.not_eq_true', Event.Drops, Bool.not_eq_true]
  | some document =>
      obtain ⟨id, text⟩ := document
      have hafter : (s.event fingerprint step).after = (s.analyze fingerprint step.1 id text).2 :=
        answer_of_document? hdocument
      have hserved : (s.event fingerprint step).served? fingerprint =
          some (s.analyze fingerprint step.1 id text).1 := congrArg (Option.map _) hdocument
      rcases analyze_cases fingerprint s step.1 id text with ⟨a, hkept, ha⟩ | ⟨hkept, ha⟩
      · rw [ha] at hafter hserved
        exact .serve id text a hdocument hkept hserved hafter
      · rw [ha] at hafter hserved
        exact .make id text hdocument hkept hserved hafter

variable {fingerprint s step} {e : Event κ} {id : String} {text : List Char}

omit [DecidableEq κ] in
theorem Event.LooksUp.not_drops (h : e.LooksUp id text) (other : String) : ¬ e.Drops other := by
  obtain ⟨around, request, answer, before, after⟩ := e
  cases request with
  | analyze => exact Bool.false_ne_true
  | position => exact Bool.false_ne_true
  | _ => cases h

theorem mem_entries_renew {done : Nat} {entry : CacheEntry κ NumberedAnalysis} :
    entry ∈ (s.renew fingerprint done id text).cache.entries ↔
      (entry ∈ s.cache.entries ∧ s.cache.isFresh done entry = true ∧
          AnalysisCache.isFor id (fingerprint text) entry = false) ∨
        entry = ⟨id, fingerprint text, ⟨s.analyses, .ofText s.config.limits text⟩, done⟩ := by
  simp [renew, AnalysisCache.insert]

/-! ## Where kept analyses come from -/

/-- The event that made a kept analysis of a text. -/
structure Made (fingerprint : List Char → κ) (entry : CacheEntry κ NumberedAnalysis)
    (text : List Char) (e : Event κ) : Prop where
  looksUp : e.LooksUp entry.id text
  recomputes : e.Recomputes
  served : e.served? fingerprint = some entry.value
  storedAt : entry.storedAt = e.around.done

/-- Every kept analysis was made since its document was last dropped, and the numbers of the
objects served so far are taken. -/
structure Recorded (fingerprint : List Char → κ) (events : List (Event κ)) (s : Service κ) :
    Prop where
  made : ∀ entry ∈ s.cache.entries, ∃ text, entry.fingerprint = fingerprint text ∧
    Since (Made fingerprint entry text) (Event.Drops entry.id) events
  number_lt : ∀ e ∈ events, ∀ a, e.served? fingerprint = some a → a.number < s.analyses

variable {events : List (Event κ)}

theorem Recorded.number_lt_of_keeps (h : Recorded fingerprint events s) {now : Nat}
    {a : NumberedAnalysis} (hkept : s.Keeps fingerprint now id text a) : a.number < s.analyses := by
  obtain ⟨entry, hfind, -, rfl⟩ := hkept
  obtain ⟨text, -, front, e, back, rfl, hmade, -⟩ := h.made entry (List.mem_of_find?_eq_some hfind)
  exact h.number_lt e (by simp) _ hmade.served

theorem Recorded.event (h : Recorded fingerprint events s) (hbefore : e.before = s)
    (heffect : Effect fingerprint s e) : Recorded fingerprint (events ++ [e]) e.after := by
  have hmade : ∀ entry ∈ s.cache.entries, ¬ e.Drops entry.id →
      ∃ text, entry.fingerprint = fingerprint text ∧
        Since (Made fingerprint entry text) (Event.Drops entry.id) (events ++ [e]) := by
    intro entry hentry hdrops
    obtain ⟨other, hother, hsince⟩ := h.made entry hentry
    exact ⟨other, hother, since_append_singleton.mpr (.inr ⟨hsince, hdrops⟩)⟩
  have hnumber : s.analyses ≤ e.after.analyses →
      (∀ a, e.served? fingerprint = some a → a.number < e.after.analyses) →
      ∀ e' ∈ events ++ [e], ∀ a, e'.served? fingerprint = some a → a.number < e.after.analyses := by
    intro hle hlast e' he' a ha
    rcases List.mem_append.mp he' with he' | he'
    · exact Nat.lt_of_lt_of_le (h.number_lt e' he' a ha) hle
    · exact hlast a (List.mem_singleton.mp he' ▸ ha)
  cases heffect with
  | serve id text a hlooks hkept hserved hafter =>
      rw [hafter] at hnumber ⊢
      refine ⟨fun entry hentry => hmade entry hentry (hlooks.not_drops _),
        hnumber (Nat.le_refl _) fun b hb => ?_⟩
      rw [hserved, Option.some.injEq] at hb
      exact hb ▸ h.number_lt_of_keeps hkept
  | make id text hlooks hkept hserved hafter =>
      have hrecomputes : e.Recomputes := by
        rw [Event.Recomputes, hafter, hbefore]
        exact Nat.succ_ne_self s.analyses
      rw [hafter] at hnumber ⊢
      refine ⟨fun entry hentry => ?_, hnumber (Nat.le_succ _) fun b hb => ?_⟩
      · rcases mem_entries_renew.mp hentry with ⟨hentry, -, -⟩ | rfl
        · exact hmade entry hentry (hlooks.not_drops _)
        · exact ⟨text, rfl, since_append_singleton.mpr (.inl ⟨hlooks, hrecomputes, hserved, rfl⟩)⟩
      · rw [hserved, Option.some.injEq] at hb
        exact hb ▸ Nat.lt_succ_self s.analyses
  | drop hserved hentries hanalyses =>
      refine ⟨fun entry hentry => ?_, hnumber (Nat.le_of_eq hanalyses.symm) fun b hb => ?_⟩
      · obtain ⟨hentry, hdrops⟩ := (hentries entry).mp hentry
        exact hmade entry hentry hdrops
      · rw [hserved] at hb
        cases hb

/-! ## What is looked up is kept -/

/-- A run in which nothing that is made expires. -/
def Lasting (lifetime : Nat) (events : List (Event κ)) : Prop :=
  events.Pairwise fun a b => b.around.done - a.around.done < lifetime

theorem Recorded.fresh (h : Recorded fingerprint events s)
    (hlasting : Lasting s.cache.lifetime (events ++ [e])) {entry : CacheEntry κ NumberedAnalysis}
    (hentry : entry ∈ s.cache.entries) {now : Nat} (hnow : now ≤ e.around.done) :
    s.cache.isFresh now entry = true := by
  obtain ⟨text, -, front, origin, back, rfl, hmade, -⟩ := h.made entry hentry
  have hlast := (List.pairwise_append.mp hlasting).2.2 origin (by simp) e (by simp)
  rw [AnalysisCache.isFresh, decide_eq_true_eq, hmade.storedAt]
  omega

/-- Every text that was looked up since its document was last dropped is kept. -/
def KeepsLookedUp (fingerprint : List Char → κ) (events : List (Event κ)) (s : Service κ) : Prop :=
  ∀ id text, Since (Event.LooksUp id text) (Event.Drops id) events →
    ∃ entry ∈ s.cache.entries, AnalysisCache.isFor id (fingerprint text) entry = true

theorem KeepsLookedUp.event (h : KeepsLookedUp fingerprint events s)
    (hrecorded : Recorded fingerprint events s)
    (hlasting : Lasting s.cache.lifetime (events ++ [e])) (heffect : Effect fingerprint s e) :
    KeepsLookedUp fingerprint (events ++ [e]) e.after := by
  intro id text hsince
  cases heffect with
  | serve id' text' a hlooks hkept hserved hafter =>
      rw [hafter]
      rcases since_append_singleton.mp hsince with hlooks' | ⟨hsince, -⟩
      · obtain ⟨entry, hfind, -, -⟩ := hkept
        cases hlooks.symm.trans hlooks'
        exact ⟨entry, List.mem_of_find?_eq_some hfind, List.find?_some hfind⟩
      · exact h id text hsince
  | make id' text' hlooks hkept hserved hafter =>
      rw [hafter]
      have hnew : _ ∈ (s.renew fingerprint e.around.done id' text').cache.entries :=
        mem_entries_renew.mpr (.inr rfl)
      rcases since_append_singleton.mp hsince with hlooks' | ⟨hsince, -⟩
      · cases hlooks.symm.trans hlooks'
        exact ⟨_, hnew, by simp [AnalysisCache.isFor]⟩
      · -- the entry is taken over, unless the new one takes its place
        obtain ⟨entry, hentry, hfor⟩ := h id text hsince
        cases hfor' : AnalysisCache.isFor id' (fingerprint text') entry with
        | false =>
            exact ⟨entry, mem_entries_renew.mpr (.inl
              ⟨hentry, hrecorded.fresh hlasting hentry (Nat.le_refl _), hfor'⟩), hfor⟩
        | true =>
            refine ⟨_, hnew, ?_⟩
            simp only [AnalysisCache.isFor, Bool.and_eq_true, beq_iff_eq] at hfor hfor' ⊢
            exact ⟨hfor'.1.symm.trans hfor.1, hfor'.2.symm.trans hfor.2⟩
  | drop hserved hentries hanalyses =>
      rcases since_append_singleton.mp hsince with hlooks | ⟨hsince, hdrops⟩
      · rw [Event.served?, hlooks] at hserved
        cases hserved
      · obtain ⟨entry, hentry, hfor⟩ := h id text hsince
        have hid : entry.id = id := by
          simp only [AnalysisCache.isFor, Bool.and_eq_true, beq_iff_eq] at hfor
          exact hfor.1
        exact ⟨entry, (hentries entry).mpr ⟨hentry, hid ▸ hdrops⟩, hfor⟩

/-! ## Runs -/

/-- A look-up serves a kept analysis, or makes a new one if none is kept. -/
theorem Effect.of_looksUp (h : Effect fingerprint e.before e) (hlooks : e.LooksUp id text) :
    (¬ e.Recomputes ∧ ∃ a, e.before.Keeps fingerprint e.around.now id text a ∧
        e.served? fingerprint = some a) ∨
      (e.Recomputes ∧ (∀ a, ¬ e.before.Keeps fingerprint e.around.now id text a) ∧
        ∃ a, e.served? fingerprint = some a ∧ a.number = e.before.analyses) := by
  cases h with
  | serve id' text' a hlooks' hkept hserved hafter =>
      cases hlooks'.symm.trans hlooks
      exact .inl ⟨fun hne => hne (congrArg _ hafter), a, hkept, hserved⟩
  | make id' text' hlooks' hkept hserved hafter =>
      cases hlooks'.symm.trans hlooks
      refine .inr ⟨?_, hkept, _, hserved, rfl⟩
      rw [Event.Recomputes, hafter]
      exact Nat.succ_ne_self e.before.analyses
  | drop hserved hentries hanalyses =>
      rw [Event.served?, hlooks] at hserved
      cases hserved

theorem not_keeps_of_lifetime (h : s.cache.lifetime = 0) (now : Nat) (a : NumberedAnalysis) :
    ¬ s.Keeps fingerprint now id text a := by
  rintro ⟨entry, -, hfresh, -⟩
  rw [AnalysisCache.isFresh, h, decide_eq_true_eq] at hfresh
  exact Nat.not_lt_zero _ hfresh

/-- A kept analysis that a look-up finds was made by a look-up of the same text. -/
theorem Recorded.made_of_keeps (h : Recorded fingerprint events s)
    (hinj : Set.InjOn fingerprint {text | ∃ e' ∈ events ++ [e], ∃ id, e'.LooksUp id text})
    (hlooks : e.LooksUp id text) {now : Nat} {a : NumberedAnalysis}
    (hkept : s.Keeps fingerprint now id text a) :
    Since (fun origin => origin.LooksUp id text ∧ origin.Recomputes ∧
      origin.served? fingerprint = some a) (Event.Drops id) events := by
  obtain ⟨entry, hfind, -, rfl⟩ := hkept
  have hfor := List.find?_some hfind
  simp only [AnalysisCache.isFor, Bool.and_eq_true, beq_iff_eq] at hfor
  obtain ⟨other, hother, hmade⟩ := h.made entry (List.mem_of_find?_eq_some hfind)
  rw [hfor.1] at hmade
  apply hmade.imp
  intro origin horigin hmade
  have hlooks' := hmade.looksUp
  rw [hfor.1] at hlooks'
  have heq : other = text := hinj ⟨origin, by simp [horigin], id, hlooks'⟩
    ⟨e, by simp, id, hlooks⟩ (hother.symm.trans hfor.2)
  exact ⟨heq ▸ hlooks', hmade.recomputes, hmade.served⟩

/-- A text is looked up again without a new analysis exactly if it was looked up since its document
was last dropped. -/
theorem recomputes_iff_not_since (hrecorded : Recorded fingerprint events e.before)
    (hkeeps : KeepsLookedUp fingerprint events e.before)
    (hlasting : Lasting e.before.cache.lifetime (events ++ [e]))
    (hinj : Set.InjOn fingerprint {text | ∃ e' ∈ events ++ [e], ∃ id, e'.LooksUp id text})
    (heffect : Effect fingerprint e.before e) (hlooks : e.LooksUp id text) :
    e.Recomputes ↔ ¬ Since (Event.LooksUp id text) (Event.Drops id) events := by
  rcases heffect.of_looksUp hlooks with ⟨hnot, a, hkept, -⟩ | ⟨hnew, hnone, -⟩
  · have hmade := hrecorded.made_of_keeps hinj hlooks hkept
    exact iff_of_false hnot (not_not.mpr (hmade.imp fun _ _ horigin => horigin.1))
  · refine iff_of_true hnew fun hsince => ?_
    obtain ⟨entry, hentry, hfor⟩ := hkeeps id text hsince
    obtain ⟨found, hfound⟩ := Option.isSome_iff_exists.mp
      (List.find?_isSome.mpr ⟨entry, hentry, hfor⟩)
    exact hnone found.value ⟨found, hfound, hrecorded.fresh hlasting
      (List.mem_of_find?_eq_some hfound) (Nat.le_add_right _ _), rfl⟩

section Run

variable {config : Config} {tables : TableStore} {steps : List (Surroundings × Request)}
  {before after : List (Event κ)}

/-- What holds before every event of a run. -/
theorem recorded_run
    (h : (withTables config tables).trace fingerprint steps = before ++ e :: after) :
    (e.before.cache.lifetime = config.cacheLifetime ∧ Recorded fingerprint before e.before ∧
        (Lasting config.cacheLifetime before → KeepsLookedUp fingerprint before e.before)) ∧
      e = e.before.event fingerprint (e.around, e.request) := by
  refine holds_before fingerprint (P := fun events t => t.cache.lifetime = config.cacheLifetime ∧
    Recorded fingerprint events t ∧
      (Lasting config.cacheLifetime events → KeepsLookedUp fingerprint events t)) ?_ ?_ h
  · refine ⟨rfl, ⟨fun entry hentry => ?_, fun e he => ?_⟩, fun _ id text hsince => ?_⟩
    · cases hentry
    · cases he
    · obtain ⟨front, e, back, hempty, -⟩ := hsince
      simp at hempty
  · rintro events t step ⟨hlifetime, hrecorded, hkeeps⟩
    refine ⟨settings_answer.2.trans hlifetime, hrecorded.event rfl (effect_event _ _ _),
      fun hlasting => ?_⟩
    exact (hkeeps (List.pairwise_append.mp hlasting).1).event hrecorded (hlifetime ▸ hlasting)
      (effect_event _ _ _)

theorem lasting_trace
    (h : (withTables config tables).trace fingerprint steps = before ++ e :: after)
    (hsteps : steps.Pairwise fun a b => b.1.done - a.1.done < config.cacheLifetime) :
    Lasting config.cacheLifetime (before ++ [e]) := by
  rw [← map_trace fingerprint (withTables config tables) steps, List.pairwise_map, h,
    List.append_cons] at hsteps
  exact (List.pairwise_append.mp hsteps).1

theorem injOn_trace (h : (withTables config tables).trace fingerprint steps = before ++ e :: after)
    (hinj : Set.InjOn fingerprint
      {text | ∃ step ∈ steps, ∃ id, step.2.document? = some (id, text)}) :
    Set.InjOn fingerprint {text | ∃ e' ∈ before ++ [e], ∃ id, e'.LooksUp id text} := by
  apply hinj.mono
  rintro text ⟨e', he', id, hlooks⟩
  refine ⟨(e'.around, e'.request), ?_, id, hlooks⟩
  rw [← map_trace fingerprint (withTables config tables) steps, h, List.append_cons]
  exact List.mem_map_of_mem (List.mem_append_left _ he')

/-- The rule for one event of a run. -/
theorem recomputes_iff_in_run
    (hinj : Set.InjOn fingerprint
      {text | ∃ step ∈ steps, ∃ id, step.2.document? = some (id, text)})
    (hsteps : steps.Pairwise fun a b => b.1.done - a.1.done < config.cacheLifetime)
    (h : (withTables config tables).trace fingerprint steps = before ++ e :: after)
    (hlooks : e.LooksUp id text) :
    e.Recomputes ↔ ¬ Since (Event.LooksUp id text) (Event.Drops id) before := by
  obtain ⟨⟨hlifetime, hrecorded, hkeeps⟩, heq⟩ := recorded_run h
  have hlasting := lasting_trace h hsteps
  refine recomputes_iff_not_since hrecorded (hkeeps (List.pairwise_append.mp hlasting).1)
    (hlifetime ▸ hlasting) (injOn_trace h hinj) ?_ hlooks
  rw [heq]
  exact effect_event _ _ _

end Run

/-- The answer is taken from the analysis that is served. -/
theorem exists_served (h : (s.event fingerprint step).LooksUp id text) :
    ∃ a, (s.event fingerprint step).served? fingerprint = some a ∧
      ((s.event fingerprint step).request = .analyze id text →
        (s.event fingerprint step).answer = .analysis a) ∧
      ∀ offset, (s.event fingerprint step).request = .position id text offset →
        (s.event fingerprint step).answer = .position (a.analysis.positionAt? offset) := by
  refine ⟨(s.analyze fingerprint step.1 id text).1, congrArg (Option.map _) h, ?_, ?_⟩
  · intro hrequest
    simp only [event] at hrequest ⊢
    rw [hrequest]
    rfl
  · intro offset hrequest
    simp only [event] at hrequest ⊢
    rw [hrequest]
    rfl

/-- Kept analyses are used again, and exactly as long as they may be. Take any run in which nothing
expires and fingerprints tell the texts apart, and a request in it for the analysis of a text: a new
analysis is made exactly if the text was not looked up since the last time that the analyses of its
document were dropped, and otherwise the object that is served is that of the last new analysis of
the text. A new analysis is an object that was not served before. If analyses are kept for no time
at all, every request makes a new one. -/
theorem analyses_reused_until_dropped (fingerprint : List Char → κ) (config : Config)
    (tables : TableStore) (steps : List (Surroundings × Request)) (before after : List (Event κ))
    (e : Event κ)
    (hrun : (withTables config tables).trace fingerprint steps = before ++ e :: after)
    (id : String) (text : List Char) (hlooks : e.LooksUp id text) :
    (∃ a, e.served? fingerprint = some a ∧ (e.request = .analyze id text → e.answer = .analysis a) ∧
      ∀ offset, e.request = .position id text offset →
        e.answer = .position (a.analysis.positionAt? offset)) ∧
    (Set.InjOn fingerprint {text | ∃ step ∈ steps, ∃ id, step.2.document? = some (id, text)} →
      (steps.Pairwise fun a b => b.1.done - a.1.done < config.cacheLifetime) →
      (e.Recomputes ↔ ¬ Since (Event.LooksUp id text) (Event.Drops id) before) ∧
      (¬ e.Recomputes → ∃ front origin back, before = front ++ origin :: back ∧
        origin.LooksUp id text ∧ origin.Recomputes ∧
        (∀ later ∈ back, later.LooksUp id text → ¬ later.Recomputes) ∧
        e.served? fingerprint = origin.served? fingerprint)) ∧
    (e.Recomputes → ∀ earlier ∈ before, earlier.served? fingerprint ≠ e.served? fingerprint) ∧
    (config.cacheSeconds = 0 → e.Recomputes) := by
  obtain ⟨⟨hlifetime, hrecorded, hkeeps⟩, heq⟩ := recorded_run hrun
  have heffect : Effect fingerprint e.before e := heq ▸ effect_event _ _ _
  refine ⟨heq ▸ exists_served (heq ▸ hlooks), ?_⟩
  rcases heffect.of_looksUp hlooks with ⟨hnot, a, hkept, hserved⟩ | ⟨hnew, -, a, hserved, hnumber⟩
  · refine ⟨fun hinj hsteps => ⟨recomputes_iff_in_run hinj hsteps hrun hlooks, fun _ => ?_⟩,
      fun hnew => absurd hnew hnot, fun hzero => ?_⟩
    · obtain ⟨front, origin, back, rfl, ⟨hlooks', hmade, hserved'⟩, hback⟩ :=
        hrecorded.made_of_keeps (injOn_trace hrun hinj) hlooks hkept
      refine ⟨front, origin, back, rfl, hlooks', hmade, fun later hlater hagain => ?_,
        hserved.trans hserved'.symm⟩
      -- the text was looked up at the origin, and the document was not dropped since
      obtain ⟨between, rest, rfl⟩ := List.append_of_mem hlater
      have hsplit : (withTables config tables).trace fingerprint steps =
          (front ++ origin :: between) ++ later :: (rest ++ e :: after) := by
        rw [hrun]
        simp
      rw [recomputes_iff_in_run hinj hsteps hsplit hagain, not_not]
      exact ⟨front, origin, between, rfl, hlooks', fun b hb => hback b (by simp [hb])⟩
    · have hlifetime' : e.before.cache.lifetime = 0 := by
        rw [hlifetime, Config.cacheLifetime, hzero, Nat.zero_mul]
      exact absurd hkept (not_keeps_of_lifetime hlifetime' _ _)
  · refine ⟨fun hinj hsteps => ⟨recomputes_iff_in_run hinj hsteps hrun hlooks,
      fun hnot => absurd hnew hnot⟩, fun _ earlier hearlier hsame => ?_, fun _ => hnew⟩
    have := hrecorded.number_lt earlier hearlier a (hsame.trans hserved)
    omega

/-- The theorem where a text is looked up twice, then formatting changes it, and it is looked up
again. -/
theorem analyses_reused_until_dropped_page :
    ∃ steps : List (Surroundings × Request),
      steps = [
        ({ now := 5, effort := 2 }, .analyze "a.asp" "<%\nx=1\n%>".toList),
        ({ now := 8 }, .format "<%\nx=1\n%>".toList),
        ({ now := 9 }, .position "a.asp" "<%\nx=1\n%>".toList 4),
        ({ now := 9 }, .formatDocument "a.asp" "<%\nx=1\n%>".toList),
        ({ now := 11 }, .analyze "a.asp" "<%\nx=1\n%>".toList)] ∧
      Set.InjOn List.length {text | ∃ step ∈ steps, ∃ id, step.2.document? = some (id, text)} ∧
      (steps.Pairwise fun a b =>
        b.1.done - a.1.done < ({ imposeCase := false } : Config).cacheLifetime) ∧
      ∃ first second third fourth fifth,
        (withTables { imposeCase := false } { source := .bundled }).trace List.length steps =
          [first, second, third, fourth, fifth] ∧
        ¬ third.Recomputes ∧ third.served? List.length = first.served? List.length ∧
        fourth.Drops "a.asp" ∧ fifth.Recomputes := by
  refine ⟨_, rfl, ?_⟩
  refine (fun hinj hlasting => ⟨hinj, hlasting, _, _, _, _, _, rfl, ?_⟩ : _ → _ → _)
    ?texts ?lasting
  case texts =>
    apply (Set.injOn_singleton List.length "<%\nx=1\n%>".toList).mono
    rintro text ⟨step, hstep, id, hdocument⟩
    simp only [List.mem_cons, List.not_mem_nil, or_false] at hstep
    rcases hstep with rfl | rfl | rfl | rfl | rfl <;> cases hdocument <;> rfl
  case lasting => decide
  have hall := fun before after e hrun hlooks => (analyses_reused_until_dropped List.length
    { imposeCase := false } { source := .bundled } _ before after e hrun "a.asp"
    "<%\nx=1\n%>".toList hlooks).2.1 hinj hlasting
  obtain ⟨hthird, horigin⟩ := hall [_, _] [_, _] _ rfl rfl
  obtain ⟨hfifth, -⟩ := hall [_, _, _, _] [] _ rfl rfl
  have hnot := mt hthird.mp (not_not.mpr ⟨[], _, [_], rfl, rfl, fun later hlater => by
    rw [List.mem_singleton.mp hlater]
    exact Bool.false_ne_true⟩)
  refine (fun hdrops => ⟨hnot, ?_, hdrops, hfifth.mpr fun hsince => ?_⟩ : _ → _) ?drops
  case drops => decide +kernel
  · obtain ⟨front, origin, back, hsplit, hlooks, -, -, hserved⟩ := horigin hnot
    cases front with
    | nil =>
        cases hsplit
        exact hserved
    | cons _ front =>
        cases front with
        | nil =>
            cases hsplit
            cases hlooks
        | cons => simp at hsplit
  · rcases (@since_append_singleton _ _ _ [_, _, _] _).mp hsince with hlooks | ⟨-, hkept⟩
    · cases hlooks
    · exact hkept hdrops

end ClassicAsp.Service
