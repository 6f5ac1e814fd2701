import ClassicAsp.Proofs.WellCased
import ClassicAsp.Recasing
import ClassicAsp.Spacing
import Mathlib.Data.List.Forall2
import Mathlib.Data.List.Nodup
import Mathlib.Data.List.Perm.Basic

/-! # Case tables and the order of entries

A schema holds maps, whose entries come in no order of their own. The table of a schema answers
alike for every order of them exactly if entries that fall together, since their words differ only
in case and blanks, agree on what they say. -/

namespace ClassicAsp

/-! ## Look-up in entries -/

namespace Assoc

variable {α β : Type} [BEq α]

@[simp] theorem get?_nil (key : α) : get? ([] : Assoc α β) key = none := rfl

theorem get?_cons (e : α × β) (entries : Assoc α β) (key : α) :
    get? (e :: entries) key = if e.1 == key then some e.2 else entries.get? key := by
  rw [get?, List.find?_cons]
  cases h : e.1 == key with
  | true => rfl
  | false => rfl

theorem get?_append (front back : Assoc α β) (key : α) :
    get? (front ++ back) key = (front.get? key).or (back.get? key) := by
  rw [get?, List.find?_append, Option.map_or, get?, get?]

variable [LawfulBEq α]

theorem isSome_get?_iff {entries : Assoc α β} {key : α} :
    (entries.get? key).isSome = true ↔ key ∈ entries.map (·.1) := by
  induction entries with
  | nil => simp
  | cons e entries ih =>
      rw [get?_cons, List.map_cons, List.mem_cons, ← ih]
      by_cases hkey : e.1 = key
      · simp [hkey]
      · simp [hkey, Ne.symm hkey]

theorem hasKey_eq (entries : Assoc α β) (key : α) :
    entries.hasKey key = (entries.get? key).isSome := by
  rw [Bool.eq_iff_iff, isSome_get?_iff, hasKey, List.any_eq_true, List.mem_map]
  simp only [beq_iff_eq]

theorem get?_map_set (entries : Assoc α β) (k key : α) (value : β) :
    get? (entries.map fun e => if e.1 == k then (k, value) else e) key =
      if k == key then (entries.get? key).map fun _ => value else entries.get? key := by
  induction entries with
  | nil => simp
  | cons e entries ih =>
      rw [List.map_cons, get?_cons, get?_cons, ih]
      by_cases hk : e.1 = k
      · subst hk
        by_cases hkey : e.1 = key
        · simp [hkey]
        · simp [hkey]
      · by_cases hkey : e.1 = key
        · subst hkey
          simp [hk, Ne.symm hk]
        · simp [hk, hkey]

/-- A value that is set is the one of its key. -/
theorem get?_insert (entries : Assoc α β) (k key : α) (value : β) :
    (entries.insert k value).get? key = (get? [(k, value)] key).or (entries.get? key) := by
  rw [insert, hasKey_eq, get?_cons]
  by_cases hkey : k = key
  · subst hkey
    cases hold : entries.get? k with
    | none => simp [get?_append, hold, get?_cons]
    | some old => simp [get?_map_set, hold]
  · split
    · simp [get?_map_set, hkey]
    · simp [get?_append, get?_cons, hkey]

/-- A value that is set where there is none leaves the others. -/
theorem get?_insertNew (entries : Assoc α β) (k key : α) (value : β) :
    (entries.insertNew k value).get? key = (entries.get? key).or (get? [(k, value)] key) := by
  rw [insertNew, hasKey_eq]
  split
  · next hold =>
      by_cases hkey : k = key
      · subst hkey
        obtain ⟨old, hold⟩ := Option.isSome_iff_exists.mp hold
        simp [hold]
      · simp [get?_cons, hkey]
  · exact get?_append _ _ _

theorem get?_foldl_insert (list : List (α × β)) (entries : Assoc α β) (key : α) :
    (list.foldl (fun m e => m.insert e.1 e.2) entries).get? key =
      (get? list.reverse key).or (entries.get? key) := by
  induction list generalizing entries with
  | nil => simp
  | cons e list ih =>
      rw [List.foldl_cons, ih, get?_insert, List.reverse_cons, get?_append, Option.or_assoc]

/-- Of entries that are added one after the other the last one of a key counts. -/
theorem get?_ofList (list : List (α × β)) (key : α) :
    (ofList list).get? key = get? list.reverse key := by
  rw [ofList, get?_foldl_insert, get?_nil, Option.or_none]

/-- The key of each entry occurs once. -/
def KeysOnce (entries : Assoc α β) : Prop := (entries.map (·.1)).Nodup

theorem KeysOnce.concat {entries : Assoc α β} (h : entries.KeysOnce) {key : α}
    (hkey : ¬(entries.get? key).isSome = true) (value : β) :
    KeysOnce (entries ++ [(key, value)]) := by
  rw [isSome_get?_iff] at hkey
  rw [KeysOnce, List.map_append, List.nodup_append]
  refine ⟨h, List.nodup_singleton _, ?_⟩
  rintro a ha b hb rfl
  obtain rfl := List.mem_singleton.mp hb
  exact hkey ha

theorem KeysOnce.insert {entries : Assoc α β} (h : entries.KeysOnce) (key : α) (value : β) :
    (entries.insert key value).KeysOnce := by
  rw [Assoc.insert, hasKey_eq]
  split
  · have hkeys : (entries.map fun e => if e.1 == key then (key, value) else e).map (·.1) =
        entries.map (·.1) := by
      rw [List.map_map]
      refine List.map_congr_left fun e _ => ?_
      by_cases hk : e.1 = key
      · simp [hk]
      · simp [hk]
    rwa [KeysOnce, hkeys]
  · next hkey => exact h.concat hkey value

theorem KeysOnce.insertNew {entries : Assoc α β} (h : entries.KeysOnce) (key : α) (value : β) :
    (entries.insertNew key value).KeysOnce := by
  rw [Assoc.insertNew, hasKey_eq]
  split
  · exact h
  · next hkey => exact h.concat hkey value

omit [BEq α] [LawfulBEq α] in
theorem KeysOnce.foldl {γ : Type} {step : Assoc α β → γ → Assoc α β}
    (hstep : ∀ m x, m.KeysOnce → (step m x).KeysOnce) {entries : Assoc α β}
    (h : entries.KeysOnce) (xs : List γ) : (xs.foldl step entries).KeysOnce := by
  induction xs generalizing entries with
  | nil => exact h
  | cons x xs ih => exact ih (hstep entries x h)

theorem keysOnce_ofList (list : List (α × β)) : (ofList list).KeysOnce :=
  KeysOnce.foldl (fun _ e h => h.insert e.1 e.2) (show KeysOnce [] from List.nodup_nil) list

theorem KeysOnce.perm_keys {entries entries' : Assoc α β} (h : entries.KeysOnce)
    (h' : entries'.KeysOnce)
    (hsame : ∀ key, (entries.get? key).isSome = (entries'.get? key).isSome) :
    (entries.map (·.1)).Perm (entries'.map (·.1)) := by
  refine (List.perm_ext_iff_of_nodup h h').mpr fun key => ?_
  rw [← isSome_get?_iff, ← isSome_get?_iff, hsame]

/-- What entries say of a key does not depend on their order, if those of one key agree on it. -/
theorem get?_of_perm {γ : Type} {f : β → γ} {list list' : List (α × β)} (hperm : list.Perm list')
    (hagree : ∀ e ∈ list, ∀ e' ∈ list, e.1 = e'.1 → f e.2 = f e'.2) (key : α) :
    (get? list key).map f = (get? list' key).map f := by
  have hsome : (get? list key).isSome = (get? list' key).isSome := by
    rw [Bool.eq_iff_iff, isSome_get?_iff, isSome_get?_iff]
    exact (hperm.map _).mem_iff
  cases hvalue : get? list key with
  | none =>
      rw [hvalue, Option.isSome_none, eq_comm, Option.isSome_eq_false_iff,
        Option.isNone_iff_eq_none] at hsome
      rw [hsome]
  | some value =>
      rw [hvalue, Option.isSome_some, eq_comm, Option.isSome_iff_exists] at hsome
      obtain ⟨value', hvalue'⟩ := hsome
      have hmem := mem_of_get? hvalue
      have hmem' := hperm.mem_iff.mpr (mem_of_get? hvalue')
      rw [hvalue', Option.map_some, Option.map_some, hagree _ hmem _ hmem' rfl]

omit [LawfulBEq α] in
theorem get?_of_forall₂ {γ : Type} {f : β → γ} {list list' : List (α × β)}
    (h : List.Forall₂ (fun e e' => e.1 = e'.1 ∧ f e.2 = f e'.2) list list') (key : α) :
    (get? list key).map f = (get? list' key).map f := by
  induction h with
  | nil => rfl
  | @cons e e' list list' hhead _ ih =>
      rw [get?_cons, get?_cons, ← hhead.1]
      split
      · rw [Option.map_some, Option.map_some, hhead.2]
      · exact ih

end Assoc

/-! ## Schemas and their tables -/

namespace CaseSchema

/-- The same maps with their entries in other orders. -/
structure Reorders (s s' : CaseSchema) : Prop where
  functions : s'.functions = s.functions
  spellings : s.spellings.Perm s'.spellings
  objects : s.objects.Perm s'.objects
  keywords : s.keywords.Perm s'.keywords
  operators : ∃ groups, s.operators.Perm groups ∧
    List.Forall₂ (fun g g' => g.1 = g'.1 ∧ g.2.Perm g'.2) groups s'.operators
  spacedGroups : s'.spacedGroups = s.spacedGroups
  spacedKeywords : s'.spacedKeywords = s.spacedKeywords

theorem Reorders.of_perm {s : CaseSchema} {spellings : List (List Char × List Char)}
    {objects : List (List Char × List (List Char))}
    {operators : List (List Char × List (List Char × List Char))}
    (hspellings : s.spellings.Perm spellings) (hobjects : s.objects.Perm objects)
    (hoperators : s.operators.Perm operators) :
    s.Reorders { s with spellings, objects, operators } where
  functions := rfl
  spellings := hspellings
  objects := hobjects
  keywords := .rfl
  operators := ⟨operators, hoperators, List.forall₂_same.mpr fun _ _ => ⟨rfl, .rfl⟩⟩
  spacedGroups := rfl
  spacedKeywords := rfl

end CaseSchema

namespace CaseTable

open Text CaseSchema

/-- The spellings of the members of one object. -/
def memberSpellings (members : List (List Char)) : Assoc (List Char) (List Char) :=
  Assoc.ofList (members.map fun m => (lowercase m, m))

/-- Words that fall together have one spelling, and objects that fall together spell their members
alike. -/
structure Consistent (s : CaseSchema) : Prop where
  spellings : ∀ e ∈ s.spellings, ∀ e' ∈ s.spellings,
    key e.1 = key e'.1 → key e.1 ≠ [] → e.2 = e'.2
  members : ∀ e ∈ s.objects, ∀ e' ∈ s.objects, lowercase e.1 = lowercase e'.1 → ∀ member,
    (memberSpellings e.2).get? (lowercase member) =
      (memberSpellings e'.2).get? (lowercase member)

/-- The tables give the same answers to every question, and recase and space every code alike. -/
structure SameAnswers (t t' : CaseTable) : Prop where
  canonical : ∀ word, t.canonical? word = t'.canonical? word
  canonicalMember : ∀ object member, t.canonicalMember? object member =
    t'.canonicalMember? object member
  isKeyword : ∀ word, t.isKeyword word = t'.isKeyword word
  isSpacedKeyword : ∀ word, t.isSpacedKeyword word = t'.isSpacedKeyword word
  spacedOperators : ∀ op, op ∈ t.spacedOperators ↔ op ∈ t'.spacedOperators
  size : t.size = t'.size
  members : ∀ code, Recasing.members t code = Recasing.members t' code
  keywords : ∀ code, Recasing.keywords t code = Recasing.keywords t' code
  operators : ∀ code, Spacing.operators t code = Spacing.operators t' code

/-- The entries of words that have an explicit spelling. -/
def explicitSpellings (s : CaseSchema) : List (List Char × List Char) :=
  (s.spellings.map fun e => (key e.1, e.2)).filter (!·.1.isEmpty)

/-- The entries of names of functions. -/
def functionSpellings (names : List (List Char)) : List (List Char × List Char) :=
  (names.map fun name => (key name, name)).filter (!·.1.isEmpty)

theorem get?_foldl_insertNew (names : List (List Char)) (entries : Assoc (List Char) (List Char))
    (word : List Char) :
    Assoc.get? (names.foldl (fun m name => if (key name).isEmpty then m
        else m.insertNew (key name) name) entries) word =
      (entries.get? word).or (Assoc.get? (functionSpellings names) word) := by
  induction names generalizing entries with
  | nil => simp [functionSpellings]
  | cons name names ih =>
      simp only [functionSpellings] at ih ⊢
      rw [List.foldl_cons, ih, List.map_cons]
      split
      · next hempty => rw [List.filter_cons_of_neg (by simp [hempty])]
      · next hempty =>
          rw [List.filter_cons_of_pos (by simpa using hempty), Assoc.get?_insertNew,
            Option.or_assoc, ← Assoc.get?_append, List.singleton_append]

/-- The last explicit spelling of a word counts, or else the first function of this name. -/
theorem get?_spellingsOf (s : CaseSchema) (word : List Char) :
    (spellingsOf s).get? word =
      (Assoc.get? (explicitSpellings s).reverse word).or
        (Assoc.get? (functionSpellings s.functions) word) := by
  rw [spellingsOf, get?_foldl_insertNew, Assoc.get?_ofList, explicitSpellings]

theorem get?_membersOf (s : CaseSchema) (object : List Char) :
    (membersOf s).get? object =
      Assoc.get? (s.objects.map fun e => (lowercase e.1, memberSpellings e.2)).reverse object := by
  rw [membersOf, Assoc.get?_ofList]
  rfl

theorem keysOnce_spellingsOf (s : CaseSchema) : (spellingsOf s).KeysOnce := by
  refine Assoc.KeysOnce.foldl (fun m name h => ?_) (Assoc.keysOnce_ofList _) _
  split
  · exact h
  · exact h.insertNew _ _

theorem keysOnce_membersOf (s : CaseSchema) : (membersOf s).KeysOnce :=
  Assoc.keysOnce_ofList _

/-! ## The order of trying -/

theorem triedBefore_iff (a b : List Char) :
    triedBefore a b = true ↔
      byteLength b < byteLength a ∨ byteLength b = byteLength a ∧ ¬b < a := by
  simp [triedBefore]

theorem triedBefore_trans (a b c : List Char) (hab : triedBefore a b = true)
    (hbc : triedBefore b c = true) : triedBefore a c = true := by
  rw [triedBefore_iff] at *
  rcases hab with hab | ⟨hab, hlt⟩
  · left
    omega
  · rcases hbc with hbc | ⟨hbc, hlt'⟩
    · left
      omega
    · exact .inr ⟨hbc.trans hab, @List.le_trans _ _ _ _ _ a b c hlt hlt'⟩

theorem triedBefore_total (a b : List Char) : (triedBefore a b || triedBefore b a) = true := by
  rw [Bool.or_eq_true, triedBefore_iff, triedBefore_iff]
  have htotal : ¬b < a ∨ ¬a < b := List.le_total a b
  rcases Nat.lt_trichotomy (byteLength a) (byteLength b) with hlt | heq | hlt
  · exact .inr (.inl hlt)
  · rcases htotal with h | h
    · exact .inl (.inr ⟨heq.symm, h⟩)
    · exact .inr (.inr ⟨heq, h⟩)
  · exact .inl (.inl hlt)

theorem triedBefore_antisymm (a b : List Char) (hab : triedBefore a b = true)
    (hba : triedBefore b a = true) : a = b := by
  rw [triedBefore_iff] at hab hba
  rcases hab with hab | ⟨hab, hlt⟩
  · omega
  · rcases hba with hba | ⟨-, hlt'⟩
    · omega
    · exact @List.le_antisymm _ _ _ a b hlt hlt'

/-- The phrases are tried in one order, whatever order they come in. -/
theorem searchOrder_of_perm {phrases phrases' : List (List Char)}
    (h : phrases.Perm phrases') : searchOrder phrases = searchOrder phrases' := by
  have hsorted := List.pairwise_mergeSort triedBefore_trans triedBefore_total
  refine List.Perm.eq_of_pairwise (fun a b _ _ => triedBefore_antisymm a b) (hsorted _)
    (hsorted _) ?_
  exact (List.mergeSort_perm _ _).trans ((h.filter _).trans (List.mergeSort_perm _ _).symm)

/-! ## Rewriting by answers -/

section

variable {t t' : CaseTable}

theorem keywords_congr (hphrases : t.phrases = t'.phrases)
    (hcanonical : ∀ word, t.canonical? word = t'.canonical? word) (code : List Char) :
    Recasing.keywords t code = Recasing.keywords t' code := by
  have hspelling : ∀ before word,
      Recasing.keywordSpelling t before word = Recasing.keywordSpelling t' before word := by
    intro before word
    rw [Recasing.keywordSpelling, hcanonical, Recasing.keywordSpelling]
  have hafter : ∀ skip before out cs,
      Recasing.keywordsAfter t skip before out cs =
        Recasing.keywordsAfter t' skip before out cs := by
    intro skip before out cs
    induction cs generalizing skip before out with
    | nil => rfl
    | cons c cs ih =>
        cases skip with
        | succ skip => exact ih skip _ _
        | zero =>
            simp only [Recasing.keywordsAfter, hphrases, hspelling]
            split
            · exact ih _ _ _
            · exact ih _ _ _
  exact hafter 0 [] [] code

theorem members_congr (hobjects : t.objects = t'.objects)
    (hcanonical : ∀ word, t.canonical? word = t'.canonical? word)
    (hmember : ∀ object member, t.canonicalMember? object member =
      t'.canonicalMember? object member) (code : List Char) :
    Recasing.members t code = Recasing.members t' code := by
  have hspelling : ∀ r, Recasing.memberSpelling t r = Recasing.memberSpelling t' r := by
    intro r
    simp only [Recasing.memberSpelling, hcanonical, hmember]
  have hafter : ∀ skip before out cs,
      Recasing.membersAfter t skip before out cs = Recasing.membersAfter t' skip before out cs := by
    intro skip before out cs
    induction cs generalizing skip before out with
    | nil => rfl
    | cons c cs ih =>
        cases skip with
        | succ skip => exact ih skip _ _
        | zero =>
            simp only [Recasing.membersAfter, hobjects, hspelling]
            split
            · exact ih _ _ _
            · exact ih _ _ _
  exact hafter 0 [] [] code

theorem operators_congr (hops : ∀ op, op ∈ t.spacedOperators ↔ op ∈ t'.spacedOperators)
    (hkeywords : ∀ word, t.isSpacedKeyword word = t'.isSpacedKeyword word) (code : List Char) :
    Spacing.operators t code = Spacing.operators t' code := by
  have hcontains : ∀ op, t.spacedOperators.contains op = t'.spacedOperators.contains op := by
    intro op
    rw [Bool.eq_iff_iff, List.contains_iff_mem, List.contains_iff_mem, hops]
  have hspaced : ∀ prev tok, Spacing.isSpaced t prev tok = Spacing.isSpaced t' prev tok := by
    intro prev tok
    simp only [Spacing.isSpaced, hcontains, hkeywords]
  have hwrite : ∀ prev after out toks,
      Spacing.writeAfter t prev after out toks = Spacing.writeAfter t' prev after out toks := by
    intro prev after out toks
    induction toks generalizing prev after out with
    | nil => rfl
    | cons tok toks ih =>
        simp only [Spacing.writeAfter, Spacing.spaceAfter, Spacing.hasSpaceBefore, hspaced, ih]
  exact hwrite none none [] (Token.read code)

end

/-! ## Operators -/

theorem mem_foldl_once {symbols ops : List (List Char)} {op : List Char} :
    op ∈ symbols.foldl (fun ops op => if ops.contains op then ops else ops ++ [op]) ops ↔
      op ∈ ops ∨ op ∈ symbols := by
  induction symbols generalizing ops with
  | nil => simp
  | cons symbol symbols ih =>
      rw [List.foldl_cons, ih, List.mem_cons]
      split
      · next hmem =>
          rw [List.contains_iff_mem] at hmem
          constructor
          · rintro (h | h)
            · exact .inl h
            · exact .inr (.inr h)
          · rintro (h | rfl | h)
            · exact .inl h
            · exact .inl hmem
            · exact .inr h
      · rw [List.mem_append, List.mem_singleton, or_assoc]

theorem mem_operatorsOf {s : CaseSchema} {op : List Char} :
    op ∈ operatorsOf s ↔ op ≠ [] ∧ ∃ group ∈ s.spacedGroups,
      op ∈ ((Assoc.get? s.operators group).getD []).map (·.2) := by
  simp only [operatorsOf]
  rw [mem_foldl_once, List.mem_filter, List.mem_flatMap]
  simp [and_comm]

/-- The operators of a group do not depend on the order of entries. -/
theorem mem_group_of_reorders {s s' : CaseSchema} (hgroups : (s.operators.map (·.1)).Nodup)
    (h : s.Reorders s') (group op : List Char) :
    op ∈ ((Assoc.get? s.operators group).getD []).map (·.2) ↔
      op ∈ ((Assoc.get? s'.operators group).getD []).map (·.2) := by
  obtain ⟨groups, hperm, hinner⟩ := h.operators
  have houter : (Assoc.get? s.operators group).map (op ∈ ·.map (·.2)) =
      (Assoc.get? groups group).map (op ∈ ·.map (·.2)) := by
    refine Assoc.get?_of_perm hperm (fun e he e' he' heq => ?_) group
    rw [List.inj_on_of_nodup_map hgroups he he' heq]
  have hinner : (Assoc.get? groups group).map (op ∈ ·.map (·.2)) =
      (Assoc.get? s'.operators group).map (op ∈ ·.map (·.2)) := by
    refine Assoc.get?_of_forall₂ (hinner.imp fun g g' hg => ⟨hg.1, ?_⟩) group
    exact propext (hg.2.map _).mem_iff
  have hsame := houter.trans hinner
  cases hleft : Assoc.get? s.operators group with
  | none =>
      cases hright : Assoc.get? s'.operators group with
      | none => rfl
      | some symbols => simp [hleft, hright] at hsame
  | some symbols =>
      cases hright : Assoc.get? s'.operators group with
      | none => simp [hleft, hright] at hsame
      | some symbols' =>
          rw [hleft, hright, Option.map_some, Option.map_some, Option.some.injEq] at hsame
          exact iff_of_eq hsame

theorem spacedOperators_ofSchema (s : CaseSchema) (origin : TableOrigin) :
    (ofSchema s origin).spacedOperators =
      if (operatorsOf s).isEmpty then commonOperators else operatorsOf s := rfl

theorem mem_spacedOperators_of_reorders {s s' : CaseSchema} (origin : TableOrigin)
    (hgroups : (s.operators.map (·.1)).Nodup) (h : s.Reorders s') (op : List Char) :
    op ∈ (ofSchema s origin).spacedOperators ↔ op ∈ (ofSchema s' origin).spacedOperators := by
  have hnamed : ∀ op, op ∈ operatorsOf s ↔ op ∈ operatorsOf s' := by
    intro op
    rw [mem_operatorsOf, mem_operatorsOf, h.spacedGroups]
    simp only [mem_group_of_reorders hgroups h]
  have hempty : (operatorsOf s).isEmpty = (operatorsOf s').isEmpty := by
    rw [Bool.eq_iff_iff, List.isEmpty_iff, List.isEmpty_iff, List.eq_nil_iff_forall_not_mem,
      List.eq_nil_iff_forall_not_mem]
    simp only [hnamed]
  rw [spacedOperators_ofSchema, spacedOperators_ofSchema, hempty]
  by_cases hcommon : (operatorsOf s').isEmpty = true
  · rw [if_pos hcommon, if_pos hcommon]
  · rw [if_neg hcommon, if_neg hcommon]
    exact hnamed op

/-! ## Answers in any order -/

section

variable {s s' : CaseSchema}

theorem get?_spellings_of_reorders (hs : Consistent s) (h : s.Reorders s') (word : List Char) :
    (spellingsOf s).get? word = (spellingsOf s').get? word := by
  have hexplicit : (Assoc.get? (explicitSpellings s).reverse word).map id =
      (Assoc.get? (explicitSpellings s').reverse word).map id := by
    refine Assoc.get?_of_perm ?_ ?_ word
    · exact (List.reverse_perm _).trans
        (((h.spellings.map _).filter _).trans (List.reverse_perm _).symm)
    · intro e he e' he' hkey
      obtain ⟨hmem, hne⟩ := List.mem_filter.mp (List.mem_reverse.mp he)
      obtain ⟨f, hf, rfl⟩ := List.mem_map.mp hmem
      obtain ⟨f', hf', rfl⟩ := List.mem_map.mp
        (List.mem_filter.mp (List.mem_reverse.mp he')).1
      exact hs.spellings f hf f' hf' hkey (by simpa using hne)
  rw [Option.map_id, id, id] at hexplicit
  rw [get?_spellingsOf, hexplicit, get?_spellingsOf, h.functions]

theorem get?_members_of_reorders (hs : Consistent s) (h : s.Reorders s') (object : List Char) :
    ((membersOf s).get? object).map (fun m member => m.get? (lowercase member)) =
      ((membersOf s').get? object).map (fun m member => m.get? (lowercase member)) := by
  rw [get?_membersOf, get?_membersOf]
  refine Assoc.get?_of_perm ?_ ?_ object
  · exact (List.reverse_perm _).trans ((h.objects.map _).trans (List.reverse_perm _).symm)
  · intro e he e' he' hkey
    obtain ⟨f, hf, rfl⟩ := List.mem_map.mp (List.mem_reverse.mp he)
    obtain ⟨f', hf', rfl⟩ := List.mem_map.mp (List.mem_reverse.mp he')
    exact funext (hs.members f hf f' hf' hkey)

theorem sameAnswers_of_reorders (origin : TableOrigin)
    (hgroups : (s.operators.map (·.1)).Nodup) (hs : Consistent s) (h : s.Reorders s') :
    SameAnswers (ofSchema s origin) (ofSchema s' origin) := by
  have hspellings := get?_spellings_of_reorders hs h
  have hmembers := get?_members_of_reorders hs h
  have hwords : ((spellingsOf s).map (·.1)).Perm ((spellingsOf s').map (·.1)) :=
    (keysOnce_spellingsOf s).perm_keys (keysOnce_spellingsOf s') fun word => by rw [hspellings]
  have hobjects : ((membersOf s).map (·.1)).Perm ((membersOf s').map (·.1)) := by
    refine (keysOnce_membersOf s).perm_keys (keysOnce_membersOf s') fun object => ?_
    have := congrArg Option.isSome (hmembers object)
    rwa [Option.isSome_map, Option.isSome_map] at this
  have hcanonical : ∀ word, (ofSchema s origin).canonical? word =
      (ofSchema s' origin).canonical? word := fun word => hspellings (key word)
  have hmember : ∀ object member, (ofSchema s origin).canonicalMember? object member =
      (ofSchema s' origin).canonicalMember? object member := by
    intro object member
    have := congrArg (·.bind (· member)) (hmembers (lowercase object))
    rwa [Option.bind_map, Option.bind_map] at this
  have hops : ∀ op, op ∈ (ofSchema s origin).spacedOperators ↔
      op ∈ (ofSchema s' origin).spacedOperators :=
    mem_spacedOperators_of_reorders origin hgroups h
  have hspaced : ∀ word, (ofSchema s origin).isSpacedKeyword word =
      (ofSchema s' origin).isSpacedKeyword word := by
    intro word
    simp only [isSpacedKeyword, ofSchema, h.spacedKeywords]
  exact {
    canonical := hcanonical
    canonicalMember := hmember
    isKeyword := fun word => ((h.keywords.flatMap_right _).map key).contains_eq
    isSpacedKeyword := hspaced
    spacedOperators := hops
    size := by
      have hlength := hwords.length_eq
      rwa [List.length_map, List.length_map] at hlength
    members := members_congr (congrArg PhraseIndex.ofPhrases (searchOrder_of_perm hobjects))
      hcanonical hmember
    keywords := keywords_congr (congrArg PhraseIndex.ofPhrases (searchOrder_of_perm hwords))
      hcanonical
    operators := operators_congr hops hspaced }

/-- An entry that comes last gives its word the spelling. -/
theorem exists_reorders_spelling {e : List Char × List Char} (he : e ∈ s.spellings)
    (hne : key e.1 ≠ []) :
    ∃ s', s.Reorders s' ∧ (spellingsOf s').get? (key e.1) = some e.2 := by
  refine ⟨{ s with spellings := s.spellings.erase e ++ [e] }, Reorders.of_perm
    ((List.perm_cons_erase he).trans (List.perm_append_singleton _ _).symm) .rfl .rfl, ?_⟩
  have hlast : explicitSpellings { s with spellings := s.spellings.erase e ++ [e] } =
      explicitSpellings { s with spellings := s.spellings.erase e } ++ [(key e.1, e.2)] := by
    simp [explicitSpellings, hne]
  rw [get?_spellingsOf, hlast, List.reverse_append, List.reverse_singleton,
    List.singleton_append, Assoc.get?_cons, if_pos (beq_self_eq_true _), Option.some_or]

/-- An object that comes last gives the members of its name their spellings. -/
theorem exists_reorders_members {e : List Char × List (List Char)} (he : e ∈ s.objects) :
    ∃ s', s.Reorders s' ∧ (membersOf s').get? (lowercase e.1) = some (memberSpellings e.2) := by
  refine ⟨{ s with objects := s.objects.erase e ++ [e] }, Reorders.of_perm .rfl
    ((List.perm_cons_erase he).trans (List.perm_append_singleton _ _).symm) .rfl, ?_⟩
  rw [get?_membersOf, List.map_append, List.reverse_append, List.map_singleton,
    List.reverse_singleton, List.singleton_append, Assoc.get?_cons, if_pos (beq_self_eq_true _)]

theorem consistent_of_sameAnswers {origin : TableOrigin}
    (h : ∀ s', s.Reorders s' → SameAnswers (ofSchema s origin) (ofSchema s' origin)) :
    Consistent s := by
  have hspelling : ∀ e ∈ s.spellings, key e.1 ≠ [] →
      (ofSchema s origin).canonical? e.1 = some e.2 := by
    intro e he hne
    obtain ⟨s', hreorders, hlast⟩ := exists_reorders_spelling he hne
    exact ((h s' hreorders).canonical e.1).trans hlast
  have hmember : ∀ e ∈ s.objects, ∀ member, (ofSchema s origin).canonicalMember? e.1 member =
      (memberSpellings e.2).get? (lowercase member) := by
    intro e he member
    obtain ⟨s', hreorders, hlast⟩ := exists_reorders_members he
    refine ((h s' hreorders).canonicalMember e.1 member).trans ?_
    rw [canonicalMember?, ofSchema, hlast, Option.bind_some]
  constructor
  · intro e he e' he' hkey hne
    have heq : (ofSchema s origin).canonical? e.1 = (ofSchema s origin).canonical? e'.1 := by
      rw [canonical?, hkey, canonical?]
    rw [hspelling e he hne, hspelling e' he' (hkey ▸ hne)] at heq
    exact Option.some.inj heq
  · intro e he e' he' hkey member
    rw [← hmember e he, ← hmember e' he', canonicalMember?, hkey, canonicalMember?]

end

end CaseTable

/-- The table of a schema, whose groups of operators have different names, gives the same answers
for every order of the entries of its maps exactly if entries that fall together agree. -/
theorem CaseTable.answers_ignore_order_iff (s : CaseSchema) (origin : TableOrigin)
    (hgroups : (s.operators.map (·.1)).Nodup) :
    (∀ s', s.Reorders s' → SameAnswers (ofSchema s origin) (ofSchema s' origin)) ↔
      Consistent s :=
  ⟨consistent_of_sameAnswers, fun hs _ h => sameAnswers_of_reorders origin hgroups hs h⟩

/-- The theorem at a schema with words, objects and operators that fall together and agree, and the
same schema read from the last entry to the first. -/
theorem CaseTable.answers_ignore_order_iff_reversed :
    let s : CaseSchema := {
      spellings := [("END IF".toList, "End If".toList), ("end  if".toList, "End If".toList),
        ("if".toList, "If".toList)]
      objects := [("Response".toList, ["Write".toList]), ("RESPONSE".toList, ["Write".toList])]
      operators := [("a".toList, [("x".toList, "=".toList), ("y".toList, "<>".toList)]),
        ("b".toList, [("z".toList, "=".toList)])]
      spacedGroups := ["b".toList, "a".toList] }
    let s' : CaseSchema := { s with
      spellings := s.spellings.reverse
      objects := s.objects.reverse
      operators := s.operators.reverse }
    (s.operators.map (·.1)).Nodup ∧ Consistent s ∧ s.Reorders s' ∧
      SameAnswers (ofSchema s .builtin) (ofSchema s' .builtin) := by
  intro s s'
  have hgroups : (s.operators.map (·.1)).Nodup := by decide
  have hs : Consistent s := {
    spellings := by decide +kernel
    members := by
      intro e he e' he' _ member
      have hmembers : ∀ e ∈ s.objects, e.2 = ["Write".toList] := by decide
      rw [hmembers e he, hmembers e' he'] }
  have hreorders : s.Reorders s' := CaseSchema.Reorders.of_perm s.spellings.reverse_perm.symm
    s.objects.reverse_perm.symm s.operators.reverse_perm.symm
  exact ⟨hgroups, hs, hreorders, (answers_ignore_order_iff s .builtin hgroups).mpr hs s' hreorders⟩

/-- Two entries for one word that do not agree: the one that comes last counts. -/
theorem CaseTable.answers_depend_on_order :
    let s : CaseSchema := { spellings :=
      [("DATESERIAL".toList, "DATESERIAL".toList), ("dateserial".toList, "DateSerial".toList)] }
    let s' : CaseSchema := { s with spellings := s.spellings.reverse }
    (s.spellings.map (·.1)).Nodup ∧ s.Reorders s' ∧
      (ofSchema s .builtin).canonical? "dateserial".toList = some "DateSerial".toList ∧
      (ofSchema s' .builtin).canonical? "dateserial".toList = some "DATESERIAL".toList ∧
      ¬SameAnswers (ofSchema s .builtin) (ofSchema s' .builtin) := by
  intro s s'
  have hfirst : (ofSchema s .builtin).canonical? "dateserial".toList =
      some "DateSerial".toList := by decide +kernel
  have hsecond : (ofSchema s' .builtin).canonical? "dateserial".toList =
      some "DATESERIAL".toList := by decide +kernel
  have hreorders : s.Reorders s' :=
    CaseSchema.Reorders.of_perm s.spellings.reverse_perm.symm .rfl .rfl
  refine ⟨by decide, hreorders, hfirst, hsecond, fun hsame => ?_⟩
  have heq := hsame.canonical "dateserial".toList
  rw [hfirst, hsecond] at heq
  exact absurd heq (by decide)

end ClassicAsp
