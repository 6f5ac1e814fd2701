import ClassicAsp.Proofs.CaseRewriting
import ClassicAsp.Statement.Role

/-! # Statements by their leading words

What opens, divides or closes a block starts with words of its own. No code starts with the words
of two of them, so that a statement has one role at most and the order in which the forms are tried
does not matter. -/

namespace ClassicAsp

open Text

/-! ## Letters of keywords -/

namespace Text

/-- Does the run map no character to an ASCII letter, or only one word character? -/
def CaseRun.keepsWords (r : CaseRun) : Bool :=
  decide (Int.ofNat r.last + r.shift < 97) || decide (122 < Int.ofNat r.first + r.shift) ||
    (r.first == r.last && isWordChar (Char.ofNat r.first))

theorem keepsWords_of_mem : ∀ r ∈ foldRuns ++ lowerRuns, r.keepsWords = true := by decide +kernel

theorem isLower_iff (c : Char) : c.isLower = true ↔ 97 ≤ c.toNat ∧ c.toNat ≤ 122 := by
  change (decide ('a'.val ≤ c.val) && decide (c.val ≤ 'z'.val)) = true ↔ _
  rw [Bool.and_eq_true, decide_eq_true_eq, decide_eq_true_eq, UInt32.le_iff_toNat_le,
    UInt32.le_iff_toNat_le]
  rfl

theorem CaseMap.isWordChar_of_image? {runs : List CaseRun}
    (hruns : ∀ r ∈ runs, r.keepsWords = true) {c d : Char} (h : (ofRuns runs).image? c = some d)
    (hd : d.isLower = true) : isWordChar c = true := by
  obtain ⟨r, hr, hin, hshift⟩ := exists_run h
  rw [isLower_iff] at hd
  have heq := toNat_of_ofNat_eq hshift.symm (by omega)
  have hkeeps := hruns r hr
  simp only [CaseRun.keepsWords, Bool.or_eq_true, Bool.and_eq_true, decide_eq_true_eq,
    beq_iff_eq, Int.ofNat_eq_natCast] at hkeeps heq
  rcases hkeeps with (hlow | hhigh) | ⟨hone, hword⟩
  · omega
  · omega
  · have hc : c.toNat = r.first := by omega
    rwa [← hc, Char.ofNat_toNat] at hword

theorem isWordChar_of_isAscii {c : Char} (hc : isAscii c = true)
    (h : (foldCase c).isLower = true) : isWordChar c = true := by
  have hall : ∀ n < 128, (foldCase (Char.ofNat n)).isLower = true →
      isWordChar (Char.ofNat n) = true := by decide
  have := hall c.toNat (by simpa [isAscii] using hc)
  rw [Char.ofNat_toNat] at this
  exact this h

/-- What compares equal to an ASCII letter is a word character. -/
theorem isWordChar_of_foldCase {c : Char} (h : (foldCase c).isLower = true) :
    isWordChar c = true := by
  by_cases hascii : isAscii c = true
  · exact isWordChar_of_isAscii hascii h
  · have hself : c.isLower = false := by
      rw [Bool.eq_false_iff, ne_eq, isLower_iff]
      simp only [isAscii, decide_eq_true_eq] at hascii
      omega
    rw [foldCase, if_neg hascii] at h
    split at h
    · rw [hself] at h
      cases h
    · cases himage : foldMap.image? c with
      | some d =>
          rw [himage, Option.getD_some] at h
          exact CaseMap.isWordChar_of_image?
            (fun r hr => keepsWords_of_mem r (List.mem_append_left _ hr)) himage h
      | none =>
          rw [himage, Option.getD_none, lowerChar, if_neg hascii] at h
          cases hlower : lowerMap.image? c with
          | some d =>
              rw [hlower, Option.getD_some] at h
              exact CaseMap.isWordChar_of_image?
                (fun r hr => keepsWords_of_mem r (List.mem_append_right _ hr)) hlower h
          | none =>
              rw [hlower, Option.getD_none, hself] at h
              cases h

theorem foldCase_of_isLower {c : Char} (h : c.isLower = true) : foldCase c = c := by
  rw [isLower_iff] at h
  have hascii : isAscii c = true := by
    rw [isAscii, decide_eq_true_eq]
    omega
  rw [foldCase, if_pos hascii]
  apply Char.toNat_inj.mp
  rw [toNat_toLower, if_neg (by omega)]

theorem exists_of_dropFolded?_cons {p : Char} {w cs rest : List Char} (hp : p.isLower = true)
    (h : dropFolded? (p :: w) cs = some rest) :
    ∃ c back, cs = c :: back ∧ p = foldCase c ∧ dropFolded? w back = some rest := by
  cases cs with
  | nil => cases h
  | cons c back =>
      rw [dropFolded?] at h
      split at h
      · next hsame =>
          rw [sameLetter, beq_iff_eq, foldCase_of_isLower hp] at hsame
          exact ⟨c, back, rfl, hsame, h⟩
      · cases h

/-- A word that stops before another one stops in front of a letter. -/
theorem endsWord_of_dropFolded?_cons {p : Char} {w cs rest : List Char} (hp : p.isLower = true)
    (h : dropFolded? (p :: w) cs = some rest) : endsWord cs = false := by
  obtain ⟨c, back, rfl, hc, -⟩ := exists_of_dropFolded?_cons hp h
  simp [endsWord, isWordChar_of_foldCase (hc ▸ hp)]

/-- Two words of small letters that both stand at the start of a text, each a whole word of it, are
the same. -/
theorem dropFolded?_unique {w v cs rest rest' : List Char} (hw : w.all Char.isLower = true)
    (hv : v.all Char.isLower = true) (h : dropFolded? w cs = some rest)
    (h' : dropFolded? v cs = some rest') (hend : endsWord rest = true)
    (hend' : endsWord rest' = true) : w = v ∧ rest = rest' := by
  induction w generalizing v cs with
  | nil =>
      obtain rfl := Option.some.inj h
      cases v with
      | nil => exact ⟨rfl, Option.some.inj h'⟩
      | cons q v =>
          rw [List.all_cons, Bool.and_eq_true] at hv
          rw [endsWord_of_dropFolded?_cons hv.1 h'] at hend
          cases hend
  | cons p w ih =>
      rw [List.all_cons, Bool.and_eq_true] at hw
      cases v with
      | nil =>
          obtain rfl := Option.some.inj h'
          rw [endsWord_of_dropFolded?_cons hw.1 h] at hend'
          cases hend'
      | cons q v =>
          rw [List.all_cons, Bool.and_eq_true] at hv
          obtain ⟨c, back, rfl, hp, h⟩ := exists_of_dropFolded?_cons hw.1 h
          obtain ⟨_, _, hcons, hq, h'⟩ := exists_of_dropFolded?_cons hv.1 h'
          obtain ⟨rfl, rfl⟩ := List.cons.inj hcons
          obtain ⟨rfl, hrest⟩ := ih hw.2 hv.2 h h'
          exact ⟨by rw [hp, hq], hrest⟩

end Text

/-! ## Words at the start of code -/

namespace Statement

/-- The words are made of small letters. -/
def areKeywords (words : List String) : Bool := words.all (·.toList.all Char.isLower)

section

variable {w : String} {ws vs : List String} {cs rest : List Char}

/-- A word ends in front of a blank. -/
theorem endsWord_cons_of_isBlank {c : Char} (h : isBlank c = true) (rest : List Char) :
    endsWord (c :: rest) = true := by
  rw [endsWord, List.head?_cons, Option.any_some, Bool.not_eq_true', Bool.eq_false_iff]
  intro hword
  rw [isBlank_of_isWordChar hword] at h
  cases h

theorem endsWord_of_gap? (h : gap? cs = some rest) : endsWord cs = true := by
  cases cs with
  | nil => cases h
  | cons c cs =>
      rw [gap?] at h
      split at h
      · next hblank => exact endsWord_cons_of_isBlank hblank cs
      · cases h

theorem phrase?_cons_cons (w w' : String) (ws : List String) (cs : List Char) :
    phrase? (w :: w' :: ws) cs =
      ((dropFolded? w.toList cs).bind gap?).bind (phrase? (w' :: ws)) := rfl

/-- What follows words is what follows the last of them behind the others. -/
theorem phrase?_append (hws : ws ≠ []) (hvs : vs ≠ []) (cs : List Char) :
    phrase? (ws ++ vs) cs = ((phrase? ws cs).bind gap?).bind (phrase? vs) := by
  induction ws generalizing cs with
  | nil => exact absurd rfl hws
  | cons w ws ih =>
      cases ws with
      | nil =>
          cases vs with
          | nil => exact absurd rfl hvs
          | cons v vs => rfl
      | cons w' ws =>
          have hmore := funext (ih (List.cons_ne_nil w' ws))
          rw [List.cons_append] at hmore
          rw [List.cons_append, List.cons_append, phrase?_cons_cons, phrase?_cons_cons, hmore]
          simp only [Option.bind_assoc]

/-- Code that starts with words starts with the first of them, a whole word, and with the others
behind blanks. -/
theorem exists_of_startsWith (h : startsWith (w :: ws) cs = true) :
    ∃ rest, dropFolded? w.toList cs = some rest ∧ endsWord rest = true ∧
      (ws ≠ [] → ∃ back, gap? rest = some back ∧ startsWith ws back = true) := by
  rw [startsWith, Option.any_eq_true] at h
  obtain ⟨rest, hrest, hend⟩ := h
  cases ws with
  | nil => exact ⟨rest, hrest, hend, fun hne => absurd rfl hne⟩
  | cons w' ws =>
      rw [phrase?_cons_cons, Option.bind_eq_some_iff] at hrest
      obtain ⟨back, hback, hphrase⟩ := hrest
      obtain ⟨first, hfirst, hgap⟩ := Option.bind_eq_some_iff.mp hback
      refine ⟨first, hfirst, endsWord_of_gap? hgap, fun _ => ⟨back, hgap, ?_⟩⟩
      rw [startsWith, hphrase]
      exact hend

/-- Code that starts with some words and with others starts with more of the same words. -/
theorem startsWith_comparable (hws : areKeywords ws = true) (hvs : areKeywords vs = true)
    (h : startsWith ws cs = true) (h' : startsWith vs cs = true) : ws <+: vs ∨ vs <+: ws := by
  induction ws generalizing vs cs with
  | nil => exact .inl (List.nil_prefix)
  | cons w ws ih =>
      cases vs with
      | nil => exact .inr (List.nil_prefix)
      | cons v vs =>
          rw [areKeywords, List.all_cons, Bool.and_eq_true] at hws hvs
          obtain ⟨rest, hrest, hend, hmore⟩ := exists_of_startsWith h
          obtain ⟨rest', hrest', hend', hmore'⟩ := exists_of_startsWith h'
          obtain ⟨hword, rfl⟩ := dropFolded?_unique hws.1 hvs.1 hrest hrest' hend hend'
          obtain rfl := String.toList_inj.mp hword
          by_cases hne : ws = []
          · subst hne
            exact .inl (by simp)
          by_cases hne' : vs = []
          · subst hne'
            exact .inr (by simp)
          obtain ⟨back, hgap, hback⟩ := hmore hne
          obtain ⟨back', hgap', hback'⟩ := hmore' hne'
          obtain rfl := Option.some.inj (hgap.symm.trans hgap')
          simpa using ih hws.2 hvs.2 hback hback'

theorem startsWith_of_phrase? (h : phrase? ws cs = some rest) (hend : endsWord rest = true) :
    startsWith ws cs = true := by
  rw [startsWith, h]
  exact hend

theorem startsWith_of_declares (h : declares ws cs = true) : startsWith ws cs = true := by
  rw [declares, Option.any_eq_true] at h
  obtain ⟨back, hback, -⟩ := h
  obtain ⟨rest, hrest, hgap⟩ := Option.bind_eq_some_iff.mp hback
  exact startsWith_of_phrase? hrest (endsWord_of_gap? hgap)

theorem startsWith_append (hws : ws ≠ []) (hvs : vs ≠ [])
    (h : (phrase? ws cs).bind gap? = some rest) (hrest : startsWith vs rest = true) :
    startsWith (ws ++ vs) cs = true := by
  rw [startsWith, phrase?_append hws hvs, h, Option.bind_some]
  exact hrest

/-- Code that starts with words starts with the first ones of them. -/
theorem startsWith_of_append (vs : List String) (hws : ws ≠ [])
    (h : startsWith (ws ++ vs) cs = true) : startsWith ws cs = true := by
  by_cases hvs : vs = []
  · rwa [hvs, List.append_nil] at h
  · rw [startsWith, Option.any_eq_true] at h
    obtain ⟨rest, hrest, -⟩ := h
    rw [phrase?_append hws hvs] at hrest
    obtain ⟨back, hback, -⟩ := Option.bind_eq_some_iff.mp hrest
    obtain ⟨first, hfirst, hgap⟩ := Option.bind_eq_some_iff.mp hback
    exact startsWith_of_phrase? hfirst (endsWord_of_gap? hgap)

/-- The words of a declaration, without an access modifier and with one. -/
def withAccess (ws : List String) : List (List String) :=
  ws :: [["public", "default"], ["public"], ["private"]].map (· ++ ws)

theorem exists_withAccess (hws : ws ≠ []) {p : List Char → Bool}
    (hp : ∀ rest, p rest = true → startsWith ws rest = true)
    (h : (afterAccess cs).any p = true) : ∃ vs ∈ withAccess ws, startsWith vs cs = true := by
  rw [afterAccess, List.any_cons, Bool.or_eq_true, List.any_eq_true] at h
  rcases h with h | ⟨rest, hrest, h⟩
  · exact ⟨ws, List.mem_cons_self, hp cs h⟩
  · obtain ⟨modifier, hmodifier, hgap⟩ := List.mem_filterMap.mp hrest
    refine ⟨modifier ++ ws, List.mem_cons_of_mem _ (List.mem_map_of_mem hmodifier), ?_⟩
    refine startsWith_append ?_ hws hgap (hp rest h)
    rintro rfl
    simp at hmodifier

end

end Statement

/-! ## One role for each start -/

namespace Role

open Statement

/-- Does the code have the form of a statement with this role? -/
def recognizes : Role → List Char → Bool
  | plain, _ => false
  | start c, cs => c.openingForm.holds cs
  | stop c, cs => c.closingForm.holds cs
  | branch, cs => Form.elseIf.holds cs || Form.elseBranch.holds cs
  | case, cs => Form.caseBranch.holds cs

/-- The words that a statement with this role starts with. -/
def leadingWords : Role → List (List String)
  | plain => []
  | start .ifThen => [["if"]]
  | start .forLoop => [["for"]]
  | start .whileLoop => [["while"]]
  | start .doLoop => [["do"]]
  | start .function => withAccess ["function"]
  | start .sub => withAccess ["sub"]
  | start .property => withAccess ["property"]
  | start .selectCase => [["select", "case"]]
  | start .classDef => [["class"]]
  | stop .ifThen => [["end", "if"]]
  | stop .forLoop => [["next"]]
  | stop .whileLoop => [["wend"]]
  | stop .doLoop => [["loop"]]
  | stop .function => [["end", "function"]]
  | stop .sub => [["end", "sub"]]
  | stop .property => [["end", "property"]]
  | stop .selectCase => [["end", "select"]]
  | stop .classDef => [["end", "class"]]
  | branch => [["elseif"], ["else"]]
  | case => [["case"]]

/-- The roles that some statement has. -/
def recognized : List Role :=
  [branch, case] ++ Construct.all.map start ++ Construct.all.map stop

theorem mem_recognized {r : Role} {cs : List Char} (h : r.recognizes cs = true) :
    r ∈ recognized := by
  cases r with
  | plain => cases h
  | start c => cases c <;> decide
  | stop c => cases c <;> decide
  | branch => decide
  | case => decide

theorem areKeywords_leadingWords :
    ∀ r ∈ recognized, ∀ ws ∈ r.leadingWords, areKeywords ws = true := by decide

/-- The words of one role are not the first words of another one. -/
theorem leadingWords_apart : ∀ r ∈ recognized, ∀ r' ∈ recognized, ∀ ws ∈ r.leadingWords,
    ∀ vs ∈ r'.leadingWords, ws <+: vs ∨ vs <+: ws → r = r' := by decide

section

variable {cs : List Char}

theorem startsWith_of_ifBlock (h : Form.ifBlock.holds cs = true) :
    startsWith ["if"] cs = true := by
  rw [Form.holds, Option.any_eq_true] at h
  obtain ⟨between, hbetween, hedges⟩ := h
  rw [condition?, Option.bind_eq_some_iff] at hbetween
  obtain ⟨rest, hrest, hcondition⟩ := hbetween
  refine startsWith_of_phrase? hrest ?_
  simp only at hcondition
  split at hcondition
  · -- the condition is the start of what follows the `If`, and does not go on with a word
    obtain rfl := Option.some.inj hcondition
    rw [Bool.and_eq_true, Bool.and_eq_true] at hedges
    obtain ⟨back, -, hback⟩ := exists_trimEnd rest
    set split := (trimEnd rest).length - "then".length
    cases hhead : (trimEnd rest).take split with
    | nil =>
        rw [hhead] at hedges
        exact absurd hedges.1.2 (by simp)
    | cons c between =>
        have hword : isWordChar c = false := by simpa [hhead] using hedges.1.2
        have hsplit : rest = c :: (between ++ (trimEnd rest).drop split ++ back) := by
          rw [← List.cons_append, ← List.cons_append, ← hhead, List.take_append_drop, ← hback]
        rw [hsplit, endsWord, List.head?_cons, Option.any_some, hword]
        rfl
  · cases hcondition

theorem startsWith_of_forLoop (h : Form.forLoop.holds cs = true) :
    startsWith ["for"] cs = true := by
  rw [Form.holds, Option.any_eq_true] at h
  obtain ⟨back, hback, -⟩ := h
  obtain ⟨rest, hrest, hgap⟩ := Option.bind_eq_some_iff.mp hback
  exact startsWith_of_phrase? hrest (endsWord_of_gap? hgap)

theorem startsWith_of_elseBranch (h : Form.elseBranch.holds cs = true) :
    startsWith ["else"] cs = true := by
  rw [Form.holds, Option.any_eq_true] at h
  obtain ⟨rest, hrest, hhead⟩ := h
  refine startsWith_of_phrase? hrest ?_
  cases rest with
  | nil => rfl
  | cons c rest =>
      rw [List.head?_cons, Option.all_some, Bool.or_eq_true, beq_iff_eq] at hhead
      rcases hhead with hblank | rfl
      · exact endsWord_cons_of_isBlank hblank rest
      · rfl

theorem startsWith_of_doLoop (h : Form.doLoop.holds cs = true) :
    startsWith ["do"] cs = true := by
  rw [Form.holds, Bool.or_eq_true, List.any_eq_true] at h
  rcases h with h | ⟨ws, hws, h⟩
  · rw [Option.any_eq_true] at h
    obtain ⟨rest, hrest, hblank⟩ := h
    refine startsWith_of_phrase? hrest ?_
    cases rest with
    | nil => rfl
    | cons c rest =>
        rw [allBlank_cons, Bool.and_eq_true] at hblank
        exact endsWord_cons_of_isBlank hblank.1 rest
  · rw [Option.any_eq_true] at h
    obtain ⟨rest, hrest, h⟩ := h
    rw [Bool.and_eq_true] at h
    have hstarts := startsWith_of_phrase? hrest h.1
    rcases List.mem_pair.mp hws with rfl | rfl
    · exact startsWith_of_append ["while"] (List.cons_ne_nil _ _) hstarts
    · exact startsWith_of_append ["until"] (List.cons_ne_nil _ _) hstarts

theorem exists_of_propertyHead (h : Form.propertyHead.holds cs = true) :
    ∃ ws ∈ withAccess ["property"], startsWith ws cs = true := by
  rw [Form.holds] at h
  refine exists_withAccess (List.cons_ne_nil _ _) (fun rest hrest => ?_) h
  obtain ⟨ws, hws, hdeclares⟩ := List.any_eq_true.mp hrest
  obtain ⟨accessor, rfl⟩ : ∃ accessor, ws = ["property"] ++ [accessor] := by
    simp only [List.mem_cons, List.not_mem_nil, or_false] at hws
    rcases hws with rfl | rfl | rfl
    · exact ⟨_, rfl⟩
    · exact ⟨_, rfl⟩
    · exact ⟨_, rfl⟩
  exact startsWith_of_append _ (List.cons_ne_nil _ _) (startsWith_of_declares hdeclares)

/-- A statement with a role starts with words of the role. -/
theorem exists_leadingWords {r : Role} (h : r.recognizes cs = true) :
    ∃ ws ∈ r.leadingWords, startsWith ws cs = true := by
  cases r with
  | plain => cases h
  | start c =>
      cases c with
      | ifThen => exact ⟨_, List.mem_cons_self, startsWith_of_ifBlock h⟩
      | forLoop => exact ⟨_, List.mem_cons_self, startsWith_of_forLoop h⟩
      | whileLoop => exact ⟨_, List.mem_cons_self, h⟩
      | doLoop => exact ⟨_, List.mem_cons_self, startsWith_of_doLoop h⟩
      | function =>
          exact exists_withAccess (List.cons_ne_nil _ _) (fun _ => startsWith_of_declares) h
      | sub => exact exists_withAccess (List.cons_ne_nil _ _) (fun _ => startsWith_of_declares) h
      | property => exact exists_of_propertyHead h
      | selectCase => exact ⟨_, List.mem_cons_self, h⟩
      | classDef => exact ⟨_, List.mem_cons_self, startsWith_of_declares h⟩
  | stop c => cases c <;> exact ⟨_, List.mem_cons_self, h⟩
  | branch =>
      rw [recognizes, Bool.or_eq_true] at h
      rcases h with h | h
      · rw [Form.holds, Bool.or_eq_true] at h
        rcases h with h | h
        · exact ⟨_, List.mem_cons_self, h⟩
        · exact ⟨_, List.mem_cons_of_mem _ List.mem_cons_self,
            startsWith_of_append ["if"] (List.cons_ne_nil _ _) h⟩
      · exact ⟨_, List.mem_cons_of_mem _ List.mem_cons_self, startsWith_of_elseBranch h⟩
  | case => exact ⟨_, List.mem_cons_self, h⟩

theorem recognizes_unique {r r' : Role} (h : r.recognizes cs = true)
    (h' : r'.recognizes cs = true) : r = r' := by
  obtain ⟨ws, hws, hstarts⟩ := exists_leadingWords h
  obtain ⟨vs, hvs, hstarts'⟩ := exists_leadingWords h'
  have hr := mem_recognized h
  have hr' := mem_recognized h'
  exact leadingWords_apart r hr r' hr' ws hws vs hvs
    (startsWith_comparable (areKeywords_leadingWords r hr ws hws)
      (areKeywords_leadingWords r' hr' vs hvs) hstarts hstarts')

end

/-! ## Any order of trying -/

/-- Where one element at most is looked for, the order does not matter. -/
theorem find?_eq_of_perm {α : Type} {p : α → Bool} {xs ys : List α} (hperm : xs.Perm ys)
    (hone : ∀ a b, p a = true → p b = true → a = b) : xs.find? p = ys.find? p := by
  cases hx : xs.find? p with
  | none =>
      rw [eq_comm, List.find?_eq_none]
      intro a ha
      exact List.find?_eq_none.mp hx a (hperm.mem_iff.mpr ha)
  | some a =>
      cases hy : ys.find? p with
      | none =>
          have := List.find?_eq_none.mp hy a (hperm.mem_iff.mp (List.mem_of_find?_eq_some hx))
          exact absurd (List.find?_some hx) this
      | some b => rw [hone a b (List.find?_some hx) (List.find?_some hy)]

theorem closes?_of_perm {closers closers' : List Construct} (hperm : closers.Perm closers') :
    closes? closers = closes? closers' := by
  funext cs
  refine find?_eq_of_perm hperm fun c d hc hd => ?_
  have hrole : Role.stop c = .stop d := recognizes_unique hc hd
  exact Role.stop.inj hrole

theorem classifyWith_of_perm {openers openers' closers closers' : List Construct}
    (hopeners : openers.Perm openers') (hclosers : closers.Perm closers') (code : List Char) :
    classifyWith openers closers code = classifyWith openers' closers' code := by
  have hfind (cs : List Char) : openers.find? (fun c => c.openingForm.holds cs) =
      openers'.find? (fun c => c.openingForm.holds cs) := by
    refine find?_eq_of_perm hopeners fun c d hc hd => ?_
    have hrole : Role.start c = .start d := recognizes_unique hc hd
    exact Role.start.inj hrole
  simp only [classifyWith, closes?_of_perm hclosers, hfind]

end Role

/-- No code has the form of statements with two roles: of the forms that close a block, divide it,
start a case or open a block, one at most holds. So a line of code has the same role in whatever
orders the forms are tried. -/
theorem Role.classified_in_any_order :
    (∀ (cs : List Char) (r r' : Role), r.recognizes cs = true → r'.recognizes cs = true → r = r') ∧
      ∀ (openers closers : List Construct) (code : List Char),
        openers.Perm Construct.statementOpeners → closers.Perm Construct.all →
        classifyWith openers closers code = classify code :=
  ⟨fun _ _ _ h h' => recognizes_unique h h',
    fun _ _ code hopeners hclosers => classifyWith_of_perm hopeners hclosers code⟩

/-- The theorem at a declaration with a modifier, whose keyword is written with the long s, and
with the orders turned around. -/
theorem Role.classified_in_any_order_reversed :
    let code := "Public Default \u017Fub f : x = 1".toList
    (start .sub).recognizes code = true ∧ (∀ r : Role, r.recognizes code = true → r = start .sub) ∧
      Construct.statementOpeners.reverse.Perm Construct.statementOpeners ∧
      Construct.all.reverse.Perm Construct.all ∧
      classifyWith Construct.statementOpeners.reverse Construct.all.reverse code = start .sub := by
  intro code
  have hsub : (start .sub).recognizes code = true := by decide
  have hopeners := Construct.statementOpeners.reverse_perm
  have hclosers := Construct.all.reverse_perm
  refine ⟨hsub, fun r hr => classified_in_any_order.1 code r _ hr hsub, hopeners, hclosers, ?_⟩
  rw [classified_in_any_order.2 _ _ code hopeners hclosers]
  decide

end ClassicAsp
