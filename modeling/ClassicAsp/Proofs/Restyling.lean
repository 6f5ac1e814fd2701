import ClassicAsp.Proofs.Blanks
import ClassicAsp.Proofs.Letters
import ClassicAsp.Region

/-! # Restyled code

Code is restyled when letters change their case and blanks come and go between visible
characters, but never so that a `%` and a `>` meet. Nothing visible is lost then, and no closing
marker comes up. -/

namespace ClassicAsp

open Text

/-! ## Closing markers -/

namespace Region

theorem hasClosing_cons (c : Char) (cs : List Char) :
    hasClosing (c :: cs) = ((c == '%' && cs.head? == some '>') || hasClosing cs) := by
  by_cases h : c = '%' ∧ cs.head? = some '>'
  · obtain ⟨rfl, hhead⟩ := h
    obtain ⟨rest, rfl⟩ := List.head?_eq_some_iff.mp hhead
    rfl
  · have hno : (c == '%' && cs.head? == some '>') = false := by
      simpa [Bool.and_eq_false_iff, imp_iff_not_or] using h
    rw [hno, Bool.false_or, hasClosing]
    rintro rest rfl rfl
    exact h ⟨rfl, rfl⟩

theorem hasClosing_cons_of_isBlank {c : Char} (h : isBlank c = true) (cs : List Char) :
    hasClosing (c :: cs) = hasClosing cs := by
  have hc : (c == '%') = false := by
    rw [beq_eq_false_iff_ne]
    rintro rfl
    exact absurd h (by decide)
  rw [hasClosing_cons, hc]
  rfl

theorem hasClosing_append_of_allBlank {x : List Char} (h : allBlank x = true) (cs : List Char) :
    hasClosing (x ++ cs) = hasClosing cs := by
  induction x with
  | nil => rfl
  | cons c x ih =>
      rw [allBlank_cons, Bool.and_eq_true] at h
      rw [List.cons_append, hasClosing_cons_of_isBlank h.1, ih h.2]

theorem hasClosing_of_allBlank {x : List Char} (h : allBlank x = true) :
    hasClosing x = false := by
  have := hasClosing_append_of_allBlank h []
  rwa [List.append_nil] at this

/-- A closing marker in a concatenation is in one of the parts or reaches over the cut. -/
theorem hasClosing_append {a b : List Char}
    (h : ¬(a.getLast? = some '%' ∧ b.head? = some '>')) :
    hasClosing (a ++ b) = (hasClosing a || hasClosing b) := by
  induction a with
  | nil => rfl
  | cons c a ih =>
      cases a with
      | nil =>
          have hno : (c == '%' && b.head? == some '>') = false := by
            simpa [Bool.and_eq_false_iff, imp_iff_not_or] using h
          rw [List.singleton_append, hasClosing_cons, hno, hasClosing_cons]
          simp [hasClosing]
      | cons d a =>
          have h' : ¬((d :: a).getLast? = some '%' ∧ b.head? = some '>') := by
            rwa [List.getLast?_cons_cons] at h
          rw [List.cons_append, hasClosing_cons, ih h', hasClosing_cons c, Bool.or_assoc]
          rfl

theorem hasClosing_parts {a b : List Char} (h : hasClosing (a ++ b) = false) :
    hasClosing a = false ∧ hasClosing b = false := by
  induction a with
  | nil => exact ⟨rfl, h⟩
  | cons c a ih =>
      rw [List.cons_append, hasClosing_cons, Bool.or_eq_false_iff] at h
      obtain ⟨ha, hb⟩ := ih h.2
      refine ⟨?_, hb⟩
      rw [hasClosing_cons, ha, Bool.or_false]
      cases a with
      | nil => simp
      | cons d a => exact h.1

theorem hasClosing_append_of_notMem {a : List Char} (h : '%' ∉ a) (b : List Char) :
    hasClosing (a ++ b) = hasClosing b := by
  induction a with
  | nil => rfl
  | cons c a ih =>
      rw [List.mem_cons, not_or] at h
      have hc : (c == '%') = false := beq_eq_false_iff_ne.mpr (Ne.symm h.1)
      rw [List.cons_append, hasClosing_cons, hc, ih h.2]
      rfl

end Region

/-! ## The relation -/

/-- The last visible character of a text that follows the visible character `prev`. -/
def Text.lastVisible (prev : Option Char) (cs : List Char) : Option Char :=
  cs.foldl (fun p c => if isBlank c then p else some c) prev

@[simp] theorem Text.lastVisible_nil (prev : Option Char) : lastVisible prev [] = prev := rfl

@[simp] theorem Text.lastVisible_cons (prev : Option Char) (c : Char) (cs : List Char) :
    lastVisible prev (c :: cs) = lastVisible (if isBlank c then prev else some c) cs := rfl

@[simp] theorem Text.lastVisible_append (prev : Option Char) (a b : List Char) :
    lastVisible prev (a ++ b) = lastVisible (lastVisible prev a) b :=
  List.foldl_append

theorem Text.lastVisible_of_allBlank {x : List Char} (h : allBlank x = true)
    (prev : Option Char) : lastVisible prev x = prev := by
  induction x with
  | nil => rfl
  | cons c x ih =>
      rw [allBlank_cons, Bool.and_eq_true] at h
      rw [lastVisible_cons, if_pos h.1, ih h.2]

/-- The second text is the first one restyled, where both follow the visible character `prev`.
The blanks `x` before a visible character become the blanks `y`. -/
inductive Restyled : Option Char → List Char → List Char → Prop where
  | blank {prev x y} (hx : allBlank x = true) (hy : allBlank y = true)
      (hnil : x = [] → y = []) (hfeed : '\n' ∈ y → '\n' ∈ x) : Restyled prev x y
  | visible {prev x y c d a b} (hx : allBlank x = true) (hy : allBlank y = true)
      (hfeed : '\n' ∈ y → '\n' ∈ x) (hc : isBlank c = false)
      (hletter : lowercase [c] = lowercase [d])
      (hapart : y = [] → x = [] ∨ prev ≠ some '%' ∨ c ≠ '>') :
      Restyled (some c) a b → Restyled prev (x ++ c :: a) (y ++ d :: b)

/-- The first visible character of a text, and the blanks before it. -/
theorem eq_of_append_visible {x y a b : List Char} {c d : Char} (hx : allBlank x = true)
    (hy : allBlank y = true) (hc : isBlank c = false) (hd : isBlank d = false)
    (h : x ++ c :: a = y ++ d :: b) : x = y ∧ c = d ∧ a = b := by
  induction x generalizing y with
  | nil =>
      cases y with
      | nil => simpa using h
      | cons e y =>
          obtain ⟨rfl, -⟩ := List.cons.inj h
          simp [hc] at hy
  | cons e x ih =>
      rw [allBlank_cons, Bool.and_eq_true] at hx
      cases y with
      | nil =>
          obtain ⟨rfl, -⟩ := List.cons.inj h
          rw [hd] at hx
          exact absurd hx.1 (by simp)
      | cons f y =>
          rw [allBlank_cons, Bool.and_eq_true] at hy
          obtain ⟨rfl, htail⟩ := List.cons.inj h
          obtain ⟨rfl, hcd, hab⟩ := ih hx.2 hy.2 htail
          exact ⟨rfl, hcd, hab⟩

namespace Restyled

variable {prev : Option Char} {a b : List Char}

theorem nil : Restyled prev [] [] := blank rfl rfl (fun _ => rfl) id

/-- A character that stays. -/
theorem keep {c : Char} (h : Restyled (lastVisible prev [c]) a b) :
    Restyled prev (c :: a) (c :: b) := by
  cases hc : isBlank c with
  | false =>
      simp only [lastVisible_cons, hc, lastVisible_nil] at h
      exact visible (x := []) (y := []) rfl rfl id hc rfl (fun _ => .inl rfl) h
  | true =>
      simp only [lastVisible_cons, hc, if_true, lastVisible_nil] at h
      cases h with
      | blank hx hy hnil hfeed =>
          refine blank (by simp [hc, hx]) (by simp [hc, hy]) (by simp) ?_
          simpa using Or.imp_right hfeed
      | @visible _ x y _ _ _ _ hx hy hfeed hd hletter hapart hrest =>
          refine visible (x := c :: x) (y := c :: y) (by simp [hc, hx]) (by simp [hc, hy]) ?_ hd
            hletter (by simp) hrest
          simpa using Or.imp_right hfeed

/-- A text that stays. -/
theorem keep_append (t : List Char) (h : Restyled (lastVisible prev t) a b) :
    Restyled prev (t ++ a) (t ++ b) := by
  induction t generalizing prev with
  | nil => exact h
  | cons c t ih => exact keep (ih h)

theorem refl (prev : Option Char) (a : List Char) : Restyled prev a a := by
  have h : Restyled prev (a ++ []) (a ++ []) := keep_append a nil
  rwa [List.append_nil] at h

/-- Texts that end with a visible character can be restyled one after the other. -/
theorem append {w v : List Char} (hw : Restyled prev w v)
    (hlast : ∀ c, w.getLast? = some c → isBlank c = false)
    (h : Restyled (lastVisible prev w) a b) : Restyled prev (w ++ a) (v ++ b) := by
  induction hw with
  | @blank prev x y hx hy hnil hfeed =>
      have hxnil : x = [] := by
        by_contra hne
        have hmem := List.getLast_mem hne
        have := hlast _ (List.getLast?_eq_some_getLast hne)
        rw [allBlank_iff.mp hx _ hmem] at this
        cases this
      rw [hxnil] at h ⊢
      rw [hnil hxnil]
      exact h
  | @visible prev x y c d w v hx hy hfeed hc hletter hapart hrest ih =>
      rw [List.append_assoc, List.append_assoc]
      refine visible hx hy hfeed hc hletter hapart (ih ?_ ?_)
      · intro e he
        refine hlast e ?_
        cases w with
        | nil => simp at he
        | cons f w => rw [List.getLast?_append, List.getLast?_cons_cons, he]; rfl
      · rw [lastVisible_append, lastVisible_of_allBlank hx, lastVisible_cons, hc] at h
        exact h

/-- Blanks in front of a visible character change. -/
theorem front {x y : List Char} {c : Char} (h : Restyled prev (c :: a) b)
    (hc : isBlank c = false) (hx : allBlank x = true) (hy : allBlank y = true)
    (hfeed : '\n' ∈ y → '\n' ∈ x) (hapart : y = [] → x = [] ∨ prev ≠ some '%' ∨ c ≠ '>') :
    Restyled prev (x ++ c :: a) (y ++ b) := by
  generalize hca : c :: a = ca at h
  cases h with
  | blank hblank =>
      rw [← hca, allBlank_cons, hc] at hblank
      cases hblank
  | @visible _ x' y' c' d a' b' hx' hy' hfeed' hc' hletter _ hrest =>
      obtain ⟨rfl, rfl, rfl⟩ := eq_of_append_visible (x := []) rfl hx' hc hc' hca
      rw [List.nil_append, ← List.append_assoc]
      refine visible (y := y ++ y') hx ?_ ?_ hc hletter ?_ hrest
      · rw [allBlank_append, hy, hy']
        rfl
      · intro hm
        rcases List.mem_append.mp hm with hm | hm
        · exact hfeed hm
        · exact absurd (hfeed' hm) (by simp)
      · intro hnil
        exact hapart (List.append_eq_nil_iff.mp hnil).1

theorem isCaseless_percent : isCaseless '%' = true := by decide

theorem isCaseless_greater : isCaseless '>' = true := by decide

/-- Restyling twice is restyling. -/
theorem trans {before : Option Char} {c : List Char} (h : Restyled prev a b)
    (h' : Restyled before b c) (hprev : before = some '%' ↔ prev = some '%') :
    Restyled prev a c := by
  induction h generalizing before c with
  | @blank prev x y hx hy hnil hfeed =>
      cases h' with
      | blank _ hz hnil' hfeed' =>
          exact blank hx hz (fun hxnil => hnil' (hnil hxnil)) (fun hm => hfeed (hfeed' hm))
      | visible _ _ _ hc =>
          rw [allBlank_append, allBlank_cons, hc] at hy
          simp at hy
  | @visible prev x y e d a b hx hy hfeed he hletter hapart _ ih =>
      have hd := (isBlank_eq_of_lowercase_eq hletter).symm.trans he
      generalize hdb : y ++ d :: b = db at h'
      cases h' with
      | blank hblank =>
          rw [← hdb, allBlank_append, allBlank_cons, hd] at hblank
          simp at hblank
      | @visible _ y' z d' f b' c hy' hz hfeed' hd' hletter' hapart' hrest =>
          obtain ⟨rfl, rfl, rfl⟩ := eq_of_append_visible hy hy' hd hd' hdb
          refine visible hx hz (fun hm => hfeed (hfeed' hm)) he (hletter.trans hletter') ?_
            (ih hrest ?_)
          · intro hnil
            rcases hapart' hnil with hynil | hne | hne
            · exact hapart hynil
            · exact .inr (.inl fun hp => hne (hprev.mpr hp))
            · refine .inr (.inr ?_)
              rintro rfl
              exact hne (eq_of_lowercase_eq isCaseless_greater hletter.symm)
          · simp only [Option.some.injEq]
            constructor
            · rintro rfl
              exact eq_of_lowercase_eq isCaseless_percent hletter
            · rintro rfl
              exact eq_of_lowercase_eq isCaseless_percent hletter.symm

/-! ## What restyling keeps -/

theorem visible_eq (h : Restyled prev a b) : Text.visible b = Text.visible a := by
  induction h with
  | blank hx hy => rw [visible_of_allBlank hx, visible_of_allBlank hy]
  | visible hx hy hfeed hc hletter hapart hrest ih =>
      have hd := (isBlank_eq_of_lowercase_eq hletter).symm.trans hc
      rw [visible_append, visible_append, visible_of_allBlank hx, visible_of_allBlank hy,
        visible_cons_of_not hc, visible_cons_of_not hd, hletter, ih]

theorem feed_mem (h : Restyled prev a b) (hb : '\n' ∈ b) : '\n' ∈ a := by
  induction h with
  | blank hx hy hnil hfeed => exact hfeed hb
  | @visible prev x y c d a b hx hy hfeed hc hletter hapart hrest ih =>
      have hd := (isBlank_eq_of_lowercase_eq hletter).symm.trans hc
      rw [List.mem_append, List.mem_cons] at hb ⊢
      rcases hb with hb | rfl | hb
      · exact .inl (hfeed hb)
      · exact absurd hd (by decide)
      · exact .inr (.inr (ih hb))

/-- The characters before the two texts may differ, but only the second one may be no `%`. -/
theorem hasClosing_toList_append (h : Restyled prev a b) (before : Option Char)
    (hbefore : before = some '%' → prev = some '%')
    (ha : Region.hasClosing (prev.toList ++ a) = false) :
    Region.hasClosing (before.toList ++ b) = false := by
  induction h generalizing before with
  | @blank prev x y hx hy hnil hfeed =>
      cases before with
      | none => exact Region.hasClosing_of_allBlank hy
      | some p =>
          have hhead : ∀ c, y.head? = some c → isBlank c = true := by
            intro c hc
            exact allBlank_iff.mp hy c (List.mem_of_mem_head? hc)
          have hno : (y.head? == some '>') = false := by
            rw [beq_eq_false_iff_ne]
            intro he
            exact absurd (hhead _ he) (by decide)
          show Region.hasClosing (p :: y) = false
          rw [Region.hasClosing_cons, hno, Region.hasClosing_of_allBlank hy]
          simp
  | @visible prev x y c d a b hx hy hfeed hc hletter hapart hrest ih =>
      have hca : Region.hasClosing (c :: a) = false := by
        cases prev with
        | none => rwa [Option.toList_none, List.nil_append,
            Region.hasClosing_append_of_allBlank hx] at ha
        | some p =>
            rw [Option.toList_some, List.singleton_append, Region.hasClosing_cons,
              Bool.or_eq_false_iff, Region.hasClosing_append_of_allBlank hx] at ha
            exact ha.2
      have hdb : Region.hasClosing (d :: b) = false := by
        refine ih (some d) ?_ hca
        intro hd
        rw [Option.some.inj hd] at hletter
        rw [eq_of_lowercase_eq isCaseless_percent hletter]
      cases before with
      | none => rwa [Option.toList_none, List.nil_append, Region.hasClosing_append_of_allBlank hy]
      | some p =>
          rw [Option.toList_some, List.singleton_append, Region.hasClosing_cons,
            Region.hasClosing_append_of_allBlank hy, hdb, Bool.or_false, Bool.and_eq_false_iff]
          by_contra hboth
          simp only [not_or, Bool.not_eq_false, beq_iff_eq] at hboth
          obtain ⟨rfl, hhead⟩ := hboth
          cases y with
          | cons e y =>
              obtain rfl : e = '>' := by simpa using hhead
              exact absurd hy (by simp [isBlank])
          | nil =>
              obtain rfl : d = '>' := by simpa using hhead
              obtain rfl := eq_of_lowercase_eq isCaseless_greater hletter
              rcases hapart rfl with rfl | hprev | hne
              · rw [hbefore rfl] at ha
                exact absurd ha (by simp [Region.hasClosing])
              · exact hprev (hbefore rfl)
              · exact hne rfl

/-- Restyling makes no closing marker. -/
theorem hasClosing_eq_false (h : Restyled none a b) (ha : Region.hasClosing a = false) :
    Region.hasClosing b = false :=
  hasClosing_toList_append h none id ha

end Restyled

end ClassicAsp
