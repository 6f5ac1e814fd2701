import ClassicAsp.Proofs.BlankEnds
import ClassicAsp.Proofs.Writing

/-! # Lines side by side

Two lists of lines are aligned if the second has a line for each line of the first, in order, and
a gap above those that are marked. A gap at the end of the first list may have none. -/

namespace ClassicAsp

open Text

variable {α α' β β' : Type}

/-- The entries of two lists side by side: `R` relates entries, `G` says which gaps stand above an
entry that is marked, and `D` which last entry may be dropped. -/
inductive Aligned (R G : α → β → Prop) (D : α → Prop) :
    List α → List Bool → List β → Prop where
  | nil : Aligned R G D [] [] []
  | dropped {a} (hgap : D a) : Aligned R G D [a] [false] []
  | line {a b as marked bs} (hline : R a b) :
      Aligned R G D as marked bs → Aligned R G D (a :: as) (false :: marked) (b :: bs)
  | insert {a gap b as marked bs} (hgap : G a gap) (hline : R a b) :
      Aligned R G D as marked bs → Aligned R G D (a :: as) (true :: marked) (gap :: b :: bs)

namespace Aligned

variable {R R' G G' : α → β → Prop} {D D' : α → Prop} {as : List α} {marked : List Bool}
  {bs : List β}

/-- Weaker relations for the entries of the lists. -/
theorem imp (h : Aligned R G D as marked bs)
    (hline : ∀ a ∈ as, ∀ b ∈ bs, R a b → R' a b)
    (hgap : ∀ a ∈ as, ∀ b ∈ bs, G a b → G' a b) (hdrop : ∀ a ∈ as, D a → D' a) :
    Aligned R' G' D' as marked bs := by
  induction h with
  | nil => exact .nil
  | dropped hd => exact .dropped (hdrop _ (by simp) hd)
  | line hr _ ih =>
      refine .line (hline _ (by simp) _ (by simp) hr) (ih ?_ ?_ ?_)
      · exact fun a ha b hb => hline a (by simp [ha]) b (by simp [hb])
      · exact fun a ha b hb => hgap a (by simp [ha]) b (by simp [hb])
      · exact fun a ha => hdrop a (by simp [ha])
  | insert hg hr _ ih =>
      refine .insert (hgap _ (by simp) _ (by simp) hg) (hline _ (by simp) _ (by simp) hr)
        (ih ?_ ?_ ?_)
      · exact fun a ha b hb => hline a (by simp [ha]) b (by simp [hb])
      · exact fun a ha b hb => hgap a (by simp [ha]) b (by simp [hb])
      · exact fun a ha => hdrop a (by simp [ha])

/-- Two alignments of the same lists. -/
theorem both (h : Aligned R G D as marked bs) (h' : Aligned R' G' D' as marked bs) :
    Aligned (fun a b => R a b ∧ R' a b) (fun a b => G a b ∧ G' a b) (fun a => D a ∧ D' a)
      as marked bs := by
  induction h with
  | nil => exact .nil
  | dropped hd =>
      cases h' with
      | dropped hd' => exact .dropped ⟨hd, hd'⟩
  | line hr _ ih =>
      cases h' with
      | line hr' hrest' => exact .line ⟨hr, hr'⟩ (ih hrest')
  | insert hg hr _ ih =>
      cases h' with
      | insert hg' hr' hrest' => exact .insert ⟨hg, hg'⟩ ⟨hr, hr'⟩ (ih hrest')

theorem map_left (f : α → α') {R G : α' → β → Prop} {D : α' → Prop}
    (h : Aligned (fun a b => R (f a) b) (fun a b => G (f a) b) (fun a => D (f a)) as marked bs) :
    Aligned R G D (as.map f) marked bs := by
  induction h with
  | nil => exact .nil
  | dropped hd => exact .dropped hd
  | line hr _ ih => exact .line hr ih
  | insert hg hr _ ih => exact .insert hg hr ih

theorem of_map_right (g : β → β') {R G : α → β' → Prop} {D : α → Prop}
    (h : Aligned R G D as marked (bs.map g)) :
    Aligned (fun a b => R a (g b)) (fun a b => G a (g b)) D as marked bs := by
  generalize hbs : bs.map g = bs' at h
  induction h generalizing bs with
  | nil =>
      rw [List.map_eq_nil_iff] at hbs
      exact hbs ▸ .nil
  | dropped hd =>
      rw [List.map_eq_nil_iff] at hbs
      exact hbs ▸ .dropped hd
  | line hr _ ih =>
      obtain ⟨b, bs, rfl, rfl, hrest⟩ := List.map_eq_cons_iff.mp hbs
      exact .line hr (ih hrest)
  | insert hg hr _ ih =>
      obtain ⟨gap, bs, rfl, rfl, hbs'⟩ := List.map_eq_cons_iff.mp hbs
      obtain ⟨b, bs, rfl, rfl, hrest⟩ := List.map_eq_cons_iff.mp hbs'
      exact .insert hg hr (ih hrest)

/-- A list beside its image, without gaps. -/
theorem of_map {f : α → β} (h : ∀ a ∈ as, R a (f a)) :
    Aligned R G D as (as.map fun _ => false) (as.map f) := by
  induction as with
  | nil => exact .nil
  | cons a as ih => exact .line (h a (by simp)) (ih fun b hb => h b (by simp [hb]))

/-- Every entry of the second list is a gap or stands for an entry of the first. -/
theorem exists_of_mem (h : Aligned R G D as marked bs) {b : β} (hb : b ∈ bs) :
    ∃ a ∈ as, R a b ∨ G a b := by
  induction h with
  | nil => cases hb
  | dropped => cases hb
  | line hr _ ih =>
      rcases List.mem_cons.mp hb with rfl | hb
      · exact ⟨_, by simp, .inl hr⟩
      · obtain ⟨a, ha, hab⟩ := ih hb
        exact ⟨a, by simp [ha], hab⟩
  | insert hg hr _ ih =>
      rcases List.mem_cons.mp hb with rfl | hb
      · exact ⟨_, by simp, .inr hg⟩
      · rcases List.mem_cons.mp hb with rfl | hb
        · exact ⟨_, by simp, .inl hr⟩
        · obtain ⟨a, ha, hab⟩ := ih hb
          exact ⟨a, by simp [ha], hab⟩

/-- The second list is shorter only if the last entry of the first is dropped. -/
theorem length_le (h : Aligned R G D as marked bs) :
    as.length ≤ bs.length ∨ ∃ a, as.getLast? = some a ∧ D a := by
  induction h with
  | nil => exact .inl (Nat.le_refl 0)
  | dropped hd => exact .inr ⟨_, rfl, hd⟩
  | @line a b as marked bs _ _ ih =>
      rcases ih with hle | ⟨last, hlast, hd⟩
      · exact .inl (by simpa using hle)
      · exact .inr ⟨last, by rw [List.getLast?_cons, hlast]; rfl, hd⟩
  | @insert a gap b as marked bs _ _ _ ih =>
      rcases ih with hle | ⟨last, hlast, hd⟩
      · exact .inl (by simp only [List.length_cons]; omega)
      · exact .inr ⟨last, by rw [List.getLast?_cons, hlast]; rfl, hd⟩

theorem length_le_of_unmarked (h : Aligned R G D as marked bs)
    (hmarked : ∀ m ∈ marked, m = false) : bs.length ≤ as.length := by
  induction h with
  | nil => exact Nat.le_refl 0
  | dropped => exact Nat.zero_le _
  | line _ _ ih => exact Nat.succ_le_succ (ih fun m hm => hmarked m (by simp [hm]))
  | insert => exact absurd (hmarked true (by simp)) (by decide)

/-- Without marks and with equal values nothing is put in or dropped. -/
theorem with_values {γ : Type} {f : α → γ} {g : β → γ} (h : Aligned R G D as marked bs)
    (hmarked : ∀ m ∈ marked, m = false) (hvalues : as.map f = bs.map g) :
    Aligned (fun a b => R a b ∧ g b = f a) G' D as marked bs := by
  induction h with
  | nil => exact .nil
  | dropped => cases hvalues
  | line hr _ ih =>
      obtain ⟨hone, hrest⟩ := List.cons.inj hvalues
      exact .line ⟨hr, hone.symm⟩ (ih (fun m hm => hmarked m (by simp [hm])) hrest)
  | insert => exact absurd (hmarked true (by simp)) (by decide)

end Aligned

/-! ## Lines of the same kind -/

namespace OwnedLine

variable {l : OwnedLine}

theorem isCode_of_frozen (h : l.frozen = true) : l.isCode = false := by
  rw [isCode, isBody]
  split <;> simp [h]

theorem isCode_of_isMarker (h : l.isMarker = true) : l.isCode = false := by
  rw [isMarker] at h
  split at h
  · next howner => simp [isCode, isBody, howner]
  · cases h

end OwnedLine

/-- Lines with the same owner. Both are blank or neither is, and so for bare openings. -/
structure OwnedLine.SameKind (l l' : OwnedLine) : Prop where
  owner_eq : l'.owner = l.owner
  frozen_eq : l'.frozen = l.frozen
  isBlank_eq : l'.isBlank = l.isBlank
  isBareOpening_eq : l'.isBareOpening = l.isBareOpening

/-- Lines with the same owner and the same text between the blanks around it. -/
structure OwnedLine.Alike (l l' : OwnedLine) : Prop where
  owner_eq : l'.owner = l.owner
  frozen_eq : l'.frozen = l.frozen
  trimmed_eq : l'.trimmed = l.trimmed

/-- A blank line between markers. -/
structure OwnedLine.IsGap (l : OwnedLine) : Prop where
  isBody : l.isBody = true
  isBlank : l.isBlank = true

namespace OwnedLine.SameKind

variable {l l' l'' : OwnedLine}

theorem refl (l : OwnedLine) : SameKind l l := ⟨rfl, rfl, rfl, rfl⟩

theorem trans (h : SameKind l l') (h' : SameKind l' l'') : SameKind l l'' where
  owner_eq := h'.owner_eq.trans h.owner_eq
  frozen_eq := h'.frozen_eq.trans h.frozen_eq
  isBlank_eq := h'.isBlank_eq.trans h.isBlank_eq
  isBareOpening_eq := h'.isBareOpening_eq.trans h.isBareOpening_eq

theorem isScript_eq (h : SameKind l l') : l'.isScript = l.isScript := by
  rw [isScript, isScript, h.owner_eq]

theorem isMarker_eq (h : SameKind l l') : l'.isMarker = l.isMarker := by
  rw [isMarker, isMarker, h.owner_eq]

theorem isComment_eq (h : SameKind l l') : l'.isComment = l.isComment := by
  rw [isComment, isComment, h.owner_eq]

theorem fragments_eq (h : SameKind l l') : l'.fragments = l.fragments := by
  rw [fragments, fragments, h.owner_eq]

theorem isBody_eq (h : SameKind l l') : l'.isBody = l.isBody := by
  rw [isBody, isBody, h.owner_eq, h.frozen_eq]

theorem isCode_eq (h : SameKind l l') : l'.isCode = l.isCode := by
  rw [isCode, isCode, h.isBody_eq, h.isComment_eq, h.isBlank_eq]

theorem isSettledBelow_eq (h : SameKind l l') :
    BlankLine.isSettledBelow l' = BlankLine.isSettledBelow l := by
  rw [BlankLine.isSettledBelow, BlankLine.isSettledBelow, h.isBlank_eq, h.isComment_eq,
    h.isMarker_eq, h.frozen_eq]

theorem isGap (h : SameKind l l') (hgap : l.IsGap) : l'.IsGap :=
  ⟨h.isBody_eq.trans hgap.isBody, h.isBlank_eq.trans hgap.isBlank⟩

end OwnedLine.SameKind

namespace OwnedLine.Alike

variable {l l' : OwnedLine}

theorem sameKind (h : Alike l l') : SameKind l l' where
  owner_eq := h.owner_eq
  frozen_eq := h.frozen_eq
  isBlank_eq := by
    rw [Bool.eq_iff_iff, Line.isBlank, Line.isBlank, ← trim_eq_nil_iff, ← trim_eq_nil_iff]
    exact iff_of_eq (congrArg (· = []) h.trimmed_eq)
  isBareOpening_eq := by
    rw [isBareOpening, isBareOpening, isMarker, isMarker, h.owner_eq, h.trimmed_eq]

theorem classificationCode_eq (h : Alike l l') :
    classificationCode l'.content = classificationCode l.content := by
  rw [← classificationCode_trim l'.content, ← classificationCode_trim l.content]
  exact congrArg classificationCode h.trimmed_eq

end OwnedLine.Alike

namespace OwnedLine.IsGap

variable {l : OwnedLine}

theorem isCode_eq (h : IsGap l) : l.isCode = false := by
  rw [isCode, h.isBlank, Bool.not_true, Bool.and_false]

theorem isMarker_eq (h : IsGap l) : l.isMarker = false := by
  have := h.isBody
  rw [OwnedLine.isBody] at this
  rw [isMarker]
  split at this
  · next howner => rw [howner]
  · cases this

theorem frozen_eq (h : IsGap l) : l.frozen = false := by
  have := h.isBody
  rw [OwnedLine.isBody] at this
  split at this
  · simpa using this
  · cases this

theorem isSettledBelow_eq (h : IsGap l) : BlankLine.isSettledBelow l = true := by
  rw [BlankLine.isSettledBelow, h.isBlank, Bool.true_or, Bool.true_or, Bool.true_or]

end OwnedLine.IsGap

end ClassicAsp
