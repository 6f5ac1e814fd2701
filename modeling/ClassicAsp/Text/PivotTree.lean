/-! Search trees over numbers. Values stand at the leaves, and a number finds its leaf by
comparison with pivots. -/

namespace ClassicAsp.Text

/-- A tree whose leaves hold at most one value each. -/
inductive PivotTree (α : Type) where
  | leaf (value : Option α)
  | node (pivot : Nat) (below above : PivotTree α)

namespace PivotTree

variable {α : Type}

/-- The value at the leaf that a number leads to. -/
def find? : PivotTree α → Nat → Option α
  | leaf value, _ => value
  | node pivot below above, n => if n < pivot then below.find? n else above.find? n

/-- The values at the leaves, from left to right. -/
def values : PivotTree α → List α
  | leaf value => value.toList
  | node _ below above => below.values ++ above.values

/-- The tree of values whose keys increase, halved at most `height` times. -/
def ofSortedWithin (key : α → Nat) : Nat → List α → PivotTree α
  | 0, values => leaf values.head?
  | height + 1, values =>
    let half := values.length / 2
    match values.drop half with
    | middle :: rest =>
      if half = 0 then leaf (some middle)
      else
        node (key middle) (ofSortedWithin key height (values.take half))
          (ofSortedWithin key height (middle :: rest))
    | [] => leaf none

/-- The tree of values whose keys increase. A number leads to the last value whose key it
reaches, or to the first one. -/
def ofSorted (key : α → Nat) (values : List α) : PivotTree α :=
  ofSortedWithin key values.length values

/-- Only values at the leaves are found. -/
theorem mem_values_of_find? {t : PivotTree α} {n : Nat} {a : α} (h : t.find? n = some a) :
    a ∈ t.values := by
  induction t with
  | leaf value => simp_all [find?, values]
  | node pivot below above ihb iha =>
    simp only [find?] at h
    simp only [values, List.mem_append]
    split at h
    · exact .inl (ihb h)
    · exact .inr (iha h)

theorem values_ofSortedWithin (key : α → Nat) (height : Nat) (xs : List α)
    (h : xs.length ≤ height + 1) : (ofSortedWithin key height xs).values = xs := by
  induction height generalizing xs with
  | zero =>
    match xs, h with
    | [], _ => rfl
    | [x], _ => rfl
  | succ height ih =>
    simp only [ofSortedWithin]
    split
    · next middle rest hd =>
      split
      · next hz =>
        have hl : xs.length = (middle :: rest).length := by
          rw [← hd, List.length_drop]; omega
        have : xs = middle :: rest := by rw [← hd, hz, List.drop_zero]
        have hr : rest = [] := by
          rw [← List.length_eq_zero_iff]; simp only [List.length_cons] at hl; omega
        simp [values, this, hr]
      · next hz =>
        have hl := congrArg List.length hd
        simp only [List.length_drop] at hl
        rw [values, ih _ (by rw [List.length_take]; omega), ih _ (by omega), ← hd,
          List.take_append_drop]
    · next hd =>
      have : xs.length = 0 := by
        have := congrArg List.length hd
        simp only [List.length_drop, List.length_nil] at this
        omega
      simp [values, List.length_eq_zero_iff.1 this]

/-- A tree holds the values that it is made of, in their order. -/
@[simp]
theorem values_ofSorted (key : α → Nat) (xs : List α) : (ofSorted key xs).values = xs :=
  values_ofSortedWithin key _ xs (Nat.le_succ _)

end PivotTree

end ClassicAsp.Text
