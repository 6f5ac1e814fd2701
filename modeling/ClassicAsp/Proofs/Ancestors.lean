import ClassicAsp.Path
import ClassicAsp.Proofs.Lines
import Mathlib.Data.List.Basic
import Mathlib.Logic.Relation

/-! # Directories above a path

Two texts are one path if they have the same parts. Going up drops the last part, and a name below
a path adds one. So the directories above a path are enclosed in one another, and no two of them
are one path. -/

namespace ClassicAsp

namespace Text

theorem splitAt_eq_splitOnP (sep : Char → Bool) (cs : List Char) :
    splitAt sep cs = cs.splitOnP sep := by
  induction cs with
  | nil => simp
  | cons c cs ih =>
      rw [List.splitOnP_cons_eq_if_modifyHead, ← ih]
      cases hc : sep c with
      | true => simp [splitAt_cons_sep hc]
      | false => simp [splitAt_cons_of_not hc]

theorem not_sep_of_mem_splitAt {sep : Char → Bool} {cs piece : List Char}
    (h : piece ∈ splitAt sep cs) : ∀ c ∈ piece, sep c = false := by
  induction cs generalizing piece with
  | nil =>
      rw [splitAt_nil, List.mem_singleton] at h
      simp [h]
  | cons c cs ih =>
      cases hc : sep c with
      | true =>
          rw [splitAt_cons_sep hc, List.mem_cons] at h
          rcases h with rfl | h
          · simp
          · exact ih h
      | false =>
          obtain ⟨first, rest, hs⟩ := List.exists_cons_of_ne_nil (splitAt_ne_nil sep cs)
          rw [splitAt_cons_of_not hc, hs, List.modifyHead_cons, List.mem_cons] at h
          rcases h with rfl | h
          · intro d hd
            rcases List.mem_cons.mp hd with rfl | hd
            · exact hc
            · exact ih (hs ▸ List.mem_cons_self) d hd
          · exact ih (hs ▸ List.mem_cons_of_mem _ h)

end Text

namespace Path

variable {path above base name first piece : String} {rest : List String}

/-! ## The pieces between slashes -/

theorem pieces_eq_splitOn (path : String) :
    pieces path = (path.toList.splitOn '/').map String.ofList := by
  rw [pieces, Text.splitAt_eq_splitOnP, List.splitOn_eq_splitOnP]

theorem exists_pieces (path : String) : ∃ first rest, pieces path = first :: rest := by
  refine List.exists_cons_of_ne_nil ?_
  rw [pieces, Ne, List.map_eq_nil_iff]
  exact Text.splitAt_ne_nil _ _

theorem slash_not_mem_of_mem_pieces (h : piece ∈ pieces path) : '/' ∉ piece.toList := by
  obtain ⟨cs, hcs, rfl⟩ := List.mem_map.mp h
  intro hslash
  rw [String.toList_ofList] at hslash
  simpa using Text.not_sep_of_mem_splitAt hcs _ hslash

theorem intercalate_pieces (path : String) : "/".intercalate (pieces path) = path := by
  refine String.toList_injective ?_
  rw [String.toList_intercalate, pieces_eq_splitOn, List.map_map]
  have hid : (String.toList ∘ String.ofList) = id := funext fun cs => String.toList_ofList
  rw [hid, List.map_id]
  exact List.intercalate_splitOn '/'

theorem pieces_intercalate {pieces' : List String} (hne : pieces' ≠ [])
    (h : ∀ piece ∈ pieces', '/' ∉ piece.toList) :
    pieces ("/".intercalate pieces') = pieces' := by
  have hsplit : List.splitOn '/' (['/'].intercalate (pieces'.map String.toList)) =
      pieces'.map String.toList := by
    refine List.splitOn_intercalate _ ?_ (by simpa using hne)
    intro cs hcs
    obtain ⟨piece, hpiece, rfl⟩ := List.mem_map.mp hcs
    exact h piece hpiece
  have hid : (String.ofList ∘ String.toList) = id := funext fun s => String.ofList_toList
  rw [pieces_eq_splitOn, String.toList_intercalate]
  change List.map String.ofList (List.splitOn '/' (['/'].intercalate _)) = _
  rw [hsplit, List.map_map, hid, List.map_id]

theorem pieces_append_slash (base name : String) :
    pieces (base ++ "/" ++ name) = pieces base ++ pieces name := by
  have hsplit : (base ++ "/" ++ name).toList.splitOn '/' =
      base.toList.splitOn '/' ++ name.toList.splitOn '/' := by
    rw [String.toList_append, String.toList_append, List.append_assoc]
    exact List.splitOn_append_cons_self ..
  rw [pieces_eq_splitOn, hsplit, List.map_append, ← pieces_eq_splitOn, ← pieces_eq_splitOn]

theorem isAbsolute_eq (h : pieces path = first :: rest) :
    isAbsolute path = (first == "" && !rest.isEmpty) := by
  have hmem : first ∈ pieces path := by
    rw [h]
    exact List.mem_cons_self
  have hhead : first.toList.head? ≠ some '/' := fun hslash =>
    slash_not_mem_of_mem_pieces hmem (List.mem_of_mem_head? hslash)
  rw [isAbsolute, ← intercalate_pieces path, h, String.toList_intercalate, List.map_cons]
  cases rest with
  | nil => simpa using hhead
  | cons next rest =>
      rw [List.map_cons, List.intercalate_cons_cons]
      cases hcs : first.toList with
      | nil => simp [String.toList_eq_nil_iff.mp hcs]
      | cons c cs =>
          have hne : first ≠ "" := fun he => by simp [he] at hcs
          simpa [hne, hcs] using hhead

/-! ## The parts that count -/

/-- The part that the first piece stands for, before other pieces. -/
def top (first : String) (rest : List String) : List String :=
  if first = "" then (if rest = [] then [] else ["/"]) else [first]

theorem top_of_ne_nil {rest' : List String} (h : rest ≠ []) (h' : rest' ≠ []) :
    top first rest = top first rest' := by
  simp [top, h, h']

theorem top_of_ne_empty {rest' : List String} (h : first ≠ "") :
    top first rest = top first rest' := by
  simp [top, h]

theorem parts_of_pieces (h : pieces path = first :: rest) :
    parts path = top first rest ++ rest.filter (!isFiller ·) := by
  rw [parts, h, isAbsolute_eq h, top]
  by_cases hfirst : first = ""
  · cases rest with
    | nil => simp [hfirst]
    | cons next rest => simp [hfirst]
  · simp [hfirst]

/-! ## The path without its last part -/

theorem dropFillers_append_singleton (reversed : List String) (first : String) :
    dropFillers (reversed ++ [first]) = reversed.dropWhile isFiller ++ [first] := by
  induction reversed with
  | nil => rfl
  | cons piece reversed ih =>
      obtain ⟨next, others, hnext⟩ :=
        List.exists_cons_of_ne_nil (List.append_ne_nil_of_right_ne_nil reversed
          (List.cons_ne_nil first []))
      rw [List.cons_append, hnext, dropFillers, ← hnext, ih, List.dropWhile_cons]
      cases isFiller piece with
      | true => rfl
      | false => simp [hnext]

theorem filter_dropWhile_isFiller (reversed : List String) :
    (reversed.dropWhile isFiller).filter (!isFiller ·) = reversed.filter (!isFiller ·) := by
  induction reversed with
  | nil => rfl
  | cons piece reversed ih =>
      cases h : isFiller piece with
      | true => simp [h, ih]
      | false => simp [h]

/-- The pieces before the last one that counts, without fillers at their end. If it is the first
piece that counts, there are none before it. -/
theorem dropFillers_drop_one (first : String) (rest : List String) :
    (rest.filter (!isFiller ·) = [] ∧
      dropFillers ((dropFillers (first :: rest).reverse).drop 1) = []) ∨
    ∃ front, front <+: rest ∧ rest.filter (!isFiller ·) ≠ [] ∧
      front.filter (!isFiller ·) = (rest.filter (!isFiller ·)).dropLast ∧
      dropFillers ((dropFillers (first :: rest).reverse).drop 1) = front.reverse ++ [first] := by
  have hfilter : rest.filter (!isFiller ·) =
      ((rest.reverse.dropWhile isFiller).filter (!isFiller ·)).reverse := by
    rw [filter_dropWhile_isFiller, List.filter_reverse, List.reverse_reverse]
  have hsuffix : rest.reverse.dropWhile isFiller <:+ rest.reverse := List.dropWhile_suffix _
  rw [List.reverse_cons, dropFillers_append_singleton, hfilter]
  cases hback : rest.reverse.dropWhile isFiller with
  | nil => exact .inl ⟨rfl, rfl⟩
  | cons last back =>
      have hlast : isFiller last = false := by
        have hhead := List.head?_dropWhile_not isFiller rest.reverse
        rw [hback] at hhead
        simpa using hhead
      refine .inr ⟨(back.dropWhile isFiller).reverse, ?_, ?_, ?_, ?_⟩
      · rw [← List.reverse_suffix, List.reverse_reverse]
        exact ((List.dropWhile_suffix _).trans (List.suffix_cons last back)).trans
          (hback ▸ hsuffix)
      · simp [hlast]
      · rw [List.filter_reverse, filter_dropWhile_isFiller,
          List.filter_cons_of_pos (by simp [hlast]), List.reverse_cons, List.dropLast_concat]
      · rw [List.reverse_reverse]
        exact dropFillers_append_singleton back first

/-- Pieces put together again are a path with the parts that they stand for. A root that is all
that is left needs its slash. -/
theorem parts_rebuilt {front : List String} (hslash : ∀ piece ∈ first :: front, '/' ∉ piece.toList)
    (hrest : rest ≠ []) :
    parts (if "/".intercalate (first :: front) == "" && first == "" then "/"
      else "/".intercalate (first :: front)) = top first rest ++ front.filter (!isFiller ·) := by
  have hpieces := pieces_intercalate (List.cons_ne_nil first front) hslash
  by_cases hfirst : first = ""
  · subst hfirst
    cases front with
    | nil => simp [top, hrest, parts_of_pieces (show pieces "/" = ["", ""] from rfl), isFiller]
    | cons next front =>
        rw [if_neg (by simp), parts_of_pieces hpieces,
          top_of_ne_nil (List.cons_ne_nil next front) hrest]
  · rw [if_neg (by simp [hfirst]), parts_of_pieces hpieces, top_of_ne_empty hfirst]

theorem first_ne_empty_of_not_isTop (htop : isTop path = false) (h : pieces path = first :: rest)
    (hrest : rest.filter (!isFiller ·) = []) : first ≠ "" := by
  rintro rfl
  rw [isTop, parts_of_pieces h, hrest, top, if_pos rfl] at htop
  split at htop <;> simp at htop

/-- Going up drops the last part. -/
theorem parts_parent? (h : parent? path = some above) :
    parts above = (parts path).dropLast := by
  obtain ⟨first, rest, hpieces⟩ := exists_pieces path
  cases htop : isTop path with
  | true => simp [parent?, htop] at h
  | false =>
      simp only [parent?, htop, Bool.false_eq_true, if_false, hpieces, isAbsolute_eq hpieces,
        Option.some.injEq] at h
      rw [← h, parts_of_pieces hpieces]
      rcases dropFillers_drop_one first rest with
        ⟨hrest, hkept⟩ | ⟨front, hfront, hrest, hfilter, hkept⟩
      · have hfirst := first_ne_empty_of_not_isTop htop hpieces hrest
        rw [hkept, hrest]
        simp [hfirst, top, parts_of_pieces (show pieces "" = [""] from rfl)]
      · have hne : rest ≠ [] := by
          rintro rfl
          exact hrest rfl
        have hslash : ∀ piece ∈ first :: front, '/' ∉ piece.toList := by
          intro piece hpiece
          have hmem : piece ∈ pieces path := by
            rw [hpieces]
            exact List.cons_subset_cons first hfront.subset hpiece
          exact slash_not_mem_of_mem_pieces hmem
        rw [hkept, List.reverse_append, List.reverse_reverse, List.reverse_singleton,
          List.singleton_append, List.isEmpty_eq_false_iff.mpr hne, Bool.not_false, Bool.and_true,
          parts_rebuilt hslash hne, hfilter, List.dropLast_append_of_ne_nil hrest]

theorem length_parts_parent? (h : parent? path = some above) :
    (parts above).length + 1 = (parts path).length := by
  have hne : parts path ≠ [] := by
    intro hnil
    simp [parent?, isTop, hnil] at h
  rw [parts_parent? h, List.length_dropLast,
    Nat.sub_add_cancel (List.length_pos_iff.mpr hne)]

/-! ## The directories above -/

/-- A path that going up leads to, the path itself included. -/
def Above (path dir : String) : Prop :=
  Relation.ReflTransGen (fun lower upper => parent? lower = some upper) path dir

/-- The outer path leads on to the inner one, which is another one. -/
def Encloses (outer inner : String) : Prop :=
  parts outer <+: parts inner ∧ parts outer ≠ parts inner

theorem ancestors_eq (path : String) :
    ancestors path = path :: ((parent? path).map ancestors).getD [] := by
  rw [ancestors, ancestorsWithin]
  cases h : parent? path with
  | none => rfl
  | some above => simp [ancestors, length_parts_parent? h]

/-- What holds of a path if it holds of the one above it holds of all paths. -/
theorem upward_induction {P : String → Prop}
    (step : ∀ path, (∀ above, parent? path = some above → P above) → P path) (path : String) :
    P path :=
  step path fun above _ => upward_induction step above
termination_by (parts path).length
decreasing_by
  have := length_parts_parent? ‹parent? path = some above›
  omega

theorem mem_ancestors_iff (path dir : String) : dir ∈ ancestors path ↔ Above path dir := by
  induction path using upward_induction with
  | step path ih =>
      rw [ancestors_eq, List.mem_cons, Above, Relation.ReflTransGen.cases_head_iff]
      cases h : parent? path with
      | none => simp [eq_comm]
      | some above => simp [eq_comm, ih above h, Above]

theorem prefix_of_above {dir : String} (h : Above path dir) : parts dir <+: parts path := by
  induction h with
  | refl => exact List.prefix_rfl
  | tail _ hparent ih =>
      rw [parts_parent? hparent]
      exact (List.dropLast_prefix _).trans ih

/-- The directories above a path, the outermost one first, are each enclosed in those before. -/
theorem pairwise_encloses_ancestors (path : String) :
    (ancestors path).reverse.Pairwise Encloses := by
  rw [List.pairwise_reverse]
  induction path using upward_induction with
  | step path ih =>
      rw [ancestors_eq]
      cases h : parent? path with
      | none => simp
      | some above =>
          refine List.pairwise_cons.mpr ⟨fun dir hdir => ?_, ih above h⟩
          have hleads := prefix_of_above ((mem_ancestors_iff above dir).mp hdir)
          have hlength := length_parts_parent? h
          refine ⟨hleads.trans (parts_parent? h ▸ List.dropLast_prefix _), fun he => ?_⟩
          have := hleads.length_le
          rw [he] at this
          omega

/-! ## A name below a path -/

theorem parts_append_piece (hpieces : pieces base = first :: rest) (hname : pieces name = [name]) :
    parts (base ++ "/" ++ name) =
      top first (rest ++ [name]) ++ (rest ++ [name]).filter (!isFiller ·) := by
  refine parts_of_pieces ?_
  rw [pieces_append_slash, hpieces, hname, List.cons_append]

theorem parts_append_slash (hbase : base ≠ "") (hname : pieces name = [name])
    (hcounts : isFiller name = false) : parts (base ++ "/" ++ name) = parts base ++ [name] := by
  obtain ⟨first, rest, hpieces⟩ := exists_pieces base
  have htop : top first (rest ++ [name]) = top first rest := by
    by_cases hfirst : first = ""
    · refine top_of_ne_nil (by simp) ?_
      rintro rfl
      refine hbase ?_
      rw [← intercalate_pieces base, hpieces, hfirst, String.intercalate_singleton]
    · exact top_of_ne_empty hfirst
  rw [parts_append_piece hpieces hname, parts_of_pieces hpieces, htop, List.filter_append,
    List.append_assoc]
  simp [hcounts]

/-- A slash at the end of a path does not count. -/
theorem parts_slash_append (base : String) (hname : pieces name = [name])
    (hcounts : isFiller name = false) :
    parts (base ++ "/" ++ name) = parts (base ++ "/") ++ [name] := by
  obtain ⟨first, rest, hpieces⟩ := exists_pieces base
  have hslash := parts_append_piece hpieces (show pieces "" = [""] from rfl)
  rw [String.append_empty] at hslash
  have htop : top first (rest ++ [name]) = top first (rest ++ [""]) :=
    top_of_ne_nil (by simp) (by simp)
  have hempty : isFiller "" = true := rfl
  rw [parts_append_piece hpieces hname, hslash, htop, List.filter_append, List.filter_append]
  simp [hcounts, hempty]

/-- A name below a path is a part after those of the path. -/
theorem parts_join (base : String) (hname : pieces name = [name])
    (hcounts : isFiller name = false) : parts (join base name) = parts base ++ [name] := by
  have habs : isAbsolute name = false := by simp [isAbsolute_eq hname]
  rw [join, habs, Bool.false_or]
  split
  · rename_i hbase
    have hne : name ≠ "" := by
      rintro rfl
      simp [isFiller] at hcounts
    rw [eq_of_beq hbase, parts_of_pieces hname, parts_of_pieces (show pieces "" = [""] from rfl)]
    simp [top, hne]
  · rename_i hbase
    split
    · rename_i hslash
      obtain ⟨front, hfront⟩ := List.getLast?_eq_some_iff.mp (eq_of_beq hslash)
      have heq : base = String.ofList front ++ "/" := by
        refine String.toList_injective ?_
        rw [hfront, String.toList_append, String.toList_ofList]
        rfl
      rw [heq]
      exact parts_slash_append _ hname hcounts
    · exact parts_append_slash (by simpa using hbase) hname hcounts

end Path

end ClassicAsp
