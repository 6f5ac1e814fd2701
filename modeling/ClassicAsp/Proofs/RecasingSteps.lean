import ClassicAsp.Proofs.CaseRewriting

/-! # One step of recasing

Recasing copies a character where nothing is found and writes the spelling of what is found. What
is found depends on the table and on the text before and after a place, and every phrase of the
table that fits is tried. -/

namespace ClassicAsp

open Text

/-! ## Phrases of the table are tried -/

theorem CaseTable.Compiled.exists_phrases {table : CaseTable} (hcompiled : table.Compiled)
    {e : List Char × List Char} (he : e ∈ table.spellings)
    (hsearch : CaseTable.isSearchable e.1 = true) {c : Char} (hc : e.1.head? = some c) :
    ∃ found, table.phrases.get? (foldCase c) = some found ∧ e.1 ∈ found := by
  obtain ⟨schema, origin, fallback, rfl⟩ := hcompiled
  refine PhraseIndex.exists_get? ?_ hc
  rw [CaseTable.searchOrder, List.mem_mergeSort, List.mem_filter]
  exact ⟨List.mem_map_of_mem he, hsearch⟩

namespace Recasing

theorem isSome_findPhrase? {α : Type} {index : PhraseIndex} {phrases : List (List Char)}
    {p cs : List Char} {c : Char} {found : List Char → Option α} (hcs : cs.head? = some c)
    (hget : index.get? (foldCase c) = some phrases) (hp : p ∈ phrases)
    (hfound : (found p).isSome = true) : (findPhrase? index cs found).isSome = true := by
  rw [findPhrase?, hcs, Option.bind_some, hget, Option.getD_some, List.findSome?_isSome_iff]
  exact ⟨p, hp, hfound⟩

/-! ## Steps -/

variable {table : CaseTable} {before cs : List Char} {c : Char}

theorem keywordsAfter_eq (table : CaseTable) (skip : Nat) (before out cs : List Char) :
    keywordsAfter table skip before out cs =
      out.reverse ++
        keywordsAfter table 0 ((cs.take skip).reverse ++ before) [] (cs.drop skip) := by
  induction cs generalizing skip before out with
  | nil => simp [keywordsAfter]
  | cons c cs ih =>
      cases skip with
      | succ skip =>
          rw [keywordsAfter, ih]
          simp
      | zero =>
          rw [List.drop_zero, List.take_zero, keywordsAfter, List.reverse_nil, List.nil_append,
            keywordsAfter]
          split
          · next n hn =>
              rw [ih, ih n (c :: before)]
              simp
          · rw [ih 0 (c :: before) (c :: out), ih 0 (c :: before) [c]]
            simp

theorem keywordsAfter_of_none (h : keywordLength? table.phrases before (c :: cs) = none) :
    keywordsAfter table 0 before [] (c :: cs) = c :: keywordsAfter table 0 (c :: before) [] cs := by
  rw [keywordsAfter, h, keywordsAfter_eq]
  simp

theorem keywordsAfter_of_some {n : Nat} (hn : 0 < n)
    (h : keywordLength? table.phrases before (c :: cs) = some n) :
    keywordsAfter table 0 before [] (c :: cs) =
      keywordSpelling table before ((c :: cs).take n) ++
        keywordsAfter table 0 (((c :: cs).take n).reverse ++ before) [] ((c :: cs).drop n) := by
  obtain ⟨k, rfl⟩ := Nat.exists_eq_succ_of_ne_zero hn.ne'
  rw [keywordsAfter, h]
  exact (keywordsAfter_eq table k (c :: before) _ cs).trans (by simp)

theorem membersAfter_eq (table : CaseTable) (skip : Nat) (before out cs : List Char) :
    membersAfter table skip before out cs =
      out.reverse ++ membersAfter table 0 ((cs.take skip).reverse ++ before) [] (cs.drop skip) := by
  induction cs generalizing skip before out with
  | nil => simp [membersAfter]
  | cons c cs ih =>
      cases skip with
      | succ skip =>
          rw [membersAfter, ih]
          simp
      | zero =>
          rw [List.drop_zero, List.take_zero, membersAfter, List.reverse_nil, List.nil_append,
            membersAfter]
          split
          · next r hr =>
              rw [ih, ih (r.length - 1) (c :: before)]
              simp
          · rw [ih 0 (c :: before) (c :: out), ih 0 (c :: before) [c]]
            simp

theorem membersAfter_of_none (h : memberRef? table.objects before (c :: cs) = none) :
    membersAfter table 0 before [] (c :: cs) = c :: membersAfter table 0 (c :: before) [] cs := by
  rw [membersAfter, h, membersAfter_eq]
  simp

theorem membersAfter_of_some {r : MemberRef} (hr : 0 < r.length)
    (h : memberRef? table.objects before (c :: cs) = some r) :
    membersAfter table 0 before [] (c :: cs) =
      memberSpelling table r ++
        membersAfter table 0 (((c :: cs).take r.length).reverse ++ before) []
          ((c :: cs).drop r.length) := by
  obtain ⟨k, hk⟩ := Nat.exists_eq_succ_of_ne_zero hr.ne'
  rw [membersAfter, h]
  exact (membersAfter_eq table (r.length - 1) (c :: before) _ cs).trans (by simp [hk])

end Recasing

end ClassicAsp
