import ClassicAsp.Proofs.MemberReferences

/-! # Members are settled after one pass

A run of the pass over references copies a character or writes a reference. What is an object
before a dot in its result was one in the text, so that the pass over the result is a run that
writes what it reads. -/

namespace ClassicAsp.Recasing

open Text CaseTable

/-! ## Runs -/

/-- A run over a text after the reversed text `before`: what it reads, and what it writes. -/
inductive MembersRun (t : CaseTable) : List Char → List Char → List Char → Prop where
  | nil (before) : MembersRun t before [] []
  | copy {before c cs out} (h : memberRef? t.objects before (c :: cs) = none) :
      MembersRun t (c :: before) cs out → MembersRun t before (c :: cs) (c :: out)
  | reference {before cs r rest out} (h : memberRef? t.objects before cs = some r)
      (hreads : Reads t cs r rest) :
      MembersRun t ((r.object ++ (r.link ++ r.member)).reverse ++ before) rest out →
      MembersRun t before cs (memberSpelling t r ++ out)

theorem Reads.eq_append {t : CaseTable} {cs rest : List Char} {r : MemberRef}
    (h : Reads t cs r rest) : cs = (r.object ++ (r.link ++ r.member)) ++ rest := by
  rw [h.text]
  simp

theorem Reads.exists_cons {t : CaseTable} {cs rest : List Char} {r : MemberRef}
    (h : Reads t cs r rest) : ∃ c cs', cs = c :: cs' ∧ rest.length ≤ cs'.length := by
  obtain ⟨c, tail, hobject, -⟩ := h.object.exists_cons
  refine ⟨c, tail ++ (r.link ++ (r.member ++ rest)), by rw [h.text, hobject]; rfl, ?_⟩
  simp only [List.length_append]
  omega

/-- A reference ends with its member. -/
theorem head?_reverse_reference {t : CaseTable} {cs rest before : List Char} {r : MemberRef}
    (h : Reads t cs r rest) :
    ((r.object ++ (r.link ++ r.member)).reverse ++ before).head? = r.member.getLast? := by
  obtain ⟨c, tail, hmember, -⟩ := h.member
  rw [← List.append_assoc, List.reverse_append, List.append_assoc, List.head?_append,
    List.head?_reverse, hmember, List.getLast?_cons]
  rfl

theorem membersAfter_of_reads {t : CaseTable} {before cs rest : List Char} {r : MemberRef}
    (h : memberRef? t.objects before cs = some r) (hreads : Reads t cs r rest) :
    membersAfter t 0 before [] cs = memberSpelling t r ++
      membersAfter t 0 ((r.object ++ (r.link ++ r.member)).reverse ++ before) [] rest := by
  have hcs := hreads.eq_append
  have hlength : r.length = (r.object ++ (r.link ++ r.member)).length := by
    simp only [MemberRef.length, List.length_append]
    omega
  obtain ⟨c, cs', rfl, hle⟩ := hreads.exists_cons
  have hpos : 0 < r.length := by
    have := congrArg List.length hcs
    rw [List.length_append, ← hlength, List.length_cons] at this
    omega
  rw [membersAfter_of_some hpos h, hcs, hlength, List.take_left, List.drop_left]

theorem MembersRun.execution {t : CaseTable} {before cs out : List Char}
    (h : MembersRun t before cs out) : membersAfter t 0 before [] cs = out := by
  induction h with
  | nil => rfl
  | copy h _ ih => rw [membersAfter_of_none h, ih]
  | reference h hreads _ ih => rw [membersAfter_of_reads h hreads, ih]

section

variable {t : CaseTable} (hcompiled : t.Compiled) (hwell : t.WellCased) (hapart : t.ObjectsApart)

include hcompiled hwell hapart

theorem membersRun (before cs : List Char) :
    MembersRun t before cs (membersAfter t 0 before [] cs) := by
  induction hn : cs.length using Nat.strongRecOn generalizing before cs with
  | _ n ih =>
      cases href : memberRef? t.objects before cs with
      | some r =>
          obtain ⟨-, rest, hreads⟩ := (memberRef?_eq_some_iff hcompiled hwell hapart).mp href
          rw [membersAfter_of_reads href hreads]
          obtain ⟨c, cs', rfl, hle⟩ := hreads.exists_cons
          refine .reference href hreads (ih _ ?_ _ rest rfl)
          rw [List.length_cons] at hn
          omega
      | none =>
          cases cs with
          | nil => exact .nil before
          | cons c cs =>
              rw [membersAfter_of_none href]
              refine .copy href (ih _ ?_ _ cs rfl)
              rw [← hn, List.length_cons]
              omega

end

/-! ## What a run keeps -/

theorem startsMember_of_foldCase {c d : Char} (h : foldCase c = foldCase d) :
    startsMember c = startsMember d := by
  have hcaseless : isCaseless '_' = true := by decide
  have hunderscore : ∀ e, (e == '_') = (foldCase e == '_') := by
    intro e
    rw [Bool.eq_iff_iff, beq_iff_eq, beq_iff_eq]
    constructor
    · rintro rfl
      exact foldCase_of_isCaseless hcaseless
    · exact eq_of_foldCase_eq hcaseless
  rw [startsMember, hunderscore, h, startsMember, hunderscore d]

section

variable {t : CaseTable} (hcompiled : t.Compiled) (hwell : t.WellCased)
  {before cs out : List Char}

include hwell

/-- The written object starts as the read one. -/
theorem exists_spelt_cons {r : MemberRef} (h : t.Names r.object) :
    ∃ c d tail tail', r.object = c :: tail ∧ (spelt t r).object = d :: tail' ∧
      plain d = plain c ∧ isBlank c = false ∧ isBlank d = false ∧ c ≠ '.' ∧ d ≠ '.' := by
  obtain ⟨c, tail, hcons, hdot⟩ := h.exists_cons
  have hplain := map_plain_canonical hwell h
  obtain ⟨d, tail', hcons', hdot'⟩ := (h.of_plain hplain.symm).exists_cons
  have hc : isBlank c = false := h.visible hwell c (by simp [hcons])
  rw [hcons', hcons, List.map_cons, List.map_cons, List.cons.injEq] at hplain
  refine ⟨c, d, tail, tail', hcons, hcons', hplain.1, hc, ?_, hdot, hdot'⟩
  rw [← isBlank_plain, hplain.1, isBlank_plain, hc]

theorem MembersRun.startsOn_eq (h : MembersRun t before cs out) : startsOn out = startsOn cs := by
  induction h with
  | nil => rfl
  | copy _ _ ih => rw [startsOn, ih, startsOn]
  | reference _ hreads =>
      obtain ⟨c, d, tail, tail', hc, hd, hplain, hcblank, hdblank, -⟩ :=
        exists_spelt_cons hwell hreads.object
      rw [hreads.text, memberSpelling_eq, hc, hd, List.cons_append, List.cons_append,
        List.cons_append, startsOn_of_not hdblank, startsOn_of_not hcblank, ← startsMember_plain,
        hplain, startsMember_plain]

theorem MembersRun.leadsOn_eq (h : MembersRun t before cs out) : leadsOn out = leadsOn cs := by
  induction h with
  | nil => rfl
  | copy _ hrun ih => rw [leadsOn, ih, hrun.startsOn_eq hwell, leadsOn]
  | reference _ hreads =>
      obtain ⟨c, d, tail, tail', hc, hd, -, hcblank, hdblank, hcdot, hddot⟩ :=
        exists_spelt_cons hwell hreads.object
      rw [hreads.text, memberSpelling_eq, hc, hd, List.cons_append, List.cons_append,
        List.cons_append, leadsOn_of_not hdblank, leadsOn_of_not hcblank, beq_false_of_ne hcdot,
        beq_false_of_ne hddot, Bool.false_and, Bool.false_and]

theorem MembersRun.isWordChar_head_eq (h : MembersRun t before cs out) :
    out.head?.any isWordChar = cs.head?.any isWordChar := by
  cases h with
  | nil => rfl
  | copy => rfl
  | reference _ hreads =>
      obtain ⟨c, d, tail, tail', hc, hd, hplain, -⟩ := exists_spelt_cons hwell hreads.object
      rw [hreads.text, memberSpelling_eq, hc, hd]
      simp only [List.cons_append, List.head?_cons, Option.any_some]
      rw [← isWordChar_plain, hplain, isWordChar_plain]

end

/-! ## No reference appears -/

section

variable {t : CaseTable} (hcompiled : t.Compiled) (hwell : t.WellCased) (hapart : t.ObjectsApart)
  {before cs out : List Char}

include hwell

/-- Inside the name of an object, a dot and a member follow in every case of the name. -/
theorem leadsOn_of_foldCase {front mid mid' rest rest' : List Char} (h : t.Names (front ++ mid))
    (hfold : mid'.map foldCase = mid.map foldCase) (hne : mid ≠ [])
    (hleads : leadsOn (mid ++ rest) = true) : leadsOn (mid' ++ rest') = true := by
  cases mid with
  | nil => exact absurd rfl hne
  | cons c mid =>
      obtain ⟨c', mid', rfl, hc', hmid'⟩ := List.map_eq_cons_iff.mp hfold
      have hc : isBlank c = false := h.visible hwell c (by simp)
      rw [List.cons_append, leadsOn_of_not hc, Bool.and_eq_true, beq_iff_eq] at hleads
      rw [hleads.1, foldCase_of_isCaseless isCaseless_dot] at hc'
      rw [eq_of_foldCase_eq isCaseless_dot hc', List.cons_append, leadsOn_of_not (by decide)]
      cases mid with
      | nil => exact absurd (by simp [hleads.1]) h.getLast?_ne
      | cons d mid =>
          obtain ⟨d', mid', rfl, hd', -⟩ := List.map_eq_cons_iff.mp hmid'
          have hd : isBlank d = false := h.visible hwell d (by simp)
          rw [List.cons_append, startsOn_of_not hd, ← startsMember_of_foldCase hd'] at hleads
          rw [List.cons_append, startsOn_of_not (isBlank_of_startsMember hleads.2), hleads.2]
          rfl

include hapart

/-- What stands before a dot and a member in the result of a run, and ends the name of an object,
stands in the text. -/
theorem MembersRun.exists_source (h : MembersRun t before cs out) {lead front tail : List Char}
    (hname : t.Names (lead ++ front)) (hout : out = front ++ tail) (htail : leadsOn tail = true) :
    ∃ front' tail', cs = front' ++ tail' ∧ front'.map foldCase = front.map foldCase ∧
      leadsOn tail' = true := by
  induction h generalizing lead front with
  | nil =>
      obtain ⟨rfl, rfl⟩ : front = [] ∧ tail = [] := by simpa [eq_comm] using hout
      cases htail
  | @copy before c cs out href hrun ih =>
      cases front with
      | nil =>
          refine ⟨[], c :: cs, rfl, rfl, ?_⟩
          rw [← (MembersRun.copy href hrun).leadsOn_eq hwell, hout]
          exact htail
      | cons d front =>
          obtain ⟨rfl, rfl⟩ := List.cons.inj hout
          have hname' : t.Names ((lead ++ [c]) ++ front) := by simpa using hname
          obtain ⟨front', tail', rfl, hfold, hleads⟩ := ih hname' rfl
          exact ⟨c :: front', tail', rfl, by simp [hfold], hleads⟩
  | @reference before cs r rest out _ hreads _ ih =>
      have hplain := map_plain_canonical hwell hreads.object
      have hspelt : t.Names (spelt t r).object := hreads.object.of_plain hplain.symm
      -- the name does not reach over the dot, since it would hold the object and the dot then
      obtain ⟨mid, hmid, htail'⟩ : ∃ mid, (spelt t r).object = front ++ mid ∧
          tail = mid ++ '.' :: ((spelt t r).member ++ out) := by
        rw [memberSpelling_eq, List.append_assoc, List.cons_append] at hout
        rcases List.append_eq_append_iff.mp hout with ⟨mid, rfl, hmid⟩ | ⟨mid, hmid, rfl⟩
        · cases mid with
          | nil => exact ⟨[], by simp, hmid.symm⟩
          | cons d mid =>
              obtain ⟨rfl, -⟩ := List.cons.inj hmid
              exact absurd hname (hapart.not_dot hspelt lead mid)
        · exact ⟨mid, hmid, rfl⟩
      have hfold : r.object.map foldCase = front.map foldCase ++ mid.map foldCase := by
        rw [← List.map_append, ← hmid]
        exact (map_foldCase_of_plain hplain).symm
      obtain ⟨front', mid', hobject, hfront, hmid'⟩ := List.map_eq_append_iff.mp hfold
      refine ⟨front', mid' ++ (r.link ++ (r.member ++ rest)), ?_, hfront, ?_⟩
      · rw [hreads.text, hobject, List.append_assoc]
      · cases mid with
        | nil =>
            obtain rfl : mid' = [] := by simpa using hmid'
            exact hreads.leadsOn
        | cons d mid =>
            rw [hmid] at hspelt
            rw [htail'] at htail
            exact leadsOn_of_foldCase hwell hspelt hmid' (by simp) htail

include hcompiled

/-- No reference stands in the result of a run where the run copies a character. -/
theorem MembersRun.memberRef?_copy {c : Char} (h : MembersRun t (c :: before) cs out)
    (href : memberRef? t.objects before (c :: cs) = none) {before' : List Char}
    (hbefore : before.head?.any isWordChar = before'.head?.any isWordChar) :
    memberRef? t.objects before' (c :: out) = none := by
  cases hfound : memberRef? t.objects before' (c :: out) with
  | none => rfl
  | some r =>
      obtain ⟨hboundary, rest, hreads⟩ := (memberRef?_eq_some_iff hcompiled hwell hapart).mp hfound
      obtain ⟨d, front, hobject, -⟩ := hreads.object.exists_cons
      have hout := hreads.text
      rw [hobject, List.cons_append, List.cons.injEq] at hout
      obtain ⟨rfl, hout⟩ := hout
      have hname : t.Names ([c] ++ front) := by
        rw [List.singleton_append, ← hobject]
        exact hreads.object
      obtain ⟨front', tail', rfl, hfold, hleads⟩ :=
        h.exists_source hwell hapart hname hout hreads.leadsOn
      obtain ⟨link, member, rest', hlink, hmember, hends, rfl⟩ := exists_of_leadsOn hleads
      have hname' : t.Names (c :: front') := by
        obtain ⟨o, ho, hsearch, ho'⟩ := hname
        refine ⟨o, ho, hsearch, ?_⟩
        rw [← ho', List.singleton_append, List.map_cons, List.map_cons, hfold]
      have hsource : memberRef? t.objects before (c :: (front' ++ (link ++ (member ++ rest')))) =
          some ⟨c :: front', link, member⟩ := by
        refine (memberRef?_eq_some_iff hcompiled hwell hapart).mpr
          ⟨?_, rest', hname', hlink, hmember, hends, rfl⟩
        rw [isBoundary, hbefore]
        exact hboundary
      rw [href] at hsource
      cases hsource

/-- The pass over the result of a run writes what it reads. -/
theorem MembersRun.settled (h : MembersRun t before cs out) {before' : List Char}
    (hbefore : before.head?.any isWordChar = before'.head?.any isWordChar) :
    MembersRun t before' out out := by
  induction h generalizing before' with
  | nil => exact .nil before'
  | copy href hrun ih =>
      exact .copy (hrun.memberRef?_copy hcompiled hwell hapart href hbefore) (ih rfl)
  | @reference before cs r rest out href hreads hrun ih =>
      have hmember : (spelt t r).member.map plain = r.member.map plain :=
        map_plain_canonicalMember hcompiled hwell _ _
      have hname := hreads.object.of_plain (map_plain_canonical hwell hreads.object).symm
      have hboundary := ((memberRef?_eq_some_iff hcompiled hwell hapart).mp href).1
      have hhead := (MembersRun.reference href hreads hrun).isWordChar_head_eq hwell
      have hreads' : Reads t (memberSpelling t r ++ out) (spelt t r) out := by
        refine ⟨hname, ⟨[], [], rfl, rfl, rfl⟩, hreads.member.of_plain hmember.symm, ?_, ?_⟩
        · rw [hrun.isWordChar_head_eq hwell, hreads.ends]
        · rw [memberSpelling_eq]
          simp [spelt]
      have href' : memberRef? t.objects before' (memberSpelling t r ++ out) = some (spelt t r) := by
        refine (memberRef?_eq_some_iff hcompiled hwell hapart).mpr ⟨?_, out, hreads'⟩
        rw [isBoundary, hhead, ← hbefore]
        exact hboundary
      have hspelling : memberSpelling t (spelt t r) = memberSpelling t r := by
        rw [memberSpelling_eq, spelt_spelt hcompiled hwell hreads.object, memberSpelling_eq]
      have hlast : ((r.object ++ (r.link ++ r.member)).reverse ++ before).head?.any isWordChar =
          (((spelt t r).object ++ ((spelt t r).link ++ (spelt t r).member)).reverse ++
            before').head?.any isWordChar := by
        rw [head?_reverse_reference hreads, head?_reverse_reference hreads',
          isWordChar_getLast_of_plain hmember]
      have hrun' := MembersRun.reference href' hreads' (ih hlast)
      rwa [hspelling] at hrun'

end

/-! ## Settled texts -/

section

variable {t : CaseTable} (hcompiled : t.Compiled) (hwell : t.WellCased) {before cs out : List Char}

include hcompiled hwell

theorem length_spelt {r : MemberRef} (h : t.Names r.object) :
    (spelt t r).object.length = r.object.length ∧ (spelt t r).member.length = r.member.length := by
  have hobject := congrArg List.length (map_plain_canonical hwell h)
  have hmember := congrArg List.length
    (map_plain_canonicalMember hcompiled hwell (spelt t r).object r.member)
  rw [List.length_map, List.length_map] at hobject hmember
  exact ⟨hobject, hmember⟩

theorem MembersRun.length_le (h : MembersRun t before cs out) : out.length ≤ cs.length := by
  induction h with
  | nil => exact Nat.le_refl 0
  | copy _ _ ih => exact Nat.succ_le_succ ih
  | reference _ hreads _ ih =>
      obtain ⟨x, y, -, -, hlink⟩ := hreads.link
      have hlength := length_spelt hcompiled hwell hreads.object
      rw [hreads.text, hlink, memberSpelling_eq]
      simp only [List.length_append, List.length_cons]
      omega

/-- A run that writes what it reads, one step on. -/
theorem MembersRun.cases_settled (h : MembersRun t before cs out) (hout : out = cs) :
    cs = [] ∨
    (∃ c rest, cs = c :: rest ∧ memberRef? t.objects before cs = none ∧
      MembersRun t (c :: before) rest rest) ∨
    ∃ r rest, memberRef? t.objects before cs = some r ∧ Reads t cs r rest ∧ spelt t r = r ∧
      MembersRun t ((r.object ++ (r.link ++ r.member)).reverse ++ before) rest rest := by
  cases h with
  | nil => exact .inl rfl
  | copy hnone hrun =>
      obtain rfl := (List.cons.inj hout).2
      exact .inr (.inl ⟨_, _, rfl, hnone, hrun⟩)
  | @reference before cs r rest out hsome hreads hrun =>
      obtain ⟨x, y, -, -, hlink⟩ := hreads.link
      obtain ⟨hobject, hmember⟩ := length_spelt hcompiled hwell hreads.object
      rw [memberSpelling_eq, List.append_assoc, hreads.text] at hout
      obtain ⟨hobject', htail⟩ := List.append_inj hout hobject
      -- the rest is not longer than before, so that the dot has no blanks around it
      have hlength := congrArg List.length htail
      have hle := hrun.length_le hcompiled hwell
      rw [hlink] at hlength
      simp only [List.length_append, List.length_cons] at hlength
      obtain rfl : x = [] := List.eq_nil_of_length_eq_zero (by omega)
      obtain rfl : y = [] := List.eq_nil_of_length_eq_zero (by omega)
      rw [hlink, List.nil_append, List.singleton_append, List.cons_append] at htail
      obtain ⟨hmember', rfl⟩ := List.append_inj (List.cons.inj htail).2 hmember
      have hspelt : spelt t r = r := by
        calc
          spelt t r = ⟨(spelt t r).object, ['.'], (spelt t r).member⟩ := rfl
          _ = ⟨r.object, r.link, r.member⟩ := by rw [hobject', hmember', hlink]; rfl
      exact .inr (.inr ⟨r, out, hsome, hreads, hspelt, hrun⟩)

end

end ClassicAsp.Recasing
