import ClassicAsp.Proofs.FoundPhrases

/-! # References to members

Where no name of an object with a dot behind it is part of such a name, at most one object stands
at a place of a text. One pass over the references then leaves nothing for a second one: what is
an object before a dot in its result was one in the text. -/

namespace ClassicAsp

open Text

/-! ## Names of objects -/

namespace CaseTable

/-- No name of an object that is looked for occurs in the name of an object with a dot after it. -/
def ObjectsApart (t : CaseTable) : Prop :=
  ∀ o ∈ t.members, ∀ o' ∈ t.members, isSearchable o.1 = true → ¬(o.1 ++ ['.'] <:+: o'.1)

instance (t : CaseTable) : Decidable t.ObjectsApart :=
  inferInstanceAs (Decidable (∀ o ∈ t.members, ∀ o' ∈ t.members,
    isSearchable o.1 = true → ¬(o.1 ++ ['.'] <:+: o'.1)))

/-- The name of each object is a single word. -/
def ObjectsAreWords (t : CaseTable) : Prop := ∀ o ∈ t.members, o.1.all isNameChar = true

instance (t : CaseTable) : Decidable t.ObjectsAreWords :=
  inferInstanceAs (Decidable (∀ o ∈ t.members, o.1.all isNameChar = true))

/-- A dot is part of no word. -/
theorem ObjectsAreWords.objectsApart {t : CaseTable} (h : t.ObjectsAreWords) : t.ObjectsApart := by
  intro o _ o' ho' _ hsub
  have hdot := List.all_eq_true.mp (h o' ho') '.' (hsub.subset (by simp))
  exact absurd hdot (by decide)

/-- Is the text the name of an object, up to case? -/
def Names (t : CaseTable) (name : List Char) : Prop :=
  ∃ o ∈ t.members, isSearchable o.1 = true ∧ name.map foldCase = o.1

variable {t : CaseTable} {name name' : List Char}

theorem isNameChar_foldCase_dot : isNameChar (foldCase '.') = false := by decide

theorem Names.of_plain (h : t.Names name) (heq : name.map plain = name'.map plain) :
    t.Names name' := by
  obtain ⟨o, ho, hsearch, hname⟩ := h
  exact ⟨o, ho, hsearch, by rw [← hname, map_foldCase_of_plain heq]⟩

theorem Names.visible (h : t.Names name) (hwell : t.WellCased) :
    ∀ c ∈ name, isBlank c = false := by
  obtain ⟨o, ho, -, hname⟩ := h
  intro c hc
  by_contra hblank
  rw [Bool.not_eq_false] at hblank
  have hmem : foldCase c ∈ o.1 := hname ▸ List.mem_map_of_mem hc
  rw [foldCase_of_isCaseless (isCaseless_of_isBlank hblank)] at hmem
  have := List.all_eq_true.mp (hwell.object_unspaced o ho) c hmem
  simp [hblank] at this

theorem Names.exists_cons (h : t.Names name) : ∃ c rest, name = c :: rest ∧ c ≠ '.' := by
  obtain ⟨o, -, hsearch, hname⟩ := h
  rw [isSearchable, ← hname, Bool.and_eq_true] at hsearch
  cases name with
  | nil => simp at hsearch
  | cons c rest =>
      refine ⟨c, rest, rfl, ?_⟩
      rintro rfl
      have := hsearch.1
      rw [List.map_cons, List.head?_cons, Option.any_some, isNameChar_foldCase_dot] at this
      cases this

theorem Names.getLast?_ne (h : t.Names name) : name.getLast? ≠ some '.' := by
  obtain ⟨o, -, hsearch, hname⟩ := h
  rw [isSearchable, ← hname, Bool.and_eq_true] at hsearch
  intro hlast
  have := hsearch.2
  rw [List.getLast?_map, hlast, Option.map_some, Option.any_some, isNameChar_foldCase_dot] at this
  cases this

/-- An object in the table is in lower case. -/
theorem Compiled.map_plain_object (hcompiled : t.Compiled) (hwell : t.WellCased) :
    ∀ o ∈ t.members, o.1.map plain = o.1 := by
  obtain ⟨schema, origin, fallback, rfl⟩ := hcompiled
  intro o ho
  have hascii := hwell.object_isAscii o ho
  obtain ⟨object, -, hname, -⟩ := mem_membersOf ho
  rw [hname] at hascii ⊢
  rw [lowercase_eq_map_plain hascii, List.map_map]
  exact List.map_congr_left fun c _ => plain_plain c

theorem Compiled.map_foldCase_object (hcompiled : t.Compiled) (hwell : t.WellCased) :
    ∀ o ∈ t.members, o.1.map foldCase = o.1 := by
  intro o ho
  have hplain := hcompiled.map_plain_object hwell o ho
  nth_rewrite 2 [← hplain]
  refine List.map_congr_left fun c hc => ?_
  have hascii : isAscii c = true := List.all_eq_true.mp (hwell.object_isAscii o ho) c hc
  rw [foldCase, plain, if_pos hascii, if_pos hascii]

/-- The objects that are looked for are those whose names can stand between word boundaries. -/
theorem Compiled.exists_object (hcompiled : t.Compiled) {e : Char × List (List Char)}
    (he : e ∈ t.objects) {p : List Char} (hp : p ∈ e.2) :
    ∃ o ∈ t.members, isSearchable o.1 = true ∧ p = o.1 := by
  have hsearch := hcompiled.searchable.2 e he p hp
  obtain ⟨schema, origin, fallback, rfl⟩ := hcompiled
  obtain ⟨o, ho, rfl⟩ := List.mem_map.mp
    (mem_of_mem_searchOrder (PhraseIndex.mem_of_mem_ofPhrases he hp))
  exact ⟨o, ho, hsearch, rfl⟩

theorem Compiled.exists_objects (hcompiled : t.Compiled)
    {o : List Char × Assoc (List Char) (List Char)} (ho : o ∈ t.members)
    (hsearch : isSearchable o.1 = true) {c : Char} (hc : o.1.head? = some c) :
    ∃ found, t.objects.get? (foldCase c) = some found ∧ o.1 ∈ found := by
  obtain ⟨schema, origin, fallback, rfl⟩ := hcompiled
  refine PhraseIndex.exists_get? ?_ hc
  rw [searchOrder, List.mem_mergeSort, List.mem_filter]
  exact ⟨List.mem_map_of_mem ho, hsearch⟩

/-- No name holds a name with a dot behind it. -/
theorem ObjectsApart.not_dot (hapart : t.ObjectsApart) (h : t.Names name)
    (front back : List Char) : ¬t.Names (front ++ (name ++ '.' :: back)) := by
  rintro ⟨o', ho', -, hname'⟩
  obtain ⟨o, ho, hsearch, hname⟩ := h
  refine hapart o ho o' ho' hsearch ⟨front.map foldCase, back.map foldCase, ?_⟩
  rw [← hname, ← hname']
  simp [foldCase_of_isCaseless isCaseless_dot]

end CaseTable

namespace Recasing

open CaseTable

/-! ## A dot and a member -/

/-- Does the start of a member follow, after blanks? -/
def startsOn : List Char → Bool
  | [] => false
  | c :: cs => if isBlank c then startsOn cs else startsMember c

/-- Do a dot and the start of a member follow, with blanks before them? -/
def leadsOn : List Char → Bool
  | [] => false
  | c :: cs => if isBlank c then leadsOn cs else c == '.' && startsOn cs

/-- Is the text a whole member? -/
def IsMember (member : List Char) : Prop :=
  ∃ c tail, member = c :: tail ∧ startsMember c = true ∧ ∀ d ∈ tail, isWordChar d = true

/-- Is the text a dot with blanks around it? -/
def IsLink (link : List Char) : Prop :=
  ∃ x y, allBlank x = true ∧ allBlank y = true ∧ link = x ++ '.' :: y

theorem startsOn_of_not {c : Char} (h : isBlank c = false) (cs : List Char) :
    startsOn (c :: cs) = startsMember c := by
  simp [startsOn, h]

theorem leadsOn_of_not {c : Char} (h : isBlank c = false) (cs : List Char) :
    leadsOn (c :: cs) = (c == '.' && startsOn cs) := by
  simp [leadsOn, h]

theorem startsOn_append {gap : List Char} (h : allBlank gap = true) (cs : List Char) :
    startsOn (gap ++ cs) = startsOn cs := by
  induction gap with
  | nil => rfl
  | cons c gap ih =>
      rw [allBlank_cons, Bool.and_eq_true] at h
      rw [List.cons_append, startsOn, if_pos h.1, ih h.2]

theorem leadsOn_append {gap : List Char} (h : allBlank gap = true) (cs : List Char) :
    leadsOn (gap ++ cs) = leadsOn cs := by
  induction gap with
  | nil => rfl
  | cons c gap ih =>
      rw [allBlank_cons, Bool.and_eq_true] at h
      rw [List.cons_append, leadsOn, if_pos h.1, ih h.2]

theorem exists_of_startsOn {cs : List Char} (h : startsOn cs = true) :
    ∃ y member rest, allBlank y = true ∧ IsMember member ∧ rest.head?.any isWordChar = false ∧
      cs = y ++ (member ++ rest) := by
  induction cs with
  | nil => cases h
  | cons c cs ih =>
      rw [startsOn] at h
      split at h
      · next hc =>
          obtain ⟨y, member, rest, hy, hmember, hrest, rfl⟩ := ih h
          exact ⟨c :: y, member, rest, by simp [hc, hy], hmember, hrest, rfl⟩
      · refine ⟨[], c :: cs.takeWhile isWordChar, cs.dropWhile isWordChar, rfl, ?_, ?_, ?_⟩
        · exact ⟨c, _, rfl, h, fun d hd => List.mem_takeWhile_imp hd⟩
        · rw [Option.any_eq_false]
          intro d hd
          have := List.head?_dropWhile_not isWordChar cs
          rw [hd] at this
          simpa using this
        · simp [List.takeWhile_append_dropWhile]

/-- What a dot and a member that follow look like. -/
theorem exists_of_leadsOn {cs : List Char} (h : leadsOn cs = true) :
    ∃ link member rest, IsLink link ∧ IsMember member ∧ rest.head?.any isWordChar = false ∧
      cs = link ++ (member ++ rest) := by
  induction cs with
  | nil => cases h
  | cons c cs ih =>
      rw [leadsOn] at h
      split at h
      · next hc =>
          obtain ⟨_, member, rest, ⟨x, y, hx, hy, rfl⟩, hmember, hrest, rfl⟩ := ih h
          exact ⟨c :: x ++ '.' :: y, member, rest, ⟨c :: x, y, by simp [hc, hx], hy, rfl⟩, hmember,
            hrest, rfl⟩
      · rw [Bool.and_eq_true, beq_iff_eq] at h
        obtain ⟨rfl, hstart⟩ := h
        obtain ⟨y, member, rest, hy, hmember, hrest, rfl⟩ := exists_of_startsOn hstart
        exact ⟨'.' :: y, member, rest, ⟨[], y, rfl, hy, rfl⟩, hmember, hrest, rfl⟩

theorem leadsOn_of_link {link member : List Char} (hlink : IsLink link) (hmember : IsMember member)
    (rest : List Char) : leadsOn (link ++ (member ++ rest)) = true := by
  obtain ⟨x, y, hx, hy, rfl⟩ := hlink
  obtain ⟨c, tail, rfl, hc, -⟩ := hmember
  rw [List.append_assoc, leadsOn_append hx, List.cons_append, leadsOn_of_not (by decide),
    startsOn_append hy, List.cons_append, startsOn_of_not (isBlank_of_startsMember hc), hc]
  rfl

/-- The dot and the member that follow an object are found. -/
theorem memberAfter?_of_link {link member rest : List Char} (hlink : IsLink link)
    (hmember : IsMember member) (hrest : rest.head?.any isWordChar = false) (object : List Char) :
    memberAfter? object (link ++ (member ++ rest)) = some ⟨object, link, member⟩ := by
  obtain ⟨x, y, hx, hy, rfl⟩ := hlink
  obtain ⟨c, tail, rfl, hc, htail⟩ := hmember
  have hblank := isBlank_of_startsMember hc
  have hdrop : ∀ {gap : List Char} {d : Char} (cs : List Char), allBlank gap = true →
      isBlank d = false → (gap ++ d :: cs).dropWhile isBlank = d :: cs ∧
        (gap ++ d :: cs).takeWhile isBlank = gap := by
    intro gap d cs hgap hd
    refine ⟨?_, takeWhile_append_eq (allBlank_iff.mp hgap) (by simpa using hd)⟩
    rw [← trimStart, trimStart_append_of_allBlank hgap, trimStart_cons, hd]
    rfl
  rw [List.append_assoc, List.cons_append, List.cons_append]
  simp only [memberAfter?, hdrop (d := '.') (y ++ c :: (tail ++ rest)) hx (by decide),
    hdrop (tail ++ rest) hy hblank, hc, if_true, takeWhile_append_eq htail hrest]

theorem leadsOn_of_memberAfter? {object cs : List Char} {r : MemberRef}
    (h : memberAfter? object cs = some r) : leadsOn cs = true := by
  simp only [memberAfter?] at h
  split at h
  · next rest hdot =>
      split at h
      · next c tail hname =>
          split at h
          · next hstart =>
              rw [← List.takeWhile_append_dropWhile (p := isBlank) (l := cs), hdot,
                leadsOn_append (allBlank_takeWhile cs), leadsOn_of_not (by decide),
                ← List.takeWhile_append_dropWhile (p := isBlank) (l := rest), hname,
                startsOn_append (allBlank_takeWhile rest),
                startsOn_of_not (isBlank_of_startsMember hstart), hstart]
              rfl
          · cases h
      · cases h
  · cases h

/-! ## References found in a text -/

/-- A reference stands at the start of a text, and `rest` comes after it. -/
structure Reads (t : CaseTable) (cs : List Char) (r : MemberRef) (rest : List Char) : Prop where
  object : t.Names r.object
  link : IsLink r.link
  member : IsMember r.member
  ends : rest.head?.any isWordChar = false
  text : cs = r.object ++ (r.link ++ (r.member ++ rest))

theorem Reads.leadsOn {t : CaseTable} {cs rest : List Char} {r : MemberRef}
    (h : Reads t cs r rest) : leadsOn (r.link ++ (r.member ++ rest)) = true :=
  leadsOn_of_link h.link h.member rest

section

variable {t : CaseTable} (hcompiled : t.Compiled) (hwell : t.WellCased) (hapart : t.ObjectsApart)

include hwell hapart in
theorem eq_nil_of_names_append {name mid rest : List Char} (hname : t.Names name)
    (hmid : t.Names (name ++ mid)) (hleads : leadsOn (mid ++ rest) = true) : mid = [] := by
  cases mid with
  | nil => rfl
  | cons c mid =>
      have hc : isBlank c = false := hmid.visible hwell c (by simp)
      rw [List.cons_append, leadsOn_of_not hc, Bool.and_eq_true, beq_iff_eq] at hleads
      rw [hleads.1] at hmid
      exact absurd hmid (hapart.not_dot hname [] mid)

include hwell hapart in
/-- One object at most stands before a dot at a place. -/
theorem eq_of_names {name name' rest rest' : List Char} (hname : t.Names name)
    (hname' : t.Names name') (h : name ++ rest = name' ++ rest') (hrest : leadsOn rest = true)
    (hrest' : leadsOn rest' = true) : name = name' ∧ rest = rest' := by
  rcases List.append_eq_append_iff.mp h with ⟨mid, rfl, rfl⟩ | ⟨mid, rfl, rfl⟩
  · obtain rfl := eq_nil_of_names_append hwell hapart hname hname' hrest
    simp
  · obtain rfl := eq_nil_of_names_append hwell hapart hname' hname hrest'
    simp

include hwell hapart in
theorem Reads.unique {cs rest rest' : List Char} {r r' : MemberRef} (h : Reads t cs r rest)
    (h' : Reads t cs r' rest') : r = r' ∧ rest = rest' := by
  have hcs := h.text
  rw [h'.text] at hcs
  obtain ⟨hobject, htail⟩ := eq_of_names hwell hapart h'.object h.object hcs h'.leadsOn h.leadsOn
  have hr := memberAfter?_of_link h.link h.member h.ends r.object
  rw [← htail, memberAfter?_of_link h'.link h'.member h'.ends, Option.some.injEq] at hr
  obtain rfl : r' = r := (congrArg (MemberRef.mk · r'.link r'.member) hobject).trans hr
  exact ⟨rfl, List.append_cancel_left (List.append_cancel_left htail.symm)⟩

include hcompiled hwell in
theorem phraseLength?_object {o : List Char × Assoc (List Char) (List Char)} (ho : o ∈ t.members)
    (hsearch : isSearchable o.1 = true) (n : Nat) (cs : List Char) :
    phraseLength? o.1 cs = some n ↔
      ∃ name rest, cs = name ++ rest ∧ n = name.length ∧ name.map foldCase = o.1 := by
  have hunspaced : ∀ c ∈ o.1, isBlank c = false := fun c hc => by
    simpa using List.all_eq_true.mp (hwell.object_unspaced o ho) c hc
  have houtline : outline o.1 = o.1 := by
    rw [outline_of_visible hunspaced, hcompiled.map_plain_object hwell o ho]
  have hend : EndsVisible o.1 := (trimmed_of_visible hunspaced).last
  have hfold := hcompiled.map_foldCase_object hwell o ho
  have hmap : ∀ cs : List Char, (∀ c ∈ cs, isBlank c = false) →
      (outline cs).map foldCase = cs.map foldCase := by
    intro cs hcs
    rw [outline_of_visible hcs, map_foldCase_plain]
  rw [phraseLength?_eq_some_iff houtline hend, Takes, hfold]
  constructor
  · rintro ⟨name, rest, rfl, rfl, -, hname⟩
    have hvisible : ∀ c ∈ name, isBlank c = false := by
      refine visible_of_outline fun c hc => ?_
      by_contra hblank
      rw [Bool.not_eq_false] at hblank
      have hmem : foldCase c ∈ o.1 := hname ▸ List.mem_map_of_mem hc
      rw [foldCase_of_isCaseless (isCaseless_of_isBlank hblank)] at hmem
      rw [hunspaced c hmem] at hblank
      cases hblank
    exact ⟨name, rest, rfl, rfl, by rw [← hname, hmap name hvisible]⟩
  · rintro ⟨name, rest, rfl, rfl, hname⟩
    have hvisible := Names.visible ⟨o, ho, hsearch, hname⟩ hwell
    exact ⟨name, rest, rfl, rfl, (trimmed_of_visible hvisible).last,
      by rw [hmap name hvisible, hname]⟩

include hcompiled hwell hapart

/-- The one reference that stands at a place is found there. -/
theorem memberRef?_eq_some_iff {before cs : List Char} {r : MemberRef} :
    memberRef? t.objects before cs = some r ↔
      isBoundary before.head? cs.head? = true ∧ ∃ rest, Reads t cs r rest := by
  have hsound : ∀ {r : MemberRef}, memberRef? t.objects before cs = some r →
      isBoundary before.head? cs.head? = true ∧ ∃ rest, Reads t cs r rest := by
    intro r h
    rw [memberRef?] at h
    split at h
    · next hboundary =>
        obtain ⟨e, he, p, hp, hfound⟩ := exists_of_findPhrase? h
        obtain ⟨o, ho, hsearch, rfl⟩ := hcompiled.exists_object he hp
        rw [Option.bind_eq_some_iff] at hfound
        obtain ⟨n, hn, hmember⟩ := hfound
        obtain ⟨name, rest, rfl, rfl, hname⟩ :=
          (phraseLength?_object hcompiled hwell ho hsearch n cs).mp hn
        rw [List.take_left, List.drop_left] at hmember
        obtain ⟨link, member, rest', hlink, hmem, hrest, rfl⟩ :=
          exists_of_leadsOn (leadsOn_of_memberAfter? hmember)
        rw [memberAfter?_of_link hlink hmem hrest, Option.some.injEq] at hmember
        rw [← hmember]
        exact ⟨hboundary, rest', ⟨o, ho, hsearch, hname⟩, hlink, hmem, hrest, rfl⟩
    · cases h
  refine ⟨hsound, ?_⟩
  rintro ⟨hboundary, rest, hreads⟩
  have hsome : (memberRef? t.objects before cs).isSome = true := by
    rw [memberRef?, if_pos hboundary]
    obtain ⟨c, tail, hcons, -⟩ := hreads.object.exists_cons
    obtain ⟨o, ho, hsearch, hfold⟩ := hreads.object
    have hhead : o.1.head? = some (foldCase c) := by rw [← hfold, hcons]; rfl
    have hletter : foldCase (foldCase c) = foldCase c := by
      have := congrArg List.head? (hcompiled.map_foldCase_object hwell o ho)
      rwa [List.head?_map, hhead, Option.map_some, Option.some.injEq] at this
    obtain ⟨found, hget, hmem⟩ := hcompiled.exists_objects ho hsearch hhead
    rw [hletter] at hget
    refine isSome_findPhrase? (by rw [hreads.text, hcons]; rfl) hget hmem ?_
    rw [hreads.text,
      (phraseLength?_object hcompiled hwell ho hsearch _ _).mpr ⟨_, _, rfl, rfl, hfold⟩,
      Option.bind_some, List.take_left, List.drop_left,
      memberAfter?_of_link hreads.link hreads.member hreads.ends]
    rfl
  obtain ⟨r', hr'⟩ := Option.isSome_iff_exists.mp hsome
  obtain ⟨-, rest', hreads'⟩ := hsound hr'
  rw [hr', (hreads.unique hwell hapart hreads').1]

end

/-! ## Spellings of references -/

theorem IsMember.of_plain {member member' : List Char} (h : IsMember member)
    (heq : member.map plain = member'.map plain) : IsMember member' := by
  obtain ⟨c, tail, rfl, hc, htail⟩ := h
  cases member' with
  | nil => simp at heq
  | cons d tail' =>
      rw [List.map_cons, List.map_cons, List.cons.injEq] at heq
      refine ⟨d, tail', rfl, by rwa [← startsMember_plain, ← heq.1, startsMember_plain], ?_⟩
      intro e he
      have hmem : plain e ∈ tail.map plain := heq.2 ▸ List.mem_map_of_mem he
      obtain ⟨e', he', hplain⟩ := List.mem_map.mp hmem
      rw [← isWordChar_plain, ← hplain, isWordChar_plain]
      exact htail e' he'

theorem IsMember.visible {member : List Char} (h : IsMember member) :
    ∀ c ∈ member, isBlank c = false := by
  obtain ⟨c, tail, rfl, hc, htail⟩ := h
  intro d hd
  rcases List.mem_cons.mp hd with rfl | hd
  · exact isBlank_of_startsMember hc
  · exact isBlank_of_isWordChar (htail d hd)

section

variable {t : CaseTable} (hcompiled : t.Compiled) (hwell : t.WellCased)

include hwell in
theorem map_plain_canonical {name : List Char} (h : t.Names name) :
    ((t.canonical? name).getD name).map plain = name.map plain := by
  have hvisible := h.visible hwell
  have houtline := outline_canonical hwell (trimmed_of_visible hvisible)
  rw [outline_of_visible hvisible] at houtline
  rw [← houtline, outline_of_visible]
  refine visible_of_outline fun c hc => ?_
  rw [houtline] at hc
  obtain ⟨d, hd, rfl⟩ := List.mem_map.mp hc
  rw [isBlank_plain, hvisible d hd]

/-- What a look-up gives stays if the look-up does not tell it from what was looked up. -/
theorem getD_getD {α : Type} {f : α → Option α} {a : α} (h : f ((f a).getD a) = f a) :
    (f ((f a).getD a)).getD ((f a).getD a) = (f a).getD a := by
  rw [h]
  cases f a <;> rfl

/-- The object and the member of a reference in the spelling of the table. -/
def spelt (t : CaseTable) (r : MemberRef) : MemberRef where
  object := (t.canonical? r.object).getD r.object
  link := ['.']
  member := (t.canonicalMember? ((t.canonical? r.object).getD r.object) r.member).getD r.member

theorem memberSpelling_eq (t : CaseTable) (r : MemberRef) :
    memberSpelling t r = (spelt t r).object ++ '.' :: (spelt t r).member := rfl

include hcompiled hwell

theorem spelt_spelt {r : MemberRef} (h : t.Names r.object) :
    spelt t (spelt t r) = spelt t r := by
  have hobject : t.canonical? (spelt t r).object = t.canonical? r.object := by
    refine canonical?_eq_of_outline ?_
    rw [← outline_map_plain, ← outline_map_plain r.object]
    exact congrArg outline (map_plain_canonical hwell h)
  have hname : (t.canonical? (spelt t r).object).getD (spelt t r).object = (spelt t r).object :=
    getD_getD hobject
  rw [spelt, hname, MemberRef.mk.injEq]
  refine ⟨rfl, rfl, getD_getD (canonicalMember?_eq_of_plain rfl ?_)⟩
  exact map_plain_canonicalMember hcompiled hwell _ _

end

/-! ## References in texts with one outline -/

/-- Texts with one outline have the same references in the same places. -/
theorem Reads.of_outline {t : CaseTable} (hwell : t.WellCased) {cs cs' rest : List Char}
    {r : MemberRef} (h : Reads t cs r rest) (houtline : outline cs' = outline cs) :
    ∃ r' rest', Reads t cs' r' rest' ∧ r'.object.map plain = r.object.map plain ∧
      r'.member.map plain = r.member.map plain ∧ outline rest' = outline rest ∧
      (r.link = ['.'] → r'.link = ['.']) := by
  obtain ⟨x, y, hx, hy, hlink⟩ := h.link
  have hobject := h.object.visible hwell
  have hmember := h.member.visible
  have hstart : StartsVisible (r.member ++ rest) := by
    obtain ⟨c, tail, hcons, hc, -⟩ := h.member
    rw [hcons]
    exact isBlank_of_startsMember hc
  have hdot : ∀ cs, StartsVisible ('.' :: cs) := fun cs => show isBlank '.' = false by decide
  rw [h.text, outline_append (.inl (trimmed_of_visible hobject).last), outline_of_visible hobject,
    hlink, List.append_assoc,
    List.cons_append, outline_append (.inr (hdot _)), outline_cons_of_not (by decide),
    outline_append (.inr hstart), outline_append (.inl (trimmed_of_visible hmember).last),
    outline_of_visible hmember] at houtline
  have hname : StartsVisible (r.member.map plain ++ outline rest) := by
    obtain ⟨c, tail, hcons, hc, -⟩ := h.member
    rw [hcons]
    exact (isBlank_plain c).trans (isBlank_of_startsMember hc)
  obtain ⟨object', cs₁, rfl, hobject', h₁⟩ := exists_of_outline_word hobject houtline
  obtain ⟨x', cs₂, rfl, hx', hxnil, h₂⟩ := exists_of_outline_gap hx (hdot _) h₁
  obtain ⟨dot, cs₃, rfl, hdot', h₃⟩ :=
    exists_of_outline_word (List.forall_mem_singleton.mpr (by decide))
      (show outline cs₂ = ['.'].map plain ++ _ from h₂)
  obtain ⟨c, rfl, hc⟩ := List.map_eq_singleton_iff.mp hdot'
  obtain rfl := eq_dot_of_plain hc
  obtain ⟨y', cs₄, rfl, hy', hynil, h₄⟩ := exists_of_outline_gap hy hname h₃
  obtain ⟨member', rest', rfl, hmember', h₅⟩ := exists_of_outline_word hmember h₄
  refine ⟨⟨object', x' ++ '.' :: y', member'⟩, rest', ⟨h.object.of_plain hobject'.symm,
    ⟨x', y', hx', hy', rfl⟩, h.member.of_plain hmember'.symm, ?_, by simp⟩, hobject', hmember',
    h₅, ?_⟩
  · rw [isWordChar_head_of_outline h₅, h.ends]
  · intro hsingle
    rw [hlink] at hsingle
    have hempty : x = [] ∧ y = [] := by
      have := congrArg List.length hsingle
      simp only [List.length_append, List.length_cons, List.length_nil] at this
      exact ⟨List.eq_nil_of_length_eq_zero (by omega), List.eq_nil_of_length_eq_zero (by omega)⟩
    show x' ++ '.' :: y' = ['.']
    rw [hxnil hempty.1, hynil hempty.2]
    rfl

end Recasing

end ClassicAsp
