import CallByNeed.Proofs.Matching.Rules

/-!
# Matching follows the rules

The third pass pairs the leading formals that are left with the untagged actuals,
both in order; its pairs complete those of the first two.  What is filled in for
each formal is then read off one assignment (`matchFormals_assigns`).
-/

namespace CallByNeed.Matching

variable {formals actuals result : ArgList} {named found pairs : Pairing} {i a : Nat}
  {populate : Bool}

/-! ## The third pass -/

theorem pairwise_leading (formals : ArgList) :
    (leading formals).Pairwise fun x y => x.2 < y.2 := by
  unfold leading
  split
  · exact (pairwise_zipIdx formals).sublist (List.take_sublist _ _)
  · exact pairwise_zipIdx formals

/-- The formals that the third pass fills are the free ones, in order. -/
theorem map_snd_free (hname : pairByName formals actuals.zipIdx [] = .ok named)
    (hbegun : pairByPrefix formals named actuals.zipIdx named = .ok found) :
    ((leading formals).filter fun formal => !found.hasFormal formal.2).map Prod.snd =
      free formals actuals := by
  have htaken (i : Nat) : found.hasFormal i = false ↔
      ∀ a < actuals.length, ¬ Names formals actuals a i ∧ ¬ Begins formals actuals a i := by
    rw [Bool.eq_false_iff, ne_eq, Pairing.hasFormal_iff_gives]
    simp only [gives_of_pairByPrefix hname hbegun, not_exists, not_or]
    refine ⟨fun h a _ => h a, fun h a => ?_⟩
    by_cases ha : a < actuals.length
    · exact h a ha
    · exact ⟨fun hnames => ha hnames.lt_length, fun hbegins => ha hbegins.lt_length⟩
  -- both lists go up, so it is enough that they have the same members
  refine List.Pairwise.eq_of_mem_iff (r := (· < ·)) ?_ ?_ fun i => ?_
  · rw [List.pairwise_map]
    exact (pairwise_leading formals).filter _
  · exact List.pairwise_lt_range.filter _
  · simp only [List.mem_map, List.mem_filter, Bool.not_eq_true', Prod.exists, exists_and_right,
      exists_eq_right, mem_leading, htaken, mem_free, IsFree]
    constructor
    · rintro ⟨⟨_, hleading⟩, hfree⟩
      exact ⟨hleading, hfree⟩
    · rintro ⟨hleading, hfree⟩
      exact ⟨⟨⟨_, List.getElem?_eq_getElem hleading.1⟩, hleading⟩, hfree⟩

/-- The actuals without tag, with their positions. -/
def waiting (actuals : ArgList) : List (Arg Value × Nat) :=
  actuals.zipIdx.filter (·.1.tag.isNone)

theorem map_snd_waiting : (waiting actuals).map Prod.snd = untagged actuals := by
  refine List.Pairwise.eq_of_mem_iff (r := (· < ·)) ?_ (List.pairwise_lt_range.filter _)
    fun a => ?_
  · exact List.pairwise_map.2 ((pairwise_zipIdx actuals).filter _)
  · simp only [waiting, List.mem_map, List.mem_filter, List.mem_zipIdx_iff_getElem?, Prod.exists,
      exists_eq_right, mem_untagged, Option.isNone_iff_eq_none]
    constructor
    · rintro ⟨actual, hactual, htag⟩
      exact ⟨(List.getElem?_eq_some_iff.1 hactual).1, (tagAt_of_getElem? hactual).trans htag⟩
    · rintro ⟨hlt, htag⟩
      have hactual := List.getElem?_eq_getElem hlt
      exact ⟨actuals[a], hactual, (tagAt_of_getElem? hactual).symm.trans htag⟩

/-- The actuals that the third pass gives away are the untagged ones, in order. -/
theorem map_snd_untagged (hname : pairByName formals actuals.zipIdx [] = .ok named)
    (hbegun : pairByPrefix formals named actuals.zipIdx named = .ok found) :
    (actuals.zipIdx.filter fun actual => actual.1.tag.isNone && !found.hasActual actual.2).map
      Prod.snd = untagged actuals := by
  rw [← map_snd_waiting, waiting]
  congr 1
  refine List.filter_congr fun x hx => ?_
  cases htag : x.1.tag with
  | some tag => rfl
  | none =>
    -- the passes before give away tagged actuals only
    have hnew : found.hasActual x.2 = false := by
      rw [Bool.eq_false_iff, ne_eq, Pairing.hasActual_iff_gives]
      rintro ⟨i, hgives⟩
      have hplain := (tagAt_of_getElem? (List.mem_zipIdx_iff_getElem?.1 hx)).trans htag
      obtain ⟨tag, hsome, -⟩ | ⟨-, ⟨tag, hsome, -⟩, -⟩ :=
        (gives_of_pairByPrefix hname hbegun).1 hgives
      all_goals simp [hplain] at hsome
    rw [hnew]
    rfl

theorem gives_of_pairByPosition (hname : pairByName formals actuals.zipIdx [] = .ok named)
    (hbegun : pairByPrefix formals named actuals.zipIdx named = .ok found) :
    (pairByPosition formals actuals.zipIdx found).Gives a i ↔
      Names formals actuals a i ∨ Begins formals actuals a i ∨
        ∃ k : Nat, (free formals actuals)[k]? = some i ∧ (untagged actuals)[k]? = some a := by
  -- the third pass zips what the other two left, so the rank in both lists is the same
  rw [← or_assoc, ← gives_of_pairByPrefix hname hbegun, ← map_snd_free hname hbegun,
    ← map_snd_untagged hname hbegun]
  simp only [Pairing.Gives, pairByPosition, List.mem_append, List.mem_map, List.getElem?_map,
    Option.map_eq_some_iff, Prod.exists]
  constructor
  · rintro ⟨p, ⟨formal, j, actual, b, hmem, rfl⟩ | hp, rfl, rfl⟩
    · obtain ⟨k, hk⟩ := List.mem_iff_getElem?.1 hmem
      obtain ⟨hformal, hactual⟩ := List.getElem?_zip_eq_some.1 hk
      exact .inr ⟨k, ⟨formal, j, hformal, rfl⟩, actual, b, hactual, rfl⟩
    · exact .inl ⟨p, hp, rfl, rfl⟩
  · rintro (⟨p, hp, hi, ha⟩ | ⟨k, ⟨formal, j, hformal, rfl⟩, actual, b, hactual, rfl⟩)
    · exact ⟨p, .inr hp, hi, ha⟩
    · have hmem := List.mem_of_getElem?
        ((List.getElem?_zip_eq_some (z := ((formal, j), (actual, b)))).2 ⟨hformal, hactual⟩)
      exact ⟨⟨j, b, actual.value⟩, .inl ⟨formal, j, actual, b, hmem, rfl⟩, rfl, rfl⟩

/-! ## All pairs together -/

/-- The actual that the formal at `i` receives. -/
def Pairing.actualOf? (pairs : Pairing) (i : Nat) : Option Nat :=
  (pairs.find? (·.formal == i)).map (·.actual)

theorem Pairing.actualOf?_eq_some_iff (hnodup : (pairs.map Pair.formal).Nodup) :
    pairs.actualOf? i = some a ↔ pairs.Gives a i := by
  constructor
  · intro h
    obtain ⟨p, hp, rfl⟩ := Option.map_eq_some_iff.1 h
    have hformal := List.find?_some hp
    exact ⟨p, List.mem_of_find?_eq_some hp, by simpa using hformal, rfl⟩
  · rintro ⟨p, hp, rfl, rfl⟩
    obtain ⟨q, hq⟩ := Option.isSome_iff_exists.1
      (List.find?_isSome.2 ⟨p, hp, by simp⟩ : (pairs.find? (·.formal == p.formal)).isSome)
    have hsame : q.formal = p.formal := by simpa using List.find?_some hq
    rw [actualOf?, hq, List.inj_on_of_nodup_map hnodup (List.mem_of_find?_eq_some hq) hp hsame]
    rfl

/-- No pair has a value of its own: each has the value of its actual. -/
def Pairing.PassOn (pairs : Pairing) (actuals : ArgList) : Prop :=
  ∀ p ∈ pairs, (actuals[p.actual]?).map Arg.value = some p.value

theorem Pairing.PassOn.valueOf? (h : pairs.PassOn actuals) (i : Nat) :
    pairs.valueOf? i = (pairs.actualOf? i).bind fun a => (actuals[a]?).map Arg.value := by
  unfold Pairing.valueOf? actualOf?
  cases hfind : pairs.find? (·.formal == i) with
  | none => rfl
  | some p => simpa using (h p (List.mem_of_find?_eq_some hfind)).symm

theorem passOn_of_pair (h : pair formals actuals = .ok pairs) : pairs.PassOn actuals := by
  obtain ⟨named, hname, h⟩ := bind_eq_ok_iff.1 h
  obtain ⟨found, hbegun, h⟩ := bind_eq_ok_iff.1 h
  cases h
  have hnamed : named.PassOn actuals := by
    rw [pairByName_eq hname]
    intro p hp
    simp only [List.append_nil, List.mem_reverse, List.mem_filterMap, Prod.exists,
      List.mem_zipIdx_iff_getElem?] at hp
    obtain ⟨actual, position, hactual, hp⟩ := hp
    obtain ⟨-, -, -, rfl, hvalue⟩ := exactPair?_eq_some_iff.1 hp
    simp [hactual, hvalue]
  -- each pass takes the value from the list of actuals and leaves the pairs it finds as they are
  have hfound : found.PassOn actuals := by
    rw [pairByPrefix_eq hbegun]
    intro p hp
    simp only [List.mem_append, List.mem_reverse, List.mem_filterMap, Prod.exists,
      List.mem_zipIdx_iff_getElem?] at hp
    obtain ⟨actual, position, hactual, hp⟩ | hp := hp
    · obtain ⟨-, -, -, -, -, rfl, hvalue⟩ := prefixPair?_eq_some_iff.1 hp
      simp [hactual, hvalue]
    · exact hnamed p hp
  intro p hp
  simp only [pairByPosition, List.mem_append, List.mem_map] at hp
  obtain ⟨⟨formal, actual⟩, hmem, rfl⟩ | hp := hp
  · have hactual := List.mem_of_mem_filter (List.of_mem_zip hmem).2
    simp [List.mem_zipIdx_iff_getElem?.1 hactual]
  · exact hfound p hp

/-- No formal receives two actuals. -/
theorem nodup_of_pair (h : pair formals actuals = .ok pairs) :
    (pairs.map Pair.formal).Nodup := by
  obtain ⟨named, hname, h⟩ := bind_eq_ok_iff.1 h
  obtain ⟨found, hbegun, h⟩ := bind_eq_ok_iff.1 h
  cases h
  have hfound := nodup_pairByPrefix hbegun (nodup_pairByName hname List.nodup_nil)
  simp only [pairByPosition, List.map_append, List.map_map]
  generalize hleft : (leading formals).filter (fun formal => !found.hasFormal formal.2) = left
  generalize actuals.zipIdx.filter _ = waiting
  have hfst : (left.zip waiting).map Prod.fst = left.take (min left.length waiting.length) := by
    rw [List.zip_eq_zip_take_min, List.map_fst_zip (by simp)]
  refine List.nodup_append'.2 ⟨?_, hfound, ?_⟩
  · have hsorted : left.Pairwise fun x y => x.2 < y.2 := by
      rw [← hleft]
      exact (pairwise_leading formals).filter _
    have hdistinct : ((left.zip waiting).map Prod.fst).Pairwise fun x y => x.2 ≠ y.2 := by
      rw [hfst]
      exact (hsorted.sublist (List.take_sublist _ _)).imp Nat.ne_of_lt
    rw [List.pairwise_map] at hdistinct
    exact List.pairwise_map.2 hdistinct
  · -- the third pass turns to formals without actual only
    intro i hnew hold
    obtain ⟨⟨formal, actual⟩, hmem, rfl⟩ := List.mem_map.1 hnew
    have hformal := (List.of_mem_zip hmem).1
    rw [← hleft] at hformal
    have hfree := (List.mem_filter.1 hformal).2
    have htaken : found.hasFormal formal.2 = true := Pairing.hasFormal_iff.2 hold
    simp [htaken] at hfree

/-! ## Filling in -/

theorem eq_map_of_mapM {α β ε : Type} {f : α → Except ε β} {g : α → β} {items : List α}
    {results : List β} (hf : ∀ a ∈ items, ∀ b, f a = .ok b → b = g a)
    (h : items.mapM f = .ok results) : results = items.map g := by
  induction items generalizing results with
  | nil =>
    cases h
    rfl
  | cons a rest ih =>
    rw [List.mapM_cons] at h
    obtain ⟨b, hb, h⟩ := bind_eq_ok_iff.1 h
    obtain ⟨bs, hbs, h⟩ := bind_eq_ok_iff.1 h
    cases h
    have hrest := ih (fun a ha => hf a (List.mem_cons_of_mem _ ha)) hbs
    rw [List.map_cons, hf a List.mem_cons_self b hb, hrest]

/-- What no formal took is what the assignment gives to none. -/
theorem leftover_eq (hnodup : (pairs.map Pair.formal).Nodup)
    (hformals : ∀ {i a}, pairs.actualOf? i = some a → i < formals.length) :
    (leftover actuals pairs).map Prod.fst = collected formals actuals pairs.actualOf? := by
  unfold leftover collected
  congr 2
  funext actual
  have hgiven : pairs.hasActual actual.2 = true ↔
      ∃ i < formals.length, pairs.actualOf? i = some actual.2 := by
    simp only [Pairing.hasActual_iff_gives, ← Pairing.actualOf?_eq_some_iff hnodup]
    exact ⟨fun ⟨i, hi⟩ => ⟨i, hformals hi, hi⟩, fun ⟨i, _, hi⟩ => ⟨i, hi⟩⟩
  rw [Bool.eq_iff_iff, Bool.not_eq_true', Bool.eq_false_iff, ne_eq, hgiven]
  simp

theorem eq_of_fill (hpairs : pairs.PassOn actuals) (hnodup : (pairs.map Pair.formal).Nodup)
    (hformals : ∀ {i a}, pairs.actualOf? i = some a → i < formals.length)
    (h : fill formals actuals pairs populate = .ok result) :
    result = formals.zipIdx.map fun (formal, i) =>
      Arg.new formal.tag (assigned formals actuals pairs.actualOf? i) := by
  refine eq_map_of_mapM (fun (formal, i) _ arg harg => ?_) h
  by_cases hellipsis : IsEllipsis formals i
  · have htag : (some i == ellipsisIndex? formals) = true := by
      simp [isEllipsis_iff.1 hellipsis]
    simp only [htag, if_true, leftover_eq hnodup hformals] at harg
    cases harg
    simp [assigned, hellipsis]
  · have htag : (some i == ellipsisIndex? formals) = false := by
      rw [isEllipsis_iff] at hellipsis
      simpa using Ne.symm hellipsis
    simp only [htag, Bool.false_eq_true, if_false, hpairs.valueOf?] at harg
    simp only [assigned, hellipsis, if_false]
    -- a formal that got nothing is filled with the missing sentinel, unless that is refused
    cases hactual : pairs.actualOf? i with
    | none =>
      simp only [hactual, Option.bind_none] at harg ⊢
      split at harg
      · cases harg
      · cases harg
        rfl
    | some a =>
      obtain ⟨p, hp, rfl, rfl⟩ := (Pairing.actualOf?_eq_some_iff hnodup).1 hactual
      obtain ⟨actual, hactual', hvalue⟩ := Option.map_eq_some_iff.1 (hpairs p hp)
      simp only [hactual, Option.bind_some, hactual', Option.map_some] at harg ⊢
      cases harg
      rfl

/-! ## The assignment -/

theorem assigns_of_pair (h : pair formals actuals = .ok pairs) :
    Assigns formals actuals pairs.actualOf? := by
  have hnodup := nodup_of_pair h
  obtain ⟨named, hname, h⟩ := bind_eq_ok_iff.1 h
  obtain ⟨found, hbegun, h⟩ := bind_eq_ok_iff.1 h
  cases h
  have hgives {i a : Nat} := (Pairing.actualOf?_eq_some_iff hnodup (i := i) (a := a)).trans
    (gives_of_pairByPosition hname hbegun)
  have hsource {i a : Nat}
      (hi : (pairByPosition formals actuals.zipIdx found).actualOf? i = some a) :
      Names formals actuals a i ∨ Begins formals actuals a i ∨
        i ∈ free formals actuals ∧ a ∈ untagged actuals := by
    obtain hnames | hbegins | ⟨k, hfree, huntagged⟩ := hgives.1 hi
    · exact .inl hnames
    · exact .inr (.inl hbegins)
    · exact .inr (.inr ⟨List.mem_of_getElem? hfree, List.mem_of_getElem? huntagged⟩)
  constructor
  case ordinary =>
    intro i a hi
    obtain hnames | hbegins | ⟨hfree, huntagged⟩ := hsource hi
    · exact ⟨hnames.isOrdinary, hnames.lt_length⟩
    · exact ⟨hbegins.1.isOrdinary, hbegins.lt_length⟩
    · exact ⟨(mem_free.1 hfree).1.isOrdinary, (mem_untagged.1 huntagged).1⟩
  case injective =>
    intro i j a hi hj
    -- an actual has one reason only to go anywhere, so both formals have the same one
    obtain hi | hi | ⟨k, hik, hak⟩ := hgives.1 hi <;> obtain hj | hj | ⟨l, hjl, hal⟩ := hgives.1 hj
    · exact hi.unique hj
    · exact absurd hi (hj.2.2.1 i hi.isOrdinary.1)
    · exact absurd hal (hi.not_untagged l)
    · exact absurd hj (hi.2.2.1 j hj.isOrdinary.1)
    · exact hi.unique hname hbegun hj
    · exact absurd hal (hi.not_untagged l)
    · exact absurd hak (hj.not_untagged k)
    · exact absurd hak (hj.not_untagged k)
    · obtain rfl : k = l := (List.getElem?_inj (List.getElem?_eq_some_iff.1 hak).1
        (nodup_untagged actuals)).1 (hak.trans hal.symm)
      exact Option.some.inj (hik.symm.trans hjl)
  case exact => exact fun hnames => hgives.2 (.inl hnames)
  case beginning => exact fun hbegins => hgives.2 (.inr (.inl hbegins))
  case positional =>
    intro k i hfree
    ext a
    rw [hgives]
    constructor
    · rintro (hnames | hbegins | ⟨l, hfree', huntagged⟩)
      · exact absurd hnames ((mem_free.1 (List.mem_of_getElem? hfree)).2 a hnames.lt_length).1
      · exact absurd hbegins ((mem_free.1 (List.mem_of_getElem? hfree)).2 a hbegins.lt_length).2
      · obtain rfl : k = l := (List.getElem?_inj (List.getElem?_eq_some_iff.1 hfree).1
          (nodup_free formals actuals)).1 (hfree.trans hfree'.symm)
        exact huntagged
    · exact fun huntagged => .inr (.inr ⟨k, hfree, huntagged⟩)
  case trailing =>
    intro i a hi hleading
    obtain hnames | hbegins | ⟨hfree, -⟩ := hsource hi
    · exact hnames
    · exact absurd hbegins.1 hleading
    · exact absurd (mem_free.1 hfree).1 hleading
  case source => exact hsource

end CallByNeed.Matching
