import CallByNeed.Proofs.Failures

/-!
# What each pass pairs

A pass goes through the arguments from left to right and may fail at any of
them.  If it does not fail, the pairs it has found are those that it makes of
each argument on its own (`exactPair?`, `prefixPair?`), the latest first
(`pairByName_eq`, `pairByPrefix_eq`), and no formal is in two of them.
-/

namespace CallByNeed.Matching

variable {formals actuals : ArgList} {rest : List (Arg Value × Nat)} {named pairs found : Pairing}

/-! ## Pairs -/

theorem Pairing.hasFormal_iff {i : Nat} :
    pairs.hasFormal i = true ↔ i ∈ pairs.map Pair.formal := by
  simp [hasFormal]

theorem nodup_cons_of_hasFormal {p : Pair} (hnodup : (pairs.map Pair.formal).Nodup)
    (hfree : ¬ pairs.hasFormal p.formal = true) : ((p :: pairs).map Pair.formal).Nodup := by
  rw [Pairing.hasFormal_iff] at hfree
  exact List.nodup_cons.2 ⟨hfree, hnodup⟩

/-! ## Names in full -/

/-- The pair that the first pass makes of an argument. -/
def exactPair? (formals : ArgList) : Arg Value × Nat → Option Pair
  | (actual, position) => do
    let formal ← namedFormal? formals (← actual.tag)
    return ⟨formal, position, actual.value⟩

theorem exactPair?_eq_some_iff {actual : Arg Value} {position : Nat} {p : Pair} :
    exactPair? formals (actual, position) = some p ↔
      ∃ tag, actual.tag = some tag ∧ namedFormal? formals tag = some p.formal ∧
        p.actual = position ∧ p.value = actual.value := by
  obtain ⟨formal, a, value⟩ := p
  simp only [exactPair?, Option.bind_eq_bind, Option.bind_eq_some_iff, Option.pure_def,
    Option.some.injEq, Pair.mk.injEq]
  constructor
  · rintro ⟨tag, htag, i, hi, rfl, rfl, rfl⟩
    exact ⟨tag, htag, hi, rfl, rfl⟩
  · rintro ⟨tag, htag, hi, rfl, rfl⟩
    exact ⟨tag, htag, formal, hi, rfl, rfl, rfl⟩

theorem pairByName_eq (h : pairByName formals rest pairs = .ok named) :
    named = (rest.filterMap (exactPair? formals)).reverse ++ pairs := by
  fun_induction pairByName formals rest pairs with
  | case1 pairs =>
    cases h
    rfl
  | case2 actual position rest pairs htag ih =>
    rw [ih h]
    simp [exactPair?, htag]
  | case3 actual position rest pairs tag htag hname ih =>
    rw [ih h]
    simp [exactPair?, htag, hname]
  | case4 actual position rest pairs tag htag formal hname htaken => cases h
  | case5 actual position rest pairs tag htag formal hname hfree ih =>
    rw [ih h]
    simp [exactPair?, htag, hname]

theorem nodup_pairByName (h : pairByName formals rest pairs = .ok named)
    (hnodup : (pairs.map Pair.formal).Nodup) : (named.map Pair.formal).Nodup := by
  fun_induction pairByName formals rest pairs with
  | case1 pairs =>
    cases h
    exact hnodup
  | case2 actual position rest pairs htag ih => exact ih h hnodup
  | case3 actual position rest pairs tag htag hname ih => exact ih h hnodup
  | case4 actual position rest pairs tag htag formal hname htaken => cases h
  | case5 actual position rest pairs tag htag formal hname hfree ih =>
    exact ih h (nodup_cons_of_hasFormal hnodup hfree)

/-! ## Beginnings of names -/

theorem mem_candidates {tag name : Symbol} {i : Nat} :
    (name, i) ∈ candidates formals named tag ↔
      ∃ formal, (formal, i) ∈ leading formals ∧ formal.tag = some name ∧
        name.startsWith tag = true ∧ named.hasFormal i = false := by
  simp only [candidates, List.mem_filterMap, Prod.exists]
  constructor
  · rintro ⟨formal, j, hmem, hsome⟩
    split at hsome
    · rename_i found hname
      split at hsome
      · rename_i hfits
        cases hsome
        simp only [Bool.and_eq_true, Bool.not_eq_true'] at hfits
        exact ⟨formal, hmem, hname, hfits⟩
      · cases hsome
    · cases hsome
  · rintro ⟨formal, hmem, hname, hstarts, hfree⟩
    exact ⟨formal, i, hmem, by simp [hname, hstarts, hfree]⟩

/-- The pair that the second pass makes of an argument. -/
def prefixPair? (formals : ArgList) (named : Pairing) : Arg Value × Nat → Option Pair
  | (actual, position) =>
    if named.hasActual position then none
    else
      match actual.tag.map (candidates formals named) with
      | some [(_, formal)] => some ⟨formal, position, actual.value⟩
      | _ => none

theorem prefixPair?_eq_some_iff {actual : Arg Value} {position : Nat} {p : Pair} :
    prefixPair? formals named (actual, position) = some p ↔
      named.hasActual position = false ∧
        ∃ tag name, actual.tag = some tag ∧ candidates formals named tag = [(name, p.formal)] ∧
          p.actual = position ∧ p.value = actual.value := by
  obtain ⟨formal, a, value⟩ := p
  by_cases hused : named.hasActual position = true
  · simp [prefixPair?, hused]
  · have hnew : named.hasActual position = false := by simpa using hused
    simp only [prefixPair?, hnew, Bool.false_eq_true, if_false, true_and]
    constructor
    · intro h
      split at h
      · rename_i name i hcandidates
        cases h
        obtain ⟨tag, htag, hone⟩ := Option.map_eq_some_iff.1 hcandidates
        exact ⟨tag, name, htag, hone, rfl, rfl⟩
      · cases h
    · rintro ⟨tag, name, htag, hone, rfl, rfl⟩
      simp [htag, hone]

theorem pairByPrefix_eq (h : pairByPrefix formals named rest pairs = .ok found) :
    found = (rest.filterMap (prefixPair? formals named)).reverse ++ pairs := by
  fun_induction pairByPrefix formals named rest pairs with
  | case1 pairs =>
    cases h
    rfl
  | case2 actual position rest pairs hused ih =>
    rw [ih h]
    simp [prefixPair?, hused]
  | case3 actual position rest pairs hnew htag ih =>
    rw [ih h]
    simp [prefixPair?, htag]
  | case4 actual position rest pairs hnew tag htag hnone ih =>
    rw [ih h]
    simp [prefixPair?, htag, hnone]
  | case5 actual position rest pairs hnew tag htag name formal hone htaken => cases h
  | case6 actual position rest pairs hnew tag htag name formal hone hfree ih =>
    rw [ih h]
    simp [prefixPair?, hnew, htag, hone]
  | case7 => cases h

theorem nodup_pairByPrefix (h : pairByPrefix formals named rest pairs = .ok found)
    (hnodup : (pairs.map Pair.formal).Nodup) : (found.map Pair.formal).Nodup := by
  fun_induction pairByPrefix formals named rest pairs with
  | case1 pairs =>
    cases h
    exact hnodup
  | case2 actual position rest pairs hused ih => exact ih h hnodup
  | case3 actual position rest pairs hnew htag ih => exact ih h hnodup
  | case4 actual position rest pairs hnew tag htag hnone ih => exact ih h hnodup
  | case5 actual position rest pairs hnew tag htag name formal hone htaken => cases h
  | case6 actual position rest pairs hnew tag htag name formal hone hfree ih =>
    exact ih h (nodup_cons_of_hasFormal hnodup hfree)
  | case7 => cases h

/-- An argument that begins the names of several formals makes the second pass fail. -/
theorem eq_of_mem_candidates (h : pairByPrefix formals named rest pairs = .ok found)
    {actual : Arg Value} {position : Nat} (hmem : (actual, position) ∈ rest)
    (hnew : named.hasActual position = false) {tag : Symbol} (htag : actual.tag = some tag)
    {candidate : Symbol × Nat} (hcandidate : candidate ∈ candidates formals named tag) :
    candidates formals named tag = [candidate] := by
  fun_induction pairByPrefix formals named rest pairs with
  | case1 pairs => cases hmem
  | case2 other place rest pairs hused ih =>
    obtain hhead | hrest := List.mem_cons.1 hmem
    · cases hhead
      simp [hused] at hnew
    · exact ih h hrest
  | case3 other place rest pairs hother hnone ih =>
    obtain hhead | hrest := List.mem_cons.1 hmem
    · cases hhead
      simp [hnone] at htag
    · exact ih h hrest
  | case4 other place rest pairs hother otherTag hotherTag hnone ih =>
    obtain hhead | hrest := List.mem_cons.1 hmem
    · cases hhead
      obtain rfl : otherTag = tag := by simpa [hotherTag] using htag
      simp [hnone] at hcandidate
    · exact ih h hrest
  | case5 other place rest pairs hother otherTag hotherTag name formal hone htaken => cases h
  -- the only case that goes on with candidates at all has exactly one
  | case6 other place rest pairs hother otherTag hotherTag name formal hone hfree ih =>
    obtain hhead | hrest := List.mem_cons.1 hmem
    · cases hhead
      obtain rfl : otherTag = tag := by simpa [hotherTag] using htag
      rw [hone] at hcandidate ⊢
      rw [List.mem_singleton.1 hcandidate]
    · exact ih h hrest
  | case7 => cases h

end CallByNeed.Matching
