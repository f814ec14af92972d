import CallByNeed.Proofs.Matching.Faults
import CallByNeed.Proofs.Positions.Readings

/-!
# Matching by position

The three passes of argument matching keep tables: which actual each formal got,
which formals were named in full, and which actuals are taken.  The tables have
an entry for each formal or actual and are read and written by position.

A pairing says the same as the tables (`Tables.of`).  Each pass goes through the
tables as the pass on pairings goes through the pairing, so matching never
leaves a table and ends as it does with a pairing (`matchFormals_eq`).
-/

namespace CallByNeed.Positional

open Matching

variable {formals actuals : ArgList} {named pairs : Pairing} {α : Type}

/-- Write an entry, which must be there. -/
def write (xs : List α) (i : Nat) (a : α) : Option (List α) :=
  if i < xs.length then some (xs.set i a) else none

structure Tables where
  /-- The actual that each formal got. -/
  bound : List (Option Nat)
  /-- Which formals were named in full. -/
  exact : List Bool
  /-- Which actuals are taken. -/
  used : List Bool

namespace Tables

/-- The tables before the first pass. -/
def empty (formals actuals : ArgList) : Tables where
  bound := .replicate formals.length none
  exact := .replicate formals.length false
  used := .replicate actuals.length false

/-- Give an actual to a formal. -/
def give (t : Tables) (formal actual : Nat) : Option Tables := do
  return { t with
    bound := ← write t.bound formal (some actual)
    used := ← write t.used actual true }

end Tables

/-! ## The passes -/

def pairByName (formals : ArgList) : List (Arg Value × Nat) → Tables → ReadM EvalError Tables
  | [], t => return t
  | (actual, position) :: rest, t =>
    match actual.tag with
    | none => pairByName formals rest t
    | some tag =>
      match namedFormal? formals tag with
      | none => pairByName formals rest t
      | some formal => do
        if (← there t.bound[formal]?).isSome then throw (.multipleMatch tag)
        else
          let t ← there (t.give formal position)
          pairByName formals rest { t with exact := ← there (write t.exact formal true) }

/-- The formal at `i` with its name, if it was not named in full and `tag` begins its name. -/
def candidate (formals : ArgList) (t : Tables) (tag : Symbol) (i : Nat) :
    Option (Option (Symbol × Nat)) := do
  if ← t.exact[i]? then return none
  else
    match (← formals[i]?).tag with
    | some name => return if name.startsWith tag then some (name, i) else none
    | none => return none

/-- How many formals stand in front of the first `...`. -/
def leadingCount (formals : ArgList) : Nat := (ellipsisIndex? formals).getD formals.length

def candidates (formals : ArgList) (t : Tables) (tag : Symbol) : Option (List (Symbol × Nat)) := do
  return (← (List.range (leadingCount formals)).mapM (candidate formals t tag)).filterMap id

def pairByPrefix (formals : ArgList) : List (Arg Value × Nat) → Tables → ReadM EvalError Tables
  | [], t => return t
  | (actual, position) :: rest, t => do
    if ← there t.used[position]? then pairByPrefix formals rest t
    else
      match actual.tag with
      | none => pairByPrefix formals rest t
      | some tag =>
        match ← there (candidates formals t tag) with
        | [] => pairByPrefix formals rest t
        | [(name, formal)] =>
          if (← there t.bound[formal]?).isSome then throw (.multipleMatch name)
          else pairByPrefix formals rest (← there (t.give formal position))
        | several => throw (.partialMatchAmbiguous tag (several.map (·.1)))

/-- The formals at these positions that have no actual get the waiting ones, in order. -/
def pairByPosition : (formals waiting : List Nat) → Tables → Option Tables
  | [], _, t => some t
  | formal :: rest, waiting, t => do
    match ← t.bound[formal]?, waiting with
    | none, position :: later => pairByPosition rest later (← t.give formal position)
    | _, waiting => pairByPosition rest waiting t

/-- The actuals that are not taken, with their positions. -/
def leftover (actuals : ArgList) (t : Tables) : Option (List (Arg Value × Nat)) := do
  let marked ← actuals.zipIdx.mapM fun actual => do return (actual, ← t.used[actual.2]?)
  return marked.filterMap fun (actual, taken) => if taken then none else some actual

def fillAt (formals actuals : ArgList) (t : Tables) (collected : List (Arg Value × Nat))
    (populate : Bool) : Arg Value × Nat → ReadM EvalError (Arg Value)
  | (formal, i) => do
    if some i == ellipsisIndex? formals then
      return .new formal.tag (.dots (collected.map (·.1)))
    else
      match ← there t.bound[i]? with
      | some actual => return .new formal.tag (← there actuals[actual]?).value
      | none =>
        if !populate && formal.value.isMissingArg then
          throw (.unmatchedArgument (formal.tag.getD .missing))
        else return .new formal.tag .missingArg

/-- The three passes. -/
def pair (formals actuals : ArgList) : ReadM EvalError Tables := do
  let t ← pairByName formals actuals.zipIdx (.empty formals actuals)
  let t ← pairByPrefix formals actuals.zipIdx t
  let untaken ← there (leftover actuals t)
  let waiting := untaken.filter fun actual => actual.1.tag.isNone
  there (pairByPosition (List.range (leadingCount formals)) (waiting.map Prod.snd) t)

def matchFormals (formals actuals : ArgList) (populate : Bool) : ReadM EvalError ArgList := do
  let t ← pair formals actuals
  let collected ← there (leftover actuals t)
  match ellipsisIndex? formals, collected with
  | none, (_, position) :: _ =>
    throw (.unusedArgument (← there actuals[position]?).tag position)
  | _, _ => formals.zipIdx.mapM (fillAt formals actuals t collected populate)

/-! ## Tables and pairings -/

/-- What the tables say of a pairing, in which the pairs of `named` were found by the first pass. -/
def Tables.of (formals actuals : ArgList) (named pairs : Pairing) : Tables where
  bound := (List.range formals.length).map pairs.actualOf?
  exact := (List.range formals.length).map named.hasFormal
  used := (List.range actuals.length).map pairs.hasActual

theorem getElem?_map_range {f : Nat → α} {n i : Nat} (hi : i < n) :
    ((List.range n).map f)[i]? = some (f i) := by
  rw [List.getElem?_map, List.getElem?_range hi, Option.map_some]

theorem write_map_range {f g : Nat → α} {n i : Nat} {a : α} (hi : i < n)
    (hg : ∀ j, g j = if i = j then a else f j) :
    write ((List.range n).map f) i a = some ((List.range n).map g) := by
  rw [write, if_pos (by simpa using hi)]
  refine congrArg some (List.ext_getElem? fun j => ?_)
  by_cases hj : i = j
  · subst hj
    rw [List.getElem?_set_self (by simpa using hi), getElem?_map_range hi, hg, if_pos rfl]
  · rw [List.getElem?_set_ne hj]
    by_cases hjn : j < n
    · rw [getElem?_map_range hjn, getElem?_map_range hjn, hg, if_neg hj]
    · simp [hjn]

theorem actualOf?_cons (p : Pair) (i : Nat) :
    Pairing.actualOf? (p :: pairs) i =
      if p.formal = i then some p.actual else pairs.actualOf? i := by
  by_cases h : p.formal = i <;> simp [Pairing.actualOf?, h]

theorem isSome_actualOf? (i : Nat) : (pairs.actualOf? i).isSome = pairs.hasFormal i := by
  rw [Pairing.actualOf?, Option.isSome_map, List.isSome_find?, Pairing.hasFormal]

theorem hasFormal_cons (p : Pair) (i : Nat) :
    Pairing.hasFormal (p :: pairs) i = if p.formal = i then true else pairs.hasFormal i := by
  by_cases h : p.formal = i <;> simp [Pairing.hasFormal, h]

theorem hasActual_cons (p : Pair) (a : Nat) :
    Pairing.hasActual (p :: pairs) a = if p.actual = a then true else pairs.hasActual a := by
  by_cases h : p.actual = a <;> simp [Pairing.hasActual, h]

theorem Tables.empty_eq : Tables.empty formals actuals = .of formals actuals [] [] := by
  have hactual : Pairing.actualOf? [] = fun _ => none := rfl
  have hformal : Pairing.hasFormal [] = fun _ => false := rfl
  have htaken : Pairing.hasActual [] = fun _ => false := rfl
  simp [Tables.empty, Tables.of, hactual, hformal, htaken, List.map_const']

namespace Tables

theorem bound_of {i : Nat} (hi : i < formals.length) :
    (of formals actuals named pairs).bound[i]? = some (pairs.actualOf? i) :=
  getElem?_map_range hi

theorem exact_of {i : Nat} (hi : i < formals.length) :
    (of formals actuals named pairs).exact[i]? = some (named.hasFormal i) :=
  getElem?_map_range hi

theorem used_of {a : Nat} (ha : a < actuals.length) :
    (of formals actuals named pairs).used[a]? = some (pairs.hasActual a) :=
  getElem?_map_range ha

theorem give_eq (named pairs : Pairing) {p : Pair} (hformal : p.formal < formals.length)
    (hactual : p.actual < actuals.length) :
    (of formals actuals named pairs).give p.formal p.actual =
      some (of formals actuals named (p :: pairs)) := by
  simp only [give, of, write_map_range hformal (actualOf?_cons p),
    write_map_range hactual (hasActual_cons p), Option.bind_eq_bind, Option.bind_some]
  rfl

end Tables

/-! ## The passes on tables and on pairings -/

theorem lt_length_of_namedFormal? {tag : Symbol} {i : Nat} (h : namedFormal? formals tag = some i) :
    i < formals.length :=
  (namedFormal?_eq_some_iff.1 h).1.1

theorem pairByName_eq {rest : List (Arg Value × Nat)} (hrest : ∀ x ∈ rest, x.2 < actuals.length) :
    pairByName formals rest (.of formals actuals pairs pairs) =
      ends ((Matching.pairByName formals rest pairs).map fun p => .of formals actuals p p) := by
  fun_induction Matching.pairByName formals rest pairs with
  | case1 pairs => rfl
  | case2 actual position rest pairs htag ih =>
    simp only [pairByName, htag]
    exact ih fun x hx => hrest x (.tail _ hx)
  | case3 actual position rest pairs tag htag hname ih =>
    simp only [pairByName, htag, hname]
    exact ih fun x hx => hrest x (.tail _ hx)
  | case4 actual position rest pairs tag htag formal hname htaken =>
    have hformal := lt_length_of_namedFormal? hname
    simp only [pairByName, htag, hname, Tables.bound_of hformal, there_some, pure_bind,
      isSome_actualOf?, htaken, if_true]
    rfl
  | case5 actual position rest pairs tag htag formal hname hfree ih =>
    have hformal := lt_length_of_namedFormal? hname
    have hgive := Tables.give_eq pairs pairs
      (p := ⟨formal, position, actual.value⟩) hformal (hrest _ (.head _))
    have hexact := write_map_range hformal (@hasFormal_cons pairs
      ⟨formal, position, actual.value⟩)
    simp only [pairByName, htag, hname, Tables.bound_of hformal, there_some, pure_bind,
      isSome_actualOf?, hfree, hgive]
    simp only [Tables.of, hexact, there_some, pure_bind]
    exact ih fun x hx => hrest x (.tail _ hx)

theorem lt_length_of_mem_leading {formal : Arg Value} {i : Nat}
    (h : (formal, i) ∈ leading formals) : i < formals.length :=
  (mem_leading.1 h).2.1

theorem lt_length_of_mem_candidates {tag name : Symbol} {i : Nat}
    (h : (name, i) ∈ Matching.candidates formals named tag) : i < formals.length := by
  obtain ⟨formal, hformal, -⟩ := mem_candidates.1 h
  exact lt_length_of_mem_leading hformal

/-- The leading formals are those at the first positions. -/
theorem map_snd_leading (formals : ArgList) :
    (leading formals).map Prod.snd = List.range (leadingCount formals) := by
  have hall : formals.zipIdx.map Prod.snd = List.range formals.length := by
    rw [List.zipIdx_map_snd, List.range_eq_range']
  unfold leading leadingCount
  split
  · rename_i i hellipsis
    have hi := (List.findIdx?_eq_some_iff_getElem.1 hellipsis).1
    rw [hellipsis, List.map_take, hall, List.take_range, Option.getD_some,
      Nat.min_eq_left (Nat.le_of_lt hi)]
  · rename_i hellipsis
    rw [hellipsis, hall, Option.getD_none]

theorem candidates_eq (tag : Symbol) :
    candidates formals (.of formals actuals named pairs) tag =
      some (Matching.candidates formals named tag) := by
  unfold candidates
  rw [← map_snd_leading, List.mapM_map, mapM_eq_some_map (f := fun (formal, i) =>
    match formal.tag with
    | some name => if name.startsWith tag && !named.hasFormal i then some (name, i) else none
    | none => none)]
  · simp only [Option.bind_eq_bind, Option.bind_some, List.filterMap_map]
    rfl
  · rintro ⟨formal, i⟩ hmem
    have hformal := (mem_leading.1 hmem).1
    simp only [Function.comp_apply, candidate, Tables.exact_of (lt_length_of_mem_leading hmem),
      hformal, Option.bind_eq_bind, Option.bind_some]
    cases named.hasFormal i <;> cases formal.tag <;> simp

/-- The second pass comes to each argument once, so only the first one can have taken it then. -/
theorem pairByPrefix_eq {rest : List (Arg Value × Nat)} (hrest : ∀ x ∈ rest, x.2 < actuals.length)
    (hnodup : (rest.map Prod.snd).Nodup)
    (hused : ∀ x ∈ rest, pairs.hasActual x.2 = named.hasActual x.2) :
    pairByPrefix formals rest (.of formals actuals named pairs) =
      ends ((Matching.pairByPrefix formals named rest pairs).map
        fun p => .of formals actuals named p) := by
  fun_induction Matching.pairByPrefix formals named rest pairs with
  | case1 pairs => rfl
  | case2 actual position rest pairs htaken ih =>
    simp only [pairByPrefix, Tables.used_of (hrest _ (.head _)), there_some, pure_bind,
      hused _ (.head _), htaken, if_true]
    exact ih (fun x hx => hrest x (.tail _ hx)) (List.nodup_cons.1 hnodup).2
      fun x hx => hused x (.tail _ hx)
  | case3 actual position rest pairs hnew htag ih =>
    simp only [pairByPrefix, Tables.used_of (hrest _ (.head _)), there_some, pure_bind,
      hused _ (.head _), hnew, htag]
    exact ih (fun x hx => hrest x (.tail _ hx)) (List.nodup_cons.1 hnodup).2
      fun x hx => hused x (.tail _ hx)
  | case4 actual position rest pairs hnew tag htag hnone ih =>
    simp only [pairByPrefix, Tables.used_of (hrest _ (.head _)), there_some, pure_bind,
      hused _ (.head _), hnew, htag, candidates_eq, hnone]
    exact ih (fun x hx => hrest x (.tail _ hx)) (List.nodup_cons.1 hnodup).2
      fun x hx => hused x (.tail _ hx)
  | case5 actual position rest pairs hnew tag htag name formal hone htaken =>
    have hformal := lt_length_of_mem_candidates (hone ▸ List.mem_singleton_self _)
    simp only [pairByPrefix, Tables.used_of (hrest _ (.head _)), there_some, pure_bind,
      hused _ (.head _), hnew, htag, candidates_eq, hone, Tables.bound_of hformal,
      isSome_actualOf?, htaken, if_true]
    rfl
  | case6 actual position rest pairs hnew tag htag name formal hone hfree ih =>
    have hformal := lt_length_of_mem_candidates (hone ▸ List.mem_singleton_self _)
    have hgive := Tables.give_eq named pairs
      (p := ⟨formal, position, actual.value⟩) hformal (hrest _ (.head _))
    simp only [pairByPrefix, Tables.used_of (hrest _ (.head _)), there_some, pure_bind,
      hused _ (.head _), hnew, htag, candidates_eq, hone, Tables.bound_of hformal,
      isSome_actualOf?, hfree, hgive]
    obtain ⟨hother, hnodup⟩ := List.nodup_cons.1 hnodup
    refine ih (fun x hx => hrest x (.tail _ hx)) hnodup fun x hx => ?_
    have hne : position ≠ x.2 := fun he => hother (List.mem_map.2 ⟨x, hx, he.symm⟩)
    rw [hasActual_cons, if_neg hne, hused x (.tail _ hx)]
  | case7 actual position rest pairs hnew tag htag hnone hone =>
    simp only [pairByPrefix, Tables.used_of (hrest _ (.head _)), there_some, pure_bind,
      hused _ (.head _), hnew, htag, candidates_eq]
    rfl

/-- The pairs of formals and actuals that are next to each other. -/
def inOrder (formals actuals : List (Arg Value × Nat)) : Pairing :=
  (formals.zip actuals).map fun (formal, actual) => ⟨formal.2, actual.2, actual.1.value⟩

/-- The tables do not show the order of pairs of different formals. -/
theorem Tables.of_append_cons {new : Pairing} {p : Pair} (hne : ∀ q ∈ new, q.formal ≠ p.formal) :
    of formals actuals named (new ++ p :: pairs) =
      of formals actuals named (p :: (new ++ pairs)) := by
  have hbound : Pairing.actualOf? (new ++ p :: pairs) =
      Pairing.actualOf? (p :: (new ++ pairs)) := by
    induction new with
    | nil => rfl
    | cons q rest ih =>
      have hrest := ih fun q hq => hne q (.tail _ hq)
      funext i
      simp only [List.cons_append, actualOf?_cons, hrest]
      split
      · rename_i hq
        rw [if_neg fun hp => hne q (.head _) (hq.trans hp.symm)]
      · rfl
  have hused : Pairing.hasActual (new ++ p :: pairs) = Pairing.hasActual (p :: (new ++ pairs)) := by
    funext a
    simp only [Pairing.hasActual, List.any_append, List.any_cons, Bool.or_left_comm]
  simp only [of, hbound, hused]

theorem leftover_eq :
    leftover actuals (.of formals actuals named pairs) =
      some (Matching.leftover actuals pairs) := by
  unfold leftover
  rw [mapM_eq_some_map (f := fun actual => (actual, pairs.hasActual actual.2)) fun x hx => by
    rw [Tables.used_of (List.snd_lt_of_mem_zipIdx hx)]; rfl]
  simp only [Option.bind_eq_bind, Option.bind_some, List.filterMap_map, Matching.leftover,
    ← List.filterMap_eq_filter]
  refine congrArg some (congrArg (List.filterMap · actuals.zipIdx) (funext fun actual => ?_))
  cases htaken : pairs.hasActual actual.2 <;> simp [Option.guard, htaken]

theorem pairByPosition_eq {free waiting : List (Arg Value × Nat)}
    (hfree : ∀ x ∈ free, x.2 < formals.length) (hwaiting : ∀ x ∈ waiting, x.2 < actuals.length)
    (hnodup : (free.map Prod.snd).Nodup) :
    pairByPosition (free.map Prod.snd) (waiting.map Prod.snd) (.of formals actuals named pairs) =
      some (.of formals actuals named
        (inOrder (free.filter fun formal => !pairs.hasFormal formal.2) waiting ++ pairs)) := by
  induction free generalizing waiting pairs with
  | nil => rfl
  | cons formal rest ih =>
    obtain ⟨hother, hrest⟩ := List.nodup_cons.1 hnodup
    have hlater {x} (hx : x ∈ rest) : x.2 < formals.length := hfree x (.tail _ hx)
    have hbound : (Tables.of formals actuals named pairs).bound[formal.2]? =
        some (pairs.actualOf? formal.2) := Tables.bound_of (hfree formal (.head _))
    simp only [List.map_cons, pairByPosition, hbound, Option.bind_eq_bind, Option.bind_some]
    cases hactual : pairs.actualOf? formal.2 with
    | some a =>
      have htaken : pairs.hasFormal formal.2 = true := by rw [← isSome_actualOf?, hactual]; rfl
      rw [List.filter_cons_of_neg (by simp [htaken])]
      exact ih (fun x => hlater) hwaiting hrest
    | none =>
      have hnew : pairs.hasFormal formal.2 = false := by rw [← isSome_actualOf?, hactual]; rfl
      rw [List.filter_cons_of_pos (by simp [hnew])]
      cases waiting with
      | nil =>
        refine (ih (fun x => hlater) hwaiting hrest).trans ?_
        simp only [inOrder, List.zip_nil_right]
      | cons actual later =>
        have hgive := Tables.give_eq named pairs
          (p := ⟨formal.2, actual.2, actual.1.value⟩) (hfree formal (.head _))
          (hwaiting actual (.head _))
        simp only [List.map_cons, hgive, Option.bind_some]
        rw [ih (fun x => hlater) (fun x hx => hwaiting x (.tail _ hx)) hrest]
        -- the formal that was just served is none of those to come
        have hsame : (rest.filter fun formal' => !Pairing.hasFormal
            (⟨formal.2, actual.2, actual.1.value⟩ :: pairs) formal'.2) =
            rest.filter fun formal' => !pairs.hasFormal formal'.2 := by
          refine List.filter_congr fun x hx => ?_
          rw [hasFormal_cons, if_neg fun he => hother (List.mem_map.2 ⟨x, hx, he.symm⟩)]
        rw [hsame, Tables.of_append_cons]
        · rfl
        · intro q hq he
          obtain ⟨⟨x, y⟩, hxy, rfl⟩ := List.mem_map.1 hq
          exact hother (List.mem_map.2 ⟨x, List.mem_of_mem_filter (List.of_mem_zip hxy).1, he⟩)

theorem nodup_positions (actuals : ArgList) : (actuals.zipIdx.map Prod.snd).Nodup := by
  rw [List.zipIdx_map_snd]
  exact List.nodup_range'

theorem pair_of_error {e : EvalError} (h : Matching.pair formals actuals = .error e) :
    pair formals actuals = ends (.error e) := by
  have hpositions : ∀ x ∈ actuals.zipIdx, x.2 < actuals.length :=
    fun _ => List.snd_lt_of_mem_zipIdx
  have hdistinct := nodup_positions actuals
  unfold pair
  rw [Tables.empty_eq, pairByName_eq hpositions]
  obtain hname | ⟨named, hname, h⟩ := bind_eq_error_iff.1 h
  · rw [hname]
    rfl
  · rw [hname, Except.map, ends_ok, pure_bind, pairByPrefix_eq hpositions hdistinct fun _ _ => rfl]
    obtain hbegun | ⟨found, -, h⟩ := bind_eq_error_iff.1 h
    · rw [hbegun]
      rfl
    · cases h

theorem pair_of_ok (h : Matching.pair formals actuals = .ok pairs) :
    ∃ named, pair formals actuals = pure (.of formals actuals named pairs) := by
  have hpositions : ∀ x ∈ actuals.zipIdx, x.2 < actuals.length :=
    fun _ => List.snd_lt_of_mem_zipIdx
  have hdistinct := nodup_positions actuals
  obtain ⟨named, hname, h⟩ := bind_eq_ok_iff.1 h
  obtain ⟨found, hbegun, h⟩ := bind_eq_ok_iff.1 h
  cases h
  refine ⟨named, ?_⟩
  unfold pair
  rw [Tables.empty_eq, pairByName_eq hpositions, hname, Except.map, ends_ok, pure_bind,
    pairByPrefix_eq hpositions hdistinct fun _ _ => rfl, hbegun, Except.map, ends_ok, pure_bind,
    leftover_eq, there_some, pure_bind, ← map_snd_leading]
  have hleading : ((leading formals).map Prod.snd).Nodup := by
    rw [map_snd_leading]
    exact List.nodup_range
  dsimp only
  rw [pairByPosition_eq (fun _ hx => lt_length_of_mem_leading hx) (fun x hx => ?_) hleading,
    Matching.leftover, List.filter_filter]
  · rfl
  · exact hpositions x (List.mem_of_mem_filter (List.mem_of_mem_filter hx))

/-! ## Filling in by position -/

theorem fillAt_eq (hpairs : pairs.PassOn actuals) (populate : Bool) {formal : Arg Value} {i : Nat}
    (hi : i < formals.length) :
    fillAt formals actuals (.of formals actuals named pairs) (Matching.leftover actuals pairs)
        populate (formal, i) =
      ends (Matching.fillAt formals actuals pairs populate formal i) := by
  by_cases hellipsis : some i == ellipsisIndex? formals
  · simp only [fillAt, Matching.fillAt, hellipsis, if_true]
    rfl
  · simp only [fillAt, Matching.fillAt, hellipsis, Tables.bound_of hi, there_some, pure_bind,
      hpairs.valueOf?]
    cases hactual : pairs.actualOf? i with
    | none => cases !populate && formal.value.isMissingArg <;> rfl
    | some a =>
      obtain ⟨p, hp, rfl⟩ := Option.map_eq_some_iff.1 hactual
      obtain ⟨actual, hactual, hvalue⟩ :=
        Option.map_eq_some_iff.1 (hpairs p (List.mem_of_find?_eq_some hp))
      simp only [hactual, Option.bind_some, Option.map_some, there_some, pure_bind]
      rfl

/-- Matching with tables never leaves one, and ends as matching with a pairing does. -/
theorem matchFormals_eq (formals actuals : ArgList) (populate : Bool) :
    matchFormals formals actuals populate =
      ends (CallByNeed.matchFormals formals actuals populate) := by
  unfold matchFormals
  cases hpair : Matching.pair formals actuals with
  | error e =>
    rw [pair_of_error hpair, CallByNeed.matchFormals, hpair]
    rfl
  | ok pairs =>
    obtain ⟨named, hnamed⟩ := pair_of_ok hpair
    rw [hnamed, pure_bind, leftover_eq, there_some, pure_bind, matchFormals_of_pair hpair]
    have hfill :
        formals.zipIdx.mapM (fillAt formals actuals (.of formals actuals named pairs)
          (Matching.leftover actuals pairs) populate) =
        ends (fill formals actuals pairs populate) := by
      rw [fill_eq_mapM]
      exact mapM_ends fun x hx =>
        fillAt_eq (passOn_of_pair hpair) populate (List.snd_lt_of_mem_zipIdx hx)
    generalize hleft : Matching.leftover actuals pairs = left at hfill ⊢
    cases ellipsisIndex? formals with
    | some i => exact hfill
    | none =>
      cases left with
      | nil => exact hfill
      | cons actual later =>
        have hmem : actual ∈ Matching.leftover actuals pairs := hleft ▸ .head _
        have hactual := List.mem_zipIdx_iff_getElem?.1 (List.mem_of_mem_filter hmem)
        simp only [hactual, there_some, pure_bind]
        rfl

end CallByNeed.Positional
