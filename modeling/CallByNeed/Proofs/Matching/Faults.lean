import CallByNeed.Proofs.Matching.Assignment

/-!
# When matching fails

Every stage of matching goes through its items in order and reports the first one
it cannot deal with, and a stage begins only if the one before has nothing to
report.  `Fault` lists the reports with the conditions under which they are made,
`Faultless` says that there is none, and both are exact
(`matchFormals_fails_exactly`).

What carries this is `foldlM_error_iff`: if one knows what a step reports after the
steps before it have succeeded, one knows what the loop reports.
-/

namespace CallByNeed.Matching

/-! ## The first report of a loop -/

section Loops

variable {σ α β ε : Type} {f : σ → α → Except ε σ} {s : σ} {e : ε} {items : List α}
  {Reports : Nat → ε → Prop}

/-- After the steps before it have succeeded, the step at position `a` fails with `e` if and only if
    `Reports a e`. -/
def StepReports (f : σ → α → Except ε σ) (s : σ) (items : List α) (Reports : Nat → ε → Prop) :
    Prop :=
  ∀ {a item t e}, items[a]? = some item → (items.take a).foldlM f s = .ok t →
    (f t item = .error e ↔ Reports a e)

theorem StepReports.head {item : α} (h : StepReports f s (item :: items) Reports) :
    f s item = .error e ↔ Reports 0 e :=
  h (List.getElem?_cons_zero) rfl

theorem StepReports.tail {item : α} {t : σ} (h : StepReports f s (item :: items) Reports)
    (ht : f s item = .ok t) : StepReports f t items fun a => Reports (a + 1) := by
  intro a next t' e hnext hbefore
  refine h (List.getElem?_cons_succ.trans hnext) ?_
  rw [List.take_succ_cons, List.foldlM_cons, ht]
  exact hbefore

/-- Either the loop succeeds and no position has a report, or it fails with the report of the first
    position that has one. -/
theorem foldlM_cases (h : StepReports f s items Reports) :
    (∃ t, items.foldlM f s = .ok t) ∧ (∀ a < items.length, ∀ e, ¬ Reports a e) ∨
      (∃ e, items.foldlM f s = .error e) ∧ ∃ a < items.length,
        (∀ e, items.foldlM f s = .error e ↔ Reports a e) ∧ ∀ b < a, ∀ e, ¬ Reports b e := by
  induction items generalizing s Reports with
  | nil => exact .inl ⟨⟨s, rfl⟩, by simp⟩
  | cons item rest ih =>
    rw [List.foldlM_cons]
    cases hitem : f s item with
    | error e =>
      refine .inr ⟨⟨e, rfl⟩, 0, by simp, fun e' => ?_, by simp⟩
      rw [← h.head, hitem]
      rfl
    -- the reports about the rest are those of the loop that starts from `t`, moved by one
    | ok t =>
      have hnone (e : ε) : ¬ Reports 0 e := by
        rw [← h.head, hitem]
        exact nofun
      obtain ⟨hok, hrest⟩ | ⟨herror, a, ha, hreports, hfirst⟩ := ih (h.tail hitem)
      · refine .inl ⟨hok, fun a ha => ?_⟩
        cases a with
        | zero => exact hnone
        | succ a => exact hrest a (Nat.lt_of_succ_lt_succ ha)
      · refine .inr ⟨herror, a + 1, Nat.succ_lt_succ ha, hreports, fun b hb => ?_⟩
        cases b with
        | zero => exact hnone
        | succ b => exact hfirst b (Nat.lt_of_succ_lt_succ hb)

theorem foldlM_ok_iff (h : StepReports f s items Reports) :
    (∃ t, items.foldlM f s = .ok t) ↔ ∀ a < items.length, ∀ e, ¬ Reports a e := by
  obtain ⟨hok, hnone⟩ | ⟨⟨e, herror⟩, a, ha, hreports, -⟩ := foldlM_cases h
  · exact iff_of_true hok hnone
  · refine iff_of_false ?_ fun hnone => hnone a ha e ((hreports e).1 herror)
    rw [herror]
    exact nofun

theorem foldlM_error_iff (h : StepReports f s items Reports) :
    items.foldlM f s = .error e ↔
      ∃ a < items.length, Reports a e ∧ ∀ b < a, ∀ e', ¬ Reports b e' := by
  obtain ⟨⟨t, hok⟩, hnone⟩ | ⟨⟨e₀, herror⟩, a, ha, hreports, hfirst⟩ := foldlM_cases h
  · refine iff_of_false (by rw [hok]; exact nofun) ?_
    rintro ⟨a, ha, he, -⟩
    exact hnone a ha e he
  · rw [hreports]
    constructor
    · exact fun he => ⟨a, ha, he, hfirst⟩
    · rintro ⟨a', -, he, hfirst'⟩
      have hle : ¬ a' < a := fun hlt => hfirst a' hlt e he
      have hge : ¬ a < a' := fun hlt => hfirst' a hlt e₀ ((hreports e₀).1 herror)
      obtain rfl : a' = a := by omega
      exact he

theorem bind_eq_error_iff {x : Except ε α} {g : α → Except ε β} :
    x >>= g = .error e ↔ x = .error e ∨ ∃ a, x = .ok a ∧ g a = .error e := by
  cases x <;> simp [bind, Except.bind]

theorem ok_iff_forall_ne_error {x : Except ε β} : (∃ b, x = .ok b) ↔ ∀ e, x ≠ .error e := by
  cases x <;> simp

theorem mapM_ok_iff {g : α → Except ε β} :
    (∃ results, items.mapM g = .ok results) ↔ ∀ item ∈ items, ∃ b, g item = .ok b := by
  induction items with
  | nil => simp [pure, Except.pure]
  | cons item rest ih =>
    simp only [List.mapM_cons, bind_eq_ok_iff, List.forall_mem_cons, ← ih]
    constructor
    · rintro ⟨results, b, hb, bs, hbs, -⟩
      exact ⟨⟨b, hb⟩, bs, hbs⟩
    · rintro ⟨⟨b, hb⟩, bs, hbs⟩
      exact ⟨b :: bs, b, hb, bs, hbs, rfl⟩

theorem mapM_error_iff {g : α → Except ε β} :
    items.mapM g = .error e ↔
      ∃ (a : Nat) (item : α), items[a]? = some item ∧ g item = .error e ∧
        ∀ b < a, ∀ other, items[b]? = some other → ∃ result, g other = .ok result := by
  induction items with
  | nil => simp [pure, Except.pure]
  | cons item rest ih =>
    rw [List.mapM_cons]
    cases hitem : g item with
    | error e₀ =>
      change Except.error e₀ = .error e ↔ _
      rw [Except.error.injEq]
      constructor
      · rintro rfl
        exact ⟨0, item, rfl, hitem, nofun⟩
      · rintro ⟨a, other, hother, he, hbefore⟩
        cases a with
        | zero =>
          cases hother
          exact Except.error.inj (hitem.symm.trans he)
        | succ a =>
          obtain ⟨result, hok⟩ := hbefore 0 (Nat.succ_pos a) item rfl
          cases hitem.symm.trans hok
    -- the first item went through, so the positions of the rest are one further on
    | ok result =>
      have hrest : (do
          let results ← rest.mapM g
          pure (result :: results)) = .error e ↔ rest.mapM g = .error e := by
        cases rest.mapM g <;> simp [bind, Except.bind, pure, Except.pure]
      refine hrest.trans (ih.trans ?_)
      constructor
      · rintro ⟨a, other, hother, he, hbefore⟩
        refine ⟨a + 1, other, hother, he, fun b hb next hnext => ?_⟩
        cases b with
        | zero =>
          cases hnext
          exact ⟨result, hitem⟩
        | succ b => exact hbefore b (Nat.lt_of_succ_lt_succ hb) next hnext
      · rintro ⟨a, other, hother, he, hbefore⟩
        cases a with
        | zero =>
          cases hother
          cases hitem.symm.trans he
        | succ a =>
          exact ⟨a, other, hother, he, fun b hb => hbefore (b + 1) (Nat.succ_lt_succ hb)⟩

end Loops

section Specification

variable (formals actuals : ArgList)

/-- The positions of the formals whose names the actual at `a` begins, in ascending order. -/
def begun (a : Nat) : List Nat :=
  (List.range formals.length).filter (Begins formals actuals a ·)

/-- The actual at `a` names a formal that an earlier one names, too. -/
def RepeatsName (a : Nat) : Prop :=
  ∃ i < formals.length, Names formals actuals a i ∧ ∃ b < a, Names formals actuals b i

/-- The actual at `a` begins the names of several formals. -/
def IsAmbiguous (a : Nat) : Prop := 2 ≤ (begun formals actuals a).length

/-- The actual at `a` begins the name of one formal only, and so does an earlier one. -/
def RepeatsBeginning (a i : Nat) : Prop :=
  begun formals actuals a = [i] ∧ ∃ b < a, begun formals actuals b = [i]

/-- The names that the actual at `a` begins do not settle where it goes. -/
def IsStuck (a : Nat) : Prop :=
  IsAmbiguous formals actuals a ∨ ∃ i, RepeatsBeginning formals actuals a i

/-- The formal at `i` receives the actual at `a`: it is named in full, or its name is begun, or both
    are in the same place among what is left for the actuals without tag. -/
def Receives (i a : Nat) : Prop :=
  Names formals actuals a i ∨ Begins formals actuals a i ∨
    (i, a) ∈ (free formals actuals).zip (untagged actuals)

/-- No formal receives the actual at `a`. -/
def IsLeftOver (a : Nat) : Prop :=
  a < actuals.length ∧ ∀ i < formals.length, ¬ Receives formals actuals i a

/-- The ordinary formal at `i` receives no actual and has no default. -/
def IsUnsupplied (i : Nat) : Prop :=
  IsOrdinary formals i ∧ (∀ a < actuals.length, ¬ Receives formals actuals i a) ∧
    ∃ formal ∈ formals[i]?, formal.value.isMissingArg = true

/-- No formal is named in full twice. -/
def NamesOnce : Prop := ∀ a < actuals.length, ¬ RepeatsName formals actuals a

/-- Every actual that begins the name of a formal begins that name only, and no other does. -/
def BeginsOnce : Prop :=
  ∀ a < actuals.length, ¬ IsStuck formals actuals a

/-- Without `...`, every actual is received. -/
def UsesAll : Prop :=
  (∃ i, IsEllipsis formals i) ∨ ∀ a, ¬ IsLeftOver formals actuals a

/-- What matching reports. -/
inductive Fault (populate : Bool) : EvalError → Prop where
  /-- The first actual that repeats a name. -/
  | repeatedName {a : Nat} {tag : Symbol}
      (here : RepeatsName formals actuals a) (first : ∀ b < a, ¬ RepeatsName formals actuals b)
      (tagged : tagAt actuals a = some tag) :
      Fault populate (.multipleMatch tag)
  /-- The first actual for which the names it begins settle nothing, if it begins several. -/
  | ambiguous {a : Nat} {tag : Symbol} (names : NamesOnce formals actuals)
      (here : IsAmbiguous formals actuals a)
      (first : ∀ b < a, ¬ IsStuck formals actuals b)
      (tagged : tagAt actuals a = some tag) :
      Fault populate
        (.partialMatchAmbiguous tag ((begun formals actuals a).filterMap (tagAt formals)))
  /-- The same, if it begins one name only and an earlier actual has taken that. -/
  | repeatedBeginning {a i : Nat} {name : Symbol} (names : NamesOnce formals actuals)
      (here : RepeatsBeginning formals actuals a i)
      (first : ∀ b < a, ¬ IsStuck formals actuals b)
      (named : tagAt formals i = some name) :
      Fault populate (.multipleMatch name)
  /-- Without `...`, the first actual that is left over. -/
  | unused {a : Nat} (names : NamesOnce formals actuals) (beginnings : BeginsOnce formals actuals)
      (closed : ∀ i, ¬ IsEllipsis formals i) (here : IsLeftOver formals actuals a)
      (first : ∀ b < a, ¬ IsLeftOver formals actuals b) :
      Fault populate (.unusedArgument (tagAt actuals a) a)
  /-- The first formal that gets nothing and has no default, unless such formals are to be populated
      with the missing sentinel. -/
  | unmatched {i : Nat} (names : NamesOnce formals actuals)
      (beginnings : BeginsOnce formals actuals) (uses : UsesAll formals actuals)
      (strict : populate = false) (here : IsUnsupplied formals actuals i)
      (first : ∀ j < i, ¬ IsUnsupplied formals actuals j) :
      Fault populate (.unmatchedArgument ((tagAt formals i).getD .missing))

/-- Matching has nothing to report. -/
structure Faultless (populate : Bool) : Prop where
  names : NamesOnce formals actuals
  beginnings : BeginsOnce formals actuals
  uses : UsesAll formals actuals
  supplies : populate = false → ∀ i, ¬ IsUnsupplied formals actuals i

end Specification

variable {formals actuals : ArgList} {rest : List (Arg Value × Nat)} {named pairs found : Pairing}
  {i a b : Nat} {tag : Symbol} {populate : Bool} {e : EvalError}

theorem mem_begun : i ∈ begun formals actuals a ↔ Begins formals actuals a i := by
  simp only [begun, List.mem_filter, List.mem_range, decide_eq_true_eq]
  exact ⟨And.right, fun h => ⟨h.1.1, h⟩⟩

theorem IsAmbiguous.begins (h : IsAmbiguous formals actuals a) :
    ∃ i, Begins formals actuals a i := by
  obtain ⟨i, hmem⟩ := List.exists_mem_of_length_pos (Nat.lt_of_lt_of_le Nat.two_pos h)
  exact ⟨i, mem_begun.1 hmem⟩

theorem RepeatsBeginning.begins (h : RepeatsBeginning formals actuals a i) :
    Begins formals actuals a i :=
  mem_begun.1 (by simp [h.1])

/-! ## The first pass -/

theorem pairByName_cons {actual : Arg Value × Nat} :
    pairByName formals (actual :: rest) pairs =
      pairByName formals [actual] pairs >>= pairByName formals rest := by
  obtain ⟨actual, position⟩ := actual
  unfold pairByName
  split
  · rfl
  · split
    · rfl
    · split <;> rfl

theorem pairByName_eq_foldlM :
    pairByName formals rest pairs =
      rest.foldlM (fun pairs actual => pairByName formals [actual] pairs) pairs := by
  induction rest generalizing pairs with
  | nil => rfl
  | cons actual rest ih =>
    rw [pairByName_cons, List.foldlM_cons]
    exact bind_congr fun pairs => ih

theorem pairByName_singleton_error_iff {actual : Arg Value} :
    pairByName formals [(actual, a)] pairs = .error e ↔
      ∃ tag i, actual.tag = some tag ∧ IsFirstNamed formals tag i ∧ pairs.hasFormal i = true ∧
        e = .multipleMatch tag := by
  simp only [← namedFormal?_eq_some_iff]
  unfold pairByName
  split
  · rename_i htag
    simp [pairByName, htag]
  · rename_i tag htag
    split
    · rename_i hname
      simp [pairByName, htag, hname]
    · rename_i i hname
      split
      · rename_i htaken
        simpa [htag, hname, htaken] using eq_comm
      · rename_i hfree
        simp [pairByName, htag, hname, hfree]

theorem names_take_iff :
    Names formals (actuals.take a) b i ↔ b < a ∧ Names formals actuals b i := by
  by_cases hb : b < a
  · simp [Names, tagAt, hb]
  · simp [Names, tagAt, hb]

theorem take_zipIdx {α : Type} (items : List α) (n : Nat) :
    items.zipIdx.take n = (items.take n).zipIdx := by
  refine List.ext_getElem? fun i => ?_
  simp only [List.getElem?_take, List.getElem?_zipIdx]
  split <;> simp

theorem stepReports_pairByName :
    StepReports (fun pairs actual => pairByName formals [actual] pairs) [] actuals.zipIdx
      fun a e =>
        RepeatsName formals actuals a ∧ ∃ tag ∈ tagAt actuals a, e = .multipleMatch tag := by
  intro a item t e hitem hbefore
  obtain ⟨actual, position⟩ := item
  obtain ⟨hactual, hposition⟩ : actuals[a]? = some actual ∧ position = a := by
    simpa [List.getElem?_zipIdx, eq_comm] using hitem
  subst hposition
  -- the formals taken before are those that earlier actuals name
  rw [← pairByName_eq_foldlM, take_zipIdx] at hbefore
  simp only [pairByName_singleton_error_iff, Pairing.hasFormal_iff_gives,
    gives_of_pairByName hbefore, names_take_iff, RepeatsName, tagAt_of_getElem? hactual]
  constructor
  · rintro ⟨tag, i, htag, hfirst, hearlier, rfl⟩
    have hnames : Names formals actuals position i :=
      ⟨tag, (tagAt_of_getElem? hactual).trans htag, hfirst⟩
    exact ⟨⟨i, hfirst.1.1, hnames, hearlier⟩, tag, htag, rfl⟩
  · rintro ⟨⟨i, -, ⟨tag, htag, hfirst⟩, hearlier⟩, other, hother, rfl⟩
    have htag := (tagAt_of_getElem? hactual).symm.trans htag
    obtain rfl : tag = other := Option.some.inj (htag.symm.trans hother)
    exact ⟨tag, i, htag, hfirst, hearlier, rfl⟩

theorem pairByName_ok_iff :
    (∃ named, pairByName formals actuals.zipIdx [] = .ok named) ↔ NamesOnce formals actuals := by
  rw [pairByName_eq_foldlM, foldlM_ok_iff stepReports_pairByName, List.length_zipIdx]
  refine forall₂_congr fun a _ => ⟨fun hnone hrepeats => ?_, fun hnone e h => hnone h.1⟩
  obtain ⟨i, -, ⟨tag, htag, -⟩, -⟩ := id hrepeats
  exact hnone _ ⟨hrepeats, tag, htag, rfl⟩

theorem pairByName_error_iff :
    pairByName formals actuals.zipIdx [] = .error e ↔
      ∃ a tag, RepeatsName formals actuals a ∧ (∀ b < a, ¬ RepeatsName formals actuals b) ∧
        tagAt actuals a = some tag ∧ e = .multipleMatch tag := by
  rw [pairByName_eq_foldlM, foldlM_error_iff stepReports_pairByName, List.length_zipIdx]
  constructor
  · rintro ⟨a, ha, ⟨hrepeats, tag, htag, rfl⟩, hfirst⟩
    refine ⟨a, tag, hrepeats, fun b hb hrepeats => ?_, htag, rfl⟩
    obtain ⟨i, -, ⟨tag, htag, -⟩, -⟩ := id hrepeats
    exact hfirst b hb _ ⟨hrepeats, tag, htag, rfl⟩
  · rintro ⟨a, tag, hrepeats, hfirst, htag, rfl⟩
    exact ⟨a, lt_length_of_tagAt htag, ⟨hrepeats, tag, htag, rfl⟩,
      fun b hb e' h => hfirst b hb h.1⟩

/-! ## The second pass -/

theorem pairByPrefix_cons {actual : Arg Value × Nat} :
    pairByPrefix formals named (actual :: rest) pairs =
      pairByPrefix formals named [actual] pairs >>= pairByPrefix formals named rest := by
  obtain ⟨actual, position⟩ := actual
  unfold pairByPrefix
  split
  · rfl
  · split
    · rfl
    · split
      · rfl
      · split <;> rfl
      · rfl

theorem pairByPrefix_eq_foldlM :
    pairByPrefix formals named rest pairs =
      rest.foldlM (fun pairs actual => pairByPrefix formals named [actual] pairs) pairs := by
  induction rest generalizing pairs with
  | nil => rfl
  | cons actual rest ih =>
    rw [pairByPrefix_cons, List.foldlM_cons]
    exact bind_congr fun pairs => ih

theorem pairByPrefix_singleton_error_iff {actual : Arg Value} :
    pairByPrefix formals named [(actual, a)] pairs = .error e ↔
      named.hasActual a = false ∧ ∃ tag, actual.tag = some tag ∧
        ((2 ≤ (candidates formals named tag).length ∧
            e = .partialMatchAmbiguous tag ((candidates formals named tag).map (·.1))) ∨
          ∃ name i, candidates formals named tag = [(name, i)] ∧ pairs.hasFormal i = true ∧
            e = .multipleMatch name) := by
  unfold pairByPrefix
  split
  · rename_i hused
    simp [pairByPrefix, hused]
  · rename_i hnew
    split
    · rename_i htag
      simp [pairByPrefix, htag]
    · rename_i tag htag
      split
      · rename_i hnone
        simp [pairByPrefix, htag, hnone]
      · rename_i name i hone
        split
        · rename_i htaken
          simpa [hnew, htag, hone, htaken] using eq_comm
        · rename_i hfree
          simp [pairByPrefix, htag, hone, hfree]
      · -- the last alternative of the match says only what the list is not
        rename_i several hnil hsingle
        have hlength : 2 ≤ (candidates formals named tag).length := by
          rcases hlist : candidates formals named tag with _ | ⟨⟨name, i⟩, _ | ⟨_, _⟩⟩
          · exact absurd hlist hnil
          · exact absurd hlist (hsingle name i)
          · simp
        have hnone (name : Symbol) (i : Nat) : candidates formals named tag ≠ [(name, i)] :=
          hsingle name i
        simpa [hnew, htag, hlength, hnone] using eq_comm

theorem pairwise_candidates :
    (candidates formals named tag).Pairwise fun x y => x.2 < y.2 := by
  refine (pairwise_leading formals).filterMap _ ?_
  rintro ⟨first, i⟩ ⟨second, j⟩ hlt c hc d hd
  dsimp only at hc hd
  -- a candidate keeps the position of its formal
  obtain rfl : c.2 = i := by
    split at hc
    · obtain ⟨-, hc⟩ := Option.ite_none_right_eq_some.1 hc
      cases hc
      rfl
    · cases hc
  obtain rfl : d.2 = j := by
    split at hd
    · obtain ⟨-, hd⟩ := Option.ite_none_right_eq_some.1 hd
      cases hd
      rfl
    · cases hd
  exact hlt

/-- The candidates of an actual that names no formal are the formals that it begins, in order. -/
theorem map_snd_candidates (hname : pairByName formals actuals.zipIdx [] = .ok named)
    {actual : Arg Value} (hactual : actuals[a]? = some actual) (htag : actual.tag = some tag)
    (hnew : named.hasActual a = false) :
    (candidates formals named tag).map Prod.snd = begun formals actuals a := by
  refine List.Pairwise.eq_of_mem_iff (r := (· < ·)) (List.pairwise_map.2 pairwise_candidates)
    (List.pairwise_lt_range.filter _) fun i => ?_
  simp only [List.mem_map, Prod.exists, exists_eq_right,
    mem_candidates_iff_begins hname hactual htag hnew, mem_begun]

theorem map_fst_candidates (hname : pairByName formals actuals.zipIdx [] = .ok named)
    {actual : Arg Value} (hactual : actuals[a]? = some actual) (htag : actual.tag = some tag)
    (hnew : named.hasActual a = false) :
    (candidates formals named tag).map Prod.fst =
      (begun formals actuals a).filterMap (tagAt formals) := by
  rw [← map_snd_candidates hname hactual htag hnew, List.filterMap_map, ← List.filterMap_eq_map]
  refine List.filterMap_congr fun (name, i) hmem => ?_
  obtain ⟨formal, hformal, hname, -⟩ := mem_candidates.1 hmem
  exact (tagAt_eq_some_iff.2 ⟨formal, (mem_leading.1 hformal).1, hname⟩).symm

/-- Only an actual that the second pass looks at begins anything. -/
theorem not_hasActual_of_mem_begun (hname : pairByName formals actuals.zipIdx [] = .ok named)
    (hmem : i ∈ begun formals actuals a) :
    named.hasActual a = false ∧
      ∃ actual tag, actuals[a]? = some actual ∧ actual.tag = some tag := by
  obtain ⟨-, ⟨tag, htag, -⟩, hunnamed, -⟩ := mem_begun.1 hmem
  obtain ⟨actual, hactual, htag⟩ := tagAt_eq_some_iff.1 htag
  refine ⟨?_, actual, tag, hactual, htag⟩
  rw [Bool.eq_false_iff, ne_eq, Pairing.hasActual_iff_gives]
  rintro ⟨j, hj⟩
  have hnames := (gives_of_pairByName hname).1 hj
  exact hunnamed j hnames.isOrdinary.1 hnames

theorem prefixPair?_iff_begun (hname : pairByName formals actuals.zipIdx [] = .ok named)
    {actual : Arg Value} (hactual : actuals[a]? = some actual) :
    (∃ p, prefixPair? formals named (actual, a) = some p ∧ p.formal = i) ↔
      begun formals actuals a = [i] := by
  simp only [prefixPair?_eq_some_iff]
  constructor
  · rintro ⟨p, ⟨hnew, tag, name, htag, hone, -⟩, rfl⟩
    rw [← map_snd_candidates hname hactual htag hnew, hone]
    rfl
  · intro hbegun
    obtain ⟨hnew, other, tag, hother, htag⟩ :=
      not_hasActual_of_mem_begun (i := i) (a := a) hname (by simp [hbegun])
    obtain rfl : actual = other := Option.some.inj (hactual.symm.trans hother)
    rw [← map_snd_candidates hname hactual htag hnew] at hbegun
    obtain ⟨⟨name, j⟩, hone, rfl⟩ := List.map_eq_singleton_iff.1 hbegun
    exact ⟨⟨j, a, actual.value⟩, ⟨hnew, tag, name, htag, hone, rfl, rfl⟩, rfl⟩

/-- A formal whose name nobody has in full is taken in the second pass as soon as an actual begins
    only its name. -/
theorem hasFormal_take_iff (hname : pairByName formals actuals.zipIdx [] = .ok named)
    (h : pairByPrefix formals named (actuals.zipIdx.take a) named = .ok found)
    (hfree : named.hasFormal i = false) :
    found.hasFormal i = true ↔ ∃ b < a, begun formals actuals b = [i] := by
  have hnamed : ∀ p ∈ named, p.formal ≠ i := by
    intro p hp hformal
    have : named.hasFormal i = true := Pairing.hasFormal_iff.2 (List.mem_map.2 ⟨p, hp, hformal⟩)
    simp [hfree] at this
  rw [pairByPrefix_eq h, Pairing.hasFormal_iff]
  simp only [List.map_append, List.mem_append, List.mem_map, List.mem_reverse,
    List.mem_filterMap, Prod.exists]
  constructor
  · -- a pair is from the second pass or from the first, which left this formal out
    rintro (⟨p, ⟨actual, b, hmem, hp⟩, hformal⟩ | ⟨p, hp, hformal⟩)
    · rw [take_zipIdx, List.mem_zipIdx_iff_getElem?, List.getElem?_take] at hmem
      split at hmem
      · rename_i hb
        exact ⟨b, hb, (prefixPair?_iff_begun hname hmem).1 ⟨p, hp, hformal⟩⟩
      · cases hmem
    · exact absurd hformal (hnamed p hp)
  · rintro ⟨b, hb, hbegun⟩
    obtain ⟨-, actual, -, hactual, -⟩ :=
      not_hasActual_of_mem_begun (i := i) (a := b) hname (by simp [hbegun])
    obtain ⟨p, hp, hformal⟩ := (prefixPair?_iff_begun hname hactual).2 hbegun
    refine .inl ⟨p, ⟨actual, b, ?_, hp⟩, hformal⟩
    rw [take_zipIdx, List.mem_zipIdx_iff_getElem?, List.getElem?_take, if_pos hb, hactual]

/-- What the second pass reports about the actual at `a`. -/
def PrefixReports (formals actuals : ArgList) (a : Nat) (e : EvalError) : Prop :=
  (IsAmbiguous formals actuals a ∧ ∃ tag ∈ tagAt actuals a,
      e = .partialMatchAmbiguous tag ((begun formals actuals a).filterMap (tagAt formals))) ∨
    ∃ i, RepeatsBeginning formals actuals a i ∧ ∃ name ∈ tagAt formals i, e = .multipleMatch name

theorem stepReports_pairByPrefix (hname : pairByName formals actuals.zipIdx [] = .ok named) :
    StepReports (fun pairs actual => pairByPrefix formals named [actual] pairs) named actuals.zipIdx
      (PrefixReports formals actuals) := by
  intro a item found e hitem hbefore
  obtain ⟨actual, position⟩ := item
  obtain ⟨hactual, hposition⟩ : actuals[a]? = some actual ∧ position = a := by
    simpa [List.getElem?_zipIdx, eq_comm] using hitem
  subst hposition
  -- what the pass found before this actual decides whether its one candidate is still free
  rw [← pairByPrefix_eq_foldlM] at hbefore
  rw [pairByPrefix_singleton_error_iff]
  constructor
  · rintro ⟨hnew, tag, htag, ⟨hlength, rfl⟩ | ⟨name, i, hone, htaken, rfl⟩⟩
    · refine .inl ⟨?_, tag, (tagAt_of_getElem? hactual).trans htag, ?_⟩
      · rwa [IsAmbiguous, ← map_snd_candidates hname hactual htag hnew, List.length_map]
      · rw [← map_fst_candidates hname hactual htag hnew]
    · obtain ⟨formal, hformal, hformalName, -, hfree⟩ :=
        mem_candidates.1 (hone ▸ List.mem_singleton_self (name, i))
      refine .inr ⟨i, ⟨?_, (hasFormal_take_iff hname hbefore hfree).1 htaken⟩, name, ?_, rfl⟩
      · rw [← map_snd_candidates hname hactual htag hnew, hone]
        rfl
      · exact tagAt_eq_some_iff.2 ⟨formal, (mem_leading.1 hformal).1, hformalName⟩
  · rintro (⟨hlength, tag, htag, rfl⟩ | ⟨i, ⟨hbegun, hearlier⟩, name, hformalName, rfl⟩)
    · obtain ⟨i, hbegins⟩ := IsAmbiguous.begins hlength
      obtain ⟨hnew, -⟩ := not_hasActual_of_mem_begun hname (mem_begun.2 hbegins)
      have htag := (tagAt_of_getElem? hactual).symm.trans htag
      refine ⟨hnew, tag, htag, .inl ⟨?_, ?_⟩⟩
      · rwa [← List.length_map, map_snd_candidates hname hactual htag hnew]
      · rw [map_fst_candidates hname hactual htag hnew]
    · obtain ⟨p, hp, rfl⟩ := (prefixPair?_iff_begun hname hactual).2 hbegun
      obtain ⟨hnew, tag, candidate, htag, hone, -⟩ := prefixPair?_eq_some_iff.1 hp
      obtain ⟨formal, hformal, hcandidate, -, hfree⟩ :=
        mem_candidates.1 (hone ▸ List.mem_singleton_self (candidate, p.formal))
      obtain rfl : name = candidate := by
        have := tagAt_eq_some_iff.2 ⟨formal, (mem_leading.1 hformal).1, hcandidate⟩
        exact Option.some.inj (hformalName.symm.trans this)
      exact ⟨hnew, tag, htag, .inr ⟨name, p.formal, hone,
        (hasFormal_take_iff hname hbefore hfree).2 hearlier, rfl⟩⟩

theorem prefixReports_iff :
    (∃ e, PrefixReports formals actuals a e) ↔ IsStuck formals actuals a := by
  constructor
  · rintro ⟨e, ⟨hambiguous, -⟩ | ⟨i, hrepeats, -⟩⟩
    · exact .inl hambiguous
    · exact .inr ⟨i, hrepeats⟩
  · rintro (hambiguous | ⟨i, hrepeats⟩)
    · obtain ⟨i, -, ⟨tag, htag, -⟩, -⟩ := hambiguous.begins
      exact ⟨_, .inl ⟨hambiguous, tag, htag, rfl⟩⟩
    · obtain ⟨-, ⟨-, -, name, hname, -⟩, -⟩ := hrepeats.begins
      exact ⟨_, .inr ⟨i, hrepeats, name, hname, rfl⟩⟩

theorem PrefixReports.lt_length (h : PrefixReports formals actuals a e) : a < actuals.length := by
  obtain hambiguous | ⟨i, hrepeats⟩ := prefixReports_iff.1 ⟨e, h⟩
  · obtain ⟨i, hbegins⟩ := hambiguous.begins
    exact hbegins.lt_length
  · exact hrepeats.begins.lt_length

theorem not_prefixReports_iff :
    (∀ e, ¬ PrefixReports formals actuals a e) ↔ ¬ IsStuck formals actuals a := by
  rw [← not_exists, prefixReports_iff]

theorem pairByPrefix_ok_iff (hname : pairByName formals actuals.zipIdx [] = .ok named) :
    (∃ found, pairByPrefix formals named actuals.zipIdx named = .ok found) ↔
      BeginsOnce formals actuals := by
  rw [pairByPrefix_eq_foldlM, foldlM_ok_iff (stepReports_pairByPrefix hname), List.length_zipIdx]
  exact forall₂_congr fun a _ => not_prefixReports_iff

theorem pairByPrefix_error_iff (hname : pairByName formals actuals.zipIdx [] = .ok named) :
    pairByPrefix formals named actuals.zipIdx named = .error e ↔
      ∃ a, PrefixReports formals actuals a e ∧ ∀ b < a, ¬ IsStuck formals actuals b := by
  rw [pairByPrefix_eq_foldlM, foldlM_error_iff (stepReports_pairByPrefix hname),
    List.length_zipIdx]
  simp only [not_prefixReports_iff]
  constructor
  · rintro ⟨a, -, hreports, hfirst⟩
    exact ⟨a, hreports, hfirst⟩
  · rintro ⟨a, hreports, hfirst⟩
    exact ⟨a, hreports.lt_length, hreports, hfirst⟩

/-! ## What is left -/

theorem receives_of_pair (h : pair formals actuals = .ok pairs) :
    pairs.Gives a i ↔ Receives formals actuals i a := by
  obtain ⟨named, hname, h⟩ := bind_eq_ok_iff.1 h
  obtain ⟨found, hbegun, h⟩ := bind_eq_ok_iff.1 h
  cases h
  rw [gives_of_pairByPosition hname hbegun, Receives, List.mem_iff_getElem?]
  simp only [List.getElem?_zip_eq_some]

theorem Receives.isOrdinary (h : Receives formals actuals i a) : IsOrdinary formals i := by
  obtain hnames | hbegins | hmem := h
  · exact hnames.isOrdinary
  · exact hbegins.1.isOrdinary
  · exact (mem_free.1 (List.of_mem_zip hmem).1).1.isOrdinary

theorem Receives.lt_length (h : Receives formals actuals i a) : a < actuals.length := by
  obtain hnames | hbegins | hmem := h
  · exact hnames.lt_length
  · exact hbegins.lt_length
  · exact (mem_untagged.1 (List.of_mem_zip hmem).2).1

theorem isLeftOver_iff (h : pair formals actuals = .ok pairs) :
    IsLeftOver formals actuals a ↔ a < actuals.length ∧ pairs.hasActual a = false := by
  rw [IsLeftOver, Bool.eq_false_iff, ne_eq, Pairing.hasActual_iff_gives]
  simp only [receives_of_pair h, not_exists]
  exact and_congr_right fun _ =>
    ⟨fun hnone i hi => hnone i hi.isOrdinary.1 hi, fun hnone i _ => hnone i⟩

theorem leftover_eq_cons_iff (h : pair formals actuals = .ok pairs) {actual : Arg Value} :
    (∃ later, leftover actuals pairs = (actual, a) :: later) ↔
      actuals[a]? = some actual ∧ IsLeftOver formals actuals a ∧
        ∀ b < a, ¬ IsLeftOver formals actuals b := by
  rw [← List.head?_eq_some_iff, leftover, List.head?_filter, List.find?_eq_some_iff_getElem]
  simp only [isLeftOver_iff h, List.length_zipIdx, List.getElem_zipIdx, Nat.zero_add,
    Prod.mk.injEq]
  constructor
  · rintro ⟨hnew, k, hk, ⟨rfl, rfl⟩, hbefore⟩
    refine ⟨List.getElem?_eq_getElem hk, ⟨hk, by simpa using hnew⟩, fun b hb hleft => ?_⟩
    simpa [hleft.2] using hbefore b hb
  · rintro ⟨hactual, ⟨ha, hnew⟩, hbefore⟩
    refine ⟨by simpa using hnew, a, ha, ⟨?_, rfl⟩, fun b hb => ?_⟩
    · exact (List.getElem_eq_iff ha).2 hactual
    · have := hbefore b hb
      simpa [Nat.lt_trans hb ha] using this

theorem leftover_eq_nil_iff (h : pair formals actuals = .ok pairs) :
    leftover actuals pairs = [] ↔ ∀ a, ¬ IsLeftOver formals actuals a := by
  constructor
  · intro hnil a hleft
    obtain ⟨ha, hnew⟩ := (isLeftOver_iff h).1 hleft
    have hmem : (actuals[a], a) ∈ leftover actuals pairs :=
      List.mem_filter.2
        ⟨List.mem_zipIdx_iff_getElem?.2 (List.getElem?_eq_getElem ha), by simpa using hnew⟩
    simp [hnil] at hmem
  · intro hnone
    cases hleft : leftover actuals pairs with
    | nil => rfl
    | cons actual later =>
      exact absurd ((leftover_eq_cons_iff h).1 ⟨later, hleft⟩).2.1 (hnone actual.2)

theorem valueOf?_eq_none_iff (h : pair formals actuals = .ok pairs) :
    pairs.valueOf? i = none ↔ ∀ a < actuals.length, ¬ Receives formals actuals i a := by
  have hnone : pairs.valueOf? i = none ↔ pairs.hasFormal i = false := by
    simp [Pairing.valueOf?, Pairing.hasFormal]
  rw [hnone, Bool.eq_false_iff, ne_eq, Pairing.hasFormal_iff_gives]
  simp only [receives_of_pair h, not_exists]
  exact ⟨fun h a _ => h a, fun h a ha => h a ha.lt_length ha⟩

/-- What is filled in for one formal. -/
def fillAt (formals actuals : ArgList) (pairs : Pairing) (populate : Bool) (formal : Arg Value)
    (i : Nat) : Except EvalError (Arg Value) :=
  if some i == ellipsisIndex? formals then
    .ok (.new formal.tag (.dots ((leftover actuals pairs).map (·.1))))
  else
    match pairs.valueOf? i with
    | some value => .ok (.new formal.tag value)
    | none =>
      if !populate && formal.value.isMissingArg then
        .error (.unmatchedArgument (formal.tag.getD .missing))
      else .ok (.new formal.tag .missingArg)

theorem fill_eq_mapM :
    fill formals actuals pairs populate =
      formals.zipIdx.mapM fun (formal, i) => fillAt formals actuals pairs populate formal i := rfl

theorem fillAt_error_iff (h : pair formals actuals = .ok pairs) {formal : Arg Value}
    (hformal : formals[i]? = some formal) :
    fillAt formals actuals pairs populate formal i = .error e ↔
      populate = false ∧ IsUnsupplied formals actuals i ∧
        e = .unmatchedArgument ((tagAt formals i).getD .missing) := by
  have hlt : i < formals.length := (List.getElem?_eq_some_iff.1 hformal).1
  have hordinary : IsOrdinary formals i ↔ ¬ (some i == ellipsisIndex? formals) = true := by
    rw [IsOrdinary, isEllipsis_iff, beq_iff_eq, eq_comm (a := some i)]
    exact and_iff_right hlt
  simp only [IsUnsupplied, hordinary, ← valueOf?_eq_none_iff h, hformal, Option.mem_some_iff,
    exists_eq_left', tagAt_of_getElem? hformal]
  unfold fillAt
  split
  · rename_i hellipsis
    simp [hellipsis]
  · rename_i hellipsis
    split
    · rename_i value hvalue
      simp [hvalue]
    · rename_i hvalue
      split
      · rename_i hstrict
        rw [Bool.and_eq_true, Bool.not_eq_true'] at hstrict
        rw [Except.error.injEq, eq_comm]
        exact ⟨fun he => ⟨hstrict.1, ⟨hellipsis, hvalue, hstrict.2⟩, he⟩, fun h => h.2.2⟩
      · rename_i hstrict
        rw [Bool.and_eq_true, Bool.not_eq_true'] at hstrict
        refine iff_of_false (fun h => by cases h) ?_
        rintro ⟨hpopulate, ⟨-, -, hmissing⟩, -⟩
        exact hstrict ⟨hpopulate, hmissing⟩

theorem fillAt_ok_iff (h : pair formals actuals = .ok pairs) {formal : Arg Value}
    (hformal : formals[i]? = some formal) :
    (∃ arg, fillAt formals actuals pairs populate formal i = .ok arg) ↔
      (populate = false → ¬ IsUnsupplied formals actuals i) := by
  rw [ok_iff_forall_ne_error]
  simp only [ne_eq, fillAt_error_iff h hformal]
  exact ⟨fun hnone hpopulate hunsupplied => hnone _ ⟨hpopulate, hunsupplied, rfl⟩,
    fun hnone e he => hnone he.1 he.2.1⟩

theorem IsUnsupplied.exists_formal (h : IsUnsupplied formals actuals i) :
    ∃ formal, formals[i]? = some formal := by
  obtain ⟨-, -, formal, hformal, -⟩ := h
  exact ⟨formal, hformal⟩

theorem fill_ok_iff (h : pair formals actuals = .ok pairs) :
    (∃ result, fill formals actuals pairs populate = .ok result) ↔
      (populate = false → ∀ i, ¬ IsUnsupplied formals actuals i) := by
  rw [fill_eq_mapM, mapM_ok_iff]
  simp only [Prod.forall, List.mem_zipIdx_iff_getElem?]
  constructor
  · intro hok hpopulate i hunsupplied
    obtain ⟨formal, hformal⟩ := hunsupplied.exists_formal
    exact (fillAt_ok_iff h hformal).1 (hok formal i hformal) hpopulate hunsupplied
  · intro hsupplied formal i hformal
    exact (fillAt_ok_iff h hformal).2 fun hpopulate => hsupplied hpopulate i

/-- Filling in fails at the first formal that is not supplied. -/
theorem fill_error_iff (h : pair formals actuals = .ok pairs) :
    fill formals actuals pairs populate = .error e ↔
      populate = false ∧ ∃ i, IsUnsupplied formals actuals i ∧
        (∀ j < i, ¬ IsUnsupplied formals actuals j) ∧
        e = .unmatchedArgument ((tagAt formals i).getD .missing) := by
  have hitem {i position : Nat} {formal : Arg Value} :
      formals.zipIdx[i]? = some (formal, position) ↔ formals[i]? = some formal ∧ position = i := by
    simp [List.getElem?_zipIdx, eq_comm]
  rw [fill_eq_mapM, mapM_error_iff]
  simp only [Prod.exists, Prod.forall, hitem]
  constructor
  · rintro ⟨i, formal, _, ⟨hformal, rfl⟩, he, hbefore⟩
    obtain ⟨hpopulate, hunsupplied, rfl⟩ := (fillAt_error_iff h hformal).1 he
    refine ⟨hpopulate, _, hunsupplied, fun j hj hearlier => ?_, rfl⟩
    obtain ⟨other, hother⟩ := hearlier.exists_formal
    exact (fillAt_ok_iff h hother).1 (hbefore j hj other j ⟨hother, rfl⟩) hpopulate hearlier
  · rintro ⟨hpopulate, i, hunsupplied, hfirst, rfl⟩
    obtain ⟨formal, hformal⟩ := hunsupplied.exists_formal
    refine ⟨i, formal, i, ⟨hformal, rfl⟩,
      (fillAt_error_iff h hformal).2 ⟨hpopulate, hunsupplied, rfl⟩, ?_⟩
    rintro j hj other _ ⟨hother, rfl⟩
    exact (fillAt_ok_iff h hother).2 fun _ => hfirst _ hj

/-! ## All reports -/

theorem pair_ok_iff :
    (∃ pairs, pair formals actuals = .ok pairs) ↔
      NamesOnce formals actuals ∧ BeginsOnce formals actuals := by
  rw [← pairByName_ok_iff]
  constructor
  · rintro ⟨pairs, h⟩
    obtain ⟨named, hname, h⟩ := bind_eq_ok_iff.1 h
    obtain ⟨found, hbegun, -⟩ := bind_eq_ok_iff.1 h
    exact ⟨⟨named, hname⟩, (pairByPrefix_ok_iff hname).1 ⟨found, hbegun⟩⟩
  · rintro ⟨⟨named, hname⟩, hbegins⟩
    obtain ⟨found, hbegun⟩ := (pairByPrefix_ok_iff hname).2 hbegins
    exact ⟨_, bind_eq_ok_iff.2 ⟨named, hname, bind_eq_ok_iff.2 ⟨found, hbegun, rfl⟩⟩⟩

theorem ellipsisIndex?_eq_none_iff :
    ellipsisIndex? formals = none ↔ ∀ i, ¬ IsEllipsis formals i := by
  simp only [Option.eq_none_iff_forall_ne_some, isEllipsis_iff, ne_eq]

theorem matchFormals_of_pair (h : pair formals actuals = .ok pairs) :
    matchFormals formals actuals populate =
      match ellipsisIndex? formals, leftover actuals pairs with
      | none, (actual, position) :: _ => .error (.unusedArgument actual.tag position)
      | _, _ => fill formals actuals pairs populate := by
  rw [matchFormals, h]
  rfl

/-- What is bound to the formals, by the pairs that were found. -/
theorem eq_map_assigned {result : ArgList} (hpair : pair formals actuals = .ok pairs)
    (h : matchFormals formals actuals populate = .ok result) :
    result = formals.zipIdx.map fun (formal, i) =>
      Arg.new formal.tag (assigned formals actuals pairs.actualOf? i) := by
  have hfill : fill formals actuals pairs populate = .ok result := by
    rw [matchFormals_of_pair hpair] at h
    split at h
    · cases h
    · exact h
  exact eq_of_fill (passOn_of_pair hpair) (nodup_of_pair hpair)
    (fun hi => ((assigns_of_pair hpair).ordinary hi).1.1) hfill

theorem length_of_matchFormals {result : ArgList} (hpair : pair formals actuals = .ok pairs)
    (h : matchFormals formals actuals populate = .ok result) : result.length = formals.length := by
  rw [eq_map_assigned hpair h, List.length_map, List.length_zipIdx]

theorem matchFormals_eq_fill (h : pair formals actuals = .ok pairs)
    (huses : UsesAll formals actuals) :
    matchFormals formals actuals populate = fill formals actuals pairs populate := by
  rw [matchFormals_of_pair h]
  split
  · rename_i actual position later hellipsis hleft
    obtain ⟨i, hi⟩ | hnone := huses
    · exact absurd hi (ellipsisIndex?_eq_none_iff.1 hellipsis i)
    · rw [(leftover_eq_nil_iff h).2 hnone] at hleft
      cases hleft
  · rfl

theorem matchFormals_of_isLeftOver (h : pair formals actuals = .ok pairs)
    (hclosed : ∀ i, ¬ IsEllipsis formals i) (hleft : IsLeftOver formals actuals a)
    (hfirst : ∀ b < a, ¬ IsLeftOver formals actuals b) :
    matchFormals formals actuals populate = .error (.unusedArgument (tagAt actuals a) a) := by
  have hactual := List.getElem?_eq_getElem hleft.1
  obtain ⟨later, hlater⟩ := (leftover_eq_cons_iff h).2 ⟨hactual, hleft, hfirst⟩
  rw [matchFormals_of_pair h, ellipsisIndex?_eq_none_iff.2 hclosed, hlater,
    tagAt_of_getElem? hactual]

theorem pair_error_iff :
    pair formals actuals = .error e ↔
      (∃ a tag, RepeatsName formals actuals a ∧ (∀ b < a, ¬ RepeatsName formals actuals b) ∧
        tagAt actuals a = some tag ∧ e = .multipleMatch tag) ∨
      NamesOnce formals actuals ∧
        ∃ a, PrefixReports formals actuals a e ∧ ∀ b < a, ¬ IsStuck formals actuals b := by
  rw [pair, bind_eq_error_iff, pairByName_error_iff, ← pairByName_ok_iff]
  refine or_congr_right ?_
  simp only [bind_eq_error_iff, pure, Except.pure, reduceCtorEq, and_false, exists_false, or_false]
  constructor
  · rintro ⟨named, hname, he⟩
    exact ⟨⟨named, hname⟩, (pairByPrefix_error_iff hname).1 he⟩
  · rintro ⟨⟨named, hname⟩, hreports⟩
    exact ⟨named, hname, (pairByPrefix_error_iff hname).2 hreports⟩

theorem fault_of_matchFormals (h : matchFormals formals actuals populate = .error e) :
    Fault formals actuals populate e := by
  -- the passes fail, or something is left over, or a formal stays empty
  obtain hpair | ⟨pairs, hpair, -⟩ := bind_eq_error_iff.1 h
  · obtain ⟨a, tag, hrepeats, hfirst, htag, rfl⟩ | ⟨hnames, a, hreports, hfirst⟩ :=
      pair_error_iff.1 hpair
    · exact .repeatedName hrepeats hfirst htag
    · obtain ⟨hambiguous, tag, htag, rfl⟩ | ⟨i, hrepeats, name, hname, rfl⟩ := hreports
      · exact .ambiguous hnames hambiguous hfirst htag
      · exact .repeatedBeginning hnames hrepeats hfirst hname
  · obtain ⟨hnames, hbegins⟩ := pair_ok_iff.1 ⟨pairs, hpair⟩
    by_cases huses : UsesAll formals actuals
    · rw [matchFormals_eq_fill hpair huses, fill_error_iff hpair] at h
      obtain ⟨hpopulate, i, hunsupplied, hfirst, rfl⟩ := h
      exact .unmatched hnames hbegins huses hpopulate hunsupplied hfirst
    · obtain ⟨hclosed, hsome⟩ := not_or.1 huses
      cases hleft : leftover actuals pairs with
      | nil => exact absurd ((leftover_eq_nil_iff hpair).1 hleft) hsome
      | cons actual later =>
        obtain ⟨-, hhere, hfirst⟩ := (leftover_eq_cons_iff hpair).1 ⟨later, hleft⟩
        rw [matchFormals_of_isLeftOver hpair (not_exists.1 hclosed) hhere hfirst] at h
        cases h
        exact .unused hnames hbegins (not_exists.1 hclosed) hhere hfirst

theorem matchFormals_of_fault (h : Fault formals actuals populate e) :
    matchFormals formals actuals populate = .error e := by
  have hearly {e : EvalError} (hpair : pair formals actuals = .error e) :
      matchFormals formals actuals populate = .error e :=
    bind_eq_error_iff.2 (.inl hpair)
  cases h with
  | repeatedName hrepeats hfirst htag =>
    exact hearly (pair_error_iff.2 (.inl ⟨_, _, hrepeats, hfirst, htag, rfl⟩))
  | ambiguous hnames hambiguous hfirst htag =>
    exact hearly (pair_error_iff.2 (.inr ⟨hnames, _, .inl ⟨hambiguous, _, htag, rfl⟩, hfirst⟩))
  | repeatedBeginning hnames hrepeats hfirst hname =>
    exact hearly (pair_error_iff.2 (.inr ⟨hnames, _, .inr ⟨_, hrepeats, _, hname, rfl⟩, hfirst⟩))
  | unused hnames hbegins hclosed hhere hfirst =>
    obtain ⟨pairs, hpair⟩ := pair_ok_iff.2 ⟨hnames, hbegins⟩
    exact matchFormals_of_isLeftOver hpair hclosed hhere hfirst
  | unmatched hnames hbegins huses hpopulate hunsupplied hfirst =>
    obtain ⟨pairs, hpair⟩ := pair_ok_iff.2 ⟨hnames, hbegins⟩
    rw [matchFormals_eq_fill hpair huses]
    exact (fill_error_iff hpair).2 ⟨hpopulate, _, hunsupplied, hfirst, rfl⟩

theorem exists_matchFormals_iff :
    (∃ result, matchFormals formals actuals populate = .ok result) ↔
      Faultless formals actuals populate := by
  constructor
  · rintro ⟨result, h⟩
    obtain ⟨pairs, hpair, -⟩ := bind_eq_ok_iff.1 h
    obtain ⟨hnames, hbegins⟩ := pair_ok_iff.1 ⟨pairs, hpair⟩
    -- formals without ellipsis refuse whatever is left over
    have huses : UsesAll formals actuals := by
      by_contra huses
      obtain ⟨hclosed, hsome⟩ := not_or.1 huses
      refine hsome ((leftover_eq_nil_iff hpair).1 ?_)
      cases hleft : leftover actuals pairs with
      | nil => rfl
      | cons actual later =>
        rw [matchFormals_of_pair hpair, ellipsisIndex?_eq_none_iff.2 (not_exists.1 hclosed),
          hleft] at h
        cases h
    rw [matchFormals_eq_fill hpair huses] at h
    exact ⟨hnames, hbegins, huses, (fill_ok_iff hpair).1 ⟨result, h⟩⟩
  · rintro ⟨hnames, hbegins, huses, hsupplies⟩
    obtain ⟨pairs, hpair⟩ := pair_ok_iff.2 ⟨hnames, hbegins⟩
    rw [matchFormals_eq_fill hpair huses]
    exact (fill_ok_iff hpair).2 hsupplies

/-- Matching fails with exactly the reports that `Fault` lists, and succeeds whenever there is
    none. -/
theorem matchFormals_fails_exactly (formals actuals : ArgList) (populate : Bool) :
    (∀ e, matchFormals formals actuals populate = .error e ↔ Fault formals actuals populate e) ∧
      ((∃ result, matchFormals formals actuals populate = .ok result) ↔
        Faultless formals actuals populate) :=
  ⟨fun _ => ⟨fault_of_matchFormals, matchFormals_of_fault⟩, exists_matchFormals_iff⟩

end CallByNeed.Matching
