import CallByNeed.Proofs.Heap.Collection
import Mathlib.Data.Finset.Card
import Mathlib.Data.Finset.Range

/-!
# Knots and collections

A promise that contains itself is a knot.  The collector reads the links of a
value by going through everything inside of it, so it comes to an end there
exactly if no promise inside is a knot (`Value.knotless_iff_exists_linksBy`): from a
promise to one inside it the promises inside become fewer, but in a knot they are
always the same ones.

Marking reads the links of each frame once.  So a collection is carried out exactly
if no value that it meets has a knot inside (`WellFormed.exists_collect_iff`), and
after as many rounds as there are slots more rounds of marking would change nothing
(`mark_eq_markRounds`).
-/

namespace CallByNeed

variable {store : PromiseStore} {v w : Value} {p q : PromiseId}

/-- The second promise stands inside of what the first one is a promise of. -/
def PromiseStore.Holds (store : PromiseStore) (p q : PromiseId) : Prop :=
  Relation.TransGen (Value.Child store) (.promise p) (.promise q)

/-- No promise in the value contains itself. -/
def Value.Knotless (store : PromiseStore) (v : Value) : Prop :=
  ∀ p, v.Part store (.promise p) → ¬ store.Holds p p

theorem Value.Knotless.part (h : v.Knotless store) (hpart : v.Part store w) : w.Knotless store :=
  fun p hp => h p (hpart.trans hp)

/-- The values bound in the frame have no knots inside. -/
def Frame.Knotless (store : PromiseStore) (f : Frame) : Prop :=
  ∀ entry ∈ f.bindings, entry.2.value.Knotless store

/-! ## The promises inside a promise -/

open Classical in
/-- The positions of the promise and of those inside it. -/
noncomputable def PromiseStore.inside (store : PromiseStore) (p : PromiseId) : Finset Nat :=
  (Finset.range store.cells.size).filter fun i => (Value.promise p).Part store (.promise ⟨i⟩)

theorem PromiseStore.mem_inside :
    q.index ∈ store.inside p ↔
      (store.get? q).isSome = true ∧ (Value.promise p).Part store (.promise q) := by
  simp [inside, get?]

theorem PromiseStore.inside_ssubset (hp : (Value.promise p).Knotless store)
    (hthere : (store.get? p).isSome = true) (h : store.Holds p q) :
    store.inside q ⊂ store.inside p := by
  refine Finset.ssubset_iff_subset_ne.2 ⟨fun i hi => ?_, fun hsame => ?_⟩
  · obtain ⟨hi, hpart⟩ := mem_inside (q := ⟨i⟩).1 hi
    exact mem_inside (q := ⟨i⟩).2 ⟨hi, h.to_reflTransGen.trans hpart⟩
  · -- the first promise is not in the second one, or it would contain itself
    have hmem := mem_inside.2 ⟨hthere, .refl⟩
    rw [← hsame] at hmem
    exact hp p .refl (h.trans_left (mem_inside.1 hmem).2)

theorem PromiseStore.card_inside_le (store : PromiseStore) (p : PromiseId) :
    (store.inside p).card ≤ store.cells.size := by
  classical
  exact (Finset.card_filter_le _ _).trans (Finset.card_range _).le

/-! ## Links are found where there is no knot -/

namespace Value

variable {ofPromise : PromiseId → Option (List EnvId)}

mutual

theorem exists_linksBy (v : Value)
    (hof : ∀ p, v.Part store (promise p) → ∃ ids, ofPromise p = some ids) :
    ∃ ids, v.linksBy ofPromise = some ids := by
  match v with
  | environment env => exact ⟨_, rfl⟩
  | closure ⟨identity, formals, body, env⟩ =>
    have hchild {w : Value} (h : Child store (closure ⟨identity, formals, body, env⟩) w)
        (p : PromiseId) (hp : w.Part store (promise p)) := hof p (.head h hp)
    obtain ⟨ofFormals, hformals⟩ := exists_argsLinksBy formals
      fun arg harg => hchild (.formal ⟨identity, formals, body, env⟩ harg)
    obtain ⟨ofBody, hbody⟩ := exists_linksBy body (hchild (.body _))
    simp [linksBy, hformals, hbody]
  | promise p => exact hof p .refl
  | call ⟨identity, function, args⟩ =>
    have hchild {w : Value} (h : Child store (call ⟨identity, function, args⟩) w)
        (p : PromiseId) (hp : w.Part store (promise p)) := hof p (.head h hp)
    obtain ⟨ofFunction, hfunction⟩ := exists_linksBy function (hchild (.function _))
    obtain ⟨ofArgs, hargs⟩ := exists_argsLinksBy args
      fun arg harg => hchild (.argument ⟨identity, function, args⟩ harg)
    simp [linksBy, hfunction, hargs]
  | list args => exact exists_argsLinksBy args fun arg harg p hp => hof p (.head (.element harg) hp)
  | dots args => exact exists_argsLinksBy args fun arg harg p hp => hof p (.head (.dot harg) hp)
  | vector ⟨identity, elements, ⟨entries⟩⟩ =>
    exact exists_entriesLinksBy entries fun entry hentry p hp =>
      hof p (.head (.ofAttribute ⟨identity, elements, ⟨entries⟩⟩ hentry) hp)
  | null | symbol _ | builtin _ _ => exact ⟨_, rfl⟩

theorem exists_argsLinksBy (args : List (Arg Value))
    (hof : ∀ arg ∈ args, ∀ p, arg.value.Part store (promise p) → ∃ ids, ofPromise p = some ids) :
    ∃ ids, argsLinksBy ofPromise args = some ids := by
  match args with
  | [] => exact ⟨_, rfl⟩
  | ⟨tag, value⟩ :: rest =>
    obtain ⟨ofValue, hvalue⟩ := exists_linksBy value (hof _ List.mem_cons_self)
    obtain ⟨ofRest, hrest⟩ := exists_argsLinksBy rest fun arg harg => hof arg (.tail _ harg)
    simp [argsLinksBy, hvalue, hrest]

theorem exists_entriesLinksBy (entries : List (Symbol × Value))
    (hof : ∀ entry ∈ entries, ∀ p, entry.2.Part store (promise p) →
      ∃ ids, ofPromise p = some ids) :
    ∃ ids, entriesLinksBy ofPromise entries = some ids := by
  match entries with
  | [] => exact ⟨_, rfl⟩
  | (name, value) :: rest =>
    obtain ⟨ofValue, hvalue⟩ := exists_linksBy value (hof _ List.mem_cons_self)
    obtain ⟨ofRest, hrest⟩ := exists_entriesLinksBy rest
      fun entry hentry => hof entry (.tail _ hentry)
    simp [entriesLinksBy, hvalue, hrest]

end

end Value

theorem PromiseStore.exists_linksWithin {fuel : Nat} (hp : (Value.promise p).Knotless store)
    (hfuel : (store.inside p).card < fuel) : ∃ ids, store.linksWithin fuel p = some ids := by
  induction fuel generalizing p with
  | zero => omega
  | succ fuel ih =>
    cases hcell : store.get? p with
    | none => exact ⟨[], by simp [linksWithin, hcell]⟩
    | some cell =>
      have hinside {w : Value} (h : Value.Child store (.promise p) w) :
          ∃ ids, w.linksBy (store.linksWithin fuel) = some ids := by
        -- a promise in there has fewer promises inside than this one
        have hof (q : PromiseId) (hq : w.Part store (.promise q)) :
            ∃ ids, store.linksWithin fuel q = some ids := by
          have hthere : (store.get? p).isSome = true := by simp [hcell]
          have hless := Finset.card_lt_card (inside_ssubset hp hthere (.head' h hq))
          exact ih (hp.part (.head h hq)) (by omega)
        exact w.exists_linksBy hof
      obtain ⟨ofExpr, hexpr⟩ := hinside (.expr hcell)
      obtain ⟨expr, ⟨env, underEvaluation⟩ | value⟩ := cell
      · simp [linksWithin, hcell, hexpr]
      · obtain ⟨ofValue, hvalue⟩ := hinside (.kept hcell rfl)
        simp [linksWithin, hcell, hexpr, hvalue]

theorem Value.Knotless.exists_links (h : v.Knotless store) : ∃ ids, v.links store = some ids :=
  v.exists_linksBy fun p hp =>
    PromiseStore.exists_linksWithin (h.part hp) (Nat.lt_succ_of_le (store.card_inside_le p))

/-! ## More fuel finds the same links -/

section

variable {f g : PromiseId → Option (List EnvId)}

mutual

theorem Value.linksBy_mono (hfg : ∀ p ids, f p = some ids → g p = some ids) (v : Value)
    {ids : List EnvId} (h : v.linksBy f = some ids) : v.linksBy g = some ids := by
  match v with
  | environment _ | null | symbol _ | builtin _ _ => exact h
  | closure ⟨_, formals, body, env⟩ =>
    obtain ⟨ofFormals, hformals, h⟩ := Option.bind_eq_some_iff.1 h
    obtain ⟨ofBody, hbody, h⟩ := Option.bind_eq_some_iff.1 h
    simp only [linksBy, argsLinksBy_mono hfg formals hformals, linksBy_mono hfg body hbody]
    exact h
  | promise p => exact hfg p ids h
  | call ⟨_, function, args⟩ =>
    obtain ⟨ofFunction, hfunction, h⟩ := Option.bind_eq_some_iff.1 h
    obtain ⟨ofArgs, hargs, h⟩ := Option.bind_eq_some_iff.1 h
    simp only [linksBy, linksBy_mono hfg function hfunction, argsLinksBy_mono hfg args hargs]
    exact h
  | list args | dots args => exact argsLinksBy_mono hfg args h
  | vector ⟨_, _, ⟨entries⟩⟩ => exact entriesLinksBy_mono hfg entries h

theorem Value.argsLinksBy_mono (hfg : ∀ p ids, f p = some ids → g p = some ids)
    (args : List (Arg Value)) {ids : List EnvId} (h : argsLinksBy f args = some ids) :
    argsLinksBy g args = some ids := by
  match args with
  | [] => exact h
  | ⟨_, value⟩ :: rest =>
    obtain ⟨ofValue, hvalue, h⟩ := Option.bind_eq_some_iff.1 h
    obtain ⟨ofRest, hrest, h⟩ := Option.bind_eq_some_iff.1 h
    simp only [argsLinksBy, linksBy_mono hfg value hvalue, argsLinksBy_mono hfg rest hrest]
    exact h

theorem Value.entriesLinksBy_mono (hfg : ∀ p ids, f p = some ids → g p = some ids)
    (entries : List (Symbol × Value)) {ids : List EnvId}
    (h : entriesLinksBy f entries = some ids) : entriesLinksBy g entries = some ids := by
  match entries with
  | [] => exact h
  | (_, value) :: rest =>
    obtain ⟨ofValue, hvalue, h⟩ := Option.bind_eq_some_iff.1 h
    obtain ⟨ofRest, hrest, h⟩ := Option.bind_eq_some_iff.1 h
    simp only [entriesLinksBy, linksBy_mono hfg value hvalue, entriesLinksBy_mono hfg rest hrest]
    exact h

end

end

theorem PromiseStore.linksWithin_succ {fuel : Nat} {ids : List EnvId}
    (h : store.linksWithin fuel p = some ids) : store.linksWithin (fuel + 1) p = some ids := by
  induction fuel generalizing p ids with
  | zero => cases h
  | succ fuel ih =>
    -- what stands inside was read with one step less, so the induction covers it
    have hmono {v : Value} {ids : List EnvId} (h : v.linksBy (store.linksWithin fuel) = some ids) :
        v.linksBy (store.linksWithin (fuel + 1)) = some ids :=
      Value.linksBy_mono (fun _ _ => ih) v h
    refine linksWithin_succ_eq_some_iff.2 ?_
    obtain hnone | ⟨expr, env, underEvaluation, ofExpr, hcell, hexpr, hids⟩ |
      ⟨expr, value, ofValue, ofExpr, hcell, hvalue, hexpr, hids⟩ :=
        linksWithin_succ_eq_some_iff.1 h
    · exact .inl hnone
    · exact .inr (.inl ⟨expr, env, underEvaluation, ofExpr, hcell, hmono hexpr, hids⟩)
    · exact .inr (.inr ⟨expr, value, ofValue, ofExpr, hcell, hmono hvalue, hmono hexpr, hids⟩)

theorem PromiseStore.linksWithin_mono {fuel fuel' : Nat} (hfuel : fuel ≤ fuel')
    {ids : List EnvId} (h : store.linksWithin fuel p = some ids) :
    store.linksWithin fuel' p = some ids := by
  induction hfuel with
  | refl => exact h
  | step _ ih => exact linksWithin_succ ih

/-- With any amounts of fuel the same links are found, if any are. -/
theorem Value.linksBy_unique {fuel fuel' : Nat} {ids ids' : List EnvId}
    (h : v.linksBy (store.linksWithin fuel) = some ids)
    (h' : v.linksBy (store.linksWithin fuel') = some ids') : ids = ids' := by
  have hmost (least : Nat) (hleast : least ≤ max fuel fuel') {ids : List EnvId}
      (h : v.linksBy (store.linksWithin least) = some ids) :
      v.linksBy (store.linksWithin (max fuel fuel')) = some ids :=
    linksBy_mono (fun _ _ => PromiseStore.linksWithin_mono hleast) v h
  exact Option.some.inj ((hmost fuel (le_max_left _ _) h).symm.trans
    (hmost fuel' (le_max_right _ _) h'))

/-! ## No links are found where there is a knot -/

theorem Value.argsLinksBy_mem {ofPromise : PromiseId → Option (List EnvId)} {args : ArgList}
    {ids : List EnvId} (h : argsLinksBy ofPromise args = some ids) {arg : Arg Value}
    (harg : arg ∈ args) : ∃ ids', arg.value.linksBy ofPromise = some ids' := by
  induction args generalizing ids with
  | nil => cases harg
  | cons first rest ih =>
    obtain ⟨ofFirst, hfirst, h⟩ := Option.bind_eq_some_iff.1 h
    obtain ⟨ofRest, hrest, -⟩ := Option.bind_eq_some_iff.1 h
    obtain rfl | harg := List.mem_cons.1 harg
    · exact ⟨ofFirst, hfirst⟩
    · exact ih hrest harg

theorem Value.entriesLinksBy_mem {ofPromise : PromiseId → Option (List EnvId)}
    {entries : List (Symbol × Value)} {ids : List EnvId}
    (h : entriesLinksBy ofPromise entries = some ids) {entry : Symbol × Value}
    (hentry : entry ∈ entries) : ∃ ids', entry.2.linksBy ofPromise = some ids' := by
  induction entries generalizing ids with
  | nil => cases hentry
  | cons first rest ih =>
    obtain ⟨ofFirst, hfirst, h⟩ := Option.bind_eq_some_iff.1 h
    obtain ⟨ofRest, hrest, -⟩ := Option.bind_eq_some_iff.1 h
    obtain rfl | hentry := List.mem_cons.1 hentry
    · exact ⟨ofFirst, hfirst⟩
    · exact ih hrest hentry

/-- Reading the links of a promise reads those of what stands directly inside with less fuel. -/
theorem PromiseStore.linksWithin_child {fuel : Nat} {ids : List EnvId}
    (h : store.linksWithin fuel p = some ids) (hchild : Value.Child store (.promise p) w) :
    ∃ fuel' < fuel, ∃ ids', w.linksBy (store.linksWithin fuel') = some ids' := by
  cases fuel with
  | zero => cases h
  | succ fuel =>
    refine ⟨fuel, fuel.lt_succ_self, ?_⟩
    obtain ⟨hcell, -⟩ | ⟨expr, env, underEvaluation, ofExpr, hcell, hexpr, -⟩ |
      ⟨expr, value, ofValue, ofExpr, hcell, hvalue, hexpr, -⟩ :=
        linksWithin_succ_eq_some_iff.1 h
    · cases hchild with
      | expr hthere => cases hcell.symm.trans hthere
      | kept hthere => cases hcell.symm.trans hthere
    · cases hchild with
      | expr hthere =>
        cases hcell.symm.trans hthere
        exact ⟨ofExpr, hexpr⟩
      | kept hthere hkept =>
        cases hcell.symm.trans hthere
        cases hkept
    · cases hchild with
      | expr hthere =>
        cases hcell.symm.trans hthere
        exact ⟨ofExpr, hexpr⟩
      | kept hthere hkept =>
        cases hcell.symm.trans hthere
        cases hkept
        exact ⟨ofValue, hvalue⟩

/-- Reading the links of a value reads those of what stands directly inside, with no more fuel. -/
theorem Value.linksBy_child {fuel : Nat} {ids : List EnvId}
    (h : v.linksBy (store.linksWithin fuel) = some ids) (hchild : Child store v w) :
    ∃ fuel' ≤ fuel, ∃ ids', w.linksBy (store.linksWithin fuel') = some ids' := by
  cases hchild with
  | formal c harg =>
    obtain ⟨identity, formals, body, env⟩ := c
    obtain ⟨ofFormals, hformals, -⟩ := Option.bind_eq_some_iff.1 h
    exact ⟨fuel, le_rfl, argsLinksBy_mem hformals harg⟩
  | body c =>
    obtain ⟨identity, formals, body, env⟩ := c
    obtain ⟨ofFormals, -, h⟩ := Option.bind_eq_some_iff.1 h
    obtain ⟨ofBody, hbody, -⟩ := Option.bind_eq_some_iff.1 h
    exact ⟨fuel, le_rfl, ofBody, hbody⟩
  | function c =>
    obtain ⟨identity, function, args⟩ := c
    obtain ⟨ofFunction, hfunction, -⟩ := Option.bind_eq_some_iff.1 h
    exact ⟨fuel, le_rfl, ofFunction, hfunction⟩
  | argument c harg =>
    obtain ⟨identity, function, args⟩ := c
    obtain ⟨ofFunction, -, h⟩ := Option.bind_eq_some_iff.1 h
    obtain ⟨ofArgs, hargs, -⟩ := Option.bind_eq_some_iff.1 h
    exact ⟨fuel, le_rfl, argsLinksBy_mem hargs harg⟩
  | element harg => exact ⟨fuel, le_rfl, argsLinksBy_mem h harg⟩
  | dot harg => exact ⟨fuel, le_rfl, argsLinksBy_mem h harg⟩
  | ofAttribute vec hentry =>
    obtain ⟨identity, elements, ⟨entries⟩⟩ := vec
    exact ⟨fuel, le_rfl, entriesLinksBy_mem h hentry⟩
  | expr hcell =>
    obtain ⟨fuel', hless, hfound⟩ := PromiseStore.linksWithin_child h (.expr hcell)
    exact ⟨fuel', hless.le, hfound⟩
  | kept hcell hvalue =>
    obtain ⟨fuel', hless, hfound⟩ := PromiseStore.linksWithin_child h (.kept hcell hvalue)
    exact ⟨fuel', hless.le, hfound⟩

theorem Value.linksBy_part {fuel : Nat} {ids : List EnvId}
    (h : v.linksBy (store.linksWithin fuel) = some ids) (hpart : v.Part store w) :
    ∃ fuel' ≤ fuel, ∃ ids', w.linksBy (store.linksWithin fuel') = some ids' := by
  induction hpart with
  | refl => exact ⟨fuel, le_rfl, ids, h⟩
  | tail _ hchild ih =>
    obtain ⟨mid, hmid, ids', hfound⟩ := ih
    obtain ⟨fuel', hfuel', hfound⟩ := linksBy_child hfound hchild
    exact ⟨fuel', hfuel'.trans hmid, hfound⟩

theorem PromiseStore.not_holds_of_linksWithin {fuel : Nat} {ids : List EnvId}
    (h : store.linksWithin fuel p = some ids) : ¬ store.Holds p p := by
  -- once around the knot is the same reading again, with less fuel
  induction fuel using Nat.strong_induction_on generalizing ids with
  | _ fuel ih =>
    intro hknot
    obtain ⟨w, hchild, hpart⟩ := Relation.TransGen.head'_iff.1 hknot
    obtain ⟨mid, hmid, ids', hfound⟩ := linksWithin_child h hchild
    obtain ⟨fuel', hfuel', ids'', hagain⟩ := Value.linksBy_part hfound hpart
    exact ih fuel' (by omega) hagain hknot

theorem Value.knotless_of_linksBy {fuel : Nat} {ids : List EnvId}
    (h : v.linksBy (store.linksWithin fuel) = some ids) : v.Knotless store := by
  intro p hp
  obtain ⟨fuel', -, ids', hfound⟩ := linksBy_part h hp
  exact PromiseStore.not_holds_of_linksWithin hfound

/-- The links of a value are found exactly if it has no knot inside; where they are not found, more
    fuel does not help. -/
theorem Value.knotless_iff_exists_linksBy :
    v.Knotless store ↔ ∃ fuel ids, v.linksBy (store.linksWithin fuel) = some ids :=
  ⟨fun h => ⟨_, h.exists_links⟩, fun ⟨_, _, h⟩ => knotless_of_linksBy h⟩

theorem exists_valuesLinks_iff {values : List Value} :
    (∃ ids, valuesLinks store values = some ids) ↔ ∀ v ∈ values, v.Knotless store := by
  constructor
  · rintro ⟨ids, h⟩ v hv
    induction values generalizing ids with
    | nil => cases hv
    | cons first rest ih =>
      obtain ⟨ofFirst, hfirst, h⟩ := Option.bind_eq_some_iff.1 h
      obtain ⟨ofRest, hrest, -⟩ := Option.bind_eq_some_iff.1 h
      obtain rfl | hv := List.mem_cons.1 hv
      · exact Value.knotless_of_linksBy hfirst
      · exact ih ofRest hrest hv
  · intro h
    induction values with
    | nil => exact ⟨_, rfl⟩
    | cons v rest ih =>
      obtain ⟨ofValue, hvalue⟩ := (h v List.mem_cons_self).exists_links
      obtain ⟨ofRest, hrest⟩ := ih fun w hw => h w (.tail _ hw)
      simp [valuesLinks, hvalue, hrest]

theorem Frame.exists_links_iff {f : Frame} :
    (∃ ids, f.links store = some ids) ↔ f.Knotless store := by
  have hbindings : (∃ ids, valuesLinks store (f.bindings.map (·.2.value)) = some ids) ↔
      f.Knotless store := by
    rw [exists_valuesLinks_iff, List.forall_mem_map]
    rfl
  rw [← hbindings]
  constructor
  · rintro ⟨ids, h⟩
    obtain ⟨ofBindings, hfound, -⟩ := Option.bind_eq_some_iff.1 h
    exact ⟨ofBindings, hfound⟩
  · rintro ⟨ids, h⟩
    exact ⟨f.parent.toList ++ ids, by simp [Frame.links, h]⟩

/-! ## Marking and collecting -/

namespace Heap

variable {h m m' : Heap} {start within : EnvId → Prop} {roots frontier next next' : List EnvId}
  {values : List Value}

/-- Looking at frames of these environments leads to no others, and nothing bound in the frames has a
    knot inside. -/
def KnotlessWithin (h : Heap) (store : PromiseStore) (within : EnvId → Prop) : Prop :=
  ∀ {id f}, within id → h.frame? id = some f →
    f.Knotless store ∧ ∀ next, f.Mentions store next → within next

theorem frame?_setMark (m : Heap) (index : Nat) (id : EnvId) :
    (m.setMark index).frame? id = m.frame? id := by
  rw [← frame?_unmark, unmark_setMark, frame?_unmark]

theorem exists_markRound (hm : m.KnotlessWithin store within)
    (hfrontier : ∀ id ∈ frontier, within id) (hnext : ∀ id ∈ next, within id) :
    ∃ next' m', markRound store frontier next m = some (next', m') ∧
      (∀ id, m'.frame? id = m.frame? id) ∧ ∀ id ∈ next', within id := by
  induction frontier generalizing next m with
  | nil => exact ⟨next, m, rfl, fun _ => rfl, hnext⟩
  | cons id rest ih =>
    have hrest (other : EnvId) (hother : other ∈ rest) : within other :=
      hfrontier other (.tail _ hother)
    unfold markRound
    cases hf : m.unmarked? id with
    | none => exact ih hm hrest hnext
    | some f =>
      obtain ⟨hknotless, hmentions⟩ :=
        hm (hfrontier id List.mem_cons_self) (frame?_of_unmarked? hf)
      obtain ⟨links, hlinks⟩ := Frame.exists_links_iff.2 hknotless
      have hlater (other : EnvId) (hother : other ∈ links ++ next) : within other := by
        obtain hlink | hother := List.mem_append.1 hother
        · exact hmentions other ((Frame.mem_links hlinks).1 hlink)
        · exact hnext other hother
      -- marking a slot changes no frame, so what is known of the frames lasts
      obtain ⟨next', m', hround, hm', hnext'⟩ := ih (m := m.setMark id.index)
        (fun hother hg => hm hother (by rwa [← frame?_setMark])) hrest hlater
      refine ⟨next', m', ?_, fun other => (hm' other).trans (frame?_setMark ..), hnext'⟩
      simp [hlinks, hround]

theorem exists_markRounds (fuel : Nat) (hm : m.KnotlessWithin store within)
    (hfrontier : ∀ id ∈ frontier, within id) :
    ∃ m', markRounds store fuel frontier m = some m' := by
  induction fuel generalizing frontier m with
  | zero => exact ⟨m, rfl⟩
  | succ fuel ih =>
    cases frontier with
    | nil => exact ⟨m, rfl⟩
    | cons first rest =>
      have hnone : ∀ id ∈ ([] : List EnvId), within id := fun _ h => nomatch h
      obtain ⟨next, mid, hround, hmid, hnext⟩ := exists_markRound hm hfrontier hnone
      obtain ⟨m', hm'⟩ := ih (fun hid hf => hm hid (by rwa [← hmid])) hnext
      exact ⟨m', by simp [markRounds, hround, hm']⟩

/-- A collection is carried out if it starts within environments of this kind, and no value of it has
    a knot inside. -/
theorem KnotlessWithin.exists_collect (hm : h.KnotlessWithin store within)
    (hroots : ∀ id ∈ roots, within id)
    (hvalues : ∀ v ∈ values, v.Knotless store ∧ ∀ id, v.Mentions store id → within id) :
    ∃ freed h', h.collect store roots values = some (freed, h') := by
  obtain ⟨links, hlinks⟩ := exists_valuesLinks_iff.2 fun v hv => (hvalues v hv).1
  have hstart (id : EnvId) (hid : id ∈ roots ++ links) : within id := by
    obtain hid | hlink := List.mem_append.1 hid
    · exact hroots id hid
    · obtain ⟨v, hv, hmentions⟩ := (mem_valuesLinks hlinks).1 hlink
      exact (hvalues v hv).2 id hmentions
  obtain ⟨m, hmark⟩ := exists_markRounds (h.slots.size + 1) hm hstart
  exact ⟨m.sweep.1, m.sweep.2, by simp [collect, mark, hlinks, hmark]⟩

/-- What is bound in the marked frames has no knot inside. -/
def MarksKnotless (store : PromiseStore) (m : Heap) : Prop :=
  ∀ id f, m.IsMarked id → m.frame? id = some f → f.Knotless store

theorem MarksKnotless.round (hm : MarksKnotless store m)
    (hround : markRound store frontier next m = some (next', m')) : MarksKnotless store m' := by
  induction frontier generalizing next m with
  | nil =>
    cases hround
    exact hm
  | cons id rest ih =>
    obtain ⟨-, hround⟩ | ⟨f, links, hf, hlinks, hround⟩ := markRound_cons hround
    · exact ih hm hround
    · have hframe := frame?_of_unmarked? hf
      refine ih (fun other g hother hg => ?_) hround
      rw [frame?_setMark] at hg
      -- the environment marked in this round had its links read
      obtain hmarked | rfl := (isMarked_setMark_iff (contains_of_frame? hframe)).1 hother
      · exact hm other g hmarked hg
      · obtain rfl : f = g := Option.some.inj (hframe.symm.trans hg)
        exact Frame.exists_links_iff.1 ⟨links, hlinks⟩

theorem MarksKnotless.rounds {fuel : Nat} (hm : MarksKnotless store m)
    (hrounds : markRounds store fuel frontier m = some m') : MarksKnotless store m' :=
  markRounds_induct (fun hm hround => hm.round hround) hm hrounds

/-- A collection is carried out exactly if no value that it starts from, and none that is bound in a
    frame that it reaches, has a knot inside. -/
theorem WellFormed.exists_collect_iff (hwf : h.WellFormed) :
    (∃ freed h', h.collect store roots values = some (freed, h')) ↔
      (∀ v ∈ values, v.Knotless store) ∧
      ∀ id f, h.frame? id = some f → h.Reaches store (StartsFrom store roots values) id →
        f.Knotless store := by
  constructor
  · rintro ⟨freed, h', hcollect⟩
    obtain ⟨links, hlinks, hcollect⟩ := Option.bind_eq_some_iff.1 hcollect
    obtain ⟨m, hmark, -⟩ := Option.bind_eq_some_iff.1 hcollect
    refine ⟨exists_valuesLinks_iff.1 ⟨links, hlinks⟩, fun id f hf hreached => ?_⟩
    have hmarking : h.Marking store (StartsFrom store roots values) [] m := by
      refine hwf.marking_mark (fun id => ?_) hmark
      rw [List.mem_append, mem_valuesLinks hlinks, StartsFrom]
    have hmarks : MarksKnotless store m :=
      MarksKnotless.rounds (fun id _ hmarked => absurd hmarked (hwf.not_isMarked id)) hmark
    -- all that is reached was marked, and so its links were read
    have hmarked := hmarking.isMarked_iff.2 ⟨contains_of_frame? hf, hreached⟩
    exact hmarks id f hmarked ((hmarking.frame? id).trans hf)
  · rintro ⟨hvalues, hframes⟩
    have hwithin : h.KnotlessWithin store (h.Reaches store (StartsFrom store roots values)) :=
      fun hid hf => ⟨hframes _ _ hf hid, fun _ hnext => .link hid hf hnext⟩
    exact hwithin.exists_collect (fun id hid => .start (.inl hid)) fun v hv =>
      ⟨hvalues v hv, fun id hid => .start (.inr ⟨v, hv, hid⟩)⟩

/-! ## More rounds change nothing -/

theorem markRounds_add {fuel : Nat} (hfuel : m.unmarkedSlots < fuel) (more : Nat) :
    markRounds store (fuel + more) frontier m = markRounds store fuel frontier m := by
  induction fuel generalizing frontier m with
  | zero => omega
  | succ fuel ih =>
    rw [Nat.succ_add]
    cases frontier with
    | nil => rfl
    | cons first rest =>
      simp only [markRounds]
      cases hround : markRound store (first :: rest) [] m with
      | none => rfl
      | some result =>
        obtain ⟨next, mid⟩ := result
        obtain ⟨rfl, rfl⟩ | hlt := unmarkedSlots_round hround
        · -- nothing was marked, so there is nothing to do in the rounds that follow
          cases fuel <;> cases more <;> rfl
        · exact ih (Nat.lt_of_lt_of_le hlt (Nat.lt_succ_iff.1 hfuel))

/-- With more rounds than slots, marking comes to the same. -/
theorem mark_eq_markRounds {fuel : Nat} (hfuel : h.slots.size < fuel) :
    h.mark store roots = markRounds store fuel roots h := by
  obtain ⟨more, rfl⟩ := Nat.exists_eq_add_of_le (Nat.succ_le_of_lt hfuel)
  exact (markRounds_add (Nat.lt_succ_of_le Array.countP_le_size) more).symm

end Heap

end CallByNeed
