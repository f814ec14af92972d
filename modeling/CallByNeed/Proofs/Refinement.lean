import CallByNeed.Proofs.Alike
import CallByNeed.Proofs.LoopTable
import CallByNeed.Proofs.Roots
import CallByNeed.Proofs.Shadowing

/-!
# A fused run is a generic run

The iterations of a generic run leave a session that is alike to the one that a
fused run leaves (`LoopSetting.iterate_alike`).
-/

namespace CallByNeed

/-! ## Bindings of numbers -/

namespace Session

variable {s : Session} {env start : EnvId} {name other : Symbol} {v w : DoubleVector}

theorem numbers?_bound_of_ne {binding : Binding} (hlive : s.heap.contains env = true)
    (hne : other ≠ name) :
    (s.bound env name binding).numbers? start other = s.numbers? start other := by
  unfold numbers?
  rw [valueOf?_bound_of_ne hlive hne]

theorem numbers?_bound_self (hlive : s.heap.contains env = true)
    (hclass : v.attributes.contains .classAttribute = false) (a : Identity) :
    (s.bound env name ⟨v.toValue a, false⟩).numbers? env name = some v := by
  unfold numbers?
  rw [valueOf?_bound_self hlive]
  change (if v.attributes.contains .classAttribute then _ else some v) = some v
  rw [hclass]
  rfl

/-- A name that stands for numbers is bound to no function in the environment itself. -/
theorem bindsNoFunction_of_numbers? (h : s.numbers? env name = some v) :
    s.BindsNoFunction env name := by
  intro frame binding hframe hbinding
  obtain ⟨⟨a, hvalue⟩, -⟩ := eq_of_numbers? h
  exact ⟨_, (valueOf?_of_frame? hframe hbinding).symm.trans hvalue, rfl⟩

/-- Binding other numbers to a name that stands for numbers changes no function. -/
theorem resolve?_bound_of_numbers? (h : s.numbers? env name = some v) (a : Identity) :
    (s.bound env name ⟨w.toValue a, false⟩).resolve? start other = s.resolve? start other :=
  resolve?_bound (contains_of_numbers? h)
    (fun _ => ⟨bindsNoFunction_of_numbers? h, _, rfl, rfl⟩) start

end Session

/-! ## From one iteration to the next -/

/-- Before an iteration: the accumulator is a single number, and once the loop variable is bound the
    iteration can be evaluated. -/
structure LoopSetting.Ready (l : LoopSetting) (s : Session) (start : Float)
    (attributes : Attributes) : Prop where
  live : s.heap.contains l.env = true
  start : s.numbers? l.env l.accumulator = some ⟨#[start], attributes⟩
  holds : ∀ x a, l.Holds (s.bound l.env l.var ⟨DoubleVector.toValue ⟨#[x], .empty⟩ a, false⟩) x

namespace LoopSetting

variable {l : LoopSetting} {s : Session} {x start : Float} {attributes : Attributes}

theorem Holds.counting (h : l.Holds s x) (identities : Nat) :
    l.Holds (s.counting identities) x where
  live := h.live
  base := h.base
  ops name hname op hop := by
    obtain ⟨identity, builtin, hresolve, hbuiltin⟩ := h.ops name hname op hop
    exact ⟨identity, builtin, (s.resolve?_counting identities l.env name).trans hresolve, hbuiltin⟩
  element := h.element
  given := h.given

theorem Ready.counting (h : l.Ready s start attributes) (identities : Nat) :
    l.Ready (s.counting identities) start attributes :=
  ⟨h.live, h.start, fun x a => (h.holds x a).counting identities⟩

/-- After one iteration, the next one can be evaluated. -/
theorem Ready.of_holds (h : l.Holds s x) (hvar : l.accumulator ≠ l.var)
    (hstart : s.numbers? l.env l.accumulator = some ⟨#[start], attributes⟩) (total : Float)
    (a : Identity) :
    l.Ready
      (s.bound l.env l.accumulator ⟨DoubleVector.toValue ⟨#[total], attributes⟩ a, false⟩)
      total attributes := by
  have hclass : attributes.contains .classAttribute = false := (Session.eq_of_numbers? hstart).2
  have hlive (id : EnvId) (binding : Binding) (hid : s.heap.contains id = true) :
      (s.bound l.env l.accumulator binding).heap.contains id = true :=
    (Session.contains_bound h.live _ _ id).trans hid
  refine ⟨hlive _ _ h.live, Session.numbers?_bound_self h.live hclass a, fun x' b => ?_⟩
  have helement : (s.bound l.env l.accumulator
      ⟨DoubleVector.toValue ⟨#[total], attributes⟩ a, false⟩).numbers? l.env l.var =
        some ⟨#[x], .empty⟩ :=
    (Session.numbers?_bound_of_ne h.live hvar.symm).trans h.element
  have hlive' := hlive _ ⟨DoubleVector.toValue ⟨#[total], attributes⟩ a, false⟩ h.live
  refine ⟨?_, ?_, fun name hname op hop => ?_, Session.numbers?_bound_self hlive' rfl b,
    fun entry hentry hne hne' => ?_⟩
  · exact (Session.contains_bound hlive' _ _ _).trans hlive'
  · exact (Session.contains_bound hlive' _ _ _).trans (hlive _ _ h.base)
  · obtain ⟨identity, builtin, hresolve, hbuiltin⟩ := h.ops name hname op hop
    refine ⟨identity, builtin, ?_, hbuiltin⟩
    -- both names stood for numbers before, so binding numbers to them again hides no function
    rw [Session.resolve?_bound_of_numbers? helement, Session.resolve?_bound_of_numbers? hstart]
    exact hresolve
  · rw [Session.numbers?_bound_of_ne hlive' hne, Session.numbers?_bound_of_ne h.live hne']
    exact h.given entry hentry hne hne'

/-- The session in which the accumulator is `total` and the loop variable is `x`. -/
def after (l : LoopSetting) (s : Session) (attributes : Attributes) (total x : Float)
    (a b : Identity) : Session :=
  (s.bound l.env l.accumulator ⟨DoubleVector.toValue ⟨#[total], attributes⟩ a, false⟩).bound
    l.env l.var ⟨DoubleVector.toValue ⟨#[x], .empty⟩ b, false⟩

theorem after_congr {t : Session} (h : s.Alike t) (total x : Float) (a b : Identity) :
    (l.after s attributes total x a b).Alike (l.after t attributes total x a b) :=
  (h.bound (.refl _) _ _).bound (.refl _) _ _

/-- What the iterations before have bound does not matter. -/
theorem after_after (hvar : l.accumulator ≠ l.var) (total x total' x' : Float)
    (a b a' b' : Identity) :
    (l.after (l.after s attributes total x a b) attributes total' x' a' b').Alike
      (l.after s attributes total' x' a' b') := by
  have haccumulator : ((l.after s attributes total x a b).bound l.env l.accumulator
      ⟨DoubleVector.toValue ⟨#[total'], attributes⟩ a', false⟩).Alike
        (l.after s attributes total' x a' b) :=
    (Session.Alike.bound_comm hvar.symm _ _ _ _).trans
      ((Session.Alike.bound_bound_self _ _ _ _ _).bound (.refl _) _ _)
  exact (haccumulator.bound (.refl _) _ _).trans (.bound_bound_self _ _ _ _ _)

/-- An iteration binds the loop variable first. -/
theorem alike_after (s : Session) (attributes : Attributes) (hvar : l.accumulator ≠ l.var)
    (total x : Float) (a b a' b' : Identity) :
    ((s.bound l.env l.var ⟨DoubleVector.toValue ⟨#[x], .empty⟩ b, false⟩).bound l.env
      l.accumulator ⟨DoubleVector.toValue ⟨#[total], attributes⟩ a, false⟩).Alike
        (l.after s attributes total x a' b') := by
  refine (Session.Alike.bound_comm hvar.symm _ _ _ _).trans ?_
  have hbinding (v : DoubleVector) (c c' : Identity) :
      Binding.Alike ⟨v.toValue c, false⟩ ⟨v.toValue c', false⟩ := ⟨.vector .., rfl⟩
  exact ((Session.Alike.refl s).bound (hbinding _ a a') _ _).bound (hbinding _ b b') _ _

end LoopSetting

/-- An iteration binds the loop variable to a new vector and evaluates the body. -/
theorem Evaluator.iterate_cons_run {ev : Evaluator} {s : Session} {env : EnvId} {var : Symbol}
    {body : Value} {x : Float} {rest : List Elements} (hlive : s.heap.contains env = true) :
    ev.iterate env var body (.double #[x] :: rest) s =
      (do
        let _ ← ev.evaluate body env
        ev.iterate env var body rest)
        ((s.bound env var ⟨DoubleVector.toValue ⟨#[x], .empty⟩ ⟨s.identities⟩, false⟩).counting
          (s.identities + 1)) := by
  let element := DoubleVector.toValue ⟨#[x], .empty⟩ ⟨s.identities⟩
  have hnew : SessionM.newVector (.double #[x]) .empty s =
      (.ok element, s.counting (s.identities + 1)) := rfl
  have hbind : SessionM.bindIn env var element (s.counting (s.identities + 1)) =
      (.ok (), (s.bound env var ⟨element, false⟩).counting (s.identities + 1)) := by
    rw [SessionM.bindIn_run]
    exact if_pos hlive
  rw [Evaluator.iterate, SessionM.bind_run_ok hnew, SessionM.bind_run_ok hbind]

namespace LoopSetting

variable {l : LoopSetting} {s : Session} {x start : Float} {attributes : Attributes} {body : Value}
  {e : LoopExpr}

/-- The session after one iteration: the loop variable was bound, and the body has added its
    increment. -/
theorem iteration_run (hown : l.kernels.IsOwn)
    (hbody : LowersBody l.op l.var l.accumulator body e) (hnames : body.calledNames ⊆ l.names)
    (hready : l.Ready s start attributes) {i : Nat} {y : Float} (hi : l.index[i]? = some x)
    (hadds : l.Adds e i y) :
    ∃ u, (Eventually fun n => ∀ rest,
        (evaluator n).iterate l.env l.var body (.double #[x] :: rest) s =
          (evaluator n).iterate l.env l.var body rest u) ∧
      l.Ready u (start + y) attributes ∧
        ∀ a b, u.Alike (l.after s attributes (start + y) x a b) := by
  have hvar : l.accumulator ≠ l.var := hbody.accumulator_ne
  let element := DoubleVector.toValue ⟨#[x], .empty⟩ ⟨s.identities⟩
  let s' := s.bound l.env l.var ⟨element, false⟩
  have hs : l.Holds s' x := hready.holds x _
  have hstart : s'.numbers? l.env l.accumulator = some ⟨#[start], attributes⟩ :=
    (Session.numbers?_bound_of_ne hready.live hvar).trans hready.start
  obtain ⟨c, m, heval⟩ := hbody.evaluates hs hown hi hnames hadds hstart (s.identities + 1)
  let total := DoubleVector.toValue ⟨#[start + y], attributes⟩ c
  refine ⟨(s'.bound l.env l.accumulator ⟨total, false⟩).counting m,
    heval.imp fun n heval rest => ?_, (Ready.of_holds hs hvar hstart _ c).counting m, fun a b => ?_⟩
  · rw [Evaluator.iterate_cons_run hready.live, SessionM.bind_run_ok heval]
    rfl
  · exact (alike_after s attributes hvar (start + y) x c ⟨s.identities⟩ a b).counting m

/-- The iterations of a loop leave the accumulator with all increments added to it, and the loop
    variable with its last value. -/
theorem iterate_alike (hown : l.kernels.IsOwn)
    (hbody : LowersBody l.op l.var l.accumulator body e) (hnames : body.calledNames ⊆ l.names)
    (hready : l.Ready s start attributes) {steps : List (Float × Float)}
    (hsteps : ∀ p ∈ steps, ∃ i, l.index[i]? = some p.1 ∧ l.Adds e i p.2) {last : Float}
    (hlast : (steps.map (·.1)).getLast? = some last) (a b : Identity) :
    ∃ u, (Eventually fun n =>
        (evaluator n).iterate l.env l.var body (steps.map fun p => .double #[p.1]) s =
          (.ok (), u)) ∧
      u.Alike (l.after s attributes ((steps.map (·.2)).foldl (· + ·) start) last a b) := by
  -- over the steps that are left; `Ready` is what one iteration hands on to the next
  induction steps generalizing s start with
  | nil => cases hlast
  | cons p rest ih =>
    obtain ⟨⟨i, hi, hadds⟩, hrest⟩ := List.forall_mem_cons.1 hsteps
    obtain ⟨s', hrun, hready', halike⟩ := iteration_run hown hbody hnames hready hi hadds
    cases rest with
    | nil =>
      cases hlast
      exact ⟨s', hrun.imp fun n hrun => hrun [], halike a b⟩
    | cons q rest =>
      obtain ⟨u, hrun', halike'⟩ := ih hready' hrest hlast
      refine ⟨u, hrun.imp₂ hrun' fun n hrun hrun' => (hrun _).trans hrun', ?_⟩
      exact (halike'.trans (after_congr (halike a b) _ _ a b)).trans
          (after_after hbody.accumulator_ne _ _ _ _ _ _ _ _)

end LoopSetting

/-! ## What a completed trial says -/

/-- What is recorded about the loop instance of a call, if it may be run on whole vectors, is what
    its guard makes of the body. -/
def Session.Renders (s : Session) (call : Call) (var : Symbol) (body : Value) : Prop :=
  ∀ loop, (s.loops.status? call).bind LoopStatus.accumulation? = some loop → loop.Renders var body

theorem Accumulation.Computes.congr {loop : Accumulation} {s t : Session} {env : EnvId}
    {sequence : Value} {v : FusedValues} (h : loop.Computes s env sequence v)
    (hheap : t.heap = s.heap) (hpromises : t.promises = s.promises)
    (hkernels : t.kernels = s.kernels) : loop.Computes t env sequence v := by
  have hvariable (name : Symbol) : t.numbers? env name = s.numbers? env name := by
    unfold Session.numbers? Session.valueOf? Session.known?
    rw [hheap, hpromises]
  obtain ⟨given, lane, hgiven, hlane, hincrements⟩ := h.increments
  refine ⟨fun g hg => ?_, h.index, h.last, (hvariable _).trans h.start,
    ⟨given, lane, fun entry hentry => ?_, ?_, hincrements⟩, ?_⟩
  · exact (Session.resolve?_congr hheap hpromises env).trans (h.fits g hg)
  · exact (hvariable _).trans (hgiven entry hentry)
  · rw [hkernels]
    exact hlane
  · rw [hkernels]
    exact h.total

namespace Evaluator

variable {fuel : Nat} {s t : Session} {env : EnvId} {var : Symbol} {sequence body : Value}
  {call : Call}

/-- The decision about a new instance changes the record of loops only, and what it records is what
    the guard makes of the body. -/
theorem ensureAnalyzed_run_of_settled (hquiet : s.Settled env body.calledNames)
    (hrecord : s.Renders call var body)
    (h : (evaluator fuel).ensureAnalyzed call env var body s = (.ok (), t)) :
    ∃ loops stats, t = { s with loops, stats } ∧ t.Renders call var body := by
  have hcount : s.countAnalysis.Settled env body.calledNames := hquiet
  rcases ensureAnalyzed_run_quiet var (hcount.looksQuietly (evaluator fuel)) hrecord
      fun loop hrun => (renders_of_analyze hrun (.of_promises rfl)).2.2 with
    ⟨loops, stats, hrun, hrenders⟩ | ⟨-, hrun⟩ <;> rw [hrun] at h <;> cases h
  exact ⟨loops, stats, rfl, hrenders⟩

/-- Where a trial completes on whole vectors, it has computed everything from a loop that is what
    its guard makes of the body. -/
theorem tryFused_run_of_settled (hquiet : s.Settled env body.calledNames)
    (hrecord : s.Renders call var body)
    (h : (evaluator fuel).tryFused call env var sequence s = (.ok true, t)) :
    ∃ loop v, loop.Renders var body ∧ loop.Computes s env sequence v ∧
      t = (s.fused env loop.accumulator var v).fuseLoop call loop := by
  have hguard (loop : Accumulation)
      (hloop : (s.loops.status? call).bind LoopStatus.accumulation? = some loop) :
      (evaluator fuel).LooksQuietly env (loop.guard.map (·.name)) True s := by
    refine Session.Settled.looksQuietly (fun name hname => ?_) _
    obtain ⟨g, hg, rfl⟩ := List.mem_map.1 hname
    exact hquiet _ ((hrecord loop hloop).guard g hg)
  rcases tryFused_run var sequence hguard with
    ⟨_, _, hrun⟩ | ⟨loop, v, hloop, hcomputes, hrun⟩ | ⟨-, hrun⟩ <;> rw [hrun] at h <;> cases h
  exact ⟨loop, v, hrecord loop hloop, hcomputes, rfl⟩

end Evaluator

/-! ## The generic run of the same loop -/

theorem Value.eq_of_plainDoubles? {value : Value} {xs : Array Float}
    (h : value.plainDoubles? = some xs) : ∃ id, value = .vector ⟨id, .double xs, .empty⟩ := by
  unfold Value.plainDoubles? at h
  split at h
  · rename_i id xs' attributes
    split at h
    · rename_i hempty
      cases h
      obtain ⟨entries⟩ := attributes
      obtain rfl : entries = [] := List.isEmpty_iff.1 hempty
      exact ⟨id, rfl⟩
    · cases h
  · cases h

/-- Binding the name to a vector in the environment leaves the function that it stands for. -/
def Session.KeepsFunction (s : Session) (env : EnvId) (name : Symbol) : Prop :=
  ∀ v, (s.bound env name ⟨.vector v, false⟩).resolve? env name = s.resolve? env name

/-- Binding the name to a vector in the environment leaves no function that it could stand for. -/
def Session.LosesFunction (s : Session) (env : EnvId) (name : Symbol) : Prop :=
  ∀ v, (s.bound env name ⟨.vector v, false⟩).resolve? env name = some none

namespace LoopSetting

/-- The setting in which a loop that was computed as a whole runs one iteration at a time. -/
def ofLoop (loop : Accumulation) (s : Session) (env : EnvId) (var : Symbol) (names : List Symbol)
    (index : Array Float) (given : List (Symbol × DoubleVector)) : LoopSetting :=
  { env, var, accumulator := loop.accumulator, op := loop.op, names, index, given
    kernels := s.kernels }

/-- The first iteration can be evaluated, if binding the loop variable leaves the functions that the
    names stand for. -/
theorem holds_ofLoop {loop : Accumulation} {s : Session} {env : EnvId} {var : Symbol}
    {names : List Symbol} {index : Array Float} {given : List (Symbol × DoubleVector)}
    (hlive : s.heap.contains env = true) (hbase : s.heap.contains s.namespaces.baseEnv = true)
    (hfits : s.Fits env loop.guard) (hkeeps : var ∈ names → s.KeepsFunction env var)
    (hgiven : ∀ entry ∈ given, s.numbers? env entry.1 = some entry.2) (x : Float) (a : Identity) :
    (ofLoop loop s env var names index given).Holds
      (s.bound env var ⟨DoubleVector.toValue ⟨#[x], .empty⟩ a, false⟩) x where
  live := (Session.contains_bound hlive _ _ _).trans hlive
  base := (Session.contains_bound hlive _ _ _).trans hbase
  ops name hname op hop := by
    obtain ⟨g, hfind, hbuiltin⟩ := Option.bind_eq_some_iff.1 hop
    -- the guard says what the name stands for; only binding the loop variable could change that
    obtain rfl : g.name = name := by simpa using List.find?_some hfind
    have hfound := hfits g (List.mem_of_find?_eq_some hfind)
    refine ⟨g.identity, g.builtin, Eq.trans ?_ hfound, hbuiltin⟩
    by_cases hsame : g.name = var
    · rw [hsame] at hname ⊢
      exact hkeeps hname _
    · exact Session.resolve?_bound hlive (fun h => absurd h hsame) env
  element := Session.numbers?_bound_self hlive rfl a
  given entry hentry hne _ := (Session.numbers?_bound_of_ne hlive hne).trans (hgiven entry hentry)

end LoopSetting

namespace Evaluator

variable {s : Session} {env : EnvId} {var : Symbol} {sequence body : Value} {loop : Accumulation}
  {v : FusedValues}

theorem size_pos_of_computes (h : loop.Computes s env sequence v) : 0 < v.index.size := by
  have hlast := h.last
  rw [Array.back?] at hlast
  obtain ⟨hlt, -⟩ := Array.getElem?_eq_some_iff.1 hlast
  omega

/-- If binding the loop variable leaves the functions that the body calls, the generic run of a loop
    that can be computed as a whole leaves a session that is alike to the one with the two
    results. -/
theorem genericRun_alike (hown : s.kernels.IsOwn)
    (hbase : s.heap.contains s.namespaces.baseEnv = true) (hrenders : loop.Renders var body)
    (hcomputes : loop.Computes s env sequence v)
    (hkeeps : var ∈ body.calledNames → s.KeepsFunction env var) :
    ∃ u, (Eventually fun n =>
        (evaluator n).genericRun env var sequence body s = (.ok (), u)) ∧
      u.Alike (s.fused env loop.accumulator var v) := by
  obtain ⟨given, lane, hgiven, hlane, hincrements⟩ := hcomputes.increments
  let l := LoopSetting.ofLoop loop s env var body.calledNames v.index given
  have hlive := Session.contains_of_numbers? hcomputes.start
  have hready : l.Ready s v.start v.attributes :=
    ⟨hlive, hcomputes.start,
      LoopSetting.holds_ofLoop hlive hbase hcomputes.fits hkeeps hgiven⟩
  have hfits := LoopExpr.fits_of_evaluate (size_pos_of_computes hcomputes) hlane
  obtain ⟨-, hsize, -⟩ := Lane.increments_inIteration hfits hincrements
  -- one step for each element, with what the fused run adds for it
  let steps := v.index.toList.zip v.increments.toList
  have hindex : steps.map (·.1) = v.index.toList := List.map_fst_zip (by simp [hsize])
  have hadded : steps.map (·.2) = v.increments.toList := List.map_snd_zip (by simp [hsize])
  have hsteps : ∀ p ∈ steps, ∃ i, l.index[i]? = some p.1 ∧ l.Adds loop.increment i p.2 := by
    intro p hp
    obtain ⟨i, hi⟩ := List.mem_iff_getElem?.1 hp
    obtain ⟨hx, hy⟩ := List.getElem?_zip_eq_some.1 hi
    rw [Array.getElem?_toList] at hx hy
    exact ⟨i, hx, lane, v.increments, hlane, hincrements, hy⟩
  have hlast : (steps.map (·.1)).getLast? = some v.last := by
    rw [hindex, Array.getLast?_toList]
    exact hcomputes.last
  obtain ⟨u, hrun, halike⟩ := LoopSetting.iterate_alike hown hrenders.lowers
    (List.Subset.refl _) hready hsteps hlast ⟨s.identities⟩ ⟨s.identities + 1⟩
  refine ⟨u, hrun.imp fun n hrun => ?_, halike.trans ?_⟩
  · obtain ⟨id, rfl⟩ := Value.eq_of_plainDoubles? hcomputes.index
    have hsingles : (Elements.double v.index).singles = steps.map fun p => .double #[p.1] := by
      rw [Elements.singles, ← hindex, List.map_map]
      rfl
    rw [Evaluator.genericRun, hsingles]
    exact hrun
  · have htotal : (steps.map (·.2)).foldl (· + ·) v.start = v.total := by
      rw [hadded, Array.foldl_toList]
      exact (hown.accumulate_ok hcomputes.total).symm
    rw [htotal]
    exact .of_heap rfl rfl

/-- If the body calls the loop variable, and binding that leaves no function of its name, the
    generic run of a loop that can be computed as a whole fails. -/
theorem genericRun_fails (hown : s.kernels.IsOwn)
    (hbase : s.heap.contains s.namespaces.baseEnv = true) (hrenders : loop.Renders var body)
    (hcomputes : loop.Computes s env sequence v) (hvar : var ∈ body.calledNames)
    (hloses : s.LosesFunction env var) :
    Eventually fun n => ∃ u, (evaluator n).genericRun env var sequence body s =
      (.error (.failure (.functionNotFound var)), u) := by
  obtain ⟨given, lane, hgiven, hlane, -⟩ := hcomputes.increments
  obtain ⟨id, rfl⟩ := Value.eq_of_plainDoubles? hcomputes.index
  have hlive := Session.contains_of_numbers? hcomputes.start
  obtain ⟨x, rest, hindex⟩ : ∃ x rest, v.index.toList = x :: rest :=
    List.exists_cons_of_length_pos (size_pos_of_computes hcomputes)
  let l := LoopSetting.ofLoop loop s env var body.calledNames v.index given
  let s' := s.bound env var ⟨DoubleVector.toValue ⟨#[x], .empty⟩ ⟨s.identities⟩, false⟩
  have hfirst : l.index[0]? = some x := by
    rw [← Array.getElem?_toList]
    exact congrArg (·[0]?) hindex
  -- all names but the loop variable still stand for what they stood for in the first iteration
  have hother : var ∈ body.calledNames.filter (· ≠ var) → s.KeepsFunction env var := fun h => by
    simpa using (List.mem_filter.1 h).2
  have hhides : l.Hides s' x :=
    ⟨LoopSetting.holds_ofLoop hlive hbase hcomputes.fits hother hgiven _ _, hloses _⟩
  have hstart : s'.numbers? env loop.accumulator = some ⟨#[v.start], v.attributes⟩ :=
    (Session.numbers?_bound_of_ne hlive hrenders.lowers.accumulator_ne).trans hcomputes.start
  have hfails : FailsWith (s'.counting (s.identities + 1)) env body (.functionNotFound var) :=
    hrenders.lowers.fails hhides hown hfirst hvar (List.Subset.refl _) hlane hstart _
  refine hfails.imp fun n ⟨u, hbody⟩ => ⟨u, ?_⟩
  have hsingles : (Elements.double v.index).singles =
      .double #[x] :: rest.map fun x => .double #[x] := by
    rw [Elements.singles, hindex]
    rfl
  rw [Evaluator.genericRun, hsingles, iterate_cons_run hlive, SessionM.bind_run_error hbody]

end Evaluator

/-! ## Both runs of a loop -/

theorem Session.Renders.fuseLoop {s : Session} {call : Call} {var : Symbol} {body : Value}
    {loop : Accumulation} (h : loop.Renders var body) :
    (s.fuseLoop call loop).Renders call var body := by
  intro found hfound
  rw [Session.fuseLoop, LoopTable.status?_set, if_pos rfl] at hfound
  cases hstatus : s.loops.status? call with
  | none =>
    rw [hstatus] at hfound
    cases hfound
  | some status =>
    rw [hstatus] at hfound
    cases hfound
    exact h

open Evaluator in
/-- A loop completes on whole vectors; no name that its body calls is bound to a waiting promise,
    and what is recorded about it is what its guard makes of the body.  Then its generic run leaves
    an alike session, unless the body calls the loop variable and binding that changes the function
    it stands for; and where binding it leaves no function, the generic run fails. -/
theorem Session.Reachable.fused_run_alike {options : Options} {kernels : List Kernel}
    {s t : Session} {fuel : Nat} {call : Call} {env : EnvId} {var : Symbol} {sequence body : Value}
    (h : s.Reachable options (.ofKernels kernels)) (hown : ∀ kernel ∈ kernels, kernel.IsOwn)
    (hquiet : s.Settled env body.calledNames) (hrecord : s.Renders call var body)
    (hrun : (do
      (evaluator fuel).ensureAnalyzed call env var body
      (evaluator fuel).tryFused call env var sequence) s = (.ok true, t)) :
    ((var ∈ body.calledNames → s.KeepsFunction env var) →
      ∃ u, (Eventually fun n =>
          (evaluator n).genericRun env var sequence body s = (.ok (), u)) ∧ u.Alike t) ∧
    (var ∈ body.calledNames → s.LosesFunction env var →
      Eventually fun n => ∃ u, (evaluator n).genericRun env var sequence body s =
        (.error (.failure (.functionNotFound var)), u)) ∧
    t.Renders call var body := by
  obtain ⟨hkernels, hnamespaces, hbase⟩ := h.rooted
  have hown : s.kernels.IsOwn := hkernels ▸ KernelTable.isOwn_ofKernels hown
  rw [← hnamespaces] at hbase
  rcases hanalyzed : (evaluator fuel).ensureAnalyzed call env var body s with ⟨_ | _, s'⟩
  · rw [SessionM.bind_run_error hanalyzed] at hrun
    cases hrun
  rw [SessionM.bind_run_ok hanalyzed] at hrun
  obtain ⟨loops, stats, rfl, hrecord⟩ := ensureAnalyzed_run_of_settled hquiet hrecord hanalyzed
  have hquiet' : ({ s with loops, stats } : Session).Settled env body.calledNames := hquiet
  obtain ⟨loop, v, hrenders, hcomputes, rfl⟩ := tryFused_run_of_settled hquiet' hrecord hrun
  have hcomputes : loop.Computes s env sequence v := hcomputes.congr rfl rfl rfl
  refine ⟨fun hkeeps => ?_, genericRun_fails hown hbase hrenders hcomputes, .fuseLoop hrenders⟩
  obtain ⟨u, hgeneric, halike⟩ := genericRun_alike hown hbase hrenders hcomputes hkeeps
  exact ⟨u, hgeneric, halike.trans (.of_heap rfl rfl)⟩

/-- Where `f` is another name of `sqrt`, the loop over `i` with the body `total <- total + i` does
    the same on whole vectors, and the loop over `f` with the body `total <- total + f(f)` completes
    on whole vectors only. -/
theorem Session.Reachable.fused_run_alike_sum :
    let fresh := Session.initial {} (.ofKernels [.sumMean])
    let env := fresh.globalEnv
    let zero := DoubleVector.toValue ⟨#[0], .empty⟩ ⟨100⟩
    let s := (fresh.bound env ⟨"total"⟩ ⟨zero, false⟩).bound env ⟨"f"⟩
      ⟨.builtin ⟨101⟩ (.eager (.math .sqrt)), false⟩
    let node (name : String) (args : List Value) : Call :=
      ⟨⟨102⟩, .symbol ⟨name⟩, args.map Arg.untagged⟩
    let total : Value := .symbol ⟨"total"⟩
    let add (increment : Value) : Value :=
      .call (node "<-" [total, .call (node "+" [total, increment])])
    let sum := add (.symbol ⟨"i"⟩)
    let shadowed := add (.call (node "f" [.symbol ⟨"f"⟩]))
    let sequence := DoubleVector.toValue ⟨#[1, 4, 9], .empty⟩ ⟨103⟩
    let trial (var : Symbol) (body : Value) : SessionM Bool := do
      (evaluator 0).ensureAnalyzed (node "for" []) env var body
      (evaluator 0).tryFused (node "for" []) env var sequence
    (∃ t, trial ⟨"i"⟩ sum s = (.ok true, t) ∧ ∃ u, (Eventually fun n =>
      (evaluator n).genericRun env ⟨"i"⟩ sequence sum s = (.ok (), u)) ∧ u.Alike t) ∧
    (∃ t, trial ⟨"f"⟩ shadowed s = (.ok true, t)) ∧
      Eventually fun n => ∃ u, (evaluator n).genericRun env ⟨"f"⟩ sequence shadowed s =
        (.error (.failure (.functionNotFound ⟨"f"⟩)), u) := by
  intro fresh env zero s node total add sum shadowed sequence trial
  have hreachable : s.Reachable {} (.ofKernels [.sumMean]) :=
    .host (.host .initial (.move (.write _ _ rfl))) (.move (.write _ _ rfl))
  have hown : ∀ kernel ∈ [Kernel.sumMean], kernel.IsOwn := fun _ h =>
    .inl (List.mem_singleton.1 h)
  have hquiet (names : List Symbol) : s.Settled env names := fun _ _ _ _ _ _ _ _ => rfl
  have hrecord (var : Symbol) (body : Value) : s.Renders (node "for" []) var body := nofun
  have ht : trial ⟨"i"⟩ sum s = (.ok true, (trial ⟨"i"⟩ sum s).2) := Prod.ext rfl rfl
  have ht' : trial ⟨"f"⟩ shadowed s = (.ok true, (trial ⟨"f"⟩ shadowed s).2) := Prod.ext rfl rfl
  obtain ⟨halike, -, -⟩ := fused_run_alike hreachable hown (hquiet _) (hrecord _ _) ht
  obtain ⟨-, hfails, -⟩ := fused_run_alike hreachable hown (hquiet _) (hrecord _ _) ht'
  have hvar : (⟨"i"⟩ : Symbol) ∉ sum.calledNames := by decide
  have hcalls : (⟨"f"⟩ : Symbol) ∈ shadowed.calledNames := by decide
  exact ⟨⟨_, ht, halike fun h => absurd h hvar⟩, ⟨_, ht'⟩, hfails hcalls fun _ => rfl⟩

end CallByNeed
