import CallByNeed.Proofs.Bindings
import CallByNeed.Proofs.Heap.Aging
import CallByNeed.Proofs.Matching.Assignment
import CallByNeed.Proofs.Restrained.Rules

/-!
# Disciplines

A discipline of a restraint is a relation between sessions that is kept by every
binding which the restraint lets pass, by every frame that an invocation opens,
by registering methods and by collecting.  Everything else that evaluation does
leaves the frames alone.

What an invocation opens its frame with is known (`Fills`): a formal is bound to
a promise or to the missing sentinel, the first `...` to a list of those, and
dispatch binds two names besides.  This rests on one fact about the arguments on
their way to a closure, that they are suspended (`Suspended`), which the stack
keeps (`Session.Orderly`).
-/

namespace CallByNeed

open Matching

/-! ## Suspended arguments -/

/-- A promise, or the missing sentinel. -/
def Value.IsSuspended (v : Value) : Prop := v.isMissingArg = true ∨ ∃ id, v = .promise id

def Suspended (args : ArgList) : Prop := ∀ arg ∈ args, arg.value.IsSuspended

@[simp] theorem suspended_nil : Suspended [] := nofun

theorem Suspended.cons {arg : Arg Value} {args : ArgList} (harg : arg.value.IsSuspended)
    (hargs : Suspended args) : Suspended (arg :: args) :=
  List.forall_mem_cons.2 ⟨harg, hargs⟩

theorem Suspended.append {args rest : ArgList} (hargs : Suspended args) (hrest : Suspended rest) :
    Suspended (args ++ rest) := by
  intro arg harg
  obtain h | h := List.mem_append.1 harg
  · exact hargs arg h
  · exact hrest arg h

/-- What dispatch binds in the frame of a method besides its formals. -/
def methodVariables : List Symbol := [⟨".Generic"⟩, ⟨".Class"⟩]

/-- What a name may be bound to in the frame of an invocation. -/
inductive Fills (formals : ArgList) : Symbol → Value → Prop where
  | supplied {i : Nat} {formal : Arg Value} {name : Symbol} {v : Value}
    (hformal : formals[i]? = some formal) (hname : formal.tag = some name)
    (hordinary : ¬ IsEllipsis formals i) (hv : v.IsSuspended) : Fills formals name v
  | collected {args : ArgList} (hargs : Suspended args) : Fills formals .ellipsis (.dots args)
  | besides {name : Symbol} {v : Value} (h : name ∈ methodVariables) : Fills formals name v

theorem Matching.exists_assigned {formals actuals result : ArgList} {populate : Bool}
    (h : matchFormals formals actuals populate = .ok result) :
    ∃ σ, Assigns formals actuals σ ∧ result = formals.zipIdx.map fun (formal, i) =>
      Arg.new formal.tag (assigned formals actuals σ i) := by
  obtain ⟨pairs, hpairs, h⟩ := bind_eq_ok_iff.1 h
  split at h
  · cases h
  · have hassigns := assigns_of_pair hpairs
    exact ⟨_, hassigns, eq_of_fill (passOn_of_pair hpairs) (nodup_of_pair hpairs)
      (fun hi => (hassigns.ordinary hi).1.1) h⟩

/-- Suspended arguments fill the formals that they are matched with. -/
theorem fills_of_matchFormals {formals actuals matched : ArgList} {populate : Bool}
    (hactuals : Suspended actuals) (h : matchFormals formals actuals populate = .ok matched)
    {formal arg : Arg Value} (hmem : (formal, arg) ∈ formals.zip matched) {name : Symbol}
    (hname : formal.tag = some name) : Fills formals name arg.value := by
  obtain ⟨σ, -, rfl⟩ := exists_assigned h
  obtain ⟨i, hi⟩ := List.mem_iff_getElem?.1 hmem
  obtain ⟨hformal, harg⟩ := List.getElem?_zip_eq_some.1 hi
  simp only [List.getElem?_map, List.getElem?_zipIdx, hformal, Option.map_some, Nat.zero_add,
    Option.some.injEq] at harg
  subst harg
  change Fills formals name (assigned formals actuals σ i)
  by_cases hellipsis : IsEllipsis formals i
  · have htag := (tagAt_of_getElem? hformal).symm.trans hellipsis.1
    obtain rfl : name = .ellipsis := Option.some.inj (hname.symm.trans htag)
    rw [assigned, if_pos hellipsis]
    refine .collected fun arg harg => ?_
    obtain ⟨entry, hentry, rfl⟩ := List.mem_map.1 harg
    exact hactuals _ (List.fst_mem_of_mem_zipIdx (List.mem_of_mem_filter hentry))
  · rw [assigned, if_neg hellipsis]
    refine .supplied hformal hname hellipsis ?_
    cases hactual : (σ i).bind (actuals[·]?) with
    | none => exact .inl rfl
    | some actual =>
      obtain ⟨a, -, ha⟩ := Option.bind_eq_some_iff.1 hactual
      exact hactuals _ (List.mem_of_getElem? ha)

namespace Session

variable {s t : Session} {env : EnvId}

/-- The heap is well formed, and the arguments of the active invocations are suspended. -/
structure Orderly (s : Session) : Prop where
  wellFormed : s.heap.WellFormed
  args : ∀ i ∈ s.stack, Suspended i.args

theorem Orderly.congr (hs : s.Orderly) (hheap : t.heap = s.heap) (hstack : t.stack = s.stack) :
    t.Orderly :=
  ⟨hheap ▸ hs.wellFormed, hstack ▸ hs.args⟩

theorem Orderly.bound (hs : s.Orderly) (env : EnvId) (name : Symbol) (binding : Binding) :
    (s.bound env name binding).Orderly :=
  ⟨hs.wellFormed.updateSlot _ _, hs.args⟩

theorem Orderly.allocate (hs : s.Orderly) (parent : Option EnvId) :
    { s with heap := (s.heap.allocate parent).2 }.Orderly :=
  ⟨hs.wellFormed.allocate parent, hs.args⟩

theorem orderly_initial (options : Options) (kernels : KernelTable) :
    (Session.initial options kernels).Orderly :=
  ⟨(Heap.wellFormed_empty.insert _).allocate _, nofun⟩

/-- There is one frame more, and its bindings are those of an invocation. -/
structure Opens (R : Restraint) (s t : Session) (env : EnvId) : Prop where
  ages : s.heap.Ages t.heap
  fresh : s.heap.contains env = false
  others : ∀ id, id ≠ env → t.heap.frame? id = s.heap.frame? id
  frame : ∃ f, t.heap.frame? env = some f ∧ ∀ name b, f.get? name = some b →
    ∃ formals, R.declares formals = true ∧ Fills formals name b.value

namespace Opens

variable {R : Restraint}

theorem contains (h : s.Opens R t env) : t.heap.contains env = true := by
  obtain ⟨f, hf, -⟩ := h.frame
  exact Heap.contains_of_frame? hf

theorem congr {u : Session} (h : s.Opens R t env) (hheap : u.heap = t.heap) : s.Opens R u env :=
  ⟨hheap ▸ h.ages, h.fresh, hheap ▸ h.others, hheap ▸ h.frame⟩

theorem allocate (hs : s.Orderly) (parent : Option EnvId) :
    s.Opens R { s with heap := (s.heap.allocate parent).2 } (s.heap.allocate parent).1 := by
  have hframe := hs.wellFormed.frame?_insert (.empty parent)
  refine ⟨.insert _ _, ?_, fun id hid => (hframe id).trans (if_neg hid), .empty parent, ?_, ?_⟩
  · exact Heap.frame?_eq_none_iff.1 (hs.wellFormed.frame?_new (.empty parent))
  · exact (hframe _).trans (if_pos rfl)
  · intro _ _ hb
    cases hb

theorem bound (h : s.Opens R t env) {formals : ArgList} (hformals : R.declares formals = true)
    {name : Symbol} {b : Binding} (hb : Fills formals name b.value) :
    s.Opens R (t.bound env name b) env := by
  have hlive := h.contains
  obtain ⟨f, hf, hfills⟩ := h.frame
  refine ⟨h.ages.trans (.updateSlot _ _ _), h.fresh, fun id hid => ?_, f.bind name b, ?_,
    fun other b' hb' => ?_⟩
  · rw [frame?_bound hlive, if_neg hid, h.others id hid]
  · rw [frame?_bound hlive, if_pos rfl, hf, Option.map_some]
  -- the binding is the new one, or was in the frame before
  · by_cases hother : other = name
    · subst hother
      rw [Frame.get?_bind_self] at hb'
      cases hb'
      exact ⟨formals, hformals, hb⟩
    · rw [Frame.get?_bind_of_ne _ _ hother] at hb'
      exact hfills other b' hb'

end Opens

end Session

/-- A relation between sessions that restrained evaluation keeps. -/
structure Discipline (R : Restraint) where
  rel : Session → Session → Prop
  trans : ∀ {s t u}, rel s t → rel t u → rel s u
  same : ∀ {s t}, s.Orderly → t.Orderly → t.heap = s.heap → rel s t
  binds : ∀ {s env name} (value : Value), s.Orderly → s.heap.contains env = true →
    R.binds s.heap env name = true → rel s (s.bound env name ⟨value, false⟩)
  opens : ∀ {s t env}, s.Orderly → t.Orderly → s.Opens R t env → rel s t
  registers : ∀ {s t generic className method env}, s.Orderly → t.Orderly →
    R.registers (methodName generic className) = true →
    SessionM.registerMethod generic className method env s = (.ok (), t) → rel s t
  collects : ∀ {s held freed heap}, s.Orderly →
    s.heap.collect s.promises s.rootEnvs (held ++ s.rootValues) = some (freed, heap) →
    rel s { s with heap }

namespace Discipline

variable {R : Restraint} (D : Discipline R) {α β : Type} {s t : Session}

/-- Begun in this session, the action keeps the discipline, leaves the stack as it was and has a
    value of this kind, if it has one. -/
structure HoldsAt (s : Session) (x : SessionM α) (P : α → Prop) : Prop where
  rel : D.rel s (x s).2
  wellFormed : (x s).2.heap.WellFormed
  stack : (x s).2.stack = s.stack
  value : ∀ a, (x s).1 = .ok a → P a

/-- Begun in an orderly session, the action keeps the discipline. -/
def Holds (x : SessionM α) (P : α → Prop := fun _ => True) : Prop :=
  ∀ s, s.Orderly → D.HoldsAt s x P

variable {D} {P : α → Prop} {Q : β → Prop}

theorem HoldsAt.orderly {x : SessionM α} (h : D.HoldsAt s x P) (hs : s.Orderly) :
    (x s).2.Orderly :=
  ⟨h.wellFormed, h.stack ▸ hs.args⟩

/-! ## Sequences of actions -/

/-- The action leaves the frames and the stack alone. -/
theorem HoldsAt.of_same {x : SessionM α} {outcome : Except Interrupt α} (hs : s.Orderly)
    (hrun : x s = (outcome, t)) (hheap : t.heap = s.heap) (hstack : t.stack = s.stack)
    (hvalue : ∀ a, outcome = .ok a → P a) : D.HoldsAt s x P := by
  have ht := hs.congr hheap hstack
  constructor <;> rw [hrun]
  exacts [D.same hs ht hheap, ht.wellFormed, hstack, hvalue]

theorem HoldsAt.of_rel {x : SessionM α} {outcome : Except Interrupt α} (hrun : x s = (outcome, t))
    (hrel : D.rel s t) (ht : t.heap.WellFormed) (hstack : t.stack = s.stack)
    (hvalue : ∀ a, outcome = .ok a → P a) : D.HoldsAt s x P := by
  constructor <;> rw [hrun]
  exacts [hrel, ht, hstack, hvalue]

theorem HoldsAt.bind {x : SessionM α} {f : α → SessionM β} (hs : s.Orderly)
    (hx : D.HoldsAt s x P)
    (hf : ∀ a t, x s = (.ok a, t) → t.Orderly → P a → D.HoldsAt t (f a) Q) :
    D.HoldsAt s (x >>= f) Q := by
  have ht := hx.orderly hs
  obtain ⟨hrel, -, hstack, hvalue⟩ := hx
  rcases hrun : x s with ⟨e | a, t⟩ <;> rw [hrun] at hrel hstack hvalue ht
  · exact .of_rel (SessionM.bind_run_error hrun f) hrel ht.wellFormed hstack fun _ h => nomatch h
  · obtain ⟨hrel', hwf, hstack', hvalue'⟩ := hf a t hrun ht (hvalue a rfl)
    constructor <;> rw [SessionM.bind_run_ok hrun]
    exacts [D.trans hrel hrel', hwf, hstack'.trans hstack, hvalue']

theorem Holds.bind {x : SessionM α} {f : α → SessionM β} (hx : D.Holds x P)
    (hf : ∀ a, P a → D.Holds (f a) Q) : D.Holds (x >>= f) Q :=
  fun s hs => (hx s hs).bind hs fun a t _ ht ha => hf a ha t ht

/-- What follows need not know anything of the value. -/
theorem Holds.andThen {x : SessionM α} {f : α → SessionM β} (hx : D.Holds x P)
    (hf : ∀ a, D.Holds (f a) Q) : D.Holds (x >>= f) Q :=
  hx.bind fun a _ => hf a

theorem Holds.weaken {x : SessionM α} {P' : α → Prop} (h : D.Holds x P) (hP : ∀ a, P a → P' a) :
    D.Holds x P' :=
  fun s hs =>
    ⟨(h s hs).rel, (h s hs).wellFormed, (h s hs).stack, fun a ha => hP a ((h s hs).value a ha)⟩

theorem holds_pure {a : α} (ha : P a) : D.Holds (pure a) P :=
  fun _ hs => .of_same hs rfl rfl rfl fun _ h => by cases h; exact ha

theorem holds_throw (e : Interrupt) : D.Holds (throw e : SessionM α) P :=
  fun _ hs => .of_same hs rfl rfl rfl fun _ h => nomatch h

theorem holds_fail (e : EvalError) : D.Holds (SessionM.fail e : SessionM α) P := holds_throw _

theorem holds_get_bind {f : Session → SessionM β} (hf : ∀ s, s.Orderly → D.Holds (f s) Q) :
    D.Holds (get >>= f) Q := by
  intro s hs
  have hrun : (get >>= f : SessionM β) s = f s s := SessionM.get_bind_run f s
  obtain ⟨hrel, hwf, hstack, hvalue⟩ := hf s hs s hs
  constructor <;> rw [hrun] <;> assumption

theorem holds_ofExcept {r : Except EvalError α} (h : ∀ a, r = .ok a → P a) :
    D.Holds (SessionM.ofExcept r) P := by
  cases r with
  | ok a => exact holds_pure (h a rfl)
  | error e => exact holds_fail e

theorem holds_askHeap (ask : Heap → Except EvalError α) : D.Holds (SessionM.askHeap ask) :=
  holds_get_bind fun _ _ => holds_ofExcept fun _ _ => trivial

/-- A change that leaves the frames and the stack alone. -/
theorem holds_modifyGet {f : Session → α × Session} (hheap : ∀ s, (f s).2.heap = s.heap)
    (hstack : ∀ s, (f s).2.stack = s.stack) (hP : ∀ s, P (f s).1) :
    D.Holds (modifyGet f : SessionM α) P :=
  fun s hs => .of_same hs rfl (hheap s) (hstack s) fun _ h => by cases h; exact hP s

theorem Holds.ite {p : Prop} [Decidable p] {x y : SessionM α} (hx : p → D.Holds x P)
    (hy : ¬ p → D.Holds y P) : D.Holds (if p then x else y) P := by
  split
  · exact hx ‹_›
  · exact hy ‹_›

theorem Holds.mapM {f : α → SessionM β} {items : List α} (h : ∀ a ∈ items, D.Holds (f a) Q) :
    D.Holds (items.mapM f) fun bs => ∀ b ∈ bs, Q b := by
  induction items with
  | nil => exact holds_pure fun _ h => nomatch h
  | cons a rest ih =>
    rw [List.mapM_cons]
    refine (h a List.mem_cons_self).bind fun b hb => ?_
    refine (ih fun c hc => h c (.tail _ hc)).bind fun bs hbs => holds_pure ?_
    exact List.forall_mem_cons.2 ⟨hb, hbs⟩

/-- An error or a return is dropped. -/
theorem Holds.attempt {x : SessionM α} (hx : D.Holds x P) :
    D.Holds (SessionM.attempt x) := by
  intro s hs
  obtain ⟨hrel, hwf, hstack, -⟩ := hx s hs
  rcases hrun : x s with ⟨(error | ⟨target, value⟩ | _) | a, t⟩ <;> rw [hrun] at hrel hwf hstack
  · exact .of_rel (by simp only [SessionM.attempt, hrun]; rfl) hrel hwf hstack fun _ _ => trivial
  · exact .of_rel (by simp only [SessionM.attempt, hrun]; rfl) hrel hwf hstack fun _ _ => trivial
  · exact .of_rel (by simp only [SessionM.attempt, hrun]; rfl) hrel hwf hstack fun _ _ => trivial
  · exact .of_rel (SessionM.attempt_run_ok hrun) hrel hwf hstack fun _ _ => trivial

theorem Holds.onlyIf {p : Session → Bool} {x : SessionM α}
    (hx : ∀ s, s.Orderly → p s = true → D.HoldsAt s x P) : D.Holds (SessionM.onlyIf p x) P := by
  intro s hs
  cases hp : p s with
  | true =>
    have hrun : SessionM.onlyIf p x s = x s := by simp only [SessionM.onlyIf, hp, if_true]
    obtain ⟨hrel, hwf, hstack, hvalue⟩ := hx s hs hp
    constructor <;> rw [hrun] <;> assumption
  | false =>
    have hrun : SessionM.onlyIf p x s = (.error .exhausted, s) := by
      simp only [SessionM.onlyIf, hp, Bool.false_eq_true, if_false]
    exact .of_same hs hrun rfl rfl fun _ h => by cases h

/-! ## Frames -/

theorem holds_bindIn (env : EnvId) (name : Symbol) (value : Value) :
    D.Holds (R.bindIn env name value) := by
  refine .onlyIf fun s hs hp => ?_
  have hrun := SessionM.bindIn_run env name value s
  split at hrun
  · rename_i hlive
    exact .of_rel hrun (D.binds value hs hlive hp) (hs.bound _ _ _).wellFormed rfl
      fun _ _ => trivial
  · exact .of_same hs hrun rfl rfl fun _ h => nomatch h

theorem holds_loadNamespace (name : Symbol) : D.Holds (SessionM.loadNamespace name) := by
  intro s hs
  cases hknown : s.namespaces.get? name with
  | some ns =>
    refine .of_same (t := { s with
      namespaces := (s.namespaces.load s.heap name).2.1
      heap := (s.namespaces.load s.heap name).2.2 }) hs rfl ?_ rfl fun _ _ => trivial
    simp [Namespaces.load, hknown]
  | none =>
    -- a new namespace has a new frame, with nothing in it
    let t : Session := { s with
      namespaces := (s.namespaces.load s.heap name).2.1
      heap := (s.namespaces.load s.heap name).2.2 }
    have hheap : t.heap = (s.heap.allocate (some s.namespaces.baseEnv)).2 := by
      simp [t, Namespaces.load, hknown]
    have ht : t.Orderly := ⟨hheap ▸ (hs.allocate _).wellFormed, hs.args⟩
    exact .of_rel (t := t) rfl (D.opens hs ht ((Session.Opens.allocate hs _).congr hheap))
      ht.wellFormed rfl fun _ _ => trivial

theorem holds_collect (held : List Value) : D.Holds (SessionM.collect held) := by
  intro s hs
  cases hfreed : s.heap.collect s.promises s.rootEnvs (held ++ s.rootValues) with
  | none => exact .of_same hs (SessionM.collect_run_refused hfreed) rfl rfl fun _ h => nomatch h
  | some result =>
    exact .of_rel (SessionM.collect_run hfreed) (D.collects hs hfreed)
      (hs.wellFormed.collect hfreed) rfl fun _ _ => trivial

/-! ## New values -/

theorem holds_newIdentity : D.Holds SessionM.newIdentity :=
  holds_modifyGet (fun _ => rfl) (fun _ => rfl) fun _ => trivial

theorem holds_newVector (elements : Elements) (attributes : Attributes) :
    D.Holds (SessionM.newVector elements attributes) :=
  holds_newIdentity.andThen fun _ => holds_pure trivial

theorem holds_newCall (function : Value) (args : ArgList) :
    D.Holds (SessionM.newCall function args) :=
  holds_newIdentity.andThen fun _ => holds_pure trivial

/-- A new promise is suspended. -/
theorem holds_newPromise (expr : Value) (state : PromiseState) :
    D.Holds (SessionM.newPromise expr state) Value.IsSuspended :=
  holds_modifyGet (fun _ => rfl) (fun _ => rfl) fun _ => .inr ⟨_, rfl⟩

theorem holds_newKept (expr value : Value) :
    D.Holds (SessionM.newKept expr value) Value.IsSuspended :=
  holds_newPromise expr _

theorem holds_deliver (r : Except EvalError Answer) : D.Holds (SessionM.deliver r) := by
  cases r with
  | error e => exact holds_fail e
  | ok answer =>
    cases answer with
    | existing value => exact holds_pure trivial
    | fresh elements attributes => exact holds_newVector elements attributes

/-! ## Arguments -/

theorem holds_suspend (expr : Value) (env : EnvId) :
    D.Holds (SessionM.suspend expr env) Value.IsSuspended := by
  have hpromised : D.Holds (SessionM.promiseOf expr env) Value.IsSuspended := by
    unfold SessionM.promiseOf
    split <;> exact holds_newPromise _ _
  unfold SessionM.suspend
  split
  · exact holds_pure (.inr ⟨_, rfl⟩)
  · exact .ite (fun hmissing => holds_pure (.inl hmissing)) fun _ => hpromised

theorem holds_suspendArg (tag : Option Symbol) (expr : Value) (env : EnvId) :
    D.Holds (do return Arg.new tag (← SessionM.suspend expr env))
      fun arg => arg.value.IsSuspended :=
  (holds_suspend expr env).bind fun _ hv => holds_pure hv

theorem holds_ellipsisArgs (env : EnvId) : D.Holds (SessionM.ellipsisArgs env) := by
  refine (holds_askHeap _).andThen fun found => ?_
  split
  · exact holds_pure trivial
  · exact holds_pure trivial
  · exact .ite (fun _ => holds_pure trivial) fun _ => holds_fail _

theorem holds_suspendArgs (args : ArgList) (env : EnvId) :
    D.Holds (SessionM.suspendArgs args env) Suspended := by
  induction args with
  | nil => exact holds_pure suspended_nil
  | cons arg rest ih =>
    have hrest (promised : ArgList) (hpromised : Suspended promised) : D.Holds (do
        return promised ++ (← SessionM.suspendArgs rest env)) Suspended :=
      ih.bind fun _ hrest => holds_pure (hpromised.append hrest)
    refine .ite (fun _ => ?_) fun _ => ?_
    · exact (holds_ellipsisArgs env).andThen fun dots =>
        (Holds.mapM fun dot _ => holds_suspendArg dot.tag dot.value env).bind hrest
    · refine (holds_suspend _ _).bind fun v hv => ?_
      exact hrest [Arg.new arg.tag v] (.cons hv suspended_nil)

/-! ## Brackets -/

/-- A promise is marked while it is evaluated, which leaves the frames alone. -/
theorem Holds.whileEvaluating {x : SessionM α} (hx : D.Holds x P) (id : PromiseId) :
    D.Holds (Evaluator.whileEvaluating id x) P := by
  intro s hs
  have hmark (u : Session) (hu : u.Orderly) (b : Bool) : D.rel u (u.mark id b) :=
    D.same hu (hu.congr rfl rfl) rfl
  have hmarked : (s.mark id true).Orderly := hs.congr rfl rfl
  have hinner := hx _ hmarked
  refine ⟨?_, hinner.wellFormed, hinner.stack, hinner.value⟩
  exact D.trans (hmark s hs true) (D.trans hinner.rel (hmark _ (hinner.orderly hmarked) false))

theorem Holds.catchReturn {x : SessionM Value} (hx : D.Holds x) (env : EnvId) :
    D.Holds (SessionM.catchReturn env x) := by
  intro s hs
  obtain ⟨hrel, hwf, hstack, -⟩ := hx s hs
  rcases hrun : x s with ⟨outcome, t⟩
  rw [hrun] at hrel hwf hstack
  by_cases hcaught : ∃ value, outcome = .error (.returning env value)
  · obtain ⟨value, rfl⟩ := hcaught
    exact .of_rel (SessionM.catchReturn_run_caught hrun) hrel hwf hstack fun _ _ => trivial
  · exact .of_rel (SessionM.catchReturn_run_passed hrun fun value he => hcaught ⟨value, he⟩) hrel
      hwf hstack fun _ _ => trivial

end Discipline

end CallByNeed
