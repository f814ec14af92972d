import CallByNeed.Evaluator
import CallByNeed.Proofs.Relocation.Heaps
import CallByNeed.Proofs.Twins.Loops

/-!
# Actions in a relocated session

An action carries over if it does the same in a session with its promises relocated:
the outcome is the relocated one, and the session afterwards is the relocated one
(`Relocation.Carries`).  Two actions that carry over, one after the other, carry over
(`Carries.bind`), and so do all the small actions of a session.
-/

namespace CallByNeed

instance : Renames Invocation where
  rename r i :=
    { env := rename r i.env, callerEnv := rename r i.callerEnv, closure := rename r i.closure
      call := rename r i.call, args := rename r i.args }

namespace Renaming

variable {α β : Type} (r : Renaming)

/-- The interrupt with the value of a return renamed. -/
def interrupt : Interrupt → Interrupt
  | .returning env value => .returning (rename r env) (rename r value)
  | e => e

/-- The outcome with what it refers to renamed, where `f` renames the value. -/
def outcome (f : α → β) : Except Interrupt α → Except Interrupt β
  | .ok a => .ok (f a)
  | .error e => .error (r.interrupt e)

end Renaming

namespace Relocation

variable (ρ : Relocation) {α β γ δ : Type}

/-- The session with its promises relocated. -/
def session (s : Session) : Session :=
  { s with
    heap := ρ.move s.heap
    promises := ρ.store s.promises
    stack := ρ.move s.stack
    loops := ρ.move s.loops
    preserved := ρ.move s.preserved }

/-- The relocated outcome, where `f` relocates the value. -/
abbrev outcome (f : α → β) : Except Interrupt α → Except Interrupt β :=
  (Renaming.ofPromises ρ.promise).outcome f

/-- The second action does in the relocated session what the first one does in the session, where
    the relocation is made for the stores before and after.  No promise goes away. -/
def Carries (f : α → β) (x : SessionM α) (y : SessionM β) : Prop :=
  ∀ s, s.promises.cells.size ≤ (x s).2.promises.cells.size ∧
    (ρ.Covers s.promises → ρ.Covers (x s).2.promises →
      y (ρ.session s) = (ρ.outcome f (x s).1, ρ.session (x s).2))

variable {ρ}

namespace Carries

variable {f : α → β} {g : γ → δ} {x : SessionM α} {y : SessionM β}

theorem of_run {s t : Session} {o : Except Interrupt α} (hx : x s = (o, t))
    (hsize : s.promises.cells.size ≤ t.promises.cells.size)
    (hy : ρ.Covers s.promises → ρ.Covers t.promises →
      y (ρ.session s) = (ρ.outcome f o, ρ.session t)) :
    s.promises.cells.size ≤ (x s).2.promises.cells.size ∧
      (ρ.Covers s.promises → ρ.Covers (x s).2.promises →
        y (ρ.session s) = (ρ.outcome f (x s).1, ρ.session (x s).2)) := by
  rw [hx]
  exact ⟨hsize, hy⟩

/-! ## Sequences of actions -/

theorem pure {a : α} {b : β} (h : f a = b) : ρ.Carries f (pure a) (pure b) :=
  fun _ => ⟨le_rfl, fun _ _ => by rw [← h]; rfl⟩

theorem fail (e : EvalError) : ρ.Carries f (SessionM.fail e) (SessionM.fail e) :=
  fun _ => ⟨le_rfl, fun _ _ => rfl⟩

theorem exhausted : ρ.Carries f (throw .exhausted) (throw .exhausted) :=
  fun _ => ⟨le_rfl, fun _ _ => rfl⟩

theorem returning (env : EnvId) (value : Value) :
    ρ.Carries f (throw (.returning env value)) (throw (.returning env (ρ.move value))) :=
  fun _ => ⟨le_rfl, fun _ _ => rfl⟩

theorem bind {k : α → SessionM γ} {k' : β → SessionM δ} (hx : ρ.Carries f x y)
    (hk : ∀ a, ρ.Carries g (k a) (k' (f a))) : ρ.Carries g (x >>= k) (y >>= k') := by
  intro s
  obtain ⟨hsize, hrun⟩ := hx s
  rcases hxs : x s with ⟨e | a, t⟩ <;> rw [hxs] at hsize hrun
  · exact of_run (SessionM.bind_run_error hxs k) hsize fun hs ht =>
      SessionM.bind_run_error (hrun hs ht) k'
  · -- the store in between is no smaller than the first and no larger than the last
    obtain ⟨hsize', hnext⟩ := hk a t
    refine of_run (SessionM.bind_run_ok hxs k) (hsize.trans hsize') fun hs hu => ?_
    have ht : ρ.Covers t.promises := ρ.between hsize hsize' hs hu
    exact (SessionM.bind_run_ok (hrun hs ht) k').trans (hnext ht hu)

theorem map {h : γ → δ} {k : α → γ} {k' : β → δ} (hx : ρ.Carries f x y)
    (hk : ∀ a, h (k a) = k' (f a)) :
    ρ.Carries h (do return k (← x)) (do return k' (← y)) :=
  hx.bind fun a => pure (hk a)

theorem get_bind {k : Session → SessionM γ} {k' : Session → SessionM δ}
    (hk : ∀ s, ρ.Carries g (k s) (k' (ρ.session s))) :
    ρ.Carries g (get >>= k) (get >>= k') := fun s => hk s s

/-- What comes after reading the session may depend on what the promises in it are. -/
theorem get_bind_of {k : Session → SessionM γ} {k' : Session → SessionM δ}
    (hk : ∀ s, ∃ y, ρ.Carries g (k s) y ∧ (ρ.Covers s.promises → k' (ρ.session s) = y)) :
    ρ.Carries g (get >>= k) (get >>= k') := by
  intro s
  obtain ⟨y, hy, hsame⟩ := hk s
  obtain ⟨hsize, hrun⟩ := hy s
  refine ⟨hsize, fun hs ht => ?_⟩
  show k' (ρ.session s) (ρ.session s) = _
  rw [hsame hs]
  exact hrun hs ht

theorem modifyGet {change : Session → α × Session} {change' : Session → β × Session}
    (hsize : ∀ s, s.promises.cells.size ≤ (change s).2.promises.cells.size)
    (h : ∀ s, ρ.Covers s.promises → ρ.Covers (change s).2.promises →
      change' (ρ.session s) = (f (change s).1, ρ.session (change s).2)) :
    ρ.Carries f (modifyGet change) (modifyGet change') := by
  intro s
  refine of_run (SessionM.modifyGet_run change s) (hsize s) fun hs ht => ?_
  rw [SessionM.modifyGet_run, h s hs ht]
  rfl

theorem ite {p q : Prop} [Decidable p] [Decidable q] {x' : SessionM α} {y' : SessionM β}
    (hpq : q ↔ p) (hx : ρ.Carries f x y) (hx' : ρ.Carries f x' y') :
    ρ.Carries f (if p then x else x') (if q then y else y') :=
  rel_ite (R := ρ.Carries f) hpq (fun _ => hx) fun _ => hx'

theorem forM {k : α → SessionM PUnit} {k' : β → SessionM PUnit}
    (h : ∀ a, ρ.Carries id (k a) (k' (f a))) (items : List α) :
    ρ.Carries id (items.forM k) ((items.map f).forM k') := by
  induction items with
  | nil => exact pure rfl
  | cons a rest ih => exact (h a).bind fun _ => ih

theorem mapM {k : α → SessionM γ} {k' : β → SessionM δ}
    (h : ∀ a, ρ.Carries g (k a) (k' (f a))) (items : List α) :
    ρ.Carries (List.map g) (items.mapM k) ((items.map f).mapM k') := by
  induction items with
  | nil => exact pure rfl
  | cons a rest ih =>
    rw [List.map_cons, List.mapM_cons, List.mapM_cons]
    exact (h a).bind fun c => ih.map fun cs => List.map_cons

theorem attempt (hx : ρ.Carries f x y) :
    ρ.Carries (Option.map f) (SessionM.attempt x) (SessionM.attempt y) := by
  intro s
  obtain ⟨hsize, hrun⟩ := hx s
  rcases hxs : x s with ⟨(e | ⟨env, value⟩ | _) | a, t⟩
  all_goals
    rw [hxs] at hsize hrun
    refine of_run (by simp only [SessionM.attempt, hxs]; rfl) hsize fun hs ht => ?_
    rw [SessionM.attempt, hrun hs ht]
    rfl

theorem bracket {enter leave enter' leave' : Session → Session} (hx : ρ.Carries f x y)
    (henter : ∀ s, (enter s).promises.cells.size = s.promises.cells.size ∧
      (ρ.Covers s.promises → enter' (ρ.session s) = ρ.session (enter s)))
    (hleave : ∀ s, (leave s).promises.cells.size = s.promises.cells.size ∧
      (ρ.Covers s.promises → leave' (ρ.session s) = ρ.session (leave s))) :
    ρ.Carries f (SessionM.bracket enter leave x) (SessionM.bracket enter' leave' y) := by
  intro s
  obtain ⟨hin, henter⟩ := henter s
  obtain ⟨hsize, hrun⟩ := hx (enter s)
  obtain ⟨hout, hleave⟩ := hleave (x (enter s)).2
  refine of_run rfl ((hin.ge.trans hsize).trans hout.ge) fun hs ht => ?_
  have hs' : ρ.Covers (enter s).promises := by rwa [Covers, hin]
  have ht' : ρ.Covers (x (enter s)).2.promises := by rwa [Covers, ← hout]
  rw [SessionM.bracket, henter hs, hrun hs' ht']
  exact congrArg _ (hleave ht')

theorem ofExcept {e : Except EvalError α} {e' : Except EvalError β} (h : e' = e.map f) :
    ρ.Carries f (SessionM.ofExcept e) (SessionM.ofExcept e') := by
  subst h
  cases e with
  | error e => exact fail e
  | ok a => exact pure rfl

theorem ofSame (e : Except EvalError α) :
    ρ.Carries id (SessionM.ofExcept e) (SessionM.ofExcept e) :=
  ofExcept (by cases e <;> rfl)

/-! ## The heap -/

theorem askHeap {ask : Heap → Except EvalError α} {ask' : Heap → Except EvalError β}
    (h : ∀ heap, ask' (ρ.move heap) = (ask heap).map f) :
    ρ.Carries f (SessionM.askHeap ask) (SessionM.askHeap ask') :=
  get_bind fun s => ofExcept (h s.heap)

theorem askSame {ask : Heap → Except EvalError α} (h : ∀ heap, ask (ρ.move heap) = ask heap) :
    ρ.Carries id (SessionM.askHeap ask) (SessionM.askHeap ask) :=
  get_bind fun s => by
    show ρ.Carries id _ (SessionM.ofExcept (ask (ρ.move s.heap)))
    rw [h]
    exact ofSame _

theorem allocate (parent : Option EnvId) :
    ρ.Carries id (SessionM.allocate parent) (SessionM.allocate parent) :=
  modifyGet (fun _ => le_rfl) fun s _ _ => by
    show (((ρ.move s.heap).allocate parent).1, { ρ.session s with
      heap := ((ρ.move s.heap).allocate parent).2 }) = _
    rw [allocate_move]
    rfl

theorem bound {s : Session} (env : EnvId) (name : Symbol) (binding : Binding) :
    (ρ.session s).bound env name (ρ.move binding) = ρ.session (s.bound env name binding) := by
  have hheap : (ρ.move s.heap).updateSlot env.index (·.bind name (ρ.move binding)) =
      ρ.move (s.heap.updateSlot env.index (·.bind name binding)) :=
    updateSlot_move (fun frame => bind_move frame name binding) s.heap env.index
  exact congrArg (fun heap => { ρ.session s with heap }) hheap

theorem bindFrame (env : EnvId) (name : Symbol) (binding : Binding) :
    ρ.Carries id (SessionM.onHeap (HeapM.modifyFrame env (·.bind name binding)))
      (SessionM.onHeap (HeapM.modifyFrame env (·.bind name (ρ.move binding)))) := by
  intro s
  have hlive : (ρ.session s).heap.contains env = s.heap.contains env := contains_move s.heap env
  rw [SessionM.onHeap_modifyFrame, SessionM.onHeap_modifyFrame, hlive, bound]
  split <;> exact ⟨le_rfl, fun _ _ => rfl⟩

theorem bindIn (env : EnvId) (name : Symbol) (value : Value) :
    ρ.Carries id (SessionM.bindIn env name value) (SessionM.bindIn env name (ρ.move value)) :=
  bindFrame env name ⟨value, false⟩

theorem assignNonLocal (env : EnvId) (name : Symbol) (value : Value) (global : EnvId) :
    ρ.Carries id (SessionM.onHeap (HeapM.assignNonLocal env name value global))
      (SessionM.onHeap (HeapM.assignNonLocal env name (ρ.move value) global)) := by
  rw [SessionM.onHeap_assignNonLocal, SessionM.onHeap_assignNonLocal]
  exact (askSame fun h => nonLocalTarget_move h env name global).bind fun target =>
    (bindIn target name value).bind fun _ => pure rfl

/-! ## Shared values -/

theorem newIdentity : ρ.Carries id SessionM.newIdentity SessionM.newIdentity :=
  modifyGet (fun _ => le_rfl) fun _ _ _ => rfl

theorem newVector (elements : Elements) (attributes : Attributes) :
    ρ.Carries ρ.move (SessionM.newVector elements attributes)
      (SessionM.newVector elements (ρ.move attributes)) :=
  newIdentity.map fun _ => Renaming.rename_vector _

theorem newDoubles (xs : Array Float) :
    ρ.Carries ρ.move (SessionM.newDoubles xs) (SessionM.newDoubles xs) := newVector _ .empty

theorem newLogical (b : Bool) :
    ρ.Carries ρ.move (SessionM.newLogical b) (SessionM.newLogical b) := newVector _ .empty

theorem newStrings (texts : List String) :
    ρ.Carries ρ.move (SessionM.newStrings texts) (SessionM.newStrings texts) := newVector _ .empty

theorem newString (text : String) :
    ρ.Carries ρ.move (SessionM.newString text) (SessionM.newString text) := newStrings [text]

theorem newCall (function : Value) (args : ArgList) :
    ρ.Carries ρ.move (SessionM.newCall function args)
      (SessionM.newCall (ρ.move function) (ρ.move args)) :=
  newIdentity.map fun _ => rfl

theorem deliver (answer : Except EvalError Answer) :
    ρ.Carries ρ.move (SessionM.deliver answer) (SessionM.deliver (ρ.move answer)) := by
  match answer with
  | .error e => exact fail e
  | .ok (.existing value) => exact pure rfl
  | .ok (.fresh elements attributes) => exact newVector elements attributes

/-! ## Promises -/

theorem newPromise (expr : Value) (state : PromiseState) :
    ρ.Carries ρ.move (SessionM.newPromise expr state)
      (SessionM.newPromise (ρ.move expr) (ρ.move state)) :=
  modifyGet (fun s => by simp [PromiseStore.add]) fun s hs ht => by
    show (Value.promise ((ρ.store s.promises).add (ρ.move ⟨expr, state⟩)).1, { ρ.session s with
      promises := ((ρ.store s.promises).add (ρ.move ⟨expr, state⟩)).2 }) = _
    rw [ρ.add hs ht]
    rfl

theorem newWaiting (expr : Value) (env : EnvId) :
    ρ.Carries ρ.move (SessionM.newWaiting expr env) (SessionM.newWaiting (ρ.move expr) env) :=
  newPromise expr (.waiting env false)

theorem newKept (expr value : Value) :
    ρ.Carries ρ.move (SessionM.newKept expr value)
      (SessionM.newKept (ρ.move expr) (ρ.move value)) :=
  newPromise expr (.kept value)

theorem updatePromise (p : PromiseId) {change change' : Promise → Promise}
    (h : ∀ cell, change' (ρ.move cell) = ρ.move (change cell)) :
    ρ.Carries id (SessionM.updatePromise p change)
      (SessionM.updatePromise (ρ.promise p) change') :=
  modifyGet (fun s => by simp [PromiseStore.update]) fun s hs _ => by
    show ((), { ρ.session s with
      promises := (ρ.store s.promises).update (ρ.promise p) change' }) = _
    rw [ρ.update hs h]
    rfl

theorem whileEvaluating (p : PromiseId) (hx : ρ.Carries f x y) :
    ρ.Carries f (Evaluator.whileEvaluating p x) (Evaluator.whileEvaluating (ρ.promise p) y) := by
  have hmark (mark : Bool) (s : Session) :
      (s.mark p mark).promises.cells.size = s.promises.cells.size ∧ (ρ.Covers s.promises →
        (ρ.session s).mark (ρ.promise p) mark = ρ.session (s.mark p mark)) := by
    refine ⟨by simp [Session.mark, PromiseStore.update], fun hs => ?_⟩
    refine congrArg (fun promises => { ρ.session s with promises })
      (ρ.update hs (fun cell => ?_) p)
    obtain ⟨_, _ | _⟩ := cell <;> rfl
  show ρ.Carries f (SessionM.bracket (·.mark p true) (·.mark p false) x)
    (SessionM.bracket (·.mark (ρ.promise p) true) (·.mark (ρ.promise p) false) y)
  exact bracket hx (hmark true) (hmark false)

end Carries

/-! ## Values by their constructors -/

/-- A value and the relocated one, which has the same constructor. -/
inductive Reshaped (ρ : Relocation) : Value → Value → Prop where
  | null : Reshaped ρ .null .null
  | symbol (name : Symbol) : Reshaped ρ (.symbol name) (.symbol name)
  | vector (v : Vec) : Reshaped ρ (.vector v) (.vector (ρ.move v))
  | call (c : Call) : Reshaped ρ (.call c) (.call (ρ.move c))
  | list (args : ArgList) : Reshaped ρ (.list args) (.list (ρ.move args))
  | dots (args : ArgList) : Reshaped ρ (.dots args) (.dots (ρ.move args))
  | closure (c : Closure) : Reshaped ρ (.closure c) (.closure (ρ.move c))
  | builtin (identity : Identity) (b : Builtin) :
      Reshaped ρ (.builtin identity b) (.builtin identity b)
  | promise (p : PromiseId) : Reshaped ρ (.promise p) (.promise (ρ.promise p))
  | environment (env : EnvId) : Reshaped ρ (.environment env) (.environment env)

theorem reshaped (v : Value) : ρ.Reshaped v (ρ.move v) := by
  cases v with
  | null => exact .null
  | symbol name => exact .symbol name
  | vector v => simpa using Reshaped.vector v
  | call c => simpa using Reshaped.call c
  | list args => simpa using Reshaped.list args
  | dots args => simpa using Reshaped.dots args
  | closure c => simpa using Reshaped.closure c
  | builtin identity b => simpa using Reshaped.builtin identity b
  | promise p => exact .promise p
  | environment env => exact .environment env

end Relocation

end CallByNeed
