import CallByNeed.Proofs.Relocation.Insertion
import CallByNeed.Proofs.Relocation.Loops

/-!
# Evaluation refers only to promises that are there

`Relocation.beyond m` moves references from position `m` on, where the stores of a run
have no promises.  It leaves alone exactly the sessions that are backed, so a run from
such a session carries over to itself; what the run ends with is left alone then, and
is backed (`Relocation.Carries.backed`).  No rule of evaluation has to be looked at
again for the references in it.
-/

namespace CallByNeed

/-! ## Stores without the positions that are moved -/

namespace PromiseStore

variable {st : PromiseStore} {m : Nat} {p : PromiseId}

/-- The references in the promises to positions from `m` on moved by one. -/
def beyond (m : Nat) (st : PromiseStore) : PromiseStore :=
  ⟨st.cells.map (rename (.shifting m 1))⟩

theorem get?_eq_none (h : st.cells.size ≤ p.index) : st.get? p = none := Array.getElem?_eq_none h

theorem update_of_none (h : st.get? p = none) (f : Promise → Promise) : st.update p f = st := by
  refine ext_get? fun q => ?_
  rw [get?_update]
  split
  case isTrue hq => rw [hq, h, Option.map_none]
  case isFalse => rfl

theorem shift_beyond (hp : ¬ p.index < m) : p.shift m 1 = ⟨p.index + 1⟩ := if_neg hp

theorem get?_beyond (st : PromiseStore) (p : PromiseId) :
    (st.beyond m).get? p = rename (.shifting m 1) (st.get? p) := Array.getElem?_map

theorem get?_beyond_shift (hst : st.cells.size ≤ m) (p : PromiseId) :
    (st.beyond m).get? (p.shift m 1) = rename (.shifting m 1) (st.get? p) := by
  rw [get?_beyond]
  by_cases hp : p.index < m
  · rw [PromiseId.shift, if_pos hp]
  · rw [shift_beyond hp, get?_eq_none (by show _ ≤ p.index + 1; omega), get?_eq_none (by omega)]

theorem beyond_update (hst : st.cells.size ≤ m) {f g : Promise → Promise}
    (hfg : ∀ cell, g (rename (.shifting m 1) cell) = rename (.shifting m 1) (f cell))
    (p : PromiseId) : (st.beyond m).update (p.shift m 1) g = (st.update p f).beyond m := by
  by_cases hp : p.index < m
  · rw [PromiseId.shift, if_pos hp]
    exact congrArg PromiseStore.mk (Relocation.modify_map f g hfg st.cells p.index)
  · -- the update reaches no promise in either store
    have hnone : st.get? p = none := get?_eq_none (by omega)
    rw [update_of_none hnone, update_of_none (by rw [get?_beyond_shift hst, hnone]; rfl)]

theorem beyond_add {cell : Promise} (hst : (st.add cell).2.cells.size ≤ m) :
    (st.beyond m).add (rename (.shifting m 1) cell) =
      ((st.add cell).1.shift m 1, (st.add cell).2.beyond m) := by
  have hroom : st.cells.size < m := by
    simp only [add, Array.size_push] at hst
    omega
  have hposition : (st.add cell).1.shift m 1 = ⟨st.cells.size⟩ := if_pos hroom
  rw [hposition]
  simp only [add, beyond, Array.size_map, Array.map_push]

end PromiseStore

namespace Relocation

open Renaming

/-- References from position `m` on are moved, in stores that end there or before. -/
def beyond (m : Nat) : Relocation where
  promise := .shift m 1
  store := .beyond m
  sizes i := i ≤ m
  between _ hmost _ hm := hmost.trans hm
  get? hst p := PromiseStore.get?_beyond_shift hst p
  update hst hfg p := PromiseStore.beyond_update hst hfg p
  add _ hst := PromiseStore.beyond_add hst

/-! ## What is left alone -/

variable {s : Session} {store : PromiseStore} {v w : Value}

theorem leaves_beyond {m : Nat} (hm : store.cells.size ≤ m) : (beyond m).Leaves store := by
  intro p hp
  refine if_pos ?_
  by_contra hlt
  rw [PromiseStore.get?_eq_none (hm.trans (Nat.not_lt.1 hlt))] at hp
  cases hp

variable {ρ : Relocation}

theorem left_of_mem {α : Type} [Renames α] {items : List α} (h : ρ.move items = items) {a : α}
    (ha : a ∈ items) : ρ.move a = a :=
  List.map_inj_left.1 (h.trans (List.map_id items).symm) a ha

/-- What stands inside a value that is left alone is left alone. -/
theorem left_of_child (hstore : ∀ p, ρ.move (store.get? p) = store.get? p)
    (hv : ρ.move v = v) (hchild : Value.Child store v w) : ρ.move w = w := by
  have hcell {p : PromiseId} {cell : Promise} (hp : store.get? p = some cell) :
      ρ.move cell = cell := by
    have hmoved := hstore p
    rw [hp] at hmoved
    exact Option.some.inj hmoved
  cases hchild with
  | formal c harg =>
    have hc := Value.closure.inj ((rename_closure c).symm.trans hv)
    exact congrArg Arg.value (left_of_mem (congrArg ClosureOf.formals hc) harg)
  | body c => exact congrArg ClosureOf.body (Value.closure.inj ((rename_closure c).symm.trans hv))
  | function c => exact congrArg CallOf.function (Value.call.inj ((rename_call c).symm.trans hv))
  | argument c harg =>
    have hc := Value.call.inj ((rename_call c).symm.trans hv)
    exact congrArg Arg.value (left_of_mem (congrArg CallOf.args hc) harg)
  | element harg =>
    have hargs := Value.list.inj ((rename_listValue _).symm.trans hv)
    exact congrArg Arg.value (left_of_mem hargs harg)
  | dot harg =>
    have hargs := Value.dots.inj ((rename_dots _).symm.trans hv)
    exact congrArg Arg.value (left_of_mem hargs harg)
  | ofAttribute vec hentry =>
    have hvec := Value.vector.inj ((rename_vector vec).symm.trans hv)
    have hentries := congrArg (fun v : Vec => v.attributes.entries) hvec
    exact congrArg Prod.snd (left_of_mem hentries hentry)
  | expr hp => exact congrArg Promise.expr (hcell hp)
  | @kept p cell value hp hvalue =>
    obtain ⟨expr, _ | held⟩ := cell
    · cases hvalue
    · cases hvalue
      exact PromiseState.kept.inj (congrArg Promise.state (hcell hp))

theorem left_of_part (hstore : ∀ p, ρ.move (store.get? p) = store.get? p)
    (hv : ρ.move v = v) (hpart : v.Part store w) : ρ.move w = w := by
  induction hpart with
  | refl => exact hv
  | tail _ hchild ih => exact left_of_child hstore ih hchild

theorem left_of_stores (hs : ρ.session s = s) (hv : s.Stores v) : ρ.move v = v := by
  cases hv with
  | root hroot =>
    have hroots : ρ.move s.rootValues = s.rootValues := by
      rw [← Carries.rootValues, hs]
    exact left_of_mem hroots hroot
  | @bound id f entry hframe hentry =>
    have hmoved : ρ.move (s.heap.frame? id) = s.heap.frame? id := by
      rw [← frame?_move]
      exact congrArg (fun s : Session => s.heap.frame? id) hs
    rw [hframe] at hmoved
    have hbindings := congrArg Frame.bindings (Option.some.inj hmoved)
    exact congrArg (fun entry => entry.2.value) (left_of_mem hbindings hentry)

/-- Only references to promises that are there are left alone. -/
theorem backed_of_left (hstore : store.beyond store.cells.size = store)
    (hv : (beyond store.cells.size).move v = v) : v.Backed store := by
  intro p hpart
  have hcells (p : PromiseId) : (beyond store.cells.size).move (store.get? p) = store.get? p :=
    (PromiseStore.get?_beyond store p).symm.trans (congrArg (·.get? p) hstore)
  have hp := Value.promise.inj (left_of_part hcells hv hpart)
  by_contra hnone
  have hbehind : ¬ p.index < store.cells.size := fun h => hnone (by
    rw [PromiseStore.get?, Array.getElem?_eq_getElem h]
    rfl)
  have hmoved : p.index + 1 = p.index :=
    congrArg PromiseId.index ((PromiseStore.shift_beyond hbehind).symm.trans hp)
  omega

theorem session_beyond (hs : s.Backed) {m : Nat} (hm : s.promises.cells.size ≤ m) :
    (beyond m).session s = s := by
  have hleaves := leaves_beyond hm
  have hstore : s.promises.beyond m = s.promises := PromiseStore.ext_get? fun p =>
    (PromiseStore.get?_beyond s.promises p).trans (store_of_backed hleaves hs)
  exact (session_of_backed hleaves hs).trans
    (congrArg (fun promises => { s with promises }) hstore)

theorem backed_of_session (hs : (beyond s.promises.cells.size).session s = s) : s.Backed := by
  have hstore : s.promises.beyond s.promises.cells.size = s.promises :=
    congrArg Session.promises hs
  refine ⟨fun v hv => backed_of_left hstore (left_of_stores hs hv), fun p hp => ?_⟩
  exact backed_of_left hstore (congrArg Value.promise (leaves_beyond (le_refl _) p hp))

/-! ## Runs -/

/-- A run that carries over to itself, where the promises before it are left alone, ends in a
    backed session and leaves its outcome alone. -/
theorem Carries.backed {α : Type} {f : Nat → α → α} {x : SessionM α} (hs : s.Backed)
    (hx : ∀ m, (beyond m).Leaves s.promises → (beyond m).Carries (f m) x x)
    {outcome : Except Interrupt α} {t : Session} (hrun : x s = (outcome, t)) :
    let m := t.promises.cells.size
    t.Backed ∧ (beyond m).outcome (f m) outcome = outcome := by
  obtain ⟨hsize, -⟩ := hx _ (leaves_beyond (le_refl _)) s
  rw [hrun] at hsize
  obtain ⟨-, hcarried⟩ := hx t.promises.cells.size (leaves_beyond hsize) s
  rw [hrun] at hcarried
  have hsame := hcarried hsize (le_refl t.promises.cells.size)
  rw [session_beyond hs hsize, hrun] at hsame
  exact ⟨backed_of_session (congrArg Prod.snd hsame).symm, (congrArg Prod.fst hsame).symm⟩

end Relocation

/-! ## Evaluation -/

/-- What the task is about refers only to promises of the store. -/
def Task.Backed (store : PromiseStore) : Task → Prop
  | .evaluate expr _ => expr.Backed store
  | .apply function call args _ extra =>
    function.Backed store ∧ (Value.call call).Backed store ∧
      (∀ arg ∈ args, arg.value.Backed store) ∧ ∀ entry ∈ extra, entry.2.Backed store
  | .loop call _ _ sequence body =>
    (Value.call call).Backed store ∧ sequence.Backed store ∧ body.Backed store

/-- The value, or the one that a return has on the way, refers only to promises of the store. -/
def PromiseStore.BacksOutcome (store : PromiseStore) : Except Interrupt Value → Prop
  | .ok value => value.Backed store
  | .error (.returning _ value) => value.Backed store
  | .error _ => True

theorem Relocation.move_task {ρ : Relocation} {store : PromiseStore} (hρ : ρ.Leaves store)
    {task : Task} (htask : task.Backed store) : ρ.move task = task := by
  cases task with
  | evaluate expr env => exact congrArg (Task.evaluate · env) (move_of_backed hρ htask)
  | apply function call args env extra =>
    obtain ⟨hfunction, hcall, hargs, hextra⟩ := htask
    have hmoved : ρ.move extra = extra := move_map fun entry hentry =>
      congrArg (Prod.mk entry.1) (move_of_backed hρ (hextra entry hentry))
    show Task.apply (ρ.move function) (ρ.move call) (ρ.move args) env (ρ.move extra) = _
    rw [move_of_backed hρ hfunction, move_call hρ hcall, move_args hρ hargs, hmoved]
  | loop call env var sequence body =>
    obtain ⟨hcall, hsequence, hbody⟩ := htask
    show Task.loop (ρ.move call) env var (ρ.move sequence) (ρ.move body) = _
    rw [move_call hρ hcall, move_of_backed hρ hsequence, move_of_backed hρ hbody]

namespace Session

open Relocation

variable {s t : Session} {options : Options} {kernels : KernelTable}

/-- A session is backed if moving references to where it has no promises makes no difference. -/
theorem backed_iff : s.Backed ↔ (beyond s.promises.cells.size).session s = s :=
  ⟨fun hs => session_beyond hs (le_refl _), backed_of_session⟩

/-- Evaluation refers only to promises that it was given or has added. -/
theorem Backed.evaluator (hs : s.Backed) {task : Task} (htask : task.Backed s.promises)
    {fuel : Nat} {outcome : Except Interrupt Value}
    (hrun : evaluator fuel task s = (outcome, t)) :
    t.Backed ∧ t.promises.BacksOutcome outcome := by
  have hcarries (m : Nat) (hleaves : (beyond m).Leaves s.promises) :
      (beyond m).Carries (beyond m).move (CallByNeed.evaluator fuel task)
        (CallByNeed.evaluator fuel task) := by
    have h := carriesAll_evaluator (beyond m) fuel task
    rwa [move_task hleaves htask] at h
  obtain ⟨ht, hleft⟩ := Carries.backed hs hcarries hrun
  have hstore := congrArg Session.promises (backed_iff.1 ht)
  refine ⟨ht, ?_⟩
  match outcome with
  | .ok value => exact backed_of_left hstore (Except.ok.inj hleft)
  | .error (.returning env value) =>
    have hinterrupt := Except.error.inj hleft
    exact backed_of_left hstore (by injection hinterrupt)
  | .error (.failure e) => trivial
  | .error .exhausted => trivial

theorem Backed.collected (hs : s.Backed) {extra : List Value}
    (hextra : ∀ v ∈ extra, v.Backed s.promises) : (SessionM.collect extra s).2.Backed := by
  have hcarries (m : Nat) (hleaves : (beyond m).Leaves s.promises) :
      (beyond m).Carries id (SessionM.collect extra) (SessionM.collect extra) := by
    have h := Carries.collect (ρ := beyond m) extra
    rwa [move_map fun v hv => move_of_backed hleaves (hextra v hv)] at h
  exact (Carries.backed hs hcarries rfl).1

theorem Backed.held (hs : s.Backed) {preserved : List Value}
    (hpreserved : ∀ v ∈ preserved, v.Backed s.promises) : Backed { s with preserved } := by
  refine ⟨fun v hv => ?_, hs.cells⟩
  cases hv with
  | bound hframe hentry => exact hs.stored _ (.bound hframe hentry)
  | root hroot =>
    simp only [rootValues, List.append_assoc] at hroot
    rcases List.mem_append.1 hroot with hheld | hother
    · exact hpreserved v hheld
    · refine hs.stored v (.root ?_)
      simp only [rootValues, List.append_assoc]
      exact List.mem_append_right _ hother

/-- A session of a host that makes up no references: it hands on those that it was given. -/
inductive Honest (options : Options) (kernels : KernelTable) : Session → Prop where
  | initial : Honest options kernels (.initial options kernels)
  | ran {s : Session} (h : Honest options kernels s) (fuel : Nat) {task : Task}
      (htask : task.Backed s.promises) : Honest options kernels (CallByNeed.evaluator fuel task s).2
  | bound {s : Session} (h : Honest options kernels s) {env : EnvId}
      (hlive : s.heap.contains env = true) (name : Symbol) {binding : Binding}
      (hvalue : binding.value.Backed s.promises) : Honest options kernels (s.bound env name binding)
  | promised {s : Session} (h : Honest options kernels s) {cell : Promise}
      (hexpr : cell.expr.Backed s.promises)
      (hvalue : ∀ value, cell.value? = some value → value.Backed s.promises) :
      Honest options kernels { s with promises := (s.promises.add cell).2 }
  | allocated {s : Session} (h : Honest options kernels s) (parent : Option EnvId) :
      Honest options kernels (SessionM.allocate parent s).2
  | loaded {s : Session} (h : Honest options kernels s) (name : Symbol) :
      Honest options kernels (SessionM.loadNamespace name s).2
  | collected {s : Session} (h : Honest options kernels s) {extra : List Value}
      (hextra : ∀ v ∈ extra, v.Backed s.promises) :
      Honest options kernels (SessionM.collect extra s).2
  | held {s : Session} (h : Honest options kernels s) {preserved : List Value}
      (hpreserved : ∀ v ∈ preserved, v.Backed s.promises) :
      Honest options kernels { s with preserved }

/-- Programs cannot make up references either, so there are none to promises that are not there. -/
theorem Honest.backed (h : s.Honest options kernels) : s.Backed := by
  induction h with
  | initial => exact backed_initial options kernels
  | ran _ fuel htask ih => exact (ih.evaluator htask rfl).1
  | bound _ hlive name hvalue ih => exact ih.bound hlive name hvalue
  | promised _ hexpr hvalue ih => exact ih.add hexpr hvalue
  | allocated _ parent ih => exact (Carries.backed ih (fun _ _ => Carries.allocate parent) rfl).1
  | loaded _ name ih => exact (Carries.backed ih (fun _ _ => Carries.loadNamespace name) rfl).1
  | collected _ hextra ih => exact ih.collected hextra
  | held _ hpreserved ih => exact ih.held hpreserved

end Session

end CallByNeed
