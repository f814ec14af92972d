import CallByNeed.Proofs.Arguments.Binding
import CallByNeed.Proofs.Dangling.Sessions
import CallByNeed.Proofs.Promises

/-!
# References to promises that are there

A value is backed by a store if every promise inside it is one of the store, and a
session is backed if its promises are all that its values and promises refer to
(`Session.Backed`).  A reference to a promise comes only from adding the promise, so
programs see nothing else: a new session is backed, and it stays so when a promise of
something backed is added and when something backed is bound.
-/

namespace CallByNeed

/-- Every promise inside the value is one of the store. -/
def Value.Backed (store : PromiseStore) (v : Value) : Prop :=
  ∀ p, v.Part store (.promise p) → (store.get? p).isSome = true

/-- No value that the session has refers to a promise that is not there. -/
structure Session.Backed (s : Session) : Prop where
  stored : ∀ v, s.Stores v → v.Backed s.promises
  cells : ∀ p, (s.promises.get? p).isSome = true → (Value.promise p).Backed s.promises

namespace Value

variable {store store' : PromiseStore} {v w : Value}

theorem Backed.child (h : v.Backed store) (hchild : Child store v w) : w.Backed store :=
  fun p hpart => h p (.head hchild hpart)

/-- A value is backed if what stands directly inside it is. -/
theorem backed_of_children (hself : ∀ p, v = .promise p → (store.get? p).isSome = true)
    (h : ∀ w, Child store v w → w.Backed store) : v.Backed store := by
  intro p hpart
  obtain hsame | ⟨w, hchild, hrest⟩ := Relation.ReflTransGen.cases_head hpart
  · exact hself p hsame
  · exact h w hchild p hrest

@[simp] theorem backed_builtin (identity : Identity) (b : Builtin) :
    (Value.builtin identity b).Backed store :=
  backed_of_children (fun _ h => nomatch h) fun _ h => by cases h

/-- In a store with further promises nothing else stands inside a value. -/
theorem Backed.part (hkeeps : ∀ ⦃p cell⦄, store.get? p = some cell → store'.get? p = some cell)
    (h : v.Backed store) (hpart : v.Part store' w) : v.Part store w := by
  induction hpart with
  | refl => exact .refl
  | @tail u w _ hchild ih =>
    have hcell {p : PromiseId} {cell : Promise} (hu : u = .promise p)
        (hcell : store'.get? p = some cell) : store.get? p = some cell := by
      obtain ⟨old, hold⟩ := Option.isSome_iff_exists.1 (h p (hu ▸ ih))
      cases (hkeeps hold).symm.trans hcell
      exact hold
    refine ih.tail ?_
    cases hchild with
    | formal c hformal => exact .formal c hformal
    | body c => exact .body c
    | function c => exact .function c
    | argument c harg => exact .argument c harg
    | element harg => exact .element harg
    | dot harg => exact .dot harg
    | ofAttribute vec hentry => exact .ofAttribute vec hentry
    | expr hp => exact .expr (hcell rfl hp)
    | kept hp hvalue => exact .kept (hcell rfl hp) hvalue

theorem Backed.mono (hkeeps : ∀ ⦃p cell⦄, store.get? p = some cell → store'.get? p = some cell)
    (h : v.Backed store) : v.Backed store' := by
  intro p hpart
  obtain ⟨cell, hcell⟩ := Option.isSome_iff_exists.1 (h p (h.part hkeeps hpart))
  exact Option.isSome_iff_exists.2 ⟨cell, hkeeps hcell⟩

end Value

/-- What is found is bound in a frame that is there. -/
theorem Heap.binding_of_find {h : Heap} {env owner : EnvId} {name : Symbol} {value : Value}
    (hfind : h.find env name = .ok (some (owner, value))) :
    ∃ f, h.frame? owner = some f ∧ ∃ entry ∈ f.bindings, entry.2.value = value := by
  obtain ⟨binding, howner, hvalue⟩ := owner?_of_find hfind
  obtain ⟨f, hf, hget⟩ := frame?_of_owner? howner
  exact ⟨f, hf, (name, binding), Assoc.mem_of_lookup hget, hvalue⟩

namespace Session

variable {s : Session} {env : EnvId}

theorem backed_initial (options : Options) (kernels : KernelTable) :
    (initial options kernels).Backed := by
  refine ⟨fun v hv => ?_, fun p hp => ?_⟩
  · cases hv with
    | root h => cases h
    | bound hframe hentry =>
      obtain ⟨-, rfl⟩ | ⟨-, rfl⟩ := frame_of_initial hframe
      · cases hentry
      · obtain ⟨b, -, rfl⟩ := List.mem_map.1 hentry
        exact Value.backed_builtin _ _
  · simp [initial, PromiseStore.empty, PromiseStore.get?] at hp

namespace Backed

theorem bound (hs : s.Backed) (hlive : s.heap.contains env = true) (name : Symbol)
    {binding : Binding} (hvalue : binding.value.Backed s.promises) :
    (s.bound env name binding).Backed := by
  refine ⟨fun v hv => ?_, hs.cells⟩
  cases hv with
  | root h => exact hs.stored v (.root h)
  | bound hframe hentry =>
    obtain ⟨f, hf, -, hentries⟩ := frame_of_bound hlive hframe
    obtain rfl | hold := hentries _ hentry
    · exact hvalue
    · exact hs.stored _ (.bound hf hold)

theorem add (hs : s.Backed) {cell : Promise} (hexpr : cell.expr.Backed s.promises)
    (hvalue : ∀ value, cell.value? = some value → value.Backed s.promises) :
    Backed { s with promises := (s.promises.add cell).2 } := by
  have hkeeps ⦃p : PromiseId⦄ ⦃old : Promise⦄ (hp : s.promises.get? p = some old) :
      (s.promises.add cell).2.get? p = some old := PromiseStore.get?_add_of_some cell hp
  refine ⟨fun v hv => ?_, fun p hp => ?_⟩
  · have hold : s.Stores v := by
      cases hv with
      | root h => exact .root h
      | bound hframe hentry => exact .bound hframe hentry
    exact (hs.stored v hold).mono hkeeps
  · cases hold : s.promises.get? p with
    | some old => exact (hs.cells p (by rw [hold]; rfl)).mono hkeeps
    | none =>
      -- only the promise that was added is new
      obtain ⟨new, hnew⟩ := Option.isSome_iff_exists.1 hp
      have hcell : new = cell := by
        simp only [PromiseStore.add, PromiseStore.get?, Array.getElem?_push] at hnew hold
        split at hnew
        · exact (Option.some.inj hnew).symm
        · cases hold.symm.trans hnew
      subst hcell
      refine Value.backed_of_children (fun _ h => by cases h; exact hp) fun w hchild => ?_
      cases hchild with
      | expr h =>
        cases hnew.symm.trans h
        exact hexpr.mono hkeeps
      | kept h hkept =>
        cases hnew.symm.trans h
        exact (hvalue _ hkept).mono hkeeps

/-- What `...` stands for is bound in the session. -/
theorem ellipsisArgs {dots : ArgList} (hs : s.Backed)
    (hdots : SessionM.ellipsisArgs env s = (.ok dots, s)) :
    ∀ dot ∈ dots, dot.value.Backed s.promises := by
  rw [SessionM.ellipsisArgs] at hdots
  rcases hfind : s.heap.find env .ellipsis with e | _ | ⟨owner, value⟩
  · rw [SessionM.bind_run_error (SessionM.askHeap_run_error hfind)] at hdots
    cases hdots
  · rw [SessionM.bind_run_ok (SessionM.askHeap_run_ok hfind)] at hdots
    cases hdots
    simp
  rw [SessionM.bind_run_ok (SessionM.askHeap_run_ok hfind)] at hdots
  have hvalue : value.Backed s.promises := by
    obtain ⟨f, hf, entry, hentry, rfl⟩ := Heap.binding_of_find hfind
    exact hs.stored _ (.bound hf hentry)
  cases value with
  | dots args =>
    cases hdots
    exact fun dot hdot => hvalue.child (.dot hdot)
  | symbol name =>
    dsimp only at hdots
    split at hdots <;> cases hdots
    simp
  | _ => cases hdots

end Backed

end Session

end CallByNeed
