import CallByNeed.Proofs.Relocation.Actions
import CallByNeed.Proofs.Relocation.Backed

/-!
# Making room for promises

Promises that one evaluation makes beforehand are, to an evaluation that does
without them, promises in between that nothing refers to.  `Relocation.insertion`
moves the promises behind them on, so an evaluation does the same with them put in
(`Carries.inserted`).  It leaves everything as it is that refers only to promises in
front of them, and so a session to which promises are added is the session itself
with these put in at the end (`Session.Backed.inserted`).
-/

namespace CallByNeed

/-! ## Stores with promises in between -/

/-- Everything from position `n` on moves on by `k`. -/
def PromiseId.shift (n k : Nat) (p : PromiseId) : PromiseId :=
  if p.index < n then p else ⟨p.index + k⟩

abbrev Renaming.shifting (n k : Nat) : Renaming := .ofPromises (.shift n k)

namespace PromiseStore

variable {st : PromiseStore} {n k : Nat} {cells : List Promise}

theorem ext_get? {a b : PromiseStore} (h : ∀ p, a.get? p = b.get? p) : a = b := by
  obtain ⟨a⟩ := a
  obtain ⟨b⟩ := b
  exact congrArg PromiseStore.mk (Array.ext_getElem? fun i => h ⟨i⟩)

theorem get?_update (st : PromiseStore) (p q : PromiseId) (f : Promise → Promise) :
    (st.update p f).get? q = if q = p then (st.get? q).map f else st.get? q := by
  by_cases hq : q = p
  · rw [if_pos hq, hq]
    simp [update, get?, Array.getElem?_modify]
  · rw [if_neg hq, get?_update_of_ne f hq]

/-- The promises with these cells put in at position `n`, and their references changed to match. -/
def insertAt (n k : Nat) (cells : List Promise) (st : PromiseStore) : PromiseStore :=
  let moved := st.cells.toList.map (rename (.shifting n k))
  ⟨(moved.take n ++ (cells ++ moved.drop n)).toArray⟩

theorem get?_insertAt (hst : n ≤ st.cells.size) (i : Nat) :
    (st.insertAt n k cells).get? ⟨i⟩ =
      if i < n then rename (.shifting n k) (st.get? ⟨i⟩)
      else if i < n + cells.length then cells[i - n]?
      else rename (.shifting n k) (st.get? ⟨i - cells.length⟩) := by
  obtain ⟨⟨l⟩⟩ := st
  have hlength : n ≤ l.length := hst
  have hmoved (j : Nat) : (l.map (rename (.shifting n k)))[j]? =
      rename (.shifting n k) ((⟨⟨l⟩⟩ : PromiseStore).get? ⟨j⟩) := by
    rw [get?, List.getElem?_toArray]
    exact List.getElem?_map
  show (((l.map _).take n ++ (cells ++ (l.map _).drop n)).toArray)[i]? = _
  rw [List.getElem?_toArray, List.getElem?_append, List.getElem?_append, List.length_take,
    List.length_map, Nat.min_eq_left hlength, List.getElem?_take, List.getElem?_drop, hmoved,
    hmoved]
  by_cases hi : i < n
  · rw [if_pos hi, if_pos hi, if_pos hi]
  · rw [if_neg hi, if_neg hi]
    by_cases hj : i < n + cells.length
    · rw [if_pos (by omega), if_pos hj]
    · rw [if_neg (by omega), if_neg hj]
      have hposition : n + (i - n - cells.length) = i - cells.length := by omega
      rw [hposition]

theorem get?_insertAt_shift (hk : cells.length = k) (hst : n ≤ st.cells.size) (p : PromiseId) :
    (st.insertAt n k cells).get? (p.shift n k) =
      rename (.shifting n k) (st.get? p) := by
  obtain ⟨i⟩ := p
  by_cases hi : i < n
  · have hsame : PromiseId.shift n k ⟨i⟩ = ⟨i⟩ := if_pos hi
    rw [hsame, get?_insertAt hst, if_pos hi]
  · have hfurther : PromiseId.shift n k ⟨i⟩ = ⟨i + k⟩ := if_neg hi
    have hback : i + k - cells.length = i := by omega
    rw [hfurther, get?_insertAt hst, if_neg (by omega), if_neg (by omega), hback]

theorem get?_insertAt_cell (hst : n ≤ st.cells.size) {j : Nat} (hj : j < cells.length) :
    (st.insertAt n k cells).get? ⟨n + j⟩ = cells[j]? := by
  rw [get?_insertAt hst, if_neg (by omega), if_pos (by omega), Nat.add_sub_cancel_left]

/-- A reference is to one of the cells put in, or to a promise that was there. -/
theorem shift_or_inserted (n k : Nat) (q : PromiseId) :
    (∃ p, q = .shift n k p) ∨ ∃ j < k, q = ⟨n + j⟩ := by
  obtain ⟨i⟩ := q
  by_cases hi : i < n
  · exact .inl ⟨⟨i⟩, (if_pos hi).symm⟩
  · by_cases hj : i < n + k
    · exact .inr ⟨i - n, by omega, congrArg PromiseId.mk (by omega)⟩
    · refine .inl ⟨⟨i - k⟩, ?_⟩
      have hshift : PromiseId.shift n k ⟨i - k⟩ = ⟨i - k + k⟩ := if_neg (by simp only; omega)
      rw [hshift]
      exact congrArg PromiseId.mk (by omega)

theorem shift_inj {p q : PromiseId} : p.shift n k = q.shift n k ↔ p = q := by
  obtain ⟨i⟩ := p
  obtain ⟨j⟩ := q
  unfold PromiseId.shift
  grind

theorem shift_ne_inserted {p : PromiseId} {j : Nat} (hj : j < k) : p.shift n k ≠ ⟨n + j⟩ := by
  obtain ⟨i⟩ := p
  unfold PromiseId.shift
  grind

/-- A promise is changed in its new place. -/
theorem insertAt_update (hk : cells.length = k) (hst : n ≤ st.cells.size) {f g : Promise → Promise}
    (hfg : ∀ cell, g (rename (.shifting n k) cell) =
      rename (.shifting n k) (f cell)) (p : PromiseId) :
    (st.insertAt n k cells).update (p.shift n k) g = (st.update p f).insertAt n k cells := by
  have hst' : n ≤ (st.update p f).cells.size := by simpa [update] using hst
  refine ext_get? fun q => ?_
  -- each place is that of an old promise or of one that was inserted
  obtain ⟨q, rfl⟩ | ⟨j, hj, rfl⟩ := shift_or_inserted n k q
  · rw [get?_update, get?_insertAt_shift hk hst, get?_insertAt_shift hk hst', get?_update]
    simp only [shift_inj]
    split
    · cases st.get? q with
      | none => rfl
      | some cell => exact congrArg some (hfg cell)
    · rfl
  · rw [get?_update, if_neg (shift_ne_inserted hj).symm, get?_insertAt_cell hst (by omega),
      get?_insertAt_cell hst' (by omega)]

theorem insertAt_add (hk : cells.length = k) (hst : n ≤ st.cells.size) (cell : Promise) :
    (st.insertAt n k cells).add (rename (.shifting n k) cell) =
      ((st.add cell).1.shift n k, (st.add cell).2.insertAt n k cells) := by
  obtain ⟨⟨l⟩⟩ := st
  have hlength : n ≤ l.length := hst
  refine Prod.ext ?_ ?_
  · have hposition : PromiseId.shift n k ⟨l.length⟩ = ⟨l.length + k⟩ :=
      if_neg (Nat.not_lt.2 hlength)
    refine Eq.trans (congrArg PromiseId.mk ?_) hposition.symm
    simp only [insertAt, List.size_toArray, List.length_append, List.length_take, List.length_drop,
      List.length_map]
    omega
  · have hmoved : ((l ++ [cell]).map (rename (.shifting n k))) =
        l.map (rename (.shifting n k)) ++ [rename (.shifting n k) cell] :=
      List.map_append
    have hmapped : n ≤ (l.map (rename (.shifting n k))).length := by simpa using hlength
    simp only [insertAt, add, List.push_toArray, hmoved, List.take_append_of_le_length hmapped,
      List.drop_append_of_le_length hmapped, List.append_assoc]

end PromiseStore

/-- Room is made at position `n` for `k` promises. -/
def Relocation.insertion (n k : Nat) (cells : List Promise) (hk : cells.length = k) :
    Relocation where
  promise := .shift n k
  store := .insertAt n k cells
  sizes i := n ≤ i
  between hleast _ hn _ := hn.trans hleast
  get? hst p := PromiseStore.get?_insertAt_shift hk hst p
  update hst hfg p := PromiseStore.insertAt_update hk hst hfg p
  add hst _ := PromiseStore.insertAt_add hk hst _

/-- The session with these promises put in at position `n`, and with references to the ones behind
    them changed to match, where `k` is how many are put in. -/
def Session.inserted (n k : Nat) (cells : List Promise) (s : Session) : Session :=
  { s with
    heap := rename (.shifting n k) s.heap
    promises := s.promises.insertAt n k cells
    stack := rename (.shifting n k) s.stack
    loops := rename (.shifting n k) s.loops
    preserved := rename (.shifting n k) s.preserved }

section

variable {α β : Type} {f : α → β} {x : SessionM α} {y : SessionM β} {n k : Nat}

/-- What carries over does the same with any promises put in. -/
theorem Relocation.Carries.inserted {cells : List Promise} {hk : cells.length = k}
    (h : (Relocation.insertion n k cells hk).Carries f x y) {s t : Session}
    (hs : n ≤ s.promises.cells.size) {outcome : Except Interrupt α} (hrun : x s = (outcome, t)) :
    n ≤ t.promises.cells.size ∧
      y (s.inserted n k cells) =
        ((Renaming.shifting n k).outcome f outcome, t.inserted n k cells) := by
  obtain ⟨hsize, hcarried⟩ := h s
  rw [hrun] at hsize hcarried
  have ht : n ≤ t.promises.cells.size := hs.trans hsize
  exact ⟨ht, hcarried hs ht⟩

end

/-! ## What refers only to promises that are there -/

section

variable {store : PromiseStore} {f : PromiseId → PromiseId}

mutual

theorem Value.rename_of_backed (hf : ∀ p, (store.get? p).isSome = true → f p = p) (v : Value)
    (hv : v.Backed store) : v.rename (.ofPromises f) = v := by
  match v with
  | .null | .symbol _ | .environment _ => rfl
  | .builtin identity b =>
    exact congrArg (Value.builtin identity) (Relocation.exchange_ofPromises f b)
  | .promise p => exact congrArg Value.promise (hf p (hv p .refl))
  | .vector ⟨identity, elements, ⟨entries⟩⟩ =>
    rw [Value.rename, renameEntries_of_backed hf entries fun entry hentry =>
      hv.child (.ofAttribute ⟨identity, elements, ⟨entries⟩⟩ hentry)]
  | .call ⟨identity, function, args⟩ =>
    rw [Value.rename,
      rename_of_backed hf function (hv.child (.function ⟨identity, function, args⟩)),
      renameArgs_of_backed hf args fun arg harg =>
        hv.child (.argument ⟨identity, function, args⟩ harg)]
  | .list args =>
    rw [Value.rename, renameArgs_of_backed hf args fun arg harg => hv.child (.element harg)]
  | .dots args =>
    rw [Value.rename, renameArgs_of_backed hf args fun arg harg => hv.child (.dot harg)]
  | .closure ⟨identity, formals, body, env⟩ =>
    rw [Value.rename, rename_of_backed hf body (hv.child (.body ⟨identity, formals, body, env⟩)),
      renameArgs_of_backed hf formals fun arg harg =>
        hv.child (.formal ⟨identity, formals, body, env⟩ harg)]
    rfl

theorem Value.renameArgs_of_backed (hf : ∀ p, (store.get? p).isSome = true → f p = p)
    (args : List (Arg Value)) (hargs : ∀ arg ∈ args, arg.value.Backed store) :
    Value.renameArgs (.ofPromises f) args = args := by
  match args with
  | [] => rfl
  | ⟨tag, value⟩ :: rest =>
    rw [Value.renameArgs, rename_of_backed hf value (hargs _ List.mem_cons_self),
      renameArgs_of_backed hf rest fun arg harg => hargs arg (.tail _ harg)]

theorem Value.renameEntries_of_backed (hf : ∀ p, (store.get? p).isSome = true → f p = p)
    (entries : List (Symbol × Value)) (hentries : ∀ entry ∈ entries, entry.2.Backed store) :
    Value.renameEntries (.ofPromises f) entries = entries := by
  match entries with
  | [] => rfl
  | (name, value) :: rest =>
    rw [Value.renameEntries, rename_of_backed hf value (hentries _ List.mem_cons_self),
      renameEntries_of_backed hf rest fun entry hentry => hentries entry (.tail _ hentry)]

end

end

namespace Relocation

variable {ρ : Relocation} {s : Session}

/-- The relocation leaves the promises of the store where they are. -/
def Leaves (ρ : Relocation) (store : PromiseStore) : Prop :=
  ∀ p, (store.get? p).isSome = true → ρ.promise p = p

theorem move_of_backed {store : PromiseStore} (hρ : ρ.Leaves store) {v : Value}
    (hv : v.Backed store) : ρ.move v = v := Value.rename_of_backed hρ v hv

theorem move_map {α : Type} [Renames α] {items : List α} (h : ∀ a ∈ items, ρ.move a = a) :
    ρ.move items = items :=
  (List.map_congr_left h).trans (List.map_id items)

theorem move_heap (hρ : ρ.Leaves s.promises) (hs : s.Backed) : ρ.move s.heap = s.heap := by
  have hframe {i : Nat} {slot : Slot} (hslot : s.heap.slots[i]? = some slot) :
      ρ.move slot = slot := by
    obtain ⟨generation, frame, marked⟩ := slot
    cases frame with
    | none => rfl
    | some f =>
      -- a frame in a slot is seen under the generation of the slot
      have hseen : s.heap.frame? ⟨i, generation⟩ = some f := by simp [Heap.frame?, hslot]
      have hbindings : ρ.move f.bindings = f.bindings := by
        refine move_map fun entry hentry => ?_
        have hvalue := move_of_backed hρ (hs.stored _ (.bound hseen hentry))
        exact congrArg (fun v => (entry.1, ({ entry.2 with value := v } : Binding))) hvalue
      have hmoved : ρ.move f = f :=
        (congrArg₂ Frame.mk hbindings (move_env? f.parent)).trans rfl
      exact congrArg (fun f => Slot.mk generation (some f) marked) hmoved
  have hslots : s.heap.slots.map ρ.move = s.heap.slots := by
    refine Array.ext_getElem? fun i => ?_
    rw [Array.getElem?_map]
    cases hslot : s.heap.slots[i]? with
    | none => rfl
    | some slot => exact congrArg some (hframe hslot)
  exact congrArg (fun slots => { s.heap with slots }) hslots

theorem move_call {store : PromiseStore} (hρ : ρ.Leaves store) {c : Call}
    (hc : (Value.call c).Backed store) : ρ.move c = c :=
  Value.call.inj ((Renaming.rename_call c).symm.trans (move_of_backed hρ hc))

theorem move_args {store : PromiseStore} (hρ : ρ.Leaves store) {args : ArgList}
    (hargs : ∀ arg ∈ args, arg.value.Backed store) : ρ.move args = args :=
  move_map fun arg harg => congrArg (Arg.mk arg.tag) (move_of_backed hρ (hargs arg harg))

theorem move_stack (hρ : ρ.Leaves s.promises) (hs : s.Backed) : ρ.move s.stack = s.stack := by
  refine move_map fun i hi => ?_
  have hroot {v : Value} (hv : v ∈ i.values) : v.Backed s.promises := by
    refine hs.stored v (.root ?_)
    simp only [Session.rootValues, List.mem_append, List.mem_flatMap]
    exact .inl (.inr ⟨i, hi, hv⟩)
  have hclosure : ρ.move i.closure = i.closure :=
    Value.closure.inj ((Renaming.rename_closure i.closure).symm.trans
      (move_of_backed hρ (hroot (by simp [Invocation.values]))))
  have hcall : ρ.move i.call = i.call := move_call hρ (hroot (by simp [Invocation.values]))
  have hargs : ρ.move i.args = i.args :=
    move_args hρ fun arg harg =>
      hroot (List.mem_cons_of_mem _ (List.mem_cons_of_mem _ (List.mem_map_of_mem harg)))
  show Invocation.mk i.env i.callerEnv (ρ.move i.closure) (ρ.move i.call) (ρ.move i.args) = i
  rw [hclosure, hcall, hargs]

theorem move_loops (hρ : ρ.Leaves s.promises) (hs : s.Backed) : ρ.move s.loops = s.loops := by
  have hinstances : ρ.move s.loops.instances = s.loops.instances := by
    refine move_map fun known hknown => ?_
    have hroot : Value.call known.call ∈ s.rootValues :=
      List.mem_append_right _ (List.mem_map_of_mem (List.mem_map_of_mem hknown))
    exact congrArg (fun call => { known with call }) (move_call hρ (hs.stored _ (.root hroot)))
  exact congrArg LoopTable.mk hinstances

theorem move_preserved (hρ : ρ.Leaves s.promises) (hs : s.Backed) :
    ρ.move s.preserved = s.preserved :=
  move_map fun v hv => move_of_backed hρ (hs.stored v (.root (by simp [Session.rootValues, hv])))

theorem session_of_backed (hρ : ρ.Leaves s.promises) (hs : s.Backed) :
    ρ.session s = { s with promises := ρ.store s.promises } := by
  simp only [session, move_heap hρ hs, move_stack hρ hs, move_loops hρ hs, move_preserved hρ hs]

theorem leaves_insertion (store : PromiseStore) {k : Nat} {cells : List Promise}
    (hk : cells.length = k) : (insertion store.cells.size k cells hk).Leaves store := by
  intro p hp
  refine if_pos ?_
  by_contra hlt
  have hnone : store.get? p = none := Array.getElem?_eq_none (Nat.not_lt.1 hlt)
  rw [hnone] at hp
  cases hp

theorem store_of_backed (hρ : ρ.Leaves s.promises) (hs : s.Backed) {p : PromiseId} :
    ρ.move (s.promises.get? p) = s.promises.get? p := by
  cases hcell : s.promises.get? p with
  | none => rfl
  | some cell =>
    have hbacked := hs.cells p (by rw [hcell]; rfl)
    have hexpr : ρ.move cell.expr = cell.expr := move_of_backed hρ (hbacked.child (.expr hcell))
    have hstate : ρ.move cell.state = cell.state := by
      cases hkept : cell.state with
      | waiting env underEvaluation => rfl
      | kept value =>
        have hvalue : cell.value? = some value := by rw [Promise.value?, hkept]
        exact congrArg PromiseState.kept (move_of_backed hρ (hbacked.child (.kept hcell hvalue)))
    exact congrArg some (congrArg₂ Promise.mk hexpr hstate)

end Relocation

/-- With promises added a session is the session itself with these promises put in at the end. -/
theorem Session.Backed.inserted {s : Session} (hs : s.Backed) (cells : List Promise) :
    s.inserted s.promises.cells.size cells.length cells =
      { s with promises := ⟨s.promises.cells ++ cells.toArray⟩ } := by
  have hleaves := Relocation.leaves_insertion s.promises (rfl : cells.length = cells.length)
  have hsession := Relocation.session_of_backed hleaves hs
  have hstore : PromiseStore.insertAt s.promises.cells.size cells.length cells s.promises =
      ⟨s.promises.cells ++ cells.toArray⟩ := by
    refine PromiseStore.ext_get? fun ⟨i⟩ => ?_
    have hold (j : Nat) : rename (.shifting s.promises.cells.size cells.length)
        (s.promises.get? ⟨j⟩) = s.promises.cells[j]? := Relocation.store_of_backed hleaves hs
    have hnew : (⟨s.promises.cells ++ cells.toArray⟩ : PromiseStore).get? ⟨i⟩ =
        if i < s.promises.cells.size then s.promises.cells[i]?
        else cells[i - s.promises.cells.size]? := by
      simp only [PromiseStore.get?, Array.getElem?_append, List.getElem?_toArray]
    rw [PromiseStore.get?_insertAt (Nat.le_refl _), hold, hold, hnew]
    by_cases hi : i < s.promises.cells.size
    · rw [if_pos hi, if_pos hi]
    · rw [if_neg hi, if_neg hi]
      by_cases hj : i < s.promises.cells.size + cells.length
      · rw [if_pos hj]
      · rw [if_neg hj, Array.getElem?_eq_none (by omega), List.getElem?_eq_none (by omega)]
  exact hsession.trans (congrArg (fun promises => { s with promises }) hstore)

end CallByNeed
