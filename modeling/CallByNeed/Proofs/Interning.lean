import CallByNeed.Symbol.Table
import Mathlib.Data.Finset.Card

/-!
# Interning names

A table gives each of its names the handle for its position, and no name is there
twice (`SymbolTable.Consistent`).  Interning keeps this, whether or not there are
words left for the handles, and only ever adds names at the end.

As long as the distinct names, the two reserved ones among them, are no more than
there are words, positions and handles determine each other, and handles are
equal exactly if names are (`interning_bijective`).  The name after those shares
its handle with the one before.
-/

namespace CallByNeed.SymbolTable

variable {table : SymbolTable} {name other : String} {id : SymbolId} {names : List String}

/-- The handle is the one for the position of the name. -/
def Gives (table : SymbolTable) (name : String) (id : SymbolId) : Prop :=
  ∃ i, table.names[i]? = some name ∧ id = SymbolId.ofIndex i

/-- The names are distinct, and each is entered with its handle. -/
structure Consistent (table : SymbolTable) : Prop where
  nodup : table.names.Nodup
  lookup : ∀ name id, table.handles.lookup name = some id ↔ table.Gives name id

theorem Gives.mem (h : table.Gives name id) : name ∈ table.names :=
  let ⟨_, hi, _⟩ := h
  List.mem_of_getElem? hi

theorem exists_gives (h : name ∈ table.names) : ∃ id, table.Gives name id :=
  let ⟨i, hi⟩ := List.mem_iff_getElem?.1 h
  ⟨_, i, hi, rfl⟩

theorem Gives.mono {later : SymbolTable} (h : table.Gives name id)
    (hnames : table.names <+: later.names) : later.Gives name id := by
  obtain ⟨i, hi, rfl⟩ := h
  obtain ⟨added, hadded⟩ := hnames
  obtain ⟨hlt, -⟩ := List.getElem?_eq_some_iff.1 hi
  refine ⟨i, ?_, rfl⟩
  rw [← hadded, List.getElem?_append_left hlt, hi]

/-- A handle for the position of a name can be resolved. -/
theorem Gives.isSome_resolve? (h : table.Gives name id) :
    (table.resolve? id).isSome := by
  obtain ⟨i, hi, rfl⟩ := h
  obtain ⟨hlt, -⟩ := List.getElem?_eq_some_iff.1 hi
  have hle := Nat.lt_of_le_of_lt (SymbolId.index_ofIndex_le i) hlt
  rw [resolve?, List.getElem?_eq_getElem hle]
  rfl

/-- As long as there are words left, a handle stands for the name that it was given to. -/
theorem Gives.resolve?_eq (h : table.Gives name id)
    (hroom : table.names.length ≤ SymbolId.capacity) : table.resolve? id = some ⟨name⟩ := by
  obtain ⟨i, hi, rfl⟩ := h
  obtain ⟨hlt, -⟩ := List.getElem?_eq_some_iff.1 hi
  rw [resolve?, SymbolId.index_ofIndex (Nat.lt_of_lt_of_le hlt hroom), hi]
  rfl

/-! ## One call -/

theorem getElem?_concat_eq_some_iff {i : Nat} :
    (names ++ [name])[i]? = some other ↔
      names[i]? = some other ∨ i = names.length ∧ other = name := by
  rcases Nat.lt_trichotomy i names.length with hlt | rfl | hgt
  · rw [List.getElem?_append_left hlt]
    exact ⟨.inl, fun h => h.resolve_right fun h => absurd h.1 (Nat.ne_of_lt hlt)⟩
  · simp [eq_comm]
  · rw [List.getElem?_eq_none (by simpa using Nat.succ_le_of_lt hgt), List.getElem?_eq_none (Nat.le_of_lt hgt)]
    exact ⟨nofun, fun h => h.elim nofun fun h => absurd h.1 (Nat.ne_of_gt hgt)⟩

theorem gives_concat_iff {handles : List (String × SymbolId)} :
    (⟨names ++ [name], handles⟩ : SymbolTable).Gives other id ↔
      (⟨names, handles⟩ : SymbolTable).Gives other id ∨
        other = name ∧ id = .ofIndex names.length := by
  constructor
  · rintro ⟨i, hi, rfl⟩
    rcases getElem?_concat_eq_some_iff.1 hi with hi | ⟨rfl, rfl⟩
    · exact .inl ⟨i, hi, rfl⟩
    · exact .inr ⟨rfl, rfl⟩
  · rintro (⟨i, hi, rfl⟩ | ⟨rfl, rfl⟩)
    · exact ⟨i, getElem?_concat_eq_some_iff.2 (.inl hi), rfl⟩
    · exact ⟨_, getElem?_concat_eq_some_iff.2 (.inr ⟨rfl, rfl⟩), rfl⟩

theorem consistent_empty : empty.Consistent where
  nodup := List.nodup_nil
  lookup _ _ := ⟨nofun, fun ⟨_, hi, _⟩ => nomatch hi⟩

namespace Consistent

/-- A name that is not entered is not there. -/
theorem not_mem (h : table.Consistent) (hnew : table.handles.lookup name = none) :
    name ∉ table.names := fun hmem => by
  obtain ⟨id, hid⟩ := exists_gives hmem
  rw [(h.lookup name id).2 hid] at hnew
  cases hnew

theorem intern (h : table.Consistent) (name : String) : (table.intern name).2.Consistent := by
  unfold SymbolTable.intern
  split
  · exact h
  rename_i hnew
  have hmem := h.not_mem hnew
  refine ⟨List.nodup_append.2 ⟨h.nodup, by simp, ?_⟩, fun other id => ?_⟩
  · intro a ha b hb
    rw [List.mem_singleton.1 hb]
    exact fun hab => hmem (hab ▸ ha)
  rw [gives_concat_iff]
  by_cases hname : other = name
  · subst hname
    rw [Assoc.lookup_put_self, Option.some.injEq]
    -- the name was not there before, so its only position is the last one
    exact ⟨fun hid => .inr ⟨rfl, hid.symm⟩,
      fun hid => (hid.resolve_left fun hold => hmem hold.mem).2.symm⟩
  · rw [Assoc.lookup_put_of_ne _ _ hname]
    refine (h.lookup other id).trans ⟨.inl, fun hid => ?_⟩
    exact hid.resolve_right fun hlast => hname hlast.1

/-- A name gets the handle for its position. -/
theorem gives_intern (h : table.Consistent) (name : String) :
    (table.intern name).2.Gives name (table.intern name).1 := by
  unfold SymbolTable.intern
  split
  · rename_i id hid
    exact (h.lookup name id).1 hid
  · exact gives_concat_iff.2 (.inr ⟨rfl, rfl⟩)

end Consistent

/-! ## A sequence of calls -/

theorem prefix_intern (table : SymbolTable) (name : String) :
    table.names <+: (table.intern name).2.names := by
  rcases table.names_intern name with hsame | hadded
  · rw [hsame]
  · exact ⟨[name], hadded.symm⟩

theorem prefix_internAll (table : SymbolTable) (names : List String) :
    table.names <+: (table.internAll names).2.names := by
  induction names generalizing table with
  | nil => exact List.prefix_rfl
  | cons name rest ih => exact (table.prefix_intern name).trans (ih _)

theorem length_internAll (table : SymbolTable) (names : List String) :
    (table.internAll names).1.length = names.length := by
  induction names generalizing table with
  | nil => rfl
  | cons name rest ih => exact congrArg (· + 1) (ih _)

/-- The names of a table after some calls are those before and those of the calls. -/
theorem Consistent.mem_internAll_iff (h : table.Consistent) (names : List String) :
    name ∈ (table.internAll names).2.names ↔ name ∈ table.names ∨ name ∈ names := by
  induction names generalizing table with
  | nil => simp [internAll]
  | cons first rest ih =>
    have hfirst : name ∈ (table.intern first).2.names ↔ name ∈ table.names ∨ name = first := by
      rcases table.names_intern first with hsame | hadded
      · have hmem := (h.gives_intern first).mem
        rw [hsame] at hmem ⊢
        exact ⟨.inl, fun h => h.elim id fun h => h ▸ hmem⟩
      · rw [hadded]
        simp
    refine (ih (h.intern first)).trans ?_
    rw [hfirst, List.mem_cons, or_assoc]

namespace Consistent

theorem internAll (h : table.Consistent) (names : List String) :
    (table.internAll names).2.Consistent := by
  induction names generalizing table with
  | nil => exact h
  | cons name rest ih => exact ih (h.intern name)

/-- Each call gives a handle, and the table gives that handle from then on. -/
theorem gives_internAll (h : table.Consistent) {call : String × SymbolId}
    (hcall : call ∈ names.zip (table.internAll names).1) :
    (table.internAll names).2.Gives call.1 call.2 := by
  induction names generalizing table with
  | nil => cases hcall
  | cons name rest ih =>
    cases hcall with
    | head => exact (h.gives_intern name).mono (prefix_internAll _ _)
    | tail _ hrest => exact ih (h.intern name) hrest

end Consistent

theorem consistent_initial : initial.Consistent := consistent_empty.internAll _

/-! ## Names and handles -/

/-- The distinct names of some calls and the two reserved ones. -/
def distinctNames (names : List String) : Finset String :=
  (Symbol.missing.name :: Symbol.ellipsis.name :: names).toFinset

theorem length_names_internAll (names : List String) :
    (initial.internAll names).2.names.length = (distinctNames names).card := by
  rw [← List.toFinset_card_of_nodup (consistent_initial.internAll names).nodup]
  congr 1
  ext name
  simp only [List.mem_toFinset, consistent_initial.mem_internAll_iff, distinctNames,
    List.mem_cons]
  rw [names_initial, ← or_assoc, List.mem_pair]

namespace Consistent

variable {id' : SymbolId}

/-- As long as there are words left, handles are equal exactly if the names are. -/
theorem eq_iff (h : table.Consistent) (hroom : table.names.length ≤ SymbolId.capacity)
    (hid : table.Gives name id) (hid' : table.Gives other id') : id = id' ↔ name = other := by
  constructor
  · intro heq
    have hname := hid.resolve?_eq hroom
    rw [heq, hid'.resolve?_eq hroom] at hname
    cases hname
    rfl
  · rintro rfl
    obtain ⟨i, hi, rfl⟩ := hid
    obtain ⟨j, hj, rfl⟩ := hid'
    obtain ⟨hlt, -⟩ := List.getElem?_eq_some_iff.1 hi
    rw [(List.getElem?_inj hlt h.nodup).1 (hi.trans hj.symm)]

end Consistent

/-- There is one handle for each name that was called for. -/
theorem map_fst_calls (table : SymbolTable) (names : List String) :
    (names.zip (table.internAll names).1).map Prod.fst = names :=
  List.map_fst_zip (Nat.le_of_eq (table.length_internAll names).symm)

theorem map_snd_calls (table : SymbolTable) (names : List String) :
    (names.zip (table.internAll names).1).map Prod.snd = (table.internAll names).1 :=
  List.map_snd_zip (Nat.le_of_eq (table.length_internAll names))

theorem exists_call (table : SymbolTable) (h : name ∈ names) :
    ∃ id, (name, id) ∈ names.zip (table.internAll names).1 := by
  rw [← table.map_fst_calls names] at h
  obtain ⟨⟨_, id⟩, hcall, rfl⟩ := List.mem_map.1 h
  exact ⟨id, hcall⟩

/-- A handle that was given out stands for a symbol. -/
theorem resolve?_of_mem_internAll (h : id ∈ (initial.internAll names).1) :
    ∃ s, (initial.internAll names).2.resolve? id = some s := by
  rw [← initial.map_snd_calls names] at h
  obtain ⟨call, hcall, rfl⟩ := List.mem_map.1 h
  have hgives := consistent_initial.gives_internAll hcall
  exact Option.isSome_iff_exists.1 hgives.isSome_resolve?

/-- A name after the reserved ones was called for, and got the handle for its position. -/
theorem exists_call_of_position {i : Nat} (hi : 2 ≤ i)
    (hname : (initial.internAll names).2.names[i]? = some name) :
    (name, SymbolId.ofIndex i) ∈ names.zip (initial.internAll names).1 := by
  have hconsistent := consistent_initial.internAll names
  have hposition {j : Nat} (hj : (initial.internAll names).2.names[j]? = some name) : i = j :=
    let ⟨hlt, _⟩ := List.getElem?_eq_some_iff.1 hname
    (List.getElem?_inj hlt hconsistent.nodup).1 (hname.trans hj.symm)
  have hcalled : name ∈ names := by
    -- were it one of the reserved names, it would be at the position of that name, below two
    refine ((consistent_initial.mem_internAll_iff names).1
      (List.mem_of_getElem? hname)).resolve_left fun hreserved => ?_
    obtain ⟨j, hj⟩ := List.mem_iff_getElem?.1 hreserved
    obtain ⟨hlt, -⟩ := List.getElem?_eq_some_iff.1 hj
    obtain ⟨added, hadded⟩ := prefix_internAll initial names
    have hsame : i = j := hposition (by rw [← hadded, List.getElem?_append_left hlt, hj])
    have htwo : initial.names.length = 2 := by rw [names_initial]; rfl
    omega
  -- the call was answered with the position of the name, and that is `i`
  obtain ⟨id, hcall⟩ := exists_call initial hcalled
  obtain ⟨j, hj, hid⟩ := consistent_initial.gives_internAll hcall
  rw [hposition hj, ← hid]
  exact hcall

/-- The first position without a word of its own shares the handle of the position before. -/
theorem exists_shared_handle (hfull : SymbolId.capacity < (distinctNames names).card) :
    let calls := names.zip (initial.internAll names).1
    ∃ a ∈ calls, ∃ b ∈ calls, a.1 ≠ b.1 ∧ a.2 = b.2 := by
  intro calls
  have hconsistent := consistent_initial.internAll names
  rw [← length_names_internAll] at hfull
  have hlast := List.getElem?_eq_getElem hfull
  have hbefore := List.getElem?_eq_getElem (Nat.lt_of_le_of_lt (Nat.sub_le _ 1) hfull)
  refine ⟨_, exists_call_of_position (by decide) hbefore,
    _, exists_call_of_position (by decide) hlast, fun hsame => ?_, SymbolId.ofIndex_capacity.symm⟩
  have hne := hconsistent.nodup.getElem_inj_iff.1 hsame
  exact absurd hne (by decide)

/-- Interning gives every name one handle, for good.  Whatever names are called for, each call has a
    handle, which can be resolved from then on.  If the distinct names, with the two reserved ones,
    are no more than there are words, then two handles are equal exactly if the names are, a handle
    stands for its name, whatever is interned later, and only the two reserved names have the two
    reserved handles.  If they are more, two names share a handle. -/
theorem interning_bijective (names later : List String) :
    let calls := names.zip (initial.internAll names).1
    let table := ((initial.internAll names).2.internAll later).2
    calls.map Prod.fst = names ∧
    (∀ call ∈ calls, (table.resolve? call.2).isSome) ∧
    ((distinctNames names).card ≤ SymbolId.capacity →
      (∀ a ∈ calls, ∀ b ∈ calls, a.2 = b.2 ↔ a.1 = b.1) ∧
      (∀ call ∈ calls, table.resolve? call.2 = some ⟨call.1⟩) ∧
      (∀ call ∈ calls, call.2 = missingId ↔ call.1 = Symbol.missing.name) ∧
      (∀ call ∈ calls, call.2 = ellipsisId ↔ call.1 = Symbol.ellipsis.name)) ∧
    (SymbolId.capacity < (distinctNames names).card →
      ∃ a ∈ calls, ∃ b ∈ calls, a.1 ≠ b.1 ∧ a.2 = b.2) := by
  intro calls table
  have hconsistent := consistent_initial.internAll names
  have hgives : ∀ call ∈ calls, (initial.internAll names).2.Gives call.1 call.2 :=
    fun _ hcall => consistent_initial.gives_internAll hcall
  have hreserved {name : String} {id : SymbolId} (h : initial.Gives name id) :
      (initial.internAll names).2.Gives name id := h.mono (prefix_internAll _ _)
  have hmissing := hreserved ⟨0, rfl, rfl⟩
  have hellipsis := hreserved ⟨1, rfl, rfl⟩
  refine ⟨initial.map_fst_calls names, fun call hcall => ?_, fun hroom => ?_,
    exists_shared_handle⟩
  · obtain ⟨s, hs⟩ := Option.isSome_iff_exists.1 (hgives call hcall).isSome_resolve?
    rw [resolve?_internAll_of_some later hs]
    rfl
  · rw [← length_names_internAll] at hroom
    have heq {name : String} {id : SymbolId} (call) (hcall : call ∈ calls)
        (hid : (initial.internAll names).2.Gives name id) : call.2 = id ↔ call.1 = name :=
      hconsistent.eq_iff hroom (hgives call hcall) hid
    exact ⟨fun a ha b hb => heq a ha (hgives b hb),
      fun call hcall => resolve?_internAll_of_some later ((hgives call hcall).resolve?_eq hroom),
      fun call hcall => heq call hcall hmissing, fun call hcall => heq call hcall hellipsis⟩

/-- As many different names as wanted. -/
theorem le_card_distinctNames {f : Nat → String} (hf : Function.Injective f) (n : Nat) :
    n ≤ (distinctNames ((List.range n).map f)).card := by
  have hsub : (Finset.range n).image f ⊆ distinctNames ((List.range n).map f) := by
    intro name hname
    obtain ⟨i, hi, rfl⟩ := Finset.mem_image.1 hname
    have hmem : f i ∈ (List.range n).map f :=
      List.mem_map_of_mem (List.mem_range.2 (Finset.mem_range.1 hi))
    exact List.mem_toFinset.2 (List.mem_cons_of_mem _ (List.mem_cons_of_mem _ hmem))
  calc n = ((Finset.range n).image f).card := by
        rw [Finset.card_image_of_injective _ hf, Finset.card_range]
    _ ≤ _ := Finset.card_le_card hsub

/-- Four calls for three names leave room for many more; of the names that consist of the letter `x`
    only there are too many. -/
theorem interning_bijective_repeated :
    let names := ["x", "...", "", "x"]
    let xs (i : Nat) : String := .ofList (List.replicate i 'x')
    let many := (List.range (SymbolId.capacity + 1)).map xs
    let calls := many.zip (initial.internAll many).1
    ((distinctNames names).card ≤ SymbolId.capacity ∧
      ((initial.internAll names).1.map fun id => id.word.toNat) = [3, 2, 1, 3] ∧
      ∀ call ∈ names.zip (initial.internAll names).1,
        ((initial.internAll names).2.internAll ["y"]).2.resolve? call.2 = some ⟨call.1⟩) ∧
    SymbolId.capacity < (distinctNames many).card ∧
      ∃ a ∈ calls, ∃ b ∈ calls, a.1 ≠ b.1 ∧ a.2 = b.2 := by
  intro names xs many calls
  have hxs : Function.Injective xs := fun i j h => by
    have hlists : List.replicate i 'x' = List.replicate j 'x' := String.ofList_injective h
    simpa using congrArg List.length hlists
  have hfew : (distinctNames names).card ≤ SymbolId.capacity := by decide
  have hmany : SymbolId.capacity < (distinctNames many).card :=
    le_card_distinctNames hxs (SymbolId.capacity + 1)
  exact ⟨⟨hfew, by decide, ((interning_bijective names ["y"]).2.2.1 hfew).2.1⟩, hmany,
    (interning_bijective many []).2.2.2 hmany⟩

end CallByNeed.SymbolTable
