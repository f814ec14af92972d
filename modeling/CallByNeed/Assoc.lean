/-!
# Ordered maps

A list of pairs serves as a map that keeps its entries in the order in which
their keys were first entered; `List.lookup` reads it.  `Assoc.put` writes one
entry: it changes what is found under that key (`lookup_put_self`) and nothing
else (`lookup_put_of_ne`), and no key comes to be there twice (`nodup_put`).
`Assoc.erase` takes one entry out.
-/

namespace CallByNeed.Assoc

variable {α β : Type} [DecidableEq α]

/-- The entries with the value of `key` replaced in its place, or a new entry at the end. -/
def put (key : α) (value : β) : List (α × β) → List (α × β)
  | [] => [(key, value)]
  | entry :: rest =>
    if entry.1 = key then (key, value) :: rest else entry :: put key value rest

/-- The entries without the first one under `key`. -/
def erase (key : α) (entries : List (α × β)) : List (α × β) :=
  entries.eraseP fun entry => entry.1 == key

theorem lookup_put_self (key : α) (value : β) (entries : List (α × β)) :
    (put key value entries).lookup key = some value := by
  induction entries with
  | nil => simp [put]
  | cons entry rest ih =>
    obtain ⟨other, old⟩ := entry
    by_cases h : other = key
    · simp [put, h]
    · have h' : (key == other) = false := by simpa using Ne.symm h
      simp [put, h, List.lookup_cons, h', ih]

theorem lookup_put_of_ne {key other : α} (value : β) (entries : List (α × β))
    (hne : other ≠ key) : (put key value entries).lookup other = entries.lookup other := by
  have h' : (other == key) = false := by simpa using hne
  induction entries with
  | nil => simp [put, List.lookup_cons, h']
  | cons entry rest ih =>
    obtain ⟨name, old⟩ := entry
    by_cases h : name = key
    · simp [put, h, List.lookup_cons, h']
    · simp [put, h, List.lookup_cons, ih]

/-- Writing an entry keeps the keys, or adds its own at the end. -/
theorem keys_put (key : α) (value : β) (entries : List (α × β)) :
    (put key value entries).map Prod.fst =
      if key ∈ entries.map Prod.fst then entries.map Prod.fst
      else entries.map Prod.fst ++ [key] := by
  induction entries with
  | nil => simp [put]
  | cons entry rest ih =>
    by_cases h : entry.1 = key
    · simp [put, h]
    · have h' : key ≠ entry.1 := Ne.symm h
      by_cases hmem : key ∈ rest.map Prod.fst
      · simp [put, h, ih, hmem]
      · simp [put, h, h', ih, hmem]

theorem mem_put {key : α} {value : β} {entry : α × β} {entries : List (α × β)}
    (h : entry ∈ put key value entries) : entry = (key, value) ∨ entry ∈ entries := by
  induction entries with
  | nil => simpa [put] using h
  | cons first rest ih =>
    by_cases hkey : first.1 = key
    · rw [put, if_pos hkey, List.mem_cons] at h
      exact h.imp_right (List.mem_cons_of_mem _)
    · rw [put, if_neg hkey, List.mem_cons] at h
      obtain rfl | h := h
      · exact .inr List.mem_cons_self
      · exact (ih h).imp_right (List.mem_cons_of_mem _)

theorem nodup_put (key : α) (value : β) {entries : List (α × β)}
    (h : (entries.map Prod.fst).Nodup) : ((put key value entries).map Prod.fst).Nodup := by
  rw [keys_put]
  split
  · exact h
  · rename_i hmem
    refine List.nodup_append.2 ⟨h, by simp, ?_⟩
    intro a ha b hb
    rw [List.mem_singleton.1 hb]
    exact fun hab => hmem (hab ▸ ha)

theorem lookup_eq_none {key : α} {entries : List (α × β)} (h : key ∉ entries.map Prod.fst) :
    entries.lookup key = none := by
  refine List.lookup_eq_none_iff.2 fun entry hentry => ?_
  have hne : key ≠ entry.1 := fun he => h (he ▸ List.mem_map_of_mem hentry)
  simpa using hne

theorem lookup_erase_of_ne {key other : α} (entries : List (α × β)) (hne : other ≠ key) :
    (erase key entries).lookup other = entries.lookup other := by
  have h' : (other == key) = false := by simpa using hne
  unfold erase
  induction entries with
  | nil => rfl
  | cons entry rest ih =>
    obtain ⟨name, value⟩ := entry
    by_cases h : name = key
    · simp [h, List.lookup_cons, h']
    · simp [h, List.lookup_cons, ih]

/-- What is left under a key that was there at most once. -/
theorem lookup_erase_self {key : α} {entries : List (α × β)}
    (h : (entries.map Prod.fst).Nodup) : (erase key entries).lookup key = none := by
  unfold erase
  induction entries with
  | nil => rfl
  | cons entry rest ih =>
    obtain ⟨name, value⟩ := entry
    have hcons := List.nodup_cons.1 h
    by_cases hname : name = key
    · subst hname
      simpa using lookup_eq_none hcons.1
    · have h' : (key == name) = false := by simpa using Ne.symm hname
      simp [hname, List.lookup_cons, h', ih hcons.2]

theorem nodup_erase (key : α) {entries : List (α × β)} (h : (entries.map Prod.fst).Nodup) :
    ((erase key entries).map Prod.fst).Nodup :=
  h.sublist (List.eraseP_sublist.map _)

end CallByNeed.Assoc
