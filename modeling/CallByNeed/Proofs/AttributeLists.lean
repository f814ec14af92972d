import CallByNeed.Builtin.Numeric
import Mathlib.Data.List.Basic

/-!
# Attribute lists are ordered maps

The attribute lists that there are come about from the empty one by setting and
merging (`AttributeList.Built`).  In each of them no name is there twice and no
value is NULL, and so merging is a union in which the left list wins: it appends
the entries of the right list whose names the left one does not have
(`merged_entries`).  From that equation follow what a merged list holds, that
merging is associative, and what attributes the result of an operator has.
-/

namespace CallByNeed

/-! ## Entries -/

namespace Assoc

variable {α β : Type} [DecidableEq α] {key : α} {entries : List (α × β)}

theorem isSome_lookup_iff : (entries.lookup key).isSome ↔ key ∈ entries.map Prod.fst := by
  refine ⟨fun h => ?_, fun h => ?_⟩
  · obtain ⟨value, hvalue⟩ := Option.isSome_iff_exists.1 h
    obtain ⟨before, after, rfl, -⟩ := List.lookup_eq_some_iff.1 hvalue
    simp
  · obtain ⟨entry, hentry, rfl⟩ := List.mem_map.1 h
    cases hfound : entries.lookup entry.1 with
    | some value => rfl
    | none =>
      have hne := List.lookup_eq_none_iff.1 hfound entry hentry
      simp at hne

/-- Leaving out other keys does not change what is found under this one. -/
theorem lookup_filter {keep : α → Bool} (h : keep key = true) (entries : List (α × β)) :
    (entries.filter fun entry => keep entry.1).lookup key = entries.lookup key := by
  induction entries with
  | nil => rfl
  | cons entry rest ih =>
    obtain ⟨name, value⟩ := entry
    by_cases hname : key = name
    · subst hname
      simp [h]
    · have h' : (key == name) = false := by simpa using hname
      cases hkeep : keep name <;> simp [hkeep, List.lookup_cons, h', ih]

/-- Taking an entry out leaves the other keys in their order. -/
theorem keys_erase (key : α) (entries : List (α × β)) :
    (erase key entries).map Prod.fst = (entries.map Prod.fst).erase key := by
  unfold erase
  induction entries with
  | nil => rfl
  | cons entry rest ih =>
    by_cases h : entry.1 = key
    · simp [h]
    · simp [h, ih]

end Assoc

namespace AttributeList

variable {attrs left right a b c : Attributes} {name other : Symbol} {value : Value}

/-- The attribute lists that come about by setting and merging. -/
inductive Built : Attributes → Prop where
  | empty : Built .empty
  | set {attrs : Attributes} (h : Built attrs) (name : Symbol) (value : Value) :
      Built (attrs.set name value)
  | merged {left right : Attributes} (hleft : Built left) (hright : Built right) :
      Built (left.merged right)

/-- No name is there twice, and no value is NULL. -/
structure WellFormed (attrs : Attributes) : Prop where
  nodup : (attrs.entries.map Prod.fst).Nodup
  ne_null : ∀ entry ∈ attrs.entries, entry.2 ≠ .null

theorem contains_iff : attrs.contains name = true ↔ name ∈ attrs.entries.map Prod.fst :=
  Assoc.isSome_lookup_iff

/-! ## Setting -/

theorem wellFormed_empty : WellFormed .empty := ⟨List.nodup_nil, fun _ h => nomatch h⟩

theorem WellFormed.set (h : attrs.WellFormed) (name : Symbol) (value : Value) :
    (attrs.set name value).WellFormed := by
  by_cases hnull : value = .null
  · subst hnull
    exact ⟨Assoc.nodup_erase name h.nodup,
      fun entry hentry => h.ne_null entry (List.mem_of_mem_eraseP hentry)⟩
  · rw [set_eq_put hnull]
    refine ⟨Assoc.nodup_put name value h.nodup, fun entry hentry => ?_⟩
    rcases Assoc.mem_put hentry with rfl | hold
    · exact hnull
    · exact h.ne_null entry hold

/-- An attribute that was set to NULL is not there. -/
theorem WellFormed.get?_set_null (h : attrs.WellFormed) (name : Symbol) :
    (attrs.set name .null).get? name = none :=
  Assoc.lookup_erase_self h.nodup

/-- Setting an attribute leaves the others in their order: a new name goes to the end, and NULL takes
    the name out. -/
theorem names_set (attrs : Attributes) (name : Symbol) :
    (∀ value, value ≠ .null → (attrs.set name value).entries.map Prod.fst =
      if name ∈ attrs.entries.map Prod.fst then attrs.entries.map Prod.fst
      else attrs.entries.map Prod.fst ++ [name]) ∧
    (attrs.set name .null).entries.map Prod.fst = (attrs.entries.map Prod.fst).erase name := by
  refine ⟨fun value hvalue => ?_, Assoc.keys_erase _ _⟩
  rw [set_eq_put hvalue]
  exact Assoc.keys_put _ _ _

/-! ## Merging -/

/-- Merging appends the entries of the right list whose names the left one does not have. -/
theorem merged_entries (hright : (right.entries.map Prod.fst).Nodup) :
    (left.merged right).entries =
      left.entries ++ right.entries.filter fun entry => !left.contains entry.1 := by
  obtain ⟨entries⟩ := right
  unfold merged
  -- over the entries to come, each of which has a name that no later one has
  induction entries generalizing left with
  | nil => simp
  | cons entry rest ih =>
    obtain ⟨hnew, hrest⟩ := List.nodup_cons.1 hright
    rw [List.foldl_cons, ih hrest]
    cases hcontains : left.contains entry.1 with
    | true => simp [hcontains]
    | false =>
      have hcontained (later : Symbol × Value) (hlater : later ∈ rest) :
          (⟨left.entries ++ [entry]⟩ : Attributes).contains later.1 = left.contains later.1 := by
        have hne : later.1 ≠ entry.1 := fun he => hnew (he ▸ List.mem_map_of_mem hlater)
        rw [Bool.eq_iff_iff, contains_iff, contains_iff]
        simp [hne]
      simp only [Bool.false_eq_true, if_false, hcontains, Bool.not_false, List.filter_cons_of_pos,
        List.append_assoc, List.singleton_append]
      rw [List.filter_congr fun later hlater => by rw [hcontained later hlater]]

namespace WellFormed

theorem get?_merged (hright : right.WellFormed) (left : Attributes) (name : Symbol) :
    (left.merged right).get? name = (left.get? name).or (right.get? name) := by
  rw [get?, merged_entries hright.nodup, List.lookup_append]
  cases hleft : left.entries.lookup name with
  | some value => simp [get?, hleft]
  | none =>
    let keep (name : Symbol) : Bool := !left.contains name
    have hkeep : keep name = true := by simp [keep, contains, get?, hleft]
    have hfilter := Assoc.lookup_filter hkeep right.entries
    rw [hfilter, get?, hleft]
    rfl

theorem contains_merged (hright : right.WellFormed) (left : Attributes) (name : Symbol) :
    (left.merged right).contains name = (left.contains name || right.contains name) := by
  unfold contains
  rw [hright.get?_merged]
  exact Option.isSome_or

theorem merged (hleft : left.WellFormed) (hright : right.WellFormed) :
    (left.merged right).WellFormed := by
  refine ⟨?_, fun entry hentry => ?_⟩
  · rw [merged_entries hright.nodup, List.map_append, List.nodup_append]
    refine ⟨hleft.nodup, hright.nodup.sublist (List.filter_sublist.map _), ?_⟩
    rintro _ hmem _ hnew rfl
    obtain ⟨entry, hentry, heq⟩ := List.mem_map.1 hnew
    have hother : left.contains entry.1 = false := by simpa using (List.mem_filter.1 hentry).2
    rw [heq, contains_iff.2 hmem] at hother
    cases hother
  · rw [merged_entries hright.nodup] at hentry
    rcases List.mem_append.1 hentry with hold | hnew
    · exact hleft.ne_null entry hold
    · exact hright.ne_null entry (List.mem_of_mem_filter hnew)

/-- What both sides of an associated union append after the first list. -/
theorem merged_assoc (hb : b.WellFormed) (hc : c.WellFormed) (a : Attributes) :
    (a.merged b).merged c = a.merged (b.merged c) := by
  have hbc := hb.merged hc
  suffices h : ((a.merged b).merged c).entries = (a.merged (b.merged c)).entries from
    congrArg AttributeList.mk h
  rw [merged_entries hc.nodup, merged_entries hbc.nodup, merged_entries hb.nodup,
    merged_entries hc.nodup, List.filter_append, List.append_assoc, List.filter_filter]
  congr 2
  refine List.filter_congr fun entry _ => ?_
  rw [hb.contains_merged, Bool.not_or]

theorem merged_self (h : a.WellFormed) : a.merged a = a := by
  suffices hentries : (a.merged a).entries = a.entries from congrArg AttributeList.mk hentries
  rw [merged_entries h.nodup]
  have hnone : (a.entries.filter fun entry => !a.contains entry.1) = [] := by
    refine List.filter_eq_nil_iff.2 fun entry hentry => ?_
    simpa using contains_iff.2 (List.mem_map_of_mem hentry)
  rw [hnone, List.append_nil]

theorem empty_merged (h : a.WellFormed) : AttributeList.empty.merged a = a := by
  suffices hentries : (AttributeList.empty.merged a).entries = a.entries from
    congrArg AttributeList.mk hentries
  rw [merged_entries h.nodup]
  exact List.filter_eq_self.2 fun _ _ => rfl

end WellFormed

theorem Built.wellFormed (h : attrs.Built) : attrs.WellFormed := by
  induction h with
  | empty => exact wellFormed_empty
  | set _ name value ih => exact ih.set name value
  | merged _ _ ihleft ihright => exact ihleft.merged ihright

/-! ## Attributes of a result -/

/-- An operand carries all its attributes, or none. -/
theorem built_carriedAttributes {x : Value} (h : ∀ attrs, x.attributes? = some attrs → attrs.Built)
    (size : Nat) : (Builtin.carriedAttributes x size).Built := by
  unfold Builtin.carriedAttributes
  split
  · rename_i attrs hattrs
    split
    · exact h attrs hattrs
    · exact .empty
  · exact .empty

theorem get?_carriedAttributes (x : Value) (size : Nat) (name : Symbol) :
    (Builtin.carriedAttributes x size).get? name =
      if x.length = size then x.attribute? name else none := by
  unfold Builtin.carriedAttributes Value.attribute?
  cases x.attributes? with
  | none => simp [empty, get?]
  | some attrs =>
    by_cases hsize : x.length = size
    · simp [hsize]
    · simp [hsize, empty, get?]

theorem exists_of_arithmetic {op : BinaryOp} {x y : Arg Value} {answer : Answer}
    (h : Builtin.arithmetic op [x, y] = .ok answer) :
    ∃ values, answer = .fresh (.double values)
      ((Builtin.carriedAttributes x.value values.size).merged
        (Builtin.carriedAttributes y.value values.size)) := by
  change Builtin.binary op x.value y.value = _ at h
  unfold Builtin.binary at h
  rcases hx : numbersOf x.value "binary operator" with _ | xs <;> rw [hx] at h
  · cases h
  rcases hy : numbersOf y.value "binary operator" with _ | ys <;> rw [hy] at h
  · cases h
  cases h
  exact ⟨_, rfl⟩

/-- The attribute lists that can be built are ordered maps from names to values other than NULL, and
    merging two of them is the union in which the left one wins, in order.  What an operator makes of
    two operands has the attributes of those that are as long as the result, and the left one
    wins. -/
theorem Built.ordered_map (ha : a.Built) (hb : b.Built) (hc : c.Built) :
    ((a.entries.map Prod.fst).Nodup ∧ ∀ entry ∈ a.entries, entry.2 ≠ .null) ∧
    (∀ name,
      (∀ value, value ≠ .null → (a.set name value).get? name = some value) ∧
      (a.set name .null).get? name = none ∧
      ∀ value other, other ≠ name → (a.set name value).get? other = a.get? other) ∧
    (∀ name,
      (∀ value, value ≠ .null → (a.set name value).entries.map Prod.fst =
        if name ∈ a.entries.map Prod.fst then a.entries.map Prod.fst
        else a.entries.map Prod.fst ++ [name]) ∧
      (a.set name .null).entries.map Prod.fst = (a.entries.map Prod.fst).erase name) ∧
    ((a.merged b).merged c = a.merged (b.merged c) ∧ a.merged a = a ∧
      a.merged .empty = a ∧ AttributeList.empty.merged a = a) ∧
    (∀ name, (a.merged b).get? name = (a.get? name).or (b.get? name)) ∧
    (a.merged b).entries =
      a.entries ++ b.entries.filter (fun entry => (a.get? entry.1).isNone) ∧
    ∀ (op : BinaryOp) (x y : Arg Value) (answer : Answer),
      (∀ attrs, x.value.attributes? = some attrs → attrs.Built) →
      (∀ attrs, y.value.attributes? = some attrs → attrs.Built) →
      Builtin.arithmetic op [x, y] = .ok answer →
      ∃ values attrs, answer = .fresh (.double values) attrs ∧ attrs.Built ∧
        (attrs.entries.map Prod.fst).Nodup ∧
        ∀ name, attrs.get? name =
          (if x.value.length = values.size then x.value.attribute? name else none).or
            (if y.value.length = values.size then y.value.attribute? name else none) := by
  have hwa := ha.wellFormed
  have hwb := hb.wellFormed
  refine ⟨⟨hwa.nodup, hwa.ne_null⟩, fun name => ⟨fun _ => get?_set_self, hwa.get?_set_null name,
    fun value _ => get?_set_of_ne value⟩, a.names_set, ⟨hwb.merged_assoc hc.wellFormed a,
    hwa.merged_self, rfl, hwa.empty_merged⟩, hwb.get?_merged a, ?_,
    fun op x y answer hx hy hrun => ?_⟩
  · rw [merged_entries hwb.nodup]
    congr 2
    funext entry
    exact Option.not_isSome _
  · obtain ⟨values, rfl⟩ := exists_of_arithmetic hrun
    have hright := built_carriedAttributes hy values.size
    have hmerged := (built_carriedAttributes hx values.size).merged hright
    refine ⟨values, _, rfl, hmerged, hmerged.wellFormed.nodup, fun name => ?_⟩
    rw [hright.wellFormed.get?_merged, get?_carriedAttributes, get?_carriedAttributes]

/-- Both lists set `unit`, and the left one wins; of two operands, the one that is shorter than the
    result gives it no attributes. -/
theorem Built.ordered_map_unit :
    let number (id : Nat) (x : Float) : Value := .vector ⟨⟨id⟩, .double #[x], .empty⟩
    let a := (AttributeList.empty.set ⟨"unit"⟩ (number 1 10)).set ⟨"note"⟩ (number 2 20)
    let b := (AttributeList.empty.set ⟨"scale"⟩ (number 3 30)).set ⟨"unit"⟩ (number 4 40)
    let c := AttributeList.empty.set ⟨"note"⟩ .null
    let x : Arg Value := .untagged (.vector ⟨⟨5⟩, .double #[1, 2], a⟩)
    let y : Arg Value := .untagged (.vector ⟨⟨6⟩, .double #[3], b⟩)
    (a.Built ∧ b.Built ∧ c.Built) ∧
    (a.merged b).merged c = a.merged (b.merged c) ∧
    (a.merged b).entries.map Prod.fst = [⟨"unit"⟩, ⟨"note"⟩, ⟨"scale"⟩] ∧
    (a.merged b).get? ⟨"unit"⟩ = some (number 1 10) ∧
    ∃ values attrs, Builtin.arithmetic .add [x, y] = .ok (.fresh (.double values) attrs) ∧
      attrs.get? ⟨"unit"⟩ = some (number 1 10) ∧ attrs.get? ⟨"scale"⟩ = none := by
  intro number a b c x y
  have ha : a.Built := (Built.empty.set _ _).set _ _
  have hb : b.Built := (Built.empty.set _ _).set _ _
  have hc : c.Built := Built.empty.set _ _
  obtain ⟨-, -, -, ⟨hassoc, -⟩, hget, hentries, harithmetic⟩ := ordered_map ha hb hc
  obtain ⟨_, attrs, hanswer, -, -, hattrs⟩ := harithmetic .add x y _
    (fun _ h => Option.some.inj h ▸ ha) (fun _ h => Option.some.inj h ▸ hb) rfl
  cases hanswer
  exact ⟨⟨ha, hb, hc⟩, hassoc, by rw [hentries]; rfl, by rw [hget]; rfl, _, _, rfl,
    by rw [hattrs]; rfl, by rw [hattrs]; rfl⟩

end AttributeList

end CallByNeed
