import CallByNeed.Heap.Collect
import Mathlib.Logic.Relation

/-!
# What a value refers to

A value is made of other values: the formals and the body of a closure, the
function and the arguments of a call, the elements of a list, the attributes of a
vector, and what a promise is a promise of (`Value.Child`, `Value.Part`).  Three
kinds of values have an environment of their own (`Value.ownEnv?`).  A value
mentions the environments of all its parts, and these are the ones that the
collector reads off it (`Value.mem_links`).
-/

namespace CallByNeed

namespace Value

variable {store : PromiseStore} {v w : Value} {id : EnvId}

/-- The second value stands directly inside the first. -/
inductive Child (store : PromiseStore) : Value → Value → Prop where
  | formal (c : Closure) {arg : Arg Value} (h : arg ∈ c.formals) :
    Child store (closure c) arg.value
  | body (c : Closure) : Child store (closure c) c.body
  | function (c : Call) : Child store (call c) c.function
  | argument (c : Call) {arg : Arg Value} (h : arg ∈ c.args) : Child store (call c) arg.value
  | element {args : ArgList} {arg : Arg Value} (h : arg ∈ args) : Child store (list args) arg.value
  | dot {args : ArgList} {arg : Arg Value} (h : arg ∈ args) : Child store (dots args) arg.value
  | ofAttribute (v : Vec) {entry : Symbol × Value} (h : entry ∈ v.attributes.entries) :
    Child store (vector v) entry.2
  | expr {id : PromiseId} {p : Promise} (h : store.get? id = some p) :
    Child store (promise id) p.expr
  | kept {id : PromiseId} {p : Promise} {value : Value} (h : store.get? id = some p)
    (hvalue : p.value? = some value) : Child store (promise id) value

/-- The second value is the first one or stands somewhere inside it. -/
def Part (store : PromiseStore) : Value → Value → Prop := Relation.ReflTransGen (Child store)

/-- The environment that a value has by itself. -/
def ownEnv? (store : PromiseStore) : Value → Option EnvId
  | environment id => some id
  | closure c => some c.env
  | promise id => (store.get? id).bind Promise.env?
  | _ => none

/-- Some part of the value has this environment. -/
def Mentions (store : PromiseStore) (v : Value) (id : EnvId) : Prop :=
  ∃ w, Part store v w ∧ w.ownEnv? store = some id

/-- A value mentions its own environment and what stands directly inside it mentions. -/
theorem mentions_iff : v.Mentions store id ↔
    v.ownEnv? store = some id ∨ ∃ w, Child store v w ∧ w.Mentions store id := by
  constructor
  · rintro ⟨u, hpart, hown⟩
    obtain rfl | ⟨w, hchild, hrest⟩ := Relation.ReflTransGen.cases_head hpart
    · exact .inl hown
    · exact .inr ⟨w, hchild, u, hrest, hown⟩
  · rintro (hown | ⟨w, hchild, u, hrest, hown⟩)
    · exact ⟨v, .refl, hown⟩
    · exact ⟨u, .head hchild hrest, hown⟩

/-! ## One kind of value after the other -/

@[simp] theorem mentions_environment {env : EnvId} :
    (environment env).Mentions store id ↔ env = id := by
  rw [mentions_iff]
  constructor
  · rintro (hown | ⟨w, hchild, -⟩)
    · exact Option.some.inj hown
    · cases hchild
  · exact fun h => .inl (congrArg some h)

theorem mentions_closure {c : Closure} :
    (closure c).Mentions store id ↔
      c.env = id ∨ (∃ arg ∈ c.formals, arg.value.Mentions store id) ∨ c.body.Mentions store id := by
  rw [mentions_iff]
  constructor
  · rintro (hown | ⟨w, hchild, hw⟩)
    · exact .inl (Option.some.inj hown)
    · cases hchild with
      | formal _ harg => exact .inr (.inl ⟨_, harg, hw⟩)
      | body => exact .inr (.inr hw)
  · rintro (henv | ⟨arg, harg, hw⟩ | hbody)
    · exact .inl (congrArg some henv)
    · exact .inr ⟨_, .formal c harg, hw⟩
    · exact .inr ⟨_, .body c, hbody⟩

theorem mentions_call {c : Call} :
    (call c).Mentions store id ↔
      c.function.Mentions store id ∨ ∃ arg ∈ c.args, arg.value.Mentions store id := by
  rw [mentions_iff]
  constructor
  · rintro (hown | ⟨w, hchild, hw⟩)
    · cases hown
    · cases hchild with
      | function => exact .inl hw
      | argument _ harg => exact .inr ⟨_, harg, hw⟩
  · rintro (hfunction | ⟨arg, harg, hw⟩)
    · exact .inr ⟨_, .function c, hfunction⟩
    · exact .inr ⟨_, .argument c harg, hw⟩

theorem mentions_list {args : ArgList} :
    (list args).Mentions store id ↔ ∃ arg ∈ args, arg.value.Mentions store id := by
  rw [mentions_iff]
  constructor
  · rintro (hown | ⟨w, hchild, hw⟩)
    · cases hown
    · cases hchild with
      | element harg => exact ⟨_, harg, hw⟩
  · exact fun ⟨arg, harg, hw⟩ => .inr ⟨_, .element harg, hw⟩

theorem mentions_dots {args : ArgList} :
    (dots args).Mentions store id ↔ ∃ arg ∈ args, arg.value.Mentions store id := by
  rw [mentions_iff]
  constructor
  · rintro (hown | ⟨w, hchild, hw⟩)
    · cases hown
    · cases hchild with
      | dot harg => exact ⟨_, harg, hw⟩
  · exact fun ⟨arg, harg, hw⟩ => .inr ⟨_, .dot harg, hw⟩

theorem mentions_vector {v : Vec} :
    (vector v).Mentions store id ↔
      ∃ entry ∈ v.attributes.entries, entry.2.Mentions store id := by
  rw [mentions_iff]
  constructor
  · rintro (hown | ⟨w, hchild, hw⟩)
    · cases hown
    · cases hchild with
      | ofAttribute _ hentry => exact ⟨_, hentry, hw⟩
  · exact fun ⟨entry, hentry, hw⟩ => .inr ⟨_, .ofAttribute v hentry, hw⟩

theorem mentions_promise {p : PromiseId} :
    (promise p).Mentions store id ↔
      ∃ cell, store.get? p = some cell ∧ (cell.env? = some id ∨ cell.expr.Mentions store id ∨
        ∃ value, cell.value? = some value ∧ value.Mentions store id) := by
  rw [mentions_iff]
  constructor
  · rintro (hown | ⟨w, hchild, hw⟩)
    · obtain ⟨cell, hcell, henv⟩ := Option.bind_eq_some_iff.1 hown
      exact ⟨cell, hcell, .inl henv⟩
    · cases hchild with
      | expr hcell => exact ⟨_, hcell, .inr (.inl hw)⟩
      | kept hcell hvalue => exact ⟨_, hcell, .inr (.inr ⟨_, hvalue, hw⟩)⟩
  · rintro ⟨cell, hcell, henv | hexpr | ⟨value, hvalue, hw⟩⟩
    · exact .inl (Option.bind_eq_some_iff.2 ⟨cell, hcell, henv⟩)
    · exact .inr ⟨_, .expr hcell, hexpr⟩
    · exact .inr ⟨_, .kept hcell hvalue, hw⟩

theorem not_mentions_of_childless (hown : v.ownEnv? store = none)
    (hchild : ∀ w, ¬ Child store v w) : ¬ v.Mentions store id := by
  rw [mentions_iff, hown]
  rintro (h | ⟨w, h, -⟩)
  · cases h
  · exact hchild w h

/-! ## The links that the collector reads off -/

section

variable {ofPromise : PromiseId → Option (List EnvId)}

mutual

theorem mem_linksBy
    (hof : ∀ p ids, ofPromise p = some ids → (id ∈ ids ↔ (promise p).Mentions store id)) (v : Value)
    {ids : List EnvId} (h : v.linksBy ofPromise = some ids) : id ∈ ids ↔ v.Mentions store id := by
  match v with
  | environment env =>
    cases h
    simp [eq_comm]
  | closure ⟨_, formals, body, env⟩ =>
    obtain ⟨ofFormals, hformals, h⟩ := Option.bind_eq_some_iff.1 h
    obtain ⟨ofBody, hbody, h⟩ := Option.bind_eq_some_iff.1 h
    cases h
    simp [mentions_closure, mem_argsLinksBy hof formals hformals, mem_linksBy hof body hbody,
      eq_comm]
  | promise p => exact hof p ids h
  | call ⟨_, function, args⟩ =>
    obtain ⟨ofFunction, hfunction, h⟩ := Option.bind_eq_some_iff.1 h
    obtain ⟨ofArgs, hargs, h⟩ := Option.bind_eq_some_iff.1 h
    cases h
    simp [mentions_call, mem_linksBy hof function hfunction, mem_argsLinksBy hof args hargs]
  | list args => exact (mem_argsLinksBy hof args h).trans mentions_list.symm
  | dots args => exact (mem_argsLinksBy hof args h).trans mentions_dots.symm
  | vector ⟨identity, elements, ⟨entries⟩⟩ =>
    rw [mentions_vector]
    exact mem_entriesLinksBy hof entries h
  | null | symbol _ | builtin _ _ =>
    cases h
    exact iff_of_false List.not_mem_nil
      (not_mentions_of_childless rfl fun _ hchild => nomatch hchild)

theorem mem_argsLinksBy
    (hof : ∀ p ids, ofPromise p = some ids → (id ∈ ids ↔ (promise p).Mentions store id))
    (args : List (Arg Value)) {ids : List EnvId} (h : argsLinksBy ofPromise args = some ids) :
    id ∈ ids ↔ ∃ arg ∈ args, arg.value.Mentions store id := by
  match args with
  | [] =>
    cases h
    simp
  | ⟨tag, value⟩ :: rest =>
    obtain ⟨ofValue, hvalue, h⟩ := Option.bind_eq_some_iff.1 h
    obtain ⟨ofRest, hrest, h⟩ := Option.bind_eq_some_iff.1 h
    cases h
    simp [mem_linksBy hof value hvalue, mem_argsLinksBy hof rest hrest]

theorem mem_entriesLinksBy
    (hof : ∀ p ids, ofPromise p = some ids → (id ∈ ids ↔ (promise p).Mentions store id))
    (entries : List (Symbol × Value)) {ids : List EnvId}
    (h : entriesLinksBy ofPromise entries = some ids) :
    id ∈ ids ↔ ∃ entry ∈ entries, entry.2.Mentions store id := by
  match entries with
  | [] =>
    cases h
    simp
  | (name, value) :: rest =>
    obtain ⟨ofValue, hvalue, h⟩ := Option.bind_eq_some_iff.1 h
    obtain ⟨ofRest, hrest, h⟩ := Option.bind_eq_some_iff.1 h
    cases h
    simp [mem_linksBy hof value hvalue, mem_entriesLinksBy hof rest hrest]

end

end

end Value

variable {store : PromiseStore} {id : EnvId} {ids : List EnvId}

/-- One step of the search: a promise that is not there has no links, one that waits has its
    environment and the links of its expression, and a kept one has those of its value in place of
    the environment. -/
theorem PromiseStore.linksWithin_succ_eq_some_iff {fuel : Nat} {p : PromiseId} :
    store.linksWithin (fuel + 1) p = some ids ↔
      store.get? p = none ∧ [] = ids ∨
      (∃ expr env underEvaluation ofExpr,
        store.get? p = some ⟨expr, .waiting env underEvaluation⟩ ∧
          expr.linksBy (store.linksWithin fuel) = some ofExpr ∧ env :: ofExpr = ids) ∨
      ∃ expr value ofValue ofExpr, store.get? p = some ⟨expr, .kept value⟩ ∧
        value.linksBy (store.linksWithin fuel) = some ofValue ∧
          expr.linksBy (store.linksWithin fuel) = some ofExpr ∧ ofValue ++ ofExpr = ids := by
  rw [linksWithin]
  cases store.get? p with
  | none => simp
  | some cell =>
    obtain ⟨expr, ⟨env, underEvaluation⟩ | value⟩ := cell
    · simp [Option.bind_eq_some_iff, and_assoc]
    · simp [Option.bind_eq_some_iff, and_assoc]

theorem PromiseStore.mem_linksWithin {fuel : Nat} {p : PromiseId}
    (h : store.linksWithin fuel p = some ids) : id ∈ ids ↔ (Value.promise p).Mentions store id := by
  induction fuel generalizing p ids with
  | zero => cases h
  | succ fuel ih =>
    have hmem {v : Value} {found : List EnvId}
        (hfound : v.linksBy (store.linksWithin fuel) = some found) :
        id ∈ found ↔ v.Mentions store id :=
      Value.mem_linksBy (fun _ _ => ih) v hfound
    obtain ⟨hcell, rfl⟩ | ⟨expr, env, underEvaluation, ofExpr, hcell, hexpr, rfl⟩ |
      ⟨expr, value, ofValue, ofExpr, hcell, hvalue, hexpr, rfl⟩ :=
        linksWithin_succ_eq_some_iff.1 h
    · simp [Value.mentions_promise, hcell]
    · simp [Value.mentions_promise, hcell, hmem hexpr, Promise.env?, Promise.value?, eq_comm]
    · simp [Value.mentions_promise, hcell, hmem hexpr, hmem hvalue, Promise.env?, Promise.value?,
        or_comm]

/-- The links of a value are the environments that it mentions. -/
theorem Value.mem_links {v : Value} (h : v.links store = some ids) :
    id ∈ ids ↔ v.Mentions store id :=
  mem_linksBy (fun _ _ => PromiseStore.mem_linksWithin) v h

theorem mem_valuesLinks {values : List Value} (h : valuesLinks store values = some ids) :
    id ∈ ids ↔ ∃ v ∈ values, v.Mentions store id := by
  induction values generalizing ids with
  | nil =>
    cases h
    simp
  | cons v rest ih =>
    obtain ⟨ofValue, hvalue, h⟩ := Option.bind_eq_some_iff.1 h
    obtain ⟨ofRest, hrest, h⟩ := Option.bind_eq_some_iff.1 h
    cases h
    simp [Value.mem_links hvalue, ih hrest]

/-- A frame mentions its parent and what its bindings mention. -/
def Frame.Mentions (store : PromiseStore) (f : Frame) (id : EnvId) : Prop :=
  f.parent = some id ∨ ∃ entry ∈ f.bindings, entry.2.value.Mentions store id

theorem Frame.mem_links {f : Frame} (h : f.links store = some ids) :
    id ∈ ids ↔ f.Mentions store id := by
  obtain ⟨ofBindings, hbindings, h⟩ := Option.bind_eq_some_iff.1 h
  cases h
  simp only [List.mem_append, Option.mem_toList, mem_valuesLinks hbindings, List.mem_map, Mentions]
  refine or_congr_right ?_
  constructor
  · rintro ⟨v, ⟨entry, hentry, rfl⟩, hv⟩
    exact ⟨entry, hentry, hv⟩
  · rintro ⟨entry, hentry, hv⟩
    exact ⟨_, ⟨entry, hentry, rfl⟩, hv⟩

end CallByNeed
