import CallByNeed.Proofs.Heap.Collection
import CallByNeed.Proofs.Heap.Grounded
import CallByNeed.Proofs.Twins.Sessions

/-!
# What twins mention

What a bridge relates mentions related environments, and no others
(`Bridge.Pairs`), though a promise mentions what its contents mention.  So the same
can be reached on both sides of twins (`Bridge.Matches.pairs_reached`).

A promise of the bridge has no promise inside.  So the collector finds all links of
what the bridge relates (`Bridge.Traced`).
-/

namespace CallByNeed

open Bridge

namespace Bridge

variable {b c : Bridge} {K K' J J' : EnvId → Prop} {store store' : PromiseStore} {v v' : Value}
  {args args' : ArgList}

/-! ## What both sides mention -/

/-- The environments of the first kind have counterparts of the second kind, and are the only ones
    to have them. -/
structure Pairs (b : Bridge) (K K' : EnvId → Prop) : Prop where
  right : ∀ {id}, K id → ∃ id', b.Relates id id' ∧ K' id'
  left : ∀ {id'}, K' id' → ∃ id, b.Relates id id' ∧ K id

namespace Pairs

theorem congr (h : b.Pairs K K') (hJ : ∀ id, J id ↔ K id) (hJ' : ∀ id, J' id ↔ K' id) :
    b.Pairs J J' := by
  constructor
  · intro id hid
    obtain ⟨id', hrelates, hid'⟩ := h.right ((hJ id).1 hid)
    exact ⟨id', hrelates, (hJ' id').2 hid'⟩
  · intro id' hid'
    obtain ⟨id, hrelates, hid⟩ := h.left ((hJ' id').1 hid')
    exact ⟨id, hrelates, (hJ id).2 hid⟩

theorem none (hK : ∀ id, ¬ K id) (hK' : ∀ id, ¬ K' id) : b.Pairs K K' :=
  ⟨fun h => absurd h (hK _), fun h => absurd h (hK' _)⟩

theorem env {env env' : EnvId} (h : b.Relates env env') : b.Pairs (env = ·) (env' = ·) :=
  ⟨fun he => ⟨env', he ▸ h, rfl⟩, fun he => ⟨env, he ▸ h, rfl⟩⟩

theorem or (hK : b.Pairs K K') (hJ : b.Pairs J J') :
    b.Pairs (fun id => K id ∨ J id) fun id => K' id ∨ J' id := by
  constructor
  · rintro id (h | h)
    · obtain ⟨id', hrelates, h'⟩ := hK.right h
      exact ⟨id', hrelates, .inl h'⟩
    · obtain ⟨id', hrelates, h'⟩ := hJ.right h
      exact ⟨id', hrelates, .inr h'⟩
  · rintro id' (h | h)
    · obtain ⟨id, hrelates, h'⟩ := hK.left h
      exact ⟨id, hrelates, .inl h'⟩
    · obtain ⟨id, hrelates, h'⟩ := hJ.left h
      exact ⟨id, hrelates, .inr h'⟩

/-- Lists with such pairs of elements. -/
theorem mem {α : Type} {K K' : α → EnvId → Prop} {l l' : List α}
    (h : List.Forall₂ (fun a a' => b.Pairs (K a) (K' a')) l l') :
    b.Pairs (fun id => ∃ a ∈ l, K a id) fun id => ∃ a ∈ l', K' a id := by
  induction h with
  | nil => exact none (by simp) (by simp)
  | cons ha _ ih => exact (ha.or ih).congr (fun id => by simp) fun id => by simp

end Pairs

/-- The value is within every bridge that has what it mentions, though no promise: there is no
    promise in it. -/
def Tame (store : PromiseStore) (v : Value) : Prop :=
  ∀ c : Bridge, (∀ id, v.Mentions store id → ∃ target, c.Relates id target) → c.bare.Within v

/-- Both mention the same on the bridge, and there is no promise in either. -/
structure Mentioned (b : Bridge) (store store' : PromiseStore) (v v' : Value) : Prop where
  pairs : b.Pairs (v.Mentions store) (v'.Mentions store')
  left : Tame store v
  right : Tame store' v'

/-! ### One kind of value after the other -/

theorem within_arg {arg : Arg Value} (h : b.Within arg.value) : b.Within arg :=
  (relates_arg h.relates).within

/-- Values in a list that are within every bridge that has what they mention. -/
theorem within_args (hargs : ∀ arg ∈ args, Tame store arg.value)
    (hc : ∀ id, (∃ arg ∈ args, arg.value.Mentions store id) → ∃ target, c.Relates id target) :
    c.bare.Within args :=
  within_list.2 fun arg harg => within_arg (hargs arg harg c fun id hid => hc id ⟨arg, harg, hid⟩)

theorem tame_environment (id : EnvId) : Tame store (.environment id) := by
  intro c hc
  obtain ⟨target, htarget⟩ := hc id (Value.mentions_environment.2 rfl)
  exact (relates_environment.2 ⟨target, rfl, clean_env.2 htarget⟩).within

theorem tame_closure {closure : Closure} (hformals : ∀ arg ∈ closure.formals, Tame store arg.value)
    (hbody : Tame store closure.body) : Tame store (.closure closure) := by
  intro c hc
  have hc := fun id hid => hc id (Value.mentions_closure.2 hid)
  obtain ⟨target, htarget⟩ := hc closure.env (.inl rfl)
  have hformals := within_args hformals fun id hid => hc id (.inr (.inl hid))
  have hbody := hbody c fun id hid => hc id (.inr (.inr hid))
  exact (relates_closure.2 ⟨_, rfl, relates_mkClosure hformals.relates hbody.relates
    (clean_env.2 htarget)⟩).within

theorem tame_call {call : Call} (hfunction : Tame store call.function)
    (hargs : ∀ arg ∈ call.args, Tame store arg.value) : Tame store (.call call) := by
  intro c hc
  have hc := fun id hid => hc id (Value.mentions_call.2 hid)
  have hfunction := hfunction c fun id hid => hc id (.inl hid)
  have hargs := within_args hargs fun id hid => hc id (.inr hid)
  exact (relates_call.2 ⟨_, rfl, relates_mkCall hfunction.relates hargs.relates⟩).within

theorem tame_list (hargs : ∀ arg ∈ args, Tame store arg.value) : Tame store (.list args) := by
  intro c hc
  have hargs := within_args hargs fun id hid => hc id (Value.mentions_list.2 hid)
  exact (relates_list.2 ⟨_, rfl, hargs.relates⟩).within

theorem tame_dots (hargs : ∀ arg ∈ args, Tame store arg.value) : Tame store (.dots args) := by
  intro c hc
  have hargs := within_args hargs fun id hid => hc id (Value.mentions_dots.2 hid)
  exact (relates_dots.2 ⟨_, rfl, hargs.relates⟩).within

theorem tame_vector {x : Vec} (hentries : ∀ entry ∈ x.attributes.entries, Tame store entry.2) :
    Tame store (.vector x) := by
  intro c hc
  have hwithin : c.bare.Within x.attributes.entries := within_list.2 fun entry hentry => by
    have hvalue := hentries entry hentry c fun id hid =>
      hc id (Value.mentions_vector.2 ⟨entry, hentry, hid⟩)
    exact (relates_pair.2 ⟨rfl, hvalue.relates⟩).within
  exact (relates_vector.2 ⟨_, rfl, relates_mkVector (hwithin.relates.map
    (f := AttributeList.mk) fun _ _ => rfl)⟩).within

/-- What is related to itself on every bridge and has nothing in it. -/
theorem mentioned_of_childless (hown : ∀ store, v.ownEnv? store = none)
    (hchild : ∀ store w, ¬ Value.Child store v w) (hrelates : ∀ c : Bridge, c.Relates v v) :
    b.Mentioned store store' v v := by
  have hnone (store : PromiseStore) (id : EnvId) : ¬ v.Mentions store id :=
    Value.not_mentions_of_childless (hown store) (hchild store)
  exact ⟨.none (hnone store) (hnone store'), fun c _ => (hrelates c.bare).within,
    fun c _ => (hrelates c.bare).within⟩

/-- Lists with values of which both sides mention the same. -/
structure MentionedAll {α : Type} (b : Bridge) (store store' : PromiseStore) (f : α → Value)
    (l l' : List α) : Prop where
  pairs : b.Pairs (fun id => ∃ a ∈ l, (f a).Mentions store id)
    fun id => ∃ a ∈ l', (f a).Mentions store' id
  left : ∀ a ∈ l, Tame store (f a)
  right : ∀ a ∈ l', Tame store' (f a)

theorem MentionedAll.nil {α : Type} {f : α → Value} : b.MentionedAll store store' f [] [] :=
  ⟨.none (by simp) (by simp), by simp, by simp⟩

theorem MentionedAll.cons {α : Type} {f : α → Value} {a a' : α} {l l' : List α}
    (ha : b.Mentioned store store' (f a) (f a')) (hl : b.MentionedAll store store' f l l') :
    b.MentionedAll store store' f (a :: l) (a' :: l') :=
  ⟨(ha.pairs.or hl.pairs).congr (fun id => by simp) fun id => by simp,
    List.forall_mem_cons.2 ⟨ha.left, hl.left⟩, List.forall_mem_cons.2 ⟨ha.right, hl.right⟩⟩

mutual

theorem mentioned (store store' : PromiseStore) (v : Value) {v' : Value} (h : b.Clean v v') :
    b.Mentioned store store' v v' := by
  match v with
  | .null =>
    rw [relates_null.1 h]
    exact mentioned_of_childless (fun _ => rfl) (fun _ _ hchild => nomatch hchild) fun _ =>
      relates_null.2 rfl
  | .symbol name =>
    rw [relates_symbol.1 h]
    exact mentioned_of_childless (fun _ => rfl) (fun _ _ hchild => nomatch hchild) fun _ =>
      relates_symbol.2 rfl
  | .builtin identity f =>
    obtain ⟨rfl, hquiet⟩ := relates_builtin.1 h
    exact mentioned_of_childless (fun _ => rfl) (fun _ _ hchild => nomatch hchild) fun _ =>
      relates_builtin.2 ⟨rfl, hquiet⟩
  | .promise p => exact (relates_promiseValue.1 h).2.elim
  | .environment id =>
    obtain ⟨id', rfl, hid⟩ := relates_environment.1 h
    exact ⟨(Pairs.env (clean_env.1 hid)).congr (fun _ => Value.mentions_environment)
      fun _ => Value.mentions_environment, tame_environment id, tame_environment id'⟩
  | .closure ⟨identity, formals, body, env⟩ =>
    obtain ⟨c', rfl, hclosure⟩ := relates_closure.1 h
    have henv := Pairs.env (clean_env.1 hclosure.env)
    have hformals := mentioned_args store store' formals hclosure.formals
    have hbody := mentioned store store' body hclosure.body
    exact ⟨(henv.or (hformals.pairs.or hbody.pairs)).congr (fun _ => Value.mentions_closure)
      fun _ => Value.mentions_closure, tame_closure hformals.left hbody.left,
      tame_closure hformals.right hbody.right⟩
  | .call ⟨identity, function, args⟩ =>
    obtain ⟨c', rfl, hcall⟩ := relates_call.1 h
    have hfunction := mentioned store store' function hcall.function
    have hargs := mentioned_args store store' args hcall.args
    exact ⟨(hfunction.pairs.or hargs.pairs).congr (fun _ => Value.mentions_call)
      fun _ => Value.mentions_call, tame_call hfunction.left hargs.left,
      tame_call hfunction.right hargs.right⟩
  | .list args =>
    obtain ⟨args', rfl, hrelates⟩ := relates_list.1 h
    have hargs := mentioned_args store store' args hrelates
    exact ⟨hargs.pairs.congr (fun _ => Value.mentions_list) fun _ => Value.mentions_list,
      tame_list hargs.left, tame_list hargs.right⟩
  | .dots args =>
    obtain ⟨args', rfl, hrelates⟩ := relates_dots.1 h
    have hargs := mentioned_args store store' args hrelates
    exact ⟨hargs.pairs.congr (fun _ => Value.mentions_dots) fun _ => Value.mentions_dots,
      tame_dots hargs.left, tame_dots hargs.right⟩
  | .vector ⟨identity, elements, ⟨entries⟩⟩ =>
    obtain ⟨⟨identity', elements', ⟨entries'⟩⟩, rfl, hvector⟩ := relates_vector.1 h
    have hrelates : b.Clean entries entries' := hvector.attributes.map
      (f := AttributeList.entries) fun _ _ => rfl
    have hentries := mentioned_entries store store' entries hrelates
    exact ⟨hentries.pairs.congr (fun _ => Value.mentions_vector) fun _ => Value.mentions_vector,
      tame_vector hentries.left, tame_vector hentries.right⟩

theorem mentioned_args (store store' : PromiseStore) (args : List (Arg Value))
    {args' : List (Arg Value)} (h : b.Clean args args') :
    b.MentionedAll store store' Arg.value args args' := by
  match args with
  | [] =>
    rw [h.of_nil]
    exact .nil
  | ⟨tag, value⟩ :: rest =>
    obtain ⟨arg', rest', rfl, harg, hrest⟩ := h.of_cons
    exact .cons (mentioned store store' value harg.value) (mentioned_args store store' rest hrest)

theorem mentioned_entries (store store' : PromiseStore) (entries : List (Symbol × Value))
    {entries' : List (Symbol × Value)} (h : b.Clean entries entries') :
    b.MentionedAll store store' Prod.snd entries entries' := by
  match entries with
  | [] =>
    rw [h.of_nil]
    exact .nil
  | (name, value) :: rest =>
    obtain ⟨entry', rest', rfl, hentry, hrest⟩ := h.of_cons
    obtain ⟨name', value'⟩ := entry'
    exact .cons (mentioned store store' value (relates_pair.1 hentry).2)
      (mentioned_entries store store' rest hrest)

end

/-! ## Values without promises -/

theorem Within.child {v w : Value} (hv : b.bare.Within v)
    (hchild : Value.Child store v w) : b.bare.Within w := by
  have hrelates := hv.relates
  cases hchild with
  | formal c harg =>
    obtain ⟨_, -, hc⟩ := relates_closure.1 hrelates
    exact (within_list.1 hc.formals.within _ harg).value
  | body c =>
    obtain ⟨_, -, hc⟩ := relates_closure.1 hrelates
    exact hc.body.within
  | function c =>
    obtain ⟨_, -, hc⟩ := relates_call.1 hrelates
    exact hc.function.within
  | argument c harg =>
    obtain ⟨_, -, hc⟩ := relates_call.1 hrelates
    exact (within_list.1 hc.args.within _ harg).value
  | element harg =>
    obtain ⟨_, -, hargs⟩ := relates_list.1 hrelates
    exact (within_list.1 hargs.within _ harg).value
  | dot harg =>
    obtain ⟨_, -, hargs⟩ := relates_dots.1 hrelates
    exact (within_list.1 hargs.within _ harg).value
  | ofAttribute x hentry =>
    obtain ⟨_, -, hx⟩ := relates_vector.1 hrelates
    have hentries := hx.attributes.map (f := AttributeList.entries) fun _ _ => rfl
    exact ((within_list.1 hentries.within _ hentry).relates.map (f := Prod.snd)
      fun _ _ => rfl).within
  -- a value that is within a bare bridge is no promise
  | expr _ => exact (relates_promiseValue.1 hrelates).2.elim
  | kept _ _ => exact (relates_promiseValue.1 hrelates).2.elim

theorem Within.part {v w : Value} (hv : b.bare.Within v) (hpart : v.Part store w) :
    b.bare.Within w := by
  induction hpart with
  | refl => exact hv
  | tail _ hchild ih => exact ih.child hchild

/-- There is no promise in what is within a bridge without promises. -/
theorem Within.not_part {p : PromiseId} (hv : b.bare.Within v) : ¬ v.Part store (.promise p) :=
  fun hpart => (relates_promiseValue.1 (hv.part hpart).relates).2

/-- The bridge from every environment to itself. -/
def whole : Bridge := ⟨some, fun h h' => Option.some.inj (h.trans h'.symm), fun _ => False⟩

theorem Tame.within {v : Value} (h : Tame store v) : whole.bare.Within v :=
  h whole fun id _ => ⟨id, relates_env.2 rfl⟩

theorem Tame.grounded {v : Value} (h : Tame store v) : v.Grounded store :=
  fun _ hp => (h.within.not_part hp).elim

/-- What stands inside a promise with such contents is without promises. -/
theorem within_of_child {p : PromiseId} {cell : Promise} {w : Value}
    (hcell : store.get? p = some cell) (hexpr : Tame store cell.expr)
    (hvalue : ∀ value, cell.value? = some value → Tame store value)
    (hchild : Value.Child store (.promise p) w) : whole.bare.Within w := by
  cases hchild with
  | expr h =>
    obtain rfl := Option.some.inj (hcell.symm.trans h)
    exact hexpr.within
  | kept h hkept =>
    obtain rfl := Option.some.inj (hcell.symm.trans h)
    exact (hvalue _ hkept).within

theorem eq_of_part {p q : PromiseId} {cell : Promise} (hcell : store.get? p = some cell)
    (hexpr : Tame store cell.expr)
    (hvalue : ∀ value, cell.value? = some value → Tame store value)
    (hpart : (Value.promise p).Part store (.promise q)) : p = q := by
  obtain hsame | ⟨w, hw, hrest⟩ := Relation.ReflTransGen.cases_head hpart
  · exact Value.promise.inj hsame
  · exact ((within_of_child hcell hexpr hvalue hw).not_part hrest).elim

theorem grounded_promise {p : PromiseId} {cell : Promise}
    (hcell : store.get? p = some cell) (hexpr : Tame store cell.expr)
    (hvalue : ∀ value, cell.value? = some value → Tame store value) :
    (Value.promise p).Grounded store := by
  intro q hq
  obtain rfl := eq_of_part hcell hexpr hvalue hq
  refine ⟨by rw [hcell]; rfl, fun hholds => ?_⟩
  obtain ⟨w, hw, hpart⟩ := Relation.TransGen.head'_iff.1 hholds
  exact (within_of_child hcell hexpr hvalue hw).not_part hpart

theorem grounded_dots {args : ArgList}
    (hargs : ∀ arg ∈ args, arg.value.Grounded store) : (Value.dots args).Grounded store := by
  intro p hp
  obtain hsame | ⟨w, hw, hpart⟩ := Relation.ReflTransGen.cases_head hp
  · cases hsame
  · cases hw with
    | dot harg => exact hargs _ harg p hpart

/-! ## Promises and what is bound -/

theorem pairs_cell (store store' : PromiseStore) {cell cell' : Promise} (h : b.Clean cell cell') :
    b.Pairs
      (fun id => cell.env? = some id ∨ cell.expr.Mentions store id ∨
        ∃ value, cell.value? = some value ∧ value.Mentions store id)
      fun id => cell'.env? = some id ∨ cell'.expr.Mentions store' id ∨
        ∃ value, cell'.value? = some value ∧ value.Mentions store' id := by
  obtain ⟨expr, state⟩ := cell
  obtain ⟨expr', state'⟩ := cell'
  have hexpr := (mentioned store store' expr h.expr).pairs
  have hstate : b.Clean state state' := h.state
  cases state with
  | waiting env underEvaluation =>
    obtain ⟨env', rfl, henv⟩ := relates_waiting.1 hstate
    exact ((Pairs.env (clean_env.1 henv)).or hexpr).congr
      (fun id => by simp [Promise.env?, Promise.value?])
      fun id => by simp [Promise.env?, Promise.value?]
  | kept value =>
    obtain ⟨value', rfl, hvalue⟩ := relates_kept.1 hstate
    exact (hexpr.or (mentioned store store' value hvalue).pairs).congr
      (fun id => by simp [Promise.env?, Promise.value?])
      fun id => by simp [Promise.env?, Promise.value?]

theorem tame_cell (store store' : PromiseStore) {cell cell' : Promise} (h : b.Clean cell cell') :
    (Tame store cell.expr ∧ ∀ value, cell.value? = some value → Tame store value) ∧
      Tame store' cell'.expr ∧ ∀ value, cell'.value? = some value → Tame store' value := by
  obtain ⟨expr, state⟩ := cell
  obtain ⟨expr', state'⟩ := cell'
  have hexpr := mentioned store store' expr h.expr
  have hstate : b.Clean state state' := h.state
  cases state with
  | waiting env underEvaluation =>
    obtain ⟨env', rfl, -⟩ := relates_waiting.1 hstate
    exact ⟨⟨hexpr.left, fun _ hvalue => by cases hvalue⟩, hexpr.right,
      fun _ hvalue => by cases hvalue⟩
  | kept value =>
    obtain ⟨value', rfl, hclean⟩ := relates_kept.1 hstate
    have hvalue := mentioned store store' value hclean
    refine ⟨⟨hexpr.left, fun v hv => ?_⟩, hexpr.right, fun v hv => ?_⟩
    · cases hv
      exact hvalue.left
    · cases hv
      exact hvalue.right

theorem forall_of_forall₂ {α : Type} {P Q : α → Prop} {l l' : List α}
    (h : List.Forall₂ (fun a a' => P a ∧ Q a') l l') : (∀ a ∈ l, P a) ∧ ∀ a ∈ l', Q a := by
  induction h with
  | nil => exact ⟨by simp, by simp⟩
  | cons ha _ ih =>
    exact ⟨List.forall_mem_cons.2 ⟨ha.1, ih.1⟩, List.forall_mem_cons.2 ⟨ha.2, ih.2⟩⟩

variable {s t : Session}

/-- Both mention the same on the bridge, the collector comes to an end in either, and the promises
    in there are promises of the bridge. -/
structure Traced (b : Bridge) (s t : Session) (v v' : Value) : Prop where
  pairs : b.Pairs (v.Mentions s.promises) (v'.Mentions t.promises)
  left : v.Grounded s.promises
  right : v'.Grounded t.promises
  promises : ∀ {p}, v.Part s.promises (.promise p) → b.promises p

theorem Relates.traced (hv : b.Clean v v') : b.Traced s t v v' := by
  have hmentioned : b.Mentioned s.promises t.promises v v' := mentioned _ _ v hv
  exact ⟨hmentioned.pairs, hmentioned.left.grounded, hmentioned.right.grounded,
    fun hp => (hmentioned.left.within.not_part hp).elim⟩

theorem Matches.traced_promise (h : b.Matches s t) {p : PromiseId} (hp : b.promises p) :
    b.Traced s t (.promise p) (.promise p) := by
  obtain ⟨cell, cell', hcell, hcell', hclean⟩ := h.promises hp
  have hpairs := pairs_cell s.promises t.promises hclean
  obtain ⟨hleft, hright⟩ := tame_cell s.promises t.promises hclean
  refine ⟨hpairs.congr (fun id => ?_) fun id => ?_, grounded_promise hcell hleft.1 hleft.2,
    grounded_promise hcell' hright.1 hright.2, fun hq => ?_⟩
  · simp [Value.mentions_promise, hcell]
  · simp [Value.mentions_promise, hcell']
  · rwa [← eq_of_part hcell hleft.1 hleft.2 hq]

theorem Matches.traced_hands (h : b.Matches s t) {arg arg' : Arg Value} (harg : b.Hands arg arg') :
    b.Traced s t arg.value arg'.value := by
  obtain hbare | ⟨p, hp⟩ := harg.passing
  · exact (harg.relates.value.clean hbare).traced
  · have hvalue := harg.relates.value
    rw [hp] at hvalue ⊢
    obtain ⟨hsame, hpromise⟩ := relates_promiseValue.1 hvalue
    rw [hsame]
    exact h.traced_promise hpromise

theorem Matches.traced_stores (h : b.Matches s t) (hv : b.Stores v v') : b.Traced s t v v' := by
  obtain hpassing | ⟨args, rfl, -⟩ := hv.storable
  · have hands : b.Hands (.untagged v) (.untagged v') := ⟨relates_arg hv.relates, hpassing⟩
    exact h.traced_hands hands
  · obtain ⟨args', rfl, -⟩ := relates_dots.1 hv.relates
    have hargs := hv.of_dots.imp fun _ _ => h.traced_hands
    obtain ⟨hleft, hright⟩ := forall_of_forall₂
      (P := fun arg => arg.value.Grounded s.promises ∧
        ∀ p, arg.value.Part s.promises (.promise p) → b.promises p)
      (Q := fun arg => arg.value.Grounded t.promises)
      (hargs.imp fun _ _ harg => ⟨⟨harg.left, fun _ => harg.promises⟩, harg.right⟩)
    refine ⟨(Pairs.mem (hargs.imp fun _ _ => Traced.pairs)).congr (fun _ => Value.mentions_dots)
      fun _ => Value.mentions_dots, grounded_dots fun arg harg => (hleft arg harg).1,
      grounded_dots hright, fun {p} hp => ?_⟩
    obtain hsame | ⟨u, hu, hpart⟩ := Relation.ReflTransGen.cases_head hp
    · cases hsame
    · cases hu with
      | dot harg => exact (hleft _ harg).2 p hpart

theorem MatchesFrame.bindings {f f' : Frame} (hf : b.MatchesFrame f f') :
    List.Forall₂ (fun entry entry' => b.Stores entry.2.value entry'.2.value) f.bindings
      f'.bindings := by
  have hbindings : b.Relates f.bindings f'.bindings := hf.relates.map fun _ _ => rfl
  refine forall₂_stores ((relates_iff_forall₂.1 hbindings).imp ?_) hf.storable
  rintro ⟨name, binding⟩ ⟨name', binding'⟩ hentry
  exact (relates_pair.1 hentry).2.map (f := Binding.value) fun _ _ => rfl

theorem Matches.pairs_frame (h : b.Matches s t) {f f' : Frame} (hf : b.MatchesFrame f f') :
    b.Pairs (f.Mentions s.promises) (f'.Mentions t.promises) := by
  have hparent : b.Pairs (f.parent = some ·) (f'.parent = some ·) := by
    have hrelates := hf.parent
    cases hp : f.parent with
    | none =>
      rw [hp] at hrelates
      rw [hrelates.of_none]
      exact .none (fun _ h => nomatch h) fun _ h => nomatch h
    | some parent =>
      rw [hp] at hrelates
      obtain ⟨parent', hp', henv⟩ := relates_some.1 hrelates
      rw [hp']
      exact (Pairs.env henv).congr (fun _ => by simp) fun _ => by simp
  exact hparent.or (.mem (hf.bindings.imp fun _ _ => fun hv => (h.traced_stores hv).pairs))

/-! ## Reaching from the roots -/

theorem MatchesRest.rootEnvs (h : b.MatchesRest s t) : b.Relates s.rootEnvs t.rootEnvs := by
  have hnamespaces : b.Relates s.namespaces.environments t.namespaces.environments :=
    h.namespaces.map fun r known => by
      simp [Namespaces.environments, rename, List.map_map, Function.comp_def]
  have hstack : b.Relates (s.stack.flatMap Invocation.envs) (t.stack.flatMap Invocation.envs) := by
    have hmatches := h.stack
    generalize s.stack = stack at hmatches
    generalize t.stack = stack' at hmatches
    induction hmatches with
    | nil => exact relates_nil
    | cons hi _ ih =>
      exact relates_cons.2 ⟨hi.env, relates_cons.2 ⟨hi.callerEnv, ih⟩⟩
  exact relates_cons.2 ⟨h.baseEnv, relates_cons.2 ⟨h.globalEnv, hnamespaces.append hstack⟩⟩

theorem MatchesRest.rootValues (h : b.MatchesRest s t) :
    List.Forall₂ b.Stores s.rootValues t.rootValues := by
  have hpreserved := (relates_iff_forall₂.1 h.preserved).imp fun _ _ hv => hv.stores
  have hstack : List.Forall₂ b.Stores (s.stack.flatMap Invocation.values)
      (t.stack.flatMap Invocation.values) := by
    have hmatches := h.stack
    generalize s.stack = stack at hmatches
    generalize t.stack = stack' at hmatches
    induction hmatches with
    | nil => exact .nil
    | @cons i j _ _ hi _ ih =>
      have hargs : List.Forall₂ b.Stores (i.args.map (·.value)) (j.args.map (·.value)) := by
        refine List.forall₂_map_left_iff.2 (List.forall₂_map_right_iff.2 ?_)
        exact hi.args.imp fun _ _ harg => ⟨harg.relates.value, .inl harg.passing⟩
      refine List.rel_append (.cons ?_ (.cons ?_ hargs)) ih
      · exact (relates_closure.2 ⟨_, rfl, hi.closure⟩).stores
      · exact (relates_call.2 ⟨_, rfl, hi.call⟩).stores
  have hcalls : List.Forall₂ b.Stores (s.loops.calls.map .call) (t.loops.calls.map .call) := by
    have hcalls : b.Clean s.loops.calls t.loops.calls := h.loops.map fun r table => by
      simp [LoopTable.calls, rename, List.map_map, Function.comp_def]
    refine List.forall₂_map_left_iff.2 (List.forall₂_map_right_iff.2 ?_)
    exact (relates_iff_forall₂.1 hcalls).imp fun _ _ hcall =>
      (relates_call.2 ⟨_, rfl, hcall⟩).stores
  exact List.rel_append (List.rel_append hpreserved hstack) hcalls

end Bridge

/-- What can be reached from the roots of the session and these values. -/
def Session.Reached (s : Session) (extra : List Value) : EnvId → Prop :=
  s.heap.Reaches s.promises (Heap.StartsFrom s.promises s.rootEnvs (extra ++ s.rootValues))

namespace Bridge

variable {b : Bridge} {s t : Session} {extra extra' : List Value}

theorem Matches.pairs_start (h : b.Matches s t) (hextra : List.Forall₂ b.Stores extra extra') :
    b.Pairs (Heap.StartsFrom s.promises s.rootEnvs (extra ++ s.rootValues))
      (Heap.StartsFrom t.promises t.rootEnvs (extra' ++ t.rootValues)) := by
  have henvs : b.Pairs (· ∈ s.rootEnvs) (· ∈ t.rootEnvs) :=
    (Pairs.mem ((relates_iff_forall₂.1 h.rest.rootEnvs).imp fun _ _ => Pairs.env)).congr
      (fun id => by simp) fun id => by simp
  exact henvs.or (.mem ((List.rel_append hextra h.rest.rootValues).imp
    fun _ _ hv => (h.traced_stores hv).pairs))

/-- The same can be reached on both sides. -/
theorem Matches.pairs_reached (h : b.Matches s t) (hextra : List.Forall₂ b.Stores extra extra') :
    b.Pairs (s.Reached extra) (t.Reached extra') := by
  have hstart := h.pairs_start hextra
  constructor
  · intro id hid
    induction hid with
    | start hid =>
      obtain ⟨id', hrelates, hid'⟩ := hstart.right hid
      exact ⟨id', hrelates, .start hid'⟩
    | link _ hf hnext ih =>
      -- the next frame is mentioned by a frame that is paired with one reached on the other side
      obtain ⟨id', hrelates, hid'⟩ := ih
      obtain ⟨g, f', hg, hf', hmatches⟩ := h.frames hrelates
      obtain rfl := Option.some.inj (hf.symm.trans hg)
      obtain ⟨next', hnext', hmentions⟩ := (h.pairs_frame hmatches).right hnext
      exact ⟨next', hnext', hid'.link hf' hmentions⟩
  · intro id' hid'
    induction hid' with
    | start hid' =>
      obtain ⟨id, hrelates, hid⟩ := hstart.left hid'
      exact ⟨id, hrelates, .start hid⟩
    | link _ hf' hnext' ih =>
      obtain ⟨id, hrelates, hid⟩ := ih
      obtain ⟨f, g', hf, hg', hmatches⟩ := h.frames hrelates
      obtain rfl := Option.some.inj (hf'.symm.trans hg')
      obtain ⟨next, hnext, hmentions⟩ := (h.pairs_frame hmatches).left hnext'
      exact ⟨next, hnext, hid.link hf hmentions⟩

theorem MatchesFrame.grounded {f f' : Frame} (h : b.Matches s t) (hf : b.MatchesFrame f f') :
    f.Grounded s.promises ∧ f'.Grounded t.promises :=
  forall_of_forall₂ (P := fun entry : Symbol × Binding => entry.2.value.Grounded s.promises)
    (Q := fun entry : Symbol × Binding => entry.2.value.Grounded t.promises)
    (hf.bindings.imp fun _ _ hv => ⟨(h.traced_stores hv).left, (h.traced_stores hv).right⟩)

/-- The collector comes to an end in all values that collections start from. -/
theorem Matches.grounded_roots (h : b.Matches s t) (hextra : List.Forall₂ b.Stores extra extra') :
    (∀ v ∈ extra ++ s.rootValues, v.Grounded s.promises) ∧
      ∀ v ∈ extra' ++ t.rootValues, v.Grounded t.promises :=
  forall_of_forall₂ (P := (Value.Grounded s.promises ·)) (Q := (Value.Grounded t.promises ·))
    ((List.rel_append hextra h.rest.rootValues).imp fun _ _ hv =>
      ⟨(h.traced_stores hv).left, (h.traced_stores hv).right⟩)

end Bridge

end CallByNeed
