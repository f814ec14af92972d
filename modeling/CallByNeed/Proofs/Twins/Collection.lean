import CallByNeed.Proofs.Twins.Mentions

/-!
# Twins whose heaps are collected

A bridge can be cut down to environments of one kind (`Bridge.restrict`).  What
mentions no others is related still.  If nothing else can be reached from the roots,
the sessions match over the shorter bridge, and it does not matter what becomes of
the other frames on either side (`Bridge.Matches.trim`).

A collection leaves what can be reached as it is (`Session.trims_collect`), and on
either side of twins it is carried out (`Bridge.Matches.exists_collect`).
-/

namespace CallByNeed

namespace Bridge

variable {b : Bridge} {s t : Session}

/-! ## Shorter bridges -/

theorem Relates.of_le {α : Type} [Renames α] {c : Bridge} {a a' : α} (hcb : c ≤ b)
    (ha : b.Relates a a') (hwithin : c.Within a) : c.Relates a a' := by
  refine ⟨hwithin, ha.image.trans (hwithin _ _ ⟨fun hid => ?_, fun _ => rfl⟩)⟩
  rw [env_across hid, env_across (hcb.env hid)]

open Classical in
/-- The bridge with environments of one kind only, and the promises that mention no others. -/
noncomputable def restrict (b : Bridge) (store : PromiseStore) (K : EnvId → Prop) : Bridge where
  env id := if K id then b.env id else none
  injective {id other target} hid hother := by
    split at hid <;> split at hother
    · exact b.injective hid hother
    · cases hother
    · cases hid
    · cases hid
  promises p := b.promises p ∧ ∀ id, (Value.promise p).Mentions store id → K id

variable {K : EnvId → Prop} {store : PromiseStore}

theorem restrict_le : b.restrict store K ≤ b := by
  refine ⟨fun {id target} h => ?_, And.left⟩
  simp only [restrict] at h
  split at h
  · exact h
  · cases h

theorem relates_restrict {id id' : EnvId} :
    (b.restrict store K).Relates id id' ↔ b.Relates id id' ∧ K id := by
  rw [relates_env, relates_env, restrict]
  constructor
  · intro h
    dsimp only at h
    split at h
    · exact ⟨h, ‹_›⟩
    · cases h
  · rintro ⟨h, hid⟩
    exact (if_pos hid).trans h

variable {v v' : Value} {args args' : ArgList}

/-- What mentions no other environments is related still. -/
theorem Relates.restrict (hv : b.Clean v v') (hK : ∀ id, v.Mentions store id → K id) :
    (b.restrict store K).Clean v v' := by
  have hmentioned := mentioned store store v hv
  refine hv.of_le (bare_mono restrict_le) (hmentioned.left _ fun id hid => ?_)
  obtain ⟨target, htarget, -⟩ := hmentioned.pairs.right hid
  exact ⟨target, relates_restrict.2 ⟨htarget, hK id hid⟩⟩

theorem Hands.restrict {arg arg' : Arg Value} (harg : b.Hands arg arg')
    (hK : ∀ id, arg.value.Mentions store id → K id) : (b.restrict store K).Hands arg arg' := by
  have hrelates := harg.relates.value
  have hle : b.restrict store K ≤ b := restrict_le
  obtain hbare | ⟨p, hp⟩ := harg.passing
  · have hclean := (hrelates.clean hbare).restrict hK
    exact ⟨harg.relates.of_le hle (within_arg (Relates.of_clean hclean).within),
      .inl hclean.within⟩
  · rw [hp] at hrelates hK
    have hkept : (b.restrict store K).promises p := ⟨(relates_promiseValue.1 hrelates).2, hK⟩
    refine ⟨harg.relates.of_le hle (within_arg ?_), .inr ⟨p, hp⟩⟩
    rw [hp]
    exact (relates_promiseValue.2 ⟨rfl, hkept⟩).within

theorem Passes.restrict (hargs : b.Passes args args')
    (hK : ∀ arg ∈ args, ∀ id, arg.value.Mentions store id → K id) :
    (b.restrict store K).Passes args args' :=
  ((List.forall₂_and_left _ _).2 ⟨hK, hargs⟩).imp fun _ _ h => h.2.restrict h.1

theorem Stores.restrict (hv : b.Stores v v') (hK : ∀ id, v.Mentions store id → K id) :
    (b.restrict store K).Stores v v' := by
  obtain hpassing | ⟨args, rfl, -⟩ := hv.storable
  · have hands : (b.restrict store K).Hands (.untagged v) (.untagged v') :=
      Hands.restrict ⟨relates_arg hv.relates, hpassing⟩ hK
    exact ⟨hands.relates.value, .inl hands.passing⟩
  · obtain ⟨args', rfl, -⟩ := relates_dots.1 hv.relates
    have hpasses := Passes.restrict hv.of_dots fun arg harg id hid =>
      hK id (Value.mentions_dots.2 ⟨arg, harg, hid⟩)
    exact ⟨relates_dots.2 ⟨args', rfl, hpasses.relates⟩,
      .inr ⟨args, rfl, (passes_iff.1 hpasses).2⟩⟩

theorem MatchesFrame.restrict {f f' : Frame} (hf : b.MatchesFrame f f')
    (hK : ∀ id, f.Mentions store id → K id) : (b.restrict store K).MatchesFrame f f' := by
  -- what the frame binds is mentioned by it, so it is on the restricted bridge
  have hstores : ∀ entry ∈ f.bindings, ∃ v', (b.restrict store K).Stores entry.2.value v' := by
    intro entry hentry
    have hbindings : b.Within f.bindings := (hf.relates.map (f := Frame.bindings)
      fun _ _ => rfl).within
    have hvalue := (within_list.1 hbindings entry hentry).relates.map
      (f := fun entry => entry.2.value) fun _ _ => rfl
    exact ⟨_, Stores.restrict ⟨hvalue, hf.storable entry hentry⟩ fun id hid =>
      hK id (.inr ⟨entry, hentry, hid⟩)⟩
  have hbindings : (b.restrict store K).Within f.bindings := by
    refine within_list.2 fun entry hentry => ?_
    obtain ⟨name, binding⟩ := entry
    obtain ⟨v', hv⟩ := hstores _ hentry
    have hbinding := hv.relates.map (f := fun v => ({ binding with value := v } : Binding))
      fun _ _ => rfl
    exact (relates_pair.2 ⟨rfl, hbinding⟩).within
  have hparent : (b.restrict store K).Within f.parent := by
    have hrelates := hf.parent
    cases hp : f.parent with
    | none => exact relates_none.within
    | some parent =>
      rw [hp] at hrelates
      obtain ⟨parent', -, henv⟩ := relates_some.1 hrelates
      exact (relates_some.2 ⟨parent', rfl, relates_restrict.2 ⟨henv, hK parent (.inl hp)⟩⟩).within
  refine ⟨hf.relates.of_le restrict_le ?_, fun entry hentry => ?_⟩
  · exact (hbindings.relates.map₂ (f := Frame.mk) (fun _ _ _ => rfl) hparent.relates).within
  · obtain ⟨v', hv⟩ := hstores entry hentry
    exact hv.storable

theorem MatchesInvocation.restrict {i j : Invocation} (hi : b.MatchesInvocation i j)
    (henvs : ∀ id ∈ i.envs, K id)
    (hvalues : ∀ v ∈ i.values, ∀ id, v.Mentions store id → K id) :
    (b.restrict store K).MatchesInvocation i j := by
  have hclosure : (b.restrict store K).Clean (Value.closure i.closure) (.closure j.closure) :=
    Relates.restrict (relates_closure.2 ⟨_, rfl, hi.closure⟩)
      (hvalues _ (by simp [Invocation.values]))
  have hcall : (b.restrict store K).Clean (Value.call i.call) (.call j.call) :=
    Relates.restrict (relates_call.2 ⟨_, rfl, hi.call⟩)
      (hvalues _ (by simp [Invocation.values]))
  obtain ⟨_, hsame, hclosure⟩ := relates_closure.1 hclosure
  cases hsame
  obtain ⟨_, hsame, hcall⟩ := relates_call.1 hcall
  cases hsame
  constructor
  case env => exact relates_restrict.2 ⟨hi.env, henvs _ (by simp [Invocation.envs])⟩
  case callerEnv => exact relates_restrict.2 ⟨hi.callerEnv, henvs _ (by simp [Invocation.envs])⟩
  case closure => exact hclosure
  case call => exact hcall
  case args =>
    refine Passes.restrict hi.args fun arg harg => hvalues _ ?_
    exact .tail _ (.tail _ (List.mem_map_of_mem harg))

theorem within_namespaces {known : Namespaces}
    (henvs : ∀ id ∈ known.environments, b.Within id)
    (howners : ∀ owner ∈ known.owners, owner.1 ∈ known.environments)
    (hbase : b.Within known.baseEnv) : b.Within known := by
  intro r q hrq
  -- of a namespace only the environment is renamed
  have hloaded : rename r known.loaded = rename q known.loaded := by
    refine List.map_congr_left fun entry hentry => ?_
    have henv : rename r entry.2.env = rename q entry.2.env :=
      henvs _ (List.mem_map_of_mem hentry) r q hrq
    show (entry.1, { entry.2 with env := rename r entry.2.env }) =
      (entry.1, { entry.2 with env := rename q entry.2.env })
    rw [henv]
  have howners : (known.owners.map fun owner => (rename r owner.1, owner.2)) =
      known.owners.map fun owner => (rename q owner.1, owner.2) := by
    refine List.map_congr_left fun owner howner => ?_
    exact congrArg (·, owner.2) (henvs _ (howners owner howner) r q hrq)
  show Namespaces.mk _ _ _ = Namespaces.mk _ _ _
  congr 1
  exact hbase r q hrq

/-- A record of loops is within a bridge if its calls are. -/
theorem within_loops {table : LoopTable} :
    b.Within table ↔ ∀ call ∈ table.calls, b.Within call := by
  constructor
  · intro h
    have hcalls : b.Relates table.calls _ := h.relates.map fun r table => by
      simp [LoopTable.calls, rename, List.map_map, Function.comp_def]
    exact within_list.1 hcalls.within
  · intro h
    have hinstances : b.Within table.instances := by
      refine within_list.2 fun known hknown => ?_
      have hcall := (h _ (List.mem_map_of_mem hknown)).relates
      exact (hcall.map (f := fun call => ({ known with call } : LoopInstance))
        fun _ _ => rfl).within
    exact (hinstances.relates.map (f := LoopTable.mk) fun _ _ => rfl).within

theorem MatchesRest.restrict (h : b.MatchesRest s t) (henvs : ∀ id ∈ s.rootEnvs, K id)
    (hvalues : ∀ v ∈ s.rootValues, ∀ id, v.Mentions store id → K id) :
    (b.restrict store K).MatchesRest s t := by
  have hle : b.restrict store K ≤ b := restrict_le
  -- every environment the session itself has is a root
  have hroot {id : EnvId} (hid : id ∈ s.rootEnvs) : (b.restrict store K).Within id :=
    (relates_restrict.2 ⟨(within_list.1 h.rootEnvs.within id hid).relates, henvs id hid⟩).within
  have hbase : s.baseEnv ∈ s.rootEnvs := List.mem_cons_self
  constructor
  case baseEnv => exact h.baseEnv.of_le hle (hroot hbase)
  case globalEnv => exact h.globalEnv.of_le hle (hroot (by simp [Session.rootEnvs]))
  case namespaces =>
    refine h.namespaces.of_le hle (within_namespaces (fun id hid => ?_) h.owners ?_)
    · exact hroot (by simp [Session.rootEnvs, hid])
    · rw [h.registryBase]
      exact hroot hbase
  case stack =>
    have hinside : ∀ i ∈ s.stack, (∀ id ∈ i.envs, K id) ∧
        ∀ v ∈ i.values, ∀ id, v.Mentions store id → K id := by
      refine fun i hi => ⟨fun id hid => henvs id ?_, fun v hv => hvalues v ?_⟩
      · simp only [Session.rootEnvs, List.mem_cons, List.mem_append, List.mem_flatMap]
        exact .inr (.inr (.inr ⟨i, hi, hid⟩))
      · simp only [Session.rootValues, List.mem_append, List.mem_flatMap]
        exact .inl (.inr ⟨i, hi, hv⟩)
    exact ((List.forall₂_and_left _ _).2 ⟨hinside, h.stack⟩).imp fun i j hi =>
      hi.2.restrict hi.1.1 hi.1.2
  case loops =>
    refine h.loops.of_le (bare_mono hle) (within_loops.2 fun call hcall => ?_)
    have hclean : b.Clean call _ := (within_loops.1 h.loops.within call hcall).relates
    have hmem : Value.call call ∈ s.rootValues :=
      List.mem_append_right _ (List.mem_map_of_mem hcall)
    obtain ⟨_, -, hcall⟩ := relates_call.1
      (Relates.restrict (relates_call.2 ⟨_, rfl, hclean⟩) (hvalues _ hmem))
    exact hcall.within
  case preserved =>
    refine h.preserved.of_le (bare_mono hle) (within_list.2 fun v hv => ?_)
    have hclean : b.Clean v _ := (within_list.1 h.preserved.within v hv).relates
    exact (hclean.restrict (hvalues v (by simp [Session.rootValues, hv]))).within
  case kernels => exact h.kernels
  case stats => exact h.stats
  case identities => exact h.identities
  case maxCallDepth => exact h.maxCallDepth
  case compileLoops => exact h.compileLoops
  case registryBase => exact h.registryBase
  case owners => exact h.owners

theorem clean_cell_restrict {cell cell' : Promise} (h : b.Clean cell cell')
    (hK : ∀ id, (cell.env? = some id ∨ cell.expr.Mentions store id ∨
      ∃ value, cell.value? = some value ∧ value.Mentions store id) → K id) :
    (b.restrict store K).Clean cell cell' := by
  obtain ⟨expr, state⟩ := cell
  obtain ⟨expr', state'⟩ := cell'
  have hexpr : b.Clean expr expr' := h.expr
  have hstate : b.Clean state state' := h.state
  refine relates_mkPromise (hexpr.restrict fun id hid => hK id (.inr (.inl hid))) ?_
  cases state with
  | waiting env underEvaluation =>
    obtain ⟨env', rfl, henv⟩ := relates_waiting.1 hstate
    exact relates_waiting.2 ⟨env', rfl, clean_env.2
      (relates_restrict.2 ⟨clean_env.1 henv, hK env (.inl rfl)⟩)⟩
  | kept value =>
    obtain ⟨value', rfl, hvalue⟩ := relates_kept.1 hstate
    exact relates_kept.2 ⟨value', rfl, hvalue.restrict fun id hid =>
      hK id (.inr (.inr ⟨value, rfl, hid⟩))⟩

end Bridge

/-! ## Heaps after a collection -/

/-- The heap is sound and still has the frames that can be reached from the session and these
    values. -/
structure Session.Trims (s : Session) (extra : List Value) (heap : Heap) : Prop where
  sound : heap.Sound
  kept : ∀ {id}, s.Reached extra id → heap.frame? id = s.heap.frame? id

namespace Session

variable {s : Session} {extra : List Value} {heap : Heap} {freed : Nat}

theorem trims_self (hs : s.heap.Sound) : s.Trims extra s.heap := ⟨hs, fun _ => rfl⟩

theorem trims_collect (hs : s.heap.Sound)
    (hcollect : s.heap.collect s.promises s.rootEnvs (extra ++ s.rootValues) =
      some (freed, heap)) : s.Trims extra heap := by
  have hframe {id : EnvId} {f : Frame} : heap.frame? id = some f ↔
      s.heap.frame? id = some f ∧ s.Reached extra id :=
    hs.wellFormed.frame?_collect hcollect
  refine ⟨⟨hs.wellFormed.collect hcollect, ?_, fun {id f parent} hf hparent => ?_⟩,
    fun {id} hid => ?_⟩
  · obtain ⟨layer, hlayer⟩ := hs.layered
    exact ⟨layer, fun hf hparent => hlayer (hframe.1 hf).1 hparent⟩
  · -- the parent of a frame that was kept is reached through it, and so was kept as well
    obtain ⟨hf, hreached⟩ := hframe.1 hf
    obtain ⟨g, hg⟩ := Option.isSome_iff_exists.1 (hs.parents hf hparent)
    have hkept := hframe.2 ⟨hg, hreached.link hf (.inl hparent)⟩
    exact Option.isSome_iff_exists.2 ⟨g, hkept⟩
  · cases hf : s.heap.frame? id with
    | some f => exact hframe.2 ⟨hf, hid⟩
    | none =>
      refine Option.eq_none_iff_forall_ne_some.2 fun f hkept => ?_
      rw [(hframe.1 hkept).1] at hf
      cases hf

end Session

namespace Bridge

variable {b : Bridge} {s t : Session} {extra extra' : List Value} {left right : Heap}

/-- What can be reached is the same on both sides after either heap was trimmed. -/
theorem Matches.trim (h : b.Matches s t) (hextra : List.Forall₂ b.Stores extra extra')
    (hleft : s.Trims extra left) (hright : t.Trims extra' right) :
    (b.restrict s.promises (s.Reached extra)).Matches { s with heap := left }
      { t with heap := right } := by
  have hreached := h.pairs_reached hextra
  have hrest : (b.restrict s.promises (s.Reached extra)).MatchesRest s t :=
    h.rest.restrict (fun id hid => .start (.inl hid))
      fun v hv id hid => .start (.inr ⟨v, List.mem_append_right _ hv, hid⟩)
  refine ⟨hleft.sound, hright.sound, fun {id id'} hid => ?_, fun {p} hp => ?_, h.size,
    { hrest with }⟩
  -- a pair whose left side is reached has its right side reached, so both frames were kept
  · obtain ⟨hid, hkept⟩ := relates_restrict.1 hid
    obtain ⟨f, f', hf, hf', hmatches⟩ := h.frames hid
    obtain ⟨other, hother, hkept'⟩ := hreached.right hkept
    have hsame : other = id' := (eq_iff_eq hother hid).2 rfl
    refine ⟨f, f', (hleft.kept hkept).trans hf, ?_, hmatches.restrict fun next hnext =>
      hkept.link hf hnext⟩
    rw [hsame] at hkept'
    exact (hright.kept hkept').trans hf'
  · obtain ⟨cell, cell', hcell, hcell', hclean⟩ := h.promises hp.1
    refine ⟨cell, cell', hcell, hcell', clean_cell_restrict hclean fun id hid => hp.2 id ?_⟩
    exact Value.mentions_promise.2 ⟨cell, hcell, hid⟩

end Bridge

/-! ## Collections are carried out -/

namespace Session

variable {s : Session} {extra : List Value}

theorem exists_collect
    (hgrounded : ∀ {id f}, s.Reached extra id → s.heap.frame? id = some f →
      f.Grounded s.promises)
    (hroots : ∀ v ∈ extra ++ s.rootValues, v.Grounded s.promises) :
    ∃ freed heap, s.heap.collect s.promises s.rootEnvs (extra ++ s.rootValues) =
      some (freed, heap) := by
  have hwithin : s.heap.GroundedWithin s.promises (s.Reached extra) := fun hid hf =>
    ⟨hgrounded hid hf, fun _ hnext => hid.link hf hnext⟩
  exact hwithin.exists_collect (fun id hid => .start (.inl hid)) fun v hv =>
    ⟨hroots v hv, fun id hid => .start (.inr ⟨v, hv, hid⟩)⟩

end Session

namespace Bridge

variable {b : Bridge} {s t : Session} {extra extra' : List Value}

/-- A collection on either side is carried out. -/
theorem Matches.exists_collect (h : b.Matches s t) (hextra : List.Forall₂ b.Stores extra extra') :
    (∃ freed heap, s.heap.collect s.promises s.rootEnvs (extra ++ s.rootValues) =
      some (freed, heap)) ∧
    ∃ freed heap, t.heap.collect t.promises t.rootEnvs (extra' ++ t.rootValues) =
      some (freed, heap) := by
  -- what is reached is on the bridge, where no promise is inside itself
  obtain ⟨hleft, hright⟩ := h.grounded_roots hextra
  have hreached := h.pairs_reached hextra
  refine ⟨Session.exists_collect (fun {id f} hid hf => ?_) hleft,
    Session.exists_collect (fun {id' f'} hid' hf' => ?_) hright⟩
  · obtain ⟨id', hrelates, -⟩ := hreached.right hid
    obtain ⟨g, g', hg, -, hmatches⟩ := h.frames hrelates
    obtain rfl := Option.some.inj (hf.symm.trans hg)
    exact (hmatches.grounded h).1
  · obtain ⟨id, hrelates, -⟩ := hreached.left hid'
    obtain ⟨g, g', -, hg', hmatches⟩ := h.frames hrelates
    obtain rfl := Option.some.inj (hf'.symm.trans hg')
    exact (hmatches.grounded h).2

end Bridge

end CallByNeed
