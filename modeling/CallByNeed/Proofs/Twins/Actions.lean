import CallByNeed.Proofs.Dangling.Answers
import CallByNeed.Proofs.Twins.Outcomes

/-!
# Actions that keep in step

The actions that evaluate nothing.  A look outward from related environments
passes through related frames and ends with both scopes, though the heaps may
allow it different numbers of steps (`Twins.owner?`).  New identities, promises
and frames are handed out in step.
-/

namespace CallByNeed.Twins

open Bridge

variable {w z : Twins} {env env' : EnvId} {name : Symbol} {v v' : Value} {args args' : ArgList}
  {call call' : Call}

/-! ## Looking at frames -/

theorem frame? (henv : w.bridge.Relates env env') :
    ∃ f f', w.left.heap.frame? env = some f ∧ w.right.heap.frame? env' = some f' ∧
      w.bridge.MatchesFrame f f' :=
  w.matched.frames henv

theorem looks_frame (henv : w.bridge.Relates env env') :
    w.Looks (SessionM.askHeap fun h => h.frame env) (SessionM.askHeap fun h => h.frame env')
      fun f f' => w.left.heap.frame? env = some f ∧ w.right.heap.frame? env' = some f' ∧
        w.bridge.MatchesFrame f f' := by
  obtain ⟨f, f', hf, hf', hmatches⟩ := w.frame? henv
  exact .askHeap (.inr ⟨f, f', by simp only [Heap.frame, hf], by simp only [Heap.frame, hf'], hf,
    hf', hmatches⟩)

/-- The frames of related scopes match one by one, and neither scope breaks off. -/
theorem scopeWithin {n m : Nat} {start start' : Option EnvId}
    (hstart : w.bridge.Relates start start') (hn : w.left.heap.EndsWithin n start)
    (hm : w.right.heap.EndsWithin m start') :
    (w.left.heap.scopeWithin n start).dangling = none ∧
      (w.right.heap.scopeWithin m start').dangling = none ∧
      List.Forall₂ (fun seen seen' => w.bridge.Relates seen.1 seen'.1 ∧
          w.bridge.MatchesFrame seen.2 seen'.2)
        (w.left.heap.scopeWithin n start).frames (w.right.heap.scopeWithin m start').frames := by
  induction n generalizing m start start' with
  | zero =>
    cases start with
    | some id => exact hn.elim
    | none =>
      rw [hstart.of_none]
      cases m <;> exact ⟨rfl, rfl, .nil⟩
  | succ n ih =>
    cases start with
    | none =>
      rw [hstart.of_none]
      cases m <;> exact ⟨rfl, rfl, .nil⟩
    | some id =>
      -- the two walks have steps of their own, but go through related frames in step
      obtain ⟨id', rfl, hid⟩ := relates_some.1 hstart
      cases m with
      | zero => exact hm.elim
      | succ m =>
        obtain ⟨f, f', hf, hf', hmatches⟩ := w.frame? hid
        obtain ⟨hdangling, hdangling', hframes⟩ := ih hmatches.parent (hn f hf) (hm f' hf')
        simp only [Heap.scopeWithin, hf, hf']
        exact ⟨hdangling, hdangling', .cons ⟨hid, hmatches⟩ hframes⟩

/-- On both sides a name is bound nowhere in a scope, or first in related frames, to related
    values. -/
theorem owner? {start start' : Option EnvId} (hstart : w.bridge.Relates start start')
    (name : Symbol) :
    ∃ found found', (w.left.heap.scopeFrom start).owner? name = .ok found ∧
      (w.right.heap.scopeFrom start').owner? name = .ok found' ∧
      Option.Rel (fun owner owner' => w.bridge.Relates owner.1 owner'.1 ∧
        w.bridge.Binds owner.2 owner'.2) found found' := by
  obtain ⟨hdangling, hdangling', hframes⟩ := w.scopeWithin hstart
    (w.matched.left.layered.endsWithin start) (w.matched.right.layered.endsWithin start')
  unfold Heap.scopeFrom Scope.owner?
  rw [hdangling, hdangling']
  generalize (w.left.heap.scopeWithin (w.left.heap.slots.size + 1) start).frames = frames at hframes
  generalize (w.right.heap.scopeWithin (w.right.heap.slots.size + 1) start').frames = frames'
    at hframes
  generalize hfound : frames.findSome? _ = found
  generalize hfound' : frames'.findSome? _ = found'
  have hsearch : Option.Rel (fun owner owner' => w.bridge.Relates owner.1 owner'.1 ∧
      w.bridge.Binds owner.2 owner'.2) found found' := by
    subst hfound hfound'
    induction hframes with
    | nil => exact .none
    | @cons seen seen' rest rest' hseen _ ih =>
      obtain ⟨id, f⟩ := seen
      obtain ⟨id', f'⟩ := seen'
      have hget := hseen.2.get? name
      rw [List.findSome?_cons, List.findSome?_cons]
      dsimp only at hget ⊢
      generalize f.get? name = binding at hget ⊢
      generalize f'.get? name = binding' at hget ⊢
      cases hget with
      | none => exact ih
      | some hbinds => exact .some ⟨hseen.1, hbinds⟩
  cases hsearch with
  | none => exact ⟨none, none, rfl, rfl, .none⟩
  | some h => exact ⟨_, _, rfl, rfl, .some h⟩

theorem find (henv : w.bridge.Relates env env') (name : Symbol) :
    ∃ found found', w.left.heap.find env name = .ok found ∧
      w.right.heap.find env' name = .ok found' ∧
      Option.Rel (fun owner owner' => w.bridge.Relates owner.1 owner'.1 ∧
        w.bridge.Stores owner.2 owner'.2) found found' := by
  obtain ⟨found, found', hfound, hfound', hrel⟩ :=
    w.owner? (relates_some.2 ⟨env', rfl, henv⟩) name
  refine ⟨_, _, by simp only [Heap.find, Heap.scope, hfound]; rfl,
    by simp only [Heap.find, Heap.scope, hfound']; rfl, ?_⟩
  cases hrel with
  | none => exact .none
  | some h => exact .some ⟨h.1, h.2.stores⟩

theorem looks_find (henv : w.bridge.Relates env env') (name : Symbol) :
    w.Looks (SessionM.askHeap fun h => h.find env name)
      (SessionM.askHeap fun h => h.find env' name)
      (Option.Rel fun owner owner' => w.bridge.Relates owner.1 owner'.1 ∧
        w.bridge.Stores owner.2 owner'.2) := by
  obtain ⟨found, found', hfound, hfound', hrel⟩ := w.find henv name
  exact .askHeap (.inr ⟨found, found', hfound, hfound', hrel⟩)

theorem looks_lookup (henv : w.bridge.Relates env env') (name : Symbol) :
    w.Looks (SessionM.askHeap fun h => h.lookup env name)
      (SessionM.askHeap fun h => h.lookup env' name) w.bridge.Stores := by
  obtain ⟨found, found', hfound, hfound', hrel⟩ := w.find henv name
  refine .askHeap ?_
  simp only [Heap.lookup, hfound, hfound']
  cases hrel with
  | none => exact .inl ⟨_, rfl, rfl⟩
  | some h => exact .inr ⟨_, _, rfl, rfl, h.2⟩

theorem getLocal (henv : w.bridge.Relates env env') (name : Symbol) :
    ∃ found found', w.left.heap.getLocal env name = .ok found ∧
      w.right.heap.getLocal env' name = .ok found' ∧ Option.Rel w.bridge.Stores found found' := by
  obtain ⟨f, f', hf, hf', hmatches⟩ := w.frame? henv
  refine ⟨(f.get? name).map (·.value), (f'.get? name).map (·.value),
    by simp only [Heap.getLocal, Heap.frame, hf]; rfl,
    by simp only [Heap.getLocal, Heap.frame, hf']; rfl, ?_⟩
  have hget := hmatches.get? name
  generalize f.get? name = binding at hget
  generalize f'.get? name = binding' at hget
  cases hget with
  | none => exact .none
  | some h => exact .some h.stores

theorem looks_getLocal (henv : w.bridge.Relates env env') (name : Symbol) :
    w.Looks (SessionM.askHeap fun h => h.getLocal env name)
      (SessionM.askHeap fun h => h.getLocal env' name) (Option.Rel w.bridge.Stores) := by
  obtain ⟨found, found', hfound, hfound', hrel⟩ := w.getLocal henv name
  exact .askHeap (.inr ⟨found, found', hfound, hfound', hrel⟩)

theorem looks_methodsTable (henv : w.bridge.Relates env env') :
    w.Looks (SessionM.methodsTable env) (SessionM.methodsTable env')
      (w.bridge.Relates : Option EnvId → Option EnvId → Prop) := by
  obtain ⟨found, found', hfound, hfound', hrel⟩ := w.getLocal henv methodsTableName
  refine .askHeap ?_
  simp only [Heap.methodsTable, hfound, hfound']
  cases hrel with
  | none => exact .inr ⟨none, none, rfl, rfl, relates_none⟩
  | @some v v' h =>
    have hrelates := h.relates
    cases hrelates.alike with
    | @environment id id' hid =>
      exact .inr ⟨some id, some id', rfl, rfl, relates_some.2 ⟨id', rfl, hid⟩⟩
    | _ => exact .inr ⟨none, none, rfl, rfl, relates_none⟩

theorem looks_nonLocalTarget (henv : w.bridge.Relates env env') (name : Symbol) :
    w.Looks (SessionM.askHeap fun h => h.nonLocalTarget env name w.left.globalEnv)
      (SessionM.askHeap fun h => h.nonLocalTarget env' name w.right.globalEnv)
      w.bridge.Relates := by
  obtain ⟨f, f', hf, hf', hmatches⟩ := w.frame? henv
  obtain ⟨found, found', hfound, hfound', hrel⟩ := w.owner? hmatches.parent name
  have hrun {h : Heap} {env global : EnvId} {f : Frame} {found : Option (EnvId × Binding)}
      (hf : h.frame? env = some f) (hfound : (h.scopeFrom f.parent).owner? name = .ok found) :
      h.nonLocalTarget env name global = .ok ((found.map Prod.fst).getD global) := by
    simp only [Heap.nonLocalTarget, Heap.parent, Heap.frame, hf]
    show (h.scopeFrom f.parent).owner? name >>= _ = _
    rw [hfound]
    cases found <;> rfl
  refine .askHeap (.inr ⟨_, _, hrun hf hfound, hrun hf' hfound', ?_⟩)
  cases hrel with
  | none => exact w.matched.rest.globalEnv
  | some h => exact h.1

/-! ## Writing frames -/

theorem runs_allocate (henv : w.bridge.Relates env env') :
    w.Runs (SessionM.allocate (some env)) (SessionM.allocate (some env')) Bridge.Relates := by
  obtain ⟨c, hc, hnew, hmatches⟩ := w.matched.allocate henv
  refine .modifyGet (z := ⟨c, _, _, hmatches⟩) ⟨hc, ?_, ?_⟩ rfl rfl hnew
  · exact w.matched.left.deepens_allocate fun _ he => by cases he; exact w.matched.live_left henv
  · exact w.matched.right.deepens_allocate fun _ he => by cases he; exact w.matched.live_right henv

theorem runs_write (henv : w.bridge.Relates env env') (name : Symbol)
    {binding binding' : Binding} (hbinding : w.bridge.Binds binding binding') :
    w.Runs (SessionM.onHeap (HeapM.modifyFrame env (·.bind name binding)))
      (SessionM.onHeap (HeapM.modifyFrame env' (·.bind name binding'))) fun _ _ _ => True := by
  have hlive := w.matched.live_left henv
  have hlive' := w.matched.live_right henv
  refine ⟨⟨w.bridge, _, _, w.matched.bound henv hbinding name⟩, .ok (), .ok (),
    ⟨le_rfl, ?_, ?_⟩, ?_, ?_, .value trivial⟩
  · exact Session.deepens_bound hlive _ _
  · exact Session.deepens_bound hlive' _ _
  · rw [SessionM.onHeap_modifyFrame, if_pos hlive]
  · rw [SessionM.onHeap_modifyFrame, if_pos hlive']

theorem runs_bindIn (henv : w.bridge.Relates env env') (name : Symbol)
    (hv : w.bridge.Stores v v') :
    w.Runs (SessionM.bindIn env name v) (SessionM.bindIn env' name v') fun _ _ _ => True :=
  runs_write henv name ⟨rfl, hv⟩

theorem runs_assignNonLocal (henv : w.bridge.Relates env env') (name : Symbol)
    (hv : w.bridge.Stores v v') :
    w.Runs (SessionM.onHeap (HeapM.assignNonLocal env name v w.left.globalEnv))
      (SessionM.onHeap (HeapM.assignNonLocal env' name v' w.right.globalEnv))
      fun _ _ _ => True := by
  rw [SessionM.onHeap_assignNonLocal, SessionM.onHeap_assignNonLocal]
  refine (looks_nonLocalTarget henv name).andThen fun target target' htarget => ?_
  exact (runs_bindIn htarget name hv).bind fun _ _ _ _ _ => .pure trivial

theorem runs_requireMethodsTable (henv : w.bridge.Relates env env') :
    w.Runs (SessionM.requireMethodsTable env) (SessionM.requireMethodsTable env')
      Bridge.Relates := by
  refine (looks_methodsTable henv).andThen fun table table' htable => ?_
  cases htable.option_rel with
  | some hsame => exact .pure hsame
  | none =>
    refine .get_bind ?_
    refine (runs_allocate w.matched.rest.baseEnv).bind fun table table' z hz htable => ?_
    have hvalue : z.bridge.Clean (Value.environment table) (Value.environment table') :=
      relates_environment.2 ⟨table', rfl, clean_env.2 htable⟩
    refine (runs_bindIn (hz.relates henv) _ hvalue.stores).bind fun _ _ y hy _ => ?_
    exact .pure (hy.relates htable)

theorem runs_registerMethod (generic className : String) (hv : w.bridge.Clean v v')
    (henv : w.bridge.Relates env env') :
    w.Runs (SessionM.registerMethod generic className v env)
      (SessionM.registerMethod generic className v' env') fun _ _ _ => True :=
  (runs_requireMethodsTable henv).bind fun _ _ _ hz htable =>
    runs_bindIn htable _ (hz.clean hv).stores

/-! ## New values -/

theorem runs_newIdentity :
    w.Runs SessionM.newIdentity SessionM.newIdentity fun _ identity identity' =>
      identity' = identity := by
  have hidentities := w.matched.rest.identities
  have hmatches : w.bridge.Matches { w.left with identities := w.left.identities + 1 }
      { w.right with identities := w.right.identities + 1 } :=
    { w.matched with rest := { w.matched.rest with identities := congrArg (· + 1) hidentities } }
  exact .modifyGet (z := ⟨w.bridge, _, _, hmatches⟩) ⟨le_rfl, .of_eq rfl, .of_eq rfl⟩ rfl rfl
    (congrArg Identity.mk hidentities)

theorem runs_newVector (elements : Elements) {attributes attributes' : Attributes}
    (h : w.bridge.Clean attributes attributes') :
    w.Runs (SessionM.newVector elements attributes) (SessionM.newVector elements attributes')
      Bridge.Clean := by
  refine runs_newIdentity.bind fun identity identity' z hz hidentity => ?_
  subst hidentity
  exact .pure (relates_vector.2 ⟨_, rfl, relates_mkVector (hz.clean h)⟩)

theorem runs_newBare (elements : Elements) :
    w.Runs (SessionM.newVector elements .empty) (SessionM.newVector elements .empty)
      Bridge.Clean :=
  runs_newVector elements relates_emptyAttributes

theorem runs_newCall (hv : w.bridge.Clean v v') (hargs : w.bridge.Clean args args') :
    w.Runs (SessionM.newCall v args) (SessionM.newCall v' args') Bridge.Clean := by
  refine runs_newIdentity.bind fun identity identity' z hz hidentity => ?_
  subst hidentity
  exact .pure (relates_mkCall (hz.clean hv) (hz.clean hargs))

/-- A new promise is the same reference on both sides. -/
theorem runs_newPromise {expr expr' : Value} {state state' : PromiseState}
    (h : w.bridge.Clean (⟨expr, state⟩ : Promise) ⟨expr', state'⟩) :
    w.Runs (SessionM.newPromise expr state) (SessionM.newPromise expr' state')
      fun b v v' => b.Relates v v' ∧ b.Passing v := by
  obtain ⟨hsame, hmatches⟩ := w.matched.add h
  refine .modifyGet (z := ⟨_, _, _, hmatches⟩) ⟨le_holding _, .of_eq rfl, .of_eq rfl⟩ rfl rfl
    ⟨relates_promiseValue.2 ⟨congrArg Value.promise hsame, .inl rfl⟩, .inr ⟨_, rfl⟩⟩

theorem runs_newWaiting (hv : w.bridge.Clean v v') (henv : w.bridge.Relates env env') :
    w.Runs (SessionM.newWaiting v env) (SessionM.newWaiting v' env')
      fun b v v' => b.Relates v v' ∧ b.Passing v :=
  runs_newPromise (relates_mkPromise hv (relates_waiting.2 ⟨env', rfl, clean_env.2 henv⟩))

theorem runs_newKept {expr expr' : Value} (hexpr : w.bridge.Clean expr expr')
    (hv : w.bridge.Clean v v') :
    w.Runs (SessionM.newKept expr v) (SessionM.newKept expr' v')
      fun b v v' => b.Relates v v' ∧ b.Passing v :=
  runs_newPromise (relates_mkPromise hexpr (relates_kept.2 ⟨v', rfl, hv⟩))

theorem runs_deliver {r r' : Except EvalError Answer} (h : w.bridge.Clean r r') :
    w.Runs (SessionM.deliver r) (SessionM.deliver r') Bridge.Clean := by
  obtain ⟨e, rfl, rfl⟩ | ⟨answer, answer', rfl, rfl, hanswer⟩ := h.of_except
  · exact .fail e
  · cases answer with
    | existing value =>
      obtain ⟨value', rfl, hvalue⟩ := relates_existing.1 hanswer
      exact .pure hvalue
    | fresh elements attributes =>
      obtain ⟨attributes', rfl, hattributes⟩ := relates_fresh.1 hanswer
      exact runs_newVector elements hattributes

/-! ## Arguments -/

theorem runs_suspend (hv : w.bridge.Relates v v') (hpassing : w.bridge.Passing v)
    (henv : w.bridge.Relates env env') :
    w.Runs (SessionM.suspend v env) (SessionM.suspend v' env')
      fun b v v' => b.Relates v v' ∧ b.Passing v := by
  obtain hbare | ⟨p, rfl⟩ := hpassing
  · have hclean := hv.clean hbare
    cases hv.alike with
    | promise hp => exact .pure ⟨hv, .inr ⟨_, rfl⟩⟩
    | symbol name =>
      exact .ite Iff.rfl (fun _ => .pure ⟨hv, .inl hbare⟩) fun _ => runs_newWaiting hclean henv
    | call _ => exact runs_newWaiting hclean henv
    | _ => exact runs_newKept hclean hclean
  · obtain ⟨rfl, hp⟩ := relates_promiseValue.1 hv
    exact .pure ⟨hv, .inr ⟨p, rfl⟩⟩

theorem looks_ellipsisArgs (henv : w.bridge.Relates env env') :
    w.Looks (SessionM.ellipsisArgs env) (SessionM.ellipsisArgs env') w.bridge.Passes := by
  refine (looks_find henv .ellipsis).bind fun found found' hfound => ?_
  cases hfound with
  | none => exact .pure .nil
  | @some owner owner' h =>
    obtain ⟨id, value⟩ := owner
    obtain ⟨id', value'⟩ := owner'
    have hvalue : w.bridge.Stores value value' := h.2
    cases hvalue.relates.alike with
    | dots hargs =>
      exact .pure hvalue.of_dots
    | symbol name => exact .ite Iff.rfl (fun _ => .pure .nil) fun _ => .fail _
    | _ => exact .fail _

theorem runs_suspendArgs (hargs : w.bridge.Clean args args') (henv : w.bridge.Relates env env') :
    w.Runs (SessionM.suspendArgs args env) (SessionM.suspendArgs args' env') Bridge.Passes := by
  induction args generalizing w args' with
  | nil =>
    rw [hargs.of_nil]
    exact .pure .nil
  | cons arg rest ih =>
    obtain ⟨arg', rest', rfl, harg, hrest⟩ := hargs.of_cons
    -- whatever the first argument came to, the rest follows on the grown bridge
    have hmore {z : Twins} (hz : w ≤ z) {promised promised' : ArgList}
        (hpromised : z.bridge.Passes promised promised') :
        z.Runs (do return promised ++ (← SessionM.suspendArgs rest env))
          (do return promised' ++ (← SessionM.suspendArgs rest' env')) Bridge.Passes :=
      (ih (hz.clean hrest) (hz.relates henv)).bind fun more more' y hy hmore =>
        .pure (List.rel_append (hy.passes hpromised) hmore)
    refine .ite (by rw [harg.value.same fun _ _ => Renaming.isEllipsis_rename]) (fun _ => ?_)
      fun _ => ?_
    · refine (looks_ellipsisArgs henv).andThen fun dots dots' hdots => ?_
      refine Runs.bind (.mapM (fun _ _ _ _ h => .mono h) (fun _ _ _ _ h => .mono h)
        (fun dot dot' z hz hdot => ?_) hdots) fun promised promised' z hz hpromised =>
          hmore hz hpromised
      refine (runs_suspend hdot.relates.value hdot.passing (hz.relates henv)).bind
        fun value value' y hy hvalue => ?_
      rw [hdot.relates.tag]
      exact .pure ⟨relates_newArg hvalue.1, hvalue.2⟩
    · refine (runs_suspend (.of_clean harg.value) (.inl harg.value.within) henv).bind
        fun value value' z hz hvalue => ?_
      refine Runs.bind (R := Bridge.Passes) (.pure ?_) fun promised promised' y hy hpromised =>
        hmore (hz.trans hy) hpromised
      rw [harg.tag]
      exact .cons ⟨relates_newArg hvalue.1, hvalue.2⟩ .nil

/-! ## The frame of an invocation -/

/-- What a formal is matched with can be bound. -/
theorem storable_matched {formals matched : ArgList} {populate : Bool}
    (h : matchFormals formals args populate = .ok matched)
    (hargs : ∀ arg ∈ args, w.bridge.Passing arg.value) {arg : Arg Value} (harg : arg ∈ matched) :
    w.bridge.Storable arg.value := by
  have hsupplied := Matching.yields_supplied formals args populate matched h arg harg
  generalize arg.value = value at hsupplied
  cases hsupplied with
  | missing => exact .inl (.inl relates_missingArg.within)
  | argument h => exact .inl (hargs _ h)
  | collected h => exact .inr ⟨_, rfl, fun dot hdot => hargs dot (h.subset hdot)⟩

theorem runs_bindFormal (henv : w.bridge.Relates env env') {formal formal' : Arg Value}
    (hformal : w.bridge.Clean formal formal') (hv : w.bridge.Stores v v') :
    w.Runs (SessionM.bindFormal env formal v) (SessionM.bindFormal env' formal' v')
      fun _ _ _ => True := by
  unfold SessionM.bindFormal
  rw [hformal.tag]
  split
  · exact .pure trivial
  · refine .ite ?_ (fun _ => ?_) fun _ => runs_bindIn henv _ hv
    · rw [hv.relates.same fun _ _ => Renaming.isMissingArg_rename,
        hformal.value.same fun _ _ => Renaming.isMissingArg_rename]
    · refine (runs_newWaiting hformal.value henv).bind fun promise promise' z hz hpromise => ?_
      exact runs_write (hz.relates henv) _ ⟨rfl, hpromise.1, .inl hpromise.2⟩

theorem forall₂_zip {α β : Type} {P : α → α → Prop} {Q : β → β → Prop} {l l' : List α}
    {m m' : List β} (hl : List.Forall₂ P l l') (hm : List.Forall₂ Q m m') :
    List.Forall₂ (fun p p' => P p.1 p'.1 ∧ Q p.2 p'.2) (l.zip m) (l'.zip m') := by
  induction hl generalizing m m' with
  | nil => exact .nil
  | cons ha _ ih =>
    cases hm with
    | nil => exact .nil
    | cons hb hrest => exact .cons ⟨ha, hb⟩ (ih hrest)

theorem runs_bindArguments (henv : w.bridge.Relates env env') {formals formals' : ArgList}
    (hformals : w.bridge.Clean formals formals') (hargs : w.bridge.Passes args args') :
    w.Runs (SessionM.bindArguments formals args env) (SessionM.bindArguments formals' args' env')
      fun _ _ _ => True := by
  have hrelates : w.bridge.Relates (matchFormals formals args true)
      (matchFormals formals' args' true) :=
    (Relates.of_clean hformals).map₂ (f := fun formals actuals => matchFormals formals actuals true)
      (fun r formals actuals => matchFormals_rename r formals actuals true) hargs.relates
  have hmatched : w.Looks (SessionM.ofExcept (matchFormals formals args true))
      (SessionM.ofExcept (matchFormals formals' args' true))
      (List.Forall₂ fun arg arg' => w.bridge.Stores arg.value arg'.value) := by
    refine .ofExcept (hrelates.of_except.imp_right fun ⟨matched, matched', h, h', hlist⟩ =>
      ⟨matched, matched', h, h', ?_⟩)
    -- matching hands out arguments that were passed, so names are bound to what may be stored
    have hvalues := (relates_iff_forall₂.1 hlist).imp fun _ _ => Relates.value
    exact forall₂_stores hvalues fun arg harg => storable_matched h (passes_iff.1 hargs).2 harg
  refine hmatched.andThen fun matched matched' hmatched => ?_
  refine .forM (P := fun b (p p' : Arg Value × Arg Value) =>
      b.Clean p.1 p'.1 ∧ b.Stores p.2.value p'.2.value)
    (fun _ _ _ _ hbc h => ⟨h.1.mono (bare_mono hbc), h.2.mono hbc⟩) (fun p p' z hz hp => ?_)
    (forall₂_zip (relates_iff_forall₂.1 hformals) hmatched)
  exact runs_bindFormal (hz.relates henv) hp.1 hp.2

/-! ## Special forms that evaluate nothing -/

theorem looks_requireArity (hargs : w.bridge.Relates call.args call'.args) (form : SpecialForm)
    (least most : Nat) :
    w.Looks (SessionM.requireArity call form least most)
      (SessionM.requireArity call' form least most) fun _ _ => True := by
  have hlength : call'.args.length = call.args.length :=
    hargs.same fun _ _ => Renaming.length_rename _
  unfold SessionM.requireArity
  rw [hlength]
  split
  · exact .fail _
  · exact .pure trivial

theorem looks_oneArg (hargs : w.bridge.Clean call.args call'.args) (form : SpecialForm) :
    w.Looks (SessionM.oneArg call form) (SessionM.oneArg call' form) w.bridge.Clean := by
  have hargs := relates_iff_forall₂.1 hargs
  have hlength := hargs.length_eq
  unfold SessionM.oneArg
  generalize call.args = args at hargs hlength
  generalize call'.args = args' at hargs hlength
  rcases hargs with _ | ⟨hx, _ | ⟨hy, hrest⟩⟩
  · exact .fail _
  · exact .pure hx.value
  · dsimp only
    rw [hlength]
    exact .fail _

theorem looks_twoArgs (hargs : w.bridge.Clean call.args call'.args) (form : SpecialForm) :
    w.Looks (SessionM.twoArgs call form) (SessionM.twoArgs call' form) fun values values' =>
      w.bridge.Clean values.1 values'.1 ∧ w.bridge.Clean values.2 values'.2 := by
  have hargs := relates_iff_forall₂.1 hargs
  have hlength := hargs.length_eq
  unfold SessionM.twoArgs
  generalize call.args = args at hargs hlength
  generalize call'.args = args' at hargs hlength
  rcases hargs with _ | ⟨hx, _ | ⟨hy, _ | ⟨hz, hrest⟩⟩⟩
  · exact .fail _
  · exact .fail _
  · exact .pure ⟨hx.value, hy.value⟩
  · dsimp only
    rw [hlength]
    exact .fail _

theorem looks_assignmentTarget (hv : w.bridge.Clean v v') :
    w.Looks (SessionM.assignmentTarget v) (SessionM.assignmentTarget v') fun name name' =>
      name' = name := by
  have htype := hv.same (f := Value.typeName) fun _ _ => Renaming.typeName_rename
  have hstring := hv.same (f := Value.singleString?) fun _ _ => Renaming.singleString?_rename
  unfold SessionM.assignmentTarget
  rw [htype]
  cases hv.alike with
  | symbol name => exact .ite Iff.rfl (fun _ => .fail _) fun _ => .pure rfl
  | vector _ =>
    dsimp only
    rw [hstring]
    split
    · exact .pure rfl
    · exact .fail _
  | _ => exact .fail _

theorem runs_makeFunction (hargs : w.bridge.Clean call.args call'.args)
    (henv : w.bridge.Relates env env') :
    w.Runs (SessionM.makeFunction call env) (SessionM.makeFunction call' env') Bridge.Clean := by
  refine (looks_twoArgs hargs .function).andThen ?_
  rintro ⟨formals, body⟩ ⟨formals', body'⟩ ⟨hformals, hbody⟩
  dsimp only at hformals hbody ⊢
  have hmake (formals formals' : ArgList) (hformals : w.bridge.Clean formals formals') :
      w.Runs (do return Value.closure ⟨← SessionM.newIdentity, formals, body, env⟩)
        (do return Value.closure ⟨← SessionM.newIdentity, formals', body', env'⟩) Bridge.Clean := by
    refine runs_newIdentity.bind fun identity identity' z hz hidentity => ?_
    subst hidentity
    exact .pure (relates_closure.2 ⟨_, rfl, relates_mkClosure (hz.clean hformals)
      (hz.clean hbody) (clean_env.2 (hz.relates henv))⟩)
  have htype := hformals.same (f := Value.typeName) fun _ _ => Renaming.typeName_rename
  -- formals are a list, or none at all; anything else is refused on both sides
  cases hformals.alike with
  | list hlist => exact Looks.andThen (.pure hlist) hmake
  | null => exact Looks.andThen (.pure relates_nil) hmake
  | _ =>
    dsimp only
    rw [htype]
    exact Looks.andThen (.fail _) hmake

theorem bindingIsMissing_eq {binding binding' : Binding} (h : w.bridge.Binds binding binding') :
    SessionM.bindingIsMissing binding' = SessionM.bindingIsMissing binding := by
  obtain ⟨value, defaultArg⟩ := binding
  obtain ⟨value', defaultArg'⟩ := binding'
  have hdefault : defaultArg' = defaultArg := h.defaultArg
  have hvalue : w.bridge.Relates value value' := h.stores.relates
  subst hdefault
  cases hvalue.alike with
  | @dots args args' hargs =>
    have hargs := relates_iff_forall₂.1 hargs
    cases hargs <;> rfl
  | _ => rfl

theorem looks_promiseIsMissing {p p' : Promise} (hp : w.bridge.Clean p p') :
    w.Looks (SessionM.promiseIsMissing p) (SessionM.promiseIsMissing p') (· = ·) := by
  obtain ⟨expr, state⟩ := p
  obtain ⟨expr', state'⟩ := p'
  have hexpr : w.bridge.Clean expr expr' := hp.expr
  have hstate : w.bridge.Clean state state' := hp.state
  cases hexpr.alike with
  | symbol inner =>
    cases state with
    | kept value =>
      obtain ⟨value', rfl, -⟩ := relates_kept.1 hstate
      exact .pure rfl
    | waiting origin underEvaluation =>
      obtain ⟨origin', rfl, horigin⟩ := relates_waiting.1 hstate
      refine .ite Iff.rfl (fun _ => .pure rfl) fun _ => ?_
      refine (looks_frame (clean_env.1 horigin)).bind fun f f' ⟨_, _, hf⟩ => .pure ?_
      have hget := hf.get? inner
      generalize f.get? inner = binding at hget ⊢
      generalize f'.get? inner = binding' at hget ⊢
      cases hget with
      | none => rfl
      | some hbinds => exact (bindingIsMissing_eq hbinds).symm
  | _ => exact .pure rfl

theorem looks_isMissing (henv : w.bridge.Relates env env') (name : Symbol) :
    w.Looks (SessionM.isMissing env name) (SessionM.isMissing env' name) (· = ·) := by
  refine (looks_frame henv).bind fun f f' ⟨_, _, hf⟩ => ?_
  have hget := hf.get? name
  generalize f.get? name = binding at hget ⊢
  generalize f'.get? name = binding' at hget ⊢
  cases hget with
  | none => exact .fail _
  | @some binding binding' hbinds =>
    refine .ite (by rw [bindingIsMissing_eq hbinds]) (fun _ => .pure rfl) fun _ => ?_
    obtain ⟨value, _⟩ := binding
    obtain ⟨value', _⟩ := binding'
    have hvalue : w.bridge.Relates value value' := hbinds.stores.relates
    cases hvalue.alike with
    | @promise p hp =>
      obtain ⟨cell, cell', hcell, hcell', hclean⟩ := w.matched.promises hp
      refine .get_bind ?_
      rw [hcell, hcell']
      exact looks_promiseIsMissing hclean
    | _ => exact .pure rfl

/-- On both sides the same invocation runs in related frames, or none does. -/
theorem invocationOf? (henv : w.bridge.Relates env env') :
    Option.Rel w.bridge.MatchesInvocation (w.left.invocationOf? env)
      (w.right.invocationOf? env') := by
  unfold Session.invocationOf?
  have hstack := w.matched.rest.stack
  generalize w.left.stack = stack at hstack
  generalize w.right.stack = stack' at hstack
  induction hstack with
  | nil => exact .none
  | @cons i j _ _ hi _ ih =>
    have hsame : (j.env == env') = (i.env == env) := by
      rw [Bool.eq_iff_iff, beq_iff_eq, beq_iff_eq]
      exact eq_iff_eq hi.env henv
    rw [List.find?_cons, List.find?_cons, hsame]
    cases i.env == env
    · exact ih
    · exact .some hi

theorem runs_missingForm (hargs : w.bridge.Clean call.args call'.args)
    (henv : w.bridge.Relates env env') :
    w.Runs (SessionM.missingForm call env) (SessionM.missingForm call' env') Bridge.Clean := by
  refine (looks_oneArg hargs .missing).andThen fun arg arg' harg => ?_
  rw [harg.same fun _ _ => Renaming.nameText?_rename]
  split
  · refine (looks_isMissing henv _).andThen fun found found' hfound => ?_
    subst hfound
    exact runs_newBare _
  · exact .fail _

/-! ## Namespaces -/

theorem relates_registryBase :
    w.bridge.Relates w.left.namespaces.baseEnv w.right.namespaces.baseEnv :=
  w.matched.rest.namespaces.map fun _ _ => rfl

theorem runs_loadNamespace (name : Symbol) :
    w.Runs (SessionM.loadNamespace name) (SessionM.loadNamespace name) Bridge.Relates := by
  obtain ⟨c, hc, hns, hleft, hright, hmatches⟩ := w.matched.load name
  exact .modifyGet (z := ⟨c, _, _, hmatches⟩) ⟨hc, hleft, hright⟩ rfl rfl hns

/-- Related environments are those of namespaces of the same name. -/
theorem nameOf?_eq (henv : w.bridge.Relates env env') :
    w.right.namespaces.nameOf? env' = w.left.namespaces.nameOf? env := by
  have hnamespaces := w.matched.rest.namespaces
  have henvs : w.bridge.Relates (w.left.namespaces.owners.map Prod.fst)
      (w.right.namespaces.owners.map Prod.fst) :=
    hnamespaces.map (f := fun (known : Namespaces) => known.owners.map Prod.fst) fun r known => by
      simp [rename, List.map_map, Function.comp_def]
  have hnames : w.right.namespaces.owners.map Prod.snd = w.left.namespaces.owners.map Prod.snd :=
    hnamespaces.same (f := fun (known : Namespaces) => known.owners.map Prod.snd) fun r known => by
      simp [rename, List.map_map, Function.comp_def]
  unfold Namespaces.nameOf?
  generalize w.left.namespaces.owners = owners at henvs hnames ⊢
  generalize w.right.namespaces.owners = owners' at henvs hnames ⊢
  induction owners generalizing owners' with
  | nil =>
    rw [List.map_eq_nil_iff.1 hnames]
    rfl
  | cons owner rest ih =>
    cases owners' with
    | nil => cases hnames
    | cons owner' rest' =>
      obtain ⟨id, name⟩ := owner
      obtain ⟨id', name'⟩ := owner'
      obtain ⟨hid, hrest⟩ := relates_cons.1 henvs
      obtain ⟨hname, hrestNames⟩ := List.cons_eq_cons.1 hnames
      obtain rfl : name' = name := hname
      -- the bridge pairs each environment with one other, so both comparisons come out alike
      have hsame : (env' == id') = (env == id) := by
        rw [Bool.eq_iff_iff, beq_iff_eq, beq_iff_eq]
        exact eq_iff_eq henv hid
      rw [List.lookup_cons, List.lookup_cons, hsame, ih rest' hrest hrestNames]

theorem byEnv? (henv : w.bridge.Relates env env') :
    w.bridge.Relates (w.left.namespaces.byEnv? env) (w.right.namespaces.byEnv? env') := by
  unfold Namespaces.byEnv?
  rw [nameOf?_eq henv]
  cases w.left.namespaces.nameOf? env with
  | none => exact relates_none
  | some name => exact w.matched.get?_namespace name

theorem runs_namespaceOf (hv : w.bridge.Clean v v') :
    w.Runs (SessionM.namespaceOf v) (SessionM.namespaceOf v') Bridge.Relates := by
  have hname := hv.same (f := Value.nameText?) fun _ _ => Renaming.nameText?_rename
  cases hv.alike with
  | @environment id id' hid =>
    refine .get_bind ?_
    have hfound := (byEnv? (clean_env.1 hid)).option_rel
    generalize w.left.namespaces.byEnv? id = found at hfound ⊢
    generalize w.right.namespaces.byEnv? id' = found' at hfound ⊢
    cases hfound with
    | none => exact .fail _
    | some hns => exact .pure hns
  | vector _ =>
    unfold SessionM.namespaceOf
    dsimp only
    rw [hname]
    split
    · exact runs_loadNamespace _
    · exact .fail _
  | symbol name =>
    unfold SessionM.namespaceOf
    dsimp only
    split
    · exact runs_loadNamespace _
    · exact .fail _
  | _ => exact .fail _

theorem runs_namespaceName {ns ns' : Namespace} (h : w.bridge.Relates ns ns') :
    w.Runs (SessionM.namespaceName ns) (SessionM.namespaceName ns') Bridge.Clean := by
  have henv : w.bridge.Relates ns.env ns'.env := h.map fun _ _ => rfl
  have hname : ns'.name = ns.name := h.same fun _ _ => rfl
  refine .get_bind (.ite (eq_iff_eq henv relates_registryBase) (fun _ => runs_newBare _)
    fun _ => ?_)
  rw [hname]
  refine (runs_newBare _).bind fun tag tag' z hz htag => ?_
  exact runs_newVector _ ((relates_emptyAttributes (b := z.bridge.bare)).map₂
    (f := fun attributes value => AttributeList.set attributes ⟨"names"⟩ value)
    (fun r attributes value => Renaming.rename_set attributes _ value) htag)

end CallByNeed.Twins
