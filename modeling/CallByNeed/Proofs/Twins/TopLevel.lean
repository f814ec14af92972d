import CallByNeed.Proofs.Dangling.Collection
import CallByNeed.Proofs.Twins.Collection
import CallByNeed.Proofs.Twins.Loops
import Mathlib.Data.Set.Function

/-!
# Collections are not observable

A new session is its own twin, whatever its threshold.  At top level the two sides
of twins may collect when they like: what either keeps is what can be reached, and
the bridge goes on with the environments that can be.

So two sessions that evaluate the same expressions, as long as these have nothing
of one session in them, give the same answers up to the references of
environments, and what they can reach is the same up to those.
-/

namespace CallByNeed

open Bridge Twins

/-! ## Plain expressions -/

namespace Value

mutual

/-- Whether there is nothing of a session in the expression: no environment, no closure, no promise,
    and no builtin that looks into the session. -/
def isPlain : Value → Bool
  | null => true
  | symbol _ => true
  | vector ⟨_, _, ⟨entries⟩⟩ => plainEntries entries
  | call ⟨_, function, args⟩ => function.isPlain && plainArgs args
  | list args => plainArgs args
  | dots args => plainArgs args
  | builtin _ (.eager (.introspect _)) => false
  | builtin _ _ => true
  | closure _ => false
  | promise _ => false
  | environment _ => false

def plainArgs : List (Arg Value) → Bool
  | [] => true
  | ⟨_, value⟩ :: rest => value.isPlain && plainArgs rest

def plainEntries : List (Symbol × Value) → Bool
  | [] => true
  | (_, value) :: rest => value.isPlain && plainEntries rest

end

mutual

/-- There is nothing to rename in a plain expression. -/
theorem rename_of_isPlain (r : Renaming) (v : Value) (h : v.isPlain = true) :
    CallByNeed.rename r v = v := by
  match v with
  | null | symbol _ => rfl
  | vector ⟨identity, elements, ⟨entries⟩⟩ =>
    exact congrArg (fun entries => vector ⟨identity, elements, ⟨entries⟩⟩)
      (renameEntries_of_plainEntries r entries h)
  | call ⟨identity, function, args⟩ =>
    obtain ⟨hfunction, hargs⟩ := Bool.and_eq_true_iff.1 h
    have hfunction : function.rename r = function := rename_of_isPlain r function hfunction
    have hargs := renameArgs_of_plainArgs r args hargs
    show call ⟨identity, function.rename r, renameArgs r args⟩ = _
    rw [hfunction, hargs]
  | list args => exact congrArg list (renameArgs_of_plainArgs r args h)
  | dots args => exact congrArg dots (renameArgs_of_plainArgs r args h)
  | builtin identity b =>
    refine congrArg (builtin identity) (Builtin.exchange_of_quiet fun query hb => ?_)
    subst hb
    cases h
  | closure _ | promise _ | environment _ => cases h

theorem renameArgs_of_plainArgs (r : Renaming) (args : List (Arg Value))
    (h : plainArgs args = true) : renameArgs r args = args := by
  match args with
  | [] => rfl
  | ⟨tag, value⟩ :: rest =>
    obtain ⟨hvalue, hrest⟩ := Bool.and_eq_true_iff.1 h
    have hvalue : value.rename r = value := rename_of_isPlain r value hvalue
    rw [renameArgs, hvalue, renameArgs_of_plainArgs r rest hrest]

theorem renameEntries_of_plainEntries (r : Renaming) (entries : List (Symbol × Value))
    (h : plainEntries entries = true) : renameEntries r entries = entries := by
  match entries with
  | [] => rfl
  | (name, value) :: rest =>
    obtain ⟨hvalue, hrest⟩ := Bool.and_eq_true_iff.1 h
    have hvalue : value.rename r = value := rename_of_isPlain r value hvalue
    rw [renameEntries, hvalue, renameEntries_of_plainEntries r rest hrest]

end

end Value

/-- An expression with nothing of a session in it. -/
abbrev PlainExpr := { v : Value // v.isPlain = true }

theorem PlainExpr.clean (b : Bridge) (expr : PlainExpr) : b.Clean expr.1 expr.1 :=
  relates_of_fixed fun r => expr.1.rename_of_isPlain r expr.2

/-! ## New sessions -/

namespace Bridge

/-- The bridge between the two environments that every session starts with. -/
def fresh : Bridge where
  env id := if id = ⟨0, 0⟩ ∨ id = ⟨1, 0⟩ then some id else none
  injective {id other target} hid hother := by
    split at hid <;> split at hother <;> simp_all
  promises _ := False

theorem relates_fresh_env {id id' : EnvId} :
    fresh.Relates id id' ↔ id' = id ∧ (id = ⟨0, 0⟩ ∨ id = ⟨1, 0⟩) := by
  rw [relates_env, fresh]
  constructor
  · intro h
    dsimp only at h
    split at h
    · cases h
      exact ⟨rfl, ‹_›⟩
    · cases h
  · rintro ⟨rfl, h⟩
    exact if_pos h

theorem quiet_of_mem_base {f : Builtin} (h : f ∈ Builtin.base) (query : Introspection) :
    f ≠ .eager (.introspect query) := by
  rintro rfl
  revert h
  cases query <;> decide

/-- A new session binds nothing but builtins. -/
theorem matchesFrame_base {b : Bridge} : b.MatchesFrame Session.baseFrame Session.baseFrame := by
  have hbuiltin : ∀ entry ∈ Session.baseFrame.bindings, ∀ c : Bridge,
      c.Relates entry.2.value entry.2.value := by
    intro entry hentry c
    obtain ⟨⟨f, i⟩, hmem, rfl⟩ := List.mem_map.1 hentry
    exact relates_builtin.2 ⟨rfl, quiet_of_mem_base (List.fst_mem_of_mem_zipIdx hmem)⟩
  constructor
  case relates =>
    have hbindings : b.Relates Session.baseFrame.bindings Session.baseFrame.bindings := by
      refine relates_iff_forall₂.2 (List.forall₂_same.2 fun entry hentry => ?_)
      obtain ⟨name, value, defaultArg⟩ := entry
      have hvalue : b.Relates value value := hbuiltin _ hentry b
      exact relates_pair.2 ⟨rfl, hvalue.map (f := (Binding.mk · defaultArg)) fun _ _ => rfl⟩
    exact hbindings.map₂ (f := Frame.mk) (fun _ _ _ => rfl) relates_none
  case storable => exact fun entry hentry => .inl (.inl (hbuiltin entry hentry b.bare).within)

theorem sound_initial (options : Options) (kernels : KernelTable) :
    (Session.initial options kernels).heap.Sound := by
  have hsafe := Session.safe_initial options kernels
  exact ⟨hsafe.intact.wellFormed, Session.layered_initial options kernels, hsafe.parents⟩

/-- New sessions are twins, whatever their thresholds. -/
theorem matches_fresh (options : Options) (kernels : KernelTable) (gcThreshold : Nat) :
    fresh.Matches (.initial options kernels) (.initial { options with gcThreshold } kernels) := by
  have hbase : fresh.Relates (⟨0, 0⟩ : EnvId) ⟨0, 0⟩ := relates_fresh_env.2 ⟨rfl, .inl rfl⟩
  have hglobal : fresh.Relates (⟨1, 0⟩ : EnvId) ⟨1, 0⟩ := relates_fresh_env.2 ⟨rfl, .inr rfl⟩
  constructor
  case left => exact sound_initial options kernels
  case right => exact sound_initial _ kernels
  case frames =>
    intro id id' hid
    obtain ⟨rfl, hid⟩ := relates_fresh_env.1 hid
    rw [Session.frame?_initial, Session.frame?_initial]
    obtain rfl | rfl := hid
    · exact ⟨_, _, rfl, rfl, matchesFrame_base⟩
    · exact ⟨_, _, rfl, rfl, .empty (relates_some.2 ⟨_, rfl, hbase⟩)⟩
  case promises => exact fun hp => hp.elim
  case size => rfl
  case rest =>
    constructor
    case baseEnv => exact hbase
    case globalEnv => exact hglobal
    case namespaces => exact hbase.map (f := Namespaces.initial) fun _ _ => rfl
    case stack => exact .nil
    case loops => exact relates_of_fixed fun _ => rfl
    case preserved => exact relates_nil
    case kernels => rfl
    case stats => rfl
    case identities => rfl
    case maxCallDepth => rfl
    case compileLoops => rfl
    case registryBase => rfl
    case owners =>
      intro owner howner
      cases List.mem_singleton.1 howner
      exact List.mem_singleton_self _

end Bridge

/-! ## Top-level evaluations -/

/-- The actions answer the same up to references and leave twins. -/
def Twins.Answers (w : Twins) (x y : SessionM Value) : Prop :=
  ∃ z : Twins, ∃ o o', x w.left = (o, z.left) ∧ y w.right = (o', z.right) ∧ z.bridge.Clean o o'

theorem Session.collectIfDue_trims {s : Session} {v : Value} (hs : s.heap.Sound)
    (hcollect : ∃ freed heap, s.heap.collect s.promises s.rootEnvs ([v] ++ s.rootValues) =
      some (freed, heap)) :
    ∃ heap, SessionM.collectIfDue v s = (.ok (), { s with heap }) ∧ s.Trims [v] heap := by
  rw [collectIfDue_run]
  split
  · obtain ⟨freed, heap, hcollect⟩ := hcollect
    rw [SessionM.collect_run hcollect]
    exact ⟨heap, rfl, trims_collect hs hcollect⟩
  · exact ⟨s.heap, rfl, trims_self hs⟩

namespace Twins

variable {w : Twins} {v v' : Value}

/-- Each side may collect at the end of a top-level evaluation, or not. -/
theorem answers_collectIfDue (hv : w.bridge.Clean v v') :
    w.Answers (do SessionM.collectIfDue v; return v) (do SessionM.collectIfDue v'; return v') := by
  have hextra : List.Forall₂ w.bridge.Stores [v] [v'] := .cons hv.stores .nil
  obtain ⟨hcollect, hcollect'⟩ := w.matched.exists_collect hextra
  obtain ⟨heap, hrun, htrims⟩ := Session.collectIfDue_trims w.matched.left hcollect
  obtain ⟨heap', hrun', htrims'⟩ := Session.collectIfDue_trims w.matched.right hcollect'
  refine ⟨⟨_, _, _, w.matched.trim hextra htrims htrims'⟩, .ok v, .ok v',
    SessionM.bind_run_ok hrun _, SessionM.bind_run_ok hrun' _, ?_⟩
  have hkept : (w.bridge.restrict w.left.promises (w.left.Reached [v])).Clean v v' :=
    hv.restrict fun id hid => .start (.inr ⟨v, List.mem_cons_self, hid⟩)
  exact hkept.map (f := Except.ok) fun _ _ => rfl

theorem answers_evalIn {ev : Evaluator} (hev : ev.KeepsTwins) {expr expr' : Value}
    (hexpr : w.bridge.Clean expr expr') {env env' : EnvId} (henv : w.bridge.Relates env env') :
    w.Answers (ev.evalIn expr env) (ev.evalIn expr' env') := by
  obtain ⟨z, o, o', -, hrun, hrun', hends⟩ := Evaluator.runs_evaluate hev henv hexpr
  -- at top level only the outcome counts, not the action that had it
  have htop {x : SessionM Value} {s t : Session} {o : Except Interrupt Value} (h : x s = (o, t)) :
      SessionM.atTopLevel x s = SessionM.atTopLevel (fun _ => (o, t)) s := by
    simp only [SessionM.atTopLevel, h]
  have hstop (e : Interrupt) : z.bridge.Clean (.error e : Except Interrupt Value) (.error e) :=
    relates_of_fixed fun _ => rfl
  cases hends with
  | value hv =>
    obtain ⟨y, o, o', hrest, hrest', hclean⟩ := z.answers_collectIfDue hv
    exact ⟨y, o, o', (SessionM.bind_run_ok (htop hrun) _).trans hrest,
      (SessionM.bind_run_ok (htop hrun') _).trans hrest', hclean⟩
  | failure e =>
    exact ⟨z, _, _, SessionM.bind_run_error (htop hrun) _, SessionM.bind_run_error (htop hrun') _,
      hstop (.failure e)⟩
  | returning _ _ =>
    exact ⟨z, _, _, SessionM.bind_run_error (htop hrun) _, SessionM.bind_run_error (htop hrun') _,
      hstop (.failure .deadFrameReturn)⟩
  | exhausted =>
    exact ⟨z, _, _, SessionM.bind_run_error (htop hrun) _, SessionM.bind_run_error (htop hrun') _,
      hstop .exhausted⟩

theorem answers_eval {ev : Evaluator} (hev : ev.KeepsTwins) (expr : PlainExpr) :
    w.Answers (ev.eval expr.1) (ev.eval expr.1) :=
  answers_evalIn hev (expr.clean w.bridge) w.matched.rest.globalEnv

end Twins

/-! ## Results up to references -/

/-- An outcome and the session that it leaves. -/
abbrev Result := Except Interrupt Value × Session

/-- The value of the result, if it has one. -/
def Result.held (r : Result) : List Value := r.1.toOption.toList

/-- What can be reached from the session and the value of the result. -/
def Result.Reached (r : Result) : EnvId → Prop := r.2.Reached r.held

/-- The value is held by the session or is the value of the result, or is bound in a frame that can
    be reached. -/
inductive Result.Holds (r : Result) : Value → Prop where
  | root {v : Value} (h : v ∈ r.held ++ r.2.rootValues) : Holds r v
  | bound {id : EnvId} {f : Frame} {entry : Symbol × Binding} (hid : r.Reached id)
    (hf : r.2.heap.frame? id = some f) (hentry : entry ∈ f.bindings) : Holds r entry.2.value

/-- The same outcome, and the same that can be reached, except that environments have other
    references. -/
structure Result.Relocates (r r' : Result) (ρ : EnvId → EnvId) : Prop where
  outcome : r'.1 = rename ⟨ρ, id, id⟩ r.1
  injective : Set.InjOn ρ {env | r.Reached env}
  rootEnvs : r'.2.rootEnvs = r.2.rootEnvs.map ρ
  rootValues : r'.2.rootValues = rename ⟨ρ, id, id⟩ r.2.rootValues
  frames : ∀ {env}, r.Reached env → ∃ f, r.2.heap.frame? env = some f ∧
    r'.Reached (ρ env) ∧ r'.2.heap.frame? (ρ env) = some (rename ⟨ρ, id, id⟩ f)
  promises : ∀ {v p}, r.Holds v → v.Part r.2.promises (.promise p) →
    ∃ cell, r.2.promises.get? p = some cell ∧
      r'.2.promises.get? p = some (rename ⟨ρ, id, id⟩ cell)
  onto : ∀ {env'}, r'.Reached env' → ∃ env, r.Reached env ∧ ρ env = env'

theorem Twins.held {w : Twins} {o o' : Except Interrupt Value} (h : w.bridge.Clean o o') :
    List.Forall₂ w.bridge.Stores (Result.held (o, w.left)) (Result.held (o', w.right)) := by
  obtain ⟨e, rfl, rfl⟩ | ⟨v, v', rfl, rfl, hv⟩ := h.of_except
  · exact .nil
  · exact .cons hv.stores .nil

theorem Twins.stores_of_holds {w : Twins} {o o' : Except Interrupt Value}
    (h : w.bridge.Clean o o') {v : Value} (hv : Result.Holds (o, w.left) v) :
    ∃ v', w.bridge.Stores v v' := by
  have hsome {l l' : List Value} (hl : List.Forall₂ w.bridge.Stores l l') {v : Value}
      (hv : v ∈ l) : ∃ v', w.bridge.Stores v v' :=
    (forall_of_forall₂ (P := fun v => ∃ v', w.bridge.Stores v v') (Q := fun _ => True)
      (hl.imp fun _ v' hv => ⟨⟨v', hv⟩, trivial⟩)).1 v hv
  cases hv with
  | root hv => exact hsome (List.rel_append (w.held h) w.matched.rest.rootValues) hv
  | @bound id f entry hid hf hentry =>
    obtain ⟨id', hrelates, -⟩ := (w.matched.pairs_reached (w.held h)).right hid
    obtain ⟨g, g', hg, -, hmatches⟩ := w.matched.frames hrelates
    obtain rfl := Option.some.inj (hf.symm.trans hg)
    have hvalues : List.Forall₂ w.bridge.Stores (f.bindings.map (·.2.value))
        (g'.bindings.map (·.2.value)) :=
      List.forall₂_map_left_iff.2 (List.forall₂_map_right_iff.2 hmatches.bindings)
    exact hsome hvalues (List.mem_map_of_mem hentry)

/-- Related outcomes and the sessions of twins are the same up to the references of
    environments. -/
theorem Twins.relocates (w : Twins) {o o' : Except Interrupt Value} (h : w.bridge.Clean o o') :
    Result.Relocates (o, w.left) (o', w.right) w.bridge.across.env := by
  have hheld := w.held h
  have hreached : w.bridge.Pairs (Result.Reached (o, w.left)) (Result.Reached (o', w.right)) :=
    w.matched.pairs_reached hheld
  -- the renaming is the one that the bridge makes
  have hacross {env env' : EnvId} (henv : w.bridge.Relates env env') :
      w.bridge.across.env env = env' :=
    env_across (relates_env.1 henv)
  constructor
  case outcome => exact h.image
  case injective =>
    intro env henv other hother hsame
    obtain ⟨env', hrelates, -⟩ := hreached.right henv
    obtain ⟨other', hrelates', -⟩ := hreached.right hother
    rw [hacross hrelates, hacross hrelates'] at hsame
    exact (eq_iff_eq hrelates hrelates').1 hsame
  case rootEnvs => exact w.matched.rest.rootEnvs.image
  case rootValues =>
    exact (relates_iff_forall₂.2 (w.matched.rest.rootValues.imp fun _ _ => Stores.relates)).image
  case frames =>
    intro env henv
    obtain ⟨env', hrelates, henv'⟩ := hreached.right henv
    obtain ⟨f, f', hf, hf', hmatches⟩ := w.matched.frames hrelates
    rw [hacross hrelates]
    exact ⟨f, hf, henv', hf'.trans (congrArg some hmatches.relates.image)⟩
  case promises =>
    intro v p hv hp
    obtain ⟨v', hstores⟩ := w.stores_of_holds h hv
    obtain ⟨cell, cell', hcell, hcell', hclean⟩ :=
      w.matched.promises ((w.matched.traced_stores hstores).promises hp)
    exact ⟨cell, hcell, hcell'.trans (congrArg some hclean.image)⟩
  case onto =>
    intro env' henv'
    obtain ⟨env, hrelates, henv⟩ := hreached.left henv'
    exact ⟨env, henv, hacross hrelates⟩

/-! ## Programs -/

/-- Expressions to be evaluated at top level, one after the other, each with some fuel. -/
abbrev Program := List (Nat × PlainExpr)

namespace Program

/-- The results of the expressions. -/
def results : Program → Session → List Result
  | [], _ => []
  | (fuel, expr) :: rest, s =>
    let r := (evaluator fuel).eval expr.1 s
    r :: results rest r.2

/-- The session after all expressions were evaluated. -/
def after (program : Program) (s : Session) : Session :=
  program.foldl (fun s step => ((evaluator step.1).eval step.2.1 s).2) s

end Program

namespace Twins

theorem results (w : Twins) (program : Program) :
    List.Forall₂ (fun r r' => ∃ ρ, Result.Relocates r r' ρ) (program.results w.left)
      (program.results w.right) := by
  induction program generalizing w with
  | nil => exact .nil
  | cons step rest ih =>
    obtain ⟨fuel, expr⟩ := step
    obtain ⟨z, o, o', hrun, hrun', hclean⟩ := w.answers_eval (keepsTwins_evaluator fuel) expr
    unfold Program.results
    dsimp only
    rw [hrun, hrun']
    exact .cons ⟨_, z.relocates hclean⟩ (ih z)

theorem after (w : Twins) (program : Program) :
    ∃ z : Twins, program.after w.left = z.left ∧ program.after w.right = z.right := by
  induction program generalizing w with
  | nil => exact ⟨w, rfl, rfl⟩
  | cons step rest ih =>
    obtain ⟨fuel, expr⟩ := step
    obtain ⟨z, o, o', hrun, hrun', -⟩ := w.answers_eval (keepsTwins_evaluator fuel) expr
    obtain ⟨y, hleft, hright⟩ := ih z
    refine ⟨y, ?_, ?_⟩
    · rw [← hleft, Program.after, List.foldl_cons, hrun]
      rfl
    · rw [← hright, Program.after, List.foldl_cons, hrun']
      rfl

end Twins

/-- Programs do not notice collections.  After any program, a collection is carried out, and
    evaluating an expression gives the same with and without it: the same error or, up to the
    references of environments, the same value, and the same that can be reached from the session
    and that value.  So the results of a program do not depend on the threshold either. -/
theorem collection_unobservable (options : Options) (kernels : KernelTable) (program : Program) :
    (∀ fuel (expr : PlainExpr),
      let s := program.after (.initial options kernels)
      ∃ freed t, SessionM.collect [] s = (.ok freed, t) ∧
        ∃ ρ, Result.Relocates ((evaluator fuel).eval expr.1 s) ((evaluator fuel).eval expr.1 t) ρ) ∧
    ∀ gcThreshold, List.Forall₂ (fun r r' => ∃ ρ, Result.Relocates r r' ρ)
      (program.results (.initial options kernels))
      (program.results (.initial { options with gcThreshold } kernels)) := by
  constructor
  · intro fuel expr s
    obtain ⟨w, hleft, hright⟩ := Twins.after
      ⟨fresh, _, _, matches_fresh options kernels options.gcThreshold⟩ program
    have hleft : s = w.left := hleft
    have hright : s = w.right := hright
    obtain ⟨-, freed, heap, hcollect⟩ := w.matched.exists_collect .nil
    have htrims : w.right.Trims [] heap := Session.trims_collect w.matched.right hcollect
    let z : Twins := ⟨_, _, _, w.matched.trim .nil (Session.trims_self w.matched.left) htrims⟩
    obtain ⟨y, o, o', hrun, hrun', hclean⟩ := z.answers_eval (keepsTwins_evaluator fuel) expr
    refine ⟨freed, z.right, ?_, y.bridge.across.env, ?_⟩
    · rw [hright]
      exact SessionM.collect_run hcollect
    · have hrun : (evaluator fuel).eval expr.1 s = (o, y.left) := by
        rw [hleft]
        exact hrun
      rw [hrun, hrun']
      exact y.relocates hclean
  · intro gcThreshold
    exact Twins.results ⟨fresh, _, _, matches_fresh options kernels gcThreshold⟩ program

/-- A function without formals is made and called. -/
def calledOnce (body : Value) : Value :=
  .call ⟨⟨1⟩, .call ⟨⟨0⟩, .symbol ⟨"function"⟩, [.untagged .null, .untagged body]⟩, []⟩

/-- With a threshold of zero the frame of the first call is freed, and the function that the second
    call makes is defined in a frame that takes its place. -/
example :
    let program : Program :=
      [(4, ⟨calledOnce .null, rfl⟩),
        (4, ⟨calledOnce (.call ⟨⟨0⟩, .symbol ⟨"function"⟩, [.untagged .null, .untagged .null]⟩),
          rfl⟩)]
    let madeIn (gcThreshold : Nat) : List (Option EnvId) :=
      (program.results (.initial { gcThreshold } .empty)).map fun r =>
        r.1.toOption.bind fun v => v.ownEnv? r.2.promises
    madeIn 0 = [none, some ⟨2, 1⟩] ∧ madeIn 100 = [none, some ⟨3, 0⟩] := by
  decide +kernel

end CallByNeed
