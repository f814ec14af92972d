import CallByNeed.Proofs.Heap.References
import CallByNeed.Proofs.Restrained.Loops

/-!
# The reserved names

Assigning to a symbol refuses the two reserved names, but a string, the variable
of a loop, a formal and the name of a method may spell them all the same.  A
program that keeps from this leaves `...` to the matching of arguments: wherever
it is bound, it stands for promises and omitted arguments, and the empty name is
bound nowhere (`Session.Unspoilt.reserved_names`).  So what is collected under
`...` can always be passed on.
-/

namespace CallByNeed

open Matching

/-- The two names that only matching binds, if it binds them. -/
def Symbol.isReserved (name : Symbol) : Bool := name.isMissing || name.isEllipsis

/-- No formal has the empty name, and `...` is the name of one formal at most. -/
def keepsReservedFree (formals : ArgList) : Bool :=
  formals.zipIdx.all fun (formal, i) =>
    formal.tag != some .missing && (formal.tag != some .ellipsis || IsEllipsis formals i)

/-- A program keeps from binding the reserved names, but for one formal `...`. -/
def Restraint.reservedNames : Restraint where
  binds _ _ name := !name.isReserved
  declares := keepsReservedFree
  registers name := !name.isReserved

/-- Where `...` is bound it stands for promises and omitted arguments, and the empty name is not
    bound. -/
structure Frame.Unspoilt (f : Frame) : Prop where
  ellipsis : ∀ b, f.get? .ellipsis = some b → ∃ args, b.value = .dots args ∧ Suspended args
  missing : f.get? .missing = none

def Heap.Unspoilt (h : Heap) : Prop := ∀ id f, h.frame? id = some f → f.Unspoilt

variable {s t : Session} {env : EnvId} {name : Symbol}

theorem Frame.Unspoilt.bind {f : Frame} (h : f.Unspoilt) (hname : name.isReserved = false)
    (b : Binding) : (f.bind name b).Unspoilt := by
  obtain ⟨hmissing, hellipsis⟩ := Bool.or_eq_false_iff.1 hname
  constructor
  · intro b' hb'
    rw [Frame.get?_bind_of_ne _ _ (by rintro rfl; cases hellipsis)] at hb'
    exact h.ellipsis b' hb'
  · rw [Frame.get?_bind_of_ne _ _ (by rintro rfl; cases hmissing)]
    exact h.missing

theorem Frame.unspoilt_empty (parent : Option EnvId) : (Frame.empty parent).Unspoilt :=
  ⟨nofun, rfl⟩

theorem Heap.Unspoilt.bound (h : s.heap.Unspoilt) (hlive : s.heap.contains env = true)
    (hname : name.isReserved = false) (b : Binding) : (s.bound env name b).heap.Unspoilt := by
  intro id f hf
  rw [Session.frame?_bound hlive] at hf
  split at hf
  · obtain ⟨old, hold, rfl⟩ := Option.map_eq_some_iff.1 hf
    exact (h env old hold).bind hname b
  · exact h id f hf

section

variable {formals : ArgList} {v : Value} (hformals : keepsReservedFree formals = true)
include hformals

theorem tag_of_keepsReservedFree {i : Nat} {formal : Arg Value} (hi : formals[i]? = some formal) :
    formal.tag ≠ some .missing ∧ (formal.tag = some .ellipsis → IsEllipsis formals i) := by
  have := List.all_eq_true.1 hformals (formal, i) (List.mem_zipIdx_iff_getElem?.2 hi)
  simpa [imp_iff_not_or] using this

theorem Fills.collects (h : Fills formals name v) (hname : name = .ellipsis) :
    ∃ args, v = .dots args ∧ Suspended args := by
  cases h with
  | supplied hi htag hordinary =>
    exact absurd ((tag_of_keepsReservedFree hformals hi).2 (hname ▸ htag)) hordinary
  | collected hargs => exact ⟨_, rfl, hargs⟩
  | besides hbound => exact absurd (hname ▸ hbound) (by decide)

theorem Fills.ne_missing (h : Fills formals name v) : name ≠ .missing := by
  intro hname
  cases h with
  | supplied hi htag => exact (tag_of_keepsReservedFree hformals hi).1 (hname ▸ htag)
  | collected => exact Symbol.missing_ne_ellipsis hname.symm
  | besides hbound => exact absurd (hname ▸ hbound) (by decide)

end

/-- What fills the formals of a function that keeps the reserved names free spoils nothing. -/
theorem Frame.unspoilt_of_fills {f : Frame} (h : ∀ name b, f.get? name = some b →
    ∃ formals, keepsReservedFree formals = true ∧ Fills formals name b.value) : f.Unspoilt := by
  constructor
  · intro b hb
    obtain ⟨formals, hformals, hfills⟩ := h _ _ hb
    exact hfills.collects hformals rfl
  · refine Option.eq_none_iff_forall_ne_some.2 fun b hb => ?_
    obtain ⟨formals, hformals, hfills⟩ := h _ _ hb
    exact hfills.ne_missing hformals rfl

/-- What a restrained program does spoils no frame. -/
def Discipline.reservedNames : Discipline .reservedNames where
  rel s t := s.heap.Unspoilt → t.heap.Unspoilt
  trans h₁ h₂ h := h₂ (h₁ h)
  same _ _ hheap h := hheap ▸ h
  binds value _ hlive hname h := h.bound hlive (by simpa [Restraint.reservedNames] using hname) _
  opens := by
    intro s t env _ _ hopens h id f hf
    obtain ⟨made, hmade, hfills⟩ := hopens.frame
    by_cases hid : id = env
    · subst hid
      rw [hmade] at hf
      cases hf
      exact Frame.unspoilt_of_fills hfills
    · exact h id f ((hopens.others id hid).symm.trans hf)
  registers := by
    intro s t generic className method env hs _ hname hrun h
    have hfree : (methodName generic className).isReserved = false := by
      simpa [Restraint.reservedNames] using hname
    obtain ⟨e, hfails, -⟩ | ⟨table, -, hlive, hdone⟩ | ⟨hnone, hdone⟩ :=
      SessionM.registerMethod_run hs.wellFormed generic className method env
    · cases hfails.symm.trans hrun
    · cases hdone.symm.trans hrun
      exact h.bound hlive hfree _
    · cases hdone.symm.trans hrun
      have henv := Heap.contains_of_methodsTable hnone
      have hframe := Session.frame?_tabled hs.wellFormed henv
      -- the new table is empty, and the environment binds a name that is not reserved
      have htabled : (s.tabled env).heap.Unspoilt := by
        intro id f hf
        rw [hframe] at hf
        split at hf
        · obtain ⟨old, hold, rfl⟩ := Option.map_eq_some_iff.1 hf
          exact (h env old hold).bind (by decide) _
        · split at hf
          · cases hf
            exact Frame.unspoilt_empty _
          · exact h id f hf
      have hne : (s.heap.allocate (some s.baseEnv)).1 ≠ env := by
        rintro rfl
        have hnew : s.heap.frame? _ = none := hs.wellFormed.frame?_new (.empty (some s.baseEnv))
        simp [Heap.contains, Heap.allocate, hnew] at henv
      have hlive : (s.tabled env).heap.contains (s.heap.allocate (some s.baseEnv)).1 = true := by
        simp [Heap.contains, hframe, hne]
      exact htabled.bound hlive hfree _
  collects hs hcollect h id f hf :=
    h id f ((hs.wellFormed.frame?_collect hcollect).1 hf).1

/-! ## Passing `...` on -/

theorem unspoilt_initial (options : Options) (kernels : KernelTable) :
    (Session.initial options kernels).heap.Unspoilt := by
  have hbase : Session.baseFrame.Unspoilt := by
    have hunbound (name : Symbol) (h : name.isReserved = true) :
        Session.baseFrame.get? name = none := by
      obtain h | h := Bool.or_eq_true_iff.1 h
      · rw [Symbol.isMissing_iff] at h
        subst h
        rfl
      · rw [Symbol.isEllipsis_iff] at h
        subst h
        rfl
    refine ⟨fun b hb => ?_, hunbound _ rfl⟩
    rw [hunbound .ellipsis rfl] at hb
    cases hb
  intro id f hf
  obtain ⟨-, rfl⟩ | ⟨-, rfl⟩ := Session.frame_of_initial hf
  · exact Frame.unspoilt_empty _
  · exact hbase

/-- The arguments collected under `...` are found, or the scope breaks off before. -/
theorem Heap.Unspoilt.ellipsisArgs_run (h : s.heap.Unspoilt) (env : EnvId) :
    (∃ args, SessionM.ellipsisArgs env s = (.ok args, s) ∧ Suspended args) ∨
      ∃ id, SessionM.ellipsisArgs env s = (.error (.failure (.staleEnvironment id)), s) := by
  cases howner : (s.heap.scope env).owner? .ellipsis with
  | error e =>
    have hstale : ∃ id, e = .staleEnvironment id := by
      unfold Scope.owner? at howner
      split at howner <;> cases howner
      exact ⟨_, rfl⟩
    obtain ⟨id, rfl⟩ := hstale
    have hfound : s.heap.find env .ellipsis = .error (.staleEnvironment id) := by
      simp only [Heap.find, howner]
      rfl
    refine .inr ⟨id, ?_⟩
    rw [SessionM.ellipsisArgs, SessionM.bind_run_error (SessionM.askHeap_run_error hfound)]
  | ok owner =>
    cases owner with
    | none =>
      have hfound : s.heap.find env .ellipsis = .ok none := by
        simp only [Heap.find, howner]
        rfl
      refine .inl ⟨[], ?_, suspended_nil⟩
      rw [SessionM.ellipsisArgs, SessionM.bind_run_ok (SessionM.askHeap_run_ok hfound)]
      rfl
    | some owner =>
      obtain ⟨id, b⟩ := owner
      have hfound : s.heap.find env .ellipsis = .ok (some (id, b.value)) := by
        simp only [Heap.find, howner]
        rfl
      -- the owner is a frame that is there, so it binds a list of promises
      obtain ⟨f, hf, hget⟩ := Heap.frame?_of_owner? howner
      obtain ⟨args, hargs, hsuspended⟩ := (h id f hf).ellipsis b hget
      refine .inl ⟨args, ?_, hsuspended⟩
      rw [SessionM.ellipsisArgs, SessionM.bind_run_ok (SessionM.askHeap_run_ok hfound), hargs]
      rfl

namespace Session

/-- A session that comes about from a new one by top-level evaluations of restrained programs. -/
inductive Unspoilt (options : Options) (kernels : KernelTable) : Session → Prop where
  | initial : Unspoilt options kernels (.initial options kernels)
  | evaluates {s : Session} (h : Unspoilt options kernels s) (fuel : Nat) (expr : Value)
    (env : EnvId) :
    Unspoilt options kernels (((Restraint.reservedNames.evaluator fuel).evalIn expr env) s).2

variable {options : Options} {kernels : KernelTable}

theorem Unspoilt.orderly (h : s.Unspoilt options kernels) : s.Orderly ∧ s.heap.Unspoilt := by
  induction h with
  | initial => exact ⟨orderly_initial options kernels, unspoilt_initial options kernels⟩
  | evaluates _ fuel expr env ih =>
    have hholds := Discipline.holds_evalIn
      (Discipline.isKeptBy_evaluator (D := .reservedNames) fuel) expr env _ ih.1
    exact ⟨hholds.orderly ih.1, hholds.rel ih.2⟩

/-- Programs that spell neither reserved name in a string they assign to, as the variable of a loop,
    as the name of a method, or twice among formals, leave both to matching, whatever else they do
    and however their evaluation ends.  In every frame, `...` is bound to promises and omitted
    arguments if it is bound at all, and the empty name is not bound; so passing `...` on never
    finds it misplaced.  A restrained program that is not cut short does what it does anyway. -/
theorem Unspoilt.reserved_names (h : s.Unspoilt options kernels) :
    (∀ id f, s.heap.frame? id = some f →
      f.get? .missing = none ∧
      ∀ b, f.get? .ellipsis = some b → ∃ args, b.value = .dots args ∧
        ∀ arg ∈ args, arg.value = .missingArg ∨ ∃ id, arg.value = .promise id) ∧
    (∀ env, (∃ args, SessionM.ellipsisArgs env s = (.ok args, s)) ∨
      ∃ id, SessionM.ellipsisArgs env s = (.error (.failure (.staleEnvironment id)), s)) ∧
    ∀ fuel expr env,
      ((Restraint.reservedNames.evaluator fuel).evalIn expr env s).1 ≠ .error .exhausted →
      (evaluator fuel).evalIn expr env s =
        (Restraint.reservedNames.evaluator fuel).evalIn expr env s := by
  obtain ⟨-, hunspoilt⟩ := h.orderly
  refine ⟨fun id f hf => ⟨(hunspoilt id f hf).missing, fun b hb => ?_⟩, fun env => ?_,
    fun fuel expr env => Restraint.reservedNames.evalIn_eq⟩
  · obtain ⟨args, hvalue, hargs⟩ := (hunspoilt id f hf).ellipsis b hb
    exact ⟨args, hvalue, fun arg harg => (hargs arg harg).imp_left Value.isMissingArg_iff.1⟩
  · exact (hunspoilt.ellipsisArgs_run env).imp_left fun ⟨args, hrun, _⟩ => ⟨args, hrun⟩

/-- Assigning to the symbol `x` is nothing that a program would keep from.  Assigning to the string
    `...` is: it binds the name, which is misplaced from then on. -/
theorem Unspoilt.reserved_names_assigned :
    let s := Session.initial {} .empty
    let assignment (target : Value) : Value :=
      .call ⟨⟨100⟩, .symbol ⟨"<-"⟩, [.untagged target, .untagged .null]⟩
    let spoilt := ((evaluator 2).evalIn
      (assignment (.vector ⟨⟨101⟩, .character #["..."], .empty⟩)) s.globalEnv s).2
    (evaluator 2).evalIn (assignment (.symbol ⟨"x"⟩)) s.globalEnv s =
      (Restraint.reservedNames.evaluator 2).evalIn (assignment (.symbol ⟨"x"⟩)) s.globalEnv s ∧
    SessionM.ellipsisArgs s.globalEnv s = (.ok [], s) ∧
    spoilt.heap.getLocal s.globalEnv .ellipsis = .ok (some .null) ∧
    SessionM.ellipsisArgs s.globalEnv spoilt = (.error (.failure misplacedEllipsis), spoilt) := by
  intro s assignment spoilt
  have hs : s.Unspoilt {} .empty := .initial
  obtain ⟨-, -, hsame⟩ := Unspoilt.reserved_names hs
  refine ⟨hsame 2 _ _ ?_, rfl, rfl, rfl⟩
  have hvalue : ((Restraint.reservedNames.evaluator 2).evalIn (assignment (.symbol ⟨"x"⟩))
      s.globalEnv s).1 = .ok .null := rfl
  rw [hvalue]
  exact nofun

end Session

end CallByNeed
