import CallByNeed.Proofs.Methods.Registration
import CallByNeed.Proofs.Restrained.Loops

/-!
# Programs that spare the methods tables

A program spares the methods tables if it binds the reserved name nowhere, by
assigning, by looping or as the name of a method, and binds nothing in the frame
of a table.  Whatever else it does, its session goes from one that a log
describes to another one (`Discipline.methodsTables`): by registering methods, and
by steps that leave the tables alone.
-/

namespace CallByNeed

/-- The reserved name stands for this environment in some frame. -/
def Heap.isMethodsTable (h : Heap) (id : EnvId) : Bool :=
  h.slots.any fun slot => slot.frame.any fun f =>
    (f.get? methodsTableName).any fun b =>
      match b.value with
      | .environment table => table == id
      | _ => false

variable {h h' : Heap} {env table : EnvId} {name : Symbol} {log : List Registration}

theorem Heap.isMethodsTable_of_methodsTable (htable : h.methodsTable env = .ok (some table)) :
    h.isMethodsTable table = true := by
  obtain ⟨f, hf⟩ := Option.isSome_iff_exists.1 (contains_of_methodsTable htable)
  have hread := methodsTable_eq_some_iff.1 htable
  rw [getLocal_of_frame? hf, Except.ok.injEq] at hread
  obtain ⟨b, hb, hvalue⟩ := Option.map_eq_some_iff.1 hread
  obtain ⟨slot, hslot, -, hframe⟩ := frame?_eq_some_iff.1 hf
  refine Array.any_eq_true'.2 ⟨slot, Array.mem_of_getElem? hslot, ?_⟩
  simp [hframe, hb, hvalue]

/-- Only dispatch binds an environment in the frame of an invocation. -/
theorem Fills.mem_methodVariables {formals : ArgList} {v : Value} (h : Fills formals name v)
    (hv : v = .environment env) : name ∈ methodVariables := by
  cases h with
  | supplied _ _ _ hsuspended =>
    subst hv
    obtain hmissing | ⟨id, hpromise⟩ := hsuspended
    · cases hmissing
    · cases hpromise
  | collected => cases hv
  | besides hmem => exact hmem

namespace Heap.KeepsTables

/-- Some frames are as they were, and the others are not there any more. -/
theorem of_kept
    (hframe : ∀ id, h'.contains id = true → h'.frame? id = h.frame? id)
    (htable : ∀ {env table}, h'.contains env = true → h.methodsTable env = .ok (some table) →
      h'.contains table = true) : h.KeepsTables h' := by
  constructor
  case same => exact fun _ hlive => methodsTable_congr (getLocal_congr (hframe _ hlive) _)
  case fresh =>
    intro env hstale hlive
    rw [Heap.contains, ← hframe env hlive] at hstale
    exact absurd (hstale.symm.trans hlive) Bool.false_ne_true
  case method => exact fun ht hlive _ => getLocal_congr (hframe _ (htable hlive ht)) _

end Heap.KeepsTables

section

variable {s t : Session}

/-- Binding another name than the reserved one, elsewhere than in a table. -/
theorem Heap.KeepsTables.bound (hlive : s.heap.contains env = true)
    (hname : name ≠ methodsTableName) (hother : s.heap.isMethodsTable env = false) (b : Binding) :
    s.heap.KeepsTables (s.bound env name b).heap := by
  have hget := Session.getLocal_bound hlive name b
  have hsame (id : EnvId) : (s.bound env name b).heap.methodsTable id = s.heap.methodsTable id :=
    methodsTable_congr ((hget id _).trans (if_neg fun h => hname h.2.symm))
  constructor
  case same => exact fun _ _ => hsame _
  case fresh =>
    intro id hstale hlive'
    rw [Session.contains_bound hlive] at hlive'
    exact absurd (hstale.symm.trans hlive') Bool.false_ne_true
  case method =>
    intro id table other htable _ _
    rw [hget, if_neg]
    rintro ⟨rfl, -⟩
    exact Bool.false_ne_true (hother.symm.trans (isMethodsTable_of_methodsTable htable))

/-- A new frame has no table, since what fills it is no environment. -/
theorem Heap.KeepsTables.opens {R : Restraint} (hrecorded : s.heap.Recorded log)
    (hopens : s.Opens R t env) : s.heap.KeepsTables t.heap := by
  have hlive : t.heap.contains env = true := hopens.contains
  have hold {id : EnvId} (hid : s.heap.contains id = true) :
      t.heap.frame? id = s.heap.frame? id := by
    refine hopens.others id ?_
    rintro rfl
    exact Bool.false_ne_true (hopens.fresh.symm.trans hid)
  constructor
  case same => exact fun hid _ => methodsTable_congr (getLocal_congr (hold hid) _)
  case fresh =>
    intro id hstale hid
    obtain rfl : id = env := by
      by_contra hne
      rw [Heap.contains, hopens.others id hne] at hid
      exact Bool.false_ne_true (hstale.symm.trans hid)
    obtain ⟨f, hf, hfills⟩ := hopens.frame
    obtain ⟨found, hfound⟩ := exists_methodsTable hid
    cases found with
    | none => exact hfound
    | some table =>
      have hread := methodsTable_eq_some_iff.1 hfound
      rw [getLocal_of_frame? hf, Except.ok.injEq] at hread
      obtain ⟨b, hb, hvalue⟩ := Option.map_eq_some_iff.1 hread
      -- an environment fills a variable of a method only, and none of those has the reserved name
      obtain ⟨formals, -, hfill⟩ := hfills _ _ hb
      exact absurd (hfill.mem_methodVariables hvalue) (by decide)
  case method =>
    exact fun htable _ _ => getLocal_congr (hold (hrecorded.tableLive htable)) _

/-- Collecting frees no table of an environment that it keeps. -/
theorem Heap.KeepsTables.collect {store : PromiseStore} {roots : List EnvId} {values : List Value}
    {freed : Nat} (hwf : h.WellFormed) (hrecorded : h.Recorded log)
    (hcollect : h.collect store roots values = some (freed, h')) : h.KeepsTables h' := by
  have hkept (id : EnvId) (hid : h'.contains id = true) : h'.frame? id = h.frame? id := by
    obtain ⟨f, hf⟩ := Option.isSome_iff_exists.1 hid
    rw [hf, ((hwf.frame?_collect hcollect).1 hf).1]
  refine .of_kept hkept fun {env table} hlive htable => ?_
  obtain ⟨f, hf⟩ := Option.isSome_iff_exists.1 hlive
  obtain ⟨hf₀, hreached⟩ := (hwf.frame?_collect hcollect).1 hf
  have hread := methodsTable_eq_some_iff.1 htable
  rw [getLocal_of_frame? hf₀, Except.ok.injEq] at hread
  obtain ⟨b, hb, hvalue⟩ := Option.map_eq_some_iff.1 hread
  -- the frame mentions its table, which is reached from there
  have hmentions : f.Mentions store table := by
    obtain ⟨before, after, hbindings, -⟩ := List.lookup_eq_some_iff.1 hb
    exact .inr ⟨(methodsTableName, b), by simp [hbindings], by simp [hvalue]⟩
  obtain ⟨g, hg⟩ := Option.isSome_iff_exists.1 (hrecorded.tableLive htable)
  have hg' := (hwf.frame?_collect hcollect).2 ⟨hg, hreached.link hf₀ hmentions⟩
  exact contains_of_frame? hg'

end

end CallByNeed
