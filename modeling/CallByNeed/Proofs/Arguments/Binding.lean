import CallByNeed.Proofs.Arguments.Passing
import Mathlib.Data.List.Pairwise

/-!
# Binding the formals of an invocation

The frame of an invocation is empty when it is filled.  Formals with different tags
are bound there one after the other, so each puts one entry behind those that are
there already (`Session.Gains`), and what it puts there depends on what it was
assigned and on nothing else (`Session.Enrolls`).  Matching is over before the
first entry is made: if it fails, nothing was done
(`SessionM.bindArguments_exact`).
-/

namespace CallByNeed

open Matching SessionM

namespace Assoc

variable {α β : Type} [DecidableEq α]

/-- A new key is put at the end. -/
theorem put_eq_append {key : α} (value : β) {entries : List (α × β)}
    (hnew : key ∉ entries.map Prod.fst) : put key value entries = entries ++ [(key, value)] := by
  induction entries with
  | nil => rfl
  | cons entry rest ih =>
    obtain ⟨hne, hrest⟩ := not_or.1 (List.mem_cons.not.1 hnew)
    rw [put, if_neg (Ne.symm hne), ih hrest]
    rfl

/-- Where no key is there twice, every entry is found. -/
theorem lookup_of_mem {key : α} {value : β} {entries : List (α × β)}
    (hnodup : (entries.map Prod.fst).Nodup) (hmem : (key, value) ∈ entries) :
    entries.lookup key = some value := by
  induction entries with
  | nil => cases hmem
  | cons entry rest ih =>
    obtain ⟨hfirst, hrest⟩ := List.nodup_cons.1 hnodup
    cases hmem with
    | head => simp
    | tail _ hmem =>
      have hne : key ≠ entry.1 := fun he => hfirst (he ▸ List.mem_map_of_mem hmem)
      have h' : (key == entry.1) = false := by simpa using hne
      rw [List.lookup_cons, h']
      exact ih hrest hmem

theorem mem_of_lookup {key : α} {value : β} {entries : List (α × β)}
    (hlookup : entries.lookup key = some value) : (key, value) ∈ entries := by
  obtain ⟨before, after, rfl, -⟩ := List.lookup_eq_some_iff.1 hlookup
  exact List.mem_append_right _ List.mem_cons_self

end Assoc

namespace Session

variable {s t u : Session} {env : EnvId}

/-- The entry is for a default expression, and its promise is new. -/
def Defers (s t : Session) (b : Binding) : Prop :=
  ∃ id p, b.value = .promise id ∧ s.promises.get? id = none ∧ t.promises.get? id = some p

/-- The frame has these entries more, at its end; no other frame, count or promise is another.  Each
    entry for a default has a promise of its own. -/
structure Gains (s t : Session) (env : EnvId) (entries : List (Symbol × Binding)) : Prop where
  frame : ∀ f, s.heap.frame? env = some f →
    t.heap.frame? env = some ⟨f.bindings ++ entries, f.parent⟩
  others : ∀ id, id ≠ env → t.heap.frame? id = s.heap.frame? id
  live : t.heap.live = s.heap.live
  cells : s.KeepsCells t
  defers : ∀ entry ∈ entries, entry.2.defaultArg = true → s.Defers t entry.2
  apart : entries.Pairwise fun entry later =>
    entry.2.defaultArg = true → later.2.defaultArg = true → entry.2.value ≠ later.2.value

theorem KeepsCells.fresh (h : s.KeepsCells t) {id : PromiseId}
    (hnone : t.promises.get? id = none) : s.promises.get? id = none := by
  cases hp : s.promises.get? id with
  | none => rfl
  | some p => cases hnone.symm.trans (h hp)

theorem Defers.within {s' t' : Session} {b : Binding} (hs : s.KeepsCells s')
    (ht : t.KeepsCells t') (h : s'.Defers t b) : s.Defers t' b := by
  obtain ⟨id, p, hvalue, hnew, hp⟩ := h
  exact ⟨id, p, hvalue, hs.fresh hnew, ht hp⟩

namespace Gains

variable {entries later : List (Symbol × Binding)}

/-- No two entries for defaults have one promise. -/
theorem unshared {entry other : Symbol × Binding} (h : s.Gains t env entries)
    (hentry : entry ∈ entries) (hother : other ∈ entries) (hd : entry.2.defaultArg = true)
    (hd' : other.2.defaultArg = true) (hvalue : entry.2.value = other.2.value) : entry = other := by
  by_contra hne
  have : Std.Symm fun entry later : Symbol × Binding =>
      entry.2.defaultArg = true → later.2.defaultArg = true → entry.2.value ≠ later.2.value :=
    ⟨fun _ _ hapart hd hd' he => hapart hd' hd he.symm⟩
  exact h.apart.forall hentry hother hne hd hd' hvalue

theorem refl (s : Session) (env : EnvId) : s.Gains s env [] :=
  ⟨fun f hf => by rw [hf, List.append_nil], fun _ _ => rfl, rfl, fun _ _ => id, nofun, .nil⟩

theorem trans (h₁ : s.Gains t env entries) (h₂ : t.Gains u env later) :
    s.Gains u env (entries ++ later) := by
  constructor
  case frame =>
    intro f hf
    rw [h₂.frame _ (h₁.frame f hf), List.append_assoc]
  case others => exact fun id hid => (h₂.others id hid).trans (h₁.others id hid)
  case live => exact h₂.live.trans h₁.live
  case cells => exact fun _ _ hp => h₂.cells (h₁.cells hp)
  case defers =>
    intro entry hentry hdefault
    obtain hentry | hentry := List.mem_append.1 hentry
    · exact (h₁.defers entry hentry hdefault).within (fun _ _ => id) h₂.cells
    · exact (h₂.defers entry hentry hdefault).within h₁.cells fun _ _ => id
  case apart =>
    refine List.pairwise_append.2
      ⟨h₁.apart, h₂.apart, fun entry hentry other hother hd hd' he => ?_⟩
    -- the promise of the first entry was there when the second one was made
    obtain ⟨id, p, hid, -, hp⟩ := h₁.defers entry hentry hd
    obtain ⟨id', p', hid', hnew, -⟩ := h₂.defers other hother hd'
    obtain rfl : id = id' := Value.promise.inj (hid.symm.trans (he.trans hid'))
    cases hnew.symm.trans hp

/-- A name that was not bound is bound, maybe to a promise that was just made. -/
theorem bound {f : Frame} {name : Symbol} {b : Binding} (hadds : s.AddsPromises t)
    (hf : s.heap.frame? env = some f) (hnew : name ∉ f.bindings.map Prod.fst)
    (hdefers : b.defaultArg = true → s.Defers t b) :
    s.Gains (t.bound env name b) env [(name, b)] := by
  have hft : t.heap.frame? env = some f := by rw [hadds.heap, hf]
  have hlive : t.heap.contains env = true := Heap.contains_of_frame? hft
  constructor
  case frame =>
    intro g hg
    cases hf.symm.trans hg
    rw [frame?_bound hlive, if_pos rfl, hft, Option.map_some, Frame.bind,
      Assoc.put_eq_append b hnew]
  case others =>
    intro id hid
    rw [frame?_bound hlive, if_neg hid, hadds.heap]
  case live =>
    change t.heap.live = s.heap.live
    rw [hadds.heap]
  case cells => exact hadds.cells
  case defers =>
    intro entry hentry hdefault
    cases List.mem_singleton.1 hentry
    exact hdefers hdefault
  case apart => exact List.pairwise_singleton _ _

end Gains

/-- What a formal that got `v` is bound to: `v`, or a new promise of its default expression in the
    frame of the invocation, if it got nothing and has a default. -/
def Enrolls (s t : Session) (env : EnvId) (default v : Value) (b : Binding) : Prop :=
  if v.isMissingArg && !default.isMissingArg then
    ∃ id, b = ⟨.promise id, true⟩ ∧ s.promises.get? id = none ∧
      t.promises.get? id = some ⟨default, .waiting env false⟩
  else b = ⟨v, false⟩

theorem Enrolls.within {s' t' : Session} {default v : Value} {b : Binding}
    (hs : s.KeepsCells s') (ht : t.KeepsCells t') (h : s'.Enrolls t env default v b) :
    s.Enrolls t' env default v b := by
  unfold Enrolls at h
  split at h
  · rename_i hdefault
    obtain ⟨id, hb, hnew, hp⟩ := h
    rw [Enrolls, if_pos hdefault]
    exact ⟨id, hb, hs.fresh hnew, ht hp⟩
  · rename_i hdefault
    rwa [Enrolls, if_neg hdefault]

theorem Enrolls.defers {default v : Value} {b : Binding} (h : s.Enrolls t env default v b)
    (hdefault : b.defaultArg = true) : s.Defers t b := by
  unfold Enrolls at h
  split at h
  · obtain ⟨id, rfl, hnew, hp⟩ := h
    exact ⟨id, _, rfl, hnew, hp⟩
  · subst h
    cases hdefault

theorem Enrolls.of_default {default v : Value} {b : Binding} (h : s.Enrolls t env default v b)
    (hv : v = .missingArg) (hdefault : default ≠ .missingArg) :
    ∃ id, b = ⟨.promise id, true⟩ ∧ s.promises.get? id = none ∧
      t.promises.get? id = some ⟨default, .waiting env false⟩ := by
  have hdefers : (v.isMissingArg && !default.isMissingArg) = true := by
    rw [hv, Value.isMissingArg_missingArg, Bool.true_and, Bool.not_eq_true', ← Bool.not_eq_true,
      Value.isMissingArg_iff]
    exact hdefault
  rwa [Enrolls, if_pos hdefers] at h

theorem Enrolls.of_value {default v : Value} {b : Binding} (h : s.Enrolls t env default v b)
    (hkeeps : v ≠ .missingArg ∨ default = .missingArg) : b = ⟨v, false⟩ := by
  have hkeeps' : ¬ (v.isMissingArg && !default.isMissingArg) = true := by
    rw [Bool.and_eq_true, Value.isMissingArg_iff, Bool.not_eq_true', ← Bool.not_eq_true,
      Value.isMissingArg_iff]
    exact fun hboth => hkeeps.elim (fun hv => hv hboth.1) hboth.2
  rwa [Enrolls, if_neg hkeeps'] at h

end Session

open Session

namespace SessionM

variable {s : Session} {env : EnvId} {f : Frame}

/-! ## Filling a frame -/

/-- One formal puts one entry into the frame, or none if it has no tag. -/
theorem bindFormal_gains (hf : s.heap.frame? env = some f) (formal : Arg Value) (v : Value)
    (hnew : ∀ name, formal.tag = some name → name ∉ f.bindings.map Prod.fst) :
    ∃ t entries, bindFormal env formal v s = (.ok (), t) ∧ s.Gains t env entries ∧
      entries.map Prod.fst = formal.tag.toList ∧
      ∀ entry ∈ entries, s.Enrolls t env formal.value v entry.2 := by
  have hlive : s.heap.contains env = true := Heap.contains_of_frame? hf
  unfold bindFormal
  cases htag : formal.tag with
  | none => exact ⟨s, [], rfl, .refl s env, rfl, fun _ h => absurd h List.not_mem_nil⟩
  | some name =>
    -- one entry is bound, after a promise was made for it or not
    have hentry {t : Session} {b : Binding} (hadds : s.AddsPromises t)
        (hb : s.Enrolls t env formal.value v b) {act : SessionM Unit}
        (hrun : act s = (.ok (), t.bound env name b)) :
        ∃ t entries, act s = (.ok (), t) ∧ s.Gains t env entries ∧
          entries.map Prod.fst = (some name).toList ∧
          ∀ entry ∈ entries, s.Enrolls t env formal.value v entry.2 := by
      refine ⟨_, _, hrun, .bound hadds hf (hnew name htag) hb.defers, rfl, fun entry hentry => ?_⟩
      cases List.mem_singleton.1 hentry
      exact hb
    dsimp only
    split
    · rename_i hdefault
      obtain ⟨id, u, hpromise, hadds, hfresh, hp⟩ :=
        newPromise_run formal.value (.waiting env false) s
      have hbind := onHeap_modifyFrame env name ⟨.promise id, true⟩ u
      rw [hadds.heap, if_pos hlive] at hbind
      refine hentry hadds ?_ ((bind_run_ok hpromise _).trans hbind)
      rw [Enrolls, if_pos hdefault]
      exact ⟨id, rfl, hfresh, hp⟩
    · rename_i hdefault
      have hbind := bindIn_run env name v s
      rw [if_pos hlive] at hbind
      refine hentry (.refl s) ?_ hbind
      rw [Enrolls, if_neg hdefault]

/-- The formals put their entries into the frame in order. -/
theorem bindFormals_gains (hf : s.heap.frame? env = some f) (pairs : List (Arg Value × Arg Value))
    (hnodup : (f.bindings.map Prod.fst ++ pairs.filterMap (·.1.tag)).Nodup) :
    ∃ t entries,
      (pairs.forM fun (formal, arg) => bindFormal env formal arg.value : SessionM PUnit) s =
        (.ok (), t) ∧ s.Gains t env entries ∧
      entries.map Prod.fst = pairs.filterMap (·.1.tag) ∧
      ∀ pair ∈ pairs, ∀ name, pair.1.tag = some name →
        ∃ b, (name, b) ∈ entries ∧ s.Enrolls t env pair.1.value pair.2.value b := by
  induction pairs generalizing s f with
  | nil => exact ⟨s, [], rfl, .refl s env, rfl, nofun⟩
  | cons first rest ih =>
    have hcons : (first :: rest).filterMap (·.1.tag) =
        first.1.tag.toList ++ rest.filterMap (·.1.tag) := by
      cases htag : first.1.tag <;> simp [htag]
    rw [hcons] at hnodup ⊢
    have hnew (name : Symbol) (htag : first.1.tag = some name) :
        name ∉ f.bindings.map Prod.fst := by
      obtain ⟨-, -, hapart⟩ := List.nodup_append.1 hnodup
      exact fun hmem => hapart name hmem name (by simp [htag]) rfl
    obtain ⟨u, entries, hfirst, hgains, hkeys, henrolls⟩ :=
      bindFormal_gains hf first.1 first.2.value hnew
    have hnodup' : ((f.bindings ++ entries).map Prod.fst ++ rest.filterMap (·.1.tag)).Nodup := by
      rw [List.map_append, hkeys, List.append_assoc]
      exact hnodup
    -- the other formals start from the frame with the first entry in it
    obtain ⟨t, later, hrest, hgains', hkeys', henrolls'⟩ := ih (hgains.frame f hf) hnodup'
    refine ⟨t, entries ++ later, (bind_run_ok hfirst _).trans hrest, hgains.trans hgains', ?_, ?_⟩
    · rw [List.map_append, hkeys, hkeys']
    · intro pair hpair name htag
      obtain rfl | hpair := List.mem_cons.1 hpair
      · have hname : name ∈ entries.map Prod.fst := by simp [hkeys, htag]
        obtain ⟨entry, hentry, rfl⟩ := List.mem_map.1 hname
        exact ⟨entry.2, List.mem_append_left _ hentry,
          (henrolls entry hentry).within (fun _ _ => id) hgains'.cells⟩
      · obtain ⟨b, hb, henrolls⟩ := henrolls' pair hpair name htag
        exact ⟨b, List.mem_append_right _ hb, henrolls.within hgains.cells fun _ _ => id⟩

end SessionM

/-! ## Formals and what they were assigned -/

namespace Matching

variable {formals actuals : ArgList} {σ : Nat → Option Nat} {i : Nat}

/-- The formal got no argument, or the missing sentinel.  The first `...` always gets something: the
    list of what was left. -/
def Omitted (formals actuals : ArgList) (σ : Nat → Option Nat) (i : Nat) : Prop :=
  ¬ IsEllipsis formals i ∧ ∀ a actual, σ i = some a → actuals[a]? = some actual →
    actual.value = .missingArg

theorem omitted_iff : Omitted formals actuals σ i ↔ assigned formals actuals σ i = .missingArg := by
  -- the ellipsis is never omitted, and what it collects is never the sentinel
  by_cases hellipsis : IsEllipsis formals i
  · simp [Omitted, assigned, hellipsis, Value.missingArg]
  · rw [Omitted, assigned, if_neg hellipsis, and_iff_right hellipsis]
    cases hactual : (σ i).bind (actuals[·]?) with
    | none =>
      refine iff_of_true (fun a actual ha hactual' => ?_) rfl
      rw [ha, Option.bind_some, hactual'] at hactual
      cases hactual
    | some actual =>
      obtain ⟨a, ha, hactual⟩ := Option.bind_eq_some_iff.1 hactual
      refine ⟨fun h => h a actual ha hactual, fun h a' actual' ha' hactual' => ?_⟩
      cases ha.symm.trans ha'
      cases hactual.symm.trans hactual'
      exact h

theorem filterMap_tag_zip {matched : ArgList} (hlength : formals.length ≤ matched.length) :
    (formals.zip matched).filterMap (·.1.tag) = formals.filterMap Arg.tag := by
  calc (formals.zip matched).filterMap (·.1.tag)
    _ = ((formals.zip matched).map Prod.fst).filterMap Arg.tag := by
      rw [List.filterMap_map]
      rfl
    _ = formals.filterMap Arg.tag := by rw [List.map_fst_zip hlength]

/-- Among different tags there is one `...` at most, which is the first. -/
theorem isEllipsis_of_nodup (hdistinct : (formals.filterMap Arg.tag).Nodup) {formal : Arg Value}
    (hformal : formals[i]? = some formal) (htag : formal.tag = some .ellipsis) :
    IsEllipsis formals i := by
  refine ⟨(tagAt_of_getElem? hformal).trans htag, fun j hj hearlier => ?_⟩
  obtain ⟨earlier, hmem, htag'⟩ := Option.bind_eq_some_iff.1 hearlier
  -- an earlier one would have the same tag in the part before `i`
  rw [← List.take_append_drop i formals, List.filterMap_append] at hdistinct
  obtain ⟨-, -, hapart⟩ := List.nodup_append.1 hdistinct
  have hbefore : earlier ∈ formals.take i :=
    List.mem_of_getElem? ((List.getElem?_take_of_lt hj).trans hmem)
  have hhere : formal ∈ formals.drop i := by
    refine List.mem_of_getElem? (i := 0) ?_
    rw [List.getElem?_drop, Nat.add_zero, hformal]
  exact hapart _ (List.mem_filterMap.2 ⟨earlier, hbefore, htag'⟩) _
    (List.mem_filterMap.2 ⟨formal, hhere, htag⟩) rfl

end Matching

namespace SessionM

variable {s : Session} {env : EnvId} {formals : ArgList} {parent : Option EnvId}

/-- Formals with different tags are bound in an empty frame as they are matched: each is bound once,
    to what it was assigned, or, if it got no argument or the missing sentinel and has a default, to
    a new promise of the default in this frame.  No formal called `...` is bound to a default.
    Other frames, their number and other promises stay as they are, and if matching fails nothing is
    done at all. -/
theorem bindArguments_exact (hempty : s.heap.frame? env = some (.empty parent))
    (hdistinct : (formals.filterMap Arg.tag).Nodup) (actuals : ArgList) :
    (∀ e, matchFormals formals actuals true = .error e →
      bindArguments formals actuals env s = (.error (.failure e), s)) ∧
    ∀ matched, matchFormals formals actuals true = .ok matched →
      ∃ σ t f, Assigns formals actuals σ ∧ bindArguments formals actuals env s = (.ok (), t) ∧
        t.heap.frame? env = some f ∧ f.parent = parent ∧
        f.bindings.map Prod.fst = formals.filterMap Arg.tag ∧
        (∀ i formal name, formals[i]? = some formal → formal.tag = some name →
          ∃ arg, matched[i]? = some arg ∧ arg.value = assigned formals actuals σ i ∧
            (Omitted formals actuals σ i → formal.value ≠ .missingArg →
              ∃ id, f.get? name = some ⟨.promise id, true⟩ ∧ s.promises.get? id = none ∧
                t.promises.get? id = some ⟨formal.value, .waiting env false⟩) ∧
            (¬ Omitted formals actuals σ i ∨ formal.value = .missingArg →
              f.get? name = some ⟨arg.value, false⟩) ∧
            (name = .ellipsis → ¬ Omitted formals actuals σ i)) ∧
        (∀ name other id, f.get? name = some ⟨.promise id, true⟩ →
          f.get? other = some ⟨.promise id, true⟩ → name = other) ∧
        (∀ id, id ≠ env → t.heap.frame? id = s.heap.frame? id) ∧
        t.heap.live = s.heap.live ∧ s.KeepsCells t := by
  constructor
  · intro e hfails
    rw [bindArguments, hfails, ofExcept_error]
    exact bind_run_error (fail_run e s) _
  · intro matched hmatched
    obtain ⟨σ, hσ, hresult⟩ := exists_assigned hmatched
    have htags := filterMap_tag_zip (show formals.length ≤ matched.length by simp [hresult])
    obtain ⟨t, entries, hrun, hgains, hkeys, henrolls⟩ :=
      bindFormals_gains hempty (formals.zip matched) (by rw [htags]; exact hdistinct)
    rw [htags] at hkeys
    have hframe : t.heap.frame? env = some ⟨entries, parent⟩ := hgains.frame _ hempty
    have hget {name : Symbol} {b : Binding} (hb : (name, b) ∈ entries) :
        (⟨entries, parent⟩ : Frame).get? name = some b :=
      Assoc.lookup_of_mem (hkeys ▸ hdistinct) hb
    refine ⟨σ, t, ⟨entries, parent⟩, hσ, ?_, hframe, rfl, hkeys,
      fun i formal name hformal htag => ?_, fun name other id hname hother => ?_, hgains.others,
      hgains.live, hgains.cells⟩
    · rw [bindArguments, hmatched, ofExcept_ok, pure_bind]
      exact hrun
    · have harg : matched[i]? = some (Arg.new formal.tag (assigned formals actuals σ i)) := by
        simp [hresult, hformal]
      have hpair : (formal, Arg.new formal.tag (assigned formals actuals σ i)) ∈
          formals.zip matched :=
        List.mem_of_getElem? (List.getElem?_zip_eq_some.2 ⟨hformal, harg⟩)
      obtain ⟨b, hb, henrolls⟩ := henrolls _ hpair name htag
      change s.Enrolls t env formal.value (assigned formals actuals σ i) b at henrolls
      refine ⟨_, harg, rfl, fun homitted hdefault => ?_, fun hother => ?_, ?_⟩
      · obtain ⟨id, rfl, hnew, hp⟩ := henrolls.of_default (omitted_iff.1 homitted) hdefault
        exact ⟨id, hget hb, hnew, hp⟩
      · rw [omitted_iff] at hother
        cases henrolls.of_value hother
        exact hget hb
      · rintro rfl homitted
        exact homitted.1 (isEllipsis_of_nodup hdistinct hformal htag)
    · exact congrArg Prod.fst
        (hgains.unshared (Assoc.mem_of_lookup hname) (Assoc.mem_of_lookup hother) rfl rfl rfl)

/-- `function(x, y = x)` gets one argument: `x` is bound to it, and `y` to a promise of its default.
    With an argument too many nothing is bound. -/
theorem bindArguments_exact_default :
    let formals : ArgList := [.tagged ⟨"x"⟩ .missingArg, .tagged ⟨"y"⟩ (.symbol ⟨"x"⟩)]
    let env : EnvId := ⟨2, 0⟩
    let s := (allocate none (Session.initial {} .empty)).2
    let arg : Arg Value := .untagged .null
    s.heap.frame? env = some (.empty none) ∧ (formals.filterMap Arg.tag).Nodup ∧
    (∃ t f id, bindArguments formals [arg] env s = (.ok (), t) ∧ t.heap.frame? env = some f ∧
      f.bindings.map Prod.fst = [⟨"x"⟩, ⟨"y"⟩] ∧ f.get? ⟨"x"⟩ = some ⟨.null, false⟩ ∧
      f.get? ⟨"y"⟩ = some ⟨.promise id, true⟩ ∧
      t.promises.get? id = some ⟨.symbol ⟨"x"⟩, .waiting env false⟩) ∧
    bindArguments formals [arg, arg, arg] env s =
      (.error (.failure (.unusedArgument none 2)), s) := by
  intro formals env s arg
  have hempty : s.heap.frame? env = some (.empty none) := rfl
  have hdistinct : (formals.filterMap Arg.tag).Nodup := by decide
  have hmatched : matchFormals formals [arg] true =
      .ok [.tagged ⟨"x"⟩ .null, .tagged ⟨"y"⟩ .missingArg] := by rfl
  obtain ⟨-, hbinds⟩ := bindArguments_exact hempty hdistinct [arg]
  obtain ⟨σ, t, f, -, hrun, hframe, -, hkeys, hbound, -⟩ := hbinds _ hmatched
  obtain ⟨given, hgiven, hx, -, hgets, -⟩ := hbound 0 _ ⟨"x"⟩ rfl rfl
  obtain ⟨missing, hmissing, hy, hdefault, -⟩ := hbound 1 _ ⟨"y"⟩ rfl rfl
  cases hgiven
  cases hmissing
  have hkeeps : ¬ Omitted formals [arg] σ 0 := by
    rw [omitted_iff, ← hx]
    exact nofun
  have hexpr : Value.symbol ⟨"x"⟩ ≠ .missingArg := fun h => absurd (Value.symbol.inj h) (by decide)
  obtain ⟨id, hid, -, hp⟩ := hdefault (omitted_iff.2 hy.symm) hexpr
  exact ⟨hempty, hdistinct, ⟨t, f, id, hrun, hframe, hkeys, hgets (.inl hkeeps), hid, hp⟩,
    (bindArguments_exact hempty hdistinct [arg, arg, arg]).1 _ rfl⟩

end SessionM

end CallByNeed
