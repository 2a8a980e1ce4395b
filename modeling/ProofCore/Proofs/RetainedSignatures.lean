import ProofCore.Proofs.Deliveries
import ProofCore.Proofs.Discipline
import ProofCore.Proofs.ErrorAccounting
import ProofCore.Proofs.ModuleRun

/-!
# Signatures that a failed component leaves behind

Both the session and the scope checker keep the signatures that were accepted, and while a component
is checked they learn the same ones. If the component fails, then only the session forgets them. The
checker goes on to accept references to them. In the check of a module there is nothing to forget:
a signature has a component of its own there, and the components of bodies come later.
-/
namespace ProofCore

open DependencyGraph (ofModule)

variable {ρ : Type}

namespace Session

variable {s t u : Session ScopeState ρ} {new new' : List DefId}

/-- From `s` to `t` the session and the scope checker have learned the same signatures. -/
structure InStep (s t : Session ScopeState ρ) (new : List DefId) : Prop where
  learns : s.Learns t new
  known : t.checker.headers = s.checker.headers ++ new

namespace InStep

theorem refl (s : Session ScopeState ρ) : s.InStep s [] := ⟨.refl s, (List.append_nil _).symm⟩

theorem trans (h : s.InStep t new) (h' : t.InStep u new') : s.InStep u (new ++ new') := by
  refine ⟨h.learns.trans h'.learns, ?_⟩
  rw [h'.known, h.known, List.append_assoc]

theorem reportAll (h : s.InStep t new) (ds : List Diagnostic) : s.InStep (t.reportAll ds) new := by
  refine ⟨h.learns.reportAll ds, ?_⟩
  rw [((SameState.refl t).reportAll ds).checker, h.known]

end InStep

end Session

namespace CheckM

variable {α β : Type} {ids : List DefId}

/-- Begun with nothing counted, the check keeps the session and the scope checker in step, and what
they learn is among `ids`. -/
def InStep (x : CheckM ScopeState ρ α) (ids : List DefId) : Prop :=
  ∀ s r t, x.run s = some (r, t) → s.tally.errors = 0 → ∃ new, new ⊆ ids ∧ s.InStep t new

namespace InStep

theorem pure (a : α) : InStep (Pure.pure a : CheckM ScopeState ρ α) ids := by
  intro s r t h _
  cases h
  exact ⟨[], by simp, .refl s⟩

/-- The second check begins with nothing counted, since the first one has not failed. -/
theorem bind {x : CheckM ScopeState ρ α} {f : α → CheckM ScopeState ρ β} (hx : InStep x ids)
    (hcount : Accounted x) (hf : ∀ a, InStep (f a) ids) : InStep (x >>= f) ids := by
  intro s r t h hs
  rcases run_bind_cases h with ⟨a, t₀, hfirst, hnext⟩ | ⟨e, hfirst, -⟩
  · obtain ⟨diags, hpasses, hfails⟩ := hcount s _ t₀ hfirst hs
    have hclean : Diagnostic.hasErrors diags = false := by simpa using hfails
    obtain ⟨new, hnew, hstep⟩ := hx s _ t₀ hfirst hs
    obtain ⟨new', hnew', hstep'⟩ := hf a t₀ r t hnext (hpasses.errors_eq_zero hs hclean)
    exact ⟨new ++ new', List.append_subset.mpr ⟨hnew, hnew'⟩, hstep.trans hstep'⟩
  · exact hx s _ t hfirst hs

theorem mapM {f : α → CheckM ScopeState ρ β} {xs : List α} (hf : ∀ a ∈ xs, InStep (f a) ids)
    (hcount : ∀ a, Accounted (f a)) : InStep (xs.mapM f) ids := by
  have hboth : InStep (xs.mapM f) ids ∧ Accounted (xs.mapM f) := by
    refine mapM_of_rel (R := fun x _ => InStep x ids ∧ Accounted x) (fun a => ⟨pure a, .pure a⟩)
      (fun hx hg => ?_) (g := f) fun a ha => ⟨hf a ha, hcount a⟩
    exact ⟨hx.1.bind hx.2 fun a => (hg a).1, hx.2.bind fun a => (hg a).2⟩
  exact hboth.1

end InStep

end CheckM

/-- The scope checker notes a signature if it has no errors to report. -/
theorem headers_scopeChecker (k : ScopeState) (d : Decl) :
    (scopeChecker.header k d).1.headers =
      if Diagnostic.hasErrors (scopeChecker.header k d).2 then k.headers
      else k.headers ++ [d.id] := by
  cases hfaults : k.headerFaults d <;>
    simp [scopeChecker, hfaults, Diagnostic.hasErrors, Diagnostic.isError, Fault.diagnostic]

namespace Setup

open CheckM

variable {c : Setup ScopeState ρ} {s t : Session ScopeState ρ} {ids : List DefId}

theorem inStep_fail {α : Type} (units : List CheckUnit) (f : Fault) :
    InStep (fail units f : CheckM ScopeState ρ α) ids := by
  intro s r t h _
  cases h
  exact ⟨[], by simp, (Session.InStep.refl s).reportAll [f.diagnostic]⟩

theorem inStep_declOf_bind {α : Type} {u : CheckUnit} {f : Decl → CheckM ScopeState ρ α}
    (hf : ∀ d : Decl, d.id = u.id → InStep (f d) ids) : InStep (c.declOf u >>= f) ids := by
  unfold declOf
  split
  · rename_i d hd
    rw [pure_bind]
    exact hf d (Module.id_of_get? hd)
  · rw [fail_bind]
    exact inStep_fail _ _

section Examination

variable (hc : c.checker = scopeChecker)
include hc

theorem inStep_checkHeader (u : CheckUnit) {d : Decl} (hd : d.id ∈ ids) :
    InStep (c.checkHeader u d) ids := by
  intro s r t h hs
  have hasked : s.PassesOn (c.askHeader s d) (c.checker.header s.checker d).2 :=
    s.passesOn_ask _ _
  have hknown : (c.askHeader s d).checker.headers =
      if Diagnostic.hasErrors (c.checker.header s.checker d).2 then s.checker.headers
      else s.checker.headers ++ [d.id] := by
    rw [askHeader, Session.checker_ask, hc]
    exact headers_scopeChecker s.checker d
  rcases checkHeader_cases h with ⟨-, -, rfl⟩ | ⟨-, hbad, -, rfl⟩ | ⟨hnew, hgood, -, rfl⟩
  · exact ⟨[], by simp, .refl t⟩
  · rw [if_pos ((hasked.anyError_iff hs).mp hbad)] at hknown
    exact ⟨[], by simp, s.learns_ask _ _, hknown.trans (List.append_nil _).symm⟩
  · rw [if_neg fun herror => by simp [(hasked.anyError_iff hs).mpr herror] at hgood] at hknown
    exact ⟨[d.id], by simpa using hd, learns_know hnew, hknown⟩

theorem inStep_checkBody (u : CheckUnit) (d : Decl) : InStep (c.checkBody u d) ids := by
  intro s r t h _
  have hasked : s.InStep (c.askBody s d) [] := by
    refine ⟨s.learns_ask _ _, ?_⟩
    rw [askBody, Session.checker_ask, hc, (scopeChecker_body s.checker d).1, List.append_nil]
  rcases checkBody_cases h with ⟨-, -, rfl⟩ | ⟨-, _, -, -, rfl⟩ | ⟨-, -, rfl⟩
  · exact ⟨[], by simp, hasked⟩
  · exact ⟨[], by simp, hasked⟩
  · exact ⟨[], by simp, hasked.reportAll [_]⟩

theorem inStep_examineUnit {u : CheckUnit} (hu : u.id ∈ ids) : InStep (c.examineUnit u) ids := by
  refine inStep_declOf_bind fun d hd => ?_
  have hheader : InStep (c.checkHeader u d) ids := inStep_checkHeader hc u (hd ▸ hu)
  split
  · split
    · exact inStep_fail _ _
    · exact hheader.bind (accounted_checkHeader u d) fun _ => .pure []
  · split
    · exact inStep_fail _ _
    · refine hheader.bind (accounted_checkHeader u d) fun _ => ?_
      exact (inStep_checkBody hc u d).bind (accounted_checkBody u d) fun result =>
        .pure [(d, result)]

theorem inStep_examineGroup {members : List DefId} (hmembers : members ⊆ ids) :
    InStep (c.examineGroup members) ids := by
  have hcount : ∀ id, Accounted (do
      let d ← c.declOf (.body id)
      c.checkHeader (.body id) d
      return d) := fun id =>
    (accounted_declOf (.body id)).bind fun d =>
      (accounted_checkHeader (.body id) d).bind fun _ => .pure d
  refine InStep.bind (.mapM (fun id hid => ?_) hcount) (.mapM hcount members) fun decls =>
    .mapM (fun d _ => ?_) fun d => ?_
  · refine inStep_declOf_bind fun d hd => ?_
    have hmem : d.id ∈ ids := hd ▸ hmembers hid
    exact (inStep_checkHeader hc _ hmem).bind (accounted_checkHeader _ d) fun _ => .pure d
  · exact (inStep_checkBody hc _ d).bind (accounted_checkBody _ d) fun result => .pure (d, result)
  · exact (accounted_checkBody _ d).bind fun result => .pure (d, result)

theorem inStep_examine (group : List CheckUnit) :
    InStep (c.examine group) (group.map CheckUnit.id) := by
  have hids : c.declIds group ⊆ group.map CheckUnit.id := by
    intro id hid
    rcases mem_declIds_iff.mp hid with hu | hu <;> exact List.mem_map.mpr ⟨_, hu, rfl⟩
  unfold examine
  split
  · exact .pure []
  · exact inStep_examineUnit hc (by simp)
  · split
    · exact inStep_fail _ _
    · split
      · rename_i id hone
        exact inStep_examineUnit hc (hids (by simp [hone, CheckUnit.id]))
      · exact inStep_examineGroup hc hids

/-- The session and the checker are in step when a component fails. -/
theorem inStep_of_checkMembers_error {group : List CheckUnit} {failure : Failure}
    (hs : s.tally.errors = 0) (h : (c.checkMembers group).run s = some (.error failure, t)) :
    ∃ new, new ⊆ group.map CheckUnit.id ∧ s.InStep t new := by
  rw [checkMembers_eq] at h
  rcases run_bind_cases h with ⟨pending, t₀, hexamine, hconclude⟩ | ⟨e, hexamine, -⟩
  · obtain ⟨new, hnew, hstep⟩ := inStep_examine hc group s _ t₀ hexamine hs
    rcases concluded_conclude hconclude with ⟨hok, -⟩ | ⟨_, calls, ids, -, rfl⟩
    · cases hok
    · exact ⟨new, hnew, hstep.reportAll _⟩
  · exact inStep_examine hc group s _ t hexamine hs

/-- What the session has forgotten when a component has failed, the checker still knows. -/
theorem checkComponent_error_keeps {group : List CheckUnit} {failure : Failure} (hs : c.Reached s)
    (h : c.checkComponent group s = some (.error failure, t)) :
    ∃ u, (c.checkMembers group).run { s with fresh := [] } = some (.error failure, u) ∧
      u.headers = s.headers ++ u.fresh ∧ t.headers = s.headers ∧
      t.checker.headers = s.checker.headers ++ u.fresh ∧
      ∀ id ∈ u.fresh, id ∈ group.map CheckUnit.id ∧ id ∉ s.headers := by
  obtain ⟨⟨r, u⟩, hrun, hend⟩ := Option.bind_eq_some_iff.mp h
  cases r with
  | ok a => cases hend
  | error e =>
    cases hend
    have hzero : ({ s with fresh := [] } : Session ScopeState ρ).tally.errors = 0 :=
      hs.errors_eq_zero
    obtain ⟨new, hnew, hstep⟩ := inStep_of_checkMembers_error hc hzero hrun
    have hfresh : u.fresh = new := hstep.learns.fresh
    subst hfresh
    exact ⟨u, hrun, hstep.learns.headers, hstep.learns.headers_rollback rfl, hstep.known,
      fun id hid => ⟨hnew hid, hstep.learns.new_notMem id hid⟩⟩

end Examination

end Setup

namespace Module

variable {m : Module} {fuel stack : ℕ}

/-- In the check of a module, a component that fails has had no signature accepted. -/
theorem knows_of_failed {earlier rest : List (List CheckUnit)} {group : List CheckUnit}
    {q : Progress ScopeState Shapes} {failure : Failure} {t : Session ScopeState Shapes}
    (split : (ofModule m).components = earlier ++ group :: rest)
    (turns : earlier.foldlM ((m.setup stack).step true)
      { session := m.freshSession fuel } = some q)
    (clear : (ofModule m).dependsOnAny group q.poisoned = false)
    (failed : (m.setup stack).checkComponent group q.session = some (.error failure, t))
    (id : DefId) : t.checker.knows id = q.session.checker.knows id := by
  have hsound : q.Sound fuel m earlier.flatten :=
    foldlM_of_stage Progress.Sound.step [] (Progress.Sound.start fuel m) split turns
  have stage := stage_of_split split
  have hclear : Clear fuel m group := by
    by_contra hblocked
    rw [(hsound.dependsOnAny_iff stage).mpr hblocked] at clear
    cases clear
  obtain ⟨hafter, hverdict⟩ := stage.reflects_checkComponent hclear hsound.session failed
  rcases hverdict with ⟨-, hok⟩ | ⟨hreject, -⟩
  · cases hok
  · rw [ScopeState.knows, ScopeState.knows, decide_eq_decide, hafter.known, hsound.session.known,
      List.mem_append]
    constructor
    · rintro ⟨hdone | hmem, hacc⟩
      · exact ⟨hdone, hacc⟩
      · exact absurd hacc (hreject _ hmem)
    · exact fun hknown => ⟨.inl hknown.1, hknown.2⟩

end Module

namespace Setup

/-- A constant with a good signature and a faulty body. -/
def flawed : Module := .ofDecls [constant ⟨1⟩ (.bound 0)]

/-- The body is checked before the signature has had a turn of its own. -/
theorem checkComponent_flawed :
    ∃ failure t, (flawed.setup 10).checkComponent [.body ⟨1⟩] (flawed.freshSession 4096) =
        some (.error failure, t) ∧
      t.checker.headers = [⟨1⟩] := by
  have hfails : ((flawed.setup 10).checkComponent [.body ⟨1⟩] (flawed.freshSession 4096)).any
      (fun x => x.1.toOption.isNone ∧ x.2.checker.headers = [⟨1⟩]) = true := by decide +kernel
  obtain ⟨⟨r, t⟩, hcheck, hx⟩ := (Option.any_eq_true _ _).mp hfails
  obtain ⟨hnone, hheaders⟩ := of_decide_eq_true hx
  cases r with
  | ok a => cases hnone
  | error failure => exact ⟨failure, t, hcheck, hheaders⟩

/-- Before the check the signature was not known, and after it the checker knows it. -/
theorem exists_retained_signature :
    ¬ ∀ (c : Setup ScopeState Shapes) (s t : Session ScopeState Shapes) (group : List CheckUnit)
      (failure : Failure), c.checker = scopeChecker → c.Reached s →
      c.checkComponent group s = some (.error failure, t) →
        ∀ id, t.checker.knows id = s.checker.knows id := by
  intro hforgets
  obtain ⟨failure, t, hcheck, hheaders⟩ := checkComponent_flawed
  have hknows := hforgets (flawed.setup 10) _ t _ failure rfl (.start _ _ _) hcheck ⟨1⟩
  rw [ScopeState.knows, hheaders] at hknows
  revert hknows
  decide

/-- If a component fails, then the session knows the signatures that it knew before, but the scope
checker knows in addition those that were accepted for members of the component. In the check of a
module there are none: what the checker knows is what it knew before. -/
theorem failed_component_retains :
    (∀ (c : Setup ScopeState ρ) (s t : Session ScopeState ρ) (group : List CheckUnit)
      (failure : Failure), c.checker = scopeChecker → c.Reached s →
      c.checkComponent group s = some (.error failure, t) →
        ∃ u, (c.checkMembers group).run { s with fresh := [] } = some (.error failure, u) ∧
          u.headers = s.headers ++ u.fresh ∧ t.headers = s.headers ∧
          (∀ id, t.checker.knows id = (s.checker.knows id || decide (id ∈ u.fresh))) ∧
          ∀ id ∈ u.fresh, id ∈ group.map CheckUnit.id ∧ id ∉ s.headers) ∧
    ∀ (m : Module) (fuel stack : ℕ) (earlier rest : List (List CheckUnit)) (group : List CheckUnit)
      (q : Progress ScopeState Shapes) (failure : Failure) (t : Session ScopeState Shapes),
      (ofModule m).components = earlier ++ group :: rest →
      earlier.foldlM ((m.setup stack).step true) { session := m.freshSession fuel } = some q →
      (ofModule m).dependsOnAny group q.poisoned = false →
      (m.setup stack).checkComponent group q.session = some (.error failure, t) →
        ∀ id, t.checker.knows id = q.session.checker.knows id := by
  constructor
  · intro c s t group failure hc hs h
    obtain ⟨u, hrun, hfresh, hheaders, hknown, hmembers⟩ := checkComponent_error_keeps hc hs h
    refine ⟨u, hrun, hfresh, hheaders, fun id => ?_, hmembers⟩
    simp [ScopeState.knows, hknown]
  · intro m fuel stack earlier rest group q failure t split turns clear failed id
    exact Module.knows_of_failed split turns clear failed id

theorem failed_component_retains_flawed :
    (∃ failure t u, (flawed.setup 10).checkComponent [.body ⟨1⟩] (flawed.freshSession 4096) =
        some (.error failure, t) ∧
      ((flawed.setup 10).checkMembers [.body ⟨1⟩]).run
        (flawed.freshSession 4096) = some (.error failure, u) ∧
      ⟨1⟩ ∈ u.fresh ∧ u.headers = u.fresh ∧ t.headers = [] ∧
      ∀ id, t.checker.knows id = decide (id ∈ u.fresh)) ∧
    ∃ q failure t, [[CheckUnit.head ⟨1⟩]].foldlM ((flawed.setup 10).step true)
        { session := flawed.freshSession 4096 } = some q ∧
      (flawed.setup 10).checkComponent [.body ⟨1⟩] q.session = some (.error failure, t) ∧
      ∀ id, t.checker.knows id = q.session.checker.knows id := by
  obtain ⟨hretains, hmodule⟩ := failed_component_retains (ρ := Shapes)
  constructor
  · obtain ⟨failure, t, hcheck, hheaders⟩ := checkComponent_flawed
    obtain ⟨u, hrun, hfresh, hforgotten, hknows, -⟩ :=
      hretains (flawed.setup 10) _ t _ failure rfl (.start _ _ _) hcheck
    have hunknown : ∀ id, (ScopeState.ofModule flawed).knows id = false := fun _ => rfl
    simp only [hunknown, Bool.false_or] at hknows
    have hmem := hknows ⟨1⟩
    rw [ScopeState.knows, hheaders] at hmem
    exact ⟨failure, t, u, hcheck, hrun, of_decide_eq_true hmem.symm, hfresh, hforgotten, hknows⟩
  · have hfails : ([[CheckUnit.head ⟨1⟩]].foldlM ((flawed.setup 10).step true)
        { session := flawed.freshSession 4096 }).any (fun q =>
          (ofModule flawed).dependsOnAny [.body ⟨1⟩] q.poisoned = false ∧
          ((flawed.setup 10).checkComponent [.body ⟨1⟩] q.session).any
            (fun x => x.1.toOption.isNone) = true) = true := by decide +kernel
    obtain ⟨q, hturns, hq⟩ := (Option.any_eq_true _ _).mp hfails
    obtain ⟨hclear, hcheck⟩ := of_decide_eq_true hq
    obtain ⟨⟨r, t⟩, hcheck, hnone⟩ := (Option.any_eq_true _ _).mp hcheck
    cases r with
    | ok a => cases hnone
    | error failure =>
      have hsplit : (ofModule flawed).components = [[.head ⟨1⟩]] ++ [.body ⟨1⟩] :: [] := by
        decide +kernel
      exact ⟨q, failure, t, hturns, hcheck,
        hmodule flawed 4096 10 _ _ _ q failure t hsplit hturns hclear hcheck⟩

end Setup

end ProofCore
