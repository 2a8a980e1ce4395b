import ProofCore.Proofs.ComponentCheck
import ProofCore.Proofs.Rollback
import ProofCore.Proofs.Turns

/-!
# How a run uses its checker

Whatever the checker answers, a run over the dependency graph of a module asks about a unit at most
once, and only when the signatures that the unit refers to are known. The signature of a body that
is asked about is known, as is all that this signature refers to, because components that depend on
failed ones are skipped. A run need not end, so this is said of every session that it passes
through.
-/
namespace ProofCore

open DependencyGraph (ofModule)

namespace Setup

variable {κ ρ : Type} {c : Setup κ ρ} {s t t' : Session κ ρ} {units : List CheckUnit}

/-- The signatures among `refs` that the module declares are known. -/
def Knows (c : Setup κ ρ) (t : Session κ ρ) (refs : List DefId) : Prop :=
  ∀ r ∈ refs, c.module.contains r = true → r ∈ t.headers

/-- From `s`, the units are asked about in order, each of them once and with all known that it
needs. Between the questions the session may forget signatures, but gains none. -/
inductive Conduct (c : Setup κ ρ) (s : Session κ ρ) : List CheckUnit → Session κ ρ → Prop
  | start : Conduct c s [] s
  | report {units : List CheckUnit} {t : Session κ ρ} (before : Conduct c s units t)
      (diag : Diagnostic) (other : diag.code ≠ some "E0305") : Conduct c s units (t.report diag)
  | rejectHeader {units : List CheckUnit} {t : Session κ ρ} (before : Conduct c s units t)
      (d : Decl) (declared : c.module.get? d.id = some d) (once : .head d.id ∉ units)
      (ready : c.Knows t d.definition.headerRefs) :
      Conduct c s (units ++ [.head d.id]) (c.askHeader t d)
  | acceptHeader {units : List CheckUnit} {t : Session κ ρ} (before : Conduct c s units t)
      (d : Decl) (declared : c.module.get? d.id = some d) (once : .head d.id ∉ units)
      (ready : c.Knows t d.definition.headerRefs)
      (good : (c.askHeader t d).tally.anyError = false) :
      Conduct c s (units ++ [.head d.id]) ((c.askHeader t d).know d.id)
  | askBody {units : List CheckUnit} {t : Session κ ρ} (before : Conduct c s units t)
      (d : Decl) (declared : c.module.get? d.id = some d) (once : .body d.id ∉ units)
      (ready : c.Knows t (d.id :: d.definition.headerRefs ++ d.definition.bodyRefs)) :
      Conduct c s (units ++ [.body d.id]) (c.askBody t d)
  | settle {units : List CheckUnit} {t t' : Session κ ρ} (before : Conduct c s units t)
      (checker : t'.checker = t.checker) (reported : t'.reported = t.reported)
      (headers : t'.headers ⊆ t.headers) : Conduct c s units t'

theorem Conduct.reportAll (h : c.Conduct s units t) {ds : List Diagnostic}
    (other : ∀ diag ∈ ds, diag.code ≠ some "E0305") : c.Conduct s units (t.reportAll ds) := by
  induction ds generalizing t with
  | nil => exact h
  | cons diag ds ih =>
    exact ih (h.report diag (other diag (by simp))) fun e he => other e (by simp [he])

theorem headers_askHeader (t : Session κ ρ) (d : Decl) : (c.askHeader t d).headers = t.headers := by
  rw [askHeader, (t.learns_ask _ _).headers, List.append_nil]

theorem headers_askBody (t : Session κ ρ) (d : Decl) : (c.askBody t d).headers = t.headers := by
  rw [askBody, (t.learns_ask _ _).headers, List.append_nil]

theorem Conduct.checkHeader (h : c.Conduct s units t) {u : CheckUnit} {d : Decl}
    (declared : c.module.get? d.id = some d) (once : .head d.id ∉ units)
    (ready : c.Knows t d.definition.headerRefs) {r : Except Failure Unit}
    (hrun : (c.checkHeader u d).run t = some (r, t')) :
    (r = .ok () → d.id ∈ t'.headers) ∧
      ∃ units', c.Conduct s units' t' ∧ units' ⊆ units ++ [.head d.id] := by
  rcases checkHeader_cases hrun with
    ⟨hknown, -, rfl⟩ | ⟨-, -, rfl, rfl⟩ | ⟨-, hgood, -, rfl⟩
  · exact ⟨fun _ => hknown, units, h, List.subset_append_left _ _⟩
  · refine ⟨fun hr => ?_, _, h.rejectHeader d declared once ready, List.Subset.refl _⟩
    cases hr
  · refine ⟨fun _ => ?_, _, h.acceptHeader d declared once ready hgood, List.Subset.refl _⟩
    simp [Session.know]

theorem Conduct.checkBody (h : c.Conduct s units t) {u : CheckUnit} {d : Decl}
    (declared : c.module.get? d.id = some d) (once : .body d.id ∉ units)
    (ready : c.Knows t (d.id :: d.definition.headerRefs ++ d.definition.bodyRefs))
    {r : Except Failure Def} (hrun : (c.checkBody u d).run t = some (r, t')) :
    c.Conduct s (units ++ [.body d.id]) t' ∧ t'.headers = t.headers := by
  have hasked := h.askBody d declared once ready
  rcases checkBody_cases hrun with ⟨-, -, rfl⟩ | ⟨-, _, -, -, rfl⟩ | ⟨-, -, rfl⟩
  · exact ⟨hasked, headers_askBody t d⟩
  · exact ⟨hasked, headers_askBody t d⟩
  · exact ⟨hasked.report _ (by simp [Fault.diagnostic, Fault.code]), headers_askBody t d⟩

/-- Bodies that are asked about one after the other. -/
theorem Conduct.checkBodies (h : c.Conduct s units t) {ds : List Decl}
    (declared : ∀ d ∈ ds, c.module.get? d.id = some d) (nodup : (ds.map Decl.id).Nodup)
    (once : ∀ d ∈ ds, .body d.id ∉ units)
    (ready : ∀ d ∈ ds, c.Knows t (d.id :: d.definition.headerRefs ++ d.definition.bodyRefs))
    {r : Except Failure (List (Decl × Def))}
    (hrun : (ds.mapM fun d => return (d, ← c.checkBody (.body d.id) d) :
      CheckM κ ρ (List (Decl × Def))).run t = some (r, t')) :
    ∃ units', c.Conduct s units' t' ∧ units' ⊆ units ++ ds.map fun d => .body d.id := by
  induction ds generalizing units t r with
  | nil =>
    cases hrun
    exact ⟨units, h, by simp⟩
  | cons d ds ih =>
    rw [List.map_cons, List.nodup_cons] at nodup
    rw [List.mapM_cons, bind_assoc] at hrun
    rcases CheckM.run_bind_cases hrun with ⟨result, t₁, hbody, hrest⟩ | ⟨e, hbody, -⟩
    · obtain ⟨hfirst, hheaders⟩ := h.checkBody (declared d (by simp)) (once d (by simp))
        (ready d (by simp)) hbody
      obtain ⟨r₂, hbodies⟩ : ∃ r₂, (ds.mapM fun d => return (d, ← c.checkBody (.body d.id) d) :
          CheckM κ ρ (List (Decl × Def))).run t₁ = some (r₂, t') := by
        rw [pure_bind] at hrest
        rcases CheckM.run_bind_cases hrest with ⟨results, t₂, hbodies, hend⟩ | ⟨e, hbodies, -⟩
        · cases hend
          exact ⟨_, hbodies⟩
        · exact ⟨_, hbodies⟩
      have honce : ∀ e ∈ ds, CheckUnit.body e.id ∉ units ++ [.body d.id] := by
        intro e he hmem
        rcases List.mem_append.mp hmem with hmem | hmem
        · exact once e (by simp [he]) hmem
        · rw [List.mem_singleton, CheckUnit.body.injEq] at hmem
          exact nodup.1 (hmem ▸ List.mem_map_of_mem he)
      have hready : ∀ e ∈ ds, c.Knows t₁
          (e.id :: e.definition.headerRefs ++ e.definition.bodyRefs) := by
        intro e he r hr hcontains
        rw [hheaders]
        exact ready e (by simp [he]) r hr hcontains
      obtain ⟨units', hunits, hsub⟩ := ih hfirst (fun e he => declared e (by simp [he])) nodup.2
        honce hready hbodies
      refine ⟨units', hunits, fun u hu => ?_⟩
      simpa using hsub hu
    · have hfirst := (h.checkBody (declared d (by simp)) (once d (by simp))
        (ready d (by simp)) hbody).1
      exact ⟨_, hfirst, by simp⟩

end Setup

/-- All that the members of a component need is known, but for what they need of each other. -/
structure Ready (m : Module) (group : List CheckUnit) (headers : List DefId) : Prop where
  head : ∀ d : Decl, m.get? d.id = some d → .head d.id ∈ group →
    ∀ r ∈ d.definition.headerRefs, m.contains r = true → .head r ∈ group ∨ r ∈ headers
  body : ∀ d : Decl, m.get? d.id = some d → .body d.id ∈ group →
    ∀ r ∈ d.id :: d.definition.headerRefs ++ d.definition.bodyRefs, m.contains r = true →
      r ∈ headers

namespace Setup

variable {κ ρ : Type} {c : Setup κ ρ} {s t t' : Session κ ρ} {units done group : List CheckUnit}

theorem conduct_examine_head {id : DefId} (hgraph : c.graph = ofModule c.module)
    (stage : Stage c.module done [.head id]) (ready : Ready c.module [.head id] t.headers)
    (h : c.Conduct s units t) (hunits : units ⊆ done) {r : Except Failure (List (Decl × Def))}
    (hrun : (c.examineUnit (.head id)).run t = some (r, t')) :
    (∀ pending, r = .ok pending → id ∈ t'.headers) ∧
      ∃ units', c.Conduct s units' t' ∧ units' ⊆ done ++ [.head id] := by
  obtain ⟨d, rfl, hd⟩ : ∃ d : Decl, d.id = id ∧ c.module.get? d.id = some d :=
    stage.exists_decl (List.mem_singleton_self _)
  have hcycle : c.graph.onCycle (.head d.id) = true ↔
      c.graph.Edge (.head d.id) (.head d.id) := by
    rw [hgraph]
    exact Digraph.onCycle_iff_of_singleton stage.component
  have hhead : (CheckUnit.head d.id).isHead = true := rfl
  rw [examineUnit, CheckM.run_bind_of_ok (run_declOf hd t), if_pos hhead] at hrun
  split at hrun
  · cases hrun
    refine ⟨fun pending hr => ?_, units, h.report _ (by simp [Fault.diagnostic, Fault.code]), ?_⟩
    · cases hr
    · exact fun u hu => List.mem_append_left _ (hunits hu)
  · rename_i hacyclic
    have hknows : c.Knows t d.definition.headerRefs := by
      intro ref href hcontains
      refine (ready.head d hd (List.mem_singleton_self _) ref href hcontains).resolve_left ?_
      intro hself
      apply hacyclic
      rw [hcycle, hgraph, DependencyGraph.edge_ofModule_iff]
      rw [List.mem_singleton, CheckUnit.head.injEq] at hself
      exact .head hd (hself ▸ href) (hself ▸ hcontains)
    have honce : CheckUnit.head d.id ∉ units := fun hmem =>
      stage.new _ (List.mem_singleton_self _) (hunits hmem)
    have hsubset : ∀ units' : List CheckUnit, units' ⊆ units ++ [.head d.id] →
        units' ⊆ done ++ [.head d.id] := by
      intro units' hsub u hu
      rcases List.mem_append.mp (hsub hu) with hu | hu
      · exact List.mem_append_left _ (hunits hu)
      · exact List.mem_append_right _ hu
    rcases CheckM.run_bind_cases hrun with ⟨_, t₁, hheader, hend⟩ | ⟨e, hheader, rfl⟩
    · cases hend
      obtain ⟨hok, units', hconduct, hsub⟩ := h.checkHeader hd honce hknows hheader
      exact ⟨fun _ _ => hok rfl, units', hconduct, hsubset units' hsub⟩
    · obtain ⟨-, units', hconduct, hsub⟩ := h.checkHeader hd honce hknows hheader
      refine ⟨fun pending hr => ?_, units', hconduct, hsubset units' hsub⟩
      cases hr

/-- A body whose signature is known. -/
theorem conduct_examine_body {id : DefId} (stage : Stage c.module done group)
    (hid : .body id ∈ group) (ready : Ready c.module group t.headers) (h : c.Conduct s units t)
    (hunits : units ⊆ done) {r : Except Failure (List (Decl × Def))}
    (hrun : (c.examineUnit (.body id)).run t = some (r, t')) :
    ∃ units', c.Conduct s units' t' ∧ units' ⊆ done ++ group := by
  obtain ⟨d, rfl, hd⟩ : ∃ d : Decl, d.id = id ∧ c.module.get? d.id = some d :=
    stage.exists_decl hid
  have hkeep : units ⊆ done ++ group := fun u hu => List.mem_append_left _ (hunits hu)
  have hknows := ready.body d hd hid
  have hknown : d.id ∈ t.headers :=
    hknows d.id (by simp) (Module.contains_iff.mpr ⟨d, hd⟩)
  rw [examineUnit, CheckM.run_bind_of_ok (run_declOf hd t), if_neg (by simp [CheckUnit.isHead])]
    at hrun
  split at hrun
  · cases hrun
    exact ⟨units, h.report _ (by simp [Fault.diagnostic, Fault.code]), hkeep⟩
  · have hheader : (c.checkHeader (.body d.id) d).run t = some (.ok (), t) := by
      rw [run_checkHeader, if_pos hknown]
    rw [CheckM.run_bind_of_ok hheader] at hrun
    obtain ⟨r₁, hbody⟩ : ∃ r₁, (c.checkBody (.body d.id) d).run t = some (r₁, t') := by
      rcases CheckM.run_bind_cases hrun with ⟨result, t₁, hbody, hend⟩ | ⟨e, hbody, -⟩
      · cases hend
        exact ⟨_, hbody⟩
      · exact ⟨_, hbody⟩
    have honce : CheckUnit.body d.id ∉ units := fun hmem => stage.new _ hid (hunits hmem)
    obtain ⟨hconduct, -⟩ := h.checkBody hd honce hknows hbody
    refine ⟨_, hconduct, fun u hu => ?_⟩
    rcases List.mem_append.mp hu with hu | hu
    · exact hkeep hu
    · rw [List.mem_singleton.mp hu]
      exact List.mem_append_right _ hid

/-- Signatures that are known are not asked about again. -/
theorem run_known_headers {ds : List Decl} (declared : ∀ d ∈ ds, c.module.get? d.id = some d)
    (known : ∀ d ∈ ds, d.id ∈ t.headers) :
    ((ds.map Decl.id).mapM fun id => do
      let d ← c.declOf (.body id)
      c.checkHeader (.body id) d
      return d : CheckM κ ρ (List Decl)).run t = some (.ok ds, t) := by
  induction ds with
  | nil => rfl
  | cons d ds ih =>
    have hdecl : (c.declOf (.body d.id)).run t = some (.ok d, t) :=
      run_declOf (declared d (by simp)) t
    have hheader : (c.checkHeader (.body d.id) d).run t = some (.ok (), t) := by
      rw [run_checkHeader, if_pos (known d (by simp))]
    have hrest := ih (fun e he => declared e (by simp [he])) fun e he => known e (by simp [he])
    rw [List.map_cons, List.mapM_cons, bind_assoc, CheckM.run_bind_of_ok hdecl, bind_assoc,
      CheckM.run_bind_of_ok hheader, pure_bind, CheckM.run_bind_of_ok hrest]
    rfl

theorem conduct_examineGroup (stage : Stage c.module done group)
    (ready : Ready c.module group t.headers) (h : c.Conduct s units t) (hunits : units ⊆ done)
    {r : Except Failure (List (Decl × Def))}
    (hrun : (c.examineGroup ((c.module.groupDecls group).map Decl.id)).run t = some (r, t')) :
    ∃ units', c.Conduct s units' t' ∧ units' ⊆ done ++ group := by
  have hmem : ∀ d ∈ c.module.groupDecls group,
      c.module.get? d.id = some d ∧ .body d.id ∈ group := fun d hd =>
    Module.mem_groupDecls_iff.mp hd
  have hknows : ∀ d ∈ c.module.groupDecls group,
      c.Knows t (d.id :: d.definition.headerRefs ++ d.definition.bodyRefs) := fun d hd =>
    ready.body d (hmem d hd).1 (hmem d hd).2
  have hknown : ∀ d ∈ c.module.groupDecls group, d.id ∈ t.headers := fun d hd =>
    hknows d hd d.id (by simp) (Module.contains_iff.mpr ⟨d, (hmem d hd).1⟩)
  have hheaders := run_known_headers (c := c) (t := t) (fun d hd => (hmem d hd).1) hknown
  rw [examineGroup, CheckM.run_bind_of_ok hheaders] at hrun
  have honce : ∀ d ∈ c.module.groupDecls group, CheckUnit.body d.id ∉ units := fun d hd hbody =>
    stage.new _ (hmem d hd).2 (hunits hbody)
  obtain ⟨units', hconduct, hsub⟩ := h.checkBodies (fun d hd => (hmem d hd).1)
    (c.module.nodup_groupDecls group) honce hknows hrun
  refine ⟨units', hconduct, fun u hu => ?_⟩
  rcases List.mem_append.mp (hsub hu) with hu | hu
  · exact List.mem_append_left _ (hunits hu)
  · obtain ⟨d, hd, rfl⟩ := List.mem_map.mp hu
    exact List.mem_append_right _ (hmem d hd).2

theorem conduct_examine_several (stage : Stage c.module done group) (hlength : 2 ≤ group.length)
    (ready : Ready c.module group t.headers) (h : c.Conduct s units t) (hunits : units ⊆ done)
    {r : Except Failure (List (Decl × Def))} (hrun : (c.examine group).run t = some (r, t')) :
    (∀ pending, r = .ok pending → ∀ id, .head id ∉ group) ∧
      ∃ units', c.Conduct s units' t' ∧ units' ⊆ done ++ group := by
  obtain ⟨u, hu⟩ := List.exists_mem_of_ne_nil group stage.ne_nil
  have hsame : ∀ w ∈ group, w.isHead = u.isHead := fun w hw => stage.isHead_eq hw hu
  have hnil : group = [] → False := by
    intro hnil
    simp [hnil] at hlength
  have hone : ∀ v, group = [v] → False := by
    intro v hone
    simp [hone] at hlength
  rw [examine.eq_3 c group hnil hone] at hrun
  cases hhead : u.isHead with
  | true =>
    have hheads : group.filter CheckUnit.isHead = group := by
      rw [List.filter_eq_self]
      exact fun w hw => (hsame w hw).trans hhead
    rw [if_pos (hheads.symm ▸ hlength)] at hrun
    cases hrun
    refine ⟨fun pending hr => ?_, units, h.report _ (by simp [Fault.diagnostic, Fault.code]),
      fun w hw => List.mem_append_left _ (hunits hw)⟩
    cases hr
  | false =>
    have hbody : ∀ w ∈ group, w.isHead = false := fun w hw => (hsame w hw).trans hhead
    have hnone : group.filter CheckUnit.isHead = [] := by
      rw [List.filter_eq_nil_iff]
      intro w hw
      simp [hbody w hw]
    have hids : (c.module.setup 0).declIds group = (c.module.groupDecls group).map Decl.id :=
      stage.declIds_eq hbody
    change c.declIds group = _ at hids
    rw [if_neg (by simp [hnone]), hids] at hrun
    refine ⟨fun _ _ id hid => ?_, ?_⟩
    · cases hbody _ hid
    · split at hrun
      · rename_i id hsingle
        exact absurd hsingle (stage.map_id_ne_singleton hbody hlength id)
      · exact conduct_examineGroup stage ready h hunits hrun

/-- Examining a component asks about its members only. If it finds nothing wrong, their signatures
are known. -/
theorem conduct_examine (hgraph : c.graph = ofModule c.module) (stage : Stage c.module done group)
    (ready : Ready c.module group t.headers) (h : c.Conduct s units t) (hunits : units ⊆ done)
    {r : Except Failure (List (Decl × Def))} (hrun : (c.examine group).run t = some (r, t')) :
    (∀ pending, r = .ok pending → ∀ id, .head id ∈ group → id ∈ t'.headers) ∧
      ∃ units', c.Conduct s units' t' ∧ units' ⊆ done ++ group := by
  by_cases hlength : 2 ≤ group.length
  · obtain ⟨hnone, hconduct⟩ := conduct_examine_several stage hlength ready h hunits hrun
    exact ⟨fun pending hr id hid => absurd hid (hnone pending hr id), hconduct⟩
  · obtain ⟨u, rfl⟩ : ∃ u, group = [u] := by
      have hpositive := List.length_pos_iff.mpr stage.ne_nil
      exact List.length_eq_one_iff.mp (by omega)
    cases u with
    | head id =>
      obtain ⟨hok, hconduct⟩ := conduct_examine_head hgraph stage ready h hunits hrun
      refine ⟨fun pending hr id' hid' => ?_, hconduct⟩
      rw [List.mem_singleton, CheckUnit.head.injEq] at hid'
      exact hid' ▸ hok pending hr
    | body id =>
      refine ⟨fun _ _ id' hid' => ?_,
        conduct_examine_body stage (List.mem_singleton_self _) ready h hunits hrun⟩
      cases List.mem_singleton.mp hid'

end Setup

theorem DependencyGraph.notMem_of_dependsOnAny_eq_false {g : DependencyGraph}
    {group units : List CheckUnit} (h : g.dependsOnAny group units = false) {u v : CheckUnit}
    (hu : u ∈ group) (huv : g.Edge u v) (hout : v ∉ group) : v ∉ units := by
  intro hv
  have hdepends : g.dependsOnAny group units = true := by
    simp only [DependencyGraph.dependsOnAny, List.any_eq_true, decide_eq_true_eq]
    exact ⟨u, hu, v, huv, hv, hout⟩
  rw [h] at hdepends
  cases hdepends

/-- The checker was used properly so far, and what is relied on, it and all it depends on, has its
signatures known. -/
structure Progress.Orderly {κ ρ : Type} (c : Setup κ ρ) (s : Session κ ρ) (done : List CheckUnit)
    (p : Progress κ ρ) : Prop where
  conduct : ∃ units, c.Conduct s units p.session ∧ units ⊆ done
  poisoned : p.poisoned ⊆ done
  known : ∀ id, .head id ∈ done → .head id ∉ p.poisoned → id ∈ p.session.headers
  reliable : ∀ u ∈ done, u ∉ p.poisoned → ∀ v, c.graph.Edge u v → v ∉ p.poisoned

namespace Progress.Orderly

open Setup

variable {κ ρ : Type} {c : Setup κ ρ} {s : Session κ ρ} {done group : List CheckUnit}
  {p q : Progress κ ρ}

theorem ready (hgraph : c.graph = ofModule c.module) (hp : p.Orderly c s done)
    (stage : Stage c.module done group) (clear : c.graph.dependsOnAny group p.poisoned = false) :
    Ready c.module group p.session.headers := by
  have hclear : ∀ u ∈ group, ∀ v, (ofModule c.module).Edge u v → v ∉ group →
      v ∈ done ∧ v ∉ p.poisoned := by
    intro u hu v huv hout
    exact ⟨(stage.edge u hu v huv).resolve_right hout,
      DependencyGraph.notMem_of_dependsOnAny_eq_false clear hu (hgraph ▸ huv) hout⟩
  have hnext : ∀ u v, u ∈ done ∧ u ∉ p.poisoned → (ofModule c.module).Edge u v →
      v ∈ done ∧ v ∉ p.poisoned := by
    intro u v hu huv
    exact ⟨stage.closed u hu.1 v huv, hp.reliable u hu.1 hu.2 v (hgraph ▸ huv)⟩
  -- The signature of a body in the group is relied on, and hence what it refers to.
  have hsignature : ∀ id, .body id ∈ group → .head id ∈ done ∧ .head id ∉ p.poisoned := by
    intro id hid
    refine hclear _ hid _ (DependencyGraph.edge_signature (stage.declared hid)) fun hhead => ?_
    cases stage.isHead_eq hid hhead
  refine ⟨fun d hd hmem r href hcontains => ?_, fun d hd hmem r href hcontains => ?_⟩
  · have hedge : (ofModule c.module).Edge (.head d.id) (.head r) :=
      DependencyGraph.edge_ofModule_iff.mpr (.head hd href hcontains)
    by_cases hin : .head r ∈ group
    · exact .inl hin
    · have hr := hclear _ hmem _ hedge hin
      exact .inr (hp.known r hr.1 hr.2)
  · have hown := hsignature d.id hmem
    rw [List.cons_append, List.mem_cons, List.mem_append] at href
    rcases href with rfl | href | href
    · exact hp.known _ hown.1 hown.2
    · have hedge : (ofModule c.module).Edge (.head d.id) (.head r) :=
        DependencyGraph.edge_ofModule_iff.mpr (.head hd href hcontains)
      have hr := hnext _ _ hown hedge
      exact hp.known r hr.1 hr.2
    · have hedge : (ofModule c.module).Edge (.body d.id) (.body r) :=
        DependencyGraph.edge_ofModule_iff.mpr (.body hd href hcontains)
      have hr : .head r ∈ done ∧ .head r ∉ p.poisoned := by
        by_cases hin : .body r ∈ group
        · exact hsignature r hin
        · exact hnext _ _ (hclear _ hmem _ hedge hin) (DependencyGraph.edge_signature hcontains)
      exact hp.known r hr.1 hr.2

/-- A component that did not pass. -/
theorem append_poisoned (hp : p.Orderly c s done) (hgraph : c.graph = ofModule c.module)
    (stage : Stage c.module done group)
    (hconduct : ∃ units, c.Conduct s units q.session ∧ units ⊆ done ++ group)
    (hheaders : q.session.headers = p.session.headers)
    (hpoisoned : q.poisoned = p.poisoned ++ group) : q.Orderly c s (done ++ group) := by
  refine ⟨hconduct, ?_, fun id hid hclean => ?_, fun u hu hclean v huv => ?_⟩
  · rw [hpoisoned]
    intro u hu
    rcases List.mem_append.mp hu with hu | hu
    · exact List.mem_append_left _ (hp.poisoned hu)
    · exact List.mem_append_right _ hu
  · rw [hpoisoned, List.mem_append, not_or] at hclean
    rw [hheaders]
    exact hp.known id ((List.mem_append.mp hid).resolve_right hclean.2) hclean.1
  · rw [hpoisoned, List.mem_append, not_or] at hclean ⊢
    have hdone := (List.mem_append.mp hu).resolve_right hclean.2
    refine ⟨hp.reliable u hdone hclean.1 v huv, fun hv => ?_⟩
    exact stage.new v hv (stage.closed u hdone v (hgraph ▸ huv))

/-- The session in which the examination of a component ends. -/
theorem conduct_examine (hp : p.Orderly c s done) (hgraph : c.graph = ofModule c.module)
    (stage : Stage c.module done group) (clear : c.graph.dependsOnAny group p.poisoned = false)
    {r : Except Failure (List (Decl × Def))} {t : Session κ ρ}
    (hrun : (c.examine group).run { p.session with fresh := [] } = some (r, t)) :
    (∀ pending, r = .ok pending → ∀ id, .head id ∈ group → id ∈ t.headers) ∧
      ∃ units, c.Conduct s units t ∧ units ⊆ done ++ group := by
  obtain ⟨units, hconduct, hunits⟩ := hp.conduct
  have hstart : c.Conduct s units { p.session with fresh := [] } :=
    hconduct.settle rfl rfl (List.Subset.refl _)
  have hready : Ready c.module group ({ p.session with fresh := [] } : Session κ ρ).headers :=
    hp.ready hgraph stage clear
  exact Setup.conduct_examine hgraph stage hready hstart hunits hrun

/-- One turn keeps the progress orderly. -/
theorem turn (hp : p.Orderly c s done) (hgraph : c.graph = ofModule c.module)
    (stage : Stage c.module done group) {outcome : Outcome} (h : c.Turn true p group outcome q) :
    q.Orderly c s (done ++ group) := by
  cases h with
  | skipped blocked =>
    obtain ⟨units, hconduct, hunits⟩ := hp.conduct
    refine hp.append_poisoned hgraph stage ⟨units, hconduct.report _ ?_, ?_⟩ rfl rfl
    · simp [skipNotice]
    · exact fun u hu => List.mem_append_left _ (hunits hu)
  | @failed t failure clear checked =>
    rw [Bool.true_and] at clear
    obtain ⟨u, new, ht, hlearns⟩ := exists_learns_of_checkComponent_error checked
    have hheaders : t.headers = p.session.headers := by
      rw [ht]
      exact hlearns.headers_rollback rfl
    rcases checkComponent_cases checked with ⟨_, _, -, hr, -⟩ |
      ⟨_, r₀, t₀, calls, ids, hexamine, -, rfl⟩
    · cases hr
    · obtain ⟨-, units, hconduct, hunits⟩ := hp.conduct_examine hgraph stage clear hexamine
      have hfaults : c.Conduct s units (t₀.reportAll
          (ids.map fun id => (c.terminationFault calls id).diagnostic)) :=
        hconduct.reportAll (by simp [terminationFault, Fault.diagnostic, Fault.code])
      refine hp.append_poisoned hgraph stage ⟨units, hfaults.settle rfl rfl ?_, hunits⟩
        hheaders rfl
      exact List.filter_subset_self _
  | @passed t clear checked =>
    rw [Bool.true_and] at clear
    rcases checkComponent_cases checked with ⟨pending, t₀, hexamine, -, rfl⟩ |
      ⟨_, _, _, _, _, -, hr, -⟩
    · obtain ⟨hgroup, units, hconduct, hunits⟩ := hp.conduct_examine hgraph stage clear hexamine
      obtain ⟨hchecker, hheaders, -, hreported, -⟩ :=
        t₀.commitAll_frame c.learn c.keepExamples pending
      obtain ⟨new, hlearns⟩ := learns_of_moves (onlyMoves_examine group _ _ t₀ hexamine)
      have hknown : (t₀.commitAll c.learn c.keepExamples pending).headers =
          p.session.headers ++ new := hheaders.trans hlearns.headers
      refine ⟨⟨units, hconduct.settle hchecker hreported (hheaders ▸ List.Subset.refl _), hunits⟩,
        fun u hu => List.mem_append_left _ (hp.poisoned hu), fun id hid hclean => ?_,
        fun u hu hclean v huv => ?_⟩
      · rcases List.mem_append.mp hid with hid | hid
        · rw [hknown]
          exact List.mem_append_left _ (hp.known id hid hclean)
        · rw [hheaders]
          exact hgroup pending rfl id hid
      · rcases List.mem_append.mp hu with hu | hu
        · exact hp.reliable u hu hclean v huv
        · by_cases hv : v ∈ group
          · exact fun hpoisoned => stage.new v hv (hp.poisoned hpoisoned)
          · exact DependencyGraph.notMem_of_dependsOnAny_eq_false clear hu huv hv
    · cases hr

/-- All turns up to some component keep the progress orderly. -/
theorem foldlM_step (hgraph : c.graph = ofModule c.module) {earlier groups : List (List CheckUnit)}
    {rest : List (List CheckUnit)} (hp : p.Orderly c s earlier.flatten)
    (hsplit : (ofModule c.module).components = earlier ++ (groups ++ rest))
    (h : groups.foldlM (c.step true) p = some q) : q.Orderly c s (earlier ++ groups).flatten := by
  refine foldlM_of_stage (fun hbefore stage hstep => ?_) earlier hp hsplit h
  obtain ⟨outcome, hturn⟩ := turn_of_step hstep
  exact hbefore.turn hgraph stage hturn

end Progress.Orderly

namespace Setup

variable {κ ρ : Type} {c : Setup κ ρ} {skipDependents : Bool} {s t : Session κ ρ}

/-- The sessions between the components of a run, and those after the examination of a component,
when all questions about it have been asked. A run that does not end passes through such sessions
as well. -/
inductive PassesThrough (c : Setup κ ρ) (skipDependents : Bool) (s : Session κ ρ) :
    Session κ ρ → Prop
  | between {earlier rest : List (List CheckUnit)} {q : Progress κ ρ}
      (split : c.graph.components = earlier ++ rest)
      (turns : earlier.foldlM (c.step skipDependents) { session := s } = some q) :
      PassesThrough c skipDependents s q.session
  | within {earlier rest : List (List CheckUnit)} {group : List CheckUnit} {q : Progress κ ρ}
      {r : Except Failure (List (Decl × Def))} {t : Session κ ρ}
      (split : c.graph.components = earlier ++ group :: rest)
      (turns : earlier.foldlM (c.step skipDependents) { session := s } = some q)
      (clear : (skipDependents && c.graph.dependsOnAny group q.poisoned) = false)
      (examined : (c.examine group).run { q.session with fresh := [] } = some (r, t)) :
      PassesThrough c skipDependents s t

theorem passesThrough_of_run {p : Progress κ ρ} (h : c.run skipDependents s = some p) :
    c.PassesThrough skipDependents s p.session :=
  .between (List.append_nil _).symm h

theorem PassesThrough.exists_conduct (hgraph : c.graph = ofModule c.module)
    (h : c.PassesThrough true s t) : ∃ units, c.Conduct s units t := by
  have hstart : Progress.Orderly c s ([] : List (List CheckUnit)).flatten { session := s } :=
    ⟨⟨[], .start, by simp⟩, by simp, by simp, by simp⟩
  cases h with
  | between split turns =>
    rw [hgraph] at split
    obtain ⟨units, hconduct, -⟩ := (hstart.foldlM_step hgraph split turns).conduct
    exact ⟨units, hconduct⟩
  | within split turns clear examined =>
    rw [hgraph] at split
    have hprogress := hstart.foldlM_step hgraph split turns
    obtain ⟨-, units, hconduct, -⟩ :=
      hprogress.conduct_examine hgraph (stage_of_split split) clear examined
    exact ⟨units, hconduct⟩

end Setup

end ProofCore
