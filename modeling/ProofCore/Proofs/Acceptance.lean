import ProofCore.Proofs.DependencyUnits
import ProofCore.Proofs.ResolvedCalls

/-!
# When a unit is acceptable

What it takes for a unit of a module to be accepted, said by rules and without an order of
checking. A signature is acceptable if it is well scoped and refers to acceptable signatures only.
The bodies that depend on each other are acceptable together: their signatures are, they are well
scoped, all else that they refer to is acceptable, and the recursion between them ends.
-/
namespace ProofCore

namespace Module

variable {m : Module} {fuel : ℕ}

theorem map_id_decls (m : Module) : m.decls.map Decl.id = m.ids := by
  rw [decls, Table.values, List.map_map]
  exact List.map_congr_left fun e he => m.id_eq e he

theorem nodup_ids (m : Module) : (m.decls.map Decl.id).Nodup := by
  rw [map_id_decls]
  exact m.table.nodup_keys

theorem nodup_decls (m : Module) : m.decls.Nodup := m.nodup_ids.of_map

/-- The functions that some declarations define, by id. -/
def functions (ds : List Decl) : List (DefId × FnDef) :=
  ds.filterMap fun d => d.definition.fn?.map fun f => (d.id, f)

theorem sublist_functions (ds : List Decl) :
    ((functions ds).map Prod.fst).Sublist (ds.map Decl.id) := by
  induction ds with
  | nil => exact .slnil
  | cons d ds ih =>
    unfold functions at ih ⊢
    cases hf : d.definition.fn? with
    | none => simpa [hf] using ih.cons d.id
    | some f => simpa [hf] using ih.cons_cons d.id

theorem mem_functions_iff {ds : List Decl} {id : DefId} {f : FnDef} :
    (id, f) ∈ functions ds ↔ ∃ d ∈ ds, d.id = id ∧ d.definition = .fn f := by
  simp only [functions, List.mem_filterMap, Option.map_eq_some_iff, Prod.mk.injEq]
  constructor
  · intro h
    obtain ⟨d, hd, f', hf', hid, rfl⟩ := h
    refine ⟨d, hd, hid, ?_⟩
    cases hdef : d.definition with
    | fn f => rw [hdef] at hf'; rw [Option.some.inj hf']
    | data _ => rw [hdef] at hf'; cases hf'
  · intro h
    obtain ⟨d, hd, hid, hdef⟩ := h
    exact ⟨d, hd, f, by rw [hdef]; rfl, hid, rfl⟩

/-- The functions that may be unfolded, but for those of a group. -/
def envWithout (fuel : ℕ) (m : Module) (group : List DefId) : Env where
  fuel := fuel
  fns := .ofList (functions (m.decls.filter fun d => !d.isExample && d.id ∉ group))

theorem get?_envWithout {group : List DefId} {id : DefId} {f : FnDef} :
    (m.envWithout fuel group).fns.get? id = some f ↔
      id ∉ group ∧ m.get? id = some ⟨.fn f, false⟩ := by
  have hkeys : ((functions (m.decls.filter fun d => !d.isExample && d.id ∉ group)).map
      Prod.fst).Nodup := by
    exact m.nodup_ids.sublist ((sublist_functions _).trans (List.filter_sublist.map Decl.id))
  rw [envWithout, Table.get?_ofList hkeys, mem_functions_iff]
  simp only [List.mem_filter, Bool.and_eq_true, Bool.not_eq_true', decide_eq_true_eq,
    mem_decls_iff]
  constructor
  · intro h
    obtain ⟨⟨definition, isExample⟩, ⟨hd, hexample, hgroup⟩, rfl, hdef⟩ := h
    exact ⟨hgroup, by rw [hd]; simp_all⟩
  · intro h
    obtain ⟨hgroup, hd⟩ := h
    have hid := id_of_get? hd
    subst hid
    exact ⟨⟨.fn f, false⟩, ⟨hd, rfl, hgroup⟩, rfl, rfl⟩

/-- The declarations whose bodies depend on the body of `id` and the other way round. -/
structure BodyGroup (m : Module) (id : DefId) (ds : List Decl) : Prop where
  nodup : ds.Nodup
  mem : ∀ d, d ∈ ds ↔
    m.get? d.id = some d ∧ (DependencyGraph.ofModule m).Mutual (.body id) (.body d.id)

/-- If the bodies of a group refer to members of the group, then their recursion ends, and a
single declaration is not given by an expression. -/
def RecursionEnds (fuel : ℕ) (m : Module) (ds : List Decl) : Prop :=
  (∃ d ∈ ds, ∃ r ∈ d.definition.bodyRefs, r ∈ ds.map Decl.id) →
    (∀ d, ds = [d] → d.definition.isExprFn = false) ∧
      Terminating (m.envWithout fuel (ds.map Decl.id)) (ds.map Decl.definition)

/-- No variable escapes its binders. -/
def WellScoped (ts : List (ℕ × Term)) : Prop := ∀ t ∈ ts, t.2.wellScoped t.1 = true

inductive Acceptable (fuel : ℕ) (m : Module) : CheckUnit → Prop
  | head {id : DefId} {d : Decl} (declared : m.get? id = some d)
      (wellScoped : WellScoped d.definition.signatureTerms)
      (refs : ∀ r ∈ d.definition.headerRefs, Acceptable fuel m (.head r)) :
      Acceptable fuel m (.head id)
  | body {id : DefId} {ds : List Decl} (declared : m.contains id = true) (group : m.BodyGroup id ds)
      (signatures : ∀ d ∈ ds, Acceptable fuel m (.head d.id))
      (wellScoped : ∀ d ∈ ds, WellScoped d.definition.bodyTerms)
      (refs : ∀ d ∈ ds, ∀ r ∈ d.definition.bodyRefs, r ∉ ds.map Decl.id →
        Acceptable fuel m (.body r))
      (recursion : m.RecursionEnds fuel ds) : Acceptable fuel m (.body id)

theorem BodyGroup.nodup_ids {id : DefId} {ds : List Decl} (h : m.BodyGroup id ds) :
    (ds.map Decl.id).Nodup := by
  rw [List.nodup_map_iff_inj_on h.nodup]
  intro d hd d' hd' heq
  have hget := ((h.mem d).mp hd).1
  rw [heq, ((h.mem d').mp hd').1] at hget
  exact (Option.some.inj hget).symm

theorem BodyGroup.of_mutual {id r : DefId} {ds : List Decl} (h : m.BodyGroup id ds)
    (hr : (DependencyGraph.ofModule m).Mutual (.body id) (.body r)) : m.BodyGroup r ds := by
  refine ⟨h.nodup, fun d => (h.mem d).trans (and_congr_right fun _ => ?_)⟩
  exact ⟨fun hid => hr.symm.trans hid, fun hrd => hr.trans hrd⟩

theorem BodyGroup.perm {id : DefId} {ds ds' : List Decl} (h : m.BodyGroup id ds)
    (h' : m.BodyGroup id ds') : ds.Perm ds' := by
  rw [List.perm_ext_iff_of_nodup h.nodup h'.nodup]
  exact fun d => (h.mem d).trans (h'.mem d).symm

theorem RecursionEnds.perm {ds ds' : List Decl} (hperm : ds.Perm ds')
    (hnodup : (ds.map Decl.id).Nodup) (h : m.RecursionEnds fuel ds) :
    m.RecursionEnds fuel ds' := by
  have hids : ∀ r, r ∈ ds.map Decl.id ↔ r ∈ ds'.map Decl.id := fun r => (hperm.map _).mem_iff
  intro hrec
  obtain ⟨d, hd, r, href, hr⟩ := hrec
  obtain ⟨hexpr, hends⟩ := h ⟨d, hperm.mem_iff.mpr hd, r, href, (hids r).mpr hr⟩
  constructor
  · intro d hd
    subst hd
    exact hexpr d (List.perm_singleton.mp hperm)
  · have hagree : Env.AgreesOn (fun _ => True) (m.envWithout fuel (ds.map Decl.id))
        (m.envWithout fuel (ds'.map Decl.id)) := by
      refine ⟨rfl, fun id _ => Option.ext fun f => ?_, fun _ _ _ _ _ _ => trivial⟩
      rw [get?_envWithout, get?_envWithout, hids]
    refine hends.transfer hagree (hperm.map _) ?_ fun _ _ _ _ => trivial
    rwa [List.map_map]

namespace Acceptable

theorem declared {u : CheckUnit} (h : m.Acceptable fuel u) : m.contains u.id = true := by
  cases h with
  | head hd => exact contains_iff.mpr ⟨_, hd⟩
  | body hknown => exact hknown

/-- What an acceptable unit depends on is acceptable. -/
theorem edge {u v : CheckUnit} (h : m.Acceptable fuel u)
    (huv : (DependencyGraph.ofModule m).Edge u v) : m.Acceptable fuel v := by
  cases DependencyGraph.edge_ofModule_iff.mp huv with
  | @signature id d hd =>
    cases h with
    | @body _ ds _ group signatures =>
      have hid := id_of_get? hd
      subst hid
      exact signatures d ((group.mem d).mpr ⟨hd, .refl, .refl⟩)
  | head hd href _ =>
    cases h with
    | head hd' _ refs =>
      cases hd.symm.trans hd'
      exact refs _ href
  | @body id r d hd href hknown =>
    cases h with
    | @body _ ds _ group signatures wellScoped refs recursion =>
      have hid := id_of_get? hd
      subst hid
      by_cases hr : r ∈ ds.map Decl.id
      · obtain ⟨d', hd', rfl⟩ := List.mem_map.mp hr
        have hmutual := ((group.mem d').mp hd').2
        exact .body hknown (group.of_mutual hmutual) signatures wellScoped refs recursion
      · exact refs d ((group.mem d).mpr ⟨hd, .refl, .refl⟩) r href hr

theorem path {u v : CheckUnit} (h : m.Acceptable fuel u)
    (huv : (DependencyGraph.ofModule m).Path u v) : m.Acceptable fuel v := by
  induction huv with
  | refl => exact h
  | tail _ hedge ih => exact ih.edge hedge

/-- The rules give no acceptable signature that depends on itself. -/
theorem not_path_of_edge {u v : CheckUnit} (h : m.Acceptable fuel u) (hu : u.isHead = true)
    (huv : (DependencyGraph.ofModule m).Edge u v) : ¬ (DependencyGraph.ofModule m).Path v u := by
  induction h generalizing v with
  | @head id d hd _ _ ih =>
    intro hvu
    cases DependencyGraph.edge_ofModule_iff.mp huv with
    | @head _ r d' hd' href _ =>
      cases hd.symm.trans hd'
      -- a cycle through `id` is one through `r` as well
      rcases hvu.cases_head with heq | ⟨w, hrw, hwu⟩
      · rw [← heq] at huv
        exact ih r href rfl huv .refl
      · exact ih r href rfl hrw (hwu.tail huv)
  | body => cases hu

end Acceptable

theorem acceptable_head_iff {id : DefId} {d : Decl} (hd : m.get? id = some d) :
    m.Acceptable fuel (.head id) ↔ WellScoped d.definition.signatureTerms ∧
      ∀ r ∈ d.definition.headerRefs, m.Acceptable fuel (.head r) := by
  constructor
  · intro h
    cases h with
    | head hd' wellScoped refs =>
      cases hd.symm.trans hd'
      exact ⟨wellScoped, refs⟩
  · exact fun h => .head hd h.1 h.2

/-- Whether a body is acceptable is a matter of its group as a whole. -/
theorem acceptable_body_iff {id : DefId} {ds : List Decl} (hknown : m.contains id = true)
    (group : m.BodyGroup id ds) :
    m.Acceptable fuel (.body id) ↔ (∀ d ∈ ds, m.Acceptable fuel (.head d.id)) ∧
      (∀ d ∈ ds, WellScoped d.definition.bodyTerms) ∧
      (∀ d ∈ ds, ∀ r ∈ d.definition.bodyRefs, r ∉ ds.map Decl.id → m.Acceptable fuel (.body r)) ∧
      m.RecursionEnds fuel ds := by
  constructor
  · intro h
    cases h with
    | @body _ ds' _ group' signatures wellScoped refs recursion =>
      have hperm := group'.perm group
      refine ⟨fun d hd => signatures d (hperm.mem_iff.mpr hd),
        fun d hd => wellScoped d (hperm.mem_iff.mpr hd), fun d hd r href hr => ?_,
        recursion.perm hperm group'.nodup_ids⟩
      exact refs d (hperm.mem_iff.mpr hd) r href fun h => hr ((hperm.map _).mem_iff.mp h)
  · intro h
    exact .body hknown group h.1 h.2.1 h.2.2.1 h.2.2.2

end Module

end ProofCore
