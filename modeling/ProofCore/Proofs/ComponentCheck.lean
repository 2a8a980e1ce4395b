import ProofCore.Proofs.SessionState

/-!
# Checking a component

A component whose dependencies are all acceptable is accepted exactly if its own units are, and
then the session knows them; the outcome of other components plays no part.
-/
namespace ProofCore

open DependencyGraph (ofModule)

/-- The next component to be dealt with, after those that hold the units `done`. -/
structure Stage (m : Module) (done group : List CheckUnit) : Prop where
  ne_nil : group ≠ []
  component : group ∈ (ofModule m).components
  together : ∀ u ∈ group, ∀ v, v ∈ group ↔ (ofModule m).Mutual u v
  new : ∀ u ∈ group, u ∉ done
  closed : ∀ u ∈ done, ∀ v, (ofModule m).Edge u v → v ∈ done
  edge : ∀ u ∈ group, ∀ v, (ofModule m).Edge u v → v ∈ done ∨ v ∈ group

theorem stage_of_split {m : Module} {done rest : List (List CheckUnit)} {group : List CheckUnit}
    (hsplit : (ofModule m).components = done ++ group :: rest) : Stage m done.flatten group := by
  have hgroup : group ∈ (ofModule m).components := by simp [hsplit]
  have hsplit' : (ofModule m).components = (done ++ [group]) ++ rest := by simp [hsplit]
  refine ⟨Digraph.component_ne_nil hgroup, hgroup, fun u hu v => ?_, fun u hu hdone => ?_,
    fun u hu v huv => Digraph.mem_flatten_of_edge hsplit hu huv, fun u hu v huv => ?_⟩
  · exact Digraph.mem_component_iff hgroup hu
  · obtain ⟨c, hc, huc⟩ := List.mem_flatten.mp hdone
    have hdisjoint := (ofModule m).pairwise_disjoint_components
    rw [hsplit, List.pairwise_append] at hdisjoint
    exact hdisjoint.2.2 c hc group (by simp) huc hu
  · have hmem := Digraph.mem_flatten_of_edge hsplit' (by simp [hu]) huv
    simpa using hmem

/-- What one component keeps, components in a row keep. -/
theorem foldlM_of_stage {κ ρ : Type} {c : Setup κ ρ} {m : Module}
    {Q : List CheckUnit → Progress κ ρ → Prop}
    (hstep : ∀ {done group p q}, Q done p → Stage m done group →
      c.step true p group = some q → Q (done ++ group) q)
    (earlier : List (List CheckUnit)) {groups rest : List (List CheckUnit)} {p q : Progress κ ρ}
    (hp : Q earlier.flatten p) (hsplit : (ofModule m).components = earlier ++ (groups ++ rest))
    (h : groups.foldlM (c.step true) p = some q) : Q (earlier ++ groups).flatten q := by
  induction groups generalizing earlier p with
  | nil =>
    cases h
    rwa [List.append_nil]
  | cons group groups ih =>
    rw [List.foldlM_cons] at h
    obtain ⟨next, hnext, hrest⟩ := Option.bind_eq_some_iff.mp h
    have hkept := hstep hp (stage_of_split hsplit) hnext
    rw [← List.flatten_concat] at hkept
    rw [List.append_cons]
    exact ih _ hkept (by simp [hsplit]) hrest

namespace Stage

variable {fuel : ℕ} {m : Module} {done group : List CheckUnit} (stage : Stage m done group)
include stage

theorem declared {u : CheckUnit} (hu : u ∈ group) : m.contains u.id = true :=
  DependencyGraph.mem_vertices_ofModule_iff.mp
    ((Digraph.component_sublist stage.component).subset hu)

theorem exists_decl {u : CheckUnit} (hu : u ∈ group) :
    ∃ d : Decl, d.id = u.id ∧ m.get? d.id = some d := by
  obtain ⟨d, hd⟩ := Module.contains_iff.mp (stage.declared hu)
  have hid := Module.id_of_get? hd
  exact ⟨d, hid, hid ▸ hd⟩

theorem isHead_eq {u v : CheckUnit} (hu : u ∈ group) (hv : v ∈ group) : u.isHead = v.isHead :=
  DependencyGraph.isHead_eq_of_mutual ((stage.together u hu v).mp hv)

/-- The units of a component are acceptable together or not at all. -/
theorem acceptable_of_mem {u v : CheckUnit} (hu : u ∈ group) (hv : v ∈ group)
    (h : m.Acceptable fuel u) : m.Acceptable fuel v :=
  h.path ((stage.together u hu v).mp hv).1

theorem forall_acceptable_iff {u : CheckUnit} (hu : u ∈ group) :
    (∀ v ∈ group, m.Acceptable fuel v) ↔ m.Acceptable fuel u :=
  ⟨fun h => h u hu, fun h _ hv => stage.acceptable_of_mem hu hv h⟩

theorem exists_ne (hlength : 2 ≤ group.length) (u : CheckUnit) : ∃ v ∈ group, u ≠ v :=
  Digraph.exists_ne_of_component stage.component hlength u

/-- In a component of several units each has an edge to one of them. -/
theorem exists_edge (hlength : 2 ≤ group.length) {u : CheckUnit} (hu : u ∈ group) :
    ∃ w ∈ group, (ofModule m).Edge u w ∧ (ofModule m).Path w u := by
  obtain ⟨v, hv, hne⟩ := stage.exists_ne hlength u
  have hmutual := (stage.together u hu v).mp hv
  rcases hmutual.1.cases_head with heq | ⟨w, huw, hwv⟩
  · exact absurd heq hne
  · have hwu : (ofModule m).Path w u := hwv.trans hmutual.2
    exact ⟨w, (stage.together u hu w).mpr ⟨.single huw, hwu⟩, huw, hwu⟩

end Stage

/-- All that a component depends on is acceptable. -/
def Clear (fuel : ℕ) (m : Module) (group : List CheckUnit) : Prop :=
  ∀ u ∈ group, ∀ v, (ofModule m).Edge u v → v ∉ group → m.Acceptable fuel v

namespace Stage

open CheckM Session Setup

variable {fuel stack : ℕ} {m : Module} {done group : List CheckUnit}
  {s : Session ScopeState Shapes}

theorem judges_head {id : DefId} (stage : Stage m done [.head id]) (hs : s.Reflects fuel m done) :
    Judges ((m.setup stack).checkUnit (.head id)) s (m.Acceptable fuel (.head id)) ()
      (s.addHeader id) := by
  have hmem : .head id ∈ [CheckUnit.head id] := List.mem_singleton.mpr rfl
  obtain ⟨d, rfl, hd⟩ : ∃ d : Decl, d.id = id ∧ m.get? d.id = some d := stage.exists_decl hmem
  have hcycle : (m.setup stack).graph.onCycle (.head d.id) = true ↔
      (ofModule m).Edge (.head d.id) (.head d.id) :=
    Digraph.onCycle_iff_of_singleton stage.component
  rw [checkUnit_head]
  refine Judges.seq (judges_declOf hd) ?_
  by_cases hself : (ofModule m).Edge (.head d.id) (.head d.id)
  · rw [if_pos (hcycle.mpr hself)]
    refine Judges.congr (judges_fail _ _ _ _) (iff_of_false not_false fun h => ?_)
    exact h.not_path_of_edge rfl hself .refl
  · rw [if_neg fun h => hself (hcycle.mp h)]
    have hnew : d.id ∉ s.headers := fun h => stage.new _ hmem ((hs.headers d.id).mp h).1
    refine (judges_checkHeader rfl hs.errors hnew).congr ?_
    rw [Module.acceptable_head_iff hd, ScopeState.headerFaults, ScopeState.faults_eq_nil_iff]
    refine and_congr_right fun _ => forall₂_congr fun r href => ?_
    rw [hs.known]
    refine ⟨fun h => h.2, fun h => ⟨?_, h⟩⟩
    have hedge : (ofModule m).Edge (.head d.id) (.head r) :=
      DependencyGraph.edge_ofModule_iff.mpr (.head hd href h.declared)
    refine (stage.edge _ hmem _ hedge).resolve_right fun hr => hself ?_
    rwa [List.mem_singleton.mp hr] at hedge

/-- Signatures that depend on each other are not acceptable. -/
theorem not_acceptable_heads (stage : Stage m done group) (hheads : ∀ u ∈ group, u.isHead = true)
    (hlength : 2 ≤ group.length) : ¬ ∀ u ∈ group, m.Acceptable fuel u := by
  intro h
  obtain ⟨u, hu⟩ := List.exists_mem_of_ne_nil _ stage.ne_nil
  obtain ⟨w, -, huw, hwu⟩ := stage.exists_edge hlength hu
  exact (h u hu).not_path_of_edge (hheads u hu) huw hwu

theorem judges_heads (stage : Stage m done group) (hheads : ∀ u ∈ group, u.isHead = true)
    (hlength : 2 ≤ group.length) (s t : Session ScopeState Shapes) :
    Judges ((m.setup stack).checkMutual group) s (∀ u ∈ group, m.Acceptable fuel u) () t := by
  have hfilter : group.filter CheckUnit.isHead = group := List.filter_eq_self.mpr hheads
  rw [checkMutual, hfilter, if_pos hlength]
  refine (judges_fail _ _ _ _).congr (iff_of_false not_false ?_)
  exact stage.not_acceptable_heads hheads hlength

end Stage

/-- The declarations of a component of bodies. -/
def Module.groupDecls (m : Module) (group : List CheckUnit) : List Decl :=
  m.decls.filter fun d => .body d.id ∈ group

theorem Module.mem_groupDecls_iff {m : Module} {group : List CheckUnit} {d : Decl} :
    d ∈ m.groupDecls group ↔ m.get? d.id = some d ∧ .body d.id ∈ group := by
  simp [groupDecls, mem_decls_iff]

theorem Module.nodup_groupDecls (m : Module) (group : List CheckUnit) :
    ((m.groupDecls group).map Decl.id).Nodup :=
  m.nodup_ids.sublist (List.filter_sublist.map Decl.id)

theorem Module.groupDecls_singleton {m : Module} {d : Decl} (hget : m.get? d.id = some d) :
    m.groupDecls [.body d.id] = [d] := by
  have hnodup : (m.groupDecls [.body d.id]).Nodup := m.nodup_decls.filter _
  refine List.perm_singleton.mp ((List.perm_ext_iff_of_nodup hnodup (by simp)).mpr fun e => ?_)
  rw [mem_groupDecls_iff, List.mem_singleton, List.mem_singleton, CheckUnit.body.injEq]
  constructor
  · intro h
    exact Option.some.inj ((h.2 ▸ h.1).symm.trans hget)
  · intro h
    subst h
    exact ⟨hget, rfl⟩

namespace Stage

open CheckM Session Setup

variable {fuel stack : ℕ} {m : Module} {done group : List CheckUnit}
  {s : Session ScopeState Shapes}

theorem judges_commit (s : Session ScopeState Shapes) (ds : List Decl) :
    Judges ((m.setup stack).commit (ds.map fun d => (d, d.definition))) s True ()
      (s.commitDecls Shapes.learn ds) := by
  intro r t h
  cases h
  exact .inl ⟨trivial, rfl, rfl⟩

section Bodies

variable (stage : Stage m done group)
include stage

theorem mem_ids_iff {r : DefId} :
    r ∈ (m.groupDecls group).map Decl.id ↔ .body r ∈ group := by
  rw [List.mem_map]
  constructor
  · intro h
    obtain ⟨d, hd, rfl⟩ := h
    exact (Module.mem_groupDecls_iff.mp hd).2
  · intro h
    obtain ⟨d, rfl, hd⟩ : ∃ d : Decl, d.id = r ∧ m.get? d.id = some d := stage.exists_decl h
    exact ⟨d, Module.mem_groupDecls_iff.mpr ⟨hd, h⟩, rfl⟩

theorem bodyGroup {id : DefId} (hid : .body id ∈ group) : m.BodyGroup id (m.groupDecls group) := by
  refine ⟨m.nodup_decls.filter _, fun d => Module.mem_groupDecls_iff.trans ?_⟩
  exact and_congr_right fun _ => stage.together _ hid _

/-- The functions that were accepted serve as well as all that are acceptable. -/
theorem agreesOn (hs : s.Reflects fuel m done) :
    Env.AgreesOn (fun r => m.contains r = true → .body r ∈ group ∨
      .body r ∈ done ∧ m.Acceptable fuel (.body r)) s.env
      (m.envWithout fuel ((m.groupDecls group).map Decl.id)) := by
  refine ⟨hs.budget, fun r hr => Option.ext fun f => ?_, fun r f hr hf r' href hr' => ?_⟩
  · rw [hs.fns, Module.get?_envWithout, stage.mem_ids_iff]
    constructor
    · intro h
      exact ⟨fun hmem => stage.new _ hmem h.1, h.2.2⟩
    · intro h
      have hknown : m.contains r = true := Module.contains_iff.mpr ⟨_, h.2⟩
      have hacc := (hr hknown).resolve_left h.1
      exact ⟨hacc.1, hacc.2, h.2⟩
  · obtain ⟨hdone, hacc, hget⟩ := (hs.fns r f).mp hf
    have hedge : (ofModule m).Edge (.body r) (.body r') :=
      DependencyGraph.edge_ofModule_iff.mpr (.body hget href hr')
    exact .inr ⟨stage.closed _ hdone _ hedge, hacc.edge hedge⟩

theorem reference (clear : Clear fuel m group) {d : Decl} (hd : d ∈ m.groupDecls group) {r : DefId}
    (href : r ∈ d.definition.bodyRefs) (hr : m.contains r = true) :
    .body r ∈ group ∨ .body r ∈ done ∧ m.Acceptable fuel (.body r) := by
  obtain ⟨hget, hmem⟩ := Module.mem_groupDecls_iff.mp hd
  have hedge : (ofModule m).Edge (.body d.id) (.body r) :=
    DependencyGraph.edge_ofModule_iff.mpr (.body hget href hr)
  by_cases hout : .body r ∈ group
  · exact .inl hout
  · exact .inr ⟨(stage.edge _ hmem _ hedge).resolve_right hout, clear _ hmem _ hedge hout⟩

/-- The recursion of the whole component is judged. -/
theorem judges_termination (clear : Clear fuel m group) (hs : s.Reflects fuel m done)
    (units : List CheckUnit) :
    Judges ((m.setup stack).checkTermination ((m.groupDecls group).map Decl.definition) units) s
      (Terminating (m.envWithout fuel ((m.groupDecls group).map Decl.id))
        ((m.groupDecls group).map Decl.definition)) () s := by
  apply judges_checkTermination (stage.agreesOn hs)
  · rw [List.map_map]
    exact m.nodup_groupDecls group
  · intro d hd r href hr
    obtain ⟨e, he, rfl⟩ := List.mem_map.mp hd
    exact stage.reference clear he href hr

variable (hbody : ∀ u ∈ group, u.isHead = false)
include hbody

theorem declIds_eq : (m.setup stack).declIds group = (m.groupDecls group).map Decl.id := by
  have hmem : ∀ id, id ∈ (group.map CheckUnit.id).eraseDups ↔ .body id ∈ group := by
    intro id
    rw [List.mem_eraseDups, List.mem_map]
    constructor
    · intro h
      obtain ⟨u, hu, rfl⟩ := h
      cases u with
      | head id => cases hbody _ hu
      | body id => exact hu
    · exact fun h => ⟨_, h, rfl⟩
  have hnone : (group.map CheckUnit.id).eraseDups.filter (fun id => !m.contains id) = [] := by
    rw [List.filter_eq_nil_iff]
    intro id hid
    have hknown : m.contains id = true := stage.declared ((hmem id).mp hid)
    simp [hknown]
  have hids : m.ids.filter (fun id => id ∈ (group.map CheckUnit.id).eraseDups) =
      (m.groupDecls group).map Decl.id := by
    rw [← m.map_id_decls, List.filter_map, Module.groupDecls]
    exact congrArg _ (List.filter_congr fun d _ => by simp [hmem])
  exact (congrArg₂ _ hnone hids).trans (List.nil_append _)

theorem map_id_ne_singleton (hlength : 2 ≤ group.length) (id : DefId) :
    (m.groupDecls group).map Decl.id ≠ [id] := by
  intro hid
  obtain ⟨v, hv, hne⟩ := stage.exists_ne hlength (.body id)
  cases v with
  | head r => cases hbody _ hv
  | body r =>
    have hr := stage.mem_ids_iff.mpr hv
    rw [hid, List.mem_singleton] at hr
    exact hne (by rw [hr])

/-- Several bodies that depend on each other are recursive. -/
theorem recursionEnds_iff (hlength : 2 ≤ group.length) :
    m.RecursionEnds fuel (m.groupDecls group) ↔
      Terminating (m.envWithout fuel ((m.groupDecls group).map Decl.id))
        ((m.groupDecls group).map Decl.definition) := by
  have hseveral : ∀ d, m.groupDecls group ≠ [d] := by
    intro d hd
    exact stage.map_id_ne_singleton hbody hlength d.id (by rw [hd, List.map_singleton])
  have hrecursive : ∃ d ∈ m.groupDecls group, ∃ r ∈ d.definition.bodyRefs,
      r ∈ (m.groupDecls group).map Decl.id := by
    obtain ⟨u, hu⟩ := List.exists_mem_of_ne_nil _ stage.ne_nil
    obtain ⟨w, hw, huw, -⟩ := stage.exists_edge hlength hu
    cases DependencyGraph.edge_ofModule_iff.mp huw with
    | signature => cases hbody _ hw
    | head => cases hbody _ hu
    | @body id r d hget href hknown =>
      have hid := Module.id_of_get? hget
      subst hid
      exact ⟨d, Module.mem_groupDecls_iff.mpr ⟨hget, hu⟩, r, href, stage.mem_ids_iff.mpr hw⟩
  exact ⟨fun h => (h hrecursive).2, fun h _ => ⟨fun d hd => absurd hd (hseveral d), h⟩⟩

theorem reflects_commitDecls (hs : s.Reflects fuel m done) (haccept : ∀ u ∈ group, m.Acceptable fuel u) :
    (s.commitDecls Shapes.learn (m.groupDecls group)).Reflects fuel m (done ++ group) :=
  hs.commitDecls Shapes.learn (m.nodup_groupDecls group) (fun _ => Module.mem_groupDecls_iff) hbody
    haccept stage.new

variable (clear : Clear fuel m group)
include clear

theorem signature {id : DefId} (hid : .body id ∈ group) :
    .head id ∈ done ∧ m.Acceptable fuel (.head id) := by
  have hedge := DependencyGraph.edge_signature (stage.declared hid)
  have hout : .head id ∉ group := fun h => Bool.noConfusion (hbody _ h)
  exact ⟨(stage.edge _ hid _ hedge).resolve_right hout, clear _ hid _ hedge hout⟩

/-- A body has no faults if it is well scoped and refers to acceptable bodies outside its group. -/
theorem bodyFaults_eq_nil_iff (hs : s.Reflects fuel m done) {d : Decl} (hd : d ∈ m.groupDecls group) :
    s.checker.bodyFaults d = [] ↔ Module.WellScoped d.definition.bodyTerms ∧
      ∀ r ∈ d.definition.bodyRefs, r ∉ (m.groupDecls group).map Decl.id →
        m.Acceptable fuel (.body r) := by
  have hdmem := (Module.mem_groupDecls_iff.mp hd).2
  rw [ScopeState.bodyFaults, ScopeState.faults_eq_nil_iff]
  refine and_congr_right fun _ => ?_
  simp only [List.mem_filter, decide_eq_true_eq, and_imp, hs.known, stage.mem_ids_iff]
  refine forall₂_congr fun r href => ?_
  constructor
  · intro h hr
    have hne : r ≠ d.id := fun heq => hr (heq ▸ hdmem)
    have hknown := (h hne).2.declared
    exact ((stage.reference clear hd href hknown).resolve_left hr).2
  · intro h hne
    by_cases hr : .body r ∈ group
    · exact stage.signature hbody clear hr
    · have hacc := h hr
      have hdone := ((stage.reference clear hd href hacc.declared).resolve_left hr).1
      have hedge := DependencyGraph.edge_signature hacc.declared
      exact ⟨stage.closed _ hdone _ hedge, hacc.edge hedge⟩

/-- The members of a component of bodies are judged together. -/
theorem acceptable_iff (hs : s.Reflects fuel m done) {id : DefId} (hid : .body id ∈ group) :
    m.Acceptable fuel (.body id) ↔ (∀ d ∈ m.groupDecls group, s.checker.bodyFaults d = []) ∧
      m.RecursionEnds fuel (m.groupDecls group) := by
  have hsignatures : ∀ d ∈ m.groupDecls group, m.Acceptable fuel (.head d.id) := fun d hd =>
    (stage.signature hbody clear (Module.mem_groupDecls_iff.mp hd).2).2
  have hknown : m.contains id = true := stage.declared hid
  rw [Module.acceptable_body_iff hknown (stage.bodyGroup hid), ← and_assoc, ← and_assoc]
  refine and_congr_left fun _ => ?_
  constructor
  · intro h d hd
    exact (stage.bodyFaults_eq_nil_iff hbody clear hs hd).mpr ⟨h.1.2 d hd, h.2 d hd⟩
  · intro h
    have hparts := fun d hd => (stage.bodyFaults_eq_nil_iff hbody clear hs hd).mp (h d hd)
    exact ⟨⟨hsignatures, fun d hd => (hparts d hd).1⟩, fun d hd => (hparts d hd).2⟩

theorem judges_members (hs : s.Reflects fuel m done) :
    Judges (((m.groupDecls group).map Decl.id).mapM fun id => do
      let d ← (m.setup stack).declOf (.body id)
      (m.setup stack).checkHeader (.body id) d
      return d) s True (m.groupDecls group) s := by
  rw [List.mapM_map]
  have hmember : ∀ d ∈ m.groupDecls group, Judges (((fun id => do
      let d ← (m.setup stack).declOf (.body id)
      (m.setup stack).checkHeader (.body id) d
      return d) ∘ Decl.id) d) s True d s := by
    intro d hd
    obtain ⟨hget, hmem⟩ := Module.mem_groupDecls_iff.mp hd
    have hheader := (hs.headers d.id).mpr (stage.signature hbody clear hmem)
    exact (judges_declOf hget).seq ((judges_checkHeader_of_known hheader).seq (.pure d s))
  have hdecls := (Judges.mapM (g := fun d => d) hmember).congr (iff_true_intro fun _ _ => trivial)
  rwa [List.map_id'] at hdecls

theorem judges_checkGroup (hs : s.Reflects fuel m done) :
    Judges ((m.setup stack).checkGroup ((m.groupDecls group).map Decl.id) group) s
      ((∀ d ∈ m.groupDecls group, s.checker.bodyFaults d = []) ∧
        Terminating (m.envWithout fuel ((m.groupDecls group).map Decl.id))
          ((m.groupDecls group).map Decl.definition)) ()
      (s.commitDecls Shapes.learn (m.groupDecls group)) := by
  have hbodies : Judges ((m.groupDecls group).mapM fun d => do
      return (d, ← (m.setup stack).checkBody (.body d.id) d)) s
      (∀ d ∈ m.groupDecls group, s.checker.bodyFaults d = [])
      ((m.groupDecls group).map fun d => (d, d.definition)) s := by
    refine Judges.mapM fun d _ => Judges.congr ?_ (and_iff_left trivial)
    exact (judges_checkBody rfl hs.errors (.body d.id) d).bind fun _ => .pure (d, d.definition) s
  have hsnd : ((m.groupDecls group).map fun d => (d, d.definition)).map Prod.snd =
      (m.groupDecls group).map Decl.definition := by simp
  refine (stage.judges_members hbody clear hs).seq (hbodies.bind fun _ => ?_)
  rw [hsnd]
  have hrecursion : Judges ((m.setup stack).checkTermination _ group) s _ () s :=
    stage.judges_termination clear hs group
  exact (hrecursion.bind fun _ => judges_commit s _).congr (and_iff_left trivial)

theorem judges_bodies (hs : s.Reflects fuel m done) (hlength : 2 ≤ group.length) :
    Judges ((m.setup stack).checkMutual group) s (∀ u ∈ group, m.Acceptable fuel u) ()
      (s.commitDecls Shapes.learn (m.groupDecls group)) := by
  have hnone : group.filter CheckUnit.isHead = [] := by
    rw [List.filter_eq_nil_iff]
    exact fun u hu => by simp [hbody u hu]
  obtain ⟨u, hu⟩ := List.exists_mem_of_ne_nil _ stage.ne_nil
  rw [checkMutual, hnone, if_neg (by simp), stage.declIds_eq hbody]
  split
  · rename_i id hid
    exact absurd hid (stage.map_id_ne_singleton hbody hlength id)
  · refine (stage.judges_checkGroup hbody clear hs).congr ?_
    rw [stage.forall_acceptable_iff hu]
    cases u with
    | head id => cases hbody _ hu
    | body id => rw [stage.acceptable_iff hbody clear hs hu, stage.recursionEnds_iff hbody hlength]

end Bodies

theorem onCycle_body_iff {d : Decl} (stage : Stage m done [.body d.id])
    (hget : m.get? d.id = some d) :
    (m.setup stack).graph.onCycle (.body d.id) = true ↔ d.id ∈ d.definition.bodyRefs := by
  refine (Digraph.onCycle_iff_of_singleton stage.component).trans ?_
  rw [DependencyGraph.edge_ofModule_iff]
  constructor
  · intro h
    cases h with
    | body hget' href _ =>
      cases hget.symm.trans hget'
      exact href
  · exact fun h => .body hget h (Module.contains_iff.mpr ⟨d, hget⟩)

theorem judges_body {id : DefId} (stage : Stage m done [.body id]) (clear : Clear fuel m [.body id])
    (hs : s.Reflects fuel m done) :
    Judges ((m.setup stack).checkUnit (.body id)) s (m.Acceptable fuel (.body id)) ()
      (s.commitDecls Shapes.learn (m.groupDecls [.body id])) := by
  have hmem : .body id ∈ [CheckUnit.body id] := List.mem_singleton.mpr rfl
  have hbody : ∀ u ∈ [CheckUnit.body id], u.isHead = false := by simp [CheckUnit.isHead]
  obtain ⟨d, rfl, hget⟩ : ∃ d : Decl, d.id = id ∧ m.get? d.id = some d := stage.exists_decl hmem
  have hcycle : (m.setup stack).graph.onCycle (.body d.id) = true ↔ _ :=
    stage.onCycle_body_iff hget
  have hheader := (hs.headers d.id).mpr (stage.signature hbody clear hmem)
  have hterminates : Judges ((m.setup stack).checkTermination _ [.body d.id]) s _ () s :=
    stage.judges_termination clear hs [.body d.id]
  have hcommit : Judges ((m.setup stack).commit _) s _ _ _ :=
    judges_commit s (m.groupDecls [.body d.id])
  have haccept := stage.acceptable_iff hbody clear hs hmem
  rw [Module.groupDecls_singleton hget] at hterminates hcommit haccept ⊢
  have hends : m.RecursionEnds fuel [d] ↔ (d.id ∈ d.definition.bodyRefs →
      d.definition.isExprFn = false ∧ Terminating (m.envWithout fuel [d.id]) [d.definition]) := by
    simp [Module.RecursionEnds]
  rw [List.forall_mem_singleton, hends] at haccept
  rw [checkUnit_body]
  refine Judges.seq (judges_declOf hget) ?_
  split
  · rename_i hfails
    obtain ⟨hself, hexpr⟩ := (Bool.and_eq_true _ _).mp hfails
    refine (judges_fail _ _ _ _).congr (iff_of_false not_false fun h => ?_)
    rw [((haccept.mp h).2 (hcycle.mp hself)).1] at hexpr
    cases hexpr
  · rename_i hproceeds
    refine Judges.congr ((judges_checkHeader_of_known hheader).seq
      ((judges_checkBody rfl hs.errors (.body d.id) d).bind fun _ => ?_)) haccept.symm
    by_cases hself : (m.setup stack).graph.onCycle (.body d.id) = true
    · rw [if_pos hself]
      refine (hterminates.bind fun _ => hcommit).congr ?_
      simp_all
    · rw [if_neg hself]
      exact hcommit.congr (iff_of_true trivial fun h => absurd (hcycle.mpr h) hself)

/-- A component is accepted exactly if its units are acceptable. -/
theorem judges_checkMembers (stage : Stage m done group) (clear : Clear fuel m group)
    (hs : s.Reflects fuel m done) :
    ∃ t, Judges ((m.setup stack).checkMembers group) s (∀ u ∈ group, m.Acceptable fuel u) () t ∧
      ((∀ u ∈ group, m.Acceptable fuel u) → t.Reflects fuel m (done ++ group)) := by
  match group, stage, clear with
  | [], stage, _ => exact absurd rfl stage.ne_nil
  | [.head id], stage, _ =>
    refine ⟨s.addHeader id, (stage.judges_head hs).congr (by simp), fun h => ?_⟩
    exact hs.addHeader (h _ (by simp))
  | [.body id], stage, clear =>
    refine ⟨_, (stage.judges_body clear hs).congr (by simp), fun h => ?_⟩
    exact stage.reflects_commitDecls (by simp [CheckUnit.isHead]) hs h
  | u :: v :: rest, stage, clear =>
    have hlength : 2 ≤ (u :: v :: rest).length := by simp
    have hsame : ∀ w ∈ u :: v :: rest, w.isHead = u.isHead := fun w hw =>
      stage.isHead_eq hw (by simp)
    cases hu : u.isHead with
    | true =>
      rw [hu] at hsame
      refine ⟨s, stage.judges_heads hsame hlength s s, fun h => ?_⟩
      exact absurd h (stage.not_acceptable_heads hsame hlength)
    | false =>
      rw [hu] at hsame
      refine ⟨_, stage.judges_bodies hsame clear hs hlength, fun h => ?_⟩
      exact stage.reflects_commitDecls hsame hs h

/-- After a component the session knows its units if they are acceptable, and otherwise none. -/
theorem reflects_checkComponent (stage : Stage m done group) (clear : Clear fuel m group)
    (hs : s.Reflects fuel m done) {r : Except Failure Unit} {t : Session ScopeState Shapes}
    (h : (m.setup stack).checkComponent group s = some (r, t)) :
    t.Reflects fuel m (done ++ group) ∧ ((∀ u ∈ group, m.Acceptable fuel u) ∧ r = .ok () ∨
      (∀ u ∈ group, ¬ m.Acceptable fuel u) ∧ ∃ e, r = .error e) := by
  have hstart : Session.Reflects fuel m done { s with fresh := [] } :=
    ⟨hs.errors, hs.budget, hs.headers, hs.known, hs.fns, hs.accepted⟩
  obtain ⟨t₀, hjudges, hreflects⟩ :
      ∃ t₀, Judges ((m.setup stack).checkMembers group) { s with fresh := [] } _ () t₀ ∧ _ :=
    stage.judges_checkMembers clear hstart
  unfold checkComponent at h
  cases hrun : ((m.setup stack).checkMembers group).run { s with fresh := [] } with
  | none => simp [hrun] at h
  | some outcome =>
    obtain ⟨r', t'⟩ := outcome
    rw [hrun] at h
    rcases hjudges r' t' hrun with ⟨haccept, rfl, rfl⟩ | ⟨hreject, ⟨e, rfl⟩, hsame⟩
    · cases h
      exact ⟨hreflects haccept, .inl ⟨haccept, rfl⟩⟩
    · cases h
      have hnone : ∀ u ∈ group, ¬ m.Acceptable fuel u := fun u hu hacc =>
        hreject ((stage.forall_acceptable_iff hu).mpr hacc)
      exact ⟨hstart.reject hnone (hsame.rollback rfl) rfl, .inr ⟨hnone, e, rfl⟩⟩

end Stage

end ProofCore
