import ProofCore.Proofs.ModuleRun

/-!
# What a definition's acceptance depends on

Whether a definition is accepted is settled by the declarations that it depends on, directly or
through others. All else that a module declares, good or bad, and the order of its declarations
make no difference.
-/
namespace ProofCore

open DependencyGraph (ofModule)

/-- Two modules have the same declarations in a region of ids, and these lead out of the region to
nothing that either of the modules declares. -/
structure Shared (m m' : Module) (region : Set DefId) : Prop where
  same : ∀ id ∈ region, m.get? id = m'.get? id
  closed : ∀ id ∈ region, ∀ d, m.get? id = some d →
    ∀ r ∈ d.definition.headerRefs ++ d.definition.bodyRefs,
      m.contains r = true ∨ m'.contains r = true → r ∈ region

namespace Shared

variable {m m' : Module} {region : Set DefId} {fuel : ℕ}

theorem symm (h : Shared m m' region) : Shared m' m region where
  same id hid := (h.same id hid).symm
  closed id hid d hd r hr hknown :=
    h.closed id hid d ((h.same id hid).trans hd) r hr hknown.symm

theorem contains_of_mem (h : Shared m m' region) {id : DefId} (hid : id ∈ region)
    (hknown : m.contains id = true) : m'.contains id = true := by
  rw [Module.contains_iff] at hknown ⊢
  rwa [← h.same id hid]

theorem edge (h : Shared m m' region) {u v : CheckUnit} (hu : u.id ∈ region)
    (huv : (ofModule m).Edge u v) : (ofModule m').Edge u v ∧ v.id ∈ region := by
  rw [DependencyGraph.edge_ofModule_iff] at huv ⊢
  cases huv with
  | signature hd => exact ⟨.signature ((h.same _ hu).symm.trans hd), hu⟩
  | head hd href hknown =>
    have hr := h.closed _ hu _ hd _ (List.mem_append_left _ href) (.inl hknown)
    exact ⟨.head ((h.same _ hu).symm.trans hd) href (h.contains_of_mem hr hknown), hr⟩
  | body hd href hknown =>
    have hr := h.closed _ hu _ hd _ (List.mem_append_right _ href) (.inl hknown)
    exact ⟨.body ((h.same _ hu).symm.trans hd) href (h.contains_of_mem hr hknown), hr⟩

theorem path (h : Shared m m' region) {u v : CheckUnit} (hu : u.id ∈ region)
    (huv : (ofModule m).Path u v) : (ofModule m').Path u v ∧ v.id ∈ region := by
  induction huv with
  | refl => exact ⟨.refl, hu⟩
  | tail _ hedge ih =>
    obtain ⟨hedge', hv⟩ := h.edge ih.2 hedge
    exact ⟨ih.1.tail hedge', hv⟩

theorem together (h : Shared m m' region) {u v : CheckUnit} (huv : (ofModule m).Mutual u v)
    (hu : u.id ∈ region) : (ofModule m').Mutual u v ∧ v.id ∈ region := by
  obtain ⟨huv', hv⟩ := h.path hu huv.1
  exact ⟨⟨huv', (h.path hv huv.2).1⟩, hv⟩

theorem bodyGroup (h : Shared m m' region) {id : DefId} {ds : List Decl} (hid : id ∈ region)
    (hgroup : m.BodyGroup id ds) : m'.BodyGroup id ds := by
  refine ⟨hgroup.nodup, fun d => (hgroup.mem d).trans ?_⟩
  constructor
  · intro hd
    obtain ⟨hmutual, hregion⟩ := h.together hd.2 hid
    exact ⟨(h.same _ hregion).symm.trans hd.1, hmutual⟩
  · intro hd
    obtain ⟨hmutual, hregion⟩ := h.symm.together hd.2 hid
    exact ⟨(h.same _ hregion).trans hd.1, hmutual⟩

theorem get?_eq (h : Shared m m' region) {r : DefId}
    (hr : m.contains r = true ∨ m'.contains r = true → r ∈ region) : m.get? r = m'.get? r := by
  by_cases hknown : m.contains r = true ∨ m'.contains r = true
  · exact h.same r (hr hknown)
  · have hnone : ∀ n : Module, ¬ n.contains r = true → n.get? r = none := by
      intro n hn
      rw [Option.eq_none_iff_forall_ne_some]
      exact fun d hd => hn (Module.contains_iff.mpr ⟨d, hd⟩)
    rw [not_or] at hknown
    rw [hnone m hknown.1, hnone m' hknown.2]

/-- The functions that bodies of the region may call are the same ones. -/
theorem agreesOn (h : Shared m m' region) (group : List DefId) :
    Env.AgreesOn (fun r => m.contains r = true ∨ m'.contains r = true → r ∈ region)
      (m.envWithout fuel group) (m'.envWithout fuel group) := by
  refine ⟨rfl, fun r hr => Option.ext fun f => ?_, fun r f hr hf r' href hknown => ?_⟩
  · rw [Module.get?_envWithout, Module.get?_envWithout, h.get?_eq hr]
  · have hget := (Module.get?_envWithout.mp hf).2
    have hregion := hr (.inl (Module.contains_iff.mpr ⟨_, hget⟩))
    exact h.closed r hregion _ hget r' (List.mem_append_right _ href) hknown

theorem recursionEnds (h : Shared m m' region) {id : DefId} {ds : List Decl} (hid : id ∈ region)
    (hgroup : m.BodyGroup id ds) (hends : m.RecursionEnds fuel ds) : m'.RecursionEnds fuel ds := by
  intro hrec
  obtain ⟨hexpr, hends⟩ := hends hrec
  refine ⟨hexpr, hends.transfer (h.agreesOn _) (.refl _) ?_ fun d hd r href hknown => ?_⟩
  · rw [List.map_map]
    exact hgroup.nodup_ids
  · obtain ⟨e, he, rfl⟩ := List.mem_map.mp hd
    obtain ⟨hget, hmutual⟩ := (hgroup.mem e).mp he
    have hregion := (h.together hmutual hid).2
    exact h.closed e.id hregion e hget r (List.mem_append_right _ href) hknown

/-- What is acceptable in one module is acceptable in the other. -/
theorem acceptable (h : Shared m m' region) {u : CheckUnit} (hu : u.id ∈ region)
    (haccept : m.Acceptable fuel u) : m'.Acceptable fuel u := by
  induction haccept with
  | @head id d hd wellScoped refs ih =>
    refine .head ((h.same id hu).symm.trans hd) wellScoped fun r href => ih r href ?_
    exact h.closed id hu d hd r (List.mem_append_left _ href) (.inl (refs r href).declared)
  | @body id ds hknown group signatures wellScoped refs recursion ihSignatures ihRefs =>
    have hregion : ∀ d ∈ ds, d.id ∈ region := fun d hd =>
      (h.together ((group.mem d).mp hd).2 hu).2
    refine .body (h.contains_of_mem hu hknown) (h.bodyGroup hu group)
      (fun d hd => ihSignatures d hd (hregion d hd)) wellScoped (fun d hd r href hr => ?_)
      (h.recursionEnds hu group recursion)
    refine ihRefs d hd r href hr ?_
    exact h.closed d.id (hregion d hd) d ((group.mem d).mp hd).1 r (List.mem_append_right _ href)
      (.inl (refs d hd r href hr).declared)

end Shared

namespace Module

/-- If two modules have the same declarations in a region of ids, and these refer to nothing
outside the region that either module declares, then checks of the two modules with the same fuel
accept the same definitions of the region. -/
theorem mem_accepted_iff_of_shared {m m' : Module} {region : Set DefId}
    (same : ∀ id ∈ region, m.get? id = m'.get? id)
    (closed : ∀ id ∈ region, ∀ d, m.get? id = some d →
      ∀ r ∈ d.definition.headerRefs ++ d.definition.bodyRefs,
        m.contains r = true ∨ m'.contains r = true → r ∈ region)
    {fuel stack stack' : ℕ} {p p' : Progress ScopeState Shapes} (h : m.check fuel stack = some p)
    (h' : m'.check fuel stack' = some p') {d : Def} (hd : d.id ∈ region) :
    d ∈ p.report.accepted ↔ d ∈ p'.report.accepted := by
  have hshared : Shared m m' region := ⟨same, closed⟩
  rw [mem_accepted_iff h, mem_accepted_iff h', hshared.same d.id hd]
  refine and_congr_left fun _ => ?_
  exact ⟨hshared.acceptable hd, hshared.symm.acceptable hd⟩

/-- A type of numbers with a successor. -/
def numbers : Decl where
  definition := .data
    { id := ⟨1⟩
      name := "N"
      telescope := []
      constructors := [⟨⟨11⟩, "S", ⟨1⟩, [⟨"n", .dataCall ⟨1⟩ 0 [], true⟩]⟩] }

/-- A function that takes one off a number and passes it on to another function. -/
def passOn (id other : DefId) : Decl where
  definition := .fn
    { id := id
      name := "f"
      telescope := [⟨"n", .dataCall ⟨1⟩ 0 [], true⟩]
      result := .sort 0
      body := .clauses [⟨[.con ⟨1⟩ ⟨11⟩ 0 [] [.bind ⟨.supplied 0, "n"⟩ (.dataCall ⟨1⟩ 0 [])]],
        .fnCall other 0 [.bound 0]⟩] }

/-- A function whose body has a variable that is bound nowhere. -/
def escaping : Decl where
  definition := .fn ⟨⟨4⟩, "g", [], .sort 0, .expr (.bound 7)⟩

def alternation : Module := ofDecls [numbers, passOn ⟨2⟩ ⟨3⟩, passOn ⟨3⟩ ⟨2⟩]

/-- The same declarations in another order, after one that fails. -/
def rearranged : Module := ofDecls [escaping, passOn ⟨3⟩ ⟨2⟩, passOn ⟨2⟩ ⟨3⟩, numbers]

theorem mem_accepted_iff_of_shared_rearranged :
    (∀ id ∈ ({⟨1⟩, ⟨2⟩, ⟨3⟩} : Set DefId), alternation.get? id = rearranged.get? id) ∧
      (∀ id ∈ ({⟨1⟩, ⟨2⟩, ⟨3⟩} : Set DefId), ∀ d, alternation.get? id = some d →
        ∀ r ∈ d.definition.headerRefs ++ d.definition.bodyRefs,
          alternation.contains r = true ∨ rearranged.contains r = true →
            r ∈ ({⟨1⟩, ⟨2⟩, ⟨3⟩} : Set DefId)) ∧
      ∃ p p', alternation.check 4096 10 = some p ∧ rearranged.check 4096 12 = some p' ∧
        (passOn ⟨2⟩ ⟨3⟩).definition ∈ p.report.accepted ∧
        ((passOn ⟨2⟩ ⟨3⟩).definition ∈ p.report.accepted ↔
          (passOn ⟨2⟩ ⟨3⟩).definition ∈ p'.report.accepted) := by
  have hsame : ∀ id ∈ ({⟨1⟩, ⟨2⟩, ⟨3⟩} : Set DefId), alternation.get? id = rearranged.get? id := by
    simp only [Set.mem_insert_iff, Set.mem_singleton_iff, forall_eq_or_imp, forall_eq]
    decide +kernel
  have hclosed : ∀ id ∈ ({⟨1⟩, ⟨2⟩, ⟨3⟩} : Set DefId), ∀ d, alternation.get? id = some d →
      ∀ r ∈ d.definition.headerRefs ++ d.definition.bodyRefs,
        alternation.contains r = true ∨ rearranged.contains r = true →
          r ∈ ({⟨1⟩, ⟨2⟩, ⟨3⟩} : Set DefId) := by
    have hrefs : ∀ d ∈ alternation.decls,
        ∀ r ∈ d.definition.headerRefs ++ d.definition.bodyRefs, r = ⟨1⟩ ∨ r = ⟨2⟩ ∨ r = ⟨3⟩ := by
      decide +kernel
    intro id _ d hd r hr _
    exact hrefs d (mem_decls_iff.mpr (id_of_get? hd ▸ hd)) r hr
  have haccepts : (alternation.check 4096 10).any
      (fun p => (passOn ⟨2⟩ ⟨3⟩).definition ∈ p.report.accepted) = true := by decide +kernel
  have hreturns : (rearranged.check 4096 12).isSome = true := by decide +kernel
  obtain ⟨p', hp'⟩ := Option.isSome_iff_exists.mp hreturns
  cases hp : alternation.check 4096 10 with
  | none => simp [hp] at haccepts
  | some p =>
    rw [hp, Option.any_some, decide_eq_true_eq] at haccepts
    refine ⟨hsame, hclosed, p, p', rfl, hp', haccepts, ?_⟩
    exact mem_accepted_iff_of_shared hsame hclosed hp hp' (.inr (.inl rfl))

end Module

end ProofCore
