import ProofCore.Proofs.Judgement

/-!
# What a session knows

After the units of some components have been dealt with, a session knows exactly the acceptable
ones among them: their signatures, the functions that may be unfolded, and the definitions that
were accepted.
-/
namespace ProofCore

namespace ScopeState

theorem faults_eq_nil_iff {s : ScopeState} {d : Decl} {terms : List (ℕ × Term)}
    {refs : List DefId} :
    s.faults d terms refs = [] ↔ Module.WellScoped terms ∧ ∀ r ∈ refs, r ∈ s.headers := by
  rw [faults, List.append_eq_nil_iff, List.filterMap_eq_nil_iff, List.map_eq_nil_iff,
    List.filter_eq_nil_iff]
  refine and_congr (forall₂_congr fun t _ => ?_) (forall₂_congr fun r _ => ?_)
  · simp [Term.wellScoped]
  · simp [knows]

end ScopeState

namespace Session

variable {ρ : Type}

/-- Accepts the definitions that were declared, but not those of examples. -/
def commitDecls {κ : Type} (s : Session κ ρ) (learn : ρ → Def → ρ) (ds : List Decl) :
    Session κ ρ :=
  s.commitAll learn false (ds.map fun d => (d, d.definition))

section CommitDecls

variable {κ : Type} (s : Session κ ρ) (learn : ρ → Def → ρ) (ds : List Decl)

theorem commitDecls_cons (d : Decl) :
    s.commitDecls learn (d :: ds) =
      (if d.isExample then s else s.commit learn d.definition).commitDecls learn ds := by
  rw [commitDecls, List.map_cons, commitAll_cons, Bool.not_false, Bool.and_true, commitDecls]

theorem mem_accepted_commitDecls {d : Def} :
    d ∈ (s.commitDecls learn ds).accepted ↔ d ∈ s.accepted ∨ ⟨d, false⟩ ∈ ds := by
  rw [commitDecls, accepted_commitAll, List.mem_append]
  refine or_congr_right ?_
  simp only [List.mem_map, List.mem_filter, Bool.or_false, Bool.not_eq_true', Prod.exists,
    Prod.mk.injEq, exists_eq_right]
  constructor
  · intro h
    obtain ⟨-, ⟨⟨definition, isExample⟩, hd, rfl, rfl⟩, hexample⟩ := h
    cases hexample
    exact hd
  · exact fun h => ⟨_, ⟨_, h, rfl, rfl⟩, rfl⟩

theorem get?_fns_commit {d : Def} (hnew : s.env.fns.get? d.id = none) {id : DefId} {f : FnDef} :
    (s.commit learn d).env.fns.get? id = some f ↔
      s.env.fns.get? id = some f ∨ f.id = id ∧ d = .fn f := by
  cases d with
  | fn g =>
    have hget : (s.commit learn (.fn g)).env.fns.get? id =
        if id = g.id then some g else s.env.fns.get? id := Table.get?_insert _ g.id id g
    rw [hget]
    by_cases hid : id = g.id
    · subst hid
      have hold : s.env.fns.get? g.id = none := hnew
      rw [if_pos rfl, hold]
      simp only [Option.some.injEq, reduceCtorEq, false_or, Def.fn.injEq]
      exact ⟨fun h => ⟨h ▸ rfl, h⟩, fun h => h.2⟩
    · rw [if_neg hid]
      refine ⟨.inl, fun h => h.resolve_right fun hg => hid ?_⟩
      rw [← hg.1, Def.fn.inj hg.2]
  | data d =>
    refine ⟨.inl, fun h => h.resolve_right fun hd => ?_⟩
    cases hd.2

/-- New functions are added to those that were known. -/
theorem get?_fns_commitDecls (hnodup : (ds.map Decl.id).Nodup)
    (hnew : ∀ d ∈ ds, s.env.fns.get? d.id = none) {id : DefId} {f : FnDef} :
    (s.commitDecls learn ds).env.fns.get? id = some f ↔
      s.env.fns.get? id = some f ∨ f.id = id ∧ ⟨.fn f, false⟩ ∈ ds := by
  induction ds generalizing s with
  | nil => simp [commitDecls, commitAll]
  | cons d ds ih =>
    rw [List.map_cons, List.nodup_cons] at hnodup
    obtain ⟨definition, isExample⟩ := d
    have hd : s.env.fns.get? definition.id = none :=
      hnew ⟨definition, isExample⟩ (by simp)
    have htail : ∀ d ∈ ds, s.env.fns.get? d.id = none := fun d hd => hnew d (by simp [hd])
    rw [commitDecls_cons]
    cases isExample with
    | true =>
      rw [if_pos rfl, ih s hnodup.2 htail]
      simp
    | false =>
      have hrest : ∀ d ∈ ds, (s.commit learn definition).env.fns.get? d.id = none := by
        intro d hmem
        rw [Option.eq_none_iff_forall_ne_some]
        intro f hf
        rcases (get?_fns_commit s learn hd).mp hf with hf | hf
        · rw [htail d hmem] at hf
          cases hf
        · apply hnodup.1
          have hid : definition.id = d.id := by rw [hf.2]; exact hf.1
          exact List.mem_map.mpr ⟨d, hmem, hid.symm⟩
      rw [if_neg (by simp), ih _ hnodup.2 hrest, get?_fns_commit s learn hd, or_assoc,
        ← and_or_left]
      simp [eq_comm]

end CommitDecls

/-- The session knows exactly the acceptable ones among the units that were dealt with. -/
structure Reflects (fuel : ℕ) (m : Module) (done : List CheckUnit) (s : Session ScopeState ρ) :
    Prop where
  errors : s.tally.errors = 0
  budget : s.env.fuel = fuel
  headers : ∀ id, id ∈ s.headers ↔ .head id ∈ done ∧ m.Acceptable fuel (.head id)
  known : ∀ id, id ∈ s.checker.headers ↔ .head id ∈ done ∧ m.Acceptable fuel (.head id)
  fns : ∀ id f, s.env.fns.get? id = some f ↔
    .body id ∈ done ∧ m.Acceptable fuel (.body id) ∧ m.get? id = some ⟨.fn f, false⟩
  accepted : ∀ d, d ∈ s.accepted ↔
    .body d.id ∈ done ∧ m.Acceptable fuel (.body d.id) ∧ m.get? d.id = some ⟨d, false⟩

namespace Reflects

variable {fuel : ℕ} {m : Module} {done group : List CheckUnit} {s t : Session ScopeState ρ}

/-- Units that are not acceptable change nothing. -/
theorem reject (h : s.Reflects fuel m done) (hgroup : ∀ u ∈ group, ¬ m.Acceptable fuel u)
    (hsame : s.SameState t) (herrors : t.tally.errors = 0) : t.Reflects fuel m (done ++ group) := by
  have hmem : ∀ u, u ∈ done ++ group ∧ m.Acceptable fuel u ↔ u ∈ done ∧ m.Acceptable fuel u := by
    intro u
    rw [List.mem_append]
    constructor
    · intro hu
      exact ⟨hu.1.resolve_right fun hg => hgroup u hg hu.2, hu.2⟩
    · exact fun hu => ⟨.inl hu.1, hu.2⟩
  refine ⟨herrors, by rw [hsame.env, h.budget], fun id => ?_, fun id => ?_, fun id f => ?_,
    fun d => ?_⟩
  · rw [hsame.headers, h.headers, hmem]
  · rw [hsame.checker, h.known, hmem]
  · rw [hsame.env, h.fns, ← and_assoc, ← and_assoc, hmem]
  · rw [hsame.accepted, h.accepted, ← and_assoc, ← and_assoc, hmem]

theorem addHeader (h : s.Reflects fuel m done) {id : DefId} (hid : m.Acceptable fuel (.head id)) :
    (s.addHeader id).Reflects fuel m (done ++ [.head id]) := by
  have hheads : ∀ known : List DefId,
      (∀ r, r ∈ known ↔ .head r ∈ done ∧ m.Acceptable fuel (.head r)) →
      ∀ r, r ∈ known ++ [id] ↔ .head r ∈ done ++ [.head id] ∧ m.Acceptable fuel (.head r) := by
    intro known hknown r
    rw [List.mem_append, List.mem_append, hknown, List.mem_singleton, List.mem_singleton,
      CheckUnit.head.injEq]
    constructor
    · intro hr
      rcases hr with hr | rfl
      · exact ⟨.inl hr.1, hr.2⟩
      · exact ⟨.inr rfl, hid⟩
    · exact fun hr => hr.1.imp_left fun hdone => ⟨hdone, hr.2⟩
  refine ⟨h.errors, h.budget, hheads _ h.headers, hheads _ h.known, fun id f => ?_, fun d => ?_⟩
  · refine (h.fns id f).trans ?_
    simp
  · refine (h.accepted d).trans ?_
    simp

/-- Acceptable bodies are committed. -/
theorem commitDecls (h : s.Reflects fuel m done) (learn : ρ → Def → ρ) {ds : List Decl}
    (hnodup : (ds.map Decl.id).Nodup)
    (hds : ∀ d, d ∈ ds ↔ m.get? d.id = some d ∧ .body d.id ∈ group)
    (hbody : ∀ u ∈ group, u.isHead = false) (hgroup : ∀ u ∈ group, m.Acceptable fuel u)
    (hnew : ∀ u ∈ group, u ∉ done) : (s.commitDecls learn ds).Reflects fuel m (done ++ group) := by
  obtain ⟨hchecker, hheaders, htally, -, hfuel⟩ :=
    s.commitAll_frame learn false (ds.map fun d => (d, d.definition))
  have hheads : ∀ id, .head id ∈ done ++ group ↔ .head id ∈ done := by
    intro id
    rw [List.mem_append, or_iff_left]
    exact fun hmem => Bool.noConfusion (hbody _ hmem)
  have hfresh : ∀ d ∈ ds, s.env.fns.get? d.id = none := by
    intro d hd
    rw [Option.eq_none_iff_forall_ne_some]
    intro f hf
    exact hnew _ ((hds d).mp hd).2 ((h.fns d.id f).mp hf).1
  have hbodies : ∀ d, (.body d.id ∈ done ∧ m.Acceptable fuel (.body d.id) ∧
      m.get? d.id = some ⟨d, false⟩ ∨ ⟨d, false⟩ ∈ ds) ↔
      .body d.id ∈ done ++ group ∧ m.Acceptable fuel (.body d.id) ∧ m.get? d.id = some ⟨d, false⟩ := by
    intro d
    have hd : ⟨d, false⟩ ∈ ds ↔ m.get? d.id = some ⟨d, false⟩ ∧ .body d.id ∈ group := hds _
    rw [hd, List.mem_append]
    constructor
    · intro hmem
      rcases hmem with ⟨hdone, hrest⟩ | ⟨hget, hmem⟩
      · exact ⟨.inl hdone, hrest⟩
      · exact ⟨.inr hmem, hgroup _ hmem, hget⟩
    · intro hmem
      obtain ⟨hdone | hmem, hrest⟩ := hmem
      · exact .inl ⟨hdone, hrest⟩
      · exact .inr ⟨hrest.2, hmem⟩
  refine ⟨(congrArg Tally.errors htally).trans h.errors, hfuel.trans h.budget, fun id => ?_, fun id => ?_, fun id f => ?_,
    fun d => ?_⟩
  · rw [Session.commitDecls, hheaders, h.headers, hheads]
  · rw [Session.commitDecls, hchecker, h.known, hheads]
  · rw [get?_fns_commitDecls s learn ds hnodup hfresh, h.fns]
    constructor
    · intro hmem
      rcases hmem with ⟨hdone, hrest⟩ | ⟨rfl, hmem⟩
      · exact ⟨List.mem_append_left _ hdone, hrest⟩
      · exact (hbodies (.fn f)).mp (.inr hmem)
    · intro hmem
      have hid : f.id = id := Module.id_of_get? hmem.2.2
      subst hid
      exact ((hbodies (.fn f)).mpr hmem).imp_right fun hmem => ⟨rfl, hmem⟩
  · rw [mem_accepted_commitDecls, h.accepted, hbodies]

end Reflects

end Session

end ProofCore
