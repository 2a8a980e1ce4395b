import ProofCore.Proofs.Deliveries

/-!
# Checks with and without examples

Whether examples are kept decides what a check hands on, and with it what later evaluation may
unfold. Two checks of one module, one that keeps its examples and one that drops them, are followed
side by side. Their sessions mirror each other, and everything that is asked of the checker keeps
them so.
-/
namespace ProofCore

open DependencyGraph (ofModule)

namespace Module

/-- The module declares an example of this id. -/
def isExample (m : Module) (id : DefId) : Bool := (m.get? id).any Decl.isExample

theorem isExample_of_get? {m : Module} {id : DefId} {d : Decl} (h : m.get? id = some d) :
    m.isExample id = d.isExample := by
  rw [isExample, h, Option.any_some]

end Module

theorem Def.fn?_eq_some_iff {d : Def} {f : FnDef} : d.fn? = some f ↔ d = .fn f := by
  cases d <;> simp [fn?]

theorem Env.get?_fns_add (env : Env) (d : Def) (id : DefId) :
    (env.add d).fns.get? id = (if id = d.id then d.fn? else none).or (env.fns.get? id) := by
  cases d with
  | fn f =>
    refine (Table.get?_insert _ f.id id f).trans ?_
    by_cases h : id = f.id <;> simp [h, Def.id, Def.fn?]
  | data d => simp [add, Def.fn?]

theorem Env.get?_fns_add_of_ne (env : Env) {d : Def} {id : DefId} (h : id ≠ d.id) :
    (env.add d).fns.get? id = env.fns.get? id := by
  rw [get?_fns_add, if_neg h, Option.none_or]

theorem Env.fuel_add (env : Env) (d : Def) : (env.add d).fuel = env.fuel := by cases d <;> rfl

namespace Session

variable {κ ρ : Type} {m : Module} {done : List CheckUnit} {s s' : Session κ ρ}

/-- The functions that evaluation may unfold are the module's own, from units that are done. -/
def HoldsOwn (m : Module) (done : List CheckUnit) (s : Session κ ρ) : Prop :=
  ∀ id f, s.env.fns.get? id = some f →
    .body id ∈ done ∧ ∃ d, m.get? id = some d ∧ d.definition = .fn f

theorem HoldsOwn.commit (h : s.HoldsOwn m done) (learn : ρ → Def → ρ) {d : Decl}
    (hget : m.get? d.id = some d) (hdone : .body d.id ∈ done) :
    (s.commit learn d.definition).HoldsOwn m done := by
  intro id f hf
  replace hf : (s.env.add d.definition).fns.get? id = some f := hf
  by_cases hid : id = d.definition.id
  · rw [Env.get?_fns_add, if_pos hid, Option.or_eq_some_iff] at hf
    rcases hf with hf | ⟨-, hf⟩
    · subst hid
      exact ⟨hdone, d, hget, Def.fn?_eq_some_iff.mp hf⟩
    · exact h id f hf
  · rw [Env.get?_fns_add_of_ne _ hid] at hf
    exact h id f hf

/-- Two sessions in the check of `m`, after the units `done`, that are alike but for the examples,
which only the first one has kept. -/
structure Mirrors (m : Module) (done : List CheckUnit) (s s' : Session κ ρ) : Prop where
  checker : s'.checker = s.checker
  headers : s'.headers = s.headers
  fresh : s'.fresh = s.fresh
  tally : s'.tally = s.tally
  reported : s'.reported = s.reported
  accepted : s'.accepted = s.accepted.filter fun d => !m.isExample d.id
  fuel : s'.env.fuel = s.env.fuel
  fns : ∀ id, s'.env.fns.get? id = if m.isExample id then none else s.env.fns.get? id
  own : s.HoldsOwn m done

namespace Mirrors

theorem start (m : Module) (checker : κ) (shapes : ρ) (fuel : ℕ) :
    Mirrors m [] { checker := checker, shapes := shapes, env := { fuel := fuel } }
      { checker := checker, shapes := shapes, env := { fuel := fuel } } where
  checker := rfl
  headers := rfl
  fresh := rfl
  tally := rfl
  reported := rfl
  accepted := rfl
  fuel := rfl
  fns id := by split <;> rfl
  own id f h := by cases h

theorem mono (h : s.Mirrors m done s') {done' : List CheckUnit} (hsub : done ⊆ done') :
    s.Mirrors m done' s' :=
  { h with own := fun id f hf => ⟨hsub (h.own id f hf).1, (h.own id f hf).2⟩ }

theorem report (h : s.Mirrors m done s') (d : Diagnostic) :
    (s.report d).Mirrors m done (s'.report d) :=
  { h with
    tally := congrArg (Tally.count · d) h.tally
    reported := congrArg (· ++ [d]) h.reported }

theorem reportAll (h : s.Mirrors m done s') (ds : List Diagnostic) :
    (s.reportAll ds).Mirrors m done (s'.reportAll ds) := by
  induction ds generalizing s s' with
  | nil => exact h
  | cons d ds ih => exact ih (h.report d)

/-- The checker is asked in both sessions and answers the same. -/
theorem ask (h : s.Mirrors m done s') (k : κ) (ds : List Diagnostic) :
    (({ s with checker := k } : Session κ ρ).reportAll ds).Mirrors m done
      (({ s' with checker := k } : Session κ ρ).reportAll ds) := by
  have hasked : Mirrors m done { s with checker := k } { s' with checker := k } :=
    { h with checker := rfl }
  exact hasked.reportAll ds

theorem know (h : s.Mirrors m done s') (id : DefId) :
    (s.know id).Mirrors m done (s'.know id) :=
  { h with
    headers := congrArg (· ++ [id]) h.headers
    fresh := congrArg (· ++ [id]) h.fresh }

theorem begin (h : s.Mirrors m done s') :
    Mirrors m done { s with fresh := [] } { s' with fresh := [] } :=
  { h with fresh := rfl }

theorem rollback (h : s.Mirrors m done s') : s.rollback.Mirrors m done s'.rollback :=
  { h with
    headers := by simp only [Session.rollback, h.headers, h.fresh]
    fresh := rfl
    tally := rfl }

/-- A definition is accepted in both sessions, unless it is an example. -/
theorem commit (h : s.Mirrors m done s') (learn : ρ → Def → ρ) {d : Decl}
    (hget : m.get? d.id = some d) (hdone : .body d.id ∈ done) :
    (s.commit learn d.definition).Mirrors m done
      (if d.isExample then s' else s'.commit learn d.definition) := by
  have hexample : m.isExample d.definition.id = d.isExample := Module.isExample_of_get? hget
  have hown := h.own.commit learn hget hdone
  split
  · rename_i hdrop
    refine { h with accepted := ?_, fns := fun id => ?_, fuel := ?_, own := hown }
    · simp [Session.commit, hexample, hdrop, h.accepted]
    · exact h.fuel.trans (Env.fuel_add _ _).symm
    · rw [h.fns]
      refine ite_congr rfl (fun _ => rfl) fun hno => (Env.get?_fns_add_of_ne _ ?_).symm
      rintro rfl
      exact hno (hexample.trans hdrop)
  · rename_i hkeep
    refine { h with accepted := ?_, fns := fun id => ?_, fuel := ?_, own := hown }
    · simp [Session.commit, hexample, hkeep, h.accepted]
    · exact (Env.fuel_add _ _).trans (h.fuel.trans (Env.fuel_add _ _).symm)
    · by_cases hid : id = d.definition.id
      · subst hid
        have hfns := h.fns d.definition.id
        rw [if_neg (by rwa [hexample])] at hfns ⊢
        exact (Env.get?_fns_add _ _ _).trans (by rw [hfns, ← Env.get?_fns_add]; rfl)
      · refine (Env.get?_fns_add_of_ne _ hid).trans ((h.fns id).trans ?_)
        rw [← Env.get?_fns_add_of_ne s.env hid]
        rfl

end Mirrors

end Session

namespace CheckM

variable {κ ρ α β : Type} {m : Module} {done done' : List CheckUnit}

/-- Begun in sessions that mirror each other, the checks end alike, and in such sessions. -/
def Parallel (m : Module) (done done' : List CheckUnit) (x x' : CheckM κ ρ α) : Prop :=
  ∀ ⦃s s' t t' r r'⦄, s.Mirrors m done s' → x.run s = some (r, t) → x'.run s' = some (r', t') →
    r' = r ∧ t.Mirrors m done' t'

namespace Parallel

theorem pure (a : α) : Parallel m done done (Pure.pure a : CheckM κ ρ α) (Pure.pure a) := by
  intro s s' t t' r r' hs h h'
  cases h
  cases h'
  exact ⟨rfl, hs⟩

/-- The second checks may rely on what the first ones return. -/
theorem bind_of {x x' : CheckM κ ρ α} {f f' : α → CheckM κ ρ β} {Q : α → Prop}
    (hx : Parallel m done done x x') (hQ : ∀ s a t, x.run s = some (.ok a, t) → Q a)
    (hf : ∀ a, Q a → Parallel m done done' (f a) (f' a)) (hsub : done ⊆ done') :
    Parallel m done done' (x >>= f) (x' >>= f') := by
  intro s s' t t' r r' hs h h'
  rcases run_bind_cases h with ⟨a, t₀, hfirst, hnext⟩ | ⟨e, hfirst, rfl⟩
  · rcases run_bind_cases h' with ⟨a', t₀', hfirst', hnext'⟩ | ⟨e, hfirst', -⟩
    · obtain ⟨hresult, ht₀⟩ := hx hs hfirst hfirst'
      cases hresult
      exact hf a (hQ s a t₀ hfirst) ht₀ hnext hnext'
    · cases (hx hs hfirst hfirst').1
  · rcases run_bind_cases h' with ⟨a', t₀', hfirst', -⟩ | ⟨e', hfirst', rfl⟩
    · cases (hx hs hfirst hfirst').1
    · obtain ⟨hresult, ht⟩ := hx hs hfirst hfirst'
      cases hresult
      exact ⟨rfl, ht.mono hsub⟩

theorem bind {x x' : CheckM κ ρ α} {f f' : α → CheckM κ ρ β} (hx : Parallel m done done x x')
    (hf : ∀ a, Parallel m done done (f a) (f' a)) : Parallel m done done (x >>= f) (x' >>= f') :=
  hx.bind_of (fun _ _ _ _ => trivial) (fun a (_ : True) => hf a) (List.Subset.refl done)

theorem mapM {f f' : α → CheckM κ ρ β} (hf : ∀ a, Parallel m done done (f a) (f' a))
    (xs : List α) : Parallel m done done (xs.mapM f) (xs.mapM f') :=
  mapM_of_rel (R := Parallel m done done) pure bind fun a _ => hf a

end Parallel

end CheckM

namespace Setup

open CheckM Session

variable {κ ρ α : Type} {c : Setup κ ρ} {m : Module} {done group : List CheckUnit}

theorem parallel_fail (units : List CheckUnit) (f : Fault) :
    Parallel m done done (fail units f : CheckM κ ρ α) (fail units f) := by
  intro s s' t t' r r' hs h h'
  cases h
  cases h'
  exact ⟨rfl, hs.report f.diagnostic⟩

theorem parallel_declOf (u : CheckUnit) : Parallel m done done (c.declOf u) (c.declOf u) := by
  unfold declOf
  split
  · exact .pure _
  · exact parallel_fail _ _

theorem parallel_checkHeader (u : CheckUnit) (d : Decl) :
    Parallel m done done (c.checkHeader u d) (c.checkHeader u d) := by
  intro s s' t t' r r' hs h h'
  have hasked : (c.askHeader s d).Mirrors m done (c.askHeader s' d) := by
    rw [askHeader, askHeader, hs.checker]
    exact hs.ask _ _
  rw [run_checkHeader] at h h'
  rw [hs.headers, hasked.tally] at h'
  split at h
  · rename_i hknown
    rw [if_pos hknown] at h'
    cases h
    cases h'
    exact ⟨rfl, hs⟩
  · rename_i hnew
    rw [if_neg hnew] at h'
    split at h
    · rename_i hbad
      rw [if_pos hbad] at h'
      cases h
      cases h'
      exact ⟨rfl, hasked⟩
    · rename_i hgood
      rw [if_neg hgood] at h'
      cases h
      cases h'
      exact ⟨rfl, hasked.know d.id⟩

theorem parallel_checkBody (u : CheckUnit) (d : Decl) :
    Parallel m done done (c.checkBody u d) (c.checkBody u d) := by
  intro s s' t t' r r' hs h h'
  have hasked : (c.askBody s d).Mirrors m done (c.askBody s' d) := by
    rw [askBody, askBody, hs.checker]
    exact hs.ask _ _
  rw [run_checkBody] at h h'
  rw [hs.checker, hasked.tally] at h'
  split at h
  · rename_i hbad
    rw [if_pos hbad] at h'
    cases h
    cases h'
    exact ⟨rfl, hasked⟩
  · rename_i hgood
    rw [if_neg hgood] at h'
    cases hresult : (c.checker.body s.checker d).2.2 with
    | some result =>
      rw [hresult] at h h'
      cases h
      cases h'
      exact ⟨rfl, hasked⟩
    | none =>
      rw [hresult] at h h'
      cases h
      cases h'
      exact ⟨rfl, hasked.report _⟩

theorem parallel_examineUnit (u : CheckUnit) :
    Parallel m done done (c.examineUnit u) (c.examineUnit u) := by
  refine (parallel_declOf u).bind fun d => ?_
  split
  · split
    · exact parallel_fail _ _
    · exact (parallel_checkHeader u d).bind fun _ => .pure []
  · split
    · exact parallel_fail _ _
    · refine (parallel_checkHeader u d).bind fun _ => ?_
      exact (parallel_checkBody u d).bind fun result => .pure [(d, result)]

theorem parallel_examineGroup (ids : List DefId) :
    Parallel m done done (c.examineGroup ids) (c.examineGroup ids) := by
  refine Parallel.bind (.mapM (fun id => ?_) ids) fun decls => .mapM (fun d => ?_) decls
  · refine (parallel_declOf (.body id)).bind fun d => ?_
    exact (parallel_checkHeader (.body id) d).bind fun _ => .pure d
  · exact (parallel_checkBody (.body d.id) d).bind fun result => .pure (d, result)

/-- Nothing that a check asks the checker depends on the examples that were kept. -/
theorem parallel_examine (group : List CheckUnit) :
    Parallel m done done (c.examine group) (c.examine group) := by
  unfold examine
  split
  · exact .pure []
  · exact parallel_examineUnit _
  · split
    · exact parallel_fail _ _
    · split
      · exact parallel_examineUnit _
      · exact parallel_examineGroup _

end Setup

end ProofCore
