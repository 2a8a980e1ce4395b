import ProofCore.Proofs.Judgement

/-!
# The two phases of checking a component

Checking a component first asks the checker about its members (`examine`). If nothing is wrong
with them, their recursion is looked at and they are accepted (`conclude`). The first phase always
ends and accepts nothing, the second one does not use the checker. What happens before anything is
accepted is a sequence of moves, each of which asks one question or reports one fault.
-/
namespace ProofCore

/-- The session in which one more signature is known, by the component at hand. -/
def Session.know {κ ρ : Type} (s : Session κ ρ) (id : DefId) : Session κ ρ :=
  { s with headers := s.headers ++ [id], fresh := s.fresh ++ [id] }

theorem CheckM.run_lift_bind {κ ρ α β : Type} (x : Option α) (f : α → CheckM κ ρ β)
    (s : Session κ ρ) : (liftM x >>= f : CheckM κ ρ β).run s = x.bind fun a => (f a).run s := by
  cases x <;> rfl

theorem CheckM.run_bind_of_ok {κ ρ α β : Type} {x : CheckM κ ρ α} {f : α → CheckM κ ρ β} {a : α}
    {s t : Session κ ρ} (h : x.run s = some (.ok a, t)) : (x >>= f).run s = (f a).run t := by
  rw [CheckM.run_bind, h, Option.bind_some]

/-- Two checks in a row: either the second one has the last word, or the first one fails. -/
theorem CheckM.run_bind_cases {κ ρ α β : Type} {x : CheckM κ ρ α} {f : α → CheckM κ ρ β}
    {s t : Session κ ρ} {r : Except Failure β} (h : (x >>= f).run s = some (r, t)) :
    (∃ a t₀, x.run s = some (.ok a, t₀) ∧ (f a).run t₀ = some (r, t)) ∨
      ∃ e, x.run s = some (.error e, t) ∧ r = .error e := by
  rw [CheckM.run_bind] at h
  obtain ⟨⟨r₀, t₀⟩, hfirst, hnext⟩ := Option.bind_eq_some_iff.mp h
  cases r₀ with
  | ok a => exact .inl ⟨a, t₀, hfirst, hnext⟩
  | error e =>
    cases hnext
    exact .inr ⟨e, hfirst, rfl⟩

namespace Setup

variable {κ ρ : Type} {c : Setup κ ρ} {s t : Session κ ρ}

/-- The session after the checker was asked about a signature. -/
def askHeader (c : Setup κ ρ) (s : Session κ ρ) (d : Decl) : Session κ ρ :=
  ({ s with checker := (c.checker.header s.checker d).1 } : Session κ ρ).reportAll
    (c.checker.header s.checker d).2

/-- The session after the checker was asked about a body. -/
def askBody (c : Setup κ ρ) (s : Session κ ρ) (d : Decl) : Session κ ρ :=
  ({ s with checker := (c.checker.body s.checker d).1 } : Session κ ρ).reportAll
    (c.checker.body s.checker d).2.1

theorem fail_bind {α β : Type} (units : List CheckUnit) (f : Fault) (g : α → CheckM κ ρ β) :
    (fail units f : CheckM κ ρ α) >>= g = fail units f := rfl

theorem run_declOf {u : CheckUnit} {d : Decl} (h : c.module.get? u.id = some d)
    (s : Session κ ρ) : (c.declOf u).run s = some (.ok d, s) := by
  rw [declOf, h]
  rfl

theorem run_checkHeader (c : Setup κ ρ) (u : CheckUnit) (d : Decl) (s : Session κ ρ) :
    (c.checkHeader u d).run s =
      if d.id ∈ s.headers then some (.ok (), s)
      else if (c.askHeader s d).tally.anyError then some (.error ⟨[u]⟩, c.askHeader s d)
      else some (.ok (), (c.askHeader s d).know d.id) := by
  have hrun : (c.checkHeader u d).run s = (if d.id ∈ s.headers then pure ()
      else if (c.askHeader s d).tally.anyError then do
        set (c.askHeader s d)
        throw ⟨[u]⟩
      else set ((c.askHeader s d).know d.id) : CheckM κ ρ Unit).run s := rfl
  rw [hrun]
  split
  · rfl
  · split <;> rfl

theorem run_checkBody (c : Setup κ ρ) (u : CheckUnit) (d : Decl) (s : Session κ ρ) :
    (c.checkBody u d).run s =
      if (c.askBody s d).tally.anyError then some (.error ⟨[u]⟩, c.askBody s d)
      else match (c.checker.body s.checker d).2.2 with
        | some result => some (.ok result, c.askBody s d)
        | none => some (.error ⟨[u]⟩,
            (c.askBody s d).report (Fault.missingDefinition d.name).diagnostic) := by
  have hrun : (c.checkBody u d).run s = (if (c.askBody s d).tally.anyError then throw ⟨[u]⟩
      else match (c.checker.body s.checker d).2.2 with
        | some result => return result
        | none => fail [u] (.missingDefinition d.name) : CheckM κ ρ Def).run (c.askBody s d) := rfl
  rw [hrun]
  split
  · rfl
  · cases (c.checker.body s.checker d).2.2 <;> rfl

/-- A signature is known already, or the checker is asked about it and finds an error or none. -/
theorem checkHeader_cases {u : CheckUnit} {d : Decl} {r : Except Failure Unit}
    (h : (c.checkHeader u d).run s = some (r, t)) :
    d.id ∈ s.headers ∧ r = .ok () ∧ t = s ∨
      d.id ∉ s.headers ∧ (c.askHeader s d).tally.anyError = true ∧
        r = .error ⟨[u]⟩ ∧ t = c.askHeader s d ∨
      d.id ∉ s.headers ∧ (c.askHeader s d).tally.anyError = false ∧
        r = .ok () ∧ t = (c.askHeader s d).know d.id := by
  rw [run_checkHeader] at h
  by_cases hknown : d.id ∈ s.headers
  · rw [if_pos hknown] at h
    cases h
    exact .inl ⟨hknown, rfl, rfl⟩
  · rw [if_neg hknown] at h
    cases hbad : (c.askHeader s d).tally.anyError with
    | true =>
      rw [hbad] at h
      cases h
      exact .inr (.inl ⟨hknown, rfl, rfl, rfl⟩)
    | false =>
      rw [hbad] at h
      cases h
      exact .inr (.inr ⟨hknown, rfl, rfl, rfl⟩)

/-- Asked about a body, the checker finds an error, or it returns a definition, or it does neither,
which is an error as well. -/
theorem checkBody_cases {u : CheckUnit} {d : Decl} {r : Except Failure Def}
    (h : (c.checkBody u d).run s = some (r, t)) :
    (c.askBody s d).tally.anyError = true ∧ r = .error ⟨[u]⟩ ∧ t = c.askBody s d ∨
      (c.askBody s d).tally.anyError = false ∧
        (∃ result, (c.checker.body s.checker d).2.2 = some result ∧
          r = .ok result ∧ t = c.askBody s d) ∨
      (c.askBody s d).tally.anyError = false ∧ r = .error ⟨[u]⟩ ∧
        t = (c.askBody s d).report (Fault.missingDefinition d.name).diagnostic := by
  rw [run_checkBody] at h
  cases hbad : (c.askBody s d).tally.anyError with
  | true =>
    rw [hbad] at h
    cases h
    exact .inl ⟨rfl, rfl, rfl⟩
  | false =>
    rw [hbad] at h
    cases hresult : (c.checker.body s.checker d).2.2 with
    | some result =>
      rw [hresult] at h
      cases h
      exact .inr (.inl ⟨rfl, result, rfl, rfl, rfl⟩)
    | none =>
      rw [hresult] at h
      cases h
      exact .inr (.inr ⟨rfl, rfl, rfl⟩)

/-- Looking at the recursion of a group reports nothing, or it reports faults of the recursion and
fails with a part of the group. -/
theorem run_checkTermination {pending : List Def} {group : List CheckUnit}
    {r : Except Failure Unit} (h : (c.checkTermination pending group).run s = some (r, t)) :
    r = .ok () ∧ t = s ∨
      ∃ (e : Failure) (calls : CallGraph) (ids : List DefId), r = .error e ∧
        t = s.reportAll (ids.map fun id => (c.terminationFault calls id).diagnostic) ∧
        ids ≠ [] ∧ e.units.Sublist group ∧ (group ≠ [] → e.units ≠ []) := by
  unfold checkTermination at h
  by_cases hfns : (pending.filterMap Def.fn?).isEmpty = true
  · rw [if_pos hfns] at h
    cases h
    exact .inl ⟨rfl, rfl⟩
  · rw [if_neg hfns] at h
    replace h := (CheckM.run_lift_bind _ _ s).symm.trans h
    obtain ⟨calls, -, hnext⟩ := Option.bind_eq_some_iff.mp h
    replace hnext := (CheckM.run_lift_bind _ _ s).symm.trans hnext
    obtain ⟨loops, -, hnext⟩ := Option.bind_eq_some_iff.mp hnext
    dsimp only at hnext
    split at hnext
    · cases hnext
      exact .inl ⟨rfl, rfl⟩
    · rename_i hfailing
      cases hnext
      refine .inr ⟨_, calls, _, rfl, rfl, fun hnone => hfailing (by rw [hnone]; rfl), ?_, ?_⟩
      · dsimp only
        split
        · exact List.Sublist.refl _
        · exact List.filter_sublist
      · intro hgroup
        dsimp only
        split
        · exact hgroup
        · rename_i hunits
          exact fun hnone => hunits (by rw [hnone]; rfl)

/-- One move of a component check before anything is accepted. -/
inductive Move (c : Setup κ ρ) : Session κ ρ → Session κ ρ → Prop
  | report (s : Session κ ρ) (f : Fault) : Move c s (s.report f.diagnostic)
  | rejectHeader (s : Session κ ρ) (d : Decl) (new : d.id ∉ s.headers)
      (bad : (c.askHeader s d).tally.anyError = true) : Move c s (c.askHeader s d)
  | acceptHeader (s : Session κ ρ) (d : Decl) (new : d.id ∉ s.headers)
      (good : (c.askHeader s d).tally.anyError = false) :
      Move c s ((c.askHeader s d).know d.id)
  | askBody (s : Session κ ρ) (d : Decl) : Move c s (c.askBody s d)

/-- Whatever the check comes to, it gets there by moves. -/
def OnlyMoves {α : Type} (c : Setup κ ρ) (x : CheckM κ ρ α) : Prop :=
  ∀ s r t, x.run s = some (r, t) → Relation.ReflTransGen c.Move s t

namespace OnlyMoves

variable {α β : Type}

theorem pure (a : α) : c.OnlyMoves (Pure.pure a) := by
  intro s r t h
  cases h
  exact .refl

theorem bind {x : CheckM κ ρ α} {f : α → CheckM κ ρ β} (hx : c.OnlyMoves x)
    (hf : ∀ a, c.OnlyMoves (f a)) : c.OnlyMoves (x >>= f) := by
  intro s r t h
  rcases CheckM.run_bind_cases h with ⟨a, t₀, hfirst, hnext⟩ | ⟨e, hfirst, -⟩
  · exact (hx s _ t₀ hfirst).trans (hf a t₀ r t hnext)
  · exact hx s _ t hfirst

theorem mapM {f : α → CheckM κ ρ β} (hf : ∀ a, c.OnlyMoves (f a)) (xs : List α) :
    c.OnlyMoves (xs.mapM f) :=
  CheckM.mapM_of_rel (R := fun x _ => c.OnlyMoves x) pure bind (g := f) fun a _ => hf a

end OnlyMoves

theorem onlyMoves_fail {α : Type} (units : List CheckUnit) (f : Fault) :
    c.OnlyMoves (fail units f : CheckM κ ρ α) := by
  intro s r t h
  cases h
  exact .single (.report s f)

theorem onlyMoves_declOf (u : CheckUnit) : c.OnlyMoves (c.declOf u) := by
  unfold declOf
  split
  · exact .pure _
  · exact onlyMoves_fail _ _

theorem onlyMoves_checkHeader (u : CheckUnit) (d : Decl) : c.OnlyMoves (c.checkHeader u d) := by
  intro s r t h
  rcases checkHeader_cases h with
    ⟨-, -, rfl⟩ | ⟨hnew, hbad, -, rfl⟩ | ⟨hnew, hgood, -, rfl⟩
  · exact .refl
  · exact .single (.rejectHeader s d hnew hbad)
  · exact .single (.acceptHeader s d hnew hgood)

theorem onlyMoves_checkBody (u : CheckUnit) (d : Decl) : c.OnlyMoves (c.checkBody u d) := by
  intro s r t h
  have hask : Relation.ReflTransGen c.Move s (c.askBody s d) := .single (.askBody s d)
  rcases checkBody_cases h with ⟨-, -, rfl⟩ | ⟨-, _, -, -, rfl⟩ | ⟨-, -, rfl⟩
  · exact hask
  · exact hask
  · exact hask.tail (.report _ _)

/-- Asks the checker about one unit. A good body gives a definition to accept. -/
def examineUnit (c : Setup κ ρ) (u : CheckUnit) : CheckM κ ρ (List (Decl × Def)) := do
  let d ← c.declOf u
  if u.isHead then
    if c.graph.onCycle u then fail [u] (.selfReference d.name)
    else
      c.checkHeader u d
      return []
  else if c.graph.onCycle u && d.definition.isExprFn then fail [u] (.badRecursion d.name)
  else
    c.checkHeader u d
    return [(d, ← c.checkBody u d)]

/-- Looks at the recursion of a body and accepts its definition. -/
def concludeUnit (c : Setup κ ρ) (u : CheckUnit) (pending : List (Decl × Def)) :
    CheckM κ ρ Unit := do
  if !u.isHead && c.graph.onCycle u then c.checkTermination (pending.map Prod.snd) [u]
  c.commit pending

theorem commit_nil : c.commit [] = pure () := rfl

theorem checkUnit_eq (u : CheckUnit) : c.checkUnit u = c.examineUnit u >>= c.concludeUnit u := by
  cases u with
  | head id =>
    rw [checkUnit_head, examineUnit, bind_assoc]
    refine bind_congr fun d => ?_
    simp only [CheckUnit.isHead, if_true]
    split
    · rw [fail_bind]
    · simp [concludeUnit, CheckUnit.isHead, commit_nil]
  | body id =>
    rw [checkUnit_body, examineUnit, bind_assoc]
    refine bind_congr fun d => ?_
    simp only [CheckUnit.isHead, Bool.false_eq_true, if_false]
    split
    · rw [fail_bind]
    · simp [concludeUnit, CheckUnit.isHead]

/-- Asks the checker about all signatures of a group, then about all bodies. -/
def examineGroup (c : Setup κ ρ) (ids : List DefId) : CheckM κ ρ (List (Decl × Def)) := do
  let decls ← ids.mapM fun id => do
    let d ← c.declOf (.body id)
    c.checkHeader (.body id) d
    return d
  decls.mapM fun d => return (d, ← c.checkBody (.body d.id) d)

theorem checkGroup_eq (ids : List DefId) (group : List CheckUnit) :
    c.checkGroup ids group = c.examineGroup ids >>= fun pending =>
      c.checkTermination (pending.map Prod.snd) group >>= fun _ => c.commit pending := by
  simp only [checkGroup, examineGroup, bind_assoc]

/-- Asks the checker about the members of a component. -/
def examine (c : Setup κ ρ) : List CheckUnit → CheckM κ ρ (List (Decl × Def))
  | [] => return []
  | [u] => c.examineUnit u
  | group =>
    if 2 ≤ (group.filter CheckUnit.isHead).length then
      fail group (.circularSignature (c.groupNames group))
    else
      match c.declIds group with
      | [id] => c.examineUnit (.body id)
      | ids => c.examineGroup ids

/-- Looks at the recursion between the members of a component and accepts them. -/
def conclude (c : Setup κ ρ) : List CheckUnit → List (Decl × Def) → CheckM κ ρ Unit
  | [], pending => c.commit pending
  | [u], pending => c.concludeUnit u pending
  | group, pending =>
    match c.declIds group with
    | [id] => c.concludeUnit (.body id) pending
    | _ => do
      c.checkTermination (pending.map Prod.snd) group
      c.commit pending

theorem checkMembers_eq (group : List CheckUnit) :
    c.checkMembers group = c.examine group >>= c.conclude group := by
  rcases group with _ | ⟨u, _ | ⟨v, rest⟩⟩
  · rfl
  · exact checkUnit_eq u
  · simp only [checkMembers, checkMutual, examine]
    split
    · rw [fail_bind]
    · -- both phases ask in the same way whether the group has a single declaration
      change _ = _ >>= fun pending => c.conclude (u :: v :: rest) pending
      simp only [conclude]
      rcases c.declIds (u :: v :: rest) with _ | ⟨id, _ | ⟨id', ids⟩⟩
      · exact checkGroup_eq [] (u :: v :: rest)
      · exact checkUnit_eq (.body id)
      · exact checkGroup_eq (id :: id' :: ids) (u :: v :: rest)

theorem onlyMoves_examineUnit (u : CheckUnit) : c.OnlyMoves (c.examineUnit u) := by
  refine (onlyMoves_declOf u).bind fun d => ?_
  split
  · split
    · exact onlyMoves_fail _ _
    · exact (onlyMoves_checkHeader u d).bind fun _ => .pure []
  · split
    · exact onlyMoves_fail _ _
    · refine (onlyMoves_checkHeader u d).bind fun _ => ?_
      exact (onlyMoves_checkBody u d).bind fun result => .pure [(d, result)]

theorem onlyMoves_examineGroup (ids : List DefId) : c.OnlyMoves (c.examineGroup ids) := by
  refine OnlyMoves.bind (.mapM (fun id => ?_) ids) fun decls => .mapM (fun d => ?_) decls
  · refine (onlyMoves_declOf (.body id)).bind fun d => ?_
    exact (onlyMoves_checkHeader (.body id) d).bind fun _ => .pure d
  · exact (onlyMoves_checkBody (.body d.id) d).bind fun result => .pure (d, result)

theorem onlyMoves_examine (group : List CheckUnit) : c.OnlyMoves (c.examine group) := by
  unfold examine
  split
  · exact .pure []
  · exact onlyMoves_examineUnit _
  · split
    · exact onlyMoves_fail _ _
    · split
      · exact onlyMoves_examineUnit _
      · exact onlyMoves_examineGroup _

/-- The second phase accepts what it was given, or it finds faults in the recursion. -/
def Concluded (c : Setup κ ρ) (s : Session κ ρ) (pending : List (Decl × Def))
    (r : Except Failure Unit) (t : Session κ ρ) : Prop :=
  r = .ok () ∧ t = s.commitAll c.learn c.keepExamples pending ∨
    ∃ (failure : Failure) (calls : CallGraph) (ids : List DefId), r = .error failure ∧
      t = s.reportAll (ids.map fun id => (c.terminationFault calls id).diagnostic)

theorem concluded_commit {pending : List (Decl × Def)} {r : Except Failure Unit}
    (h : (c.commit pending).run s = some (r, t)) : c.Concluded s pending r t := by
  cases h
  exact .inl ⟨rfl, rfl⟩

theorem concluded_termination {pending : List (Decl × Def)} {units : List CheckUnit}
    {r : Except Failure Unit}
    (h : (c.checkTermination (pending.map Prod.snd) units >>= fun _ => c.commit pending).run s =
      some (r, t)) : c.Concluded s pending r t := by
  rcases CheckM.run_bind_cases h with ⟨_, t₀, hfirst, hnext⟩ | ⟨e, hfirst, rfl⟩
  · rcases run_checkTermination hfirst with ⟨-, rfl⟩ | ⟨_, _, _, herror, -⟩
    · exact concluded_commit hnext
    · cases herror
  · rcases run_checkTermination hfirst with ⟨hok, -⟩ | ⟨_, calls, ids, -, ht, -⟩
    · cases hok
    · exact .inr ⟨e, calls, ids, rfl, ht⟩

theorem concluded_unit {u : CheckUnit} {pending : List (Decl × Def)} {r : Except Failure Unit}
    (h : (c.concludeUnit u pending).run s = some (r, t)) : c.Concluded s pending r t := by
  unfold concludeUnit at h
  split at h
  · exact concluded_termination h
  · exact concluded_commit h

theorem concluded_conclude {group : List CheckUnit} {pending : List (Decl × Def)}
    {r : Except Failure Unit} (h : (c.conclude group pending).run s = some (r, t)) :
    c.Concluded s pending r t := by
  unfold conclude at h
  split at h
  · exact concluded_commit h
  · exact concluded_unit h
  · split at h
    · exact concluded_unit h
    · exact concluded_termination h

/-- A component is accepted after its examination, or it fails, and then all that came after the
examination are faults of its recursion. -/
theorem checkComponent_cases {group : List CheckUnit} {r : Except Failure Unit}
    (h : c.checkComponent group s = some (r, t)) :
    (∃ pending t₀, (c.examine group).run { s with fresh := [] } = some (.ok pending, t₀) ∧
      r = .ok () ∧ t = t₀.commitAll c.learn c.keepExamples pending) ∨
    ∃ (failure : Failure) (r₀ : Except Failure (List (Decl × Def))) (t₀ : Session κ ρ)
      (calls : CallGraph) (ids : List DefId),
      (c.examine group).run { s with fresh := [] } = some (r₀, t₀) ∧ r = .error failure ∧
        t = (t₀.reportAll
          (ids.map fun id => (c.terminationFault calls id).diagnostic)).rollback := by
  obtain ⟨⟨r₁, t₁⟩, hrun, hend⟩ := Option.bind_eq_some_iff.mp h
  rw [checkMembers_eq] at hrun
  rcases CheckM.run_bind_cases hrun with ⟨pending, t₀, hexamine, hconclude⟩ | ⟨e, hexamine, rfl⟩
  · rcases concluded_conclude hconclude with ⟨rfl, rfl⟩ | ⟨e, calls, ids, rfl, rfl⟩
    · cases hend
      exact .inl ⟨pending, t₀, hexamine, rfl, rfl⟩
    · cases hend
      exact .inr ⟨e, _, t₀, calls, ids, hexamine, rfl, rfl⟩
  · cases hend
    exact .inr ⟨e, _, t₁, .empty, [], hexamine, rfl, rfl⟩

end Setup

end ProofCore
