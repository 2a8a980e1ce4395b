import ProofCore.Proofs.EvaluationTransfer

/-!
# Evaluation that pays for its contractions

Evaluation has a budget for the unfolding of functions but none for the contraction of
applications. Here is the same evaluation with a second budget: each contraction, also of an
application that arises where a term is opened, takes one unit of it, and without one evaluation
gives up. For a large enough second budget this changes nothing.
-/
namespace ProofCore

/-- The contractions and the unfoldings that may still be made. -/
structure Budget where
  contractions : ℕ
  fuel : ℕ

/-- Evaluation within a budget. It gives up with an error if it cannot pay for a contraction, and
yields nothing if nested calls ran out of room. -/
abbrev Metered := StateT Budget (ExceptT Unit Option)

namespace Metered

def exhausted {α : Type} : Metered α := fun _ => none

/-- Pays for a contraction. -/
def contract : Metered Unit := fun s =>
  match s.contractions with
  | 0 => some (.error ())
  | n + 1 => some (.ok ((), { s with contractions := n }))

/-- Pays for an unfolding, if there is fuel. -/
def unfold : Metered Bool := fun s =>
  match s.fuel with
  | 0 => some (.ok (false, s))
  | n + 1 => some (.ok (true, { s with fuel := n }))

section Bind

variable {α β : Type} {x : Metered α} {f : α → Metered β} {s s' : Budget}

theorem bind_of_ok {a : α} (h : x s = some (.ok (a, s'))) : (x >>= f) s = f a s' := by
  change (x s).bind _ = _
  rw [h]
  rfl

theorem bind_of_error (h : x s = some (.error ())) : (x >>= f) s = some (.error ()) := by
  change (x s).bind _ = _
  rw [h]
  rfl

theorem bind_of_none (h : x s = none) : (x >>= f) s = none := by
  change (x s).bind _ = _
  rw [h]
  rfl

end Bind

end Metered

namespace Term

def openStepWithin (go : ℕ → List Term → Term → Metered Term) (start : ℕ) (args : List Term) :
    Term → Metered Term
  | .bound index =>
    if index < start then return .bound index
    else return (args[index - start]?).getD (.bound index)
  | .app fn arg => do
    let fn ← go start args fn
    let arg ← go start args arg
    match fn with
    | .lam body =>
      Metered.contract
      go 0 [arg] body
    | fn => return .app fn arg
  | t => t.mapChildrenM fun binders c => go (start + binders) args c

/-- Opens a term within a budget. -/
def openWithin : ℕ → ℕ → List Term → Term → Metered Term
  | 0, _, _, _ => .exhausted
  | stack + 1, start, args, t =>
    if args.isEmpty then return t else openStepWithin (openWithin stack) start args t

end Term

namespace Env

def unfoldClausesWithin (go : Term → Metered Term) (stack : ℕ) (args : List Term) :
    List Clause → Metered (Option Term)
  | [] => return none
  | c :: cs => do
    match ← Pattern.matchList go c.patterns args with
    | .matched bound => return some (← c.body.openWithin stack 0 bound.reverse)
    | .mismatch => unfoldClausesWithin go stack args cs
    | .stuck => return none

def unfoldWithin (env : Env) (go : Term → Metered Term) (stack : ℕ) (fn : DefId)
    (args : List Term) : Metered (Option Term) :=
  match env.fns.get? fn with
  | none => return none
  | some f =>
    if args.length = f.telescope.length then
      match f.body with
      | .expr body => return some (← body.openWithin stack 0 args.reverse)
      | .clauses cs => unfoldClausesWithin go stack args cs
    else return none

def whnfStepWithin (env : Env) (go : Term → Metered Term) (stack : ℕ) : Term → Metered Term
  | .app fn arg => do
    match ← go fn with
    | .lam body =>
      Metered.contract
      go (← body.openWithin stack 0 [arg])
    | fn => return .app fn arg
  | .proj whole index => do
    let whole ← go whole
    match whole with
    | .tuple items =>
      match items[index]? with
      | some item => go item
      | none => return .proj whole index
    | _ => return .proj whole index
  | .fnCall fn lift args => do
    if ← Metered.unfold then
      match ← env.unfoldWithin go stack fn args with
      | some unfolded => go unfolded
      | none => return .fnCall fn lift args
    else return .fnCall fn lift args
  | t => return t

/-- Evaluates within a budget. -/
def whnfWithin (env : Env) : ℕ → Term → Metered Term
  | 0, _ => .exhausted
  | stack + 1, t => env.whnfStepWithin (env.whnfWithin stack) stack t

end Env

namespace Simulation

/-- The second computation does what the first one does for a certain cost in contractions. If the
first does not end, the second does not either, or it gives up. -/
def counts : Simulation Eval Metered where
  rel Q x y := ∀ fuel,
    (∀ a left, x fuel = some (a, left) → Q a ∧ ∃ cost, ∀ n, y ⟨n, fuel⟩ =
      if cost ≤ n then some (.ok (a, ⟨n - cost, left⟩)) else some (.error ())) ∧
    (x fuel = none → ∀ n r, y ⟨n, fuel⟩ ≠ some (.ok r))
  pure := by
    intro α Q a ha fuel
    refine ⟨fun b left h => ?_, fun h => ?_⟩
    · cases h
      exact ⟨ha, 0, fun n => rfl⟩
    · cases h
  bind := by
    intro α β P Q x y f g hxy hfg fuel
    cases hx : x fuel with
    | none =>
      have hnone : (x >>= f) fuel = none := by
        change (x fuel).bind _ = none
        rw [hx]
        rfl
      refine ⟨fun b left h => ?_, fun _ n r h => ?_⟩
      · rw [hnone] at h
        cases h
      · cases hy : y ⟨n, fuel⟩ with
        | none => rw [Metered.bind_of_none hy] at h; cases h
        | some o =>
          cases o with
          | error e => rw [Metered.bind_of_error hy] at h; cases h
          | ok p => exact (hxy fuel).2 hx n p hy
    | some p =>
      obtain ⟨a, left⟩ := p
      obtain ⟨hP, cost, hcost⟩ := (hxy fuel).1 a left hx
      have hnext : (x >>= f) fuel = f a left := by
        change (x fuel).bind _ = _
        rw [hx]
        rfl
      rw [hnext]
      have hy : ∀ n, (y >>= g) ⟨n, fuel⟩ =
          if cost ≤ n then g a ⟨n - cost, left⟩ else some (.error ()) := by
        intro n
        by_cases hn : cost ≤ n
        · rw [if_pos hn]
          exact Metered.bind_of_ok (by rw [hcost, if_pos hn])
        · rw [if_neg hn]
          exact Metered.bind_of_error (by rw [hcost, if_neg hn])
      refine ⟨fun b rest hb => ?_, fun hb n r h => ?_⟩
      · obtain ⟨hQ, cost', hcost'⟩ := (hfg a hP left).1 b rest hb
        refine ⟨hQ, cost + cost', fun n => ?_⟩
        rw [hy, hcost']
        by_cases hn : cost ≤ n
        · rw [if_pos hn]
          by_cases hn' : cost' ≤ n - cost
          · rw [if_pos hn', if_pos (by omega), Nat.sub_sub]
          · rw [if_neg hn', if_neg (by omega)]
        · rw [if_neg hn, if_neg (by omega)]
      · rw [hy] at h
        split at h
        · exact (hfg a hP left).2 hb _ r h
        · cases h

/-- One more contraction. -/
theorem counts_contract {α : Type} {Q : α → Prop} {x : Eval α} {y : Metered α}
    (h : counts.rel Q x y) : counts.rel Q x (Metered.contract >>= fun _ => y) := by
  intro fuel
  obtain ⟨hsome, hnone⟩ := h fuel
  have hzero : (Metered.contract >>= fun _ => y) ⟨0, fuel⟩ = some (.error ()) := rfl
  have hsucc : ∀ n, (Metered.contract >>= fun _ => y) ⟨n + 1, fuel⟩ = y ⟨n, fuel⟩ := fun _ => rfl
  refine ⟨fun a left hx => ?_, fun hx n r => ?_⟩
  · obtain ⟨hQ, cost, hcost⟩ := hsome a left hx
    refine ⟨hQ, cost + 1, fun n => ?_⟩
    cases n with
    | zero => rw [hzero, if_neg (by omega)]
    | succ n =>
      rw [hsucc, hcost, Nat.add_sub_add_right]
      by_cases hn : cost ≤ n
      · rw [if_pos hn, if_pos (by omega)]
      · rw [if_neg hn, if_neg (by omega)]
  · cases n with
    | zero =>
      rw [hzero]
      intro h
      cases h
    | succ n =>
      rw [hsucc]
      exact hnone hx n r

/-- The same for computations that use no fuel. -/
def countsLifted : Simulation Option Metered where
  rel Q x y := counts.rel Q (liftM x) y
  pure ha := counts.pure ha
  bind := by
    intro α β P Q x y f g hxy hfg
    have hlift : (liftM (x >>= f) : Eval β) = liftM x >>= fun a => liftM (f a) := by
      cases x <;> rfl
    rw [hlift]
    exact counts.bind hxy hfg

theorem counts_exhausted {α : Type} {Q : α → Prop} :
    counts.rel Q Eval.exhausted Metered.exhausted := by
  refine fun fuel => ⟨fun a left h => ?_, fun _ n r h => ?_⟩
  · cases h
  · cases h

end Simulation

namespace Term

theorem counts_openWithin (stack start : ℕ) (args : List Term) (t : Term) :
    Simulation.countsLifted.rel (fun _ => True) (t.replaceFrom stack start args)
      (t.openWithin stack start args) := by
  induction stack generalizing start args t with
  | zero => exact Simulation.counts_exhausted
  | succ stack ih =>
    simp only [replaceFrom, openWithin]
    split
    · exact Simulation.countsLifted.pure trivial
    have hrebuild : Simulation.countsLifted.rel (fun _ => True)
        (t.mapChildrenM fun binders c => replaceFrom stack (start + binders) args c)
        (t.mapChildrenM fun binders c => openWithin stack (start + binders) args c) := by
      refine Simulation.countsLifted.mono
        (Simulation.countsLifted.mapChildrenM (Q := fun _ _ => True) ?_) fun _ _ => trivial
      exact fun c _ => ih (start + c.1) args c.2
    cases t with
    | bound index =>
      simp only [replaceStep, openStepWithin]
      split <;> exact Simulation.countsLifted.pure trivial
    | app fn arg =>
      refine Simulation.countsLifted.bind (ih start args fn) fun fn' _ => ?_
      refine Simulation.countsLifted.bind (ih start args arg) fun arg' _ => ?_
      cases fn' with
      | lam body => exact Simulation.counts_contract (ih 0 [arg'] body)
      | _ => exact Simulation.countsLifted.pure trivial
    | _ => exact hrebuild

end Term

namespace Env

theorem counts_unfoldClausesWithin {go : Term → Eval Term} {go' : Term → Metered Term}
    (hgo : ∀ t, Simulation.counts.rel (fun _ => True) (go t) (go' t)) (stack : ℕ)
    (args : List Term) (cs : List Clause) :
    Simulation.counts.rel (fun _ => True) (unfoldClauses go stack args cs)
      (unfoldClausesWithin go' stack args cs) := by
  have heval : Simulation.counts.Evaluation (fun _ => True) go go' :=
    ⟨Term.passesToParts_true, fun t _ => hgo t⟩
  induction cs with
  | nil => exact Simulation.counts.pure trivial
  | cons c cs ih =>
    refine Simulation.counts.bind (heval.matchList c.patterns (fun _ _ => trivial)) fun r _ => ?_
    cases r with
    | matched bound =>
      refine Simulation.counts.bind (c.body.counts_openWithin stack 0 bound.reverse) fun t _ => ?_
      exact Simulation.counts.pure trivial
    | mismatch => exact ih
    | stuck => exact Simulation.counts.pure trivial

theorem counts_unfoldWithin (env : Env) {go : Term → Eval Term} {go' : Term → Metered Term}
    (hgo : ∀ t, Simulation.counts.rel (fun _ => True) (go t) (go' t)) (stack : ℕ) (fn : DefId)
    (args : List Term) :
    Simulation.counts.rel (fun _ => True) (env.unfold go stack fn args)
      (env.unfoldWithin go' stack fn args) := by
  unfold Env.unfold unfoldWithin
  cases env.fns.get? fn with
  | none => exact Simulation.counts.pure trivial
  | some f =>
    dsimp only
    split
    · cases f.body with
      | expr body =>
        refine Simulation.counts.bind (body.counts_openWithin stack 0 args.reverse) fun t _ => ?_
        exact Simulation.counts.pure trivial
      | clauses cs => exact counts_unfoldClausesWithin hgo stack args cs
    · exact Simulation.counts.pure trivial

/-- Evaluation within a budget does what evaluation does, for a certain number of contractions. -/
theorem counts_whnfWithin (env : Env) (stack : ℕ) (t : Term) :
    Simulation.counts.rel (fun _ => True) (env.whnf stack t) (env.whnfWithin stack t) := by
  induction stack generalizing t with
  | zero => exact Simulation.counts_exhausted
  | succ stack ih =>
    cases t with
    | app fn arg =>
      refine Simulation.counts.bind (ih fn) fun fn' _ => ?_
      cases fn' with
      | lam body =>
        refine Simulation.counts_contract ?_
        exact Simulation.counts.bind (body.counts_openWithin stack 0 [arg]) fun u _ => ih u
      | _ => exact Simulation.counts.pure trivial
    | proj whole index =>
      refine Simulation.counts.bind (ih whole) fun whole' _ => ?_
      cases whole' with
      | tuple items =>
        cases hitem : items[index]? with
        | some item =>
          simp only [hitem]
          exact ih item
        | none =>
          simp only [hitem]
          exact Simulation.counts.pure trivial
      | _ => exact Simulation.counts.pure trivial
    | fnCall fn lift args =>
      have hcall : Simulation.counts.rel (fun _ => True)
          (env.unfold (env.whnf stack) stack fn args >>= fun
            | some unfolded => env.whnf stack unfolded
            | none => return .fnCall fn lift args)
          (env.unfoldWithin (env.whnfWithin stack) stack fn args >>= fun
            | some unfolded => env.whnfWithin stack unfolded
            | none => return .fnCall fn lift args) := by
        refine Simulation.counts.bind (env.counts_unfoldWithin ih stack fn args) fun u _ => ?_
        cases u with
        | some unfolded => exact ih unfolded
        | none => exact Simulation.counts.pure trivial
      intro fuel
      cases fuel with
      | zero => exact Simulation.counts.pure (a := Term.fnCall fn lift args) trivial 0
      | succ fuel => exact hcall fuel
    | _ => exact Simulation.counts.pure trivial

end Env

end ProofCore
