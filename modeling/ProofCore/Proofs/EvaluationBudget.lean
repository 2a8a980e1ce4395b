import ProofCore.Proofs.Metering

/-!
# What bounds evaluation

The budget for unfoldings does not bound evaluation: a term that applies itself to itself contracts
for ever and never unfolds anything. Together with a budget for contractions it does. Between two
payments, evaluation only goes to smaller terms, and so with enough room it comes to an end.
-/
namespace ProofCore

/-- All that may still be paid for. -/
def Budget.total (b : Budget) : ℕ := b.contractions + b.fuel

namespace Metered

variable {α β : Type}

/-- Given enough room, the computation has an outcome, always the same one. Where it is a result,
it and the remaining budget are in the relation. -/
def SettlesAt (x : ℕ → Metered α) (s : Budget) (R : α → Budget → Prop) : Prop :=
  ∃ room outcome, (∀ stack, room ≤ stack → x stack s = some outcome) ∧
    ∀ a s', outcome = .ok (a, s') → R a s'

namespace SettlesAt

theorem pure {a : α} {s : Budget} {R : α → Budget → Prop} (h : R a s) :
    SettlesAt (fun _ => Pure.pure a) s R := by
  refine ⟨0, .ok (a, s), fun _ _ => rfl, fun b s' heq => ?_⟩
  cases heq
  exact h

theorem mono {x : ℕ → Metered α} {s : Budget} {R R' : α → Budget → Prop} (h : SettlesAt x s R)
    (hR : ∀ a s', R a s' → R' a s') : SettlesAt x s R' := by
  obtain ⟨room, outcome, hx, hresult⟩ := h
  exact ⟨room, outcome, hx, fun a s' heq => hR a s' (hresult a s' heq)⟩

theorem bind {x : ℕ → Metered α} {f : α → ℕ → Metered β} {s : Budget} {P : α → Budget → Prop}
    {R : β → Budget → Prop} (hx : SettlesAt x s P)
    (hf : ∀ a s', P a s' → SettlesAt (f a) s' R) :
    SettlesAt (fun stack => x stack >>= fun a => f a stack) s R := by
  obtain ⟨room, outcome, houtcome, hresult⟩ := hx
  cases outcome with
  | error e =>
    refine ⟨room, .error (), fun stack hstack => bind_of_error (houtcome stack hstack), ?_⟩
    intro b s' heq
    cases heq
  | ok p =>
    obtain ⟨a, s'⟩ := p
    obtain ⟨room', outcome', houtcome', hresult'⟩ := hf a s' (hresult a s' rfl)
    refine ⟨max room room', outcome', fun stack hstack => ?_, hresult'⟩
    have hfirst : x stack s = some (.ok (a, s')) := houtcome stack (by omega)
    exact (bind_of_ok hfirst).trans (houtcome' stack (by omega))

/-- Nested calls have one less to make. -/
theorem of_succ {x : ℕ → Metered α} {s : Budget} {R : α → Budget → Prop}
    (h : SettlesAt (fun stack => x (stack + 1)) s R) : SettlesAt x s R := by
  obtain ⟨room, outcome, houtcome, hresult⟩ := h
  refine ⟨room + 1, outcome, fun stack hstack => ?_, hresult⟩
  obtain ⟨stack', rfl⟩ : ∃ stack', stack = stack' + 1 := ⟨stack - 1, by omega⟩
  exact houtcome stack' (by omega)

theorem contract (s : Budget) :
    SettlesAt (fun _ => Metered.contract) s fun _ s' => s'.total + 1 = s.total := by
  obtain ⟨contractions, fuel⟩ := s
  cases contractions with
  | zero =>
    refine ⟨0, .error (), fun _ _ => rfl, fun a s' heq => ?_⟩
    cases heq
  | succ n =>
    refine ⟨0, .ok ((), ⟨n, fuel⟩), fun _ _ => rfl, fun a s' heq => ?_⟩
    cases heq
    simp only [Budget.total]
    omega

theorem unfold (s : Budget) : SettlesAt (fun _ => Metered.unfold) s fun paid s' =>
    paid = false ∧ s' = s ∨ paid = true ∧ s'.total + 1 = s.total := by
  obtain ⟨contractions, fuel⟩ := s
  cases fuel with
  | zero =>
    refine ⟨0, .ok (false, ⟨contractions, 0⟩), fun _ _ => rfl, fun a s' heq => ?_⟩
    cases heq
    exact .inl ⟨rfl, rfl⟩
  | succ n =>
    refine ⟨0, .ok (true, ⟨contractions, n⟩), fun _ _ => rfl, fun a s' heq => ?_⟩
    cases heq
    exact .inr ⟨rfl, rfl⟩

end SettlesAt

end Metered

open Metered

namespace Simulation

/-- Computations that settle with at most `k` to pay, and gain nothing. -/
def settles (k : ℕ) : Simulation (ReaderT ℕ Metered) (ReaderT ℕ Metered) where
  rel Q x _ := ∀ s, s.total ≤ k → SettlesAt x s fun a s' => s'.total ≤ s.total ∧ Q a
  pure ha _ _ := SettlesAt.pure ⟨le_rfl, ha⟩
  bind := by
    intro α β P Q x y f g hx hf s hs
    refine (hx s hs).bind fun a s' ha => ?_
    refine (hf a ha.2 s' (by omega)).mono fun b s'' hb => ?_
    exact ⟨hb.1.trans ha.1, hb.2⟩

/-- A computation that is given its room, and the same without. -/
def givenRoom (stack : ℕ) : Simulation (ReaderT ℕ Metered) Metered where
  rel Q x y := x stack = y ∧ ∀ s a s', y s = some (.ok (a, s')) → Q a
  pure := by
    intro α Q a ha
    refine ⟨rfl, fun s b s' heq => ?_⟩
    cases heq
    exact ha
  bind := by
    intro α β P Q x y f g hx hf
    obtain ⟨rfl, hvalues⟩ := hx
    have hsame : ∀ s, (x stack >>= fun a => f a stack) s = (x stack >>= g) s := by
      intro s
      cases hs : x stack s with
      | none => rw [bind_of_none hs, bind_of_none hs]
      | some o =>
        cases o with
        | error e => rw [bind_of_error hs, bind_of_error hs]
        | ok p => rw [bind_of_ok hs, bind_of_ok hs, (hf p.1 (hvalues s p.1 p.2 hs)).1]
    refine ⟨funext hsame, fun s b s' heq => ?_⟩
    cases hs : x stack s with
    | none =>
      rw [bind_of_none hs] at heq
      cases heq
    | some o =>
      cases o with
      | error e =>
        rw [bind_of_error hs] at heq
        cases heq
      | ok p =>
        rw [bind_of_ok hs] at heq
        exact (hf p.1 (hvalues s p.1 p.2 hs)).2 p.2 b s' heq

end Simulation

namespace Term

theorem settles_mapChildrenM {k : ℕ} {go : ℕ → ℕ → Term → Metered Term} {t : Term}
    (hgo : ∀ c ∈ t.children, ∀ s, s.total ≤ k →
      SettlesAt (fun stack => go stack c.1 c.2) s fun _ s' => s'.total ≤ s.total)
    {s : Budget} (hs : s.total ≤ k) :
    SettlesAt (fun stack => t.mapChildrenM (go stack)) s fun _ s' => s'.total ≤ s.total := by
  let rebuilt : ReaderT ℕ Metered Term := t.mapChildrenM fun binders c stack => go stack binders c
  have hsettles : (Simulation.settles k).rel _ rebuilt rebuilt :=
    (Simulation.settles k).mapChildrenM (Q := fun _ _ => True) fun c hc s hs =>
      (hgo c hc s hs).mono fun _ s' hs' => ⟨hs', trivial⟩
  have hsame : rebuilt = fun stack => t.mapChildrenM (go stack) := by
    funext stack
    have hroom : (Simulation.givenRoom stack).rel _ rebuilt (t.mapChildrenM (go stack)) :=
      (Simulation.givenRoom stack).mapChildrenM (Q := fun _ _ => True) fun c _ =>
        ⟨rfl, fun _ _ _ _ => trivial⟩
    exact hroom.1
  rw [← hsame]
  exact (hsettles s hs).mono fun _ s' hs' => hs'.1

/-- Opening a term comes to an end. The induction is on what is left to pay, and then on the term:
without a contraction, opening goes to the parts of the term. -/
theorem settles_openWithin (start : ℕ) (args : List Term) (t : Term) (s : Budget) :
    SettlesAt (fun stack => t.openWithin stack start args) s fun _ s' => s'.total ≤ s.total := by
  have hbounded : ∀ k, ∀ start args (t : Term) (s : Budget), s.total ≤ k →
      SettlesAt (fun stack => t.openWithin stack start args) s fun _ s' => s'.total ≤ s.total := by
    intro k
    induction k using Nat.strong_induction_on with
    | _ k paid =>
      intro start args t
      induction t using childrenInduction generalizing start args with
      | step t ih =>
        intro s hs
        apply SettlesAt.of_succ
        simp only [openWithin]
        split
        · exact SettlesAt.pure le_rfl
        have hrebuilt : SettlesAt (fun stack => t.mapChildrenM fun binders c =>
            openWithin stack (start + binders) args c) s fun _ s' => s'.total ≤ s.total :=
          settles_mapChildrenM (fun c hc s hs => ih c hc (start + c.1) args s hs) hs
        cases t with
        | bound index =>
          simp only [openStepWithin]
          split
          · exact SettlesAt.pure le_rfl
          · exact SettlesAt.pure le_rfl
        | app fn arg =>
          refine (ih (0, fn) (by simp [children]) start args s hs).bind fun fn' s₁ h₁ => ?_
          refine (ih (0, arg) (by simp [children]) start args s₁ (by omega)).bind
            fun arg' s₂ h₂ => ?_
          cases fn' with
          | lam body =>
            refine (SettlesAt.contract s₂).bind fun _ s₃ h₃ => ?_
            refine (paid s₃.total (by omega) 0 [arg'] body s₃ le_rfl).mono fun _ s₄ h₄ => ?_
            omega
          | _ => exact SettlesAt.pure (by omega)
        | _ => exact hrebuilt
  exact hbounded s.total start args t s le_rfl

end Term

namespace Env

theorem settles_matchList {k : ℕ} {go : ℕ → Term → Metered Term}
    (hgo : ∀ t s, s.total ≤ k →
      SettlesAt (fun stack => go stack t) s fun _ s' => s'.total ≤ s.total)
    (ps : List Pattern) (ts : List Term) {s : Budget} (hs : s.total ≤ k) :
    SettlesAt (fun stack => Pattern.matchList (go stack) ps ts) s
      fun _ s' => s'.total ≤ s.total := by
  let matched : ReaderT ℕ Metered MatchResult :=
    Pattern.matchList (fun t stack => go stack t) ps ts
  have hevaluates : (Simulation.settles k).Evaluation (fun _ => True)
      (fun t stack => go stack t) (fun t stack => go stack t) :=
    ⟨Term.passesToParts_true, fun t _ s hs => (hgo t s hs).mono fun _ s' hs' => ⟨hs', trivial⟩⟩
  have hsettles : (Simulation.settles k).rel _ matched matched :=
    hevaluates.matchList ps fun _ _ => trivial
  have hsame : matched = fun stack => Pattern.matchList (go stack) ps ts := by
    funext stack
    have hgiven : (Simulation.givenRoom stack).Evaluation (fun _ => True)
        (fun t stack => go stack t) (go stack) :=
      ⟨Term.passesToParts_true, fun t _ => ⟨rfl, fun _ _ _ _ => trivial⟩⟩
    exact (hgiven.matchList ps fun _ _ => trivial).1
  rw [← hsame]
  exact (hsettles s hs).mono fun _ s' hs' => hs'.1

theorem settles_unfoldWithin (env : Env) {k : ℕ} {go : ℕ → Term → Metered Term}
    (hgo : ∀ t s, s.total ≤ k →
      SettlesAt (fun stack => go stack t) s fun _ s' => s'.total ≤ s.total)
    (fn : DefId) (args : List Term) {s : Budget} (hs : s.total ≤ k) :
    SettlesAt (fun stack => env.unfoldWithin (go stack) stack fn args) s
      fun _ s' => s'.total ≤ s.total := by
  have hclauses : ∀ (cs : List Clause) (s : Budget), s.total ≤ k →
      SettlesAt (fun stack => unfoldClausesWithin (go stack) stack args cs) s
        fun _ s' => s'.total ≤ s.total := by
    intro cs
    induction cs with
    | nil => exact fun s _ => SettlesAt.pure le_rfl
    | cons c cs ih =>
      intro s hs
      refine (settles_matchList hgo c.patterns args hs).bind fun r s₁ h₁ => ?_
      cases r with
      | matched bound =>
        refine (c.body.settles_openWithin 0 bound.reverse s₁).bind fun u s₂ h₂ => ?_
        exact SettlesAt.pure (by omega)
      | mismatch => exact (ih s₁ (by omega)).mono fun _ s₂ h₂ => by omega
      | stuck => exact SettlesAt.pure h₁
  unfold unfoldWithin
  cases env.fns.get? fn with
  | none => exact SettlesAt.pure le_rfl
  | some f =>
    dsimp only
    split
    · cases f.body with
      | expr body =>
        refine (body.settles_openWithin 0 args.reverse s).bind fun u s₁ h₁ => ?_
        exact SettlesAt.pure h₁
      | clauses cs => exact hclauses cs s hs
    · exact SettlesAt.pure le_rfl

/-- Evaluation comes to an end, and if nothing was paid for, in a term that is no larger. -/
def Ends (env : Env) (t : Term) (s : Budget) : Prop :=
  SettlesAt (fun stack => env.whnfWithin stack t) s fun u s' =>
    s'.total ≤ s.total ∧ (s'.total = s.total → sizeOf u ≤ sizeOf t)

section Ends

variable {env : Env} {s : Budget}

/-- After a payment, evaluation may go on with any term. -/
theorem Ends.after_payment {t u : Term} {s' : Budget} (h : env.Ends u s')
    (hpaid : s'.total < s.total) : SettlesAt (fun stack => env.whnfWithin stack u) s' fun w s'' =>
      s''.total ≤ s.total ∧ (s''.total = s.total → sizeOf w ≤ sizeOf t) := by
  refine SettlesAt.mono h fun w s'' hw => ?_
  exact ⟨by omega, fun heq => by omega⟩

theorem ends_app {fn arg : Term} (hfn : env.Ends fn s)
    (paid : ∀ u s', s'.total < s.total → env.Ends u s') : env.Ends (.app fn arg) s := by
  refine SettlesAt.of_succ (SettlesAt.bind hfn fun fn' s₁ h₁ => ?_)
  have hkept : s₁.total = s.total → sizeOf (Term.app fn' arg) ≤ sizeOf (Term.app fn arg) := by
    intro heq
    have hfn := h₁.2 heq
    simp only [Term.app.sizeOf_spec]
    omega
  cases fn' with
  | lam body =>
    refine (SettlesAt.contract s₁).bind fun _ s₂ h₂ => ?_
    refine (body.settles_openWithin 0 [arg] s₂).bind fun u s₃ h₃ => ?_
    have hless : s₃.total < s.total := by omega
    exact (paid u s₃ hless).after_payment hless
  | _ => exact SettlesAt.pure ⟨h₁.1, hkept⟩

theorem ends_proj {whole : Term} {index : ℕ} (hwhole : env.Ends whole s)
    (smaller : ∀ u s', s'.total ≤ s.total → sizeOf u < sizeOf whole → env.Ends u s')
    (paid : ∀ u s', s'.total < s.total → env.Ends u s') : env.Ends (.proj whole index) s := by
  refine SettlesAt.of_succ (SettlesAt.bind hwhole fun whole' s₁ h₁ => ?_)
  have hkept : s₁.total = s.total →
      sizeOf (Term.proj whole' index) ≤ sizeOf (Term.proj whole index) := by
    intro heq
    have hwhole := h₁.2 heq
    simp only [Term.proj.sizeOf_spec]
    omega
  cases whole' with
  | tuple items =>
    cases hitem : items[index]? with
    | none =>
      simp only [hitem]
      exact SettlesAt.pure ⟨h₁.1, hkept⟩
    | some item =>
      simp only [hitem]
      by_cases heq : s₁.total = s.total
      · -- The tuple came for free, so its items are smaller than the term it came from.
        have hless : sizeOf item < sizeOf whole := by
          have hmem := List.sizeOf_lt_of_mem (List.mem_of_getElem? hitem)
          have hwhole := h₁.2 heq
          simp only [Term.tuple.sizeOf_spec] at hwhole
          omega
        refine SettlesAt.mono (smaller item s₁ h₁.1 hless) fun w s₂ h₂ => ?_
        refine ⟨by omega, fun heq₂ => ?_⟩
        have hw := h₂.2 (by omega)
        simp only [Term.proj.sizeOf_spec]
        omega
      · have hless : s₁.total < s.total := by omega
        exact (paid item s₁ hless).after_payment hless
  | _ => exact SettlesAt.pure ⟨h₁.1, hkept⟩

theorem ends_fnCall {fn : DefId} {lift : ℕ} {args : List Term}
    (paid : ∀ u s', s'.total < s.total → env.Ends u s') : env.Ends (.fnCall fn lift args) s := by
  refine SettlesAt.of_succ ((SettlesAt.unfold s).bind fun leave s₁ h₁ => ?_)
  rcases h₁ with ⟨rfl, rfl⟩ | ⟨rfl, h₁⟩
  · exact SettlesAt.pure ⟨le_rfl, fun _ => le_rfl⟩
  · have hgo : ∀ (u : Term) (s' : Budget), s'.total ≤ s₁.total →
        SettlesAt (fun stack => env.whnfWithin stack u) s' fun _ s'' => s''.total ≤ s'.total :=
      fun u s' hs' => SettlesAt.mono (paid u s' (by omega)) fun _ s'' hs'' => hs''.1
    refine (env.settles_unfoldWithin hgo fn args le_rfl).bind fun u s₂ h₂ => ?_
    cases u with
    | some unfolded =>
      have hless : s₂.total < s.total := by omega
      exact (paid unfolded s₂ hless).after_payment hless
    | none => exact SettlesAt.pure ⟨by omega, fun _ => le_rfl⟩

/-- The induction is on what is left to pay, and then on the size of the term. -/
theorem ends (env : Env) (t : Term) (s : Budget) : env.Ends t s := by
  have hbounded : ∀ k n, ∀ (t : Term) (s : Budget), s.total ≤ k → sizeOf t ≤ n → env.Ends t s := by
    intro k
    induction k using Nat.strong_induction_on with
    | _ k hpaid =>
      intro n
      induction n with
      | zero =>
        intro t s _ ht
        cases t <;> simp at ht
      | succ n hsmaller =>
        intro t s hs ht
        have paid : ∀ u s', s'.total < s.total → env.Ends u s' := fun u s' hs' =>
          hpaid s'.total (by omega) (sizeOf u) u s' le_rfl le_rfl
        cases t with
        | app fn arg =>
          rw [Term.app.sizeOf_spec] at ht
          exact ends_app (hsmaller fn s hs (by omega)) paid
        | proj whole index =>
          rw [Term.proj.sizeOf_spec] at ht
          refine ends_proj (hsmaller whole s hs (by omega)) (fun u s' hs' hu => ?_) paid
          exact hsmaller u s' (by omega) (by omega)
        | fnCall fn lift args => exact ends_fnCall paid
        | _ => exact SettlesAt.of_succ (SettlesAt.pure ⟨le_rfl, fun _ => le_rfl⟩)
  exact hbounded s.total (sizeOf t) t s le_rfl le_rfl

end Ends

/-- The function that applies its argument to itself. -/
def selfApplying : Term := .lam (.app (.bound 0) (.bound 0))

theorem replaceFrom_selfApplying (stack : ℕ) :
    (Term.app (.bound 0) (.bound 0)).replaceFrom stack 0 [selfApplying] = none := by
  induction stack with
  | zero => rfl
  | succ stack ih =>
    cases stack with
    | zero => rfl
    | succ stack => exact ih

theorem whnf_selfApplying (env : Env) (stack fuel : ℕ) :
    env.whnf stack (.app selfApplying selfApplying) fuel = none := by
  match stack with
  | 0 => rfl
  | 1 => rfl
  | stack + 2 =>
    -- The function is a value, and opening it does not come to an end.
    have hstep : env.whnf (stack + 2) (.app selfApplying selfApplying) fuel =
        ((liftM ((Term.app (.bound 0) (.bound 0)).replaceFrom (stack + 1) 0 [selfApplying]) :
          Eval Term) >>= env.whnf (stack + 1)) fuel := rfl
    rw [hstep, replaceFrom_selfApplying]
    rfl

/-- Fuel alone does not bound evaluation: to apply this function to itself gives the same
application again. -/
theorem exists_endless_of_wellScoped : ¬ ∀ (env : Env) (t : Term), t.wellScoped 0 = true →
    ∃ stack u, env.eval stack t = some u := by
  intro h
  obtain ⟨stack, u, heval⟩ := h {} (.app selfApplying selfApplying) (by decide)
  rw [Env.eval, StateT.run', whnf_selfApplying] at heval
  cases heval

/-- For every environment, fuel and term, evaluation returns, for a certain number of contractions,
or it makes more contractions than any given number. -/
theorem whnf_returns_or_contracts_forever (env : Env) (t : Term) (fuel : ℕ) :
    (∃ stack u left cost, env.whnf stack t fuel = some (u, left) ∧ ∀ contractions,
      env.whnfWithin stack t ⟨contractions, fuel⟩ =
        if cost ≤ contractions then some (.ok (u, ⟨contractions - cost, left⟩))
        else some (.error ())) ∨
    (∀ stack, env.whnf stack t fuel = none) ∧ ∀ contractions, ∃ room, ∀ stack, room ≤ stack →
      env.whnfWithin stack t ⟨contractions, fuel⟩ = some (.error ()) := by
  by_cases hreturns : ∃ stack r, env.whnf stack t fuel = some r
  · obtain ⟨stack, ⟨u, left⟩, hwhnf⟩ := hreturns
    obtain ⟨-, cost, hcost⟩ := (env.counts_whnfWithin stack t fuel).1 u left hwhnf
    exact .inl ⟨stack, u, left, cost, hwhnf, hcost⟩
  · have hnone : ∀ stack, env.whnf stack t fuel = none := by
      intro stack
      rw [Option.eq_none_iff_forall_ne_some]
      exact fun r hr => hreturns ⟨stack, r, hr⟩
    refine .inr ⟨hnone, fun contractions => ?_⟩
    obtain ⟨room, outcome, houtcome, -⟩ := env.ends t ⟨contractions, fuel⟩
    refine ⟨room, fun stack hstack => ?_⟩
    refine (houtcome stack hstack).trans ?_
    cases outcome with
    | error e => rfl
    | ok r =>
      exact absurd (houtcome stack hstack)
        ((env.counts_whnfWithin stack t fuel).2 (hnone stack) contractions r)

end Env

end ProofCore
