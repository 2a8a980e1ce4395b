import ProofCore.Proofs.EvaluationTransfer
import ProofCore.Proofs.OpeningRules

/-!
# Evaluation, by rules

What evaluation and matching come to, said by rules and without a bound on nested calls. One
relation covers all that evaluation does on its way: `env.Runs task fuel answer left` says that the
task is answered, and how much of the fuel is left.
-/
namespace ProofCore

/-- What evaluation may have to do. -/
inductive Task where
  | evaluate (t : Term)
  | unfolding (fn : DefId) (args : List Term)
  | selecting (cs : List Clause) (args : List Term)
  | matching (p : Pattern) (t : Term)
  | matchingAll (ps : List Pattern) (ts : List Term)

/-- What a task may come to: evaluation gives a term, a call or a choice of clause the term to go
on with, if any. -/
inductive Answer where
  | term (t : Term)
  | body (t : Option Term)
  | outcome (r : MatchResult)

def MatchResult.map (f : Term → Term) : MatchResult → MatchResult
  | .matched bound => .matched (bound.map f)
  | .mismatch => .mismatch
  | .stuck => .stuck

/-- The same task for other terms. -/
def Task.map (f : Term → Term) : Task → Task
  | .evaluate t => .evaluate (f t)
  | .unfolding fn args => .unfolding fn (args.map f)
  | .selecting cs args => .selecting cs (args.map f)
  | .matching p t => .matching p (f t)
  | .matchingAll ps ts => .matchingAll ps (ts.map f)

def Answer.map (f : Term → Term) : Answer → Answer
  | .term t => .term (f t)
  | .body t => .body (t.map f)
  | .outcome r => .outcome (r.map f)

/-- The clause bodies that a task works with satisfy `P`, and its patterns `R`. -/
def Task.Uses (P : Term → Prop) (R : Pattern → Prop) : Task → Prop
  | .evaluate _ | .unfolding _ _ => True
  | .selecting cs _ => ∀ c ∈ cs, P c.body ∧ ∀ p ∈ c.patterns, R p
  | .matching p _ => R p
  | .matchingAll ps _ => ∀ p ∈ ps, R p

namespace Eval

variable {α β : Type} {x : Eval α} {f : α → Eval β} {k k' : ℕ}

theorem bind_of_some {a : α} (h : x k = some (a, k')) : (x >>= f) k = f a k' := by
  change (x k).bind _ = _
  rw [h]
  rfl

theorem lift_of_some {x : Option α} {a : α} (h : x = some a) (k : ℕ) :
    (liftM x : Eval α) k = some (a, k) := by
  rw [h]
  rfl

theorem bind_eq_some {b : β} (h : (x >>= f) k = some (b, k')) :
    ∃ a k₁, x k = some (a, k₁) ∧ f a k₁ = some (b, k') := by
  obtain ⟨⟨a, k₁⟩, hx, hf⟩ := Option.bind_eq_some_iff.mp h
  exact ⟨a, k₁, hx, hf⟩

theorem lift_bind_eq_some {x : Option α} {b : β} (h : (liftM x >>= f) k = some (b, k')) :
    ∃ a, x = some a ∧ f a k = some (b, k') := by
  cases x with
  | none => cases h
  | some a => exact ⟨a, rfl, h⟩

end Eval

/-- Evaluation leaves a term as it is if it is no application, projection or call of a function. -/
def Term.isRedexFree : Term → Bool
  | .app _ _ | .proj _ _ | .fnCall _ _ _ => false
  | _ => true

namespace Pattern

variable {m : Type → Type} [Monad m] [LawfulMonad m]

theorem matchList_singleton (whnf : Term → m Term) (p : Pattern) (t : Term) :
    matchList whnf [p] [t] = p.matchTerm whnf t := by
  have hrest : matchList whnf [] [] = (pure (.matched []) : m MatchResult) := by
    simp only [matchList]
  rw [matchList]
  refine (bind_congr fun r => ?_).trans (bind_pure (p.matchTerm whnf t))
  cases r with
  | matched bound => simp [hrest]
  | mismatch => rfl
  | stuck => rfl

/-- A numeral pattern is matched by value, or else in its constructor form. -/
theorem matchNumeral_eq (whnf : Term → m Term) (shape : NatShape) (value : ℕ) (t : Term) :
    matchNumeral whnf shape value t = (do
      let t ← whnf t
      match numeralValue? shape.data t with
      | some v => return if v = value then .matched [] else .mismatch
      | none => (constructorForm value shape).matchTerm whnf t) := by
  cases value with
  | zero =>
    refine bind_congr fun u => ?_
    cases numeralValue? shape.data u with
    | some v => rfl
    | none =>
      simp only [constructorForm, matchTerm]
      refine bind_congr fun w => ?_
      cases w.conLike? with
      | none => rfl
      | some c =>
        obtain ⟨ctor, args⟩ := c
        cases args <;> by_cases hctor : ctor = shape.zero <;> simp [hctor, matchList]
  | succ n =>
    refine bind_congr fun u => ?_
    cases numeralValue? shape.data u with
    | some v => rfl
    | none =>
      simp only [constructorForm, matchTerm]
      refine bind_congr fun w => ?_
      cases w.conLike? with
      | none => rfl
      | some c =>
        obtain ⟨ctor, args⟩ := c
        rcases args with _ | ⟨arg, _ | ⟨arg', args⟩⟩
        · simp
        · by_cases hctor : ctor = shape.suc
          · simp [hctor, matchList_singleton, matchTerm]
          · simp [hctor]
        · simp

end Pattern

namespace Env

open Term (Opens)

/-- The bodies of all functions satisfy `P`, and the patterns of their clauses `R`. -/
structure Uses (P : Term → Prop) (R : Pattern → Prop) (env : Env) : Prop where
  body : ∀ id f, env.fns.get? id = some f → ∀ b ∈ (Def.fn f).bodyTerms, P b.2
  pattern : ∀ id f, env.fns.get? id = some f → ∀ p ∈ (Def.fn f).patterns, R p

section Uses

variable {P : Term → Prop} {R : Pattern → Prop} {env : Env} {fn : DefId} {f : FnDef}

theorem Uses.expr (h : env.Uses P R) (hf : env.fns.get? fn = some f) {body : Term}
    (hbody : f.body = .expr body) : P body :=
  h.body fn f hf (f.telescope.length, body) (by simp [Def.bodyTerms_of_expr hbody])

theorem Uses.clauses (h : env.Uses P R) (hf : env.fns.get? fn = some f) {cs : List Clause}
    (hbody : f.body = .clauses cs) (args : List Term) : (Task.selecting cs args).Uses P R := by
  intro c hc
  have hmem : (c.bindingCount, c.body) ∈ (Def.fn f).bodyTerms := by
    rw [Def.bodyTerms_of_clauses hbody]
    exact List.mem_map.mpr ⟨c, hc, rfl⟩
  refine ⟨h.body fn f hf _ hmem, fun p hp => h.pattern fn f hf p ?_⟩
  rw [Def.patterns, Def.clauses?_of_clauses hbody]
  exact List.mem_flatMap.mpr ⟨c, hc, hp⟩

end Uses

/-- The rules of evaluation and matching. -/
inductive Runs (env : Env) : Task → ℕ → Answer → ℕ → Prop
  | done {k : ℕ} {t : Term} (redexFree : t.isRedexFree = true) :
      Runs env (.evaluate t) k (.term t) k
  | contract {k k₁ k₂ : ℕ} {fn arg body opened u : Term}
      (fn_runs : Runs env (.evaluate fn) k (.term (.lam body)) k₁)
      (opens : Opens 0 [arg] body opened) (rest : Runs env (.evaluate opened) k₁ (.term u) k₂) :
      Runs env (.evaluate (.app fn arg)) k (.term u) k₂
  | app {k k₁ : ℕ} {fn fn' arg : Term} (fn_runs : Runs env (.evaluate fn) k (.term fn') k₁)
      (stuck : fn'.form ≠ .abstraction) :
      Runs env (.evaluate (.app fn arg)) k (.term (.app fn' arg)) k₁
  | item {k k₁ k₂ index : ℕ} {whole found u : Term} {items : List Term}
      (whole_runs : Runs env (.evaluate whole) k (.term (.tuple items)) k₁)
      (at_index : items[index]? = some found)
      (rest : Runs env (.evaluate found) k₁ (.term u) k₂) :
      Runs env (.evaluate (.proj whole index)) k (.term u) k₂
  | proj {k k₁ index : ℕ} {whole whole' : Term}
      (whole_runs : Runs env (.evaluate whole) k (.term whole') k₁)
      (stuck : ∀ items, whole' = .tuple items → items[index]? = none) :
      Runs env (.evaluate (.proj whole index)) k (.term (.proj whole' index)) k₁
  | exhausted {fn : DefId} {lift : ℕ} {args : List Term} :
      Runs env (.evaluate (.fnCall fn lift args)) 0 (.term (.fnCall fn lift args)) 0
  | unfold {k k₁ k₂ lift : ℕ} {fn : DefId} {args : List Term} {unfolded u : Term}
      (unfolds : Runs env (.unfolding fn args) k (.body (some unfolded)) k₁)
      (rest : Runs env (.evaluate unfolded) k₁ (.term u) k₂) :
      Runs env (.evaluate (.fnCall fn lift args)) (k + 1) (.term u) k₂
  | keep {k k₁ lift : ℕ} {fn : DefId} {args : List Term}
      (stuck : Runs env (.unfolding fn args) k (.body none) k₁) :
      Runs env (.evaluate (.fnCall fn lift args)) (k + 1) (.term (.fnCall fn lift args)) k₁
  | unknown {k : ℕ} {fn : DefId} {args : List Term}
      (unfit : ∀ f, env.fns.get? fn = some f → args.length ≠ f.telescope.length) :
      Runs env (.unfolding fn args) k (.body none) k
  | expr {k : ℕ} {fn : DefId} {args : List Term} {f : FnDef} {body u : Term}
      (known : env.fns.get? fn = some f) (fit : args.length = f.telescope.length)
      (body_eq : f.body = .expr body) (opens : Opens 0 args.reverse body u) :
      Runs env (.unfolding fn args) k (.body (some u)) k
  | clauses {k k₁ : ℕ} {fn : DefId} {args : List Term} {f : FnDef} {cs : List Clause}
      {b : Option Term} (known : env.fns.get? fn = some f)
      (fit : args.length = f.telescope.length) (body_eq : f.body = .clauses cs)
      (selects : Runs env (.selecting cs args) k (.body b) k₁) :
      Runs env (.unfolding fn args) k (.body b) k₁
  | noClause {k : ℕ} {args : List Term} : Runs env (.selecting [] args) k (.body none) k
  | selected {k k₁ : ℕ} {args bound : List Term} {c : Clause} {cs : List Clause} {u : Term}
      (matching : Runs env (.matchingAll c.patterns args) k (.outcome (.matched bound)) k₁)
      (opens : Opens 0 bound.reverse c.body u) :
      Runs env (.selecting (c :: cs) args) k (.body (some u)) k₁
  | passed {k k₁ k₂ : ℕ} {args : List Term} {c : Clause} {cs : List Clause} {b : Option Term}
      (matching : Runs env (.matchingAll c.patterns args) k (.outcome .mismatch) k₁)
      (rest : Runs env (.selecting cs args) k₁ (.body b) k₂) :
      Runs env (.selecting (c :: cs) args) k (.body b) k₂
  | blocked {k k₁ : ℕ} {args : List Term} {c : Clause} {cs : List Clause}
      (matching : Runs env (.matchingAll c.patterns args) k (.outcome .stuck) k₁) :
      Runs env (.selecting (c :: cs) args) k (.body none) k₁
  | bind {k : ℕ} {x : Var} {type t : Term} :
      Runs env (.matching (.bind x type) t) k (.outcome (.matched [t])) k
  | absurd {k : ℕ} {t : Term} : Runs env (.matching .absurd t) k (.outcome .stuck) k
  | openHole {k : ℕ} {name : String} {type t : Term} :
      Runs env (.matching (.hole none name type) t) k (.outcome .stuck) k
  | solved {k k₁ : ℕ} {solution : Pattern} {name : String} {type t : Term} {r : MatchResult}
      (rest : Runs env (.matching solution t) k (.outcome r) k₁) :
      Runs env (.matching (.hole (some solution) name type) t) k (.outcome r) k₁
  | tuple {k k₁ k₂ : ℕ} {items : List Pattern} {t : Term} {ts : List Term} {r : MatchResult}
      (whole_runs : Runs env (.evaluate t) k (.term (.tuple ts)) k₁)
      (fit : ts.length = items.length)
      (rest : Runs env (.matchingAll items ts) k₁ (.outcome r) k₂) :
      Runs env (.matching (.tuple items) t) k (.outcome r) k₂
  | tupleStuck {k k₁ : ℕ} {items : List Pattern} {t u : Term}
      (whole_runs : Runs env (.evaluate t) k (.term u) k₁)
      (unfit : ∀ ts, u = .tuple ts → ts.length ≠ items.length) :
      Runs env (.matching (.tuple items) t) k (.outcome .stuck) k₁
  | con {k k₁ k₂ lift : ℕ} {data ctor : DefId} {dataArgs : List Term} {ps : List Pattern}
      {t u : Term} {ts : List Term} {r : MatchResult}
      (whole_runs : Runs env (.evaluate t) k (.term u) k₁)
      (built : u.conLike? = some (ctor, ts)) (fit : ts.length = ps.length)
      (rest : Runs env (.matchingAll ps ts) k₁ (.outcome r) k₂) :
      Runs env (.matching (.con data ctor lift dataArgs ps) t) k (.outcome r) k₂
  | conMismatch {k k₁ lift : ℕ} {data ctor ctor' : DefId} {dataArgs : List Term}
      {ps : List Pattern} {t u : Term} {ts : List Term}
      (whole_runs : Runs env (.evaluate t) k (.term u) k₁)
      (built : u.conLike? = some (ctor', ts)) (unfit : ¬ (ctor' = ctor ∧ ts.length = ps.length)) :
      Runs env (.matching (.con data ctor lift dataArgs ps) t) k (.outcome .mismatch) k₁
  | conStuck {k k₁ lift : ℕ} {data ctor : DefId} {dataArgs : List Term} {ps : List Pattern}
      {t u : Term} (whole_runs : Runs env (.evaluate t) k (.term u) k₁)
      (stuck : u.conLike? = none) :
      Runs env (.matching (.con data ctor lift dataArgs ps) t) k (.outcome .stuck) k₁
  | byValue {k k₁ value v : ℕ} {shape : NatShape} {t u : Term}
      (whole_runs : Runs env (.evaluate t) k (.term u) k₁)
      (numeral : Pattern.numeralValue? shape.data u = some v) :
      Runs env (.matching (.numeral value shape) t) k
        (.outcome (if v = value then .matched [] else .mismatch)) k₁
  | byForm {k k₁ k₂ value : ℕ} {shape : NatShape} {t u : Term} {r : MatchResult}
      (whole_runs : Runs env (.evaluate t) k (.term u) k₁)
      (other : Pattern.numeralValue? shape.data u = none)
      (rest : Runs env (.matching (Pattern.constructorForm value shape) u) k₁ (.outcome r) k₂) :
      Runs env (.matching (.numeral value shape) t) k (.outcome r) k₂
  | noPatterns {k : ℕ} {ts : List Term} :
      Runs env (.matchingAll [] ts) k (.outcome (.matched [])) k
  | noTerms {k : ℕ} {ps : List Pattern} :
      Runs env (.matchingAll ps []) k (.outcome (.matched [])) k
  | both {k k₁ k₂ : ℕ} {p : Pattern} {ps : List Pattern} {t : Term} {ts bound rest : List Term}
      (first : Runs env (.matching p t) k (.outcome (.matched bound)) k₁)
      (others : Runs env (.matchingAll ps ts) k₁ (.outcome (.matched rest)) k₂) :
      Runs env (.matchingAll (p :: ps) (t :: ts)) k (.outcome (.matched (bound ++ rest))) k₂
  | firstFails {k k₁ : ℕ} {p : Pattern} {ps : List Pattern} {t : Term} {ts : List Term}
      {r : MatchResult} (first : Runs env (.matching p t) k (.outcome r) k₁)
      (failed : ∀ bound, r ≠ .matched bound) :
      Runs env (.matchingAll (p :: ps) (t :: ts)) k (.outcome r) k₁
  | othersFail {k k₁ k₂ : ℕ} {p : Pattern} {ps : List Pattern} {t : Term} {ts bound : List Term}
      {r : MatchResult} (first : Runs env (.matching p t) k (.outcome (.matched bound)) k₁)
      (others : Runs env (.matchingAll ps ts) k₁ (.outcome r) k₂)
      (failed : ∀ bound, r ≠ .matched bound) :
      Runs env (.matchingAll (p :: ps) (t :: ts)) k (.outcome r) k₂

end Env

end ProofCore
