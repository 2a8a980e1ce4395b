import ProofCore.Evaluation.WeakHead
import ProofCore.Proofs.Simulation

/-!
# What evaluation depends on

Evaluation that ends within some number of nested calls ends in the same way within any larger
number, and it looks only at the functions that its term refers to, directly or through the
bodies of other functions. Both are one statement: an answer in one environment is the answer in
every environment that agrees with it on the functions in question.

More generally, evaluation keeps a property of terms if opening a term keeps it: the body of an
abstraction by an argument, and the body of a function by what the call or the match provides. Two
evaluations of such terms are related by every simulation that allows for the steps of evaluation.
-/
namespace ProofCore

namespace Simulation

/-- Whatever the one computation yields, the other yields too. -/
def option : Simulation Option Option where
  rel Q x y := ∀ a, x = some a → y = some a ∧ Q a
  pure := by
    intro α Q a ha b hb
    cases hb
    exact ⟨rfl, ha⟩
  bind := by
    intro α β P Q x y f g hxy hfg b hb
    obtain ⟨a, ha, hfa⟩ := Option.bind_eq_some_iff.mp hb
    obtain ⟨hy, hP⟩ := hxy a ha
    obtain ⟨hg, hQ⟩ := hfg a hP b hfa
    exact ⟨Option.bind_eq_some_iff.mpr ⟨a, hy, hg⟩, hQ⟩

/-- The same for evaluation with a budget, which also leaves the same fuel. -/
def budgeted : Simulation Eval Eval where
  rel {α} Q x y := ∀ fuel, option.rel (fun r : α × ℕ => Q r.1) (x fuel) (y fuel)
  pure ha _ := option.pure ha
  bind hxy hfg fuel := option.bind (hxy fuel) fun r hr => hfg r.1 hr r.2

theorem option_of_forall {α : Type} {Q R : α → Prop} {x y : Option α} (h : option.rel Q x y)
    (hR : ∀ a, x = some a → R a) : option.rel R x y :=
  fun a ha => ⟨(h a ha).1, hR a ha⟩

end Simulation

/-- Pays one unit of fuel for a computation; without fuel it is left undone and yields `a`. -/
def Eval.spend {α : Type} (a : α) (x : Eval α) : Eval α := fun fuel =>
  match fuel with
  | 0 => some (a, 0)
  | fuel + 1 => x fuel

namespace Simulation

/-- A simulation that allows for all that evaluation does besides returning and sequencing: it gives
up when nested calls run out of room, opens terms, and pays for calls. -/
structure AllowsEvaluation (S : Simulation Eval Eval) : Prop where
  exhausted : ∀ {α : Type} {Q : α → Prop} {y : Eval α}, S.rel Q Eval.exhausted y
  lift : ∀ {α : Type} {Q : α → Prop} {x y : Option α}, option.rel Q x y →
    S.rel Q (liftM x : Eval α) (liftM y : Eval α)
  spend : ∀ {α : Type} {Q : α → Prop} {a : α} {x y : Eval α}, Q a → S.rel Q x y →
    S.rel Q (Eval.spend a x) (Eval.spend a y)

theorem allowsEvaluation_budgeted : budgeted.AllowsEvaluation where
  exhausted := by
    intro α Q y fuel r hr
    cases hr
  lift h _ := option.bind h fun _ ha => option.pure ha
  spend ha hxy fuel := by
    cases fuel with
    | zero => exact option.pure ha
    | succ fuel => exact hxy fuel

end Simulation

namespace Term

variable {ids : DefId → Prop}

theorem refsIn_of_headRef_eq_none {t : Term} (hhead : t.headRef? = none)
    (hchildren : ∀ c ∈ t.children, c.2.RefsIn ids) : t.RefsIn ids :=
  refsIn_iff.mpr ⟨by simp [hhead], hchildren⟩

theorem replaceFrom_transfer {stack stack' start : ℕ} {args : List Term} {t : Term}
    (hle : stack ≤ stack') (hargs : ∀ arg ∈ args, arg.RefsIn ids) (ht : t.RefsIn ids) :
    Simulation.option.rel (RefsIn ids) (t.replaceFrom stack start args)
      (t.replaceFrom stack' start args) := by
  induction stack generalizing stack' start args t with
  | zero =>
    intro u hu
    cases hu
  | succ s ih =>
    obtain ⟨s', rfl⟩ : ∃ s', stack' = s' + 1 := ⟨stack' - 1, by omega⟩
    have hle' : s ≤ s' := by omega
    simp only [replaceFrom]
    split
    · exact Simulation.option.pure ht
    have hrebuild : Simulation.option.rel (RefsIn ids)
        (t.mapChildrenM fun binders c => replaceFrom s (start + binders) args c)
        (t.mapChildrenM fun binders c => replaceFrom s' (start + binders) args c) := by
      refine Simulation.option.mono
        (Simulation.option.mapChildrenM (Q := fun _ => RefsIn ids) ?_) fun u hu => ?_
      · exact fun c hc => ih hle' hargs (ht.child hc)
      · exact refsIn_iff.mpr ⟨hu.1.2 ▸ (refsIn_iff.mp ht).1, hu.2⟩
    cases t with
    | bound index =>
      simp only [replaceStep]
      split
      · exact Simulation.option.pure ht
      · apply Simulation.option.pure
        cases harg : args[index - start]? with
        | none => exact ht
        | some arg => exact hargs arg (List.mem_of_getElem? harg)
    | app fn arg =>
      have hfn := ht.child (c := (0, fn)) (by simp [children])
      have harg := ht.child (c := (0, arg)) (by simp [children])
      refine Simulation.option.bind (ih hle' hargs hfn) fun u hu => ?_
      refine Simulation.option.bind (ih hle' hargs harg) fun w hw => ?_
      cases u with
      | lam body =>
        have hbody : body.RefsIn ids := hu.child (c := (1, body)) (by simp [children])
        exact ih hle' (by simpa using hw) hbody
      | _ =>
        apply Simulation.option.pure
        refine refsIn_of_headRef_eq_none rfl ?_
        simp only [children, List.forall_mem_cons]
        exact ⟨hu, hw, by simp⟩
    | _ => exact hrebuild

theorem instantiateTelescope_transfer {stack stack' : ℕ} {args : List Term} {t : Term}
    (hle : stack ≤ stack') (hargs : ∀ arg ∈ args, arg.RefsIn ids) (ht : t.RefsIn ids) :
    Simulation.option.rel (RefsIn ids) (t.instantiateTelescope stack args)
      (t.instantiateTelescope stack' args) :=
  replaceFrom_transfer hle (by simpa using hargs) ht

end Term

theorem Def.bodyTerms_of_expr {f : FnDef} {body : Term} (h : f.body = .expr body) :
    (Def.fn f).bodyTerms = [(f.telescope.length, body)] := by
  cases f
  cases h
  rfl

theorem Def.bodyTerms_of_clauses {f : FnDef} {cs : List Clause} (h : f.body = .clauses cs) :
    (Def.fn f).bodyTerms = cs.map fun c => (c.bindingCount, c.body) := by
  cases f
  cases h
  rfl

theorem Def.clauses?_of_clauses {f : FnDef} {cs : List Clause} (h : f.body = .clauses cs) :
    (Def.fn f).clauses? = some cs := by
  cases f
  cases h
  rfl

theorem Def.refsIn_bodyTerms {d : Def} {t : ℕ × Term} (ht : t ∈ d.bodyTerms) :
    t.2.RefsIn (· ∈ d.bodyRefs) := by
  intro id hid
  rw [bodyRefs, List.mem_eraseDups, List.mem_append]
  exact .inl (List.mem_flatMap.mpr ⟨t, ht, hid⟩)

/-- No clause has more patterns than the function has parameters. -/
def FnDef.ClausesFit (f : FnDef) : Prop :=
  ∀ c ∈ (Def.fn f).clauses?.getD [], c.patterns.length ≤ f.telescope.length

namespace Env

variable {go go' : Term → Eval Term} {stack stack' : ℕ} {env env' : Env}

/-- A property of terms that evaluation keeps, where two environments hold the same functions. -/
structure EvaluatesAlike (P : Term → Prop) (env env' : Env) : Prop where
  parts : Term.PassesToParts P
  app : ∀ {fn arg : Term}, P fn → P arg → P (.app fn arg)
  proj : ∀ {whole : Term} {index : ℕ}, P whole → P (.proj whole index)
  contract : ∀ {stack stack' : ℕ} {body arg : Term}, stack ≤ stack' → P (.lam body) → P arg →
    Simulation.option.rel P (body.instantiate stack arg) (body.instantiate stack' arg)
  fns : ∀ {fn : DefId} {lift : ℕ} {args : List Term}, P (.fnCall fn lift args) →
    env.fns.get? fn = env'.fns.get? fn
  opened : ∀ {stack stack' : ℕ} {fn : DefId} {lift : ℕ} {args bound : List Term} {f : FnDef}
    {body : ℕ × Term}, stack ≤ stack' → P (.fnCall fn lift args) → env.fns.get? fn = some f →
    body ∈ (Def.fn f).bodyTerms → (∀ t ∈ bound, P t) → (f.ClausesFit → bound.length = body.1) →
    Simulation.option.rel P (body.2.instantiateTelescope stack bound)
      (body.2.instantiateTelescope stack' bound)

/-- A call that can be paid for is evaluated by going on with what it unfolds to. -/
theorem whnfStep_fnCall (env : Env) (go : Term → Eval Term) (stack : ℕ) (fn : DefId) (lift : ℕ)
    (args : List Term) :
    env.whnfStep go stack (.fnCall fn lift args) = Eval.spend (.fnCall fn lift args) (do
      match ← env.unfold go stack fn args with
      | some unfolded => go unfolded
      | none => return .fnCall fn lift args) := by
  funext fuel
  cases fuel <;> rfl

namespace EvaluatesAlike

variable {P : Term → Prop} {S : Simulation Eval Eval} (hS : S.AllowsEvaluation)
include hS

theorem unfoldClauses (hgo : S.Evaluation P go go') {args : List Term}
    (hargs : ∀ arg ∈ args, P arg) {cs : List Clause}
    (hcs : ∀ c ∈ cs, ∀ bound, (∀ t ∈ bound, P t) →
      bound.length = (Pattern.listBindings (c.patterns.take args.length)).length →
      Simulation.option.rel P (c.body.instantiateTelescope stack bound)
        (c.body.instantiateTelescope stack' bound)) :
    S.rel (fun r => ∀ u ∈ r, P u) (Env.unfoldClauses go stack args cs)
      (Env.unfoldClauses go' stack' args cs) := by
  induction cs with
  | nil => exact S.pure (by simp)
  | cons c cs ih =>
    refine S.bind (hgo.matchList c.patterns hargs) fun r hr => ?_
    cases r with
    | matched bound =>
      have hbody := hcs c (by simp) bound hr.2 hr.1
      refine S.bind (hS.lift hbody) fun u hu => ?_
      exact S.pure (by simpa using hu)
    | mismatch => exact ih fun c hc => hcs c (by simp [hc])
    | stuck => exact S.pure (by simp)

theorem unfold (h : EvaluatesAlike P env env') (hgo : S.Evaluation P go go')
    (hle : stack ≤ stack') {fn : DefId} {lift : ℕ} {args : List Term}
    (hcall : P (.fnCall fn lift args)) :
    S.rel (fun r => ∀ u ∈ r, P u) (env.unfold go stack fn args)
      (env'.unfold go' stack' fn args) := by
  have hargs : ∀ arg ∈ args, P arg := fun arg harg =>
    h.parts.child hcall (by simp [Term.children, harg])
  unfold Env.unfold
  rw [← h.fns hcall]
  cases hf : env.fns.get? fn with
  | none => exact S.pure (by simp)
  | some f =>
    dsimp only
    split
    · rename_i hlen
      cases hbody : f.body with
      | expr body =>
        have hmem : (f.telescope.length, body) ∈ (Def.fn f).bodyTerms := by
          simp [Def.bodyTerms_of_expr hbody]
        have hopened := h.opened hle hcall hf hmem hargs fun _ => hlen
        refine S.bind (hS.lift hopened) fun u hu => ?_
        exact S.pure (by simpa using hu)
      | clauses cs =>
        refine unfoldClauses hS hgo hargs fun c hc bound hbound hcount => ?_
        have hmem : (c.bindingCount, c.body) ∈ (Def.fn f).bodyTerms := by
          rw [Def.bodyTerms_of_clauses hbody]
          exact List.mem_map_of_mem hc
        refine h.opened hle hcall hf hmem hbound fun hfit => ?_
        have hpatterns : c.patterns.length ≤ args.length :=
          hlen ▸ hfit c (by simpa [Def.clauses?_of_clauses hbody] using hc)
        rw [hcount, List.take_of_length_le hpatterns]
        rfl
    · exact S.pure (by simp)

theorem whnfStep (h : EvaluatesAlike P env env') (hgo : S.Evaluation P go go')
    (hle : stack ≤ stack') {t : Term} (ht : P t) :
    S.rel P (env.whnfStep go stack t) (env'.whnfStep go' stack' t) := by
  cases t with
  | app fn arg =>
    have hfn : P fn := h.parts.child ht (by simp [Term.children])
    have harg : P arg := h.parts.child ht (by simp [Term.children])
    refine S.bind (hgo.eval fn hfn) fun u hu => ?_
    cases u with
    | lam body =>
      have hopened := h.contract hle hu harg
      refine S.bind (hS.lift hopened) fun w hw => ?_
      exact hgo.eval w hw
    | _ => exact S.pure (h.app hu harg)
  | proj whole index =>
    have hwhole : P whole := h.parts.child ht (by simp [Term.children])
    refine S.bind (hgo.eval whole hwhole) fun u hu => ?_
    have hstay : S.rel P (Pure.pure (.proj u index)) (Pure.pure (.proj u index)) :=
      S.pure (h.proj hu)
    cases u with
    | tuple items =>
      dsimp only
      cases hitem : items[index]? with
      | none => exact hstay
      | some item =>
        exact hgo.eval item (h.parts.tuple hu item (List.mem_of_getElem? hitem))
    | _ => exact hstay
  | fnCall fn lift args =>
    rw [whnfStep_fnCall, whnfStep_fnCall]
    refine hS.spend ht (S.bind (h.unfold hS hgo hle ht) fun r hr => ?_)
    cases r with
    | none => exact S.pure ht
    | some unfolded => exact hgo.eval unfolded (hr unfolded rfl)
  | _ => exact S.pure ht

/-- Evaluations that are alike are related by every simulation that allows for them. -/
theorem whnf (h : EvaluatesAlike P env env') (hle : stack ≤ stack') :
    S.Evaluation P (env.whnf stack) (env'.whnf stack') := by
  refine ⟨h.parts, fun t ht => ?_⟩
  induction stack generalizing stack' t with
  | zero => exact hS.exhausted
  | succ s ih =>
    obtain ⟨s', rfl⟩ : ∃ s', stack' = s' + 1 := ⟨stack' - 1, by omega⟩
    have hle' : s ≤ s' := by omega
    exact h.whnfStep hS ⟨h.parts, ih hle'⟩ hle' ht

omit hS

/-- With the same budget, what the one environment evaluates a term to is what the other does. -/
theorem eval (h : EvaluatesAlike P env env') (hfuel : env.fuel = env'.fuel)
    (hle : stack ≤ stack') :
    Simulation.option.Evaluation P (env.eval stack) (env'.eval stack') := by
  refine ⟨h.parts, fun t ht u hu => ?_⟩
  obtain ⟨r, hr, rfl⟩ := Option.map_eq_some_iff.mp hu
  obtain ⟨hr', hP⟩ := (h.whnf Simulation.allowsEvaluation_budgeted hle).eval t ht env.fuel r hr
  rw [hfuel] at hr'
  exact ⟨Option.map_eq_some_iff.mpr ⟨r, hr', rfl⟩, hP⟩

end EvaluatesAlike

/-- Evaluation refers only to what its term and the bodies of the functions in question refer to. -/
theorem evaluatesAlike_of_closed {ids : DefId → Prop}
    (hfns : ∀ id, ids id → env.fns.get? id = env'.fns.get? id)
    (hclosed : ∀ id f, ids id → env.fns.get? id = some f →
      ∀ body ∈ (Def.fn f).bodyTerms, body.2.RefsIn ids) :
    EvaluatesAlike (Term.RefsIn ids) env env' where
  parts := Term.passesToParts_refsIn ids
  app hfn harg := by
    refine Term.refsIn_of_headRef_eq_none rfl ?_
    simp only [Term.children, List.forall_mem_cons]
    exact ⟨hfn, harg, by simp⟩
  proj hwhole := Term.refsIn_of_headRef_eq_none rfl (by simpa [Term.children] using hwhole)
  contract {stack stack' body arg} hle hlam harg := by
    have hbody : body.RefsIn ids := hlam.child (c := (1, body)) (by simp [Term.children])
    exact Term.replaceFrom_transfer hle (by simpa using harg) hbody
  fns hcall := hfns _ ((Term.refsIn_iff.mp hcall).1 _ rfl)
  opened {stack stack' fn lift args bound f body} hle hcall hf hmem hbound _ := by
    have hfn : ids fn := (Term.refsIn_iff.mp hcall).1 fn rfl
    exact Term.instantiateTelescope_transfer hle hbound (hclosed fn f hfn hf body hmem)

/-- Two environments hold the same functions among the given ones, and the bodies of these refer
to no others. -/
structure AgreesOn (ids : DefId → Prop) (env env' : Env) : Prop where
  fuel : env.fuel = env'.fuel
  fns : ∀ id, ids id → env.fns.get? id = env'.fns.get? id
  closed : ∀ id f, ids id → env.fns.get? id = some f → ∀ r ∈ (Def.fn f).bodyRefs, ids r

namespace AgreesOn

variable {ids : DefId → Prop}

theorem symm (h : AgreesOn ids env env') : AgreesOn ids env' env where
  fuel := h.fuel.symm
  fns id hid := (h.fns id hid).symm
  closed id f hid hf := h.closed id f hid ((h.fns id hid).trans hf)

theorem right (h : AgreesOn ids env env') : AgreesOn ids env' env' :=
  ⟨rfl, fun _ _ => rfl, h.symm.closed⟩

theorem self (env : Env) : AgreesOn (fun _ => True) env env :=
  ⟨rfl, fun _ _ => rfl, fun _ _ _ _ _ _ => trivial⟩

theorem evaluatesAlike (h : AgreesOn ids env env') :
    EvaluatesAlike (Term.RefsIn ids) env env' :=
  evaluatesAlike_of_closed h.fns fun id f hid hf _ hbody r hr =>
    h.closed id f hid hf r (Def.refsIn_bodyTerms hbody r hr)

/-- Environments that agree on what a term refers to give it the same value. -/
theorem eval (h : AgreesOn ids env env') (hle : stack ≤ stack') :
    Simulation.option.Evaluation (Term.RefsIn ids) (env.eval stack) (env'.eval stack') :=
  h.evaluatesAlike.eval h.fuel hle

end AgreesOn

/-- Let a set of definitions have all that a term refers to, and all that the bodies of its functions
refer to. Environments with the same fuel that hold the same functions for the definitions of the
set evaluate the term alike, within any room: both come to the same answer or both to none. -/
theorem eval_eq_of_shared_functions {ids : Set DefId} {t : Term} (ht : ∀ id ∈ t.refs, id ∈ ids)
    (hfuel : env.fuel = env'.fuel) (hfns : ∀ id ∈ ids, env.fns.get? id = env'.fns.get? id)
    (hclosed : ∀ id ∈ ids, ∀ f, env.fns.get? id = some f →
      ∀ body ∈ (Def.fn f).bodyTerms, ∀ r ∈ body.2.refs, r ∈ ids) (stack : ℕ) :
    env.eval stack t = env'.eval stack t := by
  have hbodies : ∀ id f, id ∈ ids → env.fns.get? id = some f →
      ∀ body ∈ (Def.fn f).bodyTerms, body.2.RefsIn (· ∈ ids) := fun id f hid hf body hbody r hr =>
    hclosed id hid f hf body hbody r (List.mem_eraseDups.mpr hr)
  have hterm : t.RefsIn (· ∈ ids) := fun id hid => ht id (List.mem_eraseDups.mpr hid)
  have halike := evaluatesAlike_of_closed hfns hbodies
  have halike' := evaluatesAlike_of_closed (fun id hid => (hfns id hid).symm) fun id f hid hf =>
    hbodies id f hid ((hfns id hid).trans hf)
  refine Option.ext fun u => ⟨fun h => ?_, fun h => ?_⟩
  · exact ((halike.eval hfuel le_rfl).eval t hterm u h).1
  · exact ((halike'.eval hfuel.symm le_rfl).eval t hterm u h).1

/-- A function that hands its argument on to another one, which yields it. -/
def relay : Env :=
  let type : Term := .sort 0
  let first : FnDef := ⟨⟨2⟩, "first", [⟨"x", type, true⟩], type, .expr (.fnCall ⟨3⟩ 0 [.bound 0])⟩
  let second : FnDef :=
    ⟨⟨3⟩, "second", [⟨"y", type, true⟩], type,
      .clauses [⟨[.bind ⟨.supplied 0, "y"⟩ type], .bound 0⟩]⟩
  (Env.add {} (.fn first)).add (.fn second)

/-- The same among a function that calls itself for ever and a data type. -/
def crowdedRelay : Env :=
  let type : Term := .sort 0
  let endless : FnDef :=
    ⟨⟨5⟩, "endless", [⟨"z", type, true⟩], type, .expr (.fnCall ⟨5⟩ 0 [.fnCall ⟨2⟩ 0 [.bound 0]])⟩
  (relay.add (.fn endless)).add (.data ⟨⟨2⟩, "Empty", [], []⟩)

theorem eval_eq_of_shared_functions_relay :
    let call : Term := .fnCall ⟨2⟩ 0 [.free ⟨.supplied 1, "v"⟩]
    relay.eval 4 call = some (.free ⟨.supplied 1, "v"⟩) ∧
      relay.eval 4 call = crowdedRelay.eval 4 call := by
  intro call
  refine ⟨by decide +kernel, ?_⟩
  have hrefs : ∀ id ∈ call.refs, id ∈ ({⟨2⟩, ⟨3⟩} : Set DefId) := by decide
  have hfuel : relay.fuel = crowdedRelay.fuel := rfl
  refine eval_eq_of_shared_functions hrefs hfuel ?_ ?_ 4
  · rintro id (rfl | rfl) <;> rfl
  · rintro id (rfl | rfl) f hf <;> cases hf <;> decide

end Env

end ProofCore
