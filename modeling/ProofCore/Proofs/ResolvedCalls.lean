import ProofCore.Proofs.ClosureExact
import ProofCore.Proofs.EvaluationTransfer
import ProofCore.SizeChange.Resolution

/-!
# The verdict on recursion

Which calls a group of functions makes, up to the call they were made for, depends neither on the
order in which the functions are searched nor on functions that the group does not refer to, and
the verdict on the recursion depends on nothing else.
-/
namespace ProofCore

namespace CallGraph

theorem outgoing_insert (g : CallGraph) (a : CallMatrix) (caller : DefId) :
    (g.insert a).outgoing caller =
      if caller = a.caller then (g.outgoing caller).insert a else g.outgoing caller := by
  simp only [outgoing, insert, Table.get?_upsert]
  by_cases h : caller = a.caller
  · simp [h]
  · simp [h]

theorem contains_insert_iff {g : CallGraph} {a b : CallMatrix} :
    (g.insert a).contains b = true ↔ g.contains b = true ∨ a.sameRelations b = true := by
  rw [contains, contains, outgoing_insert]
  by_cases hcaller : b.caller = a.caller
  · rw [if_pos hcaller]
    exact Outgoing.contains_insert_iff (by simp [hcaller])
  · rw [if_neg hcaller]
    refine ⟨.inl, fun h => h.elim id fun hab => ?_⟩
    exact absurd ((CallMatrix.sameRelations_iff a b).mp hab).1.symm hcaller

theorem contains_insertAll_iff {g : CallGraph} {as : List CallMatrix} {b : CallMatrix} :
    (g.insertAll as).contains b = true ↔
      g.contains b = true ∨ ∃ a ∈ as, a.sameRelations b = true := by
  induction as generalizing g with
  | nil => simp [insertAll]
  | cons a as ih =>
    have hstep : g.insertAll (a :: as) = (g.insert a).insertAll as := rfl
    rw [hstep, ih, contains_insert_iff]
    simp only [List.mem_cons, exists_eq_or_imp]
    exact or_assoc

theorem contains_empty (a : CallMatrix) : empty.contains a = false := rfl

/-- Searching a list of things for calls records all that is found. -/
theorem foldlM_eq_insertAll {γ : Type} {step : CallGraph → γ → Option CallGraph}
    {found : γ → Option (List CallMatrix)}
    (hstep : ∀ g x, step g x = (found x).map g.insertAll) (xs : List γ) (g : CallGraph) :
    xs.foldlM step g = (xs.mapM found).map fun ms => g.insertAll ms.flatten := by
  induction xs generalizing g with
  | nil => rfl
  | cons x xs ih =>
    rw [List.foldlM_cons, List.mapM_cons, hstep]
    cases hx : found x with
    | none => rfl
    | some as =>
      simp only [Option.map_some, Option.bind_eq_bind, Option.bind_some, ih]
      cases xs.mapM found with
      | none => rfl
      | some ms => simp [insertAll, List.foldl_append]

end CallGraph

section Transfer

variable {g g' : CallGraph} (h : ∀ a, g.contains a = true → g'.contains a = true)
include h

theorem CallGraph.exists_recorded {a : CallMatrix} (ha : a ∈ g.matrices) :
    ∃ b ∈ g'.matrices, a.sameRelations b = true := by
  have hknown := contains_iff.mpr ⟨a, ha, a.sameRelations_refl⟩
  obtain ⟨b, hb, hba⟩ := contains_iff.mp (h a hknown)
  exact ⟨b, hb, CallMatrix.sameRelations_symm hba⟩

/-- A sequence of calls of one graph has its like in every graph that records no less. -/
theorem CallSequence.transfer {a : CallMatrix} (ha : CallSequence g a) :
    ∃ b, CallSequence g' b ∧ a.sameRelations b = true := by
  induction ha with
  | @single a ha =>
    obtain ⟨b, hb, hab⟩ := CallGraph.exists_recorded h ha
    exact ⟨b, .single hb, hab⟩
  | @snoc path a longer _ ha link ih =>
    obtain ⟨path', hpath', hpath⟩ := ih
    obtain ⟨b, hb, hab⟩ := CallGraph.exists_recorded h ha
    obtain ⟨longer', hlink, hlonger⟩ := CallMatrix.combine_congr hpath hab link
    exact ⟨longer', .snoc hpath' hb hlink, hlonger⟩

theorem CallGraph.badRecursion_eq_nil_of_contains (hg' : g'.badRecursion = some []) :
    g.badRecursion = some [] := by
  obtain ⟨hroom, hnone⟩ := badRecursion_eq_nil_iff.mp hg'
  refine badRecursion_eq_nil_iff.mpr ⟨fun path a hpath ha hfull => ?_, fun a ha => ?_⟩
  · obtain ⟨path', hpath', hsame⟩ := hpath.transfer h
    obtain ⟨b, hb, hab⟩ := exists_recorded h ha
    exact hroom path' b hpath' hb (CallMatrix.combine_eq_noRoom_congr hsame hab hfull)
  · obtain ⟨b, hb, hab⟩ := ha.sequence.transfer h
    exact hnone b (ha.congr hb hab)

end Transfer

theorem mem_iff_of_mapM {α β : Type} {f : α → Option β} {xs : List α} {ys : List β}
    (h : xs.mapM f = some ys) {y : β} : y ∈ ys ↔ ∃ x ∈ xs, f x = some y := by
  induction xs generalizing ys with
  | nil =>
    cases h
    simp
  | cons x xs ih =>
    rw [List.mapM_cons] at h
    obtain ⟨z, hz, h⟩ := Option.bind_eq_some_iff.mp h
    obtain ⟨zs, hzs, h⟩ := Option.bind_eq_some_iff.mp h
    cases h
    simp [ih hzs, hz, eq_comm]

theorem exists_mapM_iff {α β : Type} {f : α → Option β} {xs : List α} :
    (∃ ys, xs.mapM f = some ys) ↔ ∀ x ∈ xs, ∃ y, f x = some y := by
  induction xs with
  | nil => simp
  | cons x xs ih =>
    rw [List.forall_mem_cons, ← ih, List.mapM_cons]
    cases f x with
    | none => simp
    | some y => cases xs.mapM f <;> simp

theorem Term.RefsIn.call {ids : DefId → Prop} {t : Term} (h : t.RefsIn ids)
    {c : Term × DefId × List Term} (hc : c ∈ t.calls) : ∀ arg ∈ c.2.2, arg.RefsIn ids := by
  intro arg harg
  obtain ⟨o, ho, heq⟩ := List.mem_filterMap.mp hc
  obtain ⟨call, hcall, rfl⟩ := Option.map_eq_some_iff.mp heq
  have hpart : (0, arg) ∈ o.2.children := by
    cases hu : o.2 <;> rw [hu] at hcall <;>
      simp only [call?, reduceCtorEq, Option.some.injEq] at hcall
    case fnCall => subst hcall; simpa [children] using harg
    case dataCall => subst hcall; simpa [children] using harg
    case conCall => subst hcall; simp_all [children]
  exact (h.occurrence ho).child hpart

namespace FnDef

/-- One equation of a function: what it matches, the variables bound there, and its body. -/
structure Equation where
  patterns : List Pattern
  vars : List Var
  body : Term

def equations (f : FnDef) (copy : ℕ) : List Equation :=
  match f.body with
  | .clauses cs => cs.map fun c => ⟨c.patterns, c.bindings.map Prod.fst, c.body⟩
  | .expr body =>
    let xs := f.paramVars copy
    [⟨List.zipWith (fun x p => .bind x p.type) xs f.telescope, xs, body⟩]

theorem openBodies_eq (f : FnDef) (stack copy : ℕ) :
    f.openBodies stack copy =
      (f.equations copy).map fun e => (e.patterns, e.body.instantiateVars stack e.vars) := by
  unfold openBodies equations
  cases f.body <;> simp

theorem body_mem_bodyTerms {f : FnDef} {copy : ℕ} {e : Equation} (he : e ∈ f.equations copy) :
    ∃ depth, (depth, e.body) ∈ (Def.fn f).bodyTerms := by
  unfold equations at he
  cases hbody : f.body with
  | expr body =>
    rw [hbody] at he
    rw [Def.bodyTerms_of_expr hbody]
    exact ⟨f.telescope.length, by simp [List.mem_singleton.mp he]⟩
  | clauses cs =>
    rw [hbody] at he
    rw [Def.bodyTerms_of_clauses hbody]
    obtain ⟨c, hc, rfl⟩ := List.mem_map.mp he
    exact ⟨c.bindingCount, List.mem_map_of_mem hc⟩

/-- The matrix of a call, if it is one to a target. -/
def targetMatrices (f : FnDef) (whnf : Term → Option Term) (targets : Targets)
    (patterns : List Pattern) (c : Term × DefId × List Term) : Option (List CallMatrix) :=
  match targets.get? c.2.1 with
  | none => return []
  | some arity => return [← f.callMatrix whnf patterns arity c.1 c.2.1 c.2.2]

def equationMatrices (f : FnDef) (whnf : Term → Option Term) (stack : ℕ) (targets : Targets)
    (e : Equation) : Option (List CallMatrix) := do
  let body ← e.body.instantiateVars stack e.vars
  return (← body.calls.mapM (f.targetMatrices whnf targets e.patterns)).flatten

/-- The matrices of all calls that `f` makes to the targets. -/
def matrices (f : FnDef) (whnf : Term → Option Term) (stack copy : ℕ) (targets : Targets) :
    Option (List CallMatrix) :=
  return (← (f.equations copy).mapM (f.equationMatrices whnf stack targets)).flatten

theorem resolveBody_eq (f : FnDef) (whnf : Term → Option Term) (targets : Targets)
    (patterns : List Pattern) (body : Term) (g : CallGraph) :
    f.resolveBody whnf targets patterns body g =
      (body.calls.mapM (f.targetMatrices whnf targets patterns)).map fun ms =>
        g.insertAll ms.flatten := by
  refine CallGraph.foldlM_eq_insertAll (fun g c => ?_) body.calls g
  unfold targetMatrices
  cases targets.get? c.2.1 with
  | none => rfl
  | some arity =>
    cases hm : f.callMatrix whnf patterns arity c.1 c.2.1 c.2.2 <;> simp [hm, CallGraph.insertAll]

theorem resolve_eq (f : FnDef) (whnf : Term → Option Term) (stack copy : ℕ) (targets : Targets)
    (g : CallGraph) :
    f.resolve whnf stack copy targets g =
      (f.matrices whnf stack copy targets).map g.insertAll := by
  have hstep : ∀ (g : CallGraph) (e : Equation),
      (do f.resolveBody whnf targets e.patterns (← e.body.instantiateVars stack e.vars) g) =
        (f.equationMatrices whnf stack targets e).map g.insertAll := by
    intro g e
    unfold equationMatrices
    cases e.body.instantiateVars stack e.vars with
    | none => rfl
    | some body =>
      simp only [Option.bind_eq_bind, Option.bind_some, resolveBody_eq]
      cases body.calls.mapM (f.targetMatrices whnf targets e.patterns) <;> rfl
  rw [resolve, openBodies_eq, List.foldlM_map, CallGraph.foldlM_eq_insertAll hstep, matrices]
  cases (f.equations copy).mapM (f.equationMatrices whnf stack targets) <;> rfl

section Transfer

variable {ids : DefId → Prop} {whnf whnf' : Term → Option Term}
  (hwhnf : Simulation.option.Evaluation (Term.RefsIn ids) whnf whnf') {targets targets' : Targets}
  (htargets : ∀ id, targets.get? id = targets'.get? id)
include hwhnf

theorem callMatrix_transfer (f : FnDef) (patterns : List Pattern) (arity : ℕ) (call : Term)
    (callee : DefId) {args : List Term} (hargs : ∀ arg ∈ args, arg.RefsIn ids) :
    Simulation.option.rel (fun _ => True) (f.callMatrix whnf patterns arity call callee args)
      (f.callMatrix whnf' patterns arity call callee args) := by
  refine Simulation.option.bind (P := fun _ => True) ?_ fun cells _ => ?_
  · refine Simulation.option.mono (Simulation.option.mapM (Q := fun _ => True) fun p _ => ?_)
      fun _ _ => trivial
    refine Simulation.option.mono (Simulation.option.mapM (Q := fun _ => True) fun t ht => ?_)
      fun _ _ => trivial
    exact hwhnf.compare p (hargs t (List.mem_of_mem_take ht))
  · exact fun a ha => ⟨ha, trivial⟩

include htargets

theorem targetMatrices_transfer (f : FnDef) (patterns : List Pattern)
    {c : Term × DefId × List Term} (hargs : ∀ arg ∈ c.2.2, arg.RefsIn ids) :
    Simulation.option.rel (fun _ => True) (f.targetMatrices whnf targets patterns c)
      (f.targetMatrices whnf' targets' patterns c) := by
  unfold targetMatrices
  rw [← htargets]
  cases targets.get? c.2.1 with
  | none => exact Simulation.option.pure trivial
  | some arity =>
    have hmatrix := callMatrix_transfer hwhnf f patterns arity c.1 c.2.1 hargs
    exact Simulation.option.bind hmatrix fun _ _ => Simulation.option.pure trivial

theorem equationMatrices_transfer (f : FnDef) {stack stack' : ℕ} (hle : stack ≤ stack')
    {e : Equation} (hbody : e.body.RefsIn ids) :
    Simulation.option.rel (fun _ => True) (f.equationMatrices whnf stack targets e)
      (f.equationMatrices whnf' stack' targets' e) := by
  have hvars : ∀ arg ∈ e.vars.map Term.free, arg.RefsIn ids := by
    intro arg harg
    obtain ⟨x, -, rfl⟩ := List.mem_map.mp harg
    exact Term.refsIn_of_headRef_eq_none rfl (by simp [Term.children])
  have hopened := Term.instantiateTelescope_transfer hle hvars hbody
  refine Simulation.option.bind hopened fun body hbody => ?_
  have hcalls := Simulation.option.mapM fun c (hc : c ∈ body.calls) =>
    targetMatrices_transfer hwhnf htargets f e.patterns (hbody.call hc)
  exact Simulation.option.bind hcalls fun _ _ => Simulation.option.pure trivial

theorem matrices_transfer (f : FnDef) {stack stack' : ℕ} (hle : stack ≤ stack') (copy : ℕ)
    (hrefs : ∀ r ∈ (Def.fn f).bodyRefs, ids r) :
    Simulation.option.rel (fun _ => True) (f.matrices whnf stack copy targets)
      (f.matrices whnf' stack' copy targets') := by
  have hfound := Simulation.option.mapM fun e (he : e ∈ f.equations copy) => by
    obtain ⟨depth, hmem⟩ := body_mem_bodyTerms he
    have hbody : e.body.RefsIn ids := fun id hid => hrefs id (Def.refsIn_bodyTerms hmem id hid)
    exact equationMatrices_transfer hwhnf htargets f hle hbody
  exact Simulation.option.bind hfound fun _ _ => Simulation.option.pure trivial

end Transfer

end FnDef

/-- Functions with different ids are searched one after the other. -/
theorem resolveCallsAfter_eq {whnf : Term → Option Term} {stack : ℕ} {targets : Targets}
    {earlier : List DefId} {fns : List FnDef} (hnodup : (fns.map FnDef.id).Nodup)
    (hnew : ∀ f ∈ fns, f.id ∉ earlier) (g : CallGraph) :
    resolveCallsAfter whnf stack targets earlier fns g =
      (fns.mapM fun f : FnDef => f.matrices whnf stack 0 targets).map fun ms =>
        g.insertAll ms.flatten := by
  induction fns generalizing earlier g with
  | nil => rfl
  | cons f fns ih =>
    rw [List.map_cons, List.nodup_cons] at hnodup
    have hcount : earlier.count f.id = 0 := List.count_eq_zero.mpr (hnew f (by simp))
    have hrest : ∀ f' ∈ fns, f'.id ∉ f.id :: earlier := by
      intro f' hf' hmem
      rcases List.mem_cons.mp hmem with heq | hmem
      · exact hnodup.1 (heq ▸ List.mem_map_of_mem hf')
      · exact hnew f' (by simp [hf']) hmem
    rw [resolveCallsAfter, hcount, FnDef.resolve_eq, List.mapM_cons]
    cases f.matrices whnf stack 0 targets with
    | none => rfl
    | some as =>
      simp only [Option.map_some, Option.bind_eq_bind, Option.bind_some, ih hnodup.2 hrest]
      cases fns.mapM fun f : FnDef => f.matrices whnf stack 0 targets with
      | none => rfl
      | some ms => simp [CallGraph.insertAll, List.foldl_append]

theorem Targets.get?_ofDefs {ds : List Def} (hnodup : (ds.map Def.id).Nodup) {id : DefId} {n : ℕ} :
    (ofDefs ds).get? id = some n ↔ ∃ d ∈ ds, d.id = id ∧ d.telescope.length = n := by
  have hkeys : ((ds.map fun d => (d.id, d.telescope.length)).map Prod.fst).Nodup := by
    rwa [List.map_map]
  rw [ofDefs, Table.get?_ofList hkeys]
  simp

theorem Def.mem_fns_iff {ds : List Def} {f : FnDef} :
    f ∈ ds.filterMap Def.fn? ↔ .fn f ∈ ds := by
  rw [List.mem_filterMap]
  constructor
  · intro h
    obtain ⟨d, hd, hf⟩ := h
    cases d with
    | fn f' => exact Option.some.inj hf ▸ hd
    | data d => cases hf
  · exact fun h => ⟨.fn f, h, rfl⟩

theorem Def.sublist_fns (ds : List Def) :
    ((ds.filterMap Def.fn?).map FnDef.id).Sublist (ds.map Def.id) := by
  induction ds with
  | nil => exact .slnil
  | cons d ds ih =>
    cases d with
    | fn f => exact ih.cons_cons f.id
    | data d => exact ih.cons d.id

/-- The calls between some definitions. -/
def callsAmong (env : Env) (stack : ℕ) (ds : List Def) : Option CallGraph :=
  resolveCalls (env.eval stack) stack (ds.filterMap Def.fn?) (.ofDefs ds)

/-- The recursion between some definitions ends. -/
def Terminating (env : Env) (ds : List Def) : Prop :=
  ∃ stack calls, callsAmong env stack ds = some calls ∧ calls.badRecursion = some []

section Verdict

variable {ids : DefId → Prop} {env env' : Env} {stack stack' : ℕ} {ds ds' : List Def}
  {calls calls' : CallGraph}

theorem callsAmong_eq (env : Env) (stack : ℕ) (hnodup : (ds.map Def.id).Nodup) :
    callsAmong env stack ds = ((ds.filterMap Def.fn?).mapM fun f : FnDef =>
      f.matrices (env.eval stack) stack 0 (.ofDefs ds)).map fun ms =>
        CallGraph.empty.insertAll ms.flatten :=
  resolveCallsAfter_eq (hnodup.sublist (Def.sublist_fns ds)) (by simp) .empty

theorem exists_callsAmong_iff (hnodup : (ds.map Def.id).Nodup) :
    (∃ calls, callsAmong env stack ds = some calls) ↔ ∀ f, .fn f ∈ ds →
      ∃ as, f.matrices (env.eval stack) stack 0 (.ofDefs ds) = some as := by
  rw [callsAmong_eq env stack hnodup]
  simp only [← Def.mem_fns_iff, Option.map_eq_some_iff, ← exists_mapM_iff]
  constructor
  · intro h
    obtain ⟨-, ms, hms, -⟩ := h
    exact ⟨ms, hms⟩
  · intro h
    obtain ⟨ms, hms⟩ := h
    exact ⟨_, ms, hms, rfl⟩

theorem contains_callsAmong_iff (hnodup : (ds.map Def.id).Nodup)
    (h : callsAmong env stack ds = some calls) {b : CallMatrix} :
    calls.contains b = true ↔ ∃ f as, .fn f ∈ ds ∧
      f.matrices (env.eval stack) stack 0 (.ofDefs ds) = some as ∧
        ∃ a ∈ as, a.sameRelations b = true := by
  rw [callsAmong_eq env stack hnodup] at h
  obtain ⟨ms, hms, rfl⟩ := Option.map_eq_some_iff.mp h
  rw [CallGraph.contains_insertAll_iff, CallGraph.contains_empty]
  simp only [Bool.false_eq_true, false_or, List.mem_flatten, mem_iff_of_mapM hms, Def.mem_fns_iff]
  constructor
  · intro h
    obtain ⟨a, ⟨as, ⟨f, hf, has⟩, ha⟩, hab⟩ := h
    exact ⟨f, as, hf, has, a, ha, hab⟩
  · intro h
    obtain ⟨f, as, hf, has, a, ha, hab⟩ := h
    exact ⟨a, ⟨as, ⟨f, hf, has⟩, ha⟩, hab⟩

theorem get?_ofDefs_perm (hperm : ds.Perm ds') (hnodup : (ds.map Def.id).Nodup) (id : DefId) :
    (Targets.ofDefs ds).get? id = (Targets.ofDefs ds').get? id := by
  have hnodup' : (ds'.map Def.id).Nodup := (hperm.map Def.id).nodup_iff.mp hnodup
  apply Option.ext
  intro n
  simp only [Targets.get?_ofDefs hnodup, Targets.get?_ofDefs hnodup', hperm.mem_iff]

variable (hagree : Env.AgreesOn ids env env') (hperm : ds.Perm ds')
  (hnodup : (ds.map Def.id).Nodup) (hrefs : ∀ d ∈ ds, ∀ r ∈ d.bodyRefs, ids r)
include hagree hperm hnodup hrefs

theorem matrices_callsAmong {f : FnDef} (hf : .fn f ∈ ds) {as : List CallMatrix}
    (h : f.matrices (env.eval stack) stack 0 (.ofDefs ds) = some as) (hle : stack ≤ stack') :
    f.matrices (env'.eval stack') stack' 0 (.ofDefs ds') = some as :=
  (FnDef.matrices_transfer (hagree.eval hle) (get?_ofDefs_perm hperm hnodup) f hle 0
    (hrefs _ hf) as h).1

theorem contains_of_callsAmong (h : callsAmong env stack ds = some calls)
    (h' : callsAmong env' stack' ds' = some calls') {b : CallMatrix}
    (hb : calls.contains b = true) : calls'.contains b = true := by
  have hnodup' : (ds'.map Def.id).Nodup := (hperm.map Def.id).nodup_iff.mp hnodup
  have hrefs' : ∀ d ∈ ds', ∀ r ∈ d.bodyRefs, ids r := fun d hd => hrefs d (hperm.mem_iff.mpr hd)
  obtain ⟨f, as, hf, has, a, ha, hab⟩ := (contains_callsAmong_iff hnodup h).mp hb
  have hf' : .fn f ∈ ds' := hperm.mem_iff.mp hf
  obtain ⟨as', has'⟩ := (exists_callsAmong_iff hnodup').mp ⟨calls', h'⟩ f hf'
  -- both answers are still given when both searches may make as many nested calls as either
  have htop := matrices_callsAmong hagree hperm hnodup hrefs hf has (Nat.le_max_left stack stack')
  have htop' := matrices_callsAmong hagree.right (List.Perm.refl ds') hnodup' hrefs' hf' has'
    (Nat.le_max_right stack stack')
  have heq : as = as' := Option.some.inj (htop.symm.trans htop')
  exact (contains_callsAmong_iff hnodup' h').mpr ⟨f, as', hf', has', a, heq ▸ ha, hab⟩

/-- The verdict on the calls that were found decides whether the recursion ends. -/
theorem badRecursion_eq_nil_iff_terminating (h : callsAmong env stack ds = some calls) :
    calls.badRecursion = some [] ↔ Terminating env' ds' := by
  have hnodup' : (ds'.map Def.id).Nodup := (hperm.map Def.id).nodup_iff.mp hnodup
  have hrefs' : ∀ d ∈ ds', ∀ r ∈ d.bodyRefs, ids r := fun d hd => hrefs d (hperm.mem_iff.mpr hd)
  constructor
  · intro hgood
    obtain ⟨calls', h'⟩ : ∃ calls', callsAmong env' stack ds' = some calls' := by
      refine (exists_callsAmong_iff hnodup').mpr fun f hf' => ?_
      have hf : .fn f ∈ ds := hperm.mem_iff.mpr hf'
      obtain ⟨as, has⟩ := (exists_callsAmong_iff hnodup).mp ⟨calls, h⟩ f hf
      exact ⟨as, matrices_callsAmong hagree hperm hnodup hrefs hf has le_rfl⟩
    refine ⟨stack, calls', h', CallGraph.badRecursion_eq_nil_of_contains (fun b hb => ?_) hgood⟩
    exact contains_of_callsAmong hagree.symm hperm.symm hnodup' hrefs' h' h hb
  · intro hgood
    obtain ⟨stack', calls', h', hgood⟩ := hgood
    refine CallGraph.badRecursion_eq_nil_of_contains (fun b hb => ?_) hgood
    exact contains_of_callsAmong hagree hperm hnodup hrefs h h' hb

theorem Terminating.transfer (h : Terminating env ds) : Terminating env' ds' := by
  obtain ⟨stack, calls, h, hgood⟩ := h
  exact (badRecursion_eq_nil_iff_terminating hagree hperm hnodup hrefs h).mp hgood

end Verdict

section Agreement

variable {ids : DefId → Prop} {env env' : Env} {stack stack' : ℕ} {ds : List Def}
  {calls calls' : CallGraph} (hagree : Env.AgreesOn ids env env')
  (hnodup : (ds.map Def.id).Nodup) (hrefs : ∀ d ∈ ds, ∀ r ∈ d.bodyRefs, ids r)
include hagree hnodup hrefs

/-- What a search finds, it finds in an environment that agrees on what matters, and with more
nested calls. -/
theorem callsAmong_transfer (h : callsAmong env stack ds = some calls) (hle : stack ≤ stack') :
    callsAmong env' stack' ds = some calls := by
  rw [callsAmong_eq _ _ hnodup] at h ⊢
  obtain ⟨ms, hms, rfl⟩ := Option.map_eq_some_iff.mp h
  have hfound := (Simulation.option.mapM fun f hf => FnDef.matrices_transfer (hagree.eval hle)
    (fun _ => rfl) f hle 0 (hrefs _ (Def.mem_fns_iff.mp hf))) ms hms
  exact Option.map_eq_some_iff.mpr ⟨ms, hfound.1, rfl⟩

theorem callsAmong_unique (h : callsAmong env stack ds = some calls)
    (h' : callsAmong env' stack' ds = some calls') : calls' = calls := by
  have htop := callsAmong_transfer hagree hnodup hrefs h (Nat.le_max_left stack stack')
  have htop' := callsAmong_transfer hagree.right hnodup hrefs h' (Nat.le_max_right stack stack')
  exact Option.some.inj (htop'.symm.trans htop)

end Agreement

end ProofCore
