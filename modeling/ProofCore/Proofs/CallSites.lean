import ProofCore.Proofs.ResolvedCalls
import ProofCore.Syntax.NatShape

/-!
# Which calls are recorded

Searching a function for calls adds to a call graph what its calls to targets give, and nothing
else. Here a call of a function is said by rules, from its definition down to a subterm of an opened
body, and the matrix of a call is said by its cells. The graph after the search has the matrices
that it had before and one for each call, up to matrices with the same relations.
-/
namespace ProofCore

theorem getElem?_of_mapM {α β : Type} {f : α → Option β} {xs : List α} {ys : List β}
    (h : xs.mapM f = some ys) (i : ℕ) : ys[i]? = xs[i]?.bind f := by
  induction xs generalizing ys i with
  | nil =>
    cases h
    rfl
  | cons x xs ih =>
    rw [List.mapM_cons] at h
    obtain ⟨y, hy, h⟩ := Option.bind_eq_some_iff.mp h
    obtain ⟨zs, hzs, h⟩ := Option.bind_eq_some_iff.mp h
    cases h
    cases i with
    | zero => exact hy.symm
    | succ i => exact ih hzs i

/-- The cells of a table that is computed row by row. -/
theorem getElem?_of_mapM_mapM {α β γ : Type} {f : α → β → Option γ} {xs : List α} {ys : List β}
    {rows : List (List γ)} (h : (xs.mapM fun x => ys.mapM (f x)) = some rows) (i j : ℕ) :
    (rows.getD i [])[j]? = xs[i]?.bind fun x => ys[j]?.bind (f x) := by
  have hrow := getElem?_of_mapM h i
  rw [List.getD_eq_getElem?_getD, hrow]
  cases hx : xs[i]? with
  | none => rfl
  | some x =>
    obtain ⟨row, hcells⟩ := exists_mapM_iff.mp ⟨rows, h⟩ x (List.mem_of_getElem? hx)
    simp only [Option.bind_some, hcells, Option.getD_some]
    exact getElem?_of_mapM hcells j

theorem mem_flatten_of_mapM {α β : Type} {f : α → Option (List β)} {xs : List α}
    {yss : List (List β)} (h : xs.mapM f = some yss) {y : β} :
    y ∈ yss.flatten ↔ ∃ x ∈ xs, ∃ ys, f x = some ys ∧ y ∈ ys := by
  rw [List.mem_flatten]
  constructor
  · rintro ⟨ys, hys, hy⟩
    obtain ⟨x, hx, hfx⟩ := (mem_iff_of_mapM h).mp hys
    exact ⟨x, hx, ys, hfx, hy⟩
  · rintro ⟨x, hx, ys, hfx, hy⟩
    exact ⟨ys, (mem_iff_of_mapM h).mpr ⟨x, hx, hfx⟩, hy⟩

namespace Term

/-- The term `u` is a part of a term, at any depth; a hole has no parts. -/
inductive OccursIn (u : Term) : Term → Prop
  | self : OccursIn u u
  | part {t c : Term} {binders : ℕ} (child : (binders, c) ∈ t.children)
      (inside : OccursIn u c) : OccursIn u t

theorem exists_occurrence_iff {t u : Term} (depth : ℕ) :
    (∃ d, (d, u) ∈ t.occurrences depth) ↔ u.OccursIn t := by
  constructor
  · rintro ⟨d, hd⟩
    induction t using childrenInduction generalizing depth with
    | step t ih =>
      rw [occurrences_eq_cons, List.mem_cons, List.mem_flatMap] at hd
      rcases hd with heq | ⟨c, hc, hd⟩
      · cases heq
        exact .self
      · exact .part hc (ih c hc _ hd)
  · intro h
    induction h generalizing depth with
    | self =>
      refine ⟨depth, ?_⟩
      rw [occurrences_eq_cons]
      exact List.mem_cons_self
    | @part t c binders hchild _ ih =>
      obtain ⟨d, hd⟩ := ih (depth + binders)
      refine ⟨d, ?_⟩
      rw [occurrences_eq_cons, List.mem_cons, List.mem_flatMap]
      exact .inr ⟨_, hchild, hd⟩

theorem mem_calls_iff {t : Term} {c : Term × DefId × List Term} :
    c ∈ t.calls ↔ c.1.OccursIn t ∧ c.1.call? = some c.2 := by
  rw [calls, List.mem_filterMap, ← exists_occurrence_iff 0]
  constructor
  · rintro ⟨o, ho, hc⟩
    obtain ⟨called, hcalled, rfl⟩ := Option.map_eq_some_iff.mp hc
    exact ⟨⟨o.1, ho⟩, hcalled⟩
  · rintro ⟨⟨d, hd⟩, hcalled⟩
    exact ⟨_, hd, Option.map_eq_some_iff.mpr ⟨c.2, hcalled, rfl⟩⟩

end Term

/-- A call to a definition with `arity` parameters, and the patterns that bind the variables of its
arguments. -/
structure CallSite where
  patterns : List Pattern
  callee : DefId
  arity : ℕ
  args : List Term

namespace FnDef

/-- Variables for the parameters of a function: they have the names of these, are all different, and
do not come from the supply, as the variables of a definition do. -/
structure FreshParams (f : FnDef) (xs : List Var) : Prop where
  names : xs.map Var.name = f.telescope.map Param.name
  distinct : xs.Nodup
  unsupplied : ∀ x ∈ xs, ∀ n, x.id ≠ .supplied n

theorem freshParams_paramVars (f : FnDef) (copy : ℕ) : f.FreshParams (f.paramVars copy) where
  names := by
    have hnames : (f.paramVars copy).map Var.name =
        (f.telescope.zipIdx.map Prod.fst).map Param.name := by
      rw [paramVars, List.map_map, List.map_map]
      rfl
    rw [hnames, List.zipIdx_map_fst]
  distinct := by
    have hids : (f.paramVars copy).map Var.id =
        (f.telescope.zipIdx.map Prod.snd).map (VarId.param f.id copy) := by
      rw [paramVars, List.map_map, List.map_map]
      rfl
    apply List.Nodup.of_map Var.id
    rw [hids, List.zipIdx_map_snd]
    refine List.Nodup.map (fun i j h => ?_) List.nodup_range'
    exact (VarId.param.inj h).2.2
  unsupplied := by
    intro x hx n
    obtain ⟨p, -, rfl⟩ := List.mem_map.mp hx
    exact VarId.noConfusion

/-- A body of the function, opened, with the patterns that it belongs to: a clause with the
variables of its patterns, or an expression with `xs`, which match every argument. -/
inductive OpenedBody (f : FnDef) (stack : ℕ) (xs : List Var) : List Pattern → Term → Prop
  | clause {cs : List Clause} {c : Clause} {body : Term} (given : f.body = .clauses cs)
      (listed : c ∈ cs)
      (opens : c.body.instantiateVars stack (c.bindings.map Prod.fst) = some body) :
      OpenedBody f stack xs c.patterns body
  | expr {e body : Term} (given : f.body = .expr e)
      (opens : e.instantiateVars stack xs = some body) :
      OpenedBody f stack xs (List.zipWith (fun x p => .bind x p.type) xs f.telescope) body

/-- The function makes a call to a target, somewhere in one of its bodies. -/
def Makes (f : FnDef) (stack : ℕ) (xs : List Var) (targets : Targets) (s : CallSite) : Prop :=
  targets.get? s.callee = some s.arity ∧ ∃ body call : Term, f.OpenedBody stack xs s.patterns body ∧
    call.OccursIn body ∧ call.call? = some (s.callee, s.args)

end FnDef

/-- The matrix of a call that `f` makes: a row for each parameter, a column for each parameter of
the callee, and in the cells the comparisons of the arguments with the patterns. -/
structure CallSite.Measured (s : CallSite) (whnf : Term → Option Term) (f : FnDef)
    (a : CallMatrix) : Prop where
  caller : a.caller = f.id
  callee : a.callee = s.callee
  rows : a.rows = f.telescope.length
  cols : a.cols = s.arity
  compared : ∀ row < a.rows, ∀ col < a.cols, ∀ p t, s.patterns[row]? = some p →
    s.args[col]? = some t → p.compare whnf t = some (a.get row col)
  blank : ∀ row col, s.patterns[row]? = none ∨ s.args[col]? = none → a.get row col = .unknown

namespace CallSite.Measured

variable {s : CallSite} {whnf : Term → Option Term} {f : FnDef} {a b : CallMatrix}

/-- A call has one matrix, up to its relations. -/
theorem sameRelations (ha : s.Measured whnf f a) (hb : s.Measured whnf f b) :
    a.sameRelations b = true := by
  have hrows : a.rows = b.rows := ha.rows.trans hb.rows.symm
  have hcols : a.cols = b.cols := ha.cols.trans hb.cols.symm
  rw [CallMatrix.sameRelations_iff]
  refine ⟨ha.caller.trans hb.caller.symm, ha.callee.trans hb.callee.symm, hrows, hcols,
    fun row col => ?_⟩
  by_cases hrow : row < a.rows
  · by_cases hcol : col < a.cols
    · cases hp : s.patterns[row]? with
      | none => rw [ha.blank row col (.inl hp), hb.blank row col (.inl hp)]
      | some p =>
        cases ht : s.args[col]? with
        | none => rw [ha.blank row col (.inr ht), hb.blank row col (.inr ht)]
        | some t =>
          have hcell := ha.compared row hrow col hcol p t hp ht
          have hcell' := hb.compared row (hrows ▸ hrow) col (hcols ▸ hcol) p t hp ht
          exact Option.some.inj (hcell.symm.trans hcell')
    · rw [CallMatrix.get_of_cols_le (by omega), CallMatrix.get_of_cols_le (by omega)]
  · rw [CallMatrix.get_of_rows_le (by omega), CallMatrix.get_of_rows_le (by omega)]

theorem congr (ha : s.Measured whnf f a) (hab : a.sameRelations b = true) :
    s.Measured whnf f b := by
  obtain ⟨hcaller, hcallee, hrows, hcols, hcells⟩ := (CallMatrix.sameRelations_iff a b).mp hab
  refine ⟨hcaller ▸ ha.caller, hcallee ▸ ha.callee, hrows ▸ ha.rows, hcols ▸ ha.cols, ?_, ?_⟩
  · intro row hrow col hcol p t hp ht
    rw [← hcells]
    exact ha.compared row (hrows ▸ hrow) col (hcols ▸ hcol) p t hp ht
  · intro row col hnone
    rw [← hcells]
    exact ha.blank row col hnone

end CallSite.Measured

namespace FnDef

variable {f : FnDef} {whnf : Term → Option Term} {stack copy : ℕ} {targets : Targets}
  {a : CallMatrix} {as : List CallMatrix}

theorem openedBody_iff {patterns : List Pattern} {body : Term} :
    f.OpenedBody stack (f.paramVars copy) patterns body ↔ ∃ e ∈ f.equations copy,
      e.patterns = patterns ∧ e.body.instantiateVars stack e.vars = some body := by
  constructor
  · intro h
    cases h with
    | clause hgiven hlisted hopens =>
      refine ⟨⟨_, _, _⟩, ?_, rfl, hopens⟩
      rw [equations, hgiven]
      exact List.mem_map.mpr ⟨_, hlisted, rfl⟩
    | expr hgiven hopens =>
      refine ⟨⟨_, _, _⟩, ?_, rfl, hopens⟩
      rw [equations, hgiven]
      exact List.mem_singleton.mpr rfl
  · rintro ⟨e, he, rfl, hopens⟩
    unfold equations at he
    cases hbody : f.body with
    | clauses cs =>
      rw [hbody] at he
      obtain ⟨c, hc, rfl⟩ := List.mem_map.mp he
      exact .clause hbody hc hopens
    | expr body' =>
      rw [hbody] at he
      cases List.mem_singleton.mp he
      exact .expr hbody hopens

theorem callMatrix_measured {patterns : List Pattern} {arity : ℕ} {call : Term} {callee : DefId}
    {args : List Term} (h : f.callMatrix whnf patterns arity call callee args = some a) :
    CallSite.Measured ⟨patterns, callee, arity, args⟩ whnf f a := by
  obtain ⟨cells, hcells, h⟩ := Option.bind_eq_some_iff.mp h
  obtain ⟨_, rfl⟩ := CallMatrix.ofCells_eq_some_iff.mp h
  refine ⟨rfl, rfl, rfl, rfl, fun row hrow col hcol p t hp ht => ?_, fun row col hnone => ?_⟩
  · obtain ⟨r, hr⟩ := exists_mapM_iff.mp ⟨cells, hcells⟩ p (List.mem_of_getElem? hp)
    have harg : (args.take arity)[col]? = some t := (List.getElem?_take_of_lt hcol).trans ht
    obtain ⟨y, hy⟩ := exists_mapM_iff.mp ⟨r, hr⟩ t (List.mem_of_getElem? harg)
    have hcell := getElem?_of_mapM_mapM hcells row col
    rw [hp, harg] at hcell
    rw [CallMatrix.get_filled, if_pos ⟨hrow, hcol⟩, RelationRow.cell,
      List.getD_eq_getElem?_getD, hcell]
    simp [hy]
  · have hcell := getElem?_of_mapM_mapM hcells row col
    rw [CallMatrix.get_filled]
    split
    · rename_i hinside
      have hnone' : patterns[row]? = none ∨ (args.take arity)[col]? = none :=
        hnone.imp_right (List.getElem?_take_of_lt hinside.2).trans
      rw [RelationRow.cell, List.getD_eq_getElem?_getD, hcell]
      rcases hnone' with hp | ht
      · simp [hp]
      · simp [ht]
    · rfl

theorem mem_targetMatrices {patterns : List Pattern} {c : Term × DefId × List Term}
    (h : f.targetMatrices whnf targets patterns c = some as) :
    a ∈ as ↔ ∃ arity, targets.get? c.2.1 = some arity ∧
      f.callMatrix whnf patterns arity c.1 c.2.1 c.2.2 = some a := by
  unfold targetMatrices at h
  cases harity : targets.get? c.2.1 with
  | none =>
    rw [harity] at h
    cases h
    simp
  | some arity =>
    rw [harity] at h
    obtain ⟨b, hb, h⟩ := Option.bind_eq_some_iff.mp h
    cases h
    simp [hb, eq_comm]

/-- The matrices that the search finds are those of the calls in the opened bodies. -/
theorem mem_matrices_iff (h : f.matrices whnf stack copy targets = some as) :
    a ∈ as ↔ ∃ e ∈ f.equations copy, ∃ body, e.body.instantiateVars stack e.vars = some body ∧
      ∃ c ∈ body.calls, ∃ arity, targets.get? c.2.1 = some arity ∧
        f.callMatrix whnf e.patterns arity c.1 c.2.1 c.2.2 = some a := by
  obtain ⟨ms, hms, h⟩ := Option.bind_eq_some_iff.mp h
  cases h
  rw [mem_flatten_of_mapM hms]
  refine exists_congr fun e => and_congr_right fun he => ?_
  obtain ⟨found, hfound⟩ := exists_mapM_iff.mp ⟨ms, hms⟩ e he
  obtain ⟨body, hbody, hcalls⟩ := Option.bind_eq_some_iff.mp hfound
  obtain ⟨ls, hls, heq⟩ := Option.bind_eq_some_iff.mp hcalls
  cases heq
  simp only [hfound, hbody, Option.some.injEq, exists_eq_left', mem_flatten_of_mapM hls]
  refine exists_congr fun c => and_congr_right fun hc => ?_
  obtain ⟨l, hl⟩ := exists_mapM_iff.mp ⟨ls, hls⟩ c hc
  simp only [hl, Option.some.injEq, exists_eq_left', mem_targetMatrices hl]

/-- A search that came to an end has compared the arguments of every call. -/
theorem exists_callMatrix (h : f.matrices whnf stack copy targets = some as) {e : Equation}
    (he : e ∈ f.equations copy) {body : Term}
    (hopens : e.body.instantiateVars stack e.vars = some body)
    {c : Term × DefId × List Term} (hc : c ∈ body.calls) {arity : ℕ}
    (harity : targets.get? c.2.1 = some arity) :
    ∃ a, f.callMatrix whnf e.patterns arity c.1 c.2.1 c.2.2 = some a := by
  obtain ⟨ms, hms, -⟩ := Option.bind_eq_some_iff.mp h
  obtain ⟨found, hfound⟩ := exists_mapM_iff.mp ⟨ms, hms⟩ e he
  obtain ⟨body', hbody, hcalls⟩ := Option.bind_eq_some_iff.mp hfound
  cases Option.some.inj (hbody.symm.trans hopens)
  obtain ⟨ls, hls, -⟩ := Option.bind_eq_some_iff.mp hcalls
  obtain ⟨l, hl⟩ := exists_mapM_iff.mp ⟨ls, hls⟩ c hc
  rw [targetMatrices, harity] at hl
  obtain ⟨a, ha, -⟩ := Option.bind_eq_some_iff.mp hl
  exact ⟨a, ha⟩

theorem exists_measured_of_makes (h : f.matrices whnf stack copy targets = some as)
    {s : CallSite} (hs : f.Makes stack (f.paramVars copy) targets s) :
    ∃ a ∈ as, s.Measured whnf f a := by
  obtain ⟨harity, body, call, hopened, hoccurs, hcall⟩ := hs
  obtain ⟨e, he, hpatterns, hopens⟩ := openedBody_iff.mp hopened
  have hc : (call, s.callee, s.args) ∈ body.calls := Term.mem_calls_iff.mpr ⟨hoccurs, hcall⟩
  obtain ⟨a, ha⟩ := exists_callMatrix h he hopens hc harity
  refine ⟨a, (mem_matrices_iff h).mpr ⟨e, he, body, hopens, _, hc, _, harity, ha⟩, ?_⟩
  rw [hpatterns] at ha
  exact callMatrix_measured ha

theorem makes_of_mem_matrices (h : f.matrices whnf stack copy targets = some as) (ha : a ∈ as) :
    ∃ s, f.Makes stack (f.paramVars copy) targets s ∧ s.Measured whnf f a := by
  obtain ⟨e, he, body, hopens, c, hc, arity, harity, hmatrix⟩ := (mem_matrices_iff h).mp ha
  obtain ⟨hoccurs, hcall⟩ := Term.mem_calls_iff.mp hc
  refine ⟨⟨e.patterns, c.2.1, arity, c.2.2⟩, ⟨harity, body, c.1, ?_, hoccurs, hcall⟩,
    callMatrix_measured hmatrix⟩
  exact openedBody_iff.mpr ⟨e, he, rfl, hopens⟩

/-- For every function, targets, evaluation and graph: when the search for calls has come to an end,
with new variables for the parameters where there are no clauses, then each call to a target has its
matrix in the graph, and the graph has a matrix with certain relations exactly if it had one before
or they are those of a call to a target. -/
theorem resolve_records_calls {g g' : CallGraph}
    (h : f.resolve whnf stack copy targets g = some g') :
    ∃ xs, f.FreshParams xs ∧
      (∀ s, f.Makes stack xs targets s → ∃ a ∈ g'.matrices, s.Measured whnf f a) ∧
      ∀ a, g'.contains a = true ↔
        g.contains a = true ∨ ∃ s, f.Makes stack xs targets s ∧ s.Measured whnf f a := by
  rw [resolve_eq] at h
  obtain ⟨as, has, rfl⟩ := Option.map_eq_some_iff.mp h
  have hexact : ∀ a, (g.insertAll as).contains a = true ↔ g.contains a = true ∨
      ∃ s, f.Makes stack (f.paramVars copy) targets s ∧ s.Measured whnf f a := by
    intro a
    rw [CallGraph.contains_insertAll_iff]
    refine or_congr_right ⟨fun hfound => ?_, fun hmade => ?_⟩
    · obtain ⟨b, hb, hba⟩ := hfound
      obtain ⟨s, hs, hmeasured⟩ := makes_of_mem_matrices has hb
      exact ⟨s, hs, hmeasured.congr hba⟩
    · obtain ⟨s, hs, hmeasured⟩ := hmade
      obtain ⟨b, hb, hmeasured'⟩ := exists_measured_of_makes has hs
      exact ⟨b, hb, hmeasured'.sameRelations hmeasured⟩
  refine ⟨f.paramVars copy, f.freshParams_paramVars copy, fun s hs => ?_, hexact⟩
  obtain ⟨a, -, hmeasured⟩ := exists_measured_of_makes has hs
  obtain ⟨b, hb, hba⟩ := CallGraph.contains_iff.mp ((hexact a).mpr (.inr ⟨s, hs, hmeasured⟩))
  exact ⟨b, hb, hmeasured.congr (CallMatrix.sameRelations_symm hba)⟩

/-- The clause of Ackermann's function that calls it twice, one call inside the other. -/
def ackermann : FnDef :=
  let nat : NatShape := ⟨⟨1⟩, ⟨2⟩, ⟨3⟩⟩
  ⟨⟨4⟩, "ack", [⟨"a", nat.type, true⟩, ⟨"b", nat.type, true⟩], nat.type, .clauses [
    ⟨[nat.sucPattern (.bind ⟨.supplied 0, "m"⟩ nat.type),
      nat.sucPattern (.bind ⟨.supplied 1, "n"⟩ nat.type)],
      .fnCall ⟨4⟩ 0 [.bound 1, .fnCall ⟨4⟩ 0 [nat.sucTerm (.bound 1), .bound 0]]⟩]⟩

/-- The inner call keeps the first argument and makes the second one smaller. -/
theorem resolve_records_calls_ackermann : ∃ g',
    ackermann.resolve some 9 0 (.ofList [(⟨4⟩, 2)]) .empty = some g' ∧
      ∃ a ∈ g'.matrices, a.get 0 0 = .equal ∧ a.get 0 1 = .unknown ∧ a.get 1 1 = .lessThan := by
  let nat : NatShape := ⟨⟨1⟩, ⟨2⟩, ⟨3⟩⟩
  let m : Var := ⟨.supplied 0, "m"⟩
  let n : Var := ⟨.supplied 1, "n"⟩
  let clause : Clause :=
    ⟨[nat.sucPattern (.bind m nat.type), nat.sucPattern (.bind n nat.type)],
      .fnCall ⟨4⟩ 0 [.bound 1, .fnCall ⟨4⟩ 0 [nat.sucTerm (.bound 1), .bound 0]]⟩
  let inner : Term := .fnCall ⟨4⟩ 0 [nat.sucTerm (.free m), .free n]
  let body : Term := .fnCall ⟨4⟩ 0 [.free m, inner]
  obtain ⟨g', hg'⟩ : ∃ g', ackermann.resolve some 9 0 (.ofList [(⟨4⟩, 2)]) .empty = some g' :=
    Option.isSome_iff_exists.mp (by decide +kernel)
  obtain ⟨xs, -, hrecorded, -⟩ := resolve_records_calls hg'
  have hopened : ackermann.OpenedBody 9 xs clause.patterns body :=
    .clause rfl (List.mem_singleton.mpr rfl) (by decide +kernel)
  have hchild : (0, inner) ∈ body.children := by simp [body, Term.children]
  obtain ⟨a, ha, hmeasured⟩ := hrecorded ⟨clause.patterns, ⟨4⟩, 2, [nat.sucTerm (.free m), .free n]⟩
    ⟨rfl, body, inner, hopened, .part hchild .self, rfl⟩
  have hrows : a.rows = 2 := hmeasured.rows
  have hcols : a.cols = 2 := hmeasured.cols
  refine ⟨g', hg', a, ha, ?_, ?_, ?_⟩
  · have hcell := hmeasured.compared 0 (by omega) 0 (by omega) _ _ rfl rfl
    exact (Option.some.inj hcell).symm
  · have hcell := hmeasured.compared 0 (by omega) 1 (by omega) _ _ rfl rfl
    exact (Option.some.inj hcell).symm
  · have hcell := hmeasured.compared 1 (by omega) 1 (by omega) _ _ rfl rfl
    exact (Option.some.inj hcell).symm

end FnDef

end ProofCore
