import ProofCore.Proofs.EvaluationTransfer
import ProofCore.Proofs.TableLookup

/-!
# Scope under evaluation

Opening a term inserts the arguments as they are and contracts applications under binders, where
neither the argument nor the body of the abstraction is adjusted to the binder that goes away. An
abstraction that mentions a variable bound around it loses its place in this way, so evaluation
does not keep every term in scope.

It does if the parts of every application that opening may contract are confined: their variables
are bound inside the part, by the nearest binder, or are parameters. Then each abstraction that is
contracted has no variable but its own, and whatever is inserted has at most the nearest one.
-/
namespace ProofCore

namespace Term

/-- The index of a variable under `depth` binders refers to one of those below the `base` outer
ones, to the nearest, or to one of `params` parameters outside all of them. -/
def InReach (params base depth index : ℕ) : Prop :=
  index + base < depth ∨ (index = 0 ∧ 0 < depth) ∨ (depth ≤ index ∧ index < depth + params)

instance (params base depth index : ℕ) : Decidable (InReach params base depth index) :=
  inferInstanceAs (Decidable (_ ∨ _ ∨ _))

/-- All variables of a term under `depth` binders are in reach. -/
def confined (params base depth : ℕ) (t : Term) : Bool :=
  (t.occurrences depth).all fun
    | (d, .bound index) => InReach params base d index
    | _ => true

/-- The head of a spine of applications is neither an abstraction nor may become one. -/
def hasRigidHead : Term → Bool
  | .bound _ | .lam _ => false
  | .app fn _ => fn.hasRigidHead
  | _ => true

/-- The parts of every application that opening may contract are confined. -/
def settled (params depth : ℕ) (t : Term) : Bool :=
  (t.occurrences depth).all fun
    | (d, .app fn arg) =>
      fn.hasRigidHead || arg.confined params d d &&
        (fn.form ≠ .abstraction || fn.confined params d d)
    | _ => true

section Occurrences

variable {params params' base base' depth depth' : ℕ} {t : Term}

theorem all_occurrences (q : ℕ × Term → Bool) (depth : ℕ) (t : Term) :
    (t.occurrences depth).all q =
      (q (depth, t) && t.children.all fun c => (c.2.occurrences (depth + c.1)).all q) := by
  rw [occurrences_eq_cons, List.all_cons, List.all_flatMap]

theorem confined_iff : t.confined params base depth = true ↔
    (∀ index, t = .bound index → InReach params base depth index) ∧
      ∀ c ∈ t.children, c.2.confined params base (depth + c.1) = true := by
  rw [confined, all_occurrences, Bool.and_eq_true, List.all_eq_true]
  refine and_congr ?_ Iff.rfl
  cases t with
  | bound index => simp
  | _ => exact iff_of_true rfl (by simp)

theorem settled_iff : t.settled params depth = true ↔
    (∀ fn arg, t = .app fn arg → fn.hasRigidHead = false →
      arg.confined params depth depth = true ∧
        (fn.form = .abstraction → fn.confined params depth depth = true)) ∧
      ∀ c ∈ t.children, c.2.settled params (depth + c.1) = true := by
  rw [settled, all_occurrences, Bool.and_eq_true, List.all_eq_true]
  refine and_congr ?_ Iff.rfl
  cases t with
  | app fn arg => cases hfn : fn.hasRigidHead <;> simp [hfn, or_iff_not_imp_left]
  | _ => exact iff_of_true rfl (by simp)

theorem confined_app_iff {fn arg : Term} : (Term.app fn arg).confined params base depth = true ↔
    fn.confined params base depth = true ∧ arg.confined params base depth = true := by
  simp [confined_iff (t := Term.app fn arg), children]

theorem settled_app_iff {fn arg : Term} : (Term.app fn arg).settled params depth = true ↔
    (fn.hasRigidHead = false → arg.confined params depth depth = true ∧
      (fn.form = .abstraction → fn.confined params depth depth = true)) ∧
      fn.settled params depth = true ∧ arg.settled params depth = true := by
  simp [settled_iff (t := Term.app fn arg), children]

theorem wellScoped_iff : t.wellScoped depth = true ↔
    (∀ index, t = .bound index → index < depth) ∧
      ∀ c ∈ t.children, c.2.wellScoped (depth + c.1) = true := by
  simp only [wellScoped, firstEscape, Option.isNone_iff_eq_none, List.findSome?_eq_none_iff]
  rw [occurrences_eq_cons, List.forall_mem_cons, List.forall_mem_flatMap]
  refine and_congr ?_ Iff.rfl
  cases t with
  | bound index => simp
  | _ => exact iff_of_true rfl (by simp)

/-- What is in reach at one depth may be in reach at another. -/
theorem confined_of_inReach
    (h : ∀ s index, InReach params base (depth + s) index →
      InReach params' base' (depth' + s) index)
    (ht : t.confined params base depth = true) : t.confined params' base' depth' = true := by
  induction t using childrenInduction generalizing depth depth' with
  | step t ih =>
    rw [confined_iff] at ht ⊢
    constructor
    · exact fun index hindex => h 0 index (ht.1 index hindex)
    · intro c hc
      apply ih c hc _ (ht.2 c hc)
      intro s index
      simpa only [Nat.add_assoc] using h (c.1 + s) index

theorem settled_of_inReach
    (h : ∀ s r index, InReach params (depth + s) (depth + s + r) index →
      InReach params' (depth' + s) (depth' + s + r) index)
    (ht : t.settled params depth = true) : t.settled params' depth' = true := by
  induction t using childrenInduction generalizing depth depth' with
  | step t ih =>
    rw [settled_iff] at ht ⊢
    constructor
    · intro fn arg happ hfn
      obtain ⟨harg, hlam⟩ := ht.1 fn arg happ hfn
      exact ⟨confined_of_inReach (h 0) harg, fun hform => confined_of_inReach (h 0) (hlam hform)⟩
    · intro c hc
      apply ih c hc _ (ht.2 c hc)
      intro s r index
      simpa only [Nat.add_assoc] using h (c.1 + s) r index

theorem wellScoped_iff_confined :
    t.wellScoped (depth + params) = true ↔ t.confined params 0 depth = true := by
  induction t using childrenInduction generalizing depth with
  | step t ih =>
    rw [wellScoped_iff, confined_iff]
    apply and_congr
    · refine forall₂_congr fun index _ => ?_
      unfold InReach
      omega
    · refine forall₂_congr fun c hc => ?_
      rw [Nat.add_right_comm, ih c hc]

end Occurrences

theorem confined_of_le {params base base' depth : ℕ} {t : Term} (hle : base' ≤ base)
    (h : t.confined params base depth = true) : t.confined params base' depth = true := by
  apply confined_of_inReach _ h
  intro s index hindex
  unfold InReach at *
  omega

/-- Without parameters, more binders around a term leave it confined and settled. -/
theorem confined_add {base depth : ℕ} {t : Term} (k : ℕ) (h : t.confined 0 base depth = true) :
    t.confined 0 (k + base) (k + depth) = true := by
  apply confined_of_inReach _ h
  intro s index hindex
  unfold InReach at *
  omega

theorem settled_add {depth : ℕ} {t : Term} (k : ℕ) (h : t.settled 0 depth = true) :
    t.settled 0 (k + depth) = true := by
  apply settled_of_inReach _ h
  intro s r index hindex
  unfold InReach at *
  omega

/-- A term under `depth` binders that opening may insert anywhere. -/
structure Movable (depth : ℕ) (t : Term) : Prop where
  confined : t.confined 0 depth depth = true
  settled : t.settled 0 depth = true

theorem Movable.add {depth : ℕ} {t : Term} (h : t.Movable depth) (k : ℕ) : t.Movable (k + depth) :=
  ⟨confined_add k h.confined, settled_add k h.settled⟩

/-- The body of a movable abstraction has no variable around it but the one to be opened. -/
theorem Movable.body {depth : ℕ} {body : Term} (h : (Term.lam body).Movable depth) :
    body.confined 1 0 0 = true ∧ body.settled 1 0 = true := by
  have hmem : (1, body) ∈ (Term.lam body).children := by simp [children]
  constructor
  · apply confined_of_inReach _ ((confined_iff.mp h.confined).2 _ hmem)
    intro s index hindex
    unfold InReach at *
    omega
  · apply settled_of_inReach _ ((settled_iff.mp h.settled).2 _ hmem)
    intro s r index hindex
    unfold InReach at *
    omega

section Opening

variable {stack start : ℕ} {args : List Term} {t u : Term}

theorem mapChildrenM_eq_some {f : ℕ → Term → Option Term} {Q : ℕ → Term → Prop}
    (h : t.mapChildrenM f = some u)
    (hf : ∀ b c, (b, c) ∈ t.children → ∀ w, f b c = some w → Q b w) :
    u.form = t.form ∧ ∀ c ∈ u.children, Q c.1 c.2 := by
  have hparts : ∀ c ∈ t.children, Simulation.option.rel (Q c.1) (f c.1 c.2) (f c.1 c.2) :=
    fun c hc w hw => ⟨hw, hf c.1 c.2 hc w hw⟩
  obtain ⟨-, ⟨hform, -⟩, hchildren⟩ := Simulation.option.mapChildrenM hparts u h
  exact ⟨hform, hchildren⟩

/-- Opening an application contracts it or rebuilds it. -/
theorem replaceFrom_app {fn arg : Term} (hargs : args.isEmpty = false)
    (h : (Term.app fn arg).replaceFrom (stack + 1) start args = some u) :
    ∃ fn' arg', fn.replaceFrom stack start args = some fn' ∧
      arg.replaceFrom stack start args = some arg' ∧
      ((∃ body, fn' = .lam body ∧ body.replaceFrom stack 0 [arg'] = some u) ∨
        (fn'.form ≠ .abstraction ∧ u = .app fn' arg')) := by
  simp only [replaceFrom, hargs, Bool.false_eq_true, if_false, replaceStep] at h
  obtain ⟨fn', hfn, h⟩ := Option.bind_eq_some_iff.mp h
  obtain ⟨arg', harg, h⟩ := Option.bind_eq_some_iff.mp h
  refine ⟨fn', arg', hfn, harg, ?_⟩
  cases fn' with
  | lam body => exact .inl ⟨body, rfl, h⟩
  | _ =>
    cases h
    exact .inr ⟨by simp [form], rfl⟩

theorem hasRigidHead_replaceFrom (ht : t.hasRigidHead = true)
    (hu : t.replaceFrom stack start args = some u) : u.hasRigidHead = true := by
  induction stack generalizing t u with
  | zero => cases hu
  | succ s ih =>
    cases hargs : args.isEmpty with
    | true =>
      simp only [replaceFrom, hargs, if_true] at hu
      cases hu
      exact ht
    | false =>
      have hrebuild : t.form = .rigid → t.mapChildrenM
          (fun binders c => replaceFrom s (start + binders) args c) = some u →
          u.hasRigidHead = true := by
        intro hform hmap
        have huform := (mapChildrenM_eq_some (Q := fun _ _ => True) hmap (by simp)).1.trans hform
        cases u with
        | bound | lam | app => cases huform
        | _ => rfl
      cases t with
      | bound | lam => cases ht
      | app fn arg =>
        have hrigid : fn.hasRigidHead = true := ht
        obtain ⟨fn', arg', hfn, -, ⟨body, rfl, -⟩ | ⟨-, rfl⟩⟩ := replaceFrom_app hargs hu
        · cases ih hrigid hfn
        · exact (ih hrigid hfn : fn'.hasRigidHead = true)
      | _ =>
        simp only [replaceFrom, hargs, Bool.false_eq_true, if_false] at hu
        exact hrebuild rfl hu

theorem hasRigidHead_of_replaceFrom (hu : t.replaceFrom stack start args = some u)
    (h : u.hasRigidHead = false) : t.hasRigidHead = false := by
  by_contra ht
  rw [hasRigidHead_replaceFrom (by simpa using ht) hu] at h
  cases h

/-- What opening a term yields under `depth` binders. Where it turns a variable or an application
into an abstraction, this is movable. -/
structure OpenedTo (base depth : ℕ) (t u : Term) : Prop where
  confined : u.confined 0 base depth = true
  settled : u.settled 0 depth = true
  movable : u.form = .abstraction → t.form ≠ .abstraction → u.confined 0 depth depth = true

theorem Movable.openedTo {base depth : ℕ} (h : u.Movable depth) (hle : base ≤ depth) :
    OpenedTo base depth t u :=
  ⟨confined_of_le hle h.confined, h.settled, fun _ _ => h.confined⟩

theorem openedTo_rebuilt {base depth : ℕ} (hvar : t.form ≠ .variable)
    (happ : t.form ≠ .application) (hform : u.form = t.form)
    (hparts : ∀ c ∈ u.children, c.2.confined 0 base (depth + c.1) = true ∧
      c.2.settled 0 (depth + c.1) = true) : OpenedTo base depth t u where
  confined := by
    refine confined_iff.mpr ⟨?_, fun c hc => (hparts c hc).1⟩
    rintro index rfl
    exact absurd hform.symm hvar
  settled := by
    refine settled_iff.mpr ⟨?_, fun c hc => (hparts c hc).2⟩
    rintro fn arg rfl
    exact absurd hform.symm happ
  movable hlam hother := absurd (hform.symm.trans hlam) hother

theorem openedTo_bound {k base index : ℕ} (hargs : ∀ arg ∈ args, arg.Movable k)
    (hbase : base ≤ start) (hindex : InReach args.length base start index)
    (hu : replaceStep (replaceFrom stack) start args (.bound index) = some u) :
    OpenedTo (k + base) (k + start) (.bound index) u := by
  simp only [replaceStep] at hu
  split at hu
  · cases hu
    refine ⟨confined_iff.mpr ⟨?_, by simp [children]⟩,
      settled_iff.mpr ⟨by simp, by simp [children]⟩, by simp [form]⟩
    rintro _ ⟨⟩
    unfold InReach at *
    omega
  · cases hu
    have hlt : index - start < args.length := by
      unfold InReach at hindex
      omega
    rw [List.getElem?_eq_getElem hlt, Option.getD_some]
    have hmoved := (hargs _ (List.getElem_mem hlt)).add start
    rw [Nat.add_comm] at hmoved
    exact hmoved.openedTo (by omega)

theorem openedTo_app {base depth : ℕ} {fn fn' arg arg' : Term} (hform : fn'.form ≠ .abstraction)
    (hfn : OpenedTo base depth fn fn') (harg : OpenedTo base depth arg arg')
    (hmoved : fn'.hasRigidHead = false → arg'.confined 0 depth depth = true) :
    OpenedTo base depth (.app fn arg) (.app fn' arg') where
  confined := confined_app_iff.mpr ⟨hfn.confined, harg.confined⟩
  settled := settled_app_iff.mpr ⟨fun hrigid => ⟨hmoved hrigid, fun hlam => absurd hlam hform⟩,
    hfn.settled, harg.settled⟩
  movable := by simp [form]

/-- Opening a settled term with movable arguments keeps it confined and settled. -/
theorem openedTo_replaceFrom {k base : ℕ} (hargs : ∀ arg ∈ args, arg.Movable k)
    (hbase : base ≤ start) (ht : t.confined args.length base start = true)
    (hset : t.settled args.length start = true) (hu : t.replaceFrom stack start args = some u) :
    OpenedTo (k + base) (k + start) t u := by
  induction stack generalizing k base start args t u with
  | zero => cases hu
  | succ s ih =>
    cases hempty : args.isEmpty with
    | true =>
      simp only [replaceFrom, hempty, if_true] at hu
      cases hu
      rw [List.isEmpty_iff.mp hempty, List.length_nil] at ht hset
      exact ⟨confined_add k ht, settled_add k hset, fun hlam hother => absurd hlam hother⟩
    | false =>
      obtain ⟨hhead, hparts⟩ := confined_iff.mp ht
      have hsettled := (settled_iff.mp hset).2
      have hrebuild : t.form ≠ .variable → t.form ≠ .application → t.mapChildrenM
          (fun binders c => replaceFrom s (start + binders) args c) = some u →
          OpenedTo (k + base) (k + start) t u := by
        intro hvar happ hmap
        have hopened : ∀ b c, (b, c) ∈ t.children → ∀ w,
            replaceFrom s (start + b) args c = some w →
            w.confined 0 (k + base) (k + start + b) = true ∧
              w.settled 0 (k + start + b) = true := by
          intro b c hc w hw
          have hpart := ih hargs (Nat.le_add_right_of_le hbase) (hparts _ hc) (hsettled _ hc) hw
          rw [← Nat.add_assoc] at hpart
          exact ⟨hpart.confined, hpart.settled⟩
        obtain ⟨hform, hchildren⟩ := mapChildrenM_eq_some hmap hopened
        exact openedTo_rebuilt hvar happ hform hchildren
      cases t with
      | bound index =>
        simp only [replaceFrom, hempty, Bool.false_eq_true, if_false] at hu
        exact openedTo_bound hargs hbase (hhead index rfl) hu
      | app fn arg =>
        obtain ⟨hfnConfined, hargConfined⟩ := confined_app_iff.mp ht
        obtain ⟨hnode, hfnSettled, hargSettled⟩ := settled_app_iff.mp hset
        obtain ⟨fn', arg', hfn, harg, hcases⟩ := replaceFrom_app hempty hu
        have hfn' := ih hargs hbase hfnConfined hfnSettled hfn
        have harg' := ih hargs hbase hargConfined hargSettled harg
        have hmoved : fn'.hasRigidHead = false → arg'.Movable (k + start) := by
          intro hrigid
          have hconfined := (hnode (hasRigidHead_of_replaceFrom hfn hrigid)).1
          exact ⟨(ih hargs le_rfl hconfined hargSettled harg).confined, harg'.settled⟩
        obtain ⟨body, rfl, hbody⟩ | ⟨hform, rfl⟩ := hcases
        · -- the abstraction was confined already, or it came with an argument or a contraction
          have hlam : (Term.lam body).Movable (k + start) := by
            refine ⟨?_, hfn'.settled⟩
            by_cases hform : fn.form = .abstraction
            · have hconfined := (hnode (hasRigidHead_of_replaceFrom hfn rfl)).2 hform
              exact (ih hargs le_rfl hconfined hfnSettled hfn).confined
            · exact hfn'.movable rfl hform
          have hinserted : ∀ a ∈ [arg'], a.Movable (k + start) := by simpa using hmoved rfl
          have hopened := ih hinserted le_rfl hlam.body.1 hlam.body.2 hbody
          exact Movable.openedTo ⟨hopened.confined, hopened.settled⟩ (by omega)
        · exact openedTo_app hform hfn' harg' fun hrigid => (hmoved hrigid).confined
      | _ =>
        simp only [replaceFrom, hempty, Bool.false_eq_true, if_false] at hu
        exact hrebuild (by simp [form]) (by simp [form]) hu

end Opening

theorem wellScoped_zero_iff {params : ℕ} {t : Term} :
    t.wellScoped params = true ↔ t.confined params 0 0 = true := by
  rw [← wellScoped_iff_confined, Nat.zero_add]

theorem movable_zero_iff {t : Term} :
    t.Movable 0 ↔ t.wellScoped 0 = true ∧ t.settled 0 0 = true := by
  rw [wellScoped_zero_iff]
  exact ⟨fun h => ⟨h.confined, h.settled⟩, fun h => ⟨h.1, h.2⟩⟩

theorem passesToParts_movable : PassesToParts (Movable 0) where
  child h hc := ⟨(confined_iff.mp h.confined).2 _ hc, (settled_iff.mp h.settled).2 _ hc⟩
  pred _ := ⟨confined_iff.mpr ⟨by simp, by simp [children]⟩,
    settled_iff.mpr ⟨by simp, by simp [children]⟩⟩

theorem Movable.app {fn arg : Term} (hfn : fn.Movable 0) (harg : arg.Movable 0) :
    (Term.app fn arg).Movable 0 where
  confined := confined_app_iff.mpr ⟨hfn.confined, harg.confined⟩
  settled := settled_app_iff.mpr ⟨fun _ => ⟨harg.confined, fun _ => hfn.confined⟩,
    hfn.settled, harg.settled⟩

theorem Movable.proj {whole : Term} {index : ℕ} (h : whole.Movable 0) :
    (Term.proj whole index).Movable 0 where
  confined := confined_iff.mpr ⟨by simp, by simpa [children] using h.confined⟩
  settled := settled_iff.mpr ⟨by simp, by simpa [children] using h.settled⟩

/-- Opening a body with as many movable terms as it has parameters gives a movable term. -/
theorem movable_replaceFrom {stack stack' : ℕ} {args : List Term} {t : Term}
    (hle : stack ≤ stack') (hargs : ∀ arg ∈ args, arg.Movable 0)
    (ht : t.confined args.length 0 0 = true) (hset : t.settled args.length 0 = true) :
    Simulation.option.rel (Movable 0) (t.replaceFrom stack 0 args)
      (t.replaceFrom stack' 0 args) := by
  have hsame : Simulation.option.rel (RefsIn fun _ => True) (t.replaceFrom stack 0 args)
      (t.replaceFrom stack' 0 args) :=
    replaceFrom_transfer hle (fun _ _ _ _ => trivial) fun _ _ => trivial
  refine Simulation.option_of_forall hsame fun u hu => ?_
  have hopened := openedTo_replaceFrom hargs le_rfl ht hset hu
  exact ⟨hopened.confined, hopened.settled⟩

end Term

namespace Env

/-- All bodies are in scope and may be opened, and no clause lacks an argument for a pattern. -/
structure OpensSafely (env : Env) : Prop where
  wellScoped : ∀ id f, env.fns.get? id = some f → ∀ body ∈ (Def.fn f).bodyTerms,
    body.2.wellScoped body.1 = true
  settled : ∀ id f, env.fns.get? id = some f → ∀ body ∈ (Def.fn f).bodyTerms,
    body.2.settled body.1 0 = true
  fit : ∀ id f, env.fns.get? id = some f → f.ClausesFit

theorem OpensSafely.evaluatesAlike {env : Env} (h : env.OpensSafely) :
    EvaluatesAlike (Term.Movable 0) env env where
  parts := Term.passesToParts_movable
  app := Term.Movable.app
  proj := Term.Movable.proj
  contract {stack stack' body arg} hle hlam harg := by
    have hargs : ∀ a ∈ [arg], a.Movable 0 := by simpa using harg
    exact Term.movable_replaceFrom hle hargs hlam.body.1 hlam.body.2
  fns _ := rfl
  opened {stack stack' fn lift args bound f body} hle _ hf hmem hbound hlen := by
    have hlen' : bound.reverse.length = body.1 := by
      rw [List.length_reverse, hlen (h.fit fn f hf)]
    refine Term.movable_replaceFrom hle (by simpa using hbound) ?_ ?_
    · rw [hlen']
      exact Term.wellScoped_zero_iff.mp (h.wellScoped fn f hf body hmem)
    · rw [hlen']
      exact h.settled fn f hf body hmem

/-- A function that hands its argument an abstraction over the variable around it. -/
def capturing : FnDef :=
  ⟨⟨1⟩, "f", [⟨"g", .sort 0, true⟩], .sort 0, .expr (.lam (.app (.bound 1) (.lam (.bound 1))))⟩

/-- Scope alone is not kept: `f (λ k, k z) w` evaluates to a variable that nothing binds. -/
theorem exists_escape_of_wellScoped : ¬ ∀ (env : Env) (t u : Term) (stack : ℕ),
    (∀ id f, env.fns.get? id = some f →
      ∀ body ∈ (Def.fn f).signatureTerms ++ (Def.fn f).bodyTerms,
        body.2.wellScoped body.1 = true) →
    t.wellScoped 0 = true → env.eval stack t = some u → u.wellScoped 0 = true := by
  intro h
  have hescape := h (Env.add {} (.fn capturing))
    (.app (.fnCall ⟨1⟩ 0 [.lam (.app (.bound 0) (.free ⟨.supplied 0, "z"⟩))])
      (.free ⟨.supplied 1, "w"⟩)) (.bound 1) 7 ?_ (by decide +kernel) (by decide +kernel)
  · exact absurd hescape (by decide)
  · intro id f hf
    rw [Env.add, Table.get?_insert] at hf
    split at hf
    · cases hf
      decide
    · cases hf

/-- Evaluation keeps scope where all bodies and the term itself may be opened. -/
theorem OpensSafely.wellScoped_eval {env : Env} (h : env.OpensSafely) {t u : Term} {stack : ℕ}
    (ht : t.wellScoped 0 = true) (hset : t.settled 0 0 = true)
    (hu : env.eval stack t = some u) : u.wellScoped 0 = true ∧ u.settled 0 0 = true := by
  have hmovable := Term.movable_zero_iff.mpr ⟨ht, hset⟩
  have hkept := ((h.evaluatesAlike.eval rfl le_rfl).eval t hmovable u hu).2
  exact Term.movable_zero_iff.mp hkept

/-- A function that applies its argument under a binder, and one that swaps a pair. -/
def applyAndSwap : Env :=
  (Env.add {} (.fn ⟨⟨1⟩, "f", [⟨"g", .sort 0, true⟩], .sort 0,
    .expr (.lam (.app (.bound 1) (.bound 0)))⟩)).add
    (.fn ⟨⟨2⟩, "swap", [⟨"p", .sort 0, true⟩], .sort 0,
      .clauses [⟨[.tuple [.bind ⟨.supplied 0, "x"⟩ (.sort 0), .bind ⟨.supplied 1, "y"⟩ (.sort 0)]],
        .tuple [.bound 0, .bound 1]⟩]⟩)

theorem opensSafely_applyAndSwap : applyAndSwap.OpensSafely := by
  have hfns : ∀ id f, applyAndSwap.fns.get? id = some f →
      (∀ body ∈ (Def.fn f).bodyTerms, body.2.wellScoped body.1 = true) ∧
        (∀ body ∈ (Def.fn f).bodyTerms, body.2.settled body.1 0 = true) ∧ f.ClausesFit := by
    intro id f hf
    simp only [applyAndSwap, Env.add, Table.get?_insert] at hf
    unfold FnDef.ClausesFit
    split at hf
    · cases hf
      decide
    · split at hf
      · cases hf
        decide
      · cases hf
  exact ⟨fun id f hf => (hfns id f hf).1, fun id f hf => (hfns id f hf).2.1,
    fun id f hf => (hfns id f hf).2.2⟩

/-- The argument of `swap` is contracted under a binder before it is matched. -/
theorem wellScoped_eval_applyAndSwap :
    applyAndSwap.eval 9 (.fnCall ⟨2⟩ 0 [.app (.fnCall ⟨1⟩ 0
        [.lam (.tuple [.bound 0, .free ⟨.supplied 2, "z"⟩])]) (.free ⟨.supplied 3, "w"⟩)]) =
      some (.tuple [.free ⟨.supplied 2, "z"⟩, .free ⟨.supplied 3, "w"⟩]) ∧
    (Term.tuple [.free ⟨.supplied 2, "z"⟩, .free ⟨.supplied 3, "w"⟩]).wellScoped 0 = true := by
  have heval : applyAndSwap.eval 9 (.fnCall ⟨2⟩ 0 [.app (.fnCall ⟨1⟩ 0
      [.lam (.tuple [.bound 0, .free ⟨.supplied 2, "z"⟩])]) (.free ⟨.supplied 3, "w"⟩)]) =
      some (.tuple [.free ⟨.supplied 2, "z"⟩, .free ⟨.supplied 3, "w"⟩]) := by decide +kernel
  exact ⟨heval, (opensSafely_applyAndSwap.wellScoped_eval (by decide) (by decide) heval).1⟩

end Env

end ProofCore
