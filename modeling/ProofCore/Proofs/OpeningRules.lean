import ProofCore.Proofs.Rebuilding

/-!
# Opening a term, by rules

Opening is computed within a bound on nested calls. The rules here say what a term opens to without
such a bound: `Opens start args t u` holds exactly if some bound suffices for the answer `u`, and
then every larger one does.
-/
namespace ProofCore.Term

/-- What stands for the index `index` where the indices from `start` on are replaced. -/
def lookupFrom (start : ℕ) (args : List Term) (index : ℕ) : Term :=
  if index < start then .bound index else (args[index - start]?).getD (.bound index)

/-- The rules of opening: `t` becomes `u` if the indices from `start` on are replaced. Without
arguments a term stays as it is, and nothing in it is contracted. -/
inductive Opens : ℕ → List Term → Term → Term → Prop
  | closed {start : ℕ} {t : Term} : Opens start [] t t
  | bound {start : ℕ} {args : List Term} {index : ℕ} (some : args ≠ []) :
      Opens start args (.bound index) (lookupFrom start args index)
  | contract {start : ℕ} {args : List Term} {fn arg arg' body u : Term} (some : args ≠ [])
      (fn_opens : Opens start args fn (.lam body)) (arg_opens : Opens start args arg arg')
      (body_opens : Opens 0 [arg'] body u) : Opens start args (.app fn arg) u
  | app {start : ℕ} {args : List Term} {fn fn' arg arg' : Term} (some : args ≠ [])
      (fn_opens : Opens start args fn fn') (arg_opens : Opens start args arg arg')
      (stuck : fn'.form ≠ .abstraction) : Opens start args (.app fn arg) (.app fn' arg')
  | node {start : ℕ} {args : List Term} {t : Term} (f : ℕ → Term → Term) (some : args ≠ [])
      (not_variable : t.form ≠ .variable) (not_application : t.form ≠ .application)
      (parts_open : ∀ c ∈ t.children, Opens (start + c.1) args c.2 (f c.1 c.2)) :
      Opens start args t (t.mapChildren f)

section Opening

variable {start stack : ℕ} {args : List Term} {t u w : Term}

/-- For an index stands one of the arguments or the index itself. -/
theorem lookupFrom_of_forall {P : Term → Prop} {index : ℕ} (hbound : P (.bound index))
    (hargs : ∀ arg ∈ args, P arg) : P (lookupFrom start args index) := by
  unfold lookupFrom
  split
  · exact hbound
  · cases harg : args[index - start]? with
    | none => exact hbound
    | some arg => exact hargs arg (List.mem_of_getElem? harg)

theorem replaceFrom_bound (hargs : args ≠ []) (index : ℕ) :
    (Term.bound index).replaceFrom (stack + 1) start args = some (lookupFrom start args index) := by
  have hempty : args.isEmpty = false := by simpa using hargs
  simp only [replaceFrom, hempty, Bool.false_eq_true, if_false, replaceStep, lookupFrom]
  split <;> rfl

theorem replaceFrom_node (hargs : args ≠ []) (hvar : t.form ≠ .variable)
    (happ : t.form ≠ .application) : t.replaceFrom (stack + 1) start args =
      t.mapChildrenM fun binders c => c.replaceFrom stack (start + binders) args := by
  have hempty : args.isEmpty = false := by simpa using hargs
  simp only [replaceFrom, hempty, Bool.false_eq_true, if_false]
  cases t with
  | bound | app => simp [form] at hvar happ
  | _ => rfl

theorem opens_of_replaceFrom (h : t.replaceFrom stack start args = some u) :
    Opens start args t u := by
  induction stack generalizing start args t u with
  | zero => cases h
  | succ stack ih =>
    by_cases hargs : args = []
    · subst hargs
      cases h
      exact .closed
    by_cases hvar : t.form = .variable
    · cases t with
      | bound index =>
        rw [replaceFrom_bound hargs] at h
        cases h
        exact .bound hargs
      | _ => cases hvar
    by_cases happ : t.form = .application
    · cases t with
      | app fn arg =>
        have hempty : args.isEmpty = false := by simpa using hargs
        simp only [replaceFrom, hempty, Bool.false_eq_true, if_false, replaceStep] at h
        obtain ⟨fn', hfn, h⟩ := Option.bind_eq_some_iff.mp h
        obtain ⟨arg', harg, h⟩ := Option.bind_eq_some_iff.mp h
        cases fn' with
        | lam body => exact .contract hargs (ih hfn) (ih harg) (ih h)
        | _ =>
          cases h
          exact .app hargs (ih hfn) (ih harg) (by simp [form])
      | _ => cases happ
    rw [replaceFrom_node hargs hvar happ] at h
    obtain ⟨f, hf, rfl⟩ := exists_of_mapChildrenM h
    exact .node f hargs hvar happ fun c hc => ih (hf c hc)

/-- Nested calls have one less to make. -/
theorem eventually_of_succ {p : ℕ → Prop} (h : ∀ᶠ stack in Filter.atTop, p (stack + 1)) :
    ∀ᶠ stack in Filter.atTop, p stack := by
  obtain ⟨room, hroom⟩ := Filter.eventually_atTop.mp h
  refine Filter.eventually_atTop.mpr ⟨room + 1, fun stack hstack => ?_⟩
  obtain ⟨stack', rfl⟩ : ∃ stack', stack = stack' + 1 := ⟨stack - 1, by omega⟩
  exact hroom stack' (by omega)

theorem Opens.eventually (h : Opens start args t u) :
    ∀ᶠ stack in Filter.atTop, t.replaceFrom stack start args = some u := by
  induction h with
  | closed => exact eventually_of_succ (.of_forall fun _ => rfl)
  | bound hargs => exact eventually_of_succ (.of_forall fun _ => replaceFrom_bound hargs _)
  | @contract start args fn arg arg' body u hargs _ _ _ ihFn ihArg ihBody =>
    have hempty : args.isEmpty = false := by simpa using hargs
    apply eventually_of_succ
    filter_upwards [ihFn, ihArg, ihBody] with stack hfn harg hbody
    simp [replaceFrom, hempty, replaceStep, hfn, harg, hbody]
  | @app start args fn fn' arg arg' hargs _ _ hform ihFn ihArg =>
    have hempty : args.isEmpty = false := by simpa using hargs
    apply eventually_of_succ
    filter_upwards [ihFn, ihArg] with stack hfn harg
    simp only [replaceFrom, hempty, Bool.false_eq_true, if_false, replaceStep, hfn, harg,
      Option.bind_eq_bind, Option.bind_some]
    cases fn' with
    | lam => simp [form] at hform
    | _ => rfl
  | @node start args t f hargs hvar happ _ ih =>
    apply eventually_of_succ
    have hall := (Filter.eventually_all_finite (List.finite_toSet t.children)).mpr ih
    filter_upwards [hall] with stack hparts
    rw [replaceFrom_node hargs hvar happ]
    exact mapChildrenM_of_forall hparts

/-- A term opens to what some number of nested calls suffices to find. -/
theorem opens_iff : Opens start args t u ↔ ∃ stack, t.replaceFrom stack start args = some u :=
  ⟨fun h => h.eventually.exists, fun ⟨_, h⟩ => opens_of_replaceFrom h⟩

theorem Opens.unique (h : Opens start args t u) (h' : Opens start args t w) : u = w := by
  obtain ⟨stack, hu, hw⟩ := (h.eventually.and h'.eventually).exists
  exact Option.some.inj (hu.symm.trans hw)

/-- Opening keeps what depends on the heads of subterms only and says nothing of applications. -/
theorem Opens.everywhere {Q : Term → Prop} (h : Opens start args t u)
    (happ : ∀ fn arg, Q (.app fn arg)) (hmap : ∀ t f, Q t → Q (t.mapChildren f))
    (hargs : ∀ arg ∈ args, arg.Everywhere Q) (ht : t.Everywhere Q) : u.Everywhere Q := by
  induction h with
  | closed => exact ht
  | bound => exact lookupFrom_of_forall ht hargs
  | @contract start args fn arg arg' body u _ _ _ _ ihFn ihArg ihBody =>
    have hlam := ihFn hargs (ht.child (c := (0, fn)) (by simp [children]))
    have harg := ihArg hargs (ht.child (c := (0, arg)) (by simp [children]))
    exact ihBody (by simpa using harg) (hlam.child (c := (1, body)) (by simp [children]))
  | @app start args fn fn' arg arg' _ _ _ _ ihFn ihArg =>
    have hfn := ihFn hargs (ht.child (c := (0, fn)) (by simp [children]))
    have harg := ihArg hargs (ht.child (c := (0, arg)) (by simp [children]))
    exact everywhere_iff.mpr ⟨happ fn' arg', by simpa [children] using ⟨hfn, harg⟩⟩
  | @node start args t f _ _ _ _ ih =>
    refine everywhere_iff.mpr ⟨hmap t f ht.head, ?_⟩
    rw [children_mapChildren]
    simp only [List.forall_mem_map]
    exact fun c hc => ih c hc hargs (ht.child hc)

end Opening

end ProofCore.Term
