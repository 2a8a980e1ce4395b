import ProofCore.Proofs.BetaReduction
import ProofCore.Proofs.OpeningRules

/-!
# Where opening is substitution up to reduction

Opening a term contracts an application at the moment its function becomes an abstraction. At this
moment no index of the application may be loose that is not replaced, since none is lifted or
lowered. An application opens cleanly if it refers to no binder further in than the variable at its
head, and only to parameters if its head is a parameter or an abstraction. Where all applications
do so, in the term and in the arguments, the opened term is a reduct of the substitution.
-/
namespace ProofCore.Term

/-- The variable that a spine of applications has at its head. -/
def headIndex? : Term → Option ℕ
  | .bound index => some index
  | .app fn _ => fn.headIndex?
  | _ => none

/-- An application under `depth` binders, with the parameters outside of these, has no loose
indices but those that are gone when it is contracted. -/
def opensCleanly (depth : ℕ) : Term → Bool
  | .app fn arg => fn.hasRigidHead ||
    (Term.app fn arg).looseIndices.all fun i => min (fn.headIndex?.getD depth) depth ≤ i
  | _ => true

/-- All applications of a term under `depth` binders open cleanly. -/
def opensCleanlyFrom (depth : ℕ) (t : Term) : Bool :=
  (t.occurrences depth).all fun o => o.2.opensCleanly o.1

variable {t u fn arg : Term} {args : List Term} {start depth i : ℕ}

theorem opensCleanly_app_iff : (Term.app fn arg).opensCleanly depth = true ↔
    (fn.hasRigidHead = false → ∀ i ∈ (Term.app fn arg).looseIndices,
      min (fn.headIndex?.getD depth) depth ≤ i) := by
  cases hfn : fn.hasRigidHead <;> simp [opensCleanly, hfn]

theorem opensCleanlyFrom_iff : t.opensCleanlyFrom depth = true ↔
    t.opensCleanly depth = true ∧ ∀ c ∈ t.children, c.2.opensCleanlyFrom (depth + c.1) = true := by
  rw [opensCleanlyFrom, all_occurrences, Bool.and_eq_true, List.all_eq_true]
  rfl

theorem headIndex_mem_looseIndices {index : ℕ} (h : t.headIndex? = some index) :
    index ∈ t.looseIndices := by
  induction t using childrenInduction with
  | step t ih =>
    cases t with
    | bound => exact mem_looseIndices_bound.mpr (Option.some.inj h).symm
    | app fn arg =>
      exact mem_looseIndices_app.mpr (.inl (ih (0, fn) (by simp [children]) h))
    | _ => cases h

/-- What opens cleanly beyond all its loose indices does so anywhere. -/
theorem opensCleanlyFrom_of_wellScoped {scope depth' : ℕ} (hscope : t.wellScoped scope = true)
    (hle : scope ≤ depth) (h : t.opensCleanlyFrom depth = true) :
    t.opensCleanlyFrom depth' = true := by
  induction t using childrenInduction generalizing scope depth depth' with
  | step t ih =>
    rw [opensCleanlyFrom_iff] at h ⊢
    refine ⟨?_, fun c hc => ih c hc ((wellScoped_iff.mp hscope).2 c hc) (by omega) (h.2 c hc)⟩
    cases t with
    | app fn arg =>
      have hloose := wellScoped_iff_loose.mp hscope
      refine opensCleanly_app_iff.mpr fun hrigid i hi => ?_
      have hmin := opensCleanly_app_iff.mp h.1 hrigid i hi
      have hi := hloose i hi
      cases hhead : fn.headIndex? with
      | none =>
        rw [hhead] at hmin
        simp at hmin
        omega
      | some index =>
        have hmem := headIndex_mem_looseIndices hhead
        have hlt := hloose index (mem_looseIndices_app.mpr (.inl hmem))
        rw [hhead] at hmin
        simp at hmin ⊢
        omega
    | _ => rfl

namespace Opens

theorem hasRigidHead (h : Opens start args t u) (ht : t.hasRigidHead = true) :
    u.hasRigidHead = true := by
  obtain ⟨stack, hu⟩ := opens_iff.mp h
  exact hasRigidHead_replaceFrom ht hu

/-- A variable at the head that is not replaced stays there. -/
theorem headIndex_eq {index : ℕ} (h : Opens start args t u) (ht : t.headIndex? = some index)
    (hlt : index < start) : u.headIndex? = some index := by
  induction h with
  | closed => exact ht
  | bound =>
    cases ht
    simp [lookupFrom, hlt, headIndex?]
  | contract _ _ _ _ ihFn => cases ihFn ht hlt
  | app _ _ _ _ ihFn => exact ihFn ht hlt
  | @node _ _ t _ _ hvar happ =>
    cases t with
    | bound | app => simp [form] at hvar happ
    | _ => cases ht

/-- An application that is contracted refers to parameters only. -/
theorem start_le_of_contracted {body : Term} (h : Opens start args fn (.lam body))
    (hclean : (Term.app fn arg).opensCleanly start = true)
    (hi : i ∈ (Term.app fn arg).looseIndices) : start ≤ i := by
  have hrigid : fn.hasRigidHead = false := by
    by_contra hfn
    cases h.hasRigidHead (by simpa using hfn)
  have hmin := opensCleanly_app_iff.mp hclean hrigid i hi
  cases hhead : fn.headIndex? with
  | none => simpa [hhead] using hmin
  | some index =>
    by_cases hlt : index < start
    · cases h.headIndex_eq hhead hlt
    · rw [hhead] at hmin
      simp at hmin
      omega

/-- An application that is not contracted opens cleanly again. -/
theorem opensCleanly_app {fn' arg' : Term} (h : Opens start args fn fn')
    (hclean : (Term.app fn arg).opensCleanly start = true)
    (hloose : ∀ i ∈ (Term.app fn' arg').looseIndices,
      i < start ∧ i ∈ (Term.app fn arg).looseIndices) :
    (Term.app fn' arg').opensCleanly start = true := by
  refine opensCleanly_app_iff.mpr fun hrigid i hi => ?_
  have hfn : fn.hasRigidHead = false := by
    by_contra hfn
    rw [h.hasRigidHead (by simpa using hfn)] at hrigid
    cases hrigid
  obtain ⟨hlt, hi⟩ := hloose i hi
  have hmin := opensCleanly_app_iff.mp hclean hfn i hi
  cases hhead : fn.headIndex? with
  | none =>
    rw [hhead] at hmin
    simp at hmin
    omega
  | some index =>
    rw [hhead] at hmin
    by_cases hindex : index < start
    · rwa [h.headIndex_eq hhead hindex]
    · simp at hmin
      omega

end Opens

/-- What opening a term under `start` binders comes to if it is done cleanly: no index is loose
that was not before, the result opens cleanly again, and it is a reduct of the substitution. -/
structure CleanReduct (args : List Term) (start : ℕ) (t u : Term) : Prop where
  loose : ∀ i ∈ u.looseIndices, i < start ∧ i ∈ t.looseIndices
  clean : u.opensCleanlyFrom start = true
  reduct : (t.filledFrom args start).Reduces u

namespace CleanReduct

theorem of_closed (hu : u.wellScoped 0 = true) (hclean : u.opensCleanlyFrom 0 = true)
    (h : (t.filledFrom args start).Reduces u) : CleanReduct args start t u where
  loose i hi := absurd (wellScoped_iff_loose.mp hu i hi) (by omega)
  clean := opensCleanlyFrom_of_wellScoped hu le_rfl hclean
  reduct := h

theorem refl (ht : t.wellScoped start = true) (hclean : t.opensCleanlyFrom start = true) :
    CleanReduct args start t t where
  loose i hi := ⟨wellScoped_iff_loose.mp ht i hi, hi⟩
  clean := hclean
  reduct := by
    rw [filledFrom_eq_self ht]
    exact .refl t

/-- A result that refers to no binder of the term is closed. -/
theorem wellScoped (h : CleanReduct args start t u) (hstart : ∀ i ∈ t.looseIndices, start ≤ i) :
    u.wellScoped 0 = true := by
  refine wellScoped_iff_loose.mpr fun i hi => ?_
  obtain ⟨hlt, hmem⟩ := h.loose i hi
  have hle := hstart i hmem
  omega

theorem bound {index : ℕ}
    (hargs : ∀ arg ∈ args, arg.wellScoped 0 = true ∧ arg.opensCleanlyFrom 0 = true)
    (hindex : index < start + args.length) :
    CleanReduct args start (.bound index) (lookupFrom start args index) := by
  by_cases hlt : index < start
  · have hscope : (Term.bound index).wellScoped start = true := wellScoped_iff_loose.mpr fun i hi =>
      (mem_looseIndices_bound.mp hi).trans_lt hlt
    rw [lookupFrom, if_pos hlt]
    exact .refl hscope rfl
  · have hlength : index - start < args.length := by omega
    have harg := hargs _ (List.getElem_mem hlength)
    rw [lookupFrom, if_neg hlt, List.getElem?_eq_getElem hlength, Option.getD_some]
    refine .of_closed harg.1 harg.2 ?_
    have hfilled : (Term.bound index).filledFrom args start = args[index - start] := by
      simp only [filledFrom_bound, if_neg hlt, List.getElem?_eq_getElem hlength]
      exact lifted_eq_self harg.1 start
    rw [hfilled]
    exact .refl _

/-- Where the function has become an abstraction, both parts are closed and the contraction is
one step of reduction. -/
theorem contract {arg' body : Term} (hfn : CleanReduct args start fn (.lam body))
    (harg : CleanReduct args start arg arg')
    (hstart : ∀ i ∈ (Term.app fn arg).looseIndices, start ≤ i)
    (hbody : arg'.wellScoped 0 = true ∧ arg'.opensCleanlyFrom 0 = true →
      body.wellScoped 1 = true → body.opensCleanlyFrom 0 = true → CleanReduct [arg'] 0 body u) :
    CleanReduct args start (.app fn arg) u := by
  have hlam : (Term.lam body).wellScoped 0 = true :=
    hfn.wellScoped fun i hi => hstart i (mem_looseIndices_app.mpr (.inl hi))
  have harg' : arg'.wellScoped 0 = true :=
    harg.wellScoped fun i hi => hstart i (mem_looseIndices_app.mpr (.inr hi))
  have hscope : body.wellScoped 1 = true :=
    (wellScoped_iff.mp hlam).2 (1, body) (by simp [children])
  have hclean : body.opensCleanlyFrom (start + 1) = true :=
    (opensCleanlyFrom_iff.mp hfn.clean).2 (1, body) (by simp [children])
  have hu := hbody ⟨harg', opensCleanlyFrom_of_wellScoped harg' (Nat.zero_le _) harg.clean⟩ hscope
    (opensCleanlyFrom_of_wellScoped hscope (by omega) hclean)
  refine .of_closed (hu.wellScoped fun i _ => Nat.zero_le i) hu.clean ?_
  rw [filledFrom_app]
  exact (hfn.reduct.app harg.reduct).trans ((Reduces.contract body arg').trans hu.reduct)

theorem app {fn' arg' : Term} (h : Opens start args fn fn')
    (hclean : (Term.app fn arg).opensCleanly start = true)
    (hfn : CleanReduct args start fn fn') (harg : CleanReduct args start arg arg') :
    CleanReduct args start (.app fn arg) (.app fn' arg') := by
  have hloose : ∀ i ∈ (Term.app fn' arg').looseIndices,
      i < start ∧ i ∈ (Term.app fn arg).looseIndices := by
    intro i hi
    rcases mem_looseIndices_app.mp hi with hi | hi
    · exact (hfn.loose i hi).imp_right fun h => mem_looseIndices_app.mpr (.inl h)
    · exact (harg.loose i hi).imp_right fun h => mem_looseIndices_app.mpr (.inr h)
  refine ⟨hloose, opensCleanlyFrom_iff.mpr ⟨h.opensCleanly_app hclean hloose, ?_⟩, ?_⟩
  · simpa [children] using ⟨hfn.clean, harg.clean⟩
  · rw [filledFrom_app]
    exact hfn.reduct.app harg.reduct

theorem node {f : ℕ → Term → Term} (hvar : t.form ≠ .variable) (happ : t.form ≠ .application)
    (h : ∀ c ∈ t.children, CleanReduct args (start + c.1) c.2 (f c.1 c.2)) :
    CleanReduct args start t (t.mapChildren f) := by
  refine ⟨fun i hi => ?_, opensCleanlyFrom_iff.mpr ⟨?_, ?_⟩, ?_⟩
  · rcases mem_looseIndices.mp hi with heq | ⟨c, hc, hi⟩
    · exact absurd ((form_mapChildren f t).symm.trans (congrArg form heq)) hvar
    · rw [children_mapChildren] at hc
      obtain ⟨c, hchild, rfl⟩ := List.mem_map.mp hc
      obtain ⟨hlt, hmem⟩ := (h c hchild).loose _ hi
      exact ⟨by omega, mem_looseIndices_of_child hchild hmem⟩
  · cases t with
    | app => exact (happ rfl).elim
    | _ => rfl
  · rw [children_mapChildren]
    simp only [List.forall_mem_map]
    exact fun c hc => (h c hc).clean
  · rw [filledFrom_of_not_variable hvar]
    exact .congr t fun c hc => (h c hc).reduct

end CleanReduct

theorem Opens.cleanReduct (h : Opens start args t u)
    (hargs : ∀ arg ∈ args, arg.wellScoped 0 = true ∧ arg.opensCleanlyFrom 0 = true)
    (ht : t.wellScoped (start + args.length) = true) (hclean : t.opensCleanlyFrom start = true) :
    CleanReduct args start t u := by
  induction h with
  | closed => exact .refl ht hclean
  | bound => exact .bound hargs ((wellScoped_iff.mp ht).1 _ rfl)
  | @contract start args fn arg arg' body u _ hfn _ _ ihFn ihArg ihBody =>
    rw [opensCleanlyFrom_iff] at hclean
    have hparts := (wellScoped_iff.mp ht).2
    simp only [children, List.forall_mem_cons, List.not_mem_nil] at hparts hclean
    refine .contract (ihFn hargs hparts.1 hclean.2.1) (ihArg hargs hparts.2.1 hclean.2.2.1)
      (fun i hi => hfn.start_le_of_contracted hclean.1 hi) fun harg hscope hbody => ?_
    exact ihBody (by simpa using harg) hscope hbody
  | @app start args fn fn' arg arg' _ hfn _ _ ihFn ihArg =>
    rw [opensCleanlyFrom_iff] at hclean
    have hparts := (wellScoped_iff.mp ht).2
    simp only [children, List.forall_mem_cons, List.not_mem_nil] at hparts hclean
    exact .app hfn hclean.1 (ihFn hargs hparts.1 hclean.2.1) (ihArg hargs hparts.2.1 hclean.2.2.1)
  | node f _ hvar happ _ ih =>
    refine .node hvar happ fun c hc => ih c hc hargs ?_ ((opensCleanlyFrom_iff.mp hclean).2 c hc)
    rw [Nat.add_right_comm]
    exact (wellScoped_iff.mp ht).2 c hc

/-- Opening a term with closed arguments is substitution up to beta-reduction if all applications
in the term and in the arguments open cleanly. -/
theorem instantiateAll_reduct {stack : ℕ} (ht : t.wellScoped args.length = true)
    (hargs : ∀ arg ∈ args, arg.wellScoped 0 = true)
    (hclean : ∀ w ∈ t :: args, w.opensCleanlyFrom 0 = true)
    (h : t.instantiateAll stack args = some u) : (t.filled args).Reduces u := by
  rw [List.forall_mem_cons] at hclean
  have hopens : Opens 0 args t u := opens_of_replaceFrom h
  have hargs := fun arg harg => And.intro (hargs arg harg) (hclean.2 arg harg)
  exact (hopens.cleanReduct hargs (by rwa [Nat.zero_add]) hclean.1).reduct

/-- Two parameters are applied to each other under a binder, and the contraction of their
application gives rise to another. -/
theorem instantiateAll_reduct_nested :
    let z : Term := .free ⟨.supplied 0, "z"⟩
    let t : Term := .lam (.tuple [.bound 0, .app (.bound 1) (.bound 2)])
    let args : List Term := [.lam (.app (.bound 0) z), .lam (.tuple [.bound 0, .lam (.bound 1)])]
    t.instantiateAll 9 args = some (.lam (.tuple [.bound 0, .tuple [z, .lam z]])) ∧
    (t.filled args).Reduces (.lam (.tuple [.bound 0, .tuple [z, .lam z]])) := by
  intro z t args
  have hopened : t.instantiateAll 9 args =
      some (.lam (.tuple [.bound 0, .tuple [z, .lam z]])) := by decide +kernel
  exact ⟨hopened, instantiateAll_reduct (by decide) (by decide) (by decide) hopened⟩

end ProofCore.Term
