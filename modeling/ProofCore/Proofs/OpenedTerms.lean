import ProofCore.Proofs.OpeningRules
import ProofCore.Syntax.Equality

/-!
# What opening leaves in a term

Opening contracts the applications of abstractions that it meets, and those that a contraction
gives rise to. Whatever the term was, none is left in the result if none came with the arguments.
Contraction copies and drops parts of a term but makes up no variable, so the free variables of the
result are variables of the term or of an argument, and substitution removes the variable that it
replaces unless the new term brings it back.
-/
namespace ProofCore.Term

/-- Whether a term is an application of an abstraction. -/
def isRedex : Term → Bool
  | .app (.lam _) _ => true
  | _ => false

/-- No application of an abstraction occurs in a term, except within holes. -/
def Contracted (t : Term) : Prop := t.Everywhere fun u => u.isRedex = false

instance (t : Term) : Decidable t.Contracted :=
  inferInstanceAs (Decidable (t.Everywhere fun u => u.isRedex = false))

section Redexes

variable {start stack : ℕ} {args : List Term} {t u fn arg : Term}

theorem isRedex_app : (Term.app fn arg).isRedex = false ↔ fn.form ≠ .abstraction := by
  cases fn <;> simp [isRedex, form]

theorem isRedex_of_form (h : t.form ≠ .application) : t.isRedex = false := by
  cases t with
  | app => exact (h rfl).elim
  | _ => rfl

theorem contracted_app : (Term.app fn arg).Contracted ↔
    fn.form ≠ .abstraction ∧ fn.Contracted ∧ arg.Contracted := by
  rw [Contracted, everywhere_iff, isRedex_app]
  simp [children, Contracted]

theorem contracted_of_form (h : t.form ≠ .application) :
    t.Contracted ↔ ∀ c ∈ t.children, c.2.Contracted := by
  rw [Contracted, everywhere_iff]
  exact and_iff_right (isRedex_of_form h)

theorem form_ne_of_isLeaf (h : t.isLeaf = true) :
    t.form ≠ .abstraction ∧ t.form ≠ .application := by
  cases t <;> simp [form, isLeaf] at h ⊢

theorem contracted_of_isLeaf (h : t.isLeaf = true) : t.Contracted := by
  rw [contracted_of_form (form_ne_of_isLeaf h).2, children_of_isLeaf h]
  simp

/-- Opening with contracted arguments leaves nothing to contract. The term itself need not be
contracted: its own redexes go with those that the arguments give rise to. -/
theorem Opens.contracted (h : Opens start args t u) (hsome : args ≠ [])
    (hargs : ∀ arg ∈ args, arg.Contracted) : u.Contracted := by
  induction h with
  | closed => exact (hsome rfl).elim
  | bound => exact lookupFrom_of_forall (contracted_of_isLeaf rfl) hargs
  | contract _ _ _ _ _ ihArg ihBody =>
    -- the body is opened with an argument that has been contracted just now
    exact ihBody (by simp) (by simpa using ihArg hsome hargs)
  | app _ _ _ hstuck ihFn ihArg =>
    exact contracted_app.mpr ⟨hstuck, ihFn hsome hargs, ihArg hsome hargs⟩
  | @node start args t f _ _ happ _ ih =>
    rw [contracted_of_form (by rwa [form_mapChildren]), children_mapChildren, List.forall_mem_map]
    exact fun c hc => ih c hc hsome hargs

/-- Replacing indices by contracted arguments, of which there is at least one, gives a contracted
term. -/
theorem contracted_replaceFrom (hsome : args ≠ []) (hargs : ∀ arg ∈ args, arg.Contracted)
    (h : t.replaceFrom stack start args = some u) : u.Contracted :=
  (opens_of_replaceFrom h).contracted hsome hargs

/-- Where `λ f, λ x, f x` is put in, each contraction makes way for another, first under a binder; the
second argument comes with an application of an abstraction of its own. -/
theorem contracted_replaceFrom_chain :
    let z : Term := .free ⟨.supplied 0, "z"⟩
    let apply : Term := .lam (.lam (.app (.bound 1) (.bound 0)))
    let t : Term := .app (.app (.bound 0) (.lam (.bound 0))) (.app (.lam (.bound 0)) z)
    ¬ t.Contracted ∧ apply.Contracted ∧ t.replaceFrom 9 0 [apply] = some z ∧ z.Contracted := by
  intro z apply t
  have happly : apply.Contracted := by decide
  have hopened : t.replaceFrom 9 0 [apply] = some z := by decide +kernel
  have hz := contracted_replaceFrom (by simp) (by simpa using happly) hopened
  exact ⟨by decide, happly, hopened, hz⟩

end Redexes

/-- The free variables of a term with repetitions, in reading order, except those within holes. -/
def freeVars (t : Term) : List Var := (t.occurrences 0).filterMap fun
  | (_, .free x) => some x
  | _ => none

section Variables

variable {start stack depth : ℕ} {args : List Term} {t u r : Term} {x y : Var}

theorem mem_freeVars_iff_occurs : y ∈ t.freeVars ↔ ∃ o ∈ t.occurrences 0, o.2 = .free y := by
  rw [freeVars, List.mem_filterMap]
  refine exists_congr fun o => and_congr_right fun _ => ?_
  obtain ⟨d, u⟩ := o
  cases u <;> simp

theorem notMem_freeVars_iff : y ∉ t.freeVars ↔ t.Everywhere (· ≠ .free y) := by
  rw [mem_freeVars_iff_occurs, Everywhere]
  push Not
  rfl

theorem mem_freeVars : y ∈ t.freeVars ↔ t = .free y ∨ ∃ c ∈ t.children, y ∈ c.2.freeVars := by
  rw [← not_iff_not, notMem_freeVars_iff, everywhere_iff]
  simp only [← notMem_freeVars_iff]
  push Not
  rfl

theorem mapChildren_eq_free {f : ℕ → Term → Term} : t.mapChildren f = .free y ↔ t = .free y := by
  cases t <;> simp [mapChildren]

theorem mem_freeVars_mapChildren {f : ℕ → Term → Term} : y ∈ (t.mapChildren f).freeVars ↔
    t = .free y ∨ ∃ c ∈ t.children, y ∈ (f c.1 c.2).freeVars := by
  rw [mem_freeVars, mapChildren_eq_free, children_mapChildren]
  simp

/-- Closing a variable removes it and keeps all others. -/
theorem mem_freeVars_bindAt : y ∈ (t.bindAt x depth).freeVars ↔ y ∈ t.freeVars ∧ y ≠ x := by
  induction t using childrenInduction generalizing depth with
  | step t ih =>
    by_cases ht : t = .free x
    · subst ht
      have hclosed : ((Term.free x).bindAt x depth).freeVars = [] := by
        rw [bindAt, if_pos rfl]
        rfl
      have hopen : (Term.free x).freeVars = [x] := rfl
      simp [hclosed, hopen]
    · rw [bindAt_eq_mapChildren depth ht, mem_freeVars_mapChildren, mem_freeVars]
      have hparts : (∃ c ∈ t.children, y ∈ (c.2.bindAt x (depth + c.1)).freeVars) ↔
          (∃ c ∈ t.children, y ∈ c.2.freeVars) ∧ y ≠ x := by
        rw [← exists_and_right]
        refine exists_congr fun c => ?_
        rw [and_assoc]
        exact and_congr_right fun hc => ih c hc
      rw [hparts, or_and_right]
      refine or_congr_left (and_iff_left_of_imp ?_).symm
      rintro rfl rfl
      exact ht rfl

theorem mem_freeVars_bindFrom {xs : List Var} :
    y ∈ (t.bindFrom start xs).freeVars ↔ y ∈ t.freeVars ∧ y ∉ xs := by
  induction xs generalizing start t with
  | nil => simp [bindFrom]
  | cons x xs ih => rw [bindFrom, ih, mem_freeVars_bindAt, and_assoc, List.mem_cons, not_or]

/-- Closing a telescope takes its variables, and no others, from the free ones. -/
theorem mem_freeVars_bindTelescope {xs : List Var} :
    y ∈ (t.bindTelescope xs).freeVars ↔ y ∈ t.freeVars ∧ y ∉ xs := by
  rw [bindTelescope, bindAll, mem_freeVars_bindFrom, List.mem_reverse]

/-- Opening makes up no variable. -/
theorem Opens.freeVars (h : Opens start args t u) (hy : y ∈ u.freeVars) :
    y ∈ t.freeVars ∨ ∃ arg ∈ args, y ∈ arg.freeVars := by
  by_contra hnone
  push Not at hnone
  have hargs : ∀ arg ∈ args, arg.Everywhere (· ≠ .free y) := fun arg harg =>
    notMem_freeVars_iff.mp (hnone.2 arg harg)
  have hresult : u.Everywhere (· ≠ .free y) :=
    h.everywhere (by simp) (fun t f ht hfree => ht (mapChildren_eq_free.mp hfree)) hargs
      (notMem_freeVars_iff.mp hnone.1)
  exact notMem_freeVars_iff.mpr hresult hy

/-- The free variables of a substitution come from the term that is put in and from the term it is
put into, where the variable that it stands for is gone. -/
theorem freeVars_substitute (h : t.substitute stack x u = some r) :
    (∀ y ∈ r.freeVars, y ∈ u.freeVars ∨ y ∈ t.freeVars ∧ y ≠ x) ∧
      (x ∉ u.freeVars → x ∉ r.freeVars) := by
  have hopens : Opens 0 [u] (t.bind x) r := opens_of_replaceFrom h
  have hvars : ∀ y ∈ r.freeVars, y ∈ u.freeVars ∨ y ∈ t.freeVars ∧ y ≠ x := by
    intro y hy
    rcases hopens.freeVars hy with hy | ⟨arg, harg, hy⟩
    · exact .inr (mem_freeVars_bindAt.mp hy)
    · exact .inl (List.mem_singleton.mp harg ▸ hy)
  refine ⟨hvars, fun hx hr => ?_⟩
  rcases hvars x hr with hu | ⟨-, hne⟩
  · exact hx hu
  · exact hne rfl

/-- The abstraction that is put in for `x` copies its argument, in which `x` is applied to `y`, and
brings in `z`. -/
theorem freeVars_substitute_copied :
    let x : Var := ⟨.supplied 0, "x"⟩
    let y : Var := ⟨.supplied 1, "y"⟩
    let z : Var := ⟨.supplied 2, "z"⟩
    let copy : Term := .lam (.tuple [.bound 0, .bound 0, .free z])
    let t : Term := .app (.free x) (.app (.free x) (.free y))
    let inner : Term := .tuple [.free y, .free y, .free z]
    let r : Term := .tuple [inner, inner, .free z]
    t.substitute 9 x copy = some r ∧ x ∈ t.freeVars ∧ x ∉ copy.freeVars ∧ x ∉ r.freeVars ∧
      ∀ w ∈ r.freeVars, w ∈ copy.freeVars ∨ w ∈ t.freeVars ∧ w ≠ x := by
  intro x y z copy t inner r
  have hr : t.substitute 9 x copy = some r := by decide +kernel
  have hcopy : x ∉ copy.freeVars := by decide
  have hvars := freeVars_substitute hr
  exact ⟨hr, by decide, hcopy, hvars.2 hcopy, hvars.1⟩

end Variables

end ProofCore.Term
