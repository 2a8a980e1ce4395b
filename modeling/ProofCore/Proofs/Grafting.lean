import ProofCore.Proofs.OpeningRules

/-!
# Values in the place of leaves

A value is built from constructor calls and numerals alone. Putting values in the place of free
variables or of numerals, as given by a function `g` on leaves, commutes with opening: a value has
no index to replace, and an application has a value for its function only where it had no
abstraction before.
-/
namespace ProofCore.Term

/-- Whether a term is a constructor call or stands for one. -/
def isBuilt : Term → Bool
  | .conCall _ _ _ _ _ | .numeral _ _ => true
  | _ => false

/-- A term that is built from constructor calls and numerals alone. -/
def IsValue (t : Term) : Prop := t.Everywhere fun u => u.isBuilt = true

instance (t : Term) : Decidable t.IsValue :=
  inferInstanceAs (Decidable (t.Everywhere fun u => u.isBuilt = true))

/-- The leaves that change are no indices, and become values. -/
def Grafts (g : Term → Term) : Prop :=
  ∀ t : Term, t.isLeaf = true → g t = t ∨ t.form = .rigid ∧ (g t).IsValue

/-- Replaces each leaf by what `g` has for it. -/
def graft (g : Term → Term) (t : Term) : Term := t.mapLeaves (fun _ => g) 0

section Graft

variable {g : Term → Term} {t : Term}

theorem graft_of_isLeaf (h : t.isLeaf = true) : t.graft g = g t := mapLeaves_of_isLeaf h

theorem mapLeaves_eq_graft (depth : ℕ) (t : Term) :
    t.mapLeaves (fun _ => g) depth = t.graft g := by
  induction t using childrenInduction generalizing depth with
  | step t ih =>
    cases hleaf : t.isLeaf with
    | true => rw [mapLeaves_of_isLeaf hleaf, graft_of_isLeaf hleaf]
    | false =>
      rw [graft, mapLeaves_of_not_isLeaf hleaf, mapLeaves_of_not_isLeaf hleaf]
      exact mapChildren_congr fun c hc => (ih c hc _).trans (ih c hc _).symm

theorem graft_of_not_isLeaf (h : t.isLeaf = false) :
    t.graft g = t.mapChildren fun _ c => c.graft g := by
  rw [graft, mapLeaves_of_not_isLeaf h]
  exact mapChildren_congr fun c _ => mapLeaves_eq_graft _ c.2

@[simp] theorem graft_lam (body : Term) : (Term.lam body).graft g = .lam (body.graft g) :=
  graft_of_not_isLeaf rfl

@[simp] theorem graft_app (fn arg : Term) :
    (Term.app fn arg).graft g = .app (fn.graft g) (arg.graft g) := graft_of_not_isLeaf rfl

@[simp] theorem graft_tuple (items : List Term) :
    (Term.tuple items).graft g = .tuple (items.map (graft g)) := graft_of_not_isLeaf rfl

@[simp] theorem graft_proj (whole : Term) (index : ℕ) :
    (Term.proj whole index).graft g = .proj (whole.graft g) index := graft_of_not_isLeaf rfl

@[simp] theorem graft_fnCall (fn : DefId) (lift : ℕ) (args : List Term) :
    (Term.fnCall fn lift args).graft g = .fnCall fn lift (args.map (graft g)) :=
  graft_of_not_isLeaf rfl

@[simp] theorem graft_conCall (data con : DefId) (lift : ℕ) (dataArgs args : List Term) :
    (Term.conCall data con lift dataArgs args).graft g =
      .conCall data con lift (dataArgs.map (graft g)) (args.map (graft g)) :=
  graft_of_not_isLeaf rfl

/-- Nothing changes in a term if none of its leaves does. -/
theorem graft_eq_self (h : t.Everywhere fun u => u.isLeaf = true → g u = u) : t.graft g = t := by
  induction t using childrenInduction with
  | step t ih =>
    cases hleaf : t.isLeaf with
    | true => exact (graft_of_isLeaf hleaf).trans (h.head hleaf)
    | false =>
      rw [graft_of_not_isLeaf hleaf]
      exact mapChildren_eq_self fun c hc => ih c hc (h.child hc)

theorem graft_mapChildren (h : t.isLeaf = false) (f : ℕ → Term → Term) :
    (t.mapChildren f).graft g = t.mapChildren fun b c => (f b c).graft g := by
  rw [graft_of_not_isLeaf (by simpa using h), mapChildren_mapChildren]

theorem IsValue.isBuilt (h : t.IsValue) : t.isBuilt = true := h.head

theorem form_of_isBuilt (h : t.isBuilt = true) : t.form = .rigid := by
  cases t <;> first | rfl | cases h

theorem Grafts.bound (hg : Grafts g) (index : ℕ) :
    (Term.bound index).graft g = .bound index := by
  rw [graft_of_isLeaf rfl]
  exact (hg (.bound index) rfl).resolve_right (by simp [form])

theorem Grafts.form_graft (hg : Grafts g) (t : Term) : (t.graft g).form = t.form := by
  cases hleaf : t.isLeaf with
  | true =>
    rw [graft_of_isLeaf hleaf]
    rcases hg t hleaf with heq | ⟨hrigid, hvalue⟩
    · rw [heq]
    · rw [hrigid, form_of_isBuilt hvalue.isBuilt]
  | false => rw [graft_of_not_isLeaf hleaf, form_mapChildren]

theorem Grafts.eq_bound (hg : Grafts g) {index : ℕ} (h : t.graft g = .bound index) :
    t = .bound index := by
  have hform : t.form = .variable := (hg.form_graft t).symm.trans (congrArg form h)
  cases t with
  | bound i => exact (hg.bound i).symm.trans h
  | _ => cases hform

theorem Grafts.eq_app (hg : Grafts g) {fn arg : Term} (h : t.graft g = .app fn arg) :
    ∃ fn₀ arg₀, t = .app fn₀ arg₀ ∧ fn₀.graft g = fn ∧ arg₀.graft g = arg := by
  have hform : t.form = .application := (hg.form_graft t).symm.trans (congrArg form h)
  cases t with
  | app fn₀ arg₀ =>
    rw [graft_app] at h
    cases h
    exact ⟨fn₀, arg₀, rfl, rfl, rfl⟩
  | _ => cases hform

theorem Grafts.eq_lam (hg : Grafts g) {body : Term} (h : t.graft g = .lam body) :
    ∃ body₀, t = .lam body₀ ∧ body₀.graft g = body := by
  have hform : t.form = .abstraction := (hg.form_graft t).symm.trans (congrArg form h)
  cases t with
  | lam body₀ =>
    rw [graft_lam] at h
    cases h
    exact ⟨body₀, rfl, rfl⟩
  | _ => cases hform

theorem Grafts.cases (hg : Grafts g) (t : Term) :
    t.graft g = t.mapChildren (fun _ c => c.graft g) ∨ t.isLeaf = true ∧ (t.graft g).IsValue := by
  cases hleaf : t.isLeaf with
  | true =>
    rw [graft_of_isLeaf hleaf]
    rcases hg t hleaf with heq | ⟨-, hvalue⟩
    · exact .inl (heq.trans (mapChildren_of_isLeaf hleaf _).symm)
    · exact .inr ⟨rfl, hvalue⟩
  | false => exact .inl (graft_of_not_isLeaf hleaf)

theorem Grafts.eq_tuple (hg : Grafts g) {items : List Term} (h : t.graft g = .tuple items) :
    ∃ items₀, t = .tuple items₀ ∧ items₀.map (graft g) = items := by
  rcases hg.cases t with heq | ⟨-, hvalue⟩
  · rw [heq] at h
    cases t with
    | tuple items₀ => exact ⟨items₀, rfl, Term.tuple.inj h⟩
    | _ => cases h
  · rw [h] at hvalue
    cases hvalue.isBuilt

theorem Grafts.eq_proj (hg : Grafts g) {whole : Term} {index : ℕ}
    (h : t.graft g = .proj whole index) :
    ∃ whole₀, t = .proj whole₀ index ∧ whole₀.graft g = whole := by
  rcases hg.cases t with heq | ⟨-, hvalue⟩
  · rw [heq] at h
    cases t with
    | proj whole₀ index₀ =>
      obtain ⟨hwhole, rfl⟩ := Term.proj.inj h
      exact ⟨whole₀, rfl, hwhole⟩
    | _ => cases h
  · rw [h] at hvalue
    cases hvalue.isBuilt

theorem Grafts.eq_fnCall (hg : Grafts g) {fn : DefId} {lift : ℕ} {args : List Term}
    (h : t.graft g = .fnCall fn lift args) :
    ∃ args₀, t = .fnCall fn lift args₀ ∧ args₀.map (graft g) = args := by
  rcases hg.cases t with heq | ⟨-, hvalue⟩
  · rw [heq] at h
    cases t with
    | fnCall fn₀ lift₀ args₀ =>
      obtain ⟨rfl, rfl, hargs⟩ := Term.fnCall.inj h
      exact ⟨args₀, rfl, hargs⟩
    | _ => cases h
  · rw [h] at hvalue
    cases hvalue.isBuilt

end Graft

section Opening

variable {g : Term → Term} {start : ℕ} {args : List Term} {t u : Term}

/-- A compound term opens part by part, also if the parts are given as images of others. -/
theorem Opens.of_parts {p q : ℕ → Term → Term} (hargs : args ≠ []) (hvar : t.form ≠ .variable)
    (happ : t.form ≠ .application)
    (h : ∀ c ∈ t.children, Opens (start + c.1) args (p c.1 c.2) (q c.1 c.2)) :
    Opens start args (t.mapChildren p) (t.mapChildren q) := by
  let result : ℕ → Term → Term := fun b w => Classical.epsilon (Opens (start + b) args w)
  have hresult : ∀ c ∈ t.children, result c.1 (p c.1 c.2) = q c.1 c.2 := fun c hc =>
    (Classical.epsilon_spec ⟨_, h c hc⟩ : Opens _ args _ (result c.1 (p c.1 c.2))).unique (h c hc)
  have hq : t.mapChildren q = (t.mapChildren p).mapChildren result := by
    rw [mapChildren_mapChildren]
    exact (mapChildren_congr hresult).symm
  rw [hq]
  refine .node result hargs (by rwa [form_mapChildren]) (by rwa [form_mapChildren]) ?_
  rw [children_mapChildren]
  simp only [List.forall_mem_map]
  exact fun c hc => (hresult c hc).symm ▸ h c hc

theorem Opens.of_isLeaf (hleaf : t.isLeaf = true) (hform : t.form = .rigid) :
    Opens start args t t := by
  by_cases hargs : args = []
  · exact hargs ▸ .closed
  have hnode : Opens start args t (t.mapChildren fun _ c => c) :=
    .node _ hargs (by simp [hform]) (by simp [hform]) (by simp [children_of_isLeaf hleaf])
  rwa [mapChildren_of_isLeaf hleaf] at hnode

/-- Opening leaves a value as it is. -/
theorem IsValue.opens (h : t.IsValue) : Opens start args t t := by
  by_cases hargs : args = []
  · exact hargs ▸ .closed
  induction t using childrenInduction generalizing start with
  | step t ih =>
    have hform := form_of_isBuilt h.isBuilt
    have hnode : Opens start args (t.mapChildren fun _ c => c) (t.mapChildren fun _ c => c) :=
      .of_parts hargs (by simp [hform]) (by simp [hform]) fun c hc => ih c hc (h.child hc)
    rwa [mapChildren_eq_self fun _ _ => rfl] at hnode

theorem Grafts.lookupFrom (hg : Grafts g) (start : ℕ) (args : List Term) (index : ℕ) :
    (Term.lookupFrom start args index).graft g =
      Term.lookupFrom start (args.map (graft g)) index := by
  unfold Term.lookupFrom
  split
  · exact hg.bound index
  · rw [List.getElem?_map]
    cases args[index - start]? with
    | none => exact hg.bound index
    | some arg => rfl

/-- What a term opens to, it still opens to with values in the place of leaves. -/
theorem Opens.graft (hg : Grafts g) (h : Opens start args t u) :
    Opens start (args.map (Term.graft g)) (t.graft g) (u.graft g) := by
  induction h with
  | closed => exact .closed
  | bound hargs =>
    rw [hg.bound, hg.lookupFrom]
    exact .bound (by simpa using hargs)
  | contract hargs _ _ _ ihFn ihArg ihBody =>
    rw [graft_lam] at ihFn
    rw [graft_app]
    exact .contract (by simpa using hargs) ihFn ihArg ihBody
  | app hargs _ _ hstuck ihFn ihArg =>
    rw [graft_app, graft_app]
    exact .app (by simpa using hargs) ihFn ihArg (by rwa [hg.form_graft])
  | @node start args t f hargs hvar happ _ ih =>
    cases hleaf : t.isLeaf with
    | true =>
      rw [mapChildren_of_isLeaf hleaf, graft_of_isLeaf hleaf]
      rcases hg t hleaf with heq | ⟨-, hvalue⟩
      · have hrigid : t.form = .rigid := by
          cases t <;> simp_all [form, isLeaf]
        exact heq.symm ▸ .of_isLeaf hleaf hrigid
      · exact hvalue.opens
    | false =>
      rw [graft_of_not_isLeaf hleaf, graft_mapChildren hleaf]
      exact .of_parts (by simpa using hargs) hvar happ ih

/-- With values in the place of leaves a term opens to nothing else. -/
theorem Opens.of_graft (hg : Grafts g)
    (h : Opens start (args.map (Term.graft g)) (t.graft g) u) :
    ∃ w, Opens start args t w ∧ w.graft g = u := by
  generalize hargs' : args.map (Term.graft g) = args' at h
  generalize ht' : t.graft g = t' at h
  induction h generalizing args t with
  | closed =>
    obtain rfl := List.map_eq_nil_iff.mp hargs'
    exact ⟨t, .closed, ht'⟩
  | bound hargs =>
    subst hargs'
    obtain rfl := hg.eq_bound ht'
    exact ⟨_, .bound (by simpa using hargs), hg.lookupFrom _ _ _⟩
  | contract hargs _ _ _ ihFn ihArg ihBody =>
    subst hargs'
    obtain ⟨fn, arg, rfl, hfn, harg⟩ := hg.eq_app ht'
    obtain ⟨fn', hfn', heq⟩ := ihFn rfl hfn
    obtain ⟨arg', harg', rfl⟩ := ihArg rfl harg
    obtain ⟨body, rfl, hbody⟩ := hg.eq_lam heq
    obtain ⟨w, hw, rfl⟩ := ihBody (rfl : [arg'].map (Term.graft g) = _) hbody
    exact ⟨w, .contract (by simpa using hargs) hfn' harg' hw, rfl⟩
  | app hargs _ _ hstuck ihFn ihArg =>
    subst hargs'
    obtain ⟨fn, arg, rfl, hfn, harg⟩ := hg.eq_app ht'
    obtain ⟨fn', hfn', rfl⟩ := ihFn rfl hfn
    obtain ⟨arg', harg', rfl⟩ := ihArg rfl harg
    rw [hg.form_graft] at hstuck
    exact ⟨.app fn' arg', .app (by simpa using hargs) hfn' harg' hstuck, graft_app _ _⟩
  | @node start args' t' f hargs hvar happ hparts ih =>
    subst hargs' ht'
    have hargs : args ≠ [] := by simpa using hargs
    rw [hg.form_graft] at hvar happ
    cases hleaf : t.isLeaf with
    | true =>
      have hrigid : t.form = .rigid := by
        cases t <;> simp_all [form, isLeaf]
      refine ⟨t, .of_isLeaf hleaf hrigid, ?_⟩
      have hopens : Opens start (args.map (Term.graft g)) (t.graft g) (t.graft g) :=
        Opens.graft hg (.of_isLeaf hleaf hrigid)
      exact hopens.unique (.node f (by simpa using hargs) (by rwa [hg.form_graft])
        (by rwa [hg.form_graft]) hparts)
    | false =>
      rw [graft_of_not_isLeaf hleaf] at ih ⊢
      rw [children_mapChildren] at ih
      simp only [List.forall_mem_map] at ih
      have hpart : ∀ c ∈ t.children, ∃ w, Opens (start + c.1) args c.2 w ∧
          w.graft g = f c.1 (c.2.graft g) := fun c hc => ih c hc rfl rfl
      let part : ℕ → Term → Term := fun b c => Classical.epsilon fun w =>
        Opens (start + b) args c w ∧ w.graft g = f b (c.graft g)
      have hchosen : ∀ c ∈ t.children, Opens (start + c.1) args c.2 (part c.1 c.2) ∧
          (part c.1 c.2).graft g = f c.1 (c.2.graft g) := fun c hc =>
        Classical.epsilon_spec (hpart c hc)
      refine ⟨t.mapChildren part, .node part hargs hvar happ fun c hc => (hchosen c hc).1, ?_⟩
      rw [graft_mapChildren hleaf, mapChildren_mapChildren]
      exact mapChildren_congr fun c hc => (hchosen c hc).2

end Opening

end ProofCore.Term
