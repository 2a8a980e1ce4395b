import ProofCore.Proofs.BetaReduction
import ProofCore.Proofs.Grafting
import ProofCore.Proofs.OpenedTerms

/-!
# Closing and opening undo each other

Closing a telescope goes through the term once for each variable, at growing indices. It comes to
replacing each leaf once, a variable by the index of its first place in the list. Opening with
variables replaces leaves the other way, since a variable in the place of an index makes no
application one of an abstraction. Both round trips then are a matter of what becomes of one leaf:
closing first needs the term to be in scope, opening first needs new and different variables.
-/
namespace ProofCore.Term

/-- What closing the variables `xs`, the first at index zero, makes of a leaf under `depth`
binders. -/
def closedLeaf (xs : List Var) (depth : ℕ) : Term → Term
  | .free y => if y ∈ xs then .bound (depth + xs.idxOf y) else .free y
  | t => t

/-- What opening with `args`, the first at index zero, makes of a leaf under `depth` binders. -/
def openedLeaf (args : List Term) (depth : ℕ) : Term → Term
  | .bound index => lookupFrom depth args index
  | t => t

section Closing

variable {xs : List Var} {depth : ℕ} {t : Term}

theorem closedLeaf_eq_self (h : ∀ x ∈ xs, t ≠ .free x) : closedLeaf xs depth t = t := by
  cases t with
  | free y => exact if_neg fun hy => h y hy rfl
  | _ => rfl

theorem isLeaf_closedLeaf (h : t.isLeaf = true) : (closedLeaf xs depth t).isLeaf = true := by
  cases t with
  | free y =>
    rw [closedLeaf]
    split <;> rfl
  | _ => exact h

/-- Where a variable is closed first, the places of the others move on by one. -/
theorem closedLeaf_cons (x : Var) (h : t.isLeaf = true) :
    (closedLeaf [x] depth t).mapLeaves (closedLeaf xs) (depth + 1) =
      closedLeaf (x :: xs) depth t := by
  rw [mapLeaves_of_isLeaf (isLeaf_closedLeaf h)]
  cases t with
  | free y =>
    by_cases hy : y = x
    · simp [closedLeaf, hy]
    · have hplace : (x :: xs).idxOf y = xs.idxOf y + 1 := List.idxOf_cons_ne xs (Ne.symm hy)
      simp only [closedLeaf, List.mem_cons, hy, List.not_mem_nil, or_false, false_or, if_false,
        hplace, Nat.add_assoc, Nat.add_comm 1]
  | _ => rfl

theorem bindAt_eq_mapLeaves (x : Var) (depth : ℕ) (t : Term) :
    t.bindAt x depth = t.mapLeaves (closedLeaf [x]) depth := by
  induction t using childrenInduction generalizing depth with
  | step t ih =>
    by_cases ht : t = .free x
    · subst ht
      simp [bindAt, mapLeaves, closedLeaf]
    · rw [bindAt_eq_mapChildren depth ht]
      cases hleaf : t.isLeaf with
      | true =>
        rw [mapChildren_of_isLeaf hleaf, mapLeaves_of_isLeaf hleaf,
          closedLeaf_eq_self (by simpa using ht)]
      | false =>
        rw [mapLeaves_of_not_isLeaf hleaf]
        exact mapChildren_congr fun c hc => ih c hc (depth + c.1)

/-- Closing variables one after the other is replacing all leaves at once. -/
theorem bindFrom_eq_mapLeaves (xs : List Var) (start : ℕ) (t : Term) :
    t.bindFrom start xs = t.mapLeaves (closedLeaf xs) start := by
  induction xs generalizing start t with
  | nil =>
    rw [bindFrom, mapLeaves_eq_self]
    exact fun o _ _ => closedLeaf_eq_self (by simp)
  | cons x xs ih =>
    rw [bindFrom, ih, bindAt_eq_mapLeaves, mapLeaves_mapLeaves]
    exact mapLeaves_congr fun depth u hleaf => closedLeaf_cons x hleaf

theorem bindTelescope_eq_mapLeaves (xs : List Var) (t : Term) :
    t.bindTelescope xs = t.mapLeaves (closedLeaf xs.reverse) 0 :=
  bindFrom_eq_mapLeaves xs.reverse 0 t

/-- A closed leaf has no index beyond the places of the variables. -/
theorem wellScoped_closed (xs : List Var) (h : t.wellScoped depth = true) :
    (t.mapLeaves (closedLeaf xs) depth).wellScoped (depth + xs.length) = true := by
  refine wellScoped_iff_loose.mpr fun i hi => ?_
  obtain ⟨⟨d, w⟩, ho, hleaf, hi⟩ := mem_looseIndices_mapLeaves.mp hi
  cases w with
  | bound index =>
    have hindex : i + d = index := mem_looseIndices_bound.mp hi
    have hlt := lt_of_occurs h ho
    omega
  | free y =>
    by_cases hy : y ∈ xs
    · have hindex : i + d = depth + d + xs.idxOf y := by
        rw [closedLeaf, if_pos hy] at hi
        exact mem_looseIndices_bound.mp hi
      have hlt := List.idxOf_lt_length_of_mem hy
      omega
    · rw [closedLeaf, if_neg hy] at hi
      cases hi
  | numeral | hole | sort => cases hi
  | _ => cases hleaf

end Closing

section Opening

variable {f : ℕ → Term → Term} {args : List Term} {start depth : ℕ} {t : Term}

theorem form_mapLeaves_ne (hf : ∀ d u, u.isLeaf = true → (f d u).isLeaf = true)
    (h : t.form ≠ .abstraction) : (t.mapLeaves f depth).form ≠ .abstraction := by
  cases hleaf : t.isLeaf with
  | true =>
    rw [mapLeaves_of_isLeaf hleaf]
    exact (form_ne_of_isLeaf (hf depth t hleaf)).1
  | false => rwa [mapLeaves_of_not_isLeaf hleaf, form_mapChildren]

/-- Other leaves in the place of leaves make nothing to contract. -/
theorem Contracted.mapLeaves (h : t.Contracted)
    (hf : ∀ d u, u.isLeaf = true → (f d u).isLeaf = true) :
    (t.mapLeaves f depth).Contracted := by
  induction t using childrenInduction generalizing depth with
  | step t ih =>
    cases hleaf : t.isLeaf with
    | true =>
      rw [mapLeaves_of_isLeaf hleaf]
      exact contracted_of_isLeaf (hf depth t hleaf)
    | false =>
      rw [mapLeaves_of_not_isLeaf hleaf]
      by_cases happ : t.form = .application
      · cases t with
        | app fn arg =>
          obtain ⟨hform, hfn, harg⟩ := contracted_app.mp h
          exact contracted_app.mpr ⟨form_mapLeaves_ne hf hform,
            ih (0, fn) (by simp [children]) hfn, ih (0, arg) (by simp [children]) harg⟩
        | _ => cases happ
      · rw [contracted_of_form (by rwa [form_mapChildren]), children_mapChildren,
          List.forall_mem_map]
        exact fun c hc => ih c hc (h.child hc)

theorem openedLeaf_nil : openedLeaf [] depth t = t := by
  cases t with
  | bound index => simp [openedLeaf, lookupFrom]
  | _ => rfl

theorem isLeaf_openedLeaf (hargs : ∀ arg ∈ args, arg.isLeaf = true) (h : t.isLeaf = true) :
    (openedLeaf args depth t).isLeaf = true := by
  cases t with
  | bound index => exact lookupFrom_of_forall (P := fun u => u.isLeaf = true) rfl hargs
  | _ => exact h

/-- A contracted term is opened leaf by leaf if the arguments are leaves: no application comes to
have an abstraction for its function. -/
theorem Contracted.opens (h : t.Contracted) (hargs : ∀ arg ∈ args, arg.isLeaf = true) :
    Opens start args t (t.mapLeaves (openedLeaf args) start) := by
  by_cases hsome : args = []
  · subst hsome
    rw [mapLeaves_eq_self fun o _ _ => openedLeaf_nil]
    exact .closed
  induction t using childrenInduction generalizing start with
  | step t ih =>
    cases hleaf : t.isLeaf with
    | true =>
      rw [mapLeaves_of_isLeaf hleaf]
      cases t with
      | bound index => exact .bound hsome
      | free | numeral | hole | sort => exact .of_isLeaf rfl rfl
      | _ => cases hleaf
    | false =>
      rw [mapLeaves_of_not_isLeaf hleaf]
      by_cases happ : t.form = .application
      · cases t with
        | app fn arg =>
          obtain ⟨hform, hfn, harg⟩ := contracted_app.mp h
          -- the function was no abstraction, and leaves for leaves do not make it one
          have hstuck : (fn.mapLeaves (openedLeaf args) start).form ≠ .abstraction :=
            form_mapLeaves_ne (fun d u hu => isLeaf_openedLeaf hargs hu) hform
          exact .app hsome (ih (0, fn) (by simp [children]) hfn)
            (ih (0, arg) (by simp [children]) harg) hstuck
        | _ => cases happ
      · have hvar : t.form ≠ .variable := by
          cases t <;> simp [form, isLeaf] at hleaf ⊢
        exact .node _ hsome hvar happ fun c hc => ih c hc (h.child hc)

end Opening

section RoundTrips

variable {xs : List Var} {depth index : ℕ} {t : Term}

theorem lookupFrom_of_lt {args : List Term} (h : index < depth) :
    lookupFrom depth args index = .bound index := if_pos h

theorem lookupFrom_free (h : index < xs.length) :
    lookupFrom depth (xs.map .free) (depth + index) = .free xs[index] := by
  simp [lookupFrom, h]

/-- With a variable for each index nothing points past the binders of an opened term. -/
theorem wellScoped_opened (h : t.wellScoped (depth + xs.length) = true) :
    (t.mapLeaves (openedLeaf (xs.map .free)) depth).wellScoped depth = true := by
  refine wellScoped_iff_loose.mpr fun i hi => ?_
  obtain ⟨⟨d, w⟩, ho, hleaf, hi⟩ := mem_looseIndices_mapLeaves.mp hi
  cases w with
  | bound index =>
    have hlt := lt_of_occurs h ho
    by_cases hinside : index < depth + d
    · rw [openedLeaf, lookupFrom_of_lt hinside] at hi
      have hindex : i + d = index := mem_looseIndices_bound.mp hi
      omega
    · obtain ⟨place, rfl⟩ := Nat.exists_eq_add_of_le (Nat.le_of_not_lt hinside)
      rw [openedLeaf, lookupFrom_free (by omega)] at hi
      cases hi
  | free | numeral | hole | sort => cases hi
  | _ => cases hleaf

theorem isLeaf_of_mem_map_free {arg : Term} (h : arg ∈ xs.map Term.free) : arg.isLeaf = true := by
  obtain ⟨x, -, rfl⟩ := List.mem_map.mp h
  rfl

/-- A leaf in scope is closed and opened to itself. -/
theorem openedLeaf_closedLeaf (hleaf : t.isLeaf = true)
    (hscope : ∀ index, t = .bound index → index < depth) :
    (closedLeaf xs depth t).mapLeaves (openedLeaf (xs.map .free)) depth = t := by
  rw [mapLeaves_of_isLeaf (isLeaf_closedLeaf hleaf)]
  cases t with
  | bound index => exact lookupFrom_of_lt (hscope index rfl)
  | free y =>
    by_cases hy : y ∈ xs
    · rw [closedLeaf, if_pos hy, openedLeaf,
        lookupFrom_free (List.idxOf_lt_length_of_mem hy), List.getElem_idxOf]
    · rw [closedLeaf, if_neg hy, openedLeaf]
      simp
  | _ => rfl

/-- A leaf is opened and closed to itself, with variables that differ from each other and from
it. -/
theorem closedLeaf_openedLeaf (hnodup : xs.Nodup) (hleaf : t.isLeaf = true)
    (hfresh : ∀ x ∈ xs, t ≠ .free x)
    (hscope : ∀ index, t = .bound index → index < depth + xs.length) :
    (openedLeaf (xs.map .free) depth t).mapLeaves (closedLeaf xs) depth = t := by
  rw [mapLeaves_of_isLeaf (isLeaf_openedLeaf (fun _ => isLeaf_of_mem_map_free) hleaf)]
  cases t with
  | bound index =>
    by_cases hlt : index < depth
    · rw [openedLeaf, lookupFrom_of_lt hlt, closedLeaf]
      simp
    · obtain ⟨place, rfl⟩ := Nat.exists_eq_add_of_le (Nat.le_of_not_lt hlt)
      have hplace : place < xs.length := by
        have hindex := hscope _ rfl
        omega
      -- no variable comes twice, so the one at this place has no earlier one
      rw [openedLeaf, lookupFrom_free hplace, closedLeaf, if_pos (List.getElem_mem hplace),
        hnodup.idxOf_getElem]
  | free y => exact closedLeaf_eq_self hfresh
  | _ => rfl

/-- What a telescope of variables opens a contracted term to, with nested calls enough. -/
theorem Contracted.eventually_instantiateVars (h : t.Contracted) (xs : List Var) :
    ∀ᶠ stack in Filter.atTop, t.instantiateVars stack xs =
      some (t.mapLeaves (openedLeaf (xs.reverse.map .free)) 0) := by
  have hopens : Opens 0 (xs.reverse.map .free) t _ := h.opens fun _ => isLeaf_of_mem_map_free
  filter_upwards [hopens.eventually] with stack hstack
  rw [instantiateVars, instantiateTelescope, ← List.map_reverse]
  exact hstack

/-- A contracted term in scope is closed over any telescope of variables, repeated or not and
occurring or not, and opened again to itself. The closed term has indices for the variables, so none
of these is free in it. -/
theorem instantiateVars_bindTelescope (xs : List Var) (ht : t.wellScoped 0 = true)
    (hredex : t.Contracted) :
    (t.bindTelescope xs).wellScoped xs.length = true ∧
      (∀ y, y ∈ (t.bindTelescope xs).freeVars ↔ y ∈ t.freeVars ∧ y ∉ xs) ∧
      ∀ᶠ stack in Filter.atTop, (t.bindTelescope xs).instantiateVars stack xs = some t := by
  refine ⟨?_, fun y => mem_freeVars_bindTelescope, ?_⟩ <;> rw [bindTelescope_eq_mapLeaves]
  · have hscope := wellScoped_closed xs.reverse ht
    rwa [List.length_reverse, Nat.zero_add] at hscope
  · have hclosed : (t.mapLeaves (closedLeaf xs.reverse) 0).Contracted :=
      hredex.mapLeaves fun d u hu => isLeaf_closedLeaf hu
    have hback : (t.mapLeaves (closedLeaf xs.reverse) 0).mapLeaves
        (openedLeaf (xs.reverse.map .free)) 0 = t := by
      rw [mapLeaves_mapLeaves _ _ 0 0, mapLeaves_eq_self]
      rintro ⟨d, w⟩ ho hleaf
      refine openedLeaf_closedLeaf hleaf ?_
      rintro index rfl
      have hlt := lt_of_occurs ht ho
      omega
    have hopened := hclosed.eventually_instantiateVars xs
    rwa [hback] at hopened

/-- A function that mentions two of the variables is closed over a telescope in which one of them
comes twice and another does not occur. -/
theorem instantiateVars_bindTelescope_repeated :
    let a : Var := ⟨.supplied 0, "a"⟩
    let b : Var := ⟨.supplied 1, "b"⟩
    let c : Term := .free ⟨.supplied 2, "c"⟩
    let xs : List Var := [a, b, a, ⟨.supplied 3, "d"⟩]
    let t : Term := .lam (.app (.app (.free a) (.bound 0)) (.tuple [.free b, c]))
    t.bindTelescope xs = .lam (.app (.app (.bound 2) (.bound 0)) (.tuple [.bound 3, c])) ∧
      (t.bindTelescope xs).wellScoped 4 = true ∧
      ∃ stack, (t.bindTelescope xs).instantiateVars stack xs = some t := by
  intro a b c xs t
  have htrip := instantiateVars_bindTelescope (t := t) xs (by decide) (by decide)
  exact ⟨by decide +kernel, htrip.1, htrip.2.2.exists⟩

/-- A contracted term is opened with new variables, no two the same, to a term in scope, and this
is closed over them again to the term. -/
theorem bindTelescope_instantiateVars (ht : t.wellScoped xs.length = true)
    (hredex : t.Contracted) (hnodup : xs.Nodup) (hfresh : ∀ x ∈ xs, x ∉ t.freeVars) :
    ∃ u, (∀ᶠ stack in Filter.atTop, t.instantiateVars stack xs = some u) ∧
      u.wellScoped 0 = true ∧ u.bindTelescope xs = t := by
  refine ⟨_, hredex.eventually_instantiateVars xs, wellScoped_opened ?_, ?_⟩
  · rwa [List.length_reverse, Nat.zero_add]
  · rw [bindTelescope_eq_mapLeaves, mapLeaves_mapLeaves _ _ 0 0, mapLeaves_eq_self]
    rintro ⟨d, w⟩ ho hleaf
    refine closedLeaf_openedLeaf (List.nodup_reverse.mpr hnodup) hleaf ?_ ?_
    · intro x hx
      exact notMem_freeVars_iff.mp (hfresh x (List.mem_reverse.mp hx)) (d, w) ho
    · rintro index rfl
      have hlt := lt_of_occurs ht ho
      rw [List.length_reverse]
      omega

/-- A function of two parameters applies the first of them to its own variable. -/
theorem bindTelescope_instantiateVars_applied :
    let a : Var := ⟨.supplied 0, "a"⟩
    let b : Var := ⟨.supplied 1, "b"⟩
    let c : Var := ⟨.supplied 2, "c"⟩
    let t : Term := .lam (.app (.app (.bound 2) (.bound 0)) (.tuple [.bound 1, .free c]))
    t.freeVars = [c] ∧ ∃ u, (∃ stack, t.instantiateVars stack [a, b] = some u) ∧
      u.wellScoped 0 = true ∧ u.bindTelescope [a, b] = t := by
  intro a b c t
  have hnodup : [a, b].Nodup := by decide
  have hfresh : ∀ x ∈ [a, b], x ∉ t.freeVars := by decide
  obtain ⟨u, hu, hscope, hback⟩ := bindTelescope_instantiateVars (by decide) (by decide) hnodup
    hfresh
  exact ⟨by decide, u, hu.exists, hscope, hback⟩

end RoundTrips

end ProofCore.Term
