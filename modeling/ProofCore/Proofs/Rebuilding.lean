import ProofCore.Proofs.TermParts

/-!
# Rebuilding terms

A term is rebuilt from its parts, possibly with effects, or by putting something else in the place
of its leaves, the subterms that have no parts of their own. Replacing variables, moving indices
and writing out numerals are all of this second kind.
-/
namespace ProofCore.Term

section Rebuilding

variable {f g : ℕ → Term → Term} {t u : Term}

theorem form_mapChildren (f : ℕ → Term → Term) (t : Term) : (t.mapChildren f).form = t.form := by
  cases t <;> rfl

theorem children_mapChildren (f : ℕ → Term → Term) (t : Term) :
    (t.mapChildren f).children = t.children.map fun c => (c.1, f c.1 c.2) := by
  cases t <;> simp [mapChildren, children, Function.comp_def]

theorem mapChildren_mapChildren (f g : ℕ → Term → Term) (t : Term) :
    (t.mapChildren f).mapChildren g = t.mapChildren fun b c => g b (f b c) := by
  cases t <;> simp [mapChildren]

theorem mapChildren_congr (h : ∀ c ∈ t.children, f c.1 c.2 = g c.1 c.2) :
    t.mapChildren f = t.mapChildren g := by
  cases t <;> simp_all [mapChildren, children, or_imp, forall_and]

theorem mapChildren_eq_self (h : ∀ c ∈ t.children, f c.1 c.2 = c.2) : t.mapChildren f = t := by
  have hsame : t.mapChildren (fun _ c => c) = t := by cases t <;> simp [mapChildren]
  rw [mapChildren_congr (g := fun _ c => c) h, hsame]

theorem mapM_eq_some {α : Type} {g : α → Option α} {ts us : List α} (h : ts.mapM g = some us) :
    (∀ t ∈ ts, g t = some ((g t).getD t)) ∧ us = ts.map fun t => (g t).getD t := by
  induction ts generalizing us with
  | nil =>
    cases h
    simp
  | cons t ts ih =>
    rw [List.mapM_cons] at h
    obtain ⟨w, hw, h⟩ := Option.bind_eq_some_iff.mp h
    obtain ⟨ws, hws, h⟩ := Option.bind_eq_some_iff.mp h
    cases h
    obtain ⟨hrest, rfl⟩ := ih hws
    exact ⟨List.forall_mem_cons.mpr ⟨by simp [hw], hrest⟩, by simp [hw]⟩

theorem mapM_of_forall {α : Type} {g : α → Option α} {f : α → α} {ts : List α}
    (h : ∀ t ∈ ts, g t = some (f t)) : ts.mapM g = some (ts.map f) := by
  induction ts with
  | nil => rfl
  | cons t ts ih =>
    rw [List.mapM_cons, h t (by simp), ih fun t ht => h t (by simp [ht])]
    rfl

/-- A term can be rebuilt if all its parts can. -/
theorem mapChildrenM_of_forall {g : ℕ → Term → Option Term}
    (h : ∀ c ∈ t.children, g c.1 c.2 = some (f c.1 c.2)) :
    t.mapChildrenM g = some (t.mapChildren f) := by
  have hlist : ∀ ts : List Term, (∀ u ∈ ts, (0, u) ∈ t.children) →
      ts.mapM (g 0) = some (ts.map (f 0)) := fun ts hts =>
    mapM_of_forall fun u hu => h (0, u) (hts u hu)
  cases t with
  | lam body => simp [mapChildrenM, mapChildren, h (1, body) (by simp [children])]
  | app fn arg | pathApp fn arg =>
    simp [mapChildrenM, mapChildren, h (0, fn) (by simp [children]),
      h (0, arg) (by simp [children])]
  | proj whole index => simp [mapChildrenM, mapChildren, h (0, whole) (by simp [children])]
  | tuple items => simp [mapChildrenM, mapChildren, hlist items (by simp [children])]
  | fnCall _ _ args | dataCall _ _ args =>
    simp [mapChildrenM, mapChildren, hlist args (by simp [children])]
  | conCall data con lift dataArgs args =>
    have hdata := hlist dataArgs fun u hu => by simp [children, hu]
    have hargs := hlist args fun u hu => by simp [children, hu]
    simp [mapChildrenM, mapChildren, hdata, hargs]
  | _ => rfl

theorem exists_of_mapChildrenM {g : ℕ → Term → Option Term} (h : t.mapChildrenM g = some u) :
    ∃ f, (∀ c ∈ t.children, g c.1 c.2 = some (f c.1 c.2)) ∧ u = t.mapChildren f := by
  have hdefined : ∀ c ∈ t.children, g c.1 c.2 = some ((g c.1 c.2).getD c.2) := by
    cases t with
    | lam body =>
      obtain ⟨w, hw, -⟩ := Option.bind_eq_some_iff.mp h
      simp [children, hw]
    | app fn arg | pathApp fn arg =>
      obtain ⟨w, hw, h⟩ := Option.bind_eq_some_iff.mp h
      obtain ⟨v, hv, -⟩ := Option.bind_eq_some_iff.mp h
      simp [children, hw, hv]
    | proj whole index =>
      obtain ⟨w, hw, -⟩ := Option.bind_eq_some_iff.mp h
      simp [children, hw]
    | tuple items | fnCall _ _ items | dataCall _ _ items =>
      obtain ⟨ws, hws, -⟩ := Option.bind_eq_some_iff.mp h
      simpa [children] using (mapM_eq_some hws).1
    | conCall data con lift dataArgs args =>
      obtain ⟨ws, hws, h⟩ := Option.bind_eq_some_iff.mp h
      obtain ⟨vs, hvs, -⟩ := Option.bind_eq_some_iff.mp h
      simpa [children, or_imp, forall_and] using ⟨(mapM_eq_some hws).1, (mapM_eq_some hvs).1⟩
    | _ => simp [children]
  refine ⟨fun b c => (g b c).getD c, hdefined, ?_⟩
  exact Option.some.inj (h.symm.trans (mapChildrenM_of_forall hdefined))

end Rebuilding

/-- A property holds of a term and of all its subterms. -/
def Everywhere (Q : Term → Prop) (t : Term) : Prop := ∀ o ∈ t.occurrences 0, Q o.2

instance {Q : Term → Prop} [DecidablePred Q] (t : Term) : Decidable (t.Everywhere Q) :=
  inferInstanceAs (Decidable (∀ o ∈ t.occurrences 0, Q o.2))

theorem everywhere_iff {Q : Term → Prop} {t : Term} :
    t.Everywhere Q ↔ Q t ∧ ∀ c ∈ t.children, c.2.Everywhere Q := by
  have hdepth : ∀ depth (u : Term), (∀ o ∈ u.occurrences depth, Q o.2) ↔ u.Everywhere Q := by
    intro depth u
    have hmap : ∀ d, (∀ o ∈ u.occurrences d, Q o.2) ↔ ∀ w ∈ (u.occurrences d).map Prod.snd, Q w :=
      fun d => List.forall_mem_map.symm
    rw [Everywhere, hmap, hmap, map_snd_occurrences]
  rw [Everywhere, occurrences_eq_cons, List.forall_mem_cons, List.forall_mem_flatMap]
  exact and_congr_right fun _ => forall₂_congr fun c _ => hdepth _ c.2

theorem Everywhere.head {Q : Term → Prop} {t : Term} (h : t.Everywhere Q) : Q t :=
  (everywhere_iff.mp h).1

theorem Everywhere.child {Q : Term → Prop} {t : Term} {c : ℕ × Term} (h : t.Everywhere Q)
    (hc : c ∈ t.children) : c.2.Everywhere Q := (everywhere_iff.mp h).2 c hc

/-- Whether a term is of a kind that has no parts. -/
def isLeaf : Term → Bool
  | .free _ | .bound _ | .numeral _ _ | .hole _ | .sort _ => true
  | _ => false

mutual

/-- Replaces each leaf `t` under `d` binders by `f d t`, where `depth` binders surround the term. -/
def mapLeaves (f : ℕ → Term → Term) (depth : ℕ) : Term → Term
  | .lam body => .lam (body.mapLeaves f (depth + 1))
  | .app fn arg => .app (fn.mapLeaves f depth) (arg.mapLeaves f depth)
  | .tuple items => .tuple (mapLeavesList f depth items)
  | .proj whole index => .proj (whole.mapLeaves f depth) index
  | .pathApp fn arg => .pathApp (fn.mapLeaves f depth) (arg.mapLeaves f depth)
  | .fnCall fn lift args => .fnCall fn lift (mapLeavesList f depth args)
  | .dataCall data lift args => .dataCall data lift (mapLeavesList f depth args)
  | .conCall data con lift dataArgs args =>
    .conCall data con lift (mapLeavesList f depth dataArgs) (mapLeavesList f depth args)
  | .free x => f depth (.free x)
  | .bound index => f depth (.bound index)
  | .numeral value shape => f depth (.numeral value shape)
  | .hole pattern => f depth (.hole pattern)
  | .sort level => f depth (.sort level)

def mapLeavesList (f : ℕ → Term → Term) (depth : ℕ) : List Term → List Term
  | [] => []
  | t :: ts => t.mapLeaves f depth :: mapLeavesList f depth ts

end

section Leaves

variable {f g : ℕ → Term → Term} {depth : ℕ} {t : Term}

@[simp] theorem mapLeavesList_eq_map (f : ℕ → Term → Term) (depth : ℕ) (ts : List Term) :
    mapLeavesList f depth ts = ts.map (mapLeaves f depth) := by
  induction ts with
  | nil => rfl
  | cons t ts ih => simp [mapLeavesList, ih]

theorem children_of_isLeaf (h : t.isLeaf = true) : t.children = [] := by
  cases t <;> first | rfl | cases h

theorem mapChildren_of_isLeaf (h : t.isLeaf = true) (f : ℕ → Term → Term) :
    t.mapChildren f = t := mapChildren_eq_self (by simp [children_of_isLeaf h])

@[simp] theorem isLeaf_mapChildren (f : ℕ → Term → Term) (t : Term) :
    (t.mapChildren f).isLeaf = t.isLeaf := by
  cases t <;> rfl

theorem mapLeaves_of_isLeaf (h : t.isLeaf = true) : t.mapLeaves f depth = f depth t := by
  cases t <;> simp_all [isLeaf, mapLeaves]

/-- Replacing the leaves of a compound term is done in each of its parts. -/
theorem mapLeaves_of_not_isLeaf (h : t.isLeaf = false) :
    t.mapLeaves f depth = t.mapChildren fun binders c => c.mapLeaves f (depth + binders) := by
  cases t <;> simp_all [isLeaf, mapLeaves, mapChildren]

theorem mapLeaves_congr (h : ∀ d u, u.isLeaf = true → f d u = g d u) :
    t.mapLeaves f depth = t.mapLeaves g depth := by
  induction t using childrenInduction generalizing depth with
  | step t ih =>
    cases hleaf : t.isLeaf with
    | true => rw [mapLeaves_of_isLeaf hleaf, mapLeaves_of_isLeaf hleaf, h depth t hleaf]
    | false =>
      rw [mapLeaves_of_not_isLeaf hleaf, mapLeaves_of_not_isLeaf hleaf]
      exact mapChildren_congr fun c hc => ih c hc

/-- Replacing leaves twice is done leaf by leaf; the second time `k` more binders may surround the
term. -/
theorem mapLeaves_mapLeaves (f g : ℕ → Term → Term) (depth k : ℕ) (t : Term) :
    (t.mapLeaves f depth).mapLeaves g (depth + k) =
      t.mapLeaves (fun d u => (f d u).mapLeaves g (d + k)) depth := by
  induction t using childrenInduction generalizing depth with
  | step t ih =>
    cases hleaf : t.isLeaf with
    | true => rw [mapLeaves_of_isLeaf hleaf, mapLeaves_of_isLeaf hleaf]
    | false =>
      rw [mapLeaves_of_not_isLeaf hleaf, mapLeaves_of_not_isLeaf hleaf,
        mapLeaves_of_not_isLeaf (by simpa using hleaf), mapChildren_mapChildren]
      refine mapChildren_congr fun c hc => ?_
      rw [Nat.add_right_comm, ih c hc]

end Leaves

end ProofCore.Term
