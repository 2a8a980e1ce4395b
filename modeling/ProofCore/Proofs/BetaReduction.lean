import ProofCore.Proofs.Rebuilding
import ProofCore.Proofs.Scoping

/-!
# Substitution and beta-reduction

The substitution that opening a term is meant for: all loose indices are accounted for, those that
stand for arguments are replaced by these, lifted past the binders in between, and those beyond are
lowered. With it beta-reduction is defined, and it brings in no loose index. Opening a term, which
neither lifts nor lowers an index where it contracts an application, may do so.
-/
namespace ProofCore.Term

/-- The indices that point past all binders of a term, as they read outside of it. -/
def looseIndices (t : Term) : List ℕ := (t.occurrences 0).filterMap fun
  | (d, .bound index) => if d ≤ index then some (index - d) else none
  | _ => none

section Loose

variable {t : Term} {i : ℕ}

theorem occurrences_add (depth k : ℕ) (t : Term) :
    t.occurrences (depth + k) = (t.occurrences depth).map fun o => (o.1 + k, o.2) := by
  induction t using childrenInduction generalizing depth with
  | step t ih =>
    rw [occurrences_eq_cons, occurrences_eq_cons depth, List.map_cons, List.map_flatMap]
    congr 1
    refine List.flatMap_congr fun c hc => ?_
    rw [Nat.add_right_comm, ih c hc]

theorem mem_occurrences_iff {d : ℕ} {u : Term} :
    (d, u) ∈ t.occurrences 0 ↔
      d = 0 ∧ u = t ∨ ∃ c ∈ t.children, c.1 ≤ d ∧ (d - c.1, u) ∈ c.2.occurrences 0 := by
  rw [occurrences_eq_cons, List.mem_cons, List.mem_flatMap]
  refine or_congr Prod.mk_inj (exists_congr fun c => and_congr_right fun _ => ?_)
  rw [occurrences_add, List.mem_map]
  constructor
  · rintro ⟨⟨e, w⟩, ho, heq⟩
    obtain ⟨rfl, rfl⟩ := Prod.mk.inj heq
    exact ⟨by omega, by simpa using ho⟩
  · rintro ⟨hle, ho⟩
    exact ⟨_, ho, by simp; omega⟩

theorem mem_looseIndices_iff_occurs :
    i ∈ t.looseIndices ↔ ∃ d, (d, .bound (i + d)) ∈ t.occurrences 0 := by
  rw [looseIndices, List.mem_filterMap]
  constructor
  · rintro ⟨⟨d, u⟩, ho, h⟩
    cases u with
    | bound index =>
      simp only [Option.ite_none_right_eq_some, Option.some.injEq] at h
      obtain ⟨hle, rfl⟩ := h
      exact ⟨d, by rwa [Nat.sub_add_cancel hle]⟩
    | _ => cases h
  · rintro ⟨d, ho⟩
    exact ⟨_, ho, by simp⟩

/-- The loose indices of a term are those of its parts that point past the binders in between. -/
theorem mem_looseIndices : i ∈ t.looseIndices ↔
    t = .bound i ∨ ∃ c ∈ t.children, i + c.1 ∈ c.2.looseIndices := by
  simp only [mem_looseIndices_iff_occurs]
  constructor
  · rintro ⟨d, hd⟩
    rcases mem_occurrences_iff.mp hd with ⟨rfl, hu⟩ | ⟨c, hc, hle, ho⟩
    · exact .inl hu.symm
    · refine .inr ⟨c, hc, d - c.1, ?_⟩
      rwa [show i + c.1 + (d - c.1) = i + d by omega]
  · rintro (rfl | ⟨c, hc, d, hd⟩)
    · exact ⟨0, mem_occurrences_iff.mpr (.inl ⟨rfl, rfl⟩)⟩
    · refine ⟨d + c.1, mem_occurrences_iff.mpr (.inr ⟨c, hc, by omega, ?_⟩)⟩
      rwa [Nat.add_sub_cancel, show i + (d + c.1) = i + c.1 + d by omega]

theorem mem_looseIndices_of_child {c : ℕ × Term} (hc : c ∈ t.children)
    (h : i + c.1 ∈ c.2.looseIndices) : i ∈ t.looseIndices :=
  mem_looseIndices.mpr (.inr ⟨c, hc, h⟩)

theorem mem_looseIndices_mapChildren {f : ℕ → Term → Term} (h : t.isLeaf = false) :
    i ∈ (t.mapChildren f).looseIndices ↔
      ∃ c ∈ t.children, i + c.1 ∈ (f c.1 c.2).looseIndices := by
  have hvar : t.mapChildren f ≠ .bound i := by
    intro hbound
    have hleaf := isLeaf_mapChildren f t
    rw [hbound, h] at hleaf
    cases hleaf
  rw [mem_looseIndices, children_mapChildren]
  simp [hvar]

theorem mem_looseIndices_bound {index : ℕ} : i ∈ (Term.bound index).looseIndices ↔ i = index := by
  rw [mem_looseIndices]
  simp [children, eq_comm]

theorem mem_looseIndices_app {fn arg : Term} : i ∈ (Term.app fn arg).looseIndices ↔
    i ∈ fn.looseIndices ∨ i ∈ arg.looseIndices := by
  simp [mem_looseIndices (t := .app fn arg), children]

theorem mem_looseIndices_lam {body : Term} :
    i ∈ (Term.lam body).looseIndices ↔ i + 1 ∈ body.looseIndices := by
  simp [mem_looseIndices (t := .lam body), children]

theorem wellScoped_iff_loose {depth : ℕ} :
    t.wellScoped depth = true ↔ ∀ i ∈ t.looseIndices, i < depth := by
  induction t using childrenInduction generalizing depth with
  | step t ih =>
    rw [wellScoped_iff]
    constructor
    · rintro ⟨hvar, hchild⟩ i hi
      rcases mem_looseIndices.mp hi with rfl | ⟨c, hc, hi⟩
      · exact hvar i rfl
      · have hlt := (ih c hc).mp (hchild c hc) _ hi
        omega
    · intro h
      refine ⟨fun index ht => h index (mem_looseIndices.mpr (.inl ht)), fun c hc => ?_⟩
      refine (ih c hc).mpr fun i hi => ?_
      by_cases hle : c.1 ≤ i
      · have hlt := h (i - c.1) (mem_looseIndices_of_child hc (by rwa [Nat.sub_add_cancel hle]))
        omega
      · omega

theorem isLeaf_occurrences (h : t.isLeaf = true) (depth : ℕ) :
    t.occurrences depth = [(depth, t)] := by
  rw [occurrences_eq_cons, children_of_isLeaf h]
  rfl

/-- The loose indices of a term with other leaves are those of these. -/
theorem mem_looseIndices_mapLeaves {f : ℕ → Term → Term} {depth : ℕ} :
    i ∈ (t.mapLeaves f depth).looseIndices ↔ ∃ o ∈ t.occurrences 0, o.2.isLeaf = true ∧
      i + o.1 ∈ (f (depth + o.1) o.2).looseIndices := by
  induction t using childrenInduction generalizing depth i with
  | step t ih =>
    cases hleaf : t.isLeaf with
    | true =>
      rw [mapLeaves_of_isLeaf hleaf, isLeaf_occurrences hleaf]
      simp [hleaf]
    | false =>
      rw [mapLeaves_of_not_isLeaf hleaf, mem_looseIndices_mapChildren hleaf]
      constructor
      · rintro ⟨c, hc, hi⟩
        obtain ⟨⟨e, w⟩, ho, hw, hi⟩ := (ih c hc).mp hi
        refine ⟨(e + c.1, w), mem_occurrences_iff.mpr (.inr ⟨c, hc, by omega, ?_⟩), hw, ?_⟩
        · simpa using ho
        · simpa [Nat.add_assoc, Nat.add_comm, Nat.add_left_comm] using hi
      · rintro ⟨⟨d, w⟩, ho, hw, hi⟩
        rcases mem_occurrences_iff.mp ho with ⟨rfl, rfl⟩ | ⟨c, hc, hle, ho⟩
        · rw [hleaf] at hw
          cases hw
        · refine ⟨c, hc, (ih c hc).mpr ⟨_, ho, hw, ?_⟩⟩
          have heq : d - c.1 + c.1 = d := by omega
          simpa [Nat.add_assoc, heq, Nat.add_comm c.1] using hi

theorem mapLeaves_eq_self {f : ℕ → Term → Term} {depth : ℕ}
    (h : ∀ o ∈ t.occurrences 0, o.2.isLeaf = true → f (depth + o.1) o.2 = o.2) :
    t.mapLeaves f depth = t := by
  induction t using childrenInduction generalizing depth with
  | step t ih =>
    cases hleaf : t.isLeaf with
    | true =>
      rw [mapLeaves_of_isLeaf hleaf]
      simpa using h (0, t) (mem_occurrences_iff.mpr (.inl ⟨rfl, rfl⟩)) hleaf
    | false =>
      rw [mapLeaves_of_not_isLeaf hleaf]
      refine mapChildren_eq_self fun c hc => ih c hc fun o ho hw => ?_
      have hmem : (o.1 + c.1, o.2) ∈ t.occurrences 0 :=
        mem_occurrences_iff.mpr (.inr ⟨c, hc, by omega, by simpa using ho⟩)
      simpa [Nat.add_assoc, Nat.add_comm c.1] using h _ hmem hw

end Loose

/-- Moves the loose indices of a term past `n` more binders. -/
def lifted (n : ℕ) (t : Term) : Term := t.mapLeaves (fun depth => fun
  | .bound index => .bound (if index < depth then index else index + n)
  | leaf => leaf) 0

/-- The simultaneous substitution of arguments for the first loose indices of a term, where these
indices begin at `depth`. The arguments are lifted past the binders they come to stand under, and
the other loose indices are lowered. -/
def filledFrom (args : List Term) (depth : ℕ) (t : Term) : Term := t.mapLeaves (fun depth => fun
  | .bound index =>
    if index < depth then .bound index
    else match args[index - depth]? with
      | some arg => arg.lifted depth
      | none => .bound (index - args.length)
  | leaf => leaf) depth

def filled (args : List Term) (t : Term) : Term := t.filledFrom args 0

/-- Reduction by any number of beta-steps anywhere in a term, except in holes: the least reflexive
and transitive relation that contracts applications of abstractions and passes from the parts of a
term to the term. -/
inductive Reduces : Term → Term → Prop
  | contract (body arg : Term) : Reduces (.app (.lam body) arg) (body.filled [arg])
  | refl (t : Term) : Reduces t t
  | trans {t u w : Term} (h : Reduces t u) (h' : Reduces u w) : Reduces t w
  | congr (t : Term) {f g : ℕ → Term → Term}
      (h : ∀ c ∈ t.children, Reduces (f c.1 c.2) (g c.1 c.2)) :
      Reduces (t.mapChildren f) (t.mapChildren g)

theorem Reduces.app {fn fn' arg arg' : Term} (hfn : Reduces fn fn') (harg : Reduces arg arg') :
    Reduces (.app fn arg) (.app fn' arg') := by
  refine .congr (.app (.sort 0) (.lam (.sort 0))) (f := fun _ c => cond c.isLeaf fn arg)
    (g := fun _ c => cond c.isLeaf fn' arg') ?_
  simpa [children, isLeaf] using ⟨hfn, harg⟩

section Scope

variable {t u : Term} {args : List Term} {depth i : ℕ}

theorem lt_of_occurs {d index : ℕ} (h : t.wellScoped depth = true)
    (ho : (d, .bound index) ∈ t.occurrences 0) : index < depth + d := by
  by_contra hle
  have hloose : index - d ∈ t.looseIndices :=
    mem_looseIndices_iff_occurs.mpr ⟨d, by rwa [Nat.sub_add_cancel (by omega)]⟩
  have hlt := wellScoped_iff_loose.mp h _ hloose
  omega

/-- A term without loose indices need not be lifted. -/
theorem lifted_eq_self (h : t.wellScoped 0 = true) (n : ℕ) : t.lifted n = t := by
  refine mapLeaves_eq_self fun o ho _ => ?_
  obtain ⟨d, w⟩ := o
  cases w with
  | bound index => simp only [lt_of_occurs h ho, if_true]
  | _ => rfl

/-- Substitution leaves a term as it is if no index is to be replaced. -/
theorem filledFrom_eq_self (h : t.wellScoped depth = true) : t.filledFrom args depth = t := by
  refine mapLeaves_eq_self fun o ho _ => ?_
  obtain ⟨d, w⟩ := o
  cases w with
  | bound index => simp only [lt_of_occurs h ho, if_true]
  | _ => rfl

theorem filledFrom_of_not_variable (h : t.form ≠ .variable) (args : List Term) (depth : ℕ) :
    t.filledFrom args depth = t.mapChildren fun b c => c.filledFrom args (depth + b) := by
  cases hleaf : t.isLeaf with
  | true =>
    rw [filledFrom, mapLeaves_of_isLeaf hleaf, mapChildren_of_isLeaf hleaf]
    cases t with
    | bound => exact (h rfl).elim
    | _ => rfl
  | false => exact mapLeaves_of_not_isLeaf hleaf

theorem filledFrom_app (args : List Term) (depth : ℕ) (fn arg : Term) :
    (Term.app fn arg).filledFrom args depth =
      .app (fn.filledFrom args depth) (arg.filledFrom args depth) := mapLeaves_of_not_isLeaf rfl

theorem filledFrom_bound (args : List Term) (depth index : ℕ) :
    (Term.bound index).filledFrom args depth = if index < depth then .bound index
      else match args[index - depth]? with
        | some arg => arg.lifted depth
        | none => .bound (index - args.length) := mapLeaves_of_isLeaf rfl

theorem loose_of_lifted {n : ℕ} (h : i ∈ (t.lifted n).looseIndices) :
    n ≤ i ∧ i - n ∈ t.looseIndices := by
  obtain ⟨⟨d, w⟩, ho, hleaf, hi⟩ := mem_looseIndices_mapLeaves.mp h
  cases w with
  | bound index =>
    simp only [mem_looseIndices_bound] at hi
    split at hi
    · omega
    · refine ⟨by omega, mem_looseIndices_iff_occurs.mpr ⟨d, ?_⟩⟩
      rwa [show i - n + d = index by omega]
  | free | numeral | hole | sort => cases hi
  | _ => cases hleaf

/-- Each loose index of a substitution comes from an argument or from the term. -/
theorem loose_of_filledFrom (h : i ∈ (t.filledFrom args depth).looseIndices) :
    (i < depth ∧ i ∈ t.looseIndices) ∨ (depth ≤ i ∧ ∃ arg ∈ args, i - depth ∈ arg.looseIndices) ∨
      (depth ≤ i ∧ i + args.length ∈ t.looseIndices) := by
  obtain ⟨⟨d, w⟩, ho, hleaf, hi⟩ := mem_looseIndices_mapLeaves.mp h
  cases w with
  | bound index =>
    simp only at hi
    split at hi
    · rw [mem_looseIndices_bound] at hi
      exact .inl ⟨by omega, mem_looseIndices_iff_occurs.mpr ⟨d, by rwa [hi]⟩⟩
    · split at hi
      · next arg harg =>
        obtain ⟨hle, hi⟩ := loose_of_lifted hi
        refine .inr (.inl ⟨by omega, arg, List.mem_of_getElem? harg, ?_⟩)
        rwa [show i - depth = i + d - (depth + d) by omega]
      · next hnone =>
        rw [mem_looseIndices_bound] at hi
        rw [List.getElem?_eq_none_iff] at hnone
        refine .inr (.inr ⟨by omega, mem_looseIndices_iff_occurs.mpr ⟨d, ?_⟩⟩)
        rwa [show i + args.length + d = index by omega]
  | free | numeral | hole | sort => cases hi
  | _ => cases hleaf

/-- Reduction brings in no loose index. -/
theorem Reduces.loose (h : Reduces t u) (hi : i ∈ u.looseIndices) : i ∈ t.looseIndices := by
  induction h generalizing i with
  | refl => exact hi
  | trans _ _ ih ih' => exact ih (ih' hi)
  | contract body arg =>
    rcases loose_of_filledFrom hi with ⟨hlt, -⟩ | ⟨-, a, ha, hloose⟩ | ⟨-, hloose⟩
    · omega
    · rw [List.mem_singleton.mp ha] at hloose
      exact mem_looseIndices_app.mpr (.inr hloose)
    · exact mem_looseIndices_app.mpr (.inl (mem_looseIndices_lam.mpr hloose))
  | @congr t f g _ ih =>
    cases hleaf : t.isLeaf with
    | true => rwa [mapChildren_of_isLeaf hleaf] at hi ⊢
    | false =>
      rw [mem_looseIndices_mapChildren hleaf] at hi ⊢
      obtain ⟨c, hc, hi⟩ := hi
      exact ⟨c, hc, ih c hc hi⟩

theorem Reduces.wellScoped (h : Reduces t u) (ht : t.wellScoped depth = true) :
    u.wellScoped depth = true :=
  wellScoped_iff_loose.mpr fun i hi => wellScoped_iff_loose.mp ht i (h.loose hi)

/-- Opening a term need not lead to what its substitution reduces to: where an application is
contracted under a binder, an index may come to point past all binders. -/
theorem exists_opened_not_reduct : ¬ ∀ (t : Term) (args : List Term) (stack : ℕ) (u : Term),
    t.wellScoped args.length = true → (∀ arg ∈ args, arg.wellScoped 0 = true) →
    t.instantiateAll stack args = some u → (t.filled args).Reduces u := by
  intro h
  have hreduces := h (.lam (.app (.bound 1) (.lam (.bound 1))))
    [.lam (.app (.bound 0) (.free ⟨.supplied 0, "z"⟩))] 6 (.lam (.bound 1)) (by decide) (by decide)
    (by decide +kernel)
  have hscoped : (Term.lam (.bound 1)).wellScoped 0 = true := hreduces.wellScoped (by decide)
  exact absurd hscoped (by decide)

end Scope

end ProofCore.Term
