import ProofCore.Proofs.EvaluationRules
import ProofCore.Proofs.WrittenOut

/-!
# Terms that differ in how numbers are written

Similar terms whose numerals are of certain shapes are twins. Twins have the same form and twins for
parts, show the same constructor, and open alike. If shapes of the same data type are the same, then
numerals that are twins are equal.
-/
namespace ProofCore

/-- Shapes of the same data type are the same. -/
def Coherent (S : NatShape → Prop) : Prop :=
  ∀ s s', S s → S s' → s.data = s'.data → s = s'

def Term.shape? : Term → Option NatShape
  | .numeral _ shape => some shape
  | _ => none

/-- The shapes of the numerals in a term. -/
def Term.shapes (t : Term) : List NatShape := (t.occurrences 0).filterMap fun o => o.2.shape?

mutual

/-- The shapes of the numerals that a pattern is matched with. -/
def Pattern.shapes : Pattern → List NatShape
  | .numeral _ shape => [shape]
  | .tuple items => listShapes items
  | .con _ _ _ _ args => listShapes args
  | .hole (some solution) _ _ => solution.shapes
  | .hole none _ _ | .absurd | .bind _ _ => []

def Pattern.listShapes : List Pattern → List NatShape
  | [] => []
  | p :: ps => p.shapes ++ listShapes ps

end

theorem Pattern.listShapes_eq_flatMap (ps : List Pattern) :
    listShapes ps = ps.flatMap shapes := by
  induction ps with
  | nil => rfl
  | cons p ps ih => simp [listShapes, ih]

/-- All shapes of a pattern are among the given ones. -/
def Pattern.ShapesIn (S : NatShape → Prop) (p : Pattern) : Prop := ∀ shape ∈ p.shapes, S shape

theorem Pattern.shapesIn_tuple {S : NatShape → Prop} {items : List Pattern}
    (h : (Pattern.tuple items).ShapesIn S) : ∀ p ∈ items, p.ShapesIn S := by
  intro p hp shape hshape
  refine h shape ?_
  rw [shapes, listShapes_eq_flatMap]
  exact List.mem_flatMap.mpr ⟨p, hp, hshape⟩

theorem Pattern.shapesIn_con {S : NatShape → Prop} {data ctor : DefId} {lift : ℕ}
    {dataArgs : List Term} {args : List Pattern}
    (h : (Pattern.con data ctor lift dataArgs args).ShapesIn S) : ∀ p ∈ args, p.ShapesIn S := by
  intro p hp shape hshape
  refine h shape ?_
  rw [shapes, listShapes_eq_flatMap]
  exact List.mem_flatMap.mpr ⟨p, hp, hshape⟩

theorem Pattern.shapesIn_constructorForm {S : NatShape → Prop} {value : ℕ} {shape : NatShape}
    (h : S shape) : (constructorForm value shape).ShapesIn S := by
  cases value with
  | zero => simp [constructorForm, ShapesIn, shapes, listShapes]
  | succ n => simpa [constructorForm, ShapesIn, shapes, listShapes] using h

namespace Term

variable {S : NatShape → Prop} {t t' u fn arg : Term}

/-- All shapes of a term are among the given ones. -/
def ShapesIn (S : NatShape → Prop) (t : Term) : Prop :=
  t.Everywhere fun u => ∀ shape, u.shape? = some shape → S shape

theorem shapesIn_iff : t.ShapesIn S ↔ ∀ shape ∈ t.shapes, S shape := by
  simp only [ShapesIn, Everywhere, shapes, List.mem_filterMap]
  constructor
  · intro h shape hmem
    obtain ⟨o, ho, hshape⟩ := hmem
    exact h o ho shape hshape
  · exact fun h o ho shape hshape => h shape ⟨o, ho, hshape⟩

theorem passesToParts_shapesIn (S : NatShape → Prop) : PassesToParts (ShapesIn S) where
  child ht hc := ht.child hc
  pred ht := everywhere_iff.mpr ⟨ht.head, by simp [children]⟩

theorem Opens.shapesIn {start : ℕ} {args : List Term} (h : Opens start args t u)
    (hargs : ∀ arg ∈ args, arg.ShapesIn S) (ht : t.ShapesIn S) : u.ShapesIn S := by
  refine h.everywhere (fun _ _ _ hshape => ?_) (fun t f hq shape hshape => ?_) hargs ht
  · cases hshape
  · refine hq shape ?_
    cases t <;> exact hshape

theorem isRedexFree_written (t : Term) : t.written.isRedexFree = t.isRedexFree := by
  cases t with
  | numeral n shape =>
    rw [written_numeral]
    cases n <;> rfl
  | _ => first
    | exact (congrArg isRedexFree (graft_of_not_isLeaf rfl)).trans rfl
    | exact (congrArg isRedexFree (graft_of_isLeaf rfl)).trans rfl

/-- Similar terms whose numerals have the given shapes. -/
structure Twins (S : NatShape → Prop) (t t' : Term) : Prop where
  written : t.written = t'.written
  left : t.ShapesIn S
  right : t'.ShapesIn S

theorem Twins.of_similar (h : t.Similar t') (ht : ∀ shape ∈ t.shapes, S shape)
    (ht' : ∀ shape ∈ t'.shapes, S shape) : Twins S t t' :=
  ⟨h.written_eq, shapesIn_iff.mpr ht, shapesIn_iff.mpr ht'⟩

theorem Twins.refl (h : t.ShapesIn S) : Twins S t t := ⟨rfl, h, h⟩

theorem Twins.symm (h : Twins S t t') : Twins S t' t := ⟨h.written.symm, h.right, h.left⟩

theorem twins_of_map_written {ts ts' : List Term} (h : ts.map Term.written = ts'.map Term.written)
    (hts : ∀ t ∈ ts, t.ShapesIn S) (hts' : ∀ t ∈ ts', t.ShapesIn S) :
    List.Forall₂ (Twins S) ts ts' := by
  induction ts generalizing ts' with
  | nil =>
    obtain rfl := List.map_eq_nil_iff.mp h.symm
    exact .nil
  | cons t ts ih =>
    obtain ⟨t', ts', rfl, ht', h⟩ := List.map_eq_cons_iff.mp h.symm
    rw [List.forall_mem_cons] at hts hts'
    exact .cons ⟨ht'.symm, hts.1, hts'.1⟩ (ih h.symm hts.2 hts'.2)

theorem map_written_of_twins {ts ts' : List Term} (h : List.Forall₂ (Twins S) ts ts') :
    ts.map Term.written = ts'.map Term.written := by
  induction h with
  | nil => rfl
  | cons ht _ ih => simp [ht.written, ih]

theorem left_of_twins {ts ts' : List Term} (h : List.Forall₂ (Twins S) ts ts') :
    ∀ t ∈ ts, t.ShapesIn S := by
  induction h with
  | nil => simp
  | cons ht _ ih => exact List.forall_mem_cons.mpr ⟨ht.left, ih⟩

theorem right_of_twins {ts ts' : List Term} (h : List.Forall₂ (Twins S) ts ts') :
    ∀ t ∈ ts', t.ShapesIn S := by
  induction h with
  | nil => simp
  | cons ht _ ih => exact List.forall_mem_cons.mpr ⟨ht.right, ih⟩

namespace Twins

theorem opens {start : ℕ} {args args' : List Term} (hargs : List.Forall₂ (Twins S) args args')
    (ht : Twins S t t') (h : Opens start args t u) :
    ∃ u', Opens start args' t' u' ∧ Twins S u u' := by
  have hwritten := h.graft grafts_leafWritten
  change Opens start (args.map Term.written) t.written u.written at hwritten
  rw [map_written_of_twins hargs, ht.written] at hwritten
  obtain ⟨u', hu', heq⟩ := hwritten.of_graft grafts_leafWritten
  exact ⟨u', hu', heq.symm, h.shapesIn (left_of_twins hargs) ht.left,
    hu'.shapesIn (right_of_twins hargs) ht.right⟩

theorem isRedexFree (h : Twins S t t') (ht : t.isRedexFree = true) : t'.isRedexFree = true := by
  rwa [← isRedexFree_written, ← h.written, isRedexFree_written]

theorem form_eq (h : Twins S t t') : t.form = t'.form := by
  rw [← grafts_leafWritten.form_graft t, ← grafts_leafWritten.form_graft t']
  exact congrArg form h.written

theorem eq_app (h : Twins S (.app fn arg) t') :
    ∃ fn' arg', t' = .app fn' arg' ∧ Twins S fn fn' ∧ Twins S arg arg' := by
  have heq : t'.written = .app fn.written arg.written := h.written.symm.trans (graft_app ..)
  obtain ⟨fn', arg', rfl, hfn, harg⟩ := grafts_leafWritten.eq_app heq
  exact ⟨fn', arg', rfl,
    ⟨hfn.symm, h.left.child (c := (0, fn)) (by simp [children]),
      h.right.child (c := (0, fn')) (by simp [children])⟩,
    ⟨harg.symm, h.left.child (c := (0, arg)) (by simp [children]),
      h.right.child (c := (0, arg')) (by simp [children])⟩⟩

theorem eq_lam {body : Term} (h : Twins S (.lam body) t') :
    ∃ body', t' = .lam body' ∧ Twins S body body' := by
  have heq : t'.written = .lam body.written := h.written.symm.trans (graft_lam _)
  obtain ⟨body', rfl, hbody⟩ := grafts_leafWritten.eq_lam heq
  exact ⟨body', rfl, hbody.symm, h.left.child (c := (1, body)) (by simp [children]),
    h.right.child (c := (1, body')) (by simp [children])⟩

theorem eq_proj {whole : Term} {index : ℕ} (h : Twins S (.proj whole index) t') :
    ∃ whole', t' = .proj whole' index ∧ Twins S whole whole' := by
  have heq : t'.written = .proj whole.written index := h.written.symm.trans (graft_proj ..)
  obtain ⟨whole', rfl, hwhole⟩ := grafts_leafWritten.eq_proj heq
  exact ⟨whole', rfl, hwhole.symm, h.left.child (c := (0, whole)) (by simp [children]),
    h.right.child (c := (0, whole')) (by simp [children])⟩

theorem eq_tuple {items : List Term} (h : Twins S (.tuple items) t') :
    ∃ items', t' = .tuple items' ∧ List.Forall₂ (Twins S) items items' := by
  have heq : t'.written = .tuple (items.map Term.written) :=
    h.written.symm.trans (graft_tuple _)
  obtain ⟨items', rfl, hitems⟩ := grafts_leafWritten.eq_tuple heq
  exact ⟨items', rfl, twins_of_map_written hitems.symm
    ((passesToParts_shapesIn S).tuple h.left) ((passesToParts_shapesIn S).tuple h.right)⟩

theorem eq_fnCall {f : DefId} {lift : ℕ} {args : List Term}
    (h : Twins S (.fnCall f lift args) t') :
    ∃ args', t' = .fnCall f lift args' ∧ List.Forall₂ (Twins S) args args' := by
  have heq : t'.written = .fnCall f lift (args.map Term.written) :=
    h.written.symm.trans (graft_fnCall ..)
  obtain ⟨args', rfl, hargs⟩ := grafts_leafWritten.eq_fnCall heq
  exact ⟨args', rfl, twins_of_map_written hargs.symm
    (fun a ha => h.left.child (c := (0, a)) (by simpa [children] using ha))
    (fun a ha => h.right.child (c := (0, a)) (by simpa [children] using ha))⟩

theorem app {fn' arg' : Term} (hfn : Twins S fn fn') (harg : Twins S arg arg') :
    Twins S (.app fn arg) (.app fn' arg') := by
  refine ⟨?_, everywhere_iff.mpr ⟨by simp [shape?], ?_⟩, everywhere_iff.mpr ⟨by simp [shape?], ?_⟩⟩
  · calc (Term.app fn arg).written = .app fn.written arg.written := graft_app ..
      _ = .app fn'.written arg'.written := by rw [hfn.written, harg.written]
      _ = (Term.app fn' arg').written := (graft_app ..).symm
  · simpa [children] using ⟨hfn.left, harg.left⟩
  · simpa [children] using ⟨hfn.right, harg.right⟩

theorem proj {whole whole' : Term} (h : Twins S whole whole') (index : ℕ) :
    Twins S (.proj whole index) (.proj whole' index) := by
  refine ⟨?_, everywhere_iff.mpr ⟨by simp [shape?], ?_⟩, everywhere_iff.mpr ⟨by simp [shape?], ?_⟩⟩
  · calc (Term.proj whole index).written = .proj whole.written index := graft_proj ..
      _ = .proj whole'.written index := by rw [h.written]
      _ = (Term.proj whole' index).written := (graft_proj ..).symm
  · simpa [children, ShapesIn] using h.left
  · simpa [children, ShapesIn] using h.right

theorem conLike (h : Twins S t t') {ctor : DefId} {ts : List Term}
    (ht : t.conLike? = some (ctor, ts)) :
    ∃ ts', t'.conLike? = some (ctor, ts') ∧ List.Forall₂ (Twins S) ts ts' := by
  have hsame := congrArg conLike? h.written
  rw [conLike?_written, conLike?_written, ht] at hsame
  obtain ⟨⟨ctor', ts'⟩, ht', heq⟩ := Option.map_eq_some_iff.mp hsame.symm
  obtain ⟨rfl, hts⟩ := Prod.mk.inj heq
  exact ⟨ts', ht', twins_of_map_written hts.symm
    ((passesToParts_shapesIn S).conLike h.left ht)
    ((passesToParts_shapesIn S).conLike h.right ht')⟩

theorem conLike_eq_none (h : Twins S t t') (ht : t.conLike? = none) : t'.conLike? = none := by
  have hsame := congrArg conLike? h.written
  rw [conLike?_written, conLike?_written, ht] at hsame
  exact Option.map_eq_none_iff.mp hsame.symm

/-- Of a numeral's twins, those of its own data type that are numerals have its shape and value. -/
theorem numeral_eq (hS : Coherent S) {n n' : ℕ} {shape shape' : NatShape}
    (h : Twins S (.numeral n shape) (.numeral n' shape')) : shape = shape' ∧ n = n' := by
  have heq := h.written
  rw [written_numeral, written_numeral] at heq
  obtain rfl : shape = shape' := hS shape shape' (h.left.head shape rfl) (h.right.head shape' rfl)
    (NatShape.data_of_written_eq heq)
  exact ⟨rfl, shape.written_injective heq⟩

end Twins

theorem eq_numeral_of_numeralValue {S : NatShape → Prop} (hS : Coherent S) {shape : NatShape}
    (hshape : S shape) {n : ℕ} {t : Term} (ht : t.ShapesIn S)
    (h : Pattern.numeralValue? shape.data t = some n) : t = .numeral n shape := by
  cases t with
  | numeral value shape' =>
    simp only [Pattern.numeralValue?, Option.ite_none_right_eq_some, Option.some.injEq] at h
    obtain ⟨hdata, rfl⟩ := h
    rw [hS shape' shape (ht.head shape' rfl) hshape hdata]
  | _ => cases h

end Term

end ProofCore
