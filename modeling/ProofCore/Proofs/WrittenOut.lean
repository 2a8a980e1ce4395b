import ProofCore.Proofs.Grafting
import ProofCore.Syntax.NatShape

/-!
# Numerals written out

Two terms are similar if they differ only in how natural numbers are written: as numerals or by
constructor calls, in any mixture. Every term has a form in which all numerals are written out by
constructor calls, and terms are similar exactly if they have the same such form.
-/
namespace ProofCore

/-- The number `n` by constructor calls alone. -/
def NatShape.written (shape : NatShape) : ℕ → Term
  | 0 => shape.zeroTerm
  | n + 1 => shape.sucTerm (shape.written n)

namespace Term

def leafWritten : Term → Term
  | .numeral n shape => shape.written n
  | t => t

/-- Writes all numerals out, except those in holes. -/
def written : Term → Term := graft leafWritten

variable {t u : Term}

theorem isValue_written (shape : NatShape) (n : ℕ) : (shape.written n).IsValue := by
  induction n with
  | zero => exact everywhere_iff.mpr ⟨rfl, by simp [NatShape.written, NatShape.zeroTerm, children]⟩
  | succ n ih =>
    refine everywhere_iff.mpr ⟨rfl, ?_⟩
    simpa [NatShape.written, NatShape.sucTerm, children, IsValue] using ih

theorem grafts_leafWritten : Grafts leafWritten := by
  intro t _
  cases t with
  | numeral n shape => exact .inr ⟨rfl, isValue_written shape n⟩
  | _ => exact .inl rfl

@[simp] theorem written_numeral (n : ℕ) (shape : NatShape) :
    (Term.numeral n shape).written = shape.written n := graft_of_isLeaf rfl

@[simp] theorem written_zeroTerm (shape : NatShape) : shape.zeroTerm.written = shape.zeroTerm :=
  graft_conCall ..

@[simp] theorem written_sucTerm (shape : NatShape) (t : Term) :
    (shape.sucTerm t).written = shape.sucTerm t.written := graft_conCall ..

theorem written_of_not_isLeaf (h : t.isLeaf = false) :
    t.written = t.mapChildren fun _ c => c.written := graft_of_not_isLeaf h

theorem written_mapChildren (h : t.isLeaf = false) (f : ℕ → Term → Term) :
    (t.mapChildren f).written = t.mapChildren fun b c => (f b c).written := graft_mapChildren h f

/-- A numeral shows the same constructor, written out or not. -/
theorem conLike?_written (t : Term) :
    t.written.conLike? = t.conLike?.map fun built => (built.1, built.2.map written) := by
  cases t with
  | numeral n shape =>
    rw [written_numeral]
    cases n with
    | zero => rfl
    | succ n => simp [conLike?, NatShape.written, NatShape.sucTerm]
  | _ => first
    | exact congrArg conLike? (graft_of_not_isLeaf rfl)
    | exact congrArg conLike? (graft_of_isLeaf rfl)

/-- The least congruence that lets a numeral be replaced by the constructor call that it stands
for. Holes have no parts, so it does not enter them. -/
inductive Similar : Term → Term → Prop
  | zero (shape : NatShape) : Similar (.numeral 0 shape) shape.zeroTerm
  | suc (n : ℕ) (shape : NatShape) :
      Similar (.numeral (n + 1) shape) (shape.sucTerm (.numeral n shape))
  | refl (t : Term) : Similar t t
  | symm {t u : Term} (h : Similar t u) : Similar u t
  | trans {t u w : Term} (h : Similar t u) (h' : Similar u w) : Similar t w
  | congr (t : Term) {f g : ℕ → Term → Term}
      (h : ∀ c ∈ t.children, Similar (f c.1 c.2) (g c.1 c.2)) :
      Similar (t.mapChildren f) (t.mapChildren g)

theorem Similar.written_eq (h : Similar t u) : t.written = u.written := by
  induction h with
  | zero shape => rw [written_numeral, written_zeroTerm]; rfl
  | suc n shape => rw [written_numeral, written_sucTerm, written_numeral]; rfl
  | refl => rfl
  | symm _ ih => exact ih.symm
  | trans _ _ ih ih' => exact ih.trans ih'
  | @congr t f g _ ih =>
    cases hleaf : t.isLeaf with
    | true => rw [mapChildren_of_isLeaf hleaf, mapChildren_of_isLeaf hleaf]
    | false =>
      rw [written_mapChildren hleaf, written_mapChildren hleaf]
      exact mapChildren_congr ih

theorem similar_sucTerm (shape : NatShape) (h : Similar t u) :
    Similar (shape.sucTerm t) (shape.sucTerm u) :=
  .congr (shape.sucTerm t) (f := fun _ _ => t) (g := fun _ _ => u) fun _ _ => h

theorem similar_numeral_written (shape : NatShape) (n : ℕ) :
    Similar (.numeral n shape) (shape.written n) := by
  induction n with
  | zero => exact .zero shape
  | succ n ih => exact (Similar.suc n shape).trans (similar_sucTerm shape ih)

theorem similar_written (t : Term) : Similar t t.written := by
  induction t using childrenInduction with
  | step t ih =>
    cases hleaf : t.isLeaf with
    | true =>
      rw [written, graft_of_isLeaf hleaf]
      cases t with
      | numeral n shape => exact similar_numeral_written shape n
      | _ => exact .refl _
    | false =>
      have hparts := Similar.congr t (f := fun _ c => c) (g := fun _ c => c.written) ih
      rwa [mapChildren_eq_self fun _ _ => rfl, ← written_of_not_isLeaf hleaf] at hparts

/-- Terms are similar exactly if they are the same written out. -/
theorem similar_iff : Similar t u ↔ t.written = u.written :=
  ⟨Similar.written_eq, fun h => (similar_written t).trans (h ▸ (similar_written u).symm)⟩

end Term

namespace NatShape

variable {shape shape' : NatShape} {n n' : ℕ}

theorem data_of_written_eq (h : shape.written n = shape'.written n') :
    shape.data = shape'.data := by
  cases n <;> cases n' <;> exact (Term.conCall.inj h).1

/-- A number is known from how it is written out. -/
theorem written_injective (shape : NatShape) : Function.Injective shape.written := by
  intro n n' h
  induction n generalizing n' with
  | zero =>
    cases n' with
    | zero => rfl
    | succ n' => cases (Term.conCall.inj h).2.2.2.2
  | succ n ih =>
    cases n' with
    | zero => cases (Term.conCall.inj h).2.2.2.2
    | succ n' =>
      have hargs := (Term.conCall.inj h).2.2.2.2
      rw [ih (List.cons.inj hargs).1]

end NatShape

end ProofCore
