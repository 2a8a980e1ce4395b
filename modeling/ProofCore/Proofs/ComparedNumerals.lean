import Mathlib
import ProofCore.SizeChange.Comparison
import ProofCore.Syntax.Equality

/-!
# Comparing with a numeral and with its constructor form

Comparison with a numeral pattern takes one constructor after the other off a term and never writes
the numeral out. Comparison with the constructor form of the numeral goes one layer deep, evaluates
the argument once more if nothing is known of it, and goes on with a numeral. If evaluation stops
at weak-head forms, the second evaluation changes nothing, and both give one answer for every
constructor call.
-/
namespace ProofCore

namespace Pattern

section Layers

variable {m : Type → Type} [Monad m] (whnf : Term → m Term) {shape : NatShape} {n : ℕ}
  {data c : DefId} {lift : ℕ} {dataArgs args : List Term}

theorem expose_of_conLike {t : Term} (h : t.conLike?.isSome = true) :
    expose whnf t = pure t := by
  simp [expose, h]

variable [LawfulMonad m]

theorem compareNumeral_numeral (n k : ℕ) (shape shape' : NatShape) :
    compareNumeral whnf shape n (.numeral k shape') = pure (.ofOrdering (Ord.compare k n)) := by
  have hseen : expose whnf (.numeral k shape') = pure (.numeral k shape') :=
    expose_of_conLike whnf (by cases k <;> rfl)
  cases n <;> simp [compareNumeral, hseen]

theorem compareNumeral_zero_conCall :
    compareNumeral whnf shape 0 (.conCall data c lift dataArgs args) =
      pure (if c = shape.zero ∧ args.length = 0 then .equal else .unknown) := by
  rw [compareNumeral, expose_of_conLike whnf rfl, pure_bind]
  cases args <;> simp

theorem compareNumeral_suc (n : ℕ) (pred : Term) :
    compareNumeral whnf shape (n + 1) (.conCall data shape.suc lift dataArgs [pred]) =
      compareNumeral whnf shape n pred := by
  rw [compareNumeral, expose_of_conLike whnf rfl, pure_bind]
  simp

theorem compareNumeral_of_not_suc (h : ¬(c = shape.suc ∧ args.length = 1)) :
    compareNumeral whnf shape (n + 1) (.conCall data c lift dataArgs args) = pure .unknown := by
  rw [compareNumeral, expose_of_conLike whnf rfl, pure_bind]
  rcases args with _ | ⟨pred, _ | ⟨_, _⟩⟩
  · rfl
  · have hc : c ≠ shape.suc := by simpa using h
    simp [hc]
  · rfl

theorem compareList_singleton (p : Pattern) (t : Term) :
    compareList whnf [p] [t] = p.compare whnf t := by
  have hmul (r : SizeRelation) : r * .equal = r := by cases r <;> rfl
  simp [compareList, hmul]

/-- A call of a constructor with one argument compares as its argument does, or else as what the
argument evaluates to. -/
theorem compareBuilt_singleton (p : Pattern) (t : Term) :
    compareBuilt whnf c 1 (compareList whnf [p]) c [t] = do
      let r ← p.compare whnf t
      if r = .unknown then p.compare whnf (← whnf t) else return r := by
  simp [compareBuilt, compareList_singleton]

end Layers

/-- An evaluation that stops at weak-head forms: what it came to stays as it is, and constructor
calls and numerals are such forms. -/
structure StopsAtForms (whnf : Term → Option Term) : Prop where
  again : ∀ t u, whnf t = some u → whnf u = some u
  built : ∀ t, t.conLike?.isSome = true → whnf t = some t

namespace StopsAtForms

variable {whnf : Term → Option Term} {shape : NatShape} {t u : Term}

/-- What a term shows is what its weak-head form shows. -/
theorem expose_eq (h : StopsAtForms whnf) (hu : whnf t = some u) :
    expose whnf u = expose whnf t := by
  cases ht : t.conLike?.isSome with
  | true =>
    have hsame : u = t := by simpa [h.built t ht] using hu.symm
    rw [hsame]
  | false =>
    have hshown : expose whnf t = some u.pathHead := by simp [expose, ht, hu]
    rw [hshown]
    cases hbuilt : u.conLike?.isSome with
    | true =>
      have hhead : u.pathHead = u := by
        cases u with
        | pathApp => cases hbuilt
        | _ => rfl
      rw [hhead]
      exact expose_of_conLike whnf hbuilt
    | false => simp [expose, hbuilt, h.again t u hu]

theorem compareNumeral_eq (h : StopsAtForms whnf) (hu : whnf t = some u) (n : ℕ) :
    compareNumeral whnf shape n u = compareNumeral whnf shape n t := by
  cases n <;> simp only [compareNumeral, h.expose_eq hu]

/-- A term without a weak-head form compares with no numeral. -/
theorem compareNumeral_eq_none (h : StopsAtForms whnf) (hnone : whnf t = none) (n : ℕ) :
    compareNumeral whnf shape n t = none := by
  have hbuilt : t.conLike?.isSome = false := by
    cases hc : t.conLike?.isSome with
    | true => simp [h.built t hc] at hnone
    | false => rfl
  cases n <;> simp [compareNumeral, expose, hbuilt, hnone]

/-- The loop that takes constructors off and the constructor form of the numeral agree on every
constructor call. -/
theorem compare_constructorForm (h : StopsAtForms whnf) (n : ℕ) (shape : NatShape)
    (data c : DefId) (lift : ℕ) (dataArgs args : List Term) :
    (numeral n shape).compare whnf (.conCall data c lift dataArgs args) =
      (constructorForm n shape).compare whnf (.conCall data c lift dataArgs args) := by
  cases n with
  | zero =>
    simp only [constructorForm, compare, compareCon, Term.conLike?, compareNumeral_zero_conCall]
    by_cases hzero : c = shape.zero ∧ args.length = 0
    · simp [compareBuilt, compareList, hzero]
    · simp only [compareBuilt, List.length_nil, hzero, if_false]
  | succ n =>
    simp only [constructorForm, compare, compareCon, Term.conLike?, List.length_singleton]
    by_cases hsuc : c = shape.suc ∧ args.length = 1
    · obtain ⟨rfl, hlen⟩ := hsuc
      obtain ⟨pred, rfl⟩ := List.length_eq_one_iff.mp hlen
      rw [compareNumeral_suc, compareBuilt_singleton]
      simp only [compare]
      cases hw : whnf pred with
      | none => simp [h.compareNumeral_eq_none hw]
      | some u =>
        -- the second attempt repeats the first one, so that it may as well be left out
        have hagain : compareNumeral whnf shape n u = compareNumeral whnf shape n pred :=
          h.compareNumeral_eq hw n
        cases hr : compareNumeral whnf shape n pred with
        | none => rfl
        | some r => by_cases hr' : r = .unknown <;> simp [hr', hagain, hr]
    · rw [compareNumeral_of_not_suc whnf hsuc]
      simp [compareBuilt, hsuc]

/-- Evaluates one call and leaves all other terms as they are. -/
def oneCall (call value : Term) (t : Term) : Option Term := if t = call then some value else some t

theorem stopsAtForms_oneCall {fn : DefId} {lift : ℕ} {args : List Term} {value : Term}
    (hne : value ≠ .fnCall fn lift args) : StopsAtForms (oneCall (.fnCall fn lift args) value) where
  again t u hu := by
    unfold oneCall at hu
    split at hu <;> cases hu
    · simp [oneCall, hne]
    · simp_all [oneCall]
  built t ht := by
    have hother : t ≠ .fnCall fn lift args := by
      rintro rfl
      cases ht
    simp [oneCall, hother]

/-- The successor of a call that evaluates to a path application of two: three against three. -/
theorem compare_constructorForm_path :
    let nat : NatShape := ⟨⟨1⟩, ⟨2⟩, ⟨3⟩⟩
    let path : Term := .pathApp (.conCall ⟨1⟩ ⟨3⟩ 0 [] [.numeral 1 nat]) (.sort 0)
    let whnf := oneCall (.fnCall ⟨4⟩ 0 []) path
    let t : Term := .conCall ⟨1⟩ ⟨3⟩ 0 [] [.fnCall ⟨4⟩ 0 []]
    (numeral 3 nat).compare whnf t = some .equal ∧
      (numeral 3 nat).compare whnf t = (constructorForm 3 nat).compare whnf t := by
  intro nat path whnf t
  refine ⟨by decide +kernel, ?_⟩
  exact compare_constructorForm (stopsAtForms_oneCall (by simp [path])) 3 nat _ _ _ _ _

end StopsAtForms

end Pattern

end ProofCore
