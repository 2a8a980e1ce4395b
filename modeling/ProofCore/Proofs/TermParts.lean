import Mathlib
import ProofCore.Syntax.Substitution

/-!
# Terms and their parts

Induction from the immediate parts of a term to the term, the references of a term read off its
parts, and what rebuilding a term from parts does to its references.
-/
namespace ProofCore

namespace Term

theorem sizeOf_lt_of_mem_children {t : Term} {c : ℕ × Term} (h : c ∈ t.children) :
    sizeOf c.2 < sizeOf t := by
  have hlist : ∀ ts : List Term, c ∈ ts.map (fun t => (0, t)) → sizeOf c.2 < sizeOf ts := by
    intro ts hc
    obtain ⟨u, hu, rfl⟩ := List.mem_map.mp hc
    exact List.sizeOf_lt_of_mem hu
  cases t <;> simp only [children, List.mem_cons, List.not_mem_nil, or_false, List.map_append,
    List.mem_append] at h
  case lam => subst h; simp
  case app =>
    rcases h with rfl | rfl
    · simp; omega
    · simp
  case tuple => have := hlist _ h; simp; omega
  case proj => subst h; simp; omega
  case pathApp =>
    rcases h with rfl | rfl
    · simp; omega
    · simp
  case fnCall => have := hlist _ h; simp; omega
  case dataCall => have := hlist _ h; simp; omega
  case conCall => rcases h with h | h <;> have := hlist _ h <;> simp <;> omega

/-- What holds of a term if it holds of its immediate parts holds of every term. -/
@[elab_as_elim]
theorem childrenInduction {motive : Term → Prop} (t : Term)
    (step : ∀ t, (∀ c ∈ t.children, motive c.2) → motive t) : motive t :=
  step t fun c hc =>
    have := sizeOf_lt_of_mem_children hc
    childrenInduction c.2 step
termination_by sizeOf t

theorem map_snd_occurrences (depth : ℕ) (t : Term) :
    (t.occurrences depth).map Prod.snd = (t.occurrences 0).map Prod.snd := by
  induction t using childrenInduction generalizing depth with
  | step t ih =>
    rw [occurrences_eq_cons depth, occurrences_eq_cons 0]
    simp only [List.map_cons, List.map_flatMap]
    congr 1
    refine List.flatMap_congr fun c hc => ?_
    rw [ih c hc (depth + c.1), ih c hc (0 + c.1)]

theorem allRefs_eq_append (t : Term) :
    t.allRefs = t.headRef?.toList ++ t.children.flatMap fun c => c.2.allRefs := by
  have hrefs : ∀ depth (u : Term), (u.occurrences depth).filterMap (fun o => o.2.headRef?) =
      ((u.occurrences 0).map Prod.snd).filterMap headRef? := by
    intro depth u
    rw [← map_snd_occurrences depth u, List.filterMap_map]
    rfl
  have hall : ∀ depth (u : Term), (u.occurrences depth).filterMap (fun o => o.2.headRef?) =
      u.allRefs := fun depth u => (hrefs depth u).trans (hrefs 0 u).symm
  rw [allRefs, occurrences_eq_cons, List.filterMap_cons, List.filterMap_flatMap]
  simp only [hall]
  cases t.headRef? <;> rfl

/-- All definitions that a term refers to are among the given ones. -/
def RefsIn (ids : DefId → Prop) (t : Term) : Prop := ∀ id ∈ t.allRefs, ids id

theorem refsIn_iff {ids : DefId → Prop} {t : Term} :
    t.RefsIn ids ↔ (∀ id, t.headRef? = some id → ids id) ∧ ∀ c ∈ t.children, c.2.RefsIn ids := by
  unfold RefsIn
  rw [allRefs_eq_append]
  simp only [List.mem_append, Option.mem_toList, List.mem_flatMap]
  constructor
  · intro h
    exact ⟨fun id hid => h id (.inl hid), fun c hc id hid => h id (.inr ⟨c, hc, hid⟩)⟩
  · intro h id hid
    rcases hid with hid | ⟨c, hc, hid⟩
    · exact h.1 id hid
    · exact h.2 c hc id hid

theorem RefsIn.child {ids : DefId → Prop} {t : Term} {c : ℕ × Term} (h : t.RefsIn ids)
    (hc : c ∈ t.children) : c.2.RefsIn ids := (refsIn_iff.mp h).2 c hc

theorem RefsIn.occurrence {ids : DefId → Prop} {t : Term} (h : t.RefsIn ids) {depth : ℕ}
    {o : ℕ × Term} (ho : o ∈ t.occurrences depth) : o.2.RefsIn ids := by
  induction t using childrenInduction generalizing depth with
  | step t ih =>
    rw [occurrences_eq_cons, List.mem_cons, List.mem_flatMap] at ho
    rcases ho with rfl | ⟨c, hc, ho⟩
    · exact h
    · exact ih c hc (h.child hc) ho

/-- What a term is to an application that has it as its function. -/
inductive Form where
  | variable
  | abstraction
  | application
  | rigid
  deriving DecidableEq

def form : Term → Form
  | .bound _ => .variable
  | .lam _ => .abstraction
  | .app _ _ => .application
  | _ => .rigid

/-- A property that passes to the parts of a term that stand under no binder of it, also to those
that a numeral stands for. -/
structure PassesToParts (P : Term → Prop) : Prop where
  child : ∀ {t c : Term}, P t → (0, c) ∈ t.children → P c
  pred : ∀ {n : ℕ} {shape : NatShape}, P (.numeral (n + 1) shape) → P (.numeral n shape)

namespace PassesToParts

variable {P : Term → Prop} (h : PassesToParts P)
include h

theorem conLike {t : Term} {con : DefId} {args : List Term} (ht : P t)
    (heq : t.conLike? = some (con, args)) : ∀ arg ∈ args, P arg := by
  intro arg harg
  cases t <;> simp only [conLike?, reduceCtorEq, Option.some.injEq, Prod.mk.injEq] at heq
  case conCall data con' lift dataArgs args' =>
    have hmem : (0, arg) ∈ (Term.conCall data con' lift dataArgs args').children := by
      simp [children, heq.2, harg]
    exact h.child ht hmem
  case numeral value shape =>
    cases value with
    | zero =>
      simp only [Option.some.injEq, Prod.mk.injEq] at heq
      rw [← heq.2] at harg
      cases harg
    | succ n =>
      simp only [Option.some.injEq, Prod.mk.injEq] at heq
      rw [← heq.2, List.mem_singleton] at harg
      exact harg ▸ h.pred ht

theorem tuple {items : List Term} (ht : P (.tuple items)) : ∀ item ∈ items, P item := by
  intro item hitem
  have hmem : (0, item) ∈ (Term.tuple items).children := by simp [children, hitem]
  exact h.child ht hmem

end PassesToParts

theorem passesToParts_true : PassesToParts fun _ => True := ⟨fun _ _ => trivial, fun _ => trivial⟩

theorem passesToParts_refsIn (ids : DefId → Prop) : PassesToParts (RefsIn ids) where
  child ht hc := ht.child hc
  pred ht := by
    rw [refsIn_iff] at ht ⊢
    exact ⟨ht.1, by simp [children]⟩

end Term

end ProofCore
