import Mathlib
import ProofCore.Evaluation.WeakHead
import ProofCore.SizeChange.Comparison

/-!
# What a comparison says about sizes

Suppose that the terms of a set have sizes which evaluation keeps, and that a constructor call is
one larger than its arguments together. Then a term that compares as smaller than a pattern is
smaller than what the pattern stands for, and one that compares as equal has the same size.
-/
namespace ProofCore

namespace SizeRelation

/-- What a relation asserts about two sizes; nothing if it is unknown. -/
def Exact (r : SizeRelation) (m n : ℕ) : Prop := (r = .lessThan → m < n) ∧ (r = .equal → m = n)

theorem exact_unknown (m n : ℕ) : Exact .unknown m n := by simp [Exact]

theorem exact_equal (n : ℕ) : Exact .equal n n := by simp [Exact]

theorem exact_lessThan {m n : ℕ} (h : m < n) : Exact .lessThan m n := by simp [Exact, h]

theorem Exact.le {r : SizeRelation} {m n : ℕ} (h : r.Exact m n) (hr : r ≠ .unknown) : m ≤ n := by
  cases r with
  | lessThan => exact (h.1 rfl).le
  | equal => exact (h.2 rfl).le
  | unknown => exact absurd rfl hr

theorem Exact.mul {r s : SizeRelation} {m n k l : ℕ} (hr : r.Exact m n) (hs : s.Exact k l) :
    (r * s).Exact (m + k) (n + l) := by
  cases r <;> cases s <;> simp_all [Exact, HMul.hMul, Mul.mul, SizeRelation.mul]
  exact Nat.add_lt_add hr hs

theorem Exact.add_left {r : SizeRelation} {m n : ℕ} (h : r.Exact m n) (k : ℕ) :
    r.Exact (k + m) (k + n) :=
  ⟨fun hr => Nat.add_lt_add_left (h.1 hr) k, fun hr => congrArg (k + ·) (h.2 hr)⟩

theorem exact_ofOrdering (m n : ℕ) :
    (ofOrdering (Ord.compare m n)).Exact (1 + m) (1 + n) := by
  apply Exact.add_left
  cases hcmp : Ord.compare m n with
  | lt => exact exact_lessThan (Nat.compare_eq_lt.mp hcmp)
  | eq => rw [Nat.compare_eq_eq.mp hcmp]; exact exact_equal n
  | gt => exact exact_unknown m n

end SizeRelation

/-- Terms that are no eliminations, with a size that evaluation keeps and that counts the
constructors a term is built of. -/
structure SizedTerms (whnf : Term → Option Term) (F : Set Term) (size : Term → ℕ) : Prop where
  not_app : ∀ fn arg, Term.app fn arg ∉ F
  not_pathApp : ∀ fn arg, Term.pathApp fn arg ∉ F
  not_proj : ∀ whole index, Term.proj whole index ∉ F
  eval : ∀ t ∈ F, ∀ u, whnf t = some u → u ∈ F ∧ size u = size t
  built : ∀ t ∈ F, ∀ con args, t.conLike? = some (con, args) →
    (∀ arg ∈ args, arg ∈ F) ∧ size t = 1 + (args.map size).sum

namespace Pattern

mutual

/-- The sizes a pattern can stand for: any at all where comparison knows nothing. -/
inductive HasSize (size : Term → ℕ) : Pattern → ℕ → Prop
  | bind (x : Var) (type : Term) : HasSize size (.bind x type) (size (.free x))
  | con (data ctor : DefId) (lift : ℕ) (dataArgs : List Term) {args : List Pattern} {k : ℕ} :
    HaveSizes size args k → HasSize size (.con data ctor lift dataArgs args) (1 + k)
  | numeral (value : ℕ) (shape : NatShape) : HasSize size (.numeral value shape) (value + 1)
  | tuple (items : List Pattern) (k : ℕ) : HasSize size (.tuple items) k
  | absurd (k : ℕ) : HasSize size .absurd k
  | hole (solution : Option Pattern) (name : String) (type : Term) (k : ℕ) :
    HasSize size (.hole solution name type) k

/-- The sums of the sizes that patterns can stand for. -/
inductive HaveSizes (size : Term → ℕ) : List Pattern → ℕ → Prop
  | nil : HaveSizes size [] 0
  | cons {p : Pattern} {ps : List Pattern} {k l : ℕ} :
    HasSize size p k → HaveSizes size ps l → HaveSizes size (p :: ps) (k + l)

end

end Pattern

namespace SizedTerms

variable {whnf : Term → Option Term} {F : Set Term} {size : Term → ℕ}

theorem pathHead_eq (h : SizedTerms whnf F size) {t : Term} (ht : t ∈ F) : t.pathHead = t := by
  cases t with
  | pathApp fn arg => exact absurd ht (h.not_pathApp fn arg)
  | _ => rfl

theorem size_numeral (h : SizedTerms whnf F size) {n : ℕ} {shape : NatShape}
    (ht : .numeral n shape ∈ F) : size (.numeral n shape) = 1 + n := by
  induction n with
  | zero => exact (h.built _ ht _ _ rfl).2
  | succ n ih =>
    obtain ⟨hargs, hsize⟩ := h.built _ ht _ _ rfl
    have hpred := ih (hargs _ (List.mem_singleton_self _))
    simp only [List.map_singleton, List.sum_singleton] at hsize
    omega

theorem evalAll (h : SizedTerms whnf F size) {ts us : List Term} (hts : ∀ t ∈ ts, t ∈ F)
    (hus : ts.mapM whnf = some us) : (∀ u ∈ us, u ∈ F) ∧ us.map size = ts.map size := by
  induction ts generalizing us with
  | nil =>
    cases hus
    exact ⟨by simp, rfl⟩
  | cons t ts ih =>
    rw [List.mapM_cons] at hus
    obtain ⟨u, hu, hus⟩ := Option.bind_eq_some_iff.mp hus
    obtain ⟨us, hrest, hus⟩ := Option.bind_eq_some_iff.mp hus
    cases hus
    obtain ⟨huF, husize⟩ := h.eval t (hts t (by simp)) u hu
    obtain ⟨husF, hussizes⟩ := ih (fun t ht => hts t (by simp [ht])) hrest
    exact ⟨List.forall_mem_cons.mpr ⟨huF, husF⟩, by simp [husize, hussizes]⟩

theorem exact_compareVar (h : SizedTerms whnf F size) (x : Var) {t : Term} (ht : t ∈ F) :
    (Pattern.compareVar x t).Exact (size t) (size (.free x)) := by
  cases t with
  | free y =>
    by_cases hy : y = x
    · simpa [Pattern.compareVar, hy] using SizeRelation.exact_equal _
    · simpa [Pattern.compareVar, hy] using SizeRelation.exact_unknown _ _
  | app fn arg => exact absurd ht (h.not_app fn arg)
  | pathApp fn arg => exact absurd ht (h.not_pathApp fn arg)
  | proj whole index => exact absurd ht (h.not_proj whole index)
  | _ => exact SizeRelation.exact_unknown _ _

section Constructor

variable {ctor : DefId} {arity k : ℕ} {compareArgs : List Term → Option SizeRelation}
  {isPart : Term → Option Bool}
  (hcompare : ∀ ts, (∀ t ∈ ts, t ∈ F) → ts.length = arity →
    ∀ r, compareArgs ts = some r → r.Exact (ts.map size).sum k)
  (hpart : ∀ t ∈ F, isPart t = some true → size t ≤ k)

include hcompare in
theorem exact_compareBuilt (h : SizedTerms whnf F size) {c : DefId} {args : List Term}
    (hargs : ∀ arg ∈ args, arg ∈ F) {r : SizeRelation}
    (hr : Pattern.compareBuilt whnf ctor arity compareArgs c args = some r) :
    r.Exact (1 + (args.map size).sum) (1 + k) := by
  unfold Pattern.compareBuilt at hr
  split at hr
  · rename_i hsame
    obtain ⟨s, hs, hr⟩ := Option.bind_eq_some_iff.mp hr
    split at hr
    · obtain ⟨us, hus, hr⟩ := Option.bind_eq_some_iff.mp hr
      obtain ⟨husF, hsizes⟩ := h.evalAll hargs hus
      have hlen : us.length = arity := by
        rw [← List.length_map size, hsizes, List.length_map, hsame.2]
      rw [← hsizes]
      exact (hcompare us husF hlen r hr).add_left 1
    · cases hr
      exact (hcompare args hargs hsame.2 r hs).add_left 1
  · cases hr
    exact SizeRelation.exact_unknown _ _

include hcompare hpart

theorem exact_compareSeen (h : SizedTerms whnf F size) {t : Term} (ht : t ∈ F) {r : SizeRelation}
    (hr : Pattern.compareSeen whnf ctor arity compareArgs isPart t = some r) :
    r.Exact (size t) (1 + k) := by
  unfold Pattern.compareSeen at hr
  cases hcon : t.conLike? with
  | some built =>
    obtain ⟨hargs, hsize⟩ := h.built t ht built.1 built.2 hcon
    rw [hcon] at hr
    rw [hsize]
    exact h.exact_compareBuilt hcompare hargs hr
  | none =>
    rw [hcon] at hr
    obtain ⟨found, hfound, hr⟩ := Option.bind_eq_some_iff.mp hr
    cases hr
    cases found with
    | true => exact SizeRelation.exact_lessThan (by have := hpart t ht hfound; omega)
    | false => exact SizeRelation.exact_unknown _ _

theorem exact_compareCon (h : SizedTerms whnf F size) {t : Term} (ht : t ∈ F) {r : SizeRelation}
    (hr : Pattern.compareCon whnf ctor arity compareArgs isPart t = some r) :
    r.Exact (size t) (1 + k) := by
  unfold Pattern.compareCon at hr
  cases hcon : t.conLike? with
  | some built =>
    obtain ⟨hargs, hsize⟩ := h.built t ht built.1 built.2 hcon
    rw [hcon] at hr
    rw [hsize]
    exact h.exact_compareBuilt hcompare hargs hr
  | none =>
    rw [hcon] at hr
    obtain ⟨found, hfound, hr⟩ := Option.bind_eq_some_iff.mp hr
    cases found with
    | true =>
      cases hr
      exact SizeRelation.exact_lessThan (by have := hpart t ht hfound; omega)
    | false =>
      obtain ⟨u, hu, hr⟩ := Option.bind_eq_some_iff.mp hr
      obtain ⟨huF, husize⟩ := h.eval t ht u hu
      -- an evaluated term is no path application, so it is compared as it is
      have hseen : ∀ r, Pattern.compareSeen whnf ctor arity compareArgs isPart u.pathHead = some r →
          r.Exact (size t) (1 + k) := by
        rw [h.pathHead_eq huF, ← husize]
        exact fun r => h.exact_compareSeen hcompare hpart huF
      cases u with
      | conCall | numeral | pathApp => exact hseen r hr
      | _ =>
        cases hr
        exact SizeRelation.exact_unknown _ _

end Constructor

theorem expose (h : SizedTerms whnf F size) {t u : Term} (ht : t ∈ F)
    (hu : Pattern.expose whnf t = some u) : u ∈ F ∧ size u = size t := by
  unfold Pattern.expose at hu
  split at hu
  · cases hu
    exact ⟨ht, rfl⟩
  · obtain ⟨w, hw, hu⟩ := Option.bind_eq_some_iff.mp hu
    obtain ⟨hwF, hwsize⟩ := h.eval t ht w hw
    cases hu
    rw [h.pathHead_eq hwF]
    exact ⟨hwF, hwsize⟩

theorem exact_compareNumeral (h : SizedTerms whnf F size) {shape : NatShape} {n : ℕ} {t : Term}
    (ht : t ∈ F) {r : SizeRelation} (hr : Pattern.compareNumeral whnf shape n t = some r) :
    r.Exact (size t) (1 + n) := by
  induction n generalizing t with
  | zero =>
    obtain ⟨u, hu, hr⟩ := Option.bind_eq_some_iff.mp hr
    obtain ⟨huF, husize⟩ := h.expose ht hu
    rw [← husize]
    split at hr
    · cases hr
      rw [h.size_numeral huF]
      exact SizeRelation.exact_ofOrdering _ 0
    · rw [(h.built _ huF _ _ rfl).2]
      cases hr
      split
      · exact SizeRelation.exact_equal 1
      · exact SizeRelation.exact_unknown _ _
    · cases hr
      exact SizeRelation.exact_unknown _ _
  | succ n ih =>
    obtain ⟨u, hu, hr⟩ := Option.bind_eq_some_iff.mp hr
    obtain ⟨huF, husize⟩ := h.expose ht hu
    rw [← husize]
    split at hr
    · cases hr
      rw [h.size_numeral huF]
      exact SizeRelation.exact_ofOrdering _ (n + 1)
    · rename_i pred
      obtain ⟨hargs, hsize⟩ := h.built _ huF _ _ rfl
      have hsum : ([pred].map size).sum = size pred := List.sum_singleton
      rw [hsize, hsum, Nat.add_comm n 1]
      split at hr
      · exact (ih (hargs _ (List.mem_singleton_self _)) hr).add_left 1
      · cases hr
        exact SizeRelation.exact_unknown _ _
    · cases hr
      exact SizeRelation.exact_unknown _ _

mutual

theorem exact_compare (h : SizedTerms whnf F size) : ∀ (p : Pattern) {k : ℕ} {t : Term}
    {r : SizeRelation}, p.HasSize size k → (∀ x ∈ p.bindings, .free x.1 ∈ F) → t ∈ F →
      p.compare whnf t = some r → r.Exact (size t) k
  | .con _ ctor _ _ args, _, t, r, .con _ _ _ _ hk, hp, ht, hr => by
    simp only [Pattern.compare] at hr
    simp only [Pattern.bindings] at hp
    refine h.exact_compareCon (fun ts hts hlen r hr => ?_) (fun t ht hfound => ?_) ht hr
    · exact exact_compareList h args hk hp hts hlen hr
    · exact size_le_of_isPartOf h args hk hp ht hfound
  | .bind x _, _, t, r, .bind _ _, _, ht, hr => by
    simp only [Pattern.compare] at hr
    cases hr
    exact h.exact_compareVar x ht
  | .numeral value shape, _, t, r, .numeral _ _, _, ht, hr => by
    simp only [Pattern.compare] at hr
    rw [Nat.add_comm]
    exact h.exact_compareNumeral ht hr
  | .tuple _, _, t, r, _, _, _, hr => by
    simp only [Pattern.compare] at hr
    cases hr
    exact SizeRelation.exact_unknown _ _
  | .absurd, _, t, r, _, _, _, hr => by
    simp only [Pattern.compare] at hr
    cases hr
    exact SizeRelation.exact_unknown _ _
  | .hole _ _ _, _, t, r, _, _, _, hr => by
    simp only [Pattern.compare] at hr
    cases hr
    exact SizeRelation.exact_unknown _ _

theorem exact_compareList (h : SizedTerms whnf F size) : ∀ (ps : List Pattern) {k : ℕ}
    {ts : List Term} {r : SizeRelation}, Pattern.HaveSizes size ps k →
      (∀ x ∈ Pattern.listBindings ps, .free x.1 ∈ F) → (∀ t ∈ ts, t ∈ F) →
      ts.length = ps.length → Pattern.compareList whnf ps ts = some r →
      r.Exact (ts.map size).sum k
  | [], _, [], r, .nil, _, _, _, hr => by
    simp only [Pattern.compareList] at hr
    cases hr
    exact SizeRelation.exact_equal 0
  | p :: ps, _, t :: ts, r, .cons hk hl, hp, hts, hlen, hr => by
    simp only [Pattern.compareList] at hr
    rw [Pattern.listBindings, List.forall_mem_append] at hp
    rw [List.forall_mem_cons] at hts
    obtain ⟨s, hs, hr⟩ := Option.bind_eq_some_iff.mp hr
    obtain ⟨s', hs', hr⟩ := Option.bind_eq_some_iff.mp hr
    cases hr
    have hfirst := exact_compare h p hk hp.1 hts.1 hs
    have hrest := exact_compareList h ps hl hp.2 hts.2 (Nat.succ.inj hlen) hs'
    simpa using hfirst.mul hrest

theorem size_le_of_isPartOf (h : SizedTerms whnf F size) : ∀ (ps : List Pattern) {k : ℕ}
    {t : Term}, Pattern.HaveSizes size ps k →
      (∀ x ∈ Pattern.listBindings ps, .free x.1 ∈ F) → t ∈ F →
      Pattern.isPartOf whnf ps t = some true → size t ≤ k
  | [], _, t, _, _, _, hfound => by
    simp only [Pattern.isPartOf] at hfound
    cases hfound
  | p :: ps, _, t, .cons hk hl, hp, ht, hfound => by
    simp only [Pattern.isPartOf] at hfound
    rw [Pattern.listBindings, List.forall_mem_append] at hp
    obtain ⟨r, hr, hfound⟩ := Option.bind_eq_some_iff.mp hfound
    split at hfound
    · have hrest := size_le_of_isPartOf h ps hl hp.2 ht hfound
      omega
    · rename_i hknown
      have hfirst := (exact_compare h p hk hp.1 ht hr).le hknown
      omega

end

/-- Comparison is sound: a smaller or equal verdict is one about sizes. -/
theorem size_of_compare (h : SizedTerms whnf F size) {p : Pattern} {k : ℕ} (hk : p.HasSize size k)
    (hp : ∀ x ∈ p.bindings, .free x.1 ∈ F) {t : Term} (ht : t ∈ F) :
    (p.compare whnf t = some .lessThan → size t < k) ∧
      (p.compare whnf t = some .equal → size t = k) :=
  ⟨fun hr => (h.exact_compare p hk hp ht hr).1 rfl,
    fun hr => (h.exact_compare p hk hp ht hr).2 rfl⟩

/-- A function whose call evaluates to the successor of its argument. -/
def successorEnv : Env :=
  Env.add {} (.fn ⟨⟨1⟩, "next", [⟨"n", .dataCall ⟨2⟩ 0 [], true⟩], .dataCall ⟨2⟩ 0 [],
    .expr (.conCall ⟨2⟩ ⟨4⟩ 0 [] [.bound 0])⟩)

/-- A variable, its successor, and the call that evaluates to the successor. -/
def variableAndNext (x : Var) : Set Term :=
  {.free x, .conCall ⟨2⟩ ⟨4⟩ 0 [] [.free x], .fnCall ⟨1⟩ 0 [.free x]}

def stepsAbove : Term → ℕ
  | .conCall .. | .fnCall .. => 1
  | _ => 0

theorem sizedTerms_variableAndNext (x : Var) :
    SizedTerms (successorEnv.eval 3) (variableAndNext x) stepsAbove where
  not_app fn arg := by simp [variableAndNext]
  not_pathApp fn arg := by simp [variableAndNext]
  not_proj whole index := by simp [variableAndNext]
  eval := by
    rintro t (rfl | rfl | rfl) u hu
    · cases hu
      simp [variableAndNext]
    · cases hu
      simp [variableAndNext]
    · cases hu
      simp [variableAndNext, stepsAbove]
  built := by
    rintro t (rfl | rfl | rfl) con args hcon
    · cases hcon
    · cases hcon
      simp [variableAndNext, stepsAbove]
    · cases hcon

def secondSuccessor (x : Var) : Pattern :=
  .con ⟨2⟩ ⟨4⟩ 0 [] [.con ⟨2⟩ ⟨4⟩ 0 [] [.bind x (.dataCall ⟨2⟩ 0 [])]]

theorem hasSize_secondSuccessor (x : Var) : (secondSuccessor x).HasSize stepsAbove 2 := by
  have hvar : Pattern.HaveSizes stepsAbove [.bind x (.dataCall ⟨2⟩ 0 [])] 0 :=
    .cons (.bind _ _) .nil
  exact .con _ _ _ _ (.cons (.con _ _ _ _ hvar) .nil)

/-- The call is smaller than the second successor, as its value is a part of the pattern. -/
theorem size_of_compare_next :
    (secondSuccessor ⟨.supplied 0, "x"⟩).compare (successorEnv.eval 3)
        (.fnCall ⟨1⟩ 0 [.free ⟨.supplied 0, "x"⟩]) = some .lessThan ∧
      stepsAbove (.fnCall ⟨1⟩ 0 [.free ⟨.supplied 0, "x"⟩]) < 2 := by
  have hless : (secondSuccessor ⟨.supplied 0, "x"⟩).compare (successorEnv.eval 3)
      (.fnCall ⟨1⟩ 0 [.free ⟨.supplied 0, "x"⟩]) = some .lessThan := by decide +kernel
  have hsized := sizedTerms_variableAndNext ⟨.supplied 0, "x"⟩
  refine ⟨hless, (size_of_compare hsized (hasSize_secondSuccessor _) ?_ ?_).1 hless⟩
  · simp [secondSuccessor, Pattern.bindings, variableAndNext]
  · simp [variableAndNext]

end SizedTerms

end ProofCore
