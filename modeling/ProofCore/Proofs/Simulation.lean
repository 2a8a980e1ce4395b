import ProofCore.Proofs.TermParts
import ProofCore.Evaluation.Matching
import ProofCore.SizeChange.Comparison

/-!
# Matching and comparing with related evaluations

Matching and comparison look at terms through a given evaluation. If two evaluations are related
in a way that returning and sequencing keep, then matching and comparing with the one is related
to matching and comparing with the other.
-/
namespace ProofCore

/-- A relation between computations that give the same values, all of which have a property. -/
structure Simulation (m n : Type → Type) [Monad m] [Monad n] where
  rel : {α : Type} → (α → Prop) → m α → n α → Prop
  pure : ∀ {α : Type} {Q : α → Prop} {a : α}, Q a → rel Q (Pure.pure a) (Pure.pure a)
  bind : ∀ {α β : Type} {P : α → Prop} {Q : β → Prop} {x : m α} {y : n α} {f : α → m β}
    {g : α → n β}, rel P x y → (∀ a, P a → rel Q (f a) (g a)) → rel Q (x >>= f) (y >>= g)

/-- A match that succeeds has bound `n` terms, all of which have the property. -/
def MatchResult.Binds (P : Term → Prop) (n : ℕ) : MatchResult → Prop
  | .matched bound => bound.length = n ∧ ∀ t ∈ bound, P t
  | .mismatch => True
  | .stuck => True

namespace Simulation

variable {m n : Type → Type} [Monad m] [Monad n] {S : Simulation m n} {P : Term → Prop}
  {whnf : Term → m Term} {whnf' : Term → n Term}

theorem mono [LawfulMonad m] [LawfulMonad n] (S : Simulation m n) {α : Type} {Q R : α → Prop}
    {x : m α} {y : n α} (h : S.rel Q x y) (hQR : ∀ a, Q a → R a) : S.rel R x y := by
  have hbind := S.bind h fun a ha => S.pure (hQR a ha)
  rwa [bind_pure, bind_pure] at hbind

theorem mapM [LawfulMonad m] [LawfulMonad n] (S : Simulation m n) {α β : Type} {Q : β → Prop}
    {f : α → m β} {f' : α → n β} {xs : List α} (h : ∀ x ∈ xs, S.rel Q (f x) (f' x)) :
    S.rel (fun ys => ∀ y ∈ ys, Q y) (xs.mapM f) (xs.mapM f') := by
  induction xs with
  | nil => exact S.pure (by simp)
  | cons x xs ih =>
    rw [List.mapM_cons, List.mapM_cons]
    refine S.bind (h x (by simp)) fun y hy => ?_
    have hrest := ih fun x hx => h x (by simp [hx])
    refine S.bind hrest fun ys hys => S.pure ?_
    exact List.forall_mem_cons.mpr ⟨hy, hys⟩

/-- Rebuilding a term from parts keeps its form and what its head refers to. -/
theorem mapChildrenM [LawfulMonad m] [LawfulMonad n] (S : Simulation m n)
    {Q : ℕ → Term → Prop} {f : ℕ → Term → m Term} {f' : ℕ → Term → n Term} {t : Term}
    (h : ∀ c ∈ t.children, S.rel (Q c.1) (f c.1 c.2) (f' c.1 c.2)) :
    S.rel (fun u => (u.form = t.form ∧ u.headRef? = t.headRef?) ∧ ∀ c ∈ u.children, Q c.1 c.2)
      (t.mapChildrenM f) (t.mapChildrenM f') := by
  have hlist : ∀ ts : List Term, (∀ u ∈ ts, (0, u) ∈ t.children) →
      S.rel (fun us => ∀ u ∈ us, Q 0 u) (ts.mapM (f 0)) (ts.mapM (f' 0)) := by
    intro ts hts
    exact S.mapM fun u hu => h (0, u) (hts u hu)
  cases t with
  | lam body =>
    refine S.bind (h (1, body) (by simp [Term.children])) fun u hu => S.pure ⟨⟨rfl, rfl⟩, ?_⟩
    simpa [Term.children] using hu
  | app fn arg =>
    refine S.bind (h (0, fn) (by simp [Term.children])) fun u hu => ?_
    refine S.bind (h (0, arg) (by simp [Term.children])) fun w hw => S.pure ⟨⟨rfl, rfl⟩, ?_⟩
    simpa [Term.children] using ⟨hu, hw⟩
  | tuple items =>
    refine S.bind (hlist items (by simp [Term.children])) fun us hus => S.pure ⟨⟨rfl, rfl⟩, ?_⟩
    simpa [Term.children] using hus
  | proj whole index =>
    refine S.bind (h (0, whole) (by simp [Term.children])) fun u hu => S.pure ⟨⟨rfl, rfl⟩, ?_⟩
    simpa [Term.children] using hu
  | pathApp fn arg =>
    refine S.bind (h (0, fn) (by simp [Term.children])) fun u hu => ?_
    refine S.bind (h (0, arg) (by simp [Term.children])) fun w hw => S.pure ⟨⟨rfl, rfl⟩, ?_⟩
    simpa [Term.children] using ⟨hu, hw⟩
  | fnCall fn lift args =>
    refine S.bind (hlist args (by simp [Term.children])) fun us hus => S.pure ⟨⟨rfl, rfl⟩, ?_⟩
    simpa [Term.children] using hus
  | dataCall data lift args =>
    refine S.bind (hlist args (by simp [Term.children])) fun us hus => S.pure ⟨⟨rfl, rfl⟩, ?_⟩
    simpa [Term.children] using hus
  | conCall data con lift dataArgs args =>
    refine S.bind (hlist dataArgs ?_) fun us hus => ?_
    · exact fun u hu => by simp [Term.children, hu]
    refine S.bind (hlist args ?_) fun ws hws => S.pure ⟨⟨rfl, rfl⟩, fun c hc => ?_⟩
    · exact fun u hu => by simp [Term.children, hu]
    obtain ⟨u, hu, rfl⟩ := List.mem_map.mp hc
    exact (List.mem_append.mp hu).elim (hus u) (hws u)
  | _ => exact S.pure (by simp [Term.children])

/-- Related evaluations of the terms with a property that passes to their parts. -/
structure Evaluation (S : Simulation m n) (P : Term → Prop) (whnf : Term → m Term)
    (whnf' : Term → n Term) : Prop where
  parts : Term.PassesToParts P
  eval : ∀ t, P t → S.rel P (whnf t) (whnf' t)

namespace Evaluation

theorem matchNumeralWith (h : S.Evaluation P whnf whnf') (data : DefId) (value : ℕ)
    {onBuilt : DefId → List Term → m MatchResult} {onBuilt' : DefId → List Term → n MatchResult}
    (hbuilt : ∀ con args, (∀ arg ∈ args, P arg) →
      S.rel (MatchResult.Binds P 0) (onBuilt con args) (onBuilt' con args)) {t : Term} (ht : P t) :
    S.rel (MatchResult.Binds P 0) (Pattern.matchNumeralWith whnf data value onBuilt t)
      (Pattern.matchNumeralWith whnf' data value onBuilt' t) := by
  refine S.bind (h.eval t ht) fun u hu => ?_
  cases Pattern.numeralValue? data u with
  | some v =>
    apply S.pure
    split <;> simp [MatchResult.Binds]
  | none =>
    refine S.bind (h.eval u hu) fun w hw => ?_
    cases hcon : w.conLike? with
    | none => exact S.pure trivial
    | some c => exact hbuilt c.1 c.2 (h.parts.conLike hw hcon)

theorem matchNumeral (h : S.Evaluation P whnf whnf') (shape : NatShape) (value : ℕ) {t : Term}
    (ht : P t) :
    S.rel (MatchResult.Binds P 0) (Pattern.matchNumeral whnf shape value t)
      (Pattern.matchNumeral whnf' shape value t) := by
  induction value generalizing t with
  | zero =>
    refine h.matchNumeralWith shape.data 0 (fun con args _ => S.pure ?_) ht
    split <;> simp [MatchResult.Binds]
  | succ k ih =>
    refine h.matchNumeralWith shape.data (k + 1) (fun con args hargs => ?_) ht
    match args with
    | [] => exact S.pure trivial
    | [arg] =>
      by_cases hcon : con = shape.suc
      · simp only [hcon, if_true]
        exact ih (hargs arg (by simp))
      · simp only [hcon, if_false]
        exact S.pure trivial
    | _ :: _ :: _ => exact S.pure trivial

mutual

theorem matchTerm (h : S.Evaluation P whnf whnf') : ∀ (p : Pattern) {t : Term}, P t →
      S.rel (MatchResult.Binds P p.bindings.length) (p.matchTerm whnf t) (p.matchTerm whnf' t)
  | .bind _ _, t, ht => by
    simp only [Pattern.matchTerm]
    exact S.pure (by simpa [MatchResult.Binds, Pattern.bindings] using ht)
  | .absurd, t, _ => by
    simp only [Pattern.matchTerm]
    exact S.pure trivial
  | .hole none _ _, t, _ => by
    simp only [Pattern.matchTerm]
    exact S.pure trivial
  | .hole (some solution) _ _, t, ht => by
    simp only [Pattern.matchTerm]
    exact matchTerm h solution ht
  | .tuple items, t, ht => by
    simp only [Pattern.matchTerm]
    refine S.bind (h.eval t ht) fun u hu => ?_
    cases u with
    | tuple ts =>
      by_cases hlen : ts.length = items.length
      · have hmatch := matchList h items (h.parts.tuple hu)
        rw [hlen, List.take_length] at hmatch
        simpa only [Pattern.bindings, hlen, if_true] using hmatch
      · simp only [hlen, if_false]
        exact S.pure trivial
    | _ => exact S.pure trivial
  | .con _ ctor _ _ args, t, ht => by
    simp only [Pattern.matchTerm]
    refine S.bind (h.eval t ht) fun u hu => ?_
    cases hcon : u.conLike? with
    | none => exact S.pure trivial
    | some c =>
      by_cases hsame : c.1 = ctor ∧ c.2.length = args.length
      · have hmatch := matchList h args (h.parts.conLike hu hcon)
        rw [hsame.2, List.take_length] at hmatch
        simpa only [Pattern.bindings, hsame, and_self, if_true] using hmatch
      · simp only [hsame, if_false]
        exact S.pure trivial
  | .numeral value shape, t, ht => by
    simp only [Pattern.matchTerm]
    exact h.matchNumeral shape value ht

/-- Patterns without a term bind nothing. -/
theorem matchList (h : S.Evaluation P whnf whnf') : ∀ (ps : List Pattern) {ts : List Term},
      (∀ t ∈ ts, P t) →
      S.rel (MatchResult.Binds P (Pattern.listBindings (ps.take ts.length)).length)
        (Pattern.matchList whnf ps ts) (Pattern.matchList whnf' ps ts)
  | [], ts, _ => by
    simp only [Pattern.matchList]
    exact S.pure (by simp [MatchResult.Binds])
  | p :: ps, [], _ => by
    simp only [Pattern.matchList]
    exact S.pure (by simp [MatchResult.Binds])
  | p :: ps, t :: ts, hts => by
    simp only [Pattern.matchList]
    refine S.bind (matchTerm h p (hts t (by simp))) fun r hr => ?_
    cases r with
    | matched bound =>
      have hrest := matchList h ps fun u (hu : u ∈ ts) => hts u (by simp [hu])
      refine S.bind hrest fun r' hr' => ?_
      cases r' with
      | matched rest =>
        refine S.pure ⟨?_, fun u hu => (List.mem_append.mp hu).elim (hr.2 u) (hr'.2 u)⟩
        rw [List.length_append, hr.1, hr'.1]
        exact (List.length_append).symm
      | mismatch => exact S.pure trivial
      | stuck => exact S.pure trivial
    | mismatch => exact S.pure trivial
    | stuck => exact S.pure trivial

end

theorem pathHead (h : S.Evaluation P whnf whnf') {t : Term} (ht : P t) : P t.pathHead := by
  fun_induction Term.pathHead t with
  | case1 fn arg ih =>
    apply ih
    have hmem : (0, fn) ∈ (Term.pathApp fn arg).children := by simp [Term.children]
    exact h.parts.child ht hmem
  | case2 t _ => exact ht

theorem compareBuilt [LawfulMonad m] [LawfulMonad n] (h : S.Evaluation P whnf whnf') {ctor : DefId}
    {arity : ℕ} {compareArgs : List Term → m SizeRelation}
    {compareArgs' : List Term → n SizeRelation}
    (hcompare : ∀ args, (∀ arg ∈ args, P arg) →
      S.rel (fun _ => True) (compareArgs args) (compareArgs' args))
    {c : DefId} {args : List Term} (hargs : ∀ arg ∈ args, P arg) :
    S.rel (fun _ => True) (Pattern.compareBuilt whnf ctor arity compareArgs c args)
      (Pattern.compareBuilt whnf' ctor arity compareArgs' c args) := by
  unfold Pattern.compareBuilt
  split
  · refine S.bind (hcompare args hargs) fun r _ => ?_
    split
    · have hevaluated := S.mapM fun t ht => h.eval t (hargs t ht)
      exact S.bind hevaluated fun us hus => hcompare us hus
    · exact S.pure trivial
  · exact S.pure trivial

theorem compareSeen [LawfulMonad m] [LawfulMonad n] (h : S.Evaluation P whnf whnf') (ctor : DefId)
    (arity : ℕ) {compareArgs : List Term → m SizeRelation}
    {compareArgs' : List Term → n SizeRelation} {isPart : Term → m Bool} {isPart' : Term → n Bool}
    (hcompare : ∀ args, (∀ arg ∈ args, P arg) →
      S.rel (fun _ => True) (compareArgs args) (compareArgs' args))
    (hpart : ∀ t, P t → S.rel (fun _ => True) (isPart t) (isPart' t)) {t : Term} (ht : P t) :
    S.rel (fun _ => True) (Pattern.compareSeen whnf ctor arity compareArgs isPart t)
      (Pattern.compareSeen whnf' ctor arity compareArgs' isPart' t) := by
  unfold Pattern.compareSeen
  cases hcon : t.conLike? with
  | some c => exact h.compareBuilt hcompare (h.parts.conLike ht hcon)
  | none => exact S.bind (hpart t ht) fun _ _ => S.pure trivial

theorem compareCon [LawfulMonad m] [LawfulMonad n] (h : S.Evaluation P whnf whnf') (ctor : DefId)
    (arity : ℕ) {compareArgs : List Term → m SizeRelation}
    {compareArgs' : List Term → n SizeRelation} {isPart : Term → m Bool} {isPart' : Term → n Bool}
    (hcompare : ∀ args, (∀ arg ∈ args, P arg) →
      S.rel (fun _ => True) (compareArgs args) (compareArgs' args))
    (hpart : ∀ t, P t → S.rel (fun _ => True) (isPart t) (isPart' t)) {t : Term} (ht : P t) :
    S.rel (fun _ => True) (Pattern.compareCon whnf ctor arity compareArgs isPart t)
      (Pattern.compareCon whnf' ctor arity compareArgs' isPart' t) := by
  unfold Pattern.compareCon
  cases hcon : t.conLike? with
  | some c => exact h.compareBuilt hcompare (h.parts.conLike ht hcon)
  | none =>
    refine S.bind (hpart t ht) fun found _ => ?_
    split
    · exact S.pure trivial
    · refine S.bind (h.eval t ht) fun u hu => ?_
      have hseen := h.compareSeen ctor arity hcompare hpart (h.pathHead hu)
      cases u with
      | conCall | numeral | pathApp => exact hseen
      | _ => exact S.pure trivial

theorem expose (h : S.Evaluation P whnf whnf') {t : Term} (ht : P t) :
    S.rel P (Pattern.expose whnf t) (Pattern.expose whnf' t) := by
  unfold Pattern.expose
  split
  · exact S.pure ht
  · exact S.bind (h.eval t ht) fun u hu => S.pure (h.pathHead hu)

theorem compareNumeral (h : S.Evaluation P whnf whnf') (shape : NatShape) (value : ℕ) {t : Term}
    (ht : P t) :
    S.rel (fun _ => True) (Pattern.compareNumeral whnf shape value t)
      (Pattern.compareNumeral whnf' shape value t) := by
  induction value generalizing t with
  | zero =>
    simp only [Pattern.compareNumeral]
    refine S.bind (h.expose ht) fun u _ => ?_
    split <;> exact S.pure trivial
  | succ k ih =>
    simp only [Pattern.compareNumeral]
    refine S.bind (h.expose ht) fun u hu => ?_
    split
    · exact S.pure trivial
    · rename_i data c lift dataArgs pred
      split
      · apply ih
        exact h.parts.conLike hu rfl pred (by simp)
      · exact S.pure trivial
    · exact S.pure trivial

mutual

theorem compare [LawfulMonad m] [LawfulMonad n] (h : S.Evaluation P whnf whnf') :
    ∀ (p : Pattern) {t : Term}, P t → S.rel (fun _ => True) (p.compare whnf t) (p.compare whnf' t)
  | .con _ ctor _ _ args, t, ht => by
    simp only [Pattern.compare]
    exact h.compareCon ctor args.length (fun ts hts => compareList h args hts)
      (fun t ht => isPartOf h args ht) ht
  | .bind x _, t, _ => by
    simp only [Pattern.compare]
    exact S.pure trivial
  | .numeral value shape, t, ht => by
    simp only [Pattern.compare]
    exact h.compareNumeral shape value ht
  | .tuple _, t, _ => by
    simp only [Pattern.compare]
    exact S.pure trivial
  | .absurd, t, _ => by
    simp only [Pattern.compare]
    exact S.pure trivial
  | .hole _ _ _, t, _ => by
    simp only [Pattern.compare]
    exact S.pure trivial

theorem compareList [LawfulMonad m] [LawfulMonad n] (h : S.Evaluation P whnf whnf') :
    ∀ (ps : List Pattern) {ts : List Term}, (∀ t ∈ ts, P t) →
      S.rel (fun _ => True) (Pattern.compareList whnf ps ts) (Pattern.compareList whnf' ps ts)
  | [], ts, _ => by
    simp only [Pattern.compareList]
    exact S.pure trivial
  | p :: ps, [], _ => by
    simp only [Pattern.compareList]
    exact S.pure trivial
  | p :: ps, t :: ts, hts => by
    simp only [Pattern.compareList]
    refine S.bind (compare h p (hts t (by simp))) fun r _ => ?_
    have hrest := compareList h ps fun u (hu : u ∈ ts) => hts u (by simp [hu])
    exact S.bind hrest fun r' _ => S.pure trivial

theorem isPartOf [LawfulMonad m] [LawfulMonad n] (h : S.Evaluation P whnf whnf') :
    ∀ (ps : List Pattern) {t : Term}, P t →
      S.rel (fun _ => True) (Pattern.isPartOf whnf ps t) (Pattern.isPartOf whnf' ps t)
  | [], t, _ => by
    simp only [Pattern.isPartOf]
    exact S.pure trivial
  | p :: ps, t, ht => by
    simp only [Pattern.isPartOf]
    refine S.bind (compare h p ht) fun r _ => ?_
    split
    · exact isPartOf h ps ht
    · exact S.pure trivial

end

end Evaluation

end Simulation

end ProofCore
