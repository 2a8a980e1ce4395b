import ProofCore.Proofs.EvaluationRules

/-!
# Patterns and the terms read back from them

A pattern that has no absurd part can be read back as the term it matches exactly. Other terms may
then be put in the place of its variables. Matching undoes this: it finds the terms again in the
order in which the pattern lists its variables, and has nothing to evaluate on the way.
-/
namespace ProofCore

namespace Pattern

/-- What a pattern is, leaving its parts aside. -/
inductive Kind where
  | absurd
  | bind
  | tuple
  | con
  | numeral
  | hole
  deriving DecidableEq

def kind : Pattern → Kind
  | .absurd => .absurd
  | .bind _ _ => .bind
  | .tuple _ => .tuple
  | .con _ _ _ _ _ => .con
  | .numeral _ _ => .numeral
  | .hole _ _ _ => .hole

/-- The immediate parts of a pattern. -/
def subpatterns : Pattern → List Pattern
  | .tuple items => items
  | .con _ _ _ _ args => args
  | .hole solution _ _ => solution.toList
  | .absurd | .bind _ _ | .numeral _ _ => []

theorem sizeOf_lt_of_mem_subpatterns {p q : Pattern} (h : q ∈ p.subpatterns) :
    sizeOf q < sizeOf p := by
  cases p with
  | tuple items =>
    have hlt : sizeOf q < sizeOf items := List.sizeOf_lt_of_mem h
    simp
    omega
  | con data ctor lift dataArgs args =>
    have hlt : sizeOf q < sizeOf args := List.sizeOf_lt_of_mem h
    simp
    omega
  | hole solution =>
    obtain rfl : solution = some q := by simpa [subpatterns, eq_comm] using h
    simp
    omega
  | absurd | bind | numeral => cases h

/-- What holds of a pattern if it holds of its immediate parts holds of every pattern. -/
@[elab_as_elim]
theorem subpatternInduction {motive : Pattern → Prop} (p : Pattern)
    (step : ∀ p, (∀ q ∈ p.subpatterns, motive q) → motive p) : motive p :=
  step p fun q hq =>
    have := sizeOf_lt_of_mem_subpatterns hq
    subpatternInduction q step
termination_by sizeOf p

/-- A pattern and all its parts are of the given kinds. -/
inductive MadeOf (kinds : List Kind) : Pattern → Prop
  | intro {p : Pattern} :
    p.kind ∈ kinds → (∀ q ∈ p.subpatterns, MadeOf kinds q) → MadeOf kinds p

section MadeOf

variable {kinds : List Kind} {p : Pattern}

theorem madeOf_iff :
    p.MadeOf kinds ↔ p.kind ∈ kinds ∧ ∀ q ∈ p.subpatterns, q.MadeOf kinds :=
  ⟨fun h => by cases h with | intro hkind hparts => exact ⟨hkind, hparts⟩,
    fun h => .intro h.1 h.2⟩

@[simp] theorem madeOf_absurd : absurd.MadeOf kinds ↔ .absurd ∈ kinds := by
  rw [madeOf_iff]
  simp [kind, subpatterns]

@[simp] theorem madeOf_bind {x : Var} {type : Term} :
    (bind x type).MadeOf kinds ↔ .bind ∈ kinds := by
  rw [madeOf_iff]
  simp [kind, subpatterns]

@[simp] theorem madeOf_numeral {value : ℕ} {shape : NatShape} :
    (numeral value shape).MadeOf kinds ↔ .numeral ∈ kinds := by
  rw [madeOf_iff]
  simp [kind, subpatterns]

@[simp] theorem madeOf_tuple {items : List Pattern} :
    (tuple items).MadeOf kinds ↔ .tuple ∈ kinds ∧ ∀ q ∈ items, q.MadeOf kinds := madeOf_iff

@[simp] theorem madeOf_con {data ctor : DefId} {lift : ℕ} {dataArgs : List Term}
    {args : List Pattern} :
    (con data ctor lift dataArgs args).MadeOf kinds ↔
      .con ∈ kinds ∧ ∀ q ∈ args, q.MadeOf kinds := madeOf_iff

end MadeOf

/-- A pattern without holes. -/
abbrev HoleFree (p : Pattern) : Prop := p.MadeOf [.absurd, .bind, .tuple, .con, .numeral]

/-- What follows for each of the patterns follows along two lists. -/
theorem forall₂_of_mem {R S : Pattern → Term → Prop} {ps : List Pattern} {ts : List Term}
    (h : ∀ p ∈ ps, ∀ t, R p t → S p t) (hts : List.Forall₂ R ps ts) : List.Forall₂ S ps ts :=
  ((List.forall₂_and_left ps ts).mpr ⟨h, hts⟩).imp fun _ t hpt => hpt.1 t hpt.2

section Reading

variable {data ctor : DefId} {lift : ℕ} {dataArgs : List Term} {args items ps : List Pattern}
  {p : Pattern} {t : Term} {ts : List Term}

theorem toTermList_eq_ok :
    toTermList ps = .ok ts ↔ List.Forall₂ (fun p t => p.toTerm = .ok t) ps ts := by
  induction ps generalizing ts with
  | nil => cases ts <;> simp [toTermList]
  | cons p ps ih =>
    rw [toTermList]
    cases hp : p.toTerm with
    | error e => cases ts <;> simp [Bind.bind, Except.bind, hp]
    | ok t =>
      cases hps : toTermList ps with
      | error e => cases ts <;> simp [Bind.bind, Except.bind, ← ih, hp, hps]
      | ok us => cases ts <;> simp [Bind.bind, Except.bind, pure, Except.pure, ← ih, hp, hps]

theorem toTerm_tuple_eq_ok :
    (tuple items).toTerm = .ok t ↔
      ∃ ts, List.Forall₂ (fun p t => p.toTerm = .ok t) items ts ∧ t = .tuple ts := by
  rw [toTerm]
  simp only [← toTermList_eq_ok]
  cases toTermList items <;> simp [Bind.bind, Except.bind, pure, Except.pure, eq_comm]

theorem toTerm_con_eq_ok :
    (con data ctor lift dataArgs args).toTerm = .ok t ↔
      ∃ ts, List.Forall₂ (fun p t => p.toTerm = .ok t) args ts ∧
        t = .conCall data ctor lift dataArgs ts := by
  rw [toTerm]
  simp only [← toTermList_eq_ok]
  cases toTermList args <;> simp [Bind.bind, Except.bind, pure, Except.pure, eq_comm]

/-- Only absurd patterns cannot be read back. -/
theorem MadeOf.exists_toTerm {kinds : List Kind} (h : p.MadeOf kinds) (habsurd : .absurd ∉ kinds) :
    ∃ t, p.toTerm = .ok t := by
  induction h with
  | @intro p hkind _ ih =>
    choose! read hread using ih
    have hparts : List.Forall₂ (fun p t => p.toTerm = .ok t) p.subpatterns
        (p.subpatterns.map read) :=
      List.forall₂_map_right_iff.mpr (List.forall₂_same.mpr hread)
    cases p with
    | absurd => exact (habsurd hkind).elim
    | tuple items => exact ⟨_, toTerm_tuple_eq_ok.mpr ⟨_, hparts, rfl⟩⟩
    | con => exact ⟨_, toTerm_con_eq_ok.mpr ⟨_, hparts, rfl⟩⟩
    | bind | numeral | hole => exact ⟨_, by rw [toTerm]⟩

end Reading

mutual

/-- The term `t` that was read back from a pattern, with `σ x` in the place of each variable `x`
that the pattern binds. -/
def fill (σ : Var → Term) : Pattern → Term → Term
  | .bind _ _, .free x => σ x
  | .tuple items, .tuple ts => .tuple (fillList σ items ts)
  | .con _ _ _ _ args, .conCall data ctor lift dataArgs ts =>
    .conCall data ctor lift dataArgs (fillList σ args ts)
  | _, t => t

def fillList (σ : Var → Term) : List Pattern → List Term → List Term
  | p :: ps, t :: ts => p.fill σ t :: fillList σ ps ts
  | _, _ => []

end

@[simp] theorem fillList_eq_zipWith (σ : Var → Term) (ps : List Pattern) (ts : List Term) :
    fillList σ ps ts = List.zipWith (fill σ) ps ts := by
  induction ps generalizing ts with
  | nil => simp [fillList]
  | cons p ps ih => cases ts <;> simp [fillList, ih]

section Matching

variable {m : Type → Type} [Monad m] [LawfulMonad m] {whnf : Term → m Term} {σ : Var → Term}
  {p : Pattern} {t : Term} {ps : List Pattern} {ts : List Term}

theorem forall₂_fill {R : Pattern → Term → Prop}
    (hts : List.Forall₂ (fun p t => p.toTerm = .ok t) ps ts)
    (h : ∀ p ∈ ps, ∀ t, p.toTerm = .ok t → R p (p.fill σ t)) :
    List.Forall₂ R ps (List.zipWith (fill σ) ps ts) := by
  induction hts with
  | nil => exact .nil
  | cons ht _ ih =>
    rw [List.forall_mem_cons] at h
    exact .cons (h.1 _ ht) (ih h.2)

/-- Where each pattern matches its term, the terms that they bind come one after the other. -/
theorem matchList_of_forall₂ {bound : Pattern → List Term}
    (h : List.Forall₂ (fun p t => p.matchTerm whnf t = pure (.matched (bound p))) ps ts) :
    matchList whnf ps ts = pure (.matched (ps.flatMap bound)) := by
  induction h with
  | nil => simp [matchList]
  | cons hp _ ih => simp [matchList, hp, ih]

theorem matchNumeral_self (hwhnf : ∀ t, t.isRedexFree = true → whnf t = pure t) (value : ℕ)
    (shape : NatShape) :
    matchNumeral whnf shape value (.numeral value shape) = pure (.matched []) := by
  have hself := hwhnf (.numeral value shape) rfl
  cases value <;> simp [matchNumeral, matchNumeralWith, hself, numeralValue?]

/-- Matching finds the terms that were put in the place of the variables. -/
theorem MadeOf.matchTerm_fill (hwhnf : ∀ t, t.isRedexFree = true → whnf t = pure t)
    (hp : p.MadeOf [.bind, .tuple, .con, .numeral]) (ht : p.toTerm = .ok t) :
    p.matchTerm whnf (p.fill σ t) = pure (.matched (p.bindings.map fun b => σ b.1)) := by
  induction hp generalizing t with
  | @intro p hkind _ ih =>
    have hlist : ∀ {ts : List Term},
        List.Forall₂ (fun p t => p.toTerm = .ok t) p.subpatterns ts →
        matchList whnf p.subpatterns (List.zipWith (fill σ) p.subpatterns ts) =
          pure (.matched ((p.subpatterns.flatMap bindings).map fun b => σ b.1)) := by
      intro ts hts
      rw [matchList_of_forall₂ (forall₂_fill hts fun q hq t => ih q hq), List.map_flatMap]
    cases p with
    | bind x type =>
      rw [toTerm] at ht
      cases ht
      simp [fill, matchTerm, bindings]
    | numeral value shape =>
      rw [toTerm] at ht
      cases ht
      simp [fill, matchTerm, bindings, matchNumeral_self hwhnf]
    | tuple items =>
      obtain ⟨ts, hts, rfl⟩ := toTerm_tuple_eq_ok.mp ht
      have hlen := hts.length_eq
      have hself := hwhnf (.tuple (List.zipWith (fill σ) items ts)) rfl
      simpa [fill, matchTerm, bindings, subpatterns, hself, hlen] using hlist hts
    | con data ctor lift dataArgs args =>
      obtain ⟨ts, hts, rfl⟩ := toTerm_con_eq_ok.mp ht
      have hlen := hts.length_eq
      have hself := hwhnf (.conCall data ctor lift dataArgs (List.zipWith (fill σ) args ts)) rfl
      simpa [fill, matchTerm, bindings, subpatterns, Term.conLike?, hself, hlen] using hlist hts
    | absurd | hole => simp [kind] at hkind

end Matching

end Pattern

namespace Env

theorem whnf_of_isRedexFree (env : Env) (stack : ℕ) {t : Term} (h : t.isRedexFree = true) :
    env.whnf (stack + 1) t = pure t := by
  cases t with
  | app | proj | fnCall => cases h
  | _ => rfl

/-- Matching undoes reading back: whatever terms are put in the place of the variables, they are
bound in the order of the pattern's bindings, and no fuel is spent. -/
theorem matchTerm_fill_toTerm (env : Env) (stack fuel : ℕ) (σ : Var → Term) {p : Pattern}
    (hp : p.MadeOf [.bind, .tuple, .con, .numeral]) :
    ∃ t, p.toTerm = .ok t ∧
      p.matchTerm (env.whnf (stack + 1)) (p.fill σ t) fuel =
        some (.matched (p.bindings.map fun b => σ b.1), fuel) := by
  obtain ⟨t, ht⟩ := hp.exists_toTerm (by decide)
  refine ⟨t, ht, ?_⟩
  rw [hp.matchTerm_fill (fun u hu => env.whnf_of_isRedexFree stack hu) ht]
  rfl

/-- A pair whose first part takes `x` and a numeral, and whose second part is `x` again. The data
arguments of the constructor mention `x` too, and it stays there. -/
def repeatedPair (x y : Var) : Pattern :=
  .tuple [.con ⟨1⟩ ⟨2⟩ 0 [.free x] [.bind x (.sort 0), .numeral 2 ⟨⟨3⟩, ⟨4⟩, ⟨5⟩⟩],
    .bind y (.sort 0), .bind x (.sort 0)]

/-- Calls in the place of the variables are bound as they are, the one for `x` twice. -/
theorem matchTerm_fill_toTerm_repeated :
    let x : Var := ⟨.supplied 0, "x"⟩
    let y : Var := ⟨.supplied 1, "y"⟩
    let call (z : Var) : Term := .fnCall ⟨6⟩ 0 [.free z]
    (repeatedPair x y).matchTerm (Env.whnf {} 1)
        (.tuple [.conCall ⟨1⟩ ⟨2⟩ 0 [.free x] [call x, .numeral 2 ⟨⟨3⟩, ⟨4⟩, ⟨5⟩⟩],
          call y, call x]) 7 =
      some (.matched [call x, call y, call x], 7) := by
  intro x y call
  have hkinds : (repeatedPair x y).MadeOf [.bind, .tuple, .con, .numeral] := by
    simp [repeatedPair]
  obtain ⟨t, ht, hmatch⟩ := matchTerm_fill_toTerm {} 0 7 call hkinds
  cases ht
  exact hmatch

end Env

end ProofCore
