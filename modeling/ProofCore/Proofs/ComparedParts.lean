import ProofCore.Proofs.ComparedNumerals
import ProofCore.Proofs.ReadBack
import ProofCore.Proofs.Simulation
import ProofCore.Syntax.NatShape

/-!
# Comparing a pattern with what it is made of

Comparison recognises a pattern that is read back as a term, and in a constructor pattern every
variable and what a spine takes out of it; no evaluation gets in the way of that. Of the immediate
parts of a constructor pattern it recognises the variables, and those parts built by the same
constructor whose arguments compare one by one. A part built by another constructor it does not
recognise, however it is evaluated.
-/
namespace ProofCore

section Yields

variable {m : Type → Type} [Monad m] [LawfulMonad m] {α β : Type}

/-- A computation yields nothing but `a`, whatever else it does. -/
def Yields (a : α) (x : m α) : Prop := (fun _ => a) <$> x = x

theorem yields_pure (a : α) : Yields a (pure a : m α) := map_pure _ a

theorem yields_bind {a : β} {x : m α} {f : α → m β} (h : ∀ b, Yields a (f b)) :
    Yields a (x >>= f) := by
  rw [Yields, map_bind]
  exact bind_congr h

theorem Yields.bind {b : α} {a : β} {x : m α} {f : α → m β} (hx : Yields b x)
    (hf : Yields a (f b)) : Yields a (x >>= f) := by
  rw [← hx, map_eq_pure_bind, bind_assoc]
  exact yields_bind fun _ => by rwa [pure_bind]

end Yields

namespace Simulation

/-- A computation without effects and the same computation elsewhere. -/
def effectless (n : Type → Type) [Monad n] [LawfulMonad n] : Simulation Id n where
  rel Q x y := Q x.run ∧ y = Pure.pure x.run
  pure ha := ⟨ha, rfl⟩
  bind := by
    rintro α β P Q x y f g ⟨hx, rfl⟩ hfg
    rw [pure_bind]
    exact hfg x.run hx

end Simulation

namespace Term

/-- A spine of applications and projections, of any length, headed by the variable `x`. -/
inductive SpineOf (x : Var) : Term → Prop
  | head : SpineOf x (.free x)
  | app {fn : Term} (arg : Term) : SpineOf x fn → SpineOf x (.app fn arg)
  | pathApp {fn : Term} (arg : Term) : SpineOf x fn → SpineOf x (.pathApp fn arg)
  | proj {whole : Term} (index : ℕ) : SpineOf x whole → SpineOf x (.proj whole index)

variable {x : Var} {s : Term}

theorem SpineOf.spineHead_eq (h : s.SpineOf x) : s.spineHead = .free x := by
  induction h with
  | head => rfl
  | app _ _ ih | pathApp _ _ ih | proj _ _ ih => exact ih

theorem SpineOf.conLike_eq_none (h : s.SpineOf x) : s.conLike? = none := by
  cases h <;> rfl

/-- Built from variables and numerals by constructors. -/
inductive Built : Term → Prop
  | free (x : Var) : Built (.free x)
  | numeral (value : ℕ) (shape : NatShape) : Built (.numeral value shape)
  | conCall (data c : DefId) (lift : ℕ) (dataArgs : List Term) {args : List Term} :
    (∀ arg ∈ args, Built arg) → Built (.conCall data c lift dataArgs args)

theorem Built.conLike {t : Term} {c : DefId} {args : List Term} (h : t.Built)
    (hbuilt : t.conLike? = some (c, args)) : ∀ arg ∈ args, arg.Built := by
  cases h with
  | free => cases hbuilt
  | numeral value shape =>
    cases value with
    | zero =>
      cases hbuilt
      simp
    | succ n =>
      cases hbuilt
      simpa using Built.numeral n shape
  | conCall _ _ _ _ hargs =>
    cases hbuilt
    exact hargs

end Term

namespace Pattern

variable {m : Type → Type} [Monad m] [LawfulMonad m] {whnf : Term → m Term} {p : Pattern}
  {ps : List Pattern} {t s : Term} {ts : List Term} {x : Var}

theorem compareVar_spine (h : s.SpineOf x) : compareVar x s ≠ .unknown := by
  have hhead := h.spineHead_eq
  cases h <;> simp_all [compareVar]

/-- Evaluation that always has an answer gives comparison an answer. -/
theorem compare_eq_pure (whnf : Term → Term) {r : SizeRelation}
    (h : Yields r (p.compare (fun u => (pure (whnf u) : Id Term)) t)) :
    p.compare (fun u => (pure (whnf u) : m Term)) t = pure r := by
  have hsame : (Simulation.effectless m).Evaluation (fun _ => True)
      (fun u => pure (whnf u)) (fun u => pure (whnf u)) :=
    ⟨Term.passesToParts_true, fun _ _ => ⟨trivial, rfl⟩⟩
  rw [(hsame.compare p trivial).2]
  exact congrArg pure h.symm

theorem compareList_equal
    (h : List.Forall₂ (fun p t => p.compare whnf t = pure .equal) ps ts) :
    compareList whnf ps ts = pure .equal := by
  induction h with
  | nil => simp [compareList]
  | cons hp _ ih =>
    simp only [compareList, hp, ih, pure_bind]
    rfl

/-- What a pattern made of variables, constructors and numerals is read back as, part by part. -/
@[elab_as_elim]
theorem MadeOf.readBackInduction {motive : Pattern → Term → Prop}
    (hp : p.MadeOf [.bind, .con, .numeral]) (ht : p.toTerm = .ok t)
    (bind : ∀ x type, motive (.bind x type) (.free x))
    (numeral : ∀ value shape, motive (.numeral value shape) (.numeral value shape))
    (con : ∀ data c lift dataArgs args ts, List.Forall₂ motive args ts →
      motive (.con data c lift dataArgs args) (.conCall data c lift dataArgs ts)) :
    motive p t := by
  induction hp generalizing t with
  | @intro p hkind _ ih =>
    cases p with
    | bind x type =>
      rw [toTerm] at ht
      cases ht
      exact bind x type
    | numeral value shape =>
      rw [toTerm] at ht
      cases ht
      exact numeral value shape
    | con data c lift dataArgs args =>
      obtain ⟨ts, hts, rfl⟩ := toTerm_con_eq_ok.mp ht
      exact con _ _ _ _ _ _ (forall₂_of_mem (fun q hq t => ih q hq) hts)
    | absurd | tuple | hole => simp [kind] at hkind

/-- The term that is read back from a pattern compares as equal, and is not evaluated. -/
theorem MadeOf.compare_toTerm (hp : p.MadeOf [.bind, .con, .numeral]) (ht : p.toTerm = .ok t)
    (whnf : Term → m Term) : p.compare whnf t = pure .equal := by
  refine hp.readBackInduction ht ?bind ?numeral ?con
  case bind => simp [compare, compareVar]
  case numeral => simp [compare, compareNumeral_numeral, SizeRelation.ofOrdering]
  case con =>
    intro data c lift dataArgs args ts hargs
    simp [compare, compareCon, Term.conLike?, compareBuilt, hargs.length_eq,
      compareList_equal hargs]

/-- A term that compares with one of the patterns is a part of them. -/
theorem yields_isPartOf {r : SizeRelation} (hp : p ∈ ps) (h : Yields r (p.compare whnf t))
    (hr : r ≠ .unknown) : Yields true (isPartOf whnf ps t) := by
  induction ps with
  | nil => cases hp
  | cons q ps ih =>
    rw [isPartOf]
    rcases List.mem_cons.mp hp with rfl | hp
    · refine h.bind ?_
      rw [if_neg hr]
      exact yields_pure true
    · refine yields_bind fun r' => ?_
      split
      · exact ih hp
      · exact yields_pure true

theorem yields_compareCon {ctor : DefId} {arity : ℕ} {compareArgs : List Term → m SizeRelation}
    {isPart : Term → m Bool} (ht : t.conLike? = none) (hpart : Yields true (isPart t)) :
    Yields .lessThan (compareCon whnf ctor arity compareArgs isPart t) := by
  rw [compareCon, ht]
  refine hpart.bind ?_
  rw [if_pos rfl]
  exact yields_pure _

/-- A spine headed by a variable of a pattern compares with the pattern. -/
theorem MadeOf.compare_spine (hp : p.MadeOf [.bind, .con, .numeral])
    (hx : x ∈ p.bindings.map Prod.fst) (hs : s.SpineOf x) (whnf : Term → m Term) :
    ∃ r, Yields r (p.compare whnf s) ∧ r ≠ .unknown ∧ (p.kind = .con → r = .lessThan) := by
  induction hp with
  | @intro p hkind _ ih =>
    cases p with
    | bind y type =>
      obtain rfl : x = y := by simpa [bindings] using hx
      rw [compare]
      exact ⟨_, yields_pure _, compareVar_spine hs, by simp [kind]⟩
    | numeral => simp [bindings] at hx
    | con data ctor lift dataArgs args =>
      obtain ⟨q, hq, hxq⟩ : ∃ q ∈ args, x ∈ q.bindings.map Prod.fst := by
        simpa [bindings, List.map_flatMap] using hx
      obtain ⟨r, hr, hknown, -⟩ := ih q hq hxq
      rw [compare]
      have hpart := yields_isPartOf hq hr hknown
      exact ⟨_, yields_compareCon hs.conLike_eq_none hpart, by simp, fun _ => rfl⟩
    | absurd | tuple | hole => simp [kind] at hkind

/-- A constructor pattern recognises itself, read back, and all that its variables give rise to. The
answer for a spine is the same whatever evaluation does, and there is one if evaluation always
has one. -/
theorem MadeOf.compare_recognises (hp : p.MadeOf [.bind, .con, .numeral]) :
    (∃ t, p.toTerm = .ok t ∧ ∀ whnf : Term → m Term, p.compare whnf t = pure .equal) ∧
      (p.kind = .con → ∀ x ∈ p.bindings.map Prod.fst, ∀ s : Term, s.SpineOf x →
        (∀ whnf : Term → m Term, Yields .lessThan (p.compare whnf s)) ∧
          ∀ whnf : Term → Term,
            p.compare (fun u => (pure (whnf u) : m Term)) s = pure .lessThan) := by
  refine ⟨?_, fun hcon x hx s hs => ?_⟩
  · obtain ⟨t, ht⟩ := hp.exists_toTerm (by decide)
    exact ⟨t, ht, fun whnf => hp.compare_toTerm ht whnf⟩
  · have hless : ∀ {n : Type → Type} [Monad n] [LawfulMonad n] (whnf : Term → n Term),
        Yields .lessThan (p.compare whnf s) := by
      intro n _ _ whnf
      obtain ⟨r, hr, -, hlt⟩ := hp.compare_spine hx hs whnf
      rwa [hlt hcon] at hr
    exact ⟨hless, fun whnf => compare_eq_pure whnf (hless _)⟩

/-- A list with zero in front of `rest`. -/
def zeroBefore (rest : Pattern) : Pattern :=
  .con ⟨1⟩ ⟨2⟩ 0 [.sort 0] [.numeral 0 ⟨⟨3⟩, ⟨4⟩, ⟨5⟩⟩, rest]

/-- The same as a term. -/
def zeroBeforeTerm (rest : Term) : Term :=
  .conCall ⟨1⟩ ⟨2⟩ 0 [.sort 0] [.numeral 0 ⟨⟨3⟩, ⟨4⟩, ⟨5⟩⟩, rest]

/-- A list with two entries compares as equal, and what is taken out of its rest as smaller. -/
theorem compare_recognises_rest :
    let x : Var := ⟨.supplied 0, "x"⟩
    let list := zeroBefore (zeroBefore (.bind x (.sort 0)))
    list.compare some (zeroBeforeTerm (zeroBeforeTerm (.free x))) = some .equal ∧
      ∀ whnf : Term → Term, list.compare (fun u => some (whnf u))
        (.app (.pathApp (.proj (.free x) 1) (.sort 0)) (.sort 0)) = some .lessThan := by
  intro x list
  have hkinds : list.MadeOf [.bind, .con, .numeral] := by simp [list, zeroBefore]
  obtain ⟨⟨t, ht, hequal⟩, hspine⟩ := hkinds.compare_recognises (m := Option)
  cases ht
  have hrest := hspine rfl x (by decide) _ (.app (.sort 0) (.pathApp (.sort 0) (.proj 1 .head)))
  exact ⟨hequal some, hrest.2⟩

section Unevaluated

variable {ctor c : DefId} {arity : ℕ} {args : List Term} {r : SizeRelation}

/-- What comparison knows of a term without any evaluation is its answer with evaluation too. -/
def Steady (whnf : Term → m Term) (p : Pattern) (t : Term) : Prop :=
  ∀ r, p.compare some t = some r → r ≠ .unknown → Yields r (p.compare whnf t)

theorem yields_compareList (h : ∀ p ∈ ps, ∀ t ∈ ts, Steady whnf p t)
    (hr : compareList some ps ts = some r) (hknown : r ≠ .unknown) :
    Yields r (compareList whnf ps ts) := by
  induction ps generalizing ts r with
  | nil =>
    simp only [compareList] at hr ⊢
    cases hr
    exact yields_pure _
  | cons p ps ih =>
    cases ts with
    | nil =>
      simp only [compareList] at hr ⊢
      cases hr
      exact yields_pure _
    | cons t ts =>
      rw [compareList] at hr ⊢
      obtain ⟨r₁, hr₁, hr⟩ := Option.bind_eq_some_iff.mp hr
      obtain ⟨r₂, hr₂, hr⟩ := Option.bind_eq_some_iff.mp hr
      cases hr
      have hknown₁ : r₁ ≠ .unknown := by
        rintro rfl
        exact hknown (SizeRelation.unknown_mul r₂)
      have hknown₂ : r₂ ≠ .unknown := by
        rintro rfl
        exact hknown (SizeRelation.mul_unknown r₁)
      have hfirst := h p (by simp) t (by simp) r₁ hr₁ hknown₁
      have hrest := ih (fun q hq u hu => h q (by simp [hq]) u (by simp [hu])) hr₂ hknown₂
      exact hfirst.bind (hrest.bind (yields_pure _))

theorem exists_of_isPartOf {whnf : Term → Option Term} (h : isPartOf whnf ps t = some true) :
    ∃ p ∈ ps, ∃ r, p.compare whnf t = some r ∧ r ≠ .unknown := by
  induction ps with
  | nil =>
    rw [isPartOf] at h
    cases h
  | cons p ps ih =>
    rw [isPartOf] at h
    obtain ⟨r, hr, h⟩ := Option.bind_eq_some_iff.mp h
    by_cases hknown : r = .unknown
    · rw [if_pos hknown] at h
      obtain ⟨q, hq, hqr⟩ := ih h
      exact ⟨q, by simp [hq], hqr⟩
    · exact ⟨p, by simp, r, hr, hknown⟩

/-- Where nothing is evaluated, the second attempt at the arguments is the first one again. -/
theorem compareBuilt_some {compareArgs : List Term → Option SizeRelation} :
    compareBuilt some ctor arity compareArgs c args =
      if c = ctor ∧ args.length = arity then compareArgs args else some .unknown := by
  rw [compareBuilt]
  split
  · have hsame : args.mapM some = some args := by
      simpa using List.mapM_pure (m := Option) (l := args) (f := id)
    cases hr : compareArgs args with
    | none => rfl
    | some r => by_cases hknown : r = .unknown <;> simp [hsame, hr, hknown]
  · rfl

theorem yields_compareBuilt {compareArgs : List Term → m SizeRelation}
    (hsame : c = ctor ∧ args.length = arity) (h : Yields r (compareArgs args))
    (hknown : r ≠ .unknown) : Yields r (compareBuilt whnf ctor arity compareArgs c args) := by
  rw [compareBuilt, if_pos hsame]
  refine h.bind ?_
  rw [if_neg hknown]
  exact yields_pure r

/-- A numeral pattern says of a term built from variables what it says without evaluation. -/
theorem steady_numeral (ht : t.Built) (value : ℕ) (shape : NatShape) :
    Steady whnf (numeral value shape) t := by
  intro r hr hknown
  simp only [compare] at hr ⊢
  induction ht generalizing value with
  | free x =>
    have hopen : compareNumeral some shape value (.free x) = some .unknown := by
      cases value <;> rfl
    exact (hknown (Option.some.inj (hr.symm.trans hopen))).elim
  | numeral k shape' =>
    rw [compareNumeral_numeral] at hr ⊢
    cases hr
    exact yields_pure _
  | @conCall data c lift dataArgs ts _ ih =>
    cases value with
    | zero =>
      rw [compareNumeral_zero_conCall] at hr ⊢
      cases hr
      exact yields_pure _
    | succ n =>
      by_cases hsuc : c = shape.suc ∧ ts.length = 1
      · obtain ⟨rfl, hlen⟩ := hsuc
        obtain ⟨pred, rfl⟩ := List.length_eq_one_iff.mp hlen
        rw [compareNumeral_suc] at hr ⊢
        exact ih pred (by simp) n hr
      · rw [compareNumeral_of_not_suc _ hsuc] at hr
        cases hr
        exact (hknown rfl).elim

/-- Evaluation does not take back what is known of a term built from variables. -/
theorem steady (p : Pattern) (ht : t.Built) : Steady whnf p t := by
  induction p using subpatternInduction generalizing t with
  | step p ih =>
    cases p with
    | numeral value shape => exact steady_numeral ht value shape
    | con data ctor lift dataArgs args =>
      intro r hr hknown
      rw [compare, compareCon] at hr ⊢
      cases hbuilt : t.conLike? with
      | some built =>
        simp only [hbuilt, compareBuilt_some] at hr ⊢
        split at hr
        · rename_i hsame
          refine yields_compareBuilt hsame ?_ hknown
          exact yields_compareList (fun q hq u hu => ih q hq (ht.conLike hbuilt u hu)) hr hknown
        · cases hr
          exact (hknown rfl).elim
      | none =>
        -- without a constructor the term is a variable, which no evaluation makes known
        cases ht with
        | free x =>
          simp only [hbuilt] at hr ⊢
          obtain ⟨found, hfound, hr⟩ := Option.bind_eq_some_iff.mp hr
          cases found with
          | true =>
            cases hr
            obtain ⟨q, hq, r', hr', hknown'⟩ := exists_of_isPartOf hfound
            have hpart := yields_isPartOf hq (ih q hq (.free x) r' hr' hknown') hknown'
            exact hpart.bind (yields_pure _)
          | false =>
            cases hr
            exact (hknown rfl).elim
        | numeral value => cases value <;> cases hbuilt
        | conCall => cases hbuilt
    | bind | tuple | absurd | hole =>
      intro r hr _
      rw [compare] at hr ⊢
      cases hr
      exact yields_pure _

end Unevaluated

theorem MadeOf.built (hp : p.MadeOf [.bind, .con, .numeral]) (ht : p.toTerm = .ok t) : t.Built := by
  refine hp.readBackInduction ht ?bind ?numeral ?con
  case bind => exact fun x _ => .free x
  case numeral => exact .numeral
  case con =>
    intro data c lift dataArgs args ts hargs
    refine .conCall _ _ _ _ fun u hu => ?_
    obtain ⟨i, hi, rfl⟩ := List.mem_iff_getElem.mp hu
    exact hargs.get (by rw [hargs.length_eq]; exact hi) hi

section Immediate

variable {data c c' : DefId} {lift : ℕ} {dataArgs : List Term} {args : List Pattern} {q : Pattern}

theorem compare_con_some (hbuilt : t.conLike? = some (c', ts)) :
    (con data c lift dataArgs args).compare some t =
      if c' = c ∧ ts.length = args.length then compareList some args ts else some .unknown := by
  rw [compare, compareCon, hbuilt]
  exact compareBuilt_some

/-- Only a variable is read back as a term that no constructor builds. -/
theorem MadeOf.conLike_eq_none_iff (hq : q.MadeOf [.bind, .con, .numeral]) (ht : q.toTerm = .ok t) :
    t.conLike? = none ↔ q.kind = .bind := by
  refine hq.readBackInduction ht ?bind ?numeral ?con
  case bind => simp [kind, Term.conLike?]
  case numeral =>
    intro value shape
    cases value <;> simp [kind, Term.conLike?]
  case con => simp [kind, Term.conLike?]

/-- Exactly these immediate parts of a constructor pattern compare as smaller with every evaluation:
the variables, and the parts built by the same constructor from as many arguments that compare as
smaller one by one, as they stand. A part built in another way compares as smaller with none. -/
theorem compare_immediate_part (hq : q ∈ args) (hkinds : q.MadeOf [.bind, .con, .numeral]) :
    ∃ t, q.toTerm = .ok t ∧
      ((∀ whnf : Term → Term,
          (con data c lift dataArgs args).compare (fun u => some (whnf u)) t = some .lessThan) ↔
        q.kind = .bind ∨ ∃ ts, t.conLike? = some (c, ts) ∧ ts.length = args.length ∧
          compareList some args ts = some .lessThan) ∧
      ∀ c' ts, t.conLike? = some (c', ts) → ¬(c' = c ∧ ts.length = args.length) →
        ∀ whnf : Term → Option Term,
          (con data c lift dataArgs args).compare whnf t = some .unknown := by
  obtain ⟨t, ht⟩ := hkinds.exists_toTerm (by decide)
  refine ⟨t, ht, ⟨fun h => ?_, fun h whnf => ?_⟩, fun c' ts hbuilt hother whnf => ?_⟩
  · cases hbuilt : t.conLike? with
    | none => exact .inl ((hkinds.conLike_eq_none_iff ht).mp hbuilt)
    | some built =>
      have hless := (compare_con_some hbuilt).symm.trans (h id)
      split at hless
      · rename_i hsame
        exact .inr ⟨built.2, hsame.1 ▸ rfl, hsame.2, hless⟩
      · cases hless
  · refine compare_eq_pure whnf ?_
    rcases h with hbind | ⟨ts, hbuilt, hlen, hless⟩
    · have hself := hkinds.compare_toTerm ht fun u => (pure (whnf u) : Id Term)
      have hpart := yields_isPartOf hq (hself ▸ yields_pure _) (by simp)
      rw [compare]
      exact yields_compareCon ((hkinds.conLike_eq_none_iff ht).mpr hbind) hpart
    · refine steady _ (hkinds.built ht) _ ?_ (by simp)
      rw [compare_con_some hbuilt, if_pos ⟨rfl, hlen⟩]
      exact hless
  · rw [compare, compareCon, hbuilt]
    exact if_neg hother

/-- The list without its first entry is smaller, since its own first entry is the same. -/
theorem compare_immediate_part_rest :
    let x : Var := ⟨.supplied 0, "x"⟩
    ∀ whnf : Term → Term, (zeroBefore (zeroBefore (.bind x (.sort 0)))).compare
      (fun u => some (whnf u)) (zeroBeforeTerm (.free x)) = some .lessThan := by
  intro x
  obtain ⟨t, ht, hiff, -⟩ := compare_immediate_part
    (q := zeroBefore (.bind x (.sort 0))) (List.mem_cons_of_mem _ (List.mem_singleton_self _))
    (by simp [zeroBefore])
  cases ht
  exact hiff.mpr (.inr ⟨_, rfl, rfl, by decide +kernel⟩)

/-- Zero is an immediate part of the pattern for one, and no evaluation makes it smaller. -/
theorem zeroPattern_not_smaller :
    let nat : NatShape := ⟨⟨1⟩, ⟨2⟩, ⟨3⟩⟩
    (nat.sucPattern nat.zeroPattern).MadeOf [.bind, .con, .numeral] ∧
      nat.zeroPattern ∈ (nat.sucPattern nat.zeroPattern).subpatterns ∧
      nat.zeroPattern.toTerm = .ok nat.zeroTerm ∧
      ∀ whnf : Term → Option Term,
        (nat.sucPattern nat.zeroPattern).compare whnf nat.zeroTerm = some .unknown := by
  intro nat
  exact ⟨by simp [NatShape.sucPattern, NatShape.zeroPattern], by simp [NatShape.sucPattern,
    subpatterns], rfl, fun whnf => rfl⟩

end Immediate

end Pattern

end ProofCore
