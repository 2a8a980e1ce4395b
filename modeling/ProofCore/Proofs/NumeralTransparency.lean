import ProofCore.Proofs.NumeralTwins
import ProofCore.Proofs.RulesAdequacy

/-!
# Numerals are transparent to evaluation

Evaluation and matching do not tell similar terms apart. On similar terms both come to similar
results with the same fuel left, although a numeral is matched by its value and a constructor call
layer by layer. The one condition is that the shapes of numerals that occur agree on what zero and
successor are called, so that matching by value decides what matching by constructor would.
-/
namespace ProofCore

open Filter (Eventually atTop)

/-- A numeral of this shape occurs in the body or in a pattern of a function. -/
def Env.Mentions (env : Env) (shape : NatShape) : Prop :=
  ∃ id f, env.fns.get? id = some f ∧ ((∃ b ∈ (Def.fn f).bodyTerms, shape ∈ b.2.shapes) ∨
    ∃ p ∈ (Def.fn f).patterns, shape ∈ p.shapes)

/-- Results of matching that agree, with pairwise related bound terms. -/
inductive MatchResult.Related (R : Term → Term → Prop) : MatchResult → MatchResult → Prop
  | matched {bound bound' : List Term} (h : List.Forall₂ R bound bound') :
      Related R (.matched bound) (.matched bound')
  | mismatch : Related R .mismatch .mismatch
  | stuck : Related R .stuck .stuck

theorem MatchResult.Related.imp {R R' : Term → Term → Prop} {r r' : MatchResult}
    (h : r.Related R r') (hR : ∀ t t', R t t' → R' t t') : r.Related R' r' := by
  cases h with
  | matched h => exact .matched (h.imp hR)
  | mismatch => exact .mismatch
  | stuck => exact .stuck

theorem MatchResult.Related.failed {R : Term → Term → Prop} {r r' : MatchResult}
    (h : r.Related R r') (hr : ∀ bound, r ≠ .matched bound) : ∀ bound, r' ≠ .matched bound := by
  cases h with
  | matched => exact (hr _ rfl).elim
  | mismatch => simp
  | stuck => simp

theorem MatchResult.Related.of_matched {R : Term → Term → Prop} {bound : List Term}
    {r : MatchResult} (h : (MatchResult.matched bound).Related R r) :
    ∃ bound', r = .matched bound' ∧ List.Forall₂ R bound bound' := by
  cases h with
  | matched h => exact ⟨_, rfl, h⟩

namespace Env

open Term (Twins)

variable {S : NatShape → Prop} {env : Env} {task : Task} {a : Answer} {k k₁ k' : ℕ}

/-- A numeral pattern may be matched with the result of an evaluation in the place of the term. -/
theorem Runs.matching_of_evaluate {t u : Term} {value : ℕ} {shape : NatShape} {r : MatchResult}
    (h : env.Runs (.evaluate t) k (.term u) k₁) (hu : u.isRedexFree = true)
    (hmatch : env.Runs (.matching (.numeral value shape) u) k₁ (.outcome r) k') :
    env.Runs (.matching (.numeral value shape) t) k (.outcome r) k' := by
  have hdone : env.Runs (.evaluate u) k₁ (.term u) k₁ := .done hu
  cases hmatch with
  | byValue hwhole hvalue =>
    obtain ⟨heq, rfl⟩ := hdone.unique hwhole
    cases heq
    exact .byValue h hvalue
  | byForm hwhole hother hrest =>
    obtain ⟨heq, rfl⟩ := hdone.unique hwhole
    cases heq
    exact .byForm h hother hrest

/-- A numeral, whichever of its layers are written out, is matched by its value at no expense. -/
theorem runs_matching_twin (hS : Coherent S) {shape : NatShape} {n : ℕ} {u : Term}
    (h : Twins S (.numeral n shape) u) (value k : ℕ) :
    env.Runs (.matching (.numeral value shape) u) k
      (.outcome (if n = value then .matched [] else .mismatch)) k := by
  have hdone : ∀ {n u}, Twins S (.numeral n shape) u → env.Runs (.evaluate u) k (.term u) k :=
    fun h => .done (h.isRedexFree rfl)
  have hnumeral : ∀ {n u m value}, Twins S (.numeral n shape) u →
      Pattern.numeralValue? shape.data u = some m →
      env.Runs (.matching (.numeral value shape) u) k
        (.outcome (if n = value then .matched [] else .mismatch)) k := by
    intro n u m value h hvalue
    obtain rfl := Term.eq_numeral_of_numeralValue hS (h.left.head shape rfl) h.right hvalue
    obtain ⟨-, rfl⟩ := h.numeral_eq hS
    exact .byValue (hdone h) hvalue
  -- the induction is on the number, one layer of which is taken off where it is written out
  induction n generalizing u value with
  | zero =>
    cases hvalue : Pattern.numeralValue? shape.data u with
    | some m => exact hnumeral h hvalue
    | none =>
      obtain ⟨ts, hcon, hts⟩ := h.conLike rfl
      cases hts
      refine .byForm (hdone h) hvalue ?_
      cases value with
      | zero => exact .con (hdone h) hcon rfl .noPatterns
      | succ m => exact .conMismatch (hdone h) hcon (by simp)
  | succ n ih =>
    cases hvalue : Pattern.numeralValue? shape.data u with
    | some m => exact hnumeral h hvalue
    | none =>
      obtain ⟨ts, hcon, hts⟩ := h.conLike rfl
      cases hts with
      | cons harg hnil =>
        cases hnil
        refine .byForm (hdone h) hvalue ?_
        cases value with
        | zero => exact .conMismatch (hdone h) hcon (by simp)
        | succ m =>
          have hrest := ih harg m
          refine .con (hdone h) hcon rfl ?_
          by_cases hm : n = m
          · rw [if_pos hm] at hrest
            rw [if_pos (by omega)]
            exact .both hrest .noPatterns
          · rw [if_neg hm] at hrest
            rw [if_neg (by omega)]
            exact .firstFails hrest (by simp)

theorem related_decision {R : Term → Term → Prop} (c : Prop) [Decidable c] :
    (if c then MatchResult.matched [] else .mismatch).Related R
      (if c then .matched [] else .mismatch) := by
  split
  · exact .matched .nil
  · exact .mismatch

theorem exists_getElem?_of_forall₂ {R : Term → Term → Prop} {ts ts' : List Term}
    (h : List.Forall₂ R ts ts') {index : ℕ} {t : Term} (ht : ts[index]? = some t) :
    ∃ t', ts'[index]? = some t' ∧ R t t' := by
  induction h generalizing index with
  | nil => cases ht
  | cons hhead _ ih =>
    cases index with
    | zero =>
      cases ht
      exact ⟨_, rfl, hhead⟩
    | succ index => simpa using ih (by simpa using ht)

/-- Whatever differs from the task only in how numbers are written has an answer that differs from
its answer only so, and leaves the same fuel. -/
def Followed (env : Env) (S : NatShape → Prop) : Task → ℕ → Answer → ℕ → Prop
  | .evaluate t, k, .term u, k' => ∀ t', Twins S t t' →
    ∃ u', env.Runs (.evaluate t') k (.term u') k' ∧ Twins S u u'
  | .unfolding fn args, k, .body b, k' => ∀ args', List.Forall₂ (Twins S) args args' →
    ∃ b', env.Runs (.unfolding fn args') k (.body b') k' ∧ Option.Rel (Twins S) b b'
  | .selecting cs args, k, .body b, k' => ∀ args', List.Forall₂ (Twins S) args args' →
    ∃ b', env.Runs (.selecting cs args') k (.body b') k' ∧ Option.Rel (Twins S) b b'
  | .matching p t, k, .outcome r, k' => ∀ t', Twins S t t' →
    ∃ r', env.Runs (.matching p t') k (.outcome r') k' ∧ r.Related (Twins S) r'
  | .matchingAll ps ts, k, .outcome r, k' => ∀ ts', List.Forall₂ (Twins S) ts ts' →
    ∃ r', env.Runs (.matchingAll ps ts') k (.outcome r') k' ∧ r.Related (Twins S) r'
  | _, _, _, _ => False

/-- A term that is not a numeral is matched by its form, while its twin may be a numeral. -/
theorem Followed.byForm (hS : Coherent S) {value : ℕ} {shape : NatShape} (hshape : S shape)
    {t u : Term} {r : MatchResult} (hwhole : env.Followed S (.evaluate t) k (.term u) k₁)
    (hother : Pattern.numeralValue? shape.data u = none)
    (hrest : env.Runs (.matching (Pattern.constructorForm value shape) u) k₁ (.outcome r) k')
    (ihRest : env.Followed S (.matching (Pattern.constructorForm value shape) u) k₁
      (.outcome r) k') :
    env.Followed S (.matching (.numeral value shape) t) k (.outcome r) k' := by
  intro t' ht
  obtain ⟨u', hrun, hu⟩ := hwhole t' ht
  cases hvalue : Pattern.numeralValue? shape.data u' with
  | none =>
    obtain ⟨r', hrest', hr⟩ := ihRest u' hu
    exact ⟨r', .byForm hrun hvalue hrest', hr⟩
  | some n =>
    -- the twin is a numeral, so the term is the same number with its head written out
    obtain rfl := Term.eq_numeral_of_numeralValue hS hshape hu.right hvalue
    have hdone : env.Runs (.evaluate u) k₁ (.term u) k₁ := .done (hu.symm.isRedexFree rfl)
    obtain ⟨heq, rfl⟩ := (Runs.byForm hdone hother hrest).unique
      (runs_matching_twin hS hu.symm value k₁)
    cases heq
    exact ⟨_, .byValue hrun hvalue, related_decision _⟩

/-- Tasks that differ only in how numbers are written have answers that do so too, and leave the
same fuel. -/
theorem Runs.followed (hS : Coherent S) (henv : env.Uses (Term.ShapesIn S) (Pattern.ShapesIn S))
    (h : env.Runs task k a k') (hcode : task.Uses (Term.ShapesIn S) (Pattern.ShapesIn S)) :
    env.Followed S task k a k' := by
  induction h with
  | done hfree => exact fun t' ht => ⟨t', .done (ht.isRedexFree hfree), ht⟩
  | contract _ hopens _ ihFn ihRest =>
    intro t' ht
    obtain ⟨fn', arg', rfl, hfn, harg⟩ := ht.eq_app
    obtain ⟨_, hrun, hlam⟩ := ihFn trivial fn' hfn
    obtain ⟨body', rfl, hbody⟩ := hlam.eq_lam
    obtain ⟨opened', hopens', hopened⟩ := Twins.opens (.cons harg .nil) hbody hopens
    obtain ⟨u', hrest, hu⟩ := ihRest trivial opened' hopened
    exact ⟨u', .contract hrun hopens' hrest, hu⟩
  | app _ hstuck ihFn =>
    intro t' ht
    obtain ⟨fn', arg', rfl, hfn, harg⟩ := ht.eq_app
    obtain ⟨_, hrun, hresult⟩ := ihFn trivial fn' hfn
    rw [hresult.form_eq] at hstuck
    exact ⟨_, .app hrun hstuck, hresult.app harg⟩
  | item _ hitem _ ihWhole ihRest =>
    intro t' ht
    obtain ⟨whole', rfl, hwhole⟩ := ht.eq_proj
    obtain ⟨_, hrun, hresult⟩ := ihWhole trivial whole' hwhole
    obtain ⟨items', rfl, hitems⟩ := hresult.eq_tuple
    obtain ⟨found', hitem', hfound⟩ := exists_getElem?_of_forall₂ hitems hitem
    obtain ⟨u', hrest, hu⟩ := ihRest trivial found' hfound
    exact ⟨u', .item hrun hitem' hrest, hu⟩
  | proj _ hstuck ihWhole =>
    intro t' ht
    obtain ⟨whole', rfl, hwhole⟩ := ht.eq_proj
    obtain ⟨_, hrun, hresult⟩ := ihWhole trivial whole' hwhole
    refine ⟨_, .proj hrun ?_, hresult.proj _⟩
    rintro items' rfl
    obtain ⟨items, rfl, hitems⟩ := hresult.symm.eq_tuple
    have hnone := hstuck items rfl
    rw [List.getElem?_eq_none_iff] at hnone ⊢
    exact hitems.length_eq.trans_le hnone
  | exhausted =>
    intro t' ht
    obtain ⟨args', rfl, -⟩ := ht.eq_fnCall
    exact ⟨_, .exhausted, ht⟩
  | unfold _ _ ihUnfolds ihRest =>
    intro t' ht
    obtain ⟨args', rfl, hargs⟩ := ht.eq_fnCall
    obtain ⟨_, hunfolds, ⟨hunfolded⟩⟩ := ihUnfolds trivial args' hargs
    obtain ⟨u', hrest, hu⟩ := ihRest trivial _ hunfolded
    exact ⟨u', .unfold hunfolds hrest, hu⟩
  | keep _ ih =>
    intro t' ht
    obtain ⟨args', rfl, hargs⟩ := ht.eq_fnCall
    obtain ⟨_, hstuck, ⟨⟩⟩ := ih trivial args' hargs
    exact ⟨_, .keep hstuck, ht⟩
  | unknown hunfit =>
    exact fun args' hargs => ⟨_, .unknown fun f hf => hargs.length_eq ▸ hunfit f hf, .none⟩
  | expr hf hfit hbody hopens =>
    intro args' hargs
    obtain ⟨u', hopens', hu⟩ := Twins.opens (List.forall₂_reverse_iff.mpr hargs)
      (.refl (henv.expr hf hbody)) hopens
    exact ⟨_, .expr hf (hargs.length_eq ▸ hfit) hbody hopens', .some hu⟩
  | clauses hf hfit hbody _ ih =>
    intro args' hargs
    obtain ⟨b', hselects, hb⟩ := ih (henv.clauses hf hbody _) args' hargs
    exact ⟨b', .clauses hf (hargs.length_eq ▸ hfit) hbody hselects, hb⟩
  | noClause => exact fun args' _ => ⟨_, .noClause, .none⟩
  | @selected k k₁ args bound c cs u _ hopens ih =>
    intro args' hargs
    obtain ⟨hbody, hpatterns⟩ := hcode c (by simp)
    obtain ⟨_, hmatching, hr⟩ := ih hpatterns args' hargs
    obtain ⟨_, rfl, hbound⟩ := hr.of_matched
    obtain ⟨u', hopens', hu⟩ := Twins.opens (List.forall₂_reverse_iff.mpr hbound)
      (.refl hbody) hopens
    exact ⟨_, .selected hmatching hopens', .some hu⟩
  | @passed k k₁ k₂ args c cs b _ _ ihMatch ihRest =>
    intro args' hargs
    obtain ⟨_, hmatching, ⟨⟩⟩ := ihMatch (hcode c (by simp)).2 args' hargs
    obtain ⟨b', hrest, hb⟩ := ihRest (fun c hc => hcode c (by simp [hc])) args' hargs
    exact ⟨b', .passed hmatching hrest, hb⟩
  | @blocked k k₁ args c cs _ ih =>
    intro args' hargs
    obtain ⟨_, hmatching, ⟨⟩⟩ := ih (hcode c (by simp)).2 args' hargs
    exact ⟨_, .blocked hmatching, .none⟩
  | bind => exact fun t' ht => ⟨_, .bind, .matched (.cons ht .nil)⟩
  | absurd => exact fun _ _ => ⟨_, .absurd, .stuck⟩
  | openHole => exact fun _ _ => ⟨_, .openHole, .stuck⟩
  | solved _ ih =>
    intro t' ht
    have hsolution := by simpa [Task.Uses, Pattern.ShapesIn, Pattern.shapes] using hcode
    obtain ⟨r', hrun, hr⟩ := ih hsolution t' ht
    exact ⟨r', .solved hrun, hr⟩
  | tuple _ hfit _ ihWhole ihRest =>
    intro t' ht
    obtain ⟨_, hrun, hresult⟩ := ihWhole trivial t' ht
    obtain ⟨ts', rfl, hts⟩ := hresult.eq_tuple
    obtain ⟨r', hrest, hr⟩ := ihRest (Pattern.shapesIn_tuple hcode) ts' hts
    exact ⟨r', .tuple hrun (hts.length_eq ▸ hfit) hrest, hr⟩
  | tupleStuck _ hunfit ihWhole =>
    intro t' ht
    obtain ⟨_, hrun, hresult⟩ := ihWhole trivial t' ht
    refine ⟨_, .tupleStuck hrun ?_, .stuck⟩
    rintro ts' rfl
    obtain ⟨ts, rfl, hts⟩ := hresult.symm.eq_tuple
    exact hts.length_eq.symm ▸ hunfit ts rfl
  | con _ hbuilt hfit _ ihWhole ihRest =>
    intro t' ht
    obtain ⟨_, hrun, hresult⟩ := ihWhole trivial t' ht
    obtain ⟨ts', hbuilt', hts⟩ := hresult.conLike hbuilt
    obtain ⟨r', hrest, hr⟩ := ihRest (Pattern.shapesIn_con hcode) ts' hts
    exact ⟨r', .con hrun hbuilt' (hts.length_eq ▸ hfit) hrest, hr⟩
  | conMismatch _ hbuilt hunfit ihWhole =>
    intro t' ht
    obtain ⟨_, hrun, hresult⟩ := ihWhole trivial t' ht
    obtain ⟨ts', hbuilt', hts⟩ := hresult.conLike hbuilt
    exact ⟨_, .conMismatch hrun hbuilt' (hts.length_eq ▸ hunfit), .mismatch⟩
  | conStuck _ hstuck ihWhole =>
    intro t' ht
    obtain ⟨_, hrun, hresult⟩ := ihWhole trivial t' ht
    exact ⟨_, .conStuck hrun (hresult.conLike_eq_none hstuck), .stuck⟩
  | @byValue k k₁ value n shape t u _ hvalue ihWhole =>
    intro t' ht
    obtain ⟨_, hrun, hresult⟩ := ihWhole trivial t' ht
    have hshape : S shape := hcode shape (by simp [Pattern.shapes])
    obtain rfl := Term.eq_numeral_of_numeralValue hS hshape hresult.left hvalue
    exact ⟨_, hrun.matching_of_evaluate (hresult.isRedexFree rfl)
      (runs_matching_twin hS hresult value k₁), related_decision _⟩
  | @byForm k k₁ k₂ value shape t u r _ hother hrest ihWhole ihRest =>
    have hshape : S shape := hcode shape (by simp [Pattern.shapes])
    exact .byForm hS hshape (ihWhole trivial) hother hrest
      (ihRest (Pattern.shapesIn_constructorForm hshape))
  | noPatterns => exact fun _ _ => ⟨_, .noPatterns, .matched .nil⟩
  | noTerms =>
    rintro _ ⟨⟩
    exact ⟨_, .noTerms, .matched .nil⟩
  | both _ _ ihFirst ihOthers =>
    rintro _ (_ | ⟨ht, hts⟩)
    rw [Task.Uses, List.forall_mem_cons] at hcode
    obtain ⟨_, hfirst, hr⟩ := ihFirst hcode.1 _ ht
    obtain ⟨_, rfl, hbound⟩ := hr.of_matched
    obtain ⟨_, hothers, hr⟩ := ihOthers hcode.2 _ hts
    obtain ⟨_, rfl, hrest⟩ := hr.of_matched
    exact ⟨_, .both hfirst hothers, .matched (List.rel_append hbound hrest)⟩
  | firstFails _ hfailed ih =>
    rintro _ (_ | ⟨ht, hts⟩)
    rw [Task.Uses, List.forall_mem_cons] at hcode
    obtain ⟨r', hfirst, hr⟩ := ih hcode.1 _ ht
    exact ⟨r', .firstFails hfirst (hr.failed hfailed), hr⟩
  | othersFail _ _ hfailed ihFirst ihOthers =>
    rintro _ (_ | ⟨ht, hts⟩)
    rw [Task.Uses, List.forall_mem_cons] at hcode
    obtain ⟨_, hfirst, hr⟩ := ihFirst hcode.1 _ ht
    obtain ⟨_, rfl, hbound⟩ := hr.of_matched
    obtain ⟨r', hothers, hr⟩ := ihOthers hcode.2 _ hts
    exact ⟨r', .othersFail hfirst hothers (hr.failed hfailed), hr⟩

theorem uses_of_mentions (h : ∀ shape, env.Mentions shape → S shape) :
    env.Uses (Term.ShapesIn S) (Pattern.ShapesIn S) where
  body id f hf b hb := Term.shapesIn_iff.mpr fun shape hshape =>
    h shape ⟨id, f, hf, .inl ⟨b, hb, hshape⟩⟩
  pattern id f hf p hp shape hshape := h shape ⟨id, f, hf, .inr ⟨p, hp, hshape⟩⟩

/-- Evaluation and matching do not tell similar terms apart if the shapes that occur agree: their
results are similar, and the same fuel is left. -/
theorem numerals_transparent {t t' : Term} (h : t.Similar t') (stack k left : ℕ) :
    (Coherent (fun s => env.Mentions s ∨ s ∈ t.shapes ∨ s ∈ t'.shapes) →
      ∀ r, env.whnf stack t k = some (r, left) →
        ∃ r', r.Similar r' ∧ ∀ᶠ room in atTop, env.whnf room t' k = some (r', left)) ∧
    ∀ p : Pattern,
      Coherent (fun s => env.Mentions s ∨ s ∈ t.shapes ∨ s ∈ t'.shapes ∨ s ∈ p.shapes) →
      ∀ r, p.matchTerm (env.whnf stack) t k = some (r, left) →
        ∃ r', r.Related Term.Similar r' ∧
          ∀ᶠ room in atTop, p.matchTerm (env.whnf room) t' k = some (r', left) := by
  constructor
  · intro hS r hr
    have hruns := runs_evaluate_iff.mpr ⟨stack, hr⟩
    obtain ⟨r', hruns', hresult⟩ := hruns.followed hS (uses_of_mentions fun _ hs => .inl hs)
      trivial t' (.of_similar h (fun _ hs => .inr (.inl hs)) fun _ hs => .inr (.inr hs))
    exact ⟨r', Term.similar_iff.mpr hresult.written, hruns'.eventually⟩
  · intro p hS r hr
    have hruns := runs_matching_iff.mpr ⟨stack, hr⟩
    obtain ⟨r', hruns', hresult⟩ := hruns.followed hS (uses_of_mentions fun _ hs => .inl hs)
      (fun _ hs => .inr (.inr (.inr hs))) t'
      (.of_similar h (fun _ hs => .inr (.inl hs)) fun _ hs => .inr (.inr (.inl hs)))
    exact ⟨r', hresult.imp fun _ _ htwins => Term.similar_iff.mpr htwins.written,
      hruns'.eventually⟩

/-- A function that compares its argument with two, and otherwise takes off a successor. -/
def counting : Env := Env.add {} (.fn ⟨⟨4⟩, "count", [⟨"n", .dataCall ⟨1⟩ 0 [], true⟩],
  .dataCall ⟨1⟩ 0 [], .clauses [
    ⟨[.numeral 2 ⟨⟨1⟩, ⟨2⟩, ⟨3⟩⟩], .numeral 7 ⟨⟨1⟩, ⟨2⟩, ⟨3⟩⟩⟩,
    ⟨[.con ⟨1⟩ ⟨3⟩ 0 [] [.bind ⟨.supplied 0, "n"⟩ (.dataCall ⟨1⟩ 0 [])]],
      .fnCall ⟨4⟩ 0 [.bound 0]⟩]⟩)

theorem shape_of_mentions_counting {shape : NatShape} (h : counting.Mentions shape) :
    shape = ⟨⟨1⟩, ⟨2⟩, ⟨3⟩⟩ := by
  obtain ⟨id, f, hf, h⟩ := h
  rw [counting, Env.add, Table.get?_insert] at hf
  split at hf
  · cases hf
    rcases h with ⟨b, hb, hs⟩ | ⟨p, hp, hs⟩
    · revert shape
      revert b
      decide
    · revert shape
      revert p
      decide
  · cases hf

/-- A numeral and a number that is written out in part are counted alike, and bind similar terms. -/
theorem numerals_transparent_counting :
    let nat : NatShape := ⟨⟨1⟩, ⟨2⟩, ⟨3⟩⟩
    let four : Term := nat.sucTerm (nat.sucTerm (.numeral 2 nat))
    let below : Pattern := .con ⟨1⟩ ⟨3⟩ 0 [] [.bind ⟨.supplied 1, "m"⟩ (.dataCall ⟨1⟩ 0 [])]
    counting.whnf 12 (.fnCall ⟨4⟩ 0 [.numeral 4 nat]) 9 = some (.numeral 7 nat, 6) ∧
    (∃ r', (Term.numeral 7 nat).Similar r' ∧
      ∃ room, counting.whnf room (.fnCall ⟨4⟩ 0 [four]) 9 = some (r', 6)) ∧
    ∃ r', (MatchResult.matched [.numeral 3 nat]).Related Term.Similar r' ∧
      ∃ room, below.matchTerm (counting.whnf room) four 9 = some (r', 9) := by
  intro nat four below
  have hsimilar : (Term.numeral 4 nat).Similar four :=
    (Term.Similar.suc 3 nat).trans (Term.similar_sucTerm nat (.suc 2 nat))
  have hcall : (Term.fnCall ⟨4⟩ 0 [.numeral 4 nat]).Similar (.fnCall ⟨4⟩ 0 [four]) :=
    .congr (.fnCall ⟨4⟩ 0 [.sort 0]) (f := fun _ _ => .numeral 4 nat) (g := fun _ _ => four)
      fun _ _ => hsimilar
  have hcoherent : ∀ S : NatShape → Prop, (∀ s, S s → counting.Mentions s ∨ s = nat) →
      Coherent S := by
    intro S hall s s' hs hs' _
    have heq : ∀ s, S s → s = nat := fun s hs => (hall s hs).elim shape_of_mentions_counting id
    rw [heq s hs, heq s' hs']
  have hcalls : ∀ s ∈ (Term.fnCall ⟨4⟩ 0 [.numeral 4 nat]).shapes ++
      (Term.fnCall ⟨4⟩ 0 [four]).shapes, s = nat := by decide
  have hargs : ∀ s ∈ (Term.numeral 4 nat).shapes ++ four.shapes ++ below.shapes, s = nat := by
    decide
  have heval : counting.whnf 12 (.fnCall ⟨4⟩ 0 [.numeral 4 nat]) 9 =
      some (.numeral 7 nat, 6) := by decide +kernel
  have hmatch : below.matchTerm (counting.whnf 12) (.numeral 4 nat) 9 =
      some (.matched [.numeral 3 nat], 9) := rfl
  obtain ⟨r, hr, hroom⟩ := (numerals_transparent hcall 12 9 6).1
    (hcoherent _ fun s hs => hs.imp_right fun h => hcalls s (List.mem_append.mpr h)) _ heval
  obtain ⟨m, hm, hroom'⟩ := (numerals_transparent hsimilar 12 9 9).2 below
    (hcoherent _ fun s hs => hs.imp_right fun h => hargs s (by simpa [or_assoc] using h)) _ hmatch
  exact ⟨heval, ⟨r, hr, hroom.exists⟩, m, hm, hroom'.exists⟩

end Env

end ProofCore
