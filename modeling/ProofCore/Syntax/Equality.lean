import ProofCore.Syntax.Term

/-!
# Decidable equality of terms and patterns

Terms and patterns contain lists of each other, so the test runs over all five kinds of part
together. `Term.same_iff_eq` and `Pattern.same_iff_eq` say that it decides equality.
-/
namespace ProofCore

mutual

def Term.same : Term → Term → Bool
  | .free x, .free y => x = y
  | .bound i, .bound j => i = j
  | .lam b, .lam c => b.same c
  | .app f a, .app g b => f.same g && a.same b
  | .tuple ts, .tuple us => Term.sameList ts us
  | .proj t i, .proj u j => t.same u && i = j
  | .pathApp f a, .pathApp g b => f.same g && a.same b
  | .fnCall f l ts, .fnCall g k us => f = g && l = k && Term.sameList ts us
  | .dataCall f l ts, .dataCall g k us => f = g && l = k && Term.sameList ts us
  | .conCall p f l ds ts, .conCall q g k es us =>
    p = q && f = g && l = k && Term.sameList ds es && Term.sameList ts us
  | .numeral n s, .numeral m r => n = m && s = r
  | .hole p, .hole q => p.same q
  | .sort l, .sort k => l = k
  | _, _ => false

def Term.sameList : List Term → List Term → Bool
  | [], [] => true
  | t :: ts, u :: us => t.same u && Term.sameList ts us
  | _, _ => false

def Pattern.same : Pattern → Pattern → Bool
  | .absurd, .absurd => true
  | .bind x t, .bind y u => x = y && t.same u
  | .tuple ps, .tuple qs => Pattern.sameList ps qs
  | .con p f l ds ps, .con q g k es qs =>
    p = q && f = g && l = k && Term.sameList ds es && Pattern.sameList ps qs
  | .numeral n s, .numeral m r => n = m && s = r
  | .hole p x t, .hole q y u => Pattern.sameOption p q && x = y && t.same u
  | _, _ => false

def Pattern.sameList : List Pattern → List Pattern → Bool
  | [], [] => true
  | p :: ps, q :: qs => p.same q && Pattern.sameList ps qs
  | _, _ => false

def Pattern.sameOption : Option Pattern → Option Pattern → Bool
  | none, none => true
  | some p, some q => p.same q
  | _, _ => false

end

mutual

theorem Term.same_iff_eq : ∀ t u : Term, t.same u = true ↔ t = u
  | .free x, u => by cases u <;> simp [Term.same]
  | .bound i, u => by cases u <;> simp [Term.same]
  | .lam b, u => by cases u <;> simp [Term.same, Term.same_iff_eq b]
  | .app f a, u => by cases u <;> simp [Term.same, Term.same_iff_eq f, Term.same_iff_eq a]
  | .tuple ts, u => by cases u <;> simp [Term.same, Term.sameList_iff_eq ts]
  | .proj t i, u => by cases u <;> simp [Term.same, Term.same_iff_eq t]
  | .pathApp f a, u => by cases u <;> simp [Term.same, Term.same_iff_eq f, Term.same_iff_eq a]
  | .fnCall f l ts, u => by cases u <;> simp [Term.same, Term.sameList_iff_eq ts, and_assoc]
  | .dataCall f l ts, u => by cases u <;> simp [Term.same, Term.sameList_iff_eq ts, and_assoc]
  | .conCall p f l ds ts, u => by
    cases u <;> simp [Term.same, Term.sameList_iff_eq ds, Term.sameList_iff_eq ts, and_assoc]
  | .numeral n s, u => by cases u <;> simp [Term.same]
  | .hole p, u => by cases u <;> simp [Term.same, Pattern.same_iff_eq p]
  | .sort l, u => by cases u <;> simp [Term.same]

theorem Term.sameList_iff_eq : ∀ ts us : List Term, Term.sameList ts us = true ↔ ts = us
  | [], us => by cases us <;> simp [Term.sameList]
  | t :: ts, us => by
    cases us <;> simp [Term.sameList, Term.same_iff_eq t, Term.sameList_iff_eq ts]

theorem Pattern.same_iff_eq : ∀ p q : Pattern, p.same q = true ↔ p = q
  | .absurd, q => by cases q <;> simp [Pattern.same]
  | .bind x t, q => by cases q <;> simp [Pattern.same, Term.same_iff_eq t]
  | .tuple ps, q => by cases q <;> simp [Pattern.same, Pattern.sameList_iff_eq ps]
  | .con p f l ds ps, q => by
    cases q <;> simp [Pattern.same, Term.sameList_iff_eq ds, Pattern.sameList_iff_eq ps, and_assoc]
  | .numeral n s, q => by cases q <;> simp [Pattern.same]
  | .hole p x t, q => by
    cases q <;> simp [Pattern.same, Pattern.sameOption_iff_eq p, Term.same_iff_eq t, and_assoc]

theorem Pattern.sameList_iff_eq :
    ∀ ps qs : List Pattern, Pattern.sameList ps qs = true ↔ ps = qs
  | [], qs => by cases qs <;> simp [Pattern.sameList]
  | p :: ps, qs => by
    cases qs <;> simp [Pattern.sameList, Pattern.same_iff_eq p, Pattern.sameList_iff_eq ps]

theorem Pattern.sameOption_iff_eq :
    ∀ p q : Option Pattern, Pattern.sameOption p q = true ↔ p = q
  | none, q => by cases q <;> simp [Pattern.sameOption]
  | some p, q => by cases q <;> simp [Pattern.sameOption, Pattern.same_iff_eq p]

end

instance : DecidableEq Term := fun t u => decidable_of_iff _ (Term.same_iff_eq t u)
instance : DecidableEq Pattern := fun p q => decidable_of_iff _ (Pattern.same_iff_eq p q)

end ProofCore
