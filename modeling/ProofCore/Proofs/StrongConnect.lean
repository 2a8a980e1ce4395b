import ProofCore.Proofs.GraphEdges
import ProofCore.Data.StrongComponents

/-!
# The traversal that closes components

What holds while vertices are being visited (`Sound`): the stack holds the vertices that have been
entered and belong to no closed component, the latest one first. Each active vertex leads to all
vertices that are above it on the stack, and each vertex on the stack leads to an active one at or
below it. Visiting a vertex keeps this, and the low number it leaves behind bounds the edges from
what it has added to the stack into what was there before (`Visited`). So a vertex that keeps its
own number stands above vertices of its own class only, and no edge leads from the class to the rest
of the stack.
-/
namespace ProofCore

/-- Components that have been closed one after the other: each is strongly connected, and its edges
lead into itself or into an earlier one. -/
structure Digraph.ClosedComponents {α : Type} [DecidableEq α] (g : Digraph α)
    (cs : List (List α)) : Prop where
  ne_nil : [] ∉ cs
  sublist : ∀ c ∈ cs, c.Sublist g.vertices
  connected : ∀ c ∈ cs, ∀ u ∈ c, ∀ v ∈ c, g.Path u v
  disjoint : cs.Pairwise List.Disjoint
  closed : ∀ u ∈ cs.flatten, ∀ v, g.Edge u v → v ∈ cs.flatten
  ordered : cs.Pairwise fun earlier later => ∀ u ∈ earlier, ∀ v ∈ later, ¬ g.Edge u v

namespace Digraph.ClosedComponents

variable {α : Type} [DecidableEq α] {g : Digraph α} {cs : List (List α)}

theorem nil (g : Digraph α) : g.ClosedComponents [] :=
  ⟨by simp, by simp, by simp, .nil, by simp, .nil⟩

theorem concat (h : g.ClosedComponents cs) {c : List α} (hne : c ≠ [])
    (hsub : c.Sublist g.vertices) (hconnected : ∀ u ∈ c, ∀ v ∈ c, g.Path u v)
    (hnew : ∀ v ∈ c, v ∉ cs.flatten)
    (hedge : ∀ u ∈ c, ∀ v, g.Edge u v → v ∈ cs.flatten ∨ v ∈ c) :
    g.ClosedComponents (cs ++ [c]) where
  ne_nil := by simp [h.ne_nil, hne]
  sublist := by
    intro d hd
    rcases List.mem_append.mp hd with hd | hd
    · exact h.sublist d hd
    · exact List.mem_singleton.mp hd ▸ hsub
  connected := by
    intro d hd
    rcases List.mem_append.mp hd with hd | hd
    · exact h.connected d hd
    · exact List.mem_singleton.mp hd ▸ hconnected
  disjoint := by
    refine List.pairwise_append.mpr ⟨h.disjoint, List.pairwise_singleton .., ?_⟩
    intro b hb d hd v hvb hvd
    rw [List.mem_singleton.mp hd] at hvd
    exact hnew v hvd (List.mem_flatten.mpr ⟨b, hb, hvb⟩)
  closed := by
    intro u hu v huv
    rw [List.flatten_append, List.flatten_singleton, List.mem_append] at hu ⊢
    rcases hu with hu | hu
    · exact .inl (h.closed u hu v huv)
    · exact hedge u hu v huv
  ordered := by
    refine List.pairwise_append.mpr ⟨h.ordered, List.pairwise_singleton .., ?_⟩
    intro b hb d hd u hu v hv huv
    rw [List.mem_singleton.mp hd] at hv
    exact hnew v hv (h.closed u (List.mem_flatten.mpr ⟨b, hb, hu⟩) v huv)

end Digraph.ClosedComponents

namespace Traversal

variable {α : Type} [DecidableEq α] {g : Digraph α} {active : List α} {s t : Traversal α} {v w : α}

/-- Whether a vertex has been entered. -/
def Entered (s : Traversal α) (v : α) : Prop := (s.indexOf v).isSome = true

/-- The number of a vertex that has been entered. -/
def number (s : Traversal α) (v : α) : ℕ := (s.indexOf v).getD 0

/-- What holds while the `active` vertices are being visited. -/
structure Sound (g : Digraph α) (active : List α) (s : Traversal α) : Prop where
  onStack_iff : ∀ v, s.isOnStack v = true ↔ v ∈ s.stack
  entered_iff : ∀ v, s.Entered v ↔ v ∈ s.stack ∨ v ∈ s.components.flatten
  unclosed : ∀ v ∈ s.stack, v ∉ s.components.flatten
  mem_vertices : ∀ v, s.Entered v → v ∈ g.vertices
  number_lt : ∀ v, s.Entered v → s.number v < s.next
  descending : s.stack.Pairwise fun u v => s.number v < s.number u
  active_stack : ∀ v ∈ active, v ∈ s.stack
  explored : ∀ u, s.Entered u → u ∉ active → ∀ v, g.Edge u v → s.Entered v
  active_path : ∀ u ∈ active, ∀ v ∈ s.stack, s.number u ≤ s.number v → g.Path u v
  path_active : ∀ v ∈ s.stack, ∃ u ∈ active, s.number u ≤ s.number v ∧ g.Path v u
  components : g.ClosedComponents s.components

/-- What was entered keeps its numbers. -/
structure Extends (s t : Traversal α) : Prop where
  indexOf_eq : ∀ v, s.Entered v → t.indexOf v = s.indexOf v
  lowOf_eq : ∀ v, s.Entered v → t.lowOf v = s.lowOf v

theorem Extends.entered (h : s.Extends t) (hv : s.Entered v) : t.Entered v := by
  rw [Entered, h.indexOf_eq v hv]
  exact hv

theorem Extends.number_eq (h : s.Extends t) (hv : s.Entered v) : t.number v = s.number v := by
  rw [number, h.indexOf_eq v hv, number]

theorem Extends.refl (s : Traversal α) : s.Extends s := ⟨fun _ _ => rfl, fun _ _ => rfl⟩

theorem Extends.trans {r : Traversal α} (h : r.Extends s) (h' : s.Extends t) : r.Extends t where
  indexOf_eq v hv := (h'.indexOf_eq v (h.entered hv)).trans (h.indexOf_eq v hv)
  lowOf_eq v hv := (h'.lowOf_eq v (h.entered hv)).trans (h.lowOf_eq v hv)

theorem Extends.lower (h : s.Extends t) (hv : ¬ s.Entered v) (n : ℕ) :
    s.Extends (t.lower v n) where
  indexOf_eq := h.indexOf_eq
  lowOf_eq w hw := by
    have hne : w ≠ v := fun heq => hv (heq ▸ hw)
    rw [lowOf_lower, if_neg hne]
    exact h.lowOf_eq w hw

theorem Sound.lower (h : Sound g active s) (v : α) (n : ℕ) : Sound g active (s.lower v n) where
  onStack_iff := h.onStack_iff
  entered_iff := h.entered_iff
  unclosed := h.unclosed
  mem_vertices := h.mem_vertices
  number_lt := h.number_lt
  descending := h.descending
  active_stack := h.active_stack
  explored := h.explored
  active_path := h.active_path
  path_active := h.path_active
  components := h.components

theorem Sound.entered_of_mem_stack (h : Sound g active s) (hv : v ∈ s.stack) : s.Entered v :=
  (h.entered_iff v).mpr (.inl hv)

theorem sound_start (g : Digraph α) : Sound g [] .start where
  onStack_iff v := by simp [isOnStack, start]
  entered_iff v := by simp [Entered, indexOf, start]
  unclosed := by simp [start]
  mem_vertices v hv := by simp [Entered, indexOf, start] at hv
  number_lt v hv := by simp [Entered, indexOf, start] at hv
  descending := .nil
  active_stack := by simp
  explored u hu := by simp [Entered, indexOf, start] at hu
  active_path := by simp
  path_active := by simp [start]
  components := .nil g

theorem extends_enter (hv : ¬ s.Entered v) : s.Extends (s.enter v) where
  indexOf_eq w hw := by
    have hne : w ≠ v := fun heq => hv (heq ▸ hw)
    rw [indexOf_enter, if_neg hne]
  lowOf_eq w hw := by
    have hne : w ≠ v := fun heq => hv (heq ▸ hw)
    rw [lowOf_enter, if_neg hne]

theorem entered_enter_iff : (s.enter v).Entered w ↔ w = v ∨ s.Entered w := by
  unfold Entered
  rw [indexOf_enter]
  by_cases hw : w = v <;> simp [hw]

theorem stack_enter : (s.enter v).stack = v :: s.stack := rfl

theorem number_enter : (s.enter v).number v = s.next := by
  rw [number, indexOf_enter, if_pos rfl, Option.getD_some]

/-- An entered vertex is active, and the active vertices lead to it. -/
theorem Sound.enter (h : Sound g active s) (hv : ¬ s.Entered v) (hvertex : v ∈ g.vertices)
    (hpath : ∀ u ∈ active, g.Path u v) : Sound g (v :: active) (s.enter v) := by
  have hext : s.Extends (s.enter v) := extends_enter hv
  have hnumber : ∀ w ∈ s.stack, (s.enter v).number w = s.number w := fun w hw =>
    hext.number_eq (h.entered_of_mem_stack hw)
  have hlt : ∀ w ∈ s.stack, s.number w < s.next := fun w hw =>
    h.number_lt w (h.entered_of_mem_stack hw)
  have hclosed : v ∉ s.components.flatten := fun hmem => hv ((h.entered_iff v).mpr (.inr hmem))
  constructor
  case onStack_iff =>
    intro w
    rw [isOnStack_enter, stack_enter, List.mem_cons, ← h.onStack_iff]
    by_cases hw : w = v <;> simp [hw]
  case entered_iff =>
    intro w
    rw [entered_enter_iff, h.entered_iff, ← or_assoc]
    exact or_congr List.mem_cons.symm Iff.rfl
  case unclosed =>
    intro w hw
    rcases List.mem_cons.mp hw with rfl | hw
    · exact hclosed
    · exact h.unclosed w hw
  case mem_vertices =>
    intro w hw
    rcases entered_enter_iff.mp hw with rfl | hw
    · exact hvertex
    · exact h.mem_vertices w hw
  case number_lt =>
    intro w hw
    change _ < s.next + 1
    rcases entered_enter_iff.mp hw with rfl | hw
    · rw [number_enter]
      omega
    · rw [hext.number_eq hw]
      exact Nat.lt_succ_of_lt (h.number_lt w hw)
  case descending =>
    refine List.pairwise_cons.mpr ⟨fun w hw => ?_, h.descending.imp_of_mem fun {a b} ha hb hab => ?_⟩
    · rw [number_enter, hnumber w hw]
      exact hlt w hw
    · rwa [hnumber a ha, hnumber b hb]
  case active_stack =>
    intro w hw
    rcases List.mem_cons.mp hw with rfl | hw
    · exact List.mem_cons_self ..
    · exact List.mem_cons_of_mem _ (h.active_stack w hw)
  case explored =>
    intro u hu hactive w huw
    rw [List.mem_cons, not_or] at hactive
    have hu' : s.Entered u := (entered_enter_iff.mp hu).resolve_left hactive.1
    exact hext.entered (h.explored u hu' hactive.2 w huw)
  case active_path =>
    intro u hu w hw hle
    rcases List.mem_cons.mp hu with rfl | hu'
    · rcases List.mem_cons.mp hw with rfl | hw'
      · exact .refl
      · rw [number_enter, hnumber w hw'] at hle
        exact absurd (hlt w hw') (by omega)
    · rcases List.mem_cons.mp hw with rfl | hw'
      · exact hpath u hu'
      · rw [hnumber u (h.active_stack u hu'), hnumber w hw'] at hle
        exact h.active_path u hu' w hw' hle
  case path_active =>
    intro w hw
    rcases List.mem_cons.mp hw with rfl | hw
    · exact ⟨w, List.mem_cons_self .., le_rfl, .refl⟩
    · obtain ⟨u, hu, hle, hwu⟩ := h.path_active w hw
      refine ⟨u, List.mem_cons_of_mem _ hu, ?_, hwu⟩
      rwa [hnumber u (h.active_stack u hu), hnumber w hw]
  case components => exact h.components

/-- What visiting `v` has done; `new` is what it has added to the stack. Its low number bounds the
edges from there into the old stack. It is the number of a vertex of the old stack that `v` leads
to, or it is larger than all of these. -/
structure Visited (g : Digraph α) (active : List α) (v : α) (s t : Traversal α)
    (new : List α) : Prop where
  sound : Sound g active t
  extended : s.Extends t
  entered : t.Entered v
  stack_eq : t.stack = new ++ s.stack
  low_le : ∀ x ∈ new, ∀ y ∈ s.stack, g.Edge x y → t.lowOf v ≤ s.number y
  low_path : s.next ≤ t.lowOf v ∨ ∃ y ∈ s.stack, s.number y = t.lowOf v ∧ g.Path v y

/-- Where the visit of `v` that began in `s` has come to, with the edges to `todo` still to be
followed; `new` is what it has put on the stack above `v`. -/
structure Visiting (g : Digraph α) (active : List α) (v : α) (s : Traversal α) (todo : List α)
    (t : Traversal α) (new : List α) : Prop where
  sound : Sound g (v :: active) t
  extended : s.Extends t
  indexOf_eq : t.indexOf v = some s.next
  stack_eq : t.stack = new ++ v :: s.stack
  followed : ∀ w, g.Edge v w → w ∈ todo ∨
    t.Entered w ∧ (w ∈ s.stack → t.lowOf v ≤ s.number w)
  low_le : ∀ x ∈ new, ∀ y ∈ s.stack, g.Edge x y → t.lowOf v ≤ s.number y
  low_path : ∃ y ∈ v :: s.stack, t.number y = t.lowOf v ∧ g.Path v y

section Visit

variable {todo new : List α}

theorem Visiting.initial (hs : Sound g active s) (hv : ¬ s.Entered v) (hvertex : v ∈ g.vertices)
    (hpath : ∀ u ∈ active, g.Path u v) :
    Visiting g active v s (g.successors v) (s.enter v) [] where
  sound := hs.enter hv hvertex hpath
  extended := extends_enter hv
  indexOf_eq := by rw [indexOf_enter, if_pos rfl]
  stack_eq := rfl
  followed _ hw := .inl hw
  low_le := by simp
  low_path := ⟨v, List.mem_cons_self .., by rw [number_enter, lowOf_enter, if_pos rfl], .refl⟩

theorem Visiting.number_eq (h : Visiting g active v s todo t new) : t.number v = s.next := by
  rw [number, h.indexOf_eq, Option.getD_some]

theorem Visiting.entered (h : Visiting g active v s todo t new) : t.Entered v := by
  rw [Entered, h.indexOf_eq]
  rfl

theorem Visiting.stack_append (h : Visiting g active v s todo t new) :
    t.stack = (new ++ [v]) ++ s.stack := by
  rw [h.stack_eq, List.append_assoc, List.singleton_append]

theorem Visiting.mem_stack_of_new (h : Visiting g active v s todo t new) (hw : w ∈ new ++ [v]) :
    w ∈ t.stack := by
  rw [h.stack_append]
  exact List.mem_append_left _ hw

theorem Visiting.mem_stack_of_old (h : Visiting g active v s todo t new) (hw : w ∈ s.stack) :
    w ∈ t.stack := by
  rw [h.stack_append]
  exact List.mem_append_right _ hw

/-- What is above `v` on the stack has larger numbers. -/
theorem Visiting.next_lt (h : Visiting g active v s todo t new) (hw : w ∈ new) :
    s.next < t.number w := by
  have hdescending := h.sound.descending
  rw [h.stack_eq, List.pairwise_append] at hdescending
  have hlt := hdescending.2.2 w hw v (List.mem_cons_self ..)
  rwa [h.number_eq] at hlt

theorem Visiting.number_old (h : Visiting g active v s todo t new) (hs : Sound g active s)
    (hw : w ∈ s.stack) :
    t.number w = s.number w ∧ s.number w < s.next :=
  ⟨h.extended.number_eq (hs.entered_of_mem_stack hw), hs.number_lt w (hs.entered_of_mem_stack hw)⟩

theorem Visiting.mem_old (h : Visiting g active v s todo t new) (hw : w ∈ t.stack)
    (hlt : t.number w < s.next) : w ∈ s.stack := by
  rw [h.stack_eq] at hw
  rcases List.mem_append.mp hw with hw | hw
  · have := h.next_lt hw
    omega
  · rcases List.mem_cons.mp hw with rfl | hw
    · rw [h.number_eq] at hlt
      omega
    · exact hw

theorem Visiting.low_le_next (h : Visiting g active v s todo t new) (hs : Sound g active s) :
    t.lowOf v ≤ s.next := by
  obtain ⟨y, hy, hlow, -⟩ := h.low_path
  rw [← hlow]
  rcases List.mem_cons.mp hy with rfl | hy
  · rw [h.number_eq]
  · have := h.number_old hs hy
    omega

/-- An edge into a closed component changes nothing. -/
theorem Visiting.skip (h : Visiting g active v s (w :: todo) t new) (hw : t.Entered w)
    (hstack : w ∉ t.stack) : Visiting g active v s todo t new := by
  refine { h with followed := fun x hx => ?_ }
  rcases h.followed x hx with hmem | hdone
  · rcases List.mem_cons.mp hmem with rfl | hmem
    · refine .inr ⟨hw, fun hold => absurd ?_ hstack⟩
      rw [h.stack_eq]
      simp [hold]
    · exact .inl hmem
  · exact .inr hdone

/-- The edge to `w` has been followed, which has led to `r` and to a bound `n` on the low number. -/
theorem Visiting.advance (h : Visiting g active v s (w :: todo) t new) (hs : Sound g active s)
    (hv : ¬ s.Entered v) {r : Traversal α} {added : List α} {n : ℕ}
    (hsound : Sound g (v :: active) r) (hext : t.Extends r) (hstack : r.stack = added ++ t.stack)
    (hentered : r.Entered w) (hle : w ∈ s.stack → n ≤ s.number w)
    (hedges : ∀ x ∈ added, ∀ y ∈ s.stack, g.Edge x y → n ≤ s.number y)
    (hlow : n < t.lowOf v → ∃ y ∈ t.stack, t.number y = n ∧ g.Path v y) :
    Visiting g active v s todo (r.lower v n) (added ++ new) := by
  have hmin : (r.lower v n).lowOf v = min (t.lowOf v) n := by
    rw [lowOf_lower, if_pos rfl, hext.lowOf_eq v h.entered]
  have hnumber : ∀ y ∈ t.stack, r.number y = t.number y := fun y hy =>
    hext.number_eq (h.sound.entered_of_mem_stack hy)
  refine ⟨hsound.lower v n, (h.extended.trans hext).lower hv n, ?_, ?_, fun x hx => ?_,
    fun x hx y hy hxy => ?_, ?_⟩
  · exact (hext.indexOf_eq v h.entered).trans h.indexOf_eq
  · exact hstack.trans (by rw [h.stack_eq, List.append_assoc])
  · rw [hmin]
    rcases h.followed x hx with hmem | ⟨hbefore, hle'⟩
    · rcases List.mem_cons.mp hmem with rfl | hmem
      · exact .inr ⟨hentered, fun hold => (Nat.min_le_right ..).trans (hle hold)⟩
      · exact .inl hmem
    · exact .inr ⟨hext.entered hbefore, fun hold => (Nat.min_le_left ..).trans (hle' hold)⟩
  · rw [hmin]
    rcases List.mem_append.mp hx with hx | hx
    · exact (Nat.min_le_right ..).trans (hedges x hx y hy hxy)
    · exact (Nat.min_le_left ..).trans (h.low_le x hx y hy hxy)
  · rw [hmin]
    by_cases hmin : t.lowOf v ≤ n
    · obtain ⟨y, hy, hnumber', hpath⟩ := h.low_path
      have hy' : y ∈ t.stack := by
        rw [h.stack_eq]
        exact List.mem_append_right _ hy
      rw [Nat.min_eq_left hmin]
      exact ⟨y, hy, (hnumber y hy').trans hnumber', hpath⟩
    · -- a vertex that is numbered before `v` is in the old stack
      obtain ⟨y, hy, hnumber', hpath⟩ := hlow (by omega)
      have hnext := h.low_le_next hs
      have hold : y ∈ s.stack := h.mem_old hy (by omega)
      rw [Nat.min_eq_right (by omega)]
      exact ⟨y, List.mem_cons_of_mem _ hold, (hnumber y hy).trans hnumber', hpath⟩

/-- An edge to a vertex on the stack. -/
theorem Visiting.lower (h : Visiting g active v s (w :: todo) t new) (hs : Sound g active s)
    (hv : ¬ s.Entered v) (hedge : g.Edge v w) (hw : w ∈ t.stack) :
    Visiting g active v s todo (t.lower v (t.number w)) new := by
  have hstack : t.stack = [] ++ t.stack := rfl
  exact h.advance hs hv h.sound (.refl t) hstack (h.sound.entered_of_mem_stack hw)
    (fun hold => (h.number_old hs hold).1.le) (by simp) fun _ => ⟨w, hw, rfl, .single hedge⟩

/-- An edge to a vertex that is visited now. -/
theorem Visiting.descend (h : Visiting g active v s (w :: todo) t new) (hs : Sound g active s)
    (hv : ¬ s.Entered v) (hedge : g.Edge v w) (hw : ¬ t.Entered w) {r : Traversal α}
    {added : List α} (hr : Visited g (v :: active) w t r added) :
    Visiting g active v s todo (r.lower v (r.lowOf w)) (added ++ new) := by
  refine h.advance hs hv hr.sound hr.extended hr.stack_eq hr.entered (fun hold => ?_)
    (fun x hx y hy hxy => ?_) fun hlt => ?_
  · exact absurd (h.extended.entered (hs.entered_of_mem_stack hold)) hw
  · rw [← (h.number_old hs hy).1]
    exact hr.low_le x hx y (h.mem_stack_of_old hy) hxy
  · rcases hr.low_path with hge | ⟨y, hy, hnumber, hpath⟩
    · -- `w` has been closed, and its number is larger than that of `v`
      have hnext := h.low_le_next hs
      have hlast := h.sound.number_lt v h.entered
      rw [h.number_eq] at hlast
      omega
    · exact ⟨y, hy, hnumber, .head hedge hpath⟩

theorem Visiting.explored (h : Visiting g active v s [] t new) {x y : α} (hx : t.Entered x)
    (hactive : x ∉ active) (hxy : g.Edge x y) : t.Entered y := by
  by_cases hxv : x = v
  · subst hxv
    exact ((h.followed y hxy).resolve_left (by simp)).1
  · exact h.sound.explored x hx (by simp [hxv, hactive]) y hxy

/-- The low number bounds all edges from what the visit has added into the old stack. -/
theorem Visiting.low_le_of_edge (h : Visiting g active v s [] t new) {x y : α}
    (hx : x ∈ new ++ [v]) (hy : y ∈ s.stack) (hxy : g.Edge x y) : t.lowOf v ≤ s.number y := by
  rcases List.mem_append.mp hx with hx | hx
  · exact h.low_le x hx y hy hxy
  · obtain rfl := List.mem_singleton.mp hx
    exact ((h.followed y hxy).resolve_left (by simp)).2 hy

/-- A vertex that leads to a vertex with a smaller number stays on the stack. -/
theorem Visiting.keep (h : Visiting g active v s [] t new) (hs : Sound g active s)
    (hlow : t.lowOf v ≠ s.next) : Visited g active v s t (new ++ [v]) := by
  obtain ⟨y, hy, hnumber, hpath⟩ := h.low_path
  replace hy : y ∈ s.stack := by
    rcases List.mem_cons.mp hy with rfl | hy
    · exact absurd (hnumber.symm.trans h.number_eq) hlow
    · exact hy
  have hold := h.number_old hs hy
  have hnext := h.number_eq
  have hpath_active : ∀ w ∈ t.stack, ∃ u ∈ active, t.number u ≤ t.number w ∧ g.Path w u := by
    intro w hw
    obtain ⟨u, hu, hle, hwu⟩ := h.sound.path_active w hw
    rcases List.mem_cons.mp hu with rfl | hu
    · -- the path goes on from `v` to the vertex with a smaller number
      obtain ⟨z, hz, hle', hyz⟩ := h.sound.path_active y (h.mem_stack_of_old hy)
      have hz : z ∈ active := by
        rcases List.mem_cons.mp hz with rfl | hz
        · omega
        · exact hz
      exact ⟨z, hz, by omega, hwu.trans (hpath.trans hyz)⟩
    · exact ⟨u, hu, hle, hwu⟩
  refine ⟨{ h.sound with
      active_stack := fun u hu => h.sound.active_stack u (List.mem_cons_of_mem _ hu)
      explored := fun u hu hactive w huw => h.explored hu hactive huw
      active_path := fun u hu => h.sound.active_path u (List.mem_cons_of_mem _ hu)
      path_active := hpath_active },
    h.extended, h.entered, h.stack_append, fun x hx z hz hxz => h.low_le_of_edge hx hz hxz,
    .inr ⟨y, hy, by omega, hpath⟩⟩

/-- What the visit has added to the stack is not in the old stack. -/
theorem Visiting.not_mem_old (h : Visiting g active v s todo t new) (hs : Sound g active s)
    (hw : w ∈ new ++ [v]) : w ∉ s.stack := by
  intro hold
  have hnumber := h.number_old hs hold
  rcases List.mem_append.mp hw with hw | hw
  · have := h.next_lt hw
    omega
  · obtain rfl := List.mem_singleton.mp hw
    have := h.number_eq
    omega

theorem Visiting.not_mem_new (h : Visiting g active v s todo t new) : v ∉ new := by
  intro hmem
  have hlt := h.next_lt hmem
  rw [h.number_eq] at hlt
  omega

theorem Visiting.popThrough_eq (h : Visiting g active v s todo t new) :
    popThrough v t.stack = (new ++ [v], s.stack) := by
  rw [h.stack_eq, popThrough_append h.not_mem_new]

theorem Visiting.stack_close (h : Visiting g active v s todo t new) :
    (t.close g v).stack = s.stack :=
  congrArg Prod.snd h.popThrough_eq

theorem Visiting.components_close (h : Visiting g active v s todo t new) :
    (t.close g v).components = t.components ++ [g.vertices.filter (· ∈ new ++ [v])] := by
  rw [Traversal.close, h.popThrough_eq]

theorem Visiting.mem_class_iff (h : Visiting g active v s todo t new) :
    w ∈ g.vertices.filter (· ∈ new ++ [v]) ↔ w ∈ new ++ [v] := by
  rw [List.mem_filter, decide_eq_true_eq, and_iff_right_iff_imp]
  exact fun hw => h.sound.mem_vertices w (h.sound.entered_of_mem_stack (h.mem_stack_of_new hw))

section Close

variable (h : Visiting g active v s [] t new) (hs : Sound g active s)
  (hlow : t.lowOf v = s.next)
include h hs hlow

/-- The edges of what is left above `v` lead into it or into closed components. -/
theorem Visiting.edge_class {x y : α} (hx : x ∈ new ++ [v]) (hxy : g.Edge x y) :
    y ∈ t.components.flatten ∨ y ∈ new ++ [v] := by
  have hentered : t.Entered x := h.sound.entered_of_mem_stack (h.mem_stack_of_new hx)
  have hactive : x ∉ active := fun hmem => h.not_mem_old hs hx (hs.active_stack x hmem)
  rcases (h.sound.entered_iff y).mp (h.explored hentered hactive hxy) with hy | hy
  · rw [h.stack_append] at hy
    rcases List.mem_append.mp hy with hy | hy
    · exact .inr hy
    · have hle := h.low_le_of_edge hx hy hxy
      have hlt := (h.number_old hs hy).2
      omega
  · exact .inl hy

theorem Visiting.path_class {x y : α} (hx : x ∈ new ++ [v]) (hxy : g.Path x y) :
    y ∈ t.components.flatten ∨ y ∈ new ++ [v] := by
  induction hxy with
  | refl => exact .inr hx
  | tail _ hedge ih =>
    rcases ih with hmem | hmem
    · exact .inl (h.sound.components.closed _ hmem _ hedge)
    · exact h.edge_class hs hlow hmem hedge

/-- What is left above `v` on the stack leads to `v`, and `v` leads to it. -/
theorem Visiting.path_class_root {x : α} (hx : x ∈ new ++ [v]) : g.Path x v ∧ g.Path v x := by
  have hmem : x ∈ t.stack := h.mem_stack_of_new hx
  constructor
  · obtain ⟨u, hu, -, hxu⟩ := h.sound.path_active x hmem
    rcases List.mem_cons.mp hu with rfl | hu
    · exact hxu
    · have hold : u ∈ s.stack := hs.active_stack u hu
      rcases h.path_class hs hlow hx hxu with hclosed | hclass
      · exact absurd hclosed (h.sound.unclosed u (h.mem_stack_of_old hold))
      · exact absurd hold (h.not_mem_old hs hclass)
  · refine h.sound.active_path v (List.mem_cons_self ..) x hmem ?_
    rcases List.mem_append.mp hx with hx | hx
    · rw [h.number_eq]
      exact (h.next_lt hx).le
    · rw [List.mem_singleton.mp hx]

theorem Visiting.closedComponents_close : g.ClosedComponents (t.close g v).components := by
  have hclass := fun w => h.mem_class_iff (w := w)
  rw [h.components_close]
  refine h.sound.components.concat ?_ List.filter_sublist ?_ ?_ ?_
  · exact List.ne_nil_of_mem ((hclass v).mpr (by simp))
  · intro x hx y hy
    exact (h.path_class_root hs hlow ((hclass x).mp hx)).1.trans
      (h.path_class_root hs hlow ((hclass y).mp hy)).2
  · exact fun x hx => h.sound.unclosed x (h.mem_stack_of_new ((hclass x).mp hx))
  · intro x hx y hxy
    rw [hclass]
    exact h.edge_class hs hlow ((hclass x).mp hx) hxy

theorem Visiting.sound_close : Sound g active (t.close g v) := by
  have hclosed : ∀ w, w ∈ (t.close g v).components.flatten ↔
      w ∈ t.components.flatten ∨ w ∈ new ++ [v] := by
    intro w
    rw [h.components_close, List.flatten_append, List.flatten_singleton, List.mem_append,
      h.mem_class_iff]
  constructor
  case onStack_iff =>
    intro w
    rw [isOnStack_close g h.stack_eq h.not_mem_new, h.stack_close]
    by_cases hw : w ∈ new ++ [v]
    · simp [hw, h.not_mem_old hs hw]
    · rw [if_neg hw, h.sound.onStack_iff, h.stack_append, List.mem_append]
      simp [hw]
  case entered_iff =>
    intro w
    rw [hclosed, h.stack_close]
    refine (h.sound.entered_iff w).trans ?_
    rw [h.stack_append, List.mem_append]
    tauto
  case unclosed =>
    intro w hw hmem
    rw [h.stack_close] at hw
    rcases (hclosed w).mp hmem with hmem | hmem
    · exact h.sound.unclosed w (h.mem_stack_of_old hw) hmem
    · exact h.not_mem_old hs hmem hw
  case mem_vertices => exact h.sound.mem_vertices
  case number_lt => exact h.sound.number_lt
  case descending =>
    have hdescending := h.sound.descending
    rw [h.stack_append, List.pairwise_append] at hdescending
    rw [h.stack_close]
    exact hdescending.2.1
  case active_stack =>
    rw [h.stack_close]
    exact hs.active_stack
  case explored => exact fun u hu hactive w huw => h.explored hu hactive huw
  case active_path =>
    intro u hu w hw
    rw [h.stack_close] at hw
    exact h.sound.active_path u (List.mem_cons_of_mem _ hu) w (h.mem_stack_of_old hw)
  case path_active =>
    intro w hw
    rw [h.stack_close] at hw
    obtain ⟨u, hu, hle, hwu⟩ := h.sound.path_active w (h.mem_stack_of_old hw)
    refine ⟨u, (List.mem_cons.mp hu).resolve_left ?_, hle, hwu⟩
    rintro rfl
    have hnumber := h.number_old hs hw
    rw [h.number_eq] at hle
    omega
  case components => exact h.closedComponents_close hs hlow

/-- A vertex that keeps its number closes its class. -/
theorem Visiting.close : Visited g active v s (t.close g v) [] where
  sound := h.sound_close hs hlow
  extended := ⟨h.extended.indexOf_eq, h.extended.lowOf_eq⟩
  entered := h.entered
  stack_eq := h.stack_close
  low_le := by simp
  low_path := .inl hlow.ge

end Close

end Visit

/-- The vertices that have not been entered. -/
def unentered (s : Traversal α) (g : Digraph α) : Finset α :=
  g.vertices.toFinset.filter fun v => s.indexOf v = none

theorem mem_unentered_iff : v ∈ s.unentered g ↔ v ∈ g.vertices ∧ ¬ s.Entered v := by
  simp [unentered, Entered]

theorem card_unentered_le (s : Traversal α) (g : Digraph α) :
    (s.unentered g).card ≤ g.vertices.length :=
  (Finset.card_filter_le ..).trans g.vertices.toFinset_card_le

theorem Extends.card_unentered_lt (h : s.Extends t) (hvertex : v ∈ g.vertices)
    (hv : ¬ s.Entered v) (hentered : t.Entered v) :
    (t.unentered g).card < (s.unentered g).card := by
  refine Finset.card_lt_card ⟨fun w hw => ?_, fun hsub => ?_⟩
  · obtain ⟨hwg, hw⟩ := mem_unentered_iff.mp hw
    exact mem_unentered_iff.mpr ⟨hwg, fun hw' => hw (h.entered hw')⟩
  · exact (mem_unentered_iff.mp (hsub (mem_unentered_iff.mpr ⟨hvertex, hv⟩))).2 hentered

/-- Whether `visit` visits vertices as long as at most `n` of them have not been entered. -/
def Visits (g : Digraph α) (n : ℕ) (visit : α → Traversal α → Traversal α) : Prop :=
  ∀ active v s, Sound g active s → ¬ s.Entered v → v ∈ g.vertices → (∀ u ∈ active, g.Path u v) →
    (s.unentered g).card ≤ n → ∃ new, Visited g active v s (visit v s) new

section Follow

variable {n : ℕ} {visit : α → Traversal α → Traversal α} {todo new : List α}
  (hvisit : Visits g n visit) (hs : Sound g active s) (hv : ¬ s.Entered v)
  (hvertex : v ∈ g.vertices) (hpath : ∀ u ∈ active, g.Path u v)
  (hn : (s.unentered g).card ≤ n + 1)
include hvisit hs hv hvertex hpath hn

theorem Visiting.follow (h : Visiting g active v s (w :: todo) t new) (hedge : g.Edge v w) :
    ∃ new', Visiting g active v s todo (t.follow visit v w) new' := by
  unfold Traversal.follow
  cases hindex : t.indexOf w with
  | none =>
    have hw : ¬ t.Entered w := by simp [Entered, hindex]
    have hcard := h.extended.card_unentered_lt hvertex hv h.entered
    have hreach : ∀ u ∈ v :: active, g.Path u w := by
      intro u hu
      rcases List.mem_cons.mp hu with rfl | hu
      · exact .single hedge
      · exact (hpath u hu).tail hedge
    obtain ⟨added, hr⟩ :=
      hvisit (v :: active) w t h.sound hw hedge.mem_vertices.2 hreach (by omega)
    exact ⟨added ++ new, h.descend hs hv hedge hw hr⟩
  | some i =>
    have hw : t.Entered w := by simp [Entered, hindex]
    have hnumber : t.number w = i := by simp [number, hindex]
    by_cases hstack : t.isOnStack w = true
    · simp only [hstack, if_true]
      rw [← hnumber]
      exact ⟨new, h.lower hs hv hedge ((h.sound.onStack_iff w).mp hstack)⟩
    · simp only [hstack]
      exact ⟨new, h.skip hw fun hmem => hstack ((h.sound.onStack_iff w).mpr hmem)⟩

theorem Visiting.followAll (h : Visiting g active v s todo t new) (htodo : todo ⊆ g.successors v) :
    ∃ new', Visiting g active v s [] (todo.foldl (Traversal.follow visit v) t) new' := by
  induction todo generalizing t new with
  | nil => exact ⟨new, h⟩
  | cons w todo ih =>
    rw [List.cons_subset] at htodo
    obtain ⟨new', h'⟩ := h.follow hvisit hs hv hvertex hpath hn htodo.1
    exact ih h' htodo.2

end Follow

/-- The induction is on how many vertices have not been entered; a visit enters one. -/
theorem visits_strongConnect (g : Digraph α) (n : ℕ) : Visits g n (g.strongConnect n) := by
  induction n with
  | zero =>
    intro active v s hs hv hvertex hpath hn
    have hmem : v ∈ s.unentered g := mem_unentered_iff.mpr ⟨hvertex, hv⟩
    rw [Nat.le_zero, Finset.card_eq_zero] at hn
    simp [hn] at hmem
  | succ n ih =>
    intro active v s hs hv hvertex hpath hn
    obtain ⟨new, h⟩ := (Visiting.initial hs hv hvertex hpath).followAll ih hs hv hvertex hpath hn
      (List.Subset.refl _)
    rw [Digraph.strongConnect, h.indexOf_eq]
    by_cases hlow : ((g.successors v).foldl (Traversal.follow (g.strongConnect n) v)
        (s.enter v)).lowOf v = s.next
    · rw [if_pos (by rw [hlow])]
      exact ⟨[], h.close hs hlow⟩
    · rw [if_neg fun heq => hlow (Option.some.inj heq).symm]
      exact ⟨new ++ [v], h.keep hs hlow⟩

end Traversal

namespace Digraph

variable {α : Type} [DecidableEq α]

open Traversal

theorem sound_visitNew {g : Digraph α} {s : Traversal α} (hs : Sound g [] s) {v : α}
    (hv : v ∈ g.vertices) :
    Sound g [] (g.visitNew s v) ∧ s.Extends (g.visitNew s v) ∧ (g.visitNew s v).Entered v := by
  unfold visitNew
  by_cases hnew : (s.indexOf v).isNone = true
  · have hunentered : ¬ s.Entered v := by simpa [Entered] using hnew
    obtain ⟨new, h⟩ := visits_strongConnect g g.vertices.length [] v s hs hunentered hv (by simp)
      (s.card_unentered_le g)
    rw [if_pos hnew]
    exact ⟨h.sound, h.extended, h.entered⟩
  · rw [if_neg hnew]
    refine ⟨hs, .refl s, ?_⟩
    simpa [Entered, Option.isSome_iff_ne_none] using hnew

theorem sound_foldl_visitNew {g : Digraph α} {vs : List α} (hvs : vs ⊆ g.vertices)
    {s : Traversal α} (hs : Sound g [] s) :
    Sound g [] (vs.foldl g.visitNew s) ∧ s.Extends (vs.foldl g.visitNew s) ∧
      ∀ v ∈ vs, (vs.foldl g.visitNew s).Entered v := by
  induction vs generalizing s with
  | nil => exact ⟨hs, .refl s, by simp⟩
  | cons v vs ih =>
    rw [List.cons_subset] at hvs
    obtain ⟨hsound, hext, hentered⟩ := sound_visitNew hs hvs.1
    obtain ⟨hsound', hext', hentered'⟩ := ih hvs.2 hsound
    refine ⟨hsound', hext.trans hext', fun w hw => ?_⟩
    rcases List.mem_cons.mp hw with rfl | hw
    · exact hext'.entered hentered
    · exact hentered' w hw

/-- The traversal ends with every vertex in a closed component. -/
theorem closedComponents_components (g : Digraph α) :
    g.ClosedComponents g.components ∧ ∀ v ∈ g.vertices, v ∈ g.components.flatten := by
  obtain ⟨hsound, -, hentered⟩ :=
    sound_foldl_visitNew (List.Subset.refl g.vertices) (sound_start g)
  refine ⟨hsound.components, fun v hv => ?_⟩
  rcases (hsound.entered_iff v).mp (hentered v hv) with hstack | hclosed
  · obtain ⟨u, hu, -⟩ := hsound.path_active v hstack
    cases hu
  · exact hclosed

end Digraph

end ProofCore
