import ProofCore.Proofs.GraphEdges

/-!
# Searching a graph

A search takes up its pending vertices one after the other. Each turn uses up a pending vertex, and
only a vertex that has not been visited puts new ones in its place, so the turns that a search may
take are bounded by the size of the graph. As long as the target has not been met, the edges of the
visited vertices lead to visited or pending ones (`Swept`). A search that runs out of pending
vertices has therefore visited all that they led to.
-/
namespace ProofCore

namespace Digraph

section Cost

variable {α : Type} [DecidableEq α]

/-- The steps that an entry may still cost: none once its vertex has been seen. -/
def entryCost (seen : List α) (e : α × List α) : ℕ := if e.1 ∈ seen then 0 else e.2.length + 1

theorem entryCost_mono {seen seen' : List α} (h : seen ⊆ seen') (e : α × List α) :
    entryCost seen' e ≤ entryCost seen e := by
  unfold entryCost
  by_cases he : e.1 ∈ seen
  · rw [if_pos he, if_pos (h he)]
  · rw [if_neg he]
    split <;> omega

def unseenCost (g : Digraph α) (seen : List α) : ℕ :=
  (g.adjacency.entries.map (entryCost seen)).sum

theorem unseenCost_mono {g : Digraph α} {seen seen' : List α} (h : seen ⊆ seen') :
    g.unseenCost seen' ≤ g.unseenCost seen :=
  List.sum_le_sum fun e _ => entryCost_mono h e

/-- Entering a vertex pays for looking at its successors. -/
theorem unseenCost_cons {g : Digraph α} {seen : List α} {v : α} (hv : v ∉ seen) :
    g.unseenCost (v :: seen) + (g.successors v).length ≤ g.unseenCost seen := by
  unfold successors
  cases hnext : g.adjacency.get? v with
  | none => simpa using unseenCost_mono (List.subset_cons_self v seen)
  | some next =>
    have hmem := Table.get?_eq_some_iff.mp hnext
    rw [Option.getD_some]
    unfold unseenCost
    generalize g.adjacency.entries = es at hmem
    induction es with
    | nil => cases hmem
    | cons e es ih =>
      simp only [List.map_cons, List.sum_cons]
      rcases List.mem_cons.mp hmem with rfl | hmem
      · have hrest : (es.map (entryCost (v :: seen))).sum ≤ (es.map (entryCost seen)).sum :=
          List.sum_le_sum fun e _ => entryCost_mono (List.subset_cons_self v seen) e
        have hpaid : entryCost (v :: seen) (v, next) = 0 := by simp [entryCost]
        have hdue : entryCost seen (v, next) = next.length + 1 := by simp [entryCost, hv]
        omega
      · have hrest := ih hmem
        have he := entryCost_mono (List.subset_cons_self v seen) e
        omega

theorem unseenCost_le (g : Digraph α) (seen roots : List α) :
    roots.length + g.unseenCost seen ≤ g.walkBound roots := by
  unfold unseenCost walkBound Table.values
  rw [List.map_map]
  refine Nat.add_le_add_left (List.sum_le_sum fun e _ => ?_) _
  simp only [entryCost, Function.comp_apply]
  split <;> omega

end Cost

section Search

variable {α : Type} [DecidableEq α] {g : Digraph α} {target v : α} {turns : ℕ}
  {pending visited : List α} {found : Bool}

/-- A search with a turn for each pending vertex, one for each step that the vertices not yet visited
may cost, and one more comes to an answer. -/
theorem exists_search (h : pending.length + g.unseenCost visited < turns) :
    ∃ found, g.search target turns pending visited = some found := by
  fun_induction search g target turns pending visited with
  | case1 => omega
  | case2 => exact ⟨false, rfl⟩
  | case3 => exact ⟨true, rfl⟩
  | case4 n v pending visited _ _ ih =>
    rw [List.length_cons] at h
    exact ih (by omega)
  | case5 n v pending visited _ hnew ih =>
    have hcost := unseenCost_cons (g := g) hnew
    rw [List.length_cons] at h
    apply ih
    rw [List.length_append, List.length_reverse]
    omega

/-- Spare turns change nothing. -/
theorem search_add (h : g.search target turns pending visited = some found) (spare : ℕ) :
    g.search target (turns + spare) pending visited = some found := by
  fun_induction search g target turns pending visited with
  | case1 => cases h
  | case2 visited n =>
    rw [Nat.succ_add, search]
    exact h
  | case3 n pending visited =>
    rw [Nat.succ_add, search, if_pos rfl]
    exact h
  | case4 n v pending visited hne hseen ih =>
    rw [Nat.succ_add, search, if_neg hne, if_pos hseen]
    exact ih h
  | case5 n v pending visited hne hnew ih =>
    rw [Nat.succ_add, search, if_neg hne, if_neg hnew]
    exact ih h

/-- What is found is what a pending vertex leads to. -/
theorem path_of_search (h : g.search target turns pending visited = some true) :
    ∃ r ∈ pending, g.Path r target := by
  fun_induction search g target turns pending visited with
  | case1 => cases h
  | case2 => cases h
  | case3 => exact ⟨target, List.mem_cons_self, .refl⟩
  | case4 n v pending visited _ _ ih =>
    obtain ⟨r, hr, hpath⟩ := ih h
    exact ⟨r, List.mem_cons_of_mem v hr, hpath⟩
  | case5 n v pending visited _ _ ih =>
    obtain ⟨r, hr, hpath⟩ := ih h
    rcases List.mem_append.mp hr with hr | hr
    · have hedge : g.Edge v r := List.mem_reverse.mp hr
      exact ⟨v, List.mem_cons_self, .head hedge hpath⟩
    · exact ⟨r, List.mem_cons_of_mem v hr, hpath⟩

/-- A search that has not met its target: what the visited vertices lead to is visited or still
pending. -/
structure Swept (g : Digraph α) (target : α) (pending visited : List α) : Prop where
  missed : target ∉ visited
  closed : ∀ v ∈ visited, ∀ w, g.Edge v w → w ∈ visited ∨ w ∈ pending

/-- A vertex that was visited before need not be looked at again. -/
theorem Swept.skip (h : g.Swept target (v :: pending) visited) (hv : v ∈ visited) :
    g.Swept target pending visited where
  missed := h.missed
  closed u hu w huw := by
    rcases h.closed u hu w huw with hw | hw
    · exact .inl hw
    · rcases List.mem_cons.mp hw with rfl | hw
      · exact .inl hv
      · exact .inr hw

/-- A vertex is visited when its successors join the pending vertices. -/
theorem Swept.expand (h : g.Swept target (v :: pending) visited) (hv : v ≠ target) :
    g.Swept target ((g.successors v).reverse ++ pending) (v :: visited) where
  missed hmem := by
    rcases List.mem_cons.mp hmem with heq | hmem
    · exact hv heq.symm
    · exact h.missed hmem
  closed u hu w huw := by
    rcases List.mem_cons.mp hu with rfl | hu
    · exact .inr (List.mem_append_left pending (List.mem_reverse.mpr huw))
    · rcases h.closed u hu w huw with hw | hw
      · exact .inl (List.mem_cons_of_mem v hw)
      · rcases List.mem_cons.mp hw with rfl | hw
        · exact .inl List.mem_cons_self
        · exact .inr (List.mem_append_right _ hw)

/-- With nothing pending, no path leads out of the visited vertices. -/
theorem Swept.mem_of_path (h : g.Swept target [] visited) {u w : α} (hu : u ∈ visited)
    (hpath : g.Path u w) : w ∈ visited := by
  induction hpath with
  | refl => exact hu
  | tail _ hedge ih => exact (h.closed _ ih _ hedge).resolve_right List.not_mem_nil

/-- A search that ends without its target has left nothing out. -/
theorem Swept.not_path (h : g.Swept target pending visited)
    (hsearch : g.search target turns pending visited = some false) {r : α}
    (hr : r ∈ pending ∨ r ∈ visited) : ¬ g.Path r target := by
  fun_induction search g target turns pending visited with
  | case1 => cases hsearch
  | case2 n visited =>
    intro hpath
    exact h.missed (h.mem_of_path (hr.resolve_left List.not_mem_nil) hpath)
  | case3 => cases hsearch
  | case4 n v pending visited _ hseen ih =>
    apply ih (h.skip hseen) hsearch
    rcases hr with hr | hr
    · rcases List.mem_cons.mp hr with rfl | hr
      · exact .inr hseen
      · exact .inl hr
    · exact .inr hr
  | case5 n v pending visited hne _ ih =>
    apply ih (h.expand hne) hsearch
    rcases hr with hr | hr
    · rcases List.mem_cons.mp hr with rfl | hr
      · exact .inr List.mem_cons_self
      · exact .inl (List.mem_append_right _ hr)
    · exact .inr (List.mem_cons_of_mem v hr)

/-- The search behind `reaches` always comes to an answer, which spare turns do not change. -/
theorem search_successors (g : Digraph α) (u v : α) (spare : ℕ) :
    g.search v (g.walkBound (g.successors u) + 1 + spare) (g.successors u).reverse [] =
      some (g.reaches u v) := by
  have hturns : (g.successors u).reverse.length + g.unseenCost [] <
      g.walkBound (g.successors u) + 1 := by
    have hbound := g.unseenCost_le [] (g.successors u)
    rw [List.length_reverse]
    omega
  have hanswer : ∃ found, g.search v (g.walkBound (g.successors u) + 1)
      (g.successors u).reverse [] = some found := exists_search hturns
  obtain ⟨found, hfound⟩ := hanswer
  rw [search_add hfound, reaches, hfound, Option.getD_some]

theorem reaches_iff {u v : α} : g.reaches u v = true ↔ ∃ w, g.Edge u w ∧ g.Path w v := by
  have hsearch := g.search_successors u v 0
  constructor
  · intro h
    rw [h] at hsearch
    obtain ⟨w, hw, hpath⟩ := path_of_search hsearch
    exact ⟨w, List.mem_reverse.mp hw, hpath⟩
  · intro h
    obtain ⟨w, hw, hpath⟩ := h
    by_contra hnot
    rw [Bool.eq_false_of_not_eq_true hnot] at hsearch
    have hstart : g.Swept v (g.successors u).reverse [] := ⟨List.not_mem_nil, by simp⟩
    exact hstart.not_path hsearch (.inl (List.mem_reverse.mpr hw)) hpath

theorem reaches_iff_transGen {u v : α} : g.reaches u v = true ↔ Relation.TransGen g.Edge u v := by
  rw [reaches_iff, Relation.TransGen.head'_iff]
  rfl

end Search

section Cycles

variable {α : Type} {r : α → α → Prop} {a b : α}

/-- A path can be taken without passing a vertex twice. -/
theorem exists_nodup_chain (h : Relation.ReflTransGen r a b) :
    ∃ l, (a :: l).IsChain r ∧ (a :: l).getLast (by simp) = b ∧ (a :: l).Nodup := by
  induction h using Relation.ReflTransGen.head_induction_on with
  | refl => exact ⟨[], by simp⟩
  | @head a c hac _ ih =>
    obtain ⟨l, hchain, hlast, hnodup⟩ := ih
    by_cases ha : a ∈ c :: l
    · -- the path comes back to `a`, so its part from there on will do
      obtain ⟨before, after, hsplit⟩ := List.append_of_mem ha
      have hsuffix : a :: after <:+ c :: l := ⟨before, hsplit.symm⟩
      refine ⟨after, hchain.suffix hsuffix, ?_, hnodup.sublist hsuffix.sublist⟩
      simp only [hsplit, List.getLast_append_of_ne_nil _ (List.cons_ne_nil a after)] at hlast
      exact hlast
    · exact ⟨c :: l, hchain.cons_cons hac, by simpa using hlast, List.nodup_cons.mpr ⟨ha, hnodup⟩⟩

/-- What leads back to itself lies on a cycle that passes no vertex twice. -/
theorem transGen_self_iff :
    Relation.TransGen r a a ↔ ∃ c : Cycle α, a ∈ c ∧ c.Nodup ∧ c.Chain r := by
  constructor
  · intro h
    obtain ⟨b, hab, hba⟩ := Relation.TransGen.head'_iff.mp h
    obtain ⟨l, hchain, hlast, hnodup⟩ := exists_nodup_chain hba
    refine ⟨(b :: l : List α), ?_, hnodup, ?_⟩
    · rw [Cycle.mem_coe_iff, ← hlast]
      exact List.getLast_mem _
    · rw [Cycle.chain_ne_nil r (List.cons_ne_nil b l), hlast]
      exact hchain.cons_cons hab
  · intro h
    obtain ⟨c, ha, -, hchain⟩ := h
    induction c using Quotient.inductionOn' with
    | h l =>
      -- turn the cycle until it starts with `a`
      obtain ⟨before, after, rfl⟩ := List.append_of_mem (Cycle.mem_coe_iff.mp ha)
      have hturned : (↑(before ++ a :: after) : Cycle α) = ↑(a :: (after ++ before)) :=
        Cycle.coe_eq_coe.mpr ⟨before.length, by simp⟩
      obtain ⟨b, rest, hrest⟩ := List.exists_cons_of_ne_nil
        (List.append_ne_nil_of_right_ne_nil (after ++ before) (List.cons_ne_nil a []))
      have hlast : (b :: rest).getLast (List.cons_ne_nil b rest) = a := by simp [← hrest]
      change Cycle.Chain r ↑(before ++ a :: after) at hchain
      rw [hturned, Cycle.chain_coe_cons, hrest, List.isChain_cons_cons] at hchain
      exact .head' hchain.1 (List.relationReflTransGen_of_exists_isChain_cons rest hchain.2 hlast)

end Cycles

/-- In a graph that was built by adding vertices and edges, every search for what a vertex leads to
comes to an answer within a bounded number of turns, whether or not its two vertices were added. The
answer is yes exactly if a path of one or more edges leads from the one to the other. A vertex counts
as lying on a cycle exactly if some cycle that passes no vertex twice goes through it. -/
theorem reaches_build_exact {α : Type} [DecidableEq α] (steps : List (Addition α)) :
    (∀ a b spare, (build steps).search b
        ((build steps).walkBound ((build steps).successors a) + 1 + spare)
        ((build steps).successors a).reverse [] = some ((build steps).reaches a b)) ∧
      (∀ a b, (build steps).reaches a b = true ↔
        Relation.TransGen (fun x y => .edge x y ∈ steps) a b) ∧
      ∀ a, (build steps).onCycle a = true ↔
        ∃ c : Cycle α, a ∈ c ∧ c.Nodup ∧ c.Chain fun x y => .edge x y ∈ steps := by
  have hreaches : ∀ a b, (build steps).reaches a b = true ↔
      Relation.TransGen (fun x y => .edge x y ∈ steps) a b := by
    intro a b
    rw [reaches_iff_transGen, edge_build_eq]
  refine ⟨fun a b spare => search_successors _ a b spare, hreaches, fun a => ?_⟩
  rw [onCycle, hreaches, transGen_self_iff]

end Digraph

end ProofCore
