import ProofCore.Proofs.RecordedCalls
import ProofCore.SizeChange.Closure

/-!
# The closure holds exactly the sequences of calls

Each round of the exploration keeps what is known and extends what is fresh. A round that leaves
something fresh has found a matrix, and there are fewer matrices than rounds, so the exploration
ends with every known sequence extended.
-/
namespace ProofCore

/-- The matrices of the sequences of calls, composed from left to right. -/
inductive CallSequence (g : CallGraph) : CallMatrix → Prop
  | single {a : CallMatrix} (recorded : a ∈ g.matrices) : CallSequence g a
  | snoc {path a longer : CallMatrix} (prior : CallSequence g path) (recorded : a ∈ g.matrices)
      (link : path.combine a = .ok longer) : CallSequence g longer

namespace Exploration

/-- Where a round that began with `start` known has come to. -/
structure Round (g : CallGraph) (start : Outgoing) (e : Exploration) : Prop where
  caller_known : e.known.caller = start.caller
  caller_fresh : e.fresh.caller = start.caller
  split : e.known.matrices.Perm (e.fresh.matrices ++ start.matrices)
  sequence : ∀ a ∈ e.known.matrices, CallSequence g a

theorem contains_record {e : Exploration} {a b : CallMatrix} (ha : a.caller = e.known.caller)
    (h : b.sameRelations a = true ∨ e.known.contains a = true) :
    (e.record b).known.contains a = true := by
  unfold record
  split
  · rename_i hb
    rcases h with h | h
    · obtain ⟨c, hc, hcb⟩ := Outgoing.contains_iff.mp hb
      exact Outgoing.contains_iff.mpr ⟨c, hc, CallMatrix.sameRelations_trans hcb h⟩
    · exact h
  · rename_i hb
    by_cases hcaller : b.caller = e.known.caller
    · have hperm := Outgoing.perm_matrices_insert hcaller (by simpa using hb)
      rcases h with h | h
      · exact Outgoing.contains_iff.mpr ⟨b, hperm.mem_iff.mpr (by simp), h⟩
      · obtain ⟨c, hc, hca⟩ := Outgoing.contains_iff.mp h
        exact Outgoing.contains_iff.mpr ⟨c, hperm.mem_iff.mpr (by simp [hc]), hca⟩
    · rcases h with h | h
      · exact absurd (((CallMatrix.sameRelations_iff b a).mp h).1.trans ha) hcaller
      · rwa [Outgoing.insert, dif_neg fun hh => hcaller hh.1]

theorem Round.record {g : CallGraph} {start : Outgoing} {e : Exploration} {a : CallMatrix}
    (h : Round g start e) (hcaller : a.caller = start.caller) (ha : CallSequence g a) :
    Round g start (e.record a) := by
  unfold Exploration.record
  split
  · exact h
  · rename_i hnew
    have hknown : e.known.contains a = false := by simpa using hnew
    have hfresh : e.fresh.contains a = false := by
      by_contra hc
      obtain ⟨b, hb, hba⟩ := Outgoing.contains_iff.mp (by simpa using hc)
      have hb' : b ∈ e.known.matrices := h.split.mem_iff.mpr (by simp [hb])
      rw [Outgoing.contains_iff.mpr ⟨b, hb', hba⟩] at hknown
      cases hknown
    have hpk := Outgoing.perm_matrices_insert (hcaller.trans h.caller_known.symm) hknown
    have hpf := Outgoing.perm_matrices_insert (hcaller.trans h.caller_fresh.symm) hfresh
    refine ⟨by simp [h.caller_known], by simp [h.caller_fresh], ?_, ?_⟩
    · have hcons := h.split.cons a
      exact hpk.trans (hcons.trans (hpf.symm.append_right start.matrices))
    · intro b hb
      rcases List.mem_cons.mp (hpk.mem_iff.mp hb) with rfl | hb
      · exact ha
      · exact h.sequence b hb

end Exploration

namespace CallGraph

theorem mem_extensions_iff {g : CallGraph} {path q : CallMatrix} :
    q ∈ g.extensions path ↔ ∃ a ∈ g.matrices, path.combine a = .ok q := by
  simp only [extensions, List.mem_filterMap, mem_callsFrom_iff,
    CallMatrix.toOption_combine_eq_some_iff]
  constructor
  · rintro ⟨a, ⟨ha, -⟩, h⟩
    exact ⟨a, ha, h⟩
  · rintro ⟨a, ha, h⟩
    exact ⟨a, ⟨ha, (CallMatrix.ends_of_combine h).1.symm⟩, h⟩

end CallGraph

namespace Exploration

theorem Round.recordAll {g : CallGraph} {start : Outgoing} {e : Exploration}
    (h : Round g start e) {as : List CallMatrix}
    (has : ∀ a ∈ as, a.caller = start.caller ∧ CallSequence g a) :
    Round g start (as.foldl Exploration.record e) ∧
      (∀ b, b.caller = start.caller → e.known.contains b = true →
        (as.foldl Exploration.record e).known.contains b = true) ∧
      ∀ a ∈ as, (as.foldl Exploration.record e).known.contains a = true := by
  induction as generalizing e with
  | nil => exact ⟨h, fun _ _ hb => hb, by simp⟩
  | cons a as ih =>
    have ha := has a (by simp)
    have hcaller : e.known.caller = start.caller := h.caller_known
    obtain ⟨hround, hkeep, hall⟩ := ih (h.record ha.1 ha.2) fun b hb => has b (by simp [hb])
    refine ⟨hround, fun b hb hc => ?_, fun b hb => ?_⟩
    · exact hkeep b hb (contains_record (hb.trans hcaller.symm) (.inr hc))
    · rcases List.mem_cons.mp hb with rfl | hb
      · exact hkeep b ha.1 (contains_record (ha.1.trans hcaller.symm) (.inl b.sameRelations_refl))
      · exact hall b hb

theorem Round.extendAll {g : CallGraph} {start : Outgoing} {e : Exploration}
    (h : Round g start e) {paths : List CallMatrix}
    (hpaths : ∀ p ∈ paths, p.caller = start.caller ∧ CallSequence g p) :
    let last := paths.foldl (fun e path => (g.extensions path).foldl Exploration.record e) e
    Round g start last ∧
      (∀ b, b.caller = start.caller → e.known.contains b = true →
        last.known.contains b = true) ∧
      ∀ p ∈ paths, ∀ q ∈ g.extensions p, last.known.contains q = true := by
  induction paths generalizing e with
  | nil => exact ⟨h, fun _ _ hb => hb, by simp⟩
  | cons p paths ih =>
    have hp := hpaths p (by simp)
    have hext : ∀ q ∈ g.extensions p, q.caller = start.caller ∧ CallSequence g q := by
      intro q hq
      obtain ⟨a, ha, hlink⟩ := CallGraph.mem_extensions_iff.mp hq
      exact ⟨(CallMatrix.ends_of_combine hlink).2.2.2.1.trans hp.1, .snoc hp.2 ha hlink⟩
    obtain ⟨hround, hkeep, hall⟩ := h.recordAll hext
    obtain ⟨hround', hkeep', hall'⟩ := ih hround fun q hq => hpaths q (by simp [hq])
    refine ⟨hround', fun b hb hc => hkeep' b hb (hkeep b hb hc), fun r hr q hq => ?_⟩
    rcases List.mem_cons.mp hr with rfl | hr
    · exact hkeep' q (hext q hq).1 (hall q hq)
    · exact hall' r hr q hq

/-- What holds between rounds: the known sequences start with the given calls, and those that are
not fresh have all their extensions known. -/
structure Explored (g : CallGraph) (c : Outgoing) (e : Exploration) : Prop where
  caller_eq : e.known.caller = c.caller
  starts : c.matrices ⊆ e.known.matrices
  fresh_known : e.fresh.matrices ⊆ e.known.matrices
  sequence : ∀ a ∈ e.known.matrices, CallSequence g a
  extended : ∀ p ∈ e.known.matrices, p ∉ e.fresh.matrices →
    ∀ q ∈ g.extensions p, e.known.contains q = true

theorem Explored.initial {g : CallGraph} {c : Outgoing} (hc : c.matrices ⊆ g.matrices) :
    Explored g c ⟨c, c⟩ where
  caller_eq := rfl
  starts := List.Subset.refl _
  fresh_known := List.Subset.refl _
  sequence _ ha := .single (hc ha)
  extended _ hp hfresh := absurd hp hfresh

theorem Explored.explore {g : CallGraph} {c : Outgoing} {e : Exploration} (h : Explored g c e) :
    Explored g c (g.explore e) ∧
      (g.explore e).known.matrices.length =
        e.known.matrices.length + (g.explore e).fresh.matrices.length := by
  have hround : Round g e.known ⟨e.known, e.known.cleared⟩ :=
    ⟨rfl, rfl, by simp, h.sequence⟩
  have hpaths : ∀ p ∈ e.fresh.matrices, p.caller = e.known.caller ∧ CallSequence g p :=
    fun p hp => ⟨Outgoing.caller_of_mem (h.fresh_known hp), h.sequence p (h.fresh_known hp)⟩
  obtain ⟨hlast, hkeep, hall⟩ := hround.extendAll hpaths
  have hold : ∀ a ∈ e.known.matrices, a ∈ (g.explore e).known.matrices := fun a ha =>
    hlast.split.mem_iff.mpr (List.mem_append_right _ ha)
  refine ⟨⟨hlast.caller_known.trans h.caller_eq, fun a ha => hold a (h.starts ha), fun a ha =>
    hlast.split.mem_iff.mpr (List.mem_append_left _ ha), hlast.sequence, ?_⟩, ?_⟩
  · intro p hp hfresh q hq
    have hp' : p ∈ e.known.matrices :=
      (List.mem_append.mp (hlast.split.mem_iff.mp hp)).resolve_left hfresh
    have hcaller : q.caller = e.known.caller := by
      obtain ⟨a, -, hlink⟩ := CallGraph.mem_extensions_iff.mp hq
      exact (CallMatrix.ends_of_combine hlink).2.2.2.1.trans (Outgoing.caller_of_mem hp')
    by_cases hpf : p ∈ e.fresh.matrices
    · exact hall p hpf q hq
    · exact hkeep q hcaller (h.extended p hp' hpf q hq)
  · have hlen := hlast.split.length_eq
    rw [List.length_append] at hlen
    exact hlen.trans (Nat.add_comm _ _)

end Exploration

instance : Fintype SizeRelation :=
  ⟨{.unknown, .equal, .lessThan}, fun r => by cases r <;> simp⟩

/-- A sequence has the caller and rows of its first call, the callee and columns of its last. -/
theorem CallSequence.ends {g : CallGraph} {a : CallMatrix} (h : CallSequence g a) :
    ∃ first ∈ g.matrices, ∃ last ∈ g.matrices, a.caller = first.caller ∧ a.rows = first.rows ∧
      a.callee = last.callee ∧ a.cols = last.cols := by
  induction h with
  | single ha => exact ⟨_, ha, _, ha, rfl, rfl, rfl, rfl⟩
  | snoc _ ha hlink ih =>
    obtain ⟨first, hfirst, -, -, hcaller, hrows, -, -⟩ := ih
    obtain ⟨-, -, -, ecaller, ecallee, erows, ecols⟩ := CallMatrix.ends_of_combine hlink
    exact ⟨first, hfirst, _, ha, ecaller.trans hcaller, erows.trans hrows, ecallee, ecols⟩

namespace CallGraph

theorem rows_le_sum {g : CallGraph} {a : CallMatrix} (h : a ∈ g.matrices) :
    a.rows ≤ (g.matrices.map CallMatrix.rows).sum :=
  List.le_sum_of_mem (List.mem_map_of_mem h)

theorem cols_le_sum {g : CallGraph} {a : CallMatrix} (h : a ∈ g.matrices) :
    a.cols ≤ (g.matrices.map CallMatrix.cols).sum :=
  List.le_sum_of_mem (List.mem_map_of_mem h)

/-- The first and the last call of a sequence and its cells, as far as any call reaches. -/
abbrev SequenceCode (g : CallGraph) : Type :=
  (Fin g.size × Fin g.size) ×
    (Fin (g.matrices.map CallMatrix.rows).sum × Fin (g.matrices.map CallMatrix.cols).sum →
      SizeRelation)

def SequenceCode.Describes {g : CallGraph} (code : g.SequenceCode) (a : CallMatrix) : Prop :=
  a.caller = (g.matrices.get code.1.1).caller ∧ a.rows = (g.matrices.get code.1.1).rows ∧
    a.callee = (g.matrices.get code.1.2).callee ∧ a.cols = (g.matrices.get code.1.2).cols ∧
    ∀ p, a.get p.1 p.2 = code.2 p

theorem exists_code {g : CallGraph} {a : CallMatrix} (h : CallSequence g a) :
    ∃ code : g.SequenceCode, code.Describes a := by
  obtain ⟨first, hfirst, last, hlast, hcaller, hrows, hcallee, hcols⟩ := CallSequence.ends h
  obtain ⟨i, rfl⟩ := List.get_of_mem hfirst
  obtain ⟨j, rfl⟩ := List.get_of_mem hlast
  exact ⟨⟨(i, j), fun p => a.get p.1 p.2⟩, hcaller, hrows, hcallee, hcols, fun _ => rfl⟩

theorem SequenceCode.Describes.sameRelations {g : CallGraph} {code : g.SequenceCode}
    {a b : CallMatrix} (ha : code.Describes a) (hb : code.Describes b) :
    a.sameRelations b = true := by
  obtain ⟨hcaller, hrows, hcallee, hcols, hget⟩ := ha
  obtain ⟨hcaller', hrows', hcallee', hcols', hget'⟩ := hb
  refine (CallMatrix.sameRelations_iff a b).mpr ⟨hcaller.trans hcaller'.symm,
    hcallee.trans hcallee'.symm, hrows.trans hrows'.symm, hcols.trans hcols'.symm, fun i j => ?_⟩
  have hr : a.rows ≤ _ := hrows ▸ rows_le_sum (g.matrices.get_mem code.1.1)
  have hc : a.cols ≤ _ := hcols ▸ cols_le_sum (g.matrices.get_mem code.1.2)
  by_cases hi : i < (g.matrices.map CallMatrix.rows).sum
  · by_cases hj : j < (g.matrices.map CallMatrix.cols).sum
    · exact (hget (⟨i, hi⟩, ⟨j, hj⟩)).trans (hget' (⟨i, hi⟩, ⟨j, hj⟩)).symm
    · rw [CallMatrix.get_of_cols_le (by omega), CallMatrix.get_of_cols_le (by omega)]
  · rw [CallMatrix.get_of_rows_le (by omega), CallMatrix.get_of_rows_le (by omega)]

theorem card_sequenceCode_lt (g : CallGraph) :
    Fintype.card g.SequenceCode < 2 ^ (g.closureBits - 1) := by
  set r := (g.matrices.map CallMatrix.rows).sum with hr
  set c := (g.matrices.map CallMatrix.cols).sum with hc
  have hcard : Fintype.card g.SequenceCode = g.size * g.size * 3 ^ (r * c) := by
    simp only [Fintype.card_prod, Fintype.card_fun, Fintype.card_fin, ← hr, ← hc]
    rfl
  have hbits : g.closureBits - 1 = 2 * (r * c) + g.size * g.size := by
    change 2 * r * c + g.size * g.size + 1 - 1 = _
    rw [Nat.add_sub_cancel, Nat.mul_assoc]
  rw [hcard, hbits]
  calc g.size * g.size * 3 ^ (r * c)
      < 2 ^ (g.size * g.size) * 3 ^ (r * c) :=
        Nat.mul_lt_mul_of_pos_right Nat.lt_two_pow_self (by positivity)
    _ ≤ 2 ^ (g.size * g.size) * 4 ^ (r * c) :=
        Nat.mul_le_mul_left _ (Nat.pow_le_pow_left (by omega) _)
    _ = 2 ^ (2 * (r * c) + g.size * g.size) := by
        rw [pow_add, pow_mul 2 2 (r * c), Nat.mul_comm]
        norm_num

/-- Different sequences of calls have different codes. -/
theorem length_lt_of_sequences {g : CallGraph} {as : List CallMatrix}
    (hdistinct : as.Pairwise fun a b => a.sameRelations b = false)
    (has : ∀ a ∈ as, CallSequence g a) : as.length < 2 ^ (g.closureBits - 1) := by
  have hex : ∀ a, CallSequence g a → ∃ code : g.SequenceCode, code.Describes a :=
    fun _ => exists_code
  choose code hcode using hex
  have hnodup : (as.pmap code has).Nodup := by
    refine List.Pairwise.pmap hdistinct has fun a ha b hb hab heq => ?_
    have hsame := (hcode a ha).sameRelations (heq ▸ hcode b hb)
    rw [hab] at hsame
    cases hsame
  have hle := hnodup.length_le_card
  rw [List.length_pmap] at hle
  exact hle.trans_lt (card_sequenceCode_lt g)

theorem exploreFor_of_isDone {g : CallGraph} {e : Exploration} (n : ℕ) (h : e.isDone = true) :
    g.exploreFor n e = e := by
  cases n with
  | zero => rfl
  | succ n => rw [exploreFor, if_pos h]

end CallGraph

namespace Exploration

theorem Explored.exploreFor {g : CallGraph} {c : Outgoing} {e : Exploration} (n : ℕ)
    (h : Explored g c e) :
    Explored g c (g.exploreFor n e) ∧ ((g.exploreFor n e).isDone = true ∨
      e.known.matrices.length + n ≤ (g.exploreFor n e).known.matrices.length) := by
  fun_induction CallGraph.exploreFor g n e with
  | case1 e => exact ⟨h, .inr le_rfl⟩
  | case2 n e hdone => exact ⟨h, .inl hdone⟩
  | case3 n e _ ih =>
    obtain ⟨hnext, hlen⟩ := h.explore
    obtain ⟨hlast, hcount⟩ := ih hnext
    refine ⟨hlast, ?_⟩
    by_cases hdone : (g.explore e).isDone = true
    · rw [CallGraph.exploreFor_of_isDone n hdone]
      exact .inl hdone
    · -- a round that is not the last one has found a matrix
      have hpos : 0 < (g.explore e).fresh.matrices.length :=
        List.length_pos_iff.mpr (by simpa [isDone] using hdone)
      refine hcount.imp_right fun hcount => ?_
      omega

theorem Explored.exploreDoubling {g : CallGraph} {c : Outgoing} {e : Exploration} (n rounds : ℕ)
    (h : Explored g c e) :
    Explored g c (g.exploreDoubling n rounds e) ∧
      ((g.exploreDoubling n rounds e).isDone = true ∨ e.known.matrices.length + rounds * 2 ^ n ≤
        (g.exploreDoubling n rounds e).known.matrices.length + rounds) := by
  fun_induction CallGraph.exploreDoubling g n rounds e with
  | case1 rounds e => exact ⟨h, .inr (by simp)⟩
  | case2 n rounds e last hdone => exact ⟨(h.exploreFor rounds).1, .inl hdone⟩
  | case3 n rounds e last hdone ih =>
    obtain ⟨hnext, hlen⟩ := h.exploreFor rounds
    obtain ⟨hlast, hcount⟩ := ih hnext
    refine ⟨hlast, hcount.imp_right fun hcount => ?_⟩
    have hlen := hlen.resolve_left hdone
    change _ ≤ last.known.matrices.length at hlen
    have hpow : rounds * 2 ^ n.succ = 2 * rounds * 2 ^ n := by
      rw [pow_succ]
      ring
    omega

end Exploration

namespace CallGraph

/-- The exploration from each caller ends with nothing left to extend. -/
theorem explored_sequences {g : CallGraph} {c : Outgoing} (hc : c.matrices ⊆ g.matrices) :
    let last := g.exploreDoubling g.closureBits 1 ⟨c, c⟩
    Exploration.Explored g c last ∧ last.fresh.matrices = [] := by
  intro last
  obtain ⟨hlast, hcount⟩ :=
    (Exploration.Explored.initial hc).exploreDoubling g.closureBits 1
  refine ⟨hlast, ?_⟩
  have hfew := length_lt_of_sequences last.known.pairwise_matrices hlast.sequence
  have hpow : 2 ^ g.closureBits = 2 * 2 ^ (g.closureBits - 1) := by
    rw [← pow_succ']
    rfl
  have hdone : last.isDone = true := by
    refine hcount.resolve_right fun hmany => ?_
    change _ ≤ last.known.matrices.length + 1 at hmany
    omega
  simpa [Exploration.isDone] using hdone

theorem mem_closure_iff {g : CallGraph} {a : CallMatrix} :
    a ∈ g.closure.matrices ↔ ∃ caller c, g.calls.get? caller = some c ∧
      a ∈ (g.sequences g.closureBits c).matrices := by
  rw [mem_matrices_iff]
  constructor
  · rintro ⟨caller, c', hc', ha⟩
    rw [closure, Table.get?_mapEntries] at hc'
    obtain ⟨c, hc, rfl⟩ := Option.map_eq_some_iff.mp hc'
    exact ⟨caller, c, hc, ha⟩
  · rintro ⟨caller, c, hc, ha⟩
    refine ⟨caller, _, ?_, ha⟩
    rw [closure, Table.get?_mapEntries, hc]
    rfl

theorem subset_matrices {g : CallGraph} {caller : DefId} {c : Outgoing}
    (hc : g.calls.get? caller = some c) : c.matrices ⊆ g.matrices :=
  fun _ ha => mem_matrices_iff.mpr ⟨caller, c, hc, ha⟩

theorem sequence_of_mem_closure {g : CallGraph} {a : CallMatrix} (h : a ∈ g.closure.matrices) :
    CallSequence g a := by
  obtain ⟨caller, c, hc, ha⟩ := mem_closure_iff.mp h
  exact (explored_sequences (subset_matrices hc)).1.sequence a ha

theorem exists_mem_closure {g : CallGraph} {a : CallMatrix} (h : CallSequence g a) :
    ∃ b ∈ g.closure.matrices, b.sameRelations a = true := by
  induction h with
  | @single a ha =>
    obtain ⟨caller, c, hc, hac⟩ := mem_matrices_iff.mp ha
    have hstarts := (explored_sequences (subset_matrices hc)).1.starts
    exact ⟨a, mem_closure_iff.mpr ⟨caller, c, hc, hstarts hac⟩, a.sameRelations_refl⟩
  | @snoc path a longer _ ha hlink ih =>
    obtain ⟨p, hp, hsame⟩ := ih
    obtain ⟨caller, c, hc, hpc⟩ := mem_closure_iff.mp hp
    obtain ⟨hlast, hnone⟩ := explored_sequences (subset_matrices hc)
    obtain ⟨q, hq, hlonger⟩ := CallMatrix.combine_congr (CallMatrix.sameRelations_symm hsame)
      a.sameRelations_refl hlink
    have hext : q ∈ g.extensions p := mem_extensions_iff.mpr ⟨a, ha, hq⟩
    have hcontains := hlast.extended p hpc (by simp [hnone]) q hext
    obtain ⟨b, hb, hbq⟩ := Outgoing.contains_iff.mp hcontains
    exact ⟨b, mem_closure_iff.mpr ⟨caller, c, hc, hb⟩,
      CallMatrix.sameRelations_trans hbq (CallMatrix.sameRelations_symm hlonger)⟩

/-- Whether there is room for every sequence of calls. -/
def Roomy (g : CallGraph) : Prop :=
  ∀ path a, CallSequence g path → a ∈ g.matrices → path.combine a ≠ .error .noRoom

theorem hasRoom_iff {g known : CallGraph} :
    g.hasRoom known = true ↔
      ∀ path ∈ known.matrices, ∀ a ∈ g.matrices, path.combine a ≠ .error .noRoom := by
  simp only [hasRoom, List.all_eq_true, mem_callsFrom_iff, Bool.not_eq_true', ← Bool.not_eq_true,
    CallMatrix.lacksRoom_iff]
  constructor
  · intro h path hpath a ha hlarge
    have hlink := (CallMatrix.combine_eq_noRoom_iff.mp hlarge).1.1
    exact h path hpath a ⟨ha, hlink.symm⟩ hlarge
  · exact fun h path hpath a ha => h path hpath a ha.1

theorem hasRoom_closure_iff {g : CallGraph} : g.hasRoom g.closure = true ↔ g.Roomy := by
  rw [hasRoom_iff]
  constructor
  · intro h path a hpath ha hlarge
    obtain ⟨b, hb, hsame⟩ := exists_mem_closure hpath
    exact h b hb a ha (CallMatrix.combine_eq_noRoom_congr (CallMatrix.sameRelations_symm hsame)
      a.sameRelations_refl hlarge)
  · exact fun h path hpath a ha => h path a (sequence_of_mem_closure hpath) ha

theorem complete_eq_some_iff {g closure : CallGraph} :
    g.complete = some closure ↔ g.Roomy ∧ g.closure = closure := by
  rw [← hasRoom_closure_iff, complete]
  by_cases h : g.hasRoom g.closure = true
  · simp [h]
  · simp [h]

theorem complete_eq_none_iff {g : CallGraph} : g.complete = none ↔ ¬ g.Roomy := by
  rw [← hasRoom_closure_iff, complete]
  by_cases h : g.hasRoom g.closure = true
  · simp [h]
  · simp [h]

/-- A sequence of calls that leads a definition back to itself, has the relations of its own
repetition, and lets no parameter decrease. -/
structure IsEndless (g : CallGraph) (a : CallMatrix) : Prop where
  sequence : CallSequence g a
  returns : a.caller = a.callee
  idempotent : a.isIdempotent = true
  steady : a.hasDecreasingDiagonal = false

theorem mem_endlessLoops_iff {g : CallGraph} {a : CallMatrix} :
    a ∈ g.closure.endlessLoops ↔ a ∈ g.closure.matrices ∧ g.IsEndless a := by
  simp only [endlessLoops, List.mem_filter, Bool.and_eq_true, decide_eq_true_eq, Bool.not_eq_true']
  constructor
  · rintro ⟨ha, ⟨hself, hidem⟩, hdiag⟩
    exact ⟨ha, sequence_of_mem_closure ha, hself, hidem, hdiag⟩
  · rintro ⟨ha, -, hself, hidem, hdiag⟩
    exact ⟨ha, ⟨hself, hidem⟩, hdiag⟩

theorem IsEndless.congr {g g' : CallGraph} {a b : CallMatrix} (h : g.IsEndless a)
    (hb : CallSequence g' b) (hsame : a.sameRelations b = true) : g'.IsEndless b := by
  obtain ⟨hcaller, hcallee, -⟩ := (CallMatrix.sameRelations_iff a b).mp hsame
  exact ⟨hb, by rw [← hcaller, ← hcallee, h.returns],
    CallMatrix.isIdempotent_congr hsame h.idempotent,
    (CallMatrix.hasDecreasingDiagonal_congr hsame).symm.trans h.steady⟩

theorem roomy_of_badRecursion {g : CallGraph} {loops : List CallMatrix}
    (h : g.badRecursion = some loops) : g.Roomy := by
  obtain ⟨closure, hclosure, -⟩ := Option.map_eq_some_iff.mp h
  exact (complete_eq_some_iff.mp hclosure).1

/-- There is bad recursion if some sequence of calls is endless. -/
theorem exists_badRecursion_iff {g : CallGraph} {loops : List CallMatrix}
    (h : g.badRecursion = some loops) : loops ≠ [] ↔ ∃ a, g.IsEndless a := by
  obtain ⟨closure, hclosure, rfl⟩ := Option.map_eq_some_iff.mp h
  obtain ⟨-, rfl⟩ := complete_eq_some_iff.mp hclosure
  constructor
  · intro hne
    obtain ⟨a, ha⟩ := List.exists_mem_of_ne_nil _ hne
    exact ⟨a, (mem_endlessLoops_iff.mp ha).2⟩
  · rintro ⟨a, ha⟩
    obtain ⟨b, hb, hsame⟩ := exists_mem_closure ha.sequence
    have hendless := ha.congr (sequence_of_mem_closure hb) (CallMatrix.sameRelations_symm hsame)
    exact List.ne_nil_of_mem (mem_endlessLoops_iff.mpr ⟨hb, hendless⟩)

theorem badRecursion_eq_nil_iff {g : CallGraph} :
    g.badRecursion = some [] ↔ g.Roomy ∧ ∀ a, ¬ g.IsEndless a := by
  constructor
  · intro h
    exact ⟨roomy_of_badRecursion h, fun a ha => (exists_badRecursion_iff h).mpr ⟨a, ha⟩ rfl⟩
  · rintro ⟨hroom, hnone⟩
    have h : g.badRecursion = some g.closure.endlessLoops := by
      rw [badRecursion, complete_eq_some_iff.mpr ⟨hroom, rfl⟩, Option.map_some]
    have hnil : g.closure.endlessLoops = [] := by
      by_contra hne
      obtain ⟨a, ha⟩ := (exists_badRecursion_iff h).mp hne
      exact hnone a ha
    rw [h, hnil]

end CallGraph

end ProofCore
