import FlowAnalysis.Proofs.Bounds
import FlowAnalysis.Proofs.Requests

/-! # Runs that sweep over the labels once

All labels are queued in the beginning. As long as an evaluation awakens none
but labels that come later in the visiting order, these are queued still, and
the label of smallest rank is the next one of the order. Such a run evaluates
the labels one after the other and settles with the last of them, under any
bound that allows one evaluation per label. The merge need not even stay the
same from one evaluation to the next.
-/
namespace FlowAnalysis
variable {S F R : Type}

/-- A bound allows one evaluation of each label, if there are no more labels than a word can count. -/
theorem Settings.bound_allows {settings : Settings} {size : Nat}
    (hfits : settings.nodeLimit ≠ 0 → size < UInt64.size) :
    settings.bound size = 0 ∨ size ≤ settings.bound size := by
  by_cases hk : settings.nodeLimit = 0
  · exact .inl (by simp [bound, hk])
  · have hword : size ≤ maxCount := Nat.le_of_lt_succ (hfits hk)
    have hprod : size ≤ settings.nodeLimit * size := Nat.le_mul_of_pos_left size (Nat.pos_of_ne_zero hk)
    exact .inr (Nat.le_min.mpr ⟨hprod, hword⟩)

theorem FlowGraph.Valid.size_nodes {g : FlowGraph S} (h : g.Valid) : g.nodes.size = g.ids.toFinset.card :=
  LabelMap.size_eq_card fun l => (h.mem_ids l).symm.trans List.mem_toFinset.symm

theorem FlowGraph.length_visitOrder {g : FlowGraph S} {visitOrder : VisitOrder} {order : List Label}
    (h : g.visitOrder visitOrder = .ok order) : order.length = g.ids.toFinset.card := by
  obtain ⟨hnodup, hmem⟩ := nodup_visitOrder h
  rw [← List.toFinset_card_of_nodup hnodup]
  congr 1
  ext l
  rw [List.mem_toFinset, List.mem_toFinset, hmem]

/-- The run has settled after it has evaluated each label once, in the visiting order. -/
structure Report.Sweeps (r : Report F R) (g : FlowGraph S) (order : VisitOrder) : Prop where
  ending : r.ending = .settled
  visits : g.visitOrder order = .ok r.visits
  once : r.visits.Nodup ∧ ∀ l, l ∈ r.visits ↔ l ∈ g.ids
  size : r.evaluations.size = g.ids.toFinset.card

/-- The evaluated labels and those to come make up the order, which ranks all labels, and those to
come are queued. -/
structure State.Sweeping (s : State F) (order todo : List Label) : Prop where
  cut : s.evaluations.toList.map (·.label) ++ todo = order
  queued : ∀ l, l ∈ s.worklist ↔ l ∈ todo
  ranks : ∀ {i : Nat} {l : Label}, order[i]? = some l → s.worklist.ranks[l]? = some i

namespace State.Sweeping
variable {s : State F} {order todo : List Label} {l : Label}

theorem size_add (h : s.Sweeping order todo) : s.evaluations.size + todo.length = order.length := by
  simp [← h.cut]

theorem rank_todo (h : s.Sweeping order todo) {i : Nat} (hl : todo[i]? = some l) :
    s.worklist.ranks[l]? = some (s.evaluations.size + i) := by
  have hlength : (s.evaluations.toList.map (·.label)).length = s.evaluations.size := by simp
  refine h.ranks ?_
  rw [← h.cut, ← hlength, List.getElem?_append_right (Nat.le_add_right _ _), Nat.add_sub_cancel_left, hl]

/-- The label that is taken is the next one of the order. -/
theorem exists_rest (h : s.Sweeping order todo) (hr : s.worklist.Ranked) {w : Worklist}
    (hp : s.worklist.pop? = some (l, w)) : ∃ rest, todo = l :: rest := by
  have hl : l ∈ todo := (h.queued l).mp (hr.pop hp).2.2.1
  obtain ⟨i, hi⟩ := List.mem_iff_getElem?.mp hl
  cases todo with
  | nil => cases hl
  | cons x rest =>
    have hx : x ∈ s.worklist := (h.queued x).mpr List.mem_cons_self
    have hle := hr.least_of_pop hp hx (h.rank_todo hi) (h.rank_todo (i := 0) rfl)
    obtain rfl : i = 0 := by omega
    obtain rfl : x = l := Option.some.inj hi
    exact ⟨rest, rfl⟩

theorem size_eq_zero_iff (h : s.Sweeping order todo) (hr : s.worklist.Ranked) :
    s.worklist.size = 0 ↔ todo = [] := by
  constructor
  · intro h0
    refine List.eq_nil_iff_forall_not_mem.mpr fun l hl => ?_
    exact hr.not_mem_of_size h0 l ((h.queued l).mpr hl)
  · rintro rfl
    have hnone : s.worklist.labels.toFinset = ∅ := by
      simp [Finset.eq_empty_iff_forall_notMem, hr.mem_labels, h.queued]
    rw [← hr.card_labels, hnone, Finset.card_empty]

end State.Sweeping

namespace Problem
variable [BEq F] {p : Problem S F} {s t : State F} {n : Node S} {e : Evaluation F} {start : Flows F}
  {order todo : List Label} {settings : Settings} {steps : Nat}

theorem Advances.ranks_eq (h : p.Advances s t n e) (hr : s.worklist.Ranked) :
    t.worklist.ranks = s.worklist.ranks := by
  obtain ⟨w, hp, he⟩ := h.taken
  obtain ⟨hw, hranks, _⟩ := hr.pop hp
  exact (hw.extend he).2.1.trans hranks

/-- What comes later is queued already, so that the queue does not gain from being awakened. -/
theorem Advances.sweeping (h : p.Advances s t n e) (hs : s.Sound p.graph) (hnodup : order.Nodup)
    (hsweep : s.Sweeping order todo)
    (hlater : ∀ {before after}, order = before ++ e.label :: after → ∀ x ∈ e.awakened, x ∈ after) :
    ∃ rest, t.Sweeping order rest := by
  obtain ⟨w, hp, _⟩ := h.taken
  obtain ⟨rest, rfl⟩ := hsweep.exists_rest hs.ranked hp
  have hnext : e.label ∉ rest := by
    rw [← hsweep.cut] at hnodup
    exact (List.nodup_cons.mp (List.nodup_append.mp hnodup).2.1).1
  refine ⟨rest, ?_, fun l => ?_, fun {i l} hl => ?_⟩
  · rw [h.evaluations, Array.toList_push, List.map_append, List.append_assoc]
    exact hsweep.cut
  · rw [h.mem_worklist hs, hsweep.queued, List.mem_cons]
    constructor
    · rintro (ha | ⟨hne, hl⟩)
      · exact hlater hsweep.cut.symm l ha
      · exact hl.resolve_left hne
    · exact fun hl => .inr ⟨fun heq => hnext (heq ▸ hl), .inr hl⟩
  · rw [h.ranks_eq hs.ranked]
    exact hsweep.ranks hl

omit [BEq F] in
theorem ranks_of_start {visitOrder : VisitOrder} (h : p.start visitOrder start = .ok s)
    (ho : p.graph.visitOrder visitOrder = .ok order) :
    s.worklist.ranks = (Worklist.ofOrder order).ranks := by
  rw [Problem.start, Worklist.ofGraph, ho] at h
  simp only [bind, Except.bind, pure, Except.pure] at h
  split at h
  · cases h
  · next w he =>
    cases h
    exact ((Worklist.ranked_ofOrder order).extend he).2.1

omit [BEq F] in
theorem Starts.sweeping (hs : p.Starts start s) (hv : p.graph.Valid) {visitOrder : VisitOrder}
    (hstart : p.start visitOrder (start.complete p.graph p.initial p.boundary) = .ok s)
    (horder : p.graph.visitOrder visitOrder = .ok order) : s.Sweeping order order := by
  obtain ⟨hnodup, hmem⟩ := FlowGraph.nodup_visitOrder horder
  refine ⟨by simp [hs.evaluations], fun l => ?_, fun {i l} hl => ?_⟩
  · rw [hs.queued, hmem, hv.mem_ids]
  · have hl' := Worklist.mem_ranks_ofOrder.mpr (List.mem_of_getElem? hl)
    obtain ⟨j, hj⟩ := LabelMap.exists_of_mem hl'
    have hplace := Worklist.getElem?_of_rank_ofOrder hj
    have hlt := (List.getElem?_eq_some_iff.mp hl).1
    obtain rfl : i = j := (List.getElem?_inj hlt hnodup).mp (hl.trans hplace.symm)
    rw [ranks_of_start hstart horder, hj]

/-- The same problem with another merge. -/
def merging (p : Problem S F) (merge : F → F → F) : Problem S F := { p with merge }

/-- A run in which the merge may change with each evaluation, as the flow function may. -/
def runVarying (p : Problem S F) (merges : Nat → F → F → F) (bound : Nat) :
    Nat → State F → Report F (Flows F)
  | 0, s => ⟨.unfinished, s.evaluations, s.flows⟩
  | steps + 1, s =>
    match (p.merging (merges (s.evaluations.size + 1))).step bound s with
    | (s, none) => p.runVarying merges bound steps s
    | (s, some ending) => ⟨ending, s.evaluations, s.flows⟩

def solveVarying (p : Problem S F) (merges : Nat → F → F → F) (settings : Settings) (steps : Nat)
    (flows : Flows F) : Report F (Flows F) :=
  match p.graph.violation? with
  | .error e => ⟨.absent e, #[], flows⟩
  | .ok (some v) => ⟨.malformed v, #[], flows⟩
  | .ok none =>
    let flows := flows.complete p.graph p.initial p.boundary
    match p.start settings.order flows with
    | .error e => ⟨.absent e, #[], flows⟩
    | .ok s => p.runVarying merges (settings.bound p.graph.nodes.size) steps s

theorem runVarying_const (bound steps : Nat) (s : State F) :
    p.runVarying (fun _ => p.merge) bound steps s = p.run bound steps s := by
  induction steps generalizing s with
  | zero => rfl
  | succ steps ih =>
    rw [runVarying, run]
    change (match p.step bound s with | (s, none) => _ | (s, some ending) => _) = _
    rcases p.step bound s with ⟨t, _ | ending⟩
    · exact ih t
    · rfl

/-- A merge that does not change is the one of the problem. -/
theorem solveVarying_const (settings : Settings) (steps : Nat) (flows : Flows F) :
    p.solveVarying (fun _ => p.merge) settings steps flows = p.solve settings steps flows := by
  rcases hv : p.graph.violation? with e | _ | v
  · simp only [solveVarying, solve, hv]
  · cases hs : p.start settings.order (flows.complete p.graph p.initial p.boundary) with
    | error e => simp only [solveVarying, solve, hv, hs]
    | ok s => simp only [solveVarying, solve, hv, hs, runVarying_const]
  · simp only [solveVarying, solve, hv]

variable {merges : Nat → F → F → F}

/-- No bound strikes before the sweep is over, and with enough steps it comes to its end. -/
theorem runVarying_sweeps {bound : Nat} (hv : p.graph.Valid) (hnodup : order.Nodup) (Inv : Flows F → Prop)
    (hstep : ∀ {tick flows n e}, (p.merging (merges tick)).Evaluates tick flows n e → Inv flows →
      Inv (e.commit flows))
    (hlater : ∀ {tick flows n e}, (p.merging (merges tick)).Evaluates tick flows n e → Inv flows →
      ∀ {before after}, order = before ++ e.label :: after → ∀ x ∈ e.awakened, x ∈ after)
    (hbound : bound = 0 ∨ order.length ≤ bound) (hs : s.Sound p.graph) (hsweep : s.Sweeping order todo)
    (hi : Inv s.flows) (hsteps : order.length < s.evaluations.size + steps) :
    ∃ t : State F, p.runVarying merges bound steps s = ⟨.settled, t.evaluations, t.flows⟩ ∧
      t.Sweeping order [] ∧ Inv t.flows := by
  have hsize := hsweep.size_add
  induction steps generalizing s todo with
  | zero => omega
  | succ steps ih =>
    rcases step_cases (p := p.merging (merges (s.evaluations.size + 1))) hv hs bound with
      ⟨h0, he⟩ | ⟨h0, hb, hle, _⟩ | ⟨t, n, e, ha, he⟩
    · obtain rfl := (hsweep.size_eq_zero_iff hs.ranked).mp h0
      exact ⟨s, by simp only [runVarying, he], hsweep, hi⟩
    · have htodo : todo ≠ [] := mt (hsweep.size_eq_zero_iff hs.ranked).mpr h0
      have hpos := List.length_pos_iff.mpr htodo
      omega
    · obtain ⟨rest, hnext⟩ := ha.sweeping hs hnodup hsweep (hlater ha.evaluates hi)
      have hsteps' : order.length < t.evaluations.size + steps := by
        rw [ha.evaluations, Array.size_push]
        omega
      obtain ⟨u, hrun, hu⟩ := ih (ha.sound hv hs) hnext (ha.flows ▸ hstep ha.evaluates hi) hsteps'
        hnext.size_add
      exact ⟨u, by simp only [runVarying, he, hrun], hu⟩

/-- If something holds of the flows at all times and each evaluation awakens none but labels that come
later in the visiting order as long as it does, the run sweeps over the labels once. -/
theorem solveVarying_sweeps (hv : p.graph.violation? = .ok none)
    (hfits : settings.nodeLimit ≠ 0 → p.graph.ids.toFinset.card < UInt64.size)
    (hsteps : p.graph.ids.toFinset.card < steps) (Inv : Flows F → Prop)
    (hinit : Inv (start.complete p.graph p.initial p.boundary))
    (hstep : ∀ {tick flows n e}, (p.merging (merges tick)).Evaluates tick flows n e → Inv flows →
      Inv (e.commit flows))
    (hlater : ∀ {tick flows n e}, (p.merging (merges tick)).Evaluates tick flows n e → Inv flows →
      ∀ {before after}, p.graph.visitOrder settings.order = .ok (before ++ e.label :: after) →
        ∀ x ∈ e.awakened, x ∈ after) :
    (p.solveVarying merges settings steps start).Sweeps p.graph settings.order ∧
      Inv (p.solveVarying merges settings steps start).flows := by
  have hvalid := FlowGraph.violation?_eq_ok_none_iff.mp hv
  obtain ⟨order, horder, _⟩ := hvalid.visitOrder_total settings.order
  have hlength := FlowGraph.length_visitOrder horder
  obtain ⟨hnodup, hmem⟩ := FlowGraph.nodup_visitOrder horder
  obtain ⟨s, hstart, hs, _⟩ := exists_start_of_accepted hv settings.order start
  have hbound := Settings.bound_allows hfits
  rw [← hlength] at hbound hsteps
  obtain ⟨t, hrun, hsweep, hinv⟩ := runVarying_sweeps hvalid hnodup Inv hstep
    (fun {tick flows n e} he hi {before after} hcut => hlater he hi (hcut ▸ horder)) hbound hs.sound
    (hs.sweeping hvalid hstart horder) (hs.flows ▸ hinit)
    (by simpa [hs.evaluations] using hsteps)
  obtain rfl : t.evaluations.toList.map (·.label) = order := by simpa using hsweep.cut
  have hsolve : p.solveVarying merges settings steps start = ⟨.settled, t.evaluations, t.flows⟩ := by
    simp only [solveVarying, hv, hstart, hvalid.size_nodes, ← hlength, hrun]
  rw [hsolve]
  exact ⟨⟨rfl, horder, ⟨hnodup, hmem⟩, hsweep.size_add.trans hlength⟩, hinv⟩

end Problem
end FlowAnalysis
