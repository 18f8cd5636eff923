import Mathlib.Logic.Relation
import FlowAnalysis.Fixpoint.Solve
import FlowAnalysis.Proofs.Forest
import FlowAnalysis.Proofs.Queue
import FlowAnalysis.Proofs.Slots

/-! # Runs as sequences of evaluations

On a valid graph no look-up of the loop fails: from a sound state a run either
ends, because nothing is queued or because the bound has struck, or it makes one
evaluation and is in a sound state again. A solved problem is therefore a
sequence of evaluations from the completed flows with all labels queued.
-/
namespace FlowAnalysis
variable {S F : Type}

/-- What holds of a state at any time: every label has its slots and its rank, and only labels of
the graph are queued. -/
structure State.Sound (s : State F) (g : FlowGraph S) : Prop where
  ranked : s.worklist.Ranked
  ranks : ∀ l ∈ g.nodes, l ∈ s.worklist.ranks
  queued : ∀ l ∈ s.worklist, l ∈ g.nodes
  covers : s.flows.Covers g

namespace Problem
variable [BEq F] {p : Problem S F} {s t : State F} {n : Node S} {e : Evaluation F} {bound steps : Nat}

/-- One turn of the loop: a label is taken, evaluated and committed, and the labels that it awakens
are queued. -/
structure Advances (p : Problem S F) (s t : State F) (n : Node S) (e : Evaluation F) : Prop where
  taken : ∃ rest, s.worklist.pop? = some (e.label, rest) ∧ rest.extend e.awakened = (t.worklist, none)
  evaluates : p.Evaluates (s.evaluations.size + 1) s.flows n e
  flows : t.flows = e.commit s.flows
  evaluations : t.evaluations = s.evaluations.push e

namespace Advances

theorem mem_worklist (h : p.Advances s t n e) (hs : s.Sound p.graph) (x : Label) :
    x ∈ t.worklist ↔ x ∈ e.awakened ∨ x ≠ e.label ∧ x ∈ s.worklist := by
  obtain ⟨rest, hp, he⟩ := h.taken
  obtain ⟨hr, _, _, hm⟩ := hs.ranked.pop hp
  rw [(hr.extend he).2.2 x, hm x]

theorem size_worklist_le (h : p.Advances s t n e) (hs : s.Sound p.graph) :
    t.worklist.size + 1 ≤ s.worklist.size + e.awakened.toFinset.card := by
  obtain ⟨rest, hp, he⟩ := h.taken
  have hle := (hs.ranked.pop hp).1.size_extend_le he
  have hsize := Worklist.size_of_pop? hp
  omega

theorem sound (h : p.Advances s t n e) (hv : p.graph.Valid) (hs : s.Sound p.graph) :
    t.Sound p.graph := by
  obtain ⟨rest, hp, he⟩ := h.taken
  obtain ⟨hr, hrr, _, _⟩ := hs.ranked.pop hp
  obtain ⟨ht, htr, _⟩ := hr.extend he
  refine ⟨ht, ?_, ?_, ?_⟩
  · rw [htr, hrr]
    exact hs.ranks
  · intro x hx
    rcases (h.mem_worklist hs x).mp hx with ha | hx
    · obtain ⟨k, _, hk⟩ := (h.evaluates.awakened x).mp ha
      exact hv.succ_mem h.evaluates.node hk
    · exact hs.queued x hx.2
  · rw [h.flows]
    exact h.evaluates.covers_commit hs.covers

end Advances

theorem step_cases (hv : p.graph.Valid) (hs : s.Sound p.graph) (bound : Nat) :
    (s.worklist.size = 0 ∧ p.step bound s = (s, some .settled)) ∨
    (s.worklist.size ≠ 0 ∧ bound ≠ 0 ∧ bound ≤ s.evaluations.size ∧
      p.step bound s = (s, some (.gaveUp s.worklist.size))) ∨
    ∃ t n e, p.Advances s t n e ∧ p.step bound s = (t, none) := by
  unfold step
  cases hp : s.worklist.pop? with
  | none => exact .inl ⟨Worklist.pop?_eq_none_iff.mp hp, rfl⟩
  | some top =>
    obtain ⟨l, rest⟩ := top
    have hsize := Worklist.size_of_pop? hp
    obtain ⟨hr, hrr, hl, hm⟩ := hs.ranked.pop hp
    by_cases hb : bound ≠ 0 ∧ bound ≤ s.evaluations.size
    · exact .inr (.inl ⟨by omega, hb.1, hb.2, by simp only [if_pos hb]⟩)
    · obtain ⟨e, he⟩ := exists_evaluate hv hs.covers.fills (hs.queued l hl) (s.evaluations.size + 1)
      obtain ⟨rfl, n, hn⟩ := evaluates_of_evaluate he
      obtain ⟨w, hw⟩ := Worklist.extend_total rest e.awakened (by
        intro x hx
        obtain ⟨k, _, hk⟩ := (hn.awakened x).mp hx
        exact hrr ▸ hs.ranks x (hv.succ_mem hn.node hk))
      refine .inr (.inr ⟨⟨e.commit s.flows, w, s.evaluations.push e⟩, n, e,
        ⟨⟨rest, hp, hw⟩, hn, rfl, rfl⟩, ?_⟩)
      simp only [if_neg hb, he, hw]

/-- The second state follows from the first by evaluations. -/
def Reaches (p : Problem S F) : State F → State F → Prop :=
  Relation.ReflTransGen fun s t => ∃ n e, p.Advances s t n e

theorem Reaches.preserves (h : p.Reaches s t) (hv : p.graph.Valid) (Inv : State F → Prop)
    (hstep : ∀ {s t n e}, s.Sound p.graph → p.Advances s t n e → Inv s → Inv t)
    (hs : s.Sound p.graph) (hi : Inv s) : t.Sound p.graph ∧ Inv t := by
  induction h with
  | refl => exact ⟨hs, hi⟩
  | tail _ hst ih =>
    obtain ⟨n, e, ha⟩ := hst
    exact ⟨ha.sound hv ih.1, hstep ih.1 ha ih.2⟩

/-- How a run that may take so many steps in all ends in a state. -/
inductive Ends (bound steps : Nat) (t : State F) : Ending → Prop
  | settled : t.worklist.size = 0 → Ends bound steps t .settled
  | gaveUp : t.worklist.size ≠ 0 → bound ≠ 0 → bound ≤ t.evaluations.size →
      Ends bound steps t (.gaveUp t.worklist.size)
  | unfinished : t.evaluations.size = steps → Ends bound steps t .unfinished

theorem run_reaches (hv : p.graph.Valid) (hs : s.Sound p.graph) (bound steps : Nat) :
    ∃ t ending, p.Reaches s t ∧ p.run bound steps s = ⟨ending, t.evaluations, t.flows⟩ ∧
      Ends bound (s.evaluations.size + steps) t ending := by
  induction steps generalizing s with
  | zero => exact ⟨s, .unfinished, .refl, rfl, .unfinished rfl⟩
  | succ steps ih =>
    rcases step_cases hv hs bound with ⟨h0, he⟩ | ⟨h0, hb, hle, he⟩ | ⟨t, n, e, ha, he⟩
    · exact ⟨s, .settled, .refl, by simp only [run, he], .settled h0⟩
    · exact ⟨s, _, .refl, by simp only [run, he], .gaveUp h0 hb hle⟩
    · obtain ⟨u, ending, hr, hrun, hend⟩ := ih (ha.sound hv hs)
      refine ⟨u, ending, .head ⟨n, e, ha⟩ hr, by simp only [run, he, hrun], ?_⟩
      have hsize : s.evaluations.size + (steps + 1) = t.evaluations.size + steps := by
        rw [ha.evaluations, Array.size_push]
        omega
      exact hsize ▸ hend

structure Starts (p : Problem S F) (flows : Flows F) (s : State F) : Prop where
  flows : s.flows = flows.complete p.graph p.initial p.boundary
  evaluations : s.evaluations = #[]
  queued : ∀ l, l ∈ s.worklist ↔ l ∈ p.graph.nodes
  size : s.worklist.size = p.graph.nodes.size
  sound : s.Sound p.graph

omit [BEq F] in
theorem exists_start (hv : p.graph.Valid) (order : VisitOrder) (flows : Flows F) :
    ∃ s, p.start order (flows.complete p.graph p.initial p.boundary) = .ok s ∧ p.Starts flows s := by
  obtain ⟨ls, hls, hmem⟩ := hv.visitOrder_total order
  have hw := Worklist.ranked_ofOrder ls
  obtain ⟨w, he⟩ := Worklist.extend_total (Worklist.ofOrder ls) p.graph.ids
    fun l hl => Worklist.mem_ranks_ofOrder.mpr (hmem l hl)
  obtain ⟨hr, hrr, hm⟩ := hw.extend he
  have hqueued : ∀ l, l ∈ w ↔ l ∈ p.graph.nodes := fun l => by
    rw [hm, ← hv.mem_ids]
    exact or_iff_left (hw.not_mem_of_size (Worklist.size_ofOrder ls) l)
  refine ⟨⟨_, w, #[]⟩, ?_, rfl, rfl, hqueued, ?_, hr, ?_, fun l => (hqueued l).mp, Flows.covers_complete⟩
  · rw [start, Worklist.ofGraph, hls]
    simp only [bind, Except.bind, pure, Except.pure, he]
    rfl
  · rw [← hr.card_labels]
    refine (LabelMap.size_eq_card fun l => ?_).symm
    rw [List.mem_toFinset, hr.mem_labels, hqueued]
  · intro l hl
    rw [hrr]
    exact Worklist.mem_ranks_ofOrder.mpr (hmem l ((hv.mem_ids l).mpr hl))

theorem solve_reaches (h : p.graph.violation? = .ok none) (settings : Settings) (steps : Nat)
    (flows : Flows F) :
    ∃ s t ending, p.Starts flows s ∧ p.Reaches s t ∧
      p.solve settings steps flows = ⟨ending, t.evaluations, t.flows⟩ ∧
      Ends (settings.bound p.graph.nodes.size) steps t ending := by
  have hv := FlowGraph.violation?_eq_ok_none_iff.mp h
  obtain ⟨s, hs, hstart⟩ := exists_start hv settings.order flows
  obtain ⟨t, ending, hr, hrun, hend⟩ := run_reaches hv hstart.sound
    (settings.bound p.graph.nodes.size) steps
  refine ⟨s, t, ending, hstart, hr, ?_, ?_⟩
  · simp only [solve, h, hs, hrun]
  · simpa [hstart.evaluations] using hend

end Problem
end FlowAnalysis
