import FlowAnalysis.Fixpoint.Log
import FlowAnalysis.Proofs.Equations

/-! # Labels are evaluated again only when they are awakened

A label is due for an evaluation as long as it has had none, and again as soon
as a slot is replaced on an edge into it, which may be its own slot. Exactly the
labels that are due are queued. So each evaluation of a label but its first one
has a reason that lies after the one before, and a run that settles leaves no
reason unheeded. The evaluations are seen as a list here, to be cut where one of
them stands.
-/
namespace FlowAnalysis
variable {S F : Type}

/-- The flows after these evaluations. -/
def Flows.after (flows : Flows F) (es : List (Evaluation F)) : Flows F :=
  es.foldl (fun flows e => e.commit flows) flows

theorem Flows.after_concat {flows : Flows F} {es : List (Evaluation F)} {e : Evaluation F} :
    flows.after (es ++ [e]) = e.commit (flows.after es) := List.foldl_concat ..

namespace Problem
variable {p : Problem S F} {es before after : List (Evaluation F)} {d e : Evaluation F} {c : Label}

/-- The evaluation replaces the slot of a class in which the label is a successor. -/
def Wakes (p : Problem S F) (e : Evaluation F) (c : Label) : Prop :=
  ∃ k n, p.graph.nodes[e.label]? = some n ∧ (e.replaced.get k).isSome ∧ c ∈ n.succs.get k

/-- After these evaluations the label is due for another one. -/
def Due (p : Problem S F) (es : List (Evaluation F)) (c : Label) : Prop :=
  (∀ e ∈ es, e.label ≠ c) ∨
    ∃ before e after, es = before ++ e :: after ∧ p.Wakes e c ∧ ∀ d ∈ after, d.label ≠ c

/-- A list that has grown at its end is cut there, or where it could be cut before. -/
theorem concat_eq_cut {α : Type} {xs before after : List α} {x y : α}
    (h : xs ++ [x] = before ++ y :: after) :
    (after = [] ∧ before = xs ∧ y = x) ∨ ∃ rest, after = rest ++ [x] ∧ xs = before ++ y :: rest := by
  obtain rfl | ⟨rest, z, rfl⟩ := after.eq_nil_or_concat
  · obtain ⟨rfl, he⟩ := List.append_inj' h rfl
    exact .inl ⟨rfl, rfl, (List.singleton_inj.mp he).symm⟩
  · rw [List.concat_eq_append, ← List.cons_append, ← List.append_assoc] at h
    obtain ⟨rfl, he⟩ := List.append_inj' h rfl
    obtain rfl := List.singleton_inj.mp he
    exact .inr ⟨rest, List.concat_eq_append, rfl⟩

theorem due_concat : p.Due (es ++ [e]) c ↔ p.Wakes e c ∨ e.label ≠ c ∧ p.Due es c := by
  constructor
  · rintro (hnone | ⟨before, d, after, hcut, hw, hafter⟩)
    · exact .inr ⟨hnone e (by simp), .inl fun d hd => hnone d (List.mem_append_left _ hd)⟩
    · rcases concat_eq_cut hcut with ⟨_, _, rfl⟩ | ⟨rest, rfl, hes⟩
      · exact .inl hw
      · have hrest : ∀ x ∈ rest, x.label ≠ c := fun x hx => hafter x (List.mem_append_left _ hx)
        exact .inr ⟨hafter e (by simp), .inr ⟨before, d, rest, hes, hw, hrest⟩⟩
  · rintro (hw | ⟨hne, hnone | ⟨before, d, after, rfl, hw, hafter⟩⟩)
    · exact .inr ⟨es, e, [], rfl, hw, by simp⟩
    · exact .inl fun d hd => (List.mem_append.mp hd).elim (hnone d) fun h => List.mem_singleton.mp h ▸ hne
    · refine .inr ⟨before, d, after ++ [e], by simp, hw, fun x hx => ?_⟩
      exact (List.mem_append.mp hx).elim (hafter x) fun h => List.mem_singleton.mp h ▸ hne

/-- Whatever makes a label due comes after its last evaluation. -/
theorem Due.exists_wakes (h : p.Due (before ++ d :: after) d.label) :
    ∃ w ∈ d :: after, p.Wakes w d.label := by
  obtain hnone | ⟨early, w, late, hcut, hw, hlate⟩ := h
  · exact absurd rfl (hnone d (by simp))
  -- The waking evaluation is not before `d`, because `d` would be one of those after it.
  · rcases List.append_eq_append_iff.mp hcut with ⟨as, _, hafter⟩ | ⟨as, _, hlater⟩
    · exact ⟨w, hafter ▸ by simp, hw⟩
    · cases as with
      | nil => exact ⟨w, by simp_all, hw⟩
      | cons a as =>
        have hd : d ∈ late := by
          rw [(List.cons.inj hlater).2]
          simp
        exact absurd rfl (hlate d hd)

theorem not_due_iff : ¬ p.Due es c ↔ (∃ e ∈ es, e.label = c) ∧
    ∀ before e after, es = before ++ e :: after → p.Wakes e c → ∃ d ∈ after, d.label = c := by
  simp only [Due, not_or, not_forall, not_exists, not_and, not_not, exists_prop]

variable [BEq F] {s t : State F} {n : Node S} {start flows : Flows F} {tick : Nat}

/-- What a run has done: each evaluation is the next call of the flow function, on the flows that the
evaluations before it have left, and between two evaluations of a label there is a reason for the
second one. -/
structure History (p : Problem S F) (start : Flows F) (es : List (Evaluation F)) : Prop where
  evaluates : ∀ {before e after}, es = before ++ e :: after →
    ∃ n, p.Evaluates (before.length + 1) (start.after before) n e
  prompted : ∀ {before d between e after}, es = before ++ d :: (between ++ e :: after) →
    d.label = e.label → ∃ w ∈ d :: between, p.Wakes w e.label

theorem History.concat (h : p.History start es)
    (he : p.Evaluates (es.length + 1) (start.after es) n e) (hdue : p.Due es e.label) :
    p.History start (es ++ [e]) where
  evaluates := by
    intro before d after hcut
    rcases concat_eq_cut hcut with ⟨_, rfl, rfl⟩ | ⟨rest, _, hes⟩
    · exact ⟨n, he⟩
    · exact h.evaluates hes
  prompted := by
    intro before d between f after hcut hl
    rw [← List.cons_append, ← List.append_assoc] at hcut
    rcases concat_eq_cut hcut with ⟨_, rfl, rfl⟩ | ⟨rest, _, hes⟩
    -- The new evaluation is of a label that is due.
    · rw [← hl] at hdue ⊢
      exact hdue.exists_wakes
    · exact h.prompted (by simpa using hes) hl

/-- The loop invariant: the flows and the queue are what the evaluations make of them. -/
structure OnTime (p : Problem S F) (start : Flows F) (s : State F) : Prop where
  flows : s.flows = start.after s.evaluations.toList
  queued : ∀ c, c ∈ s.worklist ↔ c ∈ p.graph.nodes ∧ p.Due s.evaluations.toList c
  history : p.History start s.evaluations.toList

theorem Evaluates.mem_awakened (h : p.Evaluates tick flows n e) : c ∈ e.awakened ↔ p.Wakes e c := by
  rw [h.awakened]
  constructor
  · rintro ⟨k, hk⟩
    exact ⟨k, n, h.node, hk⟩
  · rintro ⟨k, m, hm, hk⟩
    obtain rfl : n = m := Option.some.inj (h.node.symm.trans hm)
    exact ⟨k, hk⟩

omit [BEq F] in
theorem Wakes.mem_nodes (h : p.Wakes e c) (hv : p.graph.Valid) : c ∈ p.graph.nodes := by
  obtain ⟨k, n, hn, _, hc⟩ := h
  exact hv.succ_mem hn hc

theorem Advances.onTime (h : p.Advances s t n e) (hv : p.graph.Valid) (hs : s.Sound p.graph)
    (ht : p.OnTime start s) : p.OnTime start t := by
  have hes : t.evaluations.toList = s.evaluations.toList ++ [e] := by
    rw [h.evaluations, Array.toList_push]
  obtain ⟨rest, hpop, _⟩ := h.taken
  have hdue := ((ht.queued e.label).mp (hs.ranked.pop hpop).2.2.1).2
  refine ⟨?_, fun c => ?_, ?_⟩
  · rw [h.flows, hes, Flows.after_concat, ht.flows]
  · rw [h.mem_worklist hs, h.evaluates.mem_awakened, hes, due_concat, ht.queued]
    constructor
    · rintro (hw | ⟨hne, hc, hd⟩)
      · exact ⟨hw.mem_nodes hv, .inl hw⟩
      · exact ⟨hc, .inr ⟨Ne.symm hne, hd⟩⟩
    · rintro ⟨hc, hw | ⟨hne, hd⟩⟩
      · exact .inl hw
      · exact .inr ⟨Ne.symm hne, hc, hd⟩
  · rw [hes]
    exact ht.history.concat (ht.flows ▸ h.evaluates) hdue

theorem Reaches.onTime (h : p.Reaches s t) (hv : p.graph.Valid) (hs : p.Starts flows s) :
    t.Sound p.graph ∧ p.OnTime (flows.complete p.graph p.initial p.boundary) t := by
  refine h.preserves hv (p.OnTime (flows.complete p.graph p.initial p.boundary))
    (fun hsound ha => ha.onTime hv hsound) hs.sound ⟨?_, fun c => ?_, ?_⟩
  · rw [hs.flows, hs.evaluations]
    rfl
  · rw [hs.queued, hs.evaluations]
    exact (and_iff_left (.inl (by simp))).symm
  · rw [hs.evaluations]
    exact ⟨fun hcut => by simp at hcut, fun hcut => by simp at hcut⟩

/-- In every run an evaluation of a label is its first one, or since the one before it a predecessor
of the label, or the label itself, has replaced the slot on the edge between them. When the run
settles, each label has been evaluated, and also once more after every such replacement; the run
tells how often the flow function has been called. -/
theorem solve_revisits (hv : p.graph.violation? = .ok none) (settings : Settings) (steps : Nat)
    (start : Flows F) {r : Report F (Flows F)} (hr : p.solve settings steps start = r) :
    p.History (start.complete p.graph p.initial p.boundary) r.evaluations.toList ∧
    (r.ending = .settled →
      (∀ {before e after c}, r.evaluations.toList = before ++ e :: after → p.Wakes e c →
        ∃ d ∈ after, d.label = c) ∧
      (∀ l ∈ p.graph.ids, ∃ e ∈ r.evaluations, e.label = l) ∧
      r.closing = [.settled r.evaluations.size]) := by
  have hvalid := FlowGraph.violation?_eq_ok_none_iff.mp hv
  obtain ⟨s, t, ending, hs, hreach, hrun, hend⟩ := solve_reaches hv settings steps start
  obtain ⟨hsound, htime⟩ := hreach.onTime hvalid hs
  obtain rfl := hrun.symm.trans hr
  refine ⟨htime.history, ?_⟩
  rintro rfl
  cases hend with
  | settled h0 =>
    have hdone : ∀ c ∈ p.graph.nodes, ¬ p.Due t.evaluations.toList c := fun c hc hd =>
      hsound.ranked.not_mem_of_size h0 c ((htime.queued c).mpr ⟨hc, hd⟩)
    refine ⟨fun {before e after c} hcut hw => ?_, fun l hl => ?_, rfl⟩
    · exact (not_due_iff.mp (hdone c (hw.mem_nodes hvalid))).2 before e after hcut hw
    · obtain ⟨e, he, hel⟩ := (not_due_iff.mp (hdone l ((hvalid.mem_ids l).mp hl))).1
      exact ⟨e, Array.mem_toList_iff.mp he, hel⟩

/-- The second evaluation of a label is due to the edge that it has to itself. -/
theorem solve_revisits_tracing :
    (tracing.solve {} 20 stale).visits = [0, 1, 1, 2] ∧
    (tracing.solve {} 20 stale).closing = [.settled 4] ∧
    (∀ l ∈ tracing.graph.ids, ∃ e ∈ (tracing.solve {} 20 stale).evaluations, e.label = l) ∧
    tracing.History (stale.complete .loop [] [7]) (tracing.solve {} 20 stale).evaluations.toList := by
  have hend : (tracing.solve {} 20 stale).ending = .settled := by decide +kernel
  obtain ⟨hhistory, hsettled⟩ := solve_revisits (p := tracing) FlowGraph.loop_accepted {} 20 stale rfl
  obtain ⟨_, hall, hclosing⟩ := hsettled hend
  exact ⟨by decide +kernel, hclosing.trans (by decide +kernel), hall, hhistory⟩

end Problem
end FlowAnalysis
