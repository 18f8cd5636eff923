import FlowAnalysis.Proofs.Execution

/-! # A settled run satisfies the data-flow equations

Every label that is not queued is up to date: its incoming fact is the merge of
what arrives now, and the slots are what its evaluation has made of them. They
are balanced then, because what the node makes of the fact stands in them. An
evaluation leaves those labels alone out of date whose predecessors have
replaced a slot, and because both ends of an edge list it, these are the labels
that it awakens. Nothing is assumed of the merge or of the flow function but
that the latter is steady.
-/
namespace FlowAnalysis
variable {S F : Type}

/-- What a part of the evaluations says of a label in one class during a run, one after the other. -/
def recorded (part : Evaluation F → PerClass (Option F)) (es : Array (Evaluation F)) (k : EdgeClass)
    (l : Label) : List F :=
  es.toList.filterMap fun e => if e.label = l then (part e).get k else none

theorem recorded_push (part : Evaluation F → PerClass (Option F)) (es : Array (Evaluation F))
    (e : Evaluation F) (k : EdgeClass) (l : Label) :
    recorded part (es.push e) k l =
      recorded part es k l ++ if e.label = l then ((part e).get k).toList else [] := by
  simp only [recorded, Array.toList_push, List.filterMap_append, List.filterMap_cons,
    List.filterMap_nil]
  congr 1
  by_cases h : e.label = l
  · cases (part e).get k <;> simp [h]
  · simp [h]

/-- The facts that have flown out of a label in one class during a run. -/
def produced : Array (Evaluation F) → EdgeClass → Label → List F := recorded Evaluation.outcome

namespace Problem

/-- The flow function does not depend on the number of the evaluation. -/
def Steady (p : Problem S F) : Prop := ∀ tick, p.flow tick = p.flow 0

/-- The facts that leave a node in a steady problem. -/
def transfer (p : Problem S F) (n : Node S) (x : F) : PerClass (Option F) := p.flow 0 n x

/-- The equations at one label: what arrives has been merged, and what flows out stands in the
slots. -/
structure Balanced (p : Problem S F) (flows : Flows F) (l : Label) (n : Node S) : Prop where
  incoming : ∃ xs : List F, p.arriving flows l n = xs.map some ∧
    flows.incoming[l]? = some (mergeAll p.merge p.initial xs)
  outgoing : ∀ {k x y}, flows.incoming[l]? = some x → (p.transfer n x).get k = some y →
    (flows.outgoing.get k)[l]? = some y

variable [BEq F] {p : Problem S F} {s t : State F} {flows : Flows F} {tick : Nat} {n : Node S}
  {l : Label} {e : Evaluation F}

/-- What arrives at the label has been merged, and its slots are what the evaluation of this fact has
made of whatever they held before. -/
structure UpToDate (p : Problem S F) (flows : Flows F) (l : Label) (n : Node S) : Prop where
  incoming : ∃ xs : List F, p.arriving flows l n = xs.map some ∧
    flows.incoming[l]? = some (mergeAll p.merge p.initial xs)
  outgoing : ∀ {k x}, flows.incoming[l]? = some x → ∃ slot,
    (flows.outgoing.get k)[l]? = (news slot ((p.transfer n x).get k)).or slot

theorem UpToDate.balanced (h : p.UpToDate flows l n) (hequal : Discerning F) : p.Balanced flows l n := by
  refine ⟨h.incoming, fun {k x y} hx hy => ?_⟩
  obtain ⟨slot, hslot⟩ := h.outgoing (k := k) hx
  rw [hslot, hequal.news_or, hy]
  rfl

theorem Evaluates.outcome_eq (h : p.Evaluates tick flows n e) (hf : p.Steady) :
    e.outcome = p.transfer n e.incoming := by rw [h.outcome, hf]; rfl

theorem Evaluates.transfer_of_replaced [LawfulBEq F] (h : p.Evaluates tick flows n e) (hf : p.Steady)
    {k : EdgeClass} {x : F} (hr : e.replaced.get k = some x) :
    (p.transfer n e.incoming).get k = some x ∧ (flows.outgoing.get k)[e.label]? ≠ some x := by
  rwa [h.replaced, news_eq_some_iff, h.outcome_eq hf] at hr

/-- Nothing new arrives where nothing has been awakened. -/
theorem Evaluates.arriving_commit (h : p.Evaluates tick flows n e) (hv : p.graph.Valid) {l : Label}
    {m : Node S} (hm : p.graph.nodes[l]? = some m) (ha : l ∉ e.awakened) :
    p.arriving (e.commit flows) l m = p.arriving flows l m := by
  apply arriving_congr
  intro k q hq
  by_cases he : e.label = q
  · subst he
    have hsucc := (hv.symmetric h.node hm k).mpr hq
    exact h.getElem?_commit_of_not_awakened hsucc ha e.label
  · exact Evaluation.getElem?_commit_outgoing_of_ne he

theorem Evaluates.upToDate_self (h : p.Evaluates tick flows n e) (hv : p.graph.Valid) (hf : p.Steady)
    (ha : e.label ∉ e.awakened) : p.UpToDate (e.commit flows) e.label n := by
  have hin : (e.commit flows).incoming[e.label]? = some e.incoming := by
    rw [Evaluation.getElem?_commit_incoming, if_pos rfl]
  constructor
  · refine ⟨e.gathered, ?_, ?_⟩
    · rw [h.arriving_commit hv h.node ha, h.gathered]
    · rw [hin, h.incoming]
  · intro k x hx
    obtain rfl : e.incoming = x := Option.some.inj (hin.symm.trans hx)
    refine ⟨(flows.outgoing.get k)[e.label]?, ?_⟩
    rw [Evaluation.getElem?_commit_outgoing, if_pos rfl, h.replaced, h.outcome_eq hf]

theorem Evaluates.upToDate_of_ne (h : p.Evaluates tick flows n e) (hv : p.graph.Valid) {m : Node S}
    (hm : p.graph.nodes[l]? = some m) (ha : l ∉ e.awakened) (hne : e.label ≠ l)
    (hl : p.UpToDate flows l m) : p.UpToDate (e.commit flows) l m := by
  have hin : (e.commit flows).incoming[l]? = flows.incoming[l]? := by
    rw [Evaluation.getElem?_commit_incoming, if_neg hne]
  constructor
  · rw [h.arriving_commit hv hm ha, hin]
    exact hl.incoming
  · intro k x hx
    rw [Evaluation.getElem?_commit_outgoing_of_ne hne]
    exact hl.outgoing (hin ▸ hx)

/-- The loop invariant: only queued labels may be out of date. -/
def UpToDateOffQueue (p : Problem S F) (s : State F) : Prop :=
  ∀ (l : Label) (n : Node S), p.graph.nodes[l]? = some n → l ∉ s.worklist → p.UpToDate s.flows l n

theorem Advances.upToDateOffQueue (h : p.Advances s t n e) (hv : p.graph.Valid) (hf : p.Steady)
    (hs : s.Sound p.graph) (hq : p.UpToDateOffQueue s) : p.UpToDateOffQueue t := by
  intro l m hm hl
  rw [h.mem_worklist hs, not_or, not_and_or, not_ne_iff] at hl
  obtain ⟨ha, hl⟩ := hl
  rw [h.flows]
  by_cases hne : e.label = l
  · subst hne
    obtain rfl : n = m := Option.some.inj (h.evaluates.node.symm.trans hm)
    exact h.evaluates.upToDate_self hv hf ha
  · have hoff : l ∉ s.worklist := hl.resolve_left (Ne.symm hne)
    exact h.evaluates.upToDate_of_ne hv hm ha hne (hq l m hm hoff)

/-- Every slot holds the last fact that was put into it, or what it began with. -/
def Remembers (start : Flows F) (s : State F) : Prop :=
  ∀ k l, (s.flows.outgoing.get k)[l]? =
    (produced s.evaluations k l).getLast?.or (start.outgoing.get k)[l]?

theorem Advances.remembers [LawfulBEq F] (h : p.Advances s t n e) {start : Flows F}
    (hr : Remembers start s) : Remembers start t := by
  intro k l
  rw [h.flows, h.evaluations, produced, recorded_push, List.getLast?_append, ← produced]
  by_cases hl : e.label = l
  · subst hl
    rw [h.evaluates.getElem?_commit_self, hr, if_pos rfl]
    cases e.outcome.get k <;> simp
  · rw [Evaluation.getElem?_commit_outgoing_of_ne hl, hr, if_neg hl]
    simp

/-- Every recorded evaluation is a call of the flow function with its outcome. -/
def Genuine (p : Problem S F) (es : Array (Evaluation F)) : Prop :=
  ∀ e ∈ es, ∃ n, p.graph.nodes[e.label]? = some n ∧ e.outcome = p.transfer n e.incoming

theorem Advances.genuine (h : p.Advances s t n e) (hf : p.Steady) (hg : p.Genuine s.evaluations) :
    p.Genuine t.evaluations := by
  intro d hd
  rw [h.evaluations, Array.mem_push] at hd
  rcases hd with hd | rfl
  · exact hg d hd
  · exact ⟨n, h.evaluates.node, h.evaluates.outcome_eq hf⟩

theorem solve_settled (hv : p.graph.violation? = .ok none) {settings : Settings} {steps : Nat}
    {start : Flows F} (h : (p.solve settings steps start).ending = .settled) :
    ∃ s t, p.Starts start s ∧ p.Reaches s t ∧ t.worklist.size = 0 ∧
      p.solve settings steps start = ⟨.settled, t.evaluations, t.flows⟩ := by
  obtain ⟨s, t, ending, hs, hr, hrun, hend⟩ := solve_reaches hv settings steps start
  rw [hrun] at h
  obtain rfl : ending = .settled := h
  cases hend with
  | settled h0 => exact ⟨s, t, hs, hr, h0, hrun⟩

variable {start : Flows F}

theorem Reaches.upToDateOffQueue (h : p.Reaches s t) (hv : p.graph.Valid) (hf : p.Steady)
    (hs : p.Starts start s) : t.Sound p.graph ∧ p.UpToDateOffQueue t :=
  h.preserves hv p.UpToDateOffQueue (fun hsound ha => ha.upToDateOffQueue hv hf hsound) hs.sound
    fun l _ hn hl => absurd ((hs.queued l).mpr (LabelMap.mem_of_getElem? hn)) hl

theorem upToDate_of_settled (hv : p.graph.violation? = .ok none) (hf : p.Steady)
    {settings : Settings} {steps : Nat} (h : (p.solve settings steps start).ending = .settled) :
    (p.solve settings steps start).flows.Covers p.graph ∧
      ∀ (l : Label) (n : Node S), p.graph.nodes[l]? = some n →
        p.UpToDate (p.solve settings steps start).flows l n := by
  obtain ⟨s, t, hs, hr, h0, hrun⟩ := solve_settled hv h
  obtain ⟨hsound, hq⟩ := hr.upToDateOffQueue (FlowGraph.violation?_eq_ok_none_iff.mp hv) hf hs
  rw [hrun]
  exact ⟨hsound.covers, fun l n hn => hq l n hn (hsound.ranked.not_mem_of_size h0 l)⟩

variable [LawfulBEq F]

theorem balanced_of_settled (hv : p.graph.violation? = .ok none) (hf : p.Steady)
    {settings : Settings} {steps : Nat} (h : (p.solve settings steps start).ending = .settled) :
    (p.solve settings steps start).flows.Covers p.graph ∧
      ∀ (l : Label) (n : Node S), p.graph.nodes[l]? = some n →
        p.Balanced (p.solve settings steps start).flows l n := by
  obtain ⟨hcovers, hl⟩ := upToDate_of_settled hv hf h
  exact ⟨hcovers, fun l n hn => (hl l n hn).balanced fun h => eq_of_beq h⟩

/-- When a run settles, the flows that it leaves satisfy the equations at every label at once, and
a slot into which nothing flows any more holds the last fact that was produced for it, or else its
completed starting value. -/
theorem solve_balanced (hv : p.graph.violation? = .ok none) (hf : p.Steady)
    (settings : Settings) (steps : Nat) (start : Flows F) {r : Report F (Flows F)}
    (hr : p.solve settings steps start = r) (h : r.ending = .settled) :
    (∀ (l : Label) (n : Node S), p.graph.nodes[l]? = some n → p.Balanced r.flows l n) ∧
    (∀ k l, (r.flows.outgoing.get k)[l]? = (produced r.evaluations k l).getLast?.or
      ((start.complete p.graph p.initial p.boundary).outgoing.get k)[l]?) ∧
    p.Genuine r.evaluations ∧ r.flows.Covers p.graph := by
  subst hr
  obtain ⟨hcov, hbal⟩ := balanced_of_settled hv hf h
  obtain ⟨s, t, hs, hreach, _, hrun⟩ := solve_settled hv h
  have hvalid := FlowGraph.violation?_eq_ok_none_iff.mp hv
  have hstart : Remembers (start.complete p.graph p.initial p.boundary) s := fun k l => by
    rw [hs.flows, hs.evaluations]
    rfl
  have hrem := hreach.preserves hvalid (Remembers (start.complete p.graph p.initial p.boundary))
    (fun _ ha => ha.remembers) hs.sound hstart
  have hgen := hreach.preserves hvalid (fun s => p.Genuine s.evaluations)
    (fun _ ha => ha.genuine hf) hs.sound (by simp [Genuine, hs.evaluations])
  rw [hrun] at hbal hcov ⊢
  exact ⟨hbal, hrem.2, hgen.2, hcov⟩

/-- Nodes put their labels in front of what arrives, and the taken edges carry short facts only. -/
def tracing : Problem Unit (List Label) where
  graph := .loop
  merge := (· ++ ·)
  flow _ n x := ⟨some (n.label :: x.take 2), if x.length < 3 then some [n.label] else none⟩
  initial := []
  boundary := [7]

/-- Slots from elsewhere: one of a foreign label, and one that no evaluation fills. -/
def stale : Flows (List Label) where
  outgoing := ⟨LabelMap.const [5] [4], LabelMap.const [2] [9]⟩

theorem solve_balanced_tracing :
    (tracing.solve {} 20 stale).ending = .settled ∧
    (∀ (l : Label) (n : Node Unit), tracing.graph.nodes[l]? = some n →
      tracing.Balanced (tracing.solve {} 20 stale).flows l n) ∧
    ((tracing.solve {} 20 stale).flows.outgoing.get .taken)[(2 : Label)]? = some [9] := by
  have hend : (tracing.solve {} 20 stale).ending = .settled := by decide +kernel
  obtain ⟨hbal, hkept, _, _⟩ := solve_balanced FlowGraph.loop_accepted (fun _ => rfl) {} 20 stale rfl
    hend
  exact ⟨hend, hbal, (hkept .taken 2).trans (by decide +kernel)⟩

end Problem
end FlowAnalysis
