import FlowAnalysis.Proofs.Bounds

/-! # What a run reads of the flows it starts from

An evaluation reads the outgoing slots and nothing else of the flows. So two
runs that begin with the same facts in the outgoing slots, once these have been
completed, make the same evaluations. What flows in at the beginning differs at
the queued labels alone, and is replaced when they are evaluated.
-/
namespace FlowAnalysis
variable {S F : Type}

/-- The states differ at most in what flows into the queued labels. -/
structure State.Agrees (s t : State F) : Prop where
  ranked : s.worklist.Ranked
  worklist : t.worklist = s.worklist
  evaluations : t.evaluations = s.evaluations
  outgoing : t.flows.outgoing = s.flows.outgoing
  incoming : ∀ l : Label, l ∉ s.worklist → t.flows.incoming[l]? = s.flows.incoming[l]?

/-- The same evaluations have been made, have left the same facts in the outgoing slots and have come
to the same end, and when the runs have settled the same facts flow in as well. -/
structure Report.Agrees (r r' : Report F (Flows F)) : Prop where
  ending : r'.ending = r.ending
  evaluations : r'.evaluations = r.evaluations
  outgoing : r'.flows.outgoing = r.flows.outgoing
  settled : r.ending = .settled → r'.flows = r.flows

namespace Problem
variable {p : Problem S F} {a b : Flows F}

/-- The outgoing slots of the listed labels hold the same, and where there is no slot it is as if it
held the initial fact. -/
def SameSlots (p : Problem S F) (a b : Flows F) : Prop :=
  ∀ k, ∀ l ∈ p.graph.ids, (a.outgoing.get k)[l]?.getD p.initial = (b.outgoing.get k)[l]?.getD p.initial

theorem SameSlots.complete (h : p.SameSlots a b) (hv : p.graph.Valid) :
    (b.complete p.graph p.initial p.boundary).outgoing =
      (a.complete p.graph p.initial p.boundary).outgoing := by
  refine PerClass.ext_get fun k => Std.ExtTreeMap.ext_getElem? fun {l} => ?_
  rw [Flows.get_complete_outgoing, Flows.get_complete_outgoing, Flows.getElem?_completeSlots,
    Flows.getElem?_completeSlots]
  cases hn : p.graph.nodes[l]? with
  | none => rfl
  | some n =>
    have hl := (hv.mem_ids l).mpr (LabelMap.mem_of_getElem? hn)
    rw [h k l hl]

theorem getElem?_seeded_incoming {l : Label} : p.seeded.incoming[l]? =
    if l ∈ p.graph.entries then some p.boundary else if l ∈ p.graph.ids then some p.initial else none :=
  LabelMap.getElem?_foldl_insert.trans (by rw [LabelMap.getElem?_const])

/-- Missing slots are filled as seeding fills them. -/
theorem complete_empty (hv : p.graph.Valid) : ({} : Flows F).complete p.graph p.initial p.boundary =
    p.seeded.complete p.graph p.initial p.boundary := by
  have hsame : p.SameSlots p.seeded {} := fun k l hl => by
    rw [getElem?_seeded_outgoing, if_pos hl]
    cases k <;> rfl
  refine Flows.ext_get (Std.ExtTreeMap.ext_getElem? fun {l} => ?_) fun k => by rw [hsame.complete hv]
  simp only [Flows.complete, Flows.getElem?_completeSlots, getElem?_seeded_incoming]
  cases hn : p.graph.nodes[l]? with
  | none => rfl
  | some n =>
    have hl := (hv.mem_ids l).mpr (LabelMap.mem_of_getElem? hn)
    by_cases he : l ∈ p.graph.entries <;> simp [he, hl]

variable [BEq F] {s t u : State F} {bound : Nat}

theorem evaluate_congr (h : b.outgoing = a.outgoing) (tick : Nat) (l : Label) :
    p.evaluate tick b l = p.evaluate tick a l := by
  simp only [evaluate, gather, h]

theorem size_of_step_settled (h : p.step bound s = (t, some .settled)) : s.worklist.size = 0 := by
  unfold step at h
  split at h
  · next hp => exact Worklist.pop?_eq_none_iff.mp hp
  split at h
  · cases h
  split at h
  · cases h
  split at h
  · cases h
  · cases congrArg Prod.snd h

omit [BEq F] in
theorem start_eq_ok {order : VisitOrder} (h : p.start order a = .ok s) (b : Flows F) :
    p.start order b = .ok { s with flows := b } := by
  unfold start at h ⊢
  cases hw : Worklist.ofGraph order p.graph with
  | error e => simp [hw, bind, Except.bind] at h
  | ok w =>
    simp only [hw, bind, Except.bind] at h ⊢
    split at h
    · cases h
    · cases h
      rfl

end Problem

namespace State.Agrees
variable [BEq F] {p : Problem S F} {s t : State F} {l : Label} {v w : Worklist} {e : Evaluation F}

omit [BEq F] in
/-- The label that is taken gets the same incoming fact in both, and no other label has left the queue. -/
theorem commit (h : s.Agrees t) (hp : s.worklist.pop? = some (e.label, w))
    (he : w.extend e.awakened = (v, none)) :
    State.Agrees ⟨e.commit s.flows, v, s.evaluations.push e⟩
      ⟨e.commit t.flows, v, s.evaluations.push e⟩ := by
  obtain ⟨hw, _, _, hrest⟩ := h.ranked.pop hp
  obtain ⟨hv, _, hqueued⟩ := hw.extend he
  refine ⟨hv, rfl, rfl, ?_, fun l hl => ?_⟩
  · simp only [Evaluation.commit, h.outgoing]
  · rw [Evaluation.getElem?_commit_incoming, Evaluation.getElem?_commit_incoming]
    by_cases hlabel : e.label = l
    · rw [if_pos hlabel, if_pos hlabel]
    · rw [if_neg hlabel, if_neg hlabel]
      refine h.incoming l fun hmem => hl ?_
      exact (hqueued l).mpr (.inr ((hrest l).mpr ⟨Ne.symm hlabel, hmem⟩))

theorem step (h : s.Agrees t) (bound : Nat) :
    (p.step bound t).2 = (p.step bound s).2 ∧ (p.step bound s).1.Agrees (p.step bound t).1 := by
  have hevaluate := Problem.evaluate_congr (p := p) h.outgoing
  simp only [Problem.step, h.worklist, h.evaluations, hevaluate]
  cases hp : s.worklist.pop? with
  | none => exact ⟨rfl, h⟩
  | some top =>
    obtain ⟨l, w⟩ := top
    by_cases hb : bound ≠ 0 ∧ bound ≤ s.evaluations.size
    · simp only [if_pos hb]
      exact ⟨trivial, h⟩
    · simp only [if_neg hb]
      cases he : p.evaluate (s.evaluations.size + 1) s.flows l with
      | error a => exact ⟨rfl, h⟩
      | ok e =>
        obtain ⟨rfl, _⟩ := Problem.evaluates_of_evaluate he
        rcases hx : w.extend e.awakened with ⟨v, _ | a⟩ <;> simp only [hx]
        · exact ⟨trivial, h.commit hp hx⟩
        · exact ⟨trivial, h⟩

omit [BEq F] in
theorem flows_eq (h : s.Agrees t) (h0 : s.worklist.size = 0) : t.flows = s.flows :=
  Flows.ext_get (Std.ExtTreeMap.ext_getElem? fun {l} => h.incoming l (h.ranked.not_mem_of_size h0 l))
    fun _ => by rw [h.outgoing]

theorem run (h : s.Agrees t) (bound steps : Nat) : (p.run bound steps s).Agrees (p.run bound steps t) := by
  induction steps generalizing s t with
  | zero => exact ⟨rfl, h.evaluations, h.outgoing, fun hend => by cases hend⟩
  | succ steps ih =>
    have hstep := h.step (p := p) bound
    simp only [Problem.run]
    rcases hs : p.step bound s with ⟨s', ending⟩
    rcases ht : p.step bound t with ⟨t', ending'⟩
    rw [hs, ht] at hstep
    obtain ⟨rfl, hnext⟩ := hstep
    cases ending' with
    | none => exact ih hnext
    | some ending =>
      refine ⟨rfl, hnext.evaluations, hnext.outgoing, ?_⟩
      rintro rfl
      obtain rfl := Problem.eq_of_step_some hs
      exact hnext.flows_eq (Problem.size_of_step_settled hs)

end State.Agrees

namespace Problem
variable [BEq F] {p : Problem S F} {a b : Flows F}

omit [BEq F] in
theorem SameSlots.start (h : p.SameSlots a b) (hv : p.graph.Valid) {s : State F} (hs : p.Starts a s) :
    s.Agrees { s with flows := b.complete p.graph p.initial p.boundary } where
  ranked := hs.sound.ranked
  worklist := rfl
  evaluations := rfl
  outgoing := by rw [hs.flows, h.complete hv]
  incoming l hl := by
    have hn : l ∉ p.graph.nodes := mt (hs.queued l).mpr hl
    have hcovers : (b.complete p.graph p.initial p.boundary).Covers p.graph := Flows.covers_complete
    rw [Std.ExtTreeMap.getElem?_eq_none (mt (hcovers.incoming l).mp hn),
      Std.ExtTreeMap.getElem?_eq_none (mt (hs.sound.covers.incoming l).mp hn)]

/-- What flows in at the start does not show in a run, nor what stands in the slots of foreign labels,
and a missing slot is as good as one that holds the initial fact. Whatever two runs start from, if only
the outgoing slots of the listed labels agree in this sense, they make the same evaluations and come to
the same end. From no flows at all a run goes on like one from seeded flows. -/
theorem solve_agrees (hv : p.graph.violation? = .ok none) (settings : Settings) (steps : Nat) :
    (∀ a b : Flows F, p.SameSlots a b → (p.solve settings steps a).Agrees (p.solve settings steps b)) ∧
      p.solve settings steps {} = p.analyze settings steps := by
  have hvalid := FlowGraph.violation?_eq_ok_none_iff.mp hv
  constructor
  · intro a b h
    obtain ⟨s, hstart, hs, hrun⟩ := exists_start_of_accepted hv settings.order a
    have hother := start_eq_ok hstart (b.complete p.graph p.initial p.boundary)
    have hrun' : p.solve settings steps b = p.run (settings.bound p.graph.nodes.size) steps
        { s with flows := b.complete p.graph p.initial p.boundary } := by
      simp only [solve, hv, hother]
    rw [hrun settings rfl, hrun']
    exact (h.start hvalid hs).run _ _
  · simp only [analyze, solve, hv, complete_empty hvalid]

/-- The same slots as in the stale flows, with initial facts written out, and a fact that flows in. -/
def strewn : Flows (List Label) where
  incoming := LabelMap.const [2, 8] [6]
  outgoing := ⟨LabelMap.const [0, 1] [], LabelMap.const [2] [9]⟩

theorem sameSlots_strewn : tracing.SameSlots stale strewn := by
  intro k l hl
  have hids : l = 2 ∨ l = 0 ∨ l = 1 := by simpa [tracing, FlowGraph.loop, FlowGraph.ofNodes] using hl
  cases k <;> rcases hids with rfl | rfl | rfl <;> rfl

/-- The bound strikes before the last label is evaluated, and what flows in there stays as it was. -/
theorem solve_agrees_tracing :
    let run := tracing.solve {} 20
    let limited := tracing.solve { nodeLimit := 1 } 20
    (run strewn).visits = [0, 1, 1, 2] ∧ (run strewn).flows = (run stale).flows ∧
    run {} = tracing.analyze {} 20 ∧
    (limited stale).ending = .gaveUp 1 ∧ (limited stale).Agrees (limited strewn) ∧
    (limited strewn).flows ≠ (limited stale).flows := by
  intro run limited
  obtain ⟨hagrees, hempty⟩ := solve_agrees (p := tracing) FlowGraph.loop_accepted {} 20
  obtain ⟨hlimited, _⟩ := solve_agrees (p := tracing) FlowGraph.loop_accepted { nodeLimit := 1 } 20
  have hflows := (hagrees stale strewn sameSlots_strewn).settled (by decide +kernel)
  exact ⟨by decide +kernel, hflows, hempty, by decide +kernel, hlimited _ _ sameSlots_strewn,
    by decide +kernel⟩

end Problem
end FlowAnalysis
