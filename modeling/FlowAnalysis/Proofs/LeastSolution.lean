import FlowAnalysis.Proofs.Equations
import FlowAnalysis.Proofs.Order

/-! # The least solution of a monotone problem

A post-solution is closed under the equations from above. Whatever the order of
the evaluations, no slot ever rises above a post-solution, and in the end the
flows are a post-solution themselves. They are therefore the least one, and two
settled runs leave the same flows.
-/
namespace FlowAnalysis
variable {S F : Type}

/-- Where both maps hold a fact, the first one lies below the second. -/
def LabelMap.Below (merge : F → F → F) (m m' : LabelMap F) : Prop :=
  ∀ (l : Label) (x y : F), m[l]? = some x → m'[l]? = some y → FlowAnalysis.Below merge x y

theorem LabelMap.eq_of_below {merge : F → F → F} (hm : Semilattice merge) {m m' : LabelMap F}
    (hmem : ∀ l, l ∈ m ↔ l ∈ m') (hle : m.Below merge m') (hge : m'.Below merge m) : m = m' := by
  apply Std.ExtTreeMap.ext_getElem?
  intro l
  by_cases hl : l ∈ m
  · obtain ⟨x, hx⟩ := LabelMap.exists_of_mem hl
    obtain ⟨y, hy⟩ := LabelMap.exists_of_mem ((hmem l).mp hl)
    rw [hx, hy, hm.antisymm (hle l x y hx hy) (hge l y x hy hx)]
  · rw [Std.ExtTreeMap.getElem?_eq_none hl, Std.ExtTreeMap.getElem?_eq_none (mt (hmem l).mpr hl)]

namespace Flows
variable {merge : F → F → F} {g : FlowGraph S} {a b : Flows F}

/-- The facts that leave a label lie below those of the other flows. -/
def OutgoingBelow (merge : F → F → F) (a b : Flows F) : Prop :=
  ∀ k, (a.outgoing.get k).Below merge (b.outgoing.get k)

structure Below (merge : F → F → F) (a b : Flows F) : Prop where
  incoming : a.incoming.Below merge b.incoming
  outgoing : OutgoingBelow merge a b

theorem eq_of_below (hm : Semilattice merge) (ha : a.Covers g) (hb : b.Covers g)
    (hab : Below merge a b) (hba : Below merge b a) : a = b := by
  refine ext_get ?_ fun k => ?_
  · exact LabelMap.eq_of_below hm (fun l => (ha.incoming l).trans (hb.incoming l).symm)
      hab.incoming hba.incoming
  · exact LabelMap.eq_of_below hm (fun l => (ha.outgoing k l).trans (hb.outgoing k l).symm)
      (hab.outgoing k) (hba.outgoing k)

end Flows

namespace Problem

/-- The flow function is monotone in each class, where nothing lies below every fact. -/
def FlowsUp (p : Problem S F) (le : F → F → Prop) : Prop :=
  ∀ {l : Label} {n : Node S}, p.graph.nodes[l]? = some n → ∀ {k x y a}, le x y →
    (p.transfer n x).get k = some a → ∃ b, (p.transfer n y).get k = some b ∧ le a b

/-- A steady problem over a semilattice with the initial fact at the bottom and a monotone flow
function. -/
structure IsMonotone (p : Problem S F) : Prop where
  steady : p.Steady
  semilattice : Semilattice p.merge
  initial_below : ∀ x, Below p.merge p.initial x
  flowsUp : p.FlowsUp (Below p.merge)

/-- Slots for every label that are above what the equations ask for. -/
structure PostSolution (p : Problem S F) (q : Flows F) : Prop where
  fills : q.Fills p.graph
  incoming : ∀ {l : Label} {n : Node S} {xs : List F} {x : F}, p.graph.nodes[l]? = some n →
    p.arriving q l n = xs.map some → q.incoming[l]? = some x →
      Below p.merge (mergeAll p.merge p.initial xs) x
  outgoing : ∀ {l : Label} {n : Node S} {k : EdgeClass} {x y z : F}, p.graph.nodes[l]? = some n →
    q.incoming[l]? = some x → (p.transfer n x).get k = some y → (q.outgoing.get k)[l]? = some z →
      Below p.merge y z

variable {p : Problem S F} {flows start q : Flows F} {l : Label} {n : Node S}

theorem mergeAll_arriving_below (hm : p.IsMonotone) (hb : flows.OutgoingBelow p.merge q)
    {xs ys : List F} (hxs : p.arriving flows l n = xs.map some)
    (hys : p.arriving q l n = ys.map some) :
    Below p.merge (mergeAll p.merge p.initial xs) (mergeAll p.merge p.initial ys) := by
  apply hm.semilattice.mergeAll_mono hm.initial_below
  intro x hx
  rcases mem_arriving.mp ((mem_of_arriving hxs).mpr hx) with ⟨k, c, hc, hxc⟩ | ⟨he, hxb⟩
  · have hslot : (q.outgoing.get k)[c]? ∈ p.arriving q l n := mem_arriving.mpr (.inl ⟨k, c, hc, rfl⟩)
    obtain ⟨y, hy, hyc⟩ := List.mem_map.mp (hys ▸ hslot)
    exact ⟨y, hy, hb k c x y hxc hyc.symm⟩
  · have hentry := (mem_of_arriving hys).mp (mem_arriving.mpr (.inr ⟨he, rfl⟩))
    exact ⟨p.boundary, hentry, Option.some.inj hxb ▸ hm.semilattice.idem _⟩

theorem PostSolution.mergeAll_below (hq : p.PostSolution q) (hv : p.graph.Valid)
    (hm : p.IsMonotone) (hb : flows.OutgoingBelow p.merge q) {xs : List F} {x : F}
    (hn : p.graph.nodes[l]? = some n) (hxs : p.arriving flows l n = xs.map some)
    (hx : q.incoming[l]? = some x) : Below p.merge (mergeAll p.merge p.initial xs) x := by
  obtain ⟨ys, hys⟩ := exists_arriving hv hq.fills hn
  exact hm.semilattice.bounding.trans (mergeAll_arriving_below hm hb hxs hys) (hq.incoming hn hys hx)

theorem outgoingBelow_complete (hm : p.IsMonotone) (hb : start.OutgoingBelow p.merge q) :
    (start.complete p.graph p.initial p.boundary).OutgoingBelow p.merge q := by
  intro k l x y hx hy
  rw [Flows.get_complete_outgoing, Flows.getElem?_completeSlots] at hx
  obtain ⟨_, _, rfl⟩ := Option.map_eq_some_iff.mp hx
  cases hs : (start.outgoing.get k)[l]? with
  | none => exact hm.initial_below y
  | some z => exact hb k l z y hs hy

variable [BEq F] [LawfulBEq F]

theorem Advances.outgoingBelow {s t : State F} {e : Evaluation F} (h : p.Advances s t n e)
    (hv : p.graph.Valid) (hm : p.IsMonotone) (hq : p.PostSolution q)
    (hb : s.flows.OutgoingBelow p.merge q) : t.flows.OutgoingBelow p.merge q := by
  intro k l x y hx hy
  rw [h.flows] at hx
  rcases Evaluation.getElem?_commit_outgoing_cases hx with hx | ⟨rfl, hr⟩
  · exact hb k l x y hx hy
  · have hnode := h.evaluates.node
    obtain ⟨z, hz⟩ := LabelMap.exists_of_mem (hq.fills.incoming e.label (LabelMap.mem_of_getElem? hnode))
    have hin := hq.mergeAll_below hv hm hb hnode h.evaluates.gathered hz
    rw [← h.evaluates.incoming] at hin
    obtain ⟨hout, _⟩ := h.evaluates.transfer_of_replaced hm.steady hr
    obtain ⟨w, hw, hxw⟩ := hm.flowsUp hnode hin hout
    exact hm.semilattice.bounding.trans hxw (hq.outgoing hnode hz hw hy)

/-- However solving ends, the slots stay below every post-solution that they started below. -/
theorem solve_outgoingBelow (hv : p.graph.violation? = .ok none) (hm : p.IsMonotone)
    (hq : p.PostSolution q) (settings : Settings) (steps : Nat) (hb : start.OutgoingBelow p.merge q) :
    (p.solve settings steps start).flows.OutgoingBelow p.merge q := by
  have hvalid := FlowGraph.violation?_eq_ok_none_iff.mp hv
  obtain ⟨s, t, ending, hs, hr, hrun, _⟩ := solve_reaches hv settings steps start
  have hfinal := hr.preserves hvalid (fun s => s.flows.OutgoingBelow p.merge q)
    (fun _ ha hi => ha.outgoingBelow hvalid hm hq hi) hs.sound
    (hs.flows ▸ outgoingBelow_complete hm hb)
  rw [hrun]
  exact hfinal.2

theorem solve_postSolution (hv : p.graph.violation? = .ok none) (hm : p.IsMonotone)
    {settings : Settings} {steps : Nat} (h : (p.solve settings steps start).ending = .settled) :
    p.PostSolution (p.solve settings steps start).flows := by
  obtain ⟨hcov, hbal⟩ := balanced_of_settled hv hm.steady h
  refine ⟨hcov.fills, ?_, ?_⟩
  · intro l n xs x hn hxs hx
    obtain ⟨ys, hys, hy⟩ := (hbal l n hn).incoming
    obtain rfl : ys = xs := List.map_injective_iff.mpr (Option.some_injective F) (hys.symm.trans hxs)
    rw [Option.some.inj (hx.symm.trans hy)]
    exact hm.semilattice.idem _
  · intro l n k x y z hn hx hy hz
    obtain rfl : y = z := Option.some.inj (((hbal l n hn).outgoing hx hy).symm.trans hz)
    exact hm.semilattice.idem _

theorem solve_below (hv : p.graph.violation? = .ok none) (hm : p.IsMonotone)
    (hq : p.PostSolution q) {settings : Settings} {steps : Nat}
    (h : (p.solve settings steps start).ending = .settled) (hb : start.OutgoingBelow p.merge q) :
    (p.solve settings steps start).flows.Below p.merge q := by
  have hvalid := FlowGraph.violation?_eq_ok_none_iff.mp hv
  obtain ⟨hcov, hbal⟩ := balanced_of_settled hv hm.steady h
  have hout := solve_outgoingBelow hv hm hq settings steps hb
  refine ⟨?_, hout⟩
  intro l x y hx hy
  obtain ⟨n, hn⟩ := LabelMap.exists_of_mem ((hcov.incoming l).mp (LabelMap.mem_of_getElem? hx))
  obtain ⟨xs, hxs, hin⟩ := (hbal l n hn).incoming
  obtain rfl := Option.some.inj (hx.symm.trans hin)
  exact hq.mergeAll_below hvalid hm hout hn hxs hy

omit [BEq F] [LawfulBEq F] in
theorem seeded_outgoingBelow (hm : p.IsMonotone) : p.seeded.OutgoingBelow p.merge q := by
  intro k l x y hx _
  rw [getElem?_seeded_outgoing] at hx
  split at hx
  · exact Option.some.inj hx ▸ hm.initial_below y
  · cases hx

/-- A settled run from seeded flows computes the least post-solution, and every other one, in any
visiting order and under any bound, leaves the same flows. -/
theorem analyze_least (hv : p.graph.violation? = .ok none) (hm : p.IsMonotone)
    {settings : Settings} {steps : Nat} (h : (p.analyze settings steps).ending = .settled) :
    p.PostSolution (p.analyze settings steps).flows ∧
    (∀ q, p.PostSolution q → (p.analyze settings steps).flows.Below p.merge q) ∧
    ∀ settings' steps', (p.analyze settings' steps').ending = .settled →
      (p.analyze settings' steps').flows = (p.analyze settings steps).flows := by
  have hleast : ∀ q, p.PostSolution q → ∀ settings steps,
      (p.analyze settings steps).ending = .settled →
        (p.analyze settings steps).flows.Below p.merge q := fun q hq settings steps h =>
    solve_below hv hm hq h (seeded_outgoingBelow hm)
  have hcov : ∀ settings steps, (p.analyze settings steps).ending = .settled →
      (p.analyze settings steps).flows.Covers p.graph := fun settings steps h =>
    (balanced_of_settled hv hm.steady h).1
  refine ⟨solve_postSolution hv hm h, fun q hq => hleast q hq settings steps h, ?_⟩
  intro settings' steps' h'
  exact Flows.eq_of_below hm.semilattice (hcov settings' steps' h') (hcov settings steps h)
    (hleast _ (solve_postSolution hv hm h) settings' steps' h')
    (hleast _ (solve_postSolution hv hm h') settings steps h)

/-- Whether a label has one of the sources on a way to it. Nothing flows along a taken edge before
that. -/
def reaching (g : FlowGraph Unit) (sources : List Label) : Problem Unit Bool where
  graph := g
  merge := (· || ·)
  flow _ n x := ⟨some (x || sources.contains n.label), if x then some x else none⟩
  initial := false
  boundary := false

theorem reaching_isMonotone (g : FlowGraph Unit) (sources : List Label) :
    (reaching g sources).IsMonotone := by
  refine ⟨fun _ => rfl, ⟨Bool.or_comm, Bool.or_assoc, Bool.or_self⟩, Bool.false_or, ?_⟩
  intro l n _ k x y a hxy ha
  cases k with
  | notTaken =>
    obtain rfl : (x || sources.contains n.label) = a := Option.some.inj ha
    refine ⟨y || sources.contains n.label, rfl, ?_⟩
    have hor : (x || y) = y := hxy
    rw [← hor]
    cases x <;> cases y <;> cases sources.contains n.label <;> rfl
  | taken =>
    cases x with
    | false => cases ha
    | true =>
      obtain rfl : true = y := hxy
      exact ⟨true, rfl, Option.some.inj ha ▸ rfl⟩

theorem transfer_reaching {g g' : FlowGraph Unit} {ls ls' : List Label} {n n' : Node Unit}
    (h : n'.label ∈ ls' ↔ n.label ∈ ls) : (reaching g' ls').transfer n' = (reaching g ls).transfer n := by
  have hsource : ls'.contains n'.label = ls.contains n.label := by
    rw [Bool.eq_iff_iff, List.contains_iff_mem, List.contains_iff_mem, h]
  funext x
  simp only [transfer, reaching, hsource]

theorem analyze_least_reaching :
    (reaching .loop [0]).PostSolution ((reaching .loop [0]).analyze {} 20).flows ∧
    (∀ q, (reaching .loop [0]).PostSolution q →
      ((reaching .loop [0]).analyze {} 20).flows.Below (· || ·) q) ∧
    ((reaching .loop [0]).analyze ⟨3, .label⟩ 20).flows =
      ((reaching .loop [0]).analyze {} 20).flows := by
  have hend : ((reaching .loop [0]).analyze {} 20).ending = .settled := by decide +kernel
  obtain ⟨hpost, hleast, hunique⟩ := analyze_least FlowGraph.loop_accepted
    (reaching_isMonotone .loop [0]) hend
  exact ⟨hpost, hleast, hunique ⟨3, .label⟩ 20 (by decide +kernel)⟩

end Problem
end FlowAnalysis
