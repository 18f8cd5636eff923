import FlowAnalysis.Proofs.LeastSolution

/-! # What is carried along a path is never missed

A fact is carried along a path when every node on the way passes it on in the
class of the edge that is followed. In a settled run the slot of a label lies
above whatever its node makes of the incoming fact, and the incoming fact lies
above every slot that arrives. What is carried to a label therefore lies below
its incoming fact, for every order that merging respects and wherever the slots
have started. Equal facts only have to be ordered, not to be the same.
-/
namespace FlowAnalysis
variable {S F : Type}

namespace Problem

/-- Along these edges a fact at the first label becomes a fact at another one: each node passes on
what has been carried to it. -/
inductive Carries (p : Problem S F) (a : Label) (x : F) : List Edge → Label → F → Prop
  | here : Carries p a x [] a x
  | along {way : List Edge} {b c : Label} {y z : F} {n : Node S} {k : EdgeClass} :
      Carries p a x way b y → p.graph.nodes[b]? = some n → c ∈ n.succs.get k →
        (p.transfer n y).get k = some z → Carries p a x (way ++ [⟨b, c, k⟩]) c z

/-- The equations at one label up to an order: what arrives has been merged, and what flows out lies
below the slots. -/
structure Covered (p : Problem S F) (le : F → F → Prop) (flows : Flows F) (l : Label) (n : Node S) :
    Prop where
  incoming : ∃ xs : List F, p.arriving flows l n = xs.map some ∧
    flows.incoming[l]? = some (mergeAll p.merge p.initial xs)
  outgoing : ∀ {k x y}, flows.incoming[l]? = some x → (p.transfer n x).get k = some y →
    ∃ z, (flows.outgoing.get k)[l]? = some z ∧ le y z

variable {p : Problem S F} {le : F → F → Prop} {flows start : Flows F} {a c l : Label} {n : Node S}
  {k : EdgeClass} {way : List Edge} {x y z : F}

theorem Covered.le_incoming (h : p.Covered le flows l n) (hb : Bounding le p.merge)
    (hx : some x ∈ p.arriving flows l n) : ∃ z, flows.incoming[l]? = some z ∧ le x z := by
  obtain ⟨xs, hxs, hin⟩ := h.incoming
  exact ⟨_, hin, hb.le_mergeAll p.initial ((mem_of_arriving hxs).mp hx)⟩

theorem Covered.le_outgoing (h : p.Covered le flows l n) (hb : Bounding le p.merge)
    (hup : p.FlowsUp le) (hn : p.graph.nodes[l]? = some n) (hz : flows.incoming[l]? = some z)
    (hxz : le x z) (hy : (p.transfer n x).get k = some y) :
    ∃ w, (flows.outgoing.get k)[l]? = some w ∧ le y w := by
  obtain ⟨v, hv, hyv⟩ := hup hn hxz hy
  obtain ⟨w, hw, hvw⟩ := h.outgoing hz hv
  exact ⟨w, hw, hb.trans hyv hvw⟩

/-- From a fact below the incoming one, a path leads to facts below the incoming ones. -/
theorem Carries.le_incoming (h : p.Carries a x way c y) (hv : p.graph.Valid)
    (hb : Bounding le p.merge) (hup : p.FlowsUp le)
    (hcov : ∀ (l : Label) (n : Node S), p.graph.nodes[l]? = some n → p.Covered le flows l n)
    (hx : ∃ z, flows.incoming[a]? = some z ∧ le x z) :
    ∃ z, flows.incoming[c]? = some z ∧ le y z := by
  induction h with
  | here => exact hx
  | along _ hn hc hz ih =>
    obtain ⟨w, hw, hyw⟩ := ih
    obtain ⟨v, hv', hzv⟩ := (hcov _ _ hn).le_outgoing hb hup hn hw hyw hz
    obtain ⟨m, hm, hpred⟩ := hv.exists_succ hn hc
    obtain ⟨u, hu, hvu⟩ := (hcov _ _ hm).le_incoming hb (mem_arriving.mpr (.inl ⟨_, _, hpred, hv'⟩))
    exact ⟨u, hu, hb.trans hzv hvu⟩

theorem Carries.le_incoming_of_entry (h : p.Carries a p.boundary way c y) (hv : p.graph.Valid)
    (hb : Bounding le p.merge) (hup : p.FlowsUp le)
    (hcov : ∀ (l : Label) (n : Node S), p.graph.nodes[l]? = some n → p.Covered le flows l n)
    (ha : a ∈ p.graph.entries) : ∃ z, flows.incoming[c]? = some z ∧ le y z := by
  obtain ⟨m, hm⟩ := LabelMap.exists_of_mem ((hv.mem_ids a).mp (hv.entry_mem ha))
  have harrives : some p.boundary ∈ p.arriving flows a m := mem_arriving.mpr (.inr ⟨ha, rfl⟩)
  exact h.le_incoming hv hb hup hcov ((hcov a m hm).le_incoming hb harrives)

variable [BEq F] {s t : State F} {tick : Nat} {e : Evaluation F}

theorem Evaluates.covered_self (h : p.Evaluates tick flows n e) (hv : p.graph.Valid) (hf : p.Steady)
    (hb : Bounding le p.merge) (heq : ∀ {x y : F}, (x == y) = true → le y x)
    (ha : e.label ∉ e.awakened) : p.Covered le (e.commit flows) e.label n := by
  have hin : (e.commit flows).incoming[e.label]? = some e.incoming := by
    rw [Evaluation.getElem?_commit_incoming, if_pos rfl]
  constructor
  · refine ⟨e.gathered, ?_, ?_⟩
    · rw [h.arriving_commit hv h.node ha, h.gathered]
    · rw [hin, h.incoming]
  · intro k x y hx hy
    obtain rfl : e.incoming = x := Option.some.inj (hin.symm.trans hx)
    rw [← h.outcome_eq hf] at hy
    rw [Evaluation.getElem?_commit_outgoing, if_pos rfl, h.replaced, hy, news]
    split
    · -- The slot counts as equal to what flows out and stays.
      next hslot =>
      cases hw : (flows.outgoing.get k)[e.label]? with
      | none => simp [hw] at hslot
      | some w => exact ⟨w, rfl, heq (by simpa [hw] using hslot)⟩
    · exact ⟨y, rfl, hb.refl y⟩

theorem Evaluates.covered_of_ne (h : p.Evaluates tick flows n e) (hv : p.graph.Valid) {m : Node S}
    (hm : p.graph.nodes[l]? = some m) (ha : l ∉ e.awakened) (hne : e.label ≠ l)
    (hc : p.Covered le flows l m) : p.Covered le (e.commit flows) l m := by
  have hin : (e.commit flows).incoming[l]? = flows.incoming[l]? := by
    rw [Evaluation.getElem?_commit_incoming, if_neg hne]
  constructor
  · rw [h.arriving_commit hv hm ha, hin]
    exact hc.incoming
  · intro k x y hx hy
    rw [Evaluation.getElem?_commit_outgoing_of_ne hne]
    exact hc.outgoing (hin ▸ hx) hy

/-- The loop invariant up to an order: only queued labels may be uncovered. -/
def CoveredOffQueue (p : Problem S F) (le : F → F → Prop) (s : State F) : Prop :=
  ∀ (l : Label) (n : Node S), p.graph.nodes[l]? = some n → l ∉ s.worklist →
    p.Covered le s.flows l n

theorem Advances.coveredOffQueue (h : p.Advances s t n e) (hv : p.graph.Valid) (hf : p.Steady)
    (hb : Bounding le p.merge) (heq : ∀ {x y : F}, (x == y) = true → le y x) (hs : s.Sound p.graph)
    (hc : p.CoveredOffQueue le s) : p.CoveredOffQueue le t := by
  intro l m hm hl
  rw [h.mem_worklist hs, not_or, not_and_or, not_ne_iff] at hl
  obtain ⟨ha, hl⟩ := hl
  rw [h.flows]
  by_cases hne : e.label = l
  · subst hne
    obtain rfl : n = m := Option.some.inj (h.evaluates.node.symm.trans hm)
    exact h.evaluates.covered_self hv hf hb heq ha
  · have hq : l ∉ s.worklist := hl.resolve_left (Ne.symm hne)
    exact h.evaluates.covered_of_ne hv hm ha hne (hc l m hm hq)

theorem covered_of_settled (hv : p.graph.violation? = .ok none) (hf : p.Steady)
    (hb : Bounding le p.merge) (heq : ∀ {x y : F}, (x == y) = true → le y x)
    {settings : Settings} {steps : Nat} (h : (p.solve settings steps start).ending = .settled)
    (l : Label) (n : Node S) (hn : p.graph.nodes[l]? = some n) :
    p.Covered le (p.solve settings steps start).flows l n := by
  have hvalid := FlowGraph.violation?_eq_ok_none_iff.mp hv
  obtain ⟨s, t, hs, hr, h0, hrun⟩ := solve_settled hv h
  obtain ⟨hsound, hc⟩ := hr.preserves hvalid (p.CoveredOffQueue le)
    (fun hsound ha => ha.coveredOffQueue hvalid hf hb heq hsound) hs.sound
    fun l _ hn hl => absurd ((hs.queued l).mpr (LabelMap.mem_of_getElem? hn)) hl
  rw [hrun]
  exact hc l n hn (hsound.ranked.not_mem_of_size h0 l)

/-- What the boundary fact becomes along any path from an entry lies below what flows into the label
where the path ends, and what that node makes of it lies below the slots, in every settled run. -/
theorem solve_above_paths (hv : p.graph.violation? = .ok none) (hf : p.Steady)
    (hb : Bounding le p.merge) (heq : ∀ {x y : F}, (x == y) = true → le y x) (hup : p.FlowsUp le)
    {settings : Settings} {steps : Nat} (h : (p.solve settings steps start).ending = .settled)
    (ha : a ∈ p.graph.entries) (hway : p.Carries a p.boundary way c x) :
    (∃ z, (p.solve settings steps start).flows.incoming[c]? = some z ∧ le x z) ∧
    ∀ {n k y}, p.graph.nodes[c]? = some n → (p.transfer n x).get k = some y →
      ∃ z, ((p.solve settings steps start).flows.outgoing.get k)[c]? = some z ∧ le y z := by
  have hvalid := FlowGraph.violation?_eq_ok_none_iff.mp hv
  have hcov := covered_of_settled hv hf hb heq h
  obtain ⟨z, hz, hxz⟩ := hway.le_incoming_of_entry hvalid hb hup hcov ha
  exact ⟨⟨z, hz, hxz⟩, fun hn hy => (hcov c _ hn).le_outgoing hb hup hn hz hxz hy⟩

/-- The labels that have been passed, in the order in which they were met. Nothing flows along a
taken edge before the label 0 has been passed. -/
def passing : Problem Unit (List Label) where
  graph := .loop
  merge xs ys := xs ++ ys.filter (· ∉ xs)
  flow _ n xs := ⟨some (n.label :: xs.filter (· ≠ n.label)), if 0 ∈ xs then some xs else none⟩
  initial := []
  boundary := [7]

theorem passing_bounding : Bounding (· ⊆ ·) passing.merge where
  refl := List.Subset.refl
  trans := List.Subset.trans
  left xs ys := List.subset_append_left xs _
  right xs ys := by
    intro y hy
    by_cases hx : y ∈ xs
    · exact List.mem_append_left _ hx
    · exact List.mem_append_right _ (List.mem_filter.mpr ⟨hy, decide_eq_true hx⟩)

theorem passing_flowsUp : passing.FlowsUp (· ⊆ ·) := by
  intro l n _ k xs ys a hxy ha
  cases k with
  | notTaken =>
    obtain rfl : n.label :: xs.filter (· ≠ n.label) = a := Option.some.inj ha
    refine ⟨_, rfl, ?_⟩
    exact List.cons_subset_cons _ (List.filter_subset _ hxy)
  | taken =>
    have ha : (if 0 ∈ xs then some xs else none) = some a := ha
    split at ha
    · next h0 =>
      obtain rfl := Option.some.inj ha
      exact ⟨ys, if_pos (hxy h0), hxy⟩
    · cases ha

/-- From the entry into the loop, once round it, and out. -/
theorem passing_carries :
    passing.Carries 0 [7] [⟨0, 1, .notTaken⟩, ⟨1, 1, .taken⟩, ⟨1, 2, .notTaken⟩] 2 [1, 0, 7] := by
  have hround : passing.Carries 0 [7] [⟨0, 1, .notTaken⟩] 1 [0, 7] :=
    .along .here (n := { label := 0, succs := ⟨[1], [2]⟩, stmt := () }) rfl (by decide) rfl
  have hout : passing.Carries 0 [7] [⟨0, 1, .notTaken⟩, ⟨1, 1, .taken⟩] 1 [0, 7] :=
    .along hround (n := { label := 1, preds := ⟨[0], [1]⟩, succs := ⟨[2], [1]⟩, stmt := () }) rfl
      (by decide) rfl
  exact .along hout (n := { label := 1, preds := ⟨[0], [1]⟩, succs := ⟨[2], [1]⟩, stmt := () }) rfl
    (by decide) rfl

theorem solve_above_paths_passing :
    (passing.solve {} 20 stale).ending = .settled ∧
    ∃ z, (passing.solve {} 20 stale).flows.incoming[(2 : Label)]? = some z ∧ [1, 0, 7] ⊆ z := by
  have hend : (passing.solve {} 20 stale).ending = .settled := by decide +kernel
  obtain ⟨hin, _⟩ := solve_above_paths FlowGraph.loop_accepted (fun _ => rfl) passing_bounding
    (fun h => eq_of_beq h ▸ List.Subset.refl _) passing_flowsUp hend List.mem_cons_self passing_carries
  exact ⟨hend, hin⟩

end Problem
end FlowAnalysis
