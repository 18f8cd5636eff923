import FlowAnalysis.Proofs.Paths

/-! # Distributive problems are solved exactly

When the flow function distributes over merging, merging first and flowing
afterwards loses nothing. Every slot then holds the initial fact or a finite
merge of facts that have been carried along paths, at every moment of a run. A
settled run leaves at each label the least fact above all that paths carry
there.
-/
namespace FlowAnalysis
variable {S F : Type}

/-- Finite merges of facts that have a property. -/
inductive Merged (merge : F → F → F) (P : F → Prop) : F → Prop
  | fact {x : F} : P x → Merged merge P x
  | merge {x y : F} : Merged merge P x → Merged merge P y → Merged merge P (merge x y)

namespace Merged
variable {merge : F → F → F} {P Q : F → Prop} {initial x u : F} {xs : List F}

theorem imp (h : Merged merge P x) (hpq : ∀ y, P y → Q y) : Merged merge Q x := by
  induction h with
  | fact hx => exact .fact (hpq _ hx)
  | merge _ _ ihx ihy => exact .merge ihx ihy

theorem below_of_forall (h : Merged merge P x) (hm : Semilattice merge) (hu : ∀ y, P y → Below merge y u) :
    Below merge x u := by
  induction h with
  | fact hx => exact hu _ hx
  | merge _ _ ihx ihy => exact @sup_le F hm.order _ _ _ ihx ihy

theorem foldl (hx : Merged merge P x) (hxs : ∀ y ∈ xs, Merged merge P y) :
    Merged merge P (xs.foldl merge x) := by
  induction xs generalizing x with
  | nil => exact hx
  | cons y ys ih =>
    obtain ⟨hy, hys⟩ := List.forall_mem_cons.mp hxs
    exact ih (.merge hx hy) hys

theorem mergeAll (h0 : P initial) (hxs : ∀ y ∈ xs, Merged merge P y) :
    Merged merge P (mergeAll merge initial xs) := by
  cases xs with
  | nil => exact .fact h0
  | cons y ys =>
    obtain ⟨hy, hys⟩ := List.forall_mem_cons.mp hxs
    exact hy.foldl hys

/-- A function that distributes over merging turns merged facts into merged facts. -/
theorem map {f : F → Option F} (hf : ∀ a b, f (merge a b) = Option.merge merge (f a) (f b))
    (h : Merged merge P x) {y : F} (hy : f x = some y) :
    Merged merge (fun b => ∃ a, P a ∧ f a = some b) y := by
  induction h generalizing y with
  | fact hx => exact .fact ⟨_, hx, hy⟩
  | @merge a b _ _ iha ihb =>
    rw [hf] at hy
    cases ha : f a with
    | none =>
      rw [ha, Option.merge_none_left] at hy
      exact ihb hy
    | some a' =>
      cases hb : f b with
      | none =>
        rw [ha, hb, Option.merge_none_right] at hy
        exact iha (ha.trans hy)
      | some b' =>
        rw [ha, hb, Option.merge_some_some] at hy
        obtain rfl := Option.some.inj hy
        exact .merge (iha ha) (ihb hb)

end Merged

namespace Problem

/-- A steady problem over a semilattice with the initial fact at the bottom and a flow function that
distributes over merging in each class, where nothing is the unit. -/
structure IsDistributive (p : Problem S F) : Prop where
  steady : p.Steady
  semilattice : Semilattice p.merge
  initial_below : ∀ x, Below p.merge p.initial x
  distributes : ∀ {l : Label} {n : Node S}, p.graph.nodes[l]? = some n → ∀ k x y,
    (p.transfer n (p.merge x y)).get k =
      Option.merge p.merge ((p.transfer n x).get k) ((p.transfer n y).get k)

/-- The facts that paths carry to a label: from the boundary at an entry, or from the initial fact
at any label. -/
inductive PathFact (p : Problem S F) (c : Label) (y : F) : Prop
  | boundary {a : Label} {way : List Edge} :
      a ∈ p.graph.entries → p.Carries a p.boundary way c y → PathFact p c y
  | initial {a : Label} {way : List Edge} :
      a ∈ p.graph.nodes → p.Carries a p.initial way c y → PathFact p c y

/-- Every slot holds the initial fact or merges what the node makes of facts that paths carry to it. -/
def Composed (p : Problem S F) (flows : Flows F) : Prop :=
  ∀ (k : EdgeClass) (l : Label) (n : Node S) (x : F), p.graph.nodes[l]? = some n →
    (flows.outgoing.get k)[l]? = some x → x = p.initial ∨
      Merged p.merge (fun y => ∃ z, p.PathFact l z ∧ (p.transfer n z).get k = some y) x

variable {p : Problem S F} {flows : Flows F} {b c l : Label} {n : Node S} {k : EdgeClass} {x y : F}
  {xs : List F}

/-- In the order of merging, a distributive flow function is monotone. -/
theorem IsDistributive.isMonotone (h : p.IsDistributive) : p.IsMonotone := by
  refine ⟨h.steady, h.semilattice, h.initial_below, ?_⟩
  intro l n hn k x y a hxy ha
  have hflow := h.distributes hn k x y
  rw [hxy, ha] at hflow
  cases hb : (p.transfer n y).get k with
  | none =>
    rw [hb, Option.merge_none_right] at hflow
    cases hflow
  | some b =>
    rw [hb, Option.merge_some_some] at hflow
    exact ⟨b, rfl, (Option.some.inj hflow).symm⟩

theorem PathFact.along (h : p.PathFact b y) (hn : p.graph.nodes[b]? = some n)
    (hc : c ∈ n.succs.get k) (hx : (p.transfer n y).get k = some x) : p.PathFact c x := by
  cases h with
  | boundary ha hway => exact .boundary ha (hway.along hn hc hx)
  | initial ha hway => exact .initial ha (hway.along hn hc hx)

/-- What arrives at a label, and hence what flows in, merges facts that paths carry to it. -/
theorem Composed.merged_arriving (h : p.Composed flows) (hv : p.graph.Valid)
    (hn : p.graph.nodes[l]? = some n) (hxs : p.arriving flows l n = xs.map some) :
    Merged p.merge (p.PathFact l) (mergeAll p.merge p.initial xs) := by
  have hstart : p.PathFact l p.initial := .initial (LabelMap.mem_of_getElem? hn) .here
  apply Merged.mergeAll hstart
  intro x hx
  rcases mem_arriving.mp ((mem_of_arriving hxs).mpr hx) with ⟨k, q, hq, hslot⟩ | ⟨he, hbound⟩
  · obtain ⟨m, hm, hsucc⟩ := hv.exists_pred hn hq
    rcases h k q m x hm hslot with rfl | hmerged
    · exact .fact hstart
    · exact hmerged.imp fun y ⟨z, hz, hy⟩ => hz.along hm hsucc hy
  · exact Option.some.inj hbound ▸ .fact (.boundary he .here)

variable [BEq F] [LawfulBEq F] {s t : State F} {e : Evaluation F}

theorem Advances.composed (h : p.Advances s t n e) (hv : p.graph.Valid) (hd : p.IsDistributive)
    (hs : p.Composed s.flows) : p.Composed t.flows := by
  intro k l m x hm hx
  rw [h.flows] at hx
  rcases Evaluation.getElem?_commit_outgoing_cases hx with hx | ⟨rfl, hr⟩
  · exact hs k l m x hm hx
  · obtain rfl : n = m := Option.some.inj (h.evaluates.node.symm.trans hm)
    obtain ⟨hout, _⟩ := h.evaluates.transfer_of_replaced hd.steady hr
    have hin := hs.merged_arriving hv hm h.evaluates.gathered
    rw [← h.evaluates.incoming] at hin
    exact .inr (hin.map (hd.distributes hm k) hout)

theorem composed_of_settled (hv : p.graph.violation? = .ok none) (hd : p.IsDistributive)
    {settings : Settings} {steps : Nat} (h : (p.analyze settings steps).ending = .settled) :
    p.Composed (p.analyze settings steps).flows := by
  have hvalid := FlowGraph.violation?_eq_ok_none_iff.mp hv
  obtain ⟨s, t, hs, hr, _, hrun⟩ := solve_settled hv h
  have hstart : p.Composed s.flows := by
    intro k l n x hn hx
    rw [hs.flows, Flows.get_complete_outgoing, Flows.getElem?_completeSlots, hn,
      getElem?_seeded_outgoing] at hx
    split at hx <;> exact .inl (Option.some.inj hx).symm
  rw [analyze, hrun]
  exact (hr.preserves hvalid (fun s => p.Composed s.flows)
    (fun _ ha hc => ha.composed hvalid hd hc) hs.sound hstart).2

/-- In a distributive problem, what flows into a label when a run has settled is the least upper
bound of the facts that paths carry there. -/
theorem analyze_exact (hv : p.graph.violation? = .ok none) (hd : p.IsDistributive)
    {settings : Settings} {steps : Nat} (h : (p.analyze settings steps).ending = .settled)
    (hc : c ∈ p.graph.nodes) :
    ∃ x, (p.analyze settings steps).flows.incoming[c]? = some x ∧
      (∀ y, p.PathFact c y → Below p.merge y x) ∧
      ∀ u, (∀ y, p.PathFact c y → Below p.merge y u) → Below p.merge x u := by
  have hvalid := FlowGraph.violation?_eq_ok_none_iff.mp hv
  have hm := hd.isMonotone
  have hb := hm.semilattice.bounding
  have hcov := covered_of_settled hv hm.steady hb (fun h => eq_of_beq h ▸ hb.refl _) h
  obtain ⟨n, hn⟩ := LabelMap.exists_of_mem hc
  obtain ⟨xs, hxs, hin⟩ := (hcov c n hn).incoming
  refine ⟨_, hin, ?_, ?_⟩
  · intro y hy
    -- A path fact starts below what flows into its first label and stays below on the way.
    have hbelow : ∃ z, (p.analyze settings steps).flows.incoming[c]? = some z ∧ Below p.merge y z := by
      cases hy with
      | boundary ha hway => exact hway.le_incoming_of_entry hvalid hb hm.flowsUp hcov ha
      | @initial a _ ha hway =>
        obtain ⟨m, hma⟩ := LabelMap.exists_of_mem ha
        obtain ⟨_, _, hz⟩ := (hcov a m hma).incoming
        exact hway.le_incoming hvalid hb hm.flowsUp hcov ⟨_, hz, hm.initial_below _⟩
    obtain ⟨z, hz, hyz⟩ := hbelow
    exact Option.some.inj (hin.symm.trans hz) ▸ hyz
  · intro u hu
    exact ((composed_of_settled hv hd h).merged_arriving hvalid hn hxs).below_of_forall hm.semilattice hu

theorem reaching_isDistributive (g : FlowGraph Unit) (sources : List Label) :
    (reaching g sources).IsDistributive := by
  have hm := reaching_isMonotone g sources
  refine ⟨hm.steady, hm.semilattice, hm.initial_below, ?_⟩
  intro l n _ k x y
  cases k with
  | notTaken =>
    have hor : ∀ a b c : Bool, (a || b || c) = ((a || c) || (b || c)) := by decide
    exact congrArg some (hor x y _)
  | taken => cases x <;> cases y <;> rfl

/-- The label 1 is a source, but nothing is carried back into it: its way back is a taken edge. What
it finds out is carried on to the label 2. -/
theorem analyze_exact_reaching :
    ((reaching .loop [1]).analyze {} 20).ending = .settled ∧
    (∀ y, (reaching .loop [1]).PathFact 1 y → y = false) ∧ (reaching .loop [1]).PathFact 2 true := by
  have hend : ((reaching .loop [1]).analyze {} 20).ending = .settled := by decide +kernel
  have hone : ((reaching .loop [1]).analyze {} 20).flows.incoming[(1 : Label)]? = some false := by
    decide +kernel
  have htwo : ((reaching .loop [1]).analyze {} 20).flows.incoming[(2 : Label)]? = some true := by
    decide +kernel
  have hd := reaching_isDistributive .loop [1]
  obtain ⟨x, hx, hbound, _⟩ := analyze_exact FlowGraph.loop_accepted hd hend (c := 1) (by decide)
  obtain ⟨z, hz, _, hleast⟩ := analyze_exact FlowGraph.loop_accepted hd hend (c := 2) (by decide)
  obtain rfl := Option.some.inj (hone.symm.trans hx)
  obtain rfl := Option.some.inj (htwo.symm.trans hz)
  refine ⟨hend, fun y hy => (Bool.or_false y).symm.trans (hbound y hy), ?_⟩
  by_contra hnone
  have hfalse : Below (· || ·) true false := hleast false fun y hy => by
    cases y with
    | false => rfl
    | true => exact absurd hy hnone
  cases hfalse

end Problem
end FlowAnalysis
