import FlowAnalysis.Proofs.Equations
import FlowAnalysis.Proofs.Sweep

/-! # Solving on from a solution

Flows in which every label is up to date are at rest. Completing them changes
nothing, and an evaluation that starts from them finds in the slots what it
computes: it replaces none and awakens no label, if only what flows out is equal
to itself. So a run from where a run has settled sweeps over the labels once and
leaves the flows as they were, whatever order and bound have led to them.
-/
namespace FlowAnalysis
variable {S F : Type}

theorem Flows.completeSlots_eq {nodes : LabelMap (Node S)} {default : Label → F} {slots : LabelMap F}
    (h : ∀ l, l ∈ slots ↔ l ∈ nodes) : completeSlots nodes default slots = slots := by
  apply Std.ExtTreeMap.ext_getElem?
  intro l
  rw [getElem?_completeSlots]
  by_cases hl : l ∈ nodes
  · obtain ⟨n, hn⟩ := LabelMap.exists_of_mem hl
    obtain ⟨x, hx⟩ := LabelMap.exists_of_mem ((h l).mpr hl)
    rw [hn, hx]
    rfl
  · rw [Std.ExtTreeMap.getElem?_eq_none hl, Std.ExtTreeMap.getElem?_eq_none (mt (h l).mp hl)]
    rfl

theorem Flows.Covers.complete_eq {flows : Flows F} {g : FlowGraph S} (h : flows.Covers g)
    (initial boundary : F) : flows.complete g initial boundary = flows := by
  refine ext_get (completeSlots_eq h.incoming) fun k => ?_
  rw [get_complete_outgoing, completeSlots_eq (h.outgoing k)]

namespace Problem
variable [BEq F] {p : Problem S F}

/-- Exactly the labels of the graph have slots, and all of them are up to date. -/
structure AtRest (p : Problem S F) (flows : Flows F) : Prop where
  covers : flows.Covers p.graph
  upToDate : ∀ {l : Label} {n : Node S}, p.graph.nodes[l]? = some n → p.UpToDate flows l n

/-- Whatever flows out compares equal to itself. -/
def SelfEqual (p : Problem S F) : Prop := ∀ {n x k y}, (p.transfer n x).get k = some y → y == y

variable {start flows : Flows F} {tick : Nat} {n : Node S} {e : Evaluation F}

theorem atRest_of_settled (hv : p.graph.violation? = .ok none) (hf : p.Steady) {settings : Settings}
    {steps : Nat} (h : (p.solve settings steps start).ending = .settled) :
    p.AtRest (p.solve settings steps start).flows := by
  obtain ⟨hcovers, hl⟩ := upToDate_of_settled hv hf h
  exact ⟨hcovers, hl _ _⟩

namespace AtRest

theorem incoming_eq (h : p.AtRest flows) (he : p.Evaluates tick flows n e) :
    flows.incoming[e.label]? = some e.incoming := by
  obtain ⟨xs, hxs, hin⟩ := (h.upToDate he.node).incoming
  have hgathered : e.gathered = xs :=
    List.map_injective_iff.mpr (Option.some_injective F) (he.gathered.symm.trans hxs)
  rw [hin, he.incoming, hgathered]

theorem replaced_eq_none (h : p.AtRest flows) (hf : p.Steady) (hself : p.SelfEqual)
    (he : p.Evaluates tick flows n e) (k : EdgeClass) : e.replaced.get k = none := by
  obtain ⟨slot, hslot⟩ := (h.upToDate he.node).outgoing (k := k) (h.incoming_eq he)
  rw [he.replaced, he.outcome_eq hf, hslot, news_of_written slot hself]

theorem awakened_eq_nil (h : p.AtRest flows) (hf : p.Steady) (hself : p.SelfEqual)
    (he : p.Evaluates tick flows n e) : e.awakened = [] := by
  refine List.eq_nil_iff_forall_not_mem.mpr fun x hx => ?_
  obtain ⟨k, hk, _⟩ := (he.awakened x).mp hx
  simp [h.replaced_eq_none hf hself he k] at hk

theorem commit_eq (h : p.AtRest flows) (hf : p.Steady) (hself : p.SelfEqual)
    (he : p.Evaluates tick flows n e) : e.commit flows = flows := by
  refine Flows.ext_get (Std.ExtTreeMap.ext_getElem? fun {l} => ?_) fun k => ?_
  · rw [Evaluation.getElem?_commit_incoming]
    split
    · next hl => rw [← hl, h.incoming_eq he]
    · rfl
  · rw [Evaluation.get_commit_outgoing, h.replaced_eq_none hf hself he k]
    rfl

end AtRest

/-- A run that goes on from where a run has settled evaluates each label once, in its own visiting
order and under any bound, and leaves every slot as it was. What flows out has to be equal to itself,
and the labels are no more than a word can count. -/
theorem solve_again (hv : p.graph.violation? = .ok none) (hf : p.Steady) (hself : p.SelfEqual)
    {settings : Settings} {steps : Nat} {r : Report F (Flows F)} (hr : p.solve settings steps start = r)
    (h : r.ending = .settled) (settings' : Settings)
    (hfits : settings'.nodeLimit ≠ 0 → p.graph.ids.toFinset.card < UInt64.size) {steps' : Nat}
    (hsteps : p.graph.ids.toFinset.card < steps') :
    (p.solve settings' steps' r.flows).Sweeps p.graph settings'.order ∧
      (p.solve settings' steps' r.flows).flows = r.flows := by
  subst hr
  have hrest := atRest_of_settled hv hf h
  rw [← solveVarying_const settings']
  refine solveVarying_sweeps hv hfits hsteps (· = (p.solve settings steps start).flows)
    (hrest.covers.complete_eq _ _) ?_ ?_
  · rintro tick flows n e he rfl
    exact hrest.commit_eq hf hself he
  · rintro tick flows n e he rfl before after _ x hx
    rw [hrest.awakened_eq_nil hf hself he] at hx
    cases hx

/-- The flows of a run in reverse post-order are solved again by label, one evaluation each allowed. -/
theorem solve_again_tracing :
    let settled := tracing.solve {} 20 stale
    let again := tracing.solve { nodeLimit := 1, order := .label } 4 settled.flows
    settled.visits = [0, 1, 1, 2] ∧ again.ending = .settled ∧ again.visits = [0, 1, 2] ∧
      again.evaluations.size = 3 ∧ again.flows = settled.flows := by
  intro settled again
  have hend : settled.ending = .settled := by decide +kernel
  have hcard : tracing.graph.ids.toFinset.card = 3 := by decide +kernel
  have hself : tracing.SelfEqual := fun _ => beq_self_eq_true _
  have hagain : again.Sweeps tracing.graph .label ∧ again.flows = settled.flows :=
    solve_again FlowGraph.loop_accepted (fun _ => rfl) hself rfl hend _ (fun _ => hcard ▸ by decide)
      (hcard ▸ by decide)
  obtain ⟨hsweeps, hflows⟩ := hagain
  exact ⟨by decide +kernel, hsweeps.ending, Except.ok.inj (hsweeps.visits.symm.trans (by decide +kernel)),
    hsweeps.size.trans hcard, hflows⟩

/-- The one fact there is, and it is not equal to itself. -/
inductive Elusive where
  | fact

instance : BEq Elusive := ⟨fun _ _ => false⟩

/-- One edge, along which the fact flows again and again. -/
def elusive : Problem Unit Elusive where
  graph := .ofNodes [] [
    { label := 0, preds := ⟨[1], []⟩, stmt := () },
    { label := 1, succs := ⟨[0], []⟩, stmt := () }]
  merge x _ := x
  flow _ _ x := ⟨some x, none⟩
  initial := .fact
  boundary := .fact

/-- What is not equal to itself is news each time, so that the later label awakens the earlier one. -/
theorem not_solve_again_elusive :
    let settled := elusive.solve {} 5 {}
    let again := elusive.solve { order := .label } 5 settled.flows
    elusive.graph.violation? = .ok none ∧ elusive.Steady ∧ settled.ending = .settled ∧
      again.visits = [0, 1, 0] ∧ ¬ again.Sweeps elusive.graph .label := by
  intro settled again
  have hvisits : again.visits = [0, 1, 0] := by decide +kernel
  refine ⟨by decide +kernel, fun _ => rfl, by decide +kernel, hvisits, fun hsweeps => ?_⟩
  have honce := hsweeps.once.1
  rw [hvisits] at honce
  exact absurd honce (by decide)

end Problem
end FlowAnalysis
