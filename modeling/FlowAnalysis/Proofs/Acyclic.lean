import Mathlib.Algebra.BigOperators.Group.Finset.Piecewise
import Mathlib.Algebra.Order.BigOperators.Group.Finset
import Mathlib.Data.FinEnum
import Mathlib.Order.WellFounded
import FlowAnalysis.Proofs.Acceptance

/-! # Runs over acyclic graphs come to an end

Where no walk leads back, finitely many walks begin at each label: the one that
stays, and those that go on to a successor. An evaluation takes a label from the
queue and puts none there but its successors, so that fewer walks begin at the
queued labels than before. Nothing is assumed of the facts, nor of the way they
are merged and flow.
-/
namespace FlowAnalysis
variable {S F : Type}

namespace FlowGraph
variable {g : FlowGraph S}

/-- No walk over one edge or more, of either class, leads back to where it began. -/
def Acyclic (g : FlowGraph S) : Prop := ∀ l, ¬ Relation.TransGen (fun a b => b ∈ g.targets a) l l

/-- There are finitely many labels. -/
theorem wellFounded_of_acyclic {r : Label → Label → Prop} (h : ∀ l, ¬ Relation.TransGen r l l) :
    WellFounded r := by
  have htrans : IsTrans Label (Relation.TransGen r) := ⟨fun _ _ _ => Relation.TransGen.trans⟩
  have hirrefl : Std.Irrefl (Relation.TransGen r) := ⟨h⟩
  exact Subrelation.wf Relation.TransGen.single (Finite.wellFounded_of_trans_of_irrefl _)

namespace Acyclic

theorem wellFounded_targets (h : g.Acyclic) : WellFounded fun a b => b ∈ g.targets a :=
  wellFounded_of_acyclic h

theorem wellFounded_sources (h : g.Acyclic) : WellFounded fun b a => b ∈ g.targets a :=
  wellFounded_of_acyclic fun l hl => h l (Relation.transGen_swap.mp hl)

theorem reverse (h : g.Acyclic) (hv : g.Valid) : g.reverse.Acyclic := by
  have hback : ∀ {a b}, b ∈ g.reverse.targets a → a ∈ g.targets b := by
    intro a b hb
    obtain ⟨_, hfound, k, hk⟩ := mem_targets.mp hb
    obtain ⟨n, hn, rfl⟩ := LabelMap.getElem?_map_eq_some_iff.mp hfound
    obtain ⟨m, hm, hsucc⟩ := hv.exists_pred hn hk
    exact mem_targets.mpr ⟨m, hm, k, hsucc⟩
  exact fun l hl => h l (Relation.transGen_swap.mp (Relation.TransGen.mono (fun _ _ => hback) l l hl))

end Acyclic

/-- How many walks begin at a label: the one that stays, and those that go on to a successor. -/
noncomputable def Acyclic.walks (h : g.Acyclic) : Label → Nat :=
  h.wellFounded_sources.fix fun a walksFrom =>
    1 + ∑ t ∈ (g.targets a).toFinset.attach, walksFrom t.1 (List.mem_toFinset.mp t.2)

theorem Acyclic.walks_eq (h : g.Acyclic) (l : Label) :
    h.walks l = 1 + ∑ t ∈ (g.targets l).toFinset, h.walks t := by
  rw [walks, WellFounded.fix_eq]
  exact congrArg (1 + ·) (Finset.sum_attach _ h.walks)

/-- There is no cycle if every edge leads up. -/
theorem acyclic_of_height (height : Label → Nat)
    (h : (g.nodes.toList.all fun e => e.2.targets.all fun t => height e.1 < height t) = true) :
    g.Acyclic := by
  have hup : ∀ {a b}, b ∈ g.targets a → height a < height b := by
    intro a b hb
    obtain ⟨n, hn, k, hk⟩ := mem_targets.mp hb
    have hmem := Std.ExtTreeMap.mem_toList_iff_getElem?_eq_some.mpr hn
    have htarget : b ∈ n.targets := by cases k <;> simp_all [Node.targets, PerClass.get]
    exact of_decide_eq_true (List.all_eq_true.mp (List.all_eq_true.mp h _ hmem) b htarget)
  intro l hl
  have hlt : Relation.TransGen (· < ·) (height l) (height l) :=
    Relation.TransGen.lift height (fun _ _ => hup) l l hl
  rw [Relation.transGen_eq_self] at hlt
  exact Nat.lt_irrefl _ hlt

/-- Stairs from the last label down to the first one, with another entry half-way down. Two edges leap
over a step, the upper one of them a taken edge. -/
def stairs : FlowGraph Unit := ofNodes [3, 1] [
  { label := 0, preds := ⟨[1, 2], []⟩, stmt := () },
  { label := 1, preds := ⟨[2], [3]⟩, succs := ⟨[0], []⟩, stmt := () },
  { label := 2, preds := ⟨[3], []⟩, succs := ⟨[1, 0], []⟩, stmt := () },
  { label := 3, succs := ⟨[2], [1]⟩, stmt := () }]

theorem stairs_accepted : stairs.violation? = .ok none := rfl

theorem stairs_acyclic : stairs.Acyclic := acyclic_of_height (fun l => 3 - l.toNat) (by decide +kernel)

end FlowGraph

namespace Problem
variable [BEq F] {p : Problem S F} {s t : State F} {n : Node S} {e : Evaluation F} {start : Flows F}
  {settings : Settings} {steps : Nat}

/-- The walks that begin at queued labels. -/
noncomputable def walksQueued (ha : p.graph.Acyclic) (s : State F) : Nat :=
  ∑ l ∈ s.worklist.labels.toFinset, ha.walks l

theorem Advances.walksQueued_lt (h : p.Advances s t n e) (hs : s.Sound p.graph) (ht : t.Sound p.graph)
    (ha : p.graph.Acyclic) : walksQueued ha t < walksQueued ha s := by
  have hqueued : e.label ∈ s.worklist.labels.toFinset := by
    obtain ⟨_, hp, _⟩ := h.taken
    exact List.mem_toFinset.mpr (hs.ranked.mem_labels.mpr (hs.ranked.pop hp).2.2.1)
  have hsub : t.worklist.labels.toFinset ⊆
      (p.graph.targets e.label).toFinset ∪ s.worklist.labels.toFinset.erase e.label := by
    intro x hx
    rw [List.mem_toFinset, ht.ranked.mem_labels, h.mem_worklist hs, h.evaluates.awakened] at hx
    rw [Finset.mem_union, List.mem_toFinset, Finset.mem_erase, List.mem_toFinset, hs.ranked.mem_labels]
    refine hx.imp_left ?_
    rintro ⟨k, _, hk⟩
    exact FlowGraph.mem_targets.mpr ⟨n, h.evaluates.node, k, hk⟩
  have herase := Finset.sum_erase_add _ ha.walks hqueued
  have hlabel := ha.walks_eq e.label
  calc walksQueued ha t
      ≤ ∑ l ∈ (p.graph.targets e.label).toFinset ∪ s.worklist.labels.toFinset.erase e.label, ha.walks l :=
        Finset.sum_le_sum_of_subset hsub
    _ ≤ ∑ l ∈ (p.graph.targets e.label).toFinset, ha.walks l +
          ∑ l ∈ s.worklist.labels.toFinset.erase e.label, ha.walks l := by
        rw [← Finset.sum_union_inter]
        exact Nat.le_add_right _ _
    _ < walksQueued ha s := by
        unfold walksQueued
        omega

/-- Every evaluation is paid for by a walk. -/
theorem Reaches.evaluations_le_walks (h : p.Reaches s t) (hv : p.graph.Valid) (hs : p.Starts start s)
    (ha : p.graph.Acyclic) : t.evaluations.size ≤ ∑ l ∈ p.graph.ids.toFinset, ha.walks l := by
  have hall : walksQueued ha s = ∑ l ∈ p.graph.ids.toFinset, ha.walks l := by
    unfold walksQueued
    congr 1
    ext l
    rw [List.mem_toFinset, List.mem_toFinset, hs.sound.ranked.mem_labels, hs.queued, hv.mem_ids]
  have hpaid := h.preserves hv (fun t => t.evaluations.size + walksQueued ha t ≤ walksQueued ha s)
    (fun {s t n e} hsound hadv hi => by
      have hlt := hadv.walksQueued_lt hsound (hadv.sound hv hsound) ha
      have hsize : t.evaluations.size = s.evaluations.size + 1 := by rw [hadv.evaluations, Array.size_push]
      omega) hs.sound (by simp [hs.evaluations])
  exact hall ▸ (Nat.le_add_right _ _).trans hpaid.2

theorem solve_settles_of_acyclic (hv : p.graph.violation? = .ok none) (ha : p.graph.Acyclic)
    (hlimit : settings.nodeLimit = 0) (hsteps : ∑ l ∈ p.graph.ids.toFinset, ha.walks l < steps) :
    (p.solve settings steps start).ending = .settled := by
  obtain ⟨s, t, ending, hs, hr, hrun, hend⟩ := solve_reaches hv settings steps start
  have hle := hr.evaluations_le_walks (FlowGraph.violation?_eq_ok_none_iff.mp hv) hs ha
  rw [hrun]
  cases hend with
  | settled => rfl
  | gaveUp _ hbound _ => simp [Settings.bound, hlimit] at hbound
  | unfinished hused => omega

end Problem
end FlowAnalysis
