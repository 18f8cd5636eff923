import Mathlib.Data.Set.List
import FlowAnalysis.Fixpoint.Evaluation
import FlowAnalysis.Proofs.Contract

/-! # Slots before and after an evaluation

An evaluation is described by what it reads and what it writes: it merges what
stands in the slots on the incoming edges, hands the result to the node, and its
commit overwrites the slots of its own label only, by the facts that flow out.
Labels of a class are awakened only when the slot of that class is replaced.
-/
namespace FlowAnalysis
variable {S F : Type}

structure Flows.Fills (flows : Flows F) (g : FlowGraph S) : Prop where
  incoming : ∀ l ∈ g.nodes, l ∈ flows.incoming
  outgoing : ∀ k, ∀ l ∈ g.nodes, l ∈ flows.outgoing.get k

/-- Exactly the labels of the graph have slots. -/
structure Flows.Covers (flows : Flows F) (g : FlowGraph S) : Prop where
  incoming : ∀ l, l ∈ flows.incoming ↔ l ∈ g.nodes
  outgoing : ∀ k l, l ∈ flows.outgoing.get k ↔ l ∈ g.nodes

theorem Flows.Covers.fills {flows : Flows F} {g : FlowGraph S} (h : flows.Covers g) : flows.Fills g :=
  ⟨fun l => (h.incoming l).mpr, fun k l => (h.outgoing k l).mpr⟩

namespace Flows
variable {flows : Flows F} {g : FlowGraph S} {l : Label} {initial boundary : F}

theorem ext_get {a b : Flows F} (hin : a.incoming = b.incoming)
    (hout : ∀ k, a.outgoing.get k = b.outgoing.get k) : a = b := by
  have houtgoing := PerClass.ext_get hout
  cases a
  cases b
  simp_all

theorem getElem?_completeSlots {nodes : LabelMap (Node S)} {default : Label → F} {slots : LabelMap F} :
    (completeSlots nodes default slots)[l]? =
      nodes[l]?.map fun _ => slots[l]?.getD (default l) := by
  simp only [completeSlots, Std.ExtTreeMap.getElem?_map]

theorem get_complete_outgoing (k : EdgeClass) :
    (flows.complete g initial boundary).outgoing.get k =
      completeSlots g.nodes (fun _ => initial) (flows.outgoing.get k) := by
  simp only [complete, PerClass.get_map]

theorem covers_complete : (flows.complete g initial boundary).Covers g := by
  constructor
  · intro l
    simp only [complete, completeSlots, Std.ExtTreeMap.mem_map]
  · intro k l
    rw [get_complete_outgoing]
    simp only [completeSlots, Std.ExtTreeMap.mem_map]

end Flows

namespace Problem
variable {p : Problem S F} {flows : Flows F} {l : Label} {n : Node S} {xs : List F}

theorem getElem?_seeded_outgoing (k : EdgeClass) :
    (p.seeded.outgoing.get k)[l]? = if l ∈ p.graph.ids then some p.initial else none := by
  cases k <;> exact LabelMap.getElem?_const

/-- What stands in the slots on the edges into a node, in the order in which it is merged, and the
boundary at an entry. -/
def arriving (p : Problem S F) (flows : Flows F) (l : Label) (n : Node S) : List (Option F) :=
  (n.preds.notTaken.map fun q => flows.outgoing.notTaken[q]?) ++
    (n.preds.taken.map fun q => flows.outgoing.taken[q]?) ++
      if l ∈ p.graph.entries then [some p.boundary] else []

theorem mem_arriving {x : Option F} :
    x ∈ p.arriving flows l n ↔ (∃ k, ∃ q ∈ n.preds.get k, (flows.outgoing.get k)[q]? = x) ∨
      l ∈ p.graph.entries ∧ x = some p.boundary := by
  simp only [arriving, List.mem_append, List.mem_map]
  constructor
  · rintro ((⟨q, hq, hx⟩ | ⟨q, hq, hx⟩) | hx)
    · exact .inl ⟨.notTaken, q, hq, hx⟩
    · exact .inl ⟨.taken, q, hq, hx⟩
    · by_cases he : l ∈ p.graph.entries
      · exact .inr ⟨he, by simpa [he] using hx⟩
      · simp [he] at hx
  · rintro (⟨k, q, hq, hx⟩ | ⟨he, rfl⟩)
    · cases k
      · exact .inl (.inl ⟨q, hq, hx⟩)
      · exact .inl (.inr ⟨q, hq, hx⟩)
    · exact .inr (by simp [he])

theorem mem_of_arriving {x : F} (h : p.arriving flows l n = xs.map some) :
    some x ∈ p.arriving flows l n ↔ x ∈ xs := by
  rw [h, List.mem_map_of_injective (Option.some_injective F)]

theorem arriving_congr {flows' : Flows F}
    (h : ∀ k, ∀ q ∈ n.preds.get k, (flows.outgoing.get k)[q]? = (flows'.outgoing.get k)[q]?) :
    p.arriving flows l n = p.arriving flows' l n := by
  have hn := List.map_congr_left (h .notTaken)
  have ht := List.map_congr_left (h .taken)
  simp only [PerClass.get] at hn ht
  rw [arriving, arriving, hn, ht]

theorem gather_eq_ok_iff :
    p.gather flows l n = .ok xs ↔ p.arriving flows l n = xs.map some := by
  simp only [gather, Absent.bind_eq_ok_iff, Absent.pure_eq_ok_iff, Absent.mapM_fetch_eq_ok_iff,
    arriving, List.contains_iff_mem]
  constructor
  · rintro ⟨ys, hy, zs, hz, rfl⟩
    rw [hy, hz]
    split <;> simp
  · intro h
    obtain ⟨ws, bs, rfl, hw, hb⟩ := List.map_eq_append_iff.mp h.symm
    obtain ⟨ys, zs, rfl, hy, hz⟩ := List.map_eq_append_iff.mp hw
    refine ⟨ys, hy.symm, zs, hz.symm, ?_⟩
    congr 1
    split at hb
    · next he =>
      rw [if_pos he]
      cases bs with
      | nil => simp at hb
      | cons b bs => simp_all
    · next he =>
      rw [if_neg he]
      simp_all

theorem exists_arriving (hv : p.graph.Valid) (hc : flows.Fills p.graph)
    (hn : p.graph.nodes[l]? = some n) : ∃ xs : List F, p.arriving flows l n = xs.map some := by
  have hread : p.arriving flows l n ∈ Set.range (List.map (some : F → Option F)) := by
    rw [Set.range_list_map]
    intro x hx
    rcases mem_arriving.mp hx with ⟨k, q, hq, rfl⟩ | ⟨_, rfl⟩
    · obtain ⟨m, hm, _⟩ := hv.exists_pred hn hq
      obtain ⟨y, hy⟩ := LabelMap.exists_of_mem (hc.outgoing k q (LabelMap.mem_of_getElem? hm))
      exact ⟨y, hy.symm⟩
    · exact ⟨p.boundary, rfl⟩
  obtain ⟨xs, hxs⟩ := hread
  exact ⟨xs, hxs.symm⟩

end Problem

/-- Facts that compare equal are equal. A fact need not compare equal to itself. -/
def Discerning (F : Type) [BEq F] : Prop := ∀ {x y : F}, x == y → x = y

/-- The fact that comes last counts: what flows out replaces the slot, and the slot stays otherwise. -/
theorem Discerning.news_or [BEq F] (h : Discerning F) (slot outcome : Option F) :
    (news slot outcome).or slot = outcome.or slot := by
  cases outcome with
  | none => rfl
  | some x =>
    cases slot with
    | none => rfl
    | some y =>
      simp only [news]
      split
      · next he => rw [h he]; rfl
      · rfl

theorem news_or [BEq F] [LawfulBEq F] (slot outcome : Option F) :
    (news slot outcome).or slot = outcome.or slot := Discerning.news_or eq_of_beq slot outcome

/-- A fact that is equal to itself is no news when it flows out again, whatever the slot held before. -/
theorem news_of_written [BEq F] (slot : Option F) {outcome : Option F}
    (h : ∀ {x : F}, outcome = some x → x == x) : news ((news slot outcome).or slot) outcome = none := by
  cases outcome with
  | none => rfl
  | some x =>
    cases hn : news slot (some x) with
    | none => exact hn
    | some y =>
      simp only [news] at hn
      split at hn
      · cases hn
      · obtain rfl := Option.some.inj hn
        have hself : (some x == some x) = true := h rfl
        simp [news, hself]

theorem news_eq_some_iff [BEq F] [LawfulBEq F] {slot outcome : Option F} {x : F} :
    news slot outcome = some x ↔ outcome = some x ∧ slot ≠ some x := by
  cases outcome with
  | none => simp [news]
  | some y =>
    simp only [news]
    split
    · next h =>
      simp only [reduceCtorEq, false_iff, not_and, not_not]
      intro hy
      rw [← hy, eq_of_beq h]
    · next h =>
      refine ⟨fun hn => ⟨hn, ?_⟩, fun hn => hn.1⟩
      rintro rfl
      exact h (beq_iff_eq.mpr hn.symm)

namespace Evaluation
variable {e : Evaluation F} {flows : Flows F} {l : Label}

theorem getElem?_writeTo {slots : LabelMap F} {x : Option F} {m : Label} :
    (writeTo slots l x)[m]? = if l = m then x.or slots[m]? else slots[m]? := by
  cases x with
  | none => simp [writeTo]
  | some x => simp [writeTo, Std.ExtTreeMap.getElem?_insert]

theorem get_commit_outgoing (k : EdgeClass) :
    (e.commit flows).outgoing.get k = writeTo (flows.outgoing.get k) e.label (e.replaced.get k) := by
  cases k <;> rfl

theorem getElem?_commit_incoming :
    (e.commit flows).incoming[l]? = if e.label = l then some e.incoming else flows.incoming[l]? := by
  simp [commit, Std.ExtTreeMap.getElem?_insert]

theorem getElem?_commit_outgoing (k : EdgeClass) (l : Label) :
    ((e.commit flows).outgoing.get k)[l]? =
      (if e.label = l then e.replaced.get k else none).or (flows.outgoing.get k)[l]? := by
  rw [get_commit_outgoing, getElem?_writeTo]
  split <;> rfl

theorem getElem?_commit_outgoing_of_ne {k : EdgeClass} (h : e.label ≠ l) :
    ((e.commit flows).outgoing.get k)[l]? = (flows.outgoing.get k)[l]? := by
  rw [getElem?_commit_outgoing, if_neg h, Option.none_or]

theorem getElem?_commit_outgoing_cases {k : EdgeClass} {x : F}
    (h : ((e.commit flows).outgoing.get k)[l]? = some x) :
    (flows.outgoing.get k)[l]? = some x ∨ e.label = l ∧ e.replaced.get k = some x := by
  rw [getElem?_commit_outgoing, Option.or_eq_some_iff] at h
  rcases h with h | ⟨_, h⟩
  · right
    by_cases hl : e.label = l
    · exact ⟨hl, by simpa [hl] using h⟩
    · simp [hl] at h
  · exact .inl h

end Evaluation

/-- What an evaluation of a node has read and what it is about to write. -/
structure Problem.Evaluates [BEq F] (p : Problem S F) (tick : Nat) (flows : Flows F) (n : Node S)
    (e : Evaluation F) : Prop where
  node : p.graph.nodes[e.label]? = some n
  gathered : p.arriving flows e.label n = e.gathered.map some
  incoming : e.incoming = mergeAll p.merge p.initial e.gathered
  outcome : e.outcome = p.flow tick n e.incoming
  replaced : ∀ k, e.replaced.get k = news (flows.outgoing.get k)[e.label]? (e.outcome.get k)
  awakened : ∀ x, x ∈ e.awakened ↔ ∃ k, (e.replaced.get k).isSome ∧ x ∈ n.succs.get k

namespace Problem
variable [BEq F] {p : Problem S F} {tick : Nat} {flows : Flows F} {l : Label} {n : Node S}
  {e : Evaluation F}

theorem evaluates_of_evaluate (h : p.evaluate tick flows l = .ok e) :
    e.label = l ∧ ∃ n, p.Evaluates tick flows n e := by
  simp only [evaluate, Absent.bind_eq_ok_iff, Absent.pure_eq_ok_iff, LabelMap.fetch_eq_ok_iff,
    gather_eq_ok_iff] at h
  obtain ⟨n, hn, xs, hx, rfl⟩ := h
  refine ⟨rfl, n, hn, hx, rfl, rfl, fun k => by cases k <;> rfl, fun x => ?_⟩
  simp only [List.mem_flatMap, EdgeClass.mem_all, true_and]
  apply exists_congr
  intro k
  split
  · next hk => simp [hk]
  · next hk => simp [hk]

theorem exists_evaluate (hv : p.graph.Valid) (hc : flows.Fills p.graph) (hl : l ∈ p.graph.nodes)
    (tick : Nat) : ∃ e, p.evaluate tick flows l = .ok e := by
  obtain ⟨n, hn⟩ := LabelMap.exists_of_mem hl
  obtain ⟨xs, hx⟩ := exists_arriving hv hc hn
  simp only [evaluate, Absent.bind_eq_ok_iff, Absent.pure_eq_ok_iff, LabelMap.fetch_eq_ok_iff,
    gather_eq_ok_iff]
  exact ⟨_, n, hn, xs, hx, rfl⟩

namespace Evaluates

theorem covers_commit (h : p.Evaluates tick flows n e) (hc : flows.Covers p.graph) :
    (e.commit flows).Covers p.graph := by
  have hl := LabelMap.mem_of_getElem? h.node
  constructor
  · intro l
    simp only [Evaluation.commit, Std.ExtTreeMap.mem_insert, Std.compare_eq_iff_eq, hc.incoming]
    exact ⟨fun hm => hm.elim (fun he => he ▸ hl) id, .inr⟩
  · intro k l
    rw [Evaluation.get_commit_outgoing]
    cases e.replaced.get k with
    | none => exact hc.outgoing k l
    | some x =>
      simp only [Evaluation.writeTo, Std.ExtTreeMap.mem_insert, Std.compare_eq_iff_eq, hc.outgoing]
      exact ⟨fun hm => hm.elim (fun he => he ▸ hl) id, .inr⟩

theorem getElem?_commit_self [LawfulBEq F] (h : p.Evaluates tick flows n e) (k : EdgeClass) :
    ((e.commit flows).outgoing.get k)[e.label]? =
      (e.outcome.get k).or (flows.outgoing.get k)[e.label]? := by
  rw [Evaluation.getElem?_commit_outgoing, if_pos rfl, h.replaced, news_or]

/-- A slot of a class changes only if the class is awakened. -/
theorem getElem?_commit_of_not_awakened (h : p.Evaluates tick flows n e) {k : EdgeClass} {x : Label}
    (hx : x ∈ n.succs.get k) (ha : x ∉ e.awakened) (l : Label) :
    ((e.commit flows).outgoing.get k)[l]? = (flows.outgoing.get k)[l]? := by
  have hr : e.replaced.get k = none := by
    cases hr : e.replaced.get k with
    | none => rfl
    | some y => exact absurd ((h.awakened x).mpr ⟨k, by simp [hr], hx⟩) ha
  rw [Evaluation.get_commit_outgoing, hr]
  rfl

end Evaluates
end Problem
end FlowAnalysis
