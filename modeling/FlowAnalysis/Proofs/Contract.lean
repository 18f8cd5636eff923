import Mathlib.Data.Finset.Dedup
import FlowAnalysis.Graph.Contract
import FlowAnalysis.Proofs.Lookup

/-! # What an accepted graph satisfies

The contract is stated as a proposition. Each of the five checks finds nothing
exactly when its clause holds, so a graph is accepted exactly when it is valid.
The last check is read under the fourth only, which keeps its look-ups inside
the graph.
-/
namespace FlowAnalysis
variable {S : Type}

theorem Node.mem_neighbours {n : Node S} {x : Label} :
    x ∈ n.neighbours ↔ ∃ k, x ∈ n.preds.get k ∨ x ∈ n.succs.get k := by
  simp only [Node.neighbours, List.mem_append]
  constructor
  · rintro (((h | h) | h) | h)
    · exact ⟨.notTaken, .inl h⟩
    · exact ⟨.taken, .inl h⟩
    · exact ⟨.notTaken, .inr h⟩
    · exact ⟨.taken, .inr h⟩
  · rintro ⟨k, h⟩
    cases k <;> rcases h with h | h <;> simp_all [PerClass.get]

namespace Mention

theorem mem_ofNode {l : Label} {n : Node S} {m : Mention} :
    m ∈ ofNode l n ↔ ∃ k, (∃ t ∈ n.succs.get k, m = ⟨l, t, k, .source⟩) ∨
      ∃ s ∈ n.preds.get k, m = ⟨s, l, k, .target⟩ := by
  simp only [ofNode, ofClass, List.mem_flatMap, List.mem_append, List.mem_map, EdgeClass.mem_all,
    true_and, eq_comm]

theorem answered_source {nodes : LabelMap (Node S)} {a b : Label} {k : EdgeClass} {n : Node S}
    (h : nodes[b]? = some n) :
    answered nodes ⟨a, b, k, .source⟩ = .ok ((n.preds.get k).contains a) := by
  simp only [answered, LabelMap.fetch_eq_ok_iff.mpr h]
  rfl

theorem answered_target {nodes : LabelMap (Node S)} {a b : Label} {k : EdgeClass} {n : Node S}
    (h : nodes[a]? = some n) :
    answered nodes ⟨a, b, k, .target⟩ = .ok ((n.succs.get k).contains b) := by
  simp only [answered, LabelMap.fetch_eq_ok_iff.mpr h]
  rfl

end Mention

/-- An edge of a graph, however often its ends list it. -/
structure Edge where
  source : Label
  target : Label
  cls : EdgeClass
  deriving DecidableEq

namespace FlowGraph
variable {g : FlowGraph S}

def HasEdge (g : FlowGraph S) (k : EdgeClass) (a b : Label) : Prop :=
  ∃ m, g.nodes[a]? = some m ∧ b ∈ m.succs.get k

theorem HasEdge.source_mem {k : EdgeClass} {a b : Label} (h : g.HasEdge k a b) : a ∈ g.nodes := by
  obtain ⟨m, hm, _⟩ := h
  exact LabelMap.mem_of_getElem? hm

/-- The contract between a graph and an analysis. -/
structure Valid (g : FlowGraph S) : Prop where
  mem_ids : ∀ l, l ∈ g.ids ↔ l ∈ g.nodes
  label_eq : ∀ {l : Label} {n : Node S}, g.nodes[l]? = some n → n.label = l
  entry_mem : ∀ {l : Label}, l ∈ g.entries → l ∈ g.ids
  neighbour_mem : ∀ {l : Label} {n : Node S}, g.nodes[l]? = some n → ∀ x ∈ n.neighbours, x ∈ g.ids
  symmetric : ∀ {a b : Label} {m n : Node S}, g.nodes[a]? = some m → g.nodes[b]? = some n →
    ∀ k, b ∈ m.succs.get k ↔ a ∈ n.preds.get k

theorem domainMismatch?_eq_none_iff :
    g.domainMismatch? = none ↔ ∀ l, l ∈ g.ids ↔ l ∈ g.nodes := by
  have hread : ∀ l, g.domain.contains l = g.nodes.contains l ↔ (l ∈ g.ids ↔ l ∈ g.nodes) := by
    intro l
    rw [Bool.eq_iff_iff, Std.ExtTreeSet.contains_iff_mem, Std.ExtTreeMap.contains_iff_mem, mem_domain]
  simp only [domainMismatch?, Option.map_eq_none_iff, List.find?_eq_none, bne_iff_ne, ne_eq,
    Decidable.not_not, hread]
  constructor
  · intro h l
    by_cases hl : l ∈ g.ids ∨ l ∈ g.nodes
    · exact h l (by simpa [Std.ExtTreeSet.mem_insertMany_list, mem_domain] using hl)
    · exact ⟨fun hi => absurd (.inl hi) hl, fun hn => absurd (.inr hn) hl⟩
  · exact fun h l _ => h l

theorem labelMismatch?_eq_none_iff :
    g.labelMismatch? = none ↔ ∀ (l : Label) (n : Node S), g.nodes[l]? = some n → n.label = l := by
  simp [labelMismatch?, List.find?_eq_none, Std.ExtTreeMap.mem_toList_iff_getElem?_eq_some]

theorem unknownEntry?_eq_none_iff : g.unknownEntry? = none ↔ ∀ l ∈ g.entries, l ∈ g.ids := by
  unfold unknownEntry?
  simp [List.find?_eq_none, mem_domain]

theorem danglingEdge?_eq_none_iff :
    g.danglingEdge? = none ↔
      ∀ (l : Label) (n : Node S), g.nodes[l]? = some n → ∀ x ∈ n.neighbours, x ∈ g.ids := by
  simp [danglingEdge?, List.findSome?_eq_none_iff, List.find?_eq_none, mem_domain,
    Std.ExtTreeMap.mem_toList_iff_getElem?_eq_some]

theorem mem_mentions {m : Mention} :
    m ∈ g.mentions ↔ ∃ (l : Label) (n : Node S), g.nodes[l]? = some n ∧ m ∈ Mention.ofNode l n := by
  simp [mentions, List.mem_flatMap, Std.ExtTreeMap.mem_toList_iff_getElem?_eq_some]

theorem asymmetricEdge?_eq_none_iff :
    g.asymmetricEdge? = .ok none ↔ ∀ m ∈ g.mentions, m.answered g.nodes = .ok true := by
  simp only [asymmetricEdge?, Absent.bind_eq_ok_iff, Absent.pure_eq_ok_iff, Option.map_eq_none_iff,
    exists_eq_right, Absent.findM?_eq_ok_none_iff, Bool.not_eq_eq_eq_not, Bool.not_false]

theorem exists_neighbour (hd : ∀ l, l ∈ g.ids ↔ l ∈ g.nodes)
    (hn : ∀ (l : Label) (n : Node S), g.nodes[l]? = some n → ∀ x ∈ n.neighbours, x ∈ g.ids)
    {l x : Label} {n : Node S} (hl : g.nodes[l]? = some n) (hx : x ∈ n.neighbours) :
    ∃ m, g.nodes[x]? = some m :=
  LabelMap.exists_of_mem ((hd x).mp (hn l n hl x hx))

theorem forall_answered_iff (hd : ∀ l, l ∈ g.ids ↔ l ∈ g.nodes)
    (hn : ∀ (l : Label) (n : Node S), g.nodes[l]? = some n → ∀ x ∈ n.neighbours, x ∈ g.ids) :
    (∀ m ∈ g.mentions, m.answered g.nodes = .ok true) ↔
      ∀ {a b : Label} {m n : Node S}, g.nodes[a]? = some m → g.nodes[b]? = some n →
        ∀ k, b ∈ m.succs.get k ↔ a ∈ n.preds.get k := by
  constructor
  · intro h a b m n ha hb k
    constructor
    · intro hm
      have hs := h ⟨a, b, k, .source⟩ (mem_mentions.mpr ⟨a, m, ha, Mention.mem_ofNode.mpr
        ⟨k, .inl ⟨b, hm, rfl⟩⟩⟩)
      rw [Mention.answered_source hb] at hs
      simpa using hs
    · intro hm
      have ht := h ⟨a, b, k, .target⟩ (mem_mentions.mpr ⟨b, n, hb, Mention.mem_ofNode.mpr
        ⟨k, .inr ⟨a, hm, rfl⟩⟩⟩)
      rw [Mention.answered_target ha] at ht
      simpa using ht
  · intro h m hm
    obtain ⟨l, n, hl, hm⟩ := mem_mentions.mp hm
    obtain ⟨k, ⟨t, ht, rfl⟩ | ⟨s, hs, rfl⟩⟩ := Mention.mem_ofNode.mp hm
    · obtain ⟨n', hn'⟩ := exists_neighbour hd hn hl (Node.mem_neighbours.mpr ⟨k, .inr ht⟩)
      rw [Mention.answered_source hn']
      simpa using (h hl hn' k).mp ht
    · obtain ⟨n', hn'⟩ := exists_neighbour hd hn hl (Node.mem_neighbours.mpr ⟨k, .inl hs⟩)
      rw [Mention.answered_target hn']
      simpa using (h hn' hl k).mpr hs

theorem violation?_eq_ok_none_iff : g.violation? = .ok none ↔ g.Valid := by
  have hsplit : g.violation? = .ok none ↔ g.domainMismatch? = none ∧ g.labelMismatch? = none ∧
      g.unknownEntry? = none ∧ g.danglingEdge? = none ∧ g.asymmetricEdge? = .ok none := by
    unfold violation?
    cases g.domainMismatch? <;> cases g.labelMismatch? <;> cases g.unknownEntry? <;>
      cases g.danglingEdge? <;> simp
  rw [hsplit, domainMismatch?_eq_none_iff, labelMismatch?_eq_none_iff, unknownEntry?_eq_none_iff,
    danglingEdge?_eq_none_iff, asymmetricEdge?_eq_none_iff]
  constructor
  · rintro ⟨hd, hl, he, hn, hs⟩
    exact ⟨hd, hl _ _, he _, hn _ _, (forall_answered_iff hd hn).mp hs⟩
  · intro h
    have hn := fun (l : Label) (n : Node S) => h.neighbour_mem (l := l) (n := n)
    exact ⟨h.mem_ids, fun _ _ => h.label_eq, fun _ => h.entry_mem, hn,
      (forall_answered_iff h.mem_ids hn).mpr h.symmetric⟩

namespace Valid
variable {l x : Label} {n : Node S} {k : EdgeClass}

theorem exists_pred (h : g.Valid) (hn : g.nodes[l]? = some n) (hx : x ∈ n.preds.get k) :
    g.HasEdge k x l := by
  have hmem := h.neighbour_mem hn x (Node.mem_neighbours.mpr ⟨k, .inl hx⟩)
  obtain ⟨m, hm⟩ := LabelMap.exists_of_mem ((h.mem_ids x).mp hmem)
  exact ⟨m, hm, (h.symmetric hm hn k).mpr hx⟩

theorem exists_succ (h : g.Valid) (hn : g.nodes[l]? = some n) (hx : x ∈ n.succs.get k) :
    ∃ m, g.nodes[x]? = some m ∧ l ∈ m.preds.get k := by
  have hmem := h.neighbour_mem hn x (Node.mem_neighbours.mpr ⟨k, .inr hx⟩)
  obtain ⟨m, hm⟩ := LabelMap.exists_of_mem ((h.mem_ids x).mp hmem)
  exact ⟨m, hm, (h.symmetric hn hm k).mp hx⟩

theorem succ_mem (h : g.Valid) (hn : g.nodes[l]? = some n) (hx : x ∈ n.succs.get k) : x ∈ g.nodes := by
  obtain ⟨m, hm, _⟩ := h.exists_succ hn hx
  exact LabelMap.mem_of_getElem? hm

theorem hasEdge_iff (h : g.Valid) (hn : g.nodes[l]? = some n) :
    g.HasEdge k x l ↔ x ∈ n.preds.get k :=
  ⟨fun ⟨_, hm, hk⟩ => (h.symmetric hm hn k).mp hk, h.exists_pred hn⟩

end Valid

def edges (g : FlowGraph S) : Finset Edge :=
  (g.nodes.toList.flatMap fun e => EdgeClass.all.flatMap fun k =>
    (e.2.succs.get k).map fun t => ⟨e.1, t, k⟩).toFinset

theorem mem_edges {d : Edge} :
    d ∈ g.edges ↔ g.HasEdge d.cls d.source d.target := by
  obtain ⟨a, b, k⟩ := d
  simp only [edges, HasEdge, List.mem_toFinset, List.mem_flatMap, List.mem_map, EdgeClass.mem_all,
    true_and, Prod.exists, Std.ExtTreeMap.mem_toList_iff_getElem?_eq_some, Edge.mk.injEq]
  constructor
  · rintro ⟨l, n, hn, c, t, ht, rfl, rfl, rfl⟩
    exact ⟨n, hn, ht⟩
  · rintro ⟨n, hn, hb⟩
    exact ⟨a, n, hn, k, b, hb, rfl, rfl, rfl⟩

def ofNodes (entries : List Label) (nodes : List (Node S)) : FlowGraph S where
  entries := entries
  ids := nodes.map (·.label)
  nodes := .ofList (nodes.map fun n => (n.label, n))

/-- A branch around a loop: the taken edge of the entry skips it, and its own taken edge repeats it. -/
def loop : FlowGraph Unit := ofNodes [0] [
  { label := 2, preds := ⟨[1], [0]⟩, stmt := () },
  { label := 0, succs := ⟨[1], [2]⟩, stmt := () },
  { label := 1, preds := ⟨[0], [1]⟩, succs := ⟨[2], [1]⟩, stmt := () }]

theorem loop_accepted : loop.violation? = .ok none := rfl

end FlowGraph
end FlowAnalysis
