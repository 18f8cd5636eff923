import Mathlib.Order.Bounds.Defs
import FlowAnalysis.Proofs.Contract

/-! # Which violation is reported

Each of the five conditions of the contract is a proposition of its own. A graph
is accepted if all of them hold. If not, the violation that is reported speaks
of the first condition that fails, and the check of that condition has gone
through its candidates in order: ascending labels, the entries as they are
listed, the neighbours of a node list by list. The look-ups of the last check
succeed under the earlier conditions, so there is always an answer.
-/
namespace FlowAnalysis
variable {S : Type}

/-- The member of a list that has a property that none before it has. -/
def IsFirst {α : Type} (P : α → Prop) (xs : List α) (x : α) : Prop :=
  ∃ before after, xs = before ++ x :: after ∧ P x ∧ ∀ y ∈ before, ¬ P y

namespace IsFirst
variable {α β : Type} {P : α → Prop} {xs : List α} {x y : α}

theorem of_find? {p : α → Bool} (h : xs.find? p = some x) : IsFirst (fun y => p y = true) xs x := by
  obtain ⟨hx, before, after, hxs, hb⟩ := List.find?_eq_some_iff_append.mp h
  exact ⟨before, after, hxs, hx, fun y hy => by simpa using hb y hy⟩

theorem of_findSome? {f : α → Option β} {b : β} (h : xs.findSome? f = some b) :
    ∃ x, IsFirst (fun y => f y ≠ none) xs x ∧ f x = some b := by
  obtain ⟨before, x, after, hxs, hx, hb⟩ := List.findSome?_eq_some_iff.mp h
  exact ⟨x, ⟨before, after, hxs, by simp [hx], fun y hy => by simp [hb y hy]⟩, hx⟩

theorem mem (h : IsFirst P xs x) : x ∈ xs := by
  obtain ⟨before, after, rfl, _, _⟩ := h
  simp

theorem holds (h : IsFirst P xs x) : P x := by
  obtain ⟨_, _, _, hx, _⟩ := h
  exact hx

/-- In an ascending list the first member with a property is the smallest one. -/
theorem le_of_ascending (h : IsFirst P xs x) (key : α → Label)
    (hxs : xs.Pairwise fun a b => compare (key a) (key b) = .lt) (hy : y ∈ xs) (hP : P y) :
    key x ≤ key y := by
  obtain ⟨before, after, rfl, _, hb⟩ := h
  rcases List.mem_append.mp hy with hy | hy
  · exact absurd hP (hb y hy)
  rcases List.mem_cons.mp hy with rfl | hy
  · exact UInt64.le_refl _
  · have hlt := (List.pairwise_cons.mp (List.pairwise_append.mp hxs).2.1).1 y hy
    exact UInt64.le_of_lt (Std.compare_eq_lt.mp hlt)

end IsFirst

namespace Absent
variable {α : Type} {f : α → Except Absent Bool} {xs : List α}

theorem exists_findM? (h : ∀ x ∈ xs, ∃ b, f x = .ok b) : ∃ r, xs.findM? f = .ok r := by
  induction xs with
  | nil => exact ⟨none, rfl⟩
  | cons x xs ih =>
    obtain ⟨hx, hxs⟩ := List.forall_mem_cons.mp h
    obtain ⟨b, hb⟩ := hx
    simp only [List.findM?, hb]
    cases b
    · exact ih hxs
    · exact ⟨some x, rfl⟩

theorem of_findM?_eq_some {x : α} (h : xs.findM? f = .ok (some x)) : x ∈ xs ∧ f x = .ok true := by
  induction xs with
  | nil => simp [List.findM?, pure_eq_ok_iff] at h
  | cons y ys ih =>
    obtain ⟨b, hb, h⟩ := bind_eq_ok_iff.mp h
    cases b
    · exact (ih h).imp_left (List.mem_cons_of_mem y)
    · obtain rfl := Option.some.inj (pure_eq_ok_iff.mp h)
      exact ⟨List.mem_cons_self, hb⟩

end Absent

namespace FlowGraph
variable {g : FlowGraph S} {v : Violation}

/-- The listed labels are the labels of the nodes. -/
def Agrees (g : FlowGraph S) : Prop := ∀ l, l ∈ g.ids ↔ l ∈ g.nodes

def SelfLabelled (g : FlowGraph S) : Prop :=
  ∀ (l : Label) (n : Node S), g.nodes[l]? = some n → n.label = l

def EntriesInside (g : FlowGraph S) : Prop := ∀ l ∈ g.entries, l ∈ g.ids

def EdgesInside (g : FlowGraph S) : Prop :=
  ∀ (l : Label) (n : Node S), g.nodes[l]? = some n → ∀ x ∈ n.neighbours, x ∈ g.ids

/-- The target lists the edge among those that lead to it. -/
def HasBackEdge (g : FlowGraph S) (k : EdgeClass) (a b : Label) : Prop :=
  ∃ n, g.nodes[b]? = some n ∧ a ∈ n.preds.get k

def EdgesMirrored (g : FlowGraph S) : Prop := ∀ k a b, g.HasEdge k a b ↔ g.HasBackEdge k a b

/-- The violation speaks of the first condition that fails, and of the first place where it fails.
Of several edges that only one end lists any may be named. -/
inductive FirstViolation (g : FlowGraph S) : Violation → Prop
  | domainMismatch {l : Label} : IsLeast {l | Xor (l ∈ g.ids) (l ∈ g.nodes)} l →
      FirstViolation g (.domainMismatch l)
  | labelMismatch {l : Label} {n : Node S} : g.Agrees → g.nodes[l]? = some n →
      IsLeast {l | ∃ n, g.nodes[l]? = some n ∧ n.label ≠ l} l →
      FirstViolation g (.labelMismatch l n.label)
  | unknownEntry {l : Label} : g.Agrees → g.SelfLabelled → IsFirst (· ∉ g.ids) g.entries l →
      FirstViolation g (.unknownEntry l)
  | danglingEdge {l t : Label} {n : Node S} : g.Agrees → g.SelfLabelled → g.EntriesInside →
      g.nodes[l]? = some n → IsLeast {l | ∃ n, g.nodes[l]? = some n ∧ ∃ x ∈ n.neighbours, x ∉ g.ids} l →
      IsFirst (· ∉ g.ids) n.neighbours t → FirstViolation g (.danglingEdge l t)
  | asymmetricEdge {a b : Label} {k : EdgeClass} : g.Agrees → g.SelfLabelled → g.EntriesInside →
      g.EdgesInside → Xor (g.HasEdge k a b) (g.HasBackEdge k a b) →
      FirstViolation g (.asymmetricEdge a b k)

theorem valid_iff : g.Valid ↔
    g.Agrees ∧ g.SelfLabelled ∧ g.EntriesInside ∧ g.EdgesInside ∧ g.EdgesMirrored := by
  constructor
  · intro h
    refine ⟨h.mem_ids, fun _ _ => h.label_eq, fun _ => h.entry_mem, fun _ _ => h.neighbour_mem, ?_⟩
    intro k a b
    constructor
    · rintro ⟨m, hm, hb⟩
      exact h.exists_succ hm hb
    · rintro ⟨n, hn, ha⟩
      exact h.exists_pred hn ha
  · rintro ⟨ha, hl, he, hn, hs⟩
    refine ⟨ha, hl _ _, he _, hn _ _, ?_⟩
    intro a b m n hm hb k
    constructor
    · intro hsucc
      obtain ⟨n', hn', hp⟩ := (hs k a b).mp ⟨m, hm, hsucc⟩
      rwa [Option.some.inj (hb.symm.trans hn')]
    · intro hpred
      obtain ⟨m', hm', hq⟩ := (hs k a b).mpr ⟨n, hb, hpred⟩
      rwa [Option.some.inj (hm.symm.trans hm')]

theorem firstViolation_of_domainMismatch? (h : g.domainMismatch? = some v) : g.FirstViolation v := by
  obtain ⟨l, hl, rfl⟩ := Option.map_eq_some_iff.mp h
  have hxor : ∀ x, (g.domain.contains x != g.nodes.contains x) = true ↔
      Xor (x ∈ g.ids) (x ∈ g.nodes) := by
    intro x
    rw [bne_iff_ne, ne_eq, Bool.eq_iff_iff, Std.ExtTreeSet.contains_iff_mem,
      Std.ExtTreeMap.contains_iff_mem, mem_domain, xor_iff_not_iff]
  have hfirst := IsFirst.of_find? hl
  refine .domainMismatch ⟨(hxor l).mp hfirst.holds, fun x hx => ?_⟩
  refine hfirst.le_of_ascending (fun x => x) Std.ExtTreeSet.ordered_toList ?_ ((hxor x).mpr hx)
  rcases hx with ⟨hi, _⟩ | ⟨hn, _⟩
  · simp [Std.ExtTreeSet.mem_insertMany_list, mem_domain, hi]
  · simp [Std.ExtTreeSet.mem_insertMany_list, hn]

theorem firstViolation_of_labelMismatch? (ha : g.Agrees) (h : g.labelMismatch? = some v) :
    g.FirstViolation v := by
  obtain ⟨⟨l, n⟩, hl, rfl⟩ := Option.map_eq_some_iff.mp h
  have hfirst := IsFirst.of_find? hl
  have hn := Std.ExtTreeMap.mem_toList_iff_getElem?_eq_some.mp hfirst.mem
  have hne : n.label ≠ l := by simpa using hfirst.holds
  refine .labelMismatch ha hn ⟨⟨n, hn, hne⟩, ?_⟩
  rintro x ⟨m, hm, hx⟩
  exact hfirst.le_of_ascending Prod.fst Std.ExtTreeMap.ordered_keys_toList
    (Std.ExtTreeMap.mem_toList_iff_getElem?_eq_some.mpr hm) (bne_iff_ne.mpr hx)

theorem firstViolation_of_unknownEntry? (ha : g.Agrees) (hl : g.SelfLabelled)
    (h : g.unknownEntry? = some v) : g.FirstViolation v := by
  obtain ⟨l, hfind, rfl⟩ := Option.map_eq_some_iff.mp h
  refine .unknownEntry ha hl ?_
  simpa [mem_domain] using IsFirst.of_find? hfind

theorem firstViolation_of_danglingEdge? (ha : g.Agrees) (hl : g.SelfLabelled) (he : g.EntriesInside)
    (h : g.danglingEdge? = some v) : g.FirstViolation v := by
  obtain ⟨⟨l, n⟩, hfirst, hv⟩ := IsFirst.of_findSome? h
  obtain ⟨t, ht, rfl⟩ := Option.map_eq_some_iff.mp hv
  have hn := Std.ExtTreeMap.mem_toList_iff_getElem?_eq_some.mp hfirst.mem
  have hoffends : IsFirst (· ∉ g.ids) n.neighbours t := by
    simpa [mem_domain] using IsFirst.of_find? ht
  refine .danglingEdge ha hl he hn ⟨⟨n, hn, t, hoffends.mem, hoffends.holds⟩, ?_⟩ hoffends
  rintro x ⟨m, hm, y, hy, hout⟩
  refine hfirst.le_of_ascending Prod.fst Std.ExtTreeMap.ordered_keys_toList
    (Std.ExtTreeMap.mem_toList_iff_getElem?_eq_some.mpr hm) ?_
  simpa [mem_domain] using ⟨y, hy, hout⟩

/-- The other end of every edge has a node, so it can be asked. -/
theorem exists_answered (ha : g.Agrees) (hn : g.EdgesInside) {m : Mention} (hm : m ∈ g.mentions) :
    ∃ b, m.answered g.nodes = .ok b := by
  obtain ⟨l, n, hl, hm⟩ := mem_mentions.mp hm
  obtain ⟨k, ⟨t, ht, rfl⟩ | ⟨s, hs, rfl⟩⟩ := Mention.mem_ofNode.mp hm
  · obtain ⟨n', hn'⟩ := exists_neighbour ha hn hl (Node.mem_neighbours.mpr ⟨k, .inr ht⟩)
    exact ⟨_, Mention.answered_source hn'⟩
  · obtain ⟨n', hn'⟩ := exists_neighbour ha hn hl (Node.mem_neighbours.mpr ⟨k, .inl hs⟩)
    exact ⟨_, Mention.answered_target hn'⟩

/-- An edge that is not answered stands at one end only. -/
theorem xor_of_not_answered {m : Mention} (hm : m ∈ g.mentions) (h : m.answered g.nodes = .ok false) :
    Xor (g.HasEdge m.cls m.source m.target) (g.HasBackEdge m.cls m.source m.target) := by
  obtain ⟨l, n, hl, hm⟩ := mem_mentions.mp hm
  obtain ⟨k, ⟨t, ht, rfl⟩ | ⟨s, hs, rfl⟩⟩ := Mention.mem_ofNode.mp hm
  · refine .inl ⟨⟨n, hl, ht⟩, ?_⟩
    rintro ⟨m, hm, hp⟩
    rw [Mention.answered_source hm] at h
    exact absurd hp (by simpa using h)
  · refine .inr ⟨⟨n, hl, hs⟩, ?_⟩
    rintro ⟨m, hm, hs⟩
    rw [Mention.answered_target hm] at h
    exact absurd hs (by simpa using h)

theorem exists_asymmetricEdge? (ha : g.Agrees) (hn : g.EdgesInside) :
    ∃ r, g.asymmetricEdge? = .ok r := by
  have hasked : ∀ m ∈ g.mentions, ∃ b, (do return !(← m.answered g.nodes)) = Except.ok b := by
    intro m hm
    obtain ⟨b, hb⟩ := exists_answered ha hn hm
    exact ⟨!b, by rw [hb]; rfl⟩
  obtain ⟨r, hr⟩ := Absent.exists_findM? hasked
  exact ⟨r.map Mention.violation, by rw [asymmetricEdge?, hr]; rfl⟩

theorem firstViolation_of_asymmetricEdge? (ha : g.Agrees) (hl : g.SelfLabelled) (he : g.EntriesInside)
    (hn : g.EdgesInside) (h : g.asymmetricEdge? = .ok (some v)) : g.FirstViolation v := by
  obtain ⟨r, hr, hv⟩ := Absent.bind_eq_ok_iff.mp h
  obtain ⟨m, rfl, rfl⟩ := Option.map_eq_some_iff.mp (Absent.pure_eq_ok_iff.mp hv)
  obtain ⟨hm, hfound⟩ := Absent.of_findM?_eq_some hr
  obtain ⟨b, hb, hnot⟩ := Absent.bind_eq_ok_iff.mp hfound
  obtain rfl : b = false := by simpa using Absent.pure_eq_ok_iff.mp hnot
  exact .asymmetricEdge ha hl he hn (xor_of_not_answered hm hb)

/-- Checking a graph gives an answer, and a violation that it names is the first one. -/
theorem exists_violation? (g : FlowGraph S) :
    ∃ r, g.violation? = .ok r ∧ ∀ v, r = some v → g.FirstViolation v := by
  unfold violation?
  cases hd : g.domainMismatch? with
  | some v => exact ⟨some v, rfl, fun _ hv => firstViolation_of_domainMismatch? (hd.trans hv)⟩
  | none =>
  have ha : g.Agrees := domainMismatch?_eq_none_iff.mp hd
  cases hl : g.labelMismatch? with
  | some v => exact ⟨some v, rfl, fun _ hv => firstViolation_of_labelMismatch? ha (hl.trans hv)⟩
  | none =>
  have hl : g.SelfLabelled := labelMismatch?_eq_none_iff.mp hl
  cases he : g.unknownEntry? with
  | some v => exact ⟨some v, rfl, fun _ hv => firstViolation_of_unknownEntry? ha hl (he.trans hv)⟩
  | none =>
  have he : g.EntriesInside := unknownEntry?_eq_none_iff.mp he
  cases hn : g.danglingEdge? with
  | some v => exact ⟨some v, rfl, fun _ hv => firstViolation_of_danglingEdge? ha hl he (hn.trans hv)⟩
  | none =>
  have hn : g.EdgesInside := danglingEdge?_eq_none_iff.mp hn
  obtain ⟨r, hr⟩ := exists_asymmetricEdge? ha hn
  refine ⟨r, hr, ?_⟩
  rintro v rfl
  exact firstViolation_of_asymmetricEdge? ha hl he hn hr

/-- A graph is accepted exactly when it meets all five conditions. Otherwise the violation that is
reported is the first one. -/
theorem violation?_decides (g : FlowGraph S) :
    (g.violation? = .ok none ↔
      g.Agrees ∧ g.SelfLabelled ∧ g.EntriesInside ∧ g.EdgesInside ∧ g.EdgesMirrored) ∧
    (g.violation? = .ok none ∨ ∃ v, g.violation? = .ok (some v) ∧ g.FirstViolation v) := by
  refine ⟨violation?_eq_ok_none_iff.trans valid_iff, ?_⟩
  obtain ⟨r, hr, hfirst⟩ := g.exists_violation?
  cases r with
  | none => exact .inl hr
  | some v => exact .inr ⟨v, hr, hfirst v rfl⟩

-- The edge leads nowhere as well, but entries are checked before edges.
example : (ofNodes [7] [{ label := 0, succs := ⟨[1], []⟩, stmt := () }]).violation? =
    .ok (some (.unknownEntry 7)) := rfl

end FlowGraph
end FlowAnalysis
