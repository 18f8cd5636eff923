import FlowAnalysis.Proofs.Reversal

/-! # Building the mirror image

A plain graph may be reversed at any time while it is built. If the ends of each
edge that is added are exchanged, the reverse of the graph comes out: a step on
one side goes with the flipped step on the other, at the level of the drafts,
where reversing does nothing but to turn the edges of the log around. Which step
fails is the same too, only of two ends that are absent the other one is named.
-/
namespace FlowAnalysis
variable {S : Type}

/-- The step with the ends of its edge exchanged. -/
def Edit.flip : Edit S → Edit S
  | .addEdge a b k => .addEdge b a k
  | e => e

@[simp] theorem Edit.flip_flip (e : Edit S) : e.flip.flip = e := by cases e <;> rfl

namespace Draft
variable {d : Draft S} {l a b : Label} {s : S} {k : EdgeClass}

@[simp] theorem flip_flip : d.flip.flip = d := by simp [flip, Function.comp_def]

@[simp] theorem flip_empty : ({} : Draft S).flip = {} := rfl

@[simp] theorem flip_stmts : d.flip.stmts = d.stmts := rfl

@[simp] theorem flip_nextLabel : d.flip.nextLabel = d.nextLabel := rfl

theorem flip_place : d.flip.place l s = (d.place l s).flip := by
  simp only [flip, place, List.filter_map, Function.comp_def, and_comm]

theorem flip_connect : d.flip.connect b a k = (d.connect a b k).flip := by simp [flip, connect]

/-- On the reversed draft the flipped step leads to the reverse, and it fails where the step fails. -/
theorem perform_flip (d : Draft S) (e : Edit S) :
    (d.flip.perform e.flip).2 = (d.perform e).2.flip ∧
      (d.flip.perform e.flip).1.toOption = (d.perform e).1.toOption := by
  cases e with
  | addNode s => exact ⟨flip_place, rfl⟩
  | insertNode l s => exact ⟨flip_place, rfl⟩
  | addEdge a b k =>
    simp only [Edit.flip, perform, flip_stmts]
    by_cases ha : a ∈ d.stmts <;> by_cases hb : b ∈ d.stmts <;>
      simp [ha, hb, flip_connect, Except.toOption]

end Draft

namespace PlainGraph

/-- A step in building a graph that may be reversed as a whole in between. -/
inductive Step (S : Type) where
  | edit (e : Edit S)
  | reverse
  deriving DecidableEq, Repr

def Step.flip : Step S → Step S
  | .edit e => .edit e.flip
  | .reverse => .reverse

@[simp] theorem Step.flip_flip (s : Step S) : s.flip.flip = s := by cases s <;> simp [flip]

def take (g : PlainGraph S) : Step S → Reply × PlainGraph S
  | .edit e => g.perform e
  | .reverse => (.ok none, g.reverse)

/-- Takes steps one after the other and collects what they answer. A step that fails is passed over. -/
def takeAll (g : PlainGraph S) : List (Step S) → List Reply × PlainGraph S
  | [] => ([], g)
  | s :: steps =>
    let (reply, g) := g.take s
    let (replies, g) := takeAll g steps
    (reply :: replies, g)

/-- The second graph is the reverse of the first, and the steps that led there have been answered in
the same way. -/
structure Mirrored (r r' : List Reply × PlainGraph S) : Prop where
  graph : r'.2 = r.2.reverse
  replies : r'.1.map Except.toOption = r.1.map Except.toOption

variable {g : PlainGraph S}

theorem reverse_empty : reverse (.empty : PlainGraph S) = .empty := by
  rw [← Draft.plainGraph_empty, ← Draft.plainGraph_flip, Draft.flip_empty]

theorem Reachable.reverse_reverse (hg : g.Reachable) : g.reverse.reverse = g := by
  obtain ⟨d, _, rfl⟩ := hg.exists_draft
  rw [← Draft.plainGraph_flip, ← Draft.plainGraph_flip, Draft.flip_flip]

theorem Reachable.take (hg : g.Reachable) (s : Step S) : (g.take s).2.Reachable := by
  cases s with
  | edit e => exact hg.perform e
  | reverse => exact hg.reverse

theorem Reachable.takeAll (hg : g.Reachable) (steps : List (Step S)) : (g.takeAll steps).2.Reachable := by
  induction steps generalizing g with
  | nil => exact hg
  | cons s steps ih => exact ih (hg.take s)

theorem Reachable.take_flip (hg : g.Reachable) (s : Step S) :
    (g.reverse.take s.flip).2 = (g.take s).2.reverse ∧
      (g.reverse.take s.flip).1.toOption = (g.take s).1.toOption := by
  obtain ⟨d, hd, rfl⟩ := hg.exists_draft
  cases s with
  | reverse => exact ⟨rfl, rfl⟩
  | edit e =>
    obtain ⟨hdraft, hreply⟩ := d.perform_flip e
    simp only [Step.flip, PlainGraph.take, ← Draft.plainGraph_flip, perform_plainGraph hd,
      perform_plainGraph hd.flip, Prod.map, id, hdraft]
    exact ⟨trivial, hreply⟩

theorem Reachable.takeAll_flip (hg : g.Reachable) (steps : List (Step S)) :
    Mirrored (g.takeAll steps) (g.reverse.takeAll (steps.map .flip)) := by
  induction steps generalizing g with
  | nil => exact ⟨rfl, rfl⟩
  | cons s steps ih =>
    obtain ⟨hgraph, hreply⟩ := hg.take_flip s
    obtain ⟨hrest, hreplies⟩ := ih (hg.take s)
    rw [← hgraph] at hrest hreplies
    exact ⟨hrest, congrArg₂ List.cons hreply hreplies⟩

/-- Whatever has been built, with reversals in between, its reverse is what comes out when every edge is
added the other way around. Reversing twice brings the graph back, and to go on after a reversal is to
go on with flipped edges and to reverse last. -/
theorem takeAll_mirrored (steps : List (Step S)) :
    let g : PlainGraph S := (takeAll .empty steps).2
    Mirrored (takeAll .empty steps) (takeAll .empty (steps.map .flip)) ∧
    g.reverse.reverse = g ∧
    ∀ later, Mirrored (g.takeAll (later.map .flip)) (g.reverse.takeAll later) := by
  intro g
  have hempty : Mirrored _ (takeAll _ (steps.map .flip)) := Reachable.empty.takeAll_flip steps
  rw [reverse_empty] at hempty
  have hg : g.Reachable := Reachable.empty.takeAll steps
  refine ⟨hempty, hg.reverse_reverse, fun later => ?_⟩
  have hlater := hg.takeAll_flip (later.map .flip)
  simpa [Function.comp_def] using hlater

/-- Both ends are absent, and exchanged it is the other one that is named. -/
example : (takeAll (.empty : PlainGraph Unit) [.edit (.addEdge 3 4 .taken)]).1 = [.error ⟨4⟩] ∧
    (takeAll (.empty : PlainGraph Unit) [.edit (.addEdge 4 3 .taken)]).1 = [.error ⟨3⟩] := ⟨rfl, rfl⟩

end PlainGraph
end FlowAnalysis
