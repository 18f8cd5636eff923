import FlowAnalysis.Label

/-! # Nodes of a control flow graph

An edge leaves a branch either when the branch is taken or when it is not. A
path-sensitive node lists its neighbours per class of edges; a plain node knows
one class only and is read as a path-sensitive node without taken edges.
Reversing a node exchanges predecessors and successors inside each class.
-/
namespace FlowAnalysis

inductive EdgeClass where
  | notTaken
  | taken
  deriving DecidableEq, Repr

def EdgeClass.name : EdgeClass → String
  | .notTaken => "NotTaken"
  | .taken => "Taken"

/-- The classes in the order in which every listing goes through them. -/
def EdgeClass.all : List EdgeClass := [.notTaken, .taken]

theorem EdgeClass.mem_all (c : EdgeClass) : c ∈ EdgeClass.all := by cases c <;> simp [EdgeClass.all]

structure PerClass (α : Type) where
  notTaken : α
  taken : α
  deriving DecidableEq, Repr

namespace PerClass
variable {α β : Type}

instance [BEq α] : BEq (PerClass α) := ⟨fun p q => p.notTaken == q.notTaken && p.taken == q.taken⟩

def get (p : PerClass α) : EdgeClass → α
  | .notTaken => p.notTaken
  | .taken => p.taken

def modify (p : PerClass α) (c : EdgeClass) (f : α → α) : PerClass α :=
  match c with
  | .notTaken => { p with notTaken := f p.notTaken }
  | .taken => { p with taken := f p.taken }

def map (f : α → β) (p : PerClass α) : PerClass β := ⟨f p.notTaken, f p.taken⟩

@[ext] theorem ext_get {p q : PerClass α} (h : ∀ c, p.get c = q.get c) : p = q := by
  cases p
  cases q
  have hn : _ = _ := h .notTaken
  have ht : _ = _ := h .taken
  simp only [get] at hn ht
  rw [hn, ht]

@[simp] theorem get_modify (p : PerClass α) (c d : EdgeClass) (f : α → α) :
    (p.modify c f).get d = if c = d then f (p.get d) else p.get d := by
  cases c <;> cases d <;> simp [modify, get]

@[simp] theorem get_map (f : α → β) (p : PerClass α) (c : EdgeClass) :
    (p.map f).get c = f (p.get c) := by cases c <;> rfl

end PerClass

structure Node (S : Type) where
  label : Label
  preds : PerClass (List Label) := ⟨[], []⟩
  succs : PerClass (List Label) := ⟨[], []⟩
  stmt : S
  deriving DecidableEq, Repr

namespace Node
variable {S : Type}

theorem ext_get {m n : Node S} (hl : m.label = n.label) (hp : ∀ k, m.preds.get k = n.preds.get k)
    (hs : ∀ k, m.succs.get k = n.succs.get k) (ht : m.stmt = n.stmt) : m = n := by
  cases m
  cases n
  have hpreds : _ = _ := PerClass.ext_get hp
  have hsuccs : _ = _ := PerClass.ext_get hs
  simp only at hl hpreds hsuccs ht
  rw [hl, hpreds, hsuccs, ht]

/-- All labels that the node mentions: predecessors first, and of each the not-taken ones first. -/
def neighbours (n : Node S) : List Label :=
  n.preds.notTaken ++ n.preds.taken ++ n.succs.notTaken ++ n.succs.taken

def targets (n : Node S) : List Label := n.succs.notTaken ++ n.succs.taken

def sources (n : Node S) : List Label := n.preds.notTaken ++ n.preds.taken

def reverse (n : Node S) : Node S := { n with preds := n.succs, succs := n.preds }

@[simp] theorem reverse_reverse (n : Node S) : n.reverse.reverse = n := rfl

end Node

/-- A node that does not tell its edges apart. -/
structure PlainNode (S : Type) where
  label : Label
  preds : List Label := []
  succs : List Label := []
  stmt : S
  deriving DecidableEq, Repr

namespace PlainNode
variable {S : Type}

/-- The path-sensitive view: every edge is a not-taken one. -/
def classify (n : PlainNode S) : Node S :=
  { label := n.label, preds := ⟨n.preds, []⟩, succs := ⟨n.succs, []⟩, stmt := n.stmt }

def reverse (n : PlainNode S) : PlainNode S := { n with preds := n.succs, succs := n.preds }

@[simp] theorem reverse_reverse (n : PlainNode S) : n.reverse.reverse = n := rfl

@[simp] theorem classify_reverse (n : PlainNode S) : n.reverse.classify = n.classify.reverse := rfl

end PlainNode

namespace Node
variable {S : Type}

def plain (n : Node S) : PlainNode S :=
  { label := n.label, preds := n.preds.notTaken, succs := n.succs.notTaken, stmt := n.stmt }

@[simp] theorem plain_classify (n : PlainNode S) : n.classify.plain = n := rfl

end Node
end FlowAnalysis
