import Mathlib.Data.List.Chain
import FlowAnalysis.Proofs.Simulation

/-! # Solving a growing problem in steps

A problem grows when labels, edges, entries, the boundary fact and the facts
that flow out only get larger. A post-solution of the larger problem is one of
the smaller problem, so that flows handed from one call to the next never rise
above the least solution of the last problem, wherever the calls have stopped.
-/
namespace FlowAnalysis
variable {S F : Type}

namespace Problem
variable {p p' : Problem S F} {q : Flows F}

/-- The second problem has everything that the first one has, and possibly more. -/
structure Grows (p p' : Problem S F) : Prop where
  merge : p'.merge = p.merge
  labels : ∀ l ∈ p.graph.nodes, l ∈ p'.graph.nodes
  edges : ∀ {k a b}, p.graph.HasEdge k a b → p'.graph.HasEdge k a b
  entries : ∀ l ∈ p.graph.entries, l ∈ p'.graph.entries
  boundary : Below p.merge p.boundary p'.boundary
  transfer : ∀ {l : Label} {n n' : Node S}, p.graph.nodes[l]? = some n →
    p'.graph.nodes[l]? = some n' → ∀ {k x a}, (p.transfer n x).get k = some a →
      ∃ b, (p'.transfer n' x).get k = some b ∧ Below p.merge a b

theorem Grows.simulatedBy (h : p.Grows p') : p.SimulatedBy p' (SharedIn {c | c ∈ p.graph.nodes}) where
  merge := h.merge
  boundary := h.boundary
  mem := by
    rintro c _ ⟨hc, rfl⟩ _
    exact h.labels c hc
  entry := by
    rintro c _ ⟨_, rfl⟩ he
    exact h.entries c he
  edge := by
    rintro k a c _ ⟨_, rfl⟩ he
    exact ⟨a, ⟨he.source_mem, rfl⟩, h.edges he⟩
  transfer := by
    rintro c _ n n' ⟨_, rfl⟩ hn hn'
    exact h.transfer hn hn'

/-- A post-solution of the larger problem is one of the smaller problem. -/
theorem Grows.postSolution (h : p.Grows p') (hv : p.graph.Valid) (hv' : p'.graph.Valid)
    (hm : p.IsMonotone) (hq : p'.PostSolution q) : p.PostSolution q := by
  have hnode : ∀ {l : Label} {n : Node S}, p.graph.nodes[l]? = some n →
      ∃ n', p'.graph.nodes[l]? = some n' := fun hn =>
    LabelMap.exists_of_mem (h.labels _ (LabelMap.mem_of_getElem? hn))
  have hself : q.OutgoingBelowAlong p.merge (SharedIn {c | c ∈ p.graph.nodes}) q := by
    rintro c _ ⟨_, rfl⟩ k x y hx hy
    exact Option.some.inj (hx.symm.trans hy) ▸ hm.semilattice.idem x
  refine ⟨⟨fun l hl => hq.fills.incoming l (h.labels l hl),
    fun k l hl => hq.fills.outgoing k l (h.labels l hl)⟩, ?_, ?_⟩
  · intro l n xs x hn hxs hx
    obtain ⟨n', hn'⟩ := hnode hn
    exact h.simulatedBy.mergeAll_below hv hv' hm hq hself ⟨LabelMap.mem_of_getElem? hn, rfl⟩ hn hn' hxs hx
  · intro l n k x y z hn hx hy hz
    obtain ⟨n', hn'⟩ := hnode hn
    obtain ⟨b, hb, hyb⟩ := h.transfer hn hn' hy
    have hbz := hq.outgoing hn' hx hb hz
    rw [h.merge] at hbz
    exact hm.semilattice.bounding.trans hyb hbz

theorem reaching_grows {g g' : FlowGraph Unit} {ls ls' : List Label} (hv : g.Valid) (hv' : g'.Valid)
    (hids : g.ids ⊆ g'.ids) (hedges : g.edges ⊆ g'.edges) (hentries : g.entries ⊆ g'.entries)
    (hls : ls ⊆ ls') : (reaching g ls).Grows (reaching g' ls') := by
  refine ⟨rfl, ?_, ?_, fun l hl => hentries hl, rfl, ?_⟩
  · intro l hl
    exact (hv'.mem_ids l).mp (hids ((hv.mem_ids l).mpr hl))
  · intro k a b h
    have hedge : (⟨a, b, k⟩ : Edge) ∈ g.edges := FlowGraph.mem_edges.mpr h
    exact FlowGraph.mem_edges.mp (hedges hedge)
  · intro l n n' hn hn' k x a ha
    have hlabel : n.label = n'.label := (hv.label_eq hn).trans (hv'.label_eq hn').symm
    cases k with
    | notTaken =>
      obtain rfl : (x || ls.contains n.label) = a := Option.some.inj ha
      refine ⟨x || ls'.contains n'.label, rfl, ?_⟩
      rw [← hlabel]
      by_cases hl : n.label ∈ ls
      · simp [reaching, Below, hl, hls hl]
      · simp [reaching, Below, hl]
    | taken => exact ⟨a, ha, Bool.or_self a⟩

end Problem

structure Call (S F : Type) where
  problem : Problem S F
  settings : Settings := {}
  steps : Nat

namespace Call
variable [BEq F] {q start : Flows F} {calls : List (Call S F)}

def report (c : Call S F) (flows : Flows F) : Report F (Flows F) :=
  c.problem.solve c.settings c.steps flows

/-- The flows after the calls have been made in turn, each one on the flows that the last one left. -/
def session (flows : Flows F) (calls : List (Call S F)) : Flows F :=
  calls.foldl (fun flows c => (c.report flows).flows) flows

structure Proper (c : Call S F) : Prop where
  accepted : c.problem.graph.violation? = .ok none
  monotone : c.problem.IsMonotone

omit [BEq F] in
theorem Proper.valid {c : Call S F} (h : c.Proper) : c.problem.graph.Valid :=
  FlowGraph.violation?_eq_ok_none_iff.mp h.accepted

omit [BEq F] in
theorem postSolution_of_last {last : Call S F} (hp : ∀ c ∈ calls ++ [last], c.Proper)
    (hg : (calls ++ [last]).IsChain fun a b => a.problem.Grows b.problem)
    (hq : last.problem.PostSolution q) :
    ∀ c ∈ calls ++ [last], c.problem.merge = last.problem.merge ∧ c.problem.PostSolution q := by
  induction calls with
  | nil => simpa using hq
  | cons a cs ih =>
    obtain ⟨hhead, htail⟩ := List.isChain_cons.mp hg
    have hrest := ih (fun c hc => hp c (List.mem_cons_of_mem _ hc)) htail
    obtain ⟨b, hb⟩ : ∃ b, (cs ++ [last]).head? = some b := by cases cs <;> simp
    have hmem := List.mem_of_head? hb
    have hgrow := hhead b hb
    intro c hc
    rcases List.mem_cons.mp hc with rfl | hc
    · have hproper := hp c List.mem_cons_self
      have hproper' := hp b (List.mem_cons_of_mem _ hmem)
      exact ⟨hgrow.merge.symm.trans (hrest b hmem).1,
        hgrow.postSolution hproper.valid hproper'.valid hproper.monotone (hrest b hmem).2⟩
    · exact hrest c hc

variable [LawfulBEq F]

theorem session_outgoingBelow {merge : F → F → F} (hp : ∀ c ∈ calls, c.Proper)
    (hq : ∀ c ∈ calls, c.problem.merge = merge ∧ c.problem.PostSolution q)
    (hb : start.OutgoingBelow merge q) : (session start calls).OutgoingBelow merge q := by
  induction calls generalizing start with
  | nil => exact hb
  | cons c cs ih =>
    obtain ⟨rfl, hpost⟩ := hq c List.mem_cons_self
    have hproper := hp c List.mem_cons_self
    have hnext := Problem.solve_outgoingBelow hproper.accepted hproper.monotone hpost c.settings
      c.steps hb
    exact ih (fun d hd => hp d (List.mem_cons_of_mem _ hd))
      (fun d hd => hq d (List.mem_cons_of_mem _ hd)) hnext

/-- Solving growing problems one after the other on the same flows, from empty ones, gives what
solving the last problem from scratch gives, in any visiting orders and under any bounds. Only the
last call has to settle; the earlier ones may stop anywhere. -/
theorem session_eq_analyze {last : Call S F} (hp : ∀ c ∈ calls ++ [last], c.Proper)
    (hg : (calls ++ [last]).IsChain fun a b => a.problem.Grows b.problem)
    (hlast : (last.report (session {} calls)).ending = .settled)
    {settings : Settings} {steps : Nat}
    (hscratch : (last.problem.analyze settings steps).ending = .settled) :
    session {} (calls ++ [last]) = (last.problem.analyze settings steps).flows := by
  have hproper := hp last (by simp)
  have hv := hproper.accepted
  have hm := hproper.monotone
  have hpost : last.problem.PostSolution (last.problem.analyze settings steps).flows :=
    Problem.solve_postSolution hv hm hscratch
  have hall := postSolution_of_last hp hg hpost
  have hempty : ({} : Flows F).OutgoingBelow last.problem.merge
      (last.problem.analyze settings steps).flows := by
    intro k l x y hx _
    cases k <;> simp [PerClass.get] at hx
  have hbelow := session_outgoingBelow (fun c hc => hp c (List.mem_append_left _ hc))
    (fun c hc => hall c (List.mem_append_left _ hc)) hempty
  have hsession : session {} (calls ++ [last]) = (last.report (session {} calls)).flows := by
    simp [session]
  rw [hsession]
  exact Flows.eq_of_below hm.semilattice
    (Problem.balanced_of_settled hv hm.steady hlast).1
    (Problem.balanced_of_settled hv hm.steady hscratch).1
    (Problem.solve_below hv hm hpost hlast hbelow)
    (Problem.solve_below hv hm (Problem.solve_postSolution hv hm hlast) hscratch
      (Problem.seeded_outgoingBelow hm))

/-- The loop without the way past it, given up on. -/
def halted : Call Unit Bool where
  problem := .reaching (.ofNodes [0] [
    { label := 0, succs := ⟨[1], []⟩, stmt := () },
    { label := 1, preds := ⟨[0], [1]⟩, succs := ⟨[], [1]⟩, stmt := () }]) [0]
  settings := { nodeLimit := 1 }
  steps := 20

def resumed : Call Unit Bool where
  problem := .reaching .loop [0, 1]
  steps := 20

theorem session_eq_analyze_reaching :
    (halted.report {}).ending = .gaveUp 1 ∧
    session {} [halted, resumed] = (resumed.problem.analyze { order := .label } 30).flows := by
  have hproper : ∀ c ∈ [halted] ++ [resumed], c.Proper := by
    intro c hc
    rcases List.mem_pair.mp hc with rfl | rfl
    · exact ⟨rfl, Problem.reaching_isMonotone _ _⟩
    · exact ⟨rfl, Problem.reaching_isMonotone _ _⟩
  have hgrows : halted.problem.Grows resumed.problem :=
    Problem.reaching_grows (hproper halted (by simp)).valid (hproper resumed (by simp)).valid
      (by decide) (by decide) (by decide) (by decide)
  have hchain : ([halted] ++ [resumed]).IsChain fun a b => a.problem.Grows b.problem :=
    List.isChain_pair.mpr hgrows
  exact ⟨by decide +kernel, session_eq_analyze hproper hchain (by decide +kernel) (by decide +kernel)⟩

end Call
end FlowAnalysis
