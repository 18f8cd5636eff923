import FlowAnalysis.Proofs.Termination
import FlowAnalysis.Proofs.Updates

/-! # The same run over other facts

When facts are read through an injective function that respects merging and
flowing, a run of the one problem is a run of the other, evaluation by
evaluation. So a problem whose facts never leave some part of their type may be
studied over that part alone, where an order may have a bottom and a finite
height that it lacks elsewhere.
-/
namespace FlowAnalysis
variable {S F G : Type}

def LabelMap.mapFacts (φ : F → G) (slots : LabelMap F) : LabelMap G := slots.map fun _ x => φ x

def Flows.mapFacts (φ : F → G) (flows : Flows F) : Flows G :=
  ⟨flows.incoming.mapFacts φ, flows.outgoing.map (LabelMap.mapFacts φ)⟩

def Evaluation.mapFacts (φ : F → G) (e : Evaluation F) : Evaluation G :=
  { label := e.label
    gathered := e.gathered.map φ
    incoming := φ e.incoming
    outcome := e.outcome.map (Option.map φ)
    replaced := e.replaced.map (Option.map φ)
    awakened := e.awakened }

def State.mapFacts (φ : F → G) (s : State F) : State G :=
  { flows := s.flows.mapFacts φ
    worklist := s.worklist
    evaluations := s.evaluations.map (Evaluation.mapFacts φ) }

def Report.mapFacts (φ : F → G) (r : Report F (Flows F)) : Report G (Flows G) :=
  { ending := r.ending
    evaluations := r.evaluations.map (Evaluation.mapFacts φ)
    flows := r.flows.mapFacts φ }

variable {φ : F → G} {slots : LabelMap F} {l : Label} {x : F}

namespace LabelMap

@[simp] theorem getElem?_mapFacts : (slots.mapFacts φ)[l]? = slots[l]?.map φ :=
  Std.ExtTreeMap.getElem?_map

theorem mapFacts_insert : mapFacts φ (slots.insert l x) = (slots.mapFacts φ).insert l (φ x) :=
  map_insert l x

theorem foldl_insert_mapFacts (ls : List Label) : mapFacts φ (ls.foldl (fun m l => m.insert l x) slots) =
    ls.foldl (fun m l => m.insert l (φ x)) (slots.mapFacts φ) := by
  induction ls generalizing slots with
  | nil => rfl
  | cons l ls ih => rw [List.foldl_cons, List.foldl_cons, ih, mapFacts_insert]

theorem const_mapFacts (ls : List Label) : (const ls x).mapFacts φ = const ls (φ x) := by
  apply Std.ExtTreeMap.ext_getElem?
  intro l
  simp only [getElem?_mapFacts, getElem?_const]
  split <;> rfl

theorem fetch_mapFacts : (slots.mapFacts φ).fetch l = (slots.fetch l).map φ := by
  unfold fetch
  rw [getElem?_mapFacts]
  cases slots[l]? <;> rfl

theorem mapM_fetch_mapFacts (ls : List Label) :
    (ls.mapM fun l => (slots.mapFacts φ).fetch l) = (ls.mapM fun l => slots.fetch l).map (List.map φ) := by
  induction ls with
  | nil => rfl
  | cons l ls ih =>
    rw [List.mapM_cons, List.mapM_cons, ih, fetch_mapFacts]
    cases slots.fetch l with
    | error => rfl
    | ok => cases ls.mapM fun l => slots.fetch l <;> rfl

end LabelMap

namespace Flows

theorem completeSlots_mapFacts {nodes : LabelMap (Node S)} {default : Label → F} :
    (completeSlots nodes default slots).mapFacts φ =
      completeSlots nodes (fun l => φ (default l)) (slots.mapFacts φ) := by
  apply Std.ExtTreeMap.ext_getElem?
  intro l
  simp only [getElem?_completeSlots, LabelMap.getElem?_mapFacts, Option.map_map]
  cases slots[l]? <;> rfl

theorem complete_mapFacts {flows : Flows F} {g : FlowGraph S} {initial boundary : F} :
    (flows.complete g initial boundary).mapFacts φ =
      (flows.mapFacts φ).complete g (φ initial) (φ boundary) := by
  simp only [complete, mapFacts, PerClass.map, completeSlots_mapFacts, apply_ite φ]

theorem seeded_mapFacts {entries ids : List Label} {initial boundary : F} :
    (seeded entries ids initial boundary).mapFacts φ = seeded entries ids (φ initial) (φ boundary) := by
  simp only [seeded, mapFacts, PerClass.map, LabelMap.foldl_insert_mapFacts, LabelMap.const_mapFacts]

end Flows

theorem news_map [BEq F] [LawfulBEq F] [BEq G] [LawfulBEq G] (hφ : φ.Injective) (slot outcome : Option F) :
    news (slot.map φ) (outcome.map φ) = (news slot outcome).map φ := by
  cases outcome with
  | none => rfl
  | some x =>
    have hsame : (slot.map φ == some (φ x)) = (slot == some x) := by
      rw [Bool.eq_iff_iff, beq_iff_eq, beq_iff_eq]
      exact (Option.map_injective hφ).eq_iff (b := some x)
    simp only [news, Option.map_some, hsame]
    split <;> rfl

theorem Evaluation.commit_mapFacts (e : Evaluation F) (flows : Flows F) :
    (e.commit flows).mapFacts φ = (e.mapFacts φ).commit (flows.mapFacts φ) := by
  have hwrite : ∀ (slots : LabelMap F) (x : Option F),
      (writeTo slots e.label x).mapFacts φ = writeTo (slots.mapFacts φ) e.label (x.map φ) := by
    intro slots x
    cases x with
    | none => rfl
    | some x => exact LabelMap.mapFacts_insert
  simp only [commit, Flows.mapFacts, Evaluation.mapFacts, PerClass.map, hwrite, LabelMap.mapFacts_insert]

namespace Problem

/-- The evaluation of a node where these facts have been gathered. -/
def evaluationOf [BEq F] (p : Problem S F) (tick : Nat) (flows : Flows F) (l : Label) (n : Node S)
    (gathered : List F) : Evaluation F :=
  let incoming := mergeAll p.merge p.initial gathered
  let outcome := p.flow tick n incoming
  let replaced : PerClass (Option F) :=
    { notTaken := news flows.outgoing.notTaken[l]? outcome.notTaken
      taken := news flows.outgoing.taken[l]? outcome.taken }
  let awakened := EdgeClass.all.flatMap fun c =>
    if (replaced.get c).isSome then n.succs.get c else []
  { label := l, gathered, incoming, outcome, replaced, awakened }

theorem evaluate_eq [BEq F] (p : Problem S F) (tick : Nat) (flows : Flows F) (l : Label) :
    p.evaluate tick flows l = (do
      let n ← p.graph.nodes.fetch l
      let gathered ← p.gather flows l n
      return p.evaluationOf tick flows l n gathered) := rfl

/-- What is said of facts of the one problem is said in the other by their images. -/
structure Embeds (p : Problem S F) (q : Problem S G) (φ : F → G) : Prop where
  injective : φ.Injective
  graph : q.graph = p.graph
  merge : ∀ x y, φ (p.merge x y) = q.merge (φ x) (φ y)
  flow : ∀ {l : Label} {n : Node S}, p.graph.nodes[l]? = some n → ∀ tick x,
    (p.flow tick n x).map (Option.map φ) = q.flow tick n (φ x)
  initial : φ p.initial = q.initial
  boundary : φ p.boundary = q.boundary

variable {p : Problem S F} {q : Problem S G} {flows : Flows F}

namespace Embeds

theorem gather (h : p.Embeds q φ) (n : Node S) :
    q.gather (flows.mapFacts φ) l n = (p.gather flows l n).map (List.map φ) := by
  simp only [Problem.gather, Flows.mapFacts, PerClass.map, LabelMap.mapM_fetch_mapFacts, h.graph,
    ← h.boundary]
  cases n.preds.notTaken.mapM fun q => flows.outgoing.notTaken.fetch q with
  | error => rfl
  | ok =>
    cases n.preds.taken.mapM fun q => flows.outgoing.taken.fetch q with
    | error => rfl
    | ok =>
      refine congrArg Except.ok ?_
      simp only [List.map_append, List.append_cancel_left_eq]
      split <;> rfl

theorem start (h : p.Embeds q φ) (order : VisitOrder) (flows : Flows F) :
    q.start order (flows.mapFacts φ) = (p.start order flows).map (State.mapFacts φ) := by
  simp only [Problem.start, h.graph]
  cases Worklist.ofGraph order p.graph with
  | error => rfl
  | ok w =>
    simp only [bind, Except.bind]
    cases w.extend p.graph.ids with
    | mk w failed => cases failed <;> simp [Except.map, State.mapFacts]

variable [BEq F] [LawfulBEq F] [BEq G] [LawfulBEq G]

theorem evaluationOf (h : p.Embeds q φ) {n : Node S} (hn : p.graph.nodes[l]? = some n) (tick : Nat)
    (flows : Flows F) (gathered : List F) :
    q.evaluationOf tick (flows.mapFacts φ) l n (gathered.map φ) =
      (p.evaluationOf tick flows l n gathered).mapFacts φ := by
  have hin : mergeAll q.merge q.initial (gathered.map φ) = φ (mergeAll p.merge p.initial gathered) := by
    rw [map_mergeAll h.merge, h.initial]
  simp only [Problem.evaluationOf, Evaluation.mapFacts, hin, ← h.flow hn, Flows.mapFacts, PerClass.map,
    LabelMap.getElem?_mapFacts, news_map h.injective]
  congr 2
  funext c
  exact if_congr (by cases c <;> simp [PerClass.get]) rfl rfl

theorem evaluate (h : p.Embeds q φ) (tick : Nat) (flows : Flows F) (l : Label) :
    q.evaluate tick (flows.mapFacts φ) l = (p.evaluate tick flows l).map (Evaluation.mapFacts φ) := by
  rw [evaluate_eq, evaluate_eq, h.graph]
  cases hn : p.graph.nodes.fetch l with
  | error => rfl
  | ok n =>
    simp only [bind, Except.bind, h.gather]
    cases p.gather flows l n with
    | error => rfl
    | ok gathered =>
      exact congrArg Except.ok (h.evaluationOf (LabelMap.fetch_eq_ok_iff.mp hn) tick flows gathered)

theorem step (h : p.Embeds q φ) (bound : Nat) (s : State F) :
    q.step bound (s.mapFacts φ) = (p.step bound s).map (State.mapFacts φ) id := by
  have hsize : (s.mapFacts φ).evaluations.size = s.evaluations.size := Array.size_map
  simp only [Problem.step, hsize]
  cases hp : s.worklist.pop? with
  | none => simp [State.mapFacts, hp]
  | some top =>
    simp only [State.mapFacts, hp, h.evaluate]
    split
    · rfl
    cases p.evaluate (s.evaluations.size + 1) s.flows top.1 with
    | error => rfl
    | ok e =>
      have hawake : (e.mapFacts φ).awakened = e.awakened := rfl
      simp only [Except.map, hawake]
      cases top.2.extend e.awakened with
      | mk worklist failed =>
        cases failed with
        | none => simp only [Prod.map, id, State.mapFacts, Evaluation.commit_mapFacts, Array.map_push]
        | some => rfl

theorem run (h : p.Embeds q φ) (bound steps : Nat) (s : State F) :
    q.run bound steps (s.mapFacts φ) = (p.run bound steps s).mapFacts φ := by
  induction steps generalizing s with
  | zero => rfl
  | succ steps ih =>
    rw [Problem.run, Problem.run, h.step]
    cases p.step bound s with
    | mk t ending =>
      cases ending with
      | none => exact ih t
      | some => rfl

/-- The run over the images is the image of the run. -/
theorem solve (h : p.Embeds q φ) (settings : Settings) (steps : Nat) (flows : Flows F) :
    q.solve settings steps (flows.mapFacts φ) = (p.solve settings steps flows).mapFacts φ := by
  unfold Problem.solve
  rw [h.graph]
  cases p.graph.violation? with
  | error => simp [Report.mapFacts]
  | ok v =>
    cases v with
    | some v => simp [Report.mapFacts]
    | none =>
      simp only [← h.initial, ← h.boundary, ← Flows.complete_mapFacts, h.start]
      cases p.start settings.order (flows.complete p.graph p.initial p.boundary) with
      | error => simp [Except.map, Report.mapFacts]
      | ok s => exact h.run _ steps s

theorem analyze (h : p.Embeds q φ) (settings : Settings) (steps : Nat) :
    q.analyze settings steps = (p.analyze settings steps).mapFacts φ := by
  have hseeded : q.seeded = p.seeded.mapFacts φ := by
    rw [Problem.seeded, Problem.seeded, h.graph, ← h.initial, ← h.boundary, Flows.seeded_mapFacts]
  rw [Problem.analyze, hseeded, h.solve, Problem.analyze]

end Embeds

/-- The facts of a run never leave a part of their type. -/
structure Within (p : Problem S F) (among : F → Prop) : Prop where
  initial : among p.initial
  boundary : among p.boundary
  merge : ∀ {x y : F}, among x → among y → among (p.merge x y)
  flow : ∀ {l : Label} {n : Node S}, p.graph.nodes[l]? = some n → ∀ {tick : Nat} {k : EdgeClass} {x y : F},
    among x → (p.flow tick n x).get k = some y → among y

namespace Within
variable {among : F → Prop} [DecidablePred among]

/-- The problem over these facts alone. -/
def problem (h : p.Within among) : Problem S { x : F // among x } where
  graph := p.graph
  merge x y := ⟨p.merge x.1 y.1, h.merge x.2 y.2⟩
  flow tick n x := (p.flow tick n x.1).map fun o =>
    o.bind fun y => if hy : among y then some ⟨y, hy⟩ else none
  initial := ⟨p.initial, h.initial⟩
  boundary := ⟨p.boundary, h.boundary⟩

theorem embeds (h : p.Within among) : h.problem.Embeds p Subtype.val where
  injective := Subtype.val_injective
  graph := rfl
  merge _ _ := rfl
  flow := fun {l n} hn tick x => by
    refine PerClass.ext_get fun k => ?_
    simp only [problem, PerClass.get_map]
    cases hy : (p.flow tick n x.1).get k with
    | none => rfl
    | some y => simp [h.flow hn x.2 hy]
  initial := rfl
  boundary := rfl

theorem get_flow_eq_some_iff (h : p.Within among) {n : Node S} (hn : p.graph.nodes[l]? = some n) {tick : Nat}
    {k : EdgeClass} {x y : { x : F // among x }} :
    (h.problem.flow tick n x).get k = some y ↔ (p.flow tick n x.1).get k = some y.1 := by
  rw [← h.embeds.flow hn, PerClass.get_map]
  exact (Option.map_injective Subtype.val_injective).eq_iff.symm

theorem among_slot [DecidableEq F] (h : p.Within among) {settings : Settings} {steps : Nat} {k : EdgeClass}
    (hx : ((p.analyze settings steps).flows.outgoing.get k)[l]? = some x) : among x := by
  rw [h.embeds.analyze] at hx
  simp only [Report.mapFacts, Flows.mapFacts, PerClass.get_map, LabelMap.getElem?_mapFacts] at hx
  obtain ⟨y, _, rfl⟩ := Option.map_eq_some_iff.mp hx
  exact y.2

/-- Monotonicity counts among these facts only. -/
theorem isMonotone (h : p.Within among) (hf : p.Steady) (hm : Semilattice h.problem.merge)
    (h0 : ∀ x, among x → Below p.merge p.initial x)
    (hup : ∀ {l : Label} {n : Node S}, p.graph.nodes[l]? = some n → ∀ {k x y a}, among x → among y →
      Below p.merge x y → (p.transfer n x).get k = some a →
        ∃ b, (p.transfer n y).get k = some b ∧ Below p.merge a b) : h.problem.IsMonotone := by
  refine ⟨fun tick => ?_, hm, fun x => Subtype.ext (h0 x.1 x.2), ?_⟩
  · funext n x
    simp only [problem, hf tick]
  · intro l n hn k x y a hxy ha
    obtain ⟨b, hb, hab⟩ := hup hn x.2 y.2 (Subtype.ext_iff.mp hxy) ((h.get_flow_eq_some_iff hn).mp ha)
    exact ⟨⟨b, h.flow hn y.2 hb⟩, (h.get_flow_eq_some_iff hn).mpr hb, Subtype.ext hab⟩

/-- Finite height counts among these facts only. -/
theorem settles [DecidableEq F] (h : p.Within among) (hv : p.graph.violation? = .ok none)
    (hm : h.problem.IsMonotone) {height : Nat} (hh : HeightAtMost h.problem.merge height)
    {settings : Settings} (hlimit : settings.nodeLimit = 0) {steps : Nat}
    (hsteps : p.graph.nodes.size + height * p.graph.edges.card < steps) :
    (p.analyze settings steps).ending = .settled := by
  rw [h.embeds.analyze]
  obtain ⟨s, t, ending, hs, hr, hrun, hend⟩ :=
    solve_reaches (p := h.problem) hv settings steps h.problem.seeded
  have hle := hr.evaluations_le (FlowGraph.violation?_eq_ok_none_iff.mp hv) hm hh hs
  have hanalyze : (h.problem.analyze settings steps).ending = ending := congrArg Report.ending hrun
  refine hanalyze.trans ?_
  cases hend with
  | settled => rfl
  | gaveUp _ hbound _ => simp [Settings.bound, hlimit] at hbound
  | unfinished hsize =>
    have hmost : t.evaluations.size + t.worklist.size ≤
      p.graph.nodes.size + height * p.graph.edges.card := hle
    omega

end Within
end Problem

namespace PlainProblem
variable {p : PlainProblem S F} {among : F → Prop}

theorem forward_within (h0 : among p.initial) (hb : among p.boundary)
    (hmerge : ∀ {x y}, among x → among y → among (p.merge x y))
    (hflow : ∀ {l : Label} {n : PlainNode S}, p.nodes[l]? = some n → ∀ {tick x}, among x →
      among (p.flow tick n x)) : p.forward.Within among where
  initial := h0
  boundary := hb
  merge := hmerge
  flow := fun {l n} hn {tick k x y} hx hy => by
    obtain ⟨m, hm, rfl⟩ := LabelMap.getElem?_map_eq_some_iff.mp hn
    cases k with
    | taken => cases hy
    | notTaken => exact Option.some.inj hy ▸ hflow hm hx

theorem forward_isMonotone [DecidablePred among] (h : p.forward.Within among) (hf : p.forward.Steady)
    (hm : Semilattice h.problem.merge) (h0 : ∀ x, among x → Below p.merge p.initial x)
    (hup : ∀ {l : Label} {n : PlainNode S}, p.nodes[l]? = some n → ∀ {x y}, among x → among y →
      Below p.merge x y → Below p.merge (p.flow 0 n x) (p.flow 0 n y)) : h.problem.IsMonotone := by
  refine h.isMonotone hf hm h0 ?_
  intro l n hn k x y a hx hy hxy ha
  obtain ⟨m, hm, rfl⟩ := LabelMap.getElem?_map_eq_some_iff.mp hn
  cases k with
  | taken => cases ha
  | notTaken => exact ⟨_, rfl, Option.some.inj ha ▸ hup hm hx hy hxy⟩

end PlainProblem
end FlowAnalysis
