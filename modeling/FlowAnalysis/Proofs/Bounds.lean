import FlowAnalysis.Fixpoint.Failure
import FlowAnalysis.Fixpoint.Log
import FlowAnalysis.Proofs.LeastSolution

/-! # A bound cuts a run short and does nothing else

The bound is looked at between two evaluations only. As long as fewer have been
made, a run under a bound takes the turns that a run without one takes. When so
many have been made it comes to its end, and it says that it gives up exactly
when labels are queued then. Nothing is assumed of the problem, which may even
change as the run goes on.
-/
namespace FlowAnalysis
variable {S F : Type}

theorem Settings.bound_lt (settings : Settings) (size : Nat) : settings.bound size < UInt64.size :=
  Nat.lt_succ_of_le (Nat.min_le_right _ _)

theorem Settings.bound_ne_zero {settings : Settings} {size : Nat} (hk : settings.nodeLimit ≠ 0)
    (hs : size ≠ 0) : settings.bound size ≠ 0 := by
  have hmost : maxCount ≠ 0 := by decide
  have hprod := Nat.mul_ne_zero hk hs
  rw [bound]
  omega

/-- The same settings, and any number of evaluations. -/
def Settings.unbounded (settings : Settings) : Settings := { settings with nodeLimit := 0 }

theorem Settings.bound_unbounded (settings : Settings) (size : Nat) :
    settings.unbounded.bound size = 0 := by simp [unbounded, bound]

namespace Problem
variable [BEq F] {p : Problem S F} {s t : State F} {bound m steps : Nat} {ending : Ending}

/-- The state that so many turns of the loop lead to, and how the run has ended if it has. -/
def advance (p : Problem S F) (bound : Nat) : Nat → State F → State F × Option Ending
  | 0, s => (s, none)
  | steps + 1, s =>
    match p.step bound s with
    | (t, none) => p.advance bound steps t
    | (t, some ending) => (t, some ending)

theorem run_eq_advance (p : Problem S F) (bound steps : Nat) (s : State F) :
    p.run bound steps s = ⟨(p.advance bound steps s).2.getD .unfinished,
      (p.advance bound steps s).1.evaluations, (p.advance bound steps s).1.flows⟩ := by
  induction steps generalizing s with
  | zero => rfl
  | succ steps ih =>
    rw [run, advance]
    rcases p.step bound s with ⟨t, _ | ending⟩
    · exact ih t
    · rfl

theorem eq_of_step_some (h : p.step bound s = (t, some ending)) : t = s := by
  unfold step at h
  split at h
  · exact (congrArg Prod.fst h).symm
  split at h
  · exact (congrArg Prod.fst h).symm
  split at h
  · exact (congrArg Prod.fst h).symm
  split at h
  · exact (congrArg Prod.fst h).symm
  · cases h

theorem evaluations_of_step_none (h : p.step bound s = (t, none)) :
    (∃ e, t.evaluations = s.evaluations.push e) ∧ (bound = 0 ∨ s.evaluations.size < bound) := by
  unfold step at h
  split at h
  · cases h
  split at h
  · cases h
  next hb =>
  split at h
  · cases h
  next e _ =>
  split at h
  · cases h
  · obtain rfl := congrArg Prod.fst h
    exact ⟨⟨e, rfl⟩, by omega⟩

theorem size_of_step_none (h : p.step bound s = (t, none)) :
    t.evaluations.size = s.evaluations.size + 1 := by
  obtain ⟨⟨e, he⟩, _⟩ := evaluations_of_step_none h
  rw [he, Array.size_push]

/-- Before so many evaluations have been made, a bound does not show. -/
theorem step_eq_of_lt (h : s.evaluations.size < bound) : p.step bound s = p.step 0 s := by
  have hbound : ¬(bound ≠ 0 ∧ bound ≤ s.evaluations.size) := by omega
  have hzero : ¬((0 : Nat) ≠ 0 ∧ 0 ≤ s.evaluations.size) := by omega
  simp only [step, if_neg hbound, if_neg hzero]

theorem step_of_empty (h : s.worklist.size = 0) : p.step bound s = (s, some .settled) := by
  simp only [step, Worklist.pop?_eq_none_iff.mpr h]

theorem step_of_bound_le (h0 : s.worklist.size ≠ 0) (hb : bound ≠ 0) (hle : bound ≤ s.evaluations.size) :
    p.step bound s = (s, some (.gaveUp s.worklist.size)) := by
  cases hp : s.worklist.pop? with
  | none => exact absurd (Worklist.pop?_eq_none_iff.mp hp) h0
  | some top => simp only [step, hp, if_pos (And.intro hb hle)]

theorem size_advance_le_bound (hb : bound ≠ 0) (hs : s.evaluations.size ≤ bound) :
    (p.advance bound steps s).1.evaluations.size ≤ bound := by
  induction steps generalizing s with
  | zero => exact hs
  | succ steps ih =>
    rw [advance]
    rcases hstep : p.step bound s with ⟨t, _ | ending⟩
    · have hlt := (evaluations_of_step_none hstep).2.resolve_left hb
      exact ih (size_of_step_none hstep ▸ hlt)
    · obtain rfl := eq_of_step_some hstep
      exact hs

/-- A bound of zero stands for none, and is given to an empty graph, where nothing is queued. -/
theorem size_run_le_bound (hempty : s.evaluations.size = 0) (hb : s.worklist.size ≠ 0 → bound ≠ 0) :
    (p.run bound steps s).evaluations.size ≤ bound := by
  have hle : s.evaluations.size ≤ bound := hempty.le.trans (Nat.zero_le _)
  rw [run_eq_advance]
  by_cases h0 : s.worklist.size = 0
  · cases steps with
    | zero => exact hle
    | succ steps =>
      rw [advance, step_of_empty h0]
      exact hle
  · exact size_advance_le_bound (hb h0) hle

theorem advance_eq_of_le (h : s.evaluations.size + steps ≤ bound) :
    p.advance bound steps s = p.advance 0 steps s := by
  induction steps generalizing s with
  | zero => rfl
  | succ steps ih =>
    rw [advance, advance, step_eq_of_lt (by omega)]
    rcases hstep : p.step 0 s with ⟨t, _ | ending⟩
    · have hsize := size_of_step_none hstep
      exact ih (by omega)
    · rfl

theorem advance_add (h : p.advance bound m s = (t, none)) (steps : Nat) :
    p.advance bound (m + steps) s = p.advance bound steps t := by
  induction m generalizing s with
  | zero =>
    obtain rfl : s = t := congrArg Prod.fst h
    rw [Nat.zero_add]
  | succ m ih =>
    rw [Nat.add_right_comm, advance]
    rw [advance] at h
    rcases hstep : p.step bound s with ⟨u, _ | ending⟩
    · rw [hstep] at h
      exact ih h
    · rw [hstep] at h
      cases h

/-- A run that has ended made so many turns, and the next one was its last. -/
theorem exists_last_turn (h : p.advance bound steps s = (t, some ending)) :
    ∃ m, m < steps ∧ t.evaluations.size = s.evaluations.size + m ∧
      p.advance bound m s = (t, none) ∧ p.step bound t = (t, some ending) := by
  induction steps generalizing s with
  | zero => cases h
  | succ steps ih =>
    rw [advance] at h
    rcases hstep : p.step bound s with ⟨u, _ | e⟩
    · rw [hstep] at h
      obtain ⟨m, hm, hsize, hadvance, hlast⟩ := ih h
      have hone := size_of_step_none hstep
      exact ⟨m + 1, by omega, by omega, by simp only [advance, hstep, hadvance], hlast⟩
    · rw [hstep] at h
      obtain rfl := eq_of_step_some hstep
      cases h
      exact ⟨0, by omega, rfl, rfl, hstep⟩

theorem advance_of_last_turn (h : p.advance bound m s = (t, none))
    (hlast : p.step bound t = (t, some ending)) (hlt : m < steps) :
    p.advance bound steps s = (t, some ending) := by
  obtain ⟨n, rfl⟩ := Nat.exists_eq_add_of_lt hlt
  rw [Nat.add_assoc, advance_add h, advance, hlast]

theorem evaluations_advance (p : Problem S F) (bound steps : Nat) (s : State F) :
    s.evaluations.toList <+: (p.advance bound steps s).1.evaluations.toList := by
  induction steps generalizing s with
  | zero => exact ⟨[], List.append_nil _⟩
  | succ steps ih =>
    rw [advance]
    rcases hstep : p.step bound s with ⟨t, _ | ending⟩
    · obtain ⟨⟨e, he⟩, _⟩ := evaluations_of_step_none hstep
      obtain ⟨es, hes⟩ := ih t
      exact ⟨e :: es, by rw [← hes, he]; simp⟩
    · obtain rfl := eq_of_step_some hstep
      exact ⟨[], List.append_nil _⟩

/-- On a valid graph a run without a bound ends only when nothing is queued. -/
theorem advance_zero_cases (hv : p.graph.Valid) (hs : s.Sound p.graph) {e : Option Ending}
    (h : p.advance 0 steps s = (t, e)) : t.Sound p.graph ∧
      (e = none ∧ t.evaluations.size = s.evaluations.size + steps ∨
        e = some .settled ∧ t.worklist.size = 0) := by
  induction steps generalizing s with
  | zero =>
    cases h
    exact ⟨hs, .inl ⟨rfl, rfl⟩⟩
  | succ steps ih =>
    rw [advance] at h
    rcases step_cases hv hs 0 with ⟨h0, hstep⟩ | ⟨_, hb, _⟩ | ⟨u, n, e', ha, hstep⟩
    · rw [hstep] at h
      cases h
      exact ⟨hs, .inr ⟨rfl, h0⟩⟩
    · exact absurd rfl hb
    · rw [hstep] at h
      obtain ⟨ht, hcase⟩ := ih (ha.sound hv hs) h
      refine ⟨ht, hcase.imp_left fun ⟨he, hsize⟩ => ⟨he, ?_⟩⟩
      have hone := size_of_step_none hstep
      omega

theorem run_eq_of_settled (hv : p.graph.Valid) (hs : s.Sound p.graph) (hempty : s.evaluations.size = 0)
    (h : (p.run 0 steps s).ending = .settled) (hle : (p.run 0 steps s).evaluations.size ≤ bound)
    {steps' : Nat} (hlt : (p.run 0 steps s).evaluations.size < steps') :
    p.run bound steps' s = p.run 0 steps s := by
  rcases hadvance : p.advance 0 steps s with ⟨t, e⟩
  simp only [run_eq_advance, hadvance] at h hle hlt ⊢
  obtain ⟨_, ⟨rfl, _⟩ | ⟨rfl, h0⟩⟩ := advance_zero_cases hv hs hadvance
  · cases h
  · obtain ⟨m, _, hsize, hturns, _⟩ := exists_last_turn hadvance
    have hbound : p.advance bound m s = (t, none) := (advance_eq_of_le (by omega)).trans hturns
    rw [advance_of_last_turn hbound (step_of_empty h0) (by omega)]

/-- A run that does not settle within the bound comes to its end in the state in which the bound
strikes. -/
theorem exists_cut (hv : p.graph.Valid) (hs : s.Sound p.graph) (hempty : s.evaluations.size = 0)
    (hb : s.worklist.size ≠ 0 → bound ≠ 0)
    (h : ∀ steps, (p.run 0 steps s).ending = .settled → bound < (p.run 0 steps s).evaluations.size) :
    ∃ t, p.advance 0 bound s = (t, none) ∧ t.evaluations.size = bound ∧ t.Sound p.graph ∧
      ∀ steps, bound < steps → p.advance bound steps s = (t, some (.gaveUp t.worklist.size)) := by
  have hsettled : ∀ {n t}, p.advance 0 n s = (t, some .settled) → bound < t.evaluations.size := by
    intro n t hn
    have hrun := h n
    rw [run_eq_advance, hn] at hrun
    exact hrun rfl
  rcases hadvance : p.advance 0 bound s with ⟨t, e⟩
  obtain ⟨ht, ⟨rfl, hsize⟩ | ⟨rfl, _⟩⟩ := advance_zero_cases hv hs hadvance
  · have hqueued : t.worklist.size ≠ 0 := by
      intro h0
      have hlt := hsettled (advance_of_last_turn hadvance (step_of_empty h0) (Nat.lt_succ_self bound))
      omega
    have hne : bound ≠ 0 := by
      rintro rfl
      obtain rfl : s = t := congrArg Prod.fst hadvance
      exact hb hqueued rfl
    have hturns : p.advance bound bound s = (t, none) := (advance_eq_of_le (by omega)).trans hadvance
    exact ⟨t, rfl, by omega, ht, fun steps =>
      advance_of_last_turn hturns (step_of_bound_le hqueued hne (by omega))⟩
  · obtain ⟨m, hm, hsize, _⟩ := exists_last_turn hadvance
    have hlt := hsettled hadvance
    omega

/-- Solving goes on from a sound state with all labels queued, whatever the bound. -/
theorem exists_start_of_accepted (hv : p.graph.violation? = .ok none) (order : VisitOrder)
    (start : Flows F) :
    ∃ s, p.start order (start.complete p.graph p.initial p.boundary) = .ok s ∧ p.Starts start s ∧
      ∀ settings : Settings, settings.order = order → ∀ steps, p.solve settings steps start =
        p.run (settings.bound p.graph.nodes.size) steps s := by
  obtain ⟨s, hs, hstart⟩ := exists_start (FlowGraph.violation?_eq_ok_none_iff.mp hv) order start
  refine ⟨s, hs, hstart, ?_⟩
  rintro settings rfl steps
  simp only [solve, hv, hs]

end Problem

/-- The run has been cut short in this state: it has given up, and it says how many evaluations have
been made and how many labels are queued. -/
structure Report.CutShort (r : Report F (Flows F)) (t : State F) : Prop where
  evaluations : r.evaluations = t.evaluations
  flows : r.flows = t.flows
  failure : r.failure? = some (.diverged t.evaluations.size)
  closing : ∃ queued : Finset Label, (∀ l, l ∈ queued ↔ t.worklist.contains l) ∧
    r.closing = [.gaveUp t.evaluations.size queued.card]

theorem State.Sound.cutShort {t : State F} {g : FlowGraph S} (h : t.Sound g) :
    Report.CutShort ⟨.gaveUp t.worklist.size, t.evaluations, t.flows⟩ t := by
  refine ⟨rfl, rfl, rfl, t.worklist.labels.toFinset, fun l => ?_, ?_⟩
  · rw [List.mem_toFinset]
    exact h.ranked.mem_labels
  · rw [h.ranked.card_labels]
    rfl

namespace Problem
variable [BEq F] {p : Problem S F}

/-- A run under a bound is a run without one up to so many evaluations. If that one settles by then,
with the last evaluation that is allowed at the latest, both leave the same report. Otherwise the run
is cut short in the state that so many evaluations lead to, and never makes another one. -/
theorem solve_bounded (hv : p.graph.violation? = .ok none) (settings : Settings)
    (hk : settings.nodeLimit ≠ 0) (start : Flows F) :
    let most := settings.bound p.graph.nodes.size
    let bounded := fun steps => p.solve settings steps start
    let unbounded := fun steps => p.solve settings.unbounded steps start
    (most < UInt64.size ∧ ∀ steps, (bounded steps).evaluations.size ≤ most) ∧
    (∀ steps, (unbounded steps).ending = .settled → (unbounded steps).evaluations.size ≤ most →
      ∀ steps', (unbounded steps).evaluations.size < steps' → bounded steps' = unbounded steps) ∧
    ((∀ steps, (unbounded steps).ending = .settled → most < (unbounded steps).evaluations.size) →
      ∃ s t, p.start settings.order (start.complete p.graph p.initial p.boundary) = .ok s ∧
        p.advance 0 most s = (t, none) ∧ t.evaluations.size = most ∧
        unbounded most = ⟨.unfinished, t.evaluations, t.flows⟩ ∧
        (∀ steps, most ≤ steps → t.evaluations.toList <+: (unbounded steps).evaluations.toList) ∧
        ∀ steps, most < steps → (bounded steps).CutShort t) := by
  intro most bounded unbounded
  have hvalid := FlowGraph.violation?_eq_ok_none_iff.mp hv
  obtain ⟨s, hs, hstart, hsolve⟩ := exists_start_of_accepted hv settings.order start
  have hempty : s.evaluations.size = 0 := by rw [hstart.evaluations]; rfl
  have hbounded : ∀ steps, bounded steps = p.run most steps s := hsolve settings rfl
  have hunbounded : ∀ steps, unbounded steps = p.run 0 steps s := fun steps => by
    rw [← settings.bound_unbounded p.graph.nodes.size]
    exact hsolve settings.unbounded rfl steps
  have hmost : s.worklist.size ≠ 0 → most ≠ 0 := fun h =>
    settings.bound_ne_zero hk (hstart.size ▸ h)
  simp only [hbounded, hunbounded]
  refine ⟨⟨settings.bound_lt _, fun _ => size_run_le_bound hempty hmost⟩,
    fun steps h hle steps' hlt => ?_, fun h => ?_⟩
  · exact run_eq_of_settled hvalid hstart.sound hempty h hle hlt
  · obtain ⟨t, hadvance, hsize, ht, hcut⟩ := exists_cut hvalid hstart.sound hempty hmost h
    refine ⟨s, t, hs, hadvance, hsize, ?_, fun steps hle => ?_, fun steps hlt => ?_⟩
    · rw [run_eq_advance, hadvance]
      rfl
    · obtain ⟨n, rfl⟩ := Nat.exists_eq_add_of_le hle
      rw [run_eq_advance, advance_add hadvance]
      exact evaluations_advance p 0 n t
    · rw [run_eq_advance, hcut steps hlt]
      exact ht.cutShort

/-- Four evaluations do not fit into one per label, while three of them just do. -/
theorem solve_bounded_tracing :
    (∃ t, t.evaluations.size = 3 ∧
      ∀ steps, 3 < steps → (tracing.solve { nodeLimit := 1 } steps stale).CutShort t) ∧
    ((reaching .loop [1]).solve { order := .label } 20 {}).evaluations.size = 3 ∧
    ∀ steps, 3 < steps → (reaching .loop [1]).solve { nodeLimit := 1, order := .label } steps {} =
      (reaching .loop [1]).solve { order := .label } 20 {} := by
  obtain ⟨_, hsame, hcut⟩ := solve_bounded (p := tracing) FlowGraph.loop_accepted { nodeLimit := 1 }
    (by decide) stale
  obtain ⟨_, hjust, _⟩ := solve_bounded (p := reaching .loop [1]) FlowGraph.loop_accepted
    { nodeLimit := 1, order := .label } (by decide) {}
  have hmost : Settings.bound { nodeLimit := 1 } FlowGraph.loop.nodes.size = 3 := by decide
  have hthree : ((reaching .loop [1]).solve { order := .label } 20 {}).evaluations.size = 3 := by
    decide +kernel
  constructor
  · have hlate : ∀ steps, (tracing.solve {} steps stale).ending = .settled →
        3 < (tracing.solve {} steps stale).evaluations.size := by
      intro steps h
      by_contra hle
      have hle : (tracing.solve {} steps stale).evaluations.size ≤ 3 := Nat.le_of_not_lt hle
      have hends := congrArg Report.ending (hsame steps h (hmost ▸ hle) 20 (hle.trans_lt (by decide)))
      exact absurd (hends.trans h) (by decide +kernel)
    obtain ⟨_, t, _, _, hsize, _, _, hstruck⟩ := hcut hlate
    exact ⟨t, hsize, hstruck⟩
  · exact ⟨hthree, fun steps hlt => hjust 20 (by decide +kernel) hthree.le steps (hthree.symm ▸ hlt)⟩

end Problem
end FlowAnalysis
