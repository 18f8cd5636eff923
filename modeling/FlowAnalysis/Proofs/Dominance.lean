import FlowAnalysis.Proofs.Constructions
import FlowAnalysis.Proofs.FactMaps
import FlowAnalysis.Proofs.PlainRuns
import FlowAnalysis.Proofs.Walks

/-! # Dominators

One label dominates another when every walk from an entry to the other meets it.
Over sets of labels turned upside down, where ways meet only what lies on all of
them stays, and each node adds itself. Every slot holds at least the dominators
at any time, because all labels stand there at the start. When the run has
settled, what does not dominate a label has been lost along a walk that avoids
it.
-/
namespace FlowAnalysis
variable {S : Type} {T : Type} [DecidableEq T]

namespace PlainGraph
variable {g : PlainGraph S} {entries exits : List Label} {c d : Label}

/-- Every walk from an entry meets it. -/
def Dominates (g : PlainGraph S) (entries : List Label) (d c : Label) : Prop :=
  ∀ a ∈ entries, ∀ ls, g.Walk a ls c → d ∈ ls

/-- Every walk to an exit meets it. -/
def PostDominates (g : PlainGraph S) (exits : List Label) (d c : Label) : Prop :=
  ∀ a ∈ exits, ∀ ls, g.Walk c ls a → d ∈ ls

theorem Reachable.dominates_reverse (hg : g.Reachable) :
    g.reverse.Dominates exits d c ↔ g.PostDominates exits d c := by
  constructor
  · intro h a ha ls hw
    have hback : g.reverse.Walk a ls.reverse c := (Walk.reverse_iff hg).mpr (by rwa [List.reverse_reverse])
    exact List.mem_reverse.mp (h a ha _ hback)
  · intro h a ha ls hw
    exact List.mem_reverse.mp (h a ha _ ((Walk.reverse_iff hg).mp hw))

end PlainGraph

/-- The labels that have been met on all ways. Nothing has been met before an end. -/
def dominance (g : PlainGraph S) (ends : List Label) : PlainProblem S (Dual (FiniteSet Label)) where
  entries := ends
  ids := g.labels
  nodes := g.nodes
  merge := join
  flow _ n x := ⟨x.inner.insert n.label⟩
  initial := bottom (⟨FiniteSet.ofList g.labels⟩ : FiniteSet.Universe Label)
  boundary := ⟨.empty⟩

theorem mem_foldl_dual {x : Dual (FiniteSet T)} {xs : List (Dual (FiniteSet T))} {d : T} :
    d ∈ (xs.foldl join x).inner ↔ d ∈ x.inner ∧ ∀ y ∈ xs, d ∈ y.inner := by
  induction xs generalizing x with
  | nil => simp
  | cons y ys ih =>
    rw [List.foldl_cons, ih, List.forall_mem_cons, ← and_assoc]
    exact and_congr_left fun _ => FiniteSet.mem_inter

/-- Upside down, merging sets keeps what is common to them. -/
theorem mem_mergeAll_dual {initial : Dual (FiniteSet T)} {xs : List (Dual (FiniteSet T))} {d : T} :
    d ∈ (mergeAll join initial xs).inner ↔
      (∀ x ∈ xs, d ∈ x.inner) ∧ (xs = [] → d ∈ initial.inner) := by
  cases xs with
  | nil => simp [mergeAll]
  | cons x xs => simp [mergeAll, mem_foldl_dual]

theorem FiniteSet.insert_inter_insert (a : T) (s t : FiniteSet T) :
    (s.insert a).inter (t.insert a) = (s.inter t).insert a := by
  ext d
  rw [mem_inter, mem_insert, mem_insert, mem_insert, mem_inter, ← or_and_left]

namespace PlainGraph.Reachable
variable {g : PlainGraph S} {ends ls : List Label} {a c d l : Label} {n : PlainNode S}
  {x : Dual (FiniteSet Label)} {settings : Settings} {steps : Nat}

/-- No set leaves the labels of the graph. -/
theorem dominance_within (hg : g.Reachable) (ends : List Label) : (dominance g ends).forward.Within fun x =>
    x.inner ⊆ FiniteSet.ofList g.labels := by
  refine PlainProblem.forward_within (fun _ => id) (fun l hl => absurd hl (FiniteSet.not_mem_empty l))
    (fun hx _ l hl => hx l (FiniteSet.mem_inter.mp hl).1) ?_
  intro l n hn _ x hx d hd
  rcases FiniteSet.mem_insert.mp hd with rfl | hd
  · have hlabel : n.label = l := hg.label hn
    rw [FiniteSet.mem_ofList, mem_labels]
    exact LabelMap.mem_of_getElem? (hlabel ▸ hn)
  · exact hx d hd

theorem dominance_isMonotone (hg : g.Reachable) (ends : List Label) :
    (hg.dominance_within ends).problem.IsMonotone := by
  have hlawful := (FiniteSet.lawfulMeet ⟨FiniteSet.ofList g.labels⟩).dual.toLawfulJoin
  refine PlainProblem.forward_isMonotone _ (fun _ => rfl) hlawful.semilattice
    (fun _ hx => hlawful.bottom_join hx) ?_
  intro _ n _ x y _ _ hxy
  have hinner : x.inner.inter y.inner = y.inner := congrArg Dual.inner hxy
  have hinsert := FiniteSet.insert_inter_insert n.label x.inner y.inner
  exact congrArg Dual.mk (hinsert.trans (congrArg (FiniteSet.insert _) hinner))

/-- The sets can shrink as often as the graph has labels. -/
theorem dominance_height (hg : g.Reachable) (ends : List Label) : HeightAtMost
    (hg.dominance_within ends).problem.merge (FiniteSet.ofList g.labels).size := by
  refine heightAtMost_of_rank (fun x => x.1.inner.size) ?_
    fun x => FiniteSet.size_le_of_subset x.2
  rintro x y ⟨hxy, hne⟩
  have hinner : x.1.inner.inter y.1.inner = y.1.inner := congrArg (fun z => z.1.inner) hxy
  have hsub : y.1.inner ⊆ x.1.inner := fun d hd => (FiniteSet.mem_inter.mp (hinner ▸ hd)).1
  exact FiniteSet.size_lt_of_subset hsub fun heq => hne (Subtype.ext (Dual.ext heq.symm))

variable (hg : g.Reachable) (hends : ∀ l ∈ ends, l ∈ g.nodes)
include hg hends

theorem dominance_accepted : (dominance g ends).forward.graph.violation? = .ok none :=
  FlowGraph.violation?_eq_ok_none_iff.mpr (hg.valid hends)

theorem dominance_settles (order : VisitOrder) : ∃ most, ∀ steps, most < steps →
    ((dominance g ends).analyzeForward { order } steps).ending = .settled :=
  ⟨_, fun _ hsteps => (hg.dominance_within ends).settles (hg.dominance_accepted hends)
    (hg.dominance_isMonotone ends) (hg.dominance_height ends) rfl hsteps⟩

omit hends in
/-- However a run ends, the slots hold labels of the graph only. -/
theorem mem_of_mem_slot (hx : ((dominance g ends).analyzeForward settings steps).flows.outgoing[c]? = some x)
    (hd : d ∈ x.inner) : d ∈ g.nodes := by
  have hsub : x.inner ⊆ FiniteSet.ofList g.labels :=
    (hg.dominance_within ends).among_slot (k := .notTaken) hx
  exact PlainGraph.mem_labels.mp (FiniteSet.mem_ofList.mp (hsub d hd))

/-- However a run ends, the slots hold the dominators. -/
theorem mem_slot_of_dominates (hx : ((dominance g ends).analyzeForward settings steps).flows.outgoing[c]? = some x)
    (hd : d ∈ g.nodes) (hdom : g.Dominates ends d c) : d ∈ x.inner := by
  have hall : d ∈ (dominance g ends).initial.inner :=
    FiniteSet.mem_ofList.mpr (PlainGraph.mem_labels.mpr hd)
  refine PlainProblem.forward_slots (hg.dominance_accepted hends)
    (fun c x => g.Dominates ends d c → d ∈ x.inner) (fun _ _ _ => hall) ?_ hx hdom
  intro _ l n xs hn hxs hdom
  refine FiniteSet.mem_insert.mpr ?_
  by_cases hdl : d = l
  · exact .inl (hdl.trans (hg.label hn).symm)
  refine .inr (mem_mergeAll_dual.mpr ⟨fun x hx => ?_, fun _ => hall⟩)
  rcases hxs x hx with ⟨b, hb, hholds⟩ | ⟨hentry, rfl⟩
  · -- A walk to the predecessor goes on to the label, which is not the one in question.
    refine hholds fun a ha ls hw => ?_
    have hon := hdom a ha _ (hw.along ((hg.hasEdge_iff hn).mpr hb))
    exact (List.mem_append.mp hon).resolve_right fun h => hdl (List.mem_singleton.mp h)
  · exact absurd (List.mem_singleton.mp (hdom l hentry [l] (.here (LabelMap.mem_of_getElem? hn)))) hdl

/-- What a settled slot holds has been met on every walk. -/
theorem slot_on_walk (hend : ((dominance g ends).analyzeForward settings steps).ending = .settled)
    (ha : a ∈ ends) (hw : g.Walk a ls c)
    (hx : ((dominance g ends).analyzeForward settings steps).flows.outgoing[c]? = some x) (hd : d ∈ x.inner) :
    d ∈ ls := by
  have hsettled : ∀ {l : Label} {n : PlainNode S}, g.nodes[l]? = some n → _ := fun hn =>
    PlainProblem.forward_settled (hg.dominance_accepted hends) (fun _ => rfl) hend hn
  induction hw generalizing x with
  | here hmem =>
    obtain ⟨n, hn⟩ := LabelMap.exists_of_mem hmem
    obtain ⟨xs, hxs, _, hout⟩ := hsettled hn
    obtain rfl := Option.some.inj (hx.symm.trans hout)
    rcases FiniteSet.mem_insert.mp hd with rfl | hd
    · exact List.mem_singleton.mpr (hg.label hn)
    · have hboundary := (mem_mergeAll_dual.mp hd).1 _ ((hxs _).mpr (.inr ⟨ha, rfl⟩))
      exact absurd hboundary (FiniteSet.not_mem_empty d)
  | @along ls b c hw he ih =>
    obtain ⟨n, hn⟩ := LabelMap.exists_of_mem (hg.hasEdge_mem he).2
    obtain ⟨m, hm⟩ := LabelMap.exists_of_mem (hg.hasEdge_mem he).1
    obtain ⟨xs, hxs, _, hout⟩ := hsettled hn
    obtain ⟨_, _, _, hpred⟩ := hsettled hm
    obtain rfl := Option.some.inj (hx.symm.trans hout)
    apply List.mem_append.mpr
    rcases FiniteSet.mem_insert.mp hd with rfl | hd
    · exact .inr (List.mem_singleton.mpr (hg.label hn))
    · have harrives := (hxs _).mpr (.inl ⟨b, (hg.hasEdge_iff hn).mp he, hpred⟩)
      exact .inl (ih hpred ((mem_mergeAll_dual.mp hd).1 _ harrives))

theorem dominators_forward (hend : ((dominance g ends).analyzeForward settings steps).ending = .settled)
    (hc : c ∈ g.nodes) : ∃ x, ((dominance g ends).analyzeForward settings steps).flows.outgoing[c]? = some x ∧
      ∀ d, d ∈ x.inner ↔ d ∈ g.nodes ∧ g.Dominates ends d c := by
  obtain ⟨n, hn⟩ := LabelMap.exists_of_mem hc
  obtain ⟨xs, _, _, hout⟩ :=
    PlainProblem.forward_settled (hg.dominance_accepted hends) (fun _ => rfl) hend hn
  refine ⟨_, hout, fun d => ⟨fun hd => ⟨hg.mem_of_mem_slot hout hd, ?_⟩, fun hd =>
    hg.mem_slot_of_dominates hends hout hd.1 hd.2⟩⟩
  exact fun a ha ls hw => hg.slot_on_walk hends hend ha hw hout hd

omit hends in
theorem dominance_backward (settings : Settings) (steps : Nat) :
    (dominance g ends).analyzeBackward settings steps =
      ((dominance g.reverse ends).analyzeForward settings steps).mapFlows PlainFlows.exchange := by
  have hlocal : (dominance g ends).Local := fun {_ m n x} hlabel _ =>
    congrArg (fun l => (⟨x.inner.insert l⟩ : Dual (FiniteSet Label))) hlabel
  have hsame : (dominance g ends).withGraph g.reverse = dominance g.reverse ends := by
    rw [dominance, dominance, PlainGraph.labels_reverse]
    rfl
  have hbackward := PlainProblem.backward_eq_forward_reverse hg hlocal
  rw [hsame] at hbackward
  exact congrArg (fun q => (q.analyze settings steps).mapFlows Flows.against) hbackward

end PlainGraph.Reachable

/-- Dominators and post-dominators are computed exactly: without a bound on the evaluations both runs
settle, and then a label holds the labels of the graph that every walk to it, or from it, meets. -/
theorem dominators_exact {g : PlainGraph S} (hg : g.Reachable) {entries exits : List Label}
    (hentries : ∀ l ∈ entries, l ∈ g.nodes) (hexits : ∀ l ∈ exits, l ∈ g.nodes) (order : VisitOrder) :
    (∃ most, ∀ steps, most < steps →
      ((dominance g entries).analyzeForward { order } steps).ending = .settled ∧
      ((dominance g exits).analyzeBackward { order } steps).ending = .settled) ∧
    ∀ steps, ∀ c ∈ g.nodes,
      (((dominance g entries).analyzeForward { order } steps).ending = .settled →
        ∃ x, ((dominance g entries).analyzeForward { order } steps).flows.outgoing[c]? = some x ∧
          ∀ d, d ∈ x.inner ↔ d ∈ g.nodes ∧ g.Dominates entries d c) ∧
      (((dominance g exits).analyzeBackward { order } steps).ending = .settled →
        ∃ x, ((dominance g exits).analyzeBackward { order } steps).flows.incoming[c]? = some x ∧
          ∀ d, d ∈ x.inner ↔ d ∈ g.nodes ∧ g.PostDominates exits d c) := by
  have hreversed : ∀ l ∈ exits, l ∈ g.reverse.nodes := fun l hl => PlainGraph.mem_reverse.mpr (hexits l hl)
  constructor
  · obtain ⟨along, halong⟩ := hg.dominance_settles hentries order
    obtain ⟨against, hagainst⟩ := hg.reverse.dominance_settles hreversed order
    refine ⟨max along against, fun steps hsteps => ⟨halong steps ?_, ?_⟩⟩
    · exact (Nat.le_max_left along against).trans_lt hsteps
    · rw [hg.dominance_backward]
      exact hagainst steps ((Nat.le_max_right along against).trans_lt hsteps)
  · intro steps c hc
    refine ⟨fun hend => hg.dominators_forward hentries hend hc, fun hend => ?_⟩
    rw [hg.dominance_backward] at hend ⊢
    obtain ⟨x, hx, hdominators⟩ :=
      hg.reverse.dominators_forward hreversed hend (PlainGraph.mem_reverse.mpr hc)
    refine ⟨x, hx, fun d => ?_⟩
    rw [hdominators, PlainGraph.mem_reverse, hg.dominates_reverse]

/-- The shortcut takes the loop off the list of what must be met before the way out, and off that of
what must be met after the way in. -/
theorem dominators_exact_bypass :
    PlainProblem.bypass.Dominates [0] 0 2 ∧ ¬PlainProblem.bypass.Dominates [0] 1 2 ∧
    PlainProblem.bypass.PostDominates [2] 2 0 ∧ ¬PlainProblem.bypass.PostDominates [2] 1 0 := by
  have hentry : 0 ∈ PlainProblem.bypass.nodes := by decide
  have hexit : 2 ∈ PlainProblem.bypass.nodes := by decide
  obtain ⟨_, hexact⟩ := dominators_exact PlainProblem.bypass_reachable
    (List.forall_mem_singleton.mpr hentry) (List.forall_mem_singleton.mpr hexit) .reversePostOrder
  obtain ⟨x, hx, hbefore⟩ := (hexact 20 2 hexit).1 (by decide +kernel)
  obtain ⟨y, hy, hafter⟩ := (hexact 20 0 hentry).2 (by decide +kernel)
  have hmet : (((dominance PlainProblem.bypass [0]).analyzeForward {} 20).flows.outgoing[(2 : Label)]?.map
      fun x => (decide (0 ∈ x.inner), decide (1 ∈ x.inner))) = some (true, false) := by decide +kernel
  have hahead : (((dominance PlainProblem.bypass [2]).analyzeBackward {} 20).flows.incoming[(0 : Label)]?.map
      fun x => (decide (2 ∈ x.inner), decide (1 ∈ x.inner))) = some (true, false) := by decide +kernel
  have hx0 : 0 ∈ x.inner ∧ 1 ∉ x.inner := by simpa [hx] using hmet
  have hy0 : 2 ∈ y.inner ∧ 1 ∉ y.inner := by simpa [hy] using hahead
  exact ⟨((hbefore 0).mp hx0.1).2, fun h => hx0.2 ((hbefore 1).mpr ⟨by decide, h⟩),
    ((hafter 2).mp hy0.1).2, fun h => hy0.2 ((hafter 1).mpr ⟨by decide, h⟩)⟩

end FlowAnalysis
