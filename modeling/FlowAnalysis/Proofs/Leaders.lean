import FlowAnalysis.Proofs.Listings

/-! # How the entries lead the visiting order

The search starts from the entries as they are listed. An entry that an earlier
one leads to has been visited when its turn comes, so of the entries only the
others matter, each at its place. They can be read off the order in turn: they
are the entries that no entry before them in the order leads to. So two listings
of the same entries give the same order exactly when the same entries lead, and
as soon as there are two entries some listing of them changes it.
-/
namespace FlowAnalysis
variable {S : Type}

namespace DepthFirst
variable {succs : Label → List Label} {searched : LabelSet} {earlier earlier' ls ls' : List Label}
  {roots rest skipped order : List Label} {root : Label} {f : Forest}

/-- Those of the roots that neither an earlier one nor a root before them leads to. -/
inductive Leaders (succs : Label → List Label) : List Label → List Label → List Label → Prop
  | done {earlier : List Label} : Leaders succs earlier [] []
  | placed {earlier roots ls : List Label} {root : Label} : LedTo succs earlier root →
      Leaders succs (earlier ++ [root]) roots ls → Leaders succs earlier (root :: roots) ls
  | leading {earlier roots ls : List Label} {root : Label} : ¬ LedTo succs earlier root →
      Leaders succs (earlier ++ [root]) roots ls → Leaders succs earlier (root :: roots) (root :: ls)

/-- A root that earlier ones lead to leads to nothing that they do not lead to. -/
theorem LedTo.snoc_iff (h : LedTo succs earlier root) (x : Label) :
    LedTo succs (earlier ++ [root]) x ↔ LedTo succs earlier x := by
  rw [ledTo_snoc, or_iff_left_of_imp h.trans]

namespace Leaders

theorem total (succs : Label → List Label) (earlier roots : List Label) :
    ∃ ls, Leaders succs earlier roots ls := by
  induction roots generalizing earlier with
  | nil => exact ⟨[], .done⟩
  | cons root roots ih =>
    obtain ⟨ls, hls⟩ := ih (earlier ++ [root])
    by_cases hroot : LedTo succs earlier root
    · exact ⟨ls, .placed hroot hls⟩
    · exact ⟨root :: ls, .leading hroot hls⟩

theorem unique (h : Leaders succs earlier roots ls) (h' : Leaders succs earlier roots ls') :
    ls = ls' := by
  induction h generalizing ls' with
  | done =>
    cases h'
    rfl
  | placed hroot _ ih =>
    cases h' with
    | placed _ hrest => exact ih hrest
    | leading hnot _ => exact absurd hroot hnot
  | leading hnot _ ih =>
    cases h' with
    | placed hroot _ => exact absurd hroot hnot
    | leading _ hrest => exact congrArg (List.cons _) (ih hrest)

/-- Of the earlier roots only that counts what they lead to. -/
theorem congr (h : Leaders succs earlier roots ls)
    (he : ∀ x, LedTo succs earlier x ↔ LedTo succs earlier' x) : Leaders succs earlier' roots ls := by
  induction h generalizing earlier' with
  | done => exact .done
  | placed hroot _ ih =>
    exact .placed ((he _).mp hroot) (ih fun x => by rw [ledTo_snoc, ledTo_snoc, he])
  | leading hnot _ ih =>
    exact .leading (mt (he _).mpr hnot) (ih fun x => by rw [ledTo_snoc, ledTo_snoc, he])

/-- Roots that earlier ones lead to may be put in front. -/
theorem skip (h : Leaders succs earlier roots ls) (hs : ∀ x ∈ skipped, LedTo succs earlier x) :
    Leaders succs earlier (skipped ++ roots) ls := by
  induction skipped with
  | nil => exact h
  | cons x xs ih =>
    obtain ⟨hx, hxs⟩ := List.forall_mem_cons.mp hs
    exact .placed hx ((ih hxs).congr fun y => (hx.snoc_iff y).symm)

/-- The first root leads. -/
theorem head?_eq (h : Leaders succs [] (root :: roots) ls) : ls.head? = some root := by
  cases h with
  | placed hroot _ => exact absurd hroot not_ledTo_nil
  | leading _ _ => rfl

end Leaders
end DepthFirst

namespace FlowGraph
open DepthFirst
variable {g : FlowGraph S} {entries ids ls order : List Label}

theorem Searchable.relist (h : g.Searchable) (hids : ∀ l, l ∈ ids ↔ l ∈ g.ids)
    (he : ∀ l, l ∈ entries ↔ l ∈ g.entries) : (g.relist entries ids).Searchable where
  node_mem l hl := h.node_mem l ((hids l).mp hl)
  entry_mem l hl := (hids l).mpr (h.entry_mem l ((he l).mp hl))
  target_mem l hl t ht := (hids t).mpr (h.target_mem l ((hids l).mp hl) t ht)

end FlowGraph
end FlowAnalysis
