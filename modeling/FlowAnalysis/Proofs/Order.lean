import Mathlib.Data.List.Chain
import Mathlib.Order.Lattice
import FlowAnalysis.Merge

/-! # The order that merging defines

A fact is below another when merging it in changes nothing. For a commutative,
associative and idempotent merge this is a semilattice, and merging a list of
facts gives their least upper bound, however the list begins.
-/
namespace FlowAnalysis
variable {F : Type} {merge : F → F → F} {le : F → F → Prop} {initial a b x : F} {xs : List F}

/-- Merging it in changes nothing. -/
def Below (merge : F → F → F) (a b : F) : Prop := merge a b = b

def Rises (merge : F → F → F) (a b : F) : Prop := Below merge a b ∧ a ≠ b

/-- An ascending chain of facts has at most so many steps. -/
def HeightAtMost (merge : F → F → F) (h : Nat) : Prop :=
  ∀ xs : List F, xs.IsChain (Rises merge) → xs.length ≤ h + 1

theorem heightAtMost_or : HeightAtMost (· || ·) 1 := by
  have hrise : ∀ {a b : Bool}, Rises (· || ·) a b → a = false ∧ b = true := by
    unfold Rises Below
    decide
  intro xs hxs
  rcases xs with _ | ⟨a, _ | ⟨b, _ | ⟨c, xs⟩⟩⟩
  · simp
  · simp
  · simp
  · obtain ⟨hab, hbc⟩ := List.isChain_cons_cons.mp hxs
    obtain ⟨hbc, _⟩ := List.isChain_cons_cons.mp hbc
    exact absurd ((hrise hab).2.symm.trans (hrise hbc).1) (by decide)

/-- A number that sinks with every rise bounds the height. -/
theorem heightAtMost_of_rank (rank : F → Nat) {h : Nat}
    (hrise : ∀ {a b}, Rises merge a b → rank b < rank a) (hle : ∀ a, rank a ≤ h) :
    HeightAtMost merge h := by
  have hchain : ∀ (xs : List F) (a : F), (a :: xs).IsChain (Rises merge) → xs.length ≤ rank a := by
    intro xs
    induction xs with
    | nil => simp
    | cons b xs ih =>
      intro a hxs
      obtain ⟨hab, hxs⟩ := List.isChain_cons_cons.mp hxs
      exact (ih b hxs).trans_lt (hrise hab)
  intro xs hxs
  cases xs with
  | nil => simp
  | cons a xs => exact Nat.succ_le_succ ((hchain xs a hxs).trans (hle a))

structure Bounding (le : F → F → Prop) (merge : F → F → F) : Prop where
  refl : ∀ a, le a a
  trans : ∀ {a b c}, le a b → le b c → le a c
  left : ∀ a b, le a (merge a b)
  right : ∀ a b, le b (merge a b)

theorem Bounding.le_foldl (h : Bounding le merge) (acc : F) (xs : List F) :
    le acc (xs.foldl merge acc) ∧ ∀ x ∈ xs, le x (xs.foldl merge acc) := by
  induction xs generalizing acc with
  | nil => exact ⟨h.refl acc, by simp⟩
  | cons y ys ih =>
    obtain ⟨hacc, hys⟩ := ih (merge acc y)
    refine ⟨h.trans (h.left acc y) hacc, ?_⟩
    intro x hx
    rcases List.mem_cons.mp hx with rfl | hx
    · exact h.trans (h.right acc x) hacc
    · exact hys x hx

theorem Bounding.le_mergeAll (h : Bounding le merge) (initial : F) (hx : x ∈ xs) :
    le x (mergeAll merge initial xs) := by
  cases xs with
  | nil => simp at hx
  | cons y ys =>
    obtain ⟨hy, hys⟩ := h.le_foldl y ys
    rcases List.mem_cons.mp hx with rfl | hx
    · exact hy
    · exact hys x hx

/-- The laws under which facts are ordered by merging. -/
structure Semilattice (merge : F → F → F) : Prop where
  comm : ∀ a b, merge a b = merge b a
  assoc : ∀ a b c, merge (merge a b) c = merge a (merge b c)
  idem : ∀ a, merge a a = a

namespace Semilattice

/-- The semilattice whose order is the one that merging defines. -/
abbrev order (h : Semilattice merge) : SemilatticeSup F :=
  letI : Max F := ⟨merge⟩
  SemilatticeSup.mk' h.comm h.assoc h.idem

theorem bounding (h : Semilattice merge) : Bounding (Below merge) merge where
  refl := h.idem
  trans := @fun _ _ _ => @le_trans F h.order.toPreorder _ _ _
  left := @le_sup_left F h.order
  right := @le_sup_right F h.order

theorem antisymm (h : Semilattice merge) (hab : Below merge a b) (hba : Below merge b a) : a = b :=
  @le_antisymm F h.order.toPartialOrder a b hab hba

theorem foldl_below (h : Semilattice merge) (hacc : Below merge a b)
    (hxs : ∀ x ∈ xs, Below merge x b) : Below merge (xs.foldl merge a) b := by
  induction xs generalizing a with
  | nil => exact hacc
  | cons y ys ih =>
    obtain ⟨hy, hys⟩ := List.forall_mem_cons.mp hxs
    have hmerged : Below merge (merge a y) b := @sup_le F h.order _ _ _ hacc hy
    exact ih hmerged hys

theorem mergeAll_below (h : Semilattice merge) (h0 : Below merge initial b)
    (hxs : ∀ x ∈ xs, Below merge x b) : Below merge (mergeAll merge initial xs) b := by
  cases xs with
  | nil => exact h0
  | cons y ys =>
    obtain ⟨hy, hys⟩ := List.forall_mem_cons.mp hxs
    exact h.foldl_below hy hys

theorem mergeAll_mono (h : Semilattice merge) (h0 : ∀ x, Below merge initial x) {ys : List F}
    (hxs : ∀ x ∈ xs, ∃ y ∈ ys, Below merge x y) :
    Below merge (mergeAll merge initial xs) (mergeAll merge initial ys) := by
  apply h.mergeAll_below (h0 _)
  intro x hx
  obtain ⟨y, hy, hxy⟩ := hxs x hx
  exact h.bounding.trans hxy (h.bounding.le_mergeAll initial hy)

end Semilattice
end FlowAnalysis
