import Mathlib.Data.Finset.Card
import Mathlib.Data.Set.Function
import FlowAnalysis.Traversal.Worklist

/-! # Sets from which the label of smallest rank is taken

What a worklist does can be said of a set of ranked labels: labels are added to
it, and the one of smallest rank is taken out. Whatever is used as a worklist
answers like such a set as soon as it does so for single labels: lists of labels
are queued one after the other up to the first label without rank, and draining
takes one label after the other.
-/
namespace FlowAnalysis

/-- Labels that are numbered from zero on, without gaps. -/
structure Ranking where
  labels : Finset Label
  rank : Label → Nat
  numbered : Set.BijOn rank labels (Set.Iio labels.card)

namespace Worklist

/-- What is asked of a worklist. -/
inductive Request where
  | push (l : Label)
  | extend (ls : List Label)
  | pop
  deriving DecidableEq, Repr

/-- What it answers: that the labels are queued, which of them has no rank, or which one it gives out. -/
inductive Answer where
  | queued
  | absent (e : Absent)
  | taken (l : Option Label)
  deriving DecidableEq, Repr

end Worklist

namespace Ranking
open Worklist

/-- How a set of ranked labels answers, and the set that is left. -/
inductive Answers (ρ : Ranking) : Finset Label → Request → Answer → Finset Label → Prop
  | push {A : Finset Label} {l : Label} : l ∈ ρ.labels → Answers ρ A (.push l) .queued (insert l A)
  | pushAbsent {A : Finset Label} {l : Label} : l ∉ ρ.labels → Answers ρ A (.push l) (.absent ⟨l⟩) A
  | extend {A : Finset Label} {ls : List Label} : (∀ l ∈ ls, l ∈ ρ.labels) →
      Answers ρ A (.extend ls) .queued (A ∪ ls.toFinset)
  | extendAbsent {A : Finset Label} {before after : List Label} {l : Label} :
      (∀ x ∈ before, x ∈ ρ.labels) → l ∉ ρ.labels →
      Answers ρ A (.extend (before ++ l :: after)) (.absent ⟨l⟩) (A ∪ before.toFinset)
  | pop {A : Finset Label} {l : Label} : l ∈ A → (∀ m ∈ A, ρ.rank l ≤ ρ.rank m) →
      Answers ρ A .pop (.taken (some l)) (A.erase l)
  | popEmpty : Answers ρ ∅ .pop (.taken none) ∅

/-- How it answers one request after the other. -/
inductive Runs (ρ : Ranking) : Finset Label → List Request → List Answer → Finset Label → Prop
  | done {A : Finset Label} : Runs ρ A [] [] A
  | next {A B C : Finset Label} {r : Request} {a : Answer} {rs : List Request} {as : List Answer} :
      ρ.Answers A r a B → Runs ρ B rs as C → Runs ρ A (r :: rs) (a :: as) C

end Ranking

namespace Worklist

/-- The ways to use something as a worklist. Lists are queued label by label, and draining takes label
after label. -/
structure Interface (W : Type) where
  rank : W → Label → Except Absent Nat
  contains : W → Label → Bool
  size : W → Nat
  isEmpty : W → Bool
  push : W → Label → Except Absent W
  extend : W → List Label → W × Option Absent
  pop? : W → Option (Label × W)
  drain : W → List Label × W
  extend_nil : ∀ w, extend w [] = (w, none)
  extend_cons : ∀ w l ls, extend w (l :: ls) =
    match push w l with
    | .ok v => extend v ls
    | .error e => (w, some e)
  drain_eq : ∀ w, drain w =
    match pop? w with
    | none => ([], w)
    | some (l, v) => (l :: (drain v).1, (drain v).2)

namespace Interface
variable {W : Type} {I : Interface W} {ρ : Ranking} {w : W} {A : Finset Label}

/-- Answers a request. After a label without rank the labels before it stay queued. -/
def perform (I : Interface W) (w : W) : Request → Answer × W
  | .push l =>
    match I.push w l with
    | .ok v => (.queued, v)
    | .error e => (.absent e, w)
  | .extend ls =>
    match I.extend w ls with
    | (v, none) => (.queued, v)
    | (v, some e) => (.absent e, v)
  | .pop =>
    match I.pop? w with
    | none => (.taken none, w)
    | some (l, v) => (.taken (some l), v)

def run (I : Interface W) (w : W) : List Request → List Answer × W
  | [] => ([], w)
  | r :: rs =>
    let (a, v) := I.perform w r
    let (as, v) := I.run v rs
    (a :: as, v)

/-- What can be seen of a worklist that holds these labels. -/
structure Shows (I : Interface W) (ρ : Ranking) (w : W) (A : Finset Label) : Prop where
  rank : ∀ l, I.rank w l = if l ∈ ρ.labels then .ok (ρ.rank l) else .error ⟨l⟩
  contains : ∀ l, I.contains w l = true ↔ l ∈ A
  size : I.size w = A.card
  isEmpty : I.isEmpty w = true ↔ A = ∅

/-- What draining gives: each of these labels once, by rising rank, and an empty worklist. -/
structure Drains (I : Interface W) (ρ : Ranking) (w : W) (A : Finset Label) : Prop where
  rising : (I.drain w).1.Pairwise fun l m => ρ.rank l < ρ.rank m
  mem : ∀ l, l ∈ (I.drain w).1 ↔ l ∈ A
  left : I.Shows ρ (I.drain w).2 ∅

/-- Whatever is asked of it, the worklist answers like a set that is empty at first, and then shows
and gives out what the set holds. -/
def Refines (I : Interface W) (ρ : Ranking) (w : W) : Prop :=
  ∀ requests, ∃ A, ρ.Runs ∅ requests (I.run w requests).1 A ∧
    I.Shows ρ (I.run w requests).2 A ∧ I.Drains ρ (I.run w requests).2 A

/-- Worklists of a kind answer for single labels like the sets that they hold. -/
structure Implements (I : Interface W) (ρ : Ranking) (holds : W → Finset Label → Prop) : Prop where
  shows : ∀ {w A}, holds w A → I.Shows ρ w A
  inside : ∀ {w A}, holds w A → A ⊆ ρ.labels
  push : ∀ {w A l}, holds w A → l ∈ ρ.labels → ∃ v, I.push w l = .ok v ∧ holds v (insert l A)
  push_absent : ∀ {w A l}, holds w A → l ∉ ρ.labels → I.push w l = .error ⟨l⟩
  pop : ∀ {w A}, holds w A → A.Nonempty → ∃ l v, I.pop? w = some (l, v) ∧ l ∈ A ∧
    (∀ m ∈ A, ρ.rank l ≤ ρ.rank m) ∧ holds v (A.erase l)
  pop_empty : ∀ {w}, holds w ∅ → I.pop? w = none

namespace Implements
variable {holds : W → Finset Label → Prop}

/-- Labels with a rank are all queued before what comes after them is looked at. -/
theorem extend_append (h : I.Implements ρ holds) {before : List Label} (hb : ∀ x ∈ before, x ∈ ρ.labels)
    (hw : holds w A) :
    ∃ v, holds v (A ∪ before.toFinset) ∧ ∀ rest, I.extend w (before ++ rest) = I.extend v rest := by
  induction before generalizing w A with
  | nil => exact ⟨w, by simpa using hw, fun rest => rfl⟩
  | cons l ls ih =>
    obtain ⟨hl, hls⟩ := List.forall_mem_cons.mp hb
    obtain ⟨u, hpush, hu⟩ := h.push hw hl
    obtain ⟨v, hv, hrest⟩ := ih hls hu
    refine ⟨v, ?_, fun rest => ?_⟩
    · rwa [List.toFinset_cons, Finset.union_insert, ← Finset.insert_union]
    · rw [List.cons_append, I.extend_cons, hpush]
      exact hrest rest

theorem answers (h : I.Implements ρ holds) (hw : holds w A) (r : Request) :
    ∃ B, ρ.Answers A r (I.perform w r).1 B ∧ holds (I.perform w r).2 B := by
  cases r with
  | push l =>
    rw [perform]
    by_cases hl : l ∈ ρ.labels
    · obtain ⟨v, hpush, hv⟩ := h.push hw hl
      rw [hpush]
      exact ⟨_, .push hl, hv⟩
    · rw [h.push_absent hw hl]
      exact ⟨A, .pushAbsent hl, hw⟩
  | extend ls =>
    rw [perform]
    -- The first label without rank divides the list.
    cases hfind : ls.find? (· ∉ ρ.labels) with
    | none =>
      have hls : ∀ l ∈ ls, l ∈ ρ.labels := by simpa using hfind
      obtain ⟨v, hv, hrest⟩ := h.extend_append hls hw
      have hextend := hrest []
      rw [List.append_nil, I.extend_nil] at hextend
      rw [hextend]
      exact ⟨_, .extend hls, hv⟩
    | some l =>
      obtain ⟨hl, before, after, rfl, hbefore⟩ := List.find?_eq_some_iff_append.mp hfind
      have hl : l ∉ ρ.labels := of_decide_eq_true hl
      have hbefore : ∀ x ∈ before, x ∈ ρ.labels := by simpa using hbefore
      obtain ⟨v, hv, hrest⟩ := h.extend_append hbefore hw
      rw [hrest, I.extend_cons, h.push_absent hv hl]
      exact ⟨_, .extendAbsent hbefore hl, hv⟩
  | pop =>
    rw [perform]
    obtain rfl | hA := A.eq_empty_or_nonempty
    · rw [h.pop_empty hw]
      exact ⟨∅, .popEmpty, hw⟩
    · obtain ⟨l, v, hpop, hl, hmin, hv⟩ := h.pop hw hA
      rw [hpop]
      exact ⟨_, .pop hl hmin, hv⟩

theorem runs (h : I.Implements ρ holds) (hw : holds w A) (requests : List Request) :
    ∃ B, ρ.Runs A requests (I.run w requests).1 B ∧ holds (I.run w requests).2 B := by
  induction requests generalizing w A with
  | nil => exact ⟨A, .done, hw⟩
  | cons r rs ih =>
    obtain ⟨B, hanswer, hB⟩ := h.answers hw r
    obtain ⟨C, hruns, hC⟩ := ih hB
    exact ⟨C, .next hanswer hruns, hC⟩

/-- The rank rises strictly because no two labels share one. -/
theorem drains (h : I.Implements ρ holds) (hw : holds w A) : I.Drains ρ w A := by
  induction A using Finset.strongInduction generalizing w with
  | H A ih =>
    obtain rfl | hA := A.eq_empty_or_nonempty
    · have hdrain : I.drain w = ([], w) := by rw [I.drain_eq, h.pop_empty hw]
      refine ⟨?_, fun l => ?_, ?_⟩
      · simp [hdrain]
      · simp [hdrain]
      · rw [hdrain]
        exact h.shows hw
    · obtain ⟨l, v, hpop, hl, hmin, hv⟩ := h.pop hw hA
      have hdrain : I.drain w = (l :: (I.drain v).1, (I.drain v).2) := by rw [I.drain_eq, hpop]
      obtain ⟨hrising, hmem, hleft⟩ := ih _ (Finset.erase_ssubset hl) hv
      have hbelow : ∀ m ∈ (I.drain v).1, ρ.rank l < ρ.rank m := by
        intro m hm
        obtain ⟨hne, hm⟩ := Finset.mem_erase.mp ((hmem m).mp hm)
        refine lt_of_le_of_ne (hmin m hm) fun he => hne ?_
        exact (ρ.numbered.injOn (h.inside hw hl) (h.inside hw hm) he).symm
      refine ⟨?_, fun m => ?_, ?_⟩
      · rw [hdrain]
        exact List.pairwise_cons.mpr ⟨hbelow, hrising⟩
      · rw [hdrain, List.mem_cons, hmem, Finset.mem_erase]
        constructor
        · rintro (rfl | ⟨_, hm⟩)
          · exact hl
          · exact hm
        · exact fun hm => (eq_or_ne m l).imp_right fun hne => ⟨hne, hm⟩
      · rw [hdrain]
        exact hleft

theorem refines (h : I.Implements ρ holds) (hw : holds w ∅) : I.Refines ρ w := by
  intro requests
  obtain ⟨A, hruns, hA⟩ := h.runs hw requests
  exact ⟨A, hruns, h.shows hA, h.drains hA⟩

end Implements
end Interface
end Worklist
end FlowAnalysis
