import Std.Data.ExtTreeSet
import FlowAnalysis.Lattice.Basic

/-! # Finite sets and the power set lattice

A finite set is a list without repeats of which only the members count, so two
sets are equal when they have the same members. Nothing but equality of
elements is needed; an order of the elements is used only to list them.

Sets are ordered by inclusion. The largest set depends on the universe.
-/
namespace FlowAnalysis

abbrev Listing (T : Type) := { xs : List T // xs.Nodup }

/-- Listings count as equal when they have the same members. -/
def Listing.SameMembers {T : Type} (a b : Listing T) : Prop := ∀ x, x ∈ a.1 ↔ x ∈ b.1

theorem Listing.perm {T : Type} {a b : Listing T} (h : a.SameMembers b) : a.1.Perm b.1 :=
  (List.perm_ext_iff_of_nodup a.2 b.2).mpr h

def FiniteSet (T : Type) : Type := Quot (@Listing.SameMembers T)

namespace FiniteSet
variable {T U : Type}

def ofListing (a : Listing T) : FiniteSet T := Quot.mk _ a

instance : Membership T (FiniteSet T) where
  mem s x := Quot.lift (fun a : Listing T => x ∈ a.1) (fun _ _ h => propext (h x)) s

@[simp] theorem mem_ofListing {a : Listing T} {x : T} : x ∈ ofListing a ↔ x ∈ a.1 := Iff.rfl

@[ext] theorem ext {s t : FiniteSet T} (h : ∀ x, x ∈ s ↔ x ∈ t) : s = t := by
  induction s using Quot.ind
  induction t using Quot.ind
  exact Quot.sound h

def size (s : FiniteSet T) : Nat :=
  Quot.lift (fun a : Listing T => a.1.length) (fun _ _ h => (Listing.perm h).length_eq) s

def empty : FiniteSet T := ofListing ⟨[], List.nodup_nil⟩

@[simp] theorem not_mem_empty (x : T) : ¬x ∈ (empty : FiniteSet T) := by simp [empty]

def filter (p : T → Bool) (s : FiniteSet T) : FiniteSet T :=
  Quot.lift (fun a : Listing T => ofListing ⟨a.1.filter p, a.2.filter p⟩)
    (fun a b h => ext fun x => by simp [h x]) s

@[simp] theorem mem_filter {p : T → Bool} {s : FiniteSet T} {x : T} :
    x ∈ s.filter p ↔ x ∈ s ∧ p x := by
  induction s using Quot.ind
  exact List.mem_filter

variable [DecidableEq T]

instance (x : T) (s : FiniteSet T) : Decidable (x ∈ s) :=
  Quot.recOnSubsingleton s fun a => inferInstanceAs (Decidable (x ∈ a.1))

def insertListing (x : T) (a : Listing T) : Listing T :=
  if h : x ∈ a.1 then a else ⟨x :: a.1, List.nodup_cons.mpr ⟨h, a.2⟩⟩

theorem mem_insertListing {x y : T} {a : Listing T} :
    y ∈ (insertListing x a).1 ↔ y = x ∨ y ∈ a.1 := by
  unfold insertListing
  split
  · next h => exact ⟨Or.inr, fun hy => hy.elim (fun e => e ▸ h) id⟩
  · exact List.mem_cons

def insert (x : T) (s : FiniteSet T) : FiniteSet T :=
  Quot.lift (fun a : Listing T => ofListing (insertListing x a))
    (fun a b h => ext fun y => by
      simp only [mem_ofListing, mem_insertListing, h y]) s

@[simp] theorem mem_insert {x y : T} {s : FiniteSet T} : y ∈ s.insert x ↔ y = x ∨ y ∈ s := by
  induction s using Quot.ind
  exact mem_insertListing

def erase (x : T) (s : FiniteSet T) : FiniteSet T := s.filter (· ≠ x)

@[simp] theorem mem_erase {x y : T} {s : FiniteSet T} : y ∈ s.erase x ↔ y ∈ s ∧ y ≠ x := by
  simp [erase]

def insertAll (xs : List T) (s : FiniteSet T) : FiniteSet T := xs.foldr insert s

@[simp] theorem mem_insertAll {xs : List T} {s : FiniteSet T} {y : T} :
    y ∈ s.insertAll xs ↔ y ∈ xs ∨ y ∈ s := by
  induction xs with
  | nil => simp [insertAll]
  | cons x xs ih =>
    rw [List.mem_cons, or_assoc, ← ih]
    exact mem_insert

def ofList (xs : List T) : FiniteSet T := empty.insertAll xs

@[simp] theorem mem_ofList {xs : List T} {y : T} : y ∈ ofList xs ↔ y ∈ xs := by simp [ofList]

def union (s t : FiniteSet T) : FiniteSet T :=
  Quot.lift (fun a : Listing T => t.insertAll a.1)
    (fun a b h => ext fun x => by simp [h x]) s

@[simp] theorem mem_union {s t : FiniteSet T} {x : T} : x ∈ s.union t ↔ x ∈ s ∨ x ∈ t := by
  induction s using Quot.ind
  exact mem_insertAll

def inter (s t : FiniteSet T) : FiniteSet T := s.filter (· ∈ t)

@[simp] theorem mem_inter {s t : FiniteSet T} {x : T} : x ∈ s.inter t ↔ x ∈ s ∧ x ∈ t := by
  simp [inter]

def image [DecidableEq U] (f : T → U) (s : FiniteSet T) : FiniteSet U :=
  Quot.lift (fun a : Listing T => ofList (a.1.map f))
    (fun a b h => ext fun y => by simp [show ∀ x, x ∈ a.1 ↔ x ∈ b.1 from h]) s

instance : HasSubset (FiniteSet T) := ⟨fun s t => ∀ x, x ∈ s → x ∈ t⟩

instance (s t : FiniteSet T) : Decidable (s ⊆ t) :=
  Quot.recOnSubsingleton s fun a => inferInstanceAs (Decidable (∀ x, x ∈ a.1 → x ∈ t))

instance : DecidableEq (FiniteSet T) := fun s t =>
  decidable_of_iff (s ⊆ t ∧ t ⊆ s)
    ⟨fun h => ext fun x => ⟨h.1 x, h.2 x⟩, fun h => h ▸ ⟨fun _ => id, fun _ => id⟩⟩

def toSortedList [Ord T] [Std.TransOrd T] [Std.LawfulEqOrd T] (s : FiniteSet T) : List T :=
  Quot.lift (fun a : Listing T => (Std.ExtTreeSet.ofList a.1).toList)
    (fun a b h => by
      have he : Std.ExtTreeSet.ofList a.1 = Std.ExtTreeSet.ofList b.1 :=
        Std.ExtTreeSet.ext_mem fun x => by simpa [Std.ExtTreeSet.mem_ofList] using h x
      rw [he]) s

/-- The full set of a power set lattice. -/
structure Universe (T : Type) where
  full : FiniteSet T

def compare? (s t : FiniteSet T) : Option Ordering :=
  match decide (t ⊆ s), decide (s ⊆ t) with
  | true, true => some .eq
  | true, false => some .gt
  | false, true => some .lt
  | false, false => none

instance : MeetDomain (FiniteSet T) (Universe T) where
  bottom _ := empty
  join := union
  compare? := compare?
  top u := u.full
  meet := inter

omit [DecidableEq T] in
/-- Sorting makes lists of texts equal that differ only in order. -/
theorem mergeSort_eq_of_perm {xs ys : List String} (h : xs.Perm ys) :
    xs.mergeSort (fun x y => (compare x y).isLE) = ys.mergeSort (fun x y => (compare x y).isLE) := by
  have trans : ∀ x y z : String, (compare x y).isLE = true → (compare y z).isLE = true →
      (compare x z).isLE = true := fun _ _ _ => Std.TransCmp.isLE_trans
  have total : ∀ x y : String, ((compare x y).isLE || (compare y x).isLE) = true := fun x y => by
    have hswap : compare y x = (compare x y).swap := Std.OrientedCmp.eq_swap
    rw [hswap]
    cases compare x y <;> rfl
  refine List.Perm.eq_of_pairwise (fun x y _ _ hxy hyx => ?_) (List.pairwise_mergeSort trans total xs)
    (List.pairwise_mergeSort trans total ys)
    ((List.mergeSort_perm xs _).trans (h.trans (List.mergeSort_perm ys _).symm))
  exact Std.LawfulEqCmp.eq_of_compare (Std.OrientedCmp.isLE_antisymm hxy hyx)

/-- The texts of the members, in the order of the texts. -/
def texts [FactText T] (s : FiniteSet T) : List String :=
  Quot.lift
    (fun a : Listing T => (a.1.map text).mergeSort fun x y => (compare x y).isLE)
    (fun _ _ h => mergeSort_eq_of_perm ((Listing.perm h).map text)) s

instance [FactText T] : FactText (FiniteSet T) where
  text s := "\x7b" ++ ", ".intercalate s.texts ++ "\x7d"

end FiniteSet
end FlowAnalysis
