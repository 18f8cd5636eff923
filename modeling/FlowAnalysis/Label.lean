import Std.Data.ExtTreeMap
import Std.Data.ExtTreeSet

/-! # Labels, sets of labels and maps from labels

Nodes are known by 64-bit words. Labelled sets and maps are compared by their
contents alone, so two maps that answer every look-up alike are equal, and both
are listed in ascending order.
-/
namespace FlowAnalysis

abbrev Label := UInt64

def Label.last : Label := 0xFFFFFFFFFFFFFFFF

/-- The label that follows; the last label is followed by itself. -/
def Label.following (l : Label) : Label := if l = Label.last then l else l + 1

theorem Label.toNat_following (l : Label) :
    l.following.toNat = min (l.toNat + 1) Label.last.toNat := by
  unfold Label.following
  split
  · next h =>
    subst h
    rfl
  · next h =>
    have hne : l.toNat ≠ Label.last.toNat := fun he => h (UInt64.toNat_inj.mp he)
    have hlast : Label.last.toNat = 2 ^ 64 - 1 := rfl
    have hlt := l.toNat_lt
    have hone : (1 : UInt64).toNat = 1 := rfl
    rw [UInt64.toNat_add, hone, Nat.mod_eq_of_lt (by omega)]
    omega

theorem Label.following_le {a b : Label} (h : a ≤ b) : a.following ≤ b.following := by
  rw [UInt64.le_iff_toNat_le] at h ⊢
  rw [Label.toNat_following, Label.toNat_following]
  omega

theorem Label.le_last (l : Label) : l ≤ Label.last := by
  have hlast : Label.last.toNat = 2 ^ 64 - 1 := rfl
  have hlt := l.toNat_lt
  rw [UInt64.le_iff_toNat_le]
  omega

theorem Label.lt_following {l : Label} (h : l ≠ Label.last) : l < l.following := by
  have hne : l.toNat ≠ Label.last.toNat := fun he => h (UInt64.toNat_inj.mp he)
  have hle := UInt64.le_iff_toNat_le.mp l.le_last
  rw [UInt64.lt_iff_toNat_lt, Label.toNat_following]
  omega

theorem Label.max_eq_right {a b : Label} (h : a ≤ b) : max a b = b := if_pos h

theorem Label.max_eq_left {a b : Label} (h : b ≤ a) : max a b = a := by
  by_cases hab : a ≤ b
  · exact (if_pos hab).trans (UInt64.le_antisymm h hab)
  · exact if_neg hab

abbrev LabelSet := Std.ExtTreeSet Label

abbrev LabelMap (α : Type) := Std.ExtTreeMap Label α

structure Absent where
  label : Label
  deriving DecidableEq, Repr

def Absent.message (e : Absent) : String := "label " ++ toString e.label ++ " is not part of the graph"

namespace LabelMap
variable {α : Type}

/-- The value at a label that has to be there. -/
def fetch (m : LabelMap α) (l : Label) : Except Absent α :=
  match m[l]? with
  | some a => .ok a
  | none => .error ⟨l⟩

theorem fetch_eq_ok_iff {m : LabelMap α} {l : Label} {a : α} :
    fetch m l = .ok a ↔ m[l]? = some a := by
  unfold fetch
  cases m[l]? <;> simp

def const (ls : List Label) (a : α) : LabelMap α := ls.foldl (fun m l => m.insert l a) ∅

end LabelMap
end FlowAnalysis
