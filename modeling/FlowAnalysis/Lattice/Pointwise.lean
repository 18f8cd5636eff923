import Std.Data.ExtTreeMap
import FlowAnalysis.Lattice.Basic

/-! # Maps into a domain, ordered pointwise

A key without entry maps to bottom. Bottom is never entered, so that maps are
equal as soon as they agree on every key. Joining goes through the entries of
the second map; comparing goes through the keys of both, and stops at the first
key that is incomparable or contradicts what the earlier ones said.
-/
namespace FlowAnalysis

structure Pointwise (K V : Type) [Ord K] where
  entries : Std.ExtTreeMap K V := ∅

namespace Pointwise
variable {K V : Type} [Ord K]

instance [DecidableEq V] [Std.TransOrd K] [Std.LawfulEqOrd K] : DecidableEq (Pointwise K V) :=
  fun a b => decidable_of_iff (a.entries = b.entries) ⟨fun h => by cases a; cases b; simp_all, fun h => h ▸ rfl⟩

def empty : Pointwise K V := {}

variable [Std.TransOrd K]

def size (m : Pointwise K V) : Nat := m.entries.size

def toList (m : Pointwise K V) : List (K × V) := m.entries.toList

variable [JoinDomain V Unit]

def get (m : Pointwise K V) (k : K) : V := m.entries[k]?.getD (bottom ())

variable [DecidableEq V]

def insert (m : Pointwise K V) (k : K) (v : V) : Pointwise K V :=
  if v = bottom () then ⟨m.entries.erase k⟩ else ⟨m.entries.insert k v⟩

/-- Inserts the pairs in order, so that the last value of a key counts. -/
def ofList (kvs : List (K × V)) : Pointwise K V := kvs.foldl (fun m e => m.insert e.1 e.2) empty

def join (a b : Pointwise K V) : Pointwise K V :=
  b.entries.foldl (fun m k v => m.insert k (FlowAnalysis.join (m.get k) v)) a

/-- What two keys say together, if they do not contradict each other. -/
def agree? : Ordering → Ordering → Option Ordering
  | .eq, o => some o
  | o, .eq => some o
  | .lt, .lt => some .lt
  | .gt, .gt => some .gt
  | _, _ => none

def compare? (a b : Pointwise K V) : Option Ordering :=
  (a.entries.keys ++ b.entries.keys).foldlM
    (fun verdict k => do agree? verdict (← FlowAnalysis.compare? (a.get k) (b.get k))) .eq

instance : JoinDomain (Pointwise K V) Unit where
  bottom _ := empty
  join := join
  compare? := compare?

end Pointwise

instance {K V : Type} [Ord K] [Std.TransOrd K] [FactText K] [FactText V] :
    FactText (Pointwise K V) where
  text m := "\x7b" ++ ", ".intercalate (m.toList.map fun e => text e.1 ++ ": " ++ text e.2) ++ "\x7d"

end FlowAnalysis
