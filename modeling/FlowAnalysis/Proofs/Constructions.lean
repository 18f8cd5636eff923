import Mathlib.Data.List.Perm.Subperm
import FlowAnalysis.Lattice.FiniteSet
import FlowAnalysis.Lattice.Flat
import FlowAnalysis.Proofs.Domains

/-! # The basic domains are lawful

Truth values, the subsets of a universe and flat lattices are lawful meet
domains, and a new bottom below a lawful join domain leaves it lawful. Orders
and operations are defined apart from each other for all of them, so each is
taken apart on its own.
-/
namespace FlowAnalysis
variable {α Ctx T : Type}

theorem lawfulMeet_bool : LawfulMeet () fun _ : Bool => True := by
  constructor
  · constructor <;> simp [Leq] <;> decide
  all_goals simp <;> decide

namespace FiniteSet
variable [DecidableEq T] {s t : FiniteSet T}

omit [DecidableEq T] in
theorem subset_antisymm_iff : s = t ↔ s ⊆ t ∧ t ⊆ s :=
  ⟨fun h => h ▸ ⟨fun _ => id, fun _ => id⟩, fun h => ext fun x => ⟨h.1 x, h.2 x⟩⟩

theorem compare?_eq_some_eq : FlowAnalysis.compare? s t = some .eq ↔ s = t := by
  rw [subset_antisymm_iff]
  simp only [FlowAnalysis.compare?, compare?]
  split <;> simp_all

theorem compare?_swap : FlowAnalysis.compare? t s = (FlowAnalysis.compare? s t).map Ordering.swap := by
  simp only [FlowAnalysis.compare?, compare?]
  cases decide (s ⊆ t) <;> cases decide (t ⊆ s) <;> rfl

theorem leq_iff_subset : Leq s t ↔ s ⊆ t := by
  simp only [Leq, FlowAnalysis.compare?, compare?]
  split <;> simp_all

theorem leq_iff_union : Leq s t ↔ s.union t = t := by
  rw [leq_iff_subset]
  constructor
  · intro hst
    ext x
    simpa using hst x
  · intro hst x hx
    rw [← hst]
    simp [hx]

omit [DecidableEq T] in
theorem size_le_of_subset (h : s ⊆ t) : s.size ≤ t.size := by
  induction s using Quot.ind with
  | mk a =>
    induction t using Quot.ind with
    | mk b => exact (List.subperm_of_subset a.2 h).length_le

omit [DecidableEq T] in
theorem size_lt_of_subset (h : s ⊆ t) (hne : s ≠ t) : s.size < t.size := by
  refine lt_of_le_of_ne (size_le_of_subset h) fun hsize => hne ?_
  induction s using Quot.ind with
  | mk a =>
    induction t using Quot.ind with
    | mk b =>
      have hperm : a.1.Perm b.1 := (List.subperm_of_subset a.2 h).perm_of_length_le hsize.ge
      exact Quot.sound fun _ => hperm.mem_iff

theorem lawfulMeet (u : Universe T) : LawfulMeet u fun s : FiniteSet T => s ⊆ u.full where
  drawn_bottom x hx := absurd hx (not_mem_empty x)
  drawn_join hs ht x hx := (mem_union.mp hx).elim (hs x) (ht x)
  comm _ _ := ext fun x => by simp [FlowAnalysis.join, or_comm]
  assoc _ _ _ := ext fun x => by simp [FlowAnalysis.join, or_assoc]
  idem _ := ext fun x => by simp [FlowAnalysis.join]
  bottom_join _ := ext fun x => by simp [FlowAnalysis.join, FlowAnalysis.bottom]
  compare?_eq_iff _ _ := compare?_eq_some_eq
  compare?_swap _ _ := compare?_swap
  leq_iff _ _ := leq_iff_union
  drawn_top x := id
  drawn_meet hs _ x hx := hs x (mem_inter.mp hx).1
  meet_comm _ _ := ext fun x => by simp [FlowAnalysis.meet, and_comm]
  meet_assoc _ _ _ := ext fun x => by simp [FlowAnalysis.meet, and_assoc]
  top_meet hs := ext fun x => by simpa [FlowAnalysis.meet, FlowAnalysis.top] using hs x
  join_meet _ _ := ext fun x => by simp +contextual [FlowAnalysis.join, FlowAnalysis.meet]
  meet_join _ _ := ext fun x => by simp +contextual [FlowAnalysis.join, FlowAnalysis.meet]

end FiniteSet

namespace Flat
variable [DecidableEq T] {a b : Flat T}

theorem compare?_eq_some_eq : compare? a b = some .eq ↔ a = b := by
  cases a <;> cases b <;> simp [compare?]

theorem compare?_swap : compare? b a = (compare? a b).map Ordering.swap := by
  cases a <;> cases b <;> grind [compare?, Ordering.swap]

theorem leq_iff : Leq a b ↔ a = .bottom ∨ b = .top ∨ a = b := by
  simp only [Leq, FlowAnalysis.compare?]
  cases a <;> cases b <;> simp [compare?]

theorem leq_iff_join : Leq a b ↔ join a b = b := by
  rw [leq_iff]
  cases a <;> cases b <;> grind [join]

theorem join_comm (a b : Flat T) : join a b = join b a := by
  cases a <;> cases b <;> grind [join]

theorem join_assoc (a b c : Flat T) : join (join a b) c = join a (join b c) := by
  cases a <;> cases b <;> cases c <;> grind [join]

theorem meet_comm (a b : Flat T) : meet a b = meet b a := by
  cases a <;> cases b <;> grind [meet]

theorem meet_assoc (a b c : Flat T) : meet (meet a b) c = meet a (meet b c) := by
  cases a <;> cases b <;> cases c <;> grind [meet]

theorem join_meet (a b : Flat T) : join a (meet a b) = a := by
  cases a <;> cases b <;> grind [join, meet]

theorem meet_join (a b : Flat T) : meet a (join a b) = a := by
  cases a <;> cases b <;> grind [join, meet]

theorem lawfulMeet : LawfulMeet () fun _ : Flat T => True where
  drawn_bottom := trivial
  drawn_join _ _ := trivial
  comm _ _ := join_comm _ _
  assoc _ _ _ := join_assoc _ _ _
  idem := fun {a} _ => by cases a <;> simp [FlowAnalysis.join, join]
  bottom_join _ := rfl
  compare?_eq_iff _ _ := compare?_eq_some_eq
  compare?_swap _ _ := compare?_swap
  leq_iff _ _ := leq_iff_join
  drawn_top := trivial
  drawn_meet _ _ := trivial
  meet_comm _ _ := meet_comm _ _
  meet_assoc _ _ _ := meet_assoc _ _ _
  top_meet _ := rfl
  join_meet _ _ := join_meet _ _
  meet_join _ _ := meet_join _ _

end Flat

/-- Nothing, or an element drawn from the context. -/
def DrawnLifted (drawn : α → Prop) (x : Option α) : Prop := ∀ a ∈ x, drawn a

section Lifted
variable [JoinDomain α Ctx] {ctx : Ctx} {drawn : α → Prop} {a b : α} {x : Option α}

@[simp] theorem none_join : join none x = x := by cases x <;> rfl

@[simp] theorem join_none : join x none = x := by cases x <;> rfl

@[simp] theorem some_join_some : join (some a) (some b) = some (join a b) := rfl

@[simp] theorem none_leq : Leq none x := by cases x <;> simp [Leq, compare?]

@[simp] theorem not_some_leq_none : ¬Leq (some a) none := by simp [Leq, compare?]

theorem DrawnLifted.join (h : LawfulJoin ctx drawn) {y : Option α} (hx : DrawnLifted drawn x)
    (hy : DrawnLifted drawn y) : DrawnLifted drawn (join x y) := by
  match x, y with
  | none, y => simpa using hy
  | some a, none => exact hx
  | some a, some b =>
    rintro _ ⟨⟩
    exact h.drawn_join (hx a rfl) (hy b rfl)

/-- The new bottom is a unit of joining, and above it the laws are those of the domain. -/
theorem LawfulJoin.lifted (h : LawfulJoin ctx drawn) : LawfulJoin ctx (DrawnLifted drawn) where
  drawn_bottom := nofun
  drawn_join := .join h
  comm := fun {x y} hx hy => by
    match x, y with
    | none, _ => simp
    | some _, none => simp
    | some a, some b => exact congrArg some (h.comm (hx a rfl) (hy b rfl))
  assoc := fun {x y z} hx hy hz => by
    match x, y, z with
    | none, _, _ => simp
    | some _, none, _ => simp
    | some _, some _, none => simp
    | some a, some b, some c => exact congrArg some (h.assoc (hx a rfl) (hy b rfl) (hz c rfl))
  idem := fun {x} hx => by
    match x with
    | none => rfl
    | some a => exact congrArg some (h.idem (hx a rfl))
  bottom_join _ := none_join
  compare?_eq_iff := fun {x y} hx hy => by
    match x, y with
    | none, none => simp [compare?]
    | none, some _ => simp [compare?]
    | some _, none => simp [compare?]
    | some a, some b => exact (h.compare?_eq_iff (hx a rfl) (hy b rfl)).trans Option.some_inj.symm
  compare?_swap := fun {x y} hx hy => by
    match x, y with
    | none, none => rfl
    | none, some _ => rfl
    | some _, none => rfl
    | some a, some b => exact h.compare?_swap (hx a rfl) (hy b rfl)
  leq_iff := fun {x y} hx hy => by
    match x, y with
    | none, _ => simp
    | some _, none => simp
    | some a, some b => exact (h.leq_iff (hx a rfl) (hy b rfl)).trans Option.some_inj.symm

end Lifted
end FlowAnalysis
