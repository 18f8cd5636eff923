import FlowAnalysis.Lattice.Basic

/-! # Order duals

The same elements upside down: bottom and top, join and meet change places.
-/
namespace FlowAnalysis

structure Dual (α : Type) where
  inner : α
  deriving DecidableEq, Repr

variable {α Ctx : Type}

instance [MeetDomain α Ctx] : MeetDomain (Dual α) Ctx where
  bottom ctx := ⟨top ctx⟩
  join a b := ⟨meet a.inner b.inner⟩
  compare? a b := compare? b.inner a.inner
  top ctx := ⟨bottom ctx⟩
  meet a b := ⟨join a.inner b.inner⟩

instance [FactText α] : FactText (Dual α) := ⟨fun a => "Flipped(" ++ text a.inner ++ ")"⟩

end FlowAnalysis
