import FlowAnalysis.FactText
import FlowAnalysis.Merge

/-! # Lattices of facts

A join domain has a least element and least upper bounds, a meet domain has a
greatest element and greatest lower bounds as well. Two elements may be
incomparable. The least or the greatest element of some domains depends on a
universe that the elements do not carry; it is handed over as the context.
-/
namespace FlowAnalysis

class JoinDomain (α : Type) (Ctx : outParam Type) where
  bottom : Ctx → α
  join : α → α → α
  /-- How the first element stands to the second; nothing if they are incomparable. -/
  compare? : α → α → Option Ordering

class MeetDomain (α : Type) (Ctx : outParam Type) extends JoinDomain α Ctx where
  top : Ctx → α
  meet : α → α → α

export JoinDomain (bottom join compare?)
export MeetDomain (top meet)

variable {α Ctx : Type}

/-- The least upper bound of the elements, bottom if there are none. -/
def joinAll [JoinDomain α Ctx] (ctx : Ctx) (xs : List α) : α := mergeAll join (bottom ctx) xs

def meetAll [MeetDomain α Ctx] (ctx : Ctx) (xs : List α) : α := mergeAll meet (top ctx) xs

/-- False lies below true. -/
instance : MeetDomain Bool Unit where
  bottom _ := false
  join a b := a || b
  compare? a b := some (compare a b)
  top _ := true
  meet a b := a && b

/-- A new bottom below a domain, which often stands for code that is never reached. -/
instance [JoinDomain α Ctx] : JoinDomain (Option α) Ctx where
  bottom _ := none
  join
    | none, x => x
    | x, none => x
    | some a, some b => some (join a b)
  compare?
    | none, none => some .eq
    | none, some _ => some .lt
    | some _, none => some .gt
    | some a, some b => compare? a b

instance [FactText α] : FactText (Option α) where
  text
    | none => "None"
    | some a => "Some(" ++ text a ++ ")"

end FlowAnalysis
