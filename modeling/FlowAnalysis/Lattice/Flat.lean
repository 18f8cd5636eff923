import FlowAnalysis.Lattice.Basic

/-! # Flat lattices

Unordered values between a bottom that stands for no value and a top that
stands for any value.
-/
namespace FlowAnalysis

inductive Flat (T : Type) where
  | bottom
  | value (x : T)
  | top
  deriving DecidableEq, Repr

namespace Flat
variable {T : Type}

def value? : Flat T → Option T
  | value x => some x
  | _ => none

variable [DecidableEq T]

def join : Flat T → Flat T → Flat T
  | bottom, y => y
  | x, bottom => x
  | value a, value b => if a = b then value a else top
  | _, _ => top

def meet : Flat T → Flat T → Flat T
  | top, y => y
  | x, top => x
  | value a, value b => if a = b then value a else bottom
  | _, _ => bottom

def compare? : Flat T → Flat T → Option Ordering
  | bottom, bottom => some .eq
  | top, top => some .eq
  | bottom, _ => some .lt
  | _, top => some .lt
  | _, bottom => some .gt
  | top, _ => some .gt
  | value a, value b => if a = b then some .eq else none

instance : MeetDomain (Flat T) Unit where
  bottom _ := bottom
  join := join
  compare? := compare?
  top _ := top
  meet := meet

end Flat

instance {T : Type} [FactText T] : FactText (Flat T) where
  text
    | .bottom => "Bottom"
    | .value x => "Value(" ++ text x ++ ")"
    | .top => "Top"

end FlowAnalysis
