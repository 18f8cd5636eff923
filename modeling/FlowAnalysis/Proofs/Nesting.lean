import FlowAnalysis.Proofs.Constructions
import FlowAnalysis.Proofs.Maps

/-! # Nested domains

Domains are built of each other to any depth. What a nesting draws from its
context is given along with it, constructor by constructor: the sets lie inside
the universe, the maps are built of values that were drawn. One induction over
the nesting then carries the laws from the inside to the outside.
-/
namespace FlowAnalysis
variable {α β γ Ctx : Type}

/-- Meet domains: the basic ones, turned upside down any number of times. -/
inductive MeetNesting : (α Ctx : Type) → [MeetDomain α Ctx] → (Ctx → α → Prop) → Prop
  | bool : MeetNesting Bool Unit fun _ _ => True
  | set (T : Type) [DecidableEq T] :
      MeetNesting (FiniteSet T) (FiniteSet.Universe T) fun u s => s ⊆ u.full
  | flat (T : Type) [DecidableEq T] : MeetNesting (Flat T) Unit fun _ _ => True
  | dual {α Ctx : Type} [MeetDomain α Ctx] {drawn : Ctx → α → Prop} :
      MeetNesting α Ctx drawn → MeetNesting (Dual α) Ctx fun ctx a => drawn ctx a.inner

/-- Join domains: meet domains, new bottoms below a domain and maps into one that needs no context. -/
inductive JoinNesting : (α Ctx : Type) → [JoinDomain α Ctx] → (Ctx → α → Prop) → Prop
  | lattice {α Ctx : Type} [MeetDomain α Ctx] {drawn : Ctx → α → Prop} :
      MeetNesting α Ctx drawn → JoinNesting α Ctx drawn
  | lifted {α Ctx : Type} [JoinDomain α Ctx] {drawn : Ctx → α → Prop} :
      JoinNesting α Ctx drawn → JoinNesting (Option α) Ctx fun ctx => DrawnLifted (drawn ctx)
  | pointwise (K : Type) [Ord K] [Std.TransOrd K] [Std.LawfulEqOrd K] {V : Type} [DecidableEq V]
      [JoinDomain V Unit] {drawn : Unit → V → Prop} :
      JoinNesting V Unit drawn → JoinNesting (Pointwise K V) Unit fun _ => Pointwise.Built (drawn ())

theorem MeetNesting.lawful [MeetDomain α Ctx] {drawn : Ctx → α → Prop}
    (h : MeetNesting α Ctx drawn) (ctx : Ctx) : LawfulMeet ctx (drawn ctx) := by
  induction h with
  | bool => exact lawfulMeet_bool
  | set => exact FiniteSet.lawfulMeet ctx
  | flat => exact Flat.lawfulMeet
  | dual _ ih => exact (ih ctx).dual

theorem JoinNesting.lawful [JoinDomain α Ctx] {drawn : Ctx → α → Prop}
    (h : JoinNesting α Ctx drawn) (ctx : Ctx) : LawfulJoin ctx (drawn ctx) := by
  induction h with
  | lattice h => exact (h.lawful ctx).toLawfulJoin
  | lifted _ ih => exact (ih ctx).lifted
  | pointwise _ _ ih => exact Pointwise.lawfulJoin_built (ih ())

/-- Whatever domains are nested, the order is partial, joining gives least upper bounds for it, and
bottom is the least element and a unit of joining. -/
theorem nested_joins_lawful [JoinDomain α Ctx] {drawn : Ctx → α → Prop}
    (h : JoinNesting α Ctx drawn) (ctx : Ctx) : JoinLaws ctx (drawn ctx) := (h.lawful ctx).laws

theorem nested_joins_lawful_maps_of_maps :
    JoinLaws () (Pointwise.Built (DrawnLifted (Pointwise.Built fun _ => True)) :
      Pointwise Nat (Option (Pointwise Int (Dual (Flat String)))) → Prop) :=
  nested_joins_lawful (.pointwise Nat (.lifted (.pointwise Int (.lattice (.dual (.flat String)))))) ()

/-- Along this map each operation becomes the opposite one, and the order is turned around. -/
structure Exchanges [MeetDomain α Ctx] [MeetDomain β Ctx] (f : α → β) : Prop where
  bijective : f.Bijective
  map_bottom : ∀ ctx : Ctx, f (bottom ctx) = top ctx
  map_top : ∀ ctx : Ctx, f (top ctx) = bottom ctx
  map_join : ∀ a b, f (join a b) = meet (f a) (f b)
  map_meet : ∀ a b, f (meet a b) = join (f a) (f b)
  map_joinAll : ∀ (ctx : Ctx) xs, f (joinAll ctx xs) = meetAll ctx (xs.map f)
  map_meetAll : ∀ (ctx : Ctx) xs, f (meetAll ctx xs) = joinAll ctx (xs.map f)
  map_compare? : ∀ a b, compare? (f a) (f b) = compare? b a

/-- Along this map each operation becomes the same one. -/
structure Agrees [MeetDomain α Ctx] [MeetDomain β Ctx] (f : α → β) : Prop where
  bijective : f.Bijective
  map_bottom : ∀ ctx : Ctx, f (bottom ctx) = bottom ctx
  map_top : ∀ ctx : Ctx, f (top ctx) = top ctx
  map_join : ∀ a b, f (join a b) = join (f a) (f b)
  map_meet : ∀ a b, f (meet a b) = meet (f a) (f b)
  map_joinAll : ∀ (ctx : Ctx) xs, f (joinAll ctx xs) = joinAll ctx (xs.map f)
  map_meetAll : ∀ (ctx : Ctx) xs, f (meetAll ctx xs) = meetAll ctx (xs.map f)
  map_compare? : ∀ a b, compare? (f a) (f b) = compare? a b

section Upside
variable [MeetDomain α Ctx]

/-- Turning a domain upside down is exact, of single elements as of lists of them. -/
theorem exchanges_dual : Exchanges (Dual.mk : α → Dual α) where
  bijective := ⟨fun _ _ => congrArg Dual.inner, fun a => ⟨a.inner, rfl⟩⟩
  map_bottom _ := rfl
  map_top _ := rfl
  map_join _ _ := rfl
  map_meet _ _ := rfl
  map_joinAll ctx xs := map_mergeAll (fun _ _ => rfl) (JoinDomain.bottom ctx) xs
  map_meetAll ctx xs := map_mergeAll (fun _ _ => rfl) (MeetDomain.top ctx) xs
  map_compare? _ _ := rfl

variable [MeetDomain β Ctx] [MeetDomain γ Ctx] {g : β → γ} {f : α → β}

theorem Exchanges.comp (hg : Exchanges g) (hf : Exchanges f) : Agrees (g ∘ f) where
  bijective := hg.bijective.comp hf.bijective
  map_bottom ctx := (congrArg g (hf.map_bottom ctx)).trans (hg.map_top ctx)
  map_top ctx := (congrArg g (hf.map_top ctx)).trans (hg.map_bottom ctx)
  map_join a b := (congrArg g (hf.map_join a b)).trans (hg.map_meet _ _)
  map_meet a b := (congrArg g (hf.map_meet a b)).trans (hg.map_join _ _)
  map_joinAll ctx xs := by rw [Function.comp_apply, hf.map_joinAll, hg.map_meetAll, List.map_map]
  map_meetAll ctx xs := by rw [Function.comp_apply, hf.map_meetAll, hg.map_joinAll, List.map_map]
  map_compare? a b := (hg.map_compare? _ _).trans (hf.map_compare? _ _)

end Upside

/-- However often a basic domain is turned upside down, meeting gives greatest lower bounds and is
absorbed by joining, and turning it once more is exact and turning it twice more undoes itself. -/
theorem nested_meets_lawful [MeetDomain α Ctx] {drawn : Ctx → α → Prop} (h : MeetNesting α Ctx drawn) :
    (∀ ctx, MeetLaws ctx (drawn ctx)) ∧ Exchanges (Dual.mk : α → Dual α) ∧
      Agrees ((Dual.mk : Dual α → Dual (Dual α)) ∘ Dual.mk) :=
  ⟨fun ctx => (h.lawful ctx).laws, exchanges_dual, exchanges_dual.comp exchanges_dual⟩

theorem nested_meets_lawful_dual_dual_sets :
    MeetLaws (⟨FiniteSet.ofList [1, 2, 3]⟩ : FiniteSet.Universe Nat)
        (fun s : Dual (Dual (FiniteSet Nat)) => s.inner.inner ⊆ FiniteSet.ofList [1, 2, 3]) ∧
      Exchanges (Dual.mk : Dual (Dual (FiniteSet Nat)) → Dual (Dual (Dual (FiniteSet Nat)))) :=
  have h := nested_meets_lawful (.dual (.dual (.set Nat)))
  ⟨h.1 ⟨FiniteSet.ofList [1, 2, 3]⟩, h.2.1⟩

end FlowAnalysis
