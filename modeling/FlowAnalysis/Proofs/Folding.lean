import Mathlib.Order.Directed
import FlowAnalysis.Proofs.Nesting

/-! # Folding gives bounds

Merging a list of facts from left to right gives the least fact above all of
them, for every lawful merge. So it matters which facts are in the list, and
neither their order nor their number nor how the list is cut up. The fact that
stands for no facts comes in for the empty list alone.

In nested domains this makes of joining a list its least upper bound, and of
meeting it, upside down, its greatest lower bound. Lists with an element do not
need the context, so their bounds are bounds among the elements of all contexts:
finitely many elements have always one context in common.
-/
namespace FlowAnalysis
variable {F α Ctx : Type}

/-- The least of the given elements that are above the whole list. -/
structure LeastAbove (le : α → α → Prop) (among : α → Prop) (xs : List α) (a : α) : Prop where
  mem : among a
  above : ∀ x ∈ xs, le x a
  least : ∀ b, among b → (∀ x ∈ xs, le x b) → le a b

/-- The greatest of the given elements that are below the whole list. -/
def GreatestBelow (le : α → α → Prop) (among : α → Prop) (xs : List α) (a : α) : Prop :=
  LeastAbove (fun b c => le c b) among xs a

section Merging
variable {merge : F → F → F} {initial : F} {xs ys : List F}

/-- What folding facts comes to, with whatever fact it would begin if there were none. -/
structure FoldLaws (merge : F → F → F) : Prop where
  least : ∀ (initial : F) {xs : List F}, xs ≠ [] →
    LeastAbove (Below merge) (fun _ => True) xs (mergeAll merge initial xs)
  members : ∀ (initial initial' : F) {xs ys : List F}, xs ≠ [] → (∀ x, x ∈ xs ↔ x ∈ ys) →
    mergeAll merge initial xs = mergeAll merge initial' ys
  split : ∀ (initial initial' initial'' : F) {xs ys zs : List F}, ys ≠ [] → zs ≠ [] → xs.Perm (ys ++ zs) →
    mergeAll merge initial xs = merge (mergeAll merge initial' ys) (mergeAll merge initial'' zs)

theorem mergeAll_congr_initial (initial initial' : F) (h : xs ≠ []) :
    mergeAll merge initial xs = mergeAll merge initial' xs := by
  cases xs with
  | nil => exact absurd rfl h
  | cons x xs => rfl

namespace Semilattice

/-- The fact for the empty list does no harm if it is below all that the list is below. -/
theorem leastAbove_of_initial (h : Semilattice merge)
    (h0 : ∀ b, (∀ x ∈ xs, Below merge x b) → Below merge initial b) :
    LeastAbove (Below merge) (fun _ => True) xs (mergeAll merge initial xs) where
  mem := trivial
  above := fun _ => h.bounding.le_mergeAll initial
  least := fun b _ hb => h.mergeAll_below (h0 b hb) hb

theorem leastAbove (h : Semilattice merge) (initial : F) (hxs : xs ≠ []) :
    LeastAbove (Below merge) (fun _ => True) xs (mergeAll merge initial xs) := by
  obtain ⟨x, xs, rfl⟩ := List.exists_cons_of_ne_nil hxs
  rw [mergeAll_congr_initial initial x hxs]
  exact h.leastAbove_of_initial fun b hb => hb x List.mem_cons_self

theorem leastAbove_unique {a b : F} (h : Semilattice merge)
    (ha : LeastAbove (Below merge) (fun _ => True) xs a) (hb : LeastAbove (Below merge) (fun _ => True) ys b)
    (hmem : ∀ x, x ∈ xs ↔ x ∈ ys) : a = b :=
  h.antisymm (ha.least b trivial fun x hx => hb.above x ((hmem x).mp hx))
    (hb.least a trivial fun x hx => ha.above x ((hmem x).mpr hx))

theorem leastAbove_append {a b : F} (h : Semilattice merge)
    (ha : LeastAbove (Below merge) (fun _ => True) xs a) (hb : LeastAbove (Below merge) (fun _ => True) ys b) :
    LeastAbove (Below merge) (fun _ => True) (xs ++ ys) (merge a b) where
  mem := trivial
  above := fun x hx => by
    rcases List.mem_append.mp hx with hx | hx
    · exact h.bounding.trans (ha.above x hx) (h.bounding.left a b)
    · exact h.bounding.trans (hb.above x hx) (h.bounding.right a b)
  least := fun c _ hc => by
    obtain ⟨hxs, hys⟩ := List.forall_mem_append.mp hc
    exact @sup_le F h.order _ _ _ (ha.least c trivial hxs) (hb.least c trivial hys)

theorem foldLaws (h : Semilattice merge) : FoldLaws merge where
  least := fun initial _ hxs => h.leastAbove initial hxs
  members := fun initial initial' xs ys hxs hmem => by
    have hys : ys ≠ [] := by
      rintro rfl
      exact hxs (List.eq_nil_iff_forall_not_mem.mpr fun x hx => absurd ((hmem x).mp hx) List.not_mem_nil)
    exact h.leastAbove_unique (h.leastAbove initial hxs) (h.leastAbove initial' hys) hmem
  split := fun initial initial' initial'' xs ys zs hys hzs hsplit => by
    have hxs : xs ≠ [] := by
      rintro rfl
      exact hys (List.append_eq_nil_iff.mp hsplit.nil_eq.symm).1
    have hparts := h.leastAbove_append (h.leastAbove initial' hys) (h.leastAbove initial'' hzs)
    exact h.leastAbove_unique (h.leastAbove initial hxs) hparts fun _ => hsplit.mem_iff

end Semilattice
end Merging

/-- Joining a list of elements gives their least upper bound, which is bottom if there are none. If
there is one, they and the bound need not belong to the context, as long as each belongs to some. -/
structure JoinsLists [JoinDomain α Ctx] (drawn : Ctx → α → Prop) (ctx : Ctx) : Prop where
  empty : joinAll ctx ([] : List α) = bottom ctx
  least : ∀ {xs : List α}, (∀ x ∈ xs, drawn ctx x) → LeastAbove Leq (drawn ctx) xs (joinAll ctx xs)
  least_of_any : ∀ {xs : List α}, xs ≠ [] → (∀ x ∈ xs, ∃ c, drawn c x) →
    LeastAbove Leq (fun a => ∃ c, drawn c a) xs (joinAll ctx xs)

/-- Meeting a list of elements gives their greatest lower bound, which is top if there are none. If
there is one, they and the bound need not belong to the context. -/
structure MeetsLists [MeetDomain α Ctx] (drawn : Ctx → α → Prop) (ctx : Ctx) : Prop where
  empty : meetAll ctx ([] : List α) = top ctx
  greatest : ∀ {xs : List α}, (∀ x ∈ xs, drawn ctx x) → GreatestBelow Leq (drawn ctx) xs (meetAll ctx xs)
  greatest_of_any : ∀ {xs : List α}, xs ≠ [] → GreatestBelow Leq (fun _ => True) xs (meetAll ctx xs)

section Joining
variable [JoinDomain α Ctx] {drawn : Ctx → α → Prop} {xs : List α}

/-- Among the elements of the context joining is a lawful merge, and bottom is below them all. -/
theorem LawfulJoin.leastAbove {ctx : Ctx} {drawn : α → Prop} (h : LawfulJoin ctx drawn)
    (hxs : ∀ x ∈ xs, drawn x) : LeastAbove Leq drawn xs (joinAll ctx xs) := by
  let ys := xs.attachWith drawn hxs
  have hbound : LeastAbove (Below h.merge) (fun _ => True) ys (mergeAll h.merge ⟨bottom ctx, h.drawn_bottom⟩ ys) :=
    h.semilattice.leastAbove_of_initial fun b _ => h.bottom_below b
  have hfold : (mergeAll h.merge ⟨bottom ctx, h.drawn_bottom⟩ ys).1 =
      mergeAll join (bottom ctx) (ys.map Subtype.val) := map_mergeAll (fun _ _ => rfl) _ ys
  rw [List.attachWith_map_subtype_val] at hfold
  rw [joinAll, ← hfold]
  constructor
  case mem => exact Subtype.property _
  case above =>
    intro x hx
    exact h.below_iff.mp (hbound.above ⟨x, hxs x hx⟩ ((List.mem_attachWith hxs _).mpr hx))
  case least =>
    intro b hb hle
    refine h.below_iff.mp (hbound.least ⟨b, hb⟩ trivial fun y hy => ?_)
    exact h.below_iff.mpr (hle y.1 ((List.mem_attachWith hxs y).mp hy))

omit [JoinDomain α Ctx] in
/-- Elements that are drawn from some contexts are all drawn from one. -/
theorem exists_common_context (hdrawn : Directed (· ≤ ·) drawn) (ctx : Ctx)
    (hxs : ∀ x ∈ xs, ∃ c, drawn c x) : ∃ c, ∀ x ∈ xs, drawn c x := by
  induction xs with
  | nil => exact ⟨ctx, fun _ hx => absurd hx List.not_mem_nil⟩
  | cons x xs ih =>
    obtain ⟨⟨a, ha⟩, hxs⟩ := List.forall_mem_cons.mp hxs
    obtain ⟨b, hb⟩ := ih hxs
    obtain ⟨c, hac, hbc⟩ := hdrawn a b
    exact ⟨c, List.forall_mem_cons.mpr ⟨hac x ha, fun y hy => hbc y (hb y hy)⟩⟩

/-- The bounds in two contexts are compared in a third. -/
theorem joinsLists_of_lawful (hlawful : ∀ ctx, LawfulJoin ctx (drawn ctx)) (hdrawn : Directed (· ≤ ·) drawn)
    (ctx : Ctx) : JoinsLists drawn ctx where
  empty := rfl
  least := (hlawful ctx).leastAbove
  least_of_any := fun {xs} hne hxs => by
    have hbound : ∀ c, (∀ x ∈ xs, drawn c x) → LeastAbove Leq (drawn c) xs (joinAll ctx xs) := fun c hc => by
      have hleast := (hlawful c).leastAbove hc
      rwa [joinAll, mergeAll_congr_initial _ (bottom ctx) hne] at hleast
    obtain ⟨c, hc⟩ := exists_common_context hdrawn ctx hxs
    refine ⟨⟨c, (hbound c hc).mem⟩, (hbound c hc).above, ?_⟩
    rintro b ⟨a, hb⟩ hle
    obtain ⟨d, hcd, had⟩ := hdrawn c a
    exact (hbound d fun x hx => hcd x (hc x hx)).least b (had b hb) hle

end Joining

/-- Contexts are put together where there is more than one. -/
theorem MeetNesting.directed [MeetDomain α Ctx] {drawn : Ctx → α → Prop} (h : MeetNesting α Ctx drawn) :
    Directed (· ≤ ·) drawn := by
  induction h with
  | bool => exact fun _ _ => ⟨(), le_rfl, le_rfl⟩
  | set =>
    intro u v
    refine ⟨⟨u.full.union v.full⟩, fun s hs x hx => ?_, fun s hs x hx => ?_⟩
    · exact FiniteSet.mem_union.mpr (.inl (hs x hx))
    · exact FiniteSet.mem_union.mpr (.inr (hs x hx))
  | flat => exact fun _ _ => ⟨(), le_rfl, le_rfl⟩
  | dual _ ih =>
    intro u v
    obtain ⟨w, hu, hv⟩ := ih u v
    exact ⟨w, fun a => hu a.inner, fun a => hv a.inner⟩

/-- Every element of a meet domain belongs to some context; a set is a subset of itself. -/
theorem MeetNesting.exists_context [MeetDomain α Ctx] {drawn : Ctx → α → Prop} (h : MeetNesting α Ctx drawn)
    (a : α) : ∃ ctx, drawn ctx a := by
  induction h with
  | bool => exact ⟨(), trivial⟩
  | set => exact ⟨⟨a⟩, fun _ hx => hx⟩
  | flat => exact ⟨(), trivial⟩
  | dual _ ih => exact ih a.inner

theorem JoinNesting.directed [JoinDomain α Ctx] {drawn : Ctx → α → Prop} (h : JoinNesting α Ctx drawn) :
    Directed (· ≤ ·) drawn := by
  induction h with
  | lattice h => exact h.directed
  | lifted _ ih =>
    intro u v
    obtain ⟨w, hu, hv⟩ := ih u v
    exact ⟨w, fun x hx a ha => hu a (hx a ha), fun x hx a ha => hv a (hx a ha)⟩
  | pointwise => exact fun _ _ => ⟨(), le_rfl, le_rfl⟩

theorem JoinNesting.joinsLists [JoinDomain α Ctx] {drawn : Ctx → α → Prop} (h : JoinNesting α Ctx drawn)
    (ctx : Ctx) : JoinsLists drawn ctx :=
  joinsLists_of_lawful h.lawful h.directed ctx

/-- What is least above a list upside down is greatest below it. -/
theorem LeastAbove.greatestBelow [MeetDomain α Ctx] {among : α → Prop} {xs : List α} {a : α}
    (h : LeastAbove Leq (fun b : Dual α => among b.inner) (xs.map Dual.mk) ⟨a⟩) :
    GreatestBelow Leq among xs a where
  mem := h.mem
  above := fun x hx => h.above ⟨x⟩ (List.mem_map_of_mem hx)
  least := fun b hb hle => h.least ⟨b⟩ hb (List.forall_mem_map.mpr hle)

theorem MeetNesting.meetsLists [MeetDomain α Ctx] {drawn : Ctx → α → Prop} (h : MeetNesting α Ctx drawn)
    (ctx : Ctx) : MeetsLists drawn ctx := by
  have hdual := (JoinNesting.lattice h.dual).joinsLists ctx
  have hfold : ∀ xs : List α, joinAll ctx (xs.map Dual.mk) = ⟨meetAll ctx xs⟩ := fun xs =>
    (exchanges_dual.map_meetAll ctx xs).symm
  refine ⟨rfl, fun {xs} hxs => ?_, fun {xs} hne => ?_⟩
  · have hleast := hdual.least (List.forall_mem_map.mpr hxs)
    rw [hfold] at hleast
    exact hleast.greatestBelow
  · have hdrawn : ∀ a ∈ xs.map Dual.mk, ∃ c, drawn c a.inner := fun a _ => h.exists_context a.inner
    have hleast := hdual.least_of_any (mt List.map_eq_nil_iff.mp hne) hdrawn
    have hall : (fun a => ∃ c, drawn c a) = fun _ => True := funext fun a => eq_true (h.exists_context a)
    rw [hfold] at hleast
    exact hall ▸ hleast.greatestBelow

/-- Folding gives bounds: of any list for a lawful merge, and so for joining and meeting in all nested
domains. -/
theorem folds_are_bounds :
    (∀ {F : Type} {merge : F → F → F}, Semilattice merge → FoldLaws merge) ∧
    (∀ {α Ctx : Type} [JoinDomain α Ctx] {drawn : Ctx → α → Prop}, JoinNesting α Ctx drawn →
      ∀ ctx, JoinsLists drawn ctx) ∧
    ∀ {α Ctx : Type} [MeetDomain α Ctx] {drawn : Ctx → α → Prop}, MeetNesting α Ctx drawn →
      (∀ a, ∃ ctx, drawn ctx a) ∧ ∀ ctx, MeetsLists drawn ctx :=
  ⟨Semilattice.foldLaws, JoinNesting.joinsLists, fun h => ⟨h.exists_context, h.meetsLists⟩⟩

/-- The largest number in a list with repeats, and bounds of sets that leave the universe, upside down
and below a new bottom as well as on their own. -/
theorem folds_are_bounds_outside :
    let small : FiniteSet.Universe Nat := ⟨.ofList [1, 2]⟩
    let parts : List (Option (Dual (FiniteSet Nat))) := [some ⟨.ofList [1, 5]⟩, none, some ⟨.ofList [5, 7]⟩]
    mergeAll max 9 [2, 7, 2] = mergeAll max 0 [7, 2] ∧
    joinAll small parts = some ⟨.ofList [5]⟩ ∧
    (∀ s, (∀ x ∈ parts, Leq x (some ⟨s⟩)) → Leq (joinAll small parts) (some ⟨s⟩)) ∧
    GreatestBelow Leq (fun _ => True) [.ofList [3, 1], .ofList [4, 3]] (FiniteSet.ofList [3]) := by
  intro small parts
  obtain ⟨hmerge, hjoins, hmeets⟩ := folds_are_bounds
  have hmax : Semilattice (max : Nat → Nat → Nat) := ⟨Nat.max_comm, Nat.max_assoc, Nat.max_self⟩
  have hdrawn : ∀ x : Option (Dual (FiniteSet Nat)), ∃ c : FiniteSet.Universe Nat,
      DrawnLifted (fun s => s.inner ⊆ c.full) x := fun x => by
    cases x with
    | none => exact ⟨small, fun _ hs => absurd hs (Option.not_mem_none _)⟩
    | some s => exact ⟨⟨s.inner⟩, fun t ht => Option.mem_some.mp ht ▸ fun _ hx => hx⟩
  refine ⟨(hmerge hmax).members 9 0 (by decide) (by simp), by decide +kernel, fun s hs => ?_, ?_⟩
  · have hjoin := hjoins (.lifted (.lattice (.dual (.set Nat)))) small
    have hleast := hjoin.least_of_any (List.cons_ne_nil _ _) fun x (_ : x ∈ parts) => hdrawn x
    exact hleast.least _ (hdrawn _) hs
  · exact ((hmeets (.set Nat)).2 small).greatest_of_any (by decide)

end FlowAnalysis
