import FlowAnalysis.Proofs.Nesting

/-! # Maps inside maps

However a map is built, no bottom is stored in it, nor in the maps among its
values, nor in the maps among theirs. A map then stands for what it gives to all
keys, the many that it does not store included: it is equal to another map, below
it, above it or incomparable to it when these values are, taken together.
-/
namespace FlowAnalysis

section Verdict
variable {o : Option Ordering}

theorem eq_some_lt_iff : o = some .lt ↔ AtMost o ∧ ¬AtMost (o.map Ordering.swap) := by
  rcases o with _ | (_ | _ | _) <;> simp [AtMost, Ordering.swap]

theorem eq_some_gt_iff : o = some .gt ↔ AtMost (o.map Ordering.swap) ∧ ¬AtMost o := by
  rcases o with _ | (_ | _ | _) <;> simp [AtMost, Ordering.swap]

theorem incomparable_iff : o = none ↔ ¬AtMost o ∧ ¬AtMost (o.map Ordering.swap) := by
  rcases o with _ | (_ | _ | _) <;> simp [AtMost, Ordering.swap]

end Verdict

variable {K V : Type} [Ord K] [Std.TransOrd K] [JoinDomain V Unit] {drawn tidy : V → Prop}

namespace Pointwise
variable {a b m : Pointwise K V}

theorem Canonical.mono (hm : Canonical drawn m) (h : ∀ v, drawn v → tidy v) : Canonical tidy m where
  drawn hk := h _ (hm.drawn hk)
  ne_bottom := hm.ne_bottom

/-- Values that are in order key by key are in the opposite order too only if they are equal. -/
theorem exists_ne_iff (h : LawfulJoin () drawn) (ha : Canonical drawn a) (hb : Canonical drawn b)
    (hle : ∀ k, Leq (a.get k) (b.get k)) : (∃ k, a.get k ≠ b.get k) ↔ ¬∀ k, Leq (b.get k) (a.get k) := by
  have hkey : ∀ k, Leq (b.get k) (a.get k) ↔ a.get k = b.get k := fun k => by
    constructor
    · exact h.laws.antisymm (ha.drawn_get h k) (hb.drawn_get h k) (hle k)
    · intro heq
      exact heq ▸ h.laws.refl (ha.drawn_get h k)
  rw [forall_congr' hkey, not_forall]

end Pointwise

/-- Lawful domains, those turned upside down among them, new bottoms below a domain, and maps into one.
The values are those that can be drawn. A value is tidy if no map that is a part of it stores a bottom. -/
inductive MapNesting : (V : Type) → [JoinDomain V Unit] → (drawn tidy : V → Prop) → Prop
  | lawful {V : Type} [JoinDomain V Unit] {drawn : V → Prop} :
      LawfulJoin () drawn → MapNesting V drawn fun _ => True
  | lifted {V : Type} [JoinDomain V Unit] {drawn tidy : V → Prop} :
      MapNesting V drawn tidy → MapNesting (Option V) (DrawnLifted drawn) (DrawnLifted tidy)
  | pointwise (K : Type) [Ord K] [Std.TransOrd K] [Std.LawfulEqOrd K] {V : Type} [DecidableEq V]
      [JoinDomain V Unit] {drawn tidy : V → Prop} :
      MapNesting V drawn tidy →
        MapNesting (Pointwise K V) (Pointwise.Built drawn) (Pointwise.Canonical tidy)

theorem MapNesting.lawfulJoin (h : MapNesting V drawn tidy) : LawfulJoin () drawn := by
  induction h with
  | lawful h => exact h
  | lifted _ ih => exact ih.lifted
  | pointwise _ _ ih => exact Pointwise.lawfulJoin_built ih

theorem MapNesting.tidy_of_drawn (h : MapNesting V drawn tidy) : ∀ v, drawn v → tidy v := by
  induction h with
  | lawful _ => exact fun _ _ => trivial
  | lifted _ ih => exact fun x hx v hv => ih v (hx v hv)
  | pointwise _ h ih => exact fun m hm => (hm.canonical h.lawfulJoin).mono ih

variable [DecidableEq V]

/-- Two maps are to each other what their values are, key by key. -/
structure Extensional (a b : Pointwise K V) : Prop where
  eq_iff : a = b ↔ ∀ k, a.get k = b.get k
  get_join : ∀ k, (join a b).get k = join (a.get k) (b.get k)
  equal_iff : compare? a b = some .eq ↔ ∀ k, a.get k = b.get k
  less_iff : compare? a b = some .lt ↔ (∀ k, Leq (a.get k) (b.get k)) ∧ ∃ k, a.get k ≠ b.get k
  greater_iff : compare? a b = some .gt ↔ (∀ k, Leq (b.get k) (a.get k)) ∧ ∃ k, a.get k ≠ b.get k
  incomparable_iff : compare? a b = none ↔
    ¬(∀ k, Leq (a.get k) (b.get k)) ∧ ¬∀ k, Leq (b.get k) (a.get k)

variable [Std.LawfulEqOrd K]

theorem Pointwise.Canonical.extensional {a b : Pointwise K V} (h : LawfulJoin () drawn)
    (ha : Canonical drawn a) (hb : Canonical drawn b) : Extensional a b := by
  have heq : a = b ↔ ∀ k, a.get k = b.get k := ⟨fun hab k => hab ▸ rfl, ha.ext hb⟩
  have hle : AtMost (FlowAnalysis.compare? a b) ↔ ∀ k, Leq (a.get k) (b.get k) := leq_iff_forall h
  have hge := geq_iff_forall h ha hb
  refine ⟨heq, get_join h ha, (compare?_eq_some_eq h ha hb).trans heq, ?_, ?_, ?_⟩
  · rw [eq_some_lt_iff, hle, hge]
    exact and_congr_right fun hall => (exists_ne_iff h ha hb hall).symm
  · rw [eq_some_gt_iff, hle, hge]
    refine and_congr_right fun hall => ?_
    rw [← exists_ne_iff h hb ha hall]
    exact exists_congr fun k => ne_comm
  · rw [incomparable_iff, hle, hge]

/-- The maps that can be built store no bottom at any depth, an insertion changes what is given to its
own key only, and any two of them are to each other what their values are. -/
theorem MapNesting.maps_extensional (h : MapNesting V drawn tidy) :
    (∀ m : Pointwise K V, m.Built drawn → m.Canonical tidy) ∧
    (∀ (m : Pointwise K V) k v, (m.insert k v).get k = v ∧
      ∀ l, k ≠ l → (m.insert k v).get l = m.get l) ∧
    ∀ a b : Pointwise K V, a.Built drawn → b.Built drawn → Extensional a b := by
  have hlawful := h.lawfulJoin
  refine ⟨fun m hm => (hm.canonical hlawful).mono h.tidy_of_drawn, fun m k v => ?_, fun a b ha hb => ?_⟩
  · exact ⟨m.get_insert_self k v, fun l hl => m.get_insert_of_ne v hl⟩
  · exact (ha.canonical hlawful).extensional hlawful (hb.canonical hlawful)

/-- Upside down the top is bottom, and so it is not stored; neither is a new bottom. -/
theorem MapNesting.maps_extensional_maps_of_maps :
    let inner : Pointwise Int (Dual (Flat String)) := .ofList [(-3, ⟨.value "x"⟩), (4, ⟨.top⟩)]
    let outer : Pointwise Nat (Option (Pointwise Int (Dual (Flat String)))) :=
      .ofList [(1, some inner), (2, none)]
    let bare := Pointwise.empty.insert 1 (some .empty)
    inner.size = 1 ∧ outer.size = 1 ∧ outer.Canonical (DrawnLifted (Pointwise.Canonical fun _ => True)) ∧
    compare? outer bare = some .gt ∧ ∀ k, Leq (bare.get k) (outer.get k) := by
  intro inner outer bare
  have hflat : MapNesting (Dual (Flat String)) (fun _ => True) fun _ => True :=
    .lawful (Flat.lawfulMeet.dual.toLawfulJoin)
  have hinner : inner.Built fun _ => True := .ofList fun _ _ => trivial
  have houter : outer.Built (DrawnLifted (Pointwise.Built fun _ => True)) :=
    .ofList (by simpa [DrawnLifted] using hinner)
  have hbare : bare.Built (DrawnLifted (Pointwise.Built fun _ => True)) :=
    .insert .empty (by simpa [DrawnLifted] using .empty)
  obtain ⟨htidy, _, hextensional⟩ := maps_extensional (K := Nat) (.lifted (.pointwise Int hflat))
  have hgreater : compare? outer bare = some .gt := by decide +kernel
  have hvalues := (hextensional outer bare houter hbare).greater_iff.mp hgreater
  exact ⟨by decide +kernel, by decide +kernel, htidy outer houter, hgreater, hvalues.1⟩

end FlowAnalysis
