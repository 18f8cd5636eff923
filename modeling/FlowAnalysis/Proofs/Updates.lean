import FlowAnalysis.Proofs.Lookup

/-! # Maps that are changed at some labels

What is found in a map after a change, and when a change at some labels is one
at all of them. Mapping the values of a map commutes with changing it.
-/
namespace FlowAnalysis

namespace LabelMap
variable {α : Type} {m : LabelMap α} {l x : Label} {a : α} {f : α → α} {ls : List Label}

theorem getElem?_insert_of_ne (h : x ≠ l) : (m.insert l a)[x]? = m[x]? := by
  simp [Std.ExtTreeMap.getElem?_insert, h.symm]

theorem getElem?_erase_of_ne (h : x ≠ l) : (m.erase l)[x]? = m[x]? := by
  simp [Std.ExtTreeMap.getElem?_erase, h.symm]

theorem getElem?_modify_eq_map :
    (m.modify l f)[x]? = m[x]?.map fun a => if x = l then f a else a := by
  by_cases h : x = l
  · subst h
    simp
  · simp [Std.ExtTreeMap.getElem?_modify, h, Ne.symm h]

theorem getElem?_foldl_modify (hf : ∀ a, f (f a) = f a) (l : Label) :
    (ls.foldl (fun m t => m.modify t f) m)[l]? = if l ∈ ls then m[l]?.map f else m[l]? := by
  induction ls generalizing m with
  | nil => rfl
  | cons t ts ih =>
    have hmap : ∀ o : Option α, (o.map f).map f = o.map f := fun o => by
      cases o <;> simp [hf]
    simp only [List.foldl_cons, ih, Std.ExtTreeMap.getElem?_modify, Std.compare_eq_iff_eq,
      List.mem_cons]
    by_cases ht : t = l
    · subst ht
      simp [hmap]
    · simp [ht, Ne.symm ht]

/-- Changing the values at some labels is changing all of them, if the others do not change. -/
theorem foldl_modify_eq_map (hf : ∀ a, f (f a) = f a)
    (h : ∀ (l : Label) (a : α), m[l]? = some a → l ∉ ls → f a = a) :
    ls.foldl (fun m t => m.modify t f) m = m.map fun _ a => f a := by
  apply Std.ExtTreeMap.ext_getElem?
  intro l
  rw [getElem?_foldl_modify hf, Std.ExtTreeMap.getElem?_map]
  split
  · rfl
  · next hl =>
    cases ha : m[l]? with
    | none => rfl
    | some a => simp [h l a ha hl]

variable {β : Type} {g : α → β} {v : β → β}

theorem getElem?_map_eq_some_iff {w : Label → α → β} {b : β} :
    (m.map w)[x]? = some b ↔ ∃ a, m[x]? = some a ∧ w x a = b := by
  rw [Std.ExtTreeMap.getElem?_map, Option.map_eq_some_iff]

theorem map_congr {w u : Label → α → β} (h : ∀ {l a}, m[l]? = some a → w l a = u l a) :
    m.map w = m.map u := by
  apply Std.ExtTreeMap.ext_getElem?
  intro l
  rw [Std.ExtTreeMap.getElem?_map, Std.ExtTreeMap.getElem?_map]
  exact Option.map_congr fun _ => h

theorem map_insert (l : Label) (a : α) :
    (m.insert l a).map (fun _ a => g a) = (m.map fun _ a => g a).insert l (g a) := by
  apply Std.ExtTreeMap.ext_getElem?
  intro x
  simp only [Std.ExtTreeMap.getElem?_map, Std.ExtTreeMap.getElem?_insert]
  split <;> rfl

theorem map_erase (l : Label) :
    (m.erase l).map (fun _ a => g a) = (m.map fun _ a => g a).erase l := by
  apply Std.ExtTreeMap.ext_getElem?
  intro x
  simp only [Std.ExtTreeMap.getElem?_map, Std.ExtTreeMap.getElem?_erase]
  split <;> rfl

theorem map_modify (h : ∀ a, g (f a) = v (g a)) (l : Label) :
    (m.modify l f).map (fun _ a => g a) = (m.map fun _ a => g a).modify l v := by
  apply Std.ExtTreeMap.ext_getElem?
  intro x
  rw [Std.ExtTreeMap.getElem?_map, getElem?_modify_eq_map, getElem?_modify_eq_map,
    Std.ExtTreeMap.getElem?_map, Option.map_map, Option.map_map]
  refine Option.map_congr fun a _ => ?_
  simp only [Function.comp_apply]
  split
  · exact h a
  · rfl

theorem map_foldl_modify (h : ∀ a, g (f a) = v (g a)) (ls : List Label) :
    (ls.foldl (fun m t => m.modify t f) m).map (fun _ a => g a) =
      ls.foldl (fun m t => m.modify t v) (m.map fun _ a => g a) := by
  induction ls generalizing m with
  | nil => rfl
  | cons l ls ih => rw [List.foldl_cons, List.foldl_cons, ih, map_modify h]

end LabelMap
end FlowAnalysis
