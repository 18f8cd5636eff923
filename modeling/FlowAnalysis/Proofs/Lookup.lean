import Mathlib.Data.Finset.Card
import Mathlib.Data.List.Basic
import FlowAnalysis.Label

/-! # Look-ups that succeed

What a successful computation that looks labels up has gone through, and when a
look-up succeeds.
-/
namespace FlowAnalysis
variable {α β : Type}

namespace LabelMap
variable {m : LabelMap α} {l : Label} {a : α}

theorem exists_of_mem (h : l ∈ m) : ∃ a, m[l]? = some a :=
  Option.isSome_iff_exists.mp (Std.ExtTreeMap.mem_iff_isSome_getElem?.mp h)

theorem mem_of_getElem? (h : m[l]? = some a) : l ∈ m :=
  Std.ExtTreeMap.mem_iff_isSome_getElem?.mpr (Option.isSome_of_eq_some h)

theorem size_eq_card {A : Finset Label} (h : ∀ l, l ∈ m ↔ l ∈ A) : m.size = A.card := by
  have hkeys : m.keys.toFinset = A := by
    ext l
    rw [List.mem_toFinset, Std.ExtTreeMap.mem_keys, h]
  rw [← hkeys, List.toFinset_card_of_nodup Std.ExtTreeMap.nodup_keys, Std.ExtTreeMap.length_keys]

theorem getElem?_foldl_insert {ls : List Label} :
    (ls.foldl (fun m l => m.insert l a) m)[l]? = if l ∈ ls then some a else m[l]? := by
  induction ls generalizing m with
  | nil => simp
  | cons x xs ih =>
    simp only [List.foldl_cons, ih, Std.ExtTreeMap.getElem?_insert, Std.compare_eq_iff_eq,
      List.mem_cons, eq_comm (a := l)]
    by_cases hx : l ∈ xs
    · simp [hx]
    · simp [hx]

theorem getElem?_const {ls : List Label} : (const ls a)[l]? = if l ∈ ls then some a else none := by
  rw [const, getElem?_foldl_insert]
  simp

end LabelMap

namespace Absent

theorem bind_eq_ok_iff {x : Except Absent α} {f : α → Except Absent β} {b : β} :
    (x >>= f) = .ok b ↔ ∃ a, x = .ok a ∧ f a = .ok b := by
  cases x <;> simp [bind, Except.bind]

theorem pure_eq_ok_iff {a b : α} : (pure a : Except Absent α) = .ok b ↔ a = b := by
  simp [pure, Except.pure]

theorem findM?_eq_ok_none_iff {f : α → Except Absent Bool} {xs : List α} :
    xs.findM? f = .ok none ↔ ∀ x ∈ xs, f x = .ok false := by
  induction xs with
  | nil => simp [List.findM?, pure_eq_ok_iff]
  | cons x xs ih =>
    simp only [List.findM?, List.forall_mem_cons, ← ih, bind_eq_ok_iff]
    constructor
    · rintro ⟨b, hx, hb⟩
      cases b
      · exact ⟨hx, hb⟩
      · simp [pure_eq_ok_iff] at hb
    · rintro ⟨hx, hs⟩
      exact ⟨false, hx, hs⟩

/-- Fetching a list of labels gives the values that the map holds at them, in order. -/
theorem mapM_fetch_eq_ok_iff {m : LabelMap α} {ls : List Label} {xs : List α} :
    ls.mapM (fun l => m.fetch l) = .ok xs ↔ (ls.map fun l => m[l]?) = xs.map some := by
  induction ls generalizing xs with
  | nil => cases xs <;> simp [pure_eq_ok_iff]
  | cons l ls ih =>
    simp only [List.mapM_cons, bind_eq_ok_iff, pure_eq_ok_iff, LabelMap.fetch_eq_ok_iff, ih,
      List.map_cons]
    constructor
    · rintro ⟨a, ha, as, has, rfl⟩
      rw [List.map_cons, ha, has]
    · intro h
      cases xs with
      | nil => simp at h
      | cons x xs =>
        obtain ⟨hx, hxs⟩ := List.cons.inj h
        exact ⟨x, hx, xs, hxs, rfl⟩

end Absent
end FlowAnalysis
