import Std.Data.ExtTreeMap

/-! # The first entry of an ordered map

The entry at place zero is found by going down the left of the tree. It is the
first one of the listing and therefore has the smallest key.
-/
namespace FlowAnalysis.FirstEntry
open Std DTreeMap.Internal
variable {β : Type}

theorem isSome_entryAtIdx? (t : Impl Nat fun _ => β) (h : t.Balanced) (hs : t.size ≠ 0) :
    (Impl.Const.entryAtIdx? t 0).isSome := by
  induction t with
  | leaf => simp [Impl.size] at hs
  | inner sz k v l r ihl _ =>
    rw [Impl.Const.entryAtIdx?]
    by_cases hl : l.size = 0
    · rw [hl]
      rfl
    · have hlt : compare 0 l.size = .lt := by
        rw [Nat.compare_eq_lt]
        omega
      rw [hlt]
      exact ihl h.left hl

theorem head?_foldr (t : Impl Nat fun _ => β) (h : t.Balanced) (acc : List (Nat × β)) :
    (t.foldr (fun k v kvs => (k, v) :: kvs) acc).head? =
      (Impl.Const.entryAtIdx? t 0).or acc.head? := by
  induction t generalizing acc with
  | leaf => rfl
  | inner sz k v l r ihl _ =>
    have hf : (Impl.inner sz k v l r).foldr (fun k v kvs => (k, v) :: kvs) acc =
        l.foldr (fun k v kvs => (k, v) :: kvs)
          ((k, v) :: r.foldr (fun k v kvs => (k, v) :: kvs) acc) := rfl
    rw [hf, ihl h.left, Impl.Const.entryAtIdx?]
    by_cases hl : l.size = 0
    · cases l with
      | leaf => rfl
      | inner =>
        have := h.left.eq
        simp only [Impl.size] at hl
        omega
    · have hlt : compare 0 l.size = .lt := by
        rw [Nat.compare_eq_lt]
        omega
      obtain ⟨e, he⟩ := Option.isSome_iff_exists.mp (isSome_entryAtIdx? l h.left hl)
      rw [hlt]
      simp [he]

theorem entryAtIdx?_zero (t : ExtTreeMap Nat β) : t.entryAtIdx? 0 = t.toList.head? := by
  obtain ⟨⟨t⟩⟩ := t
  induction t using Quotient.ind with
  | _ t =>
    have := head?_foldr t.inner t.wf.balanced []
    simp only [List.head?_nil, Option.or_none] at this
    exact this.symm

theorem getElem?_of_entryAtIdx? {t : ExtTreeMap Nat β} {k : Nat} {v : β}
    (h : t.entryAtIdx? 0 = some (k, v)) : t[k]? = some v := by
  rw [entryAtIdx?_zero] at h
  exact ExtTreeMap.mem_toList_iff_getElem?_eq_some.mp (List.mem_of_head? h)

end FlowAnalysis.FirstEntry
