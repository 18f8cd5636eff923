import Mathlib.Data.Finset.Card
import FlowAnalysis.Proofs.Lookup
import FlowAnalysis.Traversal.Worklist

/-! # Worklists as sets of labels

A worklist in which every queued label lies at its own rank is determined by the
labels in it: queueing adds them, taking removes one, and the size counts them.
The visiting order serves only to give every label a rank of its own.
-/
namespace FlowAnalysis.Worklist
variable {w v : Worklist} {l x : Label} {ls : List Label}

instance : Membership Label Worklist := ⟨fun w l => w.contains l = true⟩

/-- Every queued label lies at its own rank, and no two labels share a rank. -/
structure Ranked (w : Worklist) : Prop where
  place : ∀ {r : Nat} {l : Label}, w.queue[r]? = some l → w.ranks[l]? = some r
  rank_inj : ∀ {l m : Label} {r : Nat}, w.ranks[l]? = some r → w.ranks[m]? = some r → l = m

theorem Ranked.mem_iff (h : w.Ranked) : l ∈ w ↔ ∃ r : Nat, w.queue[r]? = some l := by
  change w.contains l = true ↔ _
  unfold contains
  constructor
  · intro hc
    cases hr : w.ranks[l]? with
    | none => simp [hr] at hc
    | some r =>
      simp only [hr, Std.ExtTreeMap.contains_eq_isSome_getElem?] at hc
      obtain ⟨m, hm⟩ := Option.isSome_iff_exists.mp hc
      exact ⟨r, h.rank_inj (h.place hm) hr ▸ hm⟩
  · rintro ⟨r, hr⟩
    simp [h.place hr, Std.ExtTreeMap.contains_eq_isSome_getElem?, hr]

theorem Ranked.mem_labels (h : w.Ranked) : l ∈ w.labels ↔ l ∈ w := by
  rw [h.mem_iff]
  simp [labels, Std.ExtTreeMap.mem_toList_iff_getElem?_eq_some]

theorem Ranked.nodup_labels (h : w.Ranked) : w.labels.Nodup := by
  have hkeys : w.queue.toList.Pairwise (fun a b => a.1 ≠ b.1) :=
    Std.ExtTreeMap.distinct_keys_toList.imp Std.ReflCmp.ne_of_cmp_ne_eq
  refine List.Pairwise.map _ (fun a b hab => hab) (hkeys.imp_of_mem fun {a b} ha hb hab he => ?_)
  have hra := h.place (Std.ExtTreeMap.mem_toList_iff_getElem?_eq_some.mp ha)
  have hrb := h.place (Std.ExtTreeMap.mem_toList_iff_getElem?_eq_some.mp hb)
  rw [he, hrb] at hra
  exact hab (Option.some.inj hra).symm

theorem Ranked.card_labels (h : w.Ranked) : w.labels.toFinset.card = w.size := by
  rw [List.toFinset_card_of_nodup h.nodup_labels]
  simp [labels, size]

theorem Ranked.not_mem_of_size (h : w.Ranked) (h0 : w.size = 0) (l : Label) : l ∉ w := by
  rw [← h.card_labels, Finset.card_eq_zero, List.toFinset_eq_empty_iff] at h0
  rw [← h.mem_labels, h0]
  exact List.not_mem_nil

theorem push_eq_ok_iff :
    w.push l = .ok v ↔ ∃ r, w.ranks[l]? = some r ∧ v = { w with queue := w.queue.insert r l } := by
  unfold push rank LabelMap.fetch
  cases w.ranks[l]? <;> simp [bind, Except.bind, pure, Except.pure, eq_comm]

theorem Ranked.push (h : w.Ranked) (hp : w.push l = .ok v) :
    v.Ranked ∧ v.ranks = w.ranks ∧ ∀ x, x ∈ v ↔ x = l ∨ x ∈ w := by
  obtain ⟨r, hr, rfl⟩ := push_eq_ok_iff.mp hp
  have hv : Ranked { w with queue := w.queue.insert r l } := by
    refine ⟨fun {s m} hs => ?_, h.rank_inj⟩
    simp only [Std.ExtTreeMap.getElem?_insert, Std.compare_eq_iff_eq] at hs
    split at hs
    · next he => cases hs; exact he ▸ hr
    · exact h.place hs
  refine ⟨hv, rfl, fun x => ?_⟩
  simp only [hv.mem_iff, h.mem_iff, Std.ExtTreeMap.getElem?_insert, Std.compare_eq_iff_eq]
  constructor
  · rintro ⟨s, hs⟩
    split at hs
    · exact .inl (Option.some.inj hs).symm
    · exact .inr ⟨s, hs⟩
  · rintro (rfl | ⟨s, hs⟩)
    · exact ⟨r, by simp⟩
    · refine ⟨s, ?_⟩
      split
      · next he => exact congrArg some (h.rank_inj hr (he ▸ h.place hs))
      · exact hs

theorem Ranked.extend (h : w.Ranked) (he : w.extend ls = (v, none)) :
    v.Ranked ∧ v.ranks = w.ranks ∧ ∀ x, x ∈ v ↔ x ∈ ls ∨ x ∈ w := by
  induction ls generalizing w with
  | nil =>
    cases he
    exact ⟨h, rfl, by simp⟩
  | cons l ls ih =>
    rw [Worklist.extend] at he
    cases hp : w.push l with
    | error e => simp [hp] at he
    | ok u =>
      rw [hp] at he
      obtain ⟨hu, hur, hum⟩ := h.push hp
      obtain ⟨hv, hvr, hvm⟩ := ih hu he
      refine ⟨hv, hvr.trans hur, fun x => ?_⟩
      rw [hvm, hum, List.mem_cons]
      tauto

theorem extend_total (w : Worklist) (ls : List Label) (h : ∀ l ∈ ls, l ∈ w.ranks) :
    ∃ v, w.extend ls = (v, none) := by
  induction ls generalizing w with
  | nil => exact ⟨w, rfl⟩
  | cons l ls ih =>
    obtain ⟨r, hr⟩ := LabelMap.exists_of_mem (h l List.mem_cons_self)
    rw [Worklist.extend, push_eq_ok_iff.mpr ⟨r, hr, rfl⟩]
    exact ih _ fun m hm => h m (List.mem_cons_of_mem _ hm)

theorem Ranked.size_extend_le (h : w.Ranked) (he : w.extend ls = (v, none)) :
    v.size ≤ w.size + ls.toFinset.card := by
  obtain ⟨hv, _, hm⟩ := h.extend he
  have hunion : v.labels.toFinset = ls.toFinset ∪ w.labels.toFinset := by
    ext x
    simp [hv.mem_labels, h.mem_labels, hm]
  rw [← hv.card_labels, ← h.card_labels, hunion, Nat.add_comm]
  exact Finset.card_union_le _ _

theorem pop?_eq_none_iff : w.pop? = none ↔ w.size = 0 := by
  unfold pop? size
  rw [FirstEntry.entryAtIdx?_zero, ← Std.ExtTreeMap.length_toList]
  cases w.queue.toList <;> simp

theorem Ranked.pop (h : w.Ranked) (hp : w.pop? = some (l, v)) :
    v.Ranked ∧ v.ranks = w.ranks ∧ l ∈ w ∧ ∀ x, x ∈ v ↔ x ≠ l ∧ x ∈ w := by
  unfold pop? at hp
  cases he : w.queue.entryAtIdx? 0 with
  | none => simp [he] at hp
  | some e =>
    obtain ⟨r, m⟩ := e
    simp only [he, Option.some.injEq, Prod.mk.injEq] at hp
    obtain ⟨rfl, rfl⟩ := hp
    have hr := FirstEntry.getElem?_of_entryAtIdx? he
    have hv : Ranked { w with queue := w.queue.erase r } := by
      refine ⟨fun {s n} hs => ?_, h.rank_inj⟩
      simp only [Std.ExtTreeMap.getElem?_erase, Std.compare_eq_iff_eq] at hs
      split at hs
      · cases hs
      · exact h.place hs
    refine ⟨hv, rfl, h.mem_iff.mpr ⟨r, hr⟩, fun x => ?_⟩
    simp only [hv.mem_iff, h.mem_iff, Std.ExtTreeMap.getElem?_erase, Std.compare_eq_iff_eq]
    constructor
    · rintro ⟨s, hs⟩
      split at hs
      · cases hs
      · next hne =>
        refine ⟨?_, s, hs⟩
        rintro rfl
        exact hne (Option.some.inj ((h.place hr).symm.trans (h.place hs)))
    · rintro ⟨hne, s, hs⟩
      refine ⟨s, ?_⟩
      rw [if_neg, hs]
      rintro rfl
      exact hne (Option.some.inj (hs.symm.trans hr))

theorem Ranked.least_of_pop (h : w.Ranked) (hp : w.pop? = some (l, v)) (hx : x ∈ w) {r s : Nat}
    (hr : w.ranks[l]? = some r) (hs : w.ranks[x]? = some s) : r ≤ s := by
  unfold pop? at hp
  cases he : w.queue.entryAtIdx? 0 with
  | none => simp [he] at hp
  | some e =>
    obtain ⟨i, m⟩ := e
    simp only [he, Option.some.injEq, Prod.mk.injEq] at hp
    obtain ⟨rfl, _⟩ := hp
    obtain rfl : i = r := Option.some.inj ((h.place (FirstEntry.getElem?_of_entryAtIdx? he)).symm.trans hr)
    obtain ⟨j, hj⟩ := h.mem_iff.mp hx
    obtain rfl : j = s := Option.some.inj ((h.place hj).symm.trans hs)
    have hmem := Std.ExtTreeMap.mem_toList_iff_getElem?_eq_some.mpr hj
    have hsorted := Std.ExtTreeMap.ordered_keys_toList (t := w.queue)
    rw [FirstEntry.entryAtIdx?_zero, List.head?_eq_some_iff] at he
    obtain ⟨es, he⟩ := he
    rw [he] at hmem hsorted
    rcases List.mem_cons.mp hmem with heq | hmem
    · exact Nat.le_of_eq (congrArg Prod.fst heq).symm
    · exact Nat.le_of_lt (Nat.compare_eq_lt.mp ((List.pairwise_cons.mp hsorted).1 _ hmem))

theorem mem_or_of_getElem?_insertMany {m : LabelMap Nat} {xs : List (Label × Nat)} {r : Nat}
    (h : (m.insertMany xs)[l]? = some r) : (l, r) ∈ xs ∨ m[l]? = some r := by
  induction xs generalizing m with
  | nil => exact .inr h
  | cons e xs ih =>
    rw [Std.ExtTreeMap.insertMany_cons] at h
    rcases ih h with hm | hm
    · exact .inl (List.mem_cons_of_mem _ hm)
    · simp only [Std.ExtTreeMap.getElem?_insert, Std.compare_eq_iff_eq] at hm
      split at hm
      · next he => cases hm; exact .inl (he ▸ List.mem_cons_self)
      · exact .inr hm

theorem getElem?_of_rank_ofOrder {order : List Label} {r : Nat}
    (h : (ofOrder order).ranks[l]? = some r) : order[r]? = some l := by
  simp only [ofOrder, Std.ExtTreeMap.ofList_eq_insertMany_empty] at h
  rcases mem_or_of_getElem?_insertMany h with hm | hm
  · simpa using List.mem_zipIdx_iff_getElem?.mp hm
  · simp at hm

theorem mem_ranks_ofOrder {order : List Label} : l ∈ (ofOrder order).ranks ↔ l ∈ order := by
  simp [ofOrder, Std.ExtTreeMap.mem_ofList]

theorem ranked_ofOrder (order : List Label) : (ofOrder order).Ranked := by
  refine ⟨fun {r l} h => ?_, fun {l m r} hl hm => ?_⟩
  · simp [ofOrder] at h
  · have hl' := getElem?_of_rank_ofOrder hl
    have hm' := getElem?_of_rank_ofOrder hm
    exact Option.some.inj (hl'.symm.trans hm')

theorem size_ofOrder (order : List Label) : (ofOrder order).size = 0 := by simp [ofOrder, size]

end FlowAnalysis.Worklist
