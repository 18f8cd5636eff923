import FlowAnalysis.Lattice.Pointwise
import FlowAnalysis.Proofs.Domains

/-! # Maps are what they map to

A map that stores no bottom is determined by the values it gives to the keys.
Joining joins these values key by key, and comparing compares them: the verdict
that is folded over the keys of both maps has to put up with every one of them,
however often a key comes up and in whatever order. So maps into a lawful domain
are lawful, as long as only lawful values are ever inserted.
-/
namespace FlowAnalysis

/-- A verdict that does not put the first element above the second. -/
def AtMost (o : Option Ordering) : Prop := o = some .lt ∨ o = some .eq

theorem map_swap_swap (o : Option Ordering) : (o.map Ordering.swap).map Ordering.swap = o := by
  cases o <;> simp

/-- A verdict is known from whether it puts one below the other, both ways. -/
theorem eq_of_atMost {o p : Option Ordering} (hle : AtMost o ↔ AtMost p)
    (hge : AtMost (o.map Ordering.swap) ↔ AtMost (p.map Ordering.swap)) : o = p := by
  rcases o with _ | (_ | _ | _) <;> rcases p with _ | (_ | _ | _) <;> simp_all [AtMost, Ordering.swap]

theorem eq_some_eq_iff {o : Option Ordering} :
    o = some .eq ↔ AtMost o ∧ AtMost (o.map Ordering.swap) := by
  rcases o with _ | (_ | _ | _) <;> simp [AtMost, Ordering.swap]

namespace Pointwise

/-- The verdict so far brought together with the one of another key. -/
def agreeNext (verdict : Ordering) (o : Option Ordering) : Option Ordering := do agree? verdict (← o)

theorem atMost_agree? {v o : Ordering} :
    AtMost (agree? v o) ↔ AtMost (some v) ∧ AtMost (some o) := by
  cases v <;> cases o <;> simp [agree?, AtMost]

theorem agreeNext_swap (v : Ordering) (o : Option Ordering) :
    agreeNext v.swap (o.map Ordering.swap) = (agreeNext v o).map Ordering.swap := by
  rcases o with _ | o
  · rfl
  · cases v <;> cases o <;> rfl

/-- A folded verdict says below when it said so at the start and every key does. -/
theorem atMost_foldlM {v : Ordering} {os : List (Option Ordering)} :
    AtMost (os.foldlM agreeNext v) ↔ AtMost (some v) ∧ ∀ o ∈ os, AtMost o := by
  induction os generalizing v with
  | nil => simp
  | cons o os ih =>
    rw [List.foldlM_cons, List.forall_mem_cons, ← and_assoc]
    rcases o with _ | o
    · simp [agreeNext, AtMost]
    · have hstep := atMost_agree? (v := v) (o := o)
      cases hnext : agree? v o with
      | none => simp_all [agreeNext, AtMost]
      | some w =>
        rw [hnext] at hstep
        rw [← hstep, ← ih]
        simp [agreeNext, hnext]

theorem foldlM_agreeNext_swap (v : Ordering) (os : List (Option Ordering)) :
    (os.map (Option.map Ordering.swap)).foldlM agreeNext v.swap =
      (os.foldlM agreeNext v).map Ordering.swap := by
  induction os generalizing v with
  | nil => rfl
  | cons o os ih =>
    rw [List.map_cons, List.foldlM_cons, List.foldlM_cons, agreeNext_swap]
    cases agreeNext v o with
    | none => rfl
    | some w => exact ih w

variable {K V : Type} [Ord K] [Std.TransOrd K] [JoinDomain V Unit] {m a b : Pointwise K V}
  {k l : K} {v : V} {drawn : V → Prop}

theorem get_of_stored (h : m.entries[k]? = some v) : m.get k = v := by simp [get, h]

theorem get_of_not_mem (h : k ∉ m.entries) : m.get k = bottom () := by
  simp [get, Std.ExtTreeMap.getElem?_eq_none h]

@[simp] theorem get_empty : (empty : Pointwise K V).get k = bottom () := by simp [get, empty]

/-- Everything stored was drawn from the domain and is not bottom. -/
structure Canonical (drawn : V → Prop) (m : Pointwise K V) : Prop where
  drawn : ∀ {k : K} {v : V}, m.entries[k]? = some v → drawn v
  ne_bottom : ∀ {k : K} {v : V}, m.entries[k]? = some v → v ≠ bottom ()

theorem canonical_empty : Canonical drawn (empty : Pointwise K V) := by
  constructor <;> simp [empty]

theorem Canonical.drawn_get (h : LawfulJoin () drawn) (hm : Canonical drawn m) (k : K) :
    drawn (m.get k) := by
  cases hk : m.entries[k]? with
  | none => simpa [get, hk] using h.drawn_bottom
  | some v => exact get_of_stored hk ▸ hm.drawn hk

section Stored
variable [DecidableEq V]

theorem Canonical.insert (hm : Canonical drawn m) (hv : drawn v) (k : K) :
    Canonical drawn (m.insert k v) := by
  have hstored : ∀ {l : K} {w : V}, (m.insert k v).entries[l]? = some w →
      m.entries[l]? = some w ∨ (w = v ∧ v ≠ bottom ()) := by
    intro l w hw
    unfold Pointwise.insert at hw
    split at hw
    · rw [Std.ExtTreeMap.getElem?_erase] at hw
      split at hw
      · cases hw
      · exact .inl hw
    · next hne =>
      rw [Std.ExtTreeMap.getElem?_insert] at hw
      split at hw
      · exact .inr ⟨(Option.some_inj.mp hw).symm, hne⟩
      · exact .inl hw
  constructor
  · intro l w hw
    rcases hstored hw with hold | ⟨rfl, _⟩
    exacts [hm.drawn hold, hv]
  · intro l w hw
    rcases hstored hw with hold | ⟨rfl, hne⟩
    exacts [hm.ne_bottom hold, hne]

theorem Canonical.ofList {es : List (K × V)} (h : ∀ e ∈ es, drawn e.2) :
    Canonical drawn (ofList es) :=
  List.foldlRecOn _ _ canonical_empty fun _ hm e he => hm.insert (h e he) e.1

/-- Joins an entry of another map in. -/
def joinEntry (m : Pointwise K V) (e : K × V) : Pointwise K V :=
  m.insert e.1 (FlowAnalysis.join (m.get e.1) e.2)

theorem join_eq_foldl (a b : Pointwise K V) :
    FlowAnalysis.join a b = b.entries.toList.foldl joinEntry a :=
  Std.ExtTreeMap.foldl_eq_foldl_toList

/-- Comparing two maps folds what their keys say. -/
theorem compare?_eq_foldlM (a b : Pointwise K V) :
    FlowAnalysis.compare? a b = ((a.entries.keys ++ b.entries.keys).map fun k =>
      FlowAnalysis.compare? (a.get k) (b.get k)).foldlM agreeNext .eq := by
  rw [List.foldlM_map]
  rfl

end Stored

variable [Std.LawfulEqOrd K]

/-- Maps that store no bottom are equal when they agree on every key. -/
theorem Canonical.ext (ha : Canonical drawn a) (hb : Canonical drawn b)
    (h : ∀ k, a.get k = b.get k) : a = b := by
  have hentries : a.entries = b.entries := by
    apply Std.ExtTreeMap.ext_getElem?
    intro k
    have hk := h k
    unfold get at hk
    cases hak : a.entries[k]? with
    | none =>
      cases hbk : b.entries[k]? with
      | none => rfl
      | some w => exact absurd (by simpa [hak, hbk] using hk.symm) (hb.ne_bottom hbk)
    | some v =>
      cases hbk : b.entries[k]? with
      | none => exact absurd (by simpa [hak, hbk] using hk) (ha.ne_bottom hak)
      | some w => simpa [hak, hbk] using hk
  cases a
  cases b
  exact congrArg Pointwise.mk hentries

theorem forall_keys_iff {p : V → V → Prop} (hp : p (bottom ()) (bottom ())) :
    (∀ k ∈ a.entries.keys ++ b.entries.keys, p (a.get k) (b.get k)) ↔ ∀ k, p (a.get k) (b.get k) := by
  refine ⟨fun h k => ?_, fun h k _ => h k⟩
  by_cases hk : k ∈ a.entries.keys ++ b.entries.keys
  · exact h k hk
  · simp only [List.mem_append, Std.ExtTreeMap.mem_keys, not_or] at hk
    rwa [get_of_not_mem hk.1, get_of_not_mem hk.2]

variable [DecidableEq V]

theorem leq_iff_forall (h : LawfulJoin () drawn) :
    Leq a b ↔ ∀ k, Leq (a.get k) (b.get k) := by
  have hverdict : Leq a b ↔ ∀ k ∈ a.entries.keys ++ b.entries.keys, Leq (a.get k) (b.get k) := by
    change AtMost (FlowAnalysis.compare? a b) ↔ _
    rw [compare?_eq_foldlM, atMost_foldlM, List.forall_mem_map]
    exact and_iff_right (.inr rfl)
  exact hverdict.trans (forall_keys_iff (h.laws.refl h.drawn_bottom))

theorem geq_iff_forall (h : LawfulJoin () drawn) (ha : Canonical drawn a) (hb : Canonical drawn b) :
    AtMost ((FlowAnalysis.compare? a b).map Ordering.swap) ↔ ∀ k, Leq (b.get k) (a.get k) := by
  have hverdict : AtMost ((FlowAnalysis.compare? a b).map Ordering.swap) ↔
      ∀ k ∈ a.entries.keys ++ b.entries.keys, Leq (b.get k) (a.get k) := by
    rw [compare?_eq_foldlM, ← foldlM_agreeNext_swap, atMost_foldlM, List.forall_mem_map, List.forall_mem_map]
    refine (and_iff_right (.inr rfl)).trans (forall₂_congr fun k _ => ?_)
    rw [← h.compare?_swap (ha.drawn_get h k) (hb.drawn_get h k)]
    exact Iff.rfl
  exact hverdict.trans (forall_keys_iff (p := fun v w => Leq w v) (h.laws.refl h.drawn_bottom))

theorem compare?_swap (h : LawfulJoin () drawn) (ha : Canonical drawn a) (hb : Canonical drawn b) :
    FlowAnalysis.compare? b a = (FlowAnalysis.compare? a b).map Ordering.swap := by
  apply eq_of_atMost
  · exact (leq_iff_forall h).trans (geq_iff_forall h ha hb).symm
  · rw [geq_iff_forall h hb ha, map_swap_swap]
    exact (leq_iff_forall h).symm

theorem compare?_eq_some_eq (h : LawfulJoin () drawn) (ha : Canonical drawn a) (hb : Canonical drawn b) :
    FlowAnalysis.compare? a b = some .eq ↔ a = b := by
  rw [eq_some_eq_iff, geq_iff_forall h ha hb]
  constructor
  · rintro ⟨hle, hge⟩
    refine ha.ext hb fun k => ?_
    exact h.laws.antisymm (ha.drawn_get h k) (hb.drawn_get h k) ((leq_iff_forall h).mp hle k) (hge k)
  · rintro rfl
    have hrefl : ∀ k, Leq (a.get k) (a.get k) := fun k => h.laws.refl (ha.drawn_get h k)
    exact ⟨(leq_iff_forall h).mpr hrefl, hrefl⟩

@[simp] theorem get_insert_self (m : Pointwise K V) (k : K) (v : V) : (m.insert k v).get k = v := by
  unfold insert get
  split <;> simp_all

theorem get_insert_of_ne (m : Pointwise K V) (v : V) (h : k ≠ l) : (m.insert k v).get l = m.get l := by
  unfold insert get
  split <;> simp [Std.ExtTreeMap.getElem?_erase, Std.ExtTreeMap.getElem?_insert, h]

theorem get_foldl_joinEntry_of_ne {es : List (K × V)} (h : ∀ e ∈ es, e.1 ≠ k) :
    (es.foldl joinEntry m).get k = m.get k := by
  induction es generalizing m with
  | nil => rfl
  | cons e es ih =>
    obtain ⟨he, hes⟩ := List.forall_mem_cons.mp h
    rw [List.foldl_cons, ih hes, joinEntry, get_insert_of_ne _ _ he]

/-- No key has two entries, so an entry is joined to what was there at the start. -/
theorem get_foldl_joinEntry_of_mem {es : List (K × V)} (hkeys : es.Pairwise fun e e' => e.1 ≠ e'.1)
    (h : (k, v) ∈ es) : (es.foldl joinEntry m).get k = FlowAnalysis.join (m.get k) v := by
  induction es generalizing m with
  | nil => simp at h
  | cons e es ih =>
    obtain ⟨hhead, htail⟩ := List.pairwise_cons.mp hkeys
    rw [List.foldl_cons]
    rcases List.mem_cons.mp h with rfl | hmem
    · rw [get_foldl_joinEntry_of_ne fun e' he' => (hhead e' he').symm, joinEntry, get_insert_self]
    · rw [ih htail hmem, joinEntry, get_insert_of_ne _ _ (hhead _ hmem)]

theorem get_join (h : LawfulJoin () drawn) (ha : Canonical drawn a) (k : K) :
    (FlowAnalysis.join a b).get k = FlowAnalysis.join (a.get k) (b.get k) := by
  rw [join_eq_foldl]
  cases hk : b.entries[k]? with
  | none =>
    have hne : ∀ e ∈ b.entries.toList, e.1 ≠ k := by
      rintro ⟨l, w⟩ he rfl
      simp [Std.ExtTreeMap.mem_toList_iff_getElem?_eq_some.mp he] at hk
    have hbottom : b.get k = bottom () := by simp [get, hk]
    rw [get_foldl_joinEntry_of_ne hne, hbottom, h.laws.join_bottom (ha.drawn_get h k)]
  | some w =>
    have hkeys : b.entries.toList.Pairwise fun e e' => e.1 ≠ e'.1 :=
      Std.ExtTreeMap.distinct_keys_toList.imp fun hne heq => hne (Std.compare_eq_iff_eq.mpr heq)
    rw [get_of_stored hk,
      get_foldl_joinEntry_of_mem hkeys (Std.ExtTreeMap.mem_toList_iff_getElem?_eq_some.mpr hk)]

theorem Canonical.join (h : LawfulJoin () drawn) (ha : Canonical drawn a) (hb : Canonical drawn b) :
    Canonical drawn (FlowAnalysis.join a b) := by
  rw [join_eq_foldl]
  refine List.foldlRecOn _ _ ha fun m hm e he => ?_
  have hstored := Std.ExtTreeMap.mem_toList_iff_getElem?_eq_some.mp (show (e.1, e.2) ∈ _ from he)
  exact hm.insert (h.drawn_join (hm.drawn_get h e.1) (hb.drawn hstored)) e.1

theorem leq_iff_join (h : LawfulJoin () drawn) (ha : Canonical drawn a) (hb : Canonical drawn b) :
    Leq a b ↔ FlowAnalysis.join a b = b := by
  rw [leq_iff_forall h]
  have hkey : ∀ k, Leq (a.get k) (b.get k) ↔ (FlowAnalysis.join a b).get k = b.get k := fun k => by
    rw [get_join h ha, h.leq_iff (ha.drawn_get h k) (hb.drawn_get h k)]
  exact (forall_congr' hkey).trans ⟨(ha.join h hb).ext hb, fun heq k => by rw [heq]⟩

/-- Key by key the laws are those of the values. -/
theorem lawfulJoin_canonical (h : LawfulJoin () drawn) :
    LawfulJoin () (Canonical drawn : Pointwise K V → Prop) where
  drawn_bottom := canonical_empty
  drawn_join := .join h
  comm ha hb := (ha.join h hb).ext (hb.join h ha) fun k => by
    rw [get_join h ha, get_join h hb, h.comm (ha.drawn_get h k) (hb.drawn_get h k)]
  assoc ha hb hc := ((ha.join h hb).join h hc).ext (ha.join h (hb.join h hc)) fun k => by
    rw [get_join h (ha.join h hb), get_join h ha, get_join h ha, get_join h hb,
      h.assoc (ha.drawn_get h k) (hb.drawn_get h k) (hc.drawn_get h k)]
  idem ha := (ha.join h ha).ext ha fun k => by rw [get_join h ha, h.idem (ha.drawn_get h k)]
  bottom_join ha := (canonical_empty.join h ha).ext ha fun k => by
    rw [get_join h canonical_empty]
    exact (congrArg (FlowAnalysis.join · _) get_empty).trans (h.bottom_join (ha.drawn_get h k))
  compare?_eq_iff := compare?_eq_some_eq h
  compare?_swap := compare?_swap h
  leq_iff := leq_iff_join h

/-- Maps that can be built of values drawn from a domain. -/
inductive Built (drawn : V → Prop) : Pointwise K V → Prop
  | empty : Built drawn empty
  | insert {m : Pointwise K V} {k : K} {v : V} : Built drawn m → drawn v → Built drawn (m.insert k v)
  | ofList {es : List (K × V)} : (∀ e ∈ es, drawn e.2) → Built drawn (ofList es)
  | join {a b : Pointwise K V} : Built drawn a → Built drawn b → Built drawn (FlowAnalysis.join a b)

theorem Built.canonical (h : LawfulJoin () drawn) (hm : Built drawn m) : Canonical drawn m := by
  induction hm with
  | empty => exact canonical_empty
  | insert _ hv ih => exact ih.insert hv _
  | ofList hes => exact .ofList hes
  | join _ _ iha ihb => exact iha.join h ihb

theorem lawfulJoin_built (h : LawfulJoin () drawn) :
    LawfulJoin () (Built drawn : Pointwise K V → Prop) :=
  (lawfulJoin_canonical h).restrict (·.canonical h) .empty .join

end Pointwise
end FlowAnalysis
