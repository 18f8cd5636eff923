import FlowAnalysis.Lattice.Dual
import FlowAnalysis.Proofs.Order

/-! # What makes a domain lawful

A domain says on its own how two elements are ordered, how they are joined and,
if it is a meet domain, how they are met. These fit together when joining is a
semilattice and the order is the one that joining defines; meeting then only has
to absorb joining and be absorbed by it. Everything else follows. The laws may
hold for elements of a kind only, such as the sets inside a universe.

Turning a meet domain upside down turns its laws into one another, and what is
said of least upper bounds in the dual is said of greatest lower bounds.
-/
namespace FlowAnalysis
variable {α Ctx : Type}

attribute [ext] Dual

/-- The first element is comparable to the second and not above it. -/
def Leq [JoinDomain α Ctx] (a b : α) : Prop := compare? a b = some .lt ∨ compare? a b = some .eq

/-- What a join domain has to satisfy, for the elements drawn from a context. -/
structure LawfulJoin [JoinDomain α Ctx] (ctx : Ctx) (drawn : α → Prop) : Prop where
  drawn_bottom : drawn (bottom ctx)
  drawn_join : ∀ {a b}, drawn a → drawn b → drawn (join a b)
  comm : ∀ {a b}, drawn a → drawn b → join a b = join b a
  assoc : ∀ {a b c}, drawn a → drawn b → drawn c → join (join a b) c = join a (join b c)
  idem : ∀ {a}, drawn a → join a a = a
  bottom_join : ∀ {a}, drawn a → join (bottom ctx) a = a
  compare?_eq_iff : ∀ {a b}, drawn a → drawn b → (compare? a b = some .eq ↔ a = b)
  compare?_swap : ∀ {a b}, drawn a → drawn b → compare? b a = (compare? a b).map Ordering.swap
  leq_iff : ∀ {a b}, drawn a → drawn b → (Leq a b ↔ join a b = b)

/-- What follows of a lawful join domain: the order is a partial one, joining gives least upper bounds,
and bottom lies below everything. -/
structure JoinLaws [JoinDomain α Ctx] (ctx : Ctx) (drawn : α → Prop) : Prop
    extends LawfulJoin ctx drawn where
  refl : ∀ {a}, drawn a → Leq a a
  trans : ∀ {a b c}, drawn a → drawn b → drawn c → Leq a b → Leq b c → Leq a c
  antisymm : ∀ {a b}, drawn a → drawn b → Leq a b → Leq b a → a = b
  leq_join_left : ∀ {a b}, drawn a → drawn b → Leq a (join a b)
  leq_join_right : ∀ {a b}, drawn a → drawn b → Leq b (join a b)
  join_leq : ∀ {a b c}, drawn a → drawn b → drawn c → Leq a c → Leq b c → Leq (join a b) c
  join_mono : ∀ {a b c d}, drawn a → drawn b → drawn c → drawn d → Leq a c → Leq b d →
    Leq (join a b) (join c d)
  bottom_leq : ∀ {a}, drawn a → Leq (bottom ctx) a
  join_bottom : ∀ {a}, drawn a → join a (bottom ctx) = a

namespace LawfulJoin
variable [JoinDomain α Ctx] {ctx : Ctx} {drawn : α → Prop}

/-- Joining the elements drawn from the context. -/
def merge (h : LawfulJoin ctx drawn) (a b : { a : α // drawn a }) : { a : α // drawn a } :=
  ⟨join a.1 b.1, h.drawn_join a.2 b.2⟩

theorem semilattice (h : LawfulJoin ctx drawn) : Semilattice h.merge where
  comm a b := Subtype.ext (h.comm a.2 b.2)
  assoc a b c := Subtype.ext (h.assoc a.2 b.2 c.2)
  idem a := Subtype.ext (h.idem a.2)

theorem below_iff (h : LawfulJoin ctx drawn) {a b : { a : α // drawn a }} :
    Below h.merge a b ↔ Leq a.1 b.1 := by
  rw [h.leq_iff a.2 b.2]
  exact Subtype.ext_iff

theorem bottom_below (h : LawfulJoin ctx drawn) (a : { a : α // drawn a }) :
    Below h.merge ⟨bottom ctx, h.drawn_bottom⟩ a := Subtype.ext (h.bottom_join a.2)

/-- Laws hold of fewer elements too, if there is a bottom among them and no join leads out. -/
theorem restrict (h : LawfulJoin ctx drawn) {among : α → Prop} (hsub : ∀ {a}, among a → drawn a)
    (hbottom : among (bottom ctx)) (hjoin : ∀ {a b}, among a → among b → among (join a b)) :
    LawfulJoin ctx among where
  drawn_bottom := hbottom
  drawn_join := hjoin
  comm ha hb := h.comm (hsub ha) (hsub hb)
  assoc ha hb hc := h.assoc (hsub ha) (hsub hb) (hsub hc)
  idem ha := h.idem (hsub ha)
  bottom_join ha := h.bottom_join (hsub ha)
  compare?_eq_iff ha hb := h.compare?_eq_iff (hsub ha) (hsub hb)
  compare?_swap ha hb := h.compare?_swap (hsub ha) (hsub hb)
  leq_iff ha hb := h.leq_iff (hsub ha) (hsub hb)

theorem laws (h : LawfulJoin ctx drawn) : JoinLaws ctx drawn := by
  have hb := h.semilattice.bounding
  have hleast : ∀ {a b c}, drawn a → drawn b → drawn c → Leq a c → Leq b c → Leq (join a b) c := by
    intro a b c ha hb hc hac hbc
    have hsup : Below h.merge (h.merge ⟨a, ha⟩ ⟨b, hb⟩) ⟨c, hc⟩ :=
      @sup_le _ h.semilattice.order _ _ _ (h.below_iff.mpr hac) (h.below_iff.mpr hbc)
    exact h.below_iff.mp hsup
  have htrans : ∀ {a b c}, drawn a → drawn b → drawn c → Leq a b → Leq b c → Leq a c := by
    intro a b c ha hb' hc hab hbc
    have hac : Below h.merge ⟨a, ha⟩ ⟨c, hc⟩ :=
      hb.trans (b := ⟨b, hb'⟩) (h.below_iff.mpr hab) (h.below_iff.mpr hbc)
    exact h.below_iff.mp hac
  have hleft : ∀ {a b}, drawn a → drawn b → Leq a (join a b) := fun ha hb' =>
    h.below_iff.mp (hb.left ⟨_, ha⟩ ⟨_, hb'⟩)
  have hright : ∀ {a b}, drawn a → drawn b → Leq b (join a b) := fun ha hb' =>
    h.below_iff.mp (hb.right ⟨_, ha⟩ ⟨_, hb'⟩)
  refine ⟨h, fun ha => .inr ((h.compare?_eq_iff ha ha).mpr rfl), htrans, ?_, hleft, hright, hleast,
    ?_, fun ha => h.below_iff.mp (h.bottom_below ⟨_, ha⟩), ?_⟩
  · intro a b ha hb' hab hba
    rw [← (h.leq_iff ha hb').mp hab, h.comm ha hb', (h.leq_iff hb' ha).mp hba]
  · intro a b c d ha hb' hc hd hac hbd
    have hcd := h.drawn_join hc hd
    exact hleast ha hb' hcd (htrans ha hc hcd hac (hleft hc hd)) (htrans hb' hd hcd hbd (hright hc hd))
  · intro a ha
    rw [h.comm ha h.drawn_bottom, h.bottom_join ha]

end LawfulJoin

/-- What a meet domain has to satisfy, for the elements drawn from a context. -/
structure LawfulMeet [MeetDomain α Ctx] (ctx : Ctx) (drawn : α → Prop) : Prop
    extends LawfulJoin ctx drawn where
  drawn_top : drawn (top ctx)
  drawn_meet : ∀ {a b}, drawn a → drawn b → drawn (meet a b)
  meet_comm : ∀ {a b}, drawn a → drawn b → meet a b = meet b a
  meet_assoc : ∀ {a b c}, drawn a → drawn b → drawn c → meet (meet a b) c = meet a (meet b c)
  top_meet : ∀ {a}, drawn a → meet (top ctx) a = a
  join_meet : ∀ {a b}, drawn a → drawn b → join a (meet a b) = a
  meet_join : ∀ {a b}, drawn a → drawn b → meet a (join a b) = a

/-- What follows of a lawful meet domain: meeting gives greatest lower bounds, the order can be read
off it, and top lies above everything. -/
structure MeetLaws [MeetDomain α Ctx] (ctx : Ctx) (drawn : α → Prop) : Prop
    extends LawfulMeet ctx drawn where
  meet_idem : ∀ {a}, drawn a → meet a a = a
  meet_leq_left : ∀ {a b}, drawn a → drawn b → Leq (meet a b) a
  meet_leq_right : ∀ {a b}, drawn a → drawn b → Leq (meet a b) b
  leq_meet : ∀ {a b c}, drawn a → drawn b → drawn c → Leq c a → Leq c b → Leq c (meet a b)
  leq_iff_meet : ∀ {a b}, drawn a → drawn b → (Leq a b ↔ meet a b = a)
  leq_top : ∀ {a}, drawn a → Leq a (top ctx)
  meet_top : ∀ {a}, drawn a → meet a (top ctx) = a

namespace LawfulMeet
variable [MeetDomain α Ctx] {ctx : Ctx} {drawn : α → Prop} {a b : α}

theorem meet_idem (h : LawfulMeet ctx drawn) (ha : drawn a) : meet a a = a := by
  have habsorb := h.meet_join ha (h.drawn_meet ha ha)
  rwa [h.join_meet ha ha] at habsorb

theorem leq_iff_meet (h : LawfulMeet ctx drawn) (ha : drawn a) (hb : drawn b) :
    Leq a b ↔ meet a b = a := by
  rw [h.leq_iff ha hb]
  constructor
  · intro hab
    have habsorb := h.meet_join ha hb
    rwa [hab] at habsorb
  · intro hab
    have habsorb := h.join_meet hb ha
    rwa [h.meet_comm hb ha, hab, h.comm hb ha] at habsorb

/-- Upside down every law turns into another one. -/
theorem dual (h : LawfulMeet ctx drawn) : LawfulMeet ctx fun a : Dual α => drawn a.inner where
  drawn_bottom := h.drawn_top
  drawn_join := h.drawn_meet
  comm ha hb := congrArg Dual.mk (h.meet_comm ha hb)
  assoc ha hb hc := congrArg Dual.mk (h.meet_assoc ha hb hc)
  idem ha := congrArg Dual.mk (h.meet_idem ha)
  bottom_join ha := congrArg Dual.mk (h.top_meet ha)
  compare?_eq_iff := fun {a b} ha hb => by
    have hinner : a = b ↔ b.inner = a.inner := by
      rw [Dual.ext_iff]
      exact eq_comm
    rw [hinner]
    exact h.compare?_eq_iff hb ha
  compare?_swap ha hb := h.compare?_swap hb ha
  leq_iff := fun {a b} ha hb => by
    have hinner : join a b = b ↔ meet b.inner a.inner = b.inner := by
      rw [Dual.ext_iff, ← h.meet_comm ha hb]
      rfl
    rw [hinner]
    exact h.leq_iff_meet hb ha
  drawn_top := h.drawn_bottom
  drawn_meet := h.drawn_join
  meet_comm ha hb := congrArg Dual.mk (h.comm ha hb)
  meet_assoc ha hb hc := congrArg Dual.mk (h.assoc ha hb hc)
  top_meet ha := congrArg Dual.mk (h.bottom_join ha)
  join_meet ha hb := congrArg Dual.mk (h.meet_join ha hb)
  meet_join ha hb := congrArg Dual.mk (h.join_meet ha hb)

theorem laws (h : LawfulMeet ctx drawn) : MeetLaws ctx drawn := by
  have hdual : JoinLaws ctx fun a : Dual α => drawn a.inner := h.dual.toLawfulJoin.laws
  exact {
    toLawfulMeet := h
    meet_idem := h.meet_idem
    meet_leq_left := fun {a b} ha hb => hdual.leq_join_left (a := ⟨a⟩) (b := ⟨b⟩) ha hb
    meet_leq_right := fun {a b} ha hb => hdual.leq_join_right (a := ⟨a⟩) (b := ⟨b⟩) ha hb
    leq_meet := fun {a b c} ha hb hc => hdual.join_leq (a := ⟨a⟩) (b := ⟨b⟩) (c := ⟨c⟩) ha hb hc
    leq_iff_meet := h.leq_iff_meet
    leq_top := fun {a} ha => hdual.bottom_leq (a := ⟨a⟩) ha
    meet_top := fun {a} ha => (h.meet_comm ha h.drawn_top).trans (h.top_meet ha) }

end LawfulMeet
end FlowAnalysis
