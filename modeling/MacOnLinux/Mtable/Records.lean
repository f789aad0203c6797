import MacOnLinux.Mtable.Insert

/-! # The record of a page

Which record tracks a page, without the ghost lists of `Rings`.
-/

namespace MacOnLinux

open Linked

variable {m : Mtable} {g : Rings} {k : Key} {x : Ptr}

namespace Mtable

def Records (m : Mtable) (k : Key) (x : Ptr) : Prop :=
  ∃ t xs, m.lev2 k.slot.1 k.slot.2.1 = some t ∧ m.eaNext (.slot t k.slot.2.2) ≠ .null ∧
    Chain m.eaNext (.slot t k.slot.2.2) xs (.slot t k.slot.2.2) ∧ Ptr.slot t k.slot.2.2 ∉ xs ∧
    x ∈ xs ∧ (m.pent x).topea = k.page / 2 ^ 11 ∧ (m.pent x).sv = k.sv

def recordOf (m : Mtable) (r ea : Nat) (sv : Bool) : Option Ptr := do
  let t ← m.lev2 r (lev2Ind ea)
  let pp := Ptr.slot t (pelistInd ea)
  if m.eaNext pp = .null then none else m.findPent (topeaOf ea) sv m.fuel (m.eaNext pp)

def Recorded (m : Mtable) (k : Key) (index : Nat) : Prop :=
  ∃ x, m.Records k x ∧ (m.pent x).index = index

end Mtable

open Mtable

theorem records_iff (hr : Rep m g) : m.Records k x ↔ g.role x = .ea k := by
  constructor
  · rintro ⟨t, xs, ht, hne, hc, hnot, hx, htop, hsv⟩
    have hxs : xs = g.ea k.slot := by
      rcases hr.ea.ringAt ht with ⟨_, hnull⟩ | ⟨_, hc', _⟩
      · exact absurd hnull hne
      · exact seg_unique hc hc' hnot (hr.ea.slot_notMem _ _ _)
    rw [hxs] at hx
    obtain ⟨k', hk', hks⟩ := (hr.ea.mem _ _).mp hx
    obtain ⟨_, htop', hsv'⟩ := hr.ea.pent x k' hk'
    rw [hk', key_ext hks (htop'.symm.trans htop) (hsv'.symm.trans hsv)]
  · intro hk
    have hx : x ∈ g.ea k.slot := (hr.ea.mem _ _).mpr ⟨k, hk, rfl⟩
    obtain ⟨t, ht⟩ := hr.ea.lev2_of_mem hx
    obtain ⟨_, htop, hsv⟩ := hr.ea.pent x k hk
    rcases hr.ea.ringAt ht with ⟨he, _⟩ | ⟨hne, hc, _⟩
    · rw [he] at hx
      cases hx
    · refine ⟨t, _, ht, ?_, hc, hr.ea.slot_notMem _ _ _, hx, htop, hsv⟩
      rw [hr.ea.slot_eaNext ht]
      exact hr.ea.head_ne_null hne

theorem recordOf_cases (hr : Rep m g) {r ea : Nat} (sv : Bool) {t : Nat}
    (ht : m.lev2 r (lev2Ind ea) = some t) (hne : g.ea (slotOf r (pageOf ea)) ≠ []) :
    ∃ y, m.recordOf r ea sv = some y ∧
      ((y = .null ∧ ∀ z, g.role z ≠ .ea ⟨r, pageOf ea, sv⟩) ∨ g.role y = .ea ⟨r, pageOf ea, sv⟩) := by
  have hlen := Nat.lt_of_succ_lt (hr.ea.ring_length (slotOf r (pageOf ea)))
  have ht' : m.lev2 (slotOf r (pageOf ea)).1 (slotOf r (pageOf ea)).2.1 = some t := by
    rw [slotOf_pageOf]
    exact ht
  have hpp : m.eaNext (.slot t (pelistInd ea)) = (g.ea (slotOf r (pageOf ea))).headD .null := by
    rw [pelistInd_eq]
    exact hr.ea.slot_eaNext ht'
  obtain ⟨y, hfind, hcase⟩ := findPent_spec hr.ea ht' (topeaOf ea) sv (List.nil_append _).symm hne hlen
  refine ⟨y, ?_, ?_⟩
  · simp only [recordOf, ht, some_bind, hpp]
    rw [if_neg (hr.ea.head_ne_null hne), hfind]
  · rcases hcase with ⟨h0, hall⟩ | ⟨hy, hyc⟩
    · refine .inl ⟨h0, fun z hz => ?_⟩
      have hzm : z ∈ g.ea (slotOf r (pageOf ea)) := (hr.ea.mem _ _).mpr ⟨_, hz, rfl⟩
      exact hall z hzm ((hr.ea.cmp_iff sv hzm).mpr hz)
    · exact .inr ((hr.ea.cmp_iff sv hy).mp hyc)

theorem recordOf_of_role (hr : Rep m g) {r ea : Nat} {sv : Bool}
    (hx : g.role x = .ea ⟨r, pageOf ea, sv⟩) : m.recordOf r ea sv = some x := by
  have hm : x ∈ g.ea (slotOf r (pageOf ea)) := (hr.ea.mem _ _).mpr ⟨_, hx, rfl⟩
  obtain ⟨t, ht⟩ := hr.ea.lev2_of_mem hm
  rw [slotOf_pageOf] at ht
  obtain ⟨y, hy, ⟨_, hnone⟩ | hrole⟩ := recordOf_cases hr sv ht (List.ne_nil_of_mem hm)
  · exact absurd hx (hnone x)
  · rw [hy, hr.ea.uniq y x _ hrole hx]

theorem role_of_recordOf (hr : Rep m g) {r ea : Nat} {sv : Bool} (hy : m.recordOf r ea sv = some x) :
    x = .null ∨ g.role x = .ea ⟨r, pageOf ea, sv⟩ := by
  cases ht : m.lev2 r (lev2Ind ea) with
  | none => simp [recordOf, ht] at hy
  | some t =>
    by_cases hne : g.ea (slotOf r (pageOf ea)) = []
    · have ht' : m.lev2 (slotOf r (pageOf ea)).1 (slotOf r (pageOf ea)).2.1 = some t := by
        rw [slotOf_pageOf]
        exact ht
      have hpp := hr.ea.slot_eaNext ht'
      rw [hne, show (slotOf r (pageOf ea)).2.2 = pelistInd ea from (pelistInd_eq ea).symm] at hpp
      simp [recordOf, ht, hpp] at hy
    · obtain ⟨y, hy', hcase⟩ := recordOf_cases hr sv ht hne
      rw [hy, Option.some.injEq] at hy'
      subst hy'
      exact hcase.imp And.left id

end MacOnLinux
