import Mathlib.Data.Nat.ModEq
import MacOnLinux.Mmu.Code

/-! # Contexts and VSIDs

The formula is injective, so VSIDs stay apart as long as the numbers do.
-/

namespace MacOnLinux

open List Nat

/-! ## The formula -/

theorem mungeContext_eq (c : Nat) : mungeContext c = 897 * c % 2 ^ 20 * 16 := by
  unfold mungeContext mungeAddNext ctxMask
  have hshift : c * (897 * 16) % 2 ^ 32 = (897 * c % 2 ^ 28) <<< 4 := by
    rw [shiftLeft_eq, show c * (897 * 16) = 897 * c * 2 ^ 4 by omega,
      show 2 ^ 32 = 2 ^ 28 * 2 ^ 4 by rfl, mul_mod_mul_right]
  rw [hshift, ← shiftLeft_and_distrib, show 0xfffff = 2 ^ 20 - 1 by rfl,
    and_two_pow_sub_one_eq_mod, shiftLeft_eq, mod_mod_of_dvd _ (by decide)]

theorem digits_mod {x y : Nat} (hy : y < 16) : (16 * x + y) % 2 ^ 24 = x % 2 ^ 20 * 16 + y := by
  rw [show 2 ^ 24 = 16 * 2 ^ 20 by rfl, mod_mul, show (16 * x + y) % 16 = y by omega,
    show (16 * x + y) / 16 = x by omega, add_comm, mul_comm]

theorem digits_inj {x x' y y' : Nat} (hy : y < 16) (hy' : y' < 16)
    (h : x * 16 + y = x' * 16 + y') : x = x' ∧ y = y' := by
  omega

theorem contextVsid_eq (m : Nat) :
    contextVsid m = (897 * (m / 16) + 17 * (m % 16)) % 2 ^ 20 * 16 + m % 16 := by
  have hand : m &&& 0xf = m % 16 := and_two_pow_sub_one_eq_mod m 4
  unfold contextVsid vsidMask mungeEsidAdd
  rw [mungeContext_eq, hand, shiftRight_eq_div_pow, show 0xffffff = 2 ^ 24 - 1 by rfl,
    and_two_pow_sub_one_eq_mod]
  have hy := mod_lt m (show 16 > 0 by decide)
  have hsum : 897 * (m / 2 ^ 4) % 2 ^ 20 * 16 + 0x111 * (m % 16) =
      16 * (897 * (m / 16) % 2 ^ 20 + 17 * (m % 16)) + m % 16 := by
    omega
  rw [hsum, digits_mod hy, mod_add_mod]

theorem contextVsid_lt (m : Nat) : contextVsid m < 2 ^ 24 :=
  lt_of_le_of_lt and_le_right (by decide)

theorem munge_cancel {a b : Nat} (ha : a < 2 ^ 20) (hb : b < 2 ^ 20)
    (h : 897 * a ≡ 897 * b [MOD 2 ^ 20]) : a = b := by
  have hc : Nat.gcd (2 ^ 20) 897 = 1 := by decide
  have h' : a ≡ b [MOD 2 ^ 20] := h.cancel_left_of_coprime hc
  unfold ModEq at h'
  rwa [mod_eq_of_lt ha, mod_eq_of_lt hb] at h'

theorem contextVsid_inj {a b : Nat} (ha : a < 2 ^ 24) (hb : b < 2 ^ 24)
    (h : contextVsid a = contextVsid b) : a = b := by
  rw [contextVsid_eq, contextVsid_eq] at h
  obtain ⟨hhigh, hlow⟩ := digits_inj (mod_lt a (by decide)) (mod_lt b (by decide)) h
  have ha' : a / 16 < 2 ^ 20 := Nat.div_lt_of_lt_mul ha
  have hb' : b / 16 < 2 ^ 20 := Nat.div_lt_of_lt_mul hb
  rw [hlow] at hhigh
  have hdiv : a / 16 = b / 16 := munge_cancel ha' hb' (Nat.ModEq.add_right_cancel' _ hhigh)
  rw [← div_add_mod a 16, ← div_add_mod b 16, hdiv, hlow]

theorem linuxContextVsid_eq {c s : Nat} (hs : s < 16) :
    linuxContextVsid c s = contextVsid (c * 16 + s) := by
  rw [contextVsid_eq, show (c * 16 + s) / 16 = c by omega, show (c * 16 + s) % 16 = s by omega]
  unfold linuxContextVsid
  rw [shiftLeft_eq, show c * 897 * 2 ^ 4 + s * 0x111 = 16 * (897 * c + 17 * s) + s by omega,
    digits_mod hs]

/-! ## Ranges of contexts -/

theorem firstMolContext_bounds {sess : Nat} (hs : sess < maxNumSessions) :
    2 ^ 19 ≤ firstMolContext sess ∧ firstMolContext sess + 2 ^ 20 + 15 = lastMolContext sess ∧
      lastMolContext sess < 2 ^ 24 := by
  have hall : ∀ n < 8, 2 ^ 19 ≤ firstMolContext n ∧
      firstMolContext n + 2 ^ 20 + 15 = lastMolContext n ∧ lastMolContext n < 2 ^ 24 := by
    decide
  exact hall sess hs

/-- The contexts since the last clear are distinct numbers of the session's range. -/
structure CtxOk (sess : Nat) (c : Contexts) : Prop where
  first : c.first = firstMolContext sess
  last : c.last = lastMolContext sess
  illegal : c.illegalSr = BitVec.ofNat 32 (contextVsid c.first) ||| vsidKp ||| vsidN
  next : c.first < c.next ∧ c.next ≤ c.last + 1
  issued : ∀ p ∈ c.issued, c.first ≤ p.1 ∧ p.1 < c.next ∧ p.2 = contextVsid p.1
  nodup : (c.issued.map Prod.fst).Nodup
  first_mem : (c.first, contextVsid c.first) ∈ c.issued

variable {sess : Nat} {c : Contexts}

theorem Contexts.init_ok (hs : sess < maxNumSessions) : CtxOk sess (Contexts.init sess) := by
  obtain ⟨h1, h2, h3⟩ := firstMolContext_bounds hs
  refine ⟨rfl, rfl, rfl, ?_, ?_, ?_, ?_⟩
  · show firstMolContext sess < firstMolContext sess + 1 ∧
      firstMolContext sess + 1 ≤ lastMolContext sess + 1
    omega
  · intro p hp
    rw [mem_singleton.mp hp]
    exact ⟨le_refl _, lt_succ_self _, rfl⟩
  · exact nodup_singleton _
  · exact mem_singleton.mpr rfl

section Bounds

variable (h : CtxOk sess c) (hs : sess < maxNumSessions)

include h hs

theorem CtxOk.lt {p : Nat × Nat} (hp : p ∈ c.issued) : p.1 < 2 ^ 24 ∧ p.1 ≤ c.last := by
  have h1 := (h.issued p hp).2.1
  have h2 := h.next.2
  have h3 := h.last
  have h4 := (firstMolContext_bounds hs).2.2
  omega

theorem CtxOk.vsid_inj {p q : Nat × Nat}
    (hp : p ∈ c.issued) (hq : q ∈ c.issued) (he : p.2 = q.2) : p = q := by
  have hfst : p.1 = q.1 := by
    rw [(h.issued p hp).2.2, (h.issued q hq).2.2] at he
    exact contextVsid_inj (h.lt hs hp).1 (h.lt hs hq).1 he
  exact Prod.ext hfst he

theorem CtxOk.vsid_nodup : (c.issued.map Prod.snd).Nodup := by
  have hnd : c.issued.Nodup := List.Nodup.of_map _ h.nodup
  exact hnd.map_on fun p hp q hq he => h.vsid_inj hs hp hq he

theorem CtxOk.not_linux {p : Nat × Nat}
    (hp : p ∈ c.issued) {n e : Nat} (hn : n < 32768) (he : e < 16) : p.2 ≠ linuxContextVsid n e := by
  intro heq
  rw [(h.issued p hp).2.2, linuxContextVsid_eq he] at heq
  have hinj := contextVsid_inj (h.lt hs hp).1 (by omega) heq
  have h1 := (h.issued p hp).1
  have h2 := h.first
  have h3 := (firstMolContext_bounds hs).1
  omega

end Bounds

theorem CtxOk.alloc (h : CtxOk sess c) (hn : c.next ≤ c.last) : CtxOk sess c.allocContext.1 := by
  refine ⟨h.first, h.last, h.illegal, ?_, ?_, ?_, mem_cons_of_mem _ h.first_mem⟩
  · show c.first < c.next + 1 ∧ c.next + 1 ≤ c.last + 1
    have := h.next
    omega
  · intro p hp
    show _ ∧ p.1 < c.next + 1 ∧ _
    rcases mem_cons.mp hp with rfl | hp
    · exact ⟨le_of_lt h.next.1, lt_succ_self _, rfl⟩
    · have := h.issued p hp
      exact ⟨this.1, by omega, this.2.2⟩
  · refine nodup_cons.mpr ⟨?_, h.nodup⟩
    intro hm
    obtain ⟨p, hp, he⟩ := mem_map.mp hm
    have := (h.issued p hp).2.1
    omega

theorem toNat_and_vsidMask (w : Word) : (w &&& 0xffffff).toNat = w.toNat % 2 ^ 24 := by
  rw [BitVec.toNat_and, show (0xffffff : Word).toNat = 2 ^ 24 - 1 by rfl,
    and_two_pow_sub_one_eq_mod]

theorem or_and_vsidMask (w : Word) {b : Word} (hb : b &&& 0xffffff = 0) :
    (w ||| b) &&& 0xffffff = w &&& 0xffffff := by
  rw [BitVec.and_or_distrib_right, hb]
  exact BitVec.or_zero

theorem CtxOk.illegal_vsid (h : CtxOk sess c) :
    (c.illegalSr &&& 0xffffff).toNat = contextVsid c.first := by
  have hlt := contextVsid_lt c.first
  rw [h.illegal, or_and_vsidMask _ (by decide), or_and_vsidMask _ (by decide), toNat_and_vsidMask,
    BitVec.toNat_ofNat]
  omega

theorem CtxOk.clear (h : CtxOk sess c) :
    CtxOk sess { c with issued := [(c.first, (c.illegalSr &&& 0xffffff).toNat)] } := by
  rw [h.illegal_vsid]
  refine ⟨h.first, h.last, h.illegal, h.next, ?_, nodup_singleton _, mem_singleton.mpr rfl⟩
  intro p hp
  rw [mem_singleton.mp hp]
  exact ⟨le_refl _, h.next.1, rfl⟩

end MacOnLinux
