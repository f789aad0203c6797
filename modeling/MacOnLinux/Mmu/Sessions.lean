import MacOnLinux.Mmu.Runs

/-! # Sessions -/

namespace MacOnLinux.Mmu

open Skiplist List Option

variable {s s' : Mmu} {g g' : Rings} {v v' : SlMap} {ready ready' : Bool} {sess : Nat}

variable {n key : Int} {sl sl' : Sl} {coin : Nat → Bool} {ok : Bool} {r : Option Nat}
variable {ea x i j : Nat} {g' : Rings} {v' : SlMap} {ptegMask : Word} {pte0 pte1 : Nat → Word}

/-! ## Stale PTEs -/

def flushAllPTEsCount (s : Mmu) : Nat :=
  ((List.range s.nPte).filter fun i => isStale s.ctx (s.mt.pte0 i)).length

def OfSession (c : Contexts) (w : Word) : Prop :=
  pteValid w = true ∧ ∃ m, c.first ≤ m ∧ m ≤ c.last ∧ (pteVsid w).toNat = contextVsid m

/-- The sweep zeroes the PTEs of the session, no other, and counts them. -/
structure SweepExact (s : Mmu) : Prop where
  zeroed : ∀ i < s.nPte, OfSession s.ctx (s.mt.pte0 i) → s.flushAllPTEs.mt.pte0 i = 0
  kept : ∀ i, ¬ (i < s.nPte ∧ OfSession s.ctx (s.mt.pte0 i)) → s.flushAllPTEs.mt.pte0 i = s.mt.pte0 i
  count : ∃ l : List Nat, l.Nodup ∧ (∀ i, i ∈ l ↔ i < s.nPte ∧ OfSession s.ctx (s.mt.pte0 i)) ∧
    s.flushAllPTEsCount = l.length

theorem ctxMask_lt_first (hs : sess < maxNumSessions) : ctxMask < firstMolContext sess := by
  have hall : ∀ n < 8, ctxMask < firstMolContext n := by decide
  exact hall sess hs

theorem and_ctxMask_le (x : Word) : (x &&& BitVec.ofNat 32 ctxMask).toNat ≤ ctxMask := by
  exact Nat.and_le_right

theorem isStale_eq_false {c : Contexts} (hs : sess < maxNumSessions)
    (hf : c.first = firstMolContext sess) (w : Word) : isStale c w = false := by
  have hfirst := ctxMask_lt_first hs
  unfold isStale
  simp only [Bool.and_eq_false_iff, decide_eq_false_iff_not]
  right
  rintro ⟨hle, _⟩
  have := le_trans hle (and_ctxMask_le _)
  omega

theorem flushAllPTEs_pte0 (hs : sess < maxNumSessions) (hf : s.ctx.first = firstMolContext sess) :
    s.flushAllPTEs.mt.pte0 = s.mt.pte0 ∧ s.flushAllPTEsCount = 0 := by
  constructor
  · funext i
    unfold flushAllPTEs
    simp only [isStale_eq_false hs hf, Bool.false_eq_true, and_false, if_false]
  · unfold flushAllPTEsCount
    simp only [isStale_eq_false hs hf, filter_false, length_nil]

theorem not_ofSession_zero (c : Contexts) : ¬ OfSession c 0 := by
  rintro ⟨h, _⟩
  cases h

/-- The sweep is right for a hash without a PTE of the session, and for no other. -/
theorem flushAllPTEs_exact_iff (hs : sess < maxNumSessions) (hc : CtxOk sess s.ctx) :
    SweepExact s ↔ ∀ i < s.nPte, ¬ OfSession s.ctx (s.mt.pte0 i) := by
  obtain ⟨hpte0, hcount⟩ := flushAllPTEs_pte0 hs hc.first
  constructor
  · intro h i hi hof
    have hzero := h.zeroed i hi hof
    rw [hpte0] at hzero
    rw [hzero] at hof
    exact not_ofSession_zero s.ctx hof
  · intro h
    refine ⟨fun i hi hof => absurd hof (h i hi), fun i _ => congrFun hpte0 i, [], nodup_nil, ?_, hcount⟩
    intro i
    exact iff_of_false not_mem_nil fun hi => h i hi.1 hi.2

def hashOf (w : Word) : Mmu :=
  let s := Mmu.init 0 0xffc0 (fun _ => 0) fun _ => 0
  { s with mt := { s.mt with pte0 := fun _ => w } }

/-- A valid PTE of Linux, in its context 1. -/
def linuxPte : Word := 0x80000000 ||| BitVec.ofNat 32 (linuxContextVsid 1 0) <<< 7

theorem flushAllPTEs_exact_iff_linux : SweepExact (hashOf linuxPte) := by
  refine (flushAllPTEs_exact_iff (by decide : 0 < maxNumSessions) (Contexts.init_ok (by decide))).mpr ?_
  rintro i - ⟨-, m, hfirst, hlast, hvsid⟩
  have hlinux : (pteVsid linuxPte).toNat = contextVsid 16 := by decide
  have hlast' : m ≤ lastMolContext 0 := hlast
  have hm := contextVsid_inj (by decide) (lt_of_le_of_lt hlast' (by decide)) (hlinux.symm.trans hvsid)
  rw [← hm] at hfirst
  exact absurd hfirst (by decide)

def illegalPte : Word := 0x80000000 ||| BitVec.ofNat 32 (contextVsid (firstMolContext 0)) <<< 7

theorem flushAllPTEs_keeps_illegal : ¬ SweepExact (hashOf illegalPte) := by
  intro h
  have hof : OfSession (hashOf illegalPte).ctx ((hashOf illegalPte).mt.pte0 0) :=
    ⟨by decide, firstMolContext 0, by decide, by decide, by decide⟩
  have hzero := h.zeroed 0 (by decide) hof
  revert hzero
  decide

/-! ## Contexts of two sessions -/

def returned (s : Mmu) : List Nat :=
  (s.ctx.illegalSr &&& 0xffffff).toNat :: s.ctx.issued.map Prod.snd

/-- The contexts of a chunk end before those of the session below. -/
def ChunkFits (s : Mmu) : Prop :=
  s.ctx.next + chunkSize / sizeofVsidEnt * 2 ≤ s.ctx.first + perSessionContexts <<< 4 ∨
    s.ctx.last < s.ctx.next + chunkSize / sizeofVsidEnt * 2

def Fits (s : Mmu) : Op → Prop
  | .getVsid .. | .allocVsid .. => ChunkFits s
  | _ => True

inductive FittingRun (sess : Nat) (ptegMask : Word) (pte0 pte1 : Nat → Word) : Mmu → Bool → Prop where
  | init : sess < maxNumSessions →
      FittingRun sess ptegMask pte0 pte1 (Mmu.init sess ptegMask pte0 pte1) false
  | step {s s' : Mmu} {ready ready' : Bool} {op : Op} :
      FittingRun sess ptegMask pte0 pte1 s ready → Legal s ready op → Fits s op →
      exec s ready op = some (s', ready') → FittingRun sess ptegMask pte0 pte1 s' ready'

theorem FittingRun.run (h : FittingRun sess ptegMask pte0 pte1 s ready) :
    Run sess ptegMask pte0 pte1 s ready := by
  induction h with
  | init hs => exact .init hs
  | step _ hl _ hexec ih => exact .step ih hl hexec

/-! ### How far the contexts get -/

theorem withMt_ctx {f : Mtable → Option Mtable} (h : s.withMt f = some s') : s'.ctx = s.ctx := by
  obtain ⟨mt, _, rfl⟩ := map_eq_some_iff.mp h
  rfl

theorem forEachEntry_ctx {f : Mtable → Nat → Option Mtable} (h : s.forEachEntry f = some s') :
    s'.ctx = s.ctx := by
  obtain ⟨els, _, hf⟩ := bind_eq_some_iff.mp h
  exact withMt_ctx hf

theorem clearAllVsids_ctx (h : s.clearAllVsids = some s') :
    s'.ctx.next = s.ctx.next ∧ s'.ctx.first = s.ctx.first ∧ s'.ctx.last = s.ctx.last := by
  obtain ⟨s1, hs1, h1⟩ := bind_eq_some_iff.mp h
  cases h1
  rw [forEachEntry_ctx hs1]
  exact ⟨rfl, rfl, rfl⟩

theorem handleContextWrap_next (h : s.handleContextWrap n = some s') :
    (s' = s ∧ (s.ctx.next : Int) + n ≤ s.ctx.last) ∨
      (s'.ctx = Contexts.init s'.sessionIndex ∧ (s.ctx.last : Int) < s.ctx.next + n) := by
  unfold handleContextWrap at h
  split at h
  · rename_i hn
    obtain ⟨s1, hs1, h1⟩ := bind_eq_some_iff.mp h
    cases h1
    exact .inr ⟨rfl, hn⟩
  · cases h
    exact .inl ⟨rfl, by omega⟩

theorem callbacks_ctx (els : List Nat) : ∀ s : Mmu,
    (els.foldl vsidElCallback s).ctx.next = s.ctx.next + 2 * els.length ∧
      (∀ p ∈ s.ctx.issued, p ∈ (els.foldl vsidElCallback s).ctx.issued) ∧
      (∀ m, s.ctx.next ≤ m → m < s.ctx.next + 2 * els.length →
        (m, contextVsid m) ∈ (els.foldl vsidElCallback s).ctx.issued) := by
  induction els with
  | nil => exact fun _ => ⟨rfl, fun _ hp => hp, fun m h1 h2 => by simp at h2; omega⟩
  | cons r els ih =>
    intro s
    obtain ⟨hnext, hold, hnew⟩ := ih (s.vsidElCallback r)
    have hctx : (s.vsidElCallback r).ctx.next = s.ctx.next + 2 := rfl
    rw [foldl_cons, length_cons]
    refine ⟨by omega, ?_, ?_⟩
    · intro p hp
      exact hold p (mem_cons_of_mem _ (mem_cons_of_mem _ hp))
    · intro m h1 h2
      rcases (by omega : m = s.ctx.next ∨ m = s.ctx.next + 1 ∨ s.ctx.next + 2 ≤ m) with rfl | rfl | h3
      · exact hold _ (mem_cons_of_mem _ mem_cons_self)
      · exact hold _ mem_cons_self
      · exact hnew m h3 (by omega)

theorem callbacks_mt (els : List Nat) : ∀ s : Mmu, (els.foldl vsidElCallback s).vsidSl = s.vsidSl ∧
      (els.foldl vsidElCallback s).mt.allocations = s.mt.allocations ∧
      (els.foldl vsidElCallback s).mt.allocSize = s.mt.allocSize := by
  induction els with
  | nil => exact fun _ => ⟨rfl, rfl, rfl⟩
  | cons r els ih => exact fun s => ih (s.vsidElCallback r)

theorem skiplistInsert_node {e : Node} (h : skiplistInsert sl key = some (sl', e)) : e = sl.freelist := by
  unfold skiplistInsert at h
  simp only at h
  split at h
  · rename_i hnull
    cases h
    exact hnull.symm
  · obtain ⟨_, _, h⟩ := bind_eq_some_iff.mp h
    cases h
    rfl

theorem skiplistPrealloc_freelist {size : Nat} {els : List Nat}
    (h : skiplistPrealloc sl size coin = some (sl', els)) : els = [] ∨ ∃ e, sl'.freelist = .el e := by
  obtain ⟨⟨sl1, els1⟩, _, h⟩ := bind_eq_some_iff.mp h
  simp only at h
  split at h
  · cases h
    exact .inr ⟨_, rfl⟩
  rename_i hno
  cases h
  left
  cases els with
  | nil => rfl
  | cons e es => exact absurd rfl (hno _ e (getLast?_eq_some_getLast (cons_ne_nil e es)))

inductive Carve (s : Mmu) (ok : Bool) (coin : Nat → Bool) (s' : Mmu) (r : Option Nat) : Prop where
  | free : skiplistNeedalloc s.vsidSl = false → s'.ctx = s.ctx → Carve s ok coin s' r
  | noPage (s1 : Mmu) : s.handleContextWrap (chunkSize / sizeofVsidEnt * 2 : Nat) = some s1 →
      s1.mt.doChunkKmalloc ok .vsid s1.vsidSl.fresh = none → s' = s1 → Carve s ok coin s' r
  | chunk (s1 s2 : Mmu) (mt : Mtable) (sl : Sl) (els : List Nat) :
      s.handleContextWrap (chunkSize / sizeofVsidEnt * 2 : Nat) = some s1 →
      s1.mt.doChunkKmalloc ok .vsid s1.vsidSl.fresh = some mt →
      skiplistPrealloc s1.vsidSl chunkSize coin = some (sl, els) →
      s2 = els.foldl vsidElCallback { s1 with mt := mt, vsidSl := sl } →
      s'.ctx = s2.ctx → s'.mt = s2.mt → (els = [] ∨ r ≠ none) → Carve s ok coin s' r

theorem allocVsidEnt_carve (h : s.allocVsidEnt key ok coin = some (s', r)) : Carve s ok coin s' r := by
  unfold allocVsidEnt at h
  split at h
  · obtain ⟨s1, hs1, h⟩ := bind_eq_some_iff.mp h
    split at h
    · rename_i hm
      cases h
      exact .noPage _ hs1 hm rfl
    rename_i mt hm
    obtain ⟨⟨sl, els⟩, hsl, h⟩ := bind_eq_some_iff.mp h
    obtain ⟨⟨sl', e⟩, hsl', h⟩ := bind_eq_some_iff.mp h
    cases h
    refine .chunk s1 _ mt sl els hs1 hm hsl rfl rfl rfl ?_
    have he := skiplistInsert_node hsl'
    rw [(callbacks_mt els _).1] at he
    rcases skiplistPrealloc_freelist hsl with hnil | ⟨p, hp⟩
    · exact .inl hnil
    · right
      rw [he, hp]
      exact nofun
  · rename_i hneed
    obtain ⟨⟨sl, e⟩, _, h⟩ := bind_eq_some_iff.mp h
    cases h
    exact .free (by simpa using hneed) rfl

/-- The contexts of the session that the session below does not use. -/
def Within (s : Mmu) : Prop := s.ctx.next ≤ s.ctx.first + perSessionContexts <<< 4

theorem prealloc_count (h : Inv s g v) {els : List Nat}
    (hsl : skiplistPrealloc s.vsidSl chunkSize coin = some (sl, els)) : 2 * els.length ≤ 30 := by
  obtain ⟨sl', els', hsl', _, _, _, hlen, _⟩ := skiplist_prealloc_spec h.sl chunkSize coin
  rw [hsl] at hsl'
  cases hsl'
  rw [h.datasize] at hlen
  unfold sizeofVsidEnt sizeofSkiplist chunkSize at hlen
  omega

theorem allocVsidEnt_within (h : Inv s g v) (hw : Within s) (hfit : ChunkFits s)
    (hk : key < skiplistEnd) (ha : v.lookup key = none)
    (hs' : s.allocVsidEnt key ok coin = some (s', r)) :
    Within s' ∧ (r = none → ChunkFits s') := by
  obtain ⟨s2, r2, g2, v2, hs2, h2, ho2, _⟩ := allocVsidEnt_spec h hk ha ok coin
  rw [hs'] at hs2
  cases hs2
  have hfirst := ho2.host.first
  have hlast := ho2.host.last
  have hf := h.ctx.first
  have hn : chunkSize / sizeofVsidEnt * 2 = 30 := by decide
  have hp : perSessionContexts <<< 4 = 2 ^ 20 := by decide
  simp only [ChunkFits, Within] at hw hfit ⊢
  rw [hfirst, hlast]
  -- the first context after a wrap
  have hinit : ∀ s1 : Mmu, s1.ctx = Contexts.init s1.sessionIndex → SameHost s s1 →
      s1.ctx.next = s.ctx.first + 1 := by
    intro s1 he hh
    rw [he, hf, ← hh.sessionIndex]
    rfl
  cases allocVsidEnt_carve hs' with
  | free _ hctx =>
    rw [hctx]
    exact ⟨hw, fun _ => hfit⟩
  | noPage s1 hs1 _ he =>
    subst he
    rcases handleContextWrap_next hs1 with ⟨rfl, _⟩ | ⟨he, _⟩
    · exact ⟨hw, fun _ => hfit⟩
    · rw [hinit _ he ho2.host]
      exact ⟨by omega, fun _ => .inl (by omega)⟩
  | chunk s1 s2 mt sl els hs1 _ hsl he hctx _ hr =>
    obtain ⟨s1', g1, v1, hs1', h1, ho1, _⟩ := handleContextWrap_spec h (chunkSize / sizeofVsidEnt * 2 : Nat)
    rw [hs1] at hs1'
    cases hs1'
    have hcount := prealloc_count h1 hsl
    have hnext : s'.ctx.next = s1.ctx.next + 2 * els.length := by
      rw [hctx, he]
      exact (callbacks_ctx els _).1
    have hw' : s'.ctx.next ≤ s.ctx.first + 2 ^ 20 := by
      rcases handleContextWrap_next hs1 with ⟨rfl, hno⟩ | ⟨he, _⟩
      · omega
      · rw [hnext, hinit _ he ho1.host]
        omega
    refine ⟨hw', fun hnone => ?_⟩
    rcases hr with rfl | hr
    · rw [hnext]
      rcases handleContextWrap_next hs1 with ⟨rfl, _⟩ | ⟨he, _⟩
      · exact hfit
      · rw [hinit _ he ho1.host]
        exact .inl (by omega)
    · exact absurd hnone hr

theorem within_init (hc : s.ctx = Contexts.init s.sessionIndex) : Within s := by
  unfold Within
  rw [hc]
  show firstMolContext s.sessionIndex + 1 ≤ firstMolContext s.sessionIndex + perSessionContexts <<< 4
  have : 1 ≤ perSessionContexts <<< 4 := by decide
  omega

theorem Within.of_ctx (hw : Within s) (h : s'.ctx = s.ctx) : Within s' := by
  unfold Within
  rw [h]
  exact hw

theorem Within.clear (hw : Within s) (h : s.clearAllVsids = some s') : Within s' := by
  obtain ⟨hnext, hfirst, _⟩ := clearAllVsids_ctx h
  unfold Within
  rw [hnext, hfirst]
  exact hw

theorem vsidGetUserSv_within (h : Inv s g v) (hw : Within s) (hfit : ChunkFits s)
    (hk : key < skiplistEnd) {ok' : Bool} {coin' : Nat → Bool}
    (hs' : s.vsidGetUserSv key ok ok' coin coin' = some (s', r)) : Within s' := by
  unfold vsidGetUserSv at hs'
  rw [vsidEntLookup_spec h hk, some_bind] at hs'
  cases hl : v.lookup key with
  | some e =>
    rw [hl] at hs'
    cases hs'
    exact hw
  | none =>
    rw [hl] at hs'
    obtain ⟨s1, r1, g1, v1, hs1, h1, ho1, _⟩ := allocVsidEnt_spec h hk hl ok coin
    obtain ⟨hw1, hfit1⟩ := allocVsidEnt_within h hw hfit hk hl hs1
    rw [hs1, some_bind] at hs'
    cases r1 with
    | some e =>
      cases hs'
      exact hw1
    | none =>
      obtain ⟨s2, hs2, h2, _⟩ := clearAllVsids_spec h1
      simp only [hs2] at hs'
      obtain ⟨hnext, hfirst, hlast⟩ := clearAllVsids_ctx hs2
      refine (allocVsidEnt_within h2 (hw1.clear hs2) ?_ hk rfl hs').1
      have := hfit1 rfl
      unfold ChunkFits at this ⊢
      rw [hnext, hfirst, hlast]
      exact this

theorem mtableMemoryCheck_within (hw : Within s) {lev2Ok pentOk b : Bool}
    (h : s.mtableMemoryCheck lev2Ok pentOk = some (s', b)) : Within s' := by
  unfold mtableMemoryCheck at h
  extract_lets mt mt' s1 at h
  split at h
  · cases h
    exact hw
  split at h
  · obtain ⟨s2, hs2, he⟩ := map_eq_some_iff.mp h
    cases he
    exact Within.clear (s := s1) (hw.of_ctx rfl) hs2
  · rw [← (Prod.mk.inj (some.inj h)).1]
    exact hw.of_ctx rfl

theorem handleContextWrap_within (hw : Within s) (h : s.handleContextWrap n = some s') : Within s' := by
  rcases handleContextWrap_next h with ⟨rfl, _⟩ | ⟨hc, _⟩
  · exact hw
  · exact within_init hc

theorem pteInserted_ctx {index r : Nat} {lv : Option (LvRange × Word)} {segreg : Word}
    (h : s.pteInserted ea lv index r segreg = some s') : s'.ctx = s.ctx := by
  unfold pteInserted at h
  split at h
  · cases h
    rfl
  · exact withMt_ctx h

theorem flushVsidEa_ctx (h : s.flushVsidEa key ea = some s') : s'.ctx = s.ctx := by
  obtain ⟨r, _, h⟩ := bind_eq_some_iff.mp h
  cases r with
  | none =>
    cases h
    rfl
  | some r => exact withMt_ctx h

theorem flushLvptr_ctx {lvptr : Word} (h : s.flushLvptr lvptr = some s') : s'.ctx = s.ctx := by
  unfold flushLvptr at h
  rw [withMt_ctx h]
  split <;> rfl

theorem within_step {op : Op} (h : Good s ready g v) (hw : Within s) (hl : Legal s ready op)
    (hf : Fits s op) (he : exec s ready op = some (s', ready')) : Within s' := by
  cases op with
  | registerLvrange | setSegment | tuneAllocLimit =>
    cases he
    exact hw
  | freeLvrange | flushLvRange => exact hw.of_ctx (withMt_ctx (some_of_map he))
  | memoryCheck =>
    obtain ⟨⟨s1, b⟩, hs1, he⟩ := map_eq_some_iff.mp he
    cases he
    exact mtableMemoryCheck_within hw hs1
  | getVsid =>
    obtain ⟨⟨s1, r⟩, hs1, he⟩ := map_eq_some_iff.mp he
    cases he
    exact vsidGetUserSv_within h.inv hw hf hl hs1
  | allocVsid =>
    obtain ⟨⟨s1, r⟩, hs1, he⟩ := map_eq_some_iff.mp he
    cases he
    obtain ⟨hk, ha⟩ := hl
    rw [vsidEntLookup_spec h.inv hk, some.injEq] at ha
    exact (allocVsidEnt_within h.inv hw hf hk ha hs1).1
  | contextWrap => exact handleContextWrap_within hw (some_of_map he)
  | pteInserted => exact hw.of_ctx (pteInserted_ctx (some_of_map he))
  | flushVsidEa => exact hw.of_ctx (flushVsidEa_ctx (some_of_map he))
  | flushLvptr => exact hw.of_ctx (flushLvptr_ctx (some_of_map he))
  | flushEaRange => exact hw.of_ctx (forEachEntry_ctx (some_of_map he))
  | reclaim =>
    obtain ⟨s1, g1, v1, hs1, _, hsh⟩ := mtableReclaim_spec h.inv
    cases hs1.symm.trans (some_of_map he)
    refine hw.of_ctx ?_
    rw [hsh.same]
  | clear => exact hw.clear (some_of_map he)

theorem within_run (hrun : FittingRun sess ptegMask pte0 pte1 s ready) : Within s := by
  induction hrun with
  | init _ => exact within_init rfl
  | step hrun hl hf he ih =>
    obtain ⟨g, v, h, _⟩ := good_run hrun.run
    exact within_step h ih hl hf he

theorem mem_returned (h : Inv s g v) (hx : x ∈ s.returned) :
    ∃ m, s.ctx.first ≤ m ∧ m < s.ctx.next ∧ x = contextVsid m := by
  have hissued : ∀ p ∈ s.ctx.issued, ∃ m, s.ctx.first ≤ m ∧ m < s.ctx.next ∧ p.2 = contextVsid m :=
    fun p hp => ⟨p.1, h.ctx.issued p hp⟩
  rcases mem_cons.mp hx with rfl | hx
  · rw [h.ctx.illegal_vsid]
    exact hissued _ h.ctx.first_mem
  · obtain ⟨p, hp, rfl⟩ := mem_map.mp hx
    exact hissued p hp

theorem context_lt (hij : i < j) (hj : j < maxNumSessions) : lastMolContext j < firstMolContext i ∨
      j = i + 1 ∧ firstMolContext j + perSessionContexts <<< 4 = firstMolContext i := by
  have hall : ∀ b < 8, ∀ a < b, lastMolContext b < firstMolContext a ∨
      b = a + 1 ∧ firstMolContext b + perSessionContexts <<< 4 = firstMolContext a := by decide
  exact hall j hj i hij

/-- The VSIDs of two sessions, when the chunks of the one fit in front of the other. -/
theorem returned_ne (hij : i < j) {t : Mmu} (hs : Inv s g v) (ht : Inv t g' v')
    (hi : s.sessionIndex = i) (hj : t.sessionIndex = j) (hfit : j = i + 1 → Within t) {y : Nat}
    (hx : x ∈ s.returned) (hy : y ∈ t.returned) : x ≠ y := by
  obtain ⟨m, hm1, hm2, rfl⟩ := mem_returned hs hx
  obtain ⟨n, hn1, hn2, rfl⟩ := mem_returned ht hy
  have hsb := firstMolContext_bounds hs.sess
  have htb := firstMolContext_bounds ht.sess
  have hsf := hs.ctx.first
  have hsl := hs.ctx.last
  have htf := ht.ctx.first
  have htl := ht.ctx.last
  have hsn := hs.ctx.next
  have htn := ht.ctx.next
  intro heq
  have hmn := contextVsid_inj (by omega) (by omega) heq
  have hsess := ht.sess
  rw [hi] at hsf hsl
  rw [hj] at htf htl hsess
  rcases context_lt hij hsess with hlt | ⟨hadj, hlt⟩
  · omega
  · have := hfit hadj
    unfold Within at this
    omega

/-- Two sessions have different VSIDs while the upper one stays out of the lower one. -/
theorem sessions_isolated {i j : Nat} (hij : i ≠ j) {t : Mmu} {ready' : Bool} {mask mask' : Word}
    {p0 p1 q0 q1 : Nat → Word} (hs : Run i mask p0 p1 s ready) (ht : Run j mask' q0 q1 t ready')
    (hi : i = j + 1 → FittingRun i mask p0 p1 s ready)
    (hj : j = i + 1 → FittingRun j mask' q0 q1 t ready') :
    ∀ x ∈ s.returned, ∀ y ∈ t.returned, x ≠ y := by
  intro x hx y hy
  obtain ⟨g, v, h, hsi⟩ := good_run hs
  obtain ⟨g', v', h', htj⟩ := good_run ht
  rcases Nat.lt_or_gt_of_ne hij with hlt | hlt
  · exact returned_ne hlt h.inv h'.inv hsi htj (fun ha => within_run (hj ha)) hx hy
  · exact (returned_ne hlt h'.inv h.inv htj hsi (fun ha => within_run (hi ha)) hy hx).symm

/-! ### A run into the contexts of the session below -/

theorem drawHeight_const (b : Bool) (left pos n : Nat) :
    (drawHeight (fun _ => b) left pos n).1 = n + if b then left else 0 := by
  induction left generalizing pos n with
  | zero => cases b <;> rfl
  | succ left ih =>
    unfold drawHeight
    cases b with
    | false => rfl
    | true =>
      have := ih (pos + 1) (n + 1)
      simp only [if_true] at this ⊢
      omega

/-- All elements of a chunk have one size when the random bits are all the same. -/
theorem carve_const (b : Bool) : ∀ (fuel : Nat) (sl sl' : Sl) (size pos : Nat) (els els' : List Nat),
    carve (fun _ => b) fuel sl size pos els = some (sl', els') →
    els'.length = els.length +
      size / (sl.datasize + sizeofSkiplist + (if b then maxHeight - 1 else 0) * sizeofLevel) := by
  intro fuel
  induction fuel with
  | zero => exact fun _ _ _ _ _ _ h => nomatch h
  | succ fuel ih =>
    intro sl sl' size pos els els' h
    have hn := drawHeight_const b (maxHeight - 1) pos 0
    unfold carve at h
    simp only [zero_add] at h hn
    rw [← hn] at ih ⊢
    have hpos : 0 < sizeofSkiplist := by decide
    split at h
    · rename_i hlt
      cases h
      rw [Nat.div_eq_of_lt hlt, add_zero]
    · rename_i hle
      have hlen := ih _ _ _ _ _ _ h
      simp only [Sl.setNext, length_cons] at hlen
      rw [Nat.div_eq_sub_div (by omega) (Nat.le_of_not_lt hle)]
      omega

def Blank (s : Mmu) : Prop :=
  (∃ ht, Inv s .empty { live := [], free := [], ht := ht }) ∧ s.mt.allocations = [] ∧ s.mt.allocSize = 0

theorem clearAllVsids_blank (h : Inv s g v) (hm : s.mt.allocSize = 0x1000 * s.mt.allocations.length)
    (hs' : s.clearAllVsids = some s') : Blank s' := by
  obtain ⟨s1, hs1, h1, _⟩ := clearAllVsids_spec h
  obtain ⟨mt, g', hmt, _, hd, _⟩ := flushAll_spec h
  rw [hs'] at hs1
  cases hs1
  refine ⟨⟨v.ht, h1⟩, ?_⟩
  unfold clearAllVsids at hs'
  rw [forEachEntry_eq h, hmt] at hs'
  cases hs'
  refine ⟨rfl, ?_⟩
  show mt.allocSize - 0x1000 * mt.allocations.length = 0
  rw [hd.same.allocations, hd.same.allocSize, hm, Nat.sub_self]

/-- The number of entries of a chunk when the random bits are all `b`. -/
def chunkEls (b : Bool) : Nat := if b then 9 else 11

theorem blank_chunk_limit (hrun : Run sess ptegMask pte0 pte1 s ready) (h : Blank s)
    (hlimit : 0 ≤ s.mt.allocLimit)
    (hroom : s.ctx.next + 30 ≤ s.ctx.last) (b : Bool) :
    ∃ s', Run sess ptegMask pte0 pte1 s' false ∧ s'.ctx.next = s.ctx.next + 2 * chunkEls b ∧
      (∀ m, s.ctx.next ≤ m → m < s'.ctx.next → (m, contextVsid m) ∈ s'.ctx.issued) ∧
      s'.mt.allocSize = 0x1000 * s'.mt.allocations.length := by
  obtain ⟨⟨ht, hinv⟩, halloc, hsize⟩ := h
  have hk : (5 : Int) < skiplistEnd := by decide
  have hlegal : Legal s ready (.allocVsid 5 true fun _ => b) :=
    ⟨hk, by rw [vsidEntLookup_spec hinv hk]; rfl⟩
  obtain ⟨s', r, g', v', hs', _⟩ := allocVsidEnt_spec hinv hk rfl true fun _ => b
  refine ⟨s', .step hrun hlegal (by simp only [exec, hs', map_some]), ?_⟩
  have hwrap : s.handleContextWrap (chunkSize / sizeofVsidEnt * 2 : Nat) = some s := by
    unfold handleContextWrap
    have hn : chunkSize / sizeofVsidEnt * 2 = 30 := by decide
    rw [if_neg (by omega)]
  have hpage : s.mt.doChunkKmalloc true .vsid s.vsidSl.fresh =
      some (s.mt.addPage .vsid s.vsidSl.fresh) := by
    unfold Mtable.doChunkKmalloc
    rw [hsize, if_neg (by omega), if_pos rfl]
  cases allocVsidEnt_carve hs' with
  | free hno _ =>
    have hfree := freelist_eq hinv.sl
    unfold skiplistNeedalloc at hno
    rw [hfree] at hno
    cases hno
  | noPage s1 hs1 hm _ =>
    rw [hwrap] at hs1
    cases hs1
    rw [hpage] at hm
    cases hm
  | chunk s1 s2 mt sl els hs1 hm hsl he hctx hmt _ =>
    rw [hwrap] at hs1
    cases hs1
    rw [hpage] at hm
    cases hm
    have hlen : els.length = chunkEls b := by
      obtain ⟨⟨sl1, els1⟩, hc, hsl⟩ := bind_eq_some_iff.mp hsl
      have := carve_const b _ _ _ _ _ _ _ hc
      simp only at hsl
      rw [hinv.datasize] at this
      split at hsl <;>
      · cases hsl
        rw [this]
        cases b <;> rfl
    obtain ⟨hnext, _, hnew⟩ := callbacks_ctx els
      { s with mt := s.mt.addPage .vsid s.vsidSl.fresh, vsidSl := sl }
    obtain ⟨_, ha, hsz⟩ := callbacks_mt els
      { s with mt := s.mt.addPage .vsid s.vsidSl.fresh, vsidSl := sl }
    rw [← he] at hnext hnew ha hsz
    rw [hctx, hmt, hnext, ha, hsz, ← hlen]
    refine ⟨rfl, hnew, ?_⟩
    show s.mt.allocSize + 0x1000 = 0x1000 * (_ :: s.mt.allocations).length
    rw [hsize, halloc]
    rfl

theorem blank_chunk (hrun : Run sess ptegMask pte0 pte1 s ready) (h : Blank s)
    (hroom : s.ctx.next + 30 ≤ s.ctx.last) (b : Bool) :
    ∃ s', Run sess ptegMask pte0 pte1 s' false ∧ s'.ctx.next = s.ctx.next + 2 * chunkEls b ∧
      (∀ m, s.ctx.next ≤ m → m < s'.ctx.next → (m, contextVsid m) ∈ s'.ctx.issued) ∧
      s'.mt.allocSize = 0x1000 * s'.mt.allocations.length := by
  obtain ⟨⟨ht, hinv⟩, halloc, hsize⟩ := h
  have htuned : Blank { s with mt := s.mt.tuneAllocLimit 0 } :=
    ⟨⟨ht, hinv.withMt (hinv.rep.withHost _ _) hinv.live (hinv.ranges.congr rfl)⟩, halloc, hsize⟩
  have hlegal : Legal s ready (.tuneAllocLimit 0) := ⟨by decide, by decide⟩
  have hlimit : 0 ≤ (s.mt.tuneAllocLimit 0).allocLimit := by simp [Mtable.tuneAllocLimit]
  exact blank_chunk_limit (.step hrun hlegal rfl) htuned hlimit hroom b

theorem blank_init (hs : sess < maxNumSessions) : Blank (Mmu.init sess ptegMask pte0 pte1) := by
  refine ⟨⟨fun _ => 0, (rep_init pte0).withHost _ _, skiplist_init_spec _ _ _ (fun _ => by decide), rfl,
    nofun, nofun, hs, Contexts.init_ok hs, nofun, nofun⟩, rfl, rfl⟩

theorem blank_chunks (ptegMask : Word) (pte0 pte1 : Nat → Word) (hs : sess < maxNumSessions) (n : Nat)
    (hn : 18 * n + 31 ≤ 2 ^ 20 + 33) :
    ∃ s, Run sess ptegMask pte0 pte1 s false ∧ Blank s ∧
      s.ctx.next = firstMolContext sess + 1 + 18 * n ∧ s.ctx.last = lastMolContext sess := by
  induction n with
  | zero => exact ⟨_, .init hs, blank_init hs, rfl, rfl⟩
  | succ n ih =>
    obtain ⟨s, hrun, hb, hnext, hlast⟩ := ih (by omega)
    have hbounds := firstMolContext_bounds hs
    obtain ⟨s1, hrun1, hnext1, _, hm1⟩ := blank_chunk hrun hb (by omega) true
    obtain ⟨g1, v1, h1, hsess1⟩ := good_run hrun1
    obtain ⟨s2, hs2, h2, hc2⟩ := clearAllVsids_spec h1.inv
    refine ⟨s2, .step hrun1 (show Legal s1 false .clear from trivial)
        (by simp only [exec, hs2, map_some]),
      clearAllVsids_blank h1.inv hm1 hs2, ?_, ?_⟩
    · rw [(clearAllVsids_ctx hs2).1, hnext1]
      show _ + 2 * 9 = _
      omega
    · rw [h2.ctx.last, hc2.host.sessionIndex, hsess1]

/-- Session 1 gets to the `illegal_sr` of session 0. -/
theorem sessions_overlap : ∃ s t : Mmu, Run 1 0 (fun _ => 0) (fun _ => 0) s false ∧
    Run 0 0xffc0 (fun _ => 0) (fun _ => 0) t false ∧ ∃ x ∈ s.returned, x ∈ t.returned := by
  obtain ⟨s, hrun, hb, hnext, hlast⟩ :=
    blank_chunks 0 (fun _ => 0) (fun _ => 0) (by decide : 1 < maxNumSessions) 58253 (by decide)
  have hf : firstMolContext 1 + 2 ^ 20 = firstMolContext 0 := by decide
  have hl := (firstMolContext_bounds (by decide : 1 < maxNumSessions)).2.1
  obtain ⟨s', hrun', hnext', hnew, _⟩ := blank_chunk hrun hb (by omega) false
  have hmem := hnew (firstMolContext 0) (by omega) (by rw [hnext', hnext]; show _ < _ + 2 * 11; omega)
  refine ⟨s', _, hrun', run_init, contextVsid (firstMolContext 0), ?_, ?_⟩
  · exact mem_cons_of_mem _ (mem_map_of_mem hmem)
  · exact mem_cons_of_mem _ (mem_map_of_mem (Contexts.init_ok (by decide)).first_mem)

theorem sessions_isolated_init : ∃ s t : Mmu, Run 1 0 (fun _ => 0) (fun _ => 0) s false ∧
    Run 0 0xffc0 (fun _ => 0) (fun _ => 0) t false ∧ ∀ x ∈ s.returned, ∀ y ∈ t.returned, x ≠ y := by
  have h1 : FittingRun 1 0 (fun _ => 0) (fun _ => 0) (Mmu.init 1 0 (fun _ => 0) fun _ => 0) false :=
    .init (by decide)
  have h2 := FittingRun.step h1 (show Legal _ _ (.allocVsid 5 true fun _ => false) from ⟨by decide, rfl⟩)
    (show ChunkFits _ from .inl (by decide)) rfl
  exact ⟨_, _, h2.run, run_init, sessions_isolated (by decide) h2.run run_init (fun _ => h2) nofun⟩

end MacOnLinux.Mmu
