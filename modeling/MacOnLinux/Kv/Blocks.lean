import MacOnLinux.Kv.IoPages

/-! # The mac-physical map -/

namespace MacOnLinux.Kv

open List

variable {k k' : Kv}

/-! ## The order of the table -/

def atZero (b : Block) : Bool := b.mbase = 0

/-- MAPPING_PUT_FIRST first, then address 0 with the latest first, then the others. -/
def arrange (log : List Block) : List Block :=
  log.filter (fun b => b.flags.putFirst) ++
    (log.filter fun b => !b.flags.putFirst && atZero b).reverse ++
    log.filter fun b => !b.flags.putFirst && !atZero b

theorem arrange_perm (log : List Block) : (arrange log).Perm log := by
  have hrest := filter_append_perm atZero (log.filter fun b => !b.flags.putFirst)
  simp only [filter_filter] at hrest
  have hall := filter_append_perm (fun b : Block => b.flags.putFirst) log
  unfold arrange
  rw [append_assoc]
  refine Perm.trans (Perm.append_left _ ?_) hall
  refine Perm.trans (Perm.append_right _ (reverse_perm _)) ?_
  simpa only [Bool.and_comm] using hrest

theorem arrange_filter (log : List Block) (p : Block → Bool) :
    arrange (log.filter p) = (arrange log).filter p := by
  unfold arrange
  simp [filter_append, filter_filter, Bool.and_comm]

/-! ### Where a new block goes -/

theorem placeLoop_rest (bs : List Block) (h : ∀ b ∈ bs, b.flags.putFirst = false) :
    ∀ ind i, placeLoop ind i bs = ind := by
  induction bs with
  | nil => exact fun _ _ => rfl
  | cons b bs ih =>
    intro ind i
    unfold placeLoop
    rw [h b mem_cons_self, ih (forall_mem_cons.mp h).2]
    exact ite_self _

theorem placeLoop_front (fs bs : List Block) (hf : ∀ b ∈ fs, b.flags.putFirst = true)
    (hb : ∀ b ∈ bs, b.flags.putFirst = false) :
    ∀ i, placeLoop i i (fs ++ bs) = i + fs.length := by
  induction fs with
  | nil => exact fun i => placeLoop_rest bs hb i i
  | cons b fs ih =>
    intro i
    rw [cons_append, placeLoop, if_pos (le_refl i), hf b mem_cons_self, if_pos rfl,
      ih (forall_mem_cons.mp hf).2, length_cons]
    omega

theorem placeLoop_end (bs : List Block) : placeLoop bs.length 0 bs = bs.length := by
  cases bs with
  | nil => rfl
  | cons b bs => rw [placeLoop, length_cons, if_neg (by omega)]

theorem insertIdx_append (xs ys : List Block) (b : Block) :
    (xs ++ ys).insertIdx xs.length b = xs ++ b :: ys := by
  induction xs with
  | nil => rfl
  | cons x xs ih => rw [cons_append, length_cons, insertIdx_succ_cons, ih]; rfl

theorem arrange_insert {io : IoData} {log : List Block} (h : io.btable = arrange log) (b : Block) :
    io.btable.insertIdx (place io b.mbase b.flags) b = arrange (log ++ [b]) := by
  have hfront : ∀ c ∈ log.filter (fun b => b.flags.putFirst), c.flags.putFirst = true :=
    fun c hc => by simpa using (mem_filter.mp hc).2
  have hrest : ∀ c ∈ (log.filter fun b => !b.flags.putFirst && atZero b).reverse ++
      log.filter (fun b => !b.flags.putFirst && !atZero b), c.flags.putFirst = false := by
    intro c hc
    rcases mem_append.mp hc with hc | hc
    · have := (mem_filter.mp (mem_reverse.mp hc)).2
      simp only [Bool.and_eq_true, Bool.not_eq_true'] at this
      exact this.1
    · have := (mem_filter.mp hc).2
      simp only [Bool.and_eq_true, Bool.not_eq_true'] at this
      exact this.1
  have hplace : b.mbase = 0 ∨ b.flags.putFirst = true →
      place io b.mbase b.flags = (log.filter fun b => b.flags.putFirst).length := by
    intro hb
    unfold place
    rw [if_pos hb, h]
    unfold arrange
    rw [append_assoc, placeLoop_front _ _ hfront hrest, zero_add]
  by_cases hpf : b.flags.putFirst = true
  · rw [hplace (.inr hpf), h]
    unfold arrange
    rw [append_assoc, insertIdx_append]
    simp [hpf]
  cases hz : atZero b with
  | true =>
    rw [hplace (.inl (of_decide_eq_true hz)), h]
    unfold arrange
    rw [append_assoc, insertIdx_append]
    simp [hpf, hz]
  | false =>
    unfold place
    rw [if_neg (not_or.mpr ⟨of_decide_eq_false hz, hpf⟩), placeLoop_end, h]
    have hend := insertIdx_append (arrange log) [] b
    rw [append_nil] at hend
    rw [hend]
    unfold arrange
    simp [hpf, hz]

/-! ## What the calls do to the table -/

def newBlock (k : Kv) (mbase lvbase size : Word) (flags : MapFlags) : Block :=
  let lvbase := if flags.scratch then 0 else lvbase
  let flags := if flags.scratch then { flags with physical := true } else flags
  ⟨mbase, lvbase, (k.blockRange lvbase size flags).2, size, flags, (k.io.nextFreeId + 1) % 2 ^ 32⟩

theorem withMmu_io {f : Mmu → Option Mmu} (h : k.withMmu f = some k') : k'.io = k.io := by
  obtain ⟨s, _, rfl⟩ := Option.map_eq_some_iff.mp h
  rfl

theorem blockRange_io (k : Kv) (lvbase size : Word) (flags : MapFlags) :
    (k.blockRange lvbase size flags).1.io = k.io := by
  unfold blockRange
  split <;> rfl

theorem addBlockTrans_io {mbase lvbase size : Word} {flags : MapFlags} {ok : Bool} {r : Option Nat}
    (h : k.addBlockTrans mbase lvbase size flags ok = some (k', r)) :
    (r = none ∧ k' = k) ∨
      (r = some (k.newBlock mbase lvbase size flags).id ∧ k.io.btable.length < maxBlockTrans ∧
        k'.io = { k.io with
          btable := k.io.btable.insertIdx (place k.io mbase (k.newBlock mbase lvbase size flags).flags)
            (k.newBlock mbase lvbase size flags)
          nextFreeId := (k.newBlock mbase lvbase size flags).id }) := by
  unfold addBlockTrans at h
  split at h
  · cases h
    exact .inl ⟨rfl, rfl⟩
  rename_i hroom
  extract_lets lvbase' flags' res k1 id b _ io k2 at h
  split at h
  · cases h
    exact .inl ⟨rfl, rfl⟩
  right
  have hio : k1.io = k.io := blockRange_io k lvbase' size flags'
  have hb : b = k.newBlock mbase lvbase size flags := by
    show Block.mk _ _ _ _ _ ((k1.io.nextFreeId + 1) % 2 ^ 32) = _
    rw [hio]
    rfl
  have hid : id = b.id := rfl
  have hk2 : k2.io = { k.io with
      btable := k.io.btable.insertIdx (place k.io mbase flags') b, nextFreeId := b.id } := by
    show { k1.io with btable := k1.io.btable.insertIdx (place k1.io mbase flags') b, nextFreeId := id } = _
    rw [hio]
  rw [← hb]
  have hflags : b.flags = flags' := rfl
  rw [hflags]
  split at h
  · obtain ⟨k3, hk3, he⟩ := Option.map_eq_some_iff.mp h
    cases he
    exact ⟨rfl, Nat.lt_of_not_le hroom, (withMmu_io hk3).trans hk2⟩
  · obtain ⟨rfl, rfl⟩ := Prod.mk.inj (Option.some.inj h)
    exact ⟨rfl, Nat.lt_of_not_le hroom, hk2⟩

theorem freeBlockRange_io {b : Block} (h : k.freeBlockRange b = some k') : k'.io = k.io := by
  unfold freeBlockRange at h
  split at h
  · exact withMmu_io h
  · cases h
    rfl

theorem removeBlockTrans_io {id : Nat} (h : k.removeBlockTrans id = some k') :
    k'.io = { k.io with btable := k.io.btable.eraseP (·.id = id) } := by
  obtain ⟨k1, hk1, h⟩ := Option.bind_eq_some_iff.mp h
  have hio1 := withMmu_io hk1
  split at h
  · rename_i hnone
    cases h
    rw [hio1] at hnone ⊢
    have hno : ∀ b ∈ k.io.btable, ¬ (decide (b.id = id)) = true :=
      fun b hb => find?_eq_none.mp hnone b hb
    rw [eraseP_of_forall_not hno]
  · obtain ⟨k2, hk2, h⟩ := Option.bind_eq_some_iff.mp h
    cases h
    rw [freeBlockRange_io hk2, hio1]

theorem eraseP_eq_filter {bs : List Block} (h : (bs.map (·.id)).Nodup) (id : Nat) :
    bs.eraseP (·.id = id) = bs.filter (·.id ≠ id) := by
  induction bs with
  | nil => rfl
  | cons b bs ih =>
    rw [map_cons, nodup_cons] at h
    rw [eraseP_cons, filter_cons]
    by_cases hb : b.id = id
    · have hall : ∀ c ∈ bs, decide (c.id ≠ id) = true := by
        intro c hc
        refine decide_eq_true fun he => h.1 ?_
        rw [hb, ← he]
        exact mem_map_of_mem hc
      simp only [hb, ne_eq]
      exact (filter_eq_self.mpr hall).symm
    · simp only [hb, decide_false, cond_false, ne_eq, not_false_eq_true, decide_true, if_true]
      rw [ih h.2]

/-! ## Runs -/

/-- Calls from an empty map on, with the blocks that are there and how many were added. -/
inductive MapRun : Kv → List Block → Nat → Prop where
  | init {k : Kv} : k.io.btable = [] → k.io.nextFreeId = 0 → k.io.ioPages = [] → MapRun k [] 0
  | addBlock {k k' : Kv} {log : List Block} {n id : Nat} (mbase lvbase size : Word) (flags : MapFlags)
      (ok : Bool) : MapRun k log n →
      k.addBlockTrans mbase lvbase size flags ok = some (k', some id) →
      MapRun k' (log ++ [k.newBlock mbase lvbase size flags]) (n + 1)
  | addBlockFailed {k k' : Kv} {log : List Block} {n : Nat} (mbase lvbase size : Word)
      (flags : MapFlags) (ok : Bool) : MapRun k log n →
      k.addBlockTrans mbase lvbase size flags ok = some (k', none) → MapRun k' log n
  | removeBlock {k k' : Kv} {log : List Block} {n : Nat} (id : Nat) : MapRun k log n →
      k.removeBlockTrans id = some k' → MapRun k' (log.filter (·.id ≠ id)) n
  | addIo {k k' : Kv} {log : List Block} {n rc : Nat} (mbase : Word) (size : Int) (usrData : Word)
      (pages : List Word) : MapRun k log n → k.addIoTrans mbase size usrData pages = some (k', rc) →
      MapRun k' log n
  | removeIo {k k' : Kv} {log : List Block} {n : Nat} (mbase : Word) (size : Int) : MapRun k log n →
      k.removeIoTrans mbase size = some k' → MapRun k' log n

structure MapOk (k : Kv) (log : List Block) (n : Nat) : Prop where
  order : k.io.btable = arrange log
  length : k.io.btable.length ≤ maxBlockTrans
  nextId : k.io.nextFreeId = n
  ids : ∀ b ∈ log, b.id ≤ n
  nodup : (log.map (·.id)).Nodup
  pages : PagesOk k.io.ioPages

variable {log : List Block} {n : Nat}

theorem MapOk.table_nodup (h : MapOk k log n) : (k.io.btable.map (·.id)).Nodup := by
  rw [h.order]
  exact ((arrange_perm log).map _).nodup_iff.mpr h.nodup

theorem MapOk.remove (h : MapOk k log n) {id : Nat} (hk : k.removeBlockTrans id = some k') :
    k'.io = { k.io with btable := k.io.btable.filter (·.id ≠ id) } := by
  rw [removeBlockTrans_io hk, eraseP_eq_filter h.table_nodup]

theorem mapOk_run (hrun : MapRun k log n) (hn : n < 2 ^ 32) : MapOk k log n := by
  induction hrun with
  | init hb hid hp =>
    refine ⟨hb, ?_, hid, nofun, nodup_nil, ?_⟩
    · rw [hb]
      exact Nat.zero_le _
    · rw [hp]
      exact ⟨Pairwise.nil, nofun⟩
  | addBlock mbase lvbase size flags ok _ hadd ih =>
    rename_i k k' log n id _
    have h := ih (by omega)
    rcases addBlockTrans_io hadd with ⟨hr, _⟩ | ⟨_, hlen, hio⟩
    · cases hr
    have hid : (k.newBlock mbase lvbase size flags).id = n + 1 := by
      show (k.io.nextFreeId + 1) % 2 ^ 32 = n + 1
      rw [h.nextId]
      omega
    constructor
    · rw [hio]
      exact arrange_insert h.order (k.newBlock mbase lvbase size flags)
    · rw [hio]
      exact le_trans length_insertIdx_le_succ hlen
    · rw [hio]
      exact hid
    · intro b hb
      rcases mem_append.mp hb with hb | hb
      · have := h.ids b hb
        omega
      · rw [mem_singleton.mp hb, hid]
    · rw [map_append, nodup_append]
      refine ⟨h.nodup, nodup_singleton _, ?_⟩
      intro i hi j hj
      obtain ⟨b, hb, rfl⟩ := mem_map.mp hi
      have := h.ids b hb
      simp only [map_cons, map_nil, mem_singleton] at hj
      omega
    · rw [hio]
      exact h.pages
  | addBlockFailed mbase lvbase size flags ok _ hadd ih =>
    rcases addBlockTrans_io hadd with ⟨_, rfl⟩ | ⟨hr, _⟩
    · exact ih hn
    · cases hr
  | removeBlock id _ hrem ih =>
    have h := ih hn
    have hio := h.remove hrem
    constructor
    · rw [hio, arrange_filter, ← h.order]
    · rw [hio]
      exact le_trans (length_filter_le _ _) h.length
    · rw [hio]
      exact h.nextId
    · intro b hb
      exact h.ids b (mem_filter.mp hb).1
    · exact h.nodup.sublist (filter_sublist.map _)
    · rw [hio]
      exact h.pages
  | addIo mbase size usrData pages _ hadd ih =>
    have h := ih hn
    obtain ⟨ps, rc, hk, m, hok, _⟩ := addIoTrans_spec h.pages mbase size usrData pages
    rw [hadd] at hk
    cases hk
    exact ⟨h.order, h.length, h.nextId, h.ids, h.nodup, hok⟩
  | removeIo mbase size _ hrem ih =>
    have h := ih hn
    obtain ⟨ps, hk, hok, _⟩ := removeIoTrans_spec h.pages mbase size
    rw [hrem] at hk
    cases hk
    exact ⟨h.order, h.length, h.nextId, h.ids, h.nodup, hok⟩

/-! ## mphys_to_pte -/

def resolve (io : IoData) (blocks : List Block) (mphys : Word) (alloc : Option Word) :
    Option (Target × Word) :=
  if mphys = io.emuaccelMphys ∧ io.emuaccelPagePhys ≠ 0 then
    some (.emuaccel io.emuaccelPagePhys, io.emuaccelPagePhys)
  else match blocks.find? (·.covers mphys) with
    | some b =>
      if b.flags.scratch then (io.scratchPage.or alloc).map fun page => (.scratch page, page)
      else some (.block b.id (mphys - b.mbase), b.lvbase + (mphys - b.mbase))
    | none => (io.ioPages.find? (·.mphys = mphys)).map fun p => (.io p.mePhys, p.mePhys)

def Maps : Option Mapping → Option (Target × Word) → Prop
  | some m, some (t, addr) => m.target = t ∧ m.pte1 &&& pte1Rpn = addr &&& pte1Rpn
  | none, none => True
  | _, _ => False

theorem or_and_disjoint (x : Word) {c r : Word} (h : c &&& r = 0) : (x ||| c) &&& r = x &&& r := by
  rw [BitVec.and_or_distrib_right, h]
  exact BitVec.or_zero

theorem and_not_and_disjoint (x : Word) {c r : Word} (h : c &&& r = 0) : x &&& ~~~c &&& r = x &&& r := by
  apply BitVec.eq_of_getLsbD_eq
  intro i hi
  have hbit := congrArg (BitVec.getLsbD · i) h
  simp only [BitVec.getLsbD_and, BitVec.getLsbD_not, hi] at hbit ⊢
  revert hbit
  cases c.getLsbD i <;> cases r.getLsbD i <;> simp

theorem frame_of_or {pte1 : Word} (h : pte1 &&& pte1Rpn = 0) (addr : Word) :
    (pte1 ||| addr) &&& pte1Rpn = addr &&& pte1Rpn := by
  rw [BitVec.or_comm, or_and_disjoint addr h]

theorem pte1Bits_frame (b : Block) (x : Word) : b.pte1Bits x &&& pte1Rpn = x &&& pte1Rpn := by
  unfold Block.pte1Bits
  have hw : pte1W &&& pte1Rpn = 0 := by decide
  have hi : pte1I &&& pte1Rpn = 0 := by decide
  have hwi : (pte1W ||| pte1I) &&& pte1Rpn = 0 := by decide
  have h3 : (3 : Word) &&& pte1Rpn = 0 := by decide
  have h2 : (2 : Word) &&& pte1Rpn = 0 := by decide
  have hcache : (if b.flags.forceCache then (x ||| pte1W) &&& ~~~pte1I
      else if b.flags.macosControlsCache then x else x &&& ~~~(pte1W ||| pte1I)) &&& pte1Rpn =
        x &&& pte1Rpn := by
    split
    · rw [and_not_and_disjoint _ hi, or_and_disjoint _ hw]
    · split
      · rfl
      · exact and_not_and_disjoint _ hwi
  simp only
  split
  · rw [or_and_disjoint _ h2, and_not_and_disjoint _ h3]
    exact hcache
  · exact hcache

theorem mphysToPte_spec {io : IoData} (hp : PagesOk io.ioPages) (mphys : Word) {pte1 : Word}
    (h : pte1 &&& pte1Rpn = 0) (alloc : Option Word) :
    Maps (mphysToPte io mphys pte1 alloc).2 (resolve io io.btable (mphys &&& pte1Rpn) alloc) := by
  unfold mphysToPte resolve
  simp only
  split
  · refine ⟨rfl, ?_⟩
    rw [and_not_and_disjoint _ (by decide), frame_of_or h]
  unfold findBlock
  cases io.btable.find? (·.covers (mphys &&& pte1Rpn)) with
  | some b =>
    simp only
    split
    · cases io.scratchPage.or alloc with
      | none => exact trivial
      | some page =>
        refine ⟨rfl, ?_⟩
        rw [pte1Bits_frame, frame_of_or h]
    · refine ⟨rfl, ?_⟩
      rw [pte1Bits_frame, frame_of_or h, rpn_rpn, BitVec.add_comm]
  | none =>
    simp only [findIoPage_eq hp]
    unfold pageAt
    cases io.ioPages.find? (·.mphys = mphys &&& pte1Rpn) with
    | none => exact trivial
    | some p =>
      refine ⟨rfl, ?_⟩
      rw [and_not_and_disjoint _ (by decide), frame_of_or h]

theorem mphys_resolution (hrun : MapRun k log n) (hn : n < 2 ^ 32) :
    (∀ mphys pte1 alloc, pte1 &&& pte1Rpn = 0 →
      Maps (mphysToPte k.io mphys pte1 alloc).2 (resolve k.io (arrange log) (mphys &&& pte1Rpn) alloc)) ∧
    k.io.btable.length ≤ 6 ∧ (k.io.btable.map (·.id)).Nodup ∧
    ∀ id k', k.removeBlockTrans id = some k' → k'.io.btable = k.io.btable.filter (·.id ≠ id) := by
  have h := mapOk_run hrun hn
  refine ⟨?_, h.length, h.table_nodup, ?_⟩
  · intro mphys pte1 alloc hpte
    rw [← h.order]
    exact mphysToPte_spec h.pages mphys hpte alloc
  · intro id k' hk
    rw [h.remove hk]

def emptyMap : Kv where
  mmu := Mmu.init 0 0xffc0 (fun _ => 0) fun _ => 0
  guest := {
    bats := fun _ => macBat 0 0
    hashMapped := false
    hashMbase := 0
    hashMask := 0
    pte0 := fun _ => 0
    pte1 := fun _ => 0 }
  io := ⟨[], 0, [], none, 0, 0⟩
  fb := none
  inuseBits := none
  ramSize := 0
  userspaceRamBase := 0

def plainFlags : MapFlags := ⟨false, true, false, false, false, false, false, false⟩

/-- The block at address 0 wins although it came later. -/
theorem mphys_resolution_ram : ∃ k log, MapRun k log 2 ∧
    resolve k.io (arrange log) 0x1000 none = some (.block 2 0x1000, 0x61000) ∧
    Maps (mphysToPte k.io 0x1000 0 none).2 (some (.block 2 0x1000, 0x61000)) := by
  have h0 : MapRun emptyMap [] 0 := .init rfl rfl rfl
  have h1 := MapRun.addBlock 0x1000 0x50000 0x1000 plainFlags true h0 rfl
  have h2 := MapRun.addBlock 0 0x60000 0x2000 plainFlags true h1 rfl
  have hres := (mphys_resolution h2 (by decide)).1 0x1000 0 none (by decide)
  exact ⟨_, _, h2, by decide, hres⟩

/-- A scratch block is mapped to the scratch page. -/
theorem mphys_scratch : ∃ k b, MapRun k [b] 1 ∧ b.covers 0x1000 = true ∧
    ∃ m, (mphysToPte k.io 0x1000 0 (some 0x9000)).2 = some m ∧
      m.pte1 &&& pte1Rpn ≠ (b.lvbase + (0x1000 - b.mbase)) &&& pte1Rpn := by
  have h0 : MapRun emptyMap [] 0 := .init rfl rfl rfl
  have h1 := MapRun.addBlock 0x1000 0x50000 0x1000 { plainFlags with scratch := true } true h0 rfl
  exact ⟨_, _, h1, by decide, _, rfl, by decide⟩

end MacOnLinux.Kv
