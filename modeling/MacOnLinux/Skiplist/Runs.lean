import MacOnLinux.Skiplist.Proofs

/-! # Every history of the skiplist refines a finite map -/

namespace MacOnLinux.Skiplist

open Linked List

variable {m : SlMap} {sl : Sl} {k : Int} {ht : Nat → Nat} {t : List (Op × Node)}

/-! ## The map after one call -/

theorem lookup_insert {e : Nat} {fs : List Nat} (hf : m.free = e :: fs)
    (hm : m.live.Pairwise (·.1 < ·.1)) (hr : Rep (m.insert k) sl) (ha : m.lookup k = none)
    (key : Int) :
    (m.insert k).lookup key = if k = key then some e else m.lookup key := by
  have hlive : (m.insert k).live = m.below k ++ (k, e) :: m.above k := by
    unfold SlMap.insert; rw [hf]
  apply Option.ext
  intro e'
  rw [lookup_eq_some hr.sorted, hlive]
  by_cases hk : k = key
  · subst hk
    rw [if_pos rfl, mem_append, mem_cons]
    constructor
    · rintro (h | h | h)
      · exact absurd (below_lt h) (by simp)
      · cases h; rfl
      · exact absurd (above_of_absent hm ha h) (by simp)
    · intro h
      cases h
      exact .inr (.inl rfl)
  · rw [if_neg hk, lookup_eq_some hm, mem_live_iff k, mem_append, mem_cons]
    constructor
    · rintro (h | h | h)
      · exact .inl h
      · cases h; exact absurd rfl hk
      · exact .inr h
    · rintro (h | h)
      · exact .inl h
      · exact .inr (.inr h)

theorem lookup_delete (hm : m.live.Pairwise (·.1 < ·.1)) (hr : Rep (m.delete k) sl) (key : Int) :
    (m.delete k).lookup key = if k = key then none else m.lookup key := by
  cases hl : m.lookup k with
  | none =>
    have hdel : m.delete k = m := by unfold SlMap.delete; rw [hl]
    rw [hdel]
    split
    · subst_vars; exact hl
    · rfl
  | some e =>
    have hlive : (m.delete k).live = m.live.filter (·.1 ≠ k) := by unfold SlMap.delete; rw [hl]
    apply Option.ext
    intro e'
    rw [lookup_eq_some hr.sorted, hlive, mem_filter]
    by_cases hk : k = key
    · subst hk
      simp
    · rw [if_neg hk, lookup_eq_some hm]
      simp only [decide_not, Bool.not_eq_eq_eq_not, Bool.not_true, decide_eq_false_iff_not,
        and_iff_left_iff_imp]
      intro _ h
      exact hk h.symm

theorem toNode_eq_null {e : Option Nat} : toNode e = .null ↔ e = none := by
  cases e <;> simp [toNode]

theorem toNode_eq_el {e : Option Nat} {i : Nat} : toNode e = .el i ↔ e = some i := by
  cases e <;> simp [toNode]

/-! ## The invariant of a run -/

structure Tracks (m : SlMap) (sl : Sl) (t : List (Op × Node)) (ht : Nat → Nat) : Prop where
  rep : Rep m sl
  holder : ∀ key, holder t key = toNode (m.lookup key)
  heights : ∀ e < sl.fresh, m.ht e = ht e
  all : ∀ e < sl.fresh, e ∈ m.live.map (·.2) ++ m.free

theorem recordHeights_old {sl' : Sl} {e : Nat} (h : e < sl.fresh) :
    recordHeights ht sl sl' e = ht e := by
  unfold recordHeights
  rw [if_pos h]

theorem Tracks.same {m' : SlMap} {sl' : Sl} {t' : List (Op × Node)} (h : Tracks m sl t ht) (hrep : Rep m' sl')
    (hfresh : sl'.fresh = sl.fresh) (hht : m'.ht = m.ht)
    (hperm : (m'.live.map (·.2) ++ m'.free).Perm (m.live.map (·.2) ++ m.free))
    (hholder : ∀ key, Skiplist.holder t' key = toNode (m'.lookup key)) :
    Tracks m' sl' t' (recordHeights ht sl sl') := by
  refine ⟨hrep, hholder, fun e he => ?_, fun e he => hperm.mem_iff.mpr (h.all e (hfresh ▸ he))⟩
  rw [hht, recordHeights_old (hfresh ▸ he)]
  exact h.heights e (hfresh ▸ he)

theorem tracks_insert (h : Tracks m sl t ht) (hl : Legal t (.insert k)) :
    ∃ sl', skiplistInsert sl k = some (sl', toNode m.free.head?) ∧
      Tracks (m.insert k) sl' ((.insert k, toNode m.free.head?) :: t) (recordHeights ht sl sl') := by
  obtain ⟨hk, habs⟩ := hl
  rw [h.holder, toNode_eq_null] at habs
  obtain ⟨sl', hrun, hrep, hfresh, -⟩ := skiplist_insert_spec h.rep hk habs
  have hht : (m.insert k).ht = m.ht := by unfold SlMap.insert; split <;> rfl
  refine ⟨sl', hrun, h.same hrep hfresh hht (insert_perm m k) fun key => ?_⟩
  cases hf : m.free with
  | nil =>
    have hins : m.insert k = m := by unfold SlMap.insert; rw [hf]
    rw [hins, Skiplist.holder, if_neg (by simp [toNode])]
    exact h.holder key
  | cons e fs =>
    rw [lookup_insert hf h.rep.sorted hrep habs, Skiplist.holder]
    by_cases hkey : k = key
    · rw [if_pos ⟨hkey, by simp [toNode]⟩, if_pos hkey]; rfl
    · rw [if_neg (fun hh => hkey hh.1), if_neg hkey]
      exact h.holder key

theorem tracks_delete (h : Tracks m sl t ht) (hl : Legal t (.delete k)) :
    ∃ sl' out, skiplistDelete sl k = some (sl', out) ∧
      Tracks (m.delete k) sl' ((.delete k, out) :: t) (recordHeights ht sl sl') := by
  obtain ⟨sl', hrun, hrep, hfresh, -⟩ := skiplist_delete_spec h.rep hl
  have hht : (m.delete k).ht = m.ht := by unfold SlMap.delete; split <;> rfl
  refine ⟨sl', _, hrun, h.same hrep hfresh hht (delete_perm h.rep.sorted k) fun key => ?_⟩
  rw [lookup_delete h.rep.sorted hrep, Skiplist.holder]
  split
  · rfl
  · exact h.holder key

theorem tracks_prealloc (size : Nat) (coin : Nat → Bool) (h : Tracks m sl t ht) :
    ∃ m' sl' new, skiplistPrealloc sl size coin = some (sl', new) ∧
      Tracks m' sl' ((.prealloc size coin, .null) :: t) (recordHeights ht sl sl') := by
  obtain ⟨sl', new, hrun, hrep, hnew, -, -, -, hmono⟩ := skiplist_prealloc_spec h.rep size coin
  refine ⟨_, sl', new, hrun, hrep, h.holder, ?_, ?_⟩
  · intro e he
    by_cases hold : e < sl.fresh
    · rw [recordHeights_old hold, ← h.heights e hold]
      exact recordHeights_old hold
    · simp [SlMap.prealloc, recordHeights, if_neg hold]
  intro e he
  simp only [SlMap.prealloc, mem_append]
  by_cases hold : e < sl.fresh
  · rcases mem_append.mp (h.all e hold) with h | h
    · exact .inl h
    · exact .inr (.inr h)
  · exact .inr (.inl ((hnew e).mpr ⟨by omega, he⟩))

theorem tracks_lookup (out : Node) (h : Tracks m sl t ht) :
    Tracks m sl ((.lookup k, out) :: t) (recordHeights ht sl sl) := by
  refine ⟨h.rep, h.holder, ?_, h.all⟩
  intro e he
  rw [recordHeights_old he]
  exact h.heights e he

theorem tracks_step {op : Op} (h : Tracks m sl t ht) (hl : Legal t op) :
    ∃ m' sl' out, exec sl op = some (sl', out) ∧
      Tracks m' sl' ((op, out) :: t) (recordHeights ht sl sl') := by
  cases op with
  | prealloc size coin =>
    obtain ⟨m', sl', new, hrun, htr⟩ := tracks_prealloc size coin h
    exact ⟨m', sl', .null, by simp [exec, hrun], htr⟩
  | insert k =>
    obtain ⟨sl', hrun, htr⟩ := tracks_insert h hl
    exact ⟨_, sl', _, hrun, htr⟩
  | delete k =>
    obtain ⟨sl', out, hrun, htr⟩ := tracks_delete h hl
    exact ⟨_, sl', out, hrun, htr⟩
  | lookup k =>
    refine ⟨m, sl, toNode (m.lookup k), ?_, tracks_lookup _ h⟩
    simp [exec, skiplist_lookup_spec h.rep hl]

theorem tracks_run {datasize : Nat} (hrun : Run datasize sl t ht) : ∃ m, Tracks m sl t ht := by
  induction hrun with
  | init =>
    refine ⟨_, skiplist_init_spec .blank datasize (fun _ => 0) (fun _ => by decide), ?_, ?_, ?_⟩
    · intro key; rfl
    · intro e _; rfl
    · intro e he; exact absurd he (Nat.not_lt_zero e)
  | step _ hl hexec ih =>
    obtain ⟨m, hm⟩ := ih
    obtain ⟨m', sl'', out', hexec', htr⟩ := tracks_step hm hl
    rw [hexec] at hexec'
    cases hexec'
    exact ⟨m', htr⟩

/-! ## The refinement -/

/-- What a client sees of a list whose history is `t`. -/
structure RefinesMap (sl : Sl) (t : List (Op × Node)) (ht : Nat → Nat) : Prop where
  /-- No legal call runs forever or off the list. -/
  total : ∀ op, Legal t op → (exec sl op).isSome
  lookup : ∀ key < skiplistEnd, skiplistLookup sl key = some (holder t key)
  levels : ∃ lev : Nat → List Node, (∀ l < maxHeight, Chain (sl.next l) .root (lev l) .nil ∧
      (lev l).Pairwise (sl.key · < sl.key ·) ∧ ∀ i, .el i ∈ lev l ↔ .el i ∈ lev 0 ∧ l ≤ ht i) ∧
    ∀ l, (lev (l + 1)).Sublist (lev l)
  iterate : ∃ els, skiplistElements sl = some els ∧ els.Pairwise (sl.key · < sl.key ·) ∧
    ∀ key p, (p ∈ els ∧ sl.key p = key) ↔ (holder t key = p ∧ p ≠ .null)
  insert : ∀ key sl', Legal t (.insert key) → exec sl (.insert key) = some (sl', .null) →
    sl.freelist = .null
  elements : ∃ els free, skiplistElements sl = some els ∧
    Seg (sl.next 0) sl.freelist free .null ∧ (els ++ free).Nodup ∧
    (∀ p, p ∈ els ++ free ↔ ∃ i < sl.fresh, p = .el i) ∧ ∀ i, .el i ∈ free → sl.key (.el i) = ht i

theorem Rep.keys_pairwise (hr : Rep m sl) (l : Nat) :
    (levelNodes m.ht m.live l).Pairwise (sl.key · < sl.key ·) := by
  unfold levelNodes
  rw [pairwise_map]
  have hs := hr.sorted.sublist (filter_sublist (p := fun x => decide (l ≤ m.ht x.2)))
  refine hs.imp_of_mem ?_
  intro a b ha hb hab
  rw [(hr.keys a (mem_filter.mp ha).1).1, (hr.keys b (mem_filter.mp hb).1).1]
  exact hab

theorem tracks_refines (h : Tracks m sl t ht) : RefinesMap sl t ht := by
  have hr := h.rep
  have hlt : ∀ x ∈ m.live, x.2 < sl.fresh := fun x hx =>
    hr.owned _ (mem_append_left _ (mem_map.mpr ⟨x, hx, rfl⟩))
  have hzero : levelNodes m.ht m.live 0 = m.live.map (Node.el ·.2) := levelNodes_zero _ _
  have hnodes : (m.live.map (Node.el ·.2) ++ m.free.map Node.el) =
      (m.live.map (·.2) ++ m.free).map Node.el := by simp
  constructor
  · intro op hl
    obtain ⟨m', sl', out, hexec, -⟩ := tracks_step h hl
    simp [hexec]
  · intro key hk
    rw [skiplist_lookup_spec hr hk, h.holder]
  · refine ⟨levelNodes m.ht m.live, ?_, levelNodes_succ_sublist _ _⟩
    intro l hl
    refine ⟨hr.levels l hl, hr.keys_pairwise l, ?_⟩
    intro i
    rw [mem_levelNodes, mem_levelNodes]
    constructor
    · rintro ⟨x, hx, hle, heq⟩
      cases heq
      exact ⟨⟨x, hx, Nat.zero_le _, rfl⟩, by rw [← h.heights _ (hlt x hx)]; exact hle⟩
    · rintro ⟨⟨x, hx, -, heq⟩, hle⟩
      cases heq
      exact ⟨x, hx, by rw [h.heights _ (hlt x hx)]; exact hle, rfl⟩
  · refine ⟨_, skiplist_elements_spec hr, hzero ▸ hr.keys_pairwise 0, ?_⟩
    intro key p
    rw [h.holder, mem_map]
    constructor
    · rintro ⟨⟨x, hx, rfl⟩, hkey⟩
      rw [(hr.keys x hx).1] at hkey
      refine ⟨toNode_eq_el.mpr ((lookup_eq_some hr.sorted).mpr ?_), by simp⟩
      rw [← hkey]
      exact hx
    · rintro ⟨rfl, hne⟩
      obtain ⟨e, he⟩ := Option.ne_none_iff_exists'.mp (fun hh => hne (toNode_eq_null.mpr hh))
      have hmem := (lookup_eq_some hr.sorted).mp he
      rw [he]
      exact ⟨⟨_, hmem, rfl⟩, (hr.keys _ hmem).1⟩
  · intro key sl' hl hexec
    obtain ⟨sl'', hrun, -⟩ := tracks_insert h hl
    rw [exec, hrun] at hexec
    have hout : toNode m.free.head? = .null := by
      simp only [Option.some.injEq, Prod.mk.injEq] at hexec
      exact hexec.2
    rw [freelist_eq hr]
    exact hout
  · refine ⟨_, m.free.map Node.el, skiplist_elements_spec hr, hr.free, ?_, ?_, ?_⟩
    · rw [hnodes]
      exact hr.nodup.map (fun a b => Node.el.inj)
    · intro p
      rw [hnodes, mem_map]
      constructor
      · rintro ⟨e, he, rfl⟩; exact ⟨e, hr.owned e he, rfl⟩
      · rintro ⟨i, hi, rfl⟩; exact ⟨i, h.all i hi, rfl⟩
    · intro i hi
      obtain ⟨e, he, heq⟩ := mem_map.mp hi
      cases heq
      rw [hr.freeKeys i he, h.heights i (hr.owned i (mem_append_right _ he))]

/-- The skiplist is the finite map that the history describes. -/
theorem skiplist_refines_map {datasize : Nat} {sl : Sl} {t : List (Op × Node)} {ht : Nat → Nat}
    (hrun : Run datasize sl t ht) : RefinesMap sl t ht := by
  obtain ⟨m, hm⟩ := tracks_run hrun
  exact tracks_refines hm

/-- One element of height 1 is carved out of 400 bytes and inserted under key 5. -/
theorem skiplist_refines_map_insert : ∃ sl t ht, Run 268 sl t ht ∧ RefinesMap sl t ht ∧
    holder t 5 = .el 0 := by
  have h0 : Run 268 (skiplistInit .blank 268) [] (fun _ => 0) := .init
  have h1 := h0.step (show Legal _ (.prealloc 400 (· == 0)) from trivial) rfl
  have h2 := h1.step (show Legal _ (.insert 5) from ⟨by decide, rfl⟩) rfl
  exact ⟨_, _, _, h2, skiplist_refines_map h2, rfl⟩

end MacOnLinux.Skiplist
