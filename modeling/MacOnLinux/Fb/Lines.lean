import MacOnLinux.Fb.Code
import Mathlib.Data.List.Forall2

/-! # The lines `get_dirty_fb_lines` reports -/

namespace MacOnLinux

open List

def cBit (pte1 : Word) : Bool := pte1.getLsbD 7

namespace LineEntry

variable {p q : LineEntry} {h : Hash}

/-- What makes `get_dirty_fb_lines` report the entry. -/
def Seen (p : LineEntry) (h : Hash) : Prop :=
  p.dirty = true ∨ ∃ slot, p.slot = some slot ∧ (h.pte0 slot ≠ p.pte0 ∨ cBit (h.pte1 slot) = true)

def Apart (p q : LineEntry) : Prop :=
  ∀ slot, p.slot = some slot → q.slot = some slot → p.pte0 ≠ q.pte0

theorem Apart.symm (hpq : p.Apart q) : q.Apart p :=
  fun slot hq hp he => hpq slot hp hq he.symm

def lines (p : LineEntry) : Int × Int := (p.y1, p.y2)

theorem check_cases (p : LineEntry) (h : Hash) : (p.slot = none ∧ p.check h = (p, h)) ∨
      ∃ slot, p.slot = some slot ∧
        ((h.pte0 slot ≠ p.pte0 ∧ p.check h = ({ p with slot := none, dirty := true }, h)) ∨
          (h.pte0 slot = p.pte0 ∧ cBit (h.pte1 slot) = true ∧
            p.check h = ({ p with dirty := true }, h.store slot p.pte0 p.pte1)) ∨
          (h.pte0 slot = p.pte0 ∧ cBit (h.pte1 slot) = false ∧ p.check h = (p, h))) := by
  unfold check
  cases hs : p.slot with
  | none => exact .inl ⟨rfl, rfl⟩
  | some slot =>
    refine .inr ⟨slot, rfl, ?_⟩
    by_cases he : h.pte0 slot = p.pte0
    · cases hb : cBit (h.pte1 slot) with
      | true =>
        refine .inr (.inl ⟨he, rfl, ?_⟩)
        exact (if_neg (not_not_intro he)).trans (if_pos hb)
      | false =>
        refine .inr (.inr ⟨he, rfl, ?_⟩)
        exact (if_neg (not_not_intro he)).trans (if_neg (ne_true_of_eq_false hb))
    · exact .inl ⟨he, by simp [he]⟩

theorem check_dirty : (p.check h).1.dirty = true ↔ p.Seen h := by
  unfold Seen
  rcases check_cases p h with ⟨hs, hc⟩ | ⟨slot, hs, ⟨he, hc⟩ | ⟨he, hb, hc⟩ | ⟨he, hb, hc⟩⟩
  · simp [hc, hs]
  · simp [hc, hs, he]
  · simp [hc, hs, hb]
  · simp [hc, hs, he, hb]

@[simp] theorem check_lines : (p.check h).1.lines = p.lines := by
  rcases check_cases p h with ⟨hs, hc⟩ | ⟨slot, hs, ⟨he, hc⟩ | ⟨he, hb, hc⟩ | ⟨he, hb, hc⟩⟩ <;>
    simp [hc, lines]

@[simp] theorem check_pte0 : (p.check h).2.pte0 = h.pte0 := by
  rcases check_cases p h with ⟨hs, hc⟩ | ⟨slot, hs, ⟨he, hc⟩ | ⟨he, hb, hc⟩ | ⟨he, hb, hc⟩⟩
  · simp [hc]
  · simp [hc]
  · simp [hc, Hash.store, ← he]
  · simp [hc]

theorem Seen.of_check (hpq : p.Apart q) (hp : p.Seen h) : p.Seen (q.check h).2 := by
  rcases check_cases q h with ⟨hs, hc⟩ | ⟨slot, hs, ⟨he, hc⟩ | ⟨he, hb, hc⟩ | ⟨he, hb, hc⟩⟩
  · rwa [hc]
  · rwa [hc]
  · rcases hp with hd | ⟨t, ht, hw⟩
    · exact .inl hd
    refine .inr ⟨t, ht, ?_⟩
    rw [check_pte0, hc]
    by_cases hts : t = slot
    · -- the two entries share the slot, which then holds the PTE of `q` only
      subst hts
      exact .inl fun h' => hpq t ht hs (h'.symm.trans he)
    · simpa [Hash.store, Function.update_of_ne hts] using hw
  · rwa [hc]

structure Kept (h : Hash) (p q : LineEntry) : Prop where
  lines : q.lines = p.lines
  pte0 : q.pte0 = p.pte0
  slot : q.slot = p.slot ∨ q.slot = none
  live : ∀ slot, p.slot = some slot → h.pte0 slot = p.pte0 → q.slot = some slot

theorem kept_check (p : LineEntry) (h : Hash) : Kept h p { (p.check h).1 with dirty := false } := by
  refine ⟨check_lines, ?_, ?_, ?_⟩
  · rcases check_cases p h with ⟨hs, hc⟩ | ⟨slot, hs, ⟨he, hc⟩ | ⟨he, hb, hc⟩ | ⟨he, hb, hc⟩⟩ <;>
      simp [hc]
  · rcases check_cases p h with ⟨hs, hc⟩ | ⟨slot, hs, ⟨he, hc⟩ | ⟨he, hb, hc⟩ | ⟨he, hb, hc⟩⟩ <;>
      simp [hc]
  intro t ht hw
  rcases check_cases p h with ⟨hs, hc⟩ | ⟨slot, hs, ⟨he, hc⟩ | ⟨he, hb, hc⟩ | ⟨he, hb, hc⟩⟩
  · simp [hc, ht]
  · rw [hs] at ht
    cases ht
    exact absurd hw he
  · simp [hc, ht]
  · simp [hc, ht]

end LineEntry

/-! ## The loop -/

namespace DirtyLoop

def next (st : DirtyLoop) (p : LineEntry) : DirtyLoop :=
  let q := (p.check st.hash).1
  let st := { st with hash := (p.check st.hash).2 }
  if q.dirty ∧ st.start < 0 then { st with start := q.y1 }
  else if ¬ q.dirty ∧ st.start ≥ 0 then
    { st with start := -1, n := st.n + 1, pairs := st.pairs ++ [(st.start, q.y2)] }
  else st

def finish (st : DirtyLoop) (last : Int) : List (Int × Int) :=
  if st.start ≥ 0 then st.pairs ++ [(st.start, last)] else st.pairs

variable {st : DirtyLoop} {p : LineEntry}

theorem next_n (st : DirtyLoop) (p : LineEntry) : (st.next p).n ≤ st.n + 1 := by
  unfold next
  grind

@[simp] theorem next_hash : (st.next p).hash = (p.check st.hash).2 := by
  unfold next
  grind

theorem next_pairs : st.pairs ⊆ (st.next p).pairs := by
  unfold next
  grind

end DirtyLoop

variable {s : Int} {p : LineEntry} {ps : List LineEntry} {st : DirtyLoop} {y last : Int}

theorem dirtyLoop_cons (hn : st.n + 1 < s) : dirtyLoop s (p :: ps) st =
      ({ (p.check st.hash).1 with dirty := false } :: (dirtyLoop s ps (st.next p)).1,
        (dirtyLoop s ps (st.next p)).2) := by
  have hs : ¬ st.n + 1 ≥ s := by omega
  rw [dirtyLoop]
  unfold DirtyLoop.next
  by_cases hd : (p.check st.hash).1.dirty = true ∧ st.start < 0
  · simp only [hd, and_self, if_true]
  · by_cases ho : ¬ (p.check st.hash).1.dirty = true ∧ st.start ≥ 0
    · simp only [if_neg hd, if_pos ho, if_neg hs]
    · simp only [if_neg hd, if_neg ho]

def Reported (pairs : List (Int × Int)) (y : Int) : Prop := ∃ ab ∈ pairs, ab.1 ≤ y ∧ y ≤ ab.2

theorem dirtyLoop_pairs (hn : st.n + ps.length < s) (hy : Reported st.pairs y) :
    Reported ((dirtyLoop s ps st).2.finish last) y := by
  induction ps generalizing st with
  | nil =>
    obtain ⟨ab, hab, hb⟩ := hy
    refine ⟨ab, ?_, hb⟩
    unfold dirtyLoop DirtyLoop.finish
    split
    · exact mem_append_left _ hab
    · exact hab
  | cons p ps ih =>
    rw [length_cons] at hn
    rw [dirtyLoop_cons (by omega)]
    have hn' := DirtyLoop.next_n st p
    obtain ⟨ab, hab, hb⟩ := hy
    exact ih (by omega) ⟨ab, DirtyLoop.next_pairs hab, hb⟩

theorem dirtyLoop_open (hn : st.n + ps.length < s) (h0 : 0 ≤ st.start) (hy : st.start ≤ y)
    (hl : y ≤ last) (hps : ∀ p ∈ ps, y ≤ p.y2) :
    Reported ((dirtyLoop s ps st).2.finish last) y := by
  induction ps generalizing st with
  | nil =>
    refine ⟨(st.start, last), ?_, hy, hl⟩
    simp [dirtyLoop, DirtyLoop.finish, h0]
  | cons p ps ih =>
    have hn' := DirtyLoop.next_n st p
    have hlines : (p.check st.hash).1.y2 = p.y2 := congrArg Prod.snd LineEntry.check_lines
    rw [length_cons] at hn
    rw [dirtyLoop_cons (by omega)]
    cases hd : (p.check st.hash).1.dirty with
    | true =>
      have hst : (st.next p).start = st.start := by simp [DirtyLoop.next, hd, not_lt.mpr h0]
      exact ih (by omega) (by omega) (by omega) (forall_mem_cons.mp hps).2
    | false =>
      apply dirtyLoop_pairs (by omega)
      refine ⟨(st.start, p.y2), ?_, hy, hps p mem_cons_self⟩
      simp [DirtyLoop.next, hd, h0, hlines]

structure Rising (p q : LineEntry) : Prop where
  y1 : p.y1 ≤ q.y1
  y2 : p.y2 ≤ q.y2
  apart : p.Apart q

theorem dirtyLoop_seen {r : LineEntry} (hn : st.n + ps.length < s) (hps : ps.Pairwise Rising)
    (h0 : ∀ p ∈ ps, 0 ≤ p.y1 ∧ st.start ≤ p.y1 ∧ p.y2 ≤ last) (hr : r ∈ ps)
    (hseen : r.Seen st.hash) (hy1 : r.y1 ≤ y) (hy2 : y ≤ r.y2) :
    Reported ((dirtyLoop s ps st).2.finish last) y := by
  induction ps generalizing st with
  | nil => cases hr
  | cons p ps ih =>
    have hn' := DirtyLoop.next_n st p
    have hlines : (p.check st.hash).1.y1 = p.y1 := congrArg Prod.fst LineEntry.check_lines
    rw [length_cons] at hn
    rw [dirtyLoop_cons (by omega)]
    obtain ⟨hp, hps⟩ := pairwise_cons.mp hps
    obtain ⟨hp0, hps0⟩ := forall_mem_cons.mp h0
    rcases mem_cons.mp hr with rfl | hr
    · -- the entry starts a run or is in the one that is open
      have hd := LineEntry.check_dirty.mpr hseen
      have hst : 0 ≤ (st.next r).start ∧ (st.next r).start ≤ r.y1 := by
        unfold DirtyLoop.next
        simp only [hd, hlines]
        split
        · exact ⟨hp0.1, le_rfl⟩
        · simp at *
          omega
      exact dirtyLoop_open (by omega) hst.1 (by omega) (by omega) fun q hq =>
        hy2.trans (hp q hq).y2
    · have hseen' : r.Seen (st.next p).hash := by
        rw [DirtyLoop.next_hash]
        exact hseen.of_check (hp r hr).apart.symm
      refine ih (by omega) hps (fun q hq => ⟨(hps0 q hq).1, ?_, (hps0 q hq).2.2⟩) hr hseen'
      have hpq := (hp q hq).y1
      unfold DirtyLoop.next
      grind

theorem dirtyLoop_kept (ps : List LineEntry) (st : DirtyLoop) (hn : st.n + ps.length < s) :
    List.Forall₂ (LineEntry.Kept st.hash) ps (dirtyLoop s ps st).1 ∧
      (dirtyLoop s ps st).2.hash.pte0 = st.hash.pte0 := by
  induction ps generalizing st with
  | nil => exact ⟨.nil, rfl⟩
  | cons p ps ih =>
    have hn' := DirtyLoop.next_n st p
    rw [length_cons] at hn
    rw [dirtyLoop_cons (by omega)]
    obtain ⟨hk, hh⟩ := ih (st.next p) (by omega)
    rw [DirtyLoop.next_hash, LineEntry.check_pte0] at hh
    refine ⟨.cons (LineEntry.kept_check p st.hash) (hk.imp fun a b hab => ?_), hh⟩
    refine ⟨hab.lines, hab.pte0, hab.slot, fun slot hs hw => hab.live slot hs ?_⟩
    rwa [DirtyLoop.next_hash, LineEntry.check_pte0]

/-! ## The whole call -/

def LargeBuffer (nrec numBytes : Nat) : Prop := nrec + 1 < numBytes / 4

instance (nrec numBytes : Nat) : Decidable (LargeBuffer nrec numBytes) :=
  inferInstanceAs (Decidable (nrec + 1 < numBytes / 4))

variable {fb : Fb} {h : Hash} {numBytes : Nat}

theorem y2_le_last (hps : ps.Pairwise Rising) (hp : p ∈ ps) :
    p.y2 ≤ (ps.getLast?.map (·.y2)).getD 0 := by
  induction ps generalizing p with
  | nil => cases hp
  | cons q ps ih =>
    obtain ⟨hq, htail⟩ := pairwise_cons.mp hps
    cases ps with
    | nil =>
      cases mem_singleton.mp hp
      simp
    | cons r ps =>
      rcases mem_cons.mp hp with rfl | hp
      · exact (hq r mem_cons_self).y2.trans (ih htail mem_cons_self)
      · exact ih htail hp

theorem lines_eq_of_kept {qs : List LineEntry} (hk : List.Forall₂ (LineEntry.Kept h) ps qs) :
    qs.map LineEntry.lines = ps.map LineEntry.lines := by
  induction hk with
  | nil => rfl
  | cons hk _ ih => simp [hk.lines, ih]

theorem exists_kept {qs : List LineEntry} (hk : List.Forall₂ (LineEntry.Kept h) ps qs) {i : Nat}
    {q : LineEntry} (hq : qs[i]? = some q) : ∃ p, ps[i]? = some p ∧ LineEntry.Kept h p q := by
  induction hk generalizing i with
  | nil => cases hq
  | cons hk _ ih =>
    cases i with
    | zero =>
      cases hq
      exact ⟨_, rfl, hk⟩
    | succ i => exact ih hq

theorem last_eq_of_lines {qs : List LineEntry} (hk : qs.map LineEntry.lines = ps.map LineEntry.lines) :
    qs.getLast?.map (·.y2) = ps.getLast?.map (·.y2) := by
  have hl := congrArg (fun l => l.getLast?.map Prod.snd) hk
  simpa [Function.comp_def, LineEntry.lines] using hl

theorem getDirtyFbLines_seen (hl : LargeBuffer fb.lineTable.length numBytes)
    (hps : fb.lineTable.Pairwise Rising) (h0 : ∀ p ∈ fb.lineTable, 0 ≤ p.y1) :
    ∃ pairs, (getDirtyFbLines fb h numBytes).2.2 = some pairs ∧
      ∀ p ∈ fb.lineTable, p.Seen h → ∀ y, p.y1 ≤ y → y ≤ p.y2 → Reported pairs y := by
  unfold LargeBuffer at hl
  have hs : ¬ ((numBytes : Int) / 4 - 1 = 0) := by omega
  unfold getDirtyFbLines
  rw [if_neg hs]
  refine ⟨_, rfl, fun p hp hseen y hy1 hy2 => ?_⟩
  have hn : (0 : Int) + fb.lineTable.length < (numBytes : Int) / 4 - 1 := by omega
  have hk := (dirtyLoop_kept fb.lineTable ⟨h, -1, 0, []⟩ hn).1
  refine dirtyLoop_seen hn hps (fun q hq => ?_) hp hseen hy1 hy2
  refine ⟨h0 q hq, ?_, ?_⟩
  · have := h0 q hq
    simp only
    omega
  · rw [last_eq_of_lines (lines_eq_of_kept hk)]
    exact y2_le_last hps hq

theorem getDirtyFbLines_kept (hl : LargeBuffer fb.lineTable.length numBytes) :
    List.Forall₂ (LineEntry.Kept h) fb.lineTable (getDirtyFbLines fb h numBytes).1.lineTable ∧
      (getDirtyFbLines fb h numBytes).2.1.pte0 = h.pte0 ∧
      (getDirtyFbLines fb h numBytes).1.lvBase = fb.lvBase := by
  unfold LargeBuffer at hl
  have hs : ¬ ((numBytes : Int) / 4 - 1 = 0) := by omega
  unfold getDirtyFbLines
  rw [if_neg hs]
  have hk := dirtyLoop_kept fb.lineTable ⟨h, -1, 0, []⟩
    (show (0 : Int) + fb.lineTable.length < (numBytes : Int) / 4 - 1 by omega)
  exact ⟨hk.1, hk.2, rfl⟩

end MacOnLinux
