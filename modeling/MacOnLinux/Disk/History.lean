import MacOnLinux.Disk.Dmg
import MacOnLinux.Lib.Result
import MacOnLinux.Qcow.Runs

/-! # dmg reads after other calls

A load that fails leaves no chunk in the buffer, and the file at another place.
-/

namespace MacOnLinux.Dmg

open List Prod

open Backend (span)
open Qcow (Zlib)

inductive Call where
  | seek (block offset : Int)
  | read (split : Nat → Nat → Option Nat) (nbBytes : Nat)

def Call.run (z : Zlib) (s : State) : Call → Except Stop State
  | .seek block offset => .ok (dmgSeek s block offset)
  | .read split nbBytes => (dmgRead z split s nbBytes).map snd

def whole : Nat → Nat → Option Nat := fun _ _ => none

def Call.Fit (s : State) : Call → Prop
  | .seek _ _ => True
  | .read split nbBytes => split = whole ∧ Plain s s.seekSector (nbBytes / 512)

def Step (z : Zlib) (s s' : State) : Prop := ∃ call : Call, call.Fit s ∧ call.run z s = .ok s'

/-- What `dmg_open` leaves, if the chunks are in order and none is so large that a size wraps. -/
structure Opened (s : State) : Prop where
  ordered : s.chunks.Pairwise fun c c' => c.sector + c.count ≤ c'.sector
  small : ∀ c ∈ s.chunks, c.count < 2 ^ 23 ∧ c.length < 2 ^ 30
  current : s.currentChunk = s.chunks.length
  buffer : s.uncompressedChunk.length = uncompressedSize s.chunks

/-- The file has the data of the chunk, where `lseek` can tell that it is. -/
def Chunk.Sound (z : Zlib) (fd : File) (c : Chunk) : Prop :=
  match c.kind with
  | .zlib => c.offset + c.length ≤ min fd.size (2 ^ 31 - 1) ∧
    (z.inflate (512 * c.count) (fd.read c.offset c.length)).isSome
  | .copy => c.length = 512 * c.count ∧ c.offset + c.length ≤ fd.size
  | .zero => True

def Complete (z : Zlib) (s : State) (sector n : Nat) : Prop :=
  ∀ k < n, ∃ c ∈ s.chunks, c.holds (sector + k) = true ∧ c.Sound z s.fd

/-! ## Sizes -/

variable {z : Zlib} {s s0 : State} {c : Chunk} {i n sector : Nat} {out data buf : List Byte}

/-- A maximum that is kept in 32 bits is right if no value has more. -/
theorem largest_spec {f : Chunk → Nat} {chunks : List Chunk} {bound : Nat} (hbound : 1 < bound)
    (h32 : bound ≤ 2 ^ 32) (h : ∀ c ∈ chunks, f c < bound) :
    largest f chunks < bound ∧ ∀ c ∈ chunks, f c ≤ largest f chunks := by
  let take (most : Nat) (c : Chunk) : Nat := if most < f c then f c % 2 ^ 32 else most
  have hfold (l : List Chunk) (most : Nat) (hmost : most < bound) (hl : ∀ c ∈ l, f c < bound) :
      l.foldl take most < bound ∧ most ≤ l.foldl take most ∧ ∀ c ∈ l, f c ≤ l.foldl take most := by
    induction l generalizing most with
    | nil => exact ⟨hmost, le_refl _, nofun⟩
    | cons c l ih =>
      obtain ⟨hc, hl⟩ := forall_mem_cons.mp hl
      have hstep : take most c < bound ∧ most ≤ take most c ∧ f c ≤ take most c := by
        simp only [take]
        split <;> omega
      obtain ⟨hlt, hle, hall⟩ := ih (take most c) hstep.1 hl
      refine ⟨hlt, le_trans hstep.2.1 hle, ?_⟩
      exact forall_mem_cons.mpr ⟨le_trans hstep.2.2 hle, hall⟩
  obtain ⟨hlt, -, hall⟩ := hfold chunks 1 hbound h
  exact ⟨hlt, hall⟩

theorem Opened.room (h : Opened s) (hc : c ∈ s.chunks) :
    512 * c.count ≤ uncompressedSize s.chunks ∧ c.length ≤ compressedSize s.chunks := by
  obtain ⟨hlt, hall⟩ := largest_spec (f := (·.count)) (by decide) (by decide) fun c hc => (h.small c hc).1
  obtain ⟨hlt', hall'⟩ := largest_spec (f := (·.length)) (by decide) (by decide) fun c hc => (h.small c hc).2
  have hcount := hall c hc
  have hlength := hall' c hc
  unfold uncompressedSize compressedSize
  omega

theorem Opened.space (h : Opened s) (hc : c ∈ s.chunks) : c.space = 512 * c.count := by
  have := (h.small c hc).1
  unfold Chunk.space
  omega

/-- The sector in a buffer that has the chunk. -/
def slice (buf : List Byte) (c : Chunk) (sector : Nat) : List Byte := (buf.drop ((sector - c.sector) * 512)).take 512

theorem sectorOf_eq (hcount : c.count < 2 ^ 23) (hlen : 512 * c.count ≤ buf.length) (hsector : c.holds sector = true) :
    sectorOf buf c sector = .ok (slice buf c sector) := by
  obtain ⟨⟨hlow, hhigh⟩, -⟩ := holds_iff.mp hsector
  have hmod : (sector - c.sector) * 512 % 2 ^ 32 = (sector - c.sector) * 512 := Nat.mod_eq_of_lt (by omega)
  unfold sectorOf
  rw [hmod]
  exact if_neg (by omega)

theorem fillLoop_defined {fd : File} {split : Nat → Option Nat} {room length fuel k pos : Nat} (hroom : length ≤ room)
    (hlen : length < 2 ^ 30) (hi : i ≤ length) :
    fillLoop fd split room length fuel k pos i ≠ .error .undefined := by
  induction fuel generalizing k pos i with
  | zero => simp [fillLoop]
  | succ fuel ih =>
    have hret : (fd.read pos (piece (split k) ((length - i) % 2 ^ 32))).length ≤ length - i := by
      have hpiece : piece (split k) ((length - i) % 2 ^ 32) ≤ length - i := by
        unfold piece
        split <;> omega
      simp only [File.read, length_map, length_range]
      omega
    rw [fillLoop, if_neg (by omega)]
    split
    · exact ih (by omega)
    · simp

/-! ## What a read returns -/

def fetch (z : Zlib) (s : State) (i : Nat) : Except Stop (Option (List Byte)) :=
  (fetchChunk z (fun _ => none) s i).map fst

def answerSector (z : Zlib) (s : State) (sector : Nat) : Except Stop (Option (List Byte)) :=
  match searchChunk s sector with
  | none => .error .loops
  | some i =>
    if s.chunks.length ≤ i then .ok none else (fetch z s i).map (Option.map (slice · (s.chunk i) sector))

/-- What `dmg_read` returns, from the table and the file only. -/
def answer (z : Zlib) (s : State) : Nat → Nat → Except Stop (Option (List Byte))
  | 0, _ => .ok (some [])
  | n + 1, sector =>
    match answerSector z s (sectorNum sector) with
    | .error e => .error e
    | .ok none => .ok none
    | .ok (some data) => (answer z s n (sector + 1)).map (Option.map (data ++ ·))

theorem length_fetch (hkind : (s.chunk i).kind ≠ .copy) (hf : fetch z s i = .ok (some out)) :
    out.length = (s.chunk i).space ∧ out.length ≤ s.uncompressedChunk.length := by
  obtain ⟨r, hr, hout⟩ := Result.map_eq_ok.mp hf
  unfold fetchChunk at hr
  cases hk : (s.chunk i).kind with
  | copy => exact absurd hk hkind
  | zero =>
    simp only [hk] at hr
    split at hr
    · cases hr
    · cases hr
      cases hout
      rw [length_replicate]
      exact ⟨rfl, by omega⟩
  | zlib =>
    simp only [hk] at hr
    split at hr
    · cases hr
      cases hout
    split at hr
    · cases hr
      cases hout
    split at hr
    · cases hr
    split at hr
    · cases hr
      cases hout
    split at hr
    · cases hr
    split at hr
    · cases hr
      cases hout
    · cases hr
      rw [z.length _ _ _ hout]
      exact ⟨rfl, by omega⟩

theorem fetch_defined (h : Opened s) (hi : i < s.chunks.length) (hkind : (s.chunk i).kind ≠ .copy) :
    fetch z s i ≠ .error .undefined := by
  obtain ⟨hroom, hroom'⟩ := h.room (chunk_mem hi)
  have hspace := h.space (chunk_mem hi)
  have hbuf := h.buffer
  have hlen := (h.small _ (chunk_mem hi)).2
  unfold fetch fetchChunk
  cases hk : (s.chunk i).kind with
  | copy => exact absurd hk hkind
  | zero =>
    simp only [hk, if_neg (show ¬ s.uncompressedChunk.length < (s.chunk i).space by omega)]
    nofun
  | zlib =>
    simp only [hk]
    split
    · nofun
    split
    · nofun
    split
    · rename_i e he
      rintro ⟨⟩
      exact fillLoop_defined hroom' hlen (Nat.zero_le _) he
    · split
      · nofun
      rw [if_neg (by omega)]
      split <;> nofun

theorem fetch_sound (h : Opened s) (hi : i < s.chunks.length) (hkind : (s.chunk i).kind ≠ .copy)
    (hs : (s.chunk i).Sound z s.fd) : fetch z s i = .ok (some ((s.chunk i).bytes z s.fd)) := by
  obtain ⟨hroom, hroom'⟩ := h.room (chunk_mem hi)
  have hspace := h.space (chunk_mem hi)
  have hbuf := h.buffer
  obtain ⟨hcount, hlen⟩ := h.small _ (chunk_mem hi)
  unfold Chunk.Sound at hs
  unfold fetch fetchChunk Chunk.bytes
  cases hk : (s.chunk i).kind with
  | copy => exact absurd hk hkind
  | zero =>
    simp only [hk, hspace, if_neg (show ¬ s.uncompressedChunk.length < 512 * (s.chunk i).count by omega)]
    rfl
  | zlib =>
    rw [hk] at hs
    obtain ⟨hfit, hsome⟩ := hs
    obtain ⟨out, hout⟩ := Option.isSome_iff_exists.mp hsome
    -- the first read has it all
    have hread : (s.fd.read (s.chunk i).offset
        (piece none (((s.chunk i).length - 0) % 2 ^ 32))).length = (s.chunk i).length := by
      rw [piece, Nat.sub_zero, Nat.mod_eq_of_lt (by omega), File.length_read_of_le (by omega)]
    have hfill : fillLoop s.fd (fun _ => none) (compressedSize s.chunks) (s.chunk i).length
        ((s.chunk i).length + 1) 0 (s.chunk i).offset 0 =
          .ok ((s.chunk i).length, (s.chunk i).offset + (s.chunk i).length) := by
      rw [fillLoop, if_neg (by omega), if_neg (by omega), hread]
    simp only [hk]
    rw [if_neg (by omega), if_neg (by omega), hfill]
    dsimp only
    rw [if_neg (not_not_intro rfl), if_neg (by omega), if_neg (by omega), hspace, hout]
    rfl

theorem searchLoop_finds {fuel a b : Nat} (hloop : searchLoop s sector fuel a b = some i) :
    i = s.chunks.length ∨ (s.chunk i).holds sector = true := by
  induction fuel generalizing a b with
  | zero => cases hloop
  | succ fuel ih =>
    rw [searchLoop] at hloop
    split at hloop
    · exact .inl (Option.some.inj hloop).symm
    dsimp only at hloop
    split at hloop
    · exact ih hloop
    · split at hloop
      · cases hloop
        exact .inr (holds_def.mpr (by omega))
      · exact ih hloop

theorem answerSector_eq (h : Opened s) (hi : i < s.chunks.length)
    (hsector : (s.chunk i).holds sector = true) :
    answerSector z s sector = (fetch z s i).map (Option.map (slice · (s.chunk i) sector)) := by
  unfold answerSector
  rw [searchChunk_spec h.ordered hi hsector]
  exact if_neg (not_le.mpr hi)

theorem answer_sound (h : Opened s) (hplain : Plain s sector n) (hend : sector + n ≤ 2 ^ 31)
    (hsound : Complete z s sector n) :
    answer z s n sector = .ok (some (span (diskByte z s) (sector * 512) (n * 512))) := by
  induction n generalizing sector with
  | zero =>
    rw [zero_mul]
    rfl
  | succ n ih =>
    obtain ⟨c, hc, hholds, hs⟩ := hsound 0 (Nat.succ_pos n)
    obtain ⟨i, hi, rfl⟩ := getElem_of_mem hc
    have hnum : sectorNum sector = sector := by
      unfold sectorNum
      rw [if_pos (by omega), Nat.mod_eq_of_lt (by omega)]
    rw [← chunk_eq hi] at hholds hs
    rw [add_zero] at hholds
    have hkind := hplain.kind hi (hnum.symm ▸ hholds)
    have hfetch := fetch_sound h hi hkind hs
    have hlen := (length_fetch hkind hfetch).1.trans (h.space (chunk_mem hi))
    have hrest := ih hplain.next (by omega) fun k hk => by
      rw [add_right_comm]
      exact hsound (k + 1) (Nat.succ_lt_succ hk)
    rw [answer, hnum, answerSector_eq h hi hholds, hfetch]
    dsimp only [Except.map, Option.map]
    rw [hrest, slice, chunk_span h.ordered hi hholds hlen]
    dsimp only [Except.map, Option.map]
    rw [show (sector + 1) * 512 = sector * 512 + 512 by omega, Backend.span_append,
      show 512 + n * 512 = (n + 1) * 512 by omega]

theorem answerSector_defined (h : Opened s) (hplain : Plain s sector (n + 1)) :
    answerSector z s (sectorNum sector) ≠ .error .undefined := by
  unfold answerSector
  split
  · nofun
  rename_i i hsearch
  split
  · nofun
  rename_i hi
  have hsector := (searchLoop_finds hsearch).resolve_left (by omega)
  have hdefined := fetch_defined (z := z) h (not_le.mp hi) (hplain.kind (not_le.mp hi) hsector)
  cases hf : fetch z s i with
  | error e =>
    rintro ⟨⟩
    exact hdefined hf
  | ok out => nofun

theorem answer_defined (h : Opened s) (hplain : Plain s sector n) : answer z s n sector ≠ .error .undefined := by
  induction n generalizing sector with
  | zero => nofun
  | succ n ih =>
    have hfirst := answerSector_defined (z := z) h hplain
    have hrest := ih hplain.next
    rw [answer]
    split
    · rename_i e he
      rintro ⟨⟩
      exact hfirst he
    · nofun
    · cases ha : answer z s n (sector + 1) with
      | error e =>
        rintro ⟨⟩
        exact hrest ha
      | ok out => nofun

/-! ## The state between calls -/

structure After (z : Zlib) (s0 s : State) : Prop where
  fd : s.fd = s0.fd
  chunks : s.chunks = s0.chunks
  size : s.uncompressedChunk.length = s0.uncompressedChunk.length
  buffer : s.currentChunk < s0.chunks.length → (s0.chunk s.currentChunk).kind ≠ .copy →
    ∃ out, fetch z s0 s.currentChunk = .ok (some out) ∧ out <+: s.uncompressedChunk

theorem After.chunk (h : After z s0 s) (i : Nat) : s.chunk i = s0.chunk i := by
  unfold State.chunk
  rw [h.chunks]

theorem After.fetch (h : After z s0 s) (hkind : (s0.chunk i).kind ≠ .copy) :
    Dmg.fetch z s i = Dmg.fetch z s0 i := by
  unfold Dmg.fetch fetchChunk
  simp only [h.chunk, h.chunks, h.fd, h.size]
  cases hk : (s0.chunk i).kind with
  | copy => exact absurd hk hkind
  | zlib =>
    dsimp only
    -- the file position is not part of the data
    split
    · rfl
    split <;> rfl
  | zero =>
    dsimp only
    split <;> rfl

theorem After.search (h : After z s0 s) : searchChunk s sector = searchChunk s0 sector := by
  have hloop : ∀ fuel a b, searchLoop s sector fuel a b = searchLoop s0 sector fuel a b := by
    intro fuel
    induction fuel with
    | zero => exact fun _ _ => rfl
    | succ fuel ih =>
      intro a b
      simp [searchLoop, h.chunk, h.chunks, ih]
  unfold searchChunk
  rw [h.chunks, hloop]

theorem slice_prefix (hout : out <+: buf) (hlen : out.length = 512 * c.count) (hsector : c.holds sector = true) :
    slice buf c sector = slice out c sector := by
  obtain ⟨rest, rfl⟩ := hout
  obtain ⟨⟨hlow, hhigh⟩, -⟩ := holds_iff.mp hsector
  unfold slice
  rw [drop_append_of_le_length (by omega),
    take_append_of_le_length (by rw [length_drop]; omega)]

/-- What a state that has the sector in its buffer gives out. -/
theorem After.slice_eq (h0 : Opened s0) (h : After z s0 s) (hi : i < s0.chunks.length)
    (hsector : (s0.chunk i).holds sector = true) (hkind : (s0.chunk i).kind ≠ .copy) (hcur : s.currentChunk = i)
    (hfetch : Dmg.fetch z s0 i = .ok (some out)) :
    sectorOf s.uncompressedChunk (s.chunk s.currentChunk) sector = .ok (slice out (s0.chunk i) sector) := by
  obtain ⟨out', hout', hbuf⟩ := h.buffer (hcur ▸ hi) (hcur ▸ hkind)
  rw [hcur, hfetch] at hout'
  cases hout'
  have hlen := (length_fetch hkind hfetch).1.trans (h0.space (chunk_mem hi))
  rw [hcur, h.chunk, sectorOf_eq (h0.small _ (chunk_mem hi)).1 ?_ hsector, slice_prefix hbuf hlen hsector]
  rw [← hlen]
  exact hbuf.length_le

/-- One sector, from any state between calls: the answer, and the next state between calls. -/
theorem dmgReadChunk_answer (h0 : Opened s0) (hplain : Plain s0 sector (n + 1)) (h : After z s0 s) :
    match dmgReadChunk z (fun _ => none) s (sectorNum sector) with
    | .error e => answerSector z s0 (sectorNum sector) = .error e
    | .ok (false, s') => answerSector z s0 (sectorNum sector) = .ok none ∧ After z s0 s'
    | .ok (true, s') => After z s0 s' ∧ ∃ data, answerSector z s0 (sectorNum sector) = .ok (some data) ∧
        sectorOf s'.uncompressedChunk (s'.chunk s'.currentChunk) (sectorNum sector) = .ok data := by
  unfold dmgReadChunk
  by_cases hin : isSectorInChunk s s.currentChunk (sectorNum sector) = true
  · -- the sector is in the buffer, and the search would find its chunk
    rw [if_pos hin]
    unfold isSectorInChunk at hin
    rw [h.chunk, h.chunks, Bool.and_eq_true, decide_eq_true_eq] at hin
    obtain ⟨hcur, hsector⟩ := hin
    have hkind := hplain.kind hcur hsector
    obtain ⟨out, hout, -⟩ := h.buffer hcur hkind
    refine ⟨h, slice out (s0.chunk s.currentChunk) (sectorNum sector), ?_, h.slice_eq h0 hcur hsector hkind rfl hout⟩
    rw [answerSector_eq h0 hcur hsector, hout]
    rfl
  rw [if_neg hin, h.search]
  unfold answerSector
  cases hsearch : searchChunk s0 (sectorNum sector) with
  | none => rfl
  | some i =>
    dsimp only
    by_cases hi : s0.chunks.length ≤ i
    · rw [if_pos hi, if_pos (h.chunks ▸ hi)]
      exact ⟨rfl, h⟩
    rw [if_neg hi, if_neg (h.chunks ▸ hi)]
    have hi := not_le.mp hi
    have hsector := (searchLoop_finds hsearch).resolve_left (ne_of_lt hi)
    have hkind := hplain.kind hi hsector
    have hfetch := h.fetch hkind
    rw [← hfetch]
    unfold fetch at hfetch ⊢
    cases hf : fetchChunk z (fun _ => none) s i with
    | error e => rfl
    | ok r =>
      obtain ⟨_ | out, pos⟩ := r
      · exact ⟨rfl, h.fd, h.chunks, h.size, fun hlt => absurd (h.chunks ▸ hlt) (lt_irrefl _)⟩
      rw [hf] at hfetch
      have hfetch0 : Dmg.fetch z s0 i = .ok (some out) := hfetch.symm
      have hle := (length_fetch hkind hfetch0).2
      have hsize : (out ++ s.uncompressedChunk.drop out.length).length = s0.uncompressedChunk.length := by
        rw [length_append, length_drop, h.size]
        omega
      have hafter : After z s0 (State.loaded { s with pos := pos } i out) :=
        ⟨h.fd, h.chunks, hsize, fun _ _ => ⟨out, hfetch0, prefix_append out _⟩⟩
      exact ⟨hafter, _, rfl, hafter.slice_eq h0 hi hsector hkind rfl hfetch0⟩

theorem readLoop_answer (h0 : Opened s0) (hplain : Plain s0 sector n) (h : After z s0 s) :
    (readLoop z whole n s sector).map fst = answer z s0 n sector ∧
      ∀ r, readLoop z whole n s sector = .ok r → After z s0 r.2 := by
  induction n generalizing s sector with
  | zero => exact ⟨rfl, by rintro r ⟨⟩; exact h⟩
  | succ n ih =>
    have hchunk := dmgReadChunk_answer h0 hplain h
    rw [readLoop, answer, show whole sector = fun _ => none from rfl]
    cases hc : dmgReadChunk z (fun _ => none) s (sectorNum sector) with
    | error e =>
      rw [hc] at hchunk
      rw [show answerSector z s0 (sectorNum sector) = .error e from hchunk]
      exact ⟨rfl, nofun⟩
    | ok r =>
      rw [hc] at hchunk
      obtain ⟨_ | _, s1⟩ := r
      · obtain ⟨hanswer, h1⟩ := hchunk
        rw [hanswer]
        exact ⟨rfl, by rintro r ⟨⟩; exact h1⟩
      · obtain ⟨h1, data, hanswer, hdata⟩ := hchunk
        obtain ⟨hrest, hafter⟩ := ih hplain.next h1
        rw [hanswer]
        dsimp only
        rw [hdata, ← hrest]
        dsimp only
        cases hl : readLoop z whole n s1 (sector + 1) with
        | error e => exact ⟨rfl, nofun⟩
        | ok r => exact ⟨rfl, by rintro r' ⟨⟩; exact hafter r hl⟩

theorem Opened.after (h0 : Opened s0) : After z s0 s0 :=
  ⟨rfl, rfl, rfl, fun hlt => absurd h0.current (ne_of_lt hlt)⟩

theorem After.seek (h : After z s0 s) (sector : Nat) : After z s0 { s with seekSector := sector } :=
  ⟨h.fd, h.chunks, h.size, h.buffer⟩

theorem after_run (h0 : Opened s0) (hrun : Relation.ReflTransGen (Step z) s0 s) : After z s0 s := by
  induction hrun with
  | refl => exact h0.after
  | tail _ hstep ih =>
    obtain ⟨call, hfit, hcall⟩ := hstep
    cases call with
    | seek block offset =>
      cases hcall
      exact ih.seek _
    | read split nbBytes =>
      obtain ⟨rfl, hplain⟩ := hfit
      obtain ⟨r, hr, rfl⟩ := Result.map_eq_ok.mp hcall
      unfold Plain at hplain
      rw [ih.chunks] at hplain
      exact (readLoop_answer h0 hplain ih).2 r hr

/-- A read returns what it returns after `dmg_open`, whatever came before. -/
theorem reads_ignore_history (h0 : Opened s0) (hrun : Relation.ReflTransGen (Step z) s0 s) (nbBytes : Nat)
    (hplain : Plain s0 sector (nbBytes / 512)) :
    let outcome (s : State) := (dmgRead z whole { s with seekSector := sector } nbBytes).map fst
    outcome s = outcome s0 ∧ outcome s ≠ .error .undefined ∧
      (sector + nbBytes / 512 ≤ 2 ^ 31 → Complete z s0 sector (nbBytes / 512) →
        outcome s = .ok (some (span (diskByte z s0) (sector * 512) (nbBytes / 512 * 512)))) := by
  have hanswer (t : State) (ht : After z s0 t) :
      (dmgRead z whole { t with seekSector := sector } nbBytes).map fst = answer z s0 (nbBytes / 512) sector :=
    (readLoop_answer h0 hplain (ht.seek sector)).1
  dsimp only
  rw [hanswer s (after_run h0 hrun), hanswer s0 h0.after]
  exact ⟨rfl, answer_defined h0 hplain, answer_sound h0 hplain⟩

def sevens : Zlib := ⟨fun n _ => some (replicate n 7), by rintro n _ out ⟨⟩; exact length_replicate⟩

/-- The second chunk is to be copied; the file is left behind its data. -/
def mixed : State :=
  ⟨Qcow.ofList (replicate 512 1 ++ replicate 1024 2), 1024,
    [⟨.zlib, 0, 1, 0, 8, by decide⟩, ⟨.copy, 1, 1, 8, 512, by decide⟩], 2, replicate 512 0, 0⟩

theorem mixed_opened : Opened mixed := ⟨by decide, by decide, rfl, length_replicate⟩

theorem mixed_plain : Plain mixed 0 (512 / 512) := by
  intro c hc hcopy k hk
  obtain rfl : k = 0 := by omega
  revert c
  decide

theorem reads_ignore_history_mixed : ∃ s, (Call.read whole 512).run sevens mixed = .ok s ∧
      (dmgRead sevens whole { s with seekSector := 0 } 512).map fst =
        (dmgRead sevens whole { mixed with seekSector := 0 } 512).map fst := by
  have hok : ((Call.read whole 512).run sevens mixed).isOk = true := by decide +kernel
  cases hs : (Call.read whole 512).run sevens mixed with
  | error e =>
    rw [hs] at hok
    cases hok
  | ok s =>
    exact ⟨s, rfl, (reads_ignore_history mixed_opened (.single ⟨.read whole 512, ⟨rfl, mixed_plain⟩, hs⟩) 512
      mixed_plain).1⟩

/-- A copied chunk comes from where the file is, and data in two pieces is not read. -/
theorem copy_follows_history : (((Call.read whole 512).run sevens mixed).bind fun s =>
      (dmgRead sevens whole { s with seekSector := 1 } 512).map fst) ≠
        (dmgRead sevens whole { mixed with seekSector := 1 } 512).map fst ∧
      (dmgRead sevens (fun _ _ => some 3) mixed 512).map fst ≠
        (dmgRead sevens whole mixed 512).map fst := by
  decide +kernel

end MacOnLinux.Dmg
