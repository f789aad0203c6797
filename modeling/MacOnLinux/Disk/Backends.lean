import MacOnLinux.Lib.File

/-! # Reads through a back end (`drivers/disk/vec_wrap.c`, `drivers/disk/blk_raw.c`)

A vector is given by the lengths of its buffers, and a read gives its result and the bytes that it
wrote to each of them. `none` stands for a negative result.
-/

namespace MacOnLinux.Backend

open List File

variable {σ : Type} {disk : Nat → Byte} {vec : List Nat} {calls : List (List Nat)}

def span (disk : Nat → Byte) (off len : Nat) : List Byte := (List.range len).map fun d => disk (off + d)

def scatter : List Nat → List Byte → List (List Byte)
  | [], _ => []
  | len :: vec, bs => bs.take len :: scatter vec (bs.drop len)

/-! ## The wrapper -/

def ssizeMax : Nat := 2 ^ 31 - 1

def totalBytes : Nat → List Nat → Option Nat
  | total, [] => some total
  | total, len :: vec =>
    if (total + len) % 2 ^ 32 < ssizeMax then totalBytes ((total + len) % 2 ^ 32) vec else none

/-- `wrap_read`, for a `real_read` that gives its result, the buffer and the state. -/
def wrapRead (realRead : σ → List Byte → Option (Nat × List Byte × σ)) (s : σ) (heap : Nat → Byte)
    (vec : List Nat) : Option (Nat × List (List Byte) × σ) :=
  match totalBytes 0 vec with
  | none => none
  | some total =>
    match realRead s ((List.range total).map heap) with
    | none => none
    | some (n, buf, s) => if n ≠ total then none else some (total, scatter vec buf, s)

/-! ## Raw devices -/

structure Raw where
  file : File
  pos : Nat

def iovMax : Nat := 1024

def rawSeek (s : Raw) (block offs : Int) : Option Raw :=
  if offs < 0 ∨ 512 ≤ offs then none
  else if block * 512 + offs < 0 then none
  else some { s with pos := (block * 512 + offs).toNat }

def rawRead (s : Raw) (_heap : Nat → Byte) (vec : List Nat) : Option (Nat × List (List Byte) × Raw) :=
  if iovMax < vec.length ∨ ssizeMax < vec.sum then none
  else
    let got := s.file.read s.pos (min vec.sum maxRw)
    some (got.length, scatter vec got, { s with pos := s.pos + got.length })

/-! ## Calls in a row -/

def readCalls (read : σ → (Nat → Byte) → List Nat → Option (Nat × List (List Byte) × σ)) :
    (Nat → Nat → Byte) → σ → List (List Nat) → Option (List (Nat × List (List Byte)) × σ)
  | _, s, [] => some ([], s)
  | heap, s, vec :: calls =>
    match read s (heap 0) vec with
    | none => none
    | some (n, out, s) => (readCalls read (fun k => heap (k + 1)) s calls).map fun r => ((n, out) :: r.1, r.2)

def Fits (vec : List Nat) : Prop := vec.sum % 512 = 0 ∧ vec.sum ≤ maxRw ∧ vec.length ≤ iovMax

instance : Decidable (Fits vec) := inferInstanceAs (Decidable (_ ∧ _))

theorem Fits.lengths (h : Fits vec) (heap : Nat → Byte) :
    ((range vec.sum).map heap).length = vec.sum ∧ vec.sum / 512 * 512 = vec.sum := by
  have := h.1
  rw [length_map, length_range]
  exact ⟨rfl, by omega⟩

def total (calls : List (List Nat)) : Nat := calls.flatten.sum

/-- From the block `b` on, the calls return the bytes of the disk. -/
def Serves (read : σ → (Nat → Byte) → List Nat → Option (Nat × List (List Byte) × σ)) (disk : Nat → Byte)
    (s : σ) (b : Nat) (calls : List (List Nat)) : Prop :=
  ∀ heap, ∃ outs s', readCalls read heap s calls = some (outs, s') ∧
    outs.map Prod.fst = calls.map List.sum ∧
    (outs.map Prod.snd).flatten.flatten = span disk (b * 512) (total calls)

/-! ## Bytes -/

theorem span_length (disk : Nat → Byte) (off len : Nat) : (span disk off len).length = len := by
  simp [span]

theorem span_append (disk : Nat → Byte) (off m n : Nat) :
    span disk off m ++ span disk (off + m) n = span disk off (m + n) := by
  unfold span
  rw [range_add, map_append, map_map, append_cancel_left_eq]
  refine map_congr_left fun d _ => ?_
  rw [Function.comp_apply, add_assoc]

theorem span_getElem? {off len d : Nat} (hd : d < len) : (span disk off len)[d]? = some (disk (off + d)) := by
  unfold span
  rw [getElem?_map, getElem?_range hd]
  rfl

theorem scatter_flatten {bs : List Byte} (h : bs.length = vec.sum) : (scatter vec bs).flatten = bs := by
  induction vec generalizing bs with
  | nil =>
    rw [eq_nil_of_length_eq_zero h]
    rfl
  | cons len vec ih =>
    rw [sum_cons] at h
    rw [scatter, flatten_cons, ih, take_append_drop]
    rw [length_drop]
    omega

theorem totalBytes_eq {n : Nat} (h : n + vec.sum < ssizeMax) : totalBytes n vec = some (n + vec.sum) := by
  induction vec generalizing n with
  | nil => rfl
  | cons len vec ih =>
    rw [sum_cons] at h ⊢
    have hmod : (n + len) % 2 ^ 32 = n + len := Nat.mod_eq_of_lt (by unfold ssizeMax at h; omega)
    rw [totalBytes, hmod, if_pos (by omega), ih (by omega), add_assoc]

theorem Fits.totalBytes_eq (h : Fits vec) : totalBytes 0 vec = some vec.sum := by
  have hlt : 0 + vec.sum < ssizeMax := by
    have hle := h.2.1
    unfold maxRw at hle
    unfold ssizeMax
    omega
  rw [Backend.totalBytes_eq hlt, zero_add]

theorem total_cons (vec : List Nat) (calls : List (List Nat)) :
    total (vec :: calls) = vec.sum + total calls := by
  unfold total
  rw [flatten_cons, sum_append]

theorem total_append (calls calls' : List (List Nat)) :
    total (calls ++ calls') = total calls + total calls' := by
  unfold total
  rw [flatten_append, sum_append]

theorem total_whole (h : ∀ vec ∈ calls, Fits vec) : total calls % 512 = 0 := by
  induction calls with
  | nil => rfl
  | cons vec calls ih =>
    have hvec := (h vec mem_cons_self).1
    have hcalls := ih (forall_mem_cons.mp h).2
    rw [total_cons]
    omega

/-! ## Cursors -/

def expected (move : Nat → List Nat → Nat) (disk : Nat → Byte) :
    Nat → List (List Nat) → List (Nat × List (List Byte))
  | _, [] => []
  | c, vec :: calls =>
    (vec.sum, scatter vec (span disk (c * 512) vec.sum)) :: expected move disk (move c vec) calls

/-- `R s c calls`: the cursor is at `c`, and the calls can be served from there. -/
theorem readCalls_eq {read : σ → (Nat → Byte) → List Nat → Option (Nat × List (List Byte) × σ)}
    {move : Nat → List Nat → Nat} (R : σ → Nat → List (List Nat) → Prop)
    (hstep : ∀ s c vec calls heap, R s c (vec :: calls) →
      ∃ s', read s heap vec = some (vec.sum, scatter vec (span disk (c * 512) vec.sum), s') ∧
        R s' (move c vec) calls)
    {s : σ} {c : Nat} (h : R s c calls) (heap : Nat → Nat → Byte) :
    ∃ s', readCalls read heap s calls = some (expected move disk c calls, s') := by
  induction calls generalizing s c heap with
  | nil => exact ⟨s, rfl⟩
  | cons vec calls ih =>
    obtain ⟨s1, hread, h1⟩ := hstep s c vec calls (heap 0) h
    obtain ⟨s', hcalls⟩ := ih h1 fun k => heap (k + 1)
    refine ⟨s', ?_⟩
    rw [readCalls, hread]
    dsimp only
    rw [hcalls]
    rfl

theorem expected_fst (move : Nat → List Nat → Nat) (disk : Nat → Byte) (c : Nat)
    (calls : List (List Nat)) : (expected move disk c calls).map Prod.fst = calls.map sum := by
  induction calls generalizing c with
  | nil => rfl
  | cons vec calls ih => rw [expected, map_cons, ih, map_cons]

def advance (c : Nat) (vec : List Nat) : Nat := c + vec.sum / 512

theorem Fits.advance_mul (h : Fits vec) (c : Nat) : advance c vec * 512 = c * 512 + vec.sum := by
  have := h.1
  unfold advance
  omega

theorem expected_advance (h : ∀ vec ∈ calls, Fits vec) (c : Nat) :
    ((expected advance disk c calls).map Prod.snd).flatten.flatten = span disk (c * 512) (total calls) := by
  induction calls generalizing c with
  | nil => rfl
  | cons vec calls ih =>
    rw [expected, map_cons, flatten_cons, flatten_append,
      scatter_flatten (span_length ..), ih (forall_mem_cons.mp h).2, (h vec mem_cons_self).advance_mul,
      span_append, total_cons]

theorem serves_of_advance {read : σ → (Nat → Byte) → List Nat → Option (Nat × List (List Byte) × σ)}
    (R : σ → Nat → List (List Nat) → Prop)
    (hstep : ∀ s c vec calls heap, R s c (vec :: calls) →
      ∃ s', read s heap vec = some (vec.sum, scatter vec (span disk (c * 512) vec.sum), s') ∧
        R s' (advance c vec) calls)
    {s : σ} {b : Nat} (h : R s b calls) (hfits : ∀ vec ∈ calls, Fits vec) : Serves read disk s b calls := by
  intro heap
  obtain ⟨s', hcalls⟩ := readCalls_eq R hstep h heap
  exact ⟨_, s', hcalls, expected_fst .., expected_advance hfits b⟩

/-! ## Raw devices follow their cursor -/

theorem raw_serves {f : File} {pos b : Nat} (hfits : ∀ vec ∈ calls, Fits vec)
    (hin : b * 512 + total calls ≤ f.size) :
    ∃ s, rawSeek ⟨f, pos⟩ b 0 = some s ∧ Serves rawRead f.data s b calls := by
  have hpos : ((b : Int) * 512 + 0).toNat = b * 512 := by omega
  refine ⟨⟨f, b * 512⟩, ?_, ?_⟩
  · rw [rawSeek, if_neg (by omega), if_neg (by omega), hpos]
  refine serves_of_advance (fun s c calls => s = ⟨f, c * 512⟩ ∧ (∀ vec ∈ calls, Fits vec) ∧
    c * 512 + total calls ≤ f.size) ?_ ⟨rfl, hfits, hin⟩ hfits
  rintro s c vec calls heap ⟨rfl, hfits, hin⟩
  have hnext := ((hfits vec mem_cons_self).advance_mul c).symm
  obtain ⟨-, hle, hlen⟩ := hfits vec mem_cons_self
  rw [total_cons] at hin
  have hread : f.read (c * 512) (min vec.sum maxRw) = span f.data (c * 512) vec.sum := by
    rw [min_eq_left hle]
    exact read_eq_map (Nat.le_trans (Nat.add_le_add_left (Nat.le_add_right _ _) _) hin)
  refine ⟨⟨f, c * 512 + vec.sum⟩, ?_, congrArg (Raw.mk f) hnext,
    (forall_mem_cons.mp hfits).2, ?_⟩
  · have hok : ¬(iovMax < vec.length ∨ ssizeMax < vec.sum) := by
      unfold ssizeMax
      unfold maxRw at hle
      omega
    rw [rawRead, if_neg hok]
    dsimp only
    rw [hread, span_length]
  · rw [← hnext, add_assoc]
    exact hin

end MacOnLinux.Backend
