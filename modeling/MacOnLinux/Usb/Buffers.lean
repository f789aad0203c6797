import Mathlib.Data.Nat.Bitwise
import Mathlib.Data.List.Range
import MacOnLinux.Usb.Code

/-! # Buffers in two pages -/

namespace MacOnLinux.Usb

open List BitVec LeMem

variable {env : Env} {td : Td} {m : Mem} {src : List Byte} {a b : Word} {i n : Nat}

def span (a : Word) (n : Nat) : List Word := (range n).map (a + BitVec.ofNat 32 ·)

/-- The addresses from `cbp` to the end of its page, then those of `be`'s page up to `be`. -/
def Td.buffer (td : Td) : List Word :=
  if td.cbp = 0 then []
  else if td.be &&& pageMask = td.cbp &&& pageMask then span td.cbp (td.be.toNat + 1 - td.cbp.toNat)
  else span td.cbp (pageRest td.cbp) ++ span (td.be &&& pageMask) ((td.be &&& 0xfff).toNat + 1)

/-- A transfer of `n` bytes is one of the first `n` addresses of the buffer. -/
structure TwoPage (env : Env) (td : Td) : Prop where
  nonneg : 0 ≤ getTdSize td
  size_le : getTdSize td ≤ 8192
  read : ∀ m (n : Nat), n ≤ getTdSize td → getTdData env m td n = (td.buffer.take n).map m
  write : ∀ m src, src.length ≤ getTdSize td →
    (td.buffer.take src.length).map (putTdData env m td src) = src
  frame : ∀ m src, src.length ≤ getTdSize td →
    ∀ a ∉ td.buffer.take src.length, putTdData env m td src a = m a
  next : ∀ u : Urb, u.size = getTdSize td → u.actcount < u.size →
    td.buffer[u.actcount]? = some (completeTd u td ccNoError).1.cbp

/-- In one page `be` is at most one byte below `cbp`, and the pages of the buffer are mapped. -/
structure Td.Covered (env : Env) (td : Td) : Prop where
  order : td.cbp = 0 ∨ td.be.toNat / 4096 ≠ td.cbp.toNat / 4096 ∨ td.cbp.toNat ≤ td.be.toNat + 1
  first : 0 < getTdSize td → env.transl td.cbp
  second : pageRest td.cbp < getTdSize td → env.transl (td.be &&& pageMask)

/-! ## Pages -/

theorem toNat_offset (a : Word) : (a &&& 0xfff).toNat = a.toNat % 4096 := and_low a 12 (by decide)

theorem pageRest_eq (a : Word) : pageRest a = 4096 - a.toNat % 4096 := by
  rw [pageRest, toNat_offset]

theorem offset_or_page (a b : Word) : a &&& 0xfff ||| b &&& pageMask = (a &&& 0xfff) + (b &&& pageMask) := by
  refine (add_eq_or_of_and_eq_zero _ _ ?_).symm
  ext i
  simp only [pageMask, getElem_and, getElem_not, BitVec.getElem_zero]
  cases (0xfff : Word)[i] <;> simp

theorem toNat_page (a : Word) : (a &&& pageMask).toNat = a.toNat / 4096 * 4096 := and_high a 12

theorem page_eq_iff : a &&& pageMask = b &&& pageMask ↔ a.toNat / 4096 = b.toNat / 4096 := by
  rw [← toNat_inj, toNat_page, toNat_page]
  omega

theorem size_cases (td : Td) : td.cbp = 0 ∧ getTdSize td = 0 ∨ td.cbp ≠ 0 ∧
    (td.be.toNat / 4096 = td.cbp.toNat / 4096 ∧ getTdSize td = td.be.toNat - td.cbp.toNat + 1 ∨
      td.be.toNat / 4096 ≠ td.cbp.toNat / 4096 ∧
        getTdSize td = (pageRest td.cbp + (td.be.toNat % 4096 + 1) : Nat)) := by
  rw [getTdSize]
  split_ifs with hcbp hpage
  · exact .inl ⟨hcbp, rfl⟩
  · exact .inr ⟨hcbp, .inl ⟨page_eq_iff.mp hpage, rfl⟩⟩
  · refine .inr ⟨hcbp, .inr ⟨mt page_eq_iff.mpr hpage, ?_⟩⟩
    rw [pageRest_eq, toNat_offset, toNat_offset]
    omega

theorem cbp_ne_zero (h : 0 < getTdSize td) : td.cbp ≠ 0#32 := by
  obtain ⟨-, hsize⟩ | ⟨hcbp, -⟩ := size_cases td
  · omega
  · exact hcbp

/-! ## The buffer as one sequence -/

/-- The address of byte `i`. -/
def Td.addr (td : Td) (i : Nat) : Word :=
  if i < pageRest td.cbp then td.cbp + BitVec.ofNat 32 i
  else (td.be &&& pageMask) + BitVec.ofNat 32 (i - pageRest td.cbp)

theorem buffer_eq (td : Td) : td.buffer = (range (getTdSize td).toNat).map td.addr := by
  have hrest := pageRest_eq td.cbp
  rw [Td.buffer]
  obtain ⟨hcbp, hsize⟩ | ⟨hcbp, ⟨hpage, hsize⟩ | ⟨hpage, hsize⟩⟩ := size_cases td
  · rw [if_pos hcbp, hsize]
    rfl
  · rw [if_neg hcbp, if_pos (page_eq_iff.mpr hpage), hsize, span,
      show ((td.be.toNat : Int) - td.cbp.toNat + 1).toNat = td.be.toNat + 1 - td.cbp.toNat by omega]
    refine map_congr_left fun i hi => (if_pos ?_).symm
    rw [mem_range] at hi
    omega
  · rw [if_neg hcbp, if_neg (mt page_eq_iff.mp hpage), hsize, Int.toNat_natCast, toNat_offset,
      range_add, map_append, map_map]
    congr 1
    · exact map_congr_left fun i hi => (if_pos (mem_range.mp hi)).symm
    · exact map_congr_left fun i _ => by simp [Td.addr]

theorem take_buffer (hn : n ≤ getTdSize td) : td.buffer.take n = (range n).map td.addr := by
  rw [buffer_eq, ← map_take, take_range, min_eq_left (by omega)]

theorem addr_low (hi : i < pageRest td.cbp) :
    td.addr i = td.cbp + BitVec.ofNat 32 i ∧ (td.addr i).toNat = td.cbp.toNat + i := by
  have haddr : td.addr i = td.cbp + BitVec.ofNat 32 i := if_pos hi
  refine ⟨haddr, ?_⟩
  rw [pageRest_eq] at hi
  rw [haddr, toNat_add, toNat_ofNat]
  omega

/-! ## The transfer -/

theorem completeTd_cbp {u : Urb} (hsize : u.size = getTdSize td) (hi : u.actcount < u.size) :
    (completeTd u td ccNoError).1.cbp = td.addr u.actcount := by
  have hrest := pageRest_eq td.cbp
  rw [completeTd, if_pos rfl, if_neg (ne_of_lt hi)]
  show ite _ _ _ = _
  by_cases hlow : u.actcount < pageRest td.cbp
  · obtain ⟨haddr, hnat⟩ := addr_low hlow
    rw [← haddr, if_neg]
    rw [Classical.not_not, page_eq_iff, hnat]
    omega
  · rw [Td.addr, if_neg hlow, if_pos, offset_or_page, BitVec.add_comm, ← toNat_inj]
    all_goals have hcases := size_cases td
    · rw [toNat_add, toNat_add, toNat_offset, toNat_add, toNat_ofNat, toNat_ofNat]
      omega
    · rw [Ne, page_eq_iff, toNat_add, toNat_ofNat]
      omega

theorem getTdData_eq (h : td.Covered env) (m : Mem) (hn : n ≤ getTdSize td) :
    getTdData env m td n = (td.buffer.take n).map m := by
  rw [take_buffer hn, getTdData, map_map]
  refine map_congr_left fun i hi => ?_
  rw [mem_range] at hi
  have hsize : 0 < getTdSize td := by omega
  rw [if_neg (by simp [cbp_ne_zero hsize, h.first hsize]), Function.comp, Td.addr, apply_ite m]
  refine ite_congr rfl (fun _ => rfl) fun hrest => if_pos (h.second ?_)
  omega

theorem putTdData_eq (h : td.Covered env) (m : Mem) (hlen : src.length ≤ getTdSize td) :
    putTdData env m td src =
      store (store m td.cbp (src.take (pageRest td.cbp))) (td.be &&& pageMask) (src.drop (pageRest td.cbp)) := by
  have store_nil (m : Mem) (a : Word) : store m a [] = m := rfl
  by_cases hnil : src = []
  · simp [hnil, putTdData, store_nil]
  have hpos := length_pos_of_ne_nil hnil
  have hsize : 0 < getTdSize td := by omega
  rw [putTdData, if_neg (by simp [cbp_ne_zero hsize, h.first hsize])]
  dsimp only
  split_ifs with hmore
  · rfl
  · have hrest : src.length ≤ pageRest td.cbp := by
      by_contra hlt
      exact hmore (by simpa [h.second (by omega)] using hlt)
    rw [drop_eq_nil_of_le hrest, store_nil]

theorem store_of_le {x : Word} (h : src.length ≤ (x - a).toNat) : store m a src x = m x := getD_eq_default _ _ h

theorem store_add (hi : i < src.length) (hlt : i < 2 ^ 32) : store m a src (a + BitVec.ofNat 32 i) = src[i] := by
  rw [store, BitVec.add_comm, BitVec.add_sub_cancel, toNat_ofNat, Nat.mod_eq_of_lt hlt, getD_eq_getElem _ _ hi]

theorem putTdData_addr (h : td.Covered env) (hlen : src.length ≤ getTdSize td) (hi : i < src.length) :
    putTdData env m td src (td.addr i) = src[i] := by
  have hrest := pageRest_eq td.cbp
  have hcases := size_cases td
  rw [putTdData_eq h m hlen]
  by_cases hlow : i < pageRest td.cbp
  · obtain ⟨haddr, hnat⟩ := addr_low hlow
    -- `be`'s page is another one when the buffer has a part in it
    rw [store_of_le, haddr, store_add (by simp; omega) (by omega), getElem_take]
    rw [length_drop, toNat_sub, toNat_page, hnat]
    omega
  · rw [Td.addr, if_neg hlow, store_add (by rw [length_drop]; omega) (by omega), getElem_drop]
    congr 1
    omega

theorem putTdData_frame (h : td.Covered env) (hlen : src.length ≤ getTdSize td)
    (ha : ∀ i < src.length, td.addr i ≠ a) : putTdData env m td src a = m a := by
  rw [putTdData_eq h m hlen, store_of_le, store_of_le]
  · by_contra hlt
    rw [length_take] at hlt
    refine ha (a - td.cbp).toNat (by omega) ?_
    rw [(addr_low (by omega)).1, ofNat_toNat, setWidth_eq, BitVec.add_comm, BitVec.sub_add_cancel]
  · by_contra hlt
    rw [length_drop] at hlt
    refine ha (pageRest td.cbp + (a - (td.be &&& pageMask)).toNat) (by omega) ?_
    rw [Td.addr, if_neg (by omega), Nat.add_sub_cancel_left, ofNat_toNat, setWidth_eq, BitVec.add_comm,
      BitVec.sub_add_cancel]

theorem Td.Covered.twoPage (h : td.Covered env) : TwoPage env td := by
  have hrest := pageRest_eq td.cbp
  have hcases := size_cases td
  refine ⟨?_, by omega, fun m n hn => getTdData_eq h m hn, fun m src hlen => ?_, fun m src hlen a ha => ?_,
    fun u hsize hi => ?_⟩
  · obtain hcbp | horder := h.order
    · grind
    · omega
  · rw [take_buffer hlen, map_map]
    refine ext_getElem (by simp) fun i hi _ => ?_
    rw [length_map, length_range] at hi
    simpa using putTdData_addr h hlen hi
  · rw [take_buffer hlen] at ha
    exact putTdData_frame h hlen fun i hi heq => ha (mem_map.mpr ⟨i, mem_range.mpr hi, heq⟩)
  · rw [buffer_eq, getElem?_map, getElem?_range (by omega), completeTd_cbp hsize hi]
    rfl

/-- No byte of the buffer is read from the heap, whatever the guest's memory holds. -/
theorem TwoPage.not_heap (h : TwoPage env td) (hi : i < getTdSize td) :
    ∃ m, (getTdData env m td (i + 1))[i]? ≠ some (env.heap i) := by
  refine ⟨fun _ => env.heap i + 1, fun hread => ?_⟩
  rw [h.read _ _ (by omega), take_buffer (by omega)] at hread
  simp at hread

theorem twoPage_iff (env : Env) (td : Td) : TwoPage env td ↔ td.Covered env := by
  refine ⟨fun h => ⟨?_, fun hsize => ?_, fun hsize => ?_⟩, Td.Covered.twoPage⟩
  · have hnonneg := h.nonneg
    obtain ⟨hcbp, -⟩ | ⟨-, ⟨hpage, hsize⟩ | ⟨hpage, -⟩⟩ := size_cases td
    · exact .inl hcbp
    · exact .inr (.inr (by omega))
    · exact .inr (.inl hpage)
  · by_contra htransl
    obtain ⟨m, hm⟩ := h.not_heap hsize
    simp [getTdData, htransl] at hm
  · by_contra htransl
    obtain ⟨m, hm⟩ := h.not_heap hsize
    simp [getTdData, htransl] at hm

theorem be_below_cbp :
    ¬ TwoPage ⟨fun _ => true, fun _ => ⟨0, 0, 0, 0⟩, fun _ => 0, fun _ => none, []⟩ ⟨0, 0x1005, 0, 0x1000⟩ := by
  intro h
  exact absurd h.nonneg (by decide)

end MacOnLinux.Usb
