import Mathlib.Algebra.Order.Ring.Int
import Mathlib.Data.List.Nodup
import Mathlib.Data.List.Perm.Basic
import Mathlib.Logic.Equiv.Basic

/-! # Asynchronous I/O (`main/async.c`)

The handlers and the `pollfd` structures are in two arrays with one index; those with events come
first.
-/

namespace MacOnLinux.Async

open List Function

abbrev Events := BitVec 16

abbrev Id := BitVec 32

/-- `id` counts the registrations and is not in the program; `handler_id` is the `int` that it has. -/
structure Handler where
  id : Int
  handlerId : Id
  proc : Nat
  deriving DecidableEq, Repr

structure Pollfd where
  fd : Int
  events : Events
  revents : Events
  deriving DecidableEq, Repr

/-- `as`, and what was registered; `next_handler_id` is not cut to an `int` here. -/
structure State where
  handlers : Nat → Handler
  ufds : Nat → Pollfd
  nhandlers : Nat
  npoll : Nat
  nextHandlerId : Int
  modified : Bool
  registered : Int → Option (Int × Nat)

def maxNumHandlers : Nat := 16

def start : State := ⟨fun _ => ⟨0, 0, 0⟩, fun _ => ⟨0, 0, 0⟩, 0, 0, 1, false, fun _ => none⟩

/-! ## permute_inactive -/

def State.swap (s : State) (i j : Nat) : State :=
  { s with handlers := s.handlers ∘ Equiv.swap i j, ufds := s.ufds ∘ Equiv.swap i j }

def State.nextActive (s : State) (i : Nat) : Option Nat :=
  (range s.nhandlers).find? fun j => i < j && (s.ufds j).events ≠ 0

def State.fillActive (s : State) (i : Nat) : State :=
  if (s.ufds i).events ≠ 0 then s
  else match s.nextActive i with
    | some j => s.swap i j
    | none => s

def permuteInactive (s : State) : State :=
  let s := (range s.nhandlers).foldl State.fillActive s
  { s with
    npoll := ((range s.nhandlers).takeWhile fun i => (s.ufds i).events ≠ 0).length
    modified := true }

/-! ## Handlers come and go -/

/-- `add_async_handler`; `ok` says whether `fcntl` succeeds. -/
def addAsyncHandler (fd : Int) (events : Events) (proc : Option Nat) (ok : Bool) (s : State) :
    Id × State :=
  if s.nhandlers ≥ maxNumHandlers then (-1, s)
  else match proc with
    | none => (-1, s)
    | some proc =>
      if !ok then (-1, s)
      else
        let id := s.nextHandlerId
        (.ofInt 32 id, permuteInactive { s with
          ufds := update s.ufds s.nhandlers ⟨fd, events, 0⟩
          handlers := update s.handlers s.nhandlers ⟨id, .ofInt 32 id, proc⟩
          nextHandlerId := id + 1
          nhandlers := s.nhandlers + 1
          registered := update s.registered id (some (fd, proc)) })

def State.findBy (s : State) (p : Handler → Bool) : Option Nat :=
  (range s.nhandlers).find? fun i => p (s.handlers i)

def State.find (s : State) (id : Id) : Option Nat := s.findBy (·.handlerId = id)

def closeGap {α : Type} (i n : Nat) (a : Nat → α) (k : Nat) : α :=
  if i ≤ k ∧ k + 1 < n then a (k + 1) else a k

/-- With the registration that it deletes. -/
def deleteAsyncHandler (id : Id) (s : State) : Option Int × State :=
  match s.find id with
  | none => (none, s)
  | some i =>
    (some (s.handlers i).id, permuteInactive { s with
      handlers := closeGap i s.nhandlers s.handlers
      ufds := closeGap i s.nhandlers s.ufds
      nhandlers := s.nhandlers - 1 })

def setAsyncHandlerEvents (id : Id) (events : Events) (s : State) : State :=
  match s.find id with
  | none => permuteInactive s
  | some i =>
    permuteInactive { s with ufds := update s.ufds i { s.ufds i with events := events } }

inductive Op where
  | add (fd : Int) (events : Events) (proc : Option Nat) (ok : Bool)
  | delete (id : Id)
  | setEvents (id : Id) (events : Events)
  deriving DecidableEq, Repr

inductive Event where
  | called (h : Handler) (fd : Int) (ev : Events)
  | deleted (id : Int)
  deriving DecidableEq, Repr

def Op.run : Op → State → List Event × State
  | .add fd events proc ok, s => ([], (addAsyncHandler fd events proc ok s).2)
  | .delete id, s =>
    let r := deleteAsyncHandler id s
    (r.1.toList.map .deleted, r.2)
  | .setEvents id events, s => ([], setAsyncHandlerEvents id events s)

def runOps : List Op → State → List Event × State
  | [], s => ([], s)
  | op :: ops, s =>
    let r := op.run s
    let r' := runOps ops r.2
    (r.1 ++ r'.1, r'.2)

/-! ## __do_async_io -/

def State.ready (s : State) (i : Nat) : Events := (s.ufds i).revents &&& (s.ufds i).events

def State.nextReady (s : State) (i : Nat) : Option Nat :=
  (range s.npoll).find? fun j => i ≤ j && s.ready j ≠ 0

-- as.ufds[j].revents = 0; as.handlers_modified = 0
def State.take (s : State) (j : Nat) : State :=
  { s with ufds := update s.ufds j { s.ufds j with revents := 0 }, modified := false }

/-- From the index `i`, with `npending`; the handler called as number `c` does `acts c`. -/
def dispatch (acts : Nat → List Op) : Nat → Nat → Nat → State → List Event × State
  | 0, _, _, s => ([], s)
  | pending + 1, c, i, s =>
    match s.nextReady i with
    | none => ([], s)
    | some j =>
      let call := Event.called (s.handlers j) (s.ufds j).fd (s.ready j)
      let r := runOps (acts c) (s.take j)
      -- the handler might change our table; the index is 0 and is then counted up
      let r' := dispatch acts pending (c + 1) (if r.2.modified then 1 else j + 1)
        { r.2 with modified := false }
      (call :: (r.1 ++ r'.1), r'.2)

def State.poll (s : State) (res : Nat → Events) : State :=
  { s with ufds := fun i => if i < s.npoll then { s.ufds i with revents := res i } else s.ufds i }

def State.npending (s : State) (res : Nat → Events) : Nat :=
  ((range s.npoll).filter fun i => res i ≠ 0).length

structure Round where
  res : Nat → Events
  before : List Op
  acts : Nat → List Op

def Round.run (r : Round) (s : State) : List Event × State :=
  let r1 := runOps r.before (s.poll r.res)
  let r2 := dispatch r.acts (s.npending r.res) 0 0 r1.2
  (r1.1 ++ r2.1, r2.2)

inductive Step where
  | call (op : Op)
  | round (r : Round)

def Step.run : Step → State → State
  | .call op, s => (op.run s).2
  | .round r, s => (r.run s).2

def after : List Step → State
  | [] => start
  | step :: steps => step.run (after steps)

/-! ## The arrays -/

structure Entry where
  handler : Handler
  ufd : Pollfd
  deriving DecidableEq, Repr

def State.entry (s : State) (i : Nat) : Entry := ⟨s.handlers i, s.ufds i⟩

def State.entries (s : State) : List Entry := (range s.nhandlers).map s.entry

def Paired (s : State) : Prop :=
  ∀ i, i < s.nhandlers → s.registered (s.handlers i).id = some ((s.ufds i).fd, (s.handlers i).proc)

def Sorted (s : State) : Prop :=
  s.npoll ≤ s.nhandlers ∧ ∀ i, i < s.nhandlers → (i < s.npoll ↔ (s.ufds i).events ≠ 0)

variable {s s' : State} {i j n : Nat} {id : Id} {e : Entry}

theorem mem_entries : e ∈ s.entries ↔ ∃ i, i < s.nhandlers ∧ s.entry i = e := by
  simp [State.entries]

theorem entry_mem (hi : i < s.nhandlers) : s.entry i ∈ s.entries := mem_entries.mpr ⟨i, hi, rfl⟩

/-! ## permute_inactive -/

theorem map_swap_perm {α : Type} (f : Nat → α) (hi : i < n) (hj : j < n) :
    ((range n).map (f ∘ Equiv.swap i j)).Perm ((range n).map f) := by
  rw [← map_map]
  apply Perm.map
  refine (perm_ext_iff_of_nodup (nodup_range.map (Equiv.injective _)) nodup_range).mpr ?_
  intro k
  constructor
  · intro hk
    obtain ⟨a, ha, rfl⟩ := mem_map.mp hk
    rw [Equiv.swap_apply_def]
    simp only [mem_range] at ha ⊢
    split_ifs <;> assumption
  · intro hk
    refine mem_map.mpr ⟨Equiv.swap i j k, ?_, Equiv.swap_apply_self i j k⟩
    rw [Equiv.swap_apply_def]
    simp only [mem_range] at hk ⊢
    split_ifs <;> assumption

theorem nextActive_some (h : s.nextActive i = some j) :
    i < j ∧ j < s.nhandlers ∧ (s.ufds j).events ≠ 0 := by
  have hmem := mem_range.mp (mem_of_find?_eq_some h)
  have hp := find?_some h
  simp only [Bool.and_eq_true, decide_eq_true_eq] at hp
  exact ⟨hp.1, hmem, hp.2⟩

theorem nextActive_none (h : s.nextActive i = none) (hj : j < s.nhandlers) (hij : i < j) :
    (s.ufds j).events = 0 := by
  have hp := find?_eq_none.mp h j (mem_range.mpr hj)
  simpa [hij] using hp

structure Permuted (s s' : State) : Prop where
  perm : s'.entries.Perm s.entries
  count : s'.nhandlers = s.nhandlers
  nextId : s'.nextHandlerId = s.nextHandlerId
  registered : s'.registered = s.registered

theorem Permuted.refl : Permuted s s := ⟨.rfl, rfl, rfl, rfl⟩

theorem Permuted.trans {s'' : State} (h : Permuted s s') (h' : Permuted s' s'') : Permuted s s'' :=
  ⟨h'.perm.trans h.perm, h'.count.trans h.count, h'.nextId.trans h.nextId,
    h'.registered.trans h.registered⟩

theorem permuted_fillActive (hi : i < s.nhandlers) : Permuted s (s.fillActive i) := by
  unfold State.fillActive
  split
  · exact .refl
  · split
    · rename_i j hj
      exact ⟨map_swap_perm s.entry hi (nextActive_some hj).2.1, rfl, rfl, rfl⟩
    · exact .refl

/-- No entry before `m` without events has one with events behind it. -/
def FilledTo (s : State) (m : Nat) : Prop :=
  ∀ a b, a < m → a < b → b < s.nhandlers → (s.ufds a).events = 0 → (s.ufds b).events = 0

theorem filledTo_fillActive (h : FilledTo s i) : FilledTo (s.fillActive i) (i + 1) := by
  unfold State.fillActive
  split
  · rename_i hact
    intro a b ha hab hb hz
    rcases Nat.lt_succ_iff_lt_or_eq.mp ha with ha | rfl
    · exact h a b ha hab hb hz
    · exact absurd hz hact
  split
  · rename_i j hj
    obtain ⟨hij, hjn, hact⟩ := nextActive_some hj
    -- nothing before `i` is without events, since `j` has some
    have hbefore : ∀ a, a < i → (s.ufds a).events ≠ 0 := fun a ha hza =>
      hact (h a j ha (by omega) hjn hza)
    intro a b ha hab hb hza
    simp only [State.swap, comp_apply] at hza
    rcases Nat.lt_succ_iff_lt_or_eq.mp ha with ha | rfl
    · rw [Equiv.swap_apply_of_ne_of_ne (by omega) (by omega)] at hza
      exact absurd hza (hbefore a ha)
    · rw [Equiv.swap_apply_left] at hza
      exact absurd hza hact
  · rename_i hnone
    intro a b ha hab hb hza
    rcases Nat.lt_succ_iff_lt_or_eq.mp ha with ha | rfl
    · exact h a b ha hab hb hza
    · exact nextActive_none hnone hb hab

theorem fill_spec (s : State) (m : Nat) (hm : m ≤ s.nhandlers) :
    Permuted s ((range m).foldl State.fillActive s) ∧
      FilledTo ((range m).foldl State.fillActive s) m := by
  induction m with
  | zero => exact ⟨.refl, by simp [FilledTo]⟩
  | succ m ih =>
    obtain ⟨hp, hf⟩ := ih (by omega)
    rw [range_succ, foldl_append]
    refine ⟨hp.trans (permuted_fillActive (by rw [hp.count]; omega)), filledTo_fillActive hf⟩

theorem takeWhile_range_spec (p : Nat → Bool) (n : Nat)
    (hp : ∀ a b, a < b → b < n → p a = false → p b = false) :
    ((range n).takeWhile p).length ≤ n ∧
      ∀ i, i < n → (i < ((range n).takeWhile p).length ↔ p i = true) := by
  induction n with
  | zero => simp
  | succ n ih =>
    obtain ⟨hle, hiff⟩ := ih fun a b hab hb => hp a b hab (by omega)
    rw [range_succ, takeWhile_append]
    split
    · rename_i hall
      rw [length_range] at hall
      rw [length_append, length_range]
      have hsingle : ([n].takeWhile p).length = if p n then 1 else 0 := by
        cases hpn : p n <;> simp [takeWhile, hpn]
      rw [hsingle]
      refine ⟨by split <;> omega, fun i hi => ?_⟩
      rcases Nat.lt_succ_iff_lt_or_eq.mp hi with hi | rfl
      · have := (hiff i hi).mp (by omega)
        simp only [this, iff_true]
        omega
      · cases hpn : p i <;> simp
    · rename_i hnot
      rw [length_range] at hnot
      refine ⟨by omega, fun i hi => ?_⟩
      rcases Nat.lt_succ_iff_lt_or_eq.mp hi with hi | rfl
      · exact hiff i hi
      -- an entry before it stopped the walk
      have hlt : ((range i).takeWhile p).length < i := by omega
      have hstop : p ((range i).takeWhile p).length = false := by
        rw [← Bool.not_eq_true, ← hiff _ hlt]
        omega
      rw [hp _ i hlt (by omega) hstop]
      simp
      omega

theorem permuteInactive_spec (s : State) : Permuted s (permuteInactive s) ∧ Sorted (permuteInactive s) ∧
    (permuteInactive s).modified = true := by
  obtain ⟨hp, hf⟩ := fill_spec s s.nhandlers (le_refl _)
  unfold permuteInactive
  generalize hs1 : (range s.nhandlers).foldl State.fillActive s = s1 at hp hf
  have hcount := hp.count
  refine ⟨⟨hp.perm, hcount, hp.nextId, hp.registered⟩, ?_, rfl⟩
  obtain ⟨hle, hiff⟩ := takeWhile_range_spec (fun i => decide ((s1.ufds i).events ≠ 0)) s1.nhandlers
    fun a b hab hb hz => by
      have := hf a b (by omega) hab hb (by simpa using hz)
      simpa using this
  exact ⟨hle, fun i hi => by simpa using hiff i hi⟩

/-! ## What a call does -/

structure Listed (s : State) : Prop where
  distinct : (s.entries.map (·.handler.id)).Nodup
  below : ∀ e ∈ s.entries, e.handler.id < s.nextHandlerId
  paired : ∀ e ∈ s.entries, s.registered e.handler.id = some (e.ufd.fd, e.handler.proc)

structure Good (s : State) : Prop extends Listed s where
  sorted : Sorted s

def State.unseen (s : State) : Nat := s.entries.countP fun e => e.ufd.revents ≠ 0

/-- What calls do to the entries; a deleted handler does not come back. -/
structure Traced (s : State) (log : List Event) (s' : State) : Prop where
  origin : ∀ e' ∈ s'.entries,
    (∃ e ∈ s.entries, e.handler = e'.handler ∧ e.ufd.revents = e'.ufd.revents) ∨
      (s.nextHandlerId ≤ e'.handler.id ∧ e'.ufd.revents = 0)
  unseen : s'.unseen ≤ s.unseen
  nextId : s.nextHandlerId ≤ s'.nextHandlerId
  log : ∀ ev ∈ log, ∃ id, ev = .deleted id ∧ id < s'.nextHandlerId ∧ ∀ e' ∈ s'.entries, e'.handler.id ≠ id

structure Effect (s : State) (log : List Event) (s' : State) : Prop extends Traced s log s' where
  unmodified : s'.modified = false → s' = s

theorem Traced.refl : Traced s [] s where
  origin e' he' := .inl ⟨e', he', rfl, rfl⟩
  unseen := le_refl _
  nextId := Int.le_refl _
  log := by simp

theorem Effect.trans {log log' : List Event} {s'' : State} (h : Effect s log s') (h' : Effect s' log' s'')
    (hgrow : s''.modified = false → s'.modified = false) : Effect s (log ++ log') s'' where
  origin e'' he'' := by
    rcases h'.origin e'' he'' with ⟨e', he', hh, hr⟩ | ⟨hid, hr⟩
    · rcases h.origin e' he' with ⟨e, he, hh', hr'⟩ | ⟨hid, hr'⟩
      · exact .inl ⟨e, he, hh'.trans hh, hr'.trans hr⟩
      · exact .inr ⟨hh ▸ hid, hr ▸ hr'⟩
    · exact .inr ⟨h.nextId.trans hid, hr⟩
  unseen := h'.unseen.trans h.unseen
  nextId := h.nextId.trans h'.nextId
  log ev hev := by
    rcases mem_append.mp hev with hev | hev
    · obtain ⟨id, rfl, hlt, hne⟩ := h.log ev hev
      refine ⟨id, rfl, hlt.trans_le h'.nextId, fun e'' he'' => ?_⟩
      rcases h'.origin e'' he'' with ⟨e', he', hh, -⟩ | ⟨hid, -⟩
      · rw [← hh]
        exact hne e' he'
      · omega
    · exact h'.log ev hev
  unmodified hm := (h'.unmodified hm).trans (h.unmodified (hgrow hm))

/-- What a call does before it permutes the entries. -/
structure Change (s : State) (log : List Event) (s1 : State) : Prop extends Traced s log s1, Listed s1

theorem Change.effect {s1 : State} {log : List Event} (h : Change s log s1) : Effect s log (permuteInactive s1) := by
  obtain ⟨hp, -, -⟩ := permuteInactive_spec s1
  refine ⟨⟨fun e' he' => h.origin e' (hp.perm.mem_iff.mp he'), ?_, ?_, fun ev hev => ?_⟩, nofun⟩
  · unfold State.unseen
    rw [hp.perm.countP_eq]
    exact h.unseen
  · rw [hp.nextId]
    exact h.nextId
  · obtain ⟨id, rfl, hlt, hne⟩ := h.log ev hev
    exact ⟨id, rfl, by rw [hp.nextId]; exact hlt, fun e' he' => hne e' (hp.perm.mem_iff.mp he')⟩

theorem Change.good {s1 : State} {log : List Event} (h : Change s log s1) : Good (permuteInactive s1) := by
  obtain ⟨hp, hsorted, -⟩ := permuteInactive_spec s1
  refine ⟨⟨?_, fun e he => ?_, fun e he => ?_⟩, hsorted⟩
  · exact (hp.perm.map _).nodup_iff.mpr h.distinct
  · rw [hp.nextId]
    exact h.below e (hp.perm.mem_iff.mp he)
  · rw [hp.registered]
    exact h.paired e (hp.perm.mem_iff.mp he)

theorem Good.unchanged (h : Good s) : Change s [] s := ⟨.refl, h.toListed⟩

/-! ### add_async_handler -/

def State.append (s : State) (fd : Int) (events : Events) (proc : Nat) : State :=
  { s with
    ufds := update s.ufds s.nhandlers ⟨fd, events, 0⟩
    handlers := update s.handlers s.nhandlers ⟨s.nextHandlerId, .ofInt 32 s.nextHandlerId, proc⟩
    nextHandlerId := s.nextHandlerId + 1
    nhandlers := s.nhandlers + 1
    registered := update s.registered s.nextHandlerId (some (fd, proc)) }

theorem entries_append (s : State) (fd : Int) (events : Events) (p : Nat) :
    (s.append fd events p).entries = s.entries ++
    [⟨⟨s.nextHandlerId, .ofInt 32 s.nextHandlerId, p⟩, ⟨fd, events, 0⟩⟩] := by
  unfold State.entries State.append State.entry
  rw [range_succ, map_append]
  congr 1
  · apply map_congr_left
    intro i hi
    have hne : i ≠ s.nhandlers := ne_of_lt (mem_range.mp hi)
    simp [update_of_ne hne]
  · simp

theorem Good.append (h : Good s) (fd : Int) (events : Events) (p : Nat) : Change s [] (s.append fd events p) := by
  have hold : ∀ e ∈ s.entries, e.handler.id ≠ s.nextHandlerId := fun e he => Int.ne_of_lt (h.below e he)
  have hmem : ∀ e ∈ (s.append fd events p).entries,
      e ∈ s.entries ∨ e = ⟨⟨s.nextHandlerId, .ofInt 32 s.nextHandlerId, p⟩, ⟨fd, events, 0⟩⟩ := by
    intro e he
    rwa [entries_append, mem_append, mem_singleton] at he
  refine ⟨⟨fun e' he' => ?_, ?_, Int.le_of_lt (Int.lt_succ _), by simp⟩, ?_, fun e he => ?_, fun e he => ?_⟩
  · rcases hmem e' he' with he' | rfl
    · exact .inl ⟨e', he', rfl, rfl⟩
    · exact .inr ⟨Int.le_refl _, rfl⟩
  · unfold State.unseen
    rw [entries_append]
    simp
  · rw [entries_append, map_append, nodup_append]
    refine ⟨h.distinct, nodup_singleton _, ?_⟩
    intro a ha b hb
    obtain ⟨e, he, rfl⟩ := mem_map.mp ha
    rw [map_singleton, mem_singleton] at hb
    rw [hb]
    exact hold e he
  · rcases hmem e he with he | rfl
    · exact (h.below e he).trans (Int.lt_succ _)
    · exact Int.lt_succ _
  · unfold State.append
    rcases hmem e he with he | rfl
    · dsimp only
      rw [update_of_ne (hold e he)]
      exact h.paired e he
    · exact update_self ..

/-! ### delete_async_handler -/

theorem findBy_some {p : Handler → Bool} (h : s.findBy p = some i) :
    i < s.nhandlers ∧ p (s.handlers i) = true :=
  ⟨mem_range.mp (mem_of_find?_eq_some h), find?_some (p := fun i => p (s.handlers i)) h⟩

def State.dropAt (s : State) (i : Nat) : State :=
  { s with
    handlers := closeGap i s.nhandlers s.handlers
    ufds := closeGap i s.nhandlers s.ufds
    nhandlers := s.nhandlers - 1 }

theorem entries_dropAt (hi : i < s.nhandlers) : (s.dropAt i).entries = s.entries.eraseIdx i := by
  apply ext_getElem?
  intro k
  unfold State.entries State.dropAt State.entry closeGap
  rw [getElem?_eraseIdx]
  simp only [getElem?_map]
  by_cases hk : k < s.nhandlers - 1
  · rw [getElem?_range hk]
    split
    · rw [getElem?_range (by omega)]
      simp [show ¬ (i ≤ k) by omega]
    · simp [show i ≤ k by omega, show k + 1 < s.nhandlers by omega]
  · rw [getElem?_eq_none (by rw [length_range]; omega)]
    split
    · omega
    · rw [getElem?_eq_none (by rw [length_range]; omega)]
      rfl

theorem dropAt_sublist (hi : i < s.nhandlers) : (s.dropAt i).entries.Sublist s.entries := by
  rw [entries_dropAt hi]
  exact eraseIdx_sublist ..

theorem Good.dropAt_ne (h : Good s) (hi : i < s.nhandlers) :
    ∀ e ∈ (s.dropAt i).entries, e.handler.id ≠ (s.handlers i).id := by
  intro e he heq
  rw [entries_dropAt hi, mem_eraseIdx_iff_getElem?] at he
  obtain ⟨k, hk, hget⟩ := he
  have hki : (s.entries.map (·.handler.id))[k]? = (s.entries.map (·.handler.id))[i]? := by
    have hi' : s.entries[i]? = some (s.entry i) := by
      unfold State.entries
      rw [getElem?_map, getElem?_range hi]
      rfl
    rw [getElem?_map, getElem?_map, hget, hi']
    exact congrArg some heq
  have hlen : k < (s.entries.map (·.handler.id)).length := by
    rw [length_map]
    exact (List.getElem?_eq_some_iff.mp hget).1
  exact hk ((List.getElem?_inj hlen h.distinct).mp hki)

theorem Good.dropAt (h : Good s) (hi : i < s.nhandlers) : Change s [.deleted (s.handlers i).id] (s.dropAt i) := by
  have hsub := dropAt_sublist hi
  refine ⟨⟨fun e' he' => .inl ⟨e', hsub.subset he', rfl, rfl⟩, hsub.countP_le, Int.le_refl _, fun ev hev => ?_⟩,
    h.distinct.sublist (hsub.map _), fun e he => h.below e (hsub.subset he), fun e he => h.paired e (hsub.subset he)⟩
  obtain rfl := mem_singleton.mp hev
  exact ⟨_, rfl, h.below (s.entry i) (entry_mem hi), h.dropAt_ne hi⟩

/-! ### set_async_handler_events -/

def State.request (s : State) (i : Nat) (events : Events) : State :=
  { s with ufds := update s.ufds i { s.ufds i with events := events } }

theorem entry_request (s : State) (i : Nat) (events : Events) (k : Nat) :
    ((s.request i events).entry k).handler = (s.entry k).handler ∧
      ((s.request i events).entry k).ufd.fd = (s.entry k).ufd.fd ∧
      ((s.request i events).entry k).ufd.revents = (s.entry k).ufd.revents := by
  unfold State.request State.entry
  by_cases hk : k = i
  · subst hk
    simp
  · simp [hk]

theorem request_unseen (s : State) (i : Nat) (events : Events) : (s.request i events).unseen = s.unseen := by
  unfold State.unseen State.entries
  rw [countP_map, countP_map]
  apply countP_congr
  intro k _
  simp [(entry_request s i events k).2.2]

theorem Good.request (h : Good s) (i : Nat) (events : Events) : Change s [] (s.request i events) := by
  refine ⟨⟨fun e' he' => ?_, le_of_eq (request_unseen s i events), Int.le_refl _, by simp⟩, ?_, fun e he => ?_,
    fun e he => ?_⟩
  · obtain ⟨k, hk, rfl⟩ := mem_entries.mp he'
    obtain ⟨hh, -, hr⟩ := entry_request s i events k
    exact .inl ⟨s.entry k, entry_mem hk, hh.symm, hr.symm⟩
  · have hids : (s.request i events).entries.map (·.handler.id) = s.entries.map (·.handler.id) := by
      unfold State.entries
      rw [map_map, map_map]
      apply map_congr_left
      intro k _
      simp [(entry_request s i events k).1]
    rw [hids]
    exact h.distinct
  · obtain ⟨k, hk, rfl⟩ := mem_entries.mp he
    rw [(entry_request s i events k).1]
    exact h.below _ (entry_mem hk)
  · obtain ⟨k, hk, rfl⟩ := mem_entries.mp he
    rw [(entry_request s i events k).2.1]
    exact h.paired _ (entry_mem hk)

/-! ### Any call -/

theorem Good.run_cases (h : Good s) (op : Op) :
    op.run s = ([], s) ∨ ∃ log s1, op.run s = (log, permuteInactive s1) ∧ Change s log s1 := by
  cases op with
  | add fd events proc ok =>
    rw [Op.run, addAsyncHandler.eq_def]
    split
    · exact .inl rfl
    cases proc with
    | none => exact .inl rfl
    | some p =>
      cases ok with
      | false => exact .inl rfl
      | true => exact .inr ⟨_, _, rfl, h.append fd events p⟩
  | delete id =>
    rw [Op.run, deleteAsyncHandler]
    cases hfind : s.find id with
    | none => exact .inl rfl
    | some i =>
      exact .inr ⟨_, _, rfl, h.dropAt (findBy_some hfind).1⟩
  | setEvents id events =>
    rw [Op.run, setAsyncHandlerEvents]
    cases s.find id with
    | none => exact .inr ⟨_, _, rfl, h.unchanged⟩
    | some i => exact .inr ⟨_, _, rfl, h.request i events⟩

theorem Good.run (h : Good s) (op : Op) : Good (op.run s).2 := by
  obtain hs | ⟨log, s1, hs, hc⟩ := h.run_cases op
  · rwa [hs]
  · rw [hs]
    exact hc.good

theorem Good.effect (h : Good s) (op : Op) : Effect s (op.run s).1 (op.run s).2 := by
  obtain hs | ⟨log, s1, hs, hc⟩ := h.run_cases op
  · rw [hs]
    exact ⟨.refl, fun _ => rfl⟩
  · rw [hs]
    exact hc.effect

theorem Good.runOps (h : Good s) (ops : List Op) : Good (runOps ops s).2 := by
  induction ops generalizing s with
  | nil => exact h
  | cons op ops ih => exact ih (h.run op)

theorem Good.run_modified (h : Good s) (op : Op) (hm : s.modified = true) : (op.run s).2.modified = true := by
  obtain hs | ⟨log, s1, hs, -⟩ := h.run_cases op
  · rwa [hs]
  · rw [hs]
    rfl

theorem Good.runOps_modified (h : Good s) (ops : List Op) (hm : s.modified = true) :
    (Async.runOps ops s).2.modified = true := by
  induction ops generalizing s with
  | nil => exact hm
  | cons op ops ih => exact ih (h.run op) (h.run_modified op hm)

theorem Good.effects (h : Good s) (ops : List Op) :
    Effect s (Async.runOps ops s).1 (Async.runOps ops s).2 := by
  induction ops generalizing s with
  | nil => exact ⟨.refl, fun _ => rfl⟩
  | cons op ops ih =>
    refine (h.effect op).trans (ih (h.run op)) fun hm => ?_
    rw [← Bool.not_eq_true]
    intro hmod
    have hall : (Async.runOps (op :: ops) s).2.modified = true := (h.run op).runOps_modified ops hmod
    rw [hall] at hm
    cases hm

end MacOnLinux.Async
