import Mathlib.Data.List.Nodup
import Mathlib.Logic.Relation
import MacOnLinux.Lib.Linked

/-! # The chain of completed SCSI requests (`drivers/disk/scsi.c`) -/

namespace MacOnLinux.Scsi

open Function List Linked Relation

abbrev Word := BitVec 32

structure Request where
  place : Word
  clientAddr : Word
  deriving DecidableEq, Repr

structure State where
  firstCompleted : Word
  /-- `none` is `&sc.first_completed`, and `some p` the field of the request at `p`. -/
  completedTail : Option Word
  line : Bool
  nextCompleted : Word → Word

def State.setTail (s : State) (w : Word) : State :=
  match s.completedTail with
  | none => { s with firstCompleted := w }
  | some p => { s with nextCompleted := Function.update s.nextCompleted p w }

def complete (r : Request) (s : State) : State :=
  let s := { s with nextCompleted := Function.update s.nextCompleted r.place 0 }
  { s.setTail r.clientAddr with completedTail := some r.place, line := true }

def ackIrqFlag : Word := 1

def ack (s : State) : Word × State :=
  if s.line then
    (s.firstCompleted ||| ackIrqFlag,
      { s with line := false, firstCompleted := 0, completedTail := none })
  else (0, s)

def cntrlInit (s : State) : State := { s with firstCompleted := 0, completedTail := none }

/-! ## What the guest sees -/

def chainHead (ret : Word) : Word := ret &&& ~~~3#32

/-- The guest finds the client addresses `chain` when it starts at `a`. -/
def Lists (place : Word → Word) (next : Word → Word) (a : Word) (chain : List Word) : Prop :=
  Seg (fun a => next (place a)) a chain 0 ∧ 0 ∉ chain

structure Pending (place : Word → Word) (s : State) (r : Request) : Prop where
  ne : r.clientAddr ≠ 0
  aligned : r.clientAddr &&& 3#32 = 0#32
  mapped : place r.clientAddr = r.place
  fresh : ∀ queue, Lists place s.nextCompleted s.firstCompleted queue → r.place ∉ queue.map place

/-- A run, with the requests completed so far and those that the guest has found. -/
inductive Run (place : Word → Word) : State → List Word → List Word → Prop
  | init (s : State) : Run place (cntrlInit s) [] []
  | complete {s : State} {done got : List Word} (hrun : Run place s done got) (r : Request)
      (hr : Pending place s r) : Run place (complete r s) (done ++ [r.clientAddr]) got
  | ack {s : State} {done got : List Word} (hrun : Run place s done got) (chain : List Word)
      (hchain : Lists place (ack s).2.nextCompleted (chainHead (ack s).1) chain) :
      Run place (ack s).2 done (got ++ chain)
  | guest {s : State} {done got : List Word} (hrun : Run place s done got) (next : Word → Word)
      (hkeep : ∀ queue, Lists place s.nextCompleted s.firstCompleted queue →
        ∀ a ∈ queue, next (place a) = s.nextCompleted (place a)) :
      Run place { s with nextCompleted := next } done got

inductive Spares (place : Word → Word) (rest : List Word) : State → State → Prop
  | complete {s : State} (r : Request) (hr : r.place ∉ rest.map place) :
      Spares place rest s (complete r s)
  | ack {s : State} : Spares place rest s (ack s).2
  | guest {s : State} (next : Word → Word)
      (hkeep : ∀ a ∈ rest, next (place a) = s.nextCompleted (place a)) :
      Spares place rest s { s with nextCompleted := next }

variable {place next : Word → Word} {s t : State} {done got chain queue rest : List Word}
variable {r : Request} {a : Word}

/-! ## The queue -/

/-- `queue` waits for the guest, and the tail pointer is where the next request goes. -/
structure Inv (place : Word → Word) (s : State) (queue : List Word) : Prop where
  lists : Lists place s.nextCompleted s.firstCompleted queue
  nodup : (queue.map place).Nodup
  aligned : ∀ a ∈ queue, a &&& 3#32 = 0#32
  tail : s.completedTail = queue.getLast?.map place
  line : queue ≠ [] → s.line = true

theorem lists_unique (h : Lists place next a chain) (h' : Lists place next a queue) :
    chain = queue := seg_unique h.1 h'.1 h.2 h'.2

theorem lists_nil : Lists place next 0 [] := ⟨rfl, not_mem_nil⟩

theorem lists_congr {next' : Word → Word} (hkeep : ∀ a ∈ chain, next' (place a) = next (place a)) :
    Lists place next' a chain ↔ Lists place next a chain := by
  unfold Lists
  rw [seg_congr hkeep]

theorem chainHead_or (ha : a &&& 3#32 = 0#32) : chainHead (a ||| ackIrqFlag) = a := by
  have hflag : ackIrqFlag &&& ~~~3#32 = 0#32 := by decide
  have hsplit : a &&& ~~~3#32 = a := by
    calc a &&& ~~~3#32 = (a &&& 3#32) ||| (a &&& ~~~3#32) := by rw [ha, BitVec.zero_or]
      _ = a &&& (3#32 ||| ~~~3#32) := (BitVec.and_or_distrib_left ..).symm
      _ = a &&& BitVec.allOnes 32 := rfl
      _ = a := BitVec.and_allOnes
  rw [chainHead, BitVec.and_or_distrib_right, hsplit, hflag, BitVec.or_zero]

theorem inv_init : Inv place (cntrlInit s) [] where
  lists := lists_nil
  nodup := nodup_nil
  aligned := by simp
  tail := rfl
  line h := absurd rfl h

theorem lists_link {l c : Word} (hlists : Lists place next a (rest ++ [l]))
    (hnodup : ((rest ++ [l]).map place).Nodup) (hc : c ≠ 0)
    (hfresh : place c ∉ (rest ++ [l]).map place) :
    Lists place (update (update next (place c) 0) (place l) c) a
      (rest ++ [l] ++ [c]) := by
  obtain ⟨hseg, h0⟩ := hlists
  obtain ⟨m, hrest, rfl, hend⟩ := seg_append.mp hseg
  have hcl : place c ≠ place m := fun h => hfresh (by simp [h])
  have hne : ∀ x ∈ rest, place x ≠ place c ∧ place x ≠ place m := by
    intro x hx
    refine ⟨fun h => hfresh (h ▸ mem_map_of_mem (mem_append_left _ hx)), fun h => ?_⟩
    rw [map_append, nodup_append] at hnodup
    exact hnodup.2.2 _ (mem_map_of_mem hx) _ (by simp) h
  have h0c : (0 : Word) ∉ rest ++ [m] ++ [c] := by
    intro h
    rcases mem_append.mp h with h | h
    · exact h0 h
    · exact hc (mem_singleton.mp h).symm
  refine ⟨?_, h0c⟩
  rw [append_assoc]
  refine seg_append.mpr ⟨m, (seg_congr ?_).mpr hrest, rfl, ?_, ?_⟩
  · intro x hx
    rw [update_of_ne (hne x hx).2, update_of_ne (hne x hx).1]
  · exact update_self ..
  · rw [seg_nil]
    dsimp only
    rw [update_of_ne hcl, update_self]

theorem inv_complete (hinv : Inv place s queue) (hr : Pending place s r) :
    Inv place (complete r s) (queue ++ [r.clientAddr]) := by
  have hfresh := hr.fresh queue hinv.lists
  rw [← hr.mapped] at hfresh
  constructor
  case lists =>
    rcases eq_nil_or_concat queue with rfl | ⟨rest, l, rfl⟩
    · have htail : s.completedTail = none := hinv.tail
      simp only [complete, State.setTail, htail]
      refine ⟨⟨rfl, ?_⟩, by simpa using hr.ne.symm⟩
      rw [seg_nil]
      dsimp only
      rw [hr.mapped, update_self]
    · rw [concat_eq_append] at *
      have htail : s.completedTail = some (place l) := by simpa using hinv.tail
      simp only [complete, htail, ← hr.mapped]
      exact lists_link hinv.lists hinv.nodup hr.ne hfresh
  case nodup =>
    rw [map_append, nodup_append]
    refine ⟨hinv.nodup, nodup_singleton _, ?_⟩
    rintro x hx y hy rfl
    rw [map_singleton, mem_singleton] at hy
    exact hfresh (hy ▸ hx)
  case aligned =>
    intro x hx
    rcases mem_append.mp hx with hx | hx
    · exact hinv.aligned x hx
    · rw [mem_singleton.mp hx]
      exact hr.aligned
  case tail => simp [complete, hr.mapped]
  case line => exact fun _ => rfl

theorem ack_spec (hinv : Inv place s queue) :
    Lists place (ack s).2.nextCompleted (chainHead (ack s).1) queue ∧ Inv place (ack s).2 [] := by
  unfold ack
  cases hline : s.line with
  | true =>
    have haligned : s.firstCompleted &&& 3#32 = 0#32 := by
      rw [seg_head hinv.lists.1]
      cases queue with
      | nil => rfl
      | cons x rest => exact hinv.aligned x mem_cons_self
    refine ⟨?_, inv_init (s := { s with line := false })⟩
    rw [if_pos rfl, chainHead_or haligned]
    exact hinv.lists
  | false =>
    have hnil : queue = [] := by
      by_contra hne
      rw [hinv.line hne] at hline
      cases hline
    subst hnil
    have hzero : chainHead 0 = 0 := by decide
    refine ⟨?_, hinv⟩
    rw [if_neg Bool.false_ne_true, hzero]
    exact lists_nil

theorem inv_guest (hinv : Inv place s queue)
    (hkeep : ∀ a ∈ queue, next (place a) = s.nextCompleted (place a)) :
    Inv place { s with nextCompleted := next } queue where
  lists := (lists_congr hkeep).mpr hinv.lists
  nodup := hinv.nodup
  aligned := hinv.aligned
  tail := hinv.tail
  line := hinv.line

/-- What was completed is what the guest has got and then what still waits for it. -/
theorem run_inv (hrun : Run place s done got) : ∃ queue, Inv place s queue ∧ done = got ++ queue := by
  induction hrun with
  | init s => exact ⟨[], inv_init, rfl⟩
  | complete hrun r hr ih =>
    obtain ⟨queue, hinv, rfl⟩ := ih
    exact ⟨queue ++ [r.clientAddr], inv_complete hinv hr, append_assoc ..⟩
  | ack hrun chain hchain ih =>
    obtain ⟨queue, hinv, rfl⟩ := ih
    obtain ⟨hlists, hinv⟩ := ack_spec hinv
    rw [lists_unique hchain hlists]
    exact ⟨[], hinv, (append_nil _).symm⟩
  | guest hrun next hkeep ih =>
    obtain ⟨queue, hinv, rfl⟩ := ih
    exact ⟨queue, inv_guest hinv (hkeep queue hinv.lists), rfl⟩

/-! ## A chain that was handed over -/

/-- The controller will not write to a request of `rest`. -/
def Detached (place : Word → Word) (rest : List Word) (s : State) : Prop :=
  ∀ p, s.completedTail = some p → p ∉ rest.map place

theorem setTail_next (hdet : Detached place rest s) (w : Word) (ha : a ∈ rest) :
    (s.setTail w).nextCompleted (place a) = s.nextCompleted (place a) := by
  unfold State.setTail
  cases htail : s.completedTail with
  | none => rfl
  | some p =>
    have hne : place a ≠ p := fun h => hdet p htail (h ▸ mem_map_of_mem ha)
    exact update_of_ne hne _ _

theorem spares_step (hdet : Detached place rest s) (hstep : Spares place rest s t) :
    Detached place rest t ∧ ∀ a ∈ rest, t.nextCompleted (place a) = s.nextCompleted (place a) := by
  cases hstep with
  | complete r hr =>
    constructor
    · intro p hp
      obtain rfl : r.place = p := by simpa [complete] using hp
      exact hr
    · intro a ha
      have hne : place a ≠ r.place := fun h => hr (h ▸ mem_map_of_mem ha)
      have hdet' : Detached place rest
          { s with nextCompleted := update s.nextCompleted r.place 0 } := hdet
      exact (setTail_next hdet' _ ha).trans (update_of_ne hne _ _)
  | ack =>
    unfold ack
    cases s.line with
    | true => exact ⟨fun p hp => (nomatch hp), fun _ _ => rfl⟩
    | false => exact ⟨hdet, fun _ _ => rfl⟩
  | guest next hkeep => exact ⟨hdet, hkeep⟩

/-- Requests that complete later are not linked to what the guest has not read yet. -/
theorem spares_run (hdet : Detached place rest s)
    (hsteps : ReflTransGen (Spares place rest) s t) :
    Detached place rest t ∧ ∀ a ∈ rest, t.nextCompleted (place a) = s.nextCompleted (place a) := by
  induction hsteps with
  | refl => exact ⟨hdet, fun _ _ => rfl⟩
  | tail _ hstep ih =>
    obtain ⟨hdet, hkeep⟩ := spares_step ih.1 hstep
    exact ⟨hdet, fun a ha => (hkeep a ha).trans (ih.2 a ha)⟩

theorem lists_drop (hlists : Lists place next a (queue ++ rest)) :
    Lists place next (rest.headD 0) rest := by
  obtain ⟨hseg, h0⟩ := hlists
  obtain ⟨m, -, hrest⟩ := seg_append.mp hseg
  rw [seg_head hrest] at hrest
  exact ⟨hrest, fun h => h0 (mem_append_right _ h)⟩

/-- Completed requests reach the guest once and in order. -/
theorem acks_deliver (hrun : Run place s done got) :
    ∃ chain, done = got ++ chain ∧ (chain ≠ [] → s.line = true) ∧
      (∀ chain', Lists place (ack s).2.nextCompleted (chainHead (ack s).1) chain' ↔ chain' = chain) ∧
      ∀ walked rest t, chain = walked ++ rest →
        ReflTransGen (Spares place rest) (ack s).2 t →
        Lists place t.nextCompleted (rest.headD 0) rest := by
  obtain ⟨chain, hinv, hdone⟩ := run_inv hrun
  obtain ⟨hlists, hempty⟩ := ack_spec hinv
  refine ⟨chain, hdone, hinv.line, ?_, ?_⟩
  · intro chain'
    exact ⟨fun h => lists_unique h hlists, fun h => h ▸ hlists⟩
  rintro walked rest t rfl hsteps
  have hdet : Detached place rest (ack s).2 := by
    intro p hp
    rw [hempty.tail] at hp
    cases hp
  exact (lists_congr (spares_run hdet hsteps).2).mpr (lists_drop hlists)

/-- Two requests complete, and one acknowledgement returns both. -/
theorem acks_deliver_two :
    ∃ s, Run id s [16, 32] [] ∧ ∃ chain, [16, 32] = [] ++ chain ∧ (chain ≠ [] → s.line = true) ∧
      (∀ chain', Lists id (ack s).2.nextCompleted (chainHead (ack s).1) chain' ↔ chain' = chain) ∧
      ∀ walked rest t, chain = walked ++ rest →
        ReflTransGen (Spares id rest) (ack s).2 t →
        Lists id t.nextCompleted (rest.headD 0) rest := by
  have hfirst : Run id (complete ⟨16, 16⟩ (cntrlInit ⟨0, none, false, fun _ => 0⟩)) [16] [] := by
    refine .complete (.init _) ⟨16, 16⟩ ⟨by decide, by decide, rfl, ?_⟩
    intro queue hqueue
    rw [lists_unique hqueue lists_nil]
    exact not_mem_nil
  have hsecond : Run id (complete ⟨32, 32⟩ (complete ⟨16, 16⟩ (cntrlInit ⟨0, none, false, fun _ => 0⟩)))
      [16, 32] [] := by
    refine .complete hfirst ⟨32, 32⟩ ⟨by decide, by decide, rfl, ?_⟩
    intro queue hqueue
    have hlists : Lists id (complete ⟨16, 16⟩ (cntrlInit ⟨0, none, false, fun _ => 0⟩)).nextCompleted
        (complete ⟨16, 16⟩ (cntrlInit ⟨0, none, false, fun _ => 0⟩)).firstCompleted [16] :=
      ⟨⟨rfl, rfl⟩, by decide⟩
    rw [lists_unique hqueue hlists]
    decide
  exact ⟨_, hsecond, acks_deliver hsecond⟩

end MacOnLinux.Scsi
