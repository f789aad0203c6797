import MacOnLinux.Lib.Linked
import Mathlib.Data.Fintype.Basic

/-! # Timers (`main/timer.c`)

The active list is sorted with differences of 32 bits; timers that are too far away for that stand
behind the overflow timer, which fires often enough to sort them in.
-/

namespace MacOnLinux.Timer

open Function

abbrev Word := BitVec 32
abbrev Slot := Fin 16

/-- A list head or the field `next` of a slot. A pointer to a slot is its cell. -/
inductive Cell where
  | active
  | inactive
  | free
  | slot (i : Slot)
  | null
  deriving DecidableEq, Repr

inductive Handler where
  | overflow
  | client (tag : Nat)
  deriving DecidableEq, Repr

/-- `mtimer_t`; `uses` counts how often the slot was allocated. -/
structure Entry where
  mark : Nat
  periodic : Bool
  overflow : Bool
  autoresume : Bool
  period : Nat
  id : Word
  handler : Handler
  uses : Nat
  deriving DecidableEq, Repr

def Entry.tbl (t : Entry) : Nat := t.mark % 2 ^ 32

/-- `ts`, whether `overflow_handler` is due, the last time read, and that of the last return. -/
structure State where
  next : Cell → Cell
  entry : Slot → Entry
  overflow : Slot
  tbFreq : Nat
  pending : Bool
  time : Nat
  last : Nat

def State.setNext (s : State) (c v : Cell) : State := { s with next := update s.next c v }

def State.setEntry (s : State) (i : Slot) (t : Entry) : State :=
  { s with entry := update s.entry i t }

def s32 (x : Int) : Int := Int.bmod x (2 ^ 32)
def s64 (x : Int) : Int := Int.bmod x (2 ^ 64)

def usecsToMticks (s : State) (usecs : Nat) : Nat := s.tbFreq * usecs % 2 ^ 64 / 1000000

/-- `mticks_to_usecs_` before the result is cut to an `ulong`. -/
def usecsOfMticks (s : State) (mt : Nat) : Nat := mt * 1000000 % 2 ^ 64 / s.tbFreq

def mticksToUsecs (s : State) (mt : Nat) : Nat := usecsOfMticks s mt % 2 ^ 32

/-- One more than there are slots, which is enough for any walk. -/
def fuel : Nat := 17

/-! ## Lists -/

/-- The slots that a pointer leads to; `none` for a cycle. -/
def collect (next : Cell → Cell) : Nat → Cell → Option (List Slot)
  | 0, _ => none
  | fuel + 1, .slot i => (collect next fuel (next (.slot i))).map (i :: ·)
  | _ + 1, _ => some []

def State.list (s : State) (head : Cell) : Option (List Slot) := collect s.next fuel (s.next head)

def State.misses (s : State) (id : Word) : Cell → Bool
  | .slot i => (s.entry i).id != id
  | _ => false

def dequeueTimer (s : State) (list : Cell) (id : Word) : Option (Option Slot × State) :=
  (Linked.scan s.next (fun c => !s.misses id (s.next c)) fuel list).map fun c =>
    match s.next c with
    | .slot i => (some i, s.setNext c (s.next (.slot i)))
    | _ => (none, s)

def State.sooner (s : State) (t : Slot) : Cell → Bool
  | .slot i => s32 ((s.entry i).tbl - (s.entry t).tbl) < 0
  | _ => false

def State.link (s : State) (c : Cell) (t : Slot) : State :=
  (s.setNext (.slot t) (s.next c)).setNext c (.slot t)

def State.isFar (s : State) (t : Slot) : Bool :=
  0 < s64 ((s.entry t).mark - (s.entry s.overflow).mark)

def insertTimer (s : State) (t : Slot) : Option State :=
  if s.isFar t then
    some ((s.link (.slot s.overflow) t).setEntry t { s.entry t with overflow := true })
  else
    (Linked.scan s.next (fun c => !s.sooner t (s.next c)) fuel .active).map fun c => s.link c t

def newTimer (s : State) (handler : Handler) (periodic autoresume : Bool) : Option Slot × State :=
  match s.next .free with
  | .slot t =>
    let e := s.entry t
    (some t, (((s.setNext .free (s.next (.slot t))).setEntry t
      { e with
        periodic := periodic, overflow := false, autoresume := autoresume, id := e.id + 0x100,
        period := 0, handler := handler, uses := e.uses + 1 })).setNext (.slot t) .null)
  | _ => (none, s)

/-! ## Interface -/

def absTimer (s : State) (mark : Nat) (tag : Nat) : Option (Word × State) :=
  match newTimer s (.client tag) false false with
  | (none, s) => some (0, s)
  | (some t, s) =>
    let s := s.setEntry t { s.entry t with mark := mark }
    (insertTimer s t).map fun s' => ((s.entry t).id, s')

def tickTimer (s : State) (now ticks tag : Nat) : Option (Word × State) :=
  absTimer s ((ticks + now) % 2 ^ 64) tag

def usecTimer (s : State) (now usecs tag : Nat) : Option (Word × State) :=
  absTimer s ((usecsToMticks s usecs + now) % 2 ^ 64) tag

def cancelTimer (s : State) (id : Word) : Option State :=
  (dequeueTimer s .active id).map fun
    | (none, s) => s
    | (some t, s) => s.link .free t

def newPtimer (s : State) (handler : Handler) (autoResume : Bool) : Word × State :=
  match newTimer s handler true autoResume with
  | (none, s) => (0, s)
  | (some t, s) => ((s.entry t).id, s.link .inactive t)

def setPtimerTicks (s : State) (now : Nat) (t : Slot) (ticks : Nat) : Option State :=
  insertTimer (s.setEntry t { s.entry t with mark := (now + ticks) % 2 ^ 64, period := ticks }) t

def dequeueEither (s : State) (list list' : Cell) (id : Word) : Option (Option Slot × State) :=
  (dequeueTimer s list id).bind fun
    | (some t, s) => some (some t, s)
    | (none, s) => dequeueTimer s list' id

def setPtimer (s : State) (now : Nat) (id : Word) (uperiod : Nat) : Option State :=
  let uperiod := if uperiod ≤ 10 then 2000 else uperiod
  (dequeueEither s .inactive .active id).bind fun
    | (none, s) => some s
    | (some t, s) =>
      let mark := usecsToMticks s uperiod
      insertTimer (s.setEntry t { s.entry t with
        period := mark % 2 ^ 32, mark := (mark + now) % 2 ^ 64 }) t

/-- The loop of `recalc_ptimer`; with a period of zero it does not end. -/
def recalcLoop (now period : Nat) : Nat → Int → Nat → Option (Int × Nat)
  | 0, _, _ => none
  | fuel + 1, lost, mark =>
    if 0 ≤ s64 (now - mark) then recalcLoop now period fuel (lost + 1) ((mark + period) % 2 ^ 64)
    else some (lost, mark)

def recalcPtimer (s : State) (now : Nat) (t : Slot) : Option (Int × State) :=
  (recalcLoop now (s.entry t).period (2 ^ 64) (-1) (s.entry t).mark).map fun (lost, mark) =>
    (if lost < 0 then 0 else lost, s.setEntry t { s.entry t with mark := mark })

def resumePtimer (s : State) (now : Nat) (id : Word) : Option (Int × State) :=
  (dequeueTimer s .inactive id).bind fun
    | (none, s) => some (0, s)
    | (some t, s) => (recalcPtimer s now t).bind fun (lost, s) => (insertTimer s t).map (lost, ·)

def pausePtimer (s : State) (id : Word) : Option State :=
  (dequeueTimer s .active id).map fun
    | (none, s) => s
    | (some t, s) => s.link .inactive t

def freePtimer (s : State) (id : Word) : Option State :=
  (dequeueEither s .active .inactive id).map fun
    | (none, s) => s
    | (some t, s) => s.link .free t

/-! ## Firing -/

def isQuiet (s : State) (now : Nat) (t : Slot) : Bool :=
  s32 (now - (s.entry t).tbl) < 0 || (s.entry t).overflow

/-- What `rvec_timer` does with a timer that fires, before it calls the handler. -/
def fire (s : State) (now : Nat) (t : Slot) : Option State :=
  let s : State :=
    { s.setNext .active (s.next (.slot t)) with
      pending := (s.entry t).handler == Handler.overflow }
  if (s.entry t).periodic then
    if (s.entry t).autoresume then (recalcPtimer s now t).bind fun (_, s) => insertTimer s t
    else some (s.link .inactive t)
  else some (s.link .free t)

/-- A round of the loop: it returns, or a timer fires. `later` is the second reading. -/
def rvecTimer (s : State) (now later : Nat) : Option State :=
  match s.next .active with
  | .slot t => if isQuiet s now t then some { s with last := now } else fire s later t
  | _ => some { s with last := now }

def rvecReturns (s : State) (now : Nat) : Bool :=
  match s.next .active with
  | .slot t => isQuiet s now t
  | _ => true

def insertAll (s : State) : List Slot → Option State
  | [] => some s
  | t :: chain =>
    (insertTimer (s.setEntry t { s.entry t with overflow := false }) t).bind fun s => insertAll s chain

/-- A timer that the first loop of `overflow_handler` leaves in its place. -/
def State.stays (s : State) : Cell → Bool
  | .slot t => !(s.entry t).overflow
  | _ => true

def Cell.isNull : Cell → Bool
  | .slot _ => false
  | _ => true

def Cell.slot? : Cell → Option Slot
  | .slot t => some t
  | _ => none

/-- `overflow_handler`; the timers on its local chain are a list here. -/
def overflowHandler (s : State) : Option State :=
  (Linked.sweep Cell.isNull s.stays fuel s.next .active []).bind fun (next, chain) =>
    insertAll { s with next := next, pending := false } (chain.filterMap Cell.slot?)

/-! ## Runs -/

inductive Call where
  | tickTimer (ticks tag : Nat)
  | usecTimer (usecs tag : Nat)
  | cancelTimer (id : Word)
  | newPtimer (tag : Nat) (autoResume : Bool)
  | setPtimer (id : Word) (uperiod : Nat)
  | pausePtimer (id : Word)
  | resumePtimer (id : Word)
  | freePtimer (id : Word)
  /-- A round with `lag` ticks between its two readings of the timebase. -/
  | rvecTimer (lag : Nat)
  | overflowHandler
  deriving DecidableEq, Repr

/-- The timebase when a call that starts at `now` has read it for the last time. -/
def Call.until (now : Nat) : Call → Nat
  | .rvecTimer lag => now + lag
  | _ => now

def step (s : State) (now : Nat) (c : Call) : Option State :=
  let s := { s with time := c.until now }
  match c with
  | .tickTimer ticks tag => (tickTimer s now ticks tag).map Prod.snd
  | .usecTimer usecs tag => (usecTimer s now usecs tag).map Prod.snd
  | .cancelTimer id => cancelTimer s id
  | .newPtimer tag autoResume => some (newPtimer s (.client tag) autoResume).2
  | .setPtimer id uperiod => setPtimer s now id uperiod
  | .pausePtimer id => pausePtimer s id
  | .resumePtimer id => (resumePtimer s now id).map Prod.snd
  | .freePtimer id => freePtimer s id
  | .rvecTimer lag => if s.pending then none else rvecTimer s now (now + lag)
  | .overflowHandler => if s.pending then overflowHandler s else none

def run (s : State) : List (Nat × Call) → Option State
  | [] => some s
  | (now, c) :: calls => (step s now c).bind (run · calls)

def TIMER_MAX : Nat := 0x7fffffff

def initLinks : Cell → Cell
  | .active => .null
  | .inactive => .null
  | .free => .slot 0
  | .slot i => if h : i.val + 1 < 16 then .slot ⟨i.val + 1, h⟩ else .null
  | .null => .null

def timerInit (tbFreq now : Nat) : Option State :=
  let s : State :=
    { next := initLinks
      entry := fun i => ⟨0, false, false, false, 0, BitVec.ofNat 32 (i.val + 1), .client 0, 0⟩
      overflow := 0, tbFreq := tbFreq, pending := false, time := now, last := now }
  let (_, s) := newPtimer s .overflow true
  match s.next .inactive with
  | .slot t => setPtimerTicks { s with overflow := t } now t TIMER_MAX
  | _ => none

end MacOnLinux.Timer
