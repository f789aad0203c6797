import Mathlib.Data.BitVec
import Mathlib.Logic.Function.Basic

/-! # Key events (`drivers/keycodes.c`, `drivers/adb.c`)

An ADB code has 7 bits, and the two low ones select the word of `keydowns` that has its bit.
-/

namespace MacOnLinux.Keycodes

open Function

abbrev Code := BitVec 7

abbrev Byte := BitVec 8

structure KeyAction where
  key : Int
  mod1 : Int
  mod2 : Int
  fire : Bool
  deriving DecidableEq, Repr

/-- `kev` and the queue of the keyboard, and as a record the keys whose last accepted event was a press. -/
structure State where
  keydowns : Code → Bool
  molKeydowns : Code → Bool
  actions : List KeyAction
  queue : List Byte
  told : Code → Bool

def keyBufSize : Nat := 16

def State.hasRoom (s : State) : Bool := s.queue.length + 1 < keyBufSize

def State.queueKey (s : State) (key : Byte) : Bool × State :=
  if s.hasRoom then
    (true, { s with queue := s.queue ++ [key], told := update s.told (key.setWidth 7) (!key.msb) })
  else (false, s)

/-- Whether it returns 0; `ready` says that there is a keyboard and that the video is up. -/
def adbKey (ready : Bool) (s : State) (key : Byte) (raw : Int) : Bool × State :=
  if !ready then (false, s)
  else if key = 0xff then (false, s)
  else
    -- the start button calls itself first, with 0 for `raw`
    let s := if key &&& 0x7f = 0x7f ∧ raw ≠ 0 then (s.queueKey key).2 else s
    s.queueKey key

/-- `kbd_read_reg` of register 0. -/
def kbdRead (s : State) : State := { s with queue := s.queue.drop 2 }

def keyIsDown (down : Code → Bool) : Nat → Int → Bool
  | 0, _ => false
  | n + 1, code =>
    if code < 0 then true
    else if code = 0 then false
    else down (BitVec.ofInt 7 code) || keyIsDown down n (code / 256)

/-- The loop over the actions, with what the function of each action returns, and whether the press
is taken by one of them. -/
def handleMolKeycomb (down : Code → Bool) (code : Code) (isKeypress : Bool) :
    List (KeyAction × Bool) → Bool × List KeyAction
  | [] => (false, [])
  | (p, answer) :: ps =>
    let m1 := keyIsDown down 4 p.mod1
    let m2 := keyIsDown down 4 p.mod2
    if m1 && m2 && isKeypress && (code.toNat : Int) = p.key then
      (true, { p with fire := true } :: (handleMolKeycomb down code isKeypress ps).2)
    else if p.fire && !m1 && !m2 && answer then
      (false, { p with fire := false } :: ps.map fun p => { p.1 with fire := false })
    else
      let (drop, rest) := handleMolKeycomb down code isKeypress ps
      (drop, p :: rest)

def keyCapslock : Code := 0x39

/-- What the functions that are called return; there may be no `adb_key_event`. -/
structure Env where
  ready : Bool
  receiver : Bool
  isOsxBoot : Bool
  answers : KeyAction → Bool

def keyOf (code : Code) (press : Bool) : Byte :=
  if press then code.setWidth 8 else code.setWidth 8 ||| 0x80

def State.mark (s : State) (code : Code) (press : Bool) : State :=
  { s with keydowns := update s.keydowns code press }

def keyEvent (s : State) (e : Env) (code : Code) (keycode : Int) (isKeypress : Bool) : State :=
  let s := { s with molKeydowns := update s.molKeydowns code isKeypress }
  let (drop, actions) := handleMolKeycomb s.molKeydowns code isKeypress (s.actions.map fun p => (p, e.answers p))
  let s := { s with actions := actions }
  if drop then s
  else
    let caps := !e.isOsxBoot && code = keyCapslock
    if caps && !isKeypress then s
    else
      let isKeypress := if caps then !s.keydowns code else isKeypress
      if e.receiver && s.keydowns code != isKeypress then
        let (ok, s) := adbKey e.ready s (keyOf code isKeypress) keycode
        if ok then s.mark code isKeypress else s
      else s

/-- One round of the loop; a key that is marked was accepted, so there is an `adb_key_event`. -/
def zapKey (ready : Bool) (s : State) (code : Code) : State :=
  let s := if s.keydowns code then (adbKey ready s (keyOf code false) 0).2 else s
  s.mark code false

def codes : List Code := (List.range 128).map (BitVec.ofNat 7)

def zapKeyboard (s : State) (ready : Bool) : State := codes.foldl (zapKey ready) s

inductive Op where
  | keyEvent (e : Env) (code : Code) (keycode : Int) (isKeypress : Bool)
  | zapKeyboard (ready : Bool)
  | kbdRead

def step (s : State) : Op → State
  | .keyEvent e code keycode isKeypress => keyEvent s e code keycode isKeypress
  | .zapKeyboard ready => zapKeyboard s ready
  | .kbdRead => kbdRead s

def run (s : State) (ops : List Op) : State := ops.foldl step s

def init (actions : List KeyAction) : State :=
  ⟨fun _ => false, fun _ => false, actions, [], fun _ => false⟩

def taken (s : State) (e : Env) (code : Code) : Bool :=
  (handleMolKeycomb (update s.molKeydowns code true) code true (s.actions.map fun p => (p, e.answers p))).1

/-- What is marked is what the guest was told, and a key that is up can be pressed. -/
structure Matches (s : State) : Prop where
  record : ∀ code, s.keydowns code = s.told code
  delivered : ∀ e code keycode, s.keydowns code = false → taken s e code = false →
    e.receiver = true → e.ready = true → s.hasRoom = true →
    (keyEvent s e code keycode true).told code = true

def Zapped (ready : Bool) (s : State) : List Code → Prop
  | [] => True
  | c :: cs =>
    (s.keydowns c = true → (adbKey ready s (keyOf c false) 0).1 = true) ∧ Zapped ready (zapKey ready s c) cs

/-- There is no event of the start button when the queue has one place left, and every release of a
zap is accepted. -/
def Fair (s : State) : Op → Prop
  | .keyEvent _ code keycode _ => code = 0x7f → keycode ≠ 0 → s.queue.length + 2 ≠ keyBufSize
  | .zapKeyboard ready => Zapped ready s codes
  | .kbdRead => True

def Fairly (s : State) : List Op → Prop
  | [] => True
  | op :: ops => Fair s op ∧ Fairly (step s op) ops

variable {s : State} {code : Code} {press : Bool}

/-! ## Events -/

theorem keyOf_code (code : Code) (press : Bool) :
    (keyOf code press).setWidth 7 = code ∧ (keyOf code press).msb = !press := by
  revert code press
  decide

theorem keyOf_start (code : Code) (press : Bool) : keyOf code press &&& 0x7f = 0x7f ↔ code = 0x7f := by
  revert code press
  decide

theorem keyOf_press (code : Code) : keyOf code true ≠ 0xff := by
  revert code
  decide

theorem queueKey_told (hroom : s.hasRoom = true) :
    s.queueKey (keyOf code press) =
      (true, { s with queue := s.queue ++ [keyOf code press], told := update s.told code press }) := by
  obtain ⟨hcode, hmsb⟩ := keyOf_code code press
  rw [State.queueKey, if_pos hroom, hcode, hmsb, Bool.not_not]

/-- An event is accepted and told, or it is neither. -/
theorem adbKey_cases (code : Code) (press ready : Bool) (raw : Int)
    (hone : code = 0x7f → raw ≠ 0 → s.queue.length + 2 ≠ keyBufSize) :
    (∃ queue, adbKey ready s (keyOf code press) raw =
      (true, { s with queue := queue, told := update s.told code press })) ∨
    adbKey ready s (keyOf code press) raw = (false, s) := by
  unfold adbKey
  split
  · exact .inr rfl
  split
  · exact .inr rfl
  cases hroom : s.hasRoom with
  | false =>
    have hfull : s.queueKey (keyOf code press) = (false, s) := if_neg (by simp [hroom])
    refine .inr ?_
    dsimp only
    rw [hfull, ite_self, hfull]
  | true =>
    refine .inl ?_
    dsimp only
    split
    next hstart =>
      -- both calls of the start button find room
      have hroom' : State.hasRoom { s with
          queue := s.queue ++ [keyOf code press], told := update s.told code press } = true := by
        have hone := hone ((keyOf_start code press).mp hstart.1) hstart.2
        simp only [State.hasRoom, decide_eq_true_eq, List.length_append, List.length_singleton] at hroom ⊢
        omega
      rw [queueKey_told hroom, queueKey_told hroom']
      exact ⟨_, by rw [update_idem]⟩
    next => exact ⟨_, queueKey_told hroom⟩

theorem adbKey_press (raw : Int) (hroom : s.hasRoom = true) :
    (adbKey true s (keyOf code true) raw).2.told code = true := by
  have hagain : ∀ s : State, s.told code = true → (s.queueKey (keyOf code true)).2.told code = true := by
    intro s htold
    cases hroom : s.hasRoom with
    | false => rw [State.queueKey, if_neg (by simp [hroom])]; exact htold
    | true => rw [queueKey_told hroom]; exact update_self ..
  unfold adbKey
  rw [if_neg (by decide), if_neg (keyOf_press code)]
  dsimp only
  split
  · exact hagain _ (by rw [queueKey_told hroom]; exact update_self ..)
  · rw [queueKey_told hroom]; exact update_self ..

theorem keyEvent_record (h : s.keydowns = s.told) (e : Env) (code : Code) (keycode : Int) (isKeypress : Bool)
    (hfair : code = 0x7f → keycode ≠ 0 → s.queue.length + 2 ≠ keyBufSize) :
    (keyEvent s e code keycode isKeypress).keydowns = (keyEvent s e code keycode isKeypress).told := by
  unfold keyEvent
  dsimp only
  split
  · exact h
  split
  · exact h
  generalize (if (!e.isOsxBoot && decide (code = keyCapslock)) = true then _ else isKeypress) = press
  split
  · generalize hs : ({ s with molKeydowns := _, actions := _ } : State) = s'
    have hsame : s'.keydowns = s'.told := by rw [← hs]; exact h
    have hqueue : s'.queue = s.queue := by rw [← hs]
    obtain ⟨queue, hadb⟩ | hadb := adbKey_cases (s := s') code press e.ready keycode (by rwa [hqueue])
    · rw [hadb, if_pos rfl]
      show update s'.keydowns code press = update s'.told code press
      rw [hsame]
    · rw [hadb, if_neg Bool.false_ne_true]
      exact hsame
  · exact h

theorem zapKey_record (h : s.keydowns = s.told) {ready : Bool}
    (hacc : s.keydowns code = true → (adbKey ready s (keyOf code false) 0).1 = true) :
    (zapKey ready s code).keydowns = (zapKey ready s code).told := by
  unfold zapKey State.mark
  cases hdown : s.keydowns code with
  | false =>
    show update s.keydowns code false = s.told
    rw [← hdown, update_eq_self, h]
  | true =>
    obtain ⟨queue, hadb⟩ | hadb := adbKey_cases (s := s) code false ready 0 fun _ hraw => absurd rfl hraw
    · show update (adbKey ready s _ 0).2.keydowns code false = (adbKey ready s _ 0).2.told
      rw [hadb]
      exact congrArg (update · code false) h
    · have hacc := hacc hdown
      rw [hadb] at hacc
      cases hacc

theorem zap_record {ready : Bool} (cs : List Code) (h : s.keydowns = s.told) (hzap : Zapped ready s cs) :
    (cs.foldl (zapKey ready) s).keydowns = (cs.foldl (zapKey ready) s).told := by
  induction cs generalizing s with
  | nil => exact h
  | cons c cs ih => exact ih (zapKey_record h hzap.1) hzap.2

theorem step_record {op : Op} (h : s.keydowns = s.told) (hfair : Fair s op) :
    (step s op).keydowns = (step s op).told := by
  cases op with
  | keyEvent e code keycode isKeypress => exact keyEvent_record h e code keycode isKeypress hfair
  | zapKeyboard ready =>
    rw [Fair] at hfair
    rw [step, zapKeyboard]
    exact zap_record codes h hfair
  | kbdRead => exact h

theorem run_record (ops : List Op) (h : s.keydowns = s.told) (hfair : Fairly s ops) :
    (run s ops).keydowns = (run s ops).told := by
  induction ops generalizing s with
  | nil => exact h
  | cons op ops ih => exact ih (step_record h hfair.1) hfair.2

theorem press_delivered {e : Env} (keycode : Int) (hup : s.keydowns code = false)
    (htaken : taken s e code = false) (hrec : e.receiver = true) (hready : e.ready = true)
    (hroom : s.hasRoom = true) : (keyEvent s e code keycode true).told code = true := by
  unfold keyEvent
  rw [taken] at htaken
  simp only [htaken, hup, hrec, hready, Bool.not_true, Bool.and_false, Bool.not_false, ite_self]
  have hmark : ∀ (b : Bool) (s : State), (if b then s.mark code true else s).told = s.told := by
    intro b s
    cases b <;> rfl
  exact (congrFun (hmark ..) code).trans (adbKey_press keycode hroom)

theorem run_matches (actions : List KeyAction) (ops : List Op) (hfair : Fairly (init actions) ops) :
    Matches (run (init actions) ops) where
  record := congrFun (run_record ops rfl hfair)
  delivered := fun _ _ keycode => press_delivered keycode

def plainEnv : Env := ⟨true, true, true, fun _ => false⟩

instance (ready : Bool) : (s : State) → (cs : List Code) → Decidable (Zapped ready s cs)
  | _, [] => .isTrue trivial
  | _, _ :: _ => @instDecidableAnd _ _ inferInstance (instDecidableZapped ready _ _)

theorem run_matches_zap : (run (init []) [.keyEvent plainEnv 5 1 true]).keydowns 5 = true ∧
    Matches (run (init []) [.keyEvent plainEnv 5 1 true, .kbdRead, .zapKeyboard true]) :=
  ⟨by decide, run_matches _ _ ⟨nofun, trivial, by unfold Fair; decide +kernel, trivial⟩⟩

/-- A release that is rejected while the keyboard is zapped, and a start button for which there is
one place: the guest holds a key that is not marked. -/
theorem zap_rejected :
    ¬ Matches (run (init []) [.keyEvent plainEnv 5 1 true, .zapKeyboard false]) ∧
    ¬ Matches (run (init []) ((List.range 14).map (fun i => .keyEvent plainEnv (BitVec.ofNat 7 i) 1 true) ++
      [.keyEvent plainEnv 0x7f 1 true])) :=
  ⟨fun h => absurd (h.record 5) (by decide +kernel), fun h => absurd (h.record 0x7f) (by decide +kernel)⟩

end MacOnLinux.Keycodes
