import Akb.Library.AsyncLocks
import Akb.Library.Run
import Akb.Library.Table

/-! The write lane of one process: the gate of each vault, the slots shared by all
vaults, and the callers between their awaits. A step runs one caller from the
await it is parked at to its next one. -/
namespace Akb.WriteLane
open Akb.Library

structure Settings where
  writeLaneConcurrency : Int
  writeLaneMaxWaiters : Int

/-- `max(1, settings.write_lane_concurrency)`. -/
def Settings.capacity (cfg : Settings) : Nat := (max 1 cfg.writeLaneConcurrency).toNat

/-- How a call ended. `writeBusy` is `WriteBusyError`. -/
inductive Exit
  | completed
  | failed
  | cancelled
  | writeBusy
  deriving DecidableEq

/-- What cancelled a wait: the shared deadline of the two stages, or somebody outside. -/
structure Interrupt where
  expired : Bool := false
  cancelled : Bool := false
  deriving DecidableEq

/-- `asyncio.timeout` turns its own cancellation into `TimeoutError`, never a foreign one. -/
def Interrupt.exit (i : Interrupt) : Exit := if i.cancelled then .cancelled else .writeBusy

/-- Where a caller is in `write_lane`. `gotGate` is the point between the two
acquisitions; `inside` holds the token that resets `_slot_held`. -/
inductive Lane (ν : Type*)
  | outside (last : Option Exit)
  | gateWait (vault : ν) (interrupt : Interrupt)
  | gotGate (vault : ν)
  | slotWait (vault : ν) (interrupt : Interrupt)
  | inside (vault : ν) (token : Bool)
  deriving DecidableEq

/-- Where a caller is in `run_git_write`. `asking` is the top of its loop. -/
inductive GitWrite
  | idle (last : Option Exit)
  | asking (mustComplete pendingCancel : Bool)
  | slotWait (mustComplete pendingCancel : Bool)
  | running (ownSlot pendingCancel absorbed : Bool)
  deriving DecidableEq

variable {ν τ : Type*}

/-- The module's variables and the control state of each caller. -/
structure State (ν τ : Type*) where
  vaultGates : Table (ν × Lock τ) Prod.fst
  globalSlots : Option (Semaphore τ)
  waiters : Int
  lifecycleWaiters : Int
  slotHeld : τ → Bool
  lane : τ → Lane ν
  git : τ → GitWrite

def State.initial : State ν τ :=
  ⟨Table.empty, none, 0, 0, fun _ => false, fun _ => .outside none, fun _ => .idle none⟩

inductive Event (ν τ : Type*)
  | arrive (caller : τ) (vault : ν)
  | runGitWrite (caller : τ) (mustComplete : Bool)
  | cancel (caller : τ)
  | expire (caller : τ)
  | resume (caller : τ)
  | threadDone (caller : τ) (ok : Bool)
  | leave (caller : τ) (exit : Exit)
  | inherit (child parent : τ)

namespace State
variable [DecidableEq ν] [DecidableEq τ]

/-- `_vault_gate`: a gate nobody asked for yet is a free one. -/
def gate (s : State ν τ) (v : ν) : Lock τ := (s.vaultGates.get? v).elim Lock.free Prod.snd

omit [DecidableEq ν] [DecidableEq τ] in
/-- `_global_sem`. -/
def globalSem (cfg : Settings) (s : State ν τ) : Semaphore τ := s.globalSlots.getD ⟨cfg.capacity, []⟩

def setGate (s : State ν τ) (v : ν) (l : Lock τ) : State ν τ := { s with vaultGates := s.vaultGates.upsert (v, l) }

def setLane (s : State ν τ) (t : τ) (l : Lane ν) : State ν τ := { s with lane := Function.update s.lane t l }

def setGit (s : State ν τ) (t : τ) (g : GitWrite) : State ν τ := { s with git := Function.update s.git t g }

/-- `await sem.acquire()` of a caller that has its gate. -/
def acquireSlot (cfg : Settings) (s : State ν τ) (t : τ) (v : ν) : State ν τ :=
  match (s.globalSem cfg).acquire t with
  | (sem, true) =>
    { s with
      globalSlots := some sem
      waiters := s.waiters - 1
      slotHeld := Function.update s.slotHeld t true }.setLane t (.inside v (s.slotHeld t))
  | (sem, false) => { s with globalSlots := some sem }.setLane t (.slotWait v {})

/-- `write_lane` from its call to its first suspension or its body. -/
def writeLane (cfg : Settings) (s : State ν τ) (t : τ) (v : ν) : State ν τ :=
  if cfg.writeLaneMaxWaiters ≤ s.waiters then s.setLane t (.outside (some .writeBusy))
  else
    match (s.gate v).acquire t with
    | (gate, true) =>
      acquireSlot cfg
        (({ s with globalSlots := some (s.globalSem cfg), waiters := s.waiters + 1 }.setGate v gate).setLane t (.gotGate v))
        t v
    | (gate, false) =>
      ({ s with globalSlots := some (s.globalSem cfg), waiters := s.waiters + 1 }.setGate v gate).setLane t (.gateWait v {})

/-- One turn of the loop of `run_git_write` that waits for a slot. -/
def acquireOwnSlot (cfg : Settings) (s : State ν τ) (t : τ) (mustComplete pendingCancel : Bool) : State ν τ :=
  match (s.globalSem cfg).acquire t with
  | (sem, true) =>
    { s with globalSlots := some sem, lifecycleWaiters := s.lifecycleWaiters - 1 }.setGit t (.running true pendingCancel false)
  | (sem, false) => { s with globalSlots := some sem }.setGit t (.slotWait mustComplete pendingCancel)

/-- `run_git_write` from its call to its first suspension. -/
def runGitWrite (cfg : Settings) (s : State ν τ) (t : τ) (mustComplete : Bool) : State ν τ :=
  if s.slotHeld t then s.setGit t (.running false false false)
  else
    acquireOwnSlot cfg ({ s with lifecycleWaiters := s.lifecycleWaiters + 1 }.setGit t (.asking mustComplete false))
      t mustComplete false

/-- `task.cancel()`: the wait of the task is cancelled; a git write absorbs it until its thread is done;
what other code does with it is up to that code. -/
def cancel (cfg : Settings) (s : State ν τ) (t : τ) : State ν τ :=
  match s.lane t, s.git t with
  | .gateWait v i, _ => (s.setGate v ((s.gate v).cancel t)).setLane t (.gateWait v { i with cancelled := true })
  | .slotWait v i, _ =>
    { s with globalSlots := some ((s.globalSem cfg).cancel t) }.setLane t (.slotWait v { i with cancelled := true })
  | _, .slotWait _ _ => { s with globalSlots := some ((s.globalSem cfg).cancel t) }
  | _, .running own pending _ => s.setGit t (.running own pending true)
  | _, _ => s

/-- The deadline of `asyncio.timeout` passes while the caller is in one of the two stages. -/
def expire (cfg : Settings) (s : State ν τ) (t : τ) : Option (State ν τ) :=
  match s.lane t with
  | .gateWait v ⟨false, c⟩ => some ((s.setGate v ((s.gate v).cancel t)).setLane t (.gateWait v ⟨true, c⟩))
  | .slotWait v ⟨false, c⟩ =>
    some ({ s with globalSlots := some ((s.globalSem cfg).cancel t) }.setLane t (.slotWait v ⟨true, c⟩))
  | _ => none

/-- `gate.release()`, which raises if the gate is not locked. -/
def releaseGate (s : State ν τ) (v : ν) : Option (State ν τ) := ((s.gate v).release).map (s.setGate v)

/-- A caller whose future is done runs again. -/
def resume (cfg : Settings) (s : State ν τ) (t : τ) : Option (State ν τ) :=
  match s.lane t, s.git t with
  | .gateWait v i, _ =>
    match (s.gate v).resume t with
    | none => none
    | some (gate, true) => some (acquireSlot cfg ((s.setGate v gate).setLane t (.gotGate v)) t v)
    | some (gate, false) =>
      some (({ s with waiters := s.waiters - 1 }.setGate v gate).setLane t (.outside (some i.exit)))
  | .slotWait v i, _ =>
    match (s.globalSem cfg).resume t with
    | none => none
    | some (sem, true) =>
      some ({ s with
        globalSlots := some sem
        waiters := s.waiters - 1
        slotHeld := Function.update s.slotHeld t true }.setLane t (.inside v (s.slotHeld t)))
    | some (sem, false) =>
      (releaseGate { s with globalSlots := some sem, waiters := s.waiters - 1 } v).map
        (fun u => setLane u t (.outside (some i.exit)))
  | _, .slotWait mustComplete pending =>
    match (s.globalSem cfg).resume t with
    | none => none
    | some (sem, true) =>
      some ({ s with globalSlots := some sem, lifecycleWaiters := s.lifecycleWaiters - 1 }.setGit t
        (.running true pending false))
    | some (sem, false) =>
      if mustComplete then
        some (acquireOwnSlot cfg ({ s with globalSlots := some sem }.setGit t (.asking true true)) t true true)
      else
        some ({ s with globalSlots := some sem, lifecycleWaiters := s.lifecycleWaiters - 1 }.setGit t
          (.idle (some .cancelled)))
  | _, _ => none

/-- The outcome of `run_git_write` when its thread is done: an absorbed cancellation discards the
outcome of the write, one absorbed while waiting for the slot only a success. -/
def gitExit (ok pendingCancel absorbed : Bool) : Exit :=
  if absorbed then .cancelled
  else if ok then (if pendingCancel then .cancelled else .completed)
  else .failed

def threadDone (cfg : Settings) (s : State ν τ) (t : τ) (ok : Bool) : Option (State ν τ) :=
  match s.git t with
  | .running true pending absorbed =>
    some ({ s with globalSlots := some (s.globalSem cfg).release }.setGit t (.idle (some (gitExit ok pending absorbed))))
  | .running false pending absorbed => some (s.setGit t (.idle (some (gitExit ok pending absorbed))))
  | _ => none

/-- The body of the `async with` ends in any way: the slot goes back, then the gate. -/
def leave (cfg : Settings) (s : State ν τ) (t : τ) (e : Exit) : Option (State ν τ) :=
  match s.lane t, s.git t with
  | .inside v token, .idle _ =>
    (releaseGate { s with
      slotHeld := Function.update s.slotHeld t token
      globalSlots := some (s.globalSem cfg).release } v).map (fun u => setLane u t (.outside (some e)))
  | _, _ => none

end State

section Step
variable [DecidableEq ν] [DecidableEq τ]

/-- The state after an event; `none` when the event cannot happen there. -/
def next (cfg : Settings) (s : State ν τ) : Event ν τ → Option (State ν τ)
  | .arrive t v =>
    match s.lane t, s.git t with
    | .outside _, .idle _ => some (s.writeLane cfg t v)
    | _, _ => none
  | .runGitWrite t mustComplete =>
    match s.lane t, s.git t with
    | .outside _, .idle _ | .inside _ _, .idle _ => some (s.runGitWrite cfg t mustComplete)
    | _, _ => none
  | .cancel t => some (s.cancel cfg t)
  | .expire t => s.expire cfg t
  | .resume t => s.resume cfg t
  | .threadDone t ok => s.threadDone cfg t ok
  | .leave t e => s.leave cfg t e
  -- a new task copies the context of the task that creates it
  | .inherit child parent =>
    match s.lane child, s.git child with
    | .outside _, .idle _ => some { s with slotHeld := Function.update s.slotHeld child (s.slotHeld parent) }
    | _, _ => none

def step (cfg : Settings) (s : State ν τ) (e : Event ν τ) (s' : State ν τ) : Prop := next cfg s e = some s'

end Step
end Akb.WriteLane
