import LockdepSpdk.Blk.Task
import LockdepSpdk.Lib.Monitor

/-!
# Threads inside IOContext

One `IOContext` with null `priv`: the thread that appends to it, submits it and
completes its tasks, and the threads inside `aio_wait`. A step is one access to a
member of the context, one operation on its lock or on its condition variable.
-/

namespace LockdepSpdk.Ioc

set_option autoImplicit false

open Function Monitor

inductive Point where
  /-- `aio_submit`, up to the call of `_aio_handle`. -/
  | submitLoad
  | submitRunning (pending : Int)
  | submitPending (pending : Int)
  | submitAssert
  | submitTake
  /-- The loop test, the poll and the submissions of `_aio_handle`. -/
  | handleTest
  | handlePoll
  | handleFeed
  /-- `try_aio_wake`, called by `io_complete`. -/
  | wakeAssert
  | wakeLock
  | wakeSub
  | wakeNotify
  | wakeUnlock
  /-- `aio_wait`. -/
  | waitLock
  | waitTest
  | waitSleep
  | asleep
  | waitRelock
  | waitUnlock
  deriving DecidableEq

structure Counters where
  numPending : Int
  numRunning : Int
  /-- The length of the list `nvme_task_first`. -/
  chained : Nat
  /-- The tasks of `_aio_handle` that SPDK does not have yet. -/
  rest : Nat
  /-- The commands that SPDK has and did not complete. -/
  inflight : Nat

structure Sys (T : Type) where
  ctx : Counters
  /-- Who has `lock`. -/
  owner : Option T
  calls : T → Option Point

def Counters.append (c : Counters) : Counters :=
  { c with numPending := int32 (c.numPending + 1), chained := c.chained + 1 }

/-- Why a step is not taken: an assert fails, the thread waits for `lock` or for a notification,
or there is nothing to run. -/
inductive Halt where
  | assert
  | waits
  | disabled
  deriving DecidableEq

def Point.waits : Point → Bool
  | .waitLock | .waitTest | .waitSleep | .asleep | .waitRelock | .waitUnlock => true
  | _ => false

def Point.holds : Point → Bool
  | .wakeSub | .wakeNotify | .wakeUnlock | .waitTest | .waitSleep | .waitUnlock => true
  | _ => false

def Point.waking : Point → Bool
  | .wakeSub | .wakeNotify | .wakeUnlock => true
  | _ => false

section Steps
variable {T : Type} [DecidableEq T]

namespace Sys

def goto (s : Sys T) (t : T) (p : Option Point) (c : Counters) : Sys T :=
  { s with ctx := c, calls := update s.calls t p }

def owned (s : Sys T) (t : T) (p : Point) : Sys T :=
  { s with owner := some t, calls := update s.calls t (some p) }

def lock (s : Sys T) (t : T) (p : Point) : Except Halt (Sys T) :=
  match s.owner with
  | none => .ok (s.owned t p)
  | some _ => .error .waits

def unlock (s : Sys T) (t : T) (p : Option Point) : Sys T :=
  { s with owner := none, calls := update s.calls t p }

def notifyAll (s : Sys T) (t : T) (p : Point) : Sys T :=
  { s with
    calls := update (Monitor.notifyAll (some .asleep) (some .waitRelock) s.calls) t (some p) }

variable {s : Sys T} {t u : T}

theorem goto_self (p : Option Point) (c : Counters) : (s.goto t p c).calls t = p :=
  update_self ..

theorem goto_of_ne (h : u ≠ t) (p : Option Point) (c : Counters) :
    (s.goto t p c).calls u = s.calls u := update_of_ne h ..

theorem goto_goto (p q : Option Point) (c d : Counters) :
    (s.goto t p c).goto t q d = s.goto t q d := by
  unfold goto
  rw [update_idem]

theorem owned_self (p : Point) : (s.owned t p).calls t = some p := update_self ..

theorem unlock_self (p : Option Point) : (s.unlock t p).calls t = p := update_self ..

theorem notifyAll_self (p : Point) : (s.notifyAll t p).calls t = some p := update_self ..

theorem notifyAll_of_ne (h : u ≠ t) (p : Point) : (s.notifyAll t p).calls u =
    Monitor.notifyAll (some .asleep) (some .waitRelock) s.calls u := update_of_ne h ..

end Sys

def check (c : Bool) (s : Sys T) : Except Halt (Sys T) := if c then .ok s else .error .assert

def stepPoint (s : Sys T) (t : T) (c : Counters) : Point → Except Halt (Sys T)
  | .submitLoad =>
    .ok (s.goto t (if c.numPending ≠ 0 ∧ c.chained ≠ 0 then some (.submitRunning c.numPending)
      else none) c)
  | .submitRunning pending =>
    .ok (s.goto t (some (.submitPending pending))
      { c with numRunning := int32 (c.numRunning + pending) })
  | .submitPending pending =>
    .ok (s.goto t (some .submitAssert) { c with numPending := int32 (c.numPending - pending) })
  | .submitAssert => check (c.numPending == 0) (s.goto t (some .submitTake) c)
  | .submitTake => .ok (s.goto t (some .handleTest) { c with chained := 0, rest := c.chained })
  | .handleTest => .ok (s.goto t (if c.numRunning ≠ 0 then some .handlePoll else none) c)
  | .handlePoll => .ok (s.goto t (some .handleFeed) c)
  -- The end of the chain leaves the `for` loop; a full queue or an empty pool is `goto again`.
  | .handleFeed => .ok (s.goto t (some (if c.rest = 0 then .handleTest else .handlePoll)) c)
  | .wakeAssert => check (decide (1 ≤ c.numRunning)) (s.goto t (some .wakeLock) c)
  | .wakeLock => s.lock t .wakeSub
  | .wakeSub =>
    .ok (s.goto t (some (if c.numRunning = 1 then .wakeNotify else .wakeUnlock))
      { c with numRunning := int32 (c.numRunning - 1) })
  | .wakeNotify => .ok (s.notifyAll t .wakeUnlock)
  | .wakeUnlock => .ok (s.unlock t (some .handlePoll))
  | .waitLock => s.lock t .waitTest
  | .waitTest => .ok (s.goto t (some (if 0 < c.numRunning then .waitSleep else .waitUnlock)) c)
  -- `cond.wait` releases the lock and falls asleep in one step.
  | .waitSleep => .ok (s.unlock t (some .asleep))
  | .asleep => .error .waits
  | .waitRelock => s.lock t .waitTest
  | .waitUnlock => .ok (s.unlock t none)

inductive Act (T : Type) where
  /-- One task of `aio_read` or `aio_write`. -/
  | append
  | submit
  /-- A task goes to SPDK. -/
  | hand
  /-- A poll calls `io_complete` for a command. -/
  | complete
  | wait (t : T)
  | step (t : T)
  /-- A sleeper wakes up without a notification. -/
  | spurious (t : T)
  deriving DecidableEq

/-- Only `sub` appends, submits and completes. -/
def exec (sub : T) (s : Sys T) : Act T → Except Halt (Sys T)
  | .append =>
    if s.calls sub = none then .ok { s with ctx := s.ctx.append } else .error .disabled
  | .submit =>
    if s.calls sub = none then .ok (s.goto sub (some .submitLoad) s.ctx) else .error .disabled
  | .hand =>
    if s.calls sub = some .handleFeed ∧ 0 < s.ctx.rest then
      .ok { s with ctx := { s.ctx with rest := s.ctx.rest - 1, inflight := s.ctx.inflight + 1 } }
    else .error .disabled
  | .complete =>
    if s.calls sub = some .handlePoll ∧ 0 < s.ctx.inflight then
      .ok (s.goto sub (some .wakeAssert) { s.ctx with inflight := s.ctx.inflight - 1 })
    else .error .disabled
  | .wait t =>
    if s.calls t = none then .ok (s.goto t (some .waitLock) s.ctx) else .error .disabled
  | .step t =>
    match s.calls t with
    | none => .error .disabled
    | some p => stepPoint s t s.ctx p
  | .spurious t =>
    if s.calls t = some .asleep then .ok (s.goto t (some .waitRelock) s.ctx)
    else .error .disabled

/-- A context as its constructor leaves it. -/
def Start (s : Sys T) : Prop :=
  s.ctx = ⟨0, 0, 0, 0, 0⟩ ∧ s.owner = none ∧ ∀ t, s.calls t = none

def Step (sub : T) (s : Sys T) (a : Act T) (s' : Sys T) : Prop := exec sub s a = .ok s'

/-- `aio_submit` finds fewer than 2^31 tasks. -/
def Fits (s : Sys T) : Act T → Prop
  | .submit => s.ctx.chained < 2 ^ 31
  | _ => True

instance (s : Sys T) (a : Act T) : Decidable (Fits s a) :=
  match a with
  | .submit => inferInstanceAs (Decidable (_ < _))
  | .append | .hand | .complete | .wait _ | .step _ | .spurious _ =>
    inferInstanceAs (Decidable True)

end Steps

end LockdepSpdk.Ioc
