import LockdepSpdk.Lockdep.Calls
import Mathlib.Algebra.Group.Nat.Defs

/-!
# Threads inside shared_mutex_debug

The six entry points of `shared_mutex_debug_impl` on one object. A step of a thread
is one pthread operation, one lockdep call under `lockdep_mutex`, or one access to
the members; the steps of all threads interleave.
-/

namespace LockdepSpdk.Shared

set_option autoImplicit false

open Function Lockdep

/-- A `shared_mutex_debug_impl` with the `pthread_rwlock_t` it wraps. -/
structure Obj (T : Type) where
  group : String
  id : Int
  lockdep : Bool
  nlock : Int
  lockedBy : Option T
  track : Bool
  nrlock : Nat
  /-- Who has `rwlock` for writing. -/
  writer : Option T
  /-- Who has `rwlock` for reading, once for each time. -/
  readers : List T

inductive Op where
  | lock
  | tryLock
  | unlock
  | lockShared
  | tryLockShared
  | unlockShared
  deriving DecidableEq

def Op.exclusive : Op → Bool
  | .lock | .tryLock | .unlock => true
  | .lockShared | .tryLockShared | .unlockShared => false

def Op.releases : Op → Bool
  | .unlock | .unlockShared => true
  | .lock | .tryLock | .lockShared | .tryLockShared => false

/-- `_will_lock`, `_locked` and `_will_unlock`. -/
inductive Hook where
  | willLock
  | locked
  | willUnlock
  deriving DecidableEq

/-- `_lockdep_enabled()`, the read of `id`, the lockdep call and the store of its result. -/
inductive Stage where
  | test
  | read
  | body (i : Int)
  | store (i : Int)
  deriving DecidableEq

inductive Point where
  | hook (h : Hook) (st : Stage)
  | acquire
  | postLockCheck
  | postLockOwner
  | postLockCount
  | postLockShared
  | preUnlockCheck
  | preUnlockCount
  | preUnlockOwner
  | preUnlockZero
  | preUnlockClear
  | preUnlockSharedCheck
  | preUnlockSharedCount
  | release
  deriving DecidableEq

structure Call where
  op : Op
  point : Point
  deriving DecidableEq

structure Sys (T : Type) where
  lockdep : State T
  obj : Obj T
  calls : T → Option Call

/-- Why a step is not taken: lockdep stops the process, an assert fails, the thread waits for
`rwlock`, or there is nothing to run. -/
inductive Halt where
  | lockdep (why : Stop)
  | assert
  | waits
  | disabled
  deriving DecidableEq

/-- What an attempt on `rwlock` comes to. Refused, the call returns `false` or throws. -/
inductive Reply where
  | granted
  | refused
  deriving DecidableEq

section Members
variable {T : Type}

def lockdepEnabled (l : State T) (o : Obj T) : Bool := o.lockdep && l.gLockdep

def incr (n : Nat) : Nat := (n + 1) % 2 ^ 32

def decr (n : Nat) : Nat := (n + (2 ^ 32 - 1)) % 2 ^ 32

theorem incr_of_lt {n : Nat} (h : n + 1 < 2 ^ 32) : incr n = n + 1 := Nat.mod_eq_of_lt h

theorem decr_of_pos {n : Nat} (h : 0 < n) (hlt : n < 2 ^ 32) : decr n = n - 1 := by
  unfold decr
  rw [show n + (2 ^ 32 - 1) = n - 1 + 2 ^ 32 by omega, Nat.add_mod_right]
  exact Nat.mod_eq_of_lt (by omega)

variable [DecidableEq T]

/-- `pthread_rwlock_wrlock` and `pthread_rwlock_trywrlock`, granted. -/
def wrlock (t : T) (o : Obj T) : Except Halt (Obj T) :=
  if o.writer = none ∧ o.readers = [] then .ok { o with writer := some t } else .error .waits

/-- `pthread_rwlock_rdlock`, granted; `maxReaders` is the number of read locks it can count. -/
def rdlock (maxReaders : Nat) (t : T) (o : Obj T) : Except Halt (Obj T) :=
  if o.writer = none ∧ o.readers.length < maxReaders then .ok { o with readers := t :: o.readers }
  else .error .waits

def rwUnlock (t : T) (o : Obj T) : Obj T :=
  if o.writer = some t then { o with writer := none } else { o with readers := o.readers.erase t }

end Members

section Steps
variable {T : Type}

/-- Where a call goes on after a lockdep hook. -/
def Op.afterHook (op : Op) (o : Obj T) : Hook → Option Point
  | .locked =>
    if o.track then some (if op.exclusive then .postLockCheck else .postLockShared) else none
  | .willLock | .willUnlock => some (if op.releases then .release else .acquire)

/-- The first point of a call. `try_lock_shared` starts with `_will_unlock`. -/
def Op.first (op : Op) (o : Obj T) : Point :=
  match op with
  | .lock | .lockShared => .hook .willLock .test
  | .tryLock => .acquire
  | .tryLockShared => .hook .willUnlock .test
  | .unlock => if o.track then .preUnlockCheck else .hook .willUnlock .test
  | .unlockShared => if o.track then .preUnlockSharedCheck else .hook .willUnlock .test

variable [DecidableEq T]

def hookCall (l : State T) (t : T) (o : Obj T) (i : Int) : Hook → Except Stop (State T × Int)
  | .willLock => lockdepWillLock l t o.group i false
  | .locked => lockdepLocked l t o.group i
  | .willUnlock => lockdepWillUnlock l t i

/-- What a step of thread `t` leaves of lockdep, of the object and of the call. -/
abbrev Result (T : Type) : Type := Except Halt (State T × Obj T × Option Point)

def check (c : Bool) (l : State T) (o : Obj T) (p : Point) : Result T :=
  if c then .ok (l, o, some p) else .error .assert

def stepHook (l : State T) (t : T) (o : Obj T) (op : Op) (h : Hook) : Stage → Result T
  | .test => .ok (l, o, if lockdepEnabled l o then some (.hook h .read) else op.afterHook o h)
  | .read => .ok (l, o, some (.hook h (.body o.id)))
  | .body i =>
    match hookCall l t o i h with
    | .ok (l', i') => .ok (l', o, some (.hook h (.store i')))
    | .error e => .error (.lockdep e)
  | .store i => .ok (l, { o with id := i }, op.afterHook o h)

def stepCall (maxReaders : Nat) (l : State T) (t : T) (c : Call) (o : Obj T) (r : Reply) :
    Result T :=
  match c.point with
  | .hook h st => stepHook l t o c.op h st
  | .acquire =>
    match r with
    | .refused => .ok (l, o, none)
    | .granted =>
      match if c.op.exclusive then wrlock t o else rdlock maxReaders t o with
      | .ok o' => .ok (l, o', some (.hook .locked .test))
      | .error e => .error e
  | .postLockCheck => check (o.nlock == 0) l o .postLockOwner
  | .postLockOwner => .ok (l, { o with lockedBy := some t }, some .postLockCount)
  | .postLockCount => .ok (l, { o with nlock := o.nlock + 1 }, none)
  | .postLockShared => .ok (l, { o with nrlock := incr o.nrlock }, none)
  | .preUnlockCheck => check (decide (0 < o.nlock)) l o .preUnlockCount
  | .preUnlockCount => .ok (l, { o with nlock := o.nlock - 1 }, some .preUnlockOwner)
  | .preUnlockOwner => check (o.lockedBy == some t) l o .preUnlockZero
  | .preUnlockZero => check (o.nlock == 0) l o .preUnlockClear
  | .preUnlockClear => .ok (l, { o with lockedBy := none }, some (.hook .willUnlock .test))
  | .preUnlockSharedCheck => check (decide (0 < o.nrlock)) l o .preUnlockSharedCount
  | .preUnlockSharedCount =>
    .ok (l, { o with nrlock := decr o.nrlock }, some (.hook .willUnlock .test))
  | .release => .ok (l, rwUnlock t o, none)

inductive Act (T : Type) where
  | call (t : T) (op : Op)
  | step (t : T) (r : Reply)
  /-- Calls on other mutexes, whatever they make of lockdep. -/
  | elsewhere (l : State T)

def exec (maxReaders : Nat) (s : Sys T) : Act T → Except Halt (Sys T)
  | .call t op =>
    match s.calls t with
    | some _ => .error .disabled
    | none => .ok { s with calls := update s.calls t (some ⟨op, op.first s.obj⟩) }
  | .step t r =>
    match s.calls t with
    | none => .error .disabled
    | some c =>
      match stepCall maxReaders s.lockdep t c s.obj r with
      | .ok (l, o, p) => .ok ⟨l, o, update s.calls t (p.map fun p => { c with point := p })⟩
      | .error e => .error e
  | .elsewhere l => .ok { s with lockdep := l }

/-- A tracking object as its constructor leaves it. -/
def Start (s : Sys T) : Prop :=
  (∃ group id ld, s.obj = ⟨group, id, ld, 0, none, true, 0, none, []⟩) ∧ ∀ t, s.calls t = none

/-- Threads release only what they hold. -/
def HoldsFirst (s : Sys T) : Act T → Prop
  | .call t .unlock => s.obj.writer = some t
  | .call t .unlockShared => t ∈ s.obj.readers
  | _ => True

def Step (maxReaders : Nat) (s : Sys T) (a : Act T) (s' : Sys T) : Prop :=
  HoldsFirst s a ∧ exec maxReaders s a = .ok s'

end Steps

end LockdepSpdk.Shared
