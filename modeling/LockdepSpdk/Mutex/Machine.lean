import LockdepSpdk.Lib.Int32
import LockdepSpdk.Lockdep.Registry

/-!
# Threads inside mutex_debug

`lock`, `try_lock` and `unlock` of mutex_debug.hpp as program points. A step of
a thread is one pthread operation, one lockdep call under `lockdep_mutex`, or one
access to the members of a mutex; the steps of all threads interleave.
-/

namespace LockdepSpdk.Mutex

set_option autoImplicit false

open Function Lockdep Transition

/-- A `mutex_debug_impl` with the `pthread_mutex_t` it wraps. `nlock` is an `int`. -/
structure Obj (T : Type) where
  group : String
  id : Int
  lockdep : Bool
  recursive : Bool
  nlock : Int
  lockedBy : Option T
  /-- Who has the pthread mutex, and how many times. -/
  owner : Option T
  depth : Nat
  /-- The name its class is registered under. Nothing in the program reads this. -/
  cls : String

/-- The next thing a thread does; a copied `id` travels with it. -/
inductive Point where
  | lockTest
  | willLockRead
  | willLockBody (i : Int)
  | willLockStore (i : Int)
  | tryImpl
  | lockImpl
  | lockedTest
  | lockedRead
  | lockedBody (i : Int)
  | lockedStore (i : Int)
  | postLockCheck
  | postLockOwner
  | postLockCount
  | preUnlockCheck
  | preUnlockOwner
  | preUnlockTest
  | preUnlockClear
  | preUnlockCount
  | unlockTest
  | willUnlockRead
  | willUnlockBody (i : Int)
  | willUnlockStore (i : Int)
  | unlockImpl
  deriving DecidableEq

/-- A call in progress; `inLock` tells the `try_lock` inside `lock` from one of its own. -/
structure Frame (M : Type) where
  obj : M
  noLockdep : Bool
  inLock : Bool
  point : Point

structure Sys (T M : Type) where
  lockdep : State T
  objs : M → Option (Obj T)
  calls : T → Option (Frame M)

/-- Why a step is not taken: lockdep or an assert stops the process, a `std::system_error` leaves
the call, the thread waits in `pthread_mutex_lock`, or there is nothing to run. -/
inductive Halt where
  | stop (why : Stop)
  | throws
  | waits
  | disabled
  deriving DecidableEq

section Pthread
variable {T : Type} [DecidableEq T]

/-- How often a recursive pthread mutex lets its owner in, an `unsigned int`; then it answers
EAGAIN. -/
def maxDepth : Nat := 2 ^ 32 - 1

theorem maxDepth_lt : maxDepth < 2 ^ 32 := by decide

/-- `try_lock_impl`: an error-checking mutex is busy for its owner too. -/
def tryLockImpl (t : T) (o : Obj T) : Except Halt (Option (Obj T)) :=
  match o.owner with
  | none => .ok (some { o with owner := some t, depth := 1 })
  | some q =>
    if o.recursive = true ∧ q = t then
      if o.depth < maxDepth then .ok (some { o with depth := o.depth + 1 }) else .error .throws
    else .ok none

def lockImpl (t : T) (o : Obj T) : Except Halt (Obj T) :=
  match o.owner with
  | none => .ok { o with owner := some t, depth := 1 }
  | some q =>
    if q = t then
      if o.recursive then
        -- EAGAIN is none of the codes that `lock_impl` throws
        if o.depth < maxDepth then .ok { o with depth := o.depth + 1 } else .error (.stop .abort)
      else .error .throws
    else .error .waits

def unlockImpl (t : T) (o : Obj T) : Except Halt (Obj T) :=
  if o.owner = some t then
    if o.depth ≤ 1 then .ok { o with owner := none, depth := 0 }
    else .ok { o with depth := o.depth - 1 }
  else .error (.stop .abort)

end Pthread

section Steps
variable {T M : Type}

def lockdepEnabled (l : State T) (o : Obj T) (noLockdep : Bool) : Bool :=
  if o.recursive then false
  else if noLockdep then false
  else o.lockdep && l.gLockdep

variable [DecidableEq T] [DecidableEq M]

@[simps]
def Sys.goto (s : Sys T M) (t : T) (f : Frame M) (p : Point) : Sys T M :=
  { s with calls := update s.calls t (some { f with point := p }) }

@[simps]
def Sys.ret (s : Sys T M) (t : T) : Sys T M := { s with calls := update s.calls t none }

@[simps]
def Sys.setObj (s : Sys T M) (m : M) (o : Obj T) : Sys T M :=
  { s with objs := update s.objs m (some o) }

@[simps]
def Sys.setLockdep (s : Sys T M) (l : State T) : Sys T M := { s with lockdep := l }

/-- A lockdep call whose result `k` picks up. -/
def withLockdep (s : Sys T M) (x : Except Stop (State T × Int)) (k : Sys T M → Int → Sys T M) :
    Except Halt (Sys T M) :=
  match x with
  | .ok (l, i) => .ok (k (s.setLockdep l) i)
  | .error e => .error (.stop e)

def check (c : Bool) (s : Sys T M) : Except Halt (Sys T M) :=
  if c then .ok s else .error (.stop .abort)

/-- The step of thread `t`, inside call `f` on the mutex `o`. -/
def stepCall (s : Sys T M) (t : T) (f : Frame M) (o : Obj T) : Except Halt (Sys T M) :=
  match f.point with
  | .lockTest =>
    .ok (s.goto t f (if lockdepEnabled s.lockdep o f.noLockdep then .willLockRead else .tryImpl))
  | .willLockRead => .ok (s.goto t f (.willLockBody o.id))
  | .willLockBody i =>
    withLockdep s (lockdepWillLock s.lockdep t o.group i o.recursive) fun s' i' =>
      s'.goto t f (.willLockStore i')
  | .willLockStore i => .ok ((s.setObj f.obj { o with id := i }).goto t f .tryImpl)
  | .tryImpl =>
    match tryLockImpl t o with
    | .ok (some o') => .ok ((s.setObj f.obj o').goto t f .lockedTest)
    | .ok none => .ok (if f.inLock then s.goto t f .lockImpl else s.ret t)
    | .error e => .error e
  | .lockImpl =>
    match lockImpl t o with
    | .ok o' => .ok ((s.setObj f.obj o').goto t f .lockedTest)
    | .error e => .error e
  | .lockedTest =>
    .ok (s.goto t f (if lockdepEnabled s.lockdep o f.noLockdep then .lockedRead else .postLockCheck))
  | .lockedRead => .ok (s.goto t f (.lockedBody o.id))
  | .lockedBody i =>
    withLockdep s (lockdepLocked s.lockdep t o.group i) fun s' i' =>
      s'.goto t f (.lockedStore i')
  | .lockedStore i => .ok ((s.setObj f.obj { o with id := i }).goto t f .postLockCheck)
  | .postLockCheck => check (o.recursive || o.nlock == 0) (s.goto t f .postLockOwner)
  | .postLockOwner => .ok ((s.setObj f.obj { o with lockedBy := some t }).goto t f .postLockCount)
  | .postLockCount => .ok ((s.setObj f.obj { o with nlock := int32 (o.nlock + 1) }).ret t)
  | .preUnlockCheck =>
    check (if o.recursive then decide (0 < o.nlock) else o.nlock == 1) (s.goto t f .preUnlockOwner)
  | .preUnlockOwner => check (o.lockedBy == some t) (s.goto t f .preUnlockTest)
  | .preUnlockTest => .ok (s.goto t f (if o.nlock = 1 then .preUnlockClear else .preUnlockCount))
  | .preUnlockClear => .ok ((s.setObj f.obj { o with lockedBy := none }).goto t f .preUnlockCount)
  | .preUnlockCount => .ok ((s.setObj f.obj { o with nlock := int32 (o.nlock - 1) }).goto t f .unlockTest)
  | .unlockTest =>
    .ok (s.goto t f (if lockdepEnabled s.lockdep o f.noLockdep then .willUnlockRead else .unlockImpl))
  | .willUnlockRead => .ok (s.goto t f (.willUnlockBody o.id))
  | .willUnlockBody i =>
    withLockdep s (lockdepWillUnlock s.lockdep t i) fun s' i' => s'.goto t f (.willUnlockStore i')
  | .willUnlockStore i => .ok ((s.setObj f.obj { o with id := i }).goto t f .unlockImpl)
  | .unlockImpl =>
    match unlockImpl t o with
    | .ok o' => .ok ((s.setObj f.obj o').ret t)
    | .error e => .error e

inductive Act (T M : Type) where
  | globalInit
  | globalDestroy
  | construct (m : M) (group : String) (lockdep recursive : Bool)
  | destroy (m : M)
  | lock (t : T) (m : M) (noLockdep : Bool)
  | tryLock (t : T) (m : M) (noLockdep : Bool)
  | unlock (t : T) (m : M) (noLockdep : Bool)
  | step (t : T)

/-- A mutex as its constructor leaves it, before a registration. -/
def Obj.fresh (group : String) (ld recursive : Bool) : Obj T where
  group := group
  id := -1
  lockdep := ld
  recursive := recursive
  nlock := 0
  lockedBy := none
  owner := none
  depth := 0
  cls := group

/-- The constructor. Its parameter `group` hides the member of that name, so `lockdep_register`
is passed `movedFrom group`, what `std::move` has left of the parameter. -/
def construct (movedFrom : String → String) (s : Sys T M) (m : M) (group : String)
    (ld recursive : Bool) : Except Halt (Sys T M) :=
  if (s.objs m).isSome then .error .disabled
  else if ld && s.lockdep.gLockdep then
    withLockdep s (lockdepRegister s.lockdep (movedFrom group)) fun s' i =>
      s'.setObj m { Obj.fresh group ld recursive with id := i, cls := movedFrom group }
  else .ok (s.setObj m (Obj.fresh group ld recursive))

/-- The destructors: `pthread_mutex_destroy` wants the mutex free, `nlock` is 0 by then, and the
class loses a reference. -/
def destroy (s : Sys T M) (m : M) : Except Halt (Sys T M) :=
  match s.objs m with
  | none => .error .disabled
  | some o =>
    if o.owner.isSome || o.nlock != 0 then .error (.stop .abort)
    else if o.lockdep && s.lockdep.gLockdep then
      match lockdepUnregister s.lockdep o.id with
      | .ok l => .ok { s with lockdep := l, objs := update s.objs m none }
      | .error e => .error (.stop e)
    else .ok { s with objs := update s.objs m none }

def enter (s : Sys T M) (t : T) (f : Frame M) : Except Halt (Sys T M) :=
  if (s.calls t).isSome || (s.objs f.obj).isNone then .error .disabled
  else .ok (s.goto t f f.point)

def exec (movedFrom : String → String) (s : Sys T M) : Act T M → Except Halt (Sys T M)
  | .globalInit => .ok (s.setLockdep (lockdepGlobalInit s.lockdep))
  | .globalDestroy => .ok (s.setLockdep (lockdepGlobalDestroy s.lockdep))
  | .construct m group ld recursive => construct movedFrom s m group ld recursive
  | .destroy m => destroy s m
  | .lock t m noLockdep => enter s t ⟨m, noLockdep, true, .lockTest⟩
  | .tryLock t m noLockdep => enter s t ⟨m, noLockdep, false, .tryImpl⟩
  | .unlock t m noLockdep => enter s t ⟨m, noLockdep, false, .preUnlockCheck⟩
  | .step t =>
    match s.calls t with
    | none => .error .disabled
    | some f =>
      match s.objs f.obj with
      | none => .error .disabled
      | some o => stepCall s t f o

def Step (movedFrom : String → String) (s : Sys T M) (a : Act T M) (s' : Sys T M) : Prop :=
  exec movedFrom s a = .ok s'

end Steps

end LockdepSpdk.Mutex
