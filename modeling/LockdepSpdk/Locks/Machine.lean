import LockdepSpdk.Lib.LockOrder
import LockdepSpdk.Mutex.Deadlock
import LockdepSpdk.Shared.Machine

/-!
# Both kinds of locks in one program

Threads use mutexes and shared mutexes together, and lockdep keeps one graph for
all of them. The calls on each are the program points they have alone; a thread is
inside one call at a time.
-/

namespace LockdepSpdk.Locks

set_option autoImplicit false

open Function Lockdep Transition Mutex

structure Rw (T : Type) where
  obj : Shared.Obj T
  /-- `rwlock` has been made with `PTHREAD_RWLOCK_PREFER_WRITER_NONRECURSIVE_NP`, on platforms
  that have it. -/
  preferWriter : Bool
  /-- The name its class is registered under. Nothing in the program reads this. -/
  cls : String

structure Frame (R : Type) where
  obj : R
  call : Shared.Call
  deriving DecidableEq

structure Sys (T M R : Type) where
  /-- Lockdep, the mutexes and the calls on them. -/
  plain : Mutex.Sys T M
  rws : R → Option (Rw T)
  calls : T → Option (Frame R)

inductive Halt where
  | plain (why : Mutex.Halt)
  | shared (why : Shared.Halt)
  | disabled
  deriving DecidableEq

inductive Act (T M R : Type) where
  | plain (a : Mutex.Act T M)
  | construct (r : R) (group : String) (track enableLockDep prioritizeWrite : Bool)
  | destroy (r : R)
  | call (t : T) (r : R) (op : Shared.Op)
  | step (t : T) (reply : Shared.Reply)

section Steps
variable {T M R : Type}

def caller : Mutex.Act T M → Option T
  | .lock t _ _ | .tryLock t _ _ | .unlock t _ _ | .step t => some t
  | .globalInit | .globalDestroy | .construct _ _ _ _ | .destroy _ => none

/-- A shared mutex as its constructor leaves it, before a registration. -/
def Rw.fresh (group : String) (track ld preferWriter : Bool) : Rw T where
  obj := ⟨group, -1, ld, 0, none, track, 0, none, []⟩
  preferWriter := preferWriter
  cls := group

variable [DecidableEq R]

/-- The constructor; the base registers what `std::move` has left of its parameter `group`. -/
def construct (movedFrom : String → String) (s : Sys T M R) (r : R) (group : String)
    (track enableLockDep prioritizeWrite : Bool) : Except Halt (Sys T M R) :=
  let w : Rw T := Rw.fresh group track enableLockDep prioritizeWrite
  if (s.rws r).isSome then .error .disabled
  else if enableLockDep && s.plain.lockdep.gLockdep then
    match lockdepRegister s.plain.lockdep (movedFrom group) with
    | .ok (l, i) => .ok { s with
        plain := { s.plain with lockdep := l }
        rws := update s.rws r (some { w with obj := { w.obj with id := i }, cls := movedFrom group }) }
    | .error e => .error (.shared (.lockdep e))
  else .ok { s with rws := update s.rws r (some w) }

/-- The destructor asserts `nlock == 0`; `nrlock` is not looked at. -/
def destroy (s : Sys T M R) (r : R) : Except Halt (Sys T M R) :=
  match s.rws r with
  | none => .error .disabled
  | some w =>
    if w.obj.nlock != 0 then .error (.shared .assert)
    else if Shared.lockdepEnabled s.plain.lockdep w.obj then
      match lockdepUnregister s.plain.lockdep w.obj.id with
      | .ok l => .ok { s with
          plain := { s.plain with lockdep := l }
          rws := update s.rws r none }
      | .error e => .error (.shared (.lockdep e))
    else .ok { s with rws := update s.rws r none }

variable [DecidableEq T] [DecidableEq M]

/-- `maxReaders` is the number of read locks a `pthread_rwlock_t` can count. Whether a reader is
kept out by a writer that waits is left open. -/
def exec (maxReaders : Nat) (movedFrom : String → String) (s : Sys T M R) :
    Act T M R → Except Halt (Sys T M R)
  | .plain a =>
    if (caller a).any fun t => (s.calls t).isSome then .error .disabled
    else
      match Mutex.exec movedFrom s.plain a with
      | .ok p => .ok { s with plain := p }
      | .error e => .error (.plain e)
  | .construct r group track enableLockDep prioritizeWrite =>
    construct movedFrom s r group track enableLockDep prioritizeWrite
  | .destroy r => destroy s r
  | .call t r op =>
    match s.rws r with
    | none => .error .disabled
    | some w =>
      if (s.plain.calls t).isSome || (s.calls t).isSome then .error .disabled
      else .ok { s with calls := update s.calls t (some ⟨r, op, op.first w.obj⟩) }
  | .step t reply =>
    match s.calls t with
    | none => .error .disabled
    | some f =>
      match s.rws f.obj with
      | none => .error .disabled
      | some w =>
        match Shared.stepCall maxReaders s.plain.lockdep t f.call w.obj reply with
        | .ok (l, o, p) => .ok
          { plain := { s.plain with lockdep := l }
            rws := update s.rws f.obj (some { w with obj := o })
            calls := update s.calls t (p.map fun p => { f with call := { f.call with point := p } }) }
        | .error e => .error (.shared e)

def Step (maxReaders : Nat) (movedFrom : String → String) (s : Sys T M R) (a : Act T M R)
    (s' : Sys T M R) : Prop :=
  exec maxReaders movedFrom s a = .ok s'

end Steps

section Waiting
variable {T M R : Type}

def Rw.Held (w : Rw T) (t : T) : Prop := w.obj.writer = some t ∨ t ∈ w.obj.readers

/-- `lock`, `lock_shared` and `try_lock_shared`, which calls `pthread_rwlock_rdlock`. -/
def blocks : Shared.Op → Bool
  | .lock | .lockShared | .tryLockShared => true
  | .tryLock | .unlock | .unlockShared => false

/-- Thread `q` keeps the operation out of `rwlock`. -/
def Rw.KeepsOut (w : Rw T) (op : Shared.Op) (q : T) : Prop :=
  w.obj.writer = some q ∨ (op.exclusive = true ∧ q ∈ w.obj.readers)

def BlockedOn (s : Sys T M R) (t : T) (r : R) (op : Shared.Op) : Prop :=
  s.calls t = some ⟨r, op, .acquire⟩ ∧ blocks op = true

/-- Thread `t` is blocked by `q`: in `lock_impl` on a mutex of `q`, in an operation on a `rwlock`
that `q` keeps it out of, or as a reader on one that prefers the writer `q` that waits. -/
inductive WaitsFor (s : Sys T M R) (t q : T) : Prop where
  | plain : Mutex.WaitsFor s.plain t q → WaitsFor s t q
  | held (r : R) (op : Shared.Op) (w : Rw T) : BlockedOn s t r op → s.rws r = some w →
      w.KeepsOut op q → WaitsFor s t q
  | queued (r : R) (op op' : Shared.Op) (w : Rw T) : BlockedOn s t r op → op.exclusive = false →
      s.rws r = some w → w.preferWriter = true → BlockedOn s q r op' → op'.exclusive = true →
      WaitsFor s t q

def Holds (s : Sys T M R) (t : T) (c : String) : Prop :=
  (∃ m o, s.plain.objs m = some o ∧ o.owner = some t ∧ o.cls = c) ∨
    ∃ r w, s.rws r = some w ∧ w.Held t ∧ w.cls = c

/-- What the callers keep to, over what they do with mutexes: every lock uses lockdep, a thread
releases what it holds, and a shared mutex goes while nobody uses it. -/
def Allowed (s : Sys T M R) : Act T M R → Prop
  | .plain a => Mutex.Allowed s.plain a
  | .construct _ _ _ enableLockDep _ => enableLockDep = true
  | .destroy r => (∀ w ∈ s.rws r, w.obj.writer = none ∧ w.obj.readers = []) ∧
      ∀ t, ∀ f ∈ s.calls t, f.obj ≠ r
  | .call t r .unlock => ∃ w ∈ s.rws r, w.obj.writer = some t
  | .call t r .unlockShared => ∃ w ∈ s.rws r, t ∈ w.obj.readers
  | .call _ _ _ => True
  | .step _ _ => True

/-- No live lock of either kind has the class `c`. -/
def Unused (s : Sys T M R) (c : String) : Prop :=
  (∀ m, ∀ o ∈ s.plain.objs m, o.cls ≠ c) ∧ ∀ r, ∀ w ∈ s.rws r, w.cls ≠ c

/-- A constructor registers a name that is no live lock's class. -/
def ClassApart (movedFrom : String → String) (s : Sys T M R) : Act T M R → Prop
  | .plain (.construct _ group _ _) => Unused s (movedFrom group)
  | .construct _ group _ _ _ => Unused s (movedFrom group)
  | _ => True

/-- A thread calls `try_lock_shared` where lockdep has the lock after all that the thread holds. -/
def OrderKnown (s : Sys T M R) : Act T M R → Prop
  | .call t r .tryLockShared => ∀ w ∈ s.rws r,
      (∀ m, ∀ o ∈ s.plain.objs m, o.owner = some t → ClassEdge s.plain.lockdep o.cls w.cls) ∧
      ∀ r', ∀ w' ∈ s.rws r', (w'.obj.writer = some t ∨ t ∈ w'.obj.readers) →
        ClassEdge s.plain.lockdep w'.cls w.cls
  | _ => True

/-- Lockdep has just been switched on; the locks there are were built while it was off. -/
structure Start [DecidableEq T] (s : Sys T M R) : Prop where
  plain : Mutex.Start s.plain
  rws : ∀ r, ∀ w ∈ s.rws r, w = Rw.fresh w.obj.group w.obj.track true w.preferWriter
  apart : ∀ r r', ∀ w ∈ s.rws r, ∀ w' ∈ s.rws r', w.obj.group = w'.obj.group → r = r'
  across : ∀ m r, ∀ o ∈ s.plain.objs m, ∀ w ∈ s.rws r, o.group ≠ w.obj.group
  calls : ∀ t, s.calls t = none

end Waiting

end LockdepSpdk.Locks
