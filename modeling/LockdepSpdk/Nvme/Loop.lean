import LockdepSpdk.Lib.Monitor
import LockdepSpdk.Nvme.Manager

/-!
# The thread of the NVMe manager

`try_get`, the loop of `dpdk_thread` and `~NVMEManager`, one operation on `lock`, on
`probe_queue_lock`, on `probe_queue_cond` or under them at a time. A `ProbeContext` is
a local of its call, and `probe_queue` holds pointers to them.
-/

namespace LockdepSpdk.Nvme

set_option autoImplicit false

open Function Monitor

inductive Party (K : Type) where
  | caller (k : K)
  | dpdk
  | destructor
  deriving DecidableEq

inductive Point (K Trid : Type) where
  | out
  /-- `try_get`. -/
  | lock (trid : Trid)
  | look (trid : Trid)
  | lockQueue
  | push
  | notify
  | unlockQueue
  | reply
  /-- The loops of `try_get` and of the thread, and their waits. -/
  | test
  | sleep
  | asleep
  | relock
  /-- The rest of the thread. -/
  | init
  | start
  | take
  | probe (k : K)
  | notifyDone
  | drain
  | notifyEnd
  | unlockEnd
  | ended
  /-- `~NVMEManager`. -/
  | lockStop
  | stop
  | notifyStop
  | unlockStop
  | join
  deriving DecidableEq

/-- The manager with the threads inside it. -/
structure Live (K Trid Ctrlr Ns : Type) where
  lock : Option K
  queueLock : Option (Party K)
  sharedDriverDatas : List (Driver Trid Ctrlr Ns)
  /-- `dpdk_thread` is joinable, with the `trid` its lambda has captured. -/
  dpdkThread : Option Trid
  stopping : Bool
  probeQueue : List K
  ctxs : K → Option (Context Trid Ctrlr Ns)
  point : Party K → Point K Trid
  returned : List (Trid × Driver Trid Ctrlr Ns)

/-- Why a step is not taken: the thread follows a pointer to a context that is gone, the manager
has been destroyed, or what `Halt` says. -/
inductive Fault where
  | dangling
  | destroyed
  | halt (h : Halt)
  deriving DecidableEq

inductive Move (K Trid Ctrlr : Type) where
  | call (k : K) (trid : Trid)
  | destroy
  /-- A step; a probe comes to `o`. -/
  | step (p : Party K) (o : Outcome Trid Ctrlr)
  /-- A wake-up that nobody notified. -/
  | spurious (p : Party K)

section Steps
variable {K Trid Ctrlr Ns : Type} [DecidableEq K] [DecidableEq Trid]

namespace Live
variable (s : Live K Trid Ctrlr Ns) (p : Party K) (q : Point K Trid)

def goto : Live K Trid Ctrlr Ns := { s with point := update s.point p q }

/-- The lock of the queue is taken, when it is free. -/
def acquire : Except Fault (Live K Trid Ctrlr Ns) :=
  match s.queueLock with
  | none => .ok { s with queueLock := some p, point := update s.point p q }
  | some _ => .error (.halt .waits)

def release : Live K Trid Ctrlr Ns := { s with queueLock := none, point := update s.point p q }

def notifyAll : Live K Trid Ctrlr Ns :=
  { s with point := update (Monitor.notifyAll .asleep .relock s.point) p q }

/-- What the callbacks of a probe work on. -/
def manager : Manager K Trid Ctrlr Ns where
  lock := s.lock
  sharedDriverDatas := s.sharedDriverDatas
  dpdkThread := s.dpdkThread
  probeQueue := s.probeQueue
  calls := s.ctxs
  returned := s.returned

end Live

/-- A look for the driver, with `lock`; without it, the thread is started if it is not there. -/
def stepLook (sp : Spdk Trid Ctrlr Ns) (s : Live K Trid Ctrlr Ns) (k : K) (trid : Trid) :
    Live K Trid Ctrlr Ns :=
  match s.sharedDriverDatas.find? fun d => d.isEqual sp trid with
  | some d => { s.goto (.caller k) .out with lock := none, returned := (trid, d) :: s.returned }
  | none =>
    if ∀ r ∈ findFirstBitset coremaskArg, r ≤ 0 then
      { s.goto (.caller k) .out with lock := none }
    else
      let s' := { s with ctxs := update s.ctxs k (some ⟨trid, none, false⟩) }
      match s.dpdkThread with
      | none =>
        ({ s' with dpdkThread := some trid }.goto .dpdk .init).goto (.caller k) .lockQueue
      | some _ => s'.goto (.caller k) .lockQueue

def stepCaller (sp : Spdk Trid Ctrlr Ns) (s : Live K Trid Ctrlr Ns) (k : K) :
    Point K Trid → Except Fault (Live K Trid Ctrlr Ns)
  | .lock trid =>
    match s.lock with
    | none => .ok { s.goto (.caller k) (.look trid) with lock := some k }
    | some _ => .error (.halt .waits)
  | .look trid => .ok (stepLook sp s k trid)
  | .lockQueue => s.acquire (.caller k) .push
  | .push => .ok { s.goto (.caller k) .notify with probeQueue := s.probeQueue ++ [k] }
  | .notify => .ok (s.notifyAll (.caller k) .test)
  | .test =>
    match s.ctxs k with
    | none => .error .dangling
    | some ctx => .ok (s.goto (.caller k) (if ctx.done then .unlockQueue else .sleep))
  | .sleep => .ok (s.release (.caller k) .asleep)
  | .asleep => .error (.halt .waits)
  | .relock => s.acquire (.caller k) .test
  | .unlockQueue => .ok (s.release (.caller k) .reply)
  | .reply =>
    match s.ctxs k with
    | none => .error .dangling
    | some ctx =>
      let s' := { s.goto (.caller k) .out with lock := none, ctxs := update s.ctxs k none }
      match ctx.driver with
      | none => .ok s'
      | some d => .ok { s' with returned := (ctx.trid, d) :: s.returned }
  | _ => .error (.halt .disabled)

/-- `p->done = true`, for one context of the queue after the other. -/
def drainQueue (ctxs : K → Option (Context Trid Ctrlr Ns)) :
    List K → Except Fault (K → Option (Context Trid Ctrlr Ns))
  | [] => .ok ctxs
  | k :: rest =>
    match ctxs k with
    | none => .error .dangling
    | some ctx => drainQueue (update ctxs k (some { ctx with done := true })) rest

def stepDpdk (sp : Spdk Trid Ctrlr Ns) (s : Live K Trid Ctrlr Ns) (o : Outcome Trid Ctrlr) :
    Point K Trid → Except Fault (Live K Trid Ctrlr Ns)
  | .init => .ok (s.goto .dpdk .start)
  | .start => s.acquire .dpdk .test
  | .test =>
    .ok (s.goto .dpdk (if s.stopping then .drain else if s.probeQueue = [] then .sleep else .take))
  | .take =>
    match s.probeQueue with
    | [] => .error .dangling
    | k :: rest => .ok { s.goto .dpdk (.probe k) with probeQueue := rest }
  | .probe k =>
    match s.ctxs k with
    | none => .error .dangling
    | some ctx =>
      match nvmeProbe sp s.manager ctx o with
      | .error h => .error (.halt h)
      | .ok (m, ctx') =>
        if o.rc < 0 ∧ ctx'.driver.isSome = true then .error (.halt .abort)
        else .ok { s.goto .dpdk .notifyDone with
          sharedDriverDatas := m.sharedDriverDatas
          ctxs := update s.ctxs k (some { ctx' with done := true }) }
  | .notifyDone => .ok (s.notifyAll .dpdk .test)
  | .sleep => .ok (s.release .dpdk .asleep)
  | .asleep => .error (.halt .waits)
  | .relock => s.acquire .dpdk .test
  | .drain =>
    match drainQueue s.ctxs s.probeQueue with
    | .error e => .error e
    | .ok ctxs => .ok { s.goto .dpdk .notifyEnd with ctxs := ctxs }
  | .notifyEnd => .ok (s.notifyAll .dpdk .unlockEnd)
  | .unlockEnd => .ok (s.release .dpdk .ended)
  | _ => .error (.halt .disabled)

def stepDestructor (s : Live K Trid Ctrlr Ns) :
    Point K Trid → Except Fault (Live K Trid Ctrlr Ns)
  | .lockStop => s.acquire .destructor .stop
  | .stop => .ok { s.goto .destructor .notifyStop with stopping := true }
  | .notifyStop => .ok (s.notifyAll .destructor .unlockStop)
  | .unlockStop => .ok (s.release .destructor .join)
  | .join =>
    if s.point .dpdk = .ended then .ok { s.goto .destructor .ended with dpdkThread := none }
    else .error (.halt .waits)
  | _ => .error (.halt .disabled)

def Live.exec (sp : Spdk Trid Ctrlr Ns) (s : Live K Trid Ctrlr Ns) :
    Move K Trid Ctrlr → Except Fault (Live K Trid Ctrlr Ns)
  | .call k trid =>
    if s.point .destructor = .ended then .error .destroyed
    else if s.point (.caller k) = .out then .ok (s.goto (.caller k) (.lock trid))
    else .error (.halt .disabled)
  | .destroy =>
    if s.point .destructor = .out then
      .ok (s.goto .destructor (if s.dpdkThread = none then .ended else .lockStop))
    else .error (.halt .disabled)
  | .step (.caller k) _ =>
    if s.point .destructor = .ended then .error .destroyed
    else stepCaller sp s k (s.point (.caller k))
  | .step .dpdk o => stepDpdk sp s o (s.point .dpdk)
  | .step .destructor _ => stepDestructor s (s.point .destructor)
  | .spurious p =>
    if s.point p = .asleep then .ok (s.goto p .relock) else .error (.halt .disabled)

/-- What SPDK makes of the argument that the thread passes. -/
def Live.Probes (sp : Spdk Trid Ctrlr Ns) (s : Live K Trid Ctrlr Ns) : Move K Trid Ctrlr → Prop
  | .step .dpdk o => ∀ captured ∈ s.dpdkThread, o.Of sp (probeArg sp captured)
  | _ => True

def Live.Step (sp : Spdk Trid Ctrlr Ns) (s : Live K Trid Ctrlr Ns) (a : Move K Trid Ctrlr)
    (s' : Live K Trid Ctrlr Ns) : Prop := s.Probes sp a ∧ s.exec sp a = .ok s'

def Live.begin : Live K Trid Ctrlr Ns where
  lock := none
  queueLock := none
  sharedDriverDatas := []
  dpdkThread := none
  stopping := false
  probeQueue := []
  ctxs := fun _ => none
  point := fun _ => .out
  returned := []

end Steps

end LockdepSpdk.Nvme
