import LockdepSpdk.Signal.Hooks

/-!
# The polling loop of AsyncSignalHandler

`entry` with all its handlers. A step of the thread is one system call, one access to
a `safe_handler`, or one turn of the loop over the signals, which runs under `lock`.
-/

namespace LockdepSpdk.Signal

set_option autoImplicit false

open Function Transition

/-- The fields of a `siginfo_t` that the report reads. -/
inductive Field where
  | code
  | pid
  | uid
  | valueInt
  | valuePtr
  | errno
  | addr
  | status
  deriving DecidableEq, Repr

structure Siginfo where
  code : Int
  pid : Int
  uid : Int
  valueInt : Int
  valuePtr : Int
  errno : Int
  addr : Int
  status : Int
  deriving DecidableEq, Repr

def Siginfo.get (i : Siginfo) : Field → Int
  | .code => i.code
  | .pid => i.pid
  | .uid => i.uid
  | .valueInt => i.valueInt
  | .valuePtr => i.valuePtr
  | .errno => i.errno
  | .addr => i.addr
  | .status => i.status

def Siginfo.zero : Siginfo := ⟨0, 0, 0, 0, 0, 0, 0, 0⟩

def siUser : Int := 0

/-- Where the report is: before the `switch`, at the name of the process, at the test of the pid,
or in a row of fields. -/
inductive Look where
  | switch
  | name
  | testPid
  | row (fs : List Field)
  deriving DecidableEq

def Look.field : Look → Option Field
  | .switch => some .code
  | .name => some .pid
  | .testPid => some .pid
  | .row fs => fs.head?

def Look.after (v : Int) : Look → Look
  | .switch =>
    if v = siUser then .name
    else .row [.code, .valueInt, .valuePtr, .errno, .pid, .uid, .addr, .status]
  | .name => .testPid
  | .testPid => .row (if v ≠ 0 then [.pid, .uid] else [.uid])
  | .row fs => .row fs.tail

abbrev Reads := List (Field × Int)

inductive EntryPoint where
  | test
  | build
  | poll
  | polled (r : Int)
  | consume
  | scan (signum : Nat)
  /-- A byte of `signum` is read, and its handler is to be called after the report. -/
  | report (signum h : Nat) (look : Look) (seen : Reads)
  | ended
  deriving DecidableEq

def EntryPoint.holds : EntryPoint → Bool
  | .scan _ | .report _ _ _ _ => true
  | _ => false

structure Async (T H : Type) where
  sigs : Nat → Sys T H Siginfo
  stop : Bool
  /-- The bytes in the pipe of the `AsyncSignalHandler` itself. -/
  kicks : Nat
  point : EntryPoint
  /-- What was queued for a signal and what was dispatched, the oldest first; nothing in the
  program reads these. -/
  queued : Nat → List Siginfo
  dispatched : Nat → List Reads

inductive AsyncAct (T H : Type) where
  | signal (signum : Nat) (a : Act T H Siginfo)
  /-- A step of the thread; `poll` answers `r`. -/
  | turn (r : Int)
  | shutdown

section Steps
variable {T H : Type}

/-- A turn of the loop over the signals, in which at most one byte is read. -/
def scanSignal (s : Async T H) (signum : Nat) : Except Halt (Async T H) :=
  if signum < 32 then
    match (s.sigs signum).entry with
    | none => .ok { s with point := .scan (signum + 1) }
    | some h =>
      match (s.sigs signum).objs h with
      | none => .error .removed
      | some o =>
        if 0 < o.bytes then
          .ok { s with
            sigs := update s.sigs signum { s.sigs signum with
              objs := update (s.sigs signum).objs h (some { o with bytes := o.bytes - 1 }) }
            point := .report signum h .switch [] }
        else .ok { s with point := .scan (signum + 1) }
  else .ok { s with point := .test }

def reportSignal (s : Async T H) (signum h : Nat) (look : Look) (seen : Reads) :
    Except Halt (Async T H) :=
  match look.field with
  | some f =>
    match (s.sigs signum).objs h with
    | none => .error .removed
    | some o =>
      let v := (o.info.getD .zero).get f
      .ok { s with point := .report signum h (look.after v) (seen ++ [(f, v)]) }
  | none =>
    .ok { s with
      point := .scan (signum + 1)
      dispatched := update s.dispatched signum (s.dispatched signum ++ [seen]) }

def stepEntry (s : Async T H) (r : Int) : EntryPoint → Except Halt (Async T H)
  | .test => .ok { s with point := if s.stop then .ended else .build }
  | .build => .ok { s with point := .poll }
  | .poll => .ok { s with point := .polled r }
  | .polled r =>
    .ok { s with point := if s.stop then .ended else if 0 < r then .consume else .test }
  | .consume => .ok { s with kicks := s.kicks - 1, point := .scan 0 }
  | .scan signum => scanSignal s signum
  | .report signum h look seen => reportSignal s signum h look seen
  | .ended => .error .disabled

def RegPoint.locks : RegPoint H → Bool
  | .fill _ _ | .clear _ => true
  | _ => false

def queueing (s : Sys T H Siginfo) : Act T H Siginfo → List Siginfo
  | .hook t =>
    match s.hooks t with
    | some ⟨i, .write _⟩ => [i]
    | _ => []
  | _ => []

def kicking (s : Sys T H Siginfo) : Act T H Siginfo → Bool
  | .step =>
    match s.reg with
    | some (.signalThread _) => true
    | _ => false
  | _ => false

/-- Signals are masked while a hook runs on the thread, and `lock` may be taken. -/
def admits (s : Async T H) (signum : Nat) : Act T H Siginfo → Bool
  | .deliver t _ => (List.range 32).all fun m => ((s.sigs m).hooks t).isNone
  | .step => !(s.point.holds && (s.sigs signum).reg.any RegPoint.locks)
  | _ => true

variable [DecidableEq T] [DecidableEq H]

/-- A hook on the polling thread `e` interrupts it, one on `r` the registering thread. -/
def execAsync (r e : T) (s : Async T H) : AsyncAct T H → Except Halt (Async T H)
  | .signal signum a =>
    if signum < 32 ∧ admits s signum a = true then do
      let u ← exec r (s.sigs signum) a
      .ok { s with
        sigs := update s.sigs signum u
        kicks := if kicking (s.sigs signum) a then s.kicks + 1 else s.kicks
        queued := update s.queued signum (s.queued signum ++ queueing (s.sigs signum) a) }
    else .error .disabled
  | .turn x =>
    if (List.range 32).all fun m => ((s.sigs m).hooks e).isNone then stepEntry s x s.point
    else .error .disabled
  | .shutdown => .ok { s with stop := true, kicks := s.kicks + 1 }

def StepAsync (r e : T) (s : Async T H) (a : AsyncAct T H) (s' : Async T H) : Prop :=
  execAsync r e s a = .ok s'

def startAsync : Async T H :=
  ⟨fun _ => start, false, 0, .test, fun _ => [], fun _ => []⟩

end Steps

end LockdepSpdk.Signal
