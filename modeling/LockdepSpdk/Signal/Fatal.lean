import LockdepSpdk.Lib.Transition
import Mathlib.Data.List.Infix
import Mathlib.Logic.Function.Basic

/-!
# The oneshot handler of fatal signals

The threads of a process after `install_fatal_sighandlers`. The handlers are installed
with `SA_NODEFER`, so a thread has a stack of them; a step is one system call of the
topmost one, or the arrival of a signal.
-/

namespace LockdepSpdk.Fatal

set_option autoImplicit false

open Function Transition

/-- The signals of `install_fatal_sighandlers`. -/
inductive Signum where
  | sigsegv
  | sigabrt
  | sigbus
  | sigill
  | sigfpe
  | sigxcpu
  | sigxfsz
  | sigsys
  deriving DecidableEq

inductive Point (T : Type) where
  /-- `handle_oneshot_fatal_signal`. -/
  | exchange
  | compare (expected : T)
  | restore
  | banner
  | backtrace
  /-- `reraise_fatal`. -/
  | setDefault
  | raise
  | complain (failed : Bool)
  | exit (failed : Bool)
  | leave
  deriving DecidableEq

structure Frame (T : Type) where
  signum : Signum
  point : Point T
  deriving DecidableEq

/-- What goes to `dout_emergency`. -/
inductive Line (T : Type) where
  | banner (signum : Signum) (thread : T)
  | backtrace (thread : T)
  | failedRaise (signum : Signum)
  | survived (signum : Signum)
  deriving DecidableEq

inductive Death where
  | killed (signum : Signum)
  | exited (status : Int)
  deriving DecidableEq

structure Sys (T : Type) where
  /-- The disposition is `handle_oneshot_fatal_signal`; otherwise it is `SIG_DFL`. -/
  installed : Signum → Bool
  handlerTid : Option T
  /-- The handlers on each thread, the running one first. -/
  frames : T → List (Frame T)
  blocked : T → Signum → Bool
  err : List (Line T)
  ended : Option Death

inductive Act (T : Type) where
  /-- A signal sent to the process or to the thread. -/
  | deliver (t : T) (signum : Signum)
  /-- A signal the thread causes by what it executes. -/
  | fault (t : T) (signum : Signum)
  /-- The thread blocks or unblocks a signal; handlers do not. -/
  | mask (t : T) (signum : Signum) (block : Bool)
  /-- A step of the running handler; `sent` is whether `raise` succeeds. -/
  | turn (t : T) (sent : Bool)
  deriving DecidableEq

section Steps
variable {T : Type} [DecidableEq T]

namespace Sys

def stack (s : Sys T) (t : T) (fs : List (Frame T)) : Sys T :=
  { s with frames := update s.frames t fs }

def goto (s : Sys T) (t : T) (m : Signum) (below : List (Frame T)) (p : Point T) : Sys T :=
  s.stack t (⟨m, p⟩ :: below)

def setDefault (s : Sys T) (m : Signum) : Sys T := { s with installed := update s.installed m false }

def print (s : Sys T) (l : Line T) : Sys T := { s with err := s.err ++ [l] }

def die (s : Sys T) (d : Death) : Sys T := { s with ended := some d }

/-- A signal that is not blocked reaches a thread. -/
def arrive (s : Sys T) (t : T) (m : Signum) : Sys T :=
  if s.installed m then s.stack t (⟨m, .exchange⟩ :: s.frames t) else s.die (.killed m)

end Sys

def complaint (m : Signum) (failed : Bool) : Line T := if failed then .failedRaise m else .survived m

/-- A step of `handle_oneshot_fatal_signal` for `m`, the handlers `below` waiting for it. -/
def stepFrame (s : Sys T) (t : T) (m : Signum) (below : List (Frame T)) (sent : Bool) :
    Point T → Sys T
  | .exchange =>
    match s.handlerTid with
    | none => { s.goto t m below .banner with handlerTid := some t }
    | some u => s.goto t m below (.compare u)
  | .compare expected => s.goto t m below (if expected = t then .restore else .leave)
  | .restore => (s.goto t m below .leave).setDefault m
  | .banner => (s.goto t m below .backtrace).print (.banner m t)
  | .backtrace => (s.goto t m below .setDefault).print (.backtrace t)
  | .setDefault => (s.goto t m below .raise).setDefault m
  | .raise =>
    if sent then
      -- A blocked signal stays pending, and `raise` returns.
      if s.blocked t m then s.goto t m below (.complain false)
      else (s.goto t m below (.complain false)).arrive t m
    else s.goto t m below (.complain true)
  | .complain failed => (s.goto t m below (.exit failed)).print (complaint m failed)
  | .exit _ => s.die (.exited 1)
  | .leave => s.stack t below

/-- `none` where the process has ended or the step cannot be taken. -/
def exec (s : Sys T) (a : Act T) : Option (Sys T) :=
  if s.ended.isSome then none
  else
    match a with
    | .deliver t m => if s.blocked t m then none else some (s.arrive t m)
    -- The kernel does not let a thread block what it causes itself.
    | .fault t m => some (if s.blocked t m then s.die (.killed m) else s.arrive t m)
    | .mask t m b =>
      match s.frames t with
      | [] => some { s with blocked := update s.blocked t (update (s.blocked t) m b) }
      | _ :: _ => none
    | .turn t sent =>
      match s.frames t with
      | [] => none
      | f :: below => some (stepFrame s t f.signum below sent f.point)

def Step (s : Sys T) (a : Act T) (s' : Sys T) : Prop := exec s a = some s'

/-- `install_fatal_sighandlers` has run. -/
def start (blocked : T → Signum → Bool) : Sys T :=
  ⟨fun _ => true, none, fun _ => [], blocked, [], none⟩

end Steps

end LockdepSpdk.Fatal
