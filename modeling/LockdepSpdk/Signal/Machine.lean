import LockdepSpdk.Lib.Transition

/-!
# AsyncSignalHandler and its hook

One signal number: its disposition, its entry of `handlers`, the hooks that run on the
threads it is delivered to, and the thread that registers and unregisters. A step is
one system call or one access to the entry or to a `safe_handler`.
-/

namespace LockdepSpdk.Signal

set_option autoImplicit false

open Function

/-- A `safe_handler`; `I` is `siginfo_t` and `H` is `signal_handler_t`. -/
structure SafeHandler (H I : Type) where
  /-- `none` is the zeroed `info_t` of the constructor. -/
  info : Option I
  handler : H
  /-- The bytes in the pipe, and whether its two ends are open. -/
  bytes : Nat
  readEnd : Bool
  writeEnd : Bool

/-- `handler_signal_hook` and `queue_signal_info`. Every use of `handlers[signum]` reads it. -/
inductive HookPoint where
  | enter
  | assertEntry
  | readInfo
  | copy (h : Nat)
  | readPipe
  | write (h : Nat)
  | leave
  deriving DecidableEq

structure Hook (I : Type) where
  siginfo : I
  point : HookPoint

inductive RegPoint (H : Type) where
  /-- `register_handler`. -/
  | create (handler : H) (oneshot : Bool)
  | fill (h : Nat) (oneshot : Bool)
  | signalThread (oneshot : Bool)
  | install (oneshot : Bool)
  /-- `unregister_handler`. -/
  | find (handler : H)
  | restore (h : Nat)
  | clear (h : Nat)
  | closeRead (h : Nat)
  | closeWrite (h : Nat)
  | delete (h : Nat)

structure Sys (T H I : Type) where
  /-- The hook is installed, with `SA_RESETHAND` or not. -/
  disposition : Option Bool
  /-- `handlers[signum]`. -/
  entry : Option Nat
  objs : Nat → Option (SafeHandler H I)
  fresh : Nat
  /-- What `unregister_handler` took out of `handlers`. -/
  removed : List Nat
  hooks : T → Option (Hook I)
  reg : Option (RegPoint H)

/-- Why a step is not taken: the hook finds `handlers[signum]` NULL, or uses a `safe_handler` that
was removed; another assert fails; or there is nothing to run. -/
inductive Halt where
  | null
  | removed
  | assert
  | disabled
  deriving DecidableEq

section Steps
variable {T H I : Type}

def readEntry (s : Sys T H I) : Except Halt Nat :=
  match s.entry with
  | some h => .ok h
  | none => .error .null

def modify (s : Sys T H I) (h : Nat) (f : SafeHandler H I → SafeHandler H I) :
    Except Halt (Sys T H I) :=
  if h ∈ s.removed then .error .removed
  else
    match s.objs h with
    | some o => .ok { s with objs := update s.objs h (some (f o)) }
    | none => .error .removed

def stepHook (s : Sys T H I) (siginfo : I) : HookPoint → Except Halt (Sys T H I × HookPoint)
  | .enter => .ok (s, .assertEntry)
  | .assertEntry => do
    let _ ← readEntry s
    .ok (s, .readInfo)
  | .readInfo => do
    let h ← readEntry s
    .ok (s, .copy h)
  | .copy h => do
    let s' ← modify s h fun o => { o with info := some siginfo }
    .ok (s', .readPipe)
  | .readPipe => do
    let h ← readEntry s
    .ok (s, .write h)
  | .write h => do
    let s' ← modify s h fun o => { o with bytes := o.bytes + 1 }
    .ok (s', .leave)
  | .leave => .error .disabled

variable [DecidableEq H]

def stepReg (s : Sys T H I) : RegPoint H → Except Halt (Sys T H I)
  | .create handler oneshot =>
    .ok { s with objs := update s.objs s.fresh (some ⟨none, handler, 0, true, true⟩),
                 fresh := s.fresh + 1, reg := some (.fill s.fresh oneshot) }
  -- `handlers` is written under `lock`, which the hook does not take.
  | .fill h oneshot => .ok { s with entry := some h, reg := some (.signalThread oneshot) }
  | .signalThread oneshot => .ok { s with reg := some (.install oneshot) }
  | .install oneshot => .ok { s with disposition := some oneshot, reg := none }
  | .find handler =>
    match s.entry with
    | none => .error .assert
    | some h =>
      match s.objs h with
      | none => .error .removed
      | some o =>
        if o.handler = handler then .ok { s with reg := some (.restore h) } else .error .assert
  | .restore h => .ok { s with disposition := none, reg := some (.clear h) }
  | .clear h => .ok { s with entry := none, removed := h :: s.removed, reg := some (.closeRead h) }
  | .closeRead h =>
    .ok { s with objs := update s.objs h ((s.objs h).map fun o => { o with readEnd := false }),
                 reg := some (.closeWrite h) }
  | .closeWrite h =>
    .ok { s with objs := update s.objs h ((s.objs h).map fun o => { o with writeEnd := false }),
                 reg := some (.delete h) }
  | .delete h => .ok { s with objs := update s.objs h none, reg := none }

inductive Act (T H I : Type) where
  /-- The signal reaches a thread. All signals are masked in the hook. -/
  | deliver (t : T) (siginfo : I)
  | hook (t : T)
  /-- The end of a hook. -/
  | resume (t : T)
  | register (handler : H) (oneshot : Bool)
  | unregister (handler : H)
  | step

variable [DecidableEq T]

/-- A hook on the registering thread `r` interrupts it. -/
def exec (r : T) (s : Sys T H I) : Act T H I → Except Halt (Sys T H I)
  | .deliver t siginfo =>
    match s.disposition, s.hooks t with
    | some oneshot, none =>
      .ok { s with disposition := if oneshot then none else some false,
                   hooks := update s.hooks t (some ⟨siginfo, .enter⟩) }
    | _, _ => .error .disabled
  | .hook t =>
    match s.hooks t with
    | none => .error .disabled
    | some k => do
      let (s', p) ← stepHook s k.siginfo k.point
      .ok { s' with hooks := update s'.hooks t (some { k with point := p }) }
  | .resume t =>
    match s.hooks t with
    | some ⟨_, .leave⟩ => .ok { s with hooks := update s.hooks t none }
    | _ => .error .disabled
  | .register handler oneshot =>
    match s.hooks r, s.reg with
    | none, none => .ok { s with reg := some (.create handler oneshot) }
    | _, _ => .error .disabled
  | .unregister handler =>
    match s.hooks r, s.reg with
    | none, none => .ok { s with reg := some (.find handler) }
    | _, _ => .error .disabled
  | .step =>
    match s.hooks r, s.reg with
    | none, some p => stepReg s p
    | _, _ => .error .disabled

def Step (r : T) (s : Sys T H I) (a : Act T H I) (s' : Sys T H I) : Prop := exec r s a = .ok s'

def start : Sys T H I := ⟨none, none, fun _ => none, 0, [], fun _ => none, none⟩

end Steps

def HookPoint.endangered (h : Nat) : HookPoint → Bool
  | .enter | .assertEntry | .readInfo | .copy _ | .readPipe => true
  | .write h' => h' == h
  | .leave => false

/-- No hook needs the entry that `unregister_handler` clears. -/
def Spares {T H I : Type} (s : Sys T H I) : Act T H I → Prop
  | .step => ∀ h, s.reg = some (.clear h) → ∀ t k, s.hooks t = some k →
      k.point.endangered h = false
  | _ => True

end LockdepSpdk.Signal
