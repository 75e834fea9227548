import LockdepSpdk.Blk.Device
import LockdepSpdk.Lib.Interleaving

/-!
# Threads on one device

`NVMEDevice` is shared, its queues are `thread_local`: each thread has a queue, tasks
and contexts of its own, and the threads meet in the bytes of the device and of the
memory. Most of a thread's steps do not look at either.
-/

namespace LockdepSpdk.Blk

set_option autoImplicit false

open Function ByteRange Interleaving

/-- A byte of the device or of the memory. -/
inductive Place where
  | disk (a : Nat)
  | mem (a : Nat)
  deriving DecidableEq

def Place.address : Place → Nat
  | .disk a => a
  | .mem a => a

def bytes (disk mem : Nat → UInt8) : Place → UInt8
  | .disk a => disk a
  | .mem a => mem a

def Sys.store (s : Sys) : Place → UInt8 := bytes s.disk s.mem

/-- The thread on other bytes. -/
def Sys.over (s : Sys) (m : Place → UInt8) : Sys :=
  { s with disk := fun a => m (.disk a), mem := fun a => m (.mem a) }

@[simp] theorem Sys.over_over (s : Sys) (m n : Place → UInt8) : (s.over m).over n = s.over n := rfl

@[simp] theorem Sys.over_store (s : Sys) : s.over s.store = s := rfl

@[simp] theorem Sys.store_over (s : Sys) (m : Place → UInt8) : (s.over m).store = m := by
  funext x
  cases x <;> rfl

/-! Steps that do not look at the bytes. -/

abbrev onto (m : Place → UInt8) (r : Except Fault Sys) : Except Fault Sys := r.map fun s => s.over m

def Blind (f : Sys → Except Fault Sys) : Prop := ∀ s m, f (s.over m) = onto m (f s)

theorem Blind.store {f : Sys → Except Fault Sys} (h : Blind f) {s s' : Sys} (hs : f s = .ok s') :
    s'.store = s.store := by
  have hself := h s s.store
  rw [Sys.over_store, hs] at hself
  have heq : s' = s'.over s.store := Except.ok.inj hself
  rw [heq, Sys.store_over]

theorem Blind.bind {f g : Sys → Except Fault Sys} (hf : Blind f) (hg : Blind g) :
    Blind fun s => f s >>= g := by
  intro s m
  change f (s.over m) >>= g = onto m (f s >>= g)
  rw [hf s m]
  cases f s with
  | error e => rfl
  | ok u => exact hg u m

theorem Blind.foldlM {α : Type} {f : Sys → α → Except Fault Sys} (h : ∀ a, Blind fun s => f s a)
    (l : List α) : Blind fun s => l.foldlM f s := by
  induction l with
  | nil => exact fun _ _ => rfl
  | cons a l ih =>
    intro s m
    have hb := (h a).bind ih s m
    simpa only [List.foldlM_cons] using hb

section
variable {s : Sys} {m : Place → UInt8}

theorem newTask_over (s : Sys) (m : Place → UInt8) (command : IOCommand) (off len : Nat)
    (primary : Option TaskPtr) :
    newTask (s.over m) command off len primary =
      (newTask s command off len primary).map fun r => (r.1, r.2.over m) := by
  cases primary with
  | none => rfl
  | some q =>
    unfold newTask
    change (do let prim ← s.task q; _) = (do let prim ← s.task q; _ : Except Fault _).map _
    cases s.task q <;> rfl

theorem deleteTask_blind (p : TaskPtr) : Blind fun s => deleteTask s p := by
  intro s m
  cases p with
  | stack n => rfl
  | heap n =>
    change deleteTask (s.over m) (.heap n) = onto m (deleteTask s (.heap n))
    simp only [deleteTask]
    rw [show (s.over m).task (.heap n) = s.task (.heap n) from rfl]
    cases s.task (.heap n) with
    | error e => rfl
    | ok task =>
      simp only [Transition.ok_bind]
      cases task.primary with
      | none =>
        simp only
        split <;> rfl
      | some q =>
        simp only
        rw [show (s.over m).task q = s.task q from rfl]
        cases s.task q with
        | error e => rfl
        | ok prim =>
          simp only [Transition.ok_bind]
          split <;> rfl

theorem linkLast_blind (last : Option TaskPtr) (p : TaskPtr) : Blind fun s => linkLast s last p := by
  intro s m
  cases last with
  | none => rfl
  | some q =>
    simp only [linkLast]
    rw [show (s.over m).task q = s.task q from rfl]
    cases s.task q <;> rfl

theorem iocAppendTask_blind (c : CtxPtr) (p : TaskPtr) : Blind fun s => iocAppendTask s c p := by
  intro s m
  simp only [iocAppendTask]
  have hlink : linkLast (s.over m) (s.ctxs c).nvmeTaskLast p =
      onto m (linkLast s (s.ctxs c).nvmeTaskLast p) := linkLast_blind _ p s m
  rw [show (s.over m).ctxs c = s.ctxs c from rfl, hlink]
  cases linkLast s (s.ctxs c).nvmeTaskLast p <;> rfl

theorem releaseSegs_blind (p : TaskPtr) : Blind fun s => releaseSegs s p := by
  intro s m
  simp only [releaseSegs]
  rw [show (s.over m).task p = s.task p from rfl]
  cases s.task p with
  | error e => rfl
  | ok task =>
    simp only [Transition.ok_bind]
    cases task.ctx <;> rfl

theorem addWriteChunk_blind (ioc : CtxPtr) (c : WriteChunk) :
    Blind fun s => addWriteChunk ioc s c := by
  intro s m
  simp only [addWriteChunk]
  rw [newTask_over]
  cases newTask s .writeCommand c.off c.len none with
  | error e => rfl
  | ok r =>
    simp only [Except.map, Transition.ok_bind]
    rw [show (r.2.over m).task r.1 = r.2.task r.1 from rfl]
    cases r.2.task r.1 with
    | error e => rfl
    | ok task =>
      exact iocAppendTask_blind ioc r.1
        (r.2.setTask r.1 { task with buf := c.buf, ctx := some ioc }) m

theorem chunkTask_over (s : Sys) (m : Place → UInt8) (alignedLen : Nat) (primary : Option TaskPtr)
    (c : ReadChunk) :
    chunkTask (s.over m) alignedLen primary c =
      (chunkTask s alignedLen primary c).map fun r => (r.1, r.2.over m) := by
  unfold chunkTask
  cases primary with
  | none => exact newTask_over s m _ _ _ _
  | some q =>
    simp only
    split
    · rfl
    · exact newTask_over s m _ _ _ _

theorem addReadChunk_blind (ioc : CtxPtr) (alignedLen : Nat) (primary : Option TaskPtr)
    (c : ReadChunk) : Blind fun s => addReadChunk ioc alignedLen primary s c := by
  intro s m
  simp only [addReadChunk]
  rw [chunkTask_over]
  cases chunkTask s alignedLen primary c with
  | error e => rfl
  | ok r =>
    simp only [Except.map, Transition.ok_bind]
    rw [show (r.2.over m).task r.1 = r.2.task r.1 from rfl]
    cases r.2.task r.1 with
    | error e => rfl
    | ok task =>
      exact iocAppendTask_blind ioc r.1
        (r.2.setTask r.1 { task with ctx := some ioc, fillCb := some c.fill }) m

theorem writeSplit_blind (off len buf : Nat) (ioc : CtxPtr) :
    Blind fun s => writeSplit s off len buf ioc :=
  Blind.foldlM (addWriteChunk_blind ioc) _

theorem makeReadTasks_blind (alignedOff : Nat) (ioc : CtxPtr) (buf alignedLen : Nat)
    (primary : Option TaskPtr) (origOff origLen : Nat) :
    Blind fun s => makeReadTasks s alignedOff ioc buf alignedLen primary origOff origLen := by
  unfold makeReadTasks
  cases readChunks alignedOff buf alignedLen origOff origLen with
  | none => exact fun _ _ => rfl
  | some cs => exact Blind.foldlM (addReadChunk_blind ioc alignedLen primary) cs

theorem returnCall_blind : Blind returnCall := by
  intro s m
  simp only [returnCall]
  rw [show (s.over m).frame = s.frame from rfl]
  cases s.frame with
  | none => rfl
  | some q =>
    simp only
    rw [show (s.over m).task q = s.task q from rfl]
    cases s.task q with
    | error e => rfl
    | ok task =>
      simp only [Transition.ok_bind]
      split <;> rfl

theorem aioSubmit_blind (ioc : CtxPtr) : Blind fun s => aioSubmit s ioc := by
  intro s m
  simp only [aioSubmit]
  rw [show (s.over m).ctxs ioc = s.ctxs ioc from rfl]
  split
  · split <;> rfl
  · exact returnCall_blind s m

theorem readSync_blind (alignedOff alignedLen buf origOff origLen : Nat) :
    Blind fun s => readSync s alignedOff alignedLen buf origOff origLen := by
  intro s m
  simp only [readSync]
  change (makeReadTasks ((openContext (openFrame s alignedOff alignedLen).2).2.over m) alignedOff
      (.stack (s.fresh + 1)) buf alignedLen (some (.stack s.fresh)) origOff origLen >>= fun s3 =>
        aioSubmit s3 (.stack (s.fresh + 1))) =
    onto m (makeReadTasks (openContext (openFrame s alignedOff alignedLen).2).2 alignedOff
      (.stack (s.fresh + 1)) buf alignedLen (some (.stack s.fresh)) origOff origLen >>= fun s3 =>
        aioSubmit s3 (.stack (s.fresh + 1)))
  exact (makeReadTasks_blind _ _ _ _ _ _ _).bind (aioSubmit_blind _) _ m

theorem write_blind (cfg : Config) (off len buf : Nat) : Blind fun s => write cfg s off len buf := by
  intro s m
  simp only [write]
  split
  · change (writeSplit ((openContext s).2.over m) off len buf (.stack s.fresh) >>= fun s2 =>
      aioSubmit s2 (.stack s.fresh)) = onto m (writeSplit (openContext s).2 off len buf
        (.stack s.fresh) >>= fun s2 => aioSubmit s2 (.stack s.fresh))
    exact (writeSplit_blind _ _ _ _).bind (aioSubmit_blind _) _ m
  · rfl

theorem Call.exec_blind (cfg : Config) (c : Call) : Blind fun s => c.exec cfg s := by
  have hret : Blind fun s : Sys => .ok { s with ret := 0 } := fun _ _ => rfl
  cases c with
  | read off len buf =>
    intro s m
    simp only [Call.exec, Blk.read]
    split
    · exact readSync_blind _ _ _ _ _ s m
    · rfl
  | readRandom off len buf =>
    intro s m
    simp only [Call.exec, Blk.readRandom]
    split
    · exact readSync_blind _ _ _ _ _ s m
    · rfl
  | write off len buf => exact write_blind cfg off len buf
  | aioRead off len buf ioc =>
    intro s m
    simp only [Call.exec, Blk.aioRead]
    split
    · exact (makeReadTasks_blind _ _ _ _ _ _ _).bind hret s m
    · rfl
  | aioWrite off len buf ioc =>
    intro s m
    simp only [Call.exec, Blk.aioWrite]
    split
    · exact (writeSplit_blind _ _ _ _).bind hret s m
    · rfl
  | aioSubmit ioc => exact aioSubmit_blind _

theorem submitted_blind (p : TaskPtr) : Blind fun s => submitted s p := by
  intro s m
  simp only [submitted]
  rw [show (s.over m).task p = s.task p from rfl]
  cases s.task p with
  | error e => rfl
  | ok task =>
    simp only [Transition.ok_bind]
    cases task.ctx <;> rfl

theorem sendCommand_blind (cfg : Config) (p : TaskPtr) (write : Bool) :
    Blind fun s => sendCommand cfg s p write := by
  intro s m
  simp only [sendCommand]
  rw [show (s.over m).task p = s.task p from rfl]
  cases s.task p with
  | error e => rfl
  | ok task =>
    simp only [Transition.ok_bind]
    cases enumerateSgl task <;> rfl

theorem finishOne_blind (c : CtxPtr) : Blind fun s => finishOne s c := by
  intro s m
  simp only [finishOne]
  rw [show (s.over m).ctxs c = s.ctxs c from rfl]
  cases (s.ctxs c).priv with
  | none =>
    simp only
    split <;> rfl
  | some n =>
    simp only
    split <;> rfl

theorem finishSync_blind (p : TaskPtr) (task : Task) (c : CtxPtr) :
    Blind fun s => finishSync s p task c := by
  intro s m
  simp only [finishSync]
  cases task.primary with
  | none => rfl
  | some q =>
    have hdelete : deleteTask (s.over m) p = onto m (deleteTask s p) := deleteTask_blind p s m
    simp only
    rw [hdelete]
    cases deleteTask s p with
    | error e => rfl
    | ok u =>
      simp only [onto, Except.map, Transition.ok_bind]
      rw [show (u.over m).task q = u.task q from rfl]
      cases u.task q with
      | error e => rfl
      | ok prim =>
        simp only [Transition.ok_bind]
        split <;> rfl

end

end LockdepSpdk.Blk
