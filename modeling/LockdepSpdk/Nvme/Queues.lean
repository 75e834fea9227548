import LockdepSpdk.Nvme.Probe

/-!
# One queue for each thread

`NVMEDevice::open` takes its driver from the manager. `aio_submit` hands its tasks to a
`thread_local` queue, which was built from the device the thread submitted on first.
That it is the right queue for every later device rests on the manager having at most
one driver.
-/

namespace LockdepSpdk.Nvme

set_option autoImplicit false

open Function Transition

section System

/-- An `NVMEDevice` that `open` has set up. -/
structure Device (Trid Ctrlr Ns : Type) where
  driver : Driver Trid Ctrlr Ns
  blockSize : Nat
  size : Nat

/-- `SharedDriverQueueData`; `D` are the devices. -/
structure Queue (D Trid Ctrlr Ns : Type) where
  bdev : D
  driver : Driver Trid Ctrlr Ns
  ctrlr : Ctrlr
  ns : Ns
  blockSize : Nat
  maxQueueDepth : Nat

/-- The threads `T` open devices and submit on them. -/
structure Sys (T D Trid Ctrlr Ns : Type) where
  manager : Manager T Trid Ctrlr Ns
  /-- The device a thread is opening. -/
  opening : T → Option D
  devices : D → Option (Device Trid Ctrlr Ns)
  /-- `queue_t`. -/
  queues : T → Option (Queue D Trid Ctrlr Ns)

def roundDown (size blockSize : Nat) : Nat :=
  size &&& (2 ^ 64 - 1 - (blockSize + (2 ^ 64 - 1)) % 2 ^ 64)

variable {T D Trid Ctrlr Ns : Type} [DecidableEq T] [DecidableEq D]

def Sys.opened (s : Sys T D Trid Ctrlr Ns) (d : D) (r : Reply Trid Ctrlr Ns) :
    Sys T D Trid Ctrlr Ns :=
  if r.rc < 0 then s
  else
    match r.driver with
    | none => s
    | some dr =>
      let dev : Device Trid Ctrlr Ns := ⟨dr, dr.blockSize, roundDown dr.size dr.blockSize⟩
      { s with devices := update s.devices d (some dev) }

/-- The constructor of `queue_t`; `ioQueueSize` is that of the controller's default options, and
`alloc` whether SPDK gives it a queue pair and its buffers. -/
def newQueue (ioQueueSize : Ctrlr → Nat) (d : D) (dr : Driver Trid Ctrlr Ns) (alloc : Bool) :
    Except Halt (Queue D Trid Ctrlr Ns) :=
  if alloc then
    .ok ⟨d, dr, dr.ctrlr, dr.ns, dr.blockSize, (ioQueueSize dr.ctrlr + (2 ^ 32 - 1)) % 2 ^ 32⟩
  else .error .abort

/-- The queue that `aio_submit` hands its tasks to. -/
def queueFor (ioQueueSize : Ctrlr → Nat) (s : Sys T D Trid Ctrlr Ns) (t : T) (d : D)
    (dev : Device Trid Ctrlr Ns) (alloc : Bool) : Except Halt (Queue D Trid Ctrlr Ns) :=
  match s.queues t with
  | some q => .ok q
  | none => newQueue ioQueueSize d dev.driver alloc

inductive IoAct (T D Trid Ctrlr : Type) where
  | openDevice (t : T) (d : D) (trid : Trid)
  | serve (o : Outcome Trid Ctrlr)
  | finish (t : T)
  | aioSubmit (t : T) (d : D) (pending : Nat) (alloc : Bool)
  /-- A thread ends, and its `queue_t` with it. -/
  | exit (t : T)

def execIo (sp : Spdk Trid Ctrlr Ns) (ioQueueSize : Ctrlr → Nat) (s : Sys T D Trid Ctrlr Ns) :
    IoAct T D Trid Ctrlr → Except Halt (Sys T D Trid Ctrlr Ns)
  | .openDevice t d trid => do
    let (m, r) ← tryGet sp s.manager t trid
    match r with
    | some reply => .ok ({ s with manager := m }.opened d reply)
    | none => .ok { s with manager := m, opening := update s.opening t (some d) }
  | .serve o => do
    let m ← serve sp s.manager o
    .ok { s with manager := m }
  | .finish t =>
    match s.opening t with
    | none => .error .disabled
    | some d => do
      let (m, reply) ← finish s.manager t
      .ok ({ s with manager := m, opening := update s.opening t none }.opened d reply)
  | .aioSubmit t d pending alloc =>
    match s.devices d with
    | none => .error .disabled
    | some dev =>
      if pending = 0 then .ok s
      else do
        let q ← queueFor ioQueueSize s t d dev alloc
        .ok { s with queues := update s.queues t (some q) }
  | .exit t => .ok { s with queues := update s.queues t none }

def IoStep (sp : Spdk Trid Ctrlr Ns) (ioQueueSize : Ctrlr → Nat) (s : Sys T D Trid Ctrlr Ns)
    (a : IoAct T D Trid Ctrlr) (s' : Sys T D Trid Ctrlr Ns) : Prop :=
  execIo sp ioQueueSize s a = .ok s'

def Sys.start : Sys T D Trid Ctrlr Ns where
  manager := Manager.start
  opening := fun _ => none
  devices := fun _ => none
  queues := fun _ => none

end System

section Inv
variable {T D Trid Ctrlr Ns : Type} [DecidableEq T]

/-! Drivers stay, and a reply's driver is one of them. -/

theorem tryGet_drivers {sp : Spdk Trid Ctrlr Ns} {m m' : Manager T Trid Ctrlr Ns} {t : T}
    {trid : Trid} {r : Option (Reply Trid Ctrlr Ns)} (h : tryGet sp m t trid = .ok (m', r)) :
    m'.sharedDriverDatas = m.sharedDriverDatas ∧
      ∀ reply ∈ r, ∀ d ∈ reply.driver, d ∈ m.sharedDriverDatas := by
  obtain ⟨_, _, ⟨d, hd, rfl, rfl⟩ | ⟨_, rfl, rfl⟩⟩ := tryGet_cases h
  · refine ⟨rfl, ?_⟩
    intro reply hreply d' hd'
    obtain rfl := Option.some.inj hreply
    obtain rfl := Option.some.inj hd'
    exact List.mem_of_find?_eq_some hd
  · exact ⟨rfl, nofun⟩

theorem finish_drivers {sp : Spdk Trid Ctrlr Ns} {m m' : Manager T Trid Ctrlr Ns} {t : T}
    {reply : Reply Trid Ctrlr Ns} (hinv : Inv sp m) (h : finish m t = .ok (m', reply)) :
    m'.sharedDriverDatas = m.sharedDriverDatas ∧
      ∀ d ∈ reply.driver, d ∈ m.sharedDriverDatas := by
  obtain ⟨ctx, hctx, _, ⟨_, rfl, rfl⟩ | ⟨d, hd, rfl, rfl⟩⟩ := finish_cases h
  · exact ⟨rfl, nofun⟩
  · refine ⟨rfl, ?_⟩
    intro d' hd'
    obtain rfl := Option.some.inj hd'
    exact (hinv.attached t ctx d hctx hd).1

structure Queue.Drives (q : Queue D Trid Ctrlr Ns) (dr : Driver Trid Ctrlr Ns) : Prop where
  driver : q.driver = dr
  ctrlr : q.ctrlr = dr.ctrlr
  ns : q.ns = dr.ns
  blockSize : q.blockSize = dr.blockSize

/-- Devices and queues have their drivers from the manager. -/
structure SysInv (sp : Spdk Trid Ctrlr Ns) (s : Sys T D Trid Ctrlr Ns) : Prop where
  manager : Inv sp s.manager
  devices : ∀ d dev, s.devices d = some dev →
    dev.driver ∈ s.manager.sharedDriverDatas ∧ dev.blockSize = dev.driver.blockSize
  queues : ∀ t q, s.queues t = some q → ∃ dr ∈ s.manager.sharedDriverDatas, q.Drives dr

variable {sp : Spdk Trid Ctrlr Ns} {ioQueueSize : Ctrlr → Nat} {s s' : Sys T D Trid Ctrlr Ns}

omit [DecidableEq T] in
theorem SysInv.manage {m : Manager T Trid Ctrlr Ns} {op : T → Option D} (h : SysInv sp s)
    (hm : Inv sp m) (hkeep : ∀ d ∈ s.manager.sharedDriverDatas, d ∈ m.sharedDriverDatas) :
    SysInv sp ⟨m, op, s.devices, s.queues⟩ := by
  refine ⟨hm, ?_, ?_⟩
  · intro d dev hd
    obtain ⟨hmem, hsize⟩ := h.devices d dev hd
    exact ⟨hkeep _ hmem, hsize⟩
  · intro t q hq
    obtain ⟨dr, hmem, hdrives⟩ := h.queues t q hq
    exact ⟨dr, hkeep dr hmem, hdrives⟩

omit [DecidableEq T] in
theorem Inv.driver_eq {m : Manager T Trid Ctrlr Ns} (h : Inv sp m) {d d' : Driver Trid Ctrlr Ns}
    (hd : d ∈ m.sharedDriverDatas) (hd' : d' ∈ m.sharedDriverDatas) : d = d' := by
  obtain ⟨d0, h0⟩ := List.length_eq_one_iff.mp
    (Nat.le_antisymm h.short (List.length_pos_of_mem hd))
  rw [h0] at hd hd'
  rw [List.mem_singleton.mp hd, List.mem_singleton.mp hd']

variable [DecidableEq D]

omit [DecidableEq T] in
theorem SysInv.opened {d : D} {reply : Reply Trid Ctrlr Ns} (h : SysInv sp s)
    (hr : ∀ dr ∈ reply.driver, dr ∈ s.manager.sharedDriverDatas) :
    SysInv sp (s.opened d reply) := by
  unfold Sys.opened
  split
  · exact h
  · split
    · exact h
    · next dr hdr =>
      refine ⟨h.manager, ?_, h.queues⟩
      intro d' dev hd'
      change update s.devices d _ d' = some dev at hd'
      by_cases hdd : d' = d
      · rw [hdd, update_self] at hd'
        obtain rfl := Option.some.inj hd'
        exact ⟨hr dr hdr, rfl⟩
      · rw [update_of_ne hdd] at hd'
        exact h.devices d' dev hd'

omit [DecidableEq T] [DecidableEq D] in
theorem SysInv.queueFor {t : T} {d : D} {dev : Device Trid Ctrlr Ns} {alloc : Bool}
    {q : Queue D Trid Ctrlr Ns} (h : SysInv sp s) (hdev : s.devices d = some dev)
    (hq : queueFor ioQueueSize s t d dev alloc = .ok q) : q.Drives dev.driver := by
  have hmem := (h.devices d dev hdev).1
  unfold Nvme.queueFor at hq
  split at hq
  · next q0 hq0 =>
    -- the queue was built from another device, maybe
    obtain rfl := Except.ok.inj hq
    obtain ⟨dr, hdr, hdrives⟩ := h.queues t q0 hq0
    rw [h.manager.driver_eq hmem hdr]
    exact hdrives
  · unfold newQueue at hq
    split at hq
    · obtain rfl := Except.ok.inj hq
      exact ⟨rfl, rfl, rfl, rfl⟩
    · cases hq

theorem SysInv.step {a : IoAct T D Trid Ctrlr} (h : SysInv sp s)
    (hstep : IoStep sp ioQueueSize s a s') : SysInv sp s' := by
  unfold IoStep at hstep
  cases a with
  | openDevice t d trid =>
    obtain ⟨⟨m, r⟩, hget, hrest⟩ := bind_ok hstep
    obtain ⟨hsame, hdriver⟩ := tryGet_drivers hget
    have hm := h.manager.tryGet hget
    have hkeep : ∀ x ∈ s.manager.sharedDriverDatas, x ∈ m.sharedDriverDatas := by
      rw [hsame]
      exact fun x hx => hx
    cases r with
    | none =>
      obtain rfl := Except.ok.inj hrest
      exact h.manage hm hkeep
    | some reply =>
      obtain rfl := Except.ok.inj hrest
      apply SysInv.opened (h.manage hm hkeep)
      intro dr hdr
      exact hkeep dr (hdriver reply rfl dr hdr)
  | serve o =>
    obtain ⟨m, hserve, hrest⟩ := bind_ok hstep
    obtain rfl := Except.ok.inj hrest
    exact h.manage (h.manager.serve hserve) (serve_drivers hserve)
  | finish t =>
    simp only [execIo] at hstep
    split at hstep
    · cases hstep
    · next d hd =>
      obtain ⟨⟨m, reply⟩, hfin, hrest⟩ := bind_ok hstep
      obtain rfl := Except.ok.inj hrest
      obtain ⟨hsame, hdriver⟩ := finish_drivers h.manager hfin
      have hkeep : ∀ x ∈ s.manager.sharedDriverDatas, x ∈ m.sharedDriverDatas := by
        rw [hsame]
        exact fun x hx => hx
      apply SysInv.opened (h.manage (h.manager.finish hfin) hkeep)
      intro dr hdr
      exact hkeep dr (hdriver dr hdr)
  | aioSubmit t d pending alloc =>
    simp only [execIo] at hstep
    split at hstep
    · cases hstep
    · next dev hdev =>
      split at hstep
      · obtain rfl := Except.ok.inj hstep
        exact h
      · obtain ⟨q, hq, hrest⟩ := bind_ok hstep
        obtain rfl := Except.ok.inj hrest
        refine ⟨h.manager, h.devices, ?_⟩
        intro t' q' hq'
        change update s.queues t (some q) t' = some q' at hq'
        by_cases ht : t' = t
        · rw [ht, update_self] at hq'
          obtain rfl := Option.some.inj hq'
          exact ⟨dev.driver, (h.devices d dev hdev).1, h.queueFor hdev hq⟩
        · rw [update_of_ne ht] at hq'
          exact h.queues t' q' hq'
  | exit t =>
    obtain rfl := Except.ok.inj hstep
    refine ⟨h.manager, h.devices, ?_⟩
    intro t' q' hq'
    change update s.queues t none t' = some q' at hq'
    by_cases ht : t' = t
    · rw [ht, update_self] at hq'
      cases hq'
    · rw [update_of_ne ht] at hq'
      exact h.queues t' q' hq'

omit [DecidableEq T] [DecidableEq D] in
theorem SysInv.start : SysInv sp (Sys.start : Sys T D Trid Ctrlr Ns) :=
  ⟨Inv.start, nofun, nofun⟩

/-- In every run of threads that open devices and submit on them, the queue that takes the tasks
of a device is one of its own driver. -/
theorem io_on_own_device (sp : Spdk Trid Ctrlr Ns) (ioQueueSize : Ctrlr → Nat) {t : T} {d : D}
    {pending : Nat} {alloc : Bool} (h : Reachable (· = Sys.start) (IoStep sp ioQueueSize) s)
    (hpending : 0 < pending)
    (hstep : IoStep sp ioQueueSize s (.aioSubmit t d pending alloc) s') :
    ∃ dev q, s.devices d = some dev ∧ s'.queues t = some q ∧ q.Drives dev.driver ∧
      q.blockSize = dev.blockSize := by
  have hinv : SysInv sp s := by
    refine h.invariant ?_ fun _ _ _ hs hstep => hs.step hstep
    intro s hs
    subst hs
    exact SysInv.start
  unfold IoStep at hstep
  simp only [execIo] at hstep
  split at hstep
  · cases hstep
  · next dev hdev =>
    rw [if_neg (by omega)] at hstep
    obtain ⟨q, hq, hrest⟩ := bind_ok hstep
    obtain rfl := Except.ok.inj hrest
    have hdrives := hinv.queueFor hdev hq
    refine ⟨dev, q, hdev, update_self _ _ _, hdrives, ?_⟩
    rw [hdrives.blockSize, (hinv.devices d dev hdev).2]

/-- Two devices of one driver, and a thread that has submitted on the first. -/
theorem io_on_own_device_second : ∃ s s' : Sys Bool Bool (Fin 16) Unit Unit,
    (s.queues true).map (·.bdev) = some true ∧
    IoStep small (fun _ => 256) s (.aioSubmit true false 1 true) s' ∧
    ∃ dev q, s.devices false = some dev ∧ s'.queues true = some q ∧ q.Drives dev.driver ∧
      q.blockSize = dev.blockSize := by
  have next : ∀ {s s' : Sys Bool Bool (Fin 16) Unit Unit} (a : IoAct Bool Bool (Fin 16) Unit),
      Reachable (· = Sys.start) (IoStep small fun _ => 256) s →
      execIo small (fun _ => 256) s a = .ok s' →
      Reachable (· = Sys.start) (IoStep small fun _ => 256) s' :=
    fun a hs hexec => hs.step hexec
  have h1 := next (.openDevice true true 1) (.start rfl) rfl
  have h2 := next (.serve ⟨[(1, some ())], 0⟩) h1 rfl
  have h3 := next (.finish true) h2 rfl
  have h4 := next (.openDevice false false 1) h3 rfl
  have h5 := next (.aioSubmit true true 1 true) h4 rfl
  have last : ∀ {s s' : Sys Bool Bool (Fin 16) Unit Unit},
      Reachable (· = Sys.start) (IoStep small fun _ => 256) s →
      (s.queues true).map (·.bdev) = some true →
      IoStep small (fun _ => 256) s (.aioSubmit true false 1 true) s' →
      ∃ s s' : Sys Bool Bool (Fin 16) Unit Unit, (s.queues true).map (·.bdev) = some true ∧
        IoStep small (fun _ => 256) s (.aioSubmit true false 1 true) s' ∧
        ∃ dev q, s.devices false = some dev ∧ s'.queues true = some q ∧ q.Drives dev.driver ∧
          q.blockSize = dev.blockSize :=
    fun hs hq hstep => ⟨_, _, hq, hstep, io_on_own_device small (fun _ => 256) hs Nat.one_pos hstep⟩
  exact last h5 rfl rfl

end Inv

end LockdepSpdk.Nvme
