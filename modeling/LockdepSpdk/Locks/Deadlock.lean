import LockdepSpdk.Locks.Steps

/-!
# Deadlock over both kinds of locks

Threads blocked on mutexes and on shared mutexes form no cycle while every live
lock has a class of its own. `try_lock_shared` blocks without having told lockdep,
so that the order has to be known there.
-/

namespace LockdepSpdk.Locks

set_option autoImplicit false

open Function Lockdep Transition Mutex Relation

variable {T M R : Type}

section Waiting
variable {s : Sys T M R}

/-- Classes are what the threads hold and block on. -/
def board (s : Sys T M R) : LockOrder.Board T String where
  holds := Holds s
  wants := fun t c =>
    (∃ f ∈ s.plain.calls t, f.point = .lockImpl ∧ ∃ o ∈ s.plain.objs f.obj, o.cls = c) ∨
      ∃ r op, BlockedOn s t r op ∧ ∃ w ∈ s.rws r, w.cls = c
  behind := fun t q => ∃ r op op', BlockedOn s t r op ∧ op.exclusive = false ∧
    BlockedOn s q r op' ∧ op'.exclusive = true

theorem WaitsFor.onBoard {t q : T} (h : WaitsFor s t q) : (board s).WaitsFor t q := by
  cases h with
  | plain h =>
    obtain ⟨f, hf, hpoint, o, ho, howner⟩ := h
    exact ⟨o.cls, Or.inl ⟨f, hf, hpoint, o, ho, rfl⟩, Or.inl (Or.inl ⟨f.obj, o, ho, howner, rfl⟩)⟩
  | held r op w hblocked hw hout =>
    refine ⟨w.cls, Or.inr ⟨r, op, hblocked, w, hw, rfl⟩, Or.inl (Or.inr ⟨r, w, hw, ?_, rfl⟩)⟩
    exact hout.imp id fun hreader => hreader.2
  | queued r op op' w hblocked hshared hw _ hblocked' hexclusive =>
    exact ⟨w.cls, Or.inr ⟨r, op, hblocked, w, hw, rfl⟩,
      Or.inr ⟨Or.inr ⟨r, op', hblocked', w, hw, rfl⟩,
        ⟨r, op, op', hblocked, hshared, hblocked', hexclusive⟩⟩⟩

/-- Whoever is let in first waits for nobody in the queue. -/
theorem behind_acyclic (s : Sys T M R) : Digraph.Acyclic (board s).behind := by
  intro t hcycle
  obtain ⟨q, ⟨r, op, _, ⟨hcall, _⟩, hshared, _, _⟩, _⟩ := TransGen.head'_iff.mp hcycle
  obtain ⟨q', _, ⟨r', _, op', _, _, ⟨hcall', _⟩, hexclusive⟩⟩ := TransGen.tail'_iff.mp hcycle
  rw [hcall] at hcall'
  have hop : op = op' := congrArg (fun f : Frame R => f.call.op) (Option.some.inj hcall')
  rw [← hop, hshared] at hexclusive
  cases hexclusive

theorem classEdge_acyclic {l : State T} (hl : RegistryInv l) : Digraph.Acyclic (ClassEdge l) := by
  intro c hcycle
  obtain ⟨_, ⟨a, _, ha, _, _⟩, _⟩ := TransGen.head'_iff.mp hcycle
  obtain ⟨b, hb, hpath⟩ := classEdge_path ha hcycle
  rw [ha] at hb
  obtain rfl := Option.some.inj hb
  exact hl.graph.acyclic a hpath

theorem Inv.ordered (h : Inv s) : (board s).Ordered (ClassEdge s.plain.lockdep) where
  acyclic := classEdge_acyclic h.plain.registry
  queue := behind_acyclic s
  one := by
    rintro t c c' (⟨f, hf, -, o, ho, rfl⟩ | ⟨r, op, ⟨hcall, -⟩, w, hw, rfl⟩)
    · rintro (⟨f', hf', -, o', ho', rfl⟩ | ⟨r', op', ⟨hcall', -⟩, -⟩)
      · obtain rfl := Option.some.inj (hf.symm.trans hf')
        obtain rfl := Option.some.inj (ho.symm.trans ho')
        rfl
      · rw [Option.mem_def, (h.thread t).alone _ hcall'] at hf
        cases hf
    · rintro (⟨f', hf', -, -⟩ | ⟨r', op', ⟨hcall', -⟩, w', hw', rfl⟩)
      · rw [Option.mem_def, (h.thread t).alone _ hcall] at hf'
        cases hf'
      · rw [hcall] at hcall'
        have hr : r = r' := congrArg Frame.obj (Option.some.inj hcall')
        rw [← hr] at hw'
        obtain rfl := Option.some.inj (hw.symm.trans hw')
        rfl
  after := by
    rintro t c a (⟨f, hf, hpoint, o, ho, rfl⟩ | ⟨r, op, ⟨hcall, hblocks⟩, w, hw, rfl⟩) hheld
    · have hwait : f.waiting = true := by simp [Frame.waiting, hpoint]
      rcases hheld with ⟨m, o', ho', howner, rfl⟩ | ⟨r, w, hw, hwheld, rfl⟩
      · exact (h.plain.thread t).waits f hf hwait o m o' ho ho' howner
      · exact (h.thread t).plainWaits f hf hwait o ho r w hw hwheld
    · exact (h.thread t).waits _ hcall hblocks w hw a hheld

theorem Inv.no_cycle (h : Inv s) : Digraph.Acyclic (WaitsFor s) :=
  h.ordered.no_cycle.mono fun _ _ hw => hw.onBoard

end Waiting

section Runs
variable [DecidableEq T] {s s' : Sys T M R}

theorem Start.inv (h : Start s) : Inv s where
  plain := h.plain.inv
  good := by
    intro r w hw
    rw [h.rws r w hw]
    exact ⟨rfl, fun hne => absurd rfl hne, List.nodup_nil⟩
  apart := by
    intro r r' w w' hw hw' heq
    refine h.apart r r' w hw w' hw' ?_
    rw [h.rws r w hw, h.rws r' w' hw'] at heq
    exact heq
  across := by
    intro m r o w ho hw heq
    refine h.across m r o ho w hw ?_
    rw [h.plain.objs m o ho, h.rws r w hw] at heq
    exact heq
  idOk := by
    intro r w hw
    rw [h.rws r w hw]
    exact Or.inl ⟨rfl, rfl⟩
  thread := by
    intro t
    have hnone : ∀ f, f ∈ s.calls t → False := by
      intro f hf
      rw [h.calls t] at hf
      cases hf
    refine ⟨fun f hf => (hnone f hf).elim, fun f hf => (hnone f hf).elim, ?_,
      fun f hf => (hnone f hf).elim, ?_⟩
    · intro r w hw hheld
      rw [h.rws r w hw] at hheld
      rcases hheld with hheld | hheld <;> cases hheld
    · intro f hf
      rw [h.plain.calls t] at hf
      cases hf

variable [DecidableEq M] [DecidableEq R] {maxReaders : Nat} {movedFrom : String → String}
  {a : Act T M R}

omit [DecidableEq R] in
theorem Inv.plainStep {a : Mutex.Act T M} {p : Mutex.Sys T M} (h : Inv s)
    (hallowed : Mutex.Allowed s.plain a) (happart : ClassApart movedFrom s (.plain a : Act T M R))
    (hfree : ∀ t ∈ caller a, s.calls t = none) (hs : Mutex.exec movedFrom s.plain a = .ok p) :
    Inv ⟨p, s.rws, s.calls⟩ := by
  have hclass : Mutex.ClassApart movedFrom s.plain a := by
    cases a with
    | construct m group ld recursive => exact happart.1
    | _ => trivial
  have hp : Mutex.Inv p := h.plain.step hallowed hclass hs
  have hmoves : Mutex.Moves movedFrom s.plain a p := .step hs
  rcases hmoves.cases with ⟨rfl, rfl⟩ | ⟨rfl, -⟩ | ⟨m, group, ld, recursive, rfl⟩ | ⟨m, rfl⟩ |
    ⟨t, f, henters, -, -, rfl⟩ | ⟨t, rfl⟩
  · simpa [lockdepGlobalInit, h.plain.registry.enabled] using h
  · exact absurd hallowed id
  · obtain ⟨rfl, rfl, -⟩ := hallowed
    exact h.plainConstruct hp happart hmoves
  · exact h.plainDestroy hp hmoves
  · refine h.plainEnter hp (hfree t ?_) henters
    cases henters <;> rfl
  · exact h.plainCall hp (hfree t rfl) hmoves

theorem Inv.step (h : Inv s) (hallowed : Allowed s a) (happart : ClassApart movedFrom s a)
    (horder : OrderKnown s a) (hs : Step maxReaders movedFrom s a s') : Inv s' := by
  unfold Step at hs
  cases a with
  | plain a =>
    simp only [exec] at hs
    split at hs
    · cases hs
    · next hcaller =>
      have hfree : ∀ t ∈ caller a, s.calls t = none := by
        intro t ht
        cases hc : s.calls t with
        | none => rfl
        | some f => simp [Option.mem_def.mp ht, hc] at hcaller
      split at hs
      · next p hp =>
        obtain rfl := Except.ok.inj hs
        exact h.plainStep hallowed happart hfree hp
      · cases hs
  | construct r group track enableLockDep prioritizeWrite =>
    obtain rfl : enableLockDep = true := hallowed
    exact h.construct happart hs
  | destroy r => exact h.destroy hallowed.2 hs
  | call t r op =>
    simp only [exec] at hs
    split at hs
    · cases hs
    · next w hw =>
      split at hs
      · cases hs
      · next hfree =>
        obtain rfl := Except.ok.inj hs
        rw [Bool.or_eq_true, not_or] at hfree
        refine h.call hw (by simpa using hfree.1) (by simpa using hfree.2) ?_
        rintro rfl c hc
        obtain ⟨hplain, hshared⟩ := horder w hw
        rcases hc with ⟨m, o, ho, howner, rfl⟩ | ⟨r', w', hw', hheld, rfl⟩
        · exact hplain m o ho howner
        · exact hshared r' w' hw' hheld
  | step t reply =>
    simp only [exec] at hs
    split at hs
    · cases hs
    · next f hf =>
      split at hs
      · cases hs
      · next w hw =>
        split at hs
        · next l o p hok =>
          obtain rfl := Except.ok.inj hs
          exact h.stepCall hf hw hok
        · cases hs

/-- In every run in which constructors register names that are no live lock's class, and in which
lockdep knows the order wherever `try_lock_shared` is called, no reachable state has a cycle of
blocked threads, over the locks of both kinds together. -/
theorem locks_wait_acyclic (maxReaders : Nat) (movedFrom : String → String)
    (h : Reachable Start (fun s a s' => Allowed s a ∧ ClassApart movedFrom s a ∧ OrderKnown s a ∧
      Step maxReaders movedFrom s a s') s) : Digraph.Acyclic (WaitsFor s) := by
  apply Inv.no_cycle
  apply h.invariant
  · exact fun _ hs => hs.inv
  · rintro s a s' hs ⟨hallowed, happart, horder, hstep⟩
    exact hs.step hallowed happart horder hstep

def started (names : M → Option String) (shared : R → Option String) : Sys T M R where
  plain := Mutex.started names
  rws := fun r => (shared r).map fun group => Rw.fresh group true true true
  calls := fun _ => none

omit [DecidableEq M] [DecidableEq R] in
theorem started_start {names : M → Option String} {shared : R → Option String}
    (hnames : ∀ m m', ∀ n ∈ names m, ∀ n' ∈ names m', n = n' → m = m')
    (hshared : ∀ r r', ∀ n ∈ shared r, ∀ n' ∈ shared r', n = n' → r = r')
    (hacross : ∀ m r, ∀ n ∈ names m, ∀ n' ∈ shared r, n ≠ n') :
    Start (started names shared : Sys T M R) := by
  refine ⟨Mutex.started_start hnames, ?_, ?_, ?_, fun _ => rfl⟩
  · intro r w hw
    obtain ⟨n, -, rfl⟩ := Option.mem_map.mp hw
    rfl
  · intro r r' w hw w' hw' heq
    obtain ⟨n, hn, rfl⟩ := Option.mem_map.mp hw
    obtain ⟨n', hn', rfl⟩ := Option.mem_map.mp hw'
    exact hshared r r' n hn n' hn' heq
  · intro m r o ho w hw heq
    obtain ⟨n, hn, rfl⟩ := Option.mem_map.mp ho
    obtain ⟨n', hn', rfl⟩ := Option.mem_map.mp hw
    exact hacross m r n hn n' hn' heq

section Finite
variable [Fintype T] [Fintype M] [Fintype R]

instance (s : Sys T M R) (a : Act T M R) : Decidable (Allowed s a) :=
  match a with
  | .plain a => inferInstanceAs (Decidable (Mutex.Allowed s.plain a))
  | .construct _ _ _ enableLockDep _ => inferInstanceAs (Decidable (enableLockDep = true))
  | .destroy r => inferInstanceAs
      (Decidable ((∀ w ∈ s.rws r, w.obj.writer = none ∧ w.obj.readers = []) ∧
        ∀ t, ∀ f ∈ s.calls t, f.obj ≠ r))
  | .call t r .unlock => inferInstanceAs (Decidable (∃ w ∈ s.rws r, w.obj.writer = some t))
  | .call t r .unlockShared => inferInstanceAs (Decidable (∃ w ∈ s.rws r, t ∈ w.obj.readers))
  | .call _ _ .lock | .call _ _ .tryLock | .call _ _ .lockShared | .call _ _ .tryLockShared
  | .step _ _ => inferInstanceAs (Decidable True)

instance (s : Sys T M R) (c : String) : Decidable (Unused s c) :=
  inferInstanceAs (Decidable ((∀ m, ∀ o ∈ s.plain.objs m, o.cls ≠ c) ∧
    ∀ r, ∀ w ∈ s.rws r, w.cls ≠ c))

instance (movedFrom : String → String) (s : Sys T M R) (a : Act T M R) :
    Decidable (ClassApart movedFrom s a) :=
  match a with
  | .plain (.construct _ group _ _) => inferInstanceAs (Decidable (Unused s (movedFrom group)))
  | .construct _ group _ _ _ => inferInstanceAs (Decidable (Unused s (movedFrom group)))
  | .plain .globalInit | .plain .globalDestroy | .plain (.destroy _) | .plain (.lock _ _ _)
  | .plain (.tryLock _ _ _) | .plain (.unlock _ _ _) | .plain (.step _) | .destroy _ | .call _ _ _
  | .step _ _ => inferInstanceAs (Decidable True)

instance (l : State T) (c c' : String) : Decidable (ClassEdge l c c') :=
  decidable_of_iff (∃ a ∈ l.lockIds c, ∃ b ∈ l.lockIds c', l.follows a b = true) <| by
    constructor
    · rintro ⟨a, ha, b, hb, hab⟩
      exact ⟨a, b, ha, hb, hab⟩
    · rintro ⟨a, b, ha, hb, hab⟩
      exact ⟨a, ha, b, hb, hab⟩

instance (s : Sys T M R) (a : Act T M R) : Decidable (OrderKnown s a) :=
  match a with
  | .call t r .tryLockShared => inferInstanceAs (Decidable (∀ w ∈ s.rws r,
      (∀ m, ∀ o ∈ s.plain.objs m, o.owner = some t → ClassEdge s.plain.lockdep o.cls w.cls) ∧
      ∀ r', ∀ w' ∈ s.rws r', (w'.obj.writer = some t ∨ t ∈ w'.obj.readers) →
        ClassEdge s.plain.lockdep w'.cls w.cls))
  | .plain _ | .construct _ _ _ _ _ | .destroy _ | .call _ _ .lock | .call _ _ .tryLock
  | .call _ _ .unlock | .call _ _ .lockShared | .call _ _ .unlockShared | .step _ _ =>
    inferInstanceAs (Decidable True)

end Finite

def during (t : T) (r : R) (op : Shared.Op) (n : Nat) : List (Act T M R) :=
  .call t r op :: List.replicate n (.step t .granted)

/-- Thread 0 has the mutex and the shared mutex, which it knows to come in this order, thread 1
wants the shared mutex for writing, and thread 2 waits behind it for reading. -/
theorem locks_wait_acyclic_three : ∃ s : Sys (Fin 3) (Fin 1) (Fin 1), WaitsFor s 2 1 ∧
    WaitsFor s 1 0 ∧ Digraph.Acyclic (WaitsFor s) := by
  have hrun : ∃ s ∈ execAll (exec 8 fun _ => "")
      (fun s a => Allowed s a ∧ ClassApart (fun _ => "") s a ∧ OrderKnown s a)
      (started (fun _ => some "mutex") fun _ => none : Sys (Fin 3) (Fin 1) (Fin 1))
      ([.construct 0 "shared" true true true] ++ (Mutex.tryLocked 0 0).map .plain ++
        during 0 0 .lockShared 10 ++ during 0 0 .unlockShared 7 ++ during 0 0 .tryLockShared 10 ++
        during 1 0 .lock 4 ++ during 2 0 .lockShared 4),
      s.calls 1 = some ⟨0, .lock, .acquire⟩ ∧ s.calls 2 = some ⟨0, .lockShared, .acquire⟩ ∧
        ∃ w ∈ s.rws 0, w.preferWriter = true ∧ 0 ∈ w.obj.readers := by
    decide +kernel
  obtain ⟨s, hs, hwriter, hreader, w, hw, hprefer, hheld⟩ := hrun
  refine ⟨s, .queued 0 .lockShared .lock w ⟨hreader, rfl⟩ rfl hw hprefer ⟨hwriter, rfl⟩ rfl,
    .held 0 .lock w ⟨hwriter, rfl⟩ hw (Or.inr ⟨rfl, hheld⟩), locks_wait_acyclic 8 (fun _ => "") ?_⟩
  refine Reachable.run (.start (started_start ?_ ?_ ?_)) (execAll_run ?_ hs)
  · decide
  · decide
  · decide
  · intro s a s' hok hexec
    obtain ⟨hallowed, happart, horder⟩ := of_decide_eq_true hok
    exact ⟨hallowed, happart, horder, hexec⟩

/-- Where the order is not known, two threads block in `try_lock_shared` on each other's locks, and
lockdep has not been told. -/
theorem try_lock_shared_deadlocks : ¬ ∀ s : Sys Bool (Fin 1) Bool,
    Reachable Start (fun s a s' => Allowed s a ∧ ClassApart (fun _ => "") s a ∧
      Step 8 (fun _ => "") s a s') s → Digraph.Acyclic (WaitsFor s) := by
  have hrun : ∃ s ∈ execAll (exec 8 fun _ => "")
      (fun s a => Allowed s a ∧ ClassApart (fun _ => "") s a)
      (started (fun _ => none) fun r => some (if r then "a" else "b") : Sys Bool (Fin 1) Bool)
      (during true true .lock 12 ++ during false false .lock 12 ++
        during true false .tryLockShared 4 ++ during false true .tryLockShared 4),
      (s.calls true = some ⟨false, .tryLockShared, .acquire⟩ ∧
        ∃ w ∈ s.rws false, w.obj.writer = some false) ∧
      s.calls false = some ⟨true, .tryLockShared, .acquire⟩ ∧
        ∃ w ∈ s.rws true, w.obj.writer = some true := by
    decide +kernel
  obtain ⟨s, hs, ⟨h1, w1, hw1, hheld1⟩, h2, w2, hw2, hheld2⟩ := hrun
  intro hclaim
  have hcycle : TransGen (WaitsFor s) true true :=
    .tail (.single (.held false .tryLockShared w1 ⟨h1, rfl⟩ hw1 (Or.inl hheld1)))
      (.held true .tryLockShared w2 ⟨h2, rfl⟩ hw2 (Or.inl hheld2))
  refine hclaim s (Reachable.run (.start (started_start ?_ ?_ ?_)) (execAll_run ?_ hs)) true hcycle
  · decide
  · decide
  · decide
  · intro s a s' hok hexec
    obtain ⟨hallowed, happart⟩ := of_decide_eq_true hok
    exact ⟨hallowed, happart, hexec⟩

end Runs

end LockdepSpdk.Locks
