import LockdepSpdk.Mutex.Steps
import Mathlib.Data.Fintype.Basic

/-!
# Deadlock

Runs of `mutex_debug` with lockdep on. While no two live mutexes share a class
there is no cycle of blocked threads. The constructor registers what is left of
a moved-from string, so mutexes of different names can share one class.
-/

namespace LockdepSpdk.Mutex

set_option autoImplicit false

open Function Lockdep Transition Relation

variable {T M : Type}

/-- Thread `t` is blocked in `lock_impl` on a mutex of `q`. -/
def WaitsFor (s : Sys T M) (t q : T) : Prop :=
  ∃ f ∈ s.calls t, f.point = .lockImpl ∧ ∃ o ∈ s.objs f.obj, o.owner = some q

def Deadlock (s : Sys T M) : Prop := ∃ t, TransGen (WaitsFor s) t t

/-- What the callers keep to: lockdep stays on and is used by every call, names are pairwise
distinct, a thread unlocks what it owns, and a mutex goes while no call uses it. -/
def Allowed (s : Sys T M) : Act T M → Prop
  | .globalInit => True
  | .globalDestroy => False
  | .construct _ group ld recursive =>
    ld = true ∧ recursive = false ∧ ∀ m, ∀ o ∈ s.objs m, o.group ≠ group
  | .destroy m => (∀ o ∈ s.objs m, o.owner = none) ∧ ∀ t, ∀ f ∈ s.calls t, f.obj ≠ m
  | .lock _ _ noLockdep => noLockdep = false
  | .tryLock _ _ noLockdep => noLockdep = false
  | .unlock t m noLockdep => noLockdep = false ∧ ∃ o ∈ s.objs m, o.owner = some t
  | .step _ => True

/-- A constructor registers a name that is no live mutex's class. -/
def ClassApart (movedFrom : String → String) (s : Sys T M) : Act T M → Prop
  | .construct _ group _ _ => ∀ m, ∀ o ∈ s.objs m, o.cls ≠ movedFrom group
  | _ => True

/-- Blocked threads follow the edges of the graph. -/
theorem Inv.waits_edges {s : Sys T M} (h : Inv s) {t q : T} (hw : TransGen (WaitsFor s) t q)
    {f f' : Frame M} {o o' : Obj T} (hf : s.calls t = some f) (ho : s.objs f.obj = some o)
    (hf' : s.calls q = some f') (hp' : f'.point = .lockImpl) (ho' : s.objs f'.obj = some o') :
    TransGen (ClassEdge s.lockdep) o.cls o'.cls := by
  -- induction on the chain from its end; one link is the invariant of the thread it leads to
  have link : ∀ {m : M} {o1 : Obj T} {g : Frame M} {p : Obj T} {r : T}, s.objs m = some o1 →
      o1.owner = some r → s.calls r = some g → g.point = .lockImpl → s.objs g.obj = some p →
      ClassEdge s.lockdep o1.cls p.cls := by
    intro m o1 g p r h1 howner hg hpoint hp
    exact (h.thread r).waits g hg (by simp [hpoint]) p m o1 hp h1 howner
  induction hw generalizing f' o' with
  | single hstep =>
    obtain ⟨f1, hf1, _, o1, ho1, howner⟩ := hstep
    rw [Option.mem_def, hf] at hf1
    obtain rfl := Option.some.inj hf1
    rw [Option.mem_def, ho] at ho1
    obtain rfl := Option.some.inj ho1
    exact .single (link ho howner hf' hp' ho')
  | tail _ hstep ih =>
    obtain ⟨f1, hf1, hp1, o1, ho1, howner⟩ := hstep
    exact .tail (ih hf1 hp1 ho1) (link ho1 howner hf' hp' ho')

theorem classEdge_path {l : State T} {c c' : String} {a : Nat} (ha : l.lockIds c = some a)
    (h : TransGen (ClassEdge l) c c') : ∃ b, l.lockIds c' = some b ∧ TransGen (Edge l.follows) a b := by
  induction h with
  | single hedge =>
    obtain ⟨x, b, hx, hb, hab⟩ := hedge
    rw [ha] at hx
    obtain rfl := Option.some.inj hx
    exact ⟨b, hb, .single hab⟩
  | tail _ hedge ih =>
    obtain ⟨x, hx, hpath⟩ := ih
    obtain ⟨y, b, hy, hb, hab⟩ := hedge
    rw [hx] at hy
    obtain rfl := Option.some.inj hy
    exact ⟨b, hb, .tail hpath hab⟩

theorem Inv.no_deadlock {s : Sys T M} (h : Inv s) : ¬ Deadlock s := by
  intro hdead
  obtain ⟨t, hcycle⟩ := hdead
  obtain ⟨q, ⟨f, hf, hp, o, ho, _⟩, _⟩ := TransGen.head'_iff.mp hcycle
  have hpath := h.waits_edges hcycle hf ho hf hp ho
  obtain ⟨c, hedge, _⟩ := TransGen.head'_iff.mp hpath
  obtain ⟨a, _, ha, _, _⟩ := hedge
  obtain ⟨b, hb, hids⟩ := classEdge_path ha hpath
  rw [ha] at hb
  obtain rfl := Option.some.inj hb
  exact h.registry.graph.acyclic a hids

variable [DecidableEq T]

/-- Lockdep has just been switched on; the mutexes there are were built while it was off. -/
structure Start (s : Sys T M) : Prop where
  lockdep : SessionStart s.lockdep
  objs : ∀ m, ∀ o ∈ s.objs m, o = Obj.fresh o.group true false
  apart : ∀ m m', ∀ o ∈ s.objs m, ∀ o' ∈ s.objs m', o.group = o'.group → m = m'
  calls : ∀ t, s.calls t = none

theorem Start.inv {s : Sys T M} (h : Start s) : Inv s := by
  refine ⟨h.lockdep.registry, ?_, ?_, ?_, ?_⟩
  · intro m o ho
    rw [h.objs m o ho]
    exact ⟨rfl, rfl, Nat.zero_le 1⟩
  · intro m m' o o' ho ho' hcls
    apply h.apart m m' o ho o' ho'
    rw [h.objs m o ho, h.objs m' o' ho'] at hcls
    exact hcls
  · intro m o ho
    rw [h.objs m o ho]
    exact Or.inl ⟨rfl, rfl⟩
  · intro t
    refine ⟨?_, ?_, ?_⟩
    · intro f hf
      rw [h.calls t] at hf
      cases hf
    · intro m o ho howner
      rw [h.objs m o ho] at howner
      cases howner
    · intro f hf
      rw [h.calls t] at hf
      cases hf

variable [DecidableEq M]

theorem Inv.step {movedFrom : String → String} {s s' : Sys T M} {a : Act T M} (h : Inv s)
    (hallowed : Allowed s a) (happart : ClassApart movedFrom s a)
    (hs : Step movedFrom s a s') : Inv s' := by
  unfold Step at hs
  cases a with
  | globalInit =>
    obtain rfl := Except.ok.inj hs
    simpa [lockdepGlobalInit, h.registry.enabled, Sys.setLockdep] using h
  | globalDestroy => exact absurd hallowed id
  | construct m group ld recursive =>
    obtain ⟨rfl, rfl, _⟩ := hallowed
    exact h.construct happart hs
  | destroy m => exact h.destroy hallowed.2 hs
  | lock t m noLockdep =>
    exact h.enter (f := ⟨m, noLockdep, true, .lockTest⟩) hallowed rfl rfl hs
  | tryLock t m noLockdep =>
    exact h.enter (f := ⟨m, noLockdep, false, .tryImpl⟩) hallowed rfl rfl hs
  | unlock t m noLockdep => exact h.enter hallowed.1 rfl rfl hs
  | step t =>
    simp only [exec] at hs
    split at hs
    · cases hs
    · next f hf =>
      split at hs
      · cases hs
      · next o ho => exact h.stepCall hf ho hs

/-- In every run in which constructors register names that are no live mutex's class, no reachable
state has a cycle of blocked threads. -/
theorem lockdep_excludes_deadlock (movedFrom : String → String) {s : Sys T M}
    (h : Reachable Start
      (fun s a s' => Allowed s a ∧ ClassApart movedFrom s a ∧ Step movedFrom s a s') s) :
    ¬ Deadlock s := by
  apply Inv.no_deadlock
  apply h.invariant
  · exact fun _ hs => hs.inv
  · intro s a s' hs hstep
    exact hs.step hstep.1 hstep.2.1 hstep.2.2

section Runs
variable [Fintype T] [Fintype M]

instance (s : Sys T M) (a : Act T M) : Decidable (Allowed s a) :=
  match a with
  | .globalInit => inferInstanceAs (Decidable True)
  | .globalDestroy => inferInstanceAs (Decidable False)
  | .construct _ group ld recursive => inferInstanceAs
      (Decidable (ld = true ∧ recursive = false ∧ ∀ m, ∀ o ∈ s.objs m, o.group ≠ group))
  | .destroy m => inferInstanceAs
      (Decidable ((∀ o ∈ s.objs m, o.owner = none) ∧ ∀ t, ∀ f ∈ s.calls t, f.obj ≠ m))
  | .lock _ _ noLockdep => inferInstanceAs (Decidable (noLockdep = false))
  | .tryLock _ _ noLockdep => inferInstanceAs (Decidable (noLockdep = false))
  | .unlock t m noLockdep => inferInstanceAs
      (Decidable (noLockdep = false ∧ ∃ o ∈ s.objs m, o.owner = some t))
  | .step _ => inferInstanceAs (Decidable True)

instance (movedFrom : String → String) (s : Sys T M) (a : Act T M) :
    Decidable (ClassApart movedFrom s a) :=
  match a with
  | .construct _ group _ _ => inferInstanceAs (Decidable (∀ m, ∀ o ∈ s.objs m, o.cls ≠ movedFrom group))
  | .globalInit | .globalDestroy | .destroy _ | .lock _ _ _ | .tryLock _ _ _ | .unlock _ _ _
  | .step _ => inferInstanceAs (Decidable True)

instance (s : Sys T M) (t q : T) : Decidable (WaitsFor s t q) :=
  inferInstanceAs (Decidable (∃ f ∈ s.calls t, f.point = .lockImpl ∧
    ∃ o ∈ s.objs f.obj, o.owner = some q))

end Runs

def started (names : M → Option String) : Sys T M where
  lockdep := lockdepGlobalInit initial
  objs := fun m => (names m).map fun group => Obj.fresh group true false
  calls := fun _ => none

omit [DecidableEq M] in
theorem started_start {names : M → Option String}
    (h : ∀ m m', ∀ n ∈ names m, ∀ n' ∈ names m', n = n' → m = m') :
    Start (started names : Sys T M) := by
  refine ⟨⟨Process.start, .start rfl, rfl, rfl⟩, ?_, ?_, fun _ => rfl⟩
  · intro m o ho
    obtain ⟨n, _, hn⟩ := Option.mem_map.mp ho
    rw [← hn]
    exact rfl
  · intro m m' o ho o' ho' heq
    obtain ⟨n, hmem, hn⟩ := Option.mem_map.mp ho
    obtain ⟨n', hmem', hn'⟩ := Option.mem_map.mp ho'
    rw [← hn, ← hn'] at heq
    exact h m m' n hmem n' hmem' heq

def tryLocked (t : T) (m : M) : List (Act T M) := .tryLock t m false :: List.replicate 8 (.step t)

def unlocked (t : T) (m : M) : List (Act T M) := .unlock t m false :: List.replicate 10 (.step t)

def blocked (t : T) (m : M) : List (Act T M) := .lock t m false :: List.replicate 5 (.step t)

/-- A static mutex and a constructed one: one thread takes both, the other waits for it. -/
theorem lockdep_excludes_deadlock_two : ∃ s : Sys Bool (Fin 2), WaitsFor s false true ∧
    ¬ Deadlock s := by
  have hrun : ∃ s ∈ execAll (exec fun _ => "") (fun s a => Allowed s a ∧ ClassApart (fun _ => "") s a)
      (started fun m => if m = 0 then some "lock1" else none : Sys Bool (Fin 2))
      ([.construct 1 "lock2" true false] ++ tryLocked true 0 ++ tryLocked true 1 ++ blocked false 0),
      WaitsFor s false true := by
    decide +kernel
  obtain ⟨s, hs, hw⟩ := hrun
  refine ⟨s, hw, lockdep_excludes_deadlock (fun _ => "") ?_⟩
  refine Reachable.run (.start (started_start ?_)) (execAll_run ?_ hs)
  · decide
  · intro s a s' hok hexec
    have hok' := of_decide_eq_true hok
    exact ⟨hok'.1, hok'.2, hexec⟩

/-- Three constructed mutexes are one class, and the release of one takes the record of another
out of `held`: two threads then wait for each other and lockdep has seen nothing. -/
theorem lockdep_misses_deadlock : ¬ ∀ s : Sys Bool (Fin 3),
    Reachable Start (fun s a s' => Allowed s a ∧ Step (fun _ => "") s a s') s → ¬ Deadlock s := by
  have hrun : ∃ s ∈ execAll (exec fun _ => "") (fun s a => Allowed s a)
      (started fun _ => none : Sys Bool (Fin 3))
      ([.construct 0 "a" true false, .construct 1 "b" true false, .construct 2 "c" true false] ++
        tryLocked true 0 ++ tryLocked true 1 ++ unlocked true 1 ++
        tryLocked false 2 ++ tryLocked false 1 ++ unlocked false 1 ++
        blocked true 2 ++ blocked false 0),
      WaitsFor s true false ∧ WaitsFor s false true := by
    decide +kernel
  obtain ⟨s, hs, h1, h2⟩ := hrun
  intro hclaim
  apply hclaim s
  · refine Reachable.run (.start (started_start ?_)) (execAll_run ?_ hs)
    · nofun
    · intro s a s' hok hexec
      exact ⟨of_decide_eq_true hok, hexec⟩
  · exact ⟨true, .tail (.single h1) h2⟩

end LockdepSpdk.Mutex
