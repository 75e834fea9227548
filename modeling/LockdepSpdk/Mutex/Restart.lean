import LockdepSpdk.Lockdep.Restart
import LockdepSpdk.Mutex.Users

/-!
# Mutexes over several sessions

`lockdep_global_destroy` leaves `lock_refs`, `free_ids` and `last_freed_id` as they
are. It starts again like new exactly when every mutex of a class has been
destroyed by then; in such runs no destructor meets an id without a name.
-/

namespace LockdepSpdk.Mutex

set_option autoImplicit false

open Function Lockdep Transition

variable {T M : Type} [DecidableEq M]

/-- Between two sessions. What a thread still carries from a call is -1. -/
structure OffInv (s : Sys T M) : Prop where
  off : s.lockdep.gLockdep = false
  graph : GraphInv s.lockdep
  empty : OffEmpty s.lockdep
  lockRefs : ∀ k, s.lockdep.lockRefs k = none
  freeIds : s.lockdep.freeIdsInited = true → ∀ k, s.lockdep.freeIds k = true
  last : s.lockdep.lastFreedId ≤ 0
  ids : ∀ m o, s.objs m = some o → o.id = -1 ∧ o.cls = o.group
  copies : ∀ m t i, s.copy m t = some i → i = -1

structure SessionInv (s : Sys T M) : Prop where
  owner : OwnerInv s
  session : UserInv s ∨ OffInv s

variable {s : Sys T M}

theorem UserInv.no_users (h : UserInv s) (hrefs : ∀ k, s.lockdep.lockRefs k = none) (k : Nat)
    (m : M) : m ∉ s.users k := by
  apply (h.count k).none
  unfold refCount
  rw [hrefs k]
  exact Int.le_refl 0

theorem UserInv.teardown (h : UserInv s) (hinv : OwnerInv s) (hok : Restartable s.lockdep) :
    OffInv (⟨lockdepGlobalDestroy s.lockdep, s.objs, s.calls⟩ : Sys T M) := by
  obtain ⟨hrefs, hlast⟩ := hok h.registry.enabled
  have hon := h.registry.enabled
  have unused : ∀ {m : M} {o : Obj T} {i : Int}, IdOk s.lockdep o i →
      (∀ k : Nat, i = k → m ∈ s.users k) → i = -1 ∧ o.cls = o.group := by
    intro m o i hi huses
    rcases hi with hneg | ⟨k, hk, _⟩
    · exact hneg
    · exact absurd (huses k hk) (h.no_users hrefs k m)
  refine ⟨?_, h.registry.graph.globalDestroy, OffEmpty.destroy h.registry.graph hon, ?_, ?_, ?_, ?_,
    ?_⟩
  · simp [lockdepGlobalDestroy, hon]
  · simpa [lockdepGlobalDestroy, hon] using hrefs
  · intro _ k
    have hfree : (lockdepGlobalDestroy s.lockdep).freeIds = s.lockdep.freeIds := by
      simp [lockdepGlobalDestroy, hon]
    change (lockdepGlobalDestroy s.lockdep).freeIds k = true
    rw [hfree]
    by_contra hused
    have hlive := h.refs.live k (h.tight k (by simpa using hused))
    unfold refCount at hlive
    rw [hrefs k] at hlive
    exact absurd hlive (by decide)
  · simpa [lockdepGlobalDestroy, hon] using hlast
  · intro m o ho
    exact unused (h.idOk m o ho) fun k hk => ⟨o, ho, Or.inl hk⟩
  · intro m t i hi
    change s.copy m t = some i at hi
    rcases Option.eq_none_or_eq_some (s.objs m) with hm | ⟨o, ho⟩
    · rw [copy_eq_none (hinv.on_none hm t)] at hi
      cases hi
    · exact (unused (h.copyOk m o t i ho hi) fun k hk => ⟨o, ho, Or.inr ⟨t, hk ▸ hi⟩⟩).1

omit [DecidableEq M] in
/-- With lockdep off a thread can only pass a -1 on. -/
theorem Takes.off [DecidableEq T] {l l' : State T} {t : T} {f : Frame M} {o o' : Obj T}
    {p₀ : Point} {p : Option Point} (htakes : Takes l t f o p₀ l' o' p)
    (hoff : l.gLockdep = false) (hid : o.id = -1) (hcopy : ∀ i, p₀.copy = some i → i = -1) :
    l' = l ∧ o'.id = -1 ∧ o'.cls = o.cls ∧ o'.group = o.group ∧
      ∀ i, p.bind Point.copy = some i → i = -1 := by
  have nothing : ∀ i : Int, (none : Option Int) = some i → i = -1 := by
    intro i hi
    cases hi
  have quiet : ∀ {o' : Obj T} {p : Option Point}, o'.id = o.id → o'.cls = o.cls →
      o'.group = o.group → p.bind Point.copy = none → l = l ∧ o'.id = -1 ∧ o'.cls = o.cls ∧
      o'.group = o.group ∧ ∀ i, p.bind Point.copy = some i → i = -1 := by
    intro o' p hio hcls hgroup hp
    rw [hp]
    exact ⟨rfl, hio.trans hid, hcls, hgroup, nothing⟩
  have read : ∀ {p : Point}, p.copy = some o.id → l = l ∧ o.id = -1 ∧ o.cls = o.cls ∧
      o.group = o.group ∧ ∀ i, (some p).bind Point.copy = some i → i = -1 := by
    intro p hp
    refine ⟨rfl, hid, rfl, rfl, ?_⟩
    intro i hi
    have hi' : p.copy = some i := hi
    rw [hp] at hi'
    rw [← Option.some.inj hi', hid]
  cases htakes with
  | lockTest => exact quiet rfl rfl rfl (by split <;> rfl)
  | willLockRead => exact read rfl
  | willLockBody hwl =>
    simp only [lockdepWillLock, hoff, if_true] at hwl
    obtain ⟨rfl, rfl⟩ := ok_mk_inj hwl
    exact ⟨rfl, hid, rfl, rfl, hcopy⟩
  | willLockStore i => exact ⟨rfl, hcopy i rfl, rfl, rfl, nothing⟩
  | tryImpl hacq => cases hacq <;> exact quiet rfl rfl rfl rfl
  | busy => exact quiet rfl rfl rfl (by split <;> rfl)
  | lockImpl hacq => cases hacq <;> exact quiet rfl rfl rfl rfl
  | throws => exact quiet rfl rfl rfl rfl
  | full => exact quiet rfl rfl rfl rfl
  | lockedTest => exact quiet rfl rfl rfl (by split <;> rfl)
  | lockedRead => exact read rfl
  | lockedBody hlo =>
    simp only [lockdepLocked, hoff, if_true] at hlo
    obtain ⟨rfl, rfl⟩ := ok_mk_inj hlo
    exact ⟨rfl, hid, rfl, rfl, hcopy⟩
  | lockedStore i => exact ⟨rfl, hcopy i rfl, rfl, rfl, nothing⟩
  | postLockCheck => exact quiet rfl rfl rfl rfl
  | postLockOwner => exact quiet rfl rfl rfl rfl
  | postLockCount => exact quiet rfl rfl rfl rfl
  | preUnlockCheck => exact quiet rfl rfl rfl rfl
  | preUnlockOwner => exact quiet rfl rfl rfl rfl
  | preUnlockTest => exact quiet rfl rfl rfl (by split <;> rfl)
  | preUnlockClear => exact quiet rfl rfl rfl rfl
  | preUnlockCount => exact quiet rfl rfl rfl rfl
  | unlockTest => exact quiet rfl rfl rfl (by split <;> rfl)
  | willUnlockRead => exact read rfl
  | @willUnlockBody i _ _ hwu =>
    obtain rfl := hcopy i rfl
    obtain ⟨rfl, rfl⟩ := ok_mk_inj hwu
    exact ⟨rfl, hid, rfl, rfl, hcopy⟩
  | willUnlockStore i => exact ⟨rfl, hcopy i rfl, rfl, rfl, nothing⟩
  | unlockImpl hrel => cases hrel <;> exact quiet rfl rfl rfl rfl

theorem OffInv.restarted (h : OffInv s) : Restarted s.lockdep (lockdepGlobalInit s.lockdep) :=
  restarted_off h.graph h.off h.empty

theorem OffInv.all_free (h : OffInv s) (k : Nat) :
    (lockdepGlobalInit s.lockdep).freeIds k = true := by
  rcases h.restarted.freeIds with ⟨hinited, hsame⟩ | htrue
  · rw [hsame]
    exact h.freeIds hinited k
  · exact htrue k

theorem OffInv.init (h : OffInv s) :
    UserInv (⟨lockdepGlobalInit s.lockdep, s.objs, s.calls⟩ : Sys T M) := by
  have hre := h.restarted
  have hrefs : ∀ k, (lockdepGlobalInit s.lockdep).lockRefs k = none := by
    intro k
    rw [hre.lockRefs]
    exact h.lockRefs k
  refine ⟨⟨hre.enabled, hre.graph, ?_, ?_⟩, ⟨?_, ?_⟩, ?_, ?_, ?_, ?_⟩
  · intro name k
    rw [hre.empty.lockIds, hre.empty.lockNames]
    simp
  · intro k _
    exact hre.empty.lockNames k
  · intro k _
    exact hrefs k
  · rintro k ⟨name, hname⟩
    rw [hre.empty.lockNames k] at hname
    cases hname
  · intro k hk
    rw [h.all_free k] at hk
    cases hk
  · intro m o ho
    exact Or.inl (h.ids m o ho)
  · intro m o t i ho hi
    exact Or.inl ⟨h.copies m t i hi, (h.ids m o ho).2⟩
  · intro k
    have hnone : ∀ m, m ∉ (⟨lockdepGlobalInit s.lockdep, s.objs, s.calls⟩ : Sys T M).users k := by
      rintro m ⟨o, ho, hid | ⟨t, ht⟩⟩
      · have hneg := (h.ids m o ho).1
        omega
      · have hneg := h.copies m t k ht
        omega
    rw [Set.eq_empty_of_forall_notMem hnone]
    refine ⟨Set.finite_empty, ?_⟩
    unfold refCount
    rw [hrefs k]
    simp

section Step
variable [DecidableEq T] {movedFrom : String → String}

theorem OffInv.step {s' : Sys T M} {a : Act T M} (h : OffInv s)
    (hoff : a ≠ .globalInit) (hmoves : Moves movedFrom s a s') : OffInv s' := by
  have joined : ∀ (m : M) (group : String) (ld recursive : Bool), s.objs m = none →
      OffInv (⟨s.lockdep, update s.objs m (some (Obj.fresh group ld recursive)), s.calls⟩ :
        Sys T M) := by
    intro m group ld recursive hm
    refine ⟨h.off, h.graph, h.empty, h.lockRefs, h.freeIds, h.last, ?_, h.copies⟩
    intro m1 o1 h1
    rcases joined_obj h1 with ⟨_, rfl⟩ | ⟨_, h1⟩
    · exact ⟨rfl, rfl⟩
    · exact h.ids m1 o1 h1
  have left : ∀ m : M, OffInv (⟨s.lockdep, update s.objs m none, s.calls⟩ : Sys T M) := by
    intro m
    exact ⟨h.off, h.graph, h.empty, h.lockRefs, h.freeIds, h.last,
      fun m1 o1 h1 => h.ids m1 o1 (left_obj h1).2, h.copies⟩
  rcases hmoves.cases with ⟨heq, _⟩ | ⟨_, rfl⟩ | ⟨m, group, ld, recursive, rfl⟩ | ⟨m, rfl⟩ |
    ⟨t, f, hf, ht, _, rfl⟩ | ⟨t, rfl⟩
  · exact absurd heq hoff
  · rw [globalDestroy_off h.off]
    exact h
  · obtain ⟨hm, ⟨_, hon, _⟩ | ⟨_, rfl⟩⟩ := construct_cases hmoves
    · rw [h.off] at hon
      cases hon
    · exact joined m group ld recursive hm
  · obtain ⟨o, _, _, _, ⟨_, hon, _⟩ | ⟨_, rfl⟩⟩ := destroy_cases hmoves
    · rw [h.off] at hon
      cases hon
    · exact left m
  · refine ⟨h.off, h.graph, h.empty, h.lockRefs, h.freeIds, h.last, h.ids, ?_⟩
    intro m q i hi
    rw [enter_copy hf ht] at hi
    exact h.copies m q i hi
  · obtain ⟨f, o, l, o', p, hf, ho, htakes, rfl⟩ := hmoves.takes
    have hself : s.copy f.obj t = f.point.copy := by
      unfold Sys.copy
      rw [Sys.on_self hf]
      exact rfl
    obtain ⟨rfl, hid, hcls, hgroup, hcopy⟩ := htakes.off h.off (h.ids _ o ho).1
      fun i hi => h.copies f.obj t i (hself ▸ hi)
    refine ⟨h.off, h.graph, h.empty, h.lockRefs, h.freeIds, h.last, ?_, ?_⟩
    · intro m1 o1 h1
      rcases joined_obj h1 with ⟨_, rfl⟩ | ⟨_, h1⟩
      · exact ⟨hid, by rw [hcls, hgroup, (h.ids _ o ho).2]⟩
      · exact h.ids m1 o1 h1
    · intro m1 q i hi
      unfold Sys.copy at hi
      by_cases hne : m1 = f.obj
      · subst hne
        rw [after_on_self] at hi
        by_cases hq : q = t
        · rw [hq, update_self] at hi
          exact hcopy i hi
        · rw [update_of_ne hq] at hi
          exact h.copies _ q i hi
      · rw [after_on_ne hf hne] at hi
        exact h.copies m1 q i hi

/-- Lockdep is torn down only when it can start again like new. -/
def Restarts (s : Sys T M) : Act T M → Prop
  | .globalDestroy => Restartable s.lockdep
  | _ => True

theorem SessionInv.step {s' : Sys T M} {a : Act T M} (h : SessionInv s) (hlife : Lifetimes s a)
    (hok : Restarts s a) (hmoves : Moves movedFrom s a s') : SessionInv s' := by
  refine ⟨h.owner.step hlife hmoves, ?_⟩
  rcases h.session with hs | hs
  · by_cases hdes : a = .globalDestroy
    · subst hdes
      rcases hmoves.cases with ⟨heq, _⟩ | ⟨_, rfl⟩ | ⟨_, _, _, _, heq⟩ | ⟨_, heq⟩ |
        ⟨_, _, hf, _⟩ | ⟨_, heq⟩
      · cases heq
      · exact Or.inr (hs.teardown h.owner hok)
      · cases heq
      · cases heq
      · cases hf
      · cases heq
    · exact Or.inl (hs.step h.owner hdes hmoves)
  · by_cases hini : a = .globalInit
    · subst hini
      rcases hmoves.cases with ⟨_, rfl⟩ | ⟨heq, _⟩ | ⟨_, _, _, _, heq⟩ | ⟨_, heq⟩ |
        ⟨_, _, hf, _⟩ | ⟨_, heq⟩
      · exact Or.inl hs.init
      · cases heq
      · cases heq
      · cases heq
      · cases hf
      · cases heq
    · exact Or.inr (hs.step hini hmoves)

omit [DecidableEq T] in
theorem SessionInv.start : SessionInv (Sys.start : Sys T M) := by
  refine ⟨OwnerInv.start, Or.inr ⟨rfl, GraphInv.initial, ?_, fun _ => rfl, nofun, ?_, nofun, ?_⟩⟩
  · exact ⟨fun _ => rfl, fun _ => rfl, fun _ => rfl, nofun⟩
  · change (-1 : Int) ≤ 0
    omega
  · nofun

end Step

section Claims
variable [DecidableEq T]

omit [DecidableEq T] in
/-- A destructor that unregisters finds the name of its id. -/
theorem SessionInv.named (h : SessionInv s) {m : M} {o : Obj T} (ho : s.objs m = some o) :
    lockdepUnregister s.lockdep o.id ≠ .error .abort := by
  intro herr
  have hid : ∃ k : Nat, o.id = k ∧ s.lockdep.lockNames k = none := by
    unfold lockdepUnregister at herr
    split at herr
    · cases herr
    · next hneg =>
      split at herr
      · next hnone => exact ⟨o.id.toNat, by omega, hnone⟩
      · dsimp only at herr
        split at herr
        · cases herr
        · cases herr
  obtain ⟨k, hk, hnone⟩ := hid
  rcases h.session with hs | hs
  · rcases hs.idOk m o ho with ⟨hneg, _⟩ | ⟨j, hj, hcls⟩
    · omega
    · obtain rfl : j = k := by omega
      rw [(hs.registry.name_iff _ _).mp hcls] at hnone
      cases hnone
  · have hneg := (hs.ids m o ho).1
    omega

/-- In every run whose teardowns find no class and no freed id but 0, a teardown and a start give
lockdep as in a fresh process exactly when that holds of the state, and no destructor meets an id
without a name. -/
theorem restart_clean_iff (movedFrom : String → String) {s : Sys T M}
    (h : Reachable (· = Sys.start)
      (fun s a s' => Lifetimes s a ∧ Restarts s a ∧ Moves movedFrom s a s') s) :
    (Restartable s.lockdep ↔ Clean (lockdepGlobalInit (lockdepGlobalDestroy s.lockdep))) ∧
      ∀ m o, s.objs m = some o → lockdepUnregister s.lockdep o.id ≠ .error .abort := by
  have hinv : SessionInv s := by
    refine h.invariant ?_ ?_
    · intro s hs
      subst hs
      exact SessionInv.start
    · intro s a s' hs hstep
      exact hs.step hstep.1 hstep.2.1 hstep.2.2
  refine ⟨?_, fun m o ho => hinv.named ho⟩
  rcases hinv.session with hs | hs
  · exact restartable_iff hs.registry hs.refs hs.tight
  · have hre := hs.restarted
    rw [globalDestroy_off hs.off]
    refine ⟨fun _ => ?_, fun _ hon => ?_⟩
    · exact Clean.of_empty hre.enabled hre.graph hre.empty hs.all_free
        (by rw [hre.lockRefs]; exact hs.lockRefs) (by rw [hre.last]; exact hs.last)
    · rw [hs.off] at hon
      cases hon

section Runs
variable [Fintype T]

instance (s : Sys T M) (a : Act T M) : Decidable (Lifetimes s a) :=
  match a with
  | .destroy m => inferInstanceAs (Decidable (∀ t, ∀ f ∈ s.calls t, f.obj ≠ m))
  | .globalInit | .globalDestroy | .construct _ _ _ _ | .lock _ _ _ | .tryLock _ _ _ | .unlock _ _ _
  | .step _ => inferInstanceAs (Decidable True)

end Runs

/-- A mutex of one session outlives it: its class is still counted in the next one, and its
destructor meets an id without a name. -/
theorem restart_leaves_class :
    (¬ ∀ s : Sys Bool (Fin 1), Reachable (· = Sys.start)
        (fun s a s' => Lifetimes s a ∧ Moves (fun _ => "") s a s') s →
      Clean (lockdepGlobalInit (lockdepGlobalDestroy s.lockdep))) ∧
    ¬ ∀ s : Sys Bool (Fin 1), Reachable (· = Sys.start)
        (fun s a s' => Lifetimes s a ∧ Moves (fun _ => "") s a s') s →
      ∀ m o, s.objs m = some o → lockdepUnregister s.lockdep o.id ≠ .error .abort := by
  have reach : ∀ {s : Sys Bool (Fin 1)} {as : List (Act Bool (Fin 1))},
      execAll (exec fun _ => "") (fun s a => decide (Lifetimes s a)) Sys.start as = some s →
      Reachable (· = Sys.start) (fun s a s' => Lifetimes s a ∧ Moves (fun _ => "") s a s') s := by
    intro s as hs
    refine Reachable.run (.start rfl) (execAll_run ?_ hs)
    intro s a s' hok hexec
    exact ⟨of_decide_eq_true hok, .step hexec⟩
  constructor
  · have hrun : ∃ s ∈ execAll (exec fun _ => "") (fun s a => decide (Lifetimes s a))
        (Sys.start : Sys Bool (Fin 1)) [.globalInit, .construct 0 "a" true false],
        (lockdepGlobalInit (lockdepGlobalDestroy s.lockdep)).lockRefs 0 = some 1 := by
      decide +kernel
    obtain ⟨s, hs, hrefs⟩ := hrun
    intro hclaim
    rw [(hclaim s (reach hs)).lockRefs 0] at hrefs
    cases hrefs
  · have hrun : ∃ s ∈ execAll (exec fun _ => "") (fun s a => decide (Lifetimes s a))
        (Sys.start : Sys Bool (Fin 1))
        [.globalInit, .construct 0 "a" true false, .globalDestroy, .globalInit],
        ∃ o ∈ s.objs 0, o.id = 0 ∧ s.lockdep.lockNames 0 = none := by
      decide +kernel
    obtain ⟨s, hs, o, ho, hid, hname⟩ := hrun
    intro hclaim
    apply hclaim s (reach hs) 0 o ho
    unfold lockdepUnregister
    rw [hid]
    simp [hname]

/-- Two sessions, with a mutex of its own each. -/
theorem restart_clean_iff_twice : ∃ s : Sys Bool (Fin 2), s.lockdep.gLockdep = true ∧
    (∃ o ∈ s.objs 1, o.id = 0) ∧
    ((Restartable s.lockdep ↔ Clean (lockdepGlobalInit (lockdepGlobalDestroy s.lockdep))) ∧
      ∀ m o, s.objs m = some o → lockdepUnregister s.lockdep o.id ≠ .error .abort) := by
  have next : ∀ {s s' : Sys Bool (Fin 2)} (a : Act Bool (Fin 2)), Reachable (· = Sys.start)
        (fun s a s' => Lifetimes s a ∧ Restarts s a ∧ Moves (fun _ => "") s a s') s →
      Lifetimes s a → Restarts s a → exec (fun _ => "") s a = .ok s' → Reachable (· = Sys.start)
        (fun s a s' => Lifetimes s a ∧ Restarts s a ∧ Moves (fun _ => "") s a s') s' :=
    fun a hs hlife hok hexec => hs.step ⟨hlife, hok, .step hexec⟩
  have h1 := next .globalInit (.start rfl) trivial trivial rfl
  have h2 := next (.construct 0 "a" true false) h1 trivial trivial rfl
  have h3 := next (.destroy 0) h2 nofun trivial rfl
  have hgone : ∀ k : Nat, update (update (fun _ => none) 0 (some (1 : Int))) 0 none k = none := by
    intro k
    by_cases hk : k = 0
    · rw [hk, update_self]
    · rw [update_of_ne hk, update_of_ne hk]
  have h4 := next .globalDestroy h3 trivial (fun _ => ⟨hgone, Int.le_refl 0⟩) rfl
  have h5 := next .globalInit h4 trivial trivial rfl
  have h6 := next (.construct 1 "b" true false) h5 trivial trivial rfl
  exact ⟨_, rfl, ⟨_, rfl, rfl⟩, restart_clean_iff _ h6⟩

end Claims

end LockdepSpdk.Mutex
