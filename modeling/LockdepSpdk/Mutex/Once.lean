import LockdepSpdk.Mutex.Deadlock
import LockdepSpdk.Mutex.Restart

/-!
# One registration for each mutex

`_will_lock` and `_locked` pass the member `id` by value and store the result: two
threads that both read -1 both register. While no lockdep call registers a mutex
that is a user already, `lock_refs` counts exactly the mutexes of each class.
-/

namespace LockdepSpdk.Mutex

set_option autoImplicit false

open Function Lockdep Transition

@[simp]
def Point.watched : Point → Bool
  | .willLockRead | .willLockBody _ | .willLockStore _ | .lockedRead | .lockedBody _
  | .lockedStore _ | .willUnlockRead | .willUnlockBody _ | .willUnlockStore _ => true
  | _ => false

theorem Point.copy_watched {p : Option Point} {i : Int} (h : p.bind Point.copy = some i) :
    p.any Point.watched = true := by
  cases p with
  | none => cases h
  | some p => cases p <;> first | rfl | cases h

theorem Point.copy_of_resets {p : Point} (h : p.resets = true) : p.copy = some (-1) := by
  cases p with
  | willLockStore i | lockedStore i | willUnlockStore i => exact congrArg some (eq_of_beq h)
  | _ => cases h

theorem Point.registers_resets {p : Point} (h : p.registers = true) : p.resets = false := by
  cases p <;> first | rfl | cases h

variable {T M : Type} [DecidableEq M]

/-- Only a mutex built with lockdep gets an id. -/
structure Watches (s : Sys T M) : Prop where
  ids : ∀ m o, s.objs m = some o → 0 ≤ o.id → o.lockdep = true
  points : ∀ m o t, s.objs m = some o → (s.on m t).any Point.watched = true → o.lockdep = true

/-- `lock_refs` counts the mutexes that use the class. -/
def Exact (s : Sys T M) : Prop :=
  ∀ k, (s.users k).Finite ∧ ((s.users k).ncard : Int) = refCount s.lockdep k

/-- A lockdep call registers only a mutex that uses no class yet, and a -1 is stored only over a
-1, or while another thread is about to store the id again. -/
def Once (s : Sys T M) : Act T M → Prop
  | .step t => ∀ f ∈ s.calls t,
    (f.point.registers = true → ∀ k, f.obj ∉ s.users k) ∧
    (f.point.resets = true → ∀ o ∈ s.objs f.obj, ∀ k : Nat, o.id = k →
      ∃ q, s.copy f.obj q = some (k : Int))
  | _ => True

section Steps
variable {s s' : Sys T M}

omit [DecidableEq M] in
theorem lockdepEnabled_flag {l : State T} {o : Obj T} {noLockdep : Bool}
    (h : lockdepEnabled l o noLockdep = true) : o.lockdep = true := by
  unfold lockdepEnabled at h
  split at h
  · cases h
  · split at h
    · cases h
    · exact (Bool.and_eq_true _ _ ▸ h).1

theorem Watches.of_user (h : Watches s) {m : M} {k : Nat} (hm : m ∈ s.users k) :
    ∃ o, s.objs m = some o ∧ o.lockdep = true := by
  obtain ⟨o, ho, hid | ⟨t, ht⟩⟩ := hm
  · exact ⟨o, ho, h.ids m o ho (by omega)⟩
  · exact ⟨o, ho, h.points m o t ho (Point.copy_watched ht)⟩

omit [DecidableEq M] in
theorem Takes.watched [DecidableEq T] {l l' : State T} {t : T} {f : Frame M} {o o' : Obj T}
    {p₀ : Point} {p : Option Point} (h : Takes l t f o p₀ l' o' p) :
    (p.any Point.watched = true → p₀.watched = true ∨ o.lockdep = true) ∧
      (0 ≤ o'.id → 0 ≤ o.id ∨ p₀.watched = true) ∧ o'.lockdep = o.lockdep := by
  have test : ∀ {noLockdep : Bool} {p q : Point}, q.watched = false →
      (some (if lockdepEnabled l o noLockdep then p else q)).any Point.watched = true →
      p₀.watched = true ∨ o.lockdep = true := by
    intro noLockdep p q hq hw
    split at hw
    · next hon => exact Or.inr (lockdepEnabled_flag hon)
    · rw [Option.any_some, hq] at hw
      cases hw
  cases h with
  | lockTest => exact ⟨test rfl, Or.inl, rfl⟩
  | lockedTest => exact ⟨test rfl, Or.inl, rfl⟩
  | unlockTest => exact ⟨test rfl, Or.inl, rfl⟩
  | busy =>
    refine ⟨?_, Or.inl, rfl⟩
    intro hw
    split at hw
    · cases hw
    · cases hw
  | preUnlockTest =>
    refine ⟨?_, Or.inl, rfl⟩
    intro hw
    split at hw
    · cases hw
    · cases hw
  | tryImpl hacq => cases hacq <;> exact ⟨nofun, Or.inl, rfl⟩
  | lockImpl hacq => cases hacq <;> exact ⟨nofun, Or.inl, rfl⟩
  | unlockImpl hrel => cases hrel <;> exact ⟨nofun, Or.inl, rfl⟩
  | willLockRead | willLockBody _ | willLockStore _ | lockedRead | lockedBody _ | lockedStore _
  | willUnlockRead | willUnlockBody _ | willUnlockStore _ =>
    exact ⟨fun _ => Or.inl rfl, fun _ => Or.inr rfl, rfl⟩
  | throws | full | postLockCheck | postLockOwner | postLockCount | preUnlockCheck
  | preUnlockOwner _ | preUnlockClear | preUnlockCount => exact ⟨nofun, Or.inl, rfl⟩

theorem Watches.step [DecidableEq T] {movedFrom : String → String} {a : Act T M} (h : Watches s)
    (hinv : OwnerInv s) (hmoves : Moves movedFrom s a s') : Watches s' := by
  have joined : ∀ (m : M) (o : Obj T) (l : State T), s.objs m = none →
      (0 ≤ o.id → o.lockdep = true) →
      Watches (⟨l, update s.objs m (some o), s.calls⟩ : Sys T M) := by
    intro m o l hm hid
    refine ⟨?_, ?_⟩
    · intro m1 o1 h1 hpos
      rcases joined_obj h1 with ⟨_, rfl⟩ | ⟨_, h1⟩
      · exact hid hpos
      · exact h.ids m1 o1 h1 hpos
    · intro m1 o1 t h1 hw
      change (s.on m1 t).any Point.watched = true at hw
      rcases joined_obj h1 with ⟨rfl, _⟩ | ⟨_, h1⟩
      · rw [hinv.on_none hm t] at hw
        cases hw
      · exact h.points m1 o1 t h1 hw
  have left : ∀ (m : M) (l : State T), Watches (⟨l, update s.objs m none, s.calls⟩ : Sys T M) := by
    intro m l
    exact ⟨fun m1 o1 h1 => h.ids m1 o1 (left_obj h1).2, fun m1 o1 t h1 =>
      h.points m1 o1 t (left_obj h1).2⟩
  rcases hmoves.cases with ⟨_, rfl⟩ | ⟨_, rfl⟩ | ⟨m, group, ld, recursive, rfl⟩ | ⟨m, rfl⟩ |
    ⟨t, f, hf, ht, _, rfl⟩ | ⟨t, rfl⟩
  · exact ⟨h.ids, h.points⟩
  · exact ⟨h.ids, h.points⟩
  · obtain ⟨hm, ⟨hld, _, l, i, _, rfl⟩ | ⟨_, rfl⟩⟩ := construct_cases hmoves
    · exact joined m _ _ hm fun _ => hld
    · apply joined m _ _ hm
      intro hpos
      change (0 : Int) ≤ -1 at hpos
      omega
  · obtain ⟨o, _, _, _, ⟨_, _, l, _, rfl⟩ | ⟨_, rfl⟩⟩ := destroy_cases hmoves
    · exact left m _
    · exact left m _
  · refine ⟨h.ids, ?_⟩
    intro m o q ho hw
    rw [enter_on s t f m ht] at hw
    by_cases hq : q = t
    · rw [hq, update_self] at hw
      split at hw
      · cases hf with
        | lock _ hp =>
          rw [hp] at hw
          cases hw
        | tryLock _ hp =>
          rw [hp] at hw
          cases hw
        | unlock _ hp =>
          rw [hp] at hw
          cases hw
      · cases hw
    · rw [update_of_ne hq] at hw
      exact h.points m o q ho hw
  · obtain ⟨f, o, l, o', p, hf, ho, htakes, rfl⟩ := hmoves.takes
    obtain ⟨hpoint, hid, hflag⟩ := htakes.watched
    have hself : f.point.watched = true → o.lockdep = true := by
      intro hw
      apply h.points f.obj o t ho
      rw [Sys.on_self hf]
      exact hw
    refine ⟨?_, ?_⟩
    · intro m1 o1 h1 hpos
      change update s.objs f.obj (some o') m1 = some o1 at h1
      by_cases hne : m1 = f.obj
      · rw [hne, update_self] at h1
        obtain rfl := Option.some.inj h1
        rw [hflag]
        rcases hid hpos with hpos | hw
        · exact h.ids _ o ho hpos
        · exact hself hw
      · rw [update_of_ne hne] at h1
        exact h.ids m1 o1 h1 hpos
    · intro m1 o1 q h1 hw
      change update s.objs f.obj (some o') m1 = some o1 at h1
      by_cases hne : m1 = f.obj
      · subst hne
        rw [update_self] at h1
        obtain rfl := Option.some.inj h1
        rw [after_on_self] at hw
        rw [hflag]
        by_cases hq : q = t
        · rw [hq, update_self] at hw
          rcases hpoint hw with hw | hld
          · exact hself hw
          · exact hld
        · rw [update_of_ne hq] at hw
          exact h.points _ o q ho hw
      · rw [update_of_ne hne] at h1
        rw [after_on_ne hf hne] at hw
        exact h.points m1 o1 q h1 hw

/-- A call uses its mutex's class before a step and after it, unless the step stores a -1. -/
theorem users_after [DecidableEq T] {t : T} {f : Frame M} {l : State T} {o o' : Obj T}
    {p : Option Point} {k : Nat} {m : M} (hf : s.calls t = some f) (ho : s.objs f.obj = some o)
    (hlands : Lands s.lockdep o f.point l o' p) (h : m ∈ s.users k) :
    m ∈ (s.after t f l o' p).users k ∨
      (m = f.obj ∧ o.id = k ∧ f.point.resets = true) := by
  obtain ⟨o1, ho1, huse⟩ := h
  by_cases hm : m = f.obj
  · subst hm
    rw [ho] at ho1
    obtain rfl := Option.some.inj ho1
    have here : ∀ {k : Nat}, (o'.id = k ∨ ∃ q, (update (s.on f.obj) t p q).bind Point.copy =
        some (k : Int)) → f.obj ∈ (s.after t f l o' p).users k := by
      intro k hk
      refine ⟨o', update_self _ _ _, ?_⟩
      unfold Sys.copy
      rw [after_on_self]
      exact hk
    have mine : o.id = k ∨ f.point.copy = some (k : Int) →
        f.obj ∈ (s.after t f l o' p).users k ∨ (f.obj = f.obj ∧ o.id = k ∧
          f.point.resets = true) := by
      intro hk
      rcases hlands.keeps k hk with hid | hcopy | hreset
      · exact Or.inl (here (Or.inl hid))
      · exact Or.inl (here (Or.inr ⟨t, by rw [update_self]; exact hcopy⟩))
      · refine Or.inr ⟨rfl, ?_, hreset⟩
        rcases hk with hk | hk
        · exact hk
        · rw [Point.copy_of_resets hreset] at hk
          have heq := Option.some.inj hk
          omega
    rcases huse with hid | ⟨q, hq⟩
    · exact mine (Or.inl hid)
    · unfold Sys.copy at hq
      by_cases hqt : q = t
      · rw [hqt, Sys.on_self hf] at hq
        exact mine (Or.inr hq)
      · exact Or.inl (here (Or.inr ⟨q, by rw [update_of_ne hqt]; exact hq⟩))
  · refine Or.inl ⟨o1, (update_of_ne hm _ _).trans ho1, ?_⟩
    unfold Sys.copy
    rw [after_on_ne hf hm]
    exact huse

/-- When no reference is added or dropped, the count stays exact just if no user is lost. -/
theorem Exact.same_iff (h : Exact s)
    (hrefs : ∀ k, refCount s'.lockdep k = refCount s.lockdep k)
    (hsub : ∀ k, s'.users k ⊆ s.users k) : Exact s' ↔ ∀ k, s.users k ⊆ s'.users k := by
  constructor
  · intro h' k
    obtain ⟨hfin, hcard⟩ := h k
    obtain ⟨_, hcard'⟩ := h' k
    rw [hrefs k] at hcard'
    exact (Set.eq_of_subset_of_ncard_le (hsub k) (by omega) hfin).ge
  · intro hsup k
    rw [Set.Subset.antisymm (hsub k) (hsup k), hrefs k]
    exact h k

theorem Exact.same (h : Exact s) (hrefs : ∀ k, refCount s'.lockdep k = refCount s.lockdep k)
    (husers : ∀ k, s'.users k = s.users k) : Exact s' := by
  intro k
  rw [husers k, hrefs k]
  exact h k

theorem Exact.more_iff (h : Exact s) {m : M} {k₀ : Nat}
    (hone : OneMore s.lockdep s'.lockdep k₀) (hself : s'.users k₀ = insert m (s.users k₀))
    (hrest : ∀ k, k ≠ k₀ → s'.users k = s.users k) : Exact s' ↔ m ∉ s.users k₀ := by
  constructor
  · intro h' hm
    obtain ⟨_, hcard⟩ := h k₀
    obtain ⟨_, hcard'⟩ := h' k₀
    rw [hself, Set.insert_eq_of_mem hm, hone k₀, if_pos rfl] at hcard'
    omega
  · intro hm k
    obtain ⟨hfin, hcard⟩ := h k
    rw [hone k]
    by_cases hk : k = k₀
    · subst hk
      rw [hself, if_pos rfl, Set.ncard_insert_of_notMem hm hfin]
      exact ⟨hfin.insert m, by omega⟩
    · rw [hrest k hk, if_neg hk]
      exact ⟨hfin, by omega⟩

theorem Exact.fewer (h : Exact s) {m : M} {k₀ : Nat} (hm : m ∈ s.users k₀)
    (hrefs : ∀ k, refCount s'.lockdep k = refCount s.lockdep k - if k = k₀ then 1 else 0)
    (hself : s'.users k₀ = s.users k₀ \ {m}) (hrest : ∀ k, k ≠ k₀ → s'.users k = s.users k) :
    Exact s' := by
  intro k
  obtain ⟨hfin, hcard⟩ := h k
  rw [hrefs k]
  by_cases hk : k = k₀
  · subst hk
    have hsum := Set.ncard_sdiff_singleton_add_one hm hfin
    rw [hself, if_pos rfl]
    exact ⟨hfin.subset Set.sdiff_subset, by omega⟩
  · rw [hrest k hk, if_neg hk]
    exact ⟨hfin, by omega⟩

theorem UserInv.one_class (h : UserInv s) {m : M} {k k' : Nat} (hk : m ∈ s.users k)
    (hk' : m ∈ s.users k') : k = k' := by
  obtain ⟨o, ho, hcls⟩ := h.registered hk
  obtain ⟨o', ho', hcls'⟩ := h.registered hk'
  rw [ho] at ho'
  obtain rfl := Option.some.inj ho'
  rw [hcls] at hcls'
  exact Option.some.inj hcls'

theorem UserInv.exact_after [DecidableEq T] {t : T} {f : Frame M} {o o' : Obj T} {l : State T}
    {p : Option Point} (h : UserInv s) (hexact : Exact s) (hf : s.calls t = some f)
    (ho : s.objs f.obj = some o) (hlands : Lands s.lockdep o f.point l o' p) :
    Exact (s.after t f l o' p) ↔ Once s (.step t) := by
  have honce : Once s (.step t) ↔ (f.point.registers = true → ∀ k, f.obj ∉ s.users k) ∧
      (f.point.resets = true → ∀ k : Nat, o.id = k → ∃ q, s.copy f.obj q = some (k : Int)) := by
    constructor
    · intro hall
      obtain ⟨hreg, hreset⟩ := hall f hf
      exact ⟨hreg, fun hr k hk => hreset hr o ho k hk⟩
    · intro hall g hg
      rw [Option.mem_def, hf] at hg
      obtain rfl := Option.some.inj hg
      refine ⟨hall.1, fun hr o1 ho1 k hk => hall.2 hr k ?_⟩
      rw [Option.mem_def, ho] at ho1
      obtain rfl := Option.some.inj ho1
      exact hk
  rw [honce]
  rcases hlands.charge with ⟨hnot, hrefs, hnew⟩ | ⟨hreg, heq, k₀, hk₀, hone⟩
  · have hsub : ∀ k, (s.after t f l o' p).users k ⊆ s.users k := by
      intro k m hm
      rcases after_users hf ho hm with hm | ⟨hm, hcase⟩
      · exact hm
      · refine ⟨o, hm ▸ ho, (hnew k hcase).imp_right fun hcopy => ⟨t, ?_⟩⟩
        unfold Sys.copy
        rw [hm, Sys.on_self hf]
        exact hcopy
    rw [hexact.same_iff hrefs hsub, hnot]
    constructor
    · intro hsup
      refine ⟨nofun, ?_⟩
      intro hreset k hk
      obtain ⟨hneg, hp⟩ := hlands.reset hreset
      obtain ⟨o1, ho1, huse⟩ := hsup k ⟨o, ho, Or.inl hk⟩
      change update s.objs f.obj (some o') f.obj = some o1 at ho1
      rw [update_self] at ho1
      obtain rfl := Option.some.inj ho1
      unfold Sys.copy at huse ⊢
      rw [after_on_self] at huse
      rcases huse with hid | ⟨q, hq⟩
      · omega
      · by_cases hqt : q = t
        · rw [hqt, update_self, hp] at hq
          cases hq
        · rw [update_of_ne hqt] at hq
          exact ⟨q, hq⟩
    · intro hall k m hm
      rcases users_after hf ho hlands hm with hm | ⟨rfl, hid, hreset⟩
      · exact hm
      · obtain ⟨q, hq⟩ := hall.2 hreset k hid
        refine ⟨o', update_self _ _ _, Or.inr ⟨q, ?_⟩⟩
        unfold Sys.copy at hq ⊢
        rw [after_on_self]
        by_cases hqt : q = t
        · rw [hqt, Sys.on_self hf] at hq
          have hneg := Point.copy_of_resets hreset
          have hq' : f.point.copy = some (k : Int) := hq
          rw [hneg] at hq'
          have hk := Option.some.inj hq'
          omega
        · rw [update_of_ne hqt]
          exact hq
  · have hnot : f.point.resets = false := Point.registers_resets hreg
    have hsup : ∀ k, s.users k ⊆ (s.after t f l o' p).users k := by
      intro k m hm
      rcases users_after hf ho hlands hm with hm | ⟨_, _, hreset⟩
      · exact hm
      · rw [hnot] at hreset
        cases hreset
    have hmine : f.obj ∈ (s.after t f l o' p).users k₀ := by
      refine ⟨o', update_self _ _ _, Or.inr ⟨t, ?_⟩⟩
      unfold Sys.copy
      rw [after_on_self, update_self]
      exact hk₀
    have hold : ∀ k, ∀ m ∈ (s.after t f l o' p).users k, m ∈ s.users k ∨ (m = f.obj ∧ k = k₀) := by
      intro k m hm
      rcases after_users hf ho hm with hm | ⟨hm, hid | hcopy⟩
      · exact Or.inl hm
      · exact Or.inl ⟨o, hm ▸ ho, Or.inl (heq ▸ hid)⟩
      · rw [hk₀] at hcopy
        have hi := Option.some.inj hcopy
        exact Or.inr ⟨hm, by omega⟩
    have hself : (s.after t f l o' p).users k₀ = insert f.obj (s.users k₀) := by
      apply Set.Subset.antisymm
      · intro m hm
        rcases hold k₀ m hm with hm | ⟨hm, _⟩
        · exact Set.mem_insert_of_mem _ hm
        · exact hm ▸ Set.mem_insert _ _
      · exact Set.insert_subset hmine (hsup k₀)
    have hrest : ∀ k, k ≠ k₀ → (s.after t f l o' p).users k = s.users k := by
      intro k hk
      refine Set.Subset.antisymm (fun m hm => ?_) (hsup k)
      exact (hold k m hm).resolve_right fun h2 => hk h2.2
    rw [hexact.more_iff hone hself hrest, hreg, hnot]
    constructor
    · intro hfree
      refine ⟨fun _ k hk => ?_, nofun⟩
      obtain rfl := (h.after hf ho hlands).one_class (hsup k hk) hmine
      exact hfree hk
    · intro hall
      exact hall.1 rfl k₀

/-! Runs within one session. -/

/-- Lockdep is not torn down, and a mutex goes while no call uses it. -/
def OneSession (s : Sys T M) : Act T M → Prop
  | .globalDestroy => False
  | .destroy m => ∀ t, ∀ f ∈ s.calls t, f.obj ≠ m
  | _ => True

omit [DecidableEq M] in
theorem OneSession.lifetimes {a : Act T M} (h : OneSession s a) : Lifetimes s a := by
  cases a with
  | destroy m => exact h
  | _ => exact trivial

theorem OffInv.no_users (h : OffInv s) (k : Nat) : s.users k = ∅ := by
  apply Set.eq_empty_of_forall_notMem
  rintro m ⟨o, ho, hid | ⟨t, ht⟩⟩
  · have hneg := (h.ids m o ho).1
    omega
  · have hneg := h.copies m t k ht
    omega

theorem OffInv.exact (h : OffInv s) : Exact s := by
  intro k
  rw [h.no_users k]
  unfold refCount
  rw [h.lockRefs k]
  simp

theorem OffInv.once (h : OffInv s) (a : Act T M) : Once s a := by
  cases a with
  | step t =>
    intro f _
    refine ⟨fun _ k => ?_, fun _ o ho k hk => ?_⟩
    · rw [h.no_users k]
      exact Set.notMem_empty _
    · have hneg := (h.ids _ o ho).1
      omega
  | _ => exact trivial

structure OnceInv (s : Sys T M) : Prop where
  session : SessionInv s
  watches : Watches s
  exact : Exact s

theorem Exact.join (h : Exact s) (hinv : OwnerInv s) {m : M} {o : Obj T} {l : State T}
    (hm : s.objs m = none) (hcharge : (o.id = -1 ∧ ∀ k, refCount l k = refCount s.lockdep k) ∨
      ∃ k : Nat, o.id = k ∧ OneMore s.lockdep l k) :
    Exact (⟨l, update s.objs m (some o), s.calls⟩ : Sys T M) := by
  have hnot : ∀ k, m ∉ s.users k := by
    rintro k ⟨o1, ho1, _⟩
    rw [hm] at ho1
    cases ho1
  rcases hcharge with ⟨hneg, hrefs⟩ | ⟨k₀, hk₀, hone⟩
  · apply (h.same_iff hrefs ?_).mpr
    · intro k x hx
      exact (joined_users hinv hm).mpr (Or.inl hx)
    · intro k x hx
      refine ((joined_users hinv hm).mp hx).resolve_right fun h2 => ?_
      have hid := h2.2
      omega
  · refine (h.more_iff hone ?_ ?_).mpr (hnot k₀)
    · ext x
      refine (joined_users hinv hm).trans ?_
      rw [Set.mem_insert_iff]
      constructor
      · exact fun hx => hx.elim Or.inr fun h2 => Or.inl h2.1
      · exact fun hx => hx.elim (fun heq => Or.inr ⟨heq, hk₀⟩) Or.inl
    · intro k hk
      ext x
      refine (joined_users hinv hm).trans ⟨fun hx => hx.resolve_right fun h2 => ?_, Or.inl⟩
      have hid := h2.2
      omega

theorem Exact.drop (h : Exact s) {m : M} (hm : ∀ k, m ∉ s.users k) :
    Exact (⟨s.lockdep, update s.objs m none, s.calls⟩ : Sys T M) := by
  refine h.same (fun _ => rfl) fun k => ?_
  ext x
  refine gone_users.trans ⟨And.left, fun hx => ⟨hx, ?_⟩⟩
  rintro rfl
  exact hm k hx

theorem Exact.leave (h : Exact s) (hs : UserInv s) {m : M} {o : Obj T} {l : State T}
    (hidle : ∀ t, ∀ f ∈ s.calls t, f.obj ≠ m) (hm : s.objs m = some o)
    (hun : lockdepUnregister s.lockdep o.id = .ok l) :
    Exact (⟨l, update s.objs m none, s.calls⟩ : Sys T M) := by
  have hcopy : ∀ t, s.copy m t = none := by
    intro t
    apply copy_eq_none
    unfold Sys.on
    split
    · next f hf => exact if_neg (hidle t f hf)
    · rfl
  have only : ∀ k, m ∈ s.users k → o.id = k := by
    rintro k ⟨o1, ho1, huse⟩
    rw [hm] at ho1
    obtain rfl := Option.some.inj ho1
    rcases huse with hid | ⟨t, ht⟩
    · exact hid
    · rw [hcopy t] at ht
      cases ht
  rcases hs.idOk m o hm with ⟨hneg, _⟩ | ⟨k, hk, _⟩
  · have hsame : l = s.lockdep := by
      rw [hneg] at hun
      exact (Except.ok.inj hun).symm
    subst hsame
    apply h.drop
    intro k hx
    have hid := only k hx
    omega
  · rw [hk] at hun
    obtain ⟨_, _, hrefs⟩ := unregister_refs hs.registry hs.refs hun
    refine h.fewer ⟨o, hm, Or.inl hk⟩ hrefs ?_ ?_
    · ext x
      exact gone_users
    · intro j hj
      ext x
      refine gone_users.trans ⟨And.left, fun hx => ⟨hx, ?_⟩⟩
      rintro rfl
      have hid := only j hx
      omega

variable [DecidableEq T] {movedFrom : String → String}

/-- The step lemma: the count stays exact just if the step registers no user once more. -/
theorem OnceInv.exact_iff {a : Act T M} (h : OnceInv s) (hok : OneSession s a)
    (hmoves : Moves movedFrom s a s') : Exact s' ↔ Once s a := by
  have hinv := h.session.owner
  rcases h.session.session with hs | hs
  · rcases hmoves.cases with ⟨rfl, rfl⟩ | ⟨rfl, _⟩ | ⟨m, group, ld, recursive, rfl⟩ | ⟨m, rfl⟩ |
      ⟨t, f, hf, ht, _, rfl⟩ | ⟨t, rfl⟩
    · refine iff_of_true (h.exact.same ?_ fun _ => rfl) trivial
      intro k
      unfold lockdepGlobalInit
      rw [if_pos hs.registry.enabled]
    · exact hok.elim
    · refine iff_of_true ?_ trivial
      obtain ⟨hm, ⟨_, _, l, i, hreg, rfl⟩ | ⟨_, rfl⟩⟩ := construct_cases hmoves
      · obtain ⟨_, _, k, hk, hone⟩ := register_refs hs.registry hs.refs hreg
        exact h.exact.join hinv hm (Or.inr ⟨k, hk, hone⟩)
      · exact h.exact.join hinv hm (Or.inl ⟨rfl, fun _ => rfl⟩)
    · refine iff_of_true ?_ trivial
      obtain ⟨o, hm, _, _, ⟨_, _, l, hun, rfl⟩ | ⟨hoff, rfl⟩⟩ := destroy_cases hmoves
      · exact h.exact.leave hs hok hm hun
      · have hld : o.lockdep = false := by
          rcases hoff with hld | hoff
          · exact hld
          · rw [hs.registry.enabled] at hoff
            cases hoff
        apply h.exact.drop
        intro k hx
        obtain ⟨o1, ho1, hflag⟩ := h.watches.of_user hx
        rw [hm] at ho1
        obtain rfl := Option.some.inj ho1
        rw [hld] at hflag
        cases hflag
    · have honce : Once s a := by
        cases hf <;> exact trivial
      refine iff_of_true (h.exact.same (fun _ => rfl) fun k => ?_) honce
      unfold Sys.users
      simp only [enter_copy hf ht]
    · obtain ⟨f, o, l, o', p, hf, ho, htakes, rfl⟩ := hmoves.takes
      apply hs.exact_after h.exact hf ho
      apply htakes.lands hs.registry hs.refs (hs.idOk _ o ho)
      intro i hi
      apply hs.copyOk f.obj o t i ho
      unfold Sys.copy
      rw [Sys.on_self hf]
      exact hi
  · refine iff_of_true ?_ (hs.once a)
    by_cases hini : a = .globalInit
    · subst hini
      rcases hmoves.cases with ⟨_, rfl⟩ | ⟨heq, _⟩ | ⟨_, _, _, _, heq⟩ | ⟨_, heq⟩ |
        ⟨_, _, hf, _⟩ | ⟨_, heq⟩
      · intro k
        have hnone : (⟨lockdepGlobalInit s.lockdep, s.objs, s.calls⟩ : Sys T M).users k = ∅ :=
          hs.no_users k
        rw [hnone]
        unfold refCount
        rw [hs.restarted.lockRefs, hs.lockRefs k]
        simp
      · cases heq
      · cases heq
      · cases heq
      · cases hf
      · cases heq
    · exact (hs.step hini hmoves).exact

theorem OnceInv.step {a : Act T M} (h : OnceInv s) (hok : OneSession s a) (honce : Once s a)
    (hmoves : Moves movedFrom s a s') : OnceInv s' := by
  have hrestarts : Restarts s a := by
    cases a with
    | globalDestroy => exact hok.elim
    | _ => exact trivial
  exact ⟨h.session.step hok.lifetimes hrestarts hmoves, h.watches.step h.session.owner hmoves,
    (h.exact_iff hok hmoves).mpr honce⟩

/-- What one registration for each mutex comes to. -/
structure RegisteredOnce (s : Sys T M) : Prop where
  exact : Exact s
  one : ∀ m k k', m ∈ s.users k → m ∈ s.users k' → k = k'
  /-- With the last mutex of a class the name and the id go. -/
  freed : s.lockdep.gLockdep = true → ∀ k, s.users k = ∅ → s.lockdep.freeIds k = true ∧
    s.lockdep.lockNames k = none ∧ ∀ name, s.lockdep.lockIds name ≠ some k

omit [DecidableEq T] in
theorem OnceInv.registered (h : OnceInv s) : RegisteredOnce s := by
  rcases h.session.session with hs | hs
  · refine ⟨h.exact, fun m k k' hk hk' => hs.one_class hk hk', fun _ k hk => ?_⟩
    have hcount := (h.exact k).2
    rw [hk, Set.ncard_empty] at hcount
    have hdead : ¬ Registered s.lockdep k := by
      intro hreg
      have hlive := hs.refs.live k hreg
      omega
    have hnone : s.lockdep.lockNames k = none := by
      by_contra hsome
      exact hdead (Option.ne_none_iff_exists'.mp hsome)
    refine ⟨?_, hnone, ?_⟩
    · by_contra hused
      exact hdead (hs.tight k (by simpa using hused))
    · intro name hname
      rw [(hs.registry.name_iff name k).mp hname] at hnone
      cases hnone
  · refine ⟨h.exact, ?_, ?_⟩
    · intro m k k' hk _
      rw [hs.no_users k] at hk
      exact absurd hk (Set.notMem_empty m)
    · intro hon
      rw [hs.off] at hon
      cases hon

/-- In every run of one session whose steps all register a mutex only while it uses no class,
`lock_refs` counts each mutex once and the last mutex of a class frees its id; and a further step
keeps the count just if it does so too. -/
theorem registered_once_iff (movedFrom : String → String) {s : Sys T M}
    (h : Reachable (· = Sys.start)
      (fun s a s' => OneSession s a ∧ Once s a ∧ Moves movedFrom s a s') s) :
    RegisteredOnce s ∧ ∀ a s', OneSession s a → Moves movedFrom s a s' →
      (Exact s' ↔ Once s a) := by
  have hinv : OnceInv s := by
    refine h.invariant ?_ ?_
    · intro s hs
      subst hs
      refine ⟨SessionInv.start, ⟨nofun, nofun⟩, ?_⟩
      intro k
      have hnone : (Sys.start : Sys T M).users k = ∅ := by
        apply Set.eq_empty_of_forall_notMem
        rintro m ⟨o, ho, _⟩
        cases ho
      rw [hnone]
      simp [refCount, Sys.start, initial]
    · intro s a s' hs hstep
      exact hs.step hstep.1 hstep.2.1 hstep.2.2
  exact ⟨hinv.registered, fun a s' hok hmoves => hinv.exact_iff hok hmoves⟩

end Steps

section Runs

instance {T M : Type} [Fintype T] [DecidableEq M] (s : Sys T M) (a : Act T M) :
    Decidable (OneSession s a) :=
  match a with
  | .globalDestroy => inferInstanceAs (Decidable False)
  | .destroy m => inferInstanceAs (Decidable (∀ t, ∀ f ∈ s.calls t, f.obj ≠ m))
  | .globalInit | .construct _ _ _ _ | .lock _ _ _ | .tryLock _ _ _ | .unlock _ _ _ | .step _ =>
    inferInstanceAs (Decidable True)

/-- A mutex built before `lockdep_global_init` registers at its first lock. -/
theorem registered_once_iff_first : ∃ s : Sys Bool (Fin 1), refCount s.lockdep 0 = 1 ∧
    RegisteredOnce s ∧ ∀ a s', OneSession s a → Moves (fun _ => "") s a s' →
      (Exact s' ↔ Once s a) := by
  have next : ∀ {s s' : Sys Bool (Fin 1)} (a : Act Bool (Fin 1)), Reachable (· = Sys.start)
        (fun s a s' => OneSession s a ∧ Once s a ∧ Moves (fun _ => "") s a s') s →
      OneSession s a → Once s a → exec (fun _ => "") s a = .ok s' → Reachable (· = Sys.start)
        (fun s a s' => OneSession s a ∧ Once s a ∧ Moves (fun _ => "") s a s') s' :=
    fun a hs hok honce hexec => hs.step ⟨hok, honce, .step hexec⟩
  have quiet : ∀ {s : Sys Bool (Fin 1)} {t : Bool} {f : Frame (Fin 1)}, s.calls t = some f →
      f.point.registers = false → f.point.resets = false → Once s (.step t) := by
    intro s t f hf hreg hreset g hg
    rw [Option.mem_def, hf] at hg
    obtain rfl := Option.some.inj hg
    rw [hreg, hreset]
    exact ⟨nofun, nofun⟩
  have h1 := next (.construct 0 "m1" true false) (.start rfl) trivial trivial rfl
  have h2 := next .globalInit h1 trivial trivial rfl
  have h3 := next (.lock true 0 false) h2 trivial trivial rfl
  have h4 := next (.step true) h3 trivial (quiet rfl rfl rfl) rfl
  have h5 := next (.step true) h4 trivial (quiet rfl rfl rfl) rfl
  have h6 := next (.step true) h5 trivial ?_ rfl
  · exact ⟨_, rfl, registered_once_iff _ h6⟩
  · intro f hf
    obtain rfl := Option.some.inj hf
    refine ⟨?_, nofun⟩
    rintro _ k ⟨o, ho, hid | ⟨t, ht⟩⟩
    · obtain rfl := Option.some.inj ho
      change (-1 : Int) = k at hid
      omega
    · cases t with
      | false => cases ht
      | true =>
        have hk : (-1 : Int) = k := Option.some.inj ht
        omega

/-- Two threads read the -1 of one mutex: both register, and once the mutex is destroyed its class
is still there. -/
theorem registered_twice : ¬ ∀ s : Sys Bool (Fin 1),
    Reachable (· = Sys.start) (fun s a s' => OneSession s a ∧ Moves (fun _ => "") s a s') s →
    RegisteredOnce s := by
  have hrun : ∃ s ∈ execAll (exec fun _ => "") (fun s a => decide (OneSession s a))
      (Sys.start : Sys Bool (Fin 1))
      ([.construct 0 "m1" true false, .globalInit, .lock true 0 false, .lock false 0 false,
          .step true, .step true, .step false, .step false, .step true, .step false] ++
        List.replicate 9 (.step true) ++ unlocked true 0 ++
        List.replicate 9 (.step false) ++ unlocked false 0 ++ [.destroy 0]),
      (s.objs 0).isNone = true ∧ s.lockdep.gLockdep = true ∧ s.lockdep.lockNames 0 = some "m1" := by
    decide +kernel
  obtain ⟨s, hs, hgone, hon, hname⟩ := hrun
  intro hclaim
  have hreach : Reachable (· = Sys.start)
      (fun s a s' => OneSession s a ∧ Moves (fun _ => "") s a s') s := by
    refine Reachable.run (.start rfl) (execAll_run ?_ hs)
    intro s a s' hok hexec
    exact ⟨of_decide_eq_true hok, .step hexec⟩
  have hempty : s.users 0 = ∅ := by
    apply Set.eq_empty_of_forall_notMem
    rintro m ⟨o, ho, _⟩
    obtain rfl : m = 0 := Subsingleton.elim m 0
    rw [ho] at hgone
    cases hgone
  rw [((hclaim s hreach).freed hon 0 hempty).2.1] at hname
  cases hname

end Runs

end LockdepSpdk.Mutex
