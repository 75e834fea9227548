import LockdepSpdk.Mutex.Deadlock
import LockdepSpdk.Mutex.Once

/-!
# What a thread holds

`held` has one entry for a class, whatever the number of mutexes of that class a
thread owns. It says what the thread owns as long as nobody unlocks one of two
mutexes of one class: `lockdep_will_unlock` erases the entry of both.
-/

namespace LockdepSpdk.Mutex

set_option autoImplicit false

open Function Lockdep Transition

section Points

/-- The owner has not stored the `id` of the class yet. -/
@[simp]
def Point.unstored : Point → Bool
  | .lockedTest | .lockedRead | .lockedBody _ | .lockedStore _ => true
  | _ => false

@[simp]
def Point.unsettled : Point → Bool
  | .willLockStore i | .lockedStore i | .willUnlockBody i | .willUnlockStore i => decide (i < 0)
  | _ => false

/-- `lockdep_will_unlock` is about to run. -/
@[simp]
def Point.erases : Point → Bool
  | .willUnlockBody _ => true
  | _ => false

end Points

section Takes
variable {T M : Type} {l l' : State T} {t : T} {f : Frame M} {o o' : Obj T} {p₀ : Point}
  {p : Option Point}

theorem lockdepEnabled_plain {noLockdep : Bool} (h : lockdepEnabled l o noLockdep = true) :
    o.recursive = false := by
  unfold lockdepEnabled at h
  split at h
  · cases h
  · next hrec => exact Bool.not_eq_true _ ▸ hrec

theorem ensure_nonneg {l1 : State T} {name : String} {id i : Int} (hl : RegistryInv l)
    (h : ensureId l name id = .ok (l1, i)) : 0 ≤ i := by
  unfold ensureId at h
  split at h
  · obtain ⟨_, _, k, hk, _⟩ := register_grows hl h
    omega
  · obtain ⟨_, rfl⟩ := ok_mk_inj h
    omega

variable [DecidableEq T]

/-- What a step of `t` on its mutex means for `held`: it records the mutex, erases its class, or
leaves both `held` and what is recorded of the mutex as they are. -/
theorem Takes.records (htakes : Takes l t f o p₀ l' o' p) (hl : RegistryInv l)
    (hen : lockdepEnabled l o f.noLockdep = true)
    (hinside : p₀.inside = true → o.owner = some t) (hdeep : o.owner = some t → o.depth ≤ 1)
    (hcopy : ∀ i, p₀.copy = some i → IdOk l o i) (hset : p₀.unsettled = false) :
    (p₀.erases = false ∧ l'.held = l.held ∧
      ((o'.owner = some t ∧ p.any Point.unrecorded = false) ↔
        (o.owner = some t ∧ p₀.unrecorded = false))) ∨
    (∃ k : Nat, l'.lockIds o.cls = some k ∧ o.owner = some t ∧ o' = o ∧
      p₀.unrecorded = true ∧ p.any Point.unrecorded = false ∧
      l'.held = update l.held t (insertKey k (l.held t))) ∨
    ∃ k : Nat, p₀ = .willUnlockBody k ∧ l'.lockIds o.cls = some k ∧ o.owner = some t ∧ o' = o ∧
      p.any Point.unrecorded = true ∧
      l'.held = update l.held t ((l.held t).filter (· ≠ k)) := by
  have hplain := lockdepEnabled_plain hen
  have quiet : ∀ {o' : Obj T} {p : Option Point}, p₀.erases = false → o'.owner = o.owner →
      p.any Point.unrecorded = p₀.unrecorded → p₀.erases = false ∧ l.held = l.held ∧
      ((o'.owner = some t ∧ p.any Point.unrecorded = false) ↔
        (o.owner = some t ∧ p₀.unrecorded = false)) := by
    intro o' p herase howner hp
    rw [howner, hp]
    exact ⟨herase, rfl, Iff.rfl⟩
  have acquire : ∀ {o' : Obj T}, p₀.erases = false → Acquires t o o' →
      p₀.erases = false ∧ l.held = l.held ∧
      ((o'.owner = some t ∧ (some Point.lockedTest).any Point.unrecorded = false) ↔
        (o.owner = some t ∧ p₀.unrecorded = false)) := by
    intro o' herase hacq
    refine ⟨herase, rfl, iff_of_false ?_ ?_⟩
    · exact fun h => absurd h.2 (by decide)
    · intro h
      cases hacq with
      | first hfree =>
        rw [hfree] at h
        cases h.1
      | again _ hrec _ =>
        rw [hplain] at hrec
        cases hrec
  cases htakes with
  | lockTest => exact Or.inl (quiet rfl rfl (by split <;> rfl))
  | willLockRead => exact Or.inl (quiet rfl rfl rfl)
  | willLockBody hwl =>
    obtain ⟨l1, g, hens, _, rfl⟩ := lockdepWillLock_cases hl.enabled hwl
    obtain ⟨_, hheld, _⟩ := (hcopy _ rfl).ensure hl hens
    exact Or.inl ⟨rfl, hheld, Iff.rfl⟩
  | willLockStore i => exact Or.inl (quiet rfl rfl rfl)
  | tryImpl hacq => exact Or.inl (acquire rfl hacq)
  | busy => exact Or.inl (quiet rfl rfl (by split <;> rfl))
  | lockImpl hacq => exact Or.inl (acquire rfl hacq)
  | throws => exact Or.inl (quiet rfl rfl rfl)
  | full => exact Or.inl (quiet rfl rfl rfl)
  | lockedTest =>
    rw [if_pos hen]
    exact Or.inl (quiet rfl rfl rfl)
  | lockedRead => exact Or.inl (quiet rfl rfl rfl)
  | lockedBody hlo =>
    obtain ⟨l1, hens, rfl⟩ := lockdepLocked_cases hl.enabled hlo
    obtain ⟨_, hheld, k, hk, hcls⟩ := (hcopy _ rfl).ensure hl hens
    refine Or.inr (Or.inl ⟨k, hcls, hinside rfl, rfl, rfl, rfl, ?_⟩)
    change update l1.held t (insertKey _ (l1.held t)) = _
    rw [hheld, hk]
    exact rfl
  | lockedStore i => exact Or.inl (quiet rfl rfl rfl)
  | postLockCheck => exact Or.inl (quiet rfl rfl rfl)
  | postLockOwner => exact Or.inl (quiet rfl rfl rfl)
  | postLockCount => exact Or.inl (quiet rfl rfl rfl)
  | preUnlockCheck => exact Or.inl (quiet rfl rfl rfl)
  | preUnlockOwner => exact Or.inl (quiet rfl rfl rfl)
  | preUnlockTest => exact Or.inl (quiet rfl rfl (by split <;> rfl))
  | preUnlockClear => exact Or.inl (quiet rfl rfl rfl)
  | preUnlockCount => exact Or.inl (quiet rfl rfl rfl)
  | unlockTest =>
    rw [if_pos hen]
    exact Or.inl (quiet rfl rfl rfl)
  | willUnlockRead => exact Or.inl (quiet rfl rfl rfl)
  | @willUnlockBody i i' _ hwu =>
    have hnn : ¬ i < 0 := of_decide_eq_false hset
    obtain ⟨_, ⟨hneg, _⟩ | ⟨_, rfl⟩⟩ := lockdepWillUnlock_cases hl.enabled hwu
    · exact absurd hneg hnn
    · rcases hcopy i rfl with ⟨hneg, _⟩ | ⟨k, hk, hcls⟩
      · omega
      · subst hk
        exact Or.inr (Or.inr ⟨k, rfl, hcls, hinside rfl, rfl, rfl, rfl⟩)
  | willUnlockStore i => exact Or.inl (quiet rfl rfl rfl)
  | unlockImpl hrel =>
    refine Or.inl ⟨rfl, rfl, iff_of_false ?_ ?_⟩
    · intro h
      cases hrel with
      | last _ _ => cases h.1
      | one howner hmany =>
        have hone := hdeep howner
        omega
    · exact fun h => absurd h.2 (by decide)

omit [DecidableEq T] in
theorem unregister_ids {id : Int} {c : String} {k : Nat} (h : lockdepUnregister l id = .ok l')
    (hk : l'.lockIds c = some k) : l.lockIds c = some k := by
  rcases lockdepUnregister_cases h with ⟨_, rfl⟩ | ⟨j, name, _, _, ⟨_, rfl⟩ | ⟨_, rfl⟩⟩
  · exact hk
  · rw [freeClass_lockIds] at hk
    by_cases hc : c = name
    · rw [hc, update_self] at hk
      cases hk
    · rw [update_of_ne hc] at hk
      exact hk
  · exact hk

theorem Takes.kind (h : Takes l t f o p₀ l' o' p) :
    o'.lockdep = o.lockdep ∧ o'.recursive = o.recursive := by
  cases h with
  | tryImpl hacq => cases hacq <;> exact ⟨rfl, rfl⟩
  | lockImpl hacq => cases hacq <;> exact ⟨rfl, rfl⟩
  | unlockImpl hrel => cases hrel <;> exact ⟨rfl, rfl⟩
  | _ => exact ⟨rfl, rfl⟩

theorem Takes.stored (htakes : Takes l t f o p₀ l' o' p) (hl : RegistryInv l)
    (hen : lockdepEnabled l o f.noLockdep = true)
    (hinside : p₀.inside = true → o.owner = some t)
    (hstored : o.owner = some t → p₀.unstored = false → 0 ≤ o.id)
    (hset : p₀.unsettled = false) :
    p.any Point.unsettled = false ∧
      (0 ≤ o'.id ∨ (o'.id = o.id ∧ (o'.owner = some t → p.any Point.unstored = false →
        o.owner = some t ∧ p₀.unstored = false))) := by
  have quiet : ∀ {o' : Obj T} {p : Option Point}, o'.id = o.id → o'.owner = o.owner →
      p.any Point.unsettled = false → p.any Point.unstored = p₀.unstored →
      p.any Point.unsettled = false ∧
      (0 ≤ o'.id ∨ (o'.id = o.id ∧ (o'.owner = some t → p.any Point.unstored = false →
        o.owner = some t ∧ p₀.unstored = false))) := by
    intro o' p hid howner hp hst
    rw [howner, hst]
    exact ⟨hp, Or.inr ⟨hid, And.intro⟩⟩
  have acquire : ∀ {o' : Obj T}, Acquires t o o' →
      (some Point.lockedTest).any Point.unsettled = false ∧
      (0 ≤ o'.id ∨ (o'.id = o.id ∧ (o'.owner = some t →
        (some Point.lockedTest).any Point.unstored = false →
        o.owner = some t ∧ p₀.unstored = false))) := by
    intro o' hacq
    refine ⟨rfl, Or.inr ⟨?_, fun _ h => absurd h (by decide)⟩⟩
    cases hacq <;> rfl
  cases htakes with
  | lockTest => exact quiet rfl rfl (by split <;> rfl) (by split <;> rfl)
  | willLockRead => exact quiet rfl rfl rfl rfl
  | willLockBody hwl =>
    obtain ⟨l1, g, hens, _, rfl⟩ := lockdepWillLock_cases hl.enabled hwl
    exact quiet rfl rfl (decide_eq_false (Int.not_lt.mpr (ensure_nonneg hl hens))) rfl
  | willLockStore i => exact ⟨rfl, Or.inl (Int.not_lt.mp (of_decide_eq_false hset))⟩
  | tryImpl hacq => exact acquire hacq
  | busy => exact quiet rfl rfl (by split <;> rfl) (by split <;> rfl)
  | lockImpl hacq => exact acquire hacq
  | throws => exact quiet rfl rfl rfl rfl
  | full => exact quiet rfl rfl rfl rfl
  | lockedTest =>
    rw [if_pos hen]
    exact quiet rfl rfl rfl rfl
  | lockedRead => exact quiet rfl rfl rfl rfl
  | lockedBody hlo =>
    obtain ⟨l1, hens, rfl⟩ := lockdepLocked_cases hl.enabled hlo
    exact quiet rfl rfl (decide_eq_false (Int.not_lt.mpr (ensure_nonneg hl hens))) rfl
  | lockedStore i => exact ⟨rfl, Or.inl (Int.not_lt.mp (of_decide_eq_false hset))⟩
  | postLockCheck => exact quiet rfl rfl rfl rfl
  | postLockOwner => exact quiet rfl rfl rfl rfl
  | postLockCount => exact quiet rfl rfl rfl rfl
  | preUnlockCheck => exact quiet rfl rfl rfl rfl
  | preUnlockOwner => exact quiet rfl rfl rfl rfl
  | preUnlockTest => exact quiet rfl rfl (by split <;> rfl) (by split <;> rfl)
  | preUnlockClear => exact quiet rfl rfl rfl rfl
  | preUnlockCount => exact quiet rfl rfl rfl rfl
  | unlockTest => exact quiet rfl rfl (by split <;> rfl) (by split <;> rfl)
  | willUnlockRead =>
    have hid := hstored (hinside rfl) rfl
    exact quiet rfl rfl (decide_eq_false (Int.not_lt.mpr hid)) rfl
  | willUnlockBody hwu =>
    obtain ⟨rfl, _⟩ := lockdepWillUnlock_cases hl.enabled hwu
    exact quiet rfl rfl hset rfl
  | willUnlockStore i => exact ⟨rfl, Or.inl (Int.not_lt.mp (of_decide_eq_false hset))⟩
  | unlockImpl hrel =>
    refine ⟨rfl, Or.inr ?_⟩
    cases hrel with
    | last _ _ => exact ⟨rfl, nofun⟩
    | one howner _ => exact ⟨rfl, fun _ _ => ⟨howner, rfl⟩⟩

end Takes

section Runs
variable {T M : Type}

/-- Thread `t` owns `m`, of class `c`, and no call of its own has `m` out of `held`. -/
def Records (s : Sys T M) [DecidableEq M] (t : T) (m : M) (c : String) : Prop :=
  ∃ o, s.objs m = some o ∧ o.owner = some t ∧ (s.on m t).any Point.unrecorded = false ∧ o.cls = c

/-- `held` has the classes of the recorded mutexes. -/
def HeldExact (s : Sys T M) [DecidableEq M] : Prop :=
  ∀ t k, k ∈ s.lockdep.held t ↔ ∃ m c, Records s t m c ∧ s.lockdep.lockIds c = some k

/-- What the callers keep to: lockdep stays on, every mutex and every call uses it, no mutex is
recursive, and a mutex goes while no call uses it. -/
def Ordinary (s : Sys T M) : Act T M → Prop
  | .globalDestroy => False
  | .construct _ _ ld recursive => ld = true ∧ recursive = false
  | .destroy m => ∀ t, ∀ f ∈ s.calls t, f.obj ≠ m
  | .lock _ _ noLockdep => noLockdep = false
  | .tryLock _ _ noLockdep => noLockdep = false
  | .unlock _ _ noLockdep => noLockdep = false
  | _ => True

/-- A thread in `lockdep_will_unlock` owns no other mutex of the class. -/
def Sole (s : Sys T M) : Act T M → Prop
  | .step t => ∀ f ∈ s.calls t, ∀ i, f.point = .willUnlockBody i →
      ∀ m o, m ≠ f.obj → s.objs m = some o → o.owner = some t → o.id ≠ i
  | _ => True

structure HeldInv (s : Sys T M) [DecidableEq M] : Prop where
  owner : OwnerInv s
  users : UserInv s
  watched : ∀ m o, s.objs m = some o → o.lockdep = true ∧ o.recursive = false
  calls : ∀ t f, s.calls t = some f → f.noLockdep = false
  settled : ∀ m t, (s.on m t).any Point.unsettled = false
  stored : ∀ m o t, s.objs m = some o → o.owner = some t →
    (s.on m t).any Point.unstored = false → 0 ≤ o.id

theorem Ordinary.lifetimes {s : Sys T M} {a : Act T M} (h : Ordinary s a) : Lifetimes s a := by
  cases a with
  | destroy m => exact h
  | _ => exact trivial

theorem Ordinary.ne {s : Sys T M} {a : Act T M} (h : Ordinary s a) : a ≠ .globalDestroy := by
  intro heq
  subst heq
  exact h

variable [DecidableEq M] {s s' : Sys T M}

theorem HeldInv.enabled (h : HeldInv s) {t : T} {f : Frame M} {o : Obj T}
    (hf : s.calls t = some f) (ho : s.objs f.obj = some o) :
    lockdepEnabled s.lockdep o f.noLockdep = true := by
  obtain ⟨hld, hrec⟩ := h.watched _ o ho
  simp [lockdepEnabled, hld, hrec, h.calls t f hf, h.users.registry.enabled]

theorem HeldInv.known (h : HeldInv s) {t : T} {m : M} {c : String} (hr : Records s t m c) :
    ∃ k, s.lockdep.lockIds c = some k := by
  obtain ⟨o, ho, howner, hrec, rfl⟩ := hr
  have named : ∀ {i : Int}, IdOk s.lockdep o i → 0 ≤ i → ∃ k, s.lockdep.lockIds o.cls = some k := by
    intro i hi hnn
    rcases hi with ⟨hneg, _⟩ | ⟨k, _, hk⟩
    · omega
    · exact ⟨k, hk⟩
  by_cases hst : (s.on m t).any Point.unstored = false
  · exact named (h.users.idOk m o ho) (h.stored m o t ho howner hst)
  · -- the id is about to be stored
    rcases Option.eq_none_or_eq_some (s.on m t) with hnone | ⟨p, hp⟩
    · rw [hnone] at hst
      exact absurd rfl hst
    · have hset := h.settled m t
      rw [hp] at hst hrec hset
      cases p with
      | lockedStore i =>
        refine named (h.users.copyOk m o t i ho ?_) (Int.not_lt.mp (of_decide_eq_false hset))
        unfold Sys.copy
        rw [hp]
        exact rfl
      | lockedTest | lockedRead | lockedBody => cases hrec
      | _ => exact absurd rfl hst

theorem HeldExact.same (h : HeldExact s) (hheld : s'.lockdep.held = s.lockdep.held)
    (hrec : ∀ t m c, Records s' t m c ↔ Records s t m c)
    (hids : ∀ t m c, Records s t m c → s'.lockdep.lockIds c = s.lockdep.lockIds c) :
    HeldExact s' := by
  intro t k
  rw [hheld, h t k]
  constructor
  · rintro ⟨m, c, hr, hk⟩
    exact ⟨m, c, (hrec t m c).mpr hr, (hids t m c hr).trans hk⟩
  · rintro ⟨m, c, hr, hk⟩
    have hr' := (hrec t m c).mp hr
    exact ⟨m, c, hr', (hids t m c hr').symm.trans hk⟩

theorem HeldInv.ids_of_grows (h : HeldInv s) {l : State T} (hgrow : Grows s.lockdep l) {t : T}
    {m : M} {c : String} (hr : Records s t m c) : l.lockIds c = s.lockdep.lockIds c := by
  obtain ⟨k, hk⟩ := h.known hr
  rw [hk]
  exact hgrow.ids c k hk

theorem HeldInv.id_eq (h : HeldInv s) {m : M} {o : Obj T} {k : Nat} (ho : s.objs m = some o)
    (hnn : 0 ≤ o.id) (hcls : s.lockdep.lockIds o.cls = some k) : o.id = k := by
  rcases h.users.idOk m o ho with ⟨hneg, _⟩ | ⟨j, hj, hcls'⟩
  · omega
  · rw [hcls] at hcls'
    obtain rfl := Option.some.inj hcls'
    exact hj

theorem joined_records {m : M} {o : Obj T} {l : State T} (hm : s.objs m = none)
    (howner : o.owner = none) (t : T) (m1 : M) (c : String) :
    Records (⟨l, update s.objs m (some o), s.calls⟩ : Sys T M) t m1 c ↔ Records s t m1 c := by
  constructor
  · rintro ⟨o1, ho1, hown, hrest⟩
    rcases joined_obj ho1 with ⟨_, rfl⟩ | ⟨_, ho1⟩
    · rw [howner] at hown
      cases hown
    · exact ⟨o1, ho1, hown, hrest⟩
  · rintro ⟨o1, ho1, hown, hrest⟩
    have hne : m1 ≠ m := by
      intro heq
      rw [heq, hm] at ho1
      cases ho1
    exact ⟨o1, (update_of_ne hne _ _).trans ho1, hown, hrest⟩

theorem gone_records {m : M} {o : Obj T} {l : State T} (hm : s.objs m = some o)
    (howner : o.owner = none) (t : T) (m1 : M) (c : String) :
    Records (⟨l, update s.objs m none, s.calls⟩ : Sys T M) t m1 c ↔ Records s t m1 c := by
  constructor
  · rintro ⟨o1, ho1, hown, hrest⟩
    exact ⟨o1, (left_obj ho1).2, hown, hrest⟩
  · rintro ⟨o1, ho1, hown, hrest⟩
    have hne : m1 ≠ m := by
      intro heq
      rw [heq, hm] at ho1
      obtain rfl := Option.some.inj ho1
      rw [howner] at hown
      cases hown
    exact ⟨o1, (update_of_ne hne _ _).trans ho1, hown, hrest⟩

theorem records_self {t : T} {f : Frame M} {o : Obj T} {c : String} (hf : s.calls t = some f)
    (ho : s.objs f.obj = some o) : Records s t f.obj c ↔
      (o.owner = some t ∧ f.point.unrecorded = false) ∧ o.cls = c := by
  unfold Records
  rw [ho, Sys.on_self hf, and_assoc]
  simp

/-- While a thread is in a call on one mutex, all others it owns are recorded. -/
theorem records_other {t : T} {f : Frame M} {o : Obj T} {m : M} (hf : s.calls t = some f)
    (hm : m ≠ f.obj) (ho : s.objs m = some o) (howner : o.owner = some t) :
    s.on m t = none ∧ Records s t m o.cls := by
  have hon : s.on m t = none := by
    unfold Sys.on
    rw [hf]
    exact if_neg hm.symm
  refine ⟨hon, o, ho, howner, ?_, rfl⟩
  rw [hon]
  exact rfl

variable [DecidableEq T]

theorem enter_any {t q : T} {f : Frame M} {a : Act T M} {P : Point → Bool} (m : M)
    (hf : Enters t f a) (ht : s.calls t = none) (hlock : P .lockTest = false)
    (htry : P .tryImpl = false) (hunlock : P .preUnlockCheck = false) :
    ((⟨s.lockdep, s.objs, update s.calls t (some f)⟩ : Sys T M).on m q).any P =
      (s.on m q).any P := by
  have hpoint : P f.point = false := by
    cases hf with
    | lock _ hp => rw [hp, hlock]
    | tryLock _ hp => rw [hp, htry]
    | unlock _ hp => rw [hp, hunlock]
  exact enter_reads (fun p => p.any P) ht hpoint m q

theorem after_records_self {t : T} {f : Frame M} {l : State T} {o' : Obj T} {p : Option Point}
    {c : String} : Records (s.after t f l o' p) t f.obj c ↔
      (o'.owner = some t ∧ p.any Point.unrecorded = false) ∧ o'.cls = c := by
  unfold Records
  rw [after_on_self, update_self, and_assoc]
  change (∃ o, update s.objs f.obj (some o') f.obj = some o ∧ _) ↔ _
  rw [update_self]
  simp

theorem after_records {t q : T} {f : Frame M} {l : State T} {o o' : Obj T} {p : Option Point}
    {m : M} {c : String} (hf : s.calls t = some f) (ho : s.objs f.obj = some o)
    (hcls : o'.cls = o.cls) (howner : o'.owner = o.owner ∨
      (o.owner = none ∧ o'.owner = some t) ∨ (o.owner = some t ∧ o'.owner = none))
    (hother : q = t → m ≠ f.obj) :
    Records (s.after t f l o' p) q m c ↔ Records s q m c := by
  by_cases hm : m = f.obj
  · have hq : q ≠ t := fun heq => hother heq hm
    subst hm
    have hiff : o'.owner = some q ↔ o.owner = some q := by
      rcases howner with heq | ⟨hnone, hsome⟩ | ⟨hsome, hnone⟩
      · rw [heq]
      · rw [hnone, hsome]
        exact ⟨fun heq => absurd (Option.some.inj heq).symm hq, nofun⟩
      · rw [hnone, hsome]
        exact ⟨nofun, fun heq => absurd (Option.some.inj heq).symm hq⟩
    unfold Records
    rw [after_on_self, update_of_ne hq, ho]
    change (∃ o1, update s.objs f.obj (some o') f.obj = some o1 ∧ _) ↔ _
    rw [update_self]
    simp [hiff, hcls]
  · unfold Records
    rw [after_on_ne hf hm]
    change (∃ o1, update s.objs f.obj (some o') m = some o1 ∧ _) ↔ _
    rw [update_of_ne hm]

theorem HeldInv.exact_after {t : T} {f : Frame M} {l : State T} {o o' : Obj T}
    {p : Option Point} (h : HeldInv s) (hx : HeldExact s) (hf : s.calls t = some f)
    (ho : s.objs f.obj = some o) (htakes : Takes s.lockdep t f o f.point l o' p) :
    HeldExact (s.after t f l o' p) ↔ Sole s (.step t) := by
  have hon : s.on f.obj t = some f.point := Sys.on_self hf
  have htracks := h.owner.tracks f.obj o ho
  have hcopy : ∀ i, f.point.copy = some i → IdOk s.lockdep o i := by
    intro i hi
    apply h.users.copyOk f.obj o t i ho
    unfold Sys.copy
    rw [hon]
    exact hi
  have hlands := htakes.lands h.users.registry h.users.refs (h.users.idOk _ o ho) hcopy
  have hsame := fun q m c => after_records (q := q) (m := m) (c := c) (l := l) (p := p) hf ho
    hlands.cls htakes.owner
  have hids : ∀ q m c, Records s q m c → l.lockIds c = s.lockdep.lockIds c := by
    intro q m c hr
    exact h.ids_of_grows hlands.grows hr
  -- a class of another thread, or of another mutex of `t`
  have others : ∀ q, q ≠ t → ∀ k, k ∈ s.lockdep.held q ↔
      ∃ m c, Records (s.after t f l o' p) q m c ∧ l.lockIds c = some k := by
    intro q hq k
    rw [hx q k]
    constructor
    · rintro ⟨m, c, hr, hk⟩
      exact ⟨m, c, (hsame q m c (absurd · hq)).mpr hr, (hids q m c hr).trans hk⟩
    · rintro ⟨m, c, hr, hk⟩
      have hr' := (hsame q m c (absurd · hq)).mp hr
      exact ⟨m, c, hr', (hids q m c hr').symm.trans hk⟩
  have hinside : f.point.inside = true → o.owner = some t := by
    intro hin
    apply htracks.inside
    rw [hon]
    exact hin
  have hdeep : o.owner = some t → o.depth ≤ 1 := by
    intro howner
    exact ((htracks.deep t howner).2.2 (h.watched _ o ho).2).le
  have hset : f.point.unsettled = false := by
    have hset := h.settled f.obj t
    rw [hon] at hset
    exact hset
  rcases htakes.records h.users.registry (h.enabled hf ho) hinside hdeep hcopy hset with
    ⟨herase, hheld, hiff⟩ | ⟨k, hk, howner, rfl, hun, hrec, hheld⟩ |
    ⟨k, hpoint, hk, howner, rfl, hun, hheld⟩
  · refine iff_of_true ?_ ?_
    · apply hx.same hheld
      · intro q m c
        by_cases hqm : q = t ∧ m = f.obj
        · obtain ⟨rfl, rfl⟩ := hqm
          rw [after_records_self, records_self hf ho, hiff, hlands.cls]
        · exact hsame q m c fun hq hm => hqm ⟨hq, hm⟩
      · exact hids
    · intro g hg i hi
      rw [Option.mem_def, hf] at hg
      obtain rfl := Option.some.inj hg
      rw [hi] at herase
      cases herase
  · refine iff_of_true ?_ ?_
    · intro q j
      change j ∈ l.held q ↔ ∃ m c, _ ∧ l.lockIds c = some j
      rw [hheld]
      by_cases hq : q = t
      · subst hq
        rw [update_self, mem_insertKey, hx q j]
        constructor
        · rintro (rfl | ⟨m, c, hr, hj⟩)
          · exact ⟨f.obj, _, after_records_self.mpr ⟨⟨howner, hrec⟩, rfl⟩, hk⟩
          · refine ⟨m, c, (hsame q m c fun _ hm => ?_).mpr hr, (hids q m c hr).trans hj⟩
            subst hm
            have hnot := ((records_self hf ho).mp hr).1.2
            rw [hun] at hnot
            cases hnot
        · rintro ⟨m, c, hr, hj⟩
          by_cases hm : m = f.obj
          · subst hm
            obtain ⟨_, rfl⟩ := after_records_self.mp hr
            rw [hk] at hj
            exact Or.inl (Option.some.inj hj).symm
          · have hr' := (hsame q m c fun _ => hm).mp hr
            exact Or.inr ⟨m, c, hr', (hids q m c hr').symm.trans hj⟩
      · rw [update_of_ne hq]
        exact others q hq j
    · intro g hg i hi
      rw [Option.mem_def, hf] at hg
      obtain rfl := Option.some.inj hg
      rw [hi] at hun
      cases hun
  · have hcls : s.lockdep.lockIds o'.cls = some k := by
      rcases hcopy k (by rw [hpoint]; rfl) with ⟨hneg, _⟩ | ⟨j, hj, hcls⟩
      · omega
      · obtain rfl : k = j := by omega
        exact hcls
    constructor
    · -- the entry of another mutex of the class has gone too
      intro hx' g hg i hi m o1 hm ho1 howner1 hid
      rw [Option.mem_def, hf] at hg
      obtain rfl := Option.some.inj hg
      rw [hpoint] at hi
      obtain rfl := Point.willUnlockBody.inj hi
      obtain ⟨_, hr⟩ := records_other hf hm ho1 howner1
      have hmem : k ∈ l.held t := by
        refine (hx' t k).mpr ⟨m, o1.cls, (hsame t m _ fun _ => hm).mpr hr, ?_⟩
        rcases h.users.idOk m o1 ho1 with ⟨hneg, _⟩ | ⟨j, hj, hcls1⟩
        · omega
        · obtain rfl : k = j := by omega
          exact (hids t m _ hr).trans hcls1
      rw [hheld, update_self] at hmem
      simp at hmem
    · intro hsole q j
      change j ∈ l.held q ↔ ∃ m c, _ ∧ l.lockIds c = some j
      rw [hheld]
      by_cases hq : q = t
      · subst hq
        have hmem : j ∈ (s.lockdep.held q).filter (· ≠ k) ↔ j ∈ s.lockdep.held q ∧ j ≠ k := by
          simp
        rw [update_self, hmem, hx q j]
        constructor
        · rintro ⟨⟨m, c, hr, hj⟩, hne⟩
          refine ⟨m, c, (hsame q m c fun _ hm => ?_).mpr hr, (hids q m c hr).trans hj⟩
          subst hm
          obtain ⟨_, rfl⟩ := (records_self hf ho).mp hr
          rw [hcls] at hj
          exact hne (Option.some.inj hj).symm
        · rintro ⟨m, c, hr, hj⟩
          have hm : m ≠ f.obj := by
            intro hm
            subst hm
            have hnot := (after_records_self.mp hr).1.2
            rw [hun] at hnot
            cases hnot
          have hr' := (hsame q m c fun _ => hm).mp hr
          have hj' := (hids q m c hr').symm.trans hj
          refine ⟨⟨m, c, hr', hj'⟩, ?_⟩
          rintro rfl
          obtain ⟨o1, ho1, howner1, _, rfl⟩ := hr'
          obtain ⟨hnone, _⟩ := records_other hf hm ho1 howner1
          have hnn := h.stored m o1 q ho1 howner1 (by rw [hnone]; rfl)
          exact hsole f hf j hpoint m o1 hm ho1 howner1 (h.id_eq ho1 hnn hj')
      · rw [update_of_ne hq]
        exact others q hq j

theorem HeldInv.step {movedFrom : String → String} {a : Act T M} (h : HeldInv s)
    (hok : Ordinary s a) (hmoves : Moves movedFrom s a s') : HeldInv s' := by
  have howner := h.owner.step hok.lifetimes hmoves
  have husers := h.users.step h.owner hok.ne hmoves
  -- a mutex that joins is no thread's
  have join : ∀ {m : M} {o : Obj T} {l : State T},
      s' = ⟨l, update s.objs m (some o), s.calls⟩ → o.lockdep = true ∧ o.recursive = false →
      o.owner = none → HeldInv s' := by
    intro m o l hs hplain hnone
    subst hs
    refine ⟨howner, husers, ?_, h.calls, h.settled, ?_⟩
    · intro m1 o1 ho1
      rcases joined_obj ho1 with ⟨_, rfl⟩ | ⟨_, ho1⟩
      · exact hplain
      · exact h.watched m1 o1 ho1
    · intro m1 o1 t ho1 hown
      rcases joined_obj ho1 with ⟨_, rfl⟩ | ⟨_, ho1⟩
      · rw [hnone] at hown
        cases hown
      · exact h.stored m1 o1 t ho1 hown
  have leave : ∀ {m : M} {l : State T}, s' = ⟨l, update s.objs m none, s.calls⟩ →
      HeldInv s' := by
    intro m l hs
    subst hs
    refine ⟨howner, husers, ?_, h.calls, h.settled, ?_⟩
    · intro m1 o1 ho1
      exact h.watched m1 o1 (left_obj ho1).2
    · intro m1 o1 t ho1
      exact h.stored m1 o1 t (left_obj ho1).2
  rcases hmoves.cases with ⟨rfl, rfl⟩ | ⟨rfl, _⟩ | ⟨m, group, ld, recursive, rfl⟩ | ⟨m, rfl⟩ |
    ⟨t, f, hf, ht, _, rfl⟩ | ⟨t, rfl⟩
  · exact ⟨howner, husers, h.watched, h.calls, h.settled, h.stored⟩
  · exact hok.elim
  · obtain ⟨_, ⟨_, _, l, i, _, hs⟩ | ⟨_, hs⟩⟩ := construct_cases hmoves
    · exact join hs hok rfl
    · exact join hs hok rfl
  · obtain ⟨o, _, _, _, ⟨_, _, l, _, hs⟩ | ⟨_, hs⟩⟩ := destroy_cases hmoves
    · exact leave hs
    · exact leave hs
  · refine ⟨howner, husers, h.watched, ?_, ?_, ?_⟩
    · intro q g hg
      change update s.calls t (some f) q = some g at hg
      by_cases hq : q = t
      · rw [hq, update_self] at hg
        obtain rfl := Option.some.inj hg
        cases hf <;> exact hok
      · rw [update_of_ne hq] at hg
        exact h.calls q g hg
    · intro m q
      rw [enter_any m hf ht rfl rfl rfl]
      exact h.settled m q
    · intro m o q ho hown hst
      rw [enter_any m hf ht rfl rfl rfl] at hst
      exact h.stored m o q ho hown hst
  · obtain ⟨f, o, l, o', p, hf, ho, htakes, rfl⟩ := hmoves.takes
    have hon : s.on f.obj t = some f.point := Sys.on_self hf
    have hkeep : o'.lockdep = o.lockdep ∧ o'.recursive = o.recursive := htakes.kind
    obtain ⟨hset, hstored⟩ := htakes.stored h.users.registry (h.enabled hf ho)
      (fun hin => (h.owner.tracks _ o ho).inside t (by rw [hon]; exact hin))
      (fun hown hst => h.stored _ o t ho hown (by rw [hon]; exact hst))
      (by have hs := h.settled f.obj t; rw [hon] at hs; exact hs)
    refine ⟨howner, husers, ?_, ?_, ?_, ?_⟩
    · intro m o1 ho1
      rcases joined_obj ho1 with ⟨_, rfl⟩ | ⟨_, ho1⟩
      · rw [hkeep.1, hkeep.2]
        exact h.watched f.obj o ho
      · exact h.watched m o1 ho1
    · intro q g hg
      change update s.calls t _ q = some g at hg
      by_cases hq : q = t
      · rw [hq, update_self] at hg
        obtain ⟨p1, _, rfl⟩ := Option.map_eq_some_iff.mp hg
        exact h.calls t f hf
      · rw [update_of_ne hq] at hg
        exact h.calls q g hg
    · intro m q
      by_cases hm : m = f.obj
      · rw [hm, after_on_self]
        by_cases hq : q = t
        · rw [hq, update_self]
          exact hset
        · rw [update_of_ne hq]
          exact h.settled f.obj q
      · rw [after_on_ne hf hm]
        exact h.settled m q
    · intro m o1 q ho1 hown hst
      rcases joined_obj ho1 with ⟨rfl, rfl⟩ | ⟨hm, ho1⟩
      · rw [after_on_self] at hst
        rcases hstored with hnn | ⟨hid, hback⟩
        · exact hnn
        · rw [hid]
          by_cases hq : q = t
          · subst hq
            rw [update_self] at hst
            obtain ⟨hown', hst'⟩ := hback hown hst
            exact h.stored _ o q ho hown' (by rw [hon]; exact hst')
          · rw [update_of_ne hq] at hst
            apply h.stored _ o q ho ?_ hst
            rcases htakes.owner with heq | ⟨_, hsome⟩ | ⟨_, hnone⟩
            · rw [← heq, hown]
            · rw [hown] at hsome
              exact absurd (Option.some.inj hsome) hq
            · rw [hown] at hnone
              cases hnone
      · rw [after_on_ne hf hm] at hst
        exact h.stored m o1 q ho1 hown hst

/-- The step lemma for `held`: it stays exact just if no entry of another mutex is erased. -/
theorem HeldInv.exact_iff {movedFrom : String → String} {a : Act T M} (h : HeldInv s)
    (hx : HeldExact s) (hok : Ordinary s a) (hmoves : Moves movedFrom s a s') :
    HeldExact s' ↔ Sole s a := by
  have h' := h.step hok hmoves
  rcases hmoves.cases with ⟨rfl, rfl⟩ | ⟨rfl, _⟩ | ⟨m, group, ld, recursive, rfl⟩ | ⟨m, rfl⟩ |
    ⟨t, f, hf, ht, _, rfl⟩ | ⟨t, rfl⟩
  · refine iff_of_true ?_ trivial
    unfold lockdepGlobalInit
    rw [if_pos h.users.registry.enabled]
    exact hx
  · exact hok.elim
  · refine iff_of_true ?_ trivial
    obtain ⟨hm, ⟨_, _, l, i, hreg, rfl⟩ | ⟨_, rfl⟩⟩ := construct_cases hmoves
    · obtain ⟨hgrow, hheld, _⟩ := register_grows h.users.registry hreg
      exact hx.same hheld (joined_records hm rfl) fun _ _ _ hr => h.ids_of_grows hgrow hr
    · exact hx.same rfl (joined_records hm rfl) fun _ _ _ _ => rfl
  · refine iff_of_true ?_ trivial
    obtain ⟨o, hm, howner, _, ⟨_, _, l, hun, rfl⟩ | ⟨_, rfl⟩⟩ := destroy_cases hmoves
    · obtain ⟨hheld, _⟩ := unregister_keeps h.users.registry (h.users.idOk m o hm) hun
      apply hx.same hheld (gone_records hm howner)
      intro t m1 c hr
      obtain ⟨k, hk⟩ := h'.known ((gone_records hm howner t m1 c).mpr hr)
      exact hk.trans (unregister_ids hun hk).symm
    · exact hx.same rfl (gone_records hm howner) fun _ _ _ _ => rfl
  · have hsole : Sole s a := by
      cases hf <;> exact trivial
    refine iff_of_true (hx.same rfl ?_ fun _ _ _ _ => rfl) hsole
    intro q m c
    unfold Records
    rw [enter_any m hf ht rfl rfl rfl]
  · obtain ⟨f, o, l, o', p, hf, ho, htakes, rfl⟩ := hmoves.takes
    exact h.exact_after hx hf ho htakes

omit [DecidableEq T] in
theorem HeldInv.started (names : M → Option String) : HeldInv (started names : Sys T M) := by
  have fresh : ∀ m o, (Mutex.started names : Sys T M).objs m = some o →
      ∃ group, o = Obj.fresh group true false := by
    intro m o ho
    obtain ⟨group, _, rfl⟩ := Option.map_eq_some_iff.mp ho
    exact ⟨group, rfl⟩
  have hoff : OffInv (⟨initial, (Mutex.started names : Sys T M).objs, fun _ => none⟩ :
      Sys T M) := by
    refine ⟨rfl, GraphInv.initial, ?_, fun _ => rfl, nofun, ?_, ?_, nofun⟩
    · exact ⟨fun _ => rfl, fun _ => rfl, fun _ => rfl, nofun⟩
    · change (-1 : Int) ≤ 0
      omega
    · intro m o ho
      obtain ⟨group, rfl⟩ := fresh m o ho
      exact ⟨rfl, rfl⟩
  refine ⟨⟨nofun, ?_⟩, hoff.init, ?_, nofun, fun _ _ => rfl, ?_⟩
  · intro m o ho
    obtain ⟨group, rfl⟩ := fresh m o ho
    exact Tracks.unlocked (fun _ => rfl) rfl rfl rfl rfl
  · intro m o ho
    obtain ⟨group, rfl⟩ := fresh m o ho
    exact ⟨rfl, rfl⟩
  · intro m o t ho hown
    obtain ⟨group, rfl⟩ := fresh m o ho
    cases hown

omit [DecidableEq T] in
theorem HeldExact.started (names : M → Option String) : HeldExact (started names : Sys T M) := by
  intro t k
  refine iff_of_false ?_ ?_
  · nofun
  · rintro ⟨m, c, ⟨o, ho, hown, _⟩, _⟩
    obtain ⟨group, _, rfl⟩ := Option.map_eq_some_iff.mp ho
    cases hown

/-- What `held` promises: outside a call, a thread's entries are the classes of the mutexes it
owns, and `lockdep_will_lock` records a dependency from every one of them. -/
structure HeldTracks (s : Sys T M) : Prop where
  owned : ∀ t, s.calls t = none → ∀ k : Nat, k ∈ s.lockdep.held t ↔
    ∃ m o, s.objs m = some o ∧ o.owner = some t ∧ o.id = k
  records : ∀ t f o i l' i', s.calls t = some f → s.objs f.obj = some o →
    f.point = .willLockBody i →
    lockdepWillLock s.lockdep t o.group i o.recursive = .ok (l', i') →
    ∀ m o1, s.objs m = some o1 → o1.owner = some t →
      ∃ a b : Nat, o1.id = a ∧ i' = b ∧ Edge l'.follows a b

omit [DecidableEq T] in
theorem HeldInv.id_held (h : HeldInv s) (hx : HeldExact s) {t : T} {m : M} {o : Obj T}
    (ho : s.objs m = some o) (howner : o.owner = some t)
    (hrec : (s.on m t).any Point.unrecorded = false)
    (hst : (s.on m t).any Point.unstored = false) :
    ∃ k : Nat, o.id = k ∧ s.lockdep.lockIds o.cls = some k ∧ k ∈ s.lockdep.held t := by
  have hnn := h.stored m o t ho howner hst
  have hr : Records s t m o.cls := ⟨o, ho, howner, hrec, rfl⟩
  obtain ⟨k, hk⟩ := h.known hr
  exact ⟨k, h.id_eq ho hnn hk, hk, (hx t k).mpr ⟨m, o.cls, hr, hk⟩⟩

omit [DecidableEq T] in
theorem HeldInv.tracks (h : HeldInv s) (hx : HeldExact s) : HeldTracks s := by
  refine ⟨?_, ?_⟩
  · intro t ht k
    have away : ∀ m, s.on m t = none := Sys.on_idle ht
    constructor
    · intro hk
      obtain ⟨m, c, ⟨o, ho, howner, _, rfl⟩, hc⟩ := (hx t k).mp hk
      have hnn := h.stored m o t ho howner (by rw [away m]; rfl)
      exact ⟨m, o, ho, howner, h.id_eq ho hnn hc⟩
    · rintro ⟨m, o, ho, howner, hid⟩
      obtain ⟨j, hj, _, hmem⟩ := h.id_held hx ho howner (by rw [away m]; rfl) (by rw [away m]; rfl)
      obtain rfl : j = k := by omega
      exact hmem
  · intro t f o i l' i' hf ho hpoint hwl m o1 ho1 howner1
    have hon : s.on f.obj t = some (.willLockBody i) := by rw [Sys.on_self hf, hpoint]
    have quiet : ∀ P : Point → Bool, P (.willLockBody i) = false → (s.on m t).any P = false := by
      intro P hP
      by_cases hm : m = f.obj
      · rw [hm, hon]
        exact hP
      · rw [(records_other hf hm ho1 howner1).1]
        rfl
    obtain ⟨a, ha, hcls, hmem⟩ := h.id_held hx ho1 howner1 (quiet _ rfl) (quiet _ rfl)
    have hcopy : IdOk s.lockdep o i := by
      apply h.users.copyOk f.obj o t i ho
      unfold Sys.copy
      rw [hon]
      exact rfl
    rw [(h.watched _ o ho).2] at hwl
    obtain ⟨hgrow, _, hi, hedge⟩ := hcopy.willLock h.users.registry hwl
    obtain ⟨a', b, ha', hb, hab⟩ := hedge o1.cls ⟨a, hcls, hmem⟩
    rw [hgrow.ids _ a hcls] at ha'
    obtain rfl := Option.some.inj ha'
    refine ⟨a, b, ha, ?_, hab⟩
    obtain ⟨l1, g, hens, _, _⟩ := lockdepWillLock_cases h.users.registry.enabled hwl
    have hnn := ensure_nonneg h.users.registry hens
    rcases hi with ⟨hneg, _⟩ | ⟨j, hj, hj'⟩
    · omega
    · rw [hb] at hj'
      obtain rfl := Option.some.inj hj'
      exact hj

omit [DecidableEq T] in
theorem exec_step [DecidableEq T] {movedFrom : String → String} {t : T} {f : Frame M} {o : Obj T}
    (hf : s.calls t = some f) (ho : s.objs f.obj = some o) :
    exec movedFrom s (.step t) = stepCall s t f o := by
  simp [exec, hf, ho]

/-- The unlock that erases the entry of another mutex goes on and returns without it. -/
theorem HeldInv.lost {movedFrom : String → String} (h : HeldInv s) {t : T}
    (hmoves : Moves movedFrom s (.step t) s') (hnot : ¬ Sole s (.step t)) :
    ∃ s2, Run (Moves movedFrom) s' [.step t, .step t] s2 ∧ ¬ HeldTracks s2 := by
  obtain ⟨f, o, l, o', p, hf, ho, htakes, rfl⟩ := hmoves.takes
  obtain ⟨i, hpoint, m, o1, hm, ho1, howner1, hid⟩ : ∃ i, f.point = .willUnlockBody i ∧
      ∃ m o1, m ≠ f.obj ∧ s.objs m = some o1 ∧ o1.owner = some t ∧ o1.id = i := by
    by_contra hall
    apply hnot
    intro g hg i hi m o1 hm ho1 howner1 hid
    rw [Option.mem_def, hf] at hg
    obtain rfl := Option.some.inj hg
    exact hall ⟨i, hi, m, o1, hm, ho1, howner1, hid⟩
  have howner : o.owner = some t := by
    apply (h.owner.tracks f.obj o ho).inside
    rw [Sys.on_self hf, hpoint]
    exact rfl
  have hnn : 0 ≤ i := by
    rw [← hid]
    exact h.stored m o1 t ho1 howner1 (by rw [(records_other hf hm ho1 howner1).1]; rfl)
  rw [hpoint] at htakes
  cases htakes with
  | @willUnlockBody _ i _ hwu =>
    obtain ⟨rfl, ⟨hneg, _⟩ | ⟨_, rfl⟩⟩ := lockdepWillUnlock_cases h.users.registry.enabled hwu
    · omega
    · let s1 := s.after t f (setHeld s.lockdep t ((s.lockdep.held t).filter (· ≠ i.toNat))) o
        (some (.willUnlockStore i))
      let f1 : Frame M := { f with point := .willUnlockStore i }
      let s2 := (s1.setObj f.obj { o with id := i }).goto t f1 .unlockImpl
      let f2 : Frame M := { f with point := .unlockImpl }
      have h1 : exec movedFrom s1 (.step t) = .ok s2 := by
        apply exec_step (f := f1)
        · exact update_self _ _ _
        · exact update_self _ _ _
      have hstep : ∃ o2, exec movedFrom s2 (.step t) = .ok ((s2.setObj f.obj o2).ret t) := by
        obtain ⟨o2, ho2⟩ : ∃ o2, unlockImpl t { o with id := i } = .ok o2 := by
          unfold unlockImpl
          rw [if_pos howner]
          split
          · exact ⟨_, rfl⟩
          · exact ⟨_, rfl⟩
        refine ⟨o2, (exec_step (f := f2) (o := { o with id := i }) ?_ ?_).trans ?_⟩
        · exact update_self _ _ _
        · exact update_self _ _ _
        · simp [stepCall, f2, ho2]
      obtain ⟨o2, h2⟩ := hstep
      refine ⟨_, .cons (.step h1) (.single (.step h2)), ?_⟩
      intro htracks
      have hmem := (htracks.owned t (update_self _ _ _) i.toNat).mpr ⟨m, o1, ?_, howner1, by omega⟩
      · change i.toNat ∈ update s.lockdep.held t _ t at hmem
        rw [update_self] at hmem
        simp at hmem
      · change update (update (update s.objs f.obj _) f.obj _) f.obj _ m = some o1
        rw [update_of_ne hm, update_of_ne hm, update_of_ne hm, ho1]

/-- In every run in which `lockdep_will_unlock` runs only where the thread owns no other mutex of
the class, `held` is the classes a thread owns; where it runs otherwise, that `unlock` goes on and
returns to a thread that owns a class it does not hold. -/
theorem held_tracks_iff (movedFrom : String → String) {s : Sys T M}
    (h : Reachable (fun s => ∃ names, s = started names)
      (fun s a s' => Ordinary s a ∧ Sole s a ∧ Moves movedFrom s a s') s) :
    HeldTracks s ∧ ∀ t s', Moves movedFrom s (.step t) s' → ¬ Sole s (.step t) →
      ∃ s2, Run (Moves movedFrom) s' [.step t, .step t] s2 ∧ ¬ HeldTracks s2 := by
  obtain ⟨hinv, hx⟩ : HeldInv s ∧ HeldExact s := by
    refine h.invariant (I := fun s => HeldInv s ∧ HeldExact s) ?_ ?_
    · rintro s ⟨names, rfl⟩
      exact ⟨HeldInv.started names, HeldExact.started names⟩
    · intro s a s' hs hstep
      obtain ⟨hok, hsole, hmoves⟩ := hstep
      exact ⟨hs.1.step hok hmoves, (hs.1.exact_iff hs.2 hok hmoves).mpr hsole⟩
  exact ⟨hinv.tracks hx, fun t s' hmoves hnot => hinv.lost hmoves hnot⟩

end Runs

section Claims
variable {T M : Type} [DecidableEq M] [Fintype M]

instance [Fintype T] (s : Sys T M) (a : Act T M) : Decidable (Ordinary s a) :=
  match a with
  | .globalDestroy => inferInstanceAs (Decidable False)
  | .construct _ _ ld recursive => inferInstanceAs (Decidable (ld = true ∧ recursive = false))
  | .destroy m => inferInstanceAs (Decidable (∀ t, ∀ f ∈ s.calls t, f.obj ≠ m))
  | .lock _ _ noLockdep => inferInstanceAs (Decidable (noLockdep = false))
  | .tryLock _ _ noLockdep => inferInstanceAs (Decidable (noLockdep = false))
  | .unlock _ _ noLockdep => inferInstanceAs (Decidable (noLockdep = false))
  | .globalInit | .step _ => inferInstanceAs (Decidable True)

def Point.erased : Point → Option Int
  | .willUnlockBody i => some i
  | _ => none

theorem Point.erased_eq {p : Point} {i : Int} : p.erased = some i ↔ p = .willUnlockBody i := by
  cases p <;> simp [Point.erased]

instance [DecidableEq T] (s : Sys T M) (a : Act T M) : Decidable (Sole s a) :=
  match a with
  | .step t => decidable_of_iff (∀ f ∈ s.calls t, ∀ i ∈ f.point.erased, ∀ m, m ≠ f.obj →
      ∀ o ∈ s.objs m, o.owner = some t → o.id ≠ i) (by
    constructor
    · intro h f hf i hi m o hm ho
      exact h f hf i (Point.erased_eq.mpr hi) m hm o ho
    · intro h f hf i hi m hm o ho
      exact h f hf i (Point.erased_eq.mp hi) m o hm ho)
  | .globalInit | .globalDestroy | .construct _ _ _ _ | .destroy _ | .lock _ _ _ | .tryLock _ _ _
  | .unlock _ _ _ => inferInstanceAs (Decidable True)

/-- Two mutexes of different names. -/
theorem held_tracks_iff_two : ∃ s : Sys Bool (Fin 2), s.lockdep.held true = [0] ∧
    HeldTracks s ∧ ∀ t s', Moves (fun _ => "") s (.step t) s' → ¬ Sole s (.step t) →
      ∃ s2, Run (Moves fun _ => "") s' [.step t, .step t] s2 ∧ ¬ HeldTracks s2 := by
  have hrun : ∃ s ∈ execAll (exec fun _ => "") (fun s a => Ordinary s a ∧ Sole s a)
      (started fun m => if m = 0 then some "lock1" else some "lock2" : Sys Bool (Fin 2))
      (tryLocked true 0 ++ tryLocked true 1 ++ unlocked true 1), s.lockdep.held true = [0] := by
    decide +kernel
  obtain ⟨s, hs, hheld⟩ := hrun
  refine ⟨s, hheld, held_tracks_iff (fun _ => "") ?_⟩
  refine Reachable.run (.start ⟨_, rfl⟩) (execAll_run ?_ hs)
  intro s a s' hok hexec
  have hok' := of_decide_eq_true hok
  exact ⟨hok'.1, hok'.2, .step hexec⟩

/-- One thread takes two mutexes of one name and unlocks the second: the first is no longer in
`held`. -/
theorem held_loses_class : ¬ ∀ s : Sys Bool (Fin 2),
    Reachable (fun s => ∃ names, s = started names)
      (fun s a s' => Ordinary s a ∧ Moves (fun _ => "") s a s') s → HeldTracks s := by
  have hrun : ∃ s ∈ execAll (exec fun _ => "") (fun s a => decide (Ordinary s a))
      (started fun _ => some "IOContext::lock" : Sys Bool (Fin 2))
      (tryLocked true 0 ++ tryLocked true 1 ++ unlocked true 1),
      (s.calls true).isNone = true ∧ s.lockdep.held true = [] ∧
        ∃ o ∈ s.objs 0, o.owner = some true ∧ o.id = 0 := by
    decide +kernel
  obtain ⟨s, hs, hidle, hempty, o, ho, howner, hid⟩ := hrun
  intro hclaim
  have hreach : Reachable (fun s => ∃ names, s = started names)
      (fun s a s' => Ordinary s a ∧ Moves (fun _ => "") s a s') s := by
    refine Reachable.run (.start ⟨_, rfl⟩) (execAll_run ?_ hs)
    intro s a s' hok hexec
    exact ⟨of_decide_eq_true hok, .step hexec⟩
  have hmem := ((hclaim s hreach).owned true (Option.isNone_iff_eq_none.mp hidle) 0).mpr
    ⟨0, o, ho, howner, hid⟩
  rw [hempty] at hmem
  cases hmem

end Claims

end LockdepSpdk.Mutex
