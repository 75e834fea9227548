import LockdepSpdk.Mutex.Steps

/-!
# What a thread can do

Every step of a thread inside a call as one relation: what it does to lockdep, to
the mutex and to the call. A `std::system_error` leaves the call and the program
goes on.
-/

namespace LockdepSpdk.Mutex

set_option autoImplicit false

open Function Lockdep Transition

section Takes
variable {T M : Type}

/-- The pthread mutex is acquired, by its owner once more when it is recursive. -/
inductive Acquires (t : T) (o : Obj T) : Obj T → Prop where
  | first : o.owner = none → Acquires t o { o with owner := some t, depth := 1 }
  | again : o.owner = some t → o.recursive = true → o.depth < maxDepth →
      Acquires t o { o with depth := o.depth + 1 }

inductive Releases (t : T) (o : Obj T) : Obj T → Prop where
  | last : o.owner = some t → o.depth ≤ 1 → Releases t o { o with owner := none, depth := 0 }
  | one : o.owner = some t → 1 < o.depth → Releases t o { o with depth := o.depth - 1 }

theorem check_true {s s' : Sys T M} {c : Bool} (h : check c s = .ok s') : c = true := by
  unfold check at h
  split at h
  · next hc => exact hc
  · cases h

variable [DecidableEq T]

/-- From a point, the state of lockdep, the mutex and the point that a step leads to; no point when
the call returns. -/
inductive Takes (l : State T) (t : T) (f : Frame M) (o : Obj T) :
    Point → State T → Obj T → Option Point → Prop where
  | lockTest : Takes l t f o .lockTest l o
      (some (if lockdepEnabled l o f.noLockdep then .willLockRead else .tryImpl))
  | willLockRead : Takes l t f o .willLockRead l o (some (.willLockBody o.id))
  | willLockBody {i i' : Int} {l' : State T} :
      lockdepWillLock l t o.group i o.recursive = .ok (l', i') →
      Takes l t f o (.willLockBody i) l' o (some (.willLockStore i'))
  | willLockStore (i : Int) : Takes l t f o (.willLockStore i) l { o with id := i } (some .tryImpl)
  | tryImpl {o' : Obj T} : Acquires t o o' → Takes l t f o .tryImpl l o' (some .lockedTest)
  | busy : Takes l t f o .tryImpl l o (if f.inLock then some .lockImpl else none)
  | full : Takes l t f o .tryImpl l o none
  | lockImpl {o' : Obj T} : Acquires t o o' → Takes l t f o .lockImpl l o' (some .lockedTest)
  | throws : Takes l t f o .lockImpl l o none
  | lockedTest : Takes l t f o .lockedTest l o
      (some (if lockdepEnabled l o f.noLockdep then .lockedRead else .postLockCheck))
  | lockedRead : Takes l t f o .lockedRead l o (some (.lockedBody o.id))
  | lockedBody {i i' : Int} {l' : State T} : lockdepLocked l t o.group i = .ok (l', i') →
      Takes l t f o (.lockedBody i) l' o (some (.lockedStore i'))
  | lockedStore (i : Int) :
      Takes l t f o (.lockedStore i) l { o with id := i } (some .postLockCheck)
  | postLockCheck : Takes l t f o .postLockCheck l o (some .postLockOwner)
  | postLockOwner :
      Takes l t f o .postLockOwner l { o with lockedBy := some t } (some .postLockCount)
  | postLockCount : Takes l t f o .postLockCount l { o with nlock := int32 (o.nlock + 1) } none
  | preUnlockCheck : Takes l t f o .preUnlockCheck l o (some .preUnlockOwner)
  | preUnlockOwner : o.lockedBy = some t →
      Takes l t f o .preUnlockOwner l o (some .preUnlockTest)
  | preUnlockTest : Takes l t f o .preUnlockTest l o
      (some (if o.nlock = 1 then .preUnlockClear else .preUnlockCount))
  | preUnlockClear :
      Takes l t f o .preUnlockClear l { o with lockedBy := none } (some .preUnlockCount)
  | preUnlockCount :
      Takes l t f o .preUnlockCount l { o with nlock := int32 (o.nlock - 1) } (some .unlockTest)
  | unlockTest : Takes l t f o .unlockTest l o
      (some (if lockdepEnabled l o f.noLockdep then .willUnlockRead else .unlockImpl))
  | willUnlockRead : Takes l t f o .willUnlockRead l o (some (.willUnlockBody o.id))
  | willUnlockBody {i i' : Int} {l' : State T} : lockdepWillUnlock l t i = .ok (l', i') →
      Takes l t f o (.willUnlockBody i) l' o (some (.willUnlockStore i'))
  | willUnlockStore (i : Int) :
      Takes l t f o (.willUnlockStore i) l { o with id := i } (some .unlockImpl)
  | unlockImpl {o' : Obj T} : Releases t o o' → Takes l t f o .unlockImpl l o' none

theorem tryLockImpl_acquires {t : T} {o o' : Obj T} (h : tryLockImpl t o = .ok (some o')) :
    Acquires t o o' := by
  unfold tryLockImpl at h
  split at h
  · next hfree =>
    obtain rfl := Option.some.inj (Except.ok.inj h)
    exact .first hfree
  · next q howner =>
    split at h
    · next hown =>
      split at h
      · next hroom =>
        obtain rfl := Option.some.inj (Except.ok.inj h)
        exact .again (hown.2 ▸ howner) hown.1 hroom
      · cases h
    · cases h

theorem lockImpl_acquires {t : T} {o o' : Obj T} (h : lockImpl t o = .ok o') :
    Acquires t o o' := by
  unfold lockImpl at h
  split at h
  · next hfree =>
    obtain rfl := Except.ok.inj h
    exact .first hfree
  · next q howner =>
    split at h
    · next hown =>
      split at h
      · next hrec =>
        split at h
        · next hroom =>
          obtain rfl := Except.ok.inj h
          exact .again (hown ▸ howner) hrec hroom
        · cases h
      · cases h
    · cases h

theorem unlockImpl_releases {t : T} {o o' : Obj T} (h : unlockImpl t o = .ok o') :
    Releases t o o' := by
  unfold unlockImpl at h
  split at h
  · next howner =>
    split at h
    · next hle =>
      obtain rfl := Except.ok.inj h
      exact .last howner hle
    · next hlt =>
      obtain rfl := Except.ok.inj h
      exact .one howner (by omega)
  · cases h

end Takes

section Moves
variable {T M : Type} [DecidableEq T] [DecidableEq M]

/-- The point of the call of `t`, when that is a call on `m`. -/
def Sys.on (s : Sys T M) (m : M) (t : T) : Option Point :=
  match s.calls t with
  | some f => if f.obj = m then some f.point else none
  | none => none

def Sys.after (s : Sys T M) (t : T) (f : Frame M) (l : State T) (o : Obj T) (p : Option Point) :
    Sys T M where
  lockdep := l
  objs := update s.objs f.obj (some o)
  calls := update s.calls t (p.map fun p => { f with point := p })

theorem stepCall_takes {s s' : Sys T M} {t : T} {f : Frame M} {o : Obj T}
    (ho : s.objs f.obj = some o) (h : stepCall s t f o = .ok s') :
    ∃ l o' p, Takes s.lockdep t f o f.point l o' p ∧ s' = s.after t f l o' p := by
  have hself : update s.objs f.obj (some o) = s.objs := by rw [← ho, update_eq_self]
  -- the steps that change no mutex
  have still : ∀ l p, (⟨l, s.objs, update s.calls t (p.map fun p => { f with point := p })⟩ :
      Sys T M) = s.after t f l o p := by
    intro l p
    unfold Sys.after
    rw [hself]
  unfold stepCall at h
  cases hpoint : f.point with
  | lockTest =>
    simp only [hpoint] at h
    obtain rfl := Except.ok.inj h
    exact ⟨_, _, _, .lockTest, still _ (some _)⟩
  | willLockRead =>
    simp only [hpoint] at h
    obtain rfl := Except.ok.inj h
    exact ⟨_, _, _, .willLockRead, still _ (some _)⟩
  | willLockBody i =>
    simp only [hpoint] at h
    obtain ⟨l, i', hwl, rfl⟩ := withLockdep_ok h
    exact ⟨_, _, _, .willLockBody hwl, still _ (some _)⟩
  | willLockStore i =>
    simp only [hpoint] at h
    obtain rfl := Except.ok.inj h
    exact ⟨_, _, some _, .willLockStore i, rfl⟩
  | tryImpl =>
    simp only [hpoint] at h
    split at h
    · next o' htry =>
      obtain rfl := Except.ok.inj h
      exact ⟨_, _, some _, .tryImpl (tryLockImpl_acquires htry), rfl⟩
    · obtain rfl := Except.ok.inj h
      refine ⟨_, _, _, .busy, ?_⟩
      cases f.inLock with
      | true => exact still _ (some _)
      | false => exact still _ none
    · cases h
  | lockImpl =>
    simp only [hpoint] at h
    split at h
    · next o' hlock =>
      obtain rfl := Except.ok.inj h
      exact ⟨_, _, some _, .lockImpl (lockImpl_acquires hlock), rfl⟩
    · cases h
  | lockedTest =>
    simp only [hpoint] at h
    obtain rfl := Except.ok.inj h
    exact ⟨_, _, _, .lockedTest, still _ (some _)⟩
  | lockedRead =>
    simp only [hpoint] at h
    obtain rfl := Except.ok.inj h
    exact ⟨_, _, _, .lockedRead, still _ (some _)⟩
  | lockedBody i =>
    simp only [hpoint] at h
    obtain ⟨l, i', hl, rfl⟩ := withLockdep_ok h
    exact ⟨_, _, _, .lockedBody hl, still _ (some _)⟩
  | lockedStore i =>
    simp only [hpoint] at h
    obtain rfl := Except.ok.inj h
    exact ⟨_, _, some _, .lockedStore i, rfl⟩
  | postLockCheck =>
    simp only [hpoint] at h
    obtain rfl := check_ok h
    exact ⟨_, _, _, .postLockCheck, still _ (some _)⟩
  | postLockOwner =>
    simp only [hpoint] at h
    obtain rfl := Except.ok.inj h
    exact ⟨_, _, some _, .postLockOwner, rfl⟩
  | postLockCount =>
    simp only [hpoint] at h
    obtain rfl := Except.ok.inj h
    exact ⟨_, _, none, .postLockCount, rfl⟩
  | preUnlockCheck =>
    simp only [hpoint] at h
    obtain rfl := check_ok h
    exact ⟨_, _, _, .preUnlockCheck, still _ (some _)⟩
  | preUnlockOwner =>
    simp only [hpoint] at h
    have hby := eq_of_beq (check_true h)
    obtain rfl := check_ok h
    exact ⟨_, _, _, .preUnlockOwner hby, still _ (some _)⟩
  | preUnlockTest =>
    simp only [hpoint] at h
    obtain rfl := Except.ok.inj h
    exact ⟨_, _, _, .preUnlockTest, still _ (some _)⟩
  | preUnlockClear =>
    simp only [hpoint] at h
    obtain rfl := Except.ok.inj h
    exact ⟨_, _, some _, .preUnlockClear, rfl⟩
  | preUnlockCount =>
    simp only [hpoint] at h
    obtain rfl := Except.ok.inj h
    exact ⟨_, _, some _, .preUnlockCount, rfl⟩
  | unlockTest =>
    simp only [hpoint] at h
    obtain rfl := Except.ok.inj h
    exact ⟨_, _, _, .unlockTest, still _ (some _)⟩
  | willUnlockRead =>
    simp only [hpoint] at h
    obtain rfl := Except.ok.inj h
    exact ⟨_, _, _, .willUnlockRead, still _ (some _)⟩
  | willUnlockBody i =>
    simp only [hpoint] at h
    obtain ⟨l, i', hu, rfl⟩ := withLockdep_ok h
    exact ⟨_, _, _, .willUnlockBody hu, still _ (some _)⟩
  | willUnlockStore i =>
    simp only [hpoint] at h
    obtain rfl := Except.ok.inj h
    exact ⟨_, _, some _, .willUnlockStore i, rfl⟩
  | unlockImpl =>
    simp only [hpoint] at h
    split at h
    · next o' hun =>
      obtain rfl := Except.ok.inj h
      exact ⟨_, _, none, .unlockImpl (unlockImpl_releases hun), rfl⟩
    · cases h

theorem stepCall_throws {s : Sys T M} {t : T} {f : Frame M} {o : Obj T}
    (h : stepCall s t f o = .error .throws) : f.point = .tryImpl ∨ f.point = .lockImpl := by
  have lockdep : ∀ {x : Except Stop (State T × Int)} {k : Sys T M → Int → Sys T M},
      withLockdep s x k ≠ .error .throws := by
    intro x k hx
    unfold withLockdep at hx
    split at hx
    · cases hx
    · cases hx
  have assert : ∀ {c : Bool} {s' : Sys T M}, check c s' ≠ .error .throws := by
    intro c s' hc
    unfold check at hc
    split at hc
    · cases hc
    · cases hc
  unfold stepCall at h
  cases hpoint : f.point with
  | tryImpl => exact Or.inl rfl
  | lockImpl => exact Or.inr rfl
  | willLockBody i =>
    simp only [hpoint] at h
    exact absurd h lockdep
  | lockedBody i =>
    simp only [hpoint] at h
    exact absurd h lockdep
  | willUnlockBody i =>
    simp only [hpoint] at h
    exact absurd h lockdep
  | postLockCheck =>
    simp only [hpoint] at h
    exact absurd h assert
  | preUnlockCheck =>
    simp only [hpoint] at h
    exact absurd h assert
  | preUnlockOwner =>
    simp only [hpoint] at h
    exact absurd h assert
  | unlockImpl =>
    simp only [hpoint] at h
    split at h
    · cases h
    · next e hun =>
      unfold unlockImpl at hun
      split at hun
      · split at hun
        · cases hun
        · cases hun
      · obtain rfl := Except.error.inj hun
        cases h
  | lockTest | willLockRead | willLockStore | lockedTest | lockedRead | lockedStore | postLockOwner
  | postLockCount | preUnlockTest | preUnlockClear | preUnlockCount | unlockTest | willUnlockRead
  | willUnlockStore =>
    simp only [hpoint] at h
    cases h

/-- A step of the program, or an exception that leaves a call. -/
inductive Moves (movedFrom : String → String) (s : Sys T M) : Act T M → Sys T M → Prop where
  | step {a : Act T M} {s' : Sys T M} : Step movedFrom s a s' → Moves movedFrom s a s'
  | throws {t : T} : exec movedFrom s (.step t) = .error .throws →
      Moves movedFrom s (.step t) (s.ret t)

variable {movedFrom : String → String} {s s' : Sys T M} {m : M}

omit [DecidableEq T] in
theorem Sys.on_self {s : Sys T M} {t : T} {f : Frame M} (hf : s.calls t = some f) :
    s.on f.obj t = some f.point := by
  unfold Sys.on
  rw [hf]
  exact if_pos rfl

omit [DecidableEq T] in
theorem Sys.on_idle {t : T} (ht : s.calls t = none) (m : M) : s.on m t = none := by
  unfold Sys.on
  rw [ht]

omit [DecidableEq T] in
theorem Sys.on_some {t : T} {p : Point} (h : s.on m t = some p) :
    ∃ f, s.calls t = some f ∧ f.obj = m ∧ f.point = p := by
  unfold Sys.on at h
  split at h
  · next f hf =>
    split at h
    · next hm => exact ⟨f, hf, hm, Option.some.inj h⟩
    · cases h
  · cases h

theorem after_on_self (s : Sys T M) (t : T) (f : Frame M) (l : State T) (o : Obj T)
    (p : Option Point) : (s.after t f l o p).on f.obj = update (s.on f.obj) t p := by
  funext q
  unfold Sys.on
  by_cases hq : q = t
  · subst hq
    cases p with
    | none => simp [Sys.after]
    | some p => simp [Sys.after]
  · simp [Sys.after, hq]

theorem after_on_ne {s : Sys T M} {t : T} {f : Frame M} (hf : s.calls t = some f) {m : M}
    (hm : m ≠ f.obj) (l : State T) (o : Obj T) (p : Option Point) :
    (s.after t f l o p).on m = s.on m := by
  funext q
  unfold Sys.on
  by_cases hq : q = t
  · subst hq
    rw [hf]
    cases p with
    | none => simp [Sys.after, hm.symm]
    | some p => simp [Sys.after, hm.symm]
  · simp [Sys.after, hq]

theorem Moves.takes {t : T} (h : Moves movedFrom s (.step t) s') :
    ∃ f o l o' p, s.calls t = some f ∧ s.objs f.obj = some o ∧
      Takes s.lockdep t f o f.point l o' p ∧ s' = s.after t f l o' p := by
  cases h with
  | step h =>
    unfold Step at h
    simp only [exec] at h
    split at h
    · cases h
    · next f hf =>
      split at h
      · cases h
      · next o ho =>
        obtain ⟨l, o', p, htakes, hs'⟩ := stepCall_takes ho h
        exact ⟨f, o, l, o', p, hf, ho, htakes, hs'⟩
  | throws h =>
    simp only [exec] at h
    split at h
    · cases h
    · next f hf =>
      split at h
      · cases h
      · next o ho =>
        refine ⟨f, o, s.lockdep, o, none, hf, ho, ?_, ?_⟩
        · rcases stepCall_throws h with hpoint | hpoint
          · rw [hpoint]
            exact .full
          · rw [hpoint]
            exact .throws
        · unfold Sys.after
          rw [← ho, update_eq_self]
          exact rfl

theorem construct_cases {group : String} {ld recursive : Bool}
    (h : Moves movedFrom s (.construct m group ld recursive) s') : s.objs m = none ∧
      ((ld = true ∧ s.lockdep.gLockdep = true ∧
          ∃ l i, lockdepRegister s.lockdep (movedFrom group) = .ok (l, i) ∧
            s' = ⟨l, update s.objs m (some { Obj.fresh group ld recursive with
              id := i, cls := movedFrom group }), s.calls⟩) ∨
        ((ld = false ∨ s.lockdep.gLockdep = false) ∧
          s' = ⟨s.lockdep, update s.objs m (some (Obj.fresh group ld recursive)), s.calls⟩)) := by
  cases h with
  | step h =>
    unfold Step at h
    simp only [exec, construct] at h
    split at h
    · cases h
    · next hnone =>
      refine ⟨by simpa using hnone, ?_⟩
      split at h
      · next hon =>
        obtain ⟨l, i, hreg, rfl⟩ := withLockdep_ok h
        rw [Bool.and_eq_true] at hon
        exact Or.inl ⟨hon.1, hon.2, l, i, hreg, rfl⟩
      · next hoff =>
        obtain rfl := Except.ok.inj h
        refine Or.inr ⟨?_, rfl⟩
        simpa [← Bool.not_eq_true, ← not_and_or] using hoff

theorem destroy_cases (h : Moves movedFrom s (.destroy m) s') :
    ∃ o, s.objs m = some o ∧ o.owner = none ∧ o.nlock = 0 ∧
      ((o.lockdep = true ∧ s.lockdep.gLockdep = true ∧
          ∃ l, lockdepUnregister s.lockdep o.id = .ok l ∧
            s' = ⟨l, update s.objs m none, s.calls⟩) ∨
        ((o.lockdep = false ∨ s.lockdep.gLockdep = false) ∧
          s' = ⟨s.lockdep, update s.objs m none, s.calls⟩)) := by
  cases h with
  | step h =>
    unfold Step at h
    simp only [exec, destroy] at h
    split at h
    · cases h
    · next o ho =>
      split at h
      · cases h
      · next hfree =>
        simp only [Bool.or_eq_true, not_or, Bool.not_eq_true, Option.isSome_eq_false_iff,
          Option.isNone_iff_eq_none, bne_eq_false_iff_eq] at hfree
        refine ⟨o, ho, hfree.1, hfree.2, ?_⟩
        split at h
        · next hon =>
          rw [Bool.and_eq_true] at hon
          split at h
          · next l hun =>
            obtain rfl := Except.ok.inj h
            exact Or.inl ⟨hon.1, hon.2, l, hun, rfl⟩
          · cases h
        · next hoff =>
          obtain rfl := Except.ok.inj h
          refine Or.inr ⟨?_, rfl⟩
          simpa [← Bool.not_eq_true, ← not_and_or] using hoff

omit [DecidableEq M] in
theorem enter_cases {t : T} {f : Frame M} (h : enter s t f = .ok s') :
    s.calls t = none ∧ (∃ o, s.objs f.obj = some o) ∧
      s' = ⟨s.lockdep, s.objs, update s.calls t (some f)⟩ := by
  unfold enter at h
  split at h
  · cases h
  · next hok =>
    obtain rfl := Except.ok.inj h
    rw [Bool.or_eq_true, not_or] at hok
    exact ⟨by simpa using hok.1, Option.ne_none_iff_exists'.mp (by simpa using hok.2), rfl⟩

inductive Enters (t : T) (f : Frame M) : Act T M → Prop where
  | lock : f.inLock = true → f.point = .lockTest → Enters t f (.lock t f.obj f.noLockdep)
  | tryLock : f.inLock = false → f.point = .tryImpl → Enters t f (.tryLock t f.obj f.noLockdep)
  | unlock : f.inLock = false → f.point = .preUnlockCheck → Enters t f (.unlock t f.obj f.noLockdep)

theorem Moves.cases {a : Act T M} (h : Moves movedFrom s a s') :
    (a = .globalInit ∧ s' = ⟨lockdepGlobalInit s.lockdep, s.objs, s.calls⟩) ∨
    (a = .globalDestroy ∧ s' = ⟨lockdepGlobalDestroy s.lockdep, s.objs, s.calls⟩) ∨
    (∃ m group ld recursive, a = .construct m group ld recursive) ∨
    (∃ m, a = .destroy m) ∨
    (∃ t f, Enters t f a ∧ s.calls t = none ∧ (∃ o, s.objs f.obj = some o) ∧
      s' = ⟨s.lockdep, s.objs, update s.calls t (some f)⟩) ∨
    ∃ t, a = .step t := by
  cases a with
  | construct m group ld recursive => exact Or.inr (Or.inr (Or.inl ⟨m, group, ld, recursive, rfl⟩))
  | destroy m => exact Or.inr (Or.inr (Or.inr (Or.inl ⟨m, rfl⟩)))
  | step t => exact Or.inr (Or.inr (Or.inr (Or.inr (Or.inr ⟨t, rfl⟩))))
  | globalInit =>
    cases h with
    | step h => exact Or.inl ⟨rfl, (Except.ok.inj h).symm⟩
  | globalDestroy =>
    cases h with
    | step h => exact Or.inr (Or.inl ⟨rfl, (Except.ok.inj h).symm⟩)
  | lock t m noLockdep =>
    cases h with
    | step h =>
      refine Or.inr (Or.inr (Or.inr (Or.inr (Or.inl ⟨t, ⟨m, noLockdep, true, .lockTest⟩, ?_⟩))))
      exact ⟨.lock rfl rfl, enter_cases h⟩
  | tryLock t m noLockdep =>
    cases h with
    | step h =>
      refine Or.inr (Or.inr (Or.inr (Or.inr (Or.inl ⟨t, ⟨m, noLockdep, false, .tryImpl⟩, ?_⟩))))
      exact ⟨.tryLock rfl rfl, enter_cases h⟩
  | unlock t m noLockdep =>
    cases h with
    | step h =>
      refine Or.inr (Or.inr (Or.inr (Or.inr (Or.inl ⟨t, ⟨m, noLockdep, false, .preUnlockCheck⟩, ?_⟩))))
      exact ⟨.unlock rfl rfl, enter_cases h⟩

/-- Static storage before `main`. -/
def Sys.start : Sys T M where
  lockdep := initial
  objs := fun _ => none
  calls := fun _ => none

end Moves

end LockdepSpdk.Mutex
