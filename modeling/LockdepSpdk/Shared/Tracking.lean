import LockdepSpdk.Lib.Headcount
import LockdepSpdk.Lib.Transition
import LockdepSpdk.Shared.Machine
import Mathlib.Algebra.BigOperators.Group.Finset.Basic
import Mathlib.Data.Fintype.Basic

/-!
# Reader and writer tracking

`nlock`, `locked_by` and `nrlock` follow `rwlock`: they lag behind it from an
acquisition to the end of `_post_lock`, and run ahead of it from `_pre_unlock` to the
release. The invariant relates them to `rwlock` and to the points of all threads.
-/

namespace LockdepSpdk.Shared

set_option autoImplicit false

open Function Lockdep Transition Headcount

section Points

/-- The points that a call of its kind passes. -/
@[simp]
def Call.fits (c : Call) : Bool :=
  match c.point with
  | .hook .locked _ | .acquire => !c.op.releases
  | .hook .willLock _ | .hook .willUnlock _ => true
  | .postLockCheck | .postLockOwner | .postLockCount => c.op.exclusive && !c.op.releases
  | .postLockShared => !c.op.exclusive && !c.op.releases
  | .preUnlockCheck | .preUnlockCount | .preUnlockOwner | .preUnlockZero | .preUnlockClear =>
    c.op.exclusive && c.op.releases
  | .preUnlockSharedCheck | .preUnlockSharedCount => !c.op.exclusive && c.op.releases
  | .release => c.op.releases

/-- The thread has `rwlock` the way the call takes or gives it back. -/
@[simp]
def Call.holds (c : Call) : Bool :=
  match c.point with
  | .hook .willLock _ | .hook .willUnlock _ => c.op.releases
  | .acquire => false
  | _ => true

@[simp]
def Call.writes (c : Call) : Bool := c.holds && c.op.exclusive

@[simp]
def Call.reads (c : Call) : Bool := c.holds && !c.op.exclusive

@[simp]
def Call.uncounted (c : Call) : Bool :=
  match c.point with
  | .hook .locked _ | .release => c.op.exclusive
  | .hook .willLock _ | .hook .willUnlock _ => c.op.exclusive && c.op.releases
  | .postLockCheck | .postLockOwner | .postLockCount => true
  | .preUnlockOwner | .preUnlockZero | .preUnlockClear => true
  | _ => false

@[simp]
def Call.unmarked (c : Call) : Bool :=
  match c.point with
  | .hook .locked _ | .release => c.op.exclusive
  | .hook .willLock _ | .hook .willUnlock _ => c.op.exclusive && c.op.releases
  | .postLockCheck | .postLockOwner => true
  | _ => false

/-- `rwlock` is held for reading once more than `nrlock` says. -/
@[simp]
def Call.inFlight (c : Call) : Bool :=
  match c.point with
  | .hook .locked _ | .release => !c.op.exclusive
  | .hook .willLock _ | .hook .willUnlock _ => !c.op.exclusive && c.op.releases
  | .postLockShared => true
  | _ => false

theorem Call.inFlight_reads {c : Call} (hfit : c.fits = true) (h : c.inFlight = true) :
    c.reads = true := by
  obtain ⟨op, p⟩ := c
  cases p with
  | hook k st => cases k <;> simp_all
  | postLockShared => simp_all
  | release => simp_all
  | _ => cases h

/-- Neither the end of a call nor its start changes what `rwlock` and the counters are. -/
structure Alike (c c' : Option Call) : Prop where
  fits : ∀ d, c' = some d → d.fits = true
  writes : c'.any Call.writes = c.any Call.writes
  reads : c'.any Call.reads = c.any Call.reads
  uncounted : c'.any Call.uncounted = c.any Call.uncounted
  unmarked : c'.any Call.unmarked = c.any Call.unmarked
  inFlight : c'.any Call.inFlight = c.any Call.inFlight

theorem alike_points {op : Op} {p q : Point} (hfit : (⟨op, q⟩ : Call).fits = true)
    (hholds : (⟨op, q⟩ : Call).holds = (⟨op, p⟩ : Call).holds)
    (huncounted : (⟨op, q⟩ : Call).uncounted = (⟨op, p⟩ : Call).uncounted)
    (hunmarked : (⟨op, q⟩ : Call).unmarked = (⟨op, p⟩ : Call).unmarked)
    (hflight : (⟨op, q⟩ : Call).inFlight = (⟨op, p⟩ : Call).inFlight) :
    Alike (some ⟨op, p⟩) (some ⟨op, q⟩) := by
  refine ⟨?_, ?_, ?_, huncounted, hunmarked, hflight⟩
  · intro d hd
    obtain rfl := Option.some.inj hd
    exact hfit
  · exact congrArg (· && op.exclusive) hholds
  · exact congrArg (· && !op.exclusive) hholds

theorem alike_hook {op : Op} {k : Hook} {st : Stage} (st' : Stage)
    (hfit : (⟨op, .hook k st⟩ : Call).fits = true) :
    Alike (some ⟨op, .hook k st⟩) (some ⟨op, .hook k st'⟩) := by
  cases k with
  | locked => exact alike_points hfit rfl rfl rfl rfl
  | willLock => exact alike_points hfit rfl rfl rfl rfl
  | willUnlock => exact alike_points hfit rfl rfl rfl rfl

theorem alike_after {T : Type} {op : Op} {k : Hook} {st : Stage} {o : Obj T} (htrack : o.track = true)
    (hfit : (⟨op, .hook k st⟩ : Call).fits = true) :
    ∃ q, op.afterHook o k = some q ∧ Alike (some ⟨op, .hook k st⟩) (some ⟨op, q⟩) := by
  have will : ∀ k, k ≠ .locked → Alike (some ⟨op, .hook k st⟩)
      (some ⟨op, if op.releases then .release else .acquire⟩) := by
    intro k hk
    cases hop : op.releases with
    | true => apply alike_points <;> cases k <;> simp_all
    | false => apply alike_points <;> cases k <;> simp_all
  cases k with
  | locked =>
    have hop : op.releases = false := by simpa using hfit
    refine ⟨_, if_pos htrack, ?_⟩
    cases hex : op.exclusive with
    | true => apply alike_points <;> simp [hop, hex]
    | false => apply alike_points <;> simp [hop, hex]
  | willLock => exact ⟨_, rfl, will .willLock nofun⟩
  | willUnlock => exact ⟨_, rfl, will .willUnlock nofun⟩

end Points

section Inv
variable {T : Type} [DecidableEq T]

/-- The shared acquisitions of `t` whose `_post_lock_shared` has run and whose
`_pre_unlock_shared` has not. -/
def Sys.tracked (s : Sys T) (t : T) : Nat :=
  s.obj.readers.count t - if (s.calls t).any Call.inFlight then 1 else 0

structure Inv (maxReaders : Nat) (s : Sys T) : Prop where
  track : s.obj.track = true
  bound : s.obj.readers.length ≤ maxReaders
  alone : s.obj.writer ≠ none → s.obj.readers = []
  fits : ∀ t c, s.calls t = some c → c.fits = true
  writes : ∀ t, (s.calls t).any Call.writes = true → s.obj.writer = some t
  reads : ∀ t, (s.calls t).any Call.reads = true → t ∈ s.obj.readers
  free : s.obj.writer = none → s.obj.nlock = 0 ∧ s.obj.lockedBy = none
  counted : ∀ t, s.obj.writer = some t →
    s.obj.nlock = if (s.calls t).any Call.uncounted then 0 else 1
  marked : ∀ t, s.obj.writer = some t →
    s.obj.lockedBy = if (s.calls t).any Call.unmarked then none else some t
  flying : (crowd (Option.any Call.inFlight) s.calls).Finite
  shared : s.obj.nrlock + (crowd (Option.any Call.inFlight) s.calls).ncard =
    s.obj.readers.length

variable {maxReaders : Nat} {s : Sys T} {t : T} {l : State T} {o' : Obj T} {c' : Option Call}

omit [DecidableEq T] in
theorem result_inj {l l' : State T} {o o' : Obj T} {p p' : Option Point}
    (h : (.ok (l, o, p) : Result T) = .ok (l', o', p')) : l = l' ∧ o = o' ∧ p = p' := by
  obtain ⟨hl, hrest⟩ := ok_mk_inj h
  exact ⟨hl, Prod.mk.inj hrest⟩

omit [DecidableEq T] in
theorem check_inj {b : Bool} {l l' : State T} {o o' : Obj T} {q : Point} {p : Option Point}
    (h : check b l o q = .ok (l', o', p)) : l = l' ∧ o = o' ∧ some q = p := by
  unfold check at h
  split at h
  · exact result_inj h
  · cases h

theorem Inv.fits_update (h : Inv maxReaders s) (hfit : ∀ d, c' = some d → d.fits = true) (q : T)
    (c : Call) (hc : update s.calls t c' q = some c) : c.fits = true := by
  by_cases hq : q = t
  · rw [hq, update_self] at hc
    exact hfit c hc
  · rw [update_of_ne hq] at hc
    exact h.fits q c hc

theorem any_update {P : Call → Bool} (hP : c'.any P = (s.calls t).any P) (q : T) :
    (update s.calls t c' q).any P = (s.calls q).any P := by
  by_cases hq : q = t
  · rw [hq, update_self]
    exact hP
  · rw [update_of_ne hq]

theorem Inv.exclusive (h : Inv maxReaders s) (htrack : o'.track = s.obj.track)
    (hreaders : o'.readers = s.obj.readers) (hnr : o'.nrlock = s.obj.nrlock)
    (hfit : ∀ d, c' = some d → d.fits = true)
    (hreads : c'.any Call.reads = (s.calls t).any Call.reads)
    (hflight : c'.any Call.inFlight = (s.calls t).any Call.inFlight)
    (halone : o'.writer ≠ none → s.obj.readers = [])
    (hothers : ∀ q, q ≠ t → (o'.writer = some q ↔ s.obj.writer = some q) ∧
      (s.obj.writer = some q → o'.nlock = s.obj.nlock ∧ o'.lockedBy = s.obj.lockedBy))
    (hwrites : c'.any Call.writes = true → o'.writer = some t)
    (hfree : o'.writer = none → o'.nlock = 0 ∧ o'.lockedBy = none)
    (hcounted : o'.writer = some t → o'.nlock = if c'.any Call.uncounted then 0 else 1)
    (hmarked : o'.writer = some t →
      o'.lockedBy = if c'.any Call.unmarked then none else some t) :
    Inv maxReaders ⟨l, o', update s.calls t c'⟩ := by
  refine ⟨htrack.trans h.track, hreaders ▸ h.bound, ?_, h.fits_update hfit, ?_, ?_, hfree, ?_, ?_,
    ?_, ?_⟩
  · rw [hreaders]
    exact halone
  · intro q hw
    change (update s.calls t c' q).any _ = true at hw
    by_cases hq : q = t
    · subst hq
      rw [update_self] at hw
      exact hwrites hw
    · rw [update_of_ne hq] at hw
      exact (hothers q hq).1.mpr (h.writes q hw)
  · intro q hr
    change (update s.calls t c' q).any _ = true at hr
    change q ∈ o'.readers
    rw [any_update hreads] at hr
    rw [hreaders]
    exact h.reads q hr
  · intro q hw
    change o'.nlock = if (update s.calls t c' q).any _ then 0 else 1
    by_cases hq : q = t
    · subst hq
      rw [update_self]
      exact hcounted hw
    · obtain ⟨hiff, hsame⟩ := hothers q hq
      rw [update_of_ne hq, (hsame (hiff.mp hw)).1]
      exact h.counted q (hiff.mp hw)
  · intro q hw
    change o'.lockedBy = if (update s.calls t c' q).any _ then none else some q
    by_cases hq : q = t
    · subst hq
      rw [update_self]
      exact hmarked hw
    · obtain ⟨hiff, hsame⟩ := hothers q hq
      rw [update_of_ne hq, (hsame (hiff.mp hw)).2]
      exact h.marked q (hiff.mp hw)
  · exact crowd_update_finite h.flying t c'
  · change o'.nrlock + (crowd _ (update s.calls t c')).ncard = o'.readers.length
    rw [ncard_update_same h.flying hflight, hnr, hreaders]
    exact h.shared

theorem Inv.quiet (h : Inv maxReaders s) (htrack : o'.track = s.obj.track)
    (hreaders : o'.readers = s.obj.readers) (hnr : o'.nrlock = s.obj.nrlock)
    (hwriter : o'.writer = s.obj.writer) (hn : o'.nlock = s.obj.nlock)
    (hby : o'.lockedBy = s.obj.lockedBy) (halike : Alike (s.calls t) c') :
    Inv maxReaders ⟨l, o', update s.calls t c'⟩ := by
  apply h.exclusive htrack hreaders hnr halike.fits halike.reads halike.inFlight
  · rw [hwriter]
    exact h.alone
  · intro q _
    rw [hwriter]
    exact ⟨Iff.rfl, fun _ => ⟨hn, hby⟩⟩
  · rw [hwriter, halike.writes]
    exact h.writes t
  · rw [hwriter, hn, hby]
    exact h.free
  · rw [hwriter, hn, halike.uncounted]
    exact h.counted t
  · rw [hwriter, hby, halike.unmarked]
    exact h.marked t

theorem Inv.own (h : Inv maxReaders s) (hw : s.obj.writer = some t)
    (htrack : o'.track = s.obj.track) (hreaders : o'.readers = s.obj.readers)
    (hnr : o'.nrlock = s.obj.nrlock) (hwriter : o'.writer = some t)
    (hfit : ∀ d, c' = some d → d.fits = true)
    (hreads : c'.any Call.reads = (s.calls t).any Call.reads)
    (hflight : c'.any Call.inFlight = (s.calls t).any Call.inFlight)
    (hcounted : o'.nlock = if c'.any Call.uncounted then 0 else 1)
    (hmarked : o'.lockedBy = if c'.any Call.unmarked then none else some t) :
    Inv maxReaders ⟨l, o', update s.calls t c'⟩ := by
  apply h.exclusive htrack hreaders hnr hfit hreads hflight
  · intro _
    apply h.alone
    rw [hw]
    nofun
  · intro q hq
    have hne : ¬ some t = some q := fun heq => hq (Option.some.inj heq).symm
    rw [hwriter, hw]
    exact ⟨Iff.rfl, fun heq => absurd heq hne⟩
  · exact fun _ => hwriter
  · intro hnone
    rw [hwriter] at hnone
    cases hnone
  · exact fun _ => hcounted
  · exact fun _ => hmarked

theorem Inv.sharing (h : Inv maxReaders s) (htrack : o'.track = s.obj.track)
    (hwriter : o'.writer = s.obj.writer) (hn : o'.nlock = s.obj.nlock)
    (hby : o'.lockedBy = s.obj.lockedBy) (hfit : ∀ d, c' = some d → d.fits = true)
    (hwrites : c'.any Call.writes = (s.calls t).any Call.writes)
    (huncounted : c'.any Call.uncounted = (s.calls t).any Call.uncounted)
    (hunmarked : c'.any Call.unmarked = (s.calls t).any Call.unmarked)
    (hbound : o'.readers.length ≤ maxReaders)
    (halone : s.obj.writer ≠ none → o'.readers = [])
    (hothers : ∀ q, q ≠ t → q ∈ s.obj.readers → q ∈ o'.readers)
    (hreads : c'.any Call.reads = true → t ∈ o'.readers)
    (hshared : o'.nrlock + s.obj.readers.length + (if c'.any Call.inFlight then 1 else 0) =
      s.obj.nrlock + o'.readers.length + if (s.calls t).any Call.inFlight then 1 else 0) :
    Inv maxReaders ⟨l, o', update s.calls t c'⟩ := by
  refine ⟨htrack.trans h.track, hbound, ?_, h.fits_update hfit, ?_, ?_, ?_, ?_, ?_, ?_, ?_⟩
  · rw [hwriter]
    exact halone
  · intro q hw
    change (update s.calls t c' q).any _ = true at hw
    rw [any_update hwrites] at hw
    exact hwriter.trans (h.writes q hw)
  · intro q hr
    change (update s.calls t c' q).any _ = true at hr
    by_cases hq : q = t
    · subst hq
      rw [update_self] at hr
      exact hreads hr
    · rw [update_of_ne hq] at hr
      exact hothers q hq (h.reads q hr)
  · intro hnone
    change o'.nlock = 0 ∧ o'.lockedBy = none
    rw [hn, hby]
    exact h.free (hwriter.symm.trans hnone)
  · intro q hw
    change o'.nlock = if (update s.calls t c' q).any _ then 0 else 1
    rw [any_update huncounted, hn]
    exact h.counted q (hwriter.symm.trans hw)
  · intro q hw
    change o'.lockedBy = if (update s.calls t c' q).any _ then none else some q
    rw [any_update hunmarked, hby]
    exact h.marked q (hwriter.symm.trans hw)
  · exact crowd_update_finite h.flying t c'
  · change o'.nrlock + (crowd _ (update s.calls t c')).ncard = o'.readers.length
    have hmove := ncard_update h.flying t c'
    have hcount := h.shared
    omega

omit [DecidableEq T] in
theorem Inv.flight_reader (h : Inv maxReaders s)
    (ht : (s.calls t).any Call.inFlight = true) : t ∈ s.obj.readers := by
  apply h.reads
  rcases Option.eq_none_or_eq_some (s.calls t) with hnone | ⟨c, hc⟩
  · rw [hnone] at ht
    cases ht
  · rw [hc] at ht ⊢
    exact Call.inFlight_reads (h.fits t c hc) ht

theorem Inv.counted_reader (h : Inv maxReaders s) (ht : t ∈ s.obj.readers)
    (hnot : (s.calls t).any Call.inFlight = false) : 0 < s.obj.nrlock := by
  have hsub : crowd (Option.any Call.inFlight) s.calls ⊆ (s.obj.readers.toFinset.erase t : Set T) := by
    intro q hq
    have hne : q ≠ t := by
      rintro rfl
      rw [mem_crowd, hnot] at hq
      cases hq
    simpa [hne] using h.flight_reader hq
  have hcard := Set.ncard_le_ncard hsub (Finset.finite_toSet _)
  rw [Set.ncard_coe_finset, Finset.card_erase_of_mem (List.mem_toFinset.mpr ht)] at hcard
  have hpos : 0 < s.obj.readers.toFinset.card :=
    Finset.card_pos.mpr ⟨t, List.mem_toFinset.mpr ht⟩
  have hle := List.toFinset_card_le s.obj.readers
  have hcount := h.shared
  omega

omit [DecidableEq T] in
theorem Inv.nrlock_le (h : Inv maxReaders s) : s.obj.nrlock ≤ maxReaders := by
  have hcount := h.shared
  have hbound := h.bound
  omega

omit [DecidableEq T] in
/-- There is room for a lock in flight. -/
theorem Inv.nrlock_lt (h : Inv maxReaders s) (ht : (s.calls t).any Call.inFlight = true) :
    s.obj.nrlock < maxReaders := by
  have hcount := h.shared
  have hbound := h.bound
  have hpos := (Set.ncard_pos h.flying).mpr ⟨t, ht⟩
  omega

theorem Inv.hook {op : Op} {k : Hook} {st : Stage} {p : Option Point} (h : Inv maxReaders s)
    (hc : s.calls t = some ⟨op, .hook k st⟩)
    (hok : stepHook s.lockdep t s.obj op k st = .ok (l, o', p)) :
    Inv maxReaders ⟨l, o', update s.calls t (p.map fun p => ⟨op, p⟩)⟩ := by
  have hfit := h.fits t _ hc
  have next : ∀ st', Alike (s.calls t) ((some (.hook k st')).map fun p => (⟨op, p⟩ : Call)) := by
    intro st'
    rw [hc]
    exact alike_hook st' hfit
  have after : Alike (s.calls t) ((op.afterHook s.obj k).map fun p => (⟨op, p⟩ : Call)) := by
    obtain ⟨q, hq, halike⟩ := alike_after h.track hfit
    rw [hc, hq]
    exact halike
  cases st with
  | test =>
    obtain ⟨rfl, rfl, rfl⟩ := result_inj hok
    apply h.quiet rfl rfl rfl rfl rfl rfl
    split
    · exact next .read
    · exact after
  | read =>
    obtain ⟨rfl, rfl, rfl⟩ := result_inj hok
    exact h.quiet rfl rfl rfl rfl rfl rfl (next _)
  | body i =>
    simp only [stepHook] at hok
    split at hok
    · next l1 i' _ =>
      obtain ⟨rfl, rfl, rfl⟩ := result_inj hok
      exact h.quiet rfl rfl rfl rfl rfl rfl (next _)
    · cases hok
  | store i =>
    obtain ⟨rfl, rfl, rfl⟩ := result_inj hok
    exact h.quiet rfl rfl rfl rfl rfl rfl after

theorem Inv.wrlock {op : Op} (h : Inv maxReaders s) (hc : s.calls t = some ⟨op, .acquire⟩)
    (hex : op.exclusive = true) (hop : op.releases = false) (hwr : wrlock t s.obj = .ok o') :
    Inv maxReaders ⟨l, o', update s.calls t (some ⟨op, .hook .locked .test⟩)⟩ := by
  unfold Shared.wrlock at hwr
  split at hwr
  · next hfree =>
    obtain rfl := Except.ok.inj hwr
    obtain ⟨hn, hby⟩ := h.free hfree.1
    apply h.exclusive
    · rfl
    · rfl
    · rfl
    · intro d hd
      obtain rfl := Option.some.inj hd
      simpa using hop
    · rw [hc]
      simp [hex]
    · rw [hc]
      simp [hex]
    · exact fun _ => hfree.2
    · intro q hq
      rw [hfree.1]
      exact ⟨⟨fun heq => absurd (Option.some.inj heq).symm hq, nofun⟩, nofun⟩
    · exact fun _ => rfl
    · nofun
    · simpa [hex] using hn
    · simpa [hex] using hby
  · cases hwr

theorem Inv.rdlock {op : Op} (h : Inv maxReaders s) (hc : s.calls t = some ⟨op, .acquire⟩)
    (hex : op.exclusive = false) (hop : op.releases = false)
    (hrd : rdlock maxReaders t s.obj = .ok o') :
    Inv maxReaders ⟨l, o', update s.calls t (some ⟨op, .hook .locked .test⟩)⟩ := by
  unfold Shared.rdlock at hrd
  split at hrd
  · next hfree =>
    obtain rfl := Except.ok.inj hrd
    apply h.sharing
    · rfl
    · rfl
    · rfl
    · rfl
    · intro d hd
      obtain rfl := Option.some.inj hd
      simpa using hop
    · rw [hc]
      simp [hex]
    · rw [hc]
      simp [hex]
    · rw [hc]
      simp [hex]
    · exact hfree.2
    · exact fun hw => absurd hfree.1 hw
    · exact fun q _ hq => List.mem_cons_of_mem t hq
    · exact fun _ => List.mem_cons_self
    · rw [hc]
      simp [hex]
      omega
  · cases hrd

theorem Inv.release {op : Op} (h : Inv maxReaders s) (hc : s.calls t = some ⟨op, .release⟩) :
    Inv maxReaders ⟨l, rwUnlock t s.obj, update s.calls t none⟩ := by
  cases hex : op.exclusive with
  | true =>
    have hw : s.obj.writer = some t := by
      apply h.writes
      rw [hc]
      simp [hex]
    have hn := h.counted t hw
    have hby := h.marked t hw
    rw [hc] at hn hby
    unfold rwUnlock
    rw [if_pos hw]
    apply h.exclusive
    · rfl
    · rfl
    · rfl
    · nofun
    · rw [hc]
      simp [hex]
    · rw [hc]
      simp [hex]
    · exact fun hne => absurd rfl hne
    · intro q hq
      rw [hw]
      have hne : ¬ some t = some q := fun heq => hq (Option.some.inj heq).symm
      exact ⟨⟨nofun, fun heq => absurd heq hne⟩, fun heq => absurd heq hne⟩
    · nofun
    · intro _
      simpa [hex] using And.intro hn hby
    · nofun
    · nofun
  | false =>
    have ht : t ∈ s.obj.readers := by
      apply h.reads
      rw [hc]
      simp [hex]
    -- a reader excludes a writer
    have hw : s.obj.writer = none := by
      by_contra hne
      rw [h.alone hne] at ht
      cases ht
    have hlen := List.length_erase_of_mem ht
    have hpos := List.length_pos_of_mem ht
    have hbound := h.bound
    unfold rwUnlock
    rw [if_neg (by rw [hw]; nofun)]
    apply h.sharing
    · rfl
    · rfl
    · rfl
    · rfl
    · nofun
    · rw [hc]
      simp [hex]
    · rw [hc]
      simp [hex]
    · rw [hc]
      simp [hex]
    · change (s.obj.readers.erase t).length ≤ maxReaders
      omega
    · exact fun hne => absurd hw hne
    · exact fun q hq hmem => (List.mem_erase_of_ne hq).mpr hmem
    · nofun
    · rw [hc]
      simp [hex]
      omega

theorem Inv.stepCall {c : Call} {r : Reply} {p : Option Point} (h : Inv maxReaders s)
    (hmax : maxReaders < 2 ^ 32) (hc : s.calls t = some c)
    (hok : stepCall maxReaders s.lockdep t c s.obj r = .ok (l, o', p)) :
    Inv maxReaders ⟨l, o', update s.calls t (p.map fun p => { c with point := p })⟩ := by
  obtain ⟨op, point⟩ := c
  have hfit := h.fits t _ hc
  have owner : (⟨op, point⟩ : Call).writes = true → s.obj.writer = some t := by
    intro hw
    apply h.writes
    rw [hc]
    exact hw
  have reader : (⟨op, point⟩ : Call).reads = true → t ∈ s.obj.readers := by
    intro hr
    apply h.reads
    rw [hc]
    exact hr
  -- an assert that holds
  have passed : ∀ {b : Bool} {q : Point}, check b s.lockdep s.obj q = .ok (l, o', p) →
      Alike (some ⟨op, point⟩) (some ⟨op, q⟩) →
      Inv maxReaders ⟨l, o', update s.calls t (p.map fun p => ⟨op, p⟩)⟩ := by
    intro b q hcheck halike
    obtain ⟨rfl, rfl, rfl⟩ := check_inj hcheck
    exact h.quiet rfl rfl rfl rfl rfl rfl (hc ▸ halike)
  unfold Shared.stepCall at hok
  cases point with
  | hook k st => exact h.hook hc hok
  | acquire =>
    have hop : op.releases = false := by simpa using hfit
    cases r with
    | refused =>
      obtain ⟨rfl, rfl, rfl⟩ := result_inj hok
      apply h.quiet rfl rfl rfl rfl rfl rfl
      rw [hc]
      exact ⟨nofun, rfl, rfl, rfl, rfl, rfl⟩
    | granted =>
      cases hex : op.exclusive with
      | true =>
        simp only [hex, if_true] at hok
        split at hok
        · next o1 hwr =>
          obtain ⟨rfl, rfl, rfl⟩ := result_inj hok
          exact h.wrlock hc hex hop hwr
        · cases hok
      | false =>
        simp only [hex, Bool.false_eq_true, if_false] at hok
        split at hok
        · next o1 hrd =>
          obtain ⟨rfl, rfl, rfl⟩ := result_inj hok
          exact h.rdlock hc hex hop hrd
        · cases hok
  | postLockCheck =>
    exact passed hok (alike_points hfit rfl rfl rfl rfl)
  | postLockOwner =>
    obtain ⟨rfl, rfl, rfl⟩ := result_inj hok
    have hop : op.exclusive = true ∧ op.releases = false := by simpa using hfit
    have hw := owner (by simp [hop.1])
    have hn := h.counted t hw
    rw [hc] at hn
    apply h.own hw
    · rfl
    · rfl
    · rfl
    · exact hw
    · intro d hd
      obtain rfl := Option.some.inj hd
      exact hfit
    · rw [hc]
      rfl
    · rw [hc]
      rfl
    · exact hn
    · rfl
  | postLockCount =>
    obtain ⟨rfl, rfl, rfl⟩ := result_inj hok
    have hop : op.exclusive = true ∧ op.releases = false := by simpa using hfit
    have hw := owner (by simp [hop.1])
    have hn := h.counted t hw
    have hby := h.marked t hw
    rw [hc] at hn hby
    apply h.own hw
    · rfl
    · rfl
    · rfl
    · exact hw
    · nofun
    · rw [hc]
      simp [hop.1]
    · rw [hc]
      rfl
    · simpa using hn
    · simpa using hby
  | postLockShared =>
    obtain ⟨rfl, rfl, rfl⟩ := result_inj hok
    have hop : op.exclusive = false ∧ op.releases = false := by simpa using hfit
    have hlt := h.nrlock_lt (t := t) (by rw [hc]; rfl)
    apply h.sharing
    · rfl
    · rfl
    · rfl
    · rfl
    · nofun
    · rw [hc]
      simp [hop.1]
    · rw [hc]
      rfl
    · rw [hc]
      rfl
    · exact h.bound
    · exact h.alone
    · exact fun q _ hq => hq
    · nofun
    · rw [hc, incr_of_lt (by omega)]
      simp
      omega
  | preUnlockCheck =>
    exact passed hok (alike_points hfit rfl rfl rfl rfl)
  | preUnlockCount =>
    obtain ⟨rfl, rfl, rfl⟩ := result_inj hok
    have hop : op.exclusive = true ∧ op.releases = true := by simpa using hfit
    have hw := owner (by simp [hop.1])
    have hn := h.counted t hw
    have hby := h.marked t hw
    rw [hc] at hn hby
    apply h.own hw
    · rfl
    · rfl
    · rfl
    · exact hw
    · intro d hd
      obtain rfl := Option.some.inj hd
      exact hfit
    · rw [hc]
      rfl
    · rw [hc]
      rfl
    · change s.obj.nlock - 1 = 0
      rw [hn]
      rfl
    · exact hby
  | preUnlockOwner =>
    exact passed hok (alike_points hfit rfl rfl rfl rfl)
  | preUnlockZero =>
    exact passed hok (alike_points hfit rfl rfl rfl rfl)
  | preUnlockClear =>
    obtain ⟨rfl, rfl, rfl⟩ := result_inj hok
    have hop : op.exclusive = true ∧ op.releases = true := by simpa using hfit
    have hw := owner (by simp [hop.1])
    have hn := h.counted t hw
    rw [hc] at hn
    apply h.own hw
    · rfl
    · rfl
    · rfl
    · exact hw
    · intro d hd
      obtain rfl := Option.some.inj hd
      rfl
    · rw [hc]
      simp [hop.1]
    · rw [hc]
      simp [hop.1]
    · simpa [hop.1, hop.2] using hn
    · simp [hop.1, hop.2]
  | preUnlockSharedCheck =>
    exact passed hok (alike_points hfit rfl rfl rfl rfl)
  | preUnlockSharedCount =>
    obtain ⟨rfl, rfl, rfl⟩ := result_inj hok
    have hop : op.exclusive = false ∧ op.releases = true := by simpa using hfit
    have ht := reader (by simp [hop.1])
    have hpos := h.counted_reader ht (by rw [hc]; rfl)
    have hle := h.nrlock_le
    apply h.sharing
    · rfl
    · rfl
    · rfl
    · rfl
    · intro d hd
      obtain rfl := Option.some.inj hd
      rfl
    · rw [hc]
      simp [hop.1]
    · rw [hc]
      simp [hop.1]
    · rw [hc]
      simp [hop.1]
    · exact h.bound
    · exact h.alone
    · exact fun q _ hq => hq
    · exact fun _ => ht
    · rw [hc, decr_of_pos hpos (by omega)]
      simp [hop.1, hop.2]
      omega
  | release =>
    obtain ⟨rfl, rfl, rfl⟩ := result_inj hok
    exact h.release hc

theorem Inv.enter {op : Op} (h : Inv maxReaders s) (hidle : s.calls t = none)
    (hfirst : HoldsFirst s (.call t op)) :
    Inv maxReaders ⟨s.lockdep, s.obj, update s.calls t (some ⟨op, op.first s.obj⟩)⟩ := by
  have start : ∀ {p : Point}, (⟨op, p⟩ : Call).fits = true → (⟨op, p⟩ : Call).holds = false →
      (⟨op, p⟩ : Call).uncounted = false → (⟨op, p⟩ : Call).unmarked = false →
      (⟨op, p⟩ : Call).inFlight = false →
      Inv maxReaders ⟨s.lockdep, s.obj, update s.calls t (some ⟨op, p⟩)⟩ := by
    intro p hfit hholds huncounted hunmarked hflight
    apply h.quiet rfl rfl rfl rfl rfl rfl
    rw [hidle]
    refine ⟨?_, ?_, ?_, huncounted, hunmarked, hflight⟩
    · intro d hd
      obtain rfl := Option.some.inj hd
      exact hfit
    · exact congrArg (· && op.exclusive) hholds
    · exact congrArg (· && !op.exclusive) hholds
  cases op with
  | lock => exact start rfl rfl rfl rfl rfl
  | tryLock => exact start rfl rfl rfl rfl rfl
  | lockShared => exact start rfl rfl rfl rfl rfl
  | tryLockShared => exact start rfl rfl rfl rfl rfl
  | unlock =>
    have hw : s.obj.writer = some t := hfirst
    have hn := h.counted t hw
    have hby := h.marked t hw
    rw [hidle] at hn hby
    have hp : Op.unlock.first s.obj = .preUnlockCheck := if_pos h.track
    rw [hp]
    apply h.own hw rfl rfl rfl hw
    · intro d hd
      obtain rfl := Option.some.inj hd
      rfl
    · rw [hidle]
      rfl
    · rw [hidle]
      rfl
    · exact hn
    · exact hby
  | unlockShared =>
    have ht : t ∈ s.obj.readers := hfirst
    have hp : Op.unlockShared.first s.obj = .preUnlockSharedCheck := if_pos h.track
    rw [hp]
    apply h.sharing rfl rfl rfl rfl
    · intro d hd
      obtain rfl := Option.some.inj hd
      rfl
    · rw [hidle]
      rfl
    · rw [hidle]
      rfl
    · rw [hidle]
      rfl
    · exact h.bound
    · exact h.alone
    · exact fun _ _ hq => hq
    · exact fun _ => ht
    · rw [hidle]
      rfl

theorem Inv.step {s' : Sys T} {a : Act T} (h : Inv maxReaders s) (hmax : maxReaders < 2 ^ 32)
    (hstep : Step maxReaders s a s') : Inv maxReaders s' := by
  obtain ⟨hfirst, hexec⟩ := hstep
  cases a with
  | call t op =>
    simp only [exec] at hexec
    split at hexec
    · cases hexec
    · next hidle =>
      obtain rfl := Except.ok.inj hexec
      exact h.enter hidle hfirst
  | step t r =>
    simp only [exec] at hexec
    split at hexec
    · cases hexec
    · next c hc =>
      split at hexec
      · next l o p hok =>
        obtain rfl := Except.ok.inj hexec
        exact h.stepCall hmax hc hok
      · cases hexec
  | elsewhere l =>
    obtain rfl := Except.ok.inj hexec
    exact ⟨h.track, h.bound, h.alone, h.fits, h.writes, h.reads, h.free, h.counted, h.marked,
      h.flying, h.shared⟩

omit [DecidableEq T] in
theorem Inv.start (h : Start s) : Inv maxReaders s := by
  obtain ⟨⟨group, id, ld, hobj⟩, hcalls⟩ := h
  have hempty : crowd (Option.any Call.inFlight) s.calls = ∅ := by
    ext q
    simp [hcalls q]
  refine ⟨?_, ?_, ?_, ?_, ?_, ?_, ?_, ?_, ?_, ?_, ?_⟩
  · rw [hobj]
  · rw [hobj]
    exact Nat.zero_le _
  · rw [hobj]
    exact fun _ => rfl
  · intro t c hc
    rw [hcalls t] at hc
    cases hc
  · intro t ht
    rw [hcalls t] at ht
    cases ht
  · intro t ht
    rw [hcalls t] at ht
    cases ht
  · rw [hobj]
    exact fun _ => ⟨rfl, rfl⟩
  · rw [hobj]
    nofun
  · rw [hobj]
    nofun
  · rw [hempty]
    exact Set.finite_empty
  · rw [hempty, hobj, Set.ncard_empty]
    rfl

theorem Inv.nrlock_eq (h : Inv maxReaders s) :
    s.obj.nrlock = ∑ t ∈ s.obj.readers.toFinset, s.tracked t := by
  have hcrowd : crowd (Option.any Call.inFlight) s.calls =
      (s.obj.readers.toFinset.filter fun t => (s.calls t).any Call.inFlight = true : Finset T) := by
    ext q
    simp only [mem_crowd, Finset.coe_filter, List.mem_toFinset, Set.mem_ofPred_eq]
    exact ⟨fun hq => ⟨h.flight_reader hq, hq⟩, And.right⟩
  have hcount := h.shared
  rw [hcrowd, Set.ncard_coe_finset, Finset.card_filter,
    ← List.sum_toFinset_count_eq_length s.obj.readers] at hcount
  have hsum : ∑ t ∈ s.obj.readers.toFinset, s.tracked t +
      ∑ t ∈ s.obj.readers.toFinset, (if (s.calls t).any Call.inFlight = true then 1 else 0) =
      ∑ t ∈ s.obj.readers.toFinset, s.obj.readers.count t := by
    rw [← Finset.sum_add_distrib]
    apply Finset.sum_congr rfl
    intro t ht
    have hpos := List.count_pos_iff.mpr (List.mem_toFinset.mp ht)
    unfold Sys.tracked
    split
    · omega
    · omega
  omega

structure Tracks (maxReaders : Nat) (s : Sys T) : Prop where
  one : s.obj.nlock ≤ 1
  apart : ¬ (0 < s.obj.nlock ∧ 0 < s.obj.nrlock)
  shared : s.obj.nrlock = ∑ t ∈ s.obj.readers.toFinset, s.tracked t
  writer : s.obj.nlock = 1 → ∃ t, s.obj.writer = some t ∧ s.obj.lockedBy = some t
  /-- The asserts of `_post_lock`, `_pre_unlock` and `_pre_unlock_shared`. -/
  asserts : ∀ t r, exec maxReaders s (.step t r) ≠ .error .assert

theorem Call.unmarked_uncounted {c : Call} (h : c.unmarked = true) : c.uncounted = true := by
  obtain ⟨op, p⟩ := c
  cases p with
  | hook k st => cases k <;> exact h
  | postLockCheck => rfl
  | postLockOwner => rfl
  | release => exact h
  | _ => cases h

omit [DecidableEq T] in
theorem Inv.writer_or_free (h : Inv maxReaders s) :
    (s.obj.nlock = 0 ∨ s.obj.nlock = 1) ∧ (s.obj.nlock = 1 → s.obj.nrlock = 0 ∧
      ∃ t, s.obj.writer = some t ∧ s.obj.lockedBy = some t) := by
  rcases Option.eq_none_or_eq_some s.obj.writer with hnone | ⟨t, hw⟩
  · have hn := (h.free hnone).1
    exact ⟨Or.inl hn, fun hone => absurd (hn.symm.trans hone) (by decide)⟩
  · have hn := h.counted t hw
    have hby := h.marked t hw
    have hshared := h.shared
    rw [h.alone (by rw [hw]; nofun), List.length_nil] at hshared
    split at hn
    · exact ⟨Or.inl hn, fun hone => absurd (hn.symm.trans hone) (by decide)⟩
    · next hcounted =>
      refine ⟨Or.inr hn, fun _ => ⟨by omega, t, hw, ?_⟩⟩
      rw [hby, if_neg]
      intro hun
      rcases Option.eq_none_or_eq_some (s.calls t) with hnone | ⟨c, hc⟩
      · rw [hnone] at hun
        cases hun
      · rw [hc] at hun hcounted
        exact hcounted (Call.unmarked_uncounted hun)

omit [DecidableEq T] in
theorem check_assert {b : Bool} {l : State T} {o : Obj T} {p : Point}
    (h : check b l o p = .error .assert) : b = false := by
  cases b with
  | true => cases h
  | false => rfl

theorem stepHook_assert {l : State T} {o : Obj T} {op : Op} {k : Hook} {st : Stage} :
    stepHook l t o op k st ≠ .error .assert := by
  intro h
  cases st with
  | test => cases h
  | read => cases h
  | body i =>
    simp only [stepHook] at h
    split at h
    · cases h
    · cases h
  | store i => cases h

omit [DecidableEq T] in
theorem grant_assert {b : Bool} {o : Obj T} {maxReaders : Nat} :
    (if b then wrlock t o else rdlock maxReaders t o) ≠ .error .assert := by
  intro h
  split at h
  · unfold Shared.wrlock at h
    split at h
    · cases h
    · cases h
  · unfold Shared.rdlock at h
    split at h
    · cases h
    · cases h

/-- Every assert holds where it stands. -/
theorem Inv.asserts (h : Inv maxReaders s) (t : T) (r : Reply) :
    exec maxReaders s (.step t r) ≠ .error .assert := by
  intro herr
  simp only [exec] at herr
  split at herr
  · cases herr
  · next c hc =>
    split at herr
    · cases herr
    · next e hok =>
      obtain rfl := Except.error.inj herr
      obtain ⟨op, point⟩ := c
      have hfit := h.fits t _ hc
      have owner : (⟨op, point⟩ : Call).writes = true → s.obj.writer = some t := by
        intro hw
        apply h.writes
        rw [hc]
        exact hw
      cases point with
      | hook k st => exact stepHook_assert hok
      | acquire =>
        cases r with
        | refused => cases hok
        | granted =>
          simp only [Shared.stepCall] at hok
          split at hok
          · cases hok
          · next e hgrant =>
            obtain rfl := Except.error.inj hok
            exact grant_assert hgrant
      | postLockCheck =>
        have hop : op.exclusive = true ∧ op.releases = false := by simpa using hfit
        have hn := h.counted t (owner (by simp [hop.1]))
        rw [hc] at hn
        have hfail : (s.obj.nlock == 0) = false := check_assert hok
        rw [hn] at hfail
        cases hfail
      | preUnlockCheck =>
        have hop : op.exclusive = true ∧ op.releases = true := by simpa using hfit
        have hn := h.counted t (owner (by simp [hop.1]))
        rw [hc] at hn
        have hfail : decide (0 < s.obj.nlock) = false := check_assert hok
        rw [hn] at hfail
        cases hfail
      | preUnlockOwner =>
        have hop : op.exclusive = true ∧ op.releases = true := by simpa using hfit
        have hby := h.marked t (owner (by simp [hop.1]))
        rw [hc] at hby
        have hfail : (s.obj.lockedBy == some t) = false := check_assert hok
        rw [hby] at hfail
        simp at hfail
      | preUnlockZero =>
        have hop : op.exclusive = true ∧ op.releases = true := by simpa using hfit
        have hn := h.counted t (owner (by simp [hop.1]))
        rw [hc] at hn
        have hfail : (s.obj.nlock == 0) = false := check_assert hok
        rw [hn] at hfail
        cases hfail
      | preUnlockSharedCheck =>
        have hop : op.exclusive = false ∧ op.releases = true := by simpa using hfit
        have ht : t ∈ s.obj.readers := by
          apply h.reads
          rw [hc]
          simp [hop.1]
        have hpos := h.counted_reader ht (by rw [hc]; rfl)
        have hfail : decide (0 < s.obj.nrlock) = false := check_assert hok
        exact of_decide_eq_false hfail hpos
      | _ => cases hok

/-- In every run of threads that release only what they hold, on an object that tracks, `nlock`,
`nrlock` and `locked_by` are those of `rwlock` and no assert fails. -/
theorem shared_tracked (maxReaders : Nat) (hmax : maxReaders < 2 ^ 32)
    (h : Reachable Start (Step maxReaders) s) : Tracks maxReaders s := by
  have hinv : Inv maxReaders s := by
    apply h.invariant
    · exact fun _ hs => Inv.start hs
    · exact fun _ _ _ hs hstep => hs.step hmax hstep
  obtain ⟨hn, hone⟩ := hinv.writer_or_free
  refine ⟨by omega, ?_, hinv.nrlock_eq, fun h1 => (hone h1).2, hinv.asserts⟩
  rintro ⟨hpos, hrpos⟩
  have hzero := (hone (by omega)).1
  omega

instance (s : Sys T) (a : Act T) : Decidable (HoldsFirst s a) :=
  match a with
  | .call t .unlock => inferInstanceAs (Decidable (s.obj.writer = some t))
  | .call t .unlockShared => inferInstanceAs (Decidable (t ∈ s.obj.readers))
  | .call _ .lock | .call _ .tryLock | .call _ .lockShared | .call _ .tryLockShared | .step _ _
  | .elsewhere _ => inferInstanceAs (Decidable True)

/-- Two readers, one of them twice; the other is giving its lock back. -/
theorem shared_tracked_three : ∃ s : Sys Bool, s.obj.nrlock = 2 ∧ s.obj.readers.length = 3 ∧
    Tracks 1024 s := by
  have hrun : ∃ s ∈ execAll (exec 1024) (fun s a => decide (HoldsFirst s a))
      (⟨initial, ⟨"m", -1, true, 0, none, true, 0, none, []⟩, fun _ => none⟩ : Sys Bool)
      (.call true .lockShared :: List.replicate 4 (.step true .granted) ++
        .call true .lockShared :: List.replicate 4 (.step true .granted) ++
        .call false .tryLockShared :: List.replicate 4 (.step false .granted) ++
        .call false .unlockShared :: List.replicate 2 (.step false .granted)),
      s.obj.nrlock = 2 ∧ s.obj.readers.length = 3 := by
    decide +kernel
  obtain ⟨s, hs, hn, hlen⟩ := hrun
  refine ⟨s, hn, hlen, shared_tracked 1024 (by decide) ?_⟩
  refine Reachable.run (.start ⟨⟨_, _, _, rfl⟩, fun _ => rfl⟩) (execAll_run ?_ hs)
  intro s a s' hok hexec
  exact ⟨of_decide_eq_true hok, hexec⟩

end Inv

end LockdepSpdk.Shared
