import LockdepSpdk.Ioc.Machine

/-!
# The invariant of IOContext

`num_running` is the number of tasks that the submitting thread has still to account
for, wherever it is in `aio_submit`. So a thread that saw it positive under the lock
goes to sleep with a notification still to come.
-/

namespace LockdepSpdk.Ioc

set_option autoImplicit false

open Function Monitor Blk

/-- The counters while `aio_submit` does not run. -/
structure Idle (c : Counters) : Prop where
  pending : c.numPending = int32 c.chained
  running : c.numRunning = 0
  rest : c.rest = 0
  inflight : c.inflight = 0

theorem Idle.eq {c : Counters} (h : Idle c) : c = ⟨int32 c.chained, 0, c.chained, 0, 0⟩ := by
  have heta : c = ⟨c.numPending, c.numRunning, c.chained, c.rest, c.inflight⟩ := rfl
  rwa [h.pending, h.running, h.rest, h.inflight] at heta

theorem Idle.append {c : Counters} (h : Idle c) : Idle c.append := by
  refine ⟨?_, h.running, h.rest, h.inflight⟩
  change int32 (c.numPending + 1) = int32 (c.chained + 1 : Nat)
  rw [h.pending]
  exact int32_add _ 1

/-- The counters in `aio_submit`, before the tasks are taken off the context. -/
structure Submitting (c : Counters) (pending running : Int) : Prop where
  pending : c.numPending = pending
  running : c.numRunning = running
  rest : c.rest = 0
  inflight : c.inflight = 0
  small : c.chained < 2 ^ 31

/-- The counters in `_aio_handle`; `owed` completed tasks are not yet subtracted. -/
structure Handling (c : Counters) (owed : Nat) : Prop where
  pending : c.numPending = 0
  running : c.numRunning = (c.rest + c.inflight + owed : Nat)
  chained : c.chained = 0
  small : c.rest + c.inflight + owed < 2 ^ 31

/-- What the counters are when the submitting thread is at a point. -/
def Books (c : Counters) : Option Point → Prop
  | some .submitLoad => Submitting c c.chained 0
  | some (.submitRunning pending) => pending = c.chained ∧ Submitting c c.chained 0
  | some (.submitPending pending) => pending = c.chained ∧ Submitting c c.chained c.chained
  | some .submitAssert | some .submitTake => Submitting c 0 c.chained
  | some .handleTest | some .handlePoll | some .handleFeed => Handling c 0
  | some .wakeAssert | some .wakeLock | some .wakeSub => Handling c 1
  | some .wakeNotify => Handling c 0 ∧ c.numRunning = 0
  | some .wakeUnlock => Handling c 0
  | none | some .waitLock | some .waitTest | some .waitSleep | some .asleep | some .waitRelock
  | some .waitUnlock => Idle c

def inside (p : Option Point) : Prop := ∃ q, p = some q ∧ q.holds = true

def outer (p : Option Point) : Prop := ∀ q, p = some q → q.waits = true

theorem inside_some {p : Point} : inside (some p) ↔ p.holds = true :=
  ⟨fun ⟨_, heq, h⟩ => by rwa [Option.some.inj heq], fun h => ⟨p, rfl, h⟩⟩

theorem not_inside_none : ¬ inside none := fun ⟨_, heq, _⟩ => by cases heq

theorem outer_none : outer none := fun _ heq => by cases heq

theorem outer_some {p : Point} (h : p.waits = true) : outer (some p) := by
  intro q heq
  rwa [← Option.some.inj heq]

def inner (p : Option Point) : Prop := ∀ q, p = some q → q.waits = false

theorem inner_none : inner none := fun _ heq => by cases heq

theorem inner_some {p : Point} (h : p.waits = false) : inner (some p) := by
  intro q heq
  rwa [← Option.some.inj heq]

theorem inner.ne {p : Option Point} (h : inner p) {q : Point} (hq : q.waits = true) :
    p ≠ some q := by
  intro heq
  rw [h q heq] at hq
  cases hq

theorem outer.ne {p : Option Point} (h : outer p) {q : Point} (hq : q.waits = false) :
    p ≠ some q := by
  intro heq
  rw [h q heq] at hq
  cases hq

theorem books_outer {c : Counters} {p : Option Point} (hp : outer p) : Books c p ↔ Idle c := by
  rcases p with _ | p
  · exact Iff.rfl
  · have hwaits : p.waits = true := hp p rfl
    cases p <;> first | exact Iff.rfl | cases hwaits

section Steps
variable {T : Type} [DecidableEq T] {sub t : T} {s s' : Sys T} {c : Counters} {o : Option T}
  {p : Point} {p' : Option Point}

structure Inv (sub : T) (s : Sys T) : Prop where
  books : Books s.ctx (s.calls sub)
  lock : Guards inside s.owner s.calls
  waiter : ∀ t, t ≠ sub → outer (s.calls t)
  sleeps : ∀ t, s.calls t = some .waitSleep → 0 < s.ctx.numRunning
  awaits : Awaits (some .asleep) (0 < s.ctx.numRunning) (s.calls sub = some .wakeNotify) s.calls

namespace Inv

omit [DecidableEq T] in
theorem sub_of (h : Inv sub s) (ht : s.calls t = some p) (hp : p.waits = false) : t = sub := by
  by_contra hne
  exact (h.waiter t hne).ne hp ht

omit [DecidableEq T] in
theorem owner_of (h : Inv sub s) (ht : s.calls t = some p) (hp : p.holds = true) :
    s.owner = some t := by
  apply (h.lock t).mpr
  rw [ht]
  exact inside_some.mpr hp

theorem moved (h : Inv sub s) (hbooks : Books c (update s.calls t p' sub))
    (hlock : Guards inside o (update s.calls t p')) (hwaiter : t ≠ sub → outer p')
    (hpos : 0 < s.ctx.numRunning → 0 < c.numRunning)
    (hsleeps : p' = some .waitSleep ∨ p' = some .asleep → 0 < c.numRunning)
    (hsig : s.calls t ≠ some .wakeNotify) : Inv sub ⟨c, o, update s.calls t p'⟩ := by
  refine ⟨hbooks, hlock, ?_, ?_, ?_⟩
  · intro u hu
    change outer (update s.calls t p' u)
    rcases eq_or_ne u t with rfl | hut
    · rw [update_self]
      exact hwaiter hu
    · rw [update_of_ne hut]
      exact h.waiter u hu
  · intro u hu
    change update s.calls t p' u = _ at hu
    rcases eq_or_ne u t with rfl | hut
    · rw [update_self] at hu
      exact hsleeps (Or.inl hu)
    · rw [update_of_ne hut] at hu
      exact hpos (h.sleeps u hu)
  · apply Awaits.move
    · apply h.awaits.mono
      · exact fun hrunning => Or.inl (hpos hrunning)
      · intro hnotify
        have hne : sub ≠ t := fun heq => hsig (heq ▸ hnotify)
        exact Or.inr ((update_of_ne hne ..).trans hnotify)
    · exact fun heq => Or.inl (hsleeps (Or.inr heq))

theorem waits (h : Inv sub s) (ht : outer (s.calls t)) (hp : outer p')
    (hlock : Guards inside o (update s.calls t p'))
    (hsleeps : p' = some .waitSleep ∨ p' = some .asleep → 0 < s.ctx.numRunning) :
    Inv sub ⟨s.ctx, o, update s.calls t p'⟩ := by
  apply h.moved ?_ hlock (fun _ => hp) (fun hpos => hpos) hsleeps (ht.ne rfl)
  rcases eq_or_ne sub t with rfl | hne
  · rw [update_self]
    exact (books_outer hp).mpr ((books_outer ht).mp h.books)
  · rw [update_of_ne hne]
    exact h.books

theorem submits (h : Inv sub s) (hsig : s.calls sub ≠ some .wakeNotify)
    (hlock : Guards inside o (update s.calls sub p')) (hp : inner p') (hbooks : Books c p')
    (hpos : 0 < s.ctx.numRunning → 0 < c.numRunning) : Inv sub ⟨c, o, update s.calls sub p'⟩ := by
  apply h.moved ?_ hlock (fun hne => absurd rfl hne) hpos ?_ hsig
  · rw [update_self]
    exact hbooks
  · rintro (heq | heq)
    · exact absurd heq (hp.ne rfl)
    · exact absurd heq (hp.ne rfl)

/-- `fetch_sub` while the lock keeps every other thread from falling asleep. -/
theorem subtracts (h : Inv sub s) (hat : s.calls sub = some .wakeSub) :
    Inv sub (s.goto sub (some (if s.ctx.numRunning = 1 then .wakeNotify else .wakeUnlock))
      { s.ctx with numRunning := int32 (s.ctx.numRunning - 1) }) := by
  have hbooks : Handling s.ctx 1 := by
    have hb := h.books
    rwa [hat] at hb
  have hrunning := hbooks.running
  have hsmall := hbooks.small
  have hsub : int32 (s.ctx.numRunning - 1) = (s.ctx.rest + s.ctx.inflight : Nat) := by
    rw [int32_of_lt (by omega) (by omega)]
    omega
  have hhandling : Handling { s.ctx with numRunning := int32 (s.ctx.numRunning - 1) } 0 :=
    ⟨hbooks.pending, hsub, hbooks.chained, by change s.ctx.rest + s.ctx.inflight + 0 < 2 ^ 31; omega⟩
  have halone : ∀ u, s.calls u = some .waitSleep → u = sub := by
    intro u hu
    apply h.lock.exclusive (hu ▸ inside_some.mpr rfl)
    rw [hat]
    exact inside_some.mpr rfl
  refine ⟨?_, ?_, ?_, ?_, ?_⟩
  · rw [Sys.goto_self]
    split
    · next hone =>
      refine ⟨hhandling, ?_⟩
      change int32 (s.ctx.numRunning - 1) = 0
      rw [hone]
      rfl
    · exact hhandling
  · apply h.lock.keep
    rw [hat]
    split <;> exact iff_of_true (inside_some.mpr rfl) (inside_some.mpr rfl)
  · intro u hu
    rw [Sys.goto_of_ne hu]
    exact h.waiter u hu
  · intro u hu
    rcases eq_or_ne u sub with rfl | hne
    · rw [Sys.goto_self] at hu
      split at hu <;> cases hu
    · rw [Sys.goto_of_ne hne] at hu
      exact absurd (halone u hu) hne
  · rw [Sys.goto_self]
    apply Awaits.move
    · apply h.awaits.mono
      · intro hpos
        split
        · exact Or.inr rfl
        · next hne =>
          left
          change 0 < int32 (s.ctx.numRunning - 1)
          omega
      · intro hnotify
        rw [hat] at hnotify
        cases hnotify
    · intro heq
      split at heq <;> cases heq

theorem notifies (h : Inv sub s) (hat : s.calls sub = some .wakeNotify) :
    Inv sub (s.notifyAll sub .wakeUnlock) := by
  have hbooks : Handling s.ctx 0 ∧ s.ctx.numRunning = 0 := by
    have hb := h.books
    rwa [hat] at hb
  have hstays : Monitor.notifyAll (some .asleep) (some .waitRelock) s.calls sub =
      some .wakeNotify := by
    rw [notifyAll_of_ne (by rw [hat]; exact nofun)]
    exact hat
  refine ⟨?_, ?_, ?_, ?_, ?_⟩
  · rw [Sys.notifyAll_self]
    exact hbooks.1
  · apply Guards.keep
    · apply h.lock.notifyAll
      · exact fun hin => by cases inside_some.mp hin
      · exact fun hin => by cases inside_some.mp hin
    · rw [hstays]
      exact iff_of_true (inside_some.mpr rfl) (inside_some.mpr rfl)
  · intro u hu
    rw [Sys.notifyAll_of_ne hu]
    unfold Monitor.notifyAll
    split
    · exact outer_some rfl
    · exact h.waiter u hu
  · intro u hu
    rcases eq_or_ne u sub with rfl | hne
    · rw [Sys.notifyAll_self] at hu
      cases hu
    · rw [Sys.notifyAll_of_ne hne] at hu
      exact h.sleeps u (of_notifyAll (fun heq => by cases heq) hu)
  · apply Awaits.move
    · exact Awaits.notifyAll (fun heq => by cases heq)
    · exact nofun

theorem unlocks (h : Inv sub s) (hat : s.calls t = some p) (hp : p.holds = true)
    (hout : ¬ inside p') : Guards inside none (update s.calls t p') := by
  apply h.lock.release ?_ hout
  rw [hat]
  exact inside_some.mpr hp

theorem keeps (h : Inv sub s) (hat : s.calls t = some p) (hp : inside p' ↔ p.holds = true) :
    Guards inside s.owner (update s.calls t p') := by
  apply h.lock.keep
  rw [hat, inside_some]
  exact hp

theorem handles (h : Inv sub s) (hat : s.calls sub = some p) (hfree : p.holds = false)
    (hp : inner p') (hout : ¬ inside p') (hbooks : Books c p')
    (hpos : 0 < s.ctx.numRunning → 0 < c.numRunning) : Inv sub (s.goto sub p' c) := by
  apply h.submits ?_ (h.keeps hat (iff_of_false hout (by rw [hfree]; exact Bool.false_ne_true)))
    hp hbooks hpos
  rw [hat]
  intro heq
  obtain rfl := Option.some.inj heq
  cases hfree

end Inv

theorem not_inside {p : Point} (h : p.holds = false) : ¬ inside (some p) := by
  rw [inside_some, h]
  exact Bool.false_ne_true

omit [DecidableEq T] in
theorem check_ok {b : Bool} (h : check b s = .ok s') : b = true ∧ s = s' := by
  unfold check at h
  split at h
  · next hb => exact ⟨hb, Except.ok.inj h⟩
  · cases h

theorem lock_ok {q : Point} (h : s.lock t q = .ok s') :
    s.owner = none ∧ s' = s.owned t q := by
  unfold Sys.lock at h
  split at h
  · next hfree => exact ⟨hfree, (Except.ok.inj h).symm⟩
  · cases h

namespace Inv

theorem acquires (h : Inv sub s) (hfree : s.owner = none) {q : Point} (hq : q.holds = true) :
    Guards inside (some t) (update s.calls t (some q)) := by
  have hlock := h.lock
  rw [hfree] at hlock
  exact hlock.acquire (inside_some.mpr hq)

theorem submitStep (h : Inv sub s) (hat : s.calls sub = some p)
    (hexec : stepPoint s sub s.ctx p = .ok s')
    (hp : p = .submitLoad ∨ (∃ n, p = .submitRunning n) ∨ (∃ n, p = .submitPending n) ∨
      p = .submitAssert ∨ p = .submitTake) : Inv sub s' := by
  have hbooks := h.books
  rw [hat] at hbooks
  rcases hp with rfl | ⟨n, rfl⟩ | ⟨n, rfl⟩ | rfl | rfl
  · obtain ⟨hpending, hrunning, hrest, hinflight, hsmall⟩ := hbooks
    obtain rfl := Except.ok.inj hexec
    split
    · apply h.handles hat rfl (inner_some rfl) (not_inside rfl)
      · exact ⟨hpending, hpending, hrunning, hrest, hinflight, hsmall⟩
      · exact fun hpos => hpos
    · next hno =>
      apply h.handles hat rfl inner_none not_inside_none
      · have hzero : s.ctx.chained = 0 := by omega
        refine ⟨?_, hrunning, hrest, hinflight⟩
        rw [hpending, hzero]
        rfl
      · exact fun hpos => hpos
  · obtain ⟨hn, hpending, hrunning, hrest, hinflight, hsmall⟩ := hbooks
    obtain rfl := Except.ok.inj hexec
    have hadd : int32 (s.ctx.numRunning + n) = s.ctx.chained := by
      rw [hrunning, hn, int32_of_lt (by omega) (by omega)]
      omega
    apply h.handles hat rfl (inner_some rfl) (not_inside rfl)
    · exact ⟨hn, hpending, hadd, hrest, hinflight, hsmall⟩
    · intro hpos
      omega
  · obtain ⟨hn, hpending, hrunning, hrest, hinflight, hsmall⟩ := hbooks
    obtain rfl := Except.ok.inj hexec
    have hsub : int32 (s.ctx.numPending - n) = 0 := by
      rw [hpending, hn, Int.sub_self]
      rfl
    apply h.handles hat rfl (inner_some rfl) (not_inside rfl)
    · exact ⟨hsub, hrunning, hrest, hinflight, hsmall⟩
    · exact fun hpos => hpos
  · obtain ⟨hpending, hrunning, hrest, hinflight, hsmall⟩ := hbooks
    obtain ⟨_, rfl⟩ := check_ok hexec
    apply h.handles hat rfl (inner_some rfl) (not_inside rfl)
    · exact ⟨hpending, hrunning, hrest, hinflight, hsmall⟩
    · exact fun hpos => hpos
  · obtain ⟨hpending, hrunning, hrest, hinflight, hsmall⟩ := hbooks
    obtain rfl := Except.ok.inj hexec
    apply h.handles hat rfl (inner_some rfl) (not_inside rfl)
    · refine ⟨hpending, ?_, rfl, ?_⟩
      · change s.ctx.numRunning = (s.ctx.chained + s.ctx.inflight + 0 : Nat)
        rw [hrunning, hinflight]
        rfl
      · change s.ctx.chained + s.ctx.inflight + 0 < 2 ^ 31
        omega
    · exact fun hpos => hpos

theorem handleStep (h : Inv sub s) (hat : s.calls sub = some p)
    (hexec : stepPoint s sub s.ctx p = .ok s')
    (hp : p = .handleTest ∨ p = .handlePoll ∨ p = .handleFeed) : Inv sub s' := by
  have hbooks := h.books
  rw [hat] at hbooks
  rcases hp with rfl | rfl | rfl
  · obtain rfl := Except.ok.inj hexec
    split
    · exact h.handles hat rfl (inner_some rfl) (not_inside rfl) hbooks (fun hpos => hpos)
    · next hzero =>
      apply h.handles hat rfl inner_none not_inside_none
      · have hrunning := hbooks.running
        refine ⟨?_, by omega, by omega, by omega⟩
        rw [hbooks.pending, hbooks.chained]
        rfl
      · exact fun hpos => hpos
  · obtain rfl := Except.ok.inj hexec
    exact h.handles hat rfl (inner_some rfl) (not_inside rfl) hbooks (fun hpos => hpos)
  · obtain rfl := Except.ok.inj hexec
    split
    · exact h.handles hat rfl (inner_some rfl) (not_inside rfl) hbooks (fun hpos => hpos)
    · exact h.handles hat rfl (inner_some rfl) (not_inside rfl) hbooks (fun hpos => hpos)

theorem wakeStep (h : Inv sub s) (hat : s.calls sub = some p)
    (hexec : stepPoint s sub s.ctx p = .ok s')
    (hp : p = .wakeAssert ∨ p = .wakeLock ∨ p = .wakeSub ∨ p = .wakeNotify ∨ p = .wakeUnlock) :
    Inv sub s' := by
  have hbooks := h.books
  rw [hat] at hbooks
  rcases hp with rfl | rfl | rfl | rfl | rfl
  · obtain ⟨_, rfl⟩ := check_ok hexec
    exact h.handles hat rfl (inner_some rfl) (not_inside rfl) hbooks (fun hpos => hpos)
  · obtain ⟨hfree, rfl⟩ := lock_ok hexec
    apply h.submits
    · rw [hat]
      exact nofun
    · exact h.acquires hfree rfl
    · exact inner_some rfl
    · exact hbooks
    · exact fun hpos => hpos
  · obtain rfl := Except.ok.inj hexec
    exact h.subtracts hat
  · obtain rfl := Except.ok.inj hexec
    exact h.notifies hat
  · obtain rfl := Except.ok.inj hexec
    apply h.submits
    · rw [hat]
      exact nofun
    · exact h.unlocks hat rfl (not_inside rfl)
    · exact inner_some rfl
    · exact hbooks
    · exact fun hpos => hpos

theorem waitStep (h : Inv sub s) (hat : s.calls t = some p)
    (hexec : stepPoint s t s.ctx p = .ok s') (hp : p.waits = true) : Inv sub s' := by
  have hout : outer (s.calls t) := hat ▸ outer_some hp
  cases p with
  | waitLock | waitRelock =>
    obtain ⟨hfree, rfl⟩ := lock_ok hexec
    apply h.waits hout (outer_some rfl) (h.acquires hfree rfl)
    rintro (heq | heq) <;> cases heq
  | waitTest =>
    obtain rfl := Except.ok.inj hexec
    split
    · next hpos =>
      apply h.waits hout (outer_some rfl)
      · exact h.keeps hat (iff_of_true (inside_some.mpr rfl) rfl)
      · exact fun _ => hpos
    · apply h.waits hout (outer_some rfl)
      · exact h.keeps hat (iff_of_true (inside_some.mpr rfl) rfl)
      · rintro (heq | heq) <;> cases heq
  | waitSleep =>
    obtain rfl := Except.ok.inj hexec
    apply h.waits hout (outer_some rfl) (h.unlocks hat rfl (not_inside rfl))
    exact fun _ => h.sleeps t hat
  | asleep => cases hexec
  | waitUnlock =>
    obtain rfl := Except.ok.inj hexec
    apply h.waits hout outer_none (h.unlocks hat rfl not_inside_none)
    rintro (heq | heq) <;> cases heq
  | _ => cases hp

theorem steps_point (h : Inv sub s) (hat : s.calls t = some p)
    (hexec : stepPoint s t s.ctx p = .ok s') : Inv sub s' := by
  rcases hp : p.waits with _ | _
  · obtain rfl := h.sub_of hat hp
    cases p with
    | submitLoad => exact h.submitStep hat hexec (Or.inl rfl)
    | submitRunning n => exact h.submitStep hat hexec (Or.inr (Or.inl ⟨n, rfl⟩))
    | submitPending n => exact h.submitStep hat hexec (Or.inr (Or.inr (Or.inl ⟨n, rfl⟩)))
    | submitAssert => exact h.submitStep hat hexec (by simp)
    | submitTake => exact h.submitStep hat hexec (by simp)
    | handleTest | handlePoll | handleFeed => exact h.handleStep hat hexec (by simp)
    | wakeAssert | wakeLock | wakeSub | wakeNotify | wakeUnlock =>
      exact h.wakeStep hat hexec (by simp)
    | _ => cases hp
  · exact h.waitStep hat hexec hp

omit [DecidableEq T] in
theorem appends (h : Inv sub s) (hidle : s.calls sub = none) :
    Inv sub { s with ctx := s.ctx.append } := by
  have hbooks := h.books
  rw [hidle] at hbooks
  refine ⟨?_, h.lock, h.waiter, h.sleeps, h.awaits⟩
  change Books _ (s.calls sub)
  rw [hidle]
  exact hbooks.append

/-- The beginning of `aio_submit`. Here the counter has not wrapped. -/
theorem opens (h : Inv sub s) (hidle : s.calls sub = none) (hsmall : s.ctx.chained < 2 ^ 31) :
    Inv sub (s.goto sub (some .submitLoad) s.ctx) := by
  have hbooks := h.books
  rw [hidle] at hbooks
  apply h.submits
  · rw [hidle]
    exact nofun
  · apply h.lock.keep
    rw [hidle]
    exact iff_of_false (not_inside rfl) not_inside_none
  · exact inner_some rfl
  · refine ⟨?_, hbooks.running, hbooks.rest, hbooks.inflight, hsmall⟩
    rw [hbooks.pending, int32_of_lt (by omega) (by omega)]
  · exact fun hpos => hpos

omit [DecidableEq T] in
theorem hands (h : Inv sub s) (hat : s.calls sub = some .handleFeed) (hpos : 0 < s.ctx.rest) :
    Inv sub { s with
      ctx := { s.ctx with rest := s.ctx.rest - 1, inflight := s.ctx.inflight + 1 } } := by
  have hbooks := h.books
  rw [hat] at hbooks
  have hrunning := hbooks.running
  have hsmall := hbooks.small
  refine ⟨?_, h.lock, h.waiter, h.sleeps, h.awaits⟩
  change Books _ (s.calls sub)
  rw [hat]
  refine ⟨hbooks.pending, ?_, hbooks.chained, ?_⟩
  · change s.ctx.numRunning = (s.ctx.rest - 1 + (s.ctx.inflight + 1) + 0 : Nat)
    omega
  · change s.ctx.rest - 1 + (s.ctx.inflight + 1) + 0 < 2 ^ 31
    omega

theorem completes (h : Inv sub s) (hat : s.calls sub = some .handlePoll)
    (hpos : 0 < s.ctx.inflight) :
    Inv sub (s.goto sub (some .wakeAssert) { s.ctx with inflight := s.ctx.inflight - 1 }) := by
  have hbooks := h.books
  rw [hat] at hbooks
  have hrunning := hbooks.running
  have hsmall := hbooks.small
  apply h.handles hat rfl (inner_some rfl) (not_inside rfl)
  · refine ⟨hbooks.pending, ?_, hbooks.chained, ?_⟩
    · change s.ctx.numRunning = (s.ctx.rest + (s.ctx.inflight - 1) + 1 : Nat)
      omega
    · change s.ctx.rest + (s.ctx.inflight - 1) + 1 < 2 ^ 31
      omega
  · exact fun hrun => hrun

theorem enters (h : Inv sub s) (hidle : s.calls t = none) :
    Inv sub (s.goto t (some .waitLock) s.ctx) := by
  apply h.waits (hidle ▸ outer_none) (outer_some rfl)
  · apply h.lock.keep
    rw [hidle]
    exact iff_of_false (not_inside rfl) not_inside_none
  · rintro (heq | heq) <;> cases heq

theorem wakes (h : Inv sub s) (hat : s.calls t = some .asleep) :
    Inv sub (s.goto t (some .waitRelock) s.ctx) := by
  apply h.waits (hat ▸ outer_some rfl) (outer_some rfl)
  · exact h.keeps hat (iff_of_false (not_inside rfl) Bool.false_ne_true)
  · rintro (heq | heq) <;> cases heq

theorem step (h : Inv sub s) {a : Act T} (hfits : Fits s a) (hstep : Step sub s a s') :
    Inv sub s' := by
  unfold Step exec at hstep
  cases a with
  | append =>
    simp only at hstep
    split at hstep
    · next hidle =>
      obtain rfl := Except.ok.inj hstep
      exact h.appends hidle
    · cases hstep
  | submit =>
    simp only at hstep
    split at hstep
    · next hidle =>
      obtain rfl := Except.ok.inj hstep
      exact h.opens hidle hfits
    · cases hstep
  | hand =>
    simp only at hstep
    split at hstep
    · next hfeed =>
      obtain rfl := Except.ok.inj hstep
      exact h.hands hfeed.1 hfeed.2
    · cases hstep
  | complete =>
    simp only at hstep
    split at hstep
    · next hpoll =>
      obtain rfl := Except.ok.inj hstep
      exact h.completes hpoll.1 hpoll.2
    · cases hstep
  | wait t =>
    simp only at hstep
    split at hstep
    · next hidle =>
      obtain rfl := Except.ok.inj hstep
      exact h.enters hidle
    · cases hstep
  | step t =>
    simp only at hstep
    split at hstep
    · cases hstep
    · next hat => exact h.steps_point hat hstep
  | spurious t =>
    simp only at hstep
    split at hstep
    · next hat =>
      obtain rfl := Except.ok.inj hstep
      exact h.wakes hat
    · cases hstep

end Inv

omit [DecidableEq T] in
theorem Start.inv (h : Start s) : Inv sub s := by
  obtain ⟨hctx, howner, hcalls⟩ := h
  have hnone : ∀ t p, s.calls t = some p → False := by
    intro t p hp
    rw [hcalls t] at hp
    cases hp
  refine ⟨?_, ?_, ?_, ?_, ?_⟩
  · rw [hcalls sub, hctx]
    exact ⟨rfl, rfl, rfl, rfl⟩
  · intro t
    rw [howner, hcalls t]
    exact iff_of_false (fun heq => by cases heq) not_inside_none
  · intro t _ p hp
    exact (hnone t p hp).elim
  · exact fun t ht => (hnone t _ ht).elim
  · exact fun t ht => (hnone t _ ht).elim

end Steps

end LockdepSpdk.Ioc
