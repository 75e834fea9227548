import LockdepSpdk.Ioc.Invariant
import LockdepSpdk.Lib.Transition

/-!
# No lost wake-up

What the threads of an `IOContext` can rely on over whole runs, and how the counters
wrap when a submission finds 2^31 tasks.
-/

namespace LockdepSpdk.Ioc

set_option autoImplicit false

open Function Monitor Transition Blk

section Steps
variable {T : Type} [DecidableEq T] {sub t : T} {s s' : Sys T} {c : Counters} {p : Point}
  {p' : Option Point}

theorem stepPoint_other {u : T} (hu : u ≠ t) (h : stepPoint s t s.ctx p = .ok s') :
    s'.calls u = s.calls u ∨ s'.calls u = some .waitRelock := by
  cases p with
  | submitLoad | submitRunning | submitPending | submitTake | handleTest | handlePoll
  | handleFeed | wakeSub | waitTest =>
    obtain rfl := Except.ok.inj h
    exact Or.inl (Sys.goto_of_ne hu ..)
  | submitAssert | wakeAssert =>
    obtain ⟨_, rfl⟩ := check_ok h
    exact Or.inl (Sys.goto_of_ne hu ..)
  | wakeLock | waitLock | waitRelock =>
    obtain ⟨_, rfl⟩ := lock_ok h
    exact Or.inl (update_of_ne hu ..)
  | wakeUnlock | waitSleep | waitUnlock =>
    obtain rfl := Except.ok.inj h
    exact Or.inl (update_of_ne hu ..)
  | wakeNotify =>
    obtain rfl := Except.ok.inj h
    rw [Sys.notifyAll_of_ne hu]
    unfold Monitor.notifyAll
    split
    · exact Or.inr rfl
    · exact Or.inl rfl
  | asleep => cases h

/-- A thread changes its place by its own step, or another act puts it at one of four points. -/
theorem moves {a : Act T} (h : Step sub s a s') (hne : s'.calls t ≠ s.calls t) :
    (a = .step t ∧ ∃ p, s.calls t = some p ∧ stepPoint s t s.ctx p = .ok s') ∨
      s'.calls t = some .submitLoad ∨ s'.calls t = some .wakeAssert ∨
      s'.calls t = some .waitLock ∨ s'.calls t = some .waitRelock := by
  have hput : ∀ {u q c}, s' = s.goto u q c → s'.calls t = q := by
    intro u q c heq
    rcases eq_or_ne t u with rfl | hu
    · rw [heq, Sys.goto_self]
    · rw [heq, Sys.goto_of_ne hu] at hne
      exact absurd rfl hne
  unfold Step exec at h
  cases a with
  | append | hand =>
    simp only at h
    split at h
    · obtain rfl := Except.ok.inj h
      exact absurd rfl hne
    · cases h
  | submit =>
    simp only at h
    split at h
    · exact Or.inr (Or.inl (hput (Except.ok.inj h).symm))
    · cases h
  | complete =>
    simp only at h
    split at h
    · exact Or.inr (Or.inr (Or.inl (hput (Except.ok.inj h).symm)))
    · cases h
  | wait u =>
    simp only at h
    split at h
    · exact Or.inr (Or.inr (Or.inr (Or.inl (hput (Except.ok.inj h).symm))))
    · cases h
  | spurious u =>
    simp only at h
    split at h
    · exact Or.inr (Or.inr (Or.inr (Or.inr (hput (Except.ok.inj h).symm))))
    · cases h
  | step u =>
    simp only at h
    split at h
    · cases h
    · next p hat =>
      rcases eq_or_ne t u with rfl | hu
      · exact Or.inl ⟨rfl, p, hat, h⟩
      · rcases stepPoint_other hu h with hsame | hwoken
        · exact absurd hsame hne
        · exact Or.inr (Or.inr (Or.inr (Or.inr hwoken)))

theorem stepPoint_self (h : stepPoint s t s.ctx p = .ok s') :
    (s'.calls t = none → p.waits = true → p = .waitUnlock) ∧
    (s'.calls t = some .waitUnlock → p = .waitTest ∧ s.ctx.numRunning ≤ 0) := by
  cases p with
  | submitLoad | handleTest =>
    obtain rfl := Except.ok.inj h
    rw [Sys.goto_self]
    refine ⟨fun _ => nofun, fun heq => ?_⟩
    split at heq <;> cases heq
  | submitRunning | submitPending | submitTake | handlePoll | handleFeed | wakeSub =>
    obtain rfl := Except.ok.inj h
    rw [Sys.goto_self]
    refine ⟨nofun, fun heq => ?_⟩
    have hp := Option.some.inj heq
    repeat' split at hp
    all_goals cases hp
  | submitAssert | wakeAssert =>
    obtain ⟨_, rfl⟩ := check_ok h
    rw [Sys.goto_self]
    exact ⟨nofun, nofun⟩
  | wakeLock | waitLock | waitRelock =>
    obtain ⟨_, rfl⟩ := lock_ok h
    rw [Sys.owned_self]
    exact ⟨nofun, nofun⟩
  | wakeNotify =>
    obtain rfl := Except.ok.inj h
    rw [Sys.notifyAll_self]
    exact ⟨nofun, nofun⟩
  | wakeUnlock | waitSleep =>
    obtain rfl := Except.ok.inj h
    rw [Sys.unlock_self]
    exact ⟨nofun, nofun⟩
  | waitTest =>
    obtain rfl := Except.ok.inj h
    rw [Sys.goto_self]
    refine ⟨nofun, fun heq => ⟨rfl, ?_⟩⟩
    split at heq
    · cases heq
    · next hle => omega
  | asleep => cases h
  | waitUnlock =>
    obtain rfl := Except.ok.inj h
    rw [Sys.unlock_self]
    exact ⟨fun _ _ => rfl, nofun⟩

theorem returns_from {a : Act T} (h : Step sub s a s') (hat : s.calls t = some p)
    (hp : p.waits = true) (hgone : s'.calls t = none) : p = .waitUnlock := by
  have hne : s'.calls t ≠ s.calls t := by
    rw [hgone, hat]
    exact nofun
  rcases moves h hne with ⟨_, q, hq, hexec⟩ | hput | hput | hput | hput
  · rw [hat] at hq
    obtain rfl := Option.some.inj hq
    exact (stepPoint_self hexec).1 hgone hp
  all_goals
    rw [hgone] at hput
    cases hput

def SawZero (t : T) (s : Sys T) : Prop :=
  s.calls t = some .waitTest ∧ s.owner = some t ∧ s.ctx.numRunning = 0

omit [DecidableEq T] in
theorem Inv.running_nonneg (h : Inv sub s) : 0 ≤ s.ctx.numRunning := by
  have hbooks := h.books
  rcases hp : s.calls sub with _ | p
  · rw [hp] at hbooks
    exact hbooks.running.ge
  · rw [hp] at hbooks
    cases p with
    | submitLoad | submitAssert | submitTake | handleTest | handlePoll | handleFeed | wakeAssert
    | wakeLock | wakeSub | wakeUnlock =>
      have hrunning := hbooks.running
      omega
    | submitRunning | submitPending =>
      have hrunning := hbooks.2.running
      omega
    | wakeNotify => exact hbooks.2.ge
    | waitLock | waitTest | waitSleep | asleep | waitRelock | waitUnlock =>
      exact hbooks.running.ge

/-- A thread comes to `waitUnlock` only from a check that saw 0. -/
theorem Inv.saw_zero (h : Inv sub s) {a : Act T} (hstep : Step sub s a s')
    (hne : s.calls t ≠ some .waitUnlock) (hat : s'.calls t = some .waitUnlock) :
    a = .step t ∧ SawZero t s := by
  rcases moves hstep (fun heq => hne (heq ▸ hat)) with ⟨ha, p, hp, hexec⟩ | hput | hput | hput | hput
  · obtain ⟨rfl, hle⟩ := (stepPoint_self hexec).2 hat
    exact ⟨ha, hp, h.owner_of hp rfl, le_antisymm hle h.running_nonneg⟩
  all_goals
    rw [hat] at hput
    cases hput

theorem Inv.no_assert (h : Inv sub s) (a : Act T) : exec sub s a ≠ .error .assert := by
  intro hexec
  unfold exec at hexec
  cases a with
  | step t =>
    simp only at hexec
    split at hexec
    · cases hexec
    · next p hat =>
      cases p with
      | submitAssert =>
        obtain rfl := h.sub_of hat rfl
        have hbooks := h.books
        rw [hat] at hbooks
        unfold stepPoint check at hexec
        rw [hbooks.pending] at hexec
        cases hexec
      | wakeAssert =>
        obtain rfl := h.sub_of hat rfl
        have hbooks := h.books
        rw [hat] at hbooks
        have hrunning := hbooks.running
        unfold stepPoint check at hexec
        rw [decide_eq_true (by omega)] at hexec
        cases hexec
      | wakeLock | waitLock | waitRelock =>
        unfold stepPoint Sys.lock at hexec
        simp only at hexec
        split at hexec <;> cases hexec
      | _ => cases hexec
  | _ =>
    simp only at hexec
    split at hexec <;> cases hexec

def Fitting (sub : T) (s : Sys T) (a : Act T) (s' : Sys T) : Prop := Fits s a ∧ Step sub s a s'

theorem inv_of_run {s₀ : Sys T} {as : List (Act T)} (h0 : Start s₀)
    (hrun : Run (Fitting sub) s₀ as s) : Inv sub s :=
  hrun.invariant (fun _ _ _ hinv hstep => hinv.step hstep.1 hstep.2) h0.inv

theorem step_goto {c' : Counters} (h : ∀ u : Sys T, stepPoint u sub c p = .ok (u.goto sub p' c')) :
    Step sub (s.goto sub (some p) c) (.step sub) (s.goto sub p' c') := by
  unfold Step exec
  simp only [Sys.goto_self]
  exact (h _).trans (congrArg _ (Sys.goto_goto ..))

/-- A counter that wrapped makes the assert of `try_aio_wake` fail. -/
theorem wraps (hbooks : Idle s.ctx) (hidle : s.calls sub = none) (hlow : 2 ^ 31 ≤ s.ctx.chained)
    (hhigh : s.ctx.chained < 2 ^ 32) :
    ∃ as s', Run (Step sub) s as s' ∧ s'.calls sub = some .wakeAssert ∧
      exec sub s' (.step sub) = .error .assert := by
  obtain ⟨n, hn⟩ : ∃ n, n = s.ctx.chained := ⟨_, rfl⟩
  obtain ⟨pending, hp⟩ : ∃ pending, pending = int32 n := ⟨_, rfl⟩
  rw [← hn] at hlow hhigh
  have hctx : s.ctx = ⟨pending, 0, n, 0, 0⟩ := by
    rw [hp, hn]
    exact hbooks.eq
  have hneg : pending = (n : Int) - 2 ^ 32 := hp.trans (int32_wrapped hlow hhigh)
  have hadd : int32 (0 + pending) = pending := by
    rw [Int.zero_add, int32_of_mem (by omega) (by omega)]
  have hsub : int32 (pending - pending) = 0 := by
    rw [Int.sub_self]
    rfl
  have hsubmit : Step sub s .submit (s.goto sub (some .submitLoad) ⟨pending, 0, n, 0, 0⟩) := by
    rw [← hctx]
    exact if_pos hidle
  have hload : Step sub (s.goto sub (some .submitLoad) ⟨pending, 0, n, 0, 0⟩) (.step sub)
      (s.goto sub (some (.submitRunning pending)) ⟨pending, 0, n, 0, 0⟩) := by
    apply step_goto
    intro u
    unfold stepPoint
    simp only
    rw [if_pos ⟨by omega, by omega⟩]
  have hrunning : Step sub (s.goto sub (some (.submitRunning pending)) ⟨pending, 0, n, 0, 0⟩)
      (.step sub) (s.goto sub (some (.submitPending pending)) ⟨pending, pending, n, 0, 0⟩) := by
    apply step_goto
    intro u
    change Except.ok (u.goto sub _ ⟨pending, int32 (0 + pending), n, 0, 0⟩) = _
    rw [hadd]
  have hpending : Step sub
      (s.goto sub (some (.submitPending pending)) ⟨pending, pending, n, 0, 0⟩) (.step sub)
      (s.goto sub (some .submitAssert) ⟨0, pending, n, 0, 0⟩) := by
    apply step_goto
    intro u
    change Except.ok (u.goto sub _ ⟨int32 (pending - pending), pending, n, 0, 0⟩) = _
    rw [hsub]
  have hassert : Step sub (s.goto sub (some .submitAssert) ⟨0, pending, n, 0, 0⟩) (.step sub)
      (s.goto sub (some .submitTake) ⟨0, pending, n, 0, 0⟩) := step_goto fun _ => rfl
  have htake : Step sub (s.goto sub (some .submitTake) ⟨0, pending, n, 0, 0⟩) (.step sub)
      (s.goto sub (some .handleTest) ⟨0, pending, 0, n, 0⟩) := step_goto fun _ => rfl
  have htest : Step sub (s.goto sub (some .handleTest) ⟨0, pending, 0, n, 0⟩) (.step sub)
      (s.goto sub (some .handlePoll) ⟨0, pending, 0, n, 0⟩) := by
    apply step_goto
    intro u
    unfold stepPoint
    simp only
    rw [if_pos (by omega)]
  have hpoll : Step sub (s.goto sub (some .handlePoll) ⟨0, pending, 0, n, 0⟩) (.step sub)
      (s.goto sub (some .handleFeed) ⟨0, pending, 0, n, 0⟩) := step_goto fun _ => rfl
  have hhand : Step sub (s.goto sub (some .handleFeed) ⟨0, pending, 0, n, 0⟩) .hand
      (s.goto sub (some .handleFeed) ⟨0, pending, 0, n - 1, 1⟩) :=
    if_pos ⟨Sys.goto_self .., by change 0 < n; omega⟩
  have hfull : Step sub (s.goto sub (some .handleFeed) ⟨0, pending, 0, n - 1, 1⟩) (.step sub)
      (s.goto sub (some .handlePoll) ⟨0, pending, 0, n - 1, 1⟩) := by
    apply step_goto
    intro u
    unfold stepPoint
    simp only
    rw [if_neg (by omega)]
  have hcomplete : Step sub (s.goto sub (some .handlePoll) ⟨0, pending, 0, n - 1, 1⟩) .complete
      (s.goto sub (some .wakeAssert) ⟨0, pending, 0, n - 1, 0⟩) := by
    unfold Step exec
    simp only
    rw [if_pos ⟨Sys.goto_self .., Nat.one_pos⟩, Sys.goto_goto]
    rfl
  refine ⟨_, _, .cons hsubmit (.cons hload (.cons hrunning (.cons hpending (.cons hassert
    (.cons htake (.cons htest (.cons hpoll (.cons hhand (.cons hfull (.single hcomplete)))))))))),
    Sys.goto_self .., ?_⟩
  unfold exec
  simp only [Sys.goto_self]
  unfold stepPoint check
  change (if decide (1 ≤ pending) = true then _ else _) = _
  rw [if_neg (by simp only [decide_eq_true_eq]; omega)]

/-- While no submission finds 2^31 tasks: no assert fails, `aio_wait` returns only after a check
under the lock that saw 0, and nobody sleeps through the last completion. With as many tasks on
the context the counters wrap, and the assert of `try_aio_wake` can fail. -/
theorem no_lost_wakeup {s₀ : Sys T} {as : List (Act T)} (h0 : Start s₀)
    (hrun : Run (Fitting sub) s₀ as s) :
    (∀ a, exec sub s a ≠ .error .assert) ∧
    (∀ t p a s', Step sub s a s' → s.calls t = some p → p.waits = true → s'.calls t = none →
      ∃ as₁ as₂ u v, as = as₁ ++ .step t :: as₂ ∧ Run (Fitting sub) s₀ as₁ u ∧ SawZero t u ∧
        Step sub u (.step t) v ∧
        Run (fun x b y => Fitting sub x b y ∧ y.calls t = some .waitUnlock) v as₂ s) ∧
    (∀ t, s.calls t = some .asleep → s.ctx.numRunning = 0 →
      ∃ p, s.calls sub = some p ∧ p.waking = true) ∧
    (s.calls sub = none → 2 ^ 31 ≤ s.ctx.chained → s.ctx.chained < 2 ^ 32 →
      ∃ bs s', Run (Step sub) s bs s' ∧ s'.calls sub = some .wakeAssert ∧
        exec sub s' (.step sub) = .error .assert) := by
  have hinv := inv_of_run h0 hrun
  refine ⟨hinv.no_assert, ?_, ?_, ?_⟩
  · intro t p a s' hstep hat hp hgone
    obtain rfl := returns_from hstep hat hp hgone
    rcases hrun.entered (P := fun u => u.calls t = some .waitUnlock) hat with
      ⟨hstart, _⟩ | ⟨as₁, b, as₂, u, v, has, hu, hne, huv, hv, hkeep⟩
    · rw [h0.2.2 t] at hstart
      cases hstart
    · obtain ⟨rfl, hsaw⟩ := (inv_of_run h0 hu).saw_zero huv.2 hne hv
      exact ⟨as₁, as₂, u, v, has, hu, hsaw, huv.2, hkeep⟩
  · intro t hat hzero
    rcases hinv.awaits t hat with hpos | hnotify
    · omega
    · exact ⟨.wakeNotify, hnotify, rfl⟩
  · intro hidle hlow hhigh
    have hbooks := hinv.books
    rw [hidle] at hbooks
    exact wraps hbooks hidle hlow hhigh

/-- A waiter that slept through the last completion has seen 0 and is about to return. -/
theorem no_lost_wakeup_two : ∃ s : Sys Bool, s.calls true = some .waitUnlock ∧
    (∀ a, exec false s a ≠ .error .assert) ∧ ∃ u, SawZero true u := by
  have hrun : ∃ s ∈ execAll (exec false) (fun s a => decide (Fits s a))
      (⟨⟨0, 0, 0, 0, 0⟩, none, fun _ => none⟩ : Sys Bool)
      (.append :: .submit :: List.replicate 7 (.step false) ++
        .hand :: .step false :: .step false :: .wait true :: List.replicate 3 (.step true) ++
        .complete :: List.replicate 5 (.step false) ++ List.replicate 2 (.step true)),
      s.calls true = some .waitUnlock ∧ s.owner = some true := by
    decide +kernel
  obtain ⟨s, hs, hat, howner⟩ := hrun
  have hrun : Run (Fitting false) _ _ s :=
    execAll_run (fun _ _ _ hok hexec => ⟨of_decide_eq_true hok, hexec⟩) hs
  obtain ⟨hassert, hreturn, _⟩ := no_lost_wakeup ⟨rfl, rfl, fun _ => rfl⟩ hrun
  have hstep : Step false s (.step true) (s.unlock true none) := by
    unfold Step exec
    simp only [hat]
    rfl
  obtain ⟨_, _, u, _, _, _, hsaw, _⟩ := hreturn true _ _ _ hstep hat rfl (Sys.unlock_self _)
  exact ⟨s, hat, hassert, u, hsaw⟩

theorem appends_run (n : Nat) (hidle : s.calls sub = none) (hbooks : Idle s.ctx) :
    ∃ s', Run (Step sub) s (List.replicate n .append) s' ∧ s'.calls sub = none ∧ Idle s'.ctx ∧
      s'.ctx.chained = s.ctx.chained + n := by
  induction n generalizing s with
  | zero => exact ⟨s, .nil s, hidle, hbooks, rfl⟩
  | succ n ih =>
    obtain ⟨s', hrun, hidle', hbooks', hlen⟩ :=
      ih (s := { s with ctx := s.ctx.append }) hidle hbooks.append
    refine ⟨s', ?_, hidle', hbooks', ?_⟩
    · rw [List.replicate_succ]
      exact .cons (if_pos hidle) hrun
    · rw [hlen]
      change s.ctx.chained + 1 + n = _
      omega

/-- 2^31 tasks on one context, then one submission. -/
theorem wake_assert_fails : ∃ (s₀ s : Sys Unit) (bs : List (Act Unit)), Start s₀ ∧
    Run (Step ()) s₀ (List.replicate (2 ^ 31) .append ++ bs) s ∧
    s.calls () = some .wakeAssert ∧ exec () s (.step ()) = .error .assert := by
  have hstart : Start (⟨⟨0, 0, 0, 0, 0⟩, none, fun _ => none⟩ : Sys Unit) :=
    ⟨rfl, rfl, fun _ => rfl⟩
  obtain ⟨s, hrun, hidle, hbooks, hlen⟩ :=
    appends_run (2 ^ 31) (hstart.2.2 ()) ⟨rfl, rfl, rfl, rfl⟩
  change s.ctx.chained = 0 + 2 ^ 31 at hlen
  obtain ⟨bs, s', hrest, hat, hfail⟩ := wraps hbooks hidle (by omega) (by omega)
  exact ⟨_, s', bs, hstart, hrun.trans hrest, hat, hfail⟩

end Steps

end LockdepSpdk.Ioc
