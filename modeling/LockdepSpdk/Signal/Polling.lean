import LockdepSpdk.Signal.Entry

/-!
# What the polling thread may wait for

`entry` with the descriptors it polls, and the destructor. While the thread waits, no
byte of a signal waits for it, and the destructor never waits for the thread in vain.
-/

namespace LockdepSpdk.Signal

set_option autoImplicit false

open Function Transition

/-- `shutdown`, after `stop` is set. -/
inductive Down where
  | kick
  | join
  | done
  deriving DecidableEq

structure Polling (T H : Type) where
  async : Async T H
  /-- The pipes of `fds` after the first one: the signal and its `safe_handler`. -/
  fds : List (Nat × Nat)
  down : Option Down

inductive PollAct (T H : Type) where
  | signal (signum : Nat) (a : Act T H Siginfo)
  /-- A step of the thread; `poll` answers `r`. -/
  | turn (r : Int)
  /-- The destructor is called. -/
  | shutdown
  | down

section Steps
variable {T H : Type}

/-- The list that is built under `lock`. -/
def Async.readEnds (s : Async T H) : List (Nat × Nat) :=
  (List.range 32).filterMap fun n => (s.sigs n).entry.map fun h => (n, h)

def Async.speaks (s : Async T H) (fd : Nat × Nat) : Bool :=
  match (s.sigs fd.1).objs fd.2 with
  | none => true
  | some o => decide (0 < o.bytes) || !o.readEnd

def Polling.ready (s : Polling T H) : Bool :=
  decide (0 < s.async.kicks) || s.fds.any s.async.speaks

def Polling.answers (s : Polling T H) (r : Int) : Bool :=
  decide (r < 0) || decide (0 < r) && s.ready

variable [DecidableEq T] [DecidableEq H]

def execPolling (r e : T) (s : Polling T H) : PollAct T H → Except Halt (Polling T H)
  | .signal signum a =>
    if s.down = some .done then .error .disabled
    else do
      let u ← execAsync r e s.async (.signal signum a)
      .ok { s with async := u }
  | .turn x =>
    if s.async.point = .poll ∧ s.answers x = false then .error .disabled
    else do
      let u ← execAsync r e s.async (.turn x)
      .ok { s with async := u
                   fds := if s.async.point = .build then s.async.readEnds else s.fds }
  | .shutdown =>
    match s.down with
    | none => .ok { s with async := { s.async with stop := true }, down := some .kick }
    | some _ => .error .disabled
  | .down =>
    match s.down with
    | some .kick =>
      .ok { s with async := { s.async with kicks := s.async.kicks + 1 }, down := some .join }
    | some .join =>
      if s.async.point = .ended then .ok { s with down := some .done } else .error .disabled
    | _ => .error .disabled

def StepPolling (r e : T) (s : Polling T H) (a : PollAct T H) (s' : Polling T H) : Prop :=
  execPolling r e s a = .ok s'

def startPolling : Polling T H := ⟨startAsync, [], none⟩

end Steps

section Registry
variable {T H : Type} {s s' : Sys T H Siginfo}

/-- The entry leads to a `safe_handler` that is there. -/
structure Registry (s : Sys T H Siginfo) : Prop where
  entry : ∀ h, s.entry = some h → (s.objs h).isSome = true
  filling : ∀ h oneshot, s.reg = some (.fill h oneshot) → (s.objs h).isSome = true
  removing : ∀ h, s.reg = some (.closeRead h) ∨ s.reg = some (.closeWrite h) ∨
    s.reg = some (.delete h) → s.entry = none

/-- What leaves `handlers` and `register_handler` alone. -/
structure Spared (s s' : Sys T H Siginfo) : Prop where
  entry : s'.entry = s.entry
  reg : s'.reg = s.reg
  objs : ∀ h, (s'.objs h).isSome = (s.objs h).isSome

theorem Registry.spared (h : Registry s) (hsame : Spared s s') : Registry s' where
  entry := by
    intro g hg
    rw [hsame.entry] at hg
    rw [hsame.objs g]
    exact h.entry g hg
  filling := by
    intro g oneshot hg
    rw [hsame.reg] at hg
    rw [hsame.objs g]
    exact h.filling g oneshot hg
  removing := by
    intro g hg
    rw [hsame.reg] at hg
    rw [hsame.entry]
    exact h.removing g hg

theorem Registry.start : Registry (start : Sys T H Siginfo) :=
  ⟨fun _ h => (by cases h), fun _ _ h => (by cases h), fun _ _ => rfl⟩

theorem modify_spared {g : Nat} {f : SafeHandler H Siginfo → SafeHandler H Siginfo}
    (h : modify s g f = .ok s') : Spared s s' := by
  unfold modify at h
  split at h
  · cases h
  · split at h
    · next o ho =>
      obtain rfl := Except.ok.inj h
      refine ⟨rfl, rfl, fun g' => ?_⟩
      change (update s.objs g (some (f o)) g').isSome = _
      rcases eq_or_ne g' g with rfl | hg
      · rw [update_self, ho]
        rfl
      · rw [update_of_ne hg]
    · cases h

theorem stepHook_spared {i : Siginfo} {p q : HookPoint} (h : stepHook s i p = .ok (s', q)) :
    Spared s s' := by
  have hrefl : Spared s s := ⟨rfl, rfl, fun _ => rfl⟩
  cases p with
  | enter =>
    obtain ⟨rfl, -⟩ := ok_mk_inj h
    exact hrefl
  | assertEntry | readInfo | readPipe =>
    obtain ⟨g, -, h⟩ := bind_ok h
    obtain ⟨rfl, -⟩ := ok_mk_inj h
    exact hrefl
  | copy g | write g =>
    obtain ⟨u, hu, h⟩ := bind_ok h
    obtain ⟨rfl, -⟩ := ok_mk_inj h
    exact modify_spared hu
  | leave => cases h

variable [DecidableEq T] [DecidableEq H] {r : T} {a : Act T H Siginfo}

/-- A step of a hook leaves the registry alone, a call of `register_handler` or
`unregister_handler` starts, or the one in progress takes a step. -/
theorem exec_cases (h : exec r s a = .ok s') :
    Spared s s' ∨
    (s.reg = none ∧ s'.entry = s.entry ∧ s'.objs = s.objs ∧
      ((∃ handler oneshot, s'.reg = some (.create handler oneshot)) ∨
        ∃ handler, s'.reg = some (.find handler))) ∨
    a = .step ∧ ∃ p, s.reg = some p ∧ stepReg s p = .ok s' := by
  unfold exec at h
  cases a with
  | deliver t i =>
    simp only at h
    split at h
    · obtain rfl := Except.ok.inj h
      exact Or.inl ⟨rfl, rfl, fun _ => rfl⟩
    · cases h
  | hook t =>
    simp only at h
    split at h
    · cases h
    · obtain ⟨⟨u, q⟩, hu, h⟩ := bind_ok h
      obtain rfl := Except.ok.inj h
      have hspared := stepHook_spared hu
      exact Or.inl ⟨hspared.entry, hspared.reg, hspared.objs⟩
  | resume t =>
    simp only at h
    split at h
    · obtain rfl := Except.ok.inj h
      exact Or.inl ⟨rfl, rfl, fun _ => rfl⟩
    · cases h
  | register handler oneshot =>
    simp only at h
    split at h
    · next hreg =>
      obtain rfl := Except.ok.inj h
      exact Or.inr (Or.inl ⟨hreg, rfl, rfl, Or.inl ⟨handler, oneshot, rfl⟩⟩)
    · cases h
  | unregister handler =>
    simp only at h
    split at h
    · next hreg =>
      obtain rfl := Except.ok.inj h
      exact Or.inr (Or.inl ⟨hreg, rfl, rfl, Or.inr ⟨handler, rfl⟩⟩)
    · cases h
  | step =>
    simp only at h
    split at h
    · next p hhook hreg => exact Or.inr (Or.inr ⟨rfl, p, hreg, h⟩)
    · cases h

omit [DecidableEq T] in
theorem Registry.stepReg (hreg : Registry s) {p : RegPoint H} (hat : s.reg = some p)
    (h : stepReg s p = .ok s') : Registry s' := by
  cases p with
  | create handler oneshot =>
    obtain rfl := Except.ok.inj h
    refine ⟨?_, ?_, fun g hg => ?_⟩
    · intro g hg
      change (update s.objs s.fresh _ g).isSome = true
      rcases eq_or_ne g s.fresh with rfl | hne
      · rw [update_self]
        rfl
      · rw [update_of_ne hne]
        exact hreg.entry g hg
    · intro g oneshot' hg
      obtain ⟨rfl, -⟩ := RegPoint.fill.inj (Option.some.inj hg)
      change (update s.objs s.fresh _ s.fresh).isSome = true
      rw [update_self]
      rfl
    · rcases hg with hg | hg | hg <;> cases hg
  | fill g oneshot =>
    obtain rfl := Except.ok.inj h
    refine ⟨?_, fun _ _ hg => (by cases hg), fun g hg => ?_⟩
    · intro g' hg
      obtain rfl := Option.some.inj hg
      exact hreg.filling g oneshot hat
    · rcases hg with hg | hg | hg <;> cases hg
  | signalThread oneshot | install oneshot =>
    obtain rfl := Except.ok.inj h
    refine ⟨hreg.entry, fun _ _ hg => (by cases hg), fun g hg => ?_⟩
    rcases hg with hg | hg | hg <;> cases hg
  | find handler =>
    unfold Signal.stepReg at h
    simp only at h
    split at h
    · cases h
    · split at h
      · cases h
      · split at h
        · obtain rfl := Except.ok.inj h
          refine ⟨hreg.entry, fun _ _ hg => (by cases hg), fun g hg => ?_⟩
          rcases hg with hg | hg | hg <;> cases hg
        · cases h
  | restore g =>
    obtain rfl := Except.ok.inj h
    refine ⟨hreg.entry, fun _ _ hg => (by cases hg), fun g hg => ?_⟩
    rcases hg with hg | hg | hg <;> cases hg
  | clear g =>
    obtain rfl := Except.ok.inj h
    exact ⟨fun _ hg => (by cases hg), fun _ _ hg => (by cases hg), fun _ _ => rfl⟩
  | closeRead g =>
    obtain rfl := Except.ok.inj h
    have hnone : s.entry = none := hreg.removing g (Or.inl hat)
    refine ⟨?_, fun _ _ hg => (by cases hg), fun _ _ => hnone⟩
    intro g' hg
    rw [hnone] at hg
    cases hg
  | closeWrite g =>
    obtain rfl := Except.ok.inj h
    have hnone : s.entry = none := hreg.removing g (Or.inr (Or.inl hat))
    refine ⟨?_, fun _ _ hg => (by cases hg), fun _ _ => hnone⟩
    intro g' hg
    rw [hnone] at hg
    cases hg
  | delete g =>
    obtain rfl := Except.ok.inj h
    have hnone : s.entry = none := hreg.removing g (Or.inr (Or.inr hat))
    refine ⟨?_, fun _ _ hg => (by cases hg), fun _ _ => hnone⟩
    intro g' hg
    rw [hnone] at hg
    cases hg

theorem Registry.exec (hreg : Registry s) (h : exec r s a = .ok s') : Registry s' := by
  rcases exec_cases h with hspared | ⟨-, hentry, hobjs, hnew⟩ | ⟨-, p, hat, hstep⟩
  · exact hreg.spared hspared
  · refine ⟨?_, ?_, ?_⟩
    · intro g hg
      rw [hentry] at hg
      rw [hobjs]
      exact hreg.entry g hg
    · intro g oneshot hg
      rcases hnew with ⟨_, _, hnew⟩ | ⟨_, hnew⟩
      all_goals
        rw [hnew] at hg
        cases hg
    · intro g hg
      rcases hnew with ⟨_, _, hnew⟩ | ⟨_, hnew⟩
      all_goals
        rw [hnew] at hg
        rcases hg with hg | hg | hg <;> cases hg
  · exact hreg.stepReg hat hstep

end Registry

section Waits
variable {T H : Type}

structure Polling.Sound (s : Polling T H) : Prop where
  registry : ∀ n, Registry (s.async.sigs n)
  /-- A byte in a pipe that the thread does not poll is on its way to it. -/
  polls : s.async.point = .poll → s.async.kicks = 0 → ∀ n, n < 32 → ∀ h,
    (s.async.sigs n).entry = some h →
      (n, h) ∈ s.fds ∨ ∃ oneshot, (s.async.sigs n).reg = some (.signalThread oneshot)
  report : ∀ n h look seen, s.async.point = .report n h look seen →
    (s.async.sigs n).entry = some h
  stops : s.async.stop = s.down.isSome
  /-- The byte of the destructor is in the pipe until the thread is past its `poll`. -/
  kicked : s.down = some .join → 0 < s.async.kicks ∨ s.async.point.holds = true ∨
    s.async.point = .test ∨ s.async.point = .ended
  joined : s.down = some .done → s.async.point = .ended

theorem Polling.start_sound : (startPolling : Polling T H).Sound where
  registry := fun _ => Registry.start
  polls := fun h => by cases h
  report := fun _ _ _ _ h => by cases h
  stops := rfl
  kicked := fun h => by cases h
  joined := fun h => by cases h

variable [DecidableEq T] [DecidableEq H] {r e : T} {s s' : Polling T H}

omit [DecidableEq T] in
theorem stepReg_entry {s s' : Sys T H Siginfo} {p : RegPoint H} (h : stepReg s p = .ok s')
    (hp : p.locks = false) : s'.entry = s.entry := by
  cases p with
  | fill | clear => cases hp
  | find handler =>
    unfold stepReg at h
    simp only at h
    split at h
    · cases h
    · split at h
      · cases h
      · split at h
        · obtain rfl := Except.ok.inj h
          rfl
        · cases h
  | _ =>
    obtain rfl := Except.ok.inj h
    rfl

/-- A new entry is kicked for before it counts. -/
theorem exec_polled {s s' : Sys T H Siginfo} {a : Act T H Siginfo} {fds : List (Nat × Nat)}
    {n : Nat} (h : exec r s a = .ok s') (hkick : kicking s a = false)
    (hpolls : ∀ h, s.entry = some h →
      (n, h) ∈ fds ∨ ∃ oneshot, s.reg = some (.signalThread oneshot)) (g : Nat)
    (hg : s'.entry = some g) :
    (n, g) ∈ fds ∨ ∃ oneshot, s'.reg = some (.signalThread oneshot) := by
  rcases exec_cases h with hspared | ⟨hnone, hentry, -, -⟩ | ⟨rfl, p, hat, hstep⟩
  · rw [hspared.entry] at hg
    rw [hspared.reg]
    exact hpolls g hg
  · rw [hentry] at hg
    rcases hpolls g hg with hmem | ⟨oneshot, hreg⟩
    · exact Or.inl hmem
    · rw [hnone] at hreg
      cases hreg
  · by_cases hlocks : p.locks = true
    · cases p with
      | fill h' oneshot =>
        obtain rfl := Except.ok.inj hstep
        exact Or.inr ⟨oneshot, rfl⟩
      | clear h' =>
        obtain rfl := Except.ok.inj hstep
        cases hg
      | _ => cases hlocks
    · rw [stepReg_entry hstep (Bool.not_eq_true _ ▸ hlocks)] at hg
      rcases hpolls g hg with hmem | ⟨oneshot, hreg⟩
      · exact Or.inl hmem
      · rw [hat] at hreg
        obtain rfl := Option.some.inj hreg
        simp only [kicking, hat] at hkick
        cases hkick

def EntryPoint.signum : EntryPoint → Nat
  | .scan n | .report n _ _ _ => n
  | _ => 0

namespace Polling.Sound

theorem signal (h : s.Sound) {n : Nat} {a : Act T H Siginfo} {u : Sys T H Siginfo}
    (hadmits : admits s.async n a = true) (hu : exec r (s.async.sigs n) a = .ok u)
    (hasync : s'.async = { s.async with
      sigs := update s.async.sigs n u
      kicks := if kicking (s.async.sigs n) a then s.async.kicks + 1 else s.async.kicks
      queued := update s.async.queued n (s.async.queued n ++ queueing (s.async.sigs n) a) })
    (hfds : s'.fds = s.fds) (hdown : s'.down = s.down) : s'.Sound := by
  have hkicks : s.async.kicks ≤ s'.async.kicks := by
    rw [hasync]
    change _ ≤ if _ then _ else _
    split
    · exact Nat.le_succ _
    · exact Nat.le_refl _
  have hpoint : s'.async.point = s.async.point := by rw [hasync]
  refine ⟨?_, ?_, ?_, ?_, ?_, ?_⟩
  · intro m
    rw [hasync]
    change Registry (update s.async.sigs n u m)
    rcases eq_or_ne m n with rfl | hm
    · rw [update_self]
      exact (h.registry m).exec hu
    · rw [update_of_ne hm]
      exact h.registry m
  · intro hpoll hzero m hm g hg
    rw [hpoint] at hpoll
    have hzero' : s.async.kicks = 0 := by omega
    have hbefore := h.polls hpoll hzero' m hm
    rw [hasync] at hg hzero
    rw [hasync, hfds]
    change (update s.async.sigs n u m).entry = some g at hg
    change _ ∨ ∃ oneshot, (update s.async.sigs n u m).reg = _
    rcases eq_or_ne m n with rfl | hne
    · rw [update_self] at hg ⊢
      refine exec_polled hu ?_ hbefore g hg
      rw [← Bool.not_eq_true]
      intro hkick
      rw [if_pos hkick] at hzero
      cases hzero
    · rw [update_of_ne hne] at hg ⊢
      exact hbefore g hg
  · intro m g look seen hreport
    rw [hpoint] at hreport
    have hentry := h.report m g look seen hreport
    rw [hasync]
    change (update s.async.sigs n u m).entry = some g
    rcases eq_or_ne m n with rfl | hne
    · rw [update_self]
      rcases exec_cases hu with hspared | ⟨-, hsame, -, -⟩ | ⟨rfl, p, hat, hstep⟩
      · rw [hspared.entry, hentry]
      · rw [hsame, hentry]
      · simp only [admits, hreport, EntryPoint.holds, hat, Option.any_some, Bool.true_and,
          Bool.not_eq_true'] at hadmits
        rw [stepReg_entry hstep hadmits, hentry]
    · rw [update_of_ne hne, hentry]
  · rw [hdown, hasync]
    exact h.stops
  · rw [hdown, hpoint]
    intro hjoin
    rcases h.kicked hjoin with hkick | hrest
    · exact Or.inl (by omega)
    · exact Or.inr hrest
  · rw [hdown, hpoint]
    exact h.joined

omit [DecidableEq T] [DecidableEq H] in
theorem moved (h : s.Sound) (hregistry : ∀ n, Spared (s.async.sigs n) (s'.async.sigs n))
    (hstop : s'.async.stop = s.async.stop) (hdown : s'.down = s.down)
    (hlive : s.async.point ≠ .ended)
    (hpolls : s'.async.point = .poll → ∀ n, n < 32 → ∀ h, (s'.async.sigs n).entry = some h →
      (n, h) ∈ s'.fds)
    (hreport : ∀ n h look seen, s'.async.point = .report n h look seen →
      (s.async.sigs n).entry = some h)
    (hkicked : s.down = some .join → 0 < s'.async.kicks ∨ s'.async.point.holds = true ∨
      s'.async.point = .test ∨ s'.async.point = .ended) : s'.Sound where
  registry := fun n => (h.registry n).spared (hregistry n)
  polls := fun hpoll _ n hn g hg => Or.inl (hpolls hpoll n hn g hg)
  report := by
    intro n g look seen hat
    rw [(hregistry n).entry]
    exact hreport n g look seen hat
  stops := by
    rw [hdown, hstop]
    exact h.stops
  kicked := by
    rw [hdown]
    exact hkicked
  joined := by
    rw [hdown]
    exact fun hdone => absurd (h.joined hdone) hlive

omit [DecidableEq T] [DecidableEq H] in
theorem quiet (h : s.Sound) {q : EntryPoint} {c : Nat}
    (hasync : s'.async = { s.async with point := q, kicks := c }) (hdown : s'.down = s.down)
    (hlive : s.async.point ≠ .ended) (hq : q.holds = true → q = .scan q.signum)
    (hpolls : q = .poll → ∀ n, n < 32 → ∀ h, (s.async.sigs n).entry = some h → (n, h) ∈ s'.fds)
    (hkicked : s.down = some .join → 0 < c ∨ q.holds = true ∨ q = .test ∨ q = .ended) :
    s'.Sound := by
  refine h.moved (fun m => ?_) (by rw [hasync]) hdown hlive ?_ ?_ ?_
  · rw [hasync]
    exact ⟨rfl, rfl, fun _ => rfl⟩
  · rw [hasync]
    exact hpolls
  · rw [hasync]
    rintro n g look seen rfl
    cases hq rfl
  · rw [hasync]
    exact hkicked

omit [DecidableEq T] [DecidableEq H] in
theorem scans (h : s.Sound) {n : Nat} (hat : s.async.point = .scan n) {u : Async T H}
    (hu : scanSignal s.async n = .ok u) (hasync : s'.async = u) (hdown : s'.down = s.down) :
    s'.Sound := by
  have hlive : s.async.point ≠ .ended := by
    rw [hat]
    exact fun heq => by cases heq
  unfold scanSignal at hu
  split at hu
  · split at hu
    · obtain rfl := Except.ok.inj hu
      exact h.quiet hasync hdown hlive (fun _ => rfl) (fun heq => by cases heq)
        (fun _ => Or.inr (Or.inl rfl))
    · next g hentry =>
      split at hu
      · cases hu
      · next o ho =>
        split at hu
        · obtain rfl := Except.ok.inj hu
          refine h.moved (fun m => ?_) (by rw [hasync]) hdown hlive ?_ ?_ ?_
          · rw [hasync]
            change Spared _ (update s.async.sigs n _ m)
            rcases eq_or_ne m n with rfl | hne
            · rw [update_self]
              refine ⟨rfl, rfl, fun g' => ?_⟩
              change (update (s.async.sigs m).objs g _ g').isSome = _
              rcases eq_or_ne g' g with rfl | hg
              · rw [update_self, ho]
                rfl
              · rw [update_of_ne hg]
            · rw [update_of_ne hne]
              exact ⟨rfl, rfl, fun _ => rfl⟩
          · rw [hasync]
            exact fun heq => by cases heq
          · rw [hasync]
            intro m g' look seen heq
            obtain ⟨rfl, rfl, -, -⟩ := EntryPoint.report.inj heq
            exact hentry
          · rw [hasync]
            exact fun _ => Or.inr (Or.inl rfl)
        · obtain rfl := Except.ok.inj hu
          exact h.quiet hasync hdown hlive (fun _ => rfl) (fun heq => by cases heq)
            (fun _ => Or.inr (Or.inl rfl))
  · obtain rfl := Except.ok.inj hu
    exact h.quiet hasync hdown hlive (fun heq => by cases heq) (fun heq => by cases heq)
      (fun _ => Or.inr (Or.inr (Or.inl rfl)))

omit [DecidableEq T] [DecidableEq H] in
theorem reports (h : s.Sound) {n g : Nat} {look : Look} {seen : Reads}
    (hat : s.async.point = .report n g look seen) {u : Async T H}
    (hu : reportSignal s.async n g look seen = .ok u) (hasync : s'.async = u)
    (hdown : s'.down = s.down) : s'.Sound := by
  have hlive : s.async.point ≠ .ended := by
    rw [hat]
    exact fun heq => by cases heq
  have hentry := h.report n g look seen hat
  have hspared : ∀ m, u.sigs m = s.async.sigs m → Spared (s.async.sigs m) (s'.async.sigs m) := by
    intro m hm
    rw [hasync, hm]
    exact ⟨rfl, rfl, fun _ => rfl⟩
  unfold reportSignal at hu
  split at hu
  · split at hu
    · cases hu
    · obtain rfl := Except.ok.inj hu
      refine h.moved (fun m => hspared m rfl) (by rw [hasync]) hdown hlive ?_ ?_ ?_
      · rw [hasync]
        exact fun heq => by cases heq
      · rw [hasync]
        intro m g' look' seen' heq
        obtain ⟨rfl, rfl, -, -⟩ := EntryPoint.report.inj heq
        exact hentry
      · rw [hasync]
        exact fun _ => Or.inr (Or.inl rfl)
  · obtain rfl := Except.ok.inj hu
    refine h.moved (fun m => hspared m rfl) (by rw [hasync]) hdown hlive ?_ ?_ ?_
    · rw [hasync]
      exact fun heq => by cases heq
    · rw [hasync]
      exact fun _ _ _ _ heq => by cases heq
    · rw [hasync]
      exact fun _ => Or.inr (Or.inl rfl)

omit [DecidableEq T] [DecidableEq H] in
theorem mem_readEnds {a : Async T H} {n h : Nat} (hn : n < 32)
    (hentry : (a.sigs n).entry = some h) :
    (n, h) ∈ a.readEnds := by
  refine List.mem_filterMap.mpr ⟨n, List.mem_range.mpr hn, ?_⟩
  rw [hentry]
  rfl

omit [DecidableEq T] [DecidableEq H] in
theorem turn (h : s.Sound) {x : Int} {u : Async T H}
    (hu : stepEntry s.async x s.async.point = .ok u) (hasync : s'.async = u)
    (hfds : s'.fds = if s.async.point = .build then s.async.readEnds else s.fds)
    (hdown : s'.down = s.down) : s'.Sound := by
  have hlive : s.async.point ≠ .ended := by
    intro hat
    rw [hat] at hu
    cases hu
  have hkick : s.async.point.holds = false → s.async.point ≠ .test → s.down = some .join →
      0 < s.async.kicks := by
    intro hholds htest hjoin
    rcases h.kicked hjoin with hkick | hat | hat | hat
    · exact hkick
    · rw [hholds] at hat
      cases hat
    · exact absurd hat htest
    · exact absurd hat hlive
  have hstop : s.down = some .join → s.async.stop = true := by
    intro hjoin
    rw [h.stops, hjoin]
    rfl
  cases hat : s.async.point with
  | scan n =>
    rw [hat] at hu
    exact h.scans hat hu hasync hdown
  | report n g look seen =>
    rw [hat] at hu
    exact h.reports hat hu hasync hdown
  | ended => exact absurd hat hlive
  | test =>
    rw [hat] at hu
    obtain rfl := Except.ok.inj hu
    refine h.quiet hasync hdown hlive ?_ ?_ ?_
    · split <;> exact fun heq => by cases heq
    · split <;> exact fun heq => by cases heq
    · intro hjoin
      rw [if_pos (hstop hjoin)]
      exact Or.inr (Or.inr (Or.inr rfl))
  | build =>
    rw [hat] at hu hfds hkick
    obtain rfl := Except.ok.inj hu
    rw [if_pos rfl] at hfds
    refine h.quiet hasync hdown hlive (fun heq => by cases heq) ?_
      (fun hjoin => Or.inl (hkick rfl (fun heq => by cases heq) hjoin))
    rw [hfds]
    exact fun _ n hn g hg => mem_readEnds hn hg
  | poll =>
    rw [hat] at hu hkick
    obtain rfl := Except.ok.inj hu
    exact h.quiet hasync hdown hlive (fun heq => by cases heq) (fun heq => by cases heq)
      (fun hjoin => Or.inl (hkick rfl (fun heq => by cases heq) hjoin))
  | polled y =>
    rw [hat] at hu
    obtain rfl := Except.ok.inj hu
    refine h.quiet hasync hdown hlive ?_ ?_ ?_
    · split
      · exact fun heq => by cases heq
      · split <;> exact fun heq => by cases heq
    · split
      · exact fun heq => by cases heq
      · split <;> exact fun heq => by cases heq
    · intro hjoin
      rw [if_pos (hstop hjoin)]
      exact Or.inr (Or.inr (Or.inr rfl))
  | consume =>
    rw [hat] at hu
    obtain rfl := Except.ok.inj hu
    exact h.quiet hasync hdown hlive (fun _ => rfl) (fun heq => by cases heq)
      (fun _ => Or.inr (Or.inl rfl))

theorem step (h : s.Sound) {a : PollAct T H} (hs : execPolling r e s a = .ok s') : s'.Sound := by
  cases a with
  | signal n a =>
    simp only [execPolling] at hs
    split at hs
    · cases hs
    · obtain ⟨u, hu, hs⟩ := bind_ok hs
      obtain rfl := Except.ok.inj hs
      simp only [execAsync] at hu
      split at hu
      · next hadmits =>
        obtain ⟨v, hv, hu⟩ := bind_ok hu
        exact h.signal hadmits.2 hv (Except.ok.inj hu).symm rfl rfl
      · cases hu
  | turn x =>
    simp only [execPolling] at hs
    split at hs
    · cases hs
    · obtain ⟨u, hu, hs⟩ := bind_ok hs
      obtain rfl := Except.ok.inj hs
      simp only [execAsync] at hu
      split at hu
      · exact h.turn hu rfl rfl rfl
      · cases hu
  | shutdown =>
    simp only [execPolling] at hs
    split at hs
    · next hdown =>
      obtain rfl := Except.ok.inj hs
      exact ⟨h.registry, h.polls, h.report, rfl, fun heq => (by cases heq),
        fun heq => (by cases heq)⟩
    · cases hs
  | down =>
    simp only [execPolling] at hs
    split at hs
    · next hdown =>
      obtain rfl := Except.ok.inj hs
      have hstop := h.stops
      rw [hdown] at hstop
      exact ⟨h.registry, fun _ heq => (by cases heq), h.report, hstop,
        fun _ => Or.inl (Nat.succ_pos _), fun heq => (by cases heq)⟩
    · next hdown =>
      split at hs
      · next hended =>
        obtain rfl := Except.ok.inj hs
        have hstop := h.stops
        rw [hdown] at hstop
        exact ⟨h.registry, h.polls, h.report, hstop, fun heq => (by cases heq), fun _ => hended⟩
      · cases hs
    · cases hs

end Polling.Sound

/-- While the thread waits in `poll`, every byte of a signal that is registered with it is seen: the
handlers' pipes are empty, save the one of a registration that is about to kick it, and the
destructor is about to kick it or has not been called. -/
theorem poll_misses_nothing {as : List (PollAct T H)}
    (h : Run (StepPolling r e) startPolling as s) (hpoll : s.async.point = .poll)
    (hready : s.ready = false) :
    (s.down = none ∨ s.down = some .kick) ∧
      ∀ n, n < 32 → ∀ h, (s.async.sigs n).entry = some h →
        (∃ o, (s.async.sigs n).objs h = some o ∧ o.bytes = 0) ∨
          ∃ oneshot, (s.async.sigs n).reg = some (.signalThread oneshot) := by
  have hsound : s.Sound := h.invariant (fun _ _ _ hs hstep => hs.step hstep) Polling.start_sound
  rw [Polling.ready, Bool.or_eq_false_iff] at hready
  obtain ⟨hkicks, hquiet⟩ := hready
  have hzero : s.async.kicks = 0 := Nat.eq_zero_of_not_pos (of_decide_eq_false hkicks)
  constructor
  · cases hdown : s.down with
    | none => exact Or.inl rfl
    | some d =>
      cases d with
      | kick => exact Or.inr rfl
      | join =>
        rcases hsound.kicked hdown with hkick | hat | hat | hat
        · omega
        all_goals
          rw [hpoll] at hat
          cases hat
      | done =>
        have hat := hsound.joined hdown
        rw [hpoll] at hat
        cases hat
  · intro n hn g hg
    rcases hsound.polls hpoll hzero n hn g hg with hmem | hreg
    · have hsilent := List.any_eq_false.mp hquiet (n, g) hmem
      obtain ⟨o, ho⟩ := Option.isSome_iff_exists.mp ((hsound.registry n).entry g hg)
      refine Or.inl ⟨o, ho, ?_⟩
      simp only [Async.speaks, ho, Bool.or_eq_true, decide_eq_true_eq, not_or] at hsilent
      omega
    · exact Or.inr hreg

/-- `register_handler(n, handler, false)`, and the thread takes `k` steps. -/
def registerAndPoll (n k : Nat) : List (PollAct Bool Unit) :=
  List.flatten [[.signal n (.register () false)], List.replicate 4 (.signal n .step),
    List.replicate k (.turn 1)]

/-- The thread waits, and polls the pipe of the one handler. -/
theorem poll_misses_nothing_registered : ∃ s : Polling Bool Unit,
    s.fds = [(10, 0)] ∧ ∃ o, (s.async.sigs 10).objs 0 = some o ∧ o.bytes = 0 := by
  have hexec : ∃ s ∈ execAll (execPolling false true) (fun _ _ => true) startPolling
      (registerAndPoll 10 40),
      s.async.point = .poll ∧ s.ready = false ∧ s.fds = [(10, 0)] ∧
      (s.async.sigs 10).entry = some 0 ∧ (s.async.sigs 10).reg.isNone = true := by
    decide +kernel
  obtain ⟨s, hs, hpoll, hready, hfds, hentry, hreg⟩ := hexec
  have hrun : Run (StepPolling false true) startPolling _ s :=
    execAll_run (fun _ _ _ _ hexec => hexec) hs
  rcases (poll_misses_nothing hrun hpoll hready).2 10 (by decide) 0 hentry with hobj | ⟨_, hkick⟩
  · exact ⟨s, hfds, hobj⟩
  · rw [hkick] at hreg
    cases hreg

end Waits

section Ends
variable {T H : Type}

def Look.left : Look → Nat
  | .switch => 10
  | .name => 5
  | .testPid => 4
  | .row fs => fs.length + 1

def EntryPoint.left : EntryPoint → Nat
  | .ended => 0
  | .test | .polled _ => 1
  | .poll => 2
  | .build => 3
  | .scan n => (32 - n) * 12 + 2
  | .report n _ look _ => (31 - n) * 12 + 2 + look.left
  | .consume => 32 * 12 + 3

def PollAct.turns : PollAct T H → Bool
  | .turn _ => true
  | _ => false

theorem Look.after_left {look : Look} {f : Field} (h : look.field = some f) (v : Int) :
    (look.after v).left < look.left := by
  cases look with
  | switch =>
    simp only [Look.after]
    split <;> decide
  | name => exact Nat.lt_succ_self _
  | testPid =>
    simp only [Look.after]
    split <;> decide
  | row fs =>
    cases fs with
    | nil => cases h
    | cons g fs => exact Nat.lt_succ_self _

theorem Look.left_pos (look : Look) : 0 < look.left := by
  cases look <;> exact Nat.succ_pos _

theorem stepEntry_left {s u : Async T H} {x : Int} {p : EntryPoint} (hstop : s.stop = true)
    (h : stepEntry s x p = .ok u) : u.point.left < p.left ∧ u.stop = true := by
  cases p with
  | test | polled =>
    obtain rfl := Except.ok.inj h
    simp only [if_pos hstop]
    exact ⟨Nat.zero_lt_one, hstop⟩
  | build | poll =>
    obtain rfl := Except.ok.inj h
    exact ⟨Nat.lt_succ_self _, hstop⟩
  | consume =>
    obtain rfl := Except.ok.inj h
    exact ⟨Nat.lt_succ_self _, hstop⟩
  | scan n =>
    have hnext : (EntryPoint.scan (n + 1)).left + (if n < 32 then 12 else 0) =
        (EntryPoint.scan n).left := by
      simp only [EntryPoint.left]
      split <;> omega
    change scanSignal s n = .ok u at h
    unfold scanSignal at h
    split at h
    · next hn =>
      rw [if_pos hn] at hnext
      split at h
      · obtain rfl := Except.ok.inj h
        exact ⟨by simp only; omega, hstop⟩
      · split at h
        · cases h
        · split at h
          · obtain rfl := Except.ok.inj h
            refine ⟨?_, hstop⟩
            simp only [EntryPoint.left, Look.left]
            omega
          · obtain rfl := Except.ok.inj h
            exact ⟨by simp only; omega, hstop⟩
    · obtain rfl := Except.ok.inj h
      refine ⟨?_, hstop⟩
      simp only [EntryPoint.left]
      omega
  | report n g look seen =>
    change reportSignal s n g look seen = .ok u at h
    unfold reportSignal at h
    split at h
    · next f hf =>
      split at h
      · cases h
      · next o ho =>
        obtain rfl := Except.ok.inj h
        exact ⟨Nat.add_lt_add_left (Look.after_left hf _) _, hstop⟩
    · obtain rfl := Except.ok.inj h
      refine ⟨?_, hstop⟩
      have hpos := look.left_pos
      simp only [EntryPoint.left]
      omega
  | ended => cases h

theorem stepEntry_within {s u : Async T H} {x : Int} {p : EntryPoint} (hp : p.left ≤ 387)
    (h : stepEntry s x p = .ok u) : u.point.left ≤ 387 := by
  have hscan : ∀ n, (EntryPoint.scan n).left ≤ 387 := by
    intro n
    simp only [EntryPoint.left]
    omega
  have hsmall : ∀ b c : EntryPoint, b.left ≤ 387 → c.left ≤ 387 → ∀ q : Prop, ∀ _ : Decidable q,
      (if q then b else c).left ≤ 387 := by
    intro b c hb hc q _
    split
    · exact hb
    · exact hc
  have hconsume : EntryPoint.consume.left ≤ 387 := Nat.le_refl _
  cases p with
  | test =>
    obtain rfl := Except.ok.inj h
    exact hsmall _ _ (by decide) (by decide) _ _
  | build | poll =>
    obtain rfl := Except.ok.inj h
    exact Nat.le_of_lt_succ (by simp only [EntryPoint.left]; omega)
  | polled y =>
    obtain rfl := Except.ok.inj h
    exact hsmall _ _ (by decide) (hsmall _ _ hconsume (by decide) _ _) _ _
  | consume =>
    obtain rfl := Except.ok.inj h
    exact hscan 0
  | scan n =>
    change scanSignal s n = .ok u at h
    unfold scanSignal at h
    split at h
    · split at h
      · obtain rfl := Except.ok.inj h
        exact hscan (n + 1)
      · split at h
        · cases h
        · split at h
          · obtain rfl := Except.ok.inj h
            simp only [EntryPoint.left, Look.left]
            omega
          · obtain rfl := Except.ok.inj h
            exact hscan (n + 1)
    · obtain rfl := Except.ok.inj h
      exact Nat.le_of_lt_succ (by simp only [EntryPoint.left]; omega)
  | report n g look seen =>
    change reportSignal s n g look seen = .ok u at h
    unfold reportSignal at h
    split at h
    · next f hf =>
      split at h
      · cases h
      · next o ho =>
        obtain rfl := Except.ok.inj h
        exact Nat.le_trans (Nat.le_of_lt (Nat.add_lt_add_left (Look.after_left hf _) _)) hp
    · obtain rfl := Except.ok.inj h
      exact hscan (n + 1)
  | ended => cases h

variable [DecidableEq T] [DecidableEq H] {r e : T} {s s' : Polling T H}

/-- The thread takes a step, or stays where it is. -/
theorem thread_cases {a : PollAct T H} (h : execPolling r e s a = .ok s') :
    (a.turns = true ∧ s'.down = s.down ∧
      ∃ x u, stepEntry s.async x s.async.point = .ok u ∧ s'.async = u) ∨
    a.turns = false ∧ s'.async.point = s.async.point ∧
      (s.async.stop = true → s'.async.stop = true) ∧
      (s.down = some .join ∨ s.down = some .done →
        s'.down = some .join ∨ s'.down = some .done) := by
  cases a with
  | signal n a =>
    simp only [execPolling] at h
    split at h
    · cases h
    · obtain ⟨u, hu, h⟩ := bind_ok h
      obtain rfl := Except.ok.inj h
      simp only [execAsync] at hu
      split at hu
      · obtain ⟨v, -, hu⟩ := bind_ok hu
        obtain rfl := Except.ok.inj hu
        exact Or.inr ⟨rfl, rfl, id, id⟩
      · cases hu
  | turn x =>
    simp only [execPolling] at h
    split at h
    · cases h
    · obtain ⟨u, hu, h⟩ := bind_ok h
      obtain rfl := Except.ok.inj h
      simp only [execAsync] at hu
      split at hu
      · exact Or.inl ⟨rfl, rfl, x, u, hu, rfl⟩
      · cases hu
  | shutdown =>
    simp only [execPolling] at h
    split at h
    · next hdown =>
      obtain rfl := Except.ok.inj h
      refine Or.inr ⟨rfl, rfl, fun _ => rfl, ?_⟩
      rw [hdown]
      rintro (hd | hd) <;> cases hd
    · cases h
  | down =>
    simp only [execPolling] at h
    split at h
    · obtain rfl := Except.ok.inj h
      exact Or.inr ⟨rfl, rfl, id, fun _ => Or.inl rfl⟩
    · split at h
      · obtain rfl := Except.ok.inj h
        exact Or.inr ⟨rfl, rfl, id, fun _ => Or.inr rfl⟩
      · cases h
    · cases h

theorem step_within {a : PollAct T H} (hs : s.async.point.left ≤ 387)
    (h : execPolling r e s a = .ok s') : s'.async.point.left ≤ 387 := by
  rcases thread_cases h with ⟨-, -, x, u, hu, hasync⟩ | ⟨-, hsame, -, -⟩
  · rw [hasync]
    exact stepEntry_within hs hu
  · rw [hsame]
    exact hs

theorem step_left {a : PollAct T H} (hstop : s.async.stop = true)
    (h : execPolling r e s a = .ok s') :
    s'.async.stop = true ∧
      (if a.turns then 1 else 0) + s'.async.point.left ≤ s.async.point.left := by
  rcases thread_cases h with ⟨hturn, -, x, u, hu, hasync⟩ | ⟨hturn, hsame, hkeep, -⟩
  · obtain ⟨hlt, hstop'⟩ := stepEntry_left hstop hu
    rw [hasync, if_pos hturn]
    exact ⟨hstop', by omega⟩
  · rw [hsame, hturn]
    exact ⟨hkeep hstop, Nat.le_of_eq (Nat.zero_add _)⟩

/-- Between two hooks the thread can always go on once the destructor has kicked it. -/
theorem Polling.Sound.goes_on (h : s.Sound) (hjoin : s.down = some .join)
    (hlive : s.async.point ≠ .ended) (hhooks : ∀ n, n < 32 → (s.async.sigs n).hooks e = none) :
    ∃ s', StepPolling r e s (.turn 1) s' := by
  have hpoll : ¬ (s.async.point = .poll ∧ s.answers 1 = false) := by
    rintro ⟨hat, hanswers⟩
    rcases h.kicked hjoin with hkick | hnot | hnot | hnot
    · have hready : s.ready = true := by
        rw [Polling.ready, decide_eq_true hkick, Bool.true_or]
      rw [Polling.answers, hready] at hanswers
      cases hanswers
    all_goals
      rw [hat] at hnot
      cases hnot
  have hidle : ((List.range 32).all fun m => ((s.async.sigs m).hooks e).isNone) = true := by
    rw [List.all_eq_true]
    intro m hm
    rw [hhooks m (List.mem_range.mp hm)]
    rfl
  have hentry : ∃ u, stepEntry s.async 1 s.async.point = .ok u := by
    cases hat : s.async.point with
    | ended => exact absurd hat hlive
    | scan n =>
      simp only [stepEntry, scanSignal]
      split
      · split
        · exact ⟨_, rfl⟩
        · next g hg =>
          obtain ⟨o, ho⟩ := Option.isSome_iff_exists.mp ((h.registry n).entry g hg)
          rw [ho]
          simp only
          split <;> exact ⟨_, rfl⟩
      · exact ⟨_, rfl⟩
    | report n g look seen =>
      obtain ⟨o, ho⟩ := Option.isSome_iff_exists.mp
        ((h.registry n).entry g (h.report n g look seen hat))
      simp only [stepEntry, reportSignal]
      split
      · rw [ho]
        exact ⟨_, rfl⟩
      · exact ⟨_, rfl⟩
    | _ => exact ⟨_, rfl⟩
  obtain ⟨u, hu⟩ := hentry
  refine ⟨{ s with async := u
                   fds := if s.async.point = .build then s.async.readEnds else s.fds }, ?_⟩
  unfold StepPolling
  simp only [execPolling, if_neg hpoll, execAsync, if_pos hidle, hu, ok_bind]

/-- Once the destructor has kicked it, the thread takes at most 387 steps more, whatever comes
between them; until it has ended it can take the next one as soon as it is in no hook, so that
`poll` does not hold it up. -/
theorem shutdown_ends {as bs : List (PollAct T H)} (h : Run (StepPolling r e) startPolling as s)
    (hjoin : s.down = some .join) (hrun : Run (StepPolling r e) s bs s') :
    bs.countP PollAct.turns ≤ 387 ∧ (s'.async.point = .ended ∨
      ((∀ n, n < 32 → (s'.async.sigs n).hooks e = none) →
        ∃ t, StepPolling r e s' (.turn 1) t)) := by
  have hsound : s.Sound := h.invariant (fun _ _ _ hs hstep => hs.step hstep) Polling.start_sound
  have hwithin : s.async.point.left ≤ 387 :=
    h.invariant (I := fun u => u.async.point.left ≤ 387)
      (fun _ _ _ hs hstep => step_within hs hstep)
      (show 1 ≤ 387 by decide)
  have hstop : s.async.stop = true := by
    rw [hsound.stops, hjoin]
    rfl
  constructor
  · have hleft := hrun.potential (I := fun u => u.async.stop = true)
      (fun u => u.async.point.left) PollAct.turns (fun _ => false) 0
      (fun _ _ _ hs hstep => (step_left hs hstep).1)
      (fun _ _ _ hs hstep => (step_left hs hstep).2) hstop
    omega
  · have hsound' : s'.Sound := hrun.invariant (fun _ _ _ hs hstep => hs.step hstep) hsound
    have hdown : s'.down = some .join ∨ s'.down = some .done := by
      refine hrun.invariant (I := fun u => u.down = some .join ∨ u.down = some .done) ?_
        (Or.inl hjoin)
      intro u a v hu hstep
      rcases thread_cases hstep with ⟨-, hsame, -⟩ | ⟨-, -, -, hkeep⟩
      · rw [hsame]
        exact hu
      · exact hkeep hu
    rcases hdown with hdown | hdown
    · by_cases hlive : s'.async.point = .ended
      · exact Or.inl hlive
      · exact Or.inr (hsound'.goes_on hdown hlive)
    · exact Or.inl (hsound'.joined hdown)

def destroyWaiting (k : Nat) : List (PollAct Bool Unit) :=
  List.flatten [registerAndPoll 10 k, [.shutdown, .down]]

/-- The thread is past its `poll`, and has seen the byte. -/
theorem shutdown_ends_waiting : ∃ s s' : Polling Bool Unit,
    Run (StepPolling false true) startPolling (destroyWaiting 40) s ∧ s.async.point = .poll ∧
      StepPolling false true s (.turn 1) s' ∧ ∃ t, StepPolling false true s' (.turn 1) t := by
  have hexec : ∃ s ∈ execAll (execPolling false true) (fun _ _ => true) startPolling
      (destroyWaiting 40), ∃ s' ∈ (execPolling false true s (.turn 1)).toOption,
      s.down = some .join ∧ s.async.point = .poll ∧ s'.async.point = .polled 1 ∧
      ∀ n < 32, ((s'.async.sigs n).hooks true).isNone = true := by
    decide +kernel
  obtain ⟨s, hs, s', hs', hjoin, hpoll, hpolled, hhooks⟩ := hexec
  have hrun : Run (StepPolling false true) startPolling _ s :=
    execAll_run (fun _ _ _ _ hexec => hexec) hs
  have hstep : StepPolling false true s (.turn 1) s' := ok_of_toOption hs'
  refine ⟨s, s', hrun, hpoll, hstep, ?_⟩
  rcases (shutdown_ends hrun hjoin (Run.single hstep)).2 with hended | hgo
  · rw [hpolled] at hended
    cases hended
  · exact hgo (fun n hn => Option.isNone_iff_eq_none.mp (hhooks n hn))

end Ends

end LockdepSpdk.Signal
