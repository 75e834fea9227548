import LockdepSpdk.Signal.Fatal
import Mathlib.Algebra.GroupWithZero.Nat

/-!
# One report

The thread whose exchange succeeds reports, once, and while it does the handlers of the
others return without a trace.
-/

namespace LockdepSpdk.Fatal

set_option autoImplicit false

open Function Transition

variable {T : Type} [DecidableEq T]

def Point.main : Point T → Bool
  | .banner | .backtrace | .setDefault | .raise | .complain _ | .exit _ => true
  | _ => false

def Point.inert : Point T → Bool
  | .exchange | .compare _ | .leave => true
  | _ => false

/-- The whole output of a process that the signal `m` ends on `t`. -/
def report (t : T) (m : Signum) (failed : Bool) : List (Line T) :=
  [.banner m t, .backtrace t, complaint m failed]

/-- What the handler has printed at a point after the exchange. -/
def Point.written (t : T) (m : Signum) : Point T → Option (List (Line T))
  | .banner => some []
  | .backtrace => some [.banner m t]
  | .setDefault | .raise | .complain _ => some [.banner m t, .backtrace t]
  | .exit failed => some (report t m failed)
  | _ => none

def Point.reset : Point T → Bool
  | .raise | .complain _ | .exit _ => true
  | _ => false

omit [DecidableEq T] in
theorem Point.inert_not_main {p : Point T} (h : p.inert = true) : p.main = false := by
  cases p <;> first | rfl | cases h

omit [DecidableEq T] in
theorem Point.main_of_written {p : Point T} {t : T} {m : Signum} {ls : List (Line T)}
    (h : p.written t m = some ls) : p.main = true := by
  cases p <;> first | rfl | cases h

/-- The handler that reports, with the handlers that interrupt it above and those that it
interrupted below. -/
inductive Reporting (P : Signum → Point T → Prop) : List (Frame T) → Prop where
  | main {m : Signum} {p : Point T} {below : List (Frame T)} : P m p →
      (∀ f ∈ below, f.point = .exchange) → Reporting P (⟨m, p⟩ :: below)
  | nested {f : Frame T} {fs : List (Frame T)} : f.point.main = false → Reporting P fs →
      Reporting P (f :: fs)

omit [DecidableEq T] in
theorem Reporting.mono {P Q : Signum → Point T → Prop} {fs : List (Frame T)}
    (h : Reporting P fs) (hPQ : ∀ m p, P m p → Q m p) : Reporting Q fs := by
  induction h with
  | main hp hbelow => exact .main (hPQ _ _ hp) hbelow
  | nested hf _ ih => exact .nested hf ih

omit [DecidableEq T] in
theorem Reporting.of_written {t : T} {ls : List (Line T)} {P : Signum → Point T → Prop}
    {fs : List (Frame T)} (h : Reporting P fs) (hP : ∀ m p, P m p → p.written t m = some ls) :
    ∃ m failed, ls <+: report t m failed := by
  induction h with
  | @main m p _ hp _ =>
    have hls := hP m p hp
    cases p with
    | exit failed => exact ⟨m, failed, Option.some.inj hls ▸ List.prefix_refl _⟩
    | banner => exact ⟨m, false, Option.some.inj hls ▸ List.nil_prefix⟩
    | backtrace => exact ⟨m, false, Option.some.inj hls ▸ ⟨_, rfl⟩⟩
    | setDefault | raise | complain => exact ⟨m, false, Option.some.inj hls ▸ ⟨_, rfl⟩⟩
    | exchange | compare | restore | leave => cases hls
  | nested _ _ ih => exact ih

namespace Sys
variable {s : Sys T} {t : T}

/-- The handler of `m` on `t` is at `p`, and nobody else has printed. -/
def Reports (s : Sys T) (t : T) (m : Signum) (p : Point T) : Prop :=
  p.written t m = some s.err ∧ (p.reset = true → s.installed m = false)

structure Inv (s : Sys T) : Prop where
  quiet : s.handlerTid = none →
    s.err = [] ∧ (∀ m, s.installed m = true) ∧ ∀ t, ∀ f ∈ s.frames t, f.point = .exchange
  expected : ∀ t, ∀ f ∈ s.frames t, ∀ u, f.point = .compare u → s.handlerTid = some u
  others : ∀ t, s.handlerTid = some t → ∀ u, u ≠ t → ∀ f ∈ s.frames u, f.point.inert = true
  winner : ∀ t, s.handlerTid = some t → Reporting (s.Reports t) (s.frames t)

theorem stack_self (fs : List (Frame T)) : (s.stack t fs).frames t = fs := update_self ..

theorem stack_of_ne {u : T} (h : u ≠ t) (fs : List (Frame T)) :
    (s.stack t fs).frames u = s.frames u := update_of_ne h ..

theorem stack_forall {Q : T → Frame T → Prop} {fs : List (Frame T)}
    (h : ∀ u, ∀ f ∈ s.frames u, Q u f) (hfs : ∀ f ∈ fs, Q t f) :
    ∀ u, ∀ f ∈ (s.stack t fs).frames u, Q u f := by
  intro u f hf
  by_cases hu : u = t
  · subst u
    rw [stack_self] at hf
    exact hfs f hf
  · rw [stack_of_ne hu] at hf
    exact h u f hf

namespace Inv

omit [DecidableEq T] in
theorem start (blocked : T → Signum → Bool) : (start blocked).Inv where
  quiet := fun _ => ⟨rfl, fun _ => rfl, fun _ f hf => by cases hf⟩
  expected := fun _ f hf => by cases hf
  others := fun _ h => by cases h
  winner := fun _ h => by cases h

omit [DecidableEq T] in
theorem die (h : s.Inv) (d : Death) : (s.die d).Inv :=
  ⟨h.quiet, h.expected, h.others, h.winner⟩

theorem stack_quiet (h : s.Inv) (hnone : s.handlerTid = none) {fs : List (Frame T)}
    (hfs : ∀ f ∈ fs, f.point = .exchange) : (s.stack t fs).Inv := by
  obtain ⟨herr, hinst, hex⟩ := h.quiet hnone
  refine ⟨fun _ => ⟨herr, hinst, stack_forall hex hfs⟩, ?_, ?_, ?_⟩
  · refine stack_forall h.expected fun f hf u hu => ?_
    rw [hfs f hf] at hu
    cases hu
  · intro w hw
    rw [show s.handlerTid = some w from hw] at hnone
    cases hnone
  · intro w hw
    rw [show s.handlerTid = some w from hw] at hnone
    cases hnone

theorem stack (h : s.Inv) {w : T} (hw : s.handlerTid = some w) {fs : List (Frame T)}
    (hexp : ∀ f ∈ fs, ∀ u, f.point = .compare u → u = w)
    (hinert : t ≠ w → ∀ f ∈ fs, f.point.inert = true)
    (hwin : t = w → Reporting (s.Reports w) fs) : (s.stack t fs).Inv := by
  have huniq : ∀ v, (s.stack t fs).handlerTid = some v → v = w := by
    intro v hv
    exact Option.some.inj ((show s.handlerTid = some v from hv).symm.trans hw)
  refine ⟨fun hnone => ?_, ?_, ?_, ?_⟩
  · rw [show s.handlerTid = none from hnone] at hw
    cases hw
  · refine stack_forall h.expected fun f hf u hu => ?_
    rw [hexp f hf u hu]
    exact hw
  · intro v hv u hu
    obtain rfl := huniq v hv
    by_cases hut : u = t
    · subst u
      rw [stack_self]
      exact hinert hu
    · rw [stack_of_ne hut]
      exact h.others v hw u hu
  · intro v hv
    obtain rfl := huniq v hv
    by_cases hvt : v = t
    · subst v
      rw [stack_self]
      exact hwin rfl
    · rw [stack_of_ne hvt]
      exact h.winner v hw

/-- A handler at a point after the exchange is the one that reports. -/
theorem of_main (h : s.Inv) {m : Signum} {p : Point T} {below : List (Frame T)}
    (hf : s.frames t = ⟨m, p⟩ :: below) (hp : p.main = true) :
    s.handlerTid = some t ∧ s.Reports t m p ∧ ∀ f ∈ below, f.point = .exchange := by
  have hmem : ⟨m, p⟩ ∈ s.frames t := by
    rw [hf]
    exact List.mem_cons_self
  have htid : s.handlerTid = some t := by
    cases hw : s.handlerTid with
    | none =>
      have hex : p = .exchange := (h.quiet hw).2.2 t _ hmem
      rw [hex] at hp
      cases hp
    | some w =>
      by_cases heq : t = w
      · rw [heq]
      · have hin := h.others w hw t heq _ hmem
        rw [Point.inert_not_main hin] at hp
        cases hp
  have hwin := h.winner t htid
  rw [hf] at hwin
  cases hwin with
  | main hrep hbelow => exact ⟨htid, hrep, hbelow⟩
  | nested hnot _ =>
    rw [hnot] at hp
    cases hp

omit [DecidableEq T] in
theorem of_nested (h : s.Inv) {m : Signum} {p : Point T} {below : List (Frame T)} {w : T}
    (hf : s.frames t = ⟨m, p⟩ :: below) (hp : p.main = false) (hw : s.handlerTid = some w) :
    (∀ f ∈ below, ∀ u, f.point = .compare u → u = w) ∧
      (t ≠ w → ∀ f ∈ below, f.point.inert = true) ∧ (t = w → Reporting (s.Reports w) below) := by
  have hold : ∀ f ∈ below, f ∈ s.frames t := by
    intro f hmem
    rw [hf]
    exact List.mem_cons_of_mem _ hmem
  refine ⟨fun f hmem u hu => ?_, fun htw f hmem => h.others w hw t htw f (hold f hmem), ?_⟩
  · exact Option.some.inj ((h.expected t f (hold f hmem) u hu).symm.trans hw)
  · rintro rfl
    have hwin := h.winner t hw
    rw [hf] at hwin
    cases hwin with
    | main hrep _ => rw [Point.main_of_written hrep.1] at hp; cases hp
    | nested _ hrest => exact hrest

theorem goto_nested (h : s.Inv) {m : Signum} {p q : Point T} {below : List (Frame T)} {w : T}
    (hf : s.frames t = ⟨m, p⟩ :: below) (hp : p.main = false) (hq : q.main = false)
    (hw : s.handlerTid = some w) (hcompare : ∀ u, q = .compare u → u = w)
    (hinert : t ≠ w → q.inert = true) : (s.goto t m below q).Inv := by
  obtain ⟨hexp, hin, hwin⟩ := h.of_nested hf hp hw
  refine h.stack hw ?_ (fun htw => ?_) (fun htw => .nested hq (hwin htw))
  · exact List.forall_mem_cons.mpr ⟨hcompare, hexp⟩
  · exact List.forall_mem_cons.mpr ⟨hinert htw, hin htw⟩

theorem pop (h : s.Inv) {m : Signum} {below : List (Frame T)}
    (hf : s.frames t = ⟨m, .leave⟩ :: below) : (s.stack t below).Inv := by
  have hmem : ⟨m, .leave⟩ ∈ s.frames t := by
    rw [hf]
    exact List.mem_cons_self
  cases hw : s.handlerTid with
  | none => cases (h.quiet hw).2.2 t _ hmem
  | some w =>
    obtain ⟨hexp, hin, hwin⟩ := h.of_nested hf rfl hw
    exact h.stack hw hexp hin hwin

theorem arrive (h : s.Inv) (t : T) (m : Signum) : (s.arrive t m).Inv := by
  unfold Sys.arrive
  split
  case isFalse => exact h.die _
  case isTrue =>
  cases hw : s.handlerTid with
  | none =>
    exact h.stack_quiet hw (List.forall_mem_cons.mpr ⟨rfl, (h.quiet hw).2.2 t⟩)
  | some w =>
    refine h.stack hw ?_ (fun htw => ?_) (fun htw => ?_)
    · refine List.forall_mem_cons.mpr ⟨fun u hu => (by cases hu), fun f hf u hu => ?_⟩
      exact Option.some.inj ((h.expected t f hf u hu).symm.trans hw)
    · exact List.forall_mem_cons.mpr ⟨rfl, h.others w hw t htw⟩
    · subst htw
      exact .nested rfl (h.winner t hw)

omit [DecidableEq T] in
theorem setDefault (h : s.Inv) (hw : s.handlerTid ≠ none) (m : Signum) : (s.setDefault m).Inv where
  quiet := fun hnone => absurd hnone hw
  expected := h.expected
  others := h.others
  winner := by
    intro w hw'
    refine (h.winner w hw').mono fun k p hp => ⟨hp.1, fun hreset => ?_⟩
    by_cases hk : k = m
    · subst k
      exact update_self ..
    · exact (update_of_ne hk ..).trans (hp.2 hreset)

theorem goto_main (h : s.Inv) {m : Signum} {p q : Point T} {below : List (Frame T)} {s' : Sys T}
    (hf : s.frames t = ⟨m, p⟩ :: below) (hp : p.main = true) (hq : q.main = true)
    (hframes : s'.frames = (s.goto t m below q).frames) (htid : s'.handlerTid = s.handlerTid)
    (hrep : s'.Reports t m q) : s'.Inv := by
  obtain ⟨hw, -, hbelow⟩ := h.of_main hf hp
  have huniq : ∀ v, s'.handlerTid = some v → v = t := by
    intro v hv
    exact Option.some.inj (hv.symm.trans (htid.trans hw))
  refine ⟨?_, ?_, ?_, ?_⟩
  · intro hnone
    rw [htid, hw] at hnone
    cases hnone
  · rw [hframes, htid]
    refine stack_forall h.expected (List.forall_mem_cons.mpr ⟨fun u hu => ?_, fun f hmem u hu => ?_⟩)
    · rw [show q = .compare u from hu] at hq
      cases hq
    · rw [hbelow f hmem] at hu
      cases hu
  · intro v hv u hu
    obtain rfl := huniq v hv
    rw [hframes, goto, stack_of_ne hu]
    exact h.others v hw u hu
  · intro v hv
    obtain rfl := huniq v hv
    rw [hframes, goto, stack_self]
    exact .main hrep hbelow

theorem win (h : s.Inv) {m : Signum} {below : List (Frame T)}
    (hf : s.frames t = ⟨m, .exchange⟩ :: below) (hnone : s.handlerTid = none) :
    Inv { s.goto t m below .banner with handlerTid := some t } := by
  obtain ⟨herr, -, hex⟩ := h.quiet hnone
  have hbelow : ∀ f ∈ below, f.point = .exchange := by
    intro f hmem
    refine hex t f ?_
    rw [hf]
    exact List.mem_cons_of_mem _ hmem
  refine ⟨fun hn => (by cases hn), ?_, ?_, ?_⟩
  · have hno : ∀ u, ∀ f ∈ s.frames u, ∀ v, f.point = .compare v → some t = some v := by
      intro u f hmem v hv
      rw [hex u f hmem] at hv
      cases hv
    refine stack_forall hno (List.forall_mem_cons.mpr ⟨fun v hv => (by cases hv), ?_⟩)
    intro f hmem v hv
    rw [hbelow f hmem] at hv
    cases hv
  · intro w hw u hu f hmem
    obtain rfl : t = w := Option.some.inj hw
    rw [show ({ s.goto t m below .banner with handlerTid := some t } : Sys T).frames u = s.frames u
      from stack_of_ne hu _] at hmem
    rw [hex u f hmem]
    rfl
  · intro w hw
    obtain rfl : t = w := Option.some.inj hw
    rw [show ({ s.goto t m below .banner with handlerTid := some t } : Sys T).frames t =
      ⟨m, .banner⟩ :: below from stack_self _]
    exact .main ⟨congrArg some herr.symm, fun hr => (by cases hr)⟩ hbelow

theorem stepFrame (h : s.Inv) {m : Signum} {p : Point T} {below : List (Frame T)}
    (hf : s.frames t = ⟨m, p⟩ :: below) (sent : Bool) : (stepFrame s t m below sent p).Inv := by
  have hmem : ⟨m, p⟩ ∈ s.frames t := by
    rw [hf]
    exact List.mem_cons_self
  cases p with
  | exchange =>
    cases hw : s.handlerTid with
    | none =>
      simp only [Fatal.stepFrame, hw]
      exact h.win hf hw
    | some w =>
      simp only [Fatal.stepFrame, hw]
      exact h.goto_nested hf rfl rfl hw (fun u hu => (Point.compare.inj hu).symm) (fun _ => rfl)
  | compare w =>
    have hw := h.expected t _ hmem w rfl
    simp only [Fatal.stepFrame]
    split
    case isTrue hwt =>
      refine h.goto_nested hf rfl rfl hw (fun u hu => (by cases hu)) (fun htw => ?_)
      exact absurd hwt.symm htw
    case isFalse => exact h.goto_nested hf rfl rfl hw (fun u hu => (by cases hu)) (fun _ => rfl)
  | restore =>
    have hw : ∃ w, s.handlerTid = some w := by
      cases hw : s.handlerTid with
      | none => cases (h.quiet hw).2.2 t _ hmem
      | some w => exact ⟨w, rfl⟩
    obtain ⟨w, hw⟩ := hw
    have hleave : (s.goto t m below .leave).Inv :=
      h.goto_nested hf rfl rfl hw (fun u hu => (by cases hu)) (fun _ => rfl)
    refine hleave.setDefault (fun hn => ?_) m
    rw [show s.handlerTid = none from hn] at hw
    cases hw
  | banner =>
    obtain ⟨-, hrep, -⟩ := h.of_main hf rfl
    refine h.goto_main hf rfl (q := .backtrace) rfl rfl rfl ⟨?_, fun hr => (by cases hr)⟩
    exact congrArg (fun l => some (l ++ [Line.banner m t])) (Option.some.inj hrep.1)
  | backtrace =>
    obtain ⟨-, hrep, -⟩ := h.of_main hf rfl
    refine h.goto_main hf rfl (q := .setDefault) rfl rfl rfl ⟨?_, fun hr => (by cases hr)⟩
    exact congrArg (fun l => some (l ++ [Line.backtrace t])) (Option.some.inj hrep.1)
  | setDefault =>
    obtain ⟨-, hrep, -⟩ := h.of_main hf rfl
    exact h.goto_main hf rfl (q := .raise) rfl rfl rfl ⟨hrep.1, fun _ => update_self ..⟩
  | raise =>
    obtain ⟨-, hrep, -⟩ := h.of_main hf rfl
    have hcomplain : ∀ failed, (s.goto t m below (.complain failed)).Inv := fun failed =>
      h.goto_main hf rfl (q := .complain failed) rfl rfl rfl hrep
    simp only [Fatal.stepFrame]
    split
    case isFalse => exact hcomplain true
    case isTrue =>
      split
      case isTrue => exact hcomplain false
      case isFalse => exact (hcomplain false).arrive t m
  | complain failed =>
    obtain ⟨-, hrep, -⟩ := h.of_main hf rfl
    refine h.goto_main hf rfl (q := .exit failed) rfl rfl rfl ⟨?_, hrep.2⟩
    exact congrArg (fun l => some (l ++ [complaint m failed])) (Option.some.inj hrep.1)
  | exit failed => exact h.die _
  | leave => exact h.pop hf

theorem step (h : s.Inv) {a : Act T} {s' : Sys T} (hstep : Step s a s') : s'.Inv := by
  unfold Step exec at hstep
  split at hstep
  case isTrue => cases hstep
  case isFalse =>
  cases a with
  | deliver t m =>
    simp only at hstep
    split at hstep
    · cases hstep
    · obtain rfl := Option.some.inj hstep
      exact h.arrive t m
  | fault t m =>
    obtain rfl := Option.some.inj hstep
    split
    · exact h.die _
    · exact h.arrive t m
  | mask t m b =>
    simp only at hstep
    split at hstep
    · obtain rfl := Option.some.inj hstep
      exact ⟨h.quiet, h.expected, h.others, h.winner⟩
    · cases hstep
  | turn t sent =>
    simp only at hstep
    split at hstep
    · cases hstep
    · next f below hf =>
      obtain rfl := Option.some.inj hstep
      exact h.stepFrame hf sent

theorem run {ls : List (Act T)} {s' : Sys T} (h : s.Inv) (hrun : Run Step s ls s') : s'.Inv :=
  hrun.invariant (fun _ _ _ hs hstep => hs.step hstep) h

end Inv

end Sys

section Runs

def Act.reaches (t : T) : Act T → Bool
  | .deliver u _ | .fault u _ => u == t
  | _ => false

def Act.runs (t : T) : Act T → Bool
  | .turn u _ => u == t
  | _ => false

def arrivals (t : T) (ls : List (Act T)) : Nat := ls.countP (Act.reaches t)

def turns (t : T) (ls : List (Act T)) : Nat := ls.countP (Act.runs t)

def Arrives (ls : List (Act T)) (t : T) (m : Signum) : Prop := .deliver t m ∈ ls ∨ .fault t m ∈ ls

variable {s s' : Sys T} {t u : T} {m : Signum} {below : List (Frame T)} {p : Point T} {sent : Bool}

/-- What a step can do: it ends the process or leaves a signal to a handler, changes what a thread
blocks, or runs a handler. -/
theorem Step.cases {a : Act T} (h : Step s a s') :
    s.ended = none ∧
    ((∃ u m, (a = .deliver u m ∨ a = .fault u m) ∧ s.blocked u m = false ∧ s' = s.arrive u m) ∨
    (∃ u m, a = .fault u m ∧ s.blocked u m = true ∧ s' = s.die (.killed m)) ∨
    (∃ u m b, a = .mask u m b ∧
      s' = { s with blocked := update s.blocked u (update (s.blocked u) m b) }) ∨
    (∃ u sent m p below, a = .turn u sent ∧ s.frames u = ⟨m, p⟩ :: below ∧
      s' = stepFrame s u m below sent p)) := by
  unfold Step exec at h
  split at h
  case isTrue => cases h
  case isFalse halive =>
  refine ⟨Option.not_isSome_iff_eq_none.mp halive, ?_⟩
  cases a with
  | deliver u m =>
    simp only at h
    split at h
    case isTrue => cases h
    case isFalse hb =>
    exact Or.inl ⟨u, m, Or.inl rfl, Bool.not_eq_true _ ▸ hb, (Option.some.inj h).symm⟩
  | fault u m =>
    obtain rfl := Option.some.inj h
    split
    case isTrue hb => exact Or.inr (Or.inl ⟨u, m, rfl, hb, rfl⟩)
    case isFalse hb => exact Or.inl ⟨u, m, Or.inr rfl, Bool.not_eq_true _ ▸ hb, rfl⟩
  | mask u m b =>
    simp only at h
    split at h
    · exact Or.inr (Or.inr (Or.inl ⟨u, m, b, rfl, (Option.some.inj h).symm⟩))
    · cases h
  | turn u sent =>
    simp only at h
    split at h
    · cases h
    · next f below hf =>
      exact Or.inr (Or.inr (Or.inr ⟨u, sent, f.signum, f.point, below, rfl, hf,
        (Option.some.inj h).symm⟩))

theorem Step.turn (halive : s.ended = none) (hf : s.frames t = ⟨m, p⟩ :: below) (sent : Bool) :
    Step s (.turn t sent) (stepFrame s t m below sent p) := by
  simp [Step, exec, halive, hf]

theorem arrive_persists :
    (s.arrive t m).err = s.err ∧ (s.arrive t m).handlerTid = s.handlerTid ∧
      (s.arrive t m).installed = s.installed := by
  unfold Sys.arrive
  split <;> exact ⟨rfl, rfl, rfl⟩

/-- What is printed stays, and so does the thread that reports. -/
theorem stepFrame_persists (s : Sys T) (t : T) (m : Signum) (below : List (Frame T)) (sent : Bool)
    (p : Point T) :
    s.err <+: (stepFrame s t m below sent p).err ∧
      ∀ w, s.handlerTid = some w → (stepFrame s t m below sent p).handlerTid = some w := by
  cases p with
  | exchange =>
    cases hw : s.handlerTid with
    | none =>
      simp only [stepFrame, hw]
      exact ⟨List.prefix_refl _, fun w h => (by cases h)⟩
    | some w =>
      simp only [stepFrame, hw]
      exact ⟨List.prefix_refl _, fun v h => hw.trans h⟩
  | banner | backtrace | complain => exact ⟨List.prefix_append _ _, fun _ h => h⟩
  | raise =>
    simp only [stepFrame]
    split
    case isFalse => exact ⟨List.prefix_refl _, fun _ h => h⟩
    case isTrue =>
      split
      case isTrue => exact ⟨List.prefix_refl _, fun _ h => h⟩
      case isFalse =>
        obtain ⟨herr, htid, -⟩ :=
          arrive_persists (s := s.goto t m below (.complain false)) (t := t) (m := m)
        rw [herr, htid]
        exact ⟨List.prefix_refl _, fun _ h => h⟩
  | compare | restore | setDefault | exit | leave =>
    exact ⟨List.prefix_refl _, fun _ h => h⟩

theorem Step.persists {a : Act T} (h : Step s a s') :
    s.err <+: s'.err ∧ ∀ w, s.handlerTid = some w → s'.handlerTid = some w := by
  obtain ⟨-, ⟨u, m, -, -, rfl⟩ | ⟨u, m, -, -, rfl⟩ | ⟨u, m, b, -, rfl⟩ |
    ⟨u, sent, m, p, below, -, -, rfl⟩⟩ := h.cases
  · obtain ⟨herr, htid, -⟩ := arrive_persists (s := s) (t := u) (m := m)
    rw [herr, htid]
    exact ⟨List.prefix_refl _, fun _ h => h⟩
  · exact ⟨List.prefix_refl _, fun _ h => h⟩
  · exact ⟨List.prefix_refl _, fun _ h => h⟩
  · exact stepFrame_persists s u m below sent p

theorem Run.persists {ks : List (Act T)} (h : Run Step s ks s') :
    s.err <+: s'.err ∧ ∀ w, s.handlerTid = some w → s'.handlerTid = some w := by
  induction h with
  | nil => exact ⟨List.prefix_refl _, fun _ h => h⟩
  | cons hstep _ ih =>
    obtain ⟨herr, htid⟩ := hstep.persists
    exact ⟨herr.trans ih.1, fun w hw => ih.2 w (htid w hw)⟩

def after (s : Sys T) (ls : List (Act T)) : Sys T := (ls.foldlM exec s).getD s

theorem after_step {a : Act T} (h : (exec s a).isSome = true) : Step s a (after s [a]) := by
  obtain ⟨u, hu⟩ := Option.isSome_iff_exists.mp h
  simp [after, Step, hu]

theorem after_run {ls : List (Act T)} (h : (ls.foldlM exec s).isSome = true) :
    Run Step s ls (after s ls) := by
  induction ls generalizing s with
  | nil => exact .nil s
  | cons a ls ih =>
    cases hu : exec s a with
    | none =>
      rw [List.foldlM_cons, hu] at h
      cases h
    | some u =>
      have hrest : (ls.foldlM exec u).isSome = true := by
        rw [List.foldlM_cons, hu] at h
        exact h
      obtain ⟨v, hv⟩ := Option.isSome_iff_exists.mp hrest
      have heq : after s (a :: ls) = after u ls := by
        simp [after, hu, hv]
      rw [heq]
      exact .cons hu (ih hrest)

/-- In every run one thread at most reports, for one signal, and the report is printed once and in
order. -/
theorem oneshot_report {blocked : T → Signum → Bool} {ls ks : List (Act T)} {v : Sys T}
    (h : Run Step (start blocked) ls s) (hk : Run Step s ks v) :
    s.err <+: v.err ∧ (∀ t, s.handlerTid = some t → v.handlerTid = some t) ∧
      (v.err = [] ∨ ∃ t m failed, v.handlerTid = some t ∧ v.err <+: report t m failed) := by
  obtain ⟨herr, htid⟩ := Run.persists hk
  refine ⟨herr, htid, ?_⟩
  have hinv : v.Inv := ((Sys.Inv.start blocked).run h).run hk
  cases hw : v.handlerTid with
  | none => exact Or.inl (hinv.quiet hw).1
  | some t =>
    obtain ⟨m, failed, hrep⟩ := (hinv.winner t hw).of_written fun _ _ hp => hp.1
    exact Or.inr ⟨t, m, failed, rfl, hrep⟩

theorem oneshot_report_two :
    let s := after (start fun (_ : Bool) _ => false) [.deliver false .sigsegv, .deliver true .sigabrt,
      .turn true true, .turn true true]
    let v := after s [.turn false true, .turn true true]
    s.err <+: v.err ∧ (∀ t, s.handlerTid = some t → v.handlerTid = some t) ∧
      (v.err = [] ∨ ∃ t m failed, v.handlerTid = some t ∧ v.err <+: report t m failed) :=
  oneshot_report (after_run rfl) (after_run rfl)

/-- The steps that a handler that finds another thread has left. -/
def Point.pause : Point T → Nat
  | .exchange => 3
  | .compare _ => 2
  | .leave => 1
  | _ => 0

def Sys.pauses (s : Sys T) (u : T) : Nat := ((s.frames u).map fun f => f.point.pause).sum

theorem arrive_frames_self :
    (s.arrive t m).frames t = ⟨m, .exchange⟩ :: s.frames t ∨
      (s.arrive t m).frames t = s.frames t ∧ (s.arrive t m).ended ≠ none := by
  unfold Sys.arrive
  split
  · exact Or.inl (Sys.stack_self _)
  · exact Or.inr ⟨rfl, fun h => (by cases h)⟩

theorem arrive_frames_of_ne (h : u ≠ t) : (s.arrive t m).frames u = s.frames u := by
  unfold Sys.arrive
  split
  · exact Sys.stack_of_ne h _
  · rfl

theorem stepFrame_frames_of_ne (h : u ≠ t) :
    (stepFrame s t m below sent p).frames u = s.frames u := by
  have hgoto : ∀ q, (s.goto t m below q).frames u = s.frames u := fun q => Sys.stack_of_ne h _
  cases p with
  | exchange =>
    simp only [stepFrame]
    split
    · exact hgoto _
    · exact hgoto _
  | raise =>
    simp only [stepFrame]
    split
    · split
      · exact hgoto _
      · exact (arrive_frames_of_ne h).trans (hgoto _)
    · exact hgoto _
  | compare | restore | banner | backtrace | setDefault | complain => exact hgoto _
  | exit => rfl
  | leave => exact Sys.stack_of_ne h _

/-- A step of a handler on a thread that does not report changes nothing else. -/
theorem Sys.Inv.stepFrame_inert (h : s.Inv) (sent : Bool) (hf : s.frames u = ⟨m, p⟩ :: below)
    (hw : s.handlerTid = some t) (hu : u ≠ t) :
    (∃ q, q.pause + 1 = p.pause ∧ Fatal.stepFrame s u m below sent p = s.goto u m below q) ∨
      p.pause = 1 ∧ Fatal.stepFrame s u m below sent p = s.stack u below := by
  have hmem : ⟨m, p⟩ ∈ s.frames u := by
    rw [hf]
    exact List.mem_cons_self
  have hin : p.inert = true := h.others t hw u hu _ hmem
  cases p with
  | exchange =>
    refine Or.inl ⟨.compare t, rfl, ?_⟩
    simp only [Fatal.stepFrame, hw]
  | compare v =>
    have hv : v = t := Option.some.inj ((h.expected u _ hmem v rfl).symm.trans hw)
    refine Or.inl ⟨.leave, rfl, ?_⟩
    simp only [Fatal.stepFrame]
    rw [hv, if_neg (fun heq => hu heq.symm)]
  | leave => exact Or.inr ⟨rfl, rfl⟩
  | restore | banner | backtrace | setDefault | raise | complain | exit => cases hin

theorem Sys.Inv.pauses_step (h : s.Inv) (hw : s.handlerTid = some t) (hu : u ≠ t) {a : Act T}
    (hstep : Step s a s') :
    (if Act.runs u a then 1 else 0) + s'.pauses u ≤
      s.pauses u + 3 * (if Act.reaches u a then 1 else 0) := by
  obtain ⟨-, ⟨v, m, ha, -, rfl⟩ | ⟨v, m, rfl, -, rfl⟩ | ⟨v, m, b, rfl, rfl⟩ |
    ⟨v, sent, m, p, below, rfl, hf, rfl⟩⟩ := hstep.cases
  · have hruns : Act.runs u a = false := by
      rcases ha with rfl | rfl <;> rfl
    have hreach : Act.reaches u a = (v == u) := by
      rcases ha with rfl | rfl <;> rfl
    rw [hruns, hreach]
    by_cases huv : v = u
    · subst v
      rw [beq_self_eq_true, if_pos rfl]
      rcases arrive_frames_self (s := s) (t := u) (m := m) with heq | ⟨heq, -⟩
      · simp only [Sys.pauses, heq, List.map_cons, List.sum_cons, Point.pause]
        simp; omega
      · simp only [Sys.pauses, heq]
        simp
    · rw [beq_false_of_ne huv]
      simp only [Sys.pauses, arrive_frames_of_ne (Ne.symm huv)]
      simp
  · simp [Act.runs, Sys.pauses, Sys.die]
  · simp [Act.runs, Sys.pauses]
  · by_cases huv : v = u
    · subst v
      have hold : s.pauses u = p.pause + (below.map fun f => f.point.pause).sum := by
        simp only [Sys.pauses, hf, List.map_cons, List.sum_cons]
      rcases h.stepFrame_inert sent hf hw hu with ⟨q, hq, heq⟩ | ⟨hp, heq⟩
      · rw [heq, hold]
        simp [Act.runs, Act.reaches, Sys.pauses, Sys.goto, Sys.stack_self]
        omega
      · rw [heq, hold]
        simp [Act.runs, Act.reaches, Sys.pauses, Sys.stack_self]
        omega
    · simp [Act.runs, Act.reaches, huv, Sys.pauses, stepFrame_frames_of_ne (Ne.symm huv)]

omit [DecidableEq T] in
theorem Sys.pauses_le (s : Sys T) (u : T) : s.pauses u ≤ 3 * (s.frames u).length := by
  have hle : ∀ p : Point T, p.pause ≤ 3 := by
    intro p
    cases p <;> simp [Point.pause]
  unfold Sys.pauses
  generalize s.frames u = fs
  induction fs with
  | nil => exact Nat.le_refl _
  | cons f fs ih =>
    have hf := hle f.point
    simp only [List.map_cons, List.sum_cons, List.length_cons]
    omega

/-- While a thread reports, the handlers on any other return after three steps each, and change
nothing but the stack of their own thread. -/
theorem bystander_returns {blocked : T → Signum → Bool} {ls ks : List (Act T)} {v : Sys T}
    (h : Run Step (start blocked) ls s) (hw : s.handlerTid = some t) (hu : u ≠ t)
    (hk : Run Step s ks v) :
    turns u ks ≤ 3 * (s.frames u).length + 3 * arrivals u ks ∧
      ∀ sent v', Step v (.turn u sent) v' → v' = v.stack u (v'.frames u) := by
  have hinv : s.Inv := (Sys.Inv.start blocked).run h
  constructor
  · have hbound := Run.potential (I := fun s : Sys T => s.Inv ∧ s.handlerTid = some t)
      (fun s => s.pauses u) (Act.runs u) (Act.reaches u) 3
      (fun s a s' hs hstep => ⟨hs.1.step hstep, hstep.persists.2 t hs.2⟩)
      (fun s a s' hs hstep => hs.1.pauses_step hs.2 hu hstep) hk ⟨hinv, hw⟩
    have hle := s.pauses_le u
    unfold turns arrivals
    omega
  · intro sent v' hstep
    have hv : v.Inv := hinv.run hk
    have hw' := (Run.persists hk).2 t hw
    obtain ⟨-, ⟨_, _, ha | ha, -⟩ | ⟨_, _, ha, -⟩ | ⟨_, _, _, ha, -⟩ |
      ⟨x, y, m, p, below, ha, hf, rfl⟩⟩ := hstep.cases
    case inr.inr.inr =>
      obtain ⟨rfl, rfl⟩ := Act.turn.inj ha
      rcases hv.stepFrame_inert sent hf hw' hu with ⟨q, -, heq⟩ | ⟨-, heq⟩
      · rw [heq, Sys.goto, Sys.stack_self]
      · rw [heq, Sys.stack_self]
    all_goals cases ha

theorem bystander_returns_after_exchange :
    let s := after (start fun (_ : Bool) _ => false) [.deliver true .sigabrt, .turn true true]
    let ks := [.fault false .sigsegv, .turn false true, .turn false true, .turn false true]
    turns false ks ≤ 3 * (s.frames false).length + 3 * arrivals false ks ∧
      ∀ sent v', Step (after s ks) (.turn false sent) v' →
        v' = (after s ks).stack false (v'.frames false) :=
  bystander_returns (t := true) (after_run rfl) rfl (by decide) (after_run rfl)

end Runs

end LockdepSpdk.Fatal
