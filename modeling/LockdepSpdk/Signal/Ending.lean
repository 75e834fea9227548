import LockdepSpdk.Signal.Oneshot

/-!
# How a fatal signal ends the process

The thread that reports has few steps left, and what ends the process before them is a
signal that it has already put back to its default.
-/

namespace LockdepSpdk.Fatal

set_option autoImplicit false

open Function Transition

section Runs

variable {T : Type} [DecidableEq T] {s s' : Sys T} {t u : T} {m : Signum} {below : List (Frame T)}
  {p : Point T}

/-- The steps that a handler has left, its exchange having failed where it is still before it. -/
def Point.left : Point T → Nat
  | .exchange => 4
  | .compare _ => 3
  | .restore => 2
  | .leave => 1
  | .banner => 6
  | .backtrace => 5
  | .setDefault => 4
  | .raise => 3
  | .complain _ => 2
  | .exit _ => 1

def leftOf : List (Frame T) → Nat
  | [] => 0
  | f :: fs => if f.point.main then f.point.left else f.point.left + leftOf fs

omit [DecidableEq T] in
theorem Reporting.left_pos {P : Signum → Point T → Prop} {fs : List (Frame T)}
    (h : Reporting P fs) : 0 < leftOf fs := by
  have hpos : ∀ p : Point T, 0 < p.left := by
    intro p
    cases p <;> simp [Point.left]
  have hf : ∀ (f : Frame T) fs, 0 < leftOf (f :: fs) := by
    intro f fs
    have hp := hpos f.point
    unfold leftOf
    split <;> omega
  cases h with
  | main _ _ => exact hf _ _
  | nested _ _ => exact hf _ _

theorem Sys.Inv.stepFrame_left (h : s.Inv) (hf : s.frames t = ⟨m, p⟩ :: below)
    (hw : s.handlerTid = some t) (sent : Bool)
    (halive : (Fatal.stepFrame s t m below sent p).ended = none) :
    leftOf ((Fatal.stepFrame s t m below sent p).frames t) < leftOf (s.frames t) := by
  have hmem : ⟨m, p⟩ ∈ s.frames t := by
    rw [hf]
    exact List.mem_cons_self
  have hgoto : ∀ q, (s.goto t m below q).frames t = ⟨m, q⟩ :: below := fun q => stack_self _
  cases p with
  | exchange =>
    simp only [Fatal.stepFrame, hw, hgoto, hf, leftOf, Point.main, Point.left]
    simp
  | compare v =>
    have hv : v = t := Option.some.inj ((h.expected t _ hmem v rfl).symm.trans hw)
    simp only [Fatal.stepFrame, if_pos hv, hgoto, hf, leftOf, Point.main, Point.left]
    simp
  | restore =>
    have hframes : (Fatal.stepFrame s t m below sent .restore).frames t = ⟨m, .leave⟩ :: below :=
      hgoto .leave
    simp only [hframes, hf, leftOf, Point.main, Point.left]
    simp
  | banner =>
    have hframes : (Fatal.stepFrame s t m below sent .banner).frames t = ⟨m, .backtrace⟩ :: below :=
      hgoto .backtrace
    simp only [hframes, hf, leftOf, Point.main, Point.left]
    simp
  | backtrace =>
    have hframes : (Fatal.stepFrame s t m below sent .backtrace).frames t =
        ⟨m, .setDefault⟩ :: below := hgoto .setDefault
    simp only [hframes, hf, leftOf, Point.main, Point.left]
    simp
  | setDefault =>
    have hframes : (Fatal.stepFrame s t m below sent .setDefault).frames t = ⟨m, .raise⟩ :: below :=
      hgoto .raise
    simp only [hframes, hf, leftOf, Point.main, Point.left]
    simp
  | raise =>
    obtain ⟨-, hrep, -⟩ := h.of_main hf rfl
    have hdef : (s.goto t m below (.complain false)).installed m = false := hrep.2 rfl
    simp only [Fatal.stepFrame] at halive ⊢
    split at halive
    case isFalse hsent =>
      rw [if_neg hsent, hgoto, hf]
      simp [leftOf, Point.main, Point.left]
    case isTrue hsent =>
      split at halive
      case isTrue hb =>
        rw [if_pos hsent, if_pos hb, hgoto, hf]
        simp [leftOf, Point.main, Point.left]
      case isFalse =>
        -- `SIG_DFL` ends the process here.
        rw [Sys.arrive, hdef] at halive
        cases halive
  | complain failed =>
    have hframes : (Fatal.stepFrame s t m below sent (.complain failed)).frames t =
        ⟨m, .exit failed⟩ :: below := hgoto (.exit failed)
    simp only [hframes, hf, leftOf, Point.main, Point.left]
    simp
  | exit => cases halive
  | leave =>
    have hframes : (Fatal.stepFrame s t m below sent .leave).frames t = below := stack_self _
    simp only [hframes, hf, leftOf, Point.main, Point.left]
    simp

theorem Sys.Inv.left_step (h : s.Inv) (hw : s.handlerTid = some t) {a : Act T}
    (hstep : Step s a s') (halive : s'.ended = none) :
    (if Act.runs t a then 1 else 0) + leftOf (s'.frames t) ≤
      leftOf (s.frames t) + 4 * (if Act.reaches t a then 1 else 0) := by
  obtain ⟨-, ⟨v, m, ha, -, rfl⟩ | ⟨v, m, rfl, -, rfl⟩ | ⟨v, m, b, rfl, rfl⟩ |
    ⟨v, sent, m, p, below, rfl, hf, rfl⟩⟩ := hstep.cases
  · have hruns : Act.runs t a = false := by
      rcases ha with rfl | rfl <;> rfl
    have hreach : Act.reaches t a = (v == t) := by
      rcases ha with rfl | rfl <;> rfl
    rw [hruns, hreach]
    by_cases hvt : v = t
    · subst v
      rw [beq_self_eq_true, if_pos rfl]
      rcases arrive_frames_self (s := s) (t := t) (m := m) with heq | ⟨-, hend⟩
      · rw [heq]
        simp [leftOf, Point.main, Point.left]
        omega
      · exact absurd halive hend
    · rw [beq_false_of_ne hvt, arrive_frames_of_ne (Ne.symm hvt)]
      simp
  · cases halive
  · simp [Act.runs]
  · by_cases hvt : v = t
    · subst v
      have hlt := h.stepFrame_left hf hw sent halive
      simp [Act.runs, Act.reaches]
      omega
    · simp [Act.runs, Act.reaches, hvt, stepFrame_frames_of_ne (Ne.symm hvt)]

theorem Run.alive {ks : List (Act T)} (h : Run Step s ks s') (halive : s'.ended = none) :
    Run (fun a l b => Step a l b ∧ b.ended = none) s ks s' := by
  induction h with
  | nil => exact .nil _
  | cons hstep hrest ih =>
    refine .cons ⟨hstep, ?_⟩ (ih halive)
    cases hrest with
    | nil => exact halive
    | cons hnext _ => exact hnext.cases.1

/-- Only an exchange makes a thread the one that reports. -/
theorem Sys.Inv.wins (h : s.Inv) (hnone : s.handlerTid = none) {a : Act T} (hstep : Step s a s')
    (hw : s'.handlerTid = some t) :
    ∃ sent m below, a = .turn t sent ∧ s.frames t = ⟨m, .exchange⟩ :: below ∧
      s' = { s.goto t m below .banner with handlerTid := some t } := by
  obtain ⟨-, ⟨v, m, -, -, rfl⟩ | ⟨v, m, -, -, rfl⟩ | ⟨v, m, b, -, rfl⟩ |
    ⟨v, sent, m, p, below, ha, hf, rfl⟩⟩ := hstep.cases
  · rw [(arrive_persists (s := s)).2.1, hnone] at hw
    cases hw
  · rw [show s.handlerTid = some t from hw] at hnone
    cases hnone
  · rw [show s.handlerTid = some t from hw] at hnone
    cases hnone
  · have hp : p = .exchange := by
      refine (h.quiet hnone).2.2 v ⟨m, p⟩ ?_
      rw [hf]
      exact List.mem_cons_self
    subst hp
    simp only [Fatal.stepFrame, hnone] at hw ⊢
    obtain rfl : v = t := Option.some.inj hw
    exact ⟨sent, m, below, ha, hf, rfl⟩

/-- From the exchange that succeeds on, the thread that reports can always take a step, and the
process has ended after six of them, four more for each signal that reaches the thread. -/
theorem process_ends {blocked : T → Signum → Bool} {ls ks : List (Act T)} {w v : Sys T} {a : Act T}
    (h : Run Step (start blocked) ls s) (hnone : s.handlerTid = none) (hstep : Step s a w)
    (hw : w.handlerTid = some t) (hk : Run Step w ks v) (halive : v.ended = none) :
    turns t ks ≤ 5 + 4 * arrivals t ks ∧ ∀ sent, ∃ v', Step v (.turn t sent) v' := by
  have hinv : s.Inv := (Sys.Inv.start blocked).run h
  have hleft : leftOf (w.frames t) = 6 := by
    obtain ⟨_, m, below, -, -, rfl⟩ := hinv.wins hnone hstep hw
    have hframes : (s.goto t m below .banner).frames t = ⟨m, .banner⟩ :: below :=
      Sys.stack_self _
    exact congrArg leftOf hframes
  have hbound := Run.potential (I := fun s : Sys T => s.Inv ∧ s.handlerTid = some t)
    (fun s => leftOf (s.frames t)) (Act.runs t) (Act.reaches t) 4
    (fun s a s' hs hstep => ⟨hs.1.step hstep.1, hstep.1.persists.2 t hs.2⟩)
    (fun s a s' hs hstep => hs.1.left_step hs.2 hstep.1 hstep.2)
    (Run.alive hk halive) ⟨hinv.step hstep, hw⟩
  have hwin := (((hinv.step hstep).run hk).winner t ((Run.persists hk).2 t hw))
  have hpos := hwin.left_pos
  constructor
  · unfold turns arrivals
    rw [hleft] at hbound
    omega
  · intro sent
    cases hf : v.frames t with
    | nil =>
      rw [hf] at hpos
      cases hpos
    | cons f below => exact ⟨_, Step.turn halive hf sent⟩

theorem process_ends_nested :
    let s := after (start fun (_ : Bool) _ => false) [.deliver true .sigabrt]
    let w := after s [.turn true true]
    let ks := [.turn true true, .fault true .sigsegv, .turn true true, .turn true true]
    turns true ks ≤ 5 + 4 * arrivals true ks ∧
      ∀ sent, ∃ v', Step (after w ks) (.turn true sent) v' :=
  process_ends (after_run rfl) rfl (after_step (a := .turn true true) rfl) rfl (after_run rfl) rfl

/-- The report of the thread in `handler_tid` is printed, but for the complaint of
`reraise_fatal`. -/
def Complete (s : Sys T) : Prop :=
  ∃ t m, s.handlerTid = some t ∧ [Line.banner m t, .backtrace t] <+: s.err

/-- In the run `ls` to `s` a thread won `handler_tid`, and `m` reached it again after that and has
its default back. -/
def Again (blocked : T → Signum → Bool) (ls : List (Act T)) (s : Sys T) (m : Signum) : Prop :=
  s.installed m = false ∧ ∃ t ks sent us v w, ls = ks ++ .turn t sent :: us ∧
    Run Step (start blocked) ks v ∧ v.handlerTid = none ∧ 0 < arrivals t ks ∧
    Step v (.turn t sent) w ∧ w.handlerTid = some t ∧ Run Step w us s ∧ Arrives us t m

/-- The handlers that interrupt the one that reports. -/
def above (fs : List (Frame T)) : List (Frame T) := fs.takeWhile fun f => !f.point.main

omit [DecidableEq T] in
theorem above_main (h : p.main = true) (fs : List (Frame T)) : above (⟨m, p⟩ :: fs) = [] := by
  unfold above
  rw [List.takeWhile_cons_of_neg]
  simp [h]

omit [DecidableEq T] in
theorem above_nested (h : p.main = false) (fs : List (Frame T)) :
    above (⟨m, p⟩ :: fs) = ⟨m, p⟩ :: above fs := by
  unfold above
  rw [List.takeWhile_cons_of_pos]
  simp [h]

omit [DecidableEq T] in
theorem Arrives.append {ls : List (Act T)} (h : Arrives ls t m) (ks : List (Act T)) :
    Arrives (ls ++ ks) t m :=
  h.imp (List.mem_append_left ks) (List.mem_append_left ks)

theorem Complete.mono (h : Complete s) {a : Act T} (hstep : Step s a s') : Complete s' := by
  obtain ⟨t, m, hw, hp⟩ := h
  exact ⟨t, m, hstep.persists.2 t hw, hp.trans hstep.persists.1⟩

/-- A step of a handler on the thread that reports brings no new handler above the one that
does. -/
theorem Sys.Inv.stepFrame_above (h : s.Inv) (hf : s.frames t = ⟨m, p⟩ :: below)
    (hw : s.handlerTid = some t) (sent : Bool) :
    ∀ f ∈ above ((Fatal.stepFrame s t m below sent p).frames t),
      ∃ g ∈ above (s.frames t), f.signum = g.signum := by
  have hself : ∀ q, (s.goto t m below q).frames t = ⟨m, q⟩ :: below := fun q => stack_self _
  have hmain : ∀ (fs : List (Frame T)) q, q.main = true → fs = ⟨m, q⟩ :: below →
      ∀ f ∈ above fs, ∃ g ∈ above (s.frames t), f.signum = g.signum := by
    rintro fs q hq rfl f hmem
    rw [above_main hq] at hmem
    cases hmem
  have hnested : p.main = false → ∀ (fs : List (Frame T)) q, q.main = false →
      fs = ⟨m, q⟩ :: below → ∀ f ∈ above fs, ∃ g ∈ above (s.frames t), f.signum = g.signum := by
    rintro hp fs q hq rfl
    rw [hf, above_nested hp, above_nested hq]
    refine List.forall_mem_cons.mpr ⟨⟨_, List.mem_cons_self, rfl⟩, fun f hmem => ?_⟩
    exact ⟨f, List.mem_cons_of_mem _ hmem, rfl⟩
  cases p with
  | exchange =>
    simp only [Fatal.stepFrame, hw]
    exact hnested rfl _ (.compare t) rfl (hself _)
  | compare v =>
    have hv : v = t := Option.some.inj ((h.expected t ⟨m, .compare v⟩ (by
      rw [hf]
      exact List.mem_cons_self) v rfl).symm.trans hw)
    simp only [Fatal.stepFrame, if_pos hv]
    exact hnested rfl _ .restore rfl (hself _)
  | restore => exact hnested rfl _ .leave rfl (hself _)
  | leave =>
    intro f hmem
    rw [show (Fatal.stepFrame s t m below sent .leave).frames t = below from stack_self _] at hmem
    rw [hf, above_nested rfl]
    exact ⟨f, List.mem_cons_of_mem _ hmem, rfl⟩
  | raise =>
    obtain ⟨-, hrep, -⟩ := h.of_main hf rfl
    have hdef : (s.goto t m below (.complain false)).installed m = false := hrep.2 rfl
    simp only [Fatal.stepFrame]
    split
    · split
      · exact hmain _ (.complain false) rfl (hself _)
      · refine hmain _ (.complain false) rfl ?_
        rw [Sys.arrive, hdef]
        exact hself _
    · exact hmain _ (.complain true) rfl (hself _)
  | banner => exact hmain _ .backtrace rfl (hself _)
  | backtrace => exact hmain _ .setDefault rfl (hself _)
  | setDefault => exact hmain _ .raise rfl (hself _)
  | complain failed => exact hmain _ (.exit failed) rfl (hself _)
  | exit failed => exact hmain _ (.exit failed) rfl hf

/-- A handler that resets a disposition has reported, or has interrupted the one that reports. -/
theorem Sys.Inv.stepFrame_installed (h : s.Inv) (hf : s.frames t = ⟨m, p⟩ :: below) (sent : Bool)
    {k : Signum} (hk : (Fatal.stepFrame s t m below sent p).installed k = false) :
    s.installed k = false ∨ Complete s ∨ k = m ∧ s.handlerTid = some t ∧ p.main = false := by
  have hmem : ⟨m, p⟩ ∈ s.frames t := by
    rw [hf]
    exact List.mem_cons_self
  have hset : ∀ s' : Sys T, s'.installed = s.installed → (s'.setDefault m).installed k = false →
      s.installed k = false ∨ k = m := by
    intro s' heq hk
    by_cases hkm : k = m
    · exact Or.inr hkm
    · have hold : (s'.setDefault m).installed k = s'.installed k := update_of_ne hkm ..
      rw [hold, heq] at hk
      exact Or.inl hk
  cases p with
  | restore =>
    rcases hset _ rfl hk with hold | hkm
    · exact Or.inl hold
    · have hw : s.handlerTid = some t := by
        cases hw : s.handlerTid with
        | none => cases (h.quiet hw).2.2 t _ hmem
        | some w =>
          by_cases htw : t = w
          · rw [htw]
          · cases h.others w hw t htw _ hmem
      exact Or.inr (Or.inr ⟨hkm, hw, rfl⟩)
  | setDefault =>
    obtain ⟨hw, hrep, -⟩ := h.of_main hf rfl
    exact Or.inr (Or.inl ⟨t, m, hw, Option.some.inj hrep.1 ▸ List.prefix_refl _⟩)
  | exchange =>
    simp only [Fatal.stepFrame] at hk
    split at hk <;> exact Or.inl hk
  | raise =>
    simp only [Fatal.stepFrame] at hk
    split at hk
    · split at hk
      · exact Or.inl hk
      · rw [(arrive_persists (s := s.goto t m below (.complain false))).2.2] at hk
        exact Or.inl hk
    · exact Or.inl hk
  | compare | banner | backtrace | complain | exit | leave => exact Or.inl hk

/-- What the steps `us` since the exchange of `t` say about its handlers and the dispositions. -/
structure Known (t : T) (us : List (Act T)) (s : Sys T) : Prop where
  inv : s.Inv
  winner : s.handlerTid = some t
  nested : ∀ f ∈ above (s.frames t), Arrives us t f.signum
  reset : ∀ m, s.installed m = false → Complete s ∨ Arrives us t m

theorem Known.step {us : List (Act T)} {a : Act T} (h : Known t us s) (hstep : Step s a s') :
    Known t (us ++ [a]) s' := by
  have hinv : s'.Inv := h.inv.step hstep
  have hw : s'.handlerTid = some t := hstep.persists.2 t h.winner
  have hold : ∀ f ∈ above (s.frames t), Arrives (us ++ [a]) t f.signum := fun f hf =>
    (h.nested f hf).append _
  have hkeep : ∀ {k : Signum}, s.installed k = false → Complete s' ∨ Arrives (us ++ [a]) t k :=
    fun hk => (h.reset _ hk).imp (fun hc => hc.mono hstep) fun harr => harr.append _
  obtain ⟨-, ⟨v, m, ha, -, rfl⟩ | ⟨v, m, -, -, rfl⟩ | ⟨v, m, b, -, rfl⟩ |
    ⟨v, sent, m, p, below, -, hf, rfl⟩⟩ := hstep.cases
  · refine ⟨hinv, hw, ?_, fun k hk => hkeep ?_⟩
    · by_cases hvt : v = t
      · subst v
        rcases arrive_frames_self (s := s) (t := t) (m := m) with heq | ⟨heq, -⟩
        · have hnew : Arrives (us ++ [a]) t m := by
            rcases ha with rfl | rfl
            · exact Or.inl (List.mem_append_right _ List.mem_cons_self)
            · exact Or.inr (List.mem_append_right _ List.mem_cons_self)
          rw [heq, above_nested rfl]
          exact List.forall_mem_cons.mpr ⟨hnew, hold⟩
        · rw [heq]
          exact hold
      · rw [arrive_frames_of_ne (Ne.symm hvt)]
        exact hold
    · rwa [(arrive_persists (s := s)).2.2] at hk
  · exact ⟨hinv, hw, hold, fun k hk => hkeep hk⟩
  · exact ⟨hinv, hw, hold, fun k hk => hkeep hk⟩
  · refine ⟨hinv, hw, ?_, fun k hk => ?_⟩
    · by_cases hvt : v = t
      · subst v
        intro f hmem
        obtain ⟨g, hg, heq⟩ := h.inv.stepFrame_above hf h.winner sent f hmem
        rw [heq]
        exact hold g hg
      · rw [stepFrame_frames_of_ne (Ne.symm hvt)]
        exact hold
    · rcases h.inv.stepFrame_installed hf sent hk with hdef | hc | ⟨rfl, hv, hp⟩
      · exact hkeep hdef
      · exact Or.inl (hc.mono hstep)
      · obtain rfl : v = t := Option.some.inj (hv.symm.trans h.winner)
        refine Or.inr (hold ⟨k, p⟩ ?_)
        rw [hf, above_nested hp]
        exact List.mem_cons_self

theorem Run.arrived {blocked : T → Signum → Bool} {ls : List (Act T)}
    (h : Run Step (start blocked) ls s) (t : T) : s.frames t = [] ∨ 0 < arrivals t ls := by
  refine h.history (I := fun ls s => s.frames t = [] ∨ 0 < arrivals t ls) (Or.inl rfl)
    fun ks a u v hu hstep => ?_
  have happ : arrivals t (ks ++ [a]) = arrivals t ks + arrivals t [a] := List.countP_append ..
  rw [happ]
  rcases hu with hnil | hpos
  case inr => exact Or.inr (Nat.add_pos_left hpos _)
  obtain ⟨-, ⟨x, m, ha, -, rfl⟩ | ⟨x, m, -, -, rfl⟩ | ⟨x, m, b, -, rfl⟩ |
    ⟨x, sent, m, p, below, -, hf, rfl⟩⟩ := hstep.cases
  · by_cases hxt : x = t
    · refine Or.inr (Nat.add_pos_right _ ?_)
      subst x
      rcases ha with rfl | rfl <;> simp [arrivals, Act.reaches]
    · rw [arrive_frames_of_ne (Ne.symm hxt)]
      exact Or.inl hnil
  · exact Or.inl hnil
  · exact Or.inl hnil
  · by_cases hxt : x = t
    · subst x
      rw [hnil] at hf
      cases hf
    · rw [stepFrame_frames_of_ne (Ne.symm hxt)]
      exact Or.inl hnil

/-- A disposition is back to its default after the report, or by a signal that came again. -/
theorem Run.reset {blocked : T → Signum → Bool} {ls : List (Act T)}
    (h : Run Step (start blocked) ls s) (hm : s.installed m = false) :
    Complete s ∨ Again blocked ls s m := by
  have hinv : s.Inv := (Sys.Inv.start blocked).run h
  obtain ⟨t, hw⟩ : ∃ t, s.handlerTid = some t := by
    cases hw : s.handlerTid with
    | none =>
      rw [(hinv.quiet hw).2.1 m] at hm
      cases hm
    | some t => exact ⟨t, rfl⟩
  rcases h.entered (P := fun s => s.handlerTid = some t) hw with
    ⟨hnone, -⟩ | ⟨ks, a, us, v, w, rfl, hks, hv, hstep, hwon, hus⟩
  · cases hnone
  have hvinv : v.Inv := (Sys.Inv.start blocked).run hks
  have hnone : v.handlerTid = none := by
    cases hx : v.handlerTid with
    | none => rfl
    | some x =>
      have hx' := (hstep.persists.2 x hx).symm.trans hwon
      exact absurd (hx.trans hx') hv
  have hrun : Run Step w us s := hus.mono fun _ _ _ hs => hs.1
  obtain ⟨sent, k, below, rfl, hf, rfl⟩ := hvinv.wins hnone hstep hwon
  have hfirst : Known t [] { v.goto t k below .banner with handlerTid := some t } := by
    refine ⟨hvinv.step hstep, rfl, fun f hmem => ?_, fun k' hk => ?_⟩
    · rw [show (v.goto t k below .banner).frames t = ⟨k, .banner⟩ :: below from Sys.stack_self _,
        above_main rfl] at hmem
      cases hmem
    · have hinst := (hvinv.quiet hnone).2.1 k'
      rw [show v.installed k' = false from hk] at hinst
      cases hinst
  have hknown : Known t us s := hrun.history hfirst fun _ _ _ _ hx hs => hx.step hs
  refine (hknown.reset m hm).imp id fun harr => ⟨hm, t, ks, sent, us, v, _, rfl, hks, hnone, ?_,
    hstep, hwon, hrun, harr⟩
  rcases Run.arrived hks t with hnil | hpos
  · rw [hf] at hnil
    cases hnil
  · exact hpos

theorem arrive_ended {d : Death} (halive : s.ended = none) (hd : (s.arrive t m).ended = some d) :
    s.installed m = false ∧ d = .killed m := by
  unfold Sys.arrive at hd
  split at hd
  · rw [show s.ended = some d from hd] at halive
    cases halive
  · next hm => exact ⟨Bool.not_eq_true _ ▸ hm, (Option.some.inj hd).symm⟩

/-- A handler ends the process only after its report. -/
theorem Sys.Inv.stepFrame_ended (h : s.Inv) (hf : s.frames t = ⟨m, p⟩ :: below) (sent : Bool)
    (halive : s.ended = none) {d : Death}
    (hd : (Fatal.stepFrame s t m below sent p).ended = some d) : Complete s := by
  have hsome : ¬ s.ended = some d := by
    rw [halive]
    exact fun h => (by cases h)
  cases p with
  | raise =>
    obtain ⟨hw, hrep, -⟩ := h.of_main hf rfl
    exact ⟨t, m, hw, Option.some.inj hrep.1 ▸ List.prefix_refl _⟩
  | exit failed =>
    obtain ⟨hw, hrep, -⟩ := h.of_main hf rfl
    exact ⟨t, m, hw, Option.some.inj hrep.1 ▸ ⟨_, rfl⟩⟩
  | exchange =>
    simp only [Fatal.stepFrame] at hd
    split at hd <;> exact absurd hd hsome
  | compare | restore | banner | backtrace | setDefault | complain | leave => exact absurd hd hsome

/-- The process ends with the report of the thread in `handler_tid` printed, unless a thread causes
a signal that it blocks, or a signal comes that has reached the reporting thread again. -/
theorem report_before_death {blocked : T → Signum → Bool} {ls : List (Act T)} {a : Act T}
    {d : Death} (h : Run Step (start blocked) ls s) (hstep : Step s a s')
    (hd : s'.ended = some d) :
    Complete s ∨ ∃ u m, d = .killed m ∧
      ((a = .fault u m ∧ s.blocked u m = true) ∨
        ((a = .deliver u m ∨ a = .fault u m) ∧ Again blocked ls s m)) := by
  have hinv : s.Inv := (Sys.Inv.start blocked).run h
  obtain ⟨halive, ⟨u, m, ha, -, rfl⟩ | ⟨u, m, ha, hb, rfl⟩ | ⟨u, m, b, -, rfl⟩ |
    ⟨u, sent, m, p, below, -, hf, rfl⟩⟩ := hstep.cases
  · obtain ⟨hm, rfl⟩ := arrive_ended halive hd
    exact (Run.reset h hm).imp id fun hagain => ⟨u, m, rfl, Or.inr ⟨ha, hagain⟩⟩
  · exact Or.inr ⟨u, m, (Option.some.inj hd).symm, Or.inl ⟨ha, hb⟩⟩
  · rw [show s.ended = some d from hd] at halive
    cases halive
  · exact Or.inl (hinv.stepFrame_ended hf sent halive hd)

theorem report_before_death_second :
    let ls := [.deliver true .sigabrt, .turn true true, .fault true .sigsegv, .turn true true,
      .turn true true, .turn true true, .turn true true]
    let s := after (start fun (_ : Bool) _ => false) ls
    Complete s ∨ ∃ u m, Death.killed .sigsegv = .killed m ∧
      ((Act.fault true .sigsegv = .fault u m ∧ s.blocked u m = true) ∨
        ((Act.fault true .sigsegv = .deliver u m ∨ Act.fault true .sigsegv = .fault u m) ∧
          Again (fun _ _ => false) ls s m)) :=
  report_before_death (after_run rfl) (after_step rfl) rfl

end Runs

end LockdepSpdk.Fatal
