import LockdepSpdk.Signal.Machine
import Mathlib.Data.Fintype.Basic

/-!
# What a hook in progress needs

The entry is filled in before the hook is installed and cleared after the default is
restored, so a hook starts with an entry. It keeps it to its end exactly when no entry
is cleared under a hook that has still to use it.
-/

namespace LockdepSpdk.Signal

set_option autoImplicit false

open Function Transition

section Steps
variable {T H I : Type} {s s' : Sys T H I} {h : Nat}

/-- Allocated and not removed. -/
def Live (s : Sys T H I) (h : Nat) : Prop := h < s.fresh ∧ h ∉ s.removed

def HookOk (s : Sys T H I) : HookPoint → Prop
  | .enter | .assertEntry | .readInfo | .readPipe => s.entry ≠ none
  | .copy h => Live s h ∧ s.entry ≠ none
  | .write h => Live s h
  | .leave => True

def RegOk (s : Sys T H I) : Option (RegPoint H) → Prop
  | some (.fill h _) => Live s h
  | some (.signalThread _) | some (.install _) => s.entry ≠ none
  | some (.restore h) => s.entry = some h
  | some (.clear h) => s.entry = some h ∧ s.disposition = none
  | some (.closeRead h) | some (.closeWrite h) | some (.delete h) => h ∈ s.removed
  | none | some (.create _ _) | some (.find _) => True

structure Inv (s : Sys T H I) : Prop where
  objs : ∀ h, Live s h → ∃ o, s.objs h = some o
  removed : ∀ h ∈ s.removed, h < s.fresh
  entry : ∀ h, s.entry = some h → Live s h
  armed : s.disposition ≠ none → s.entry ≠ none
  hooks : ∀ t k, s.hooks t = some k → HookOk s k.point
  reg : RegOk s s.reg

theorem readEntry_ok (hread : readEntry s = .ok h) : s.entry = some h := by
  unfold readEntry at hread
  split at hread
  · next heq => rw [heq, Except.ok.inj hread]
  · cases hread

theorem readEntry_of_ne (hne : s.entry ≠ none) : ∃ h, s.entry = some h ∧ readEntry s = .ok h := by
  obtain ⟨h, hentry⟩ := Option.ne_none_iff_exists'.mp hne
  refine ⟨h, hentry, ?_⟩
  unfold readEntry
  rw [hentry]

theorem readEntry_none (hnone : s.entry = none) : readEntry s = .error .null := by
  unfold readEntry
  rw [hnone]

theorem modify_removed {f : SafeHandler H I → SafeHandler H I} (hmem : h ∈ s.removed) :
    modify s h f = .error .removed := if_pos hmem

theorem Inv.modify (hinv : Inv s) {f : SafeHandler H I → SafeHandler H I} (hlive : Live s h) :
    ∃ o, Signal.modify s h f = .ok { s with objs := update s.objs h (some o) } := by
  obtain ⟨o, ho⟩ := hinv.objs h hlive
  refine ⟨f o, ?_⟩
  unfold Signal.modify
  rw [if_neg hlive.2, ho]

theorem HookOk.mono {p : HookPoint} (hk : HookOk s p) (hlive : ∀ h, Live s h → Live s' h)
    (hentry : s.entry ≠ none → s'.entry ≠ none) : HookOk s' p := by
  cases p with
  | enter | assertEntry | readInfo | readPipe => exact hentry hk
  | copy h => exact ⟨hlive h hk.1, hentry hk.2⟩
  | write h => exact hlive h hk
  | leave => exact trivial

namespace Inv

theorem setObj (hinv : Inv s) (h : Nat) (o : SafeHandler H I) :
    Inv { s with objs := update s.objs h (some o) } := by
  refine ⟨?_, hinv.removed, hinv.entry, hinv.armed, hinv.hooks, hinv.reg⟩
  intro h' hlive
  change ∃ o', update s.objs h (some o) h' = some o'
  rcases eq_or_ne h' h with rfl | hne
  · exact ⟨o, update_self ..⟩
  · rw [update_of_ne hne]
    exact hinv.objs h' hlive

theorem setRemoved (hinv : Inv s) (hmem : h ∈ s.removed) (o : Option (SafeHandler H I)) :
    Inv { s with objs := update s.objs h o } := by
  refine ⟨?_, hinv.removed, hinv.entry, hinv.armed, hinv.hooks, hinv.reg⟩
  intro h' hlive
  have hne : h' ≠ h := fun heq => hlive.2 (heq ▸ hmem)
  change ∃ o', update s.objs h o h' = some o'
  rw [update_of_ne hne]
  exact hinv.objs h' hlive

theorem setReg (hinv : Inv s) {q : Option (RegPoint H)} (hq : RegOk s q) :
    Inv { s with reg := q } :=
  ⟨hinv.objs, hinv.removed, hinv.entry, hinv.armed, hinv.hooks, hq⟩

theorem create (hinv : Inv s) (o : SafeHandler H I) (oneshot : Bool) :
    Inv { s with objs := update s.objs s.fresh (some o), fresh := s.fresh + 1,
                 reg := some (.fill s.fresh oneshot) } := by
  have hmono : ∀ h, Live s h → h < s.fresh + 1 ∧ h ∉ s.removed :=
    fun h hlive => ⟨Nat.lt_succ_of_lt hlive.1, hlive.2⟩
  refine ⟨?_, ?_, ?_, hinv.armed, ?_, ?_⟩
  · intro h hlive
    change ∃ o', update s.objs s.fresh (some o) h = some o'
    rcases eq_or_ne h s.fresh with rfl | hne
    · exact ⟨o, update_self ..⟩
    · rw [update_of_ne hne]
      exact hinv.objs h ⟨lt_of_le_of_ne (Nat.le_of_lt_succ hlive.1) hne, hlive.2⟩
  · exact fun h hmem => Nat.lt_succ_of_lt (hinv.removed h hmem)
  · exact fun h hentry => hmono h (hinv.entry h hentry)
  · exact fun t k hk => (hinv.hooks t k hk).mono hmono (fun hne => hne)
  · exact ⟨Nat.lt_succ_self _, fun hmem => Nat.lt_irrefl _ (hinv.removed _ hmem)⟩

theorem fill (hinv : Inv s) (hlive : Live s h) (oneshot : Bool) :
    Inv { s with entry := some h, reg := some (.signalThread oneshot) } := by
  refine ⟨hinv.objs, hinv.removed, ?_, fun _ => nofun, ?_, nofun⟩
  · intro h' heq
    obtain rfl := Option.some.inj heq
    exact hlive
  · exact fun t k hk => (hinv.hooks t k hk).mono (fun _ hl => hl) (fun _ => nofun)

theorem clear (hinv : Inv s) (hentry : s.entry = some h) (hdisp : s.disposition = none)
    (hspares : ∀ t k, s.hooks t = some k → k.point.endangered h = false) :
    Inv { s with entry := none, removed := h :: s.removed, reg := some (.closeRead h) } := by
  refine ⟨?_, ?_, nofun, fun hne => absurd hdisp hne, ?_, List.mem_cons_self⟩
  · intro h' hlive
    exact hinv.objs h' ⟨hlive.1, fun hmem => hlive.2 (List.mem_cons_of_mem h hmem)⟩
  · intro h' hmem
    rcases List.mem_cons.mp hmem with rfl | hmem
    · exact (hinv.entry h' hentry).1
    · exact hinv.removed h' hmem
  · intro t k hk
    have hok := hinv.hooks t k hk
    have hsafe := hspares t k hk
    rcases hp : k.point with _ | _ | _ | _ | _ | h' | _
    case write =>
      rw [hp] at hok hsafe
      refine ⟨hok.1, fun hmem => ?_⟩
      rcases List.mem_cons.mp hmem with rfl | hmem
      · exact absurd hsafe (by simp [HookPoint.endangered])
      · exact hok.2 hmem
    case leave => exact trivial
    all_goals
      rw [hp] at hsafe
      cases hsafe

variable [DecidableEq T] {t : T} {k : Hook I} {p : HookPoint}

theorem setHook (hinv : Inv s) (k : Option (Hook I)) (hk : ∀ k', k = some k' → HookOk s k'.point) :
    Inv { s with hooks := update s.hooks t k } := by
  refine ⟨hinv.objs, hinv.removed, hinv.entry, hinv.armed, ?_, hinv.reg⟩
  intro u k' hu
  change update s.hooks t k u = some k' at hu
  rcases eq_or_ne u t with rfl | hne
  · rw [update_self] at hu
    exact hk k' hu
  · rw [update_of_ne hne] at hu
    exact hinv.hooks u k' hu

omit [DecidableEq T] in
/-- Every step of a hook finds what it uses. -/
theorem stepHook (hinv : Inv s) (hk : HookOk s p) (siginfo : I) (hp : p ≠ .leave) :
    ∃ s' q, Signal.stepHook s siginfo p = .ok (s', q) ∧ Inv s' ∧ s'.hooks = s.hooks ∧
      HookOk s' q := by
  cases p with
  | enter => exact ⟨s, _, rfl, hinv, rfl, hk⟩
  | assertEntry =>
    obtain ⟨h, _, hread⟩ := readEntry_of_ne hk
    refine ⟨s, .readInfo, ?_, hinv, rfl, hk⟩
    unfold Signal.stepHook
    rw [hread]
    rfl
  | readInfo =>
    obtain ⟨h, hentry, hread⟩ := readEntry_of_ne hk
    refine ⟨s, .copy h, ?_, hinv, rfl, hinv.entry h hentry, hk⟩
    unfold Signal.stepHook
    rw [hread]
    rfl
  | copy h =>
    obtain ⟨o, hmod⟩ := hinv.modify (f := fun o => { o with info := some siginfo }) hk.1
    refine ⟨_, .readPipe, ?_, hinv.setObj h o, rfl, hk.2⟩
    simp only [Signal.stepHook]
    rw [hmod]
    rfl
  | readPipe =>
    obtain ⟨h, hentry, hread⟩ := readEntry_of_ne hk
    refine ⟨s, .write h, ?_, hinv, rfl, hinv.entry h hentry⟩
    unfold Signal.stepHook
    rw [hread]
    rfl
  | write h =>
    obtain ⟨o, hmod⟩ := hinv.modify (f := fun o => { o with bytes := o.bytes + 1 }) hk
    refine ⟨_, .leave, ?_, hinv.setObj h o, rfl, trivial⟩
    simp only [Signal.stepHook]
    rw [hmod]
    rfl
  | leave => exact absurd rfl hp

theorem deliver (hinv : Inv s) {oneshot : Bool} (hdisp : s.disposition = some oneshot)
    (siginfo : I) :
    Inv { s with disposition := if oneshot then none else some false,
                 hooks := update s.hooks t (some ⟨siginfo, .enter⟩) } := by
  have hentry : s.entry ≠ none := hinv.armed (by rw [hdisp]; exact nofun)
  have hkept : Inv { s with disposition := if oneshot then none else some false } := by
    refine ⟨hinv.objs, hinv.removed, hinv.entry, fun _ => hentry, hinv.hooks, ?_⟩
    have hreg := hinv.reg
    rcases hp : s.reg with _ | p
    · exact trivial
    · rw [hp] at hreg
      cases p with
      | clear h =>
        have hnone : s.disposition = none := hreg.2
        rw [hdisp] at hnone
        cases hnone
      | _ => exact hreg
  apply hkept.setHook
  intro k' heq
  obtain rfl := Option.some.inj heq
  exact hentry

variable [DecidableEq H]

omit [DecidableEq T] in
theorem stepReg (hinv : Inv s) {p : RegPoint H} (hat : s.reg = some p)
    (hspares : ∀ h, p = .clear h → ∀ t k, s.hooks t = some k → k.point.endangered h = false)
    (hexec : Signal.stepReg s p = .ok s') : Inv s' := by
  have hreg := hinv.reg
  rw [hat] at hreg
  cases p with
  | create handler oneshot =>
    obtain rfl := Except.ok.inj hexec
    exact hinv.create _ oneshot
  | fill h oneshot =>
    obtain rfl := Except.ok.inj hexec
    exact hinv.fill hreg oneshot
  | signalThread oneshot =>
    obtain rfl := Except.ok.inj hexec
    exact hinv.setReg hreg
  | install oneshot =>
    obtain rfl := Except.ok.inj hexec
    exact ⟨hinv.objs, hinv.removed, hinv.entry, fun _ => hreg, hinv.hooks, trivial⟩
  | find handler =>
    unfold Signal.stepReg at hexec
    simp only at hexec
    split at hexec
    · cases hexec
    · next h hentry =>
      split at hexec
      · cases hexec
      · split at hexec
        · obtain rfl := Except.ok.inj hexec
          exact hinv.setReg hentry
        · cases hexec
  | restore h =>
    obtain rfl := Except.ok.inj hexec
    exact ⟨hinv.objs, hinv.removed, hinv.entry, fun hne => absurd rfl hne, hinv.hooks, hreg, rfl⟩
  | clear h =>
    obtain rfl := Except.ok.inj hexec
    exact hinv.clear hreg.1 hreg.2 (hspares h rfl)
  | closeRead h | closeWrite h =>
    obtain rfl := Except.ok.inj hexec
    exact (hinv.setRemoved hreg _).setReg hreg
  | delete h =>
    obtain rfl := Except.ok.inj hexec
    exact (hinv.setRemoved hreg _).setReg trivial

theorem step (hinv : Inv s) {r : T} {a : Act T H I} (hspares : Spares s a)
    (hstep : Step r s a s') : Inv s' := by
  unfold Step exec at hstep
  cases a with
  | deliver t siginfo =>
    simp only at hstep
    split at hstep
    · next oneshot hdisp _ =>
      obtain rfl := Except.ok.inj hstep
      exact hinv.deliver hdisp siginfo
    · cases hstep
  | hook t =>
    simp only at hstep
    split at hstep
    · cases hstep
    · next k hk =>
      obtain ⟨⟨u, q⟩, hexec, hok⟩ := bind_ok hstep
      have hp : k.point ≠ .leave := by
        intro heq
        rw [heq] at hexec
        cases hexec
      obtain ⟨u', q', hexec', hu, _, hq⟩ := hinv.stepHook (hinv.hooks t k hk) k.siginfo hp
      rw [hexec] at hexec'
      obtain ⟨rfl, rfl⟩ := ok_mk_inj hexec'
      obtain rfl := Except.ok.inj hok
      apply hu.setHook
      intro k' heq
      obtain rfl := Option.some.inj heq
      exact hq
  | resume t =>
    simp only at hstep
    split at hstep
    · obtain rfl := Except.ok.inj hstep
      exact hinv.setHook none nofun
    · cases hstep
  | register handler oneshot =>
    simp only at hstep
    split at hstep
    · obtain rfl := Except.ok.inj hstep
      exact hinv.setReg trivial
    · cases hstep
  | unregister handler =>
    simp only at hstep
    split at hstep
    · obtain rfl := Except.ok.inj hstep
      exact hinv.setReg trivial
    · cases hstep
  | step =>
    simp only at hstep
    split at hstep
    · next p _ hat =>
      apply hinv.stepReg hat ?_ hstep
      rintro h rfl
      exact hspares h hat
    · cases hstep

omit [DecidableEq T] [DecidableEq H] in
theorem start : Inv (start : Sys T H I) :=
  ⟨fun _ hlive => absurd hlive.1 (Nat.not_lt_zero _), nofun, nofun, fun hne => absurd rfl hne,
    nofun, trivial⟩

omit [DecidableEq T] [DecidableEq H] in
theorem ok_sound (u : Sys T H I) :
    (Except.ok u : Except Halt (Sys T H I)) ≠ .error .null ∧
      (Except.ok u : Except Halt (Sys T H I)) ≠ .error .removed := by
  constructor
  · intro heq
    cases heq
  · intro heq
    cases heq

omit [DecidableEq T] [DecidableEq H] in
theorem error_sound {x : Halt} (hnull : x ≠ .null) (hremoved : x ≠ .removed) :
    (Except.error x : Except Halt (Sys T H I)) ≠ .error .null ∧
      (Except.error x : Except Halt (Sys T H I)) ≠ .error .removed :=
  ⟨fun heq => hnull (Except.error.inj heq), fun heq => hremoved (Except.error.inj heq)⟩

omit [DecidableEq T] [DecidableEq H] in
theorem disabled_sound : (Except.error .disabled : Except Halt (Sys T H I)) ≠ .error .null ∧
    (Except.error .disabled : Except Halt (Sys T H I)) ≠ .error .removed :=
  error_sound (by decide) (by decide)

omit [DecidableEq T] [DecidableEq H] in
theorem assert_sound : (Except.error .assert : Except Halt (Sys T H I)) ≠ .error .null ∧
    (Except.error .assert : Except Halt (Sys T H I)) ≠ .error .removed :=
  error_sound (by decide) (by decide)

/-- No hook finds NULL or a removed `safe_handler`. -/
theorem no_fault (hinv : Inv s) (r : T) (a : Act T H I) :
    exec r s a ≠ .error .null ∧ exec r s a ≠ .error .removed := by
  unfold exec
  cases a with
  | deliver t siginfo | register handler oneshot | unregister handler | resume t =>
    simp only
    split
    · exact ok_sound _
    · exact disabled_sound
  | hook t =>
    simp only
    split
    · exact disabled_sound
    · next k hk =>
      by_cases hp : k.point = .leave
      · rw [hp]
        exact disabled_sound
      · obtain ⟨s', q, hexec, _⟩ := hinv.stepHook (hinv.hooks t k hk) k.siginfo hp
        rw [hexec]
        exact ok_sound _
  | step =>
    simp only
    split
    · next p _ hat =>
      cases p with
      | find handler =>
        unfold Signal.stepReg
        simp only
        split
        · exact assert_sound
        · next h hentry =>
          obtain ⟨o, ho⟩ := hinv.objs h (hinv.entry h hentry)
          rw [ho]
          simp only
          split
          · exact ok_sound _
          · exact assert_sound
      | _ => exact ok_sound _
    · exact disabled_sound

end Inv

variable [DecidableEq T] [DecidableEq H]

/-- A run in which no entry is cleared under a hook that needs it. -/
def Sparing (r : T) (s : Sys T H I) (a : Act T H I) (s' : Sys T H I) : Prop :=
  Spares s a ∧ Step r s a s'

/-- The hook on `t` fails at its next step or at the one after it. -/
def Doomed (r : T) (s : Sys T H I) (t : T) : Prop :=
  ∃ s', (s' = s ∨ Step r s (.hook t) s') ∧
    (exec r s' (.hook t) = .error .null ∨ exec r s' (.hook t) = .error .removed)

theorem exec_hook_error {r t : T} {k : Hook I} (hk : s.hooks t = some k) {e : Halt}
    (h : stepHook s k.siginfo k.point = .error e) : exec r s (.hook t) = .error e := by
  unfold exec
  simp only [hk, h]
  rfl

theorem exec_hook_ok {r t : T} {k : Hook I} (hk : s.hooks t = some k) {q : HookPoint}
    (h : stepHook s k.siginfo k.point = .ok (s', q)) :
    Step r s (.hook t) { s' with hooks := update s'.hooks t (some { k with point := q }) } := by
  unfold Step exec
  simp only [hk, h]
  rfl

/-- Without an entry, a hook that has still to read it or to write to what was removed fails. -/
theorem doomed {r t : T} {k : Hook I} (hnone : s.entry = none) (hmem : h ∈ s.removed)
    (hobjs : ∀ h, Live s h → ∃ o, s.objs h = some o) (hk : s.hooks t = some k)
    (hcopy : ∀ h', k.point = .copy h' → h' < s.fresh) (hp : k.point.endangered h = true) :
    Doomed r s t := by
  rcases k with ⟨siginfo, p⟩
  cases p with
  | enter =>
    refine ⟨_, Or.inr (exec_hook_ok hk rfl), Or.inl ?_⟩
    apply exec_hook_error (update_self ..)
    simp only [stepHook, readEntry, hnone]
    rfl
  | assertEntry | readInfo | readPipe =>
    refine ⟨s, Or.inl rfl, Or.inl (exec_hook_error hk ?_)⟩
    simp only [stepHook]
    rw [readEntry_none hnone]
    rfl
  | copy h' =>
    by_cases hgone : h' ∈ s.removed
    · refine ⟨s, Or.inl rfl, Or.inr (exec_hook_error hk ?_)⟩
      simp only [stepHook]
      rw [modify_removed hgone]
      rfl
    · obtain ⟨o, ho⟩ := hobjs h' ⟨hcopy h' rfl, hgone⟩
      have hcopied : stepHook s siginfo (.copy h') =
          .ok ({ s with objs := update s.objs h' (some { o with info := some siginfo }) },
            .readPipe) := by
        simp only [stepHook, modify, ho]
        rw [if_neg hgone]
        rfl
      refine ⟨_, Or.inr (exec_hook_ok hk hcopied), Or.inl (exec_hook_error (update_self ..) ?_)⟩
      simp only [stepHook, readEntry, hnone]
      rfl
  | write h' =>
    obtain rfl : h' = h := by simpa [HookPoint.endangered] using hp
    refine ⟨s, Or.inl rfl, Or.inr (exec_hook_error hk ?_)⟩
    simp only [stepHook]
    rw [modify_removed hmem]
    rfl
  | leave => cases hp

/-- A step that clears the entry under a hook that needs it leads to a failure of that hook. -/
theorem Inv.cleared (hinv : Inv s) {r : T} {a : Act T H I} (hstep : Step r s a s')
    (hnot : ¬ Spares s a) : ∃ t, Doomed r s' t := by
  cases a with
  | step =>
    unfold Spares at hnot
    push Not at hnot
    obtain ⟨h, hat, t, k, hk, hp⟩ := hnot
    have hreg := hinv.reg
    rw [hat] at hreg
    unfold Step exec at hstep
    simp only [hat] at hstep
    split at hstep
    · next p _ heq =>
      obtain rfl := Option.some.inj heq
      obtain rfl := Except.ok.inj hstep
      have hok := hinv.hooks t k hk
      refine ⟨t, doomed rfl List.mem_cons_self ?_ hk ?_ (Bool.eq_true_of_not_eq_false hp)⟩
      · intro h' hlive
        exact hinv.objs h' ⟨hlive.1, fun hmem => hlive.2 (List.mem_cons_of_mem h hmem)⟩
      · intro h' heq
        rw [heq] at hok
        exact hok.1.1
    · cases hstep
  | _ => exact absurd trivial hnot

/-- In every run whose `unregister_handler` clears the entry under no hook that needs it, no hook
reads NULL or writes to a removed `safe_handler`; and from the states of such a run, to clear it
under one that does leads to just that. -/
theorem hooks_find_entry {r : T} {as : List (Act T H I)}
    (hrun : Run (Sparing r) Signal.start as s) :
    (∀ a, exec r s a ≠ .error .null ∧ exec r s a ≠ .error .removed) ∧
    ∀ a s', Step r s a s' → ¬ Spares s a → ∃ t, Doomed r s' t := by
  have hinv : Inv s := hrun.invariant (fun _ _ _ hs hstep => hs.step hstep.1 hstep.2) Inv.start
  exact ⟨hinv.no_fault r, fun a s' hstep hnot => hinv.cleared hstep hnot⟩

/-- The entry that a step of the registering thread clears. -/
def clearing : Option (RegPoint H) → Option Nat
  | some (.clear h) => some h
  | _ => none

omit [DecidableEq H] in
theorem clearing_eq {p : Option (RegPoint H)} : clearing p = some h ↔ p = some (.clear h) := by
  rcases p with _ | p
  · exact iff_of_false nofun nofun
  · cases p <;> simp [clearing]

instance [Fintype T] (s : Sys T H I) (a : Act T H I) : Decidable (Spares s a) :=
  match a with
  | .step => decidable_of_iff (∀ h ∈ clearing s.reg, ∀ t, ∀ k ∈ s.hooks t,
      k.point.endangered h = false) (by
    constructor
    · intro hall h hat
      exact hall h (clearing_eq.mpr hat)
    · intro hall h hat
      exact hall h (clearing_eq.mp hat))
  | .deliver _ _ | .hook _ | .resume _ | .register _ _ | .unregister _ =>
    inferInstanceAs (Decidable True)

/-- The hook has written its byte when the entry is cleared, but has not returned. -/
theorem hooks_find_entry_once : ∃ s : Sys Bool Unit Unit, s.removed = [0] ∧
    ∀ a, exec false s a ≠ .error .null ∧ exec false s a ≠ .error .removed := by
  have hrun : ∃ s ∈ execAll (exec false) (fun s a => decide (Spares s a))
      (start : Sys Bool Unit Unit)
      (.register () false :: List.replicate 4 .step ++ .deliver true () ::
        List.replicate 6 (.hook true) ++ .unregister () :: List.replicate 3 .step),
      s.removed = [0] := by
    decide +kernel
  obtain ⟨s, hs, hremoved⟩ := hrun
  have hrun : Run (Sparing false) Signal.start _ s :=
    execAll_run (fun _ _ _ hok hexec => ⟨of_decide_eq_true hok, hexec⟩) hs
  exact ⟨s, hremoved, (hooks_find_entry hrun).1⟩

/-- The other thread is inside the hook when the entry is cleared: it reads NULL, or, when it had
read the entry for its last write, it writes to a removed `safe_handler`. -/
theorem hook_loses_entry : ∃ (s u : Sys Bool Unit Unit) (as bs : List (Act Bool Unit Unit)),
    Run (Step false) start as s ∧ exec false s (.hook true) = .error .null ∧
    Run (Step false) start bs u ∧ exec false u (.hook true) = .error .removed := by
  have hnull : ∃ s ∈ execAll (exec false) (fun _ _ => true) (start : Sys Bool Unit Unit)
      (.register () false :: List.replicate 4 .step ++ .deliver true () :: .hook true ::
        .unregister () :: List.replicate 3 .step),
      (s.hooks true).map Hook.point = some .assertEntry ∧ s.entry = none := by
    decide +kernel
  have hremoved : ∃ s ∈ execAll (exec false) (fun _ _ => true) (start : Sys Bool Unit Unit)
      (.register () false :: List.replicate 4 .step ++ .deliver true () ::
        List.replicate 5 (.hook true) ++ .unregister () :: List.replicate 3 .step),
      (s.hooks true).map Hook.point = some (.write 0) ∧ 0 ∈ s.removed := by
    decide +kernel
  obtain ⟨s, hs, hat, hentry⟩ := hnull
  obtain ⟨u, hu, hat', hmem⟩ := hremoved
  obtain ⟨k, hk, hp⟩ := Option.map_eq_some_iff.mp hat
  obtain ⟨k', hk', hp'⟩ := Option.map_eq_some_iff.mp hat'
  refine ⟨s, u, _, _, execAll_run (fun _ _ _ _ hexec => hexec) hs, exec_hook_error hk ?_,
    execAll_run (fun _ _ _ _ hexec => hexec) hu, exec_hook_error hk' ?_⟩
  · rw [hp]
    simp only [stepHook, readEntry, hentry]
    rfl
  · rw [hp']
    simp only [stepHook]
    rw [modify_removed hmem]
    rfl

end Steps

end LockdepSpdk.Signal
