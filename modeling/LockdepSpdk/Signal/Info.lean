import LockdepSpdk.Signal.Entry

/-!
# One signal through the pipe and the slot

What the polling loop and the hooks do to one signal: the bytes go through a queue,
their `siginfo_t` through one slot. As many reports as bytes; and each report is about
its own signal as long as the slot is not overwritten while it is needed.
-/

namespace LockdepSpdk.Signal

set_option autoImplicit false

open Function Transition

def EntryPoint.hand (signum : Nat) : EntryPoint → Option (Nat × Look × Reads)
  | .report m h look seen => if m = signum then some (h, look, seen) else none
  | _ => none

/-- What concerns one signal. -/
structure View (T H : Type) where
  sig : Sys T H Siginfo
  queued : List Siginfo
  dispatched : List Reads
  hand : Option (Nat × Look × Reads)

section Steps
variable {T H : Type}

def Async.view (s : Async T H) (signum : Nat) : View T H :=
  ⟨s.sigs signum, s.queued signum, s.dispatched signum, s.point.hand signum⟩

/-- What the polling thread does to a signal. -/
inductive Turn : View T H → View T H → Prop where
  | still (v : View T H) : Turn v v
  | take {v : View T H} {h : Nat} {o : SafeHandler H Siginfo} : v.hand = none →
      v.sig.entry = some h → v.sig.objs h = some o → 0 < o.bytes →
      Turn v { v with
        sig := { v.sig with objs := update v.sig.objs h (some { o with bytes := o.bytes - 1 }) }
        hand := some (h, .switch, []) }
  | look {v : View T H} {h : Nat} {look : Look} {seen : Reads} {f : Field}
      {o : SafeHandler H Siginfo} : v.hand = some (h, look, seen) → look.field = some f →
      v.sig.objs h = some o →
      Turn v { v with
        hand := some (h, look.after ((o.info.getD .zero).get f),
          seen ++ [(f, (o.info.getD .zero).get f)]) }
  | call {v : View T H} {h : Nat} {look : Look} {seen : Reads} : v.hand = some (h, look, seen) →
      look.field = none →
      Turn v { v with dispatched := v.dispatched ++ [seen], hand := none }

theorem view_eq {s s' : Async T H} {n : Nat} (hsigs : s'.sigs n = s.sigs n)
    (hqueued : s'.queued n = s.queued n) (hdispatched : s'.dispatched n = s.dispatched n)
    (hhand : s'.point.hand n = s.point.hand n) : s'.view n = s.view n := by
  unfold Async.view
  rw [hsigs, hqueued, hdispatched, hhand]

theorem turn_still {s s' : Async T H} {n : Nat} (hsigs : s'.sigs n = s.sigs n)
    (hqueued : s'.queued n = s.queued n) (hdispatched : s'.dispatched n = s.dispatched n)
    (hhand : s'.point.hand n = s.point.hand n) : Turn (s.view n) (s'.view n) := by
  rw [view_eq hsigs hqueued hdispatched hhand]
  exact .still _

theorem hand_self (n h : Nat) (look : Look) (seen : Reads) :
    (EntryPoint.report n h look seen).hand n = some (h, look, seen) := if_pos rfl

theorem hand_ne {m n : Nat} (hne : m ≠ n) (h : Nat) (look : Look) (seen : Reads) :
    (EntryPoint.report m h look seen).hand n = none := if_neg hne

theorem scanSignal_turn {s s' : Async T H} {m : Nat} (hpoint : s.point = .scan m)
    (h : scanSignal s m = .ok s') (n : Nat) : Turn (s.view n) (s'.view n) := by
  have hhand : s.point.hand n = none := by
    rw [hpoint]
    exact rfl
  unfold scanSignal at h
  split at h
  · split at h
    · obtain rfl := Except.ok.inj h
      exact turn_still rfl rfl rfl hhand.symm
    · next g hentry =>
      split at h
      · cases h
      · next o ho =>
        split at h
        · next hbytes =>
          obtain rfl := Except.ok.inj h
          by_cases hm : m = n
          · subst hm
            have htake : Turn (s.view m) _ := .take hhand hentry ho hbytes
            unfold Async.view
            simp only [update_self, hand_self]
            exact htake
          · refine turn_still (update_of_ne (Ne.symm hm) _ _) rfl rfl ?_
            rw [hand_ne hm, hhand]
        · obtain rfl := Except.ok.inj h
          exact turn_still rfl rfl rfl hhand.symm
  · obtain rfl := Except.ok.inj h
    exact turn_still rfl rfl rfl hhand.symm

theorem reportSignal_turn {s s' : Async T H} {m g : Nat} {look : Look} {seen : Reads}
    (hpoint : s.point = .report m g look seen) (h : reportSignal s m g look seen = .ok s')
    (n : Nat) : Turn (s.view n) (s'.view n) := by
  have hself : m = n → s.point.hand n = some (g, look, seen) := by
    rintro rfl
    rw [hpoint, hand_self]
  have hother : m ≠ n → s.point.hand n = none := by
    intro hne
    rw [hpoint, hand_ne hne]
  unfold reportSignal at h
  split at h
  · next f hfield =>
    split at h
    · cases h
    · next o ho =>
      obtain rfl := Except.ok.inj h
      by_cases hm : m = n
      · subst hm
        have hlook : Turn (s.view m) _ := .look (hself rfl) hfield ho
        unfold Async.view
        simp only [hand_self]
        exact hlook
      · refine turn_still rfl rfl rfl ?_
        rw [hand_ne hm, hother hm]
  · next hfield =>
    obtain rfl := Except.ok.inj h
    by_cases hm : m = n
    · subst hm
      have hcall : Turn (s.view m) _ := .call (hself rfl) hfield
      unfold Async.view
      simp only [update_self]
      exact hcall
    · exact turn_still rfl rfl (update_of_ne (Ne.symm hm) _ _) (hother hm).symm

theorem stepEntry_turn {s s' : Async T H} {r : Int} (h : stepEntry s r s.point = .ok s') (n : Nat) :
    Turn (s.view n) (s'.view n) := by
  cases hpoint : s.point with
  | scan m =>
    rw [hpoint] at h
    exact scanSignal_turn hpoint h n
  | report m g look seen =>
    rw [hpoint] at h
    exact reportSignal_turn hpoint h n
  | ended =>
    rw [hpoint] at h
    cases h
  | test =>
    rw [hpoint] at h
    obtain rfl := Except.ok.inj h
    refine turn_still rfl rfl rfl ?_
    rw [hpoint]
    simp only
    split <;> exact rfl
  | polled x =>
    rw [hpoint] at h
    obtain rfl := Except.ok.inj h
    refine turn_still rfl rfl rfl ?_
    rw [hpoint]
    simp only
    split
    · exact rfl
    · split <;> exact rfl
  | build | poll | consume =>
    rw [hpoint] at h
    obtain rfl := Except.ok.inj h
    refine turn_still rfl rfl rfl ?_
    rw [hpoint]
    exact rfl

/-- The signal is copied to the slot, and its byte is still to be written. -/
def HookPoint.copied : HookPoint → Bool
  | .readPipe | .write _ => true
  | _ => false

theorem modify_eq {s s' : Sys T H Siginfo} {g : Nat}
    {f : SafeHandler H Siginfo → SafeHandler H Siginfo} (h : modify s g f = .ok s') :
    ∃ o, s.objs g = some o ∧ s' = { s with objs := update s.objs g (some (f o)) } := by
  unfold modify at h
  split at h
  · cases h
  · split at h
    · next o ho => exact ⟨o, ho, (Except.ok.inj h).symm⟩
    · cases h

theorem queueing_pass {s : Sys T H Siginfo} {t : T} {i : Siginfo} {p : HookPoint}
    (hk : s.hooks t = some ⟨i, p⟩) (hp : ∀ g, p ≠ .write g) : queueing s (.hook t) = [] := by
  unfold queueing
  simp only [hk]
  cases p with
  | write g => exact absurd rfl (hp g)
  | _ => exact rfl

theorem queueing_write {s : Sys T H Siginfo} {t : T} {i : Siginfo} {g : Nat}
    (hk : s.hooks t = some ⟨i, .write g⟩) : queueing s (.hook t) = [i] := by
  unfold queueing
  simp only [hk]

section
variable [DecidableEq T]

/-- What a delivered signal does on its way into the pipe, and what it queues. A pass changes
neither the slot nor the pipe. -/
inductive HookTurn (s : Sys T H Siginfo) : Act T H Siginfo → Sys T H Siginfo → List Siginfo → Prop
    where
  | pass {a : Act T H Siginfo} {t : T} (d : Option Bool) (k : Option (Hook Siginfo)) :
      (∀ k' ∈ k, k'.point.copied = true → ∃ k₀, s.hooks t = some k₀ ∧ k₀.point.copied = true ∧
        k₀.siginfo = k'.siginfo) →
      (∀ k' ∈ k, ∀ g, k'.point = .copy g ∨ k'.point = .write g → s.entry = some g) →
      HookTurn s a { s with disposition := d, hooks := update s.hooks t k } []
  | copy {t : T} {k : Hook Siginfo} {g : Nat} {o : SafeHandler H Siginfo} : s.hooks t = some k →
      k.point = .copy g → s.objs g = some o →
      HookTurn s (.hook t) { s with
        objs := update s.objs g (some { o with info := some k.siginfo })
        hooks := update s.hooks t (some { k with point := .readPipe }) } []
  | write {t : T} {k : Hook Siginfo} {g : Nat} {o : SafeHandler H Siginfo} : s.hooks t = some k →
      k.point = .write g → s.objs g = some o →
      HookTurn s (.hook t) { s with
        objs := update s.objs g (some { o with bytes := o.bytes + 1 })
        hooks := update s.hooks t (some { k with point := .leave }) } [k.siginfo]

/-- No registration begins. -/
def Staying : Act T H Siginfo → Prop
  | .register _ _ | .unregister _ => False
  | _ => True

theorem hook_pass {s : Sys T H Siginfo} {t : T} {i : Siginfo} {p q : HookPoint}
    (hk : s.hooks t = some ⟨i, p⟩) (hcopied : q.copied = true → p.copied = true)
    (hentry : ∀ g, q = .copy g ∨ q = .write g → s.entry = some g) :
    HookTurn s (.hook t) { s with hooks := update s.hooks t (some ⟨i, q⟩) } [] := by
  refine .pass s.disposition (some ⟨i, q⟩) ?_ ?_
  · intro k' hk' hq
    obtain rfl := Option.some.inj hk'
    exact ⟨_, hk, hcopied hq, rfl⟩
  · intro k' hk'
    obtain rfl := Option.some.inj hk'
    exact hentry

theorem hook_turn {s s' : Sys T H Siginfo} {t : T} {k : Hook Siginfo} {q : HookPoint}
    (hk : s.hooks t = some k) (h : stepHook s k.siginfo k.point = .ok (s', q)) :
    HookTurn s (.hook t) { s' with hooks := update s'.hooks t (some { k with point := q }) }
      (queueing s (.hook t)) := by
  obtain ⟨i, p⟩ := k
  cases p with
  | enter =>
    rw [queueing_pass hk fun _ => HookPoint.noConfusion]
    obtain ⟨rfl, rfl⟩ := ok_mk_inj h
    refine hook_pass hk Bool.noConfusion ?_
    rintro g (hg | hg) <;> cases hg
  | assertEntry =>
    rw [queueing_pass hk fun _ => HookPoint.noConfusion]
    obtain ⟨g, -, h⟩ := bind_ok h
    obtain ⟨rfl, rfl⟩ := ok_mk_inj h
    refine hook_pass hk Bool.noConfusion ?_
    rintro g (hg | hg) <;> cases hg
  | readInfo =>
    rw [queueing_pass hk fun _ => HookPoint.noConfusion]
    obtain ⟨g, hread, h⟩ := bind_ok h
    obtain ⟨rfl, rfl⟩ := ok_mk_inj h
    refine hook_pass hk Bool.noConfusion ?_
    rintro g' (hg | hg) <;> cases hg
    exact readEntry_ok hread
  | copy g =>
    rw [queueing_pass hk fun _ => HookPoint.noConfusion]
    obtain ⟨s1, hmod, h⟩ := bind_ok h
    obtain ⟨rfl, rfl⟩ := ok_mk_inj h
    obtain ⟨o, ho, rfl⟩ := modify_eq hmod
    exact .copy hk rfl ho
  | readPipe =>
    rw [queueing_pass hk fun _ => HookPoint.noConfusion]
    obtain ⟨g, hread, h⟩ := bind_ok h
    obtain ⟨rfl, rfl⟩ := ok_mk_inj h
    refine hook_pass hk (fun _ => rfl) ?_
    rintro g' (hg | hg) <;> cases hg
    exact readEntry_ok hread
  | write g =>
    rw [queueing_write hk]
    obtain ⟨s1, hmod, h⟩ := bind_ok h
    obtain ⟨rfl, rfl⟩ := ok_mk_inj h
    obtain ⟨o, ho, rfl⟩ := modify_eq hmod
    exact .write hk rfl ho
  | leave => cases h

variable [DecidableEq H]

theorem exec_turn {s u : Sys T H Siginfo} {r : T} {a : Act T H Siginfo} (hreg : s.reg = none)
    (hstay : Staying a) (h : exec r s a = .ok u) : HookTurn s a u (queueing s a) := by
  unfold exec at h
  cases a with
  | deliver t i =>
    simp only at h
    split at h
    · obtain rfl := Except.ok.inj h
      refine .pass _ _ ?_ ?_
      · intro k' hk' hcopied
        obtain rfl := Option.some.inj hk'
        cases hcopied
      · intro k' hk' g hg
        obtain rfl := Option.some.inj hk'
        rcases hg with hg | hg <;> cases hg
    · cases h
  | hook t =>
    simp only at h
    split at h
    · cases h
    · next k hk =>
      obtain ⟨⟨s', q⟩, hstep, h⟩ := bind_ok h
      obtain rfl := Except.ok.inj h
      exact hook_turn hk hstep
  | resume t =>
    simp only at h
    split at h
    · obtain rfl := Except.ok.inj h
      refine .pass s.disposition none ?_ ?_
      · intro k' hk'
        cases hk'
      · intro k' hk'
        cases hk'
    · cases h
  | register handler oneshot => exact hstay.elim
  | unregister handler => exact hstay.elim
  | step =>
    simp only [hreg] at h
    split at h
    · next heq => cases heq
    · cases h

/-- What a step of the whole does to one signal. -/
theorem StepAsync.view {r e : T} {s s' : Async T H} {l : AsyncAct T H}
    (h : StepAsync r e s l s') (n : Nat) : Turn (s.view n) (s'.view n) ∨
      ∃ a u, l = .signal n a ∧ exec r (s.view n).sig a = .ok u ∧ s'.view n = { s.view n with
        sig := u
        queued := (s.view n).queued ++ queueing (s.view n).sig a } := by
  unfold StepAsync execAsync at h
  cases l with
  | signal m a =>
    simp only at h
    split at h
    · obtain ⟨u, hu, h⟩ := bind_ok h
      obtain rfl := Except.ok.inj h
      by_cases hm : m = n
      · subst hm
        refine .inr ⟨a, u, rfl, hu, ?_⟩
        unfold Async.view
        simp only [update_self]
      · exact .inl (turn_still (update_of_ne (Ne.symm hm) _ _) (update_of_ne (Ne.symm hm) _ _) rfl rfl)
    · cases h
  | turn x =>
    simp only at h
    split at h
    · exact .inl (stepEntry_turn h n)
    · cases h
  | shutdown =>
    obtain rfl := Except.ok.inj h
    exact .inl (turn_still rfl rfl rfl rfl)

end

/-! The bytes. -/

/-- The handler of `h` stays registered, and every byte queued is in the pipe, in the hand of the
thread, or dispatched. -/
structure Kept (h : Nat) (v : View T H) : Prop where
  entry : v.sig.entry = some h
  reg : v.sig.reg = none
  hooks : ∀ t k, v.sig.hooks t = some k → ∀ g, k.point = .copy g ∨ k.point = .write g → g = h
  hand : ∀ x ∈ v.hand, x.1 = h
  obj : ∃ o, v.sig.objs h = some o ∧
    v.queued.length = v.dispatched.length + v.hand.toList.length + o.bytes

variable {h : Nat} {v v' : View T H}

theorem Kept.turn (hkept : Kept h v) (hturn : Turn v v') : Kept h v' := by
  obtain ⟨o, ho, hcount⟩ := hkept.obj
  cases hturn with
  | still => exact hkept
  | @take g o' hnone hentry hobj hbytes =>
    obtain rfl : h = g := Option.some.inj (hkept.entry.symm.trans hentry)
    rw [ho] at hobj
    obtain rfl := Option.some.inj hobj
    refine ⟨hkept.entry, hkept.reg, hkept.hooks, ?_, _, update_self _ _ _, ?_⟩
    · intro x hx
      obtain rfl := Option.some.inj hx
      exact rfl
    · rw [hnone] at hcount
      simp only [Option.toList_none, Option.toList_some, List.length_nil,
        List.length_singleton] at hcount ⊢
      omega
  | @look g look seen f o' hhand hfield hobj =>
    refine ⟨hkept.entry, hkept.reg, hkept.hooks, ?_, o, ho, ?_⟩
    · intro x hx
      obtain rfl := Option.some.inj hx
      exact hkept.hand (g, look, seen) hhand
    · rw [hhand] at hcount
      exact hcount
  | call hhand hfield =>
    refine ⟨hkept.entry, hkept.reg, hkept.hooks, ?_, o, ho, ?_⟩
    · intro x hx
      cases hx
    · rw [hhand] at hcount
      rw [List.length_append]
      simp only [Option.toList_none, Option.toList_some, List.length_nil,
        List.length_singleton] at hcount ⊢
      omega

theorem Kept.signal [DecidableEq T] (hkept : Kept h v) {a : Act T H Siginfo}
    {u : Sys T H Siginfo} {q : List Siginfo} (hturn : HookTurn v.sig a u q) :
    Kept h { v with sig := u, queued := v.queued ++ q } := by
  obtain ⟨o, ho, hcount⟩ := hkept.obj
  have hhooks : ∀ (t : T) (k : Option (Hook Siginfo)),
      (∀ k' ∈ k, ∀ g, k'.point = .copy g ∨ k'.point = .write g → g = h) →
      ∀ t' k', update v.sig.hooks t k t' = some k' →
        ∀ g, k'.point = .copy g ∨ k'.point = .write g → g = h := by
    intro t k hk t' k' hk'
    by_cases ht : t' = t
    · subst ht
      rw [update_self] at hk'
      exact hk k' hk'
    · rw [update_of_ne ht] at hk'
      exact hkept.hooks t' k' hk'
  cases hturn with
  | pass d k hcopied hentry =>
    refine ⟨hkept.entry, hkept.reg, hhooks _ k ?_, hkept.hand, o, ho, ?_⟩
    · intro k' hk' g hg
      exact Option.some.inj ((hentry k' hk' g hg).symm.trans hkept.entry)
    · rw [List.append_nil]
      exact hcount
  | @copy t k g o' hk hpoint hobj =>
    obtain rfl : g = h := hkept.hooks t k hk g (.inl hpoint)
    rw [ho] at hobj
    obtain rfl := Option.some.inj hobj
    refine ⟨hkept.entry, hkept.reg, hhooks t _ ?_, hkept.hand, _, update_self _ _ _, ?_⟩
    · intro k' hk' g' hg'
      obtain rfl := Option.some.inj hk'
      rcases hg' with hg' | hg' <;> cases hg'
    · rw [List.append_nil]
      exact hcount
  | @write t k g o' hk hpoint hobj =>
    obtain rfl : g = h := hkept.hooks t k hk g (.inr hpoint)
    rw [ho] at hobj
    obtain rfl := Option.some.inj hobj
    refine ⟨hkept.entry, hkept.reg, hhooks t _ ?_, hkept.hand, _, update_self _ _ _, ?_⟩
    · intro k' hk' g' hg'
      obtain rfl := Option.some.inj hk'
      rcases hg' with hg' | hg' <;> cases hg'
    · rw [List.length_append, List.length_singleton]
      change v.queued.length + 1 = v.dispatched.length + v.hand.toList.length + (o.bytes + 1)
      omega

/-! The slot. -/

/-- What a report of `i` has still to read. -/
def Look.reads (i : Siginfo) : Look → Reads
  | .switch => (.code, i.code) ::
    if i.code = siUser then
      (.pid, i.pid) :: (.pid, i.pid) ::
        (if i.pid ≠ 0 then [.pid, .uid] else [.uid]).map fun f => (f, i.get f)
    else [.code, .valueInt, .valuePtr, .errno, .pid, .uid, .addr, .status].map fun f => (f, i.get f)
  | .name => (.pid, i.pid) :: (.pid, i.pid) ::
    (if i.pid ≠ 0 then [.pid, .uid] else [.uid]).map fun f => (f, i.get f)
  | .testPid => (.pid, i.pid) ::
    (if i.pid ≠ 0 then [.pid, .uid] else [.uid]).map fun f => (f, i.get f)
  | .row fs => fs.map fun f => (f, i.get f)

def Siginfo.report (i : Siginfo) : Reads := Look.switch.reads i

theorem Look.reads_some {look : Look} {f : Field} (h : look.field = some f) (i : Siginfo) :
    look.reads i = (f, i.get f) :: (look.after (i.get f)).reads i := by
  cases look with
  | switch =>
    obtain rfl := Option.some.inj h
    by_cases hcode : i.code = siUser
    · have hafter : Look.switch.after i.code = .name := if_pos hcode
      change Look.switch.reads i = (.code, i.code) :: (Look.switch.after i.code).reads i
      rw [hafter]
      unfold Look.reads
      rw [if_pos hcode]
    · have hafter : Look.switch.after i.code = .row
          [.code, .valueInt, .valuePtr, .errno, .pid, .uid, .addr, .status] := if_neg hcode
      change Look.switch.reads i = (.code, i.code) :: (Look.switch.after i.code).reads i
      rw [hafter]
      unfold Look.reads
      rw [if_neg hcode]
  | name =>
    obtain rfl := Option.some.inj h
    exact rfl
  | testPid =>
    obtain rfl := Option.some.inj h
    exact rfl
  | row fs =>
    cases fs with
    | nil => cases h
    | cons g fs =>
      obtain rfl := Option.some.inj h
      exact rfl

theorem Look.reads_none {look : Look} (h : look.field = none) (i : Siginfo) :
    look.reads i = [] := by
  cases look with
  | switch | name | testPid => cases h
  | row fs =>
    cases fs with
    | nil => exact rfl
    | cons g fs => cases h

/-- How many signals need the slot no more: the thread has read all it will of them. -/
def View.served (v : View T H) : Nat :=
  v.dispatched.length + (v.hand.toList.filter fun x => x.2.1.field.isNone).length

/-- A signal that is copied to the slot and has still to be reported. -/
def Needed (v : View T H) (i : Siginfo) : Prop :=
  (∃ t k, v.sig.hooks t = some k ∧ k.point.copied = true ∧ k.siginfo = i) ∨
    ∃ n, v.served ≤ n ∧ v.queued[n]? = some i

/-- No step overwrites the slot with another `siginfo_t` while it is needed. -/
def Careful (v : View T H) (a : Act T H Siginfo) : Prop :=
  ∀ t k g, a = .hook t → v.sig.hooks t = some k → k.point = .copy g →
    ∀ i, Needed v i → i = k.siginfo

def HookPoint.copies : HookPoint → Bool
  | .copy _ => true
  | _ => false

theorem HookPoint.copies_iff {p : HookPoint} : p.copies = true ↔ ∃ g, p = .copy g := by
  cases p with
  | copy g => exact iff_of_true rfl ⟨g, rfl⟩
  | _ => exact iff_of_false Bool.noConfusion fun h => HookPoint.noConfusion h.choose_spec

/-- Every report is about its own signal. -/
structure Own (h : Nat) (v : View T H) : Prop where
  told : ∀ (n : Nat) d i, v.dispatched[n]? = some d → v.queued[n]? = some i → d = i.report
  telling : ∀ x ∈ v.hand, ∀ i, v.queued[v.dispatched.length]? = some i →
    x.2.2 ++ x.2.1.reads i = i.report
  slot : ∀ i, Needed v i → ∀ o, v.sig.objs h = some o → o.info = some i

theorem Needed.mono {i : Siginfo} (hneeded : Needed v' i) (hhooks : v'.sig.hooks = v.sig.hooks)
    (hqueued : v'.queued = v.queued) (hserved : v.served ≤ v'.served) : Needed v i := by
  rcases hneeded with ⟨t, k, hk, hcopied, hi⟩ | ⟨n, hn, hi⟩
  · rw [hhooks] at hk
    exact .inl ⟨t, k, hk, hcopied, hi⟩
  · rw [hqueued] at hi
    exact .inr ⟨n, Nat.le_trans hserved hn, hi⟩

theorem Own.turn (hown : Own h v) (hkept : Kept h v) (hturn : Turn v v') : Own h v' := by
  obtain ⟨o, ho, hcount⟩ := hkept.obj
  cases hturn with
  | still => exact hown
  | @take g o' hnone hentry hobj hbytes =>
    obtain rfl : h = g := Option.some.inj (hkept.entry.symm.trans hentry)
    refine ⟨hown.told, ?_, ?_⟩
    · intro x hx i _
      obtain rfl := Option.some.inj hx
      exact List.nil_append _
    · intro i hneeded o'' ho''
      have hself : update v.sig.objs h (some { o' with bytes := o'.bytes - 1 }) h = some o'' := ho''
      rw [update_self] at hself
      obtain rfl := Option.some.inj hself
      refine hown.slot i (hneeded.mono rfl rfl ?_) o' hobj
      unfold View.served
      rw [hnone]
      exact Nat.le_refl _
  | @look g look seen f o' hhand hfield hobj =>
    obtain rfl : g = h := hkept.hand (g, look, seen) hhand
    have hserved : v.served = v.dispatched.length := by
      unfold View.served
      rw [hhand]
      simp [hfield]
    refine ⟨hown.told, ?_, ?_⟩
    · intro x hx i hi
      obtain rfl := Option.some.inj hx
      have hslot : o'.info = some i :=
        hown.slot i (.inr ⟨v.dispatched.length, Nat.le_of_eq hserved, hi⟩) o' hobj
      have hbefore : seen ++ look.reads i = i.report := hown.telling _ hhand i hi
      change (seen ++ [(f, (o'.info.getD .zero).get f)]) ++
        (look.after ((o'.info.getD .zero).get f)).reads i = i.report
      rw [hslot, Option.getD_some, List.append_assoc, List.singleton_append, ← hbefore,
        Look.reads_some hfield]
    · intro i hneeded
      refine hown.slot i (hneeded.mono rfl rfl ?_)
      rw [hserved]
      exact Nat.le_add_right _ _
  | @call g look seen hhand hfield =>
    have hserved : v.served = v.dispatched.length + 1 := by
      unfold View.served
      rw [hhand]
      simp [hfield]
    refine ⟨?_, ?_, ?_⟩
    · intro n d i hd hi
      change (v.dispatched ++ [seen])[n]? = some d at hd
      rcases Nat.lt_trichotomy n v.dispatched.length with hlt | heq | hgt
      · rw [List.getElem?_append_left hlt] at hd
        exact hown.told n d i hd hi
      · subst heq
        rw [List.getElem?_concat_length] at hd
        obtain rfl := Option.some.inj hd
        have hdone : seen ++ look.reads i = i.report := hown.telling _ hhand i hi
        rwa [Look.reads_none hfield, List.append_nil] at hdone
      · rw [List.getElem?_eq_none (by simp; omega)] at hd
        cases hd
    · intro x hx
      cases hx
    · intro i hneeded
      refine hown.slot i (hneeded.mono rfl rfl ?_)
      rw [hserved]
      unfold View.served
      rw [List.length_append]
      exact Nat.le_refl _

/-- A signal comes in and nothing that is needed is overwritten. -/
theorem Own.signal [DecidableEq T] (hown : Own h v) (hkept : Kept h v) {a : Act T H Siginfo}
    {u : Sys T H Siginfo} {q : List Siginfo} (hcareful : Careful v a)
    (hturn : HookTurn v.sig a u q) : Own h { v with sig := u, queued := v.queued ++ q } := by
  obtain ⟨o, ho, hcount⟩ := hkept.obj
  have hfits : ∀ n, n < v.dispatched.length + v.hand.toList.length →
      (v.queued ++ q)[n]? = v.queued[n]? := by
    intro n hn
    exact List.getElem?_append_left (by omega)
  have htold : ∀ (n : Nat) d i, v.dispatched[n]? = some d → (v.queued ++ q)[n]? = some i →
      d = i.report := by
    intro n d i hd hi
    obtain ⟨hlt, -⟩ := List.getElem?_eq_some_iff.mp hd
    rw [hfits n (by omega)] at hi
    exact hown.told n d i hd hi
  have htelling : ∀ x ∈ v.hand, ∀ i, (v.queued ++ q)[v.dispatched.length]? = some i →
      x.2.2 ++ x.2.1.reads i = i.report := by
    intro x hx i hi
    have hone : v.hand = some x := hx
    rw [hfits _ (by rw [hone]; exact Nat.lt_succ_self _)] at hi
    exact hown.telling x hx i hi
  refine ⟨htold, htelling, ?_⟩
  cases hturn with
  | @pass _ t d k hcopied hentry =>
    rw [List.append_nil]
    intro i hneeded
    apply hown.slot i
    rcases hneeded with ⟨t', k', hk', hc', rfl⟩ | hqueued
    · change update v.sig.hooks t k t' = some k' at hk'
      by_cases ht : t' = t
      · subst ht
        rw [update_self] at hk'
        obtain ⟨k₀, hk₀, hc₀, hi₀⟩ := hcopied k' hk' hc'
        exact .inl ⟨t', k₀, hk₀, hc₀, hi₀⟩
      · rw [update_of_ne ht] at hk'
        exact .inl ⟨t', k', hk', hc', rfl⟩
    · exact .inr hqueued
  | @copy t k g o' hk hpoint hobj =>
    obtain rfl : g = h := hkept.hooks t k hk g (.inl hpoint)
    rw [List.append_nil]
    intro i hneeded o'' ho''
    have hself : update v.sig.objs g (some { o' with info := some k.siginfo }) g = some o'' := ho''
    rw [update_self] at hself
    obtain rfl := Option.some.inj hself
    refine congrArg some (Eq.symm ?_)
    rcases hneeded with ⟨t', k', hk', hc', rfl⟩ | hqueued
    · change update v.sig.hooks t _ t' = some k' at hk'
      by_cases ht : t' = t
      · subst ht
        rw [update_self] at hk'
        obtain rfl := Option.some.inj hk'
        exact rfl
      · rw [update_of_ne ht] at hk'
        exact hcareful t k g rfl hk hpoint _ (.inl ⟨t', k', hk', hc', rfl⟩)
    · exact hcareful t k g rfl hk hpoint i (.inr hqueued)
  | @write t k g o' hk hpoint hobj =>
    obtain rfl : g = h := hkept.hooks t k hk g (.inr hpoint)
    have hmine : Needed v k.siginfo := .inl ⟨t, k, hk, by rw [hpoint]; exact rfl, rfl⟩
    intro i hneeded o'' ho''
    have hself : update v.sig.objs g (some { o' with bytes := o'.bytes + 1 }) g = some o'' := ho''
    rw [update_self] at hself
    obtain rfl := Option.some.inj hself
    refine hown.slot i ?_ o' hobj
    rcases hneeded with ⟨t', k', hk', hc', rfl⟩ | ⟨n, hn, hi⟩
    · change update v.sig.hooks t _ t' = some k' at hk'
      by_cases ht : t' = t
      · subst ht
        rw [update_self] at hk'
        obtain rfl := Option.some.inj hk'
        cases hc'
      · rw [update_of_ne ht] at hk'
        exact .inl ⟨t', k', hk', hc', rfl⟩
    · change (v.queued ++ [k.siginfo])[n]? = some i at hi
      rcases Nat.lt_trichotomy n v.queued.length with hlt | heq | hgt
      · rw [List.getElem?_append_left hlt] at hi
        exact .inr ⟨n, hn, hi⟩
      · subst heq
        rw [List.getElem?_concat_length] at hi
        obtain rfl := Option.some.inj hi
        exact hmine
      · rw [List.getElem?_eq_none (by simp; omega)] at hi
        cases hi

/-! Runs. -/

/-- `register_handler` for the signal `n` is over, and no signal has come yet. -/
structure Registered (h n : Nat) (s : Async T H) : Prop where
  entry : (s.sigs n).entry = some h
  reg : (s.sigs n).reg = none
  hooks : ∀ t, (s.sigs n).hooks t = none
  obj : ∃ o, (s.sigs n).objs h = some o ∧ o.bytes = 0
  hand : s.point.hand n = none
  queued : s.queued n = []
  dispatched : s.dispatched n = []

theorem Registered.kept {n : Nat} {s : Async T H} (hs : Registered h n s) : Kept h (s.view n) := by
  obtain ⟨o, ho, hbytes⟩ := hs.obj
  have hhand : (s.view n).hand = none := hs.hand
  refine ⟨hs.entry, hs.reg, ?_, ?_, o, ho, ?_⟩
  · intro t k hk
    rw [show (s.view n).sig.hooks t = none from hs.hooks t] at hk
    cases hk
  · intro x hx
    rw [hhand] at hx
    cases hx
  · change (s.queued n).length = (s.dispatched n).length + (s.point.hand n).toList.length + o.bytes
    rw [hs.queued, hs.dispatched, hs.hand, hbytes]
    exact rfl

theorem Registered.own {n : Nat} {s : Async T H} (hs : Registered h n s) : Own h (s.view n) := by
  have hhand : (s.view n).hand = none := hs.hand
  refine ⟨?_, ?_, ?_⟩
  · intro m d i hd
    rw [show (s.view n).dispatched = [] from hs.dispatched] at hd
    cases hd
  · intro x hx
    rw [hhand] at hx
    cases hx
  · rintro i (⟨t, k, hk, -⟩ | ⟨m, -, hi⟩)
    · rw [show (s.view n).sig.hooks t = none from hs.hooks t] at hk
      cases hk
    · rw [show (s.view n).queued = [] from hs.queued] at hi
      cases hi

variable [DecidableEq T] [DecidableEq H] {r e : T} {n : Nat} {s s' : Async T H}

/-- The handler of `n` stays registered. -/
def StepStaying (r e : T) (n : Nat) (s : Async T H) (l : AsyncAct T H) (s' : Async T H) : Prop :=
  (∀ a, l = .signal n a → Staying a) ∧ StepAsync r e s l s'

/-- And no `siginfo_t` is overwritten before it is reported. -/
def StepCareful (r e : T) (n : Nat) (s : Async T H) (l : AsyncAct T H) (s' : Async T H) : Prop :=
  (∀ a, l = .signal n a → Staying a ∧ Careful (s.view n) a) ∧ StepAsync r e s l s'

theorem Kept.step {l : AsyncAct T H} (hkept : Kept h (s.view n))
    (hstep : StepStaying r e n s l s') : Kept h (s'.view n) := by
  rcases hstep.2.view n with hturn | ⟨a, u, hl, hu, hview⟩
  · exact hkept.turn hturn
  · rw [hview]
    exact hkept.signal (exec_turn hkept.reg (hstep.1 a hl) hu)

theorem Own.step {l : AsyncAct T H} (hkept : Kept h (s.view n)) (hown : Own h (s.view n))
    (hstep : StepCareful r e n s l s') : Own h (s'.view n) := by
  rcases hstep.2.view n with hturn | ⟨a, u, hl, hu, hview⟩
  · exact hown.turn hkept hturn
  · rw [hview]
    obtain ⟨hstay, hcareful⟩ := hstep.1 a hl
    exact hown.signal hkept hcareful (exec_turn hkept.reg hstay hu)

theorem StepCareful.staying {l : AsyncAct T H} (hstep : StepCareful r e n s l s') :
    StepStaying r e n s l s' := ⟨fun a hl => (hstep.1 a hl).1, hstep.2⟩

/-- As long as the handler stays registered, no byte is lost and no signal dispatched twice; and in
every run that overwrites nothing that is needed, each report is about the signal of its byte. -/
theorem dispatch_own_info (h n : Nat) (r e : T) (s0 s : Async T H) (ls : List (AsyncAct T H))
    (hs0 : Registered h n s0) (hrun : Run (StepStaying r e n) s0 ls s) :
    (∃ o, (s.sigs n).objs h = some o ∧ (s.queued n).length =
      (s.dispatched n).length + (s.point.hand n).toList.length + o.bytes) ∧
    (Run (StepCareful r e n) s0 ls s →
      (∀ (k : Nat) d i, (s.dispatched n)[k]? = some d → (s.queued n)[k]? = some i →
        d = i.report) ∧
      ∀ x ∈ s.point.hand n, ∀ i, (s.queued n)[(s.dispatched n).length]? = some i →
        x.2.2 ++ x.2.1.reads i = i.report) := by
  have hkept : Kept h (s.view n) :=
    hrun.invariant (I := fun s => Kept h (s.view n)) (fun _ _ _ hkept hstep => hkept.step hstep)
      hs0.kept
  refine ⟨hkept.obj, ?_⟩
  intro hcareful
  have hown : Kept h (s.view n) ∧ Own h (s.view n) := by
    apply hcareful.invariant (I := fun s => Kept h (s.view n) ∧ Own h (s.view n)) _
      ⟨hs0.kept, hs0.own⟩
    rintro u l v ⟨hkept, hown⟩ hstep
    exact ⟨hkept.step hstep.staying, hown.step hkept hstep⟩
  exact ⟨hown.2.told, hown.2.telling⟩

omit [DecidableEq T] [DecidableEq H] in
/-- What `Careful` asks of a hook that is about to copy. -/
theorem careful_hook_iff {t : T} : Careful v (.hook t) ↔
    ∀ k ∈ v.sig.hooks t, k.point.copies = true →
      (∀ u, ∀ k' ∈ v.sig.hooks u, k'.point.copied = true → k'.siginfo = k.siginfo) ∧
      ∀ i ∈ v.queued.drop v.served, i = k.siginfo := by
  constructor
  · intro hcareful k hk hcopies
    obtain ⟨g, hg⟩ := HookPoint.copies_iff.mp hcopies
    constructor
    · intro u k' hk' hcopied
      exact hcareful t k g rfl hk hg _ (.inl ⟨u, k', hk', hcopied, rfl⟩)
    · intro i hi
      obtain ⟨m, hm, rfl⟩ := List.mem_iff_getElem.mp hi
      apply hcareful t k g rfl hk hg _ (.inr ⟨v.served + m, Nat.le_add_right _ _, ?_⟩)
      rw [List.getElem_drop]
      exact List.getElem?_eq_getElem _
  · intro hall t' k g ht hk hg i hneeded
    obtain rfl := Act.hook.inj ht
    obtain ⟨hhooks, hqueued⟩ := hall k hk (HookPoint.copies_iff.mpr ⟨g, hg⟩)
    rcases hneeded with ⟨u, k', hk', hcopied, rfl⟩ | ⟨m, hm, hi⟩
    · exact hhooks u k' hk' hcopied
    · apply hqueued
      apply List.mem_of_getElem? (i := m - v.served)
      rw [List.getElem?_drop, Nat.add_sub_cancel' hm, hi]

instance [Fintype T] (v : View T H) (a : Act T H Siginfo) : Decidable (Careful v a) :=
  match a with
  | .hook _ => decidable_of_iff _ careful_hook_iff.symm
  | .deliver _ _ | .resume _ | .register _ _ | .unregister _ | .step =>
    isTrue fun _ _ _ heq => nomatch heq

instance (a : Act T H Siginfo) : Decidable (Staying a) :=
  match a with
  | .register _ _ | .unregister _ => isFalse id
  | .deliver _ _ | .hook _ | .resume _ | .step => isTrue trivial

/-- A test of the first half of `StepStaying`. -/
def AsyncAct.stays (n : Nat) : AsyncAct T H → Bool
  | .signal m a => m != n || decide (Staying a)
  | _ => true

omit [DecidableEq T] [DecidableEq H] in
theorem AsyncAct.stays_of {l : AsyncAct T H} (hl : l.stays n = true) (a : Act T H Siginfo)
    (heq : l = .signal n a) : Staying a := by
  subst heq
  simpa [AsyncAct.stays] using hl

/-- A test of the first half of `StepCareful`. -/
def Async.careful [Fintype T] (n : Nat) (s : Async T H) : AsyncAct T H → Bool
  | .signal m a => m != n || decide (Staying a ∧ Careful (s.view n) a)
  | _ => true

omit [DecidableEq T] [DecidableEq H] in
theorem Async.careful_of [Fintype T] {l : AsyncAct T H} (hl : s.careful n l = true)
    (a : Act T H Siginfo) (heq : l = .signal n a) : Staying a ∧ Careful (s.view n) a := by
  subst heq
  simpa [Async.careful] using hl

/-! Two signals of one process, that have come from two others. -/

def fromPid (pid : Int) : Siginfo := ⟨siUser, pid, 0, 0, 0, 0, 0, 0⟩

def registering : List (AsyncAct Bool Unit) :=
  .signal 10 (.register () false) :: List.replicate 4 (.signal 10 .step)

def queueOne (i : Siginfo) : List (AsyncAct Bool Unit) :=
  .signal 10 (.deliver false i) :: List.replicate 6 (.signal 10 (.hook false)) ++
    [.signal 10 (.resume false)]

def dispatchOne : List (AsyncAct Bool Unit) := List.replicate 22 (.turn 1)

def finishTurn : List (AsyncAct Bool Unit) := List.replicate 22 (.turn 1)

theorem registering_registered : ∃ s0 : Async Bool Unit, Registered 0 10 s0 ∧
    execAll (execAsync false true) (fun _ _ => true) startAsync registering = some s0 := by
  have hrun : ∃ s0 ∈ execAll (execAsync false true) (fun _ _ => true) startAsync registering,
      (s0.sigs 10).entry = some 0 ∧ (s0.sigs 10).reg.isNone = true ∧
      (∀ t, ((s0.sigs 10).hooks t).isNone = true) ∧
      ((s0.sigs 10).objs 0).map SafeHandler.bytes = some 0 ∧ s0.point.hand 10 = none ∧
      s0.queued 10 = [] ∧ s0.dispatched 10 = [] := by
    decide +kernel
  obtain ⟨s0, hs0, hentry, hreg, hhooks, hobj, hhand, hqueued, hdispatched⟩ := hrun
  obtain ⟨o, ho, hbytes⟩ := Option.map_eq_some_iff.mp hobj
  exact ⟨s0, ⟨hentry, Option.isNone_iff_eq_none.mp hreg,
    fun t => Option.isNone_iff_eq_none.mp (hhooks t), ⟨o, ho, hbytes⟩, hhand, hqueued, hdispatched⟩,
    hs0⟩

/-- One at a time, each is reported as its own. -/
theorem dispatch_own_info_two : ∃ s : Async Bool Unit,
    s.queued 10 = [fromPid 7, fromPid 8] ∧ (s.dispatched 10).length = 2 ∧
      ∀ (k : Nat) d i, (s.dispatched 10)[k]? = some d → (s.queued 10)[k]? = some i →
        d = i.report := by
  obtain ⟨s0, hs0, hstart⟩ := registering_registered
  have hrun : ∃ s0 ∈ execAll (execAsync false true) (fun _ _ => true) startAsync registering,
      ∃ s ∈ execAll (execAsync false true) (fun s l => s.careful 10 l) s0
        (queueOne (fromPid 7) ++ dispatchOne ++ finishTurn ++ queueOne (fromPid 8) ++ dispatchOne),
      s.queued 10 = [fromPid 7, fromPid 8] ∧ (s.dispatched 10).length = 2 := by
    decide +kernel
  obtain ⟨s0', hs0', s, hs, hqueued, hdispatched⟩ := hrun
  obtain rfl : s0 = s0' := Option.some.inj (hstart.symm.trans hs0')
  have hcareful : Run (StepCareful false true 10) s0 _ s :=
    execAll_run (fun _ _ _ hok hexec => ⟨Async.careful_of hok, hexec⟩) hs
  have hstays : Run (StepStaying false true 10) s0 _ s :=
    hcareful.mono fun _ _ _ hstep => hstep.staying
  exact ⟨s, hqueued, hdispatched, ((dispatch_own_info 0 10 false true s0 s _ hs0 hstays).2 hcareful).1⟩

/-- Two signals before the thread polls: both reports are about the second. -/
theorem dispatch_mixes_info : ¬ ∀ (h n : Nat) (r e : Bool) (s0 s : Async Bool Unit)
    (ls : List (AsyncAct Bool Unit)), Registered h n s0 → Run (StepStaying r e n) s0 ls s →
    ∀ (k : Nat) d i, (s.dispatched n)[k]? = some d → (s.queued n)[k]? = some i →
      d = i.report := by
  intro hclaim
  obtain ⟨s0, hs0, hstart⟩ := registering_registered
  have hrun : ∃ s0 ∈ execAll (execAsync false true) (fun _ _ => true) startAsync registering,
      ∃ s ∈ execAll (execAsync false true) (fun _ l => l.stays 10) s0
        (queueOne (fromPid 7) ++ queueOne (fromPid 8) ++ dispatchOne),
      (s.dispatched 10)[0]? = some (fromPid 8).report ∧ (s.queued 10)[0]? = some (fromPid 7) := by
    decide +kernel
  obtain ⟨s0', hs0', s, hs, hd, hi⟩ := hrun
  obtain rfl : s0 = s0' := Option.some.inj (hstart.symm.trans hs0')
  have hstays : Run (StepStaying false true 10) s0 _ s :=
    execAll_run (fun _ _ _ hok hexec => ⟨AsyncAct.stays_of hok, hexec⟩) hs
  have heq := hclaim 0 10 false true s0 s _ hs0 hstays 0 _ _ hd hi
  exact absurd heq (by decide)

end Steps

end LockdepSpdk.Signal
