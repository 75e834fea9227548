import LockdepSpdk.Lib.CheckedInt
import LockdepSpdk.Lib.Int32
import LockdepSpdk.Lib.Transition
import Mathlib.Data.List.TakeDrop

/-!
# Submitting a batch

`aio_queue_t::submit_batch` as it is built with libaio. The kernel decides what
`io_submit` answers, from one call to the next; the calls and the sleeps between
them are logged.
-/

namespace LockdepSpdk.Kernel

set_option autoImplicit false

open CheckedInt Transition

/-- An `aio_t`: what `io_prep_pwritev` or `io_prep_preadv` made of it, and its `priv`. -/
structure Aio where
  iocb : Nat
  priv : Nat
  deriving DecidableEq, Repr

def eagain : Int := -11

/-- A call of `io_submit`, and how long the thread slept before it tried again. -/
structure Submission where
  offered : List Aio
  answer : Int
  slept : Option Nat
  deriving DecidableEq, Repr

/-- A write behind `piocb`, a failed assert, or `delay` out of its `int`. -/
inductive Stop where
  | overrun
  | assert
  | overflow
  deriving DecidableEq, Repr

structure Result where
  ret : Int
  retries : Int
  log : List Submission
  deriving DecidableEq, Repr

def Result.after (res : Result) (c : Submission) : Result := { res with log := c :: res.log }

/-- The loop over the list: `priv` is set, and the address goes to `piocb[left]`. -/
def fillPiocb (aiosSize priv : Nat) : Nat → List Aio → Except Stop (List Aio)
  | _, [] => .ok []
  | left, a :: as =>
    if left < aiosSize then do
      let piocb ← fillPiocb aiosSize priv (left + 1) as
      .ok ({ a with priv := priv } :: piocb)
    else .error .overrun

/-- The loop around `io_submit`; `k` counts its calls. -/
def submitLoop (ioSubmit : Nat → List Aio → Int) (maxIodepth : Int) (piocb : List Aio) (k : Nat)
    (done left attempts : Int) (delay : Nat) (retries : Int) : Except Stop Result :=
  if 0 < left then
    let offered := (piocb.drop done.toNat).take (min left maxIodepth).toNat
    let r := ioSubmit k offered
    if r < 0 then
      if r = eagain ∧ 0 < attempts then
        match mulInt delay 2 with
        | none => .error .overflow
        | some delay' => do
          let res ← submitLoop ioSubmit maxIodepth piocb (k + 1) done left (attempts - 1) delay'
            (int32 (retries + 1))
          .ok (res.after ⟨offered, r, some delay⟩)
      else .ok ⟨r, retries, [⟨offered, r, none⟩]⟩
    else if r = 0 then .error .assert
    else do
      let res ← submitLoop ioSubmit maxIodepth piocb (k + 1) (done + r) (left - r) 16 125 retries
      .ok (res.after ⟨offered, r, none⟩)
  else .ok ⟨done, retries, []⟩
termination_by (left.toNat, attempts.toNat)
decreasing_by
  · exact Prod.Lex.right _ (by omega)
  · apply Prod.Lex.left
    change (left - r).toNat < left.toNat
    omega

def submitBatch (ioSubmit : Nat → List Aio → Int) (maxIodepth : Int) (aios : List Aio)
    (aiosSize priv : Nat) (retries : Int) : Except Stop (List Aio × Result) := do
  let piocb ← fillPiocb aiosSize priv 0 aios
  if aiosSize < piocb.length then .error .assert
  else do
    let res ← submitLoop ioSubmit maxIodepth piocb 0 0 piocb.length 16 125 retries
    .ok (piocb, res)

/-! What the loop is to do. -/

/-- What is offered when `done` of the list are accepted. -/
def offer (piocb : List Aio) (maxIodepth done : Nat) : List Aio :=
  (piocb.drop done).take maxIodepth

/-- What the kernel may answer. -/
def Answers (r : Int) (offered : List Aio) : Prop := r < 0 ∨ (1 ≤ r ∧ r ≤ offered.length)

/-- The calls from a state in which `done` are accepted and `m` retries have been made since: a
retry sleeps twice as long as the one before, `EAGAIN` is given up after the sixteenth, and
whatever is accepted starts again with no retry made. -/
inductive Submits (piocb : List Aio) (maxIodepth : Nat) :
    Nat → Nat → List Submission → Int → Prop where
  | finish : Submits piocb maxIodepth piocb.length 0 [] piocb.length
  | retry {done m : Nat} {log : List Submission} {ret : Int} : done < piocb.length → m < 16 →
      Submits piocb maxIodepth done (m + 1) log ret →
      Submits piocb maxIodepth done m
        (⟨offer piocb maxIodepth done, eagain, some (125 * 2 ^ m)⟩ :: log) ret
  | accept {done m r : Nat} {log : List Submission} {ret : Int} : m ≤ 16 → 1 ≤ r →
      done + r ≤ piocb.length → r ≤ (offer piocb maxIodepth done).length →
      Submits piocb maxIodepth (done + r) 0 log ret →
      Submits piocb maxIodepth done m (⟨offer piocb maxIodepth done, r, none⟩ :: log) ret
  | fail {done m : Nat} {r : Int} : done < piocb.length → m ≤ 16 → r < 0 →
      (r = eagain → m = 16) →
      Submits piocb maxIodepth done m [⟨offer piocb maxIodepth done, r, none⟩] r

def accepted (log : List Submission) : List Aio :=
  log.flatMap fun c => c.offered.take c.answer.toNat

def retried (log : List Submission) : Nat := log.countP fun c => c.slept.isSome

/-- At most sixteen sleeps follow each other, and those that follow the beginning or a call that
made progress begin with the first delay. -/
def Backoff (log : List Submission) : Prop :=
  ∀ pre block post, log = pre ++ (block ++ post) → (∀ c ∈ block, c.slept.isSome) →
    block.length ≤ 16 ∧
      ((∀ c ∈ pre.getLast?, c.slept = none) →
        block.map Submission.slept = (List.range' 0 block.length).map fun i => some (125 * 2 ^ i))

theorem fillPiocb_ok {aiosSize priv left : Nat} {aios : List Aio}
    (h : left + aios.length ≤ aiosSize) :
    fillPiocb aiosSize priv left aios = .ok (aios.map fun a => { a with priv := priv }) := by
  induction aios generalizing left with
  | nil => rfl
  | cons a as ih =>
    rw [List.length_cons] at h
    unfold fillPiocb
    rw [if_pos (by omega), ih (by omega)]
    exact rfl

section
variable {ioSubmit : Nat → List Aio → Int} {piocb : List Aio} {maxIodepth : Nat}

theorem offered_eq {done left : Nat} (h : done + left = piocb.length) :
    (piocb.drop (done : Int).toNat).take (min (left : Int) maxIodepth).toNat =
      offer piocb maxIodepth done := by
  have hmin : (min (left : Int) maxIodepth).toNat = min left maxIodepth := by omega
  have hlen : (piocb.drop done).length = left := by
    rw [List.length_drop]
    omega
  unfold offer
  rw [hmin, Int.toNat_natCast]
  rcases Nat.le_total left maxIodepth with hle | hle
  · rw [Nat.min_eq_left hle, List.take_of_length_le (by omega), List.take_of_length_le (by omega)]
  · rw [Nat.min_eq_right hle]

theorem offer_length {done left : Nat} (h : done + left = piocb.length) :
    (offer piocb maxIodepth done).length = min maxIodepth left := by
  unfold offer
  rw [List.length_take, List.length_drop]
  omega

theorem mulInt_delay {m : Nat} (hm : m < 16) : mulInt (125 * 2 ^ m) 2 = some (125 * 2 ^ (m + 1)) := by
  have hpow : 2 ^ m ≤ 2 ^ 15 := Nat.pow_le_pow_right (by decide) (by omega)
  rw [mulInt_of_lt (by omega), Nat.mul_assoc, Nat.pow_succ]

/-! A turn of the loop, by the answer. -/

section
variable {k delay : Nat} {done left attempts retries : Int} {offered : List Aio} {res : Result}

theorem submitLoop_done (hleft : ¬ 0 < left) :
    submitLoop ioSubmit maxIodepth piocb k done left attempts delay retries =
      .ok ⟨done, retries, []⟩ := by
  rw [submitLoop, if_neg hleft]

theorem submitLoop_retry {delay' : Nat} (hleft : 0 < left)
    (hoffer : (piocb.drop done.toNat).take (min left maxIodepth).toNat = offered)
    (hr : ioSubmit k offered = eagain) (hattempts : 0 < attempts)
    (hdelay : mulInt delay 2 = some delay')
    (hrest : submitLoop ioSubmit maxIodepth piocb (k + 1) done left (attempts - 1) delay'
      (int32 (retries + 1)) = .ok res) :
    submitLoop ioSubmit maxIodepth piocb k done left attempts delay retries =
      .ok (res.after ⟨offered, eagain, some delay⟩) := by
  rw [submitLoop, if_pos hleft]
  simp only [hoffer, hr]
  rw [if_pos (by decide), if_pos ⟨trivial, hattempts⟩, hdelay]
  simp only [hrest]
  exact rfl

theorem submitLoop_fail {r : Int} (hleft : 0 < left)
    (hoffer : (piocb.drop done.toNat).take (min left maxIodepth).toNat = offered)
    (hr : ioSubmit k offered = r) (hneg : r < 0) (hgive : ¬ (r = eagain ∧ 0 < attempts)) :
    submitLoop ioSubmit maxIodepth piocb k done left attempts delay retries =
      .ok ⟨r, retries, [⟨offered, r, none⟩]⟩ := by
  rw [submitLoop, if_pos hleft]
  simp only [hoffer, hr]
  rw [if_pos hneg, if_neg hgive]

theorem submitLoop_accept {r : Int} (hleft : 0 < left)
    (hoffer : (piocb.drop done.toNat).take (min left maxIodepth).toNat = offered)
    (hr : ioSubmit k offered = r) (hpos : 1 ≤ r)
    (hrest : submitLoop ioSubmit maxIodepth piocb (k + 1) (done + r) (left - r) 16 125 retries =
      .ok res) :
    submitLoop ioSubmit maxIodepth piocb k done left attempts delay retries =
      .ok (res.after ⟨offered, r, none⟩) := by
  rw [submitLoop, if_pos hleft]
  simp only [hoffer, hr]
  rw [if_neg (by omega), if_neg (by omega), hrest]
  exact rfl

end

/-- What the loop leaves, from a state with `done` accepted and `m` retries made since. -/
structure Leaves (piocb : List Aio) (maxIodepth done m : Nat) (retries : Int) (res : Result) :
    Prop where
  submits : Submits piocb maxIodepth done m res.log res.ret
  counts : retries + retried res.log < 2 ^ 31 → res.retries = retries + retried res.log

theorem submitLoop_leaves (hio : ∀ k offered, offered ≠ [] → Answers (ioSubmit k offered) offered)
    (hdepth : 1 ≤ maxIodepth) (left : Nat) : ∀ (b : Nat) {k done m : Nat} {retries : Int},
    done + left = piocb.length → m + b = 16 → (left = 0 → m = 0) → -2 ^ 31 ≤ retries →
    ∃ res, submitLoop ioSubmit maxIodepth piocb k done left b ((125 * 2 ^ m : Nat)) retries =
      .ok res ∧ Leaves piocb maxIodepth done m retries res := by
  -- on what is left, and within it on the attempts
  induction left using Nat.strong_induction_on with
  | _ left ihLeft =>
  have finished : ∀ (b : Nat) {k done m : Nat} {retries : Int}, done + left = piocb.length →
      left = 0 → m = 0 → ∃ res, submitLoop ioSubmit maxIodepth piocb k done left b
        ((125 * 2 ^ m : Nat)) retries = .ok res ∧ Leaves piocb maxIodepth done m retries res := by
    intro b k done m retries hdone hleft hm
    obtain rfl : done = piocb.length := by omega
    subst hm
    refine ⟨_, submitLoop_done (by omega), .finish, ?_⟩
    intro _
    exact (Int.add_zero retries).symm
  have settled : ∀ (b : Nat) {k done m : Nat} {retries : Int}, done + left = piocb.length →
      m + b = 16 → 0 < left → -2 ^ 31 ≤ retries →
      ¬ (ioSubmit k (offer piocb maxIodepth done) = eagain ∧ 0 < (b : Int)) →
      ∃ res, submitLoop ioSubmit maxIodepth piocb k done left b ((125 * 2 ^ m : Nat)) retries =
        .ok res ∧ Leaves piocb maxIodepth done m retries res := by
    intro b k done m retries hdone hm hleft hretries hgive
    have hoffer : (piocb.drop (done : Int).toNat).take (min (left : Int) maxIodepth).toNat =
        offer piocb maxIodepth done := offered_eq hdone
    have hlen : (offer piocb maxIodepth done).length = min maxIodepth left := offer_length hdone
    have hne : offer piocb maxIodepth done ≠ [] := by
      apply List.ne_nil_of_length_pos
      omega
    rcases hio k _ hne with hneg | ⟨hpos, hle⟩
    · refine ⟨_, submitLoop_fail (by omega) hoffer rfl hneg hgive, ?_, ?_⟩
      · apply Submits.fail (by omega) (by omega) hneg
        intro heq
        by_contra hm16
        exact hgive ⟨heq, by omega⟩
      · intro _
        exact (Int.add_zero retries).symm
    · obtain ⟨r, hr⟩ := Int.eq_ofNat_of_zero_le (Int.le_trans (by decide) hpos)
      rw [hr] at hpos hle
      obtain ⟨res, hres, hleaves⟩ : ∃ res, submitLoop ioSubmit maxIodepth piocb (k + 1)
          ((done + r : Nat)) ((left - r : Nat)) (16 : Nat) ((125 * 2 ^ 0 : Nat)) retries = .ok res ∧
          Leaves piocb maxIodepth (done + r) 0 retries res :=
        ihLeft (left - r) (by omega) 16 (by omega) rfl (fun _ => rfl) hretries
      have hleft' : ((left - r : Nat) : Int) = left - r := by omega
      rw [Int.natCast_add, hleft'] at hres
      refine ⟨_, submitLoop_accept (by omega) hoffer hr hpos hres, ?_, hleaves.counts⟩
      exact .accept (by omega) (by omega) (by omega) (by omega) hleaves.submits
  intro b
  induction b with
  | zero =>
    intro k done m retries hdone hm hzero hretries
    rcases Nat.eq_zero_or_pos left with hleft | hleft
    · exact finished 0 hdone hleft (hzero hleft)
    · exact settled 0 hdone hm hleft hretries fun h => absurd h.2 (by decide)
  | succ b ih =>
    intro k done m retries hdone hm hzero hretries
    rcases Nat.eq_zero_or_pos left with hleft | hleft
    · exact finished (b + 1) hdone hleft (hzero hleft)
    by_cases hagain : ioSubmit k (offer piocb maxIodepth done) = eagain
    · obtain ⟨res, hres, hleaves⟩ : ∃ res, submitLoop ioSubmit maxIodepth piocb (k + 1) done left b
          ((125 * 2 ^ (m + 1) : Nat)) (int32 (retries + 1)) = .ok res ∧
          Leaves piocb maxIodepth done (m + 1) (int32 (retries + 1)) res :=
        ih hdone (by omega) (by omega) (int32_le _)
      have hattempts : ((b + 1 : Nat) : Int) - 1 = b := by omega
      rw [← hattempts] at hres
      refine ⟨_, submitLoop_retry (by omega) (offered_eq hdone) hagain (by omega)
        (mulInt_delay (by omega)) hres, .retry (by omega) (by omega) hleaves.submits, ?_⟩
      intro hlt
      have hcount : retried (res.after ⟨offer piocb maxIodepth done, eagain,
          some (125 * 2 ^ m)⟩).log = retried res.log + 1 := List.countP_cons_of_pos rfl
      rw [hcount] at hlt ⊢
      have hwhole : int32 (retries + 1) = retries + 1 := int32_of_mem (by omega) (by omega)
      have hrest := hleaves.counts (by omega)
      change res.retries = _
      omega
    · exact settled (b + 1) hdone hm hleft hretries fun h => hagain h.1

/-! What follows for the list, the result and the sleeps. -/

section
variable {done m : Nat} {log : List Submission} {ret : Int}

/-- What is accepted is the next slice of the list, without a gap; it is the whole rest, or the
last answer is an error and the result. -/
theorem Submits.slice (h : Submits piocb maxIodepth done m log ret) :
    ∃ n, accepted log = (piocb.drop done).take n ∧
      (ret = piocb.length ∧ done + n = piocb.length ∨
        ret < 0 ∧ log.getLast?.map Submission.answer = some ret) := by
  induction h with
  | finish =>
    refine ⟨0, rfl, .inl ⟨rfl, ?_⟩⟩
    omega
  | retry hdone hm hrest ih =>
    obtain ⟨n, hacc, hend⟩ := ih
    refine ⟨n, hacc, ?_⟩
    rcases hend with hall | ⟨hneg, hlast⟩
    · exact .inl hall
    · obtain ⟨c, hc, hret⟩ := Option.map_eq_some_iff.mp hlast
      refine .inr ⟨hneg, ?_⟩
      rw [List.getLast?_cons, hc]
      exact congrArg some hret
  | @accept done m r log ret hm hr hin hle hrest ih =>
    obtain ⟨n, hacc, hend⟩ := ih
    have hdepth : r ≤ maxIodepth := by
      have hoffer : (offer piocb maxIodepth done).length ≤ maxIodepth := List.length_take_le ..
      omega
    have hslice : (offer piocb maxIodepth done).take r = (piocb.drop done).take r := by
      unfold offer
      rw [List.take_take, Nat.min_eq_left hdepth]
    refine ⟨r + n, ?_, ?_⟩
    · have hcons : accepted (⟨offer piocb maxIodepth done, r, none⟩ :: log) =
          (offer piocb maxIodepth done).take r ++ accepted log := List.flatMap_cons ..
      rw [hcons, hslice, hacc, List.take_add, List.drop_drop]
    · rcases hend with ⟨hret, hall⟩ | ⟨hneg, hlast⟩
      · exact .inl ⟨hret, by omega⟩
      · obtain ⟨c, hc, hret⟩ := Option.map_eq_some_iff.mp hlast
        refine .inr ⟨hneg, ?_⟩
        rw [List.getLast?_cons, hc]
        exact congrArg some hret
  | @fail done m r hdone hm hneg hgive =>
    refine ⟨0, ?_, .inr ⟨hneg, rfl⟩⟩
    have hr : r.toNat = 0 := by omega
    have hone : accepted [⟨offer piocb maxIodepth done, r, none⟩] =
        (offer piocb maxIodepth done).take r.toNat ++ [] := List.flatMap_cons ..
    rw [hone, hr]
    exact rfl

theorem Submits.retries_le (h : Submits piocb maxIodepth done m log ret) : m ≤ 16 := by
  cases h <;> omega

/-- Sixteen retries for each of the list, and those made since the last progress are among them. -/
theorem Submits.retried_le (h : Submits piocb maxIodepth done m log ret) :
    retried log + m ≤ 16 * (piocb.length - done) := by
  induction h with
  | finish => exact Nat.zero_le _
  | @retry done m log ret hdone hm hrest ih =>
    have hcount : retried (⟨offer piocb maxIodepth done, eagain, some (125 * 2 ^ m)⟩ :: log) =
        retried log + 1 := List.countP_cons_of_pos rfl
    omega
  | @accept done m r log ret hm hr hin hle hrest ih =>
    have hcount : retried (⟨offer piocb maxIodepth done, r, none⟩ :: log) = retried log :=
      List.countP_cons_of_neg Bool.false_ne_true
    omega
  | @fail done m r hdone hm hneg hgive =>
    have hcount : retried [⟨offer piocb maxIodepth done, r, none⟩] = 0 :=
      List.countP_cons_of_neg Bool.false_ne_true
    omega

theorem Submits.sleeps {block post : List Submission}
    (h : Submits piocb maxIodepth done m (block ++ post) ret)
    (hblock : ∀ c ∈ block, c.slept.isSome) :
    m + block.length ≤ 16 ∧
      block.map Submission.slept = (List.range' m block.length).map fun i => some (125 * 2 ^ i) := by
  induction block generalizing m with
  | nil => exact ⟨h.retries_le, rfl⟩
  | cons c block ih =>
    have hslept : c.slept.isSome := hblock c (.head _)
    have hrest : ∀ d ∈ block, d.slept.isSome := fun d hd => hblock d (.tail _ hd)
    generalize hlog : c :: block ++ post = log at h
    cases h with
    | finish => cases hlog
    | retry hdone hm hnext =>
      obtain ⟨rfl, rfl⟩ := List.cons.inj hlog
      obtain ⟨hle, hmap⟩ := ih hnext hrest
      rw [List.length_cons]
      refine ⟨by omega, ?_⟩
      rw [List.map_cons, hmap, List.range'_succ, List.map_cons]
    | accept =>
      obtain ⟨rfl, -⟩ := List.cons.inj hlog
      exact absurd hslept Bool.false_ne_true
    | fail =>
      obtain ⟨rfl, -⟩ := List.cons.inj hlog
      exact absurd hslept Bool.false_ne_true

theorem Submits.resume {pre rest : List Submission}
    (h : Submits piocb maxIodepth done m (pre ++ rest) ret) (hrest : rest ≠ []) :
    ∃ done' m', Submits piocb maxIodepth done' m' rest ret := by
  induction pre generalizing done m with
  | nil => exact ⟨done, m, h⟩
  | cons c pre ih =>
    generalize hlog : c :: pre ++ rest = log at h
    cases h with
    | finish => cases hlog
    | retry hdone hm hnext =>
      obtain ⟨rfl, rfl⟩ := List.cons.inj hlog
      exact ih hnext
    | accept hm hr hin hle hnext =>
      obtain ⟨rfl, rfl⟩ := List.cons.inj hlog
      exact ih hnext
    | fail =>
      obtain ⟨-, hnil⟩ := List.cons.inj hlog
      exact absurd (List.append_eq_nil_iff.mp hnil).2 hrest

theorem Submits.progress {c : Submission} {rest : List Submission}
    (h : Submits piocb maxIodepth done m (c :: rest) ret) (hc : c.slept = none) (hrest : rest ≠ []) :
    ∃ done', Submits piocb maxIodepth done' 0 rest ret := by
  cases h with
  | retry => cases hc
  | accept hm hr hin hle hnext => exact ⟨_, hnext⟩
  | fail => exact absurd rfl hrest

theorem Submits.backoff (h : Submits piocb maxIodepth done 0 log ret) : Backoff log := by
  intro pre block post hlog hblock
  subst hlog
  by_cases hnil : block = []
  · subst hnil
    exact ⟨Nat.zero_le 16, fun _ => rfl⟩
  have hrest : block ++ post ≠ [] := List.append_ne_nil_of_left_ne_nil hnil post
  constructor
  · obtain ⟨done', m', hnext⟩ := h.resume hrest
    have hle := (hnext.sleeps hblock).1
    omega
  · intro hlast
    rcases List.eq_nil_or_concat pre with hpre | ⟨init, c, hpre⟩
    · subst hpre
      have hall : Submits piocb maxIodepth done 0 (block ++ post) ret := h
      exact (hall.sleeps hblock).2
    · rw [List.concat_eq_append] at hpre
      subst hpre
      have hc : c.slept = none := hlast c List.getLast?_concat
      rw [List.append_assoc, List.singleton_append] at h
      obtain ⟨done₁, m₁, hcall⟩ := h.resume (List.cons_ne_nil c _)
      obtain ⟨done₂, hnext⟩ := hcall.progress hc hrest
      exact (hnext.sleeps hblock).2

end

end

theorem submit_batch_spec {ioSubmit : Nat → List Aio → Int} {maxIodepth aiosSize priv : Nat}
    {aios : List Aio} {retries : Int}
    (hio : ∀ k offered, offered ≠ [] → Answers (ioSubmit k offered) offered)
    (hdepth : 1 ≤ maxIodepth) (hsize : aios.length ≤ aiosSize) (hretries : -2 ^ 31 ≤ retries) :
    ∃ piocb res, submitBatch ioSubmit maxIodepth aios aiosSize priv retries = .ok (piocb, res) ∧
      piocb = aios.map (fun a => { a with priv := priv }) ∧
      Submits piocb maxIodepth 0 0 res.log res.ret ∧
      (∃ n, accepted res.log = piocb.take n ∧
        (res.ret = piocb.length ∧ n = piocb.length ∨
          res.ret < 0 ∧ res.log.getLast?.map Submission.answer = some res.ret)) ∧
      Backoff res.log ∧ retried res.log ≤ 16 * aios.length ∧
      (retries + retried res.log < 2 ^ 31 → res.retries = retries + retried res.log) := by
  let piocb := aios.map fun a => { a with priv := priv }
  have hfill : fillPiocb aiosSize priv 0 aios = .ok piocb := fillPiocb_ok (by omega)
  have hlen : piocb.length = aios.length := List.length_map ..
  obtain ⟨res, hres, hleaves⟩ : ∃ res, submitLoop ioSubmit maxIodepth piocb 0 (0 : Nat)
      piocb.length (16 : Nat) ((125 * 2 ^ 0 : Nat)) retries = .ok res ∧
      Leaves piocb maxIodepth 0 0 retries res :=
    submitLoop_leaves hio hdepth piocb.length 16 (by omega) rfl (fun _ => rfl) hretries
  obtain ⟨n, hslice, hend⟩ := hleaves.submits.slice
  refine ⟨piocb, res, ?_, rfl, hleaves.submits, ⟨n, hslice, ?_⟩, hleaves.submits.backoff, ?_,
    hleaves.counts⟩
  · unfold submitBatch
    rw [hfill]
    change (if aiosSize < piocb.length then _ else _) = _
    rw [if_neg (by omega)]
    change (submitLoop ioSubmit maxIodepth piocb 0 (0 : Nat) piocb.length (16 : Nat)
      ((125 * 2 ^ 0 : Nat)) retries).bind _ = _
    rw [hres]
    exact rfl
  · rcases hend with ⟨hret, hall⟩ | hfail
    · exact .inl ⟨hret, by omega⟩
    · exact .inr hfail
  · have hle := hleaves.submits.retried_le
    omega

def refusing (k : Nat) (offered : List Aio) : Int :=
  if k % 2 = 0 then eagain else offered.length

theorem refusing_answers (k : Nat) (offered : List Aio) (h : offered ≠ []) :
    Answers (refusing k offered) offered := by
  unfold refusing
  split
  · exact .inl (by decide)
  · have hlen : 0 < offered.length := List.length_pos_iff.mpr h
    exact .inr ⟨by omega, Int.le_refl _⟩

theorem submit_batch_refusing :
    ∃ piocb res, submitBatch refusing 2 [⟨1, 0⟩, ⟨2, 0⟩, ⟨3, 0⟩] 4 7 0 = .ok (piocb, res) ∧
      piocb = [⟨1, 7⟩, ⟨2, 7⟩, ⟨3, 7⟩] ∧ Backoff res.log ∧
      ((0 : Int) + retried res.log < 2 ^ 31 → res.retries = 0 + retried res.log) := by
  obtain ⟨piocb, res, hres, hpriv, -, -, hback, -, hcount⟩ :=
    submit_batch_spec refusing_answers (by decide : 1 ≤ 2)
      (by decide : [Aio.mk 1 0, Aio.mk 2 0, Aio.mk 3 0].length ≤ 4) (by decide : -2 ^ 31 ≤ (0 : Int))
  exact ⟨piocb, res, hres, hpriv, hback, fun hlt => hcount hlt⟩

/-- Where `*retries` is the largest `int`, one retry is not counted. -/
theorem submit_batch_wraps :
    ∃ piocb res, submitBatch refusing 1 [⟨1, 0⟩] 1 7 (2 ^ 31 - 1) = .ok (piocb, res) ∧
      res.ret = 1 ∧ retried res.log = 1 ∧ res.retries ≠ 2 ^ 31 - 1 + retried res.log := by
  have hdone : submitLoop refusing (1 : Nat) [⟨1, 7⟩] 2 (0 + 1) (1 - 1) 16 125
      (int32 (2 ^ 31 - 1 + 1)) = .ok ⟨1, -2 ^ 31, []⟩ := submitLoop_done (by decide)
  have haccept : submitLoop refusing (1 : Nat) [⟨1, 7⟩] 1 0 1 (16 - 1) 250
      (int32 (2 ^ 31 - 1 + 1)) = .ok ⟨1, -2 ^ 31, [⟨[⟨1, 7⟩], 1, none⟩]⟩ :=
    submitLoop_accept (r := 1) (by decide) rfl rfl (by decide) hdone
  have hretry := submitLoop_retry (k := 0) (by decide : (0 : Int) < 1) rfl rfl
    (by decide : (0 : Int) < 16) (rfl : mulInt 125 2 = some 250) haccept
  refine ⟨[⟨1, 7⟩], ⟨1, -2 ^ 31, [⟨[⟨1, 7⟩], eagain, some 125⟩, ⟨[⟨1, 7⟩], 1, none⟩]⟩, ?_, ?_⟩
  · unfold submitBatch
    change (submitLoop refusing (1 : Nat) [⟨1, 7⟩] 0 0 1 16 125 (2 ^ 31 - 1)).bind _ = _
    rw [hretry]
    exact rfl
  · decide

end LockdepSpdk.Kernel
