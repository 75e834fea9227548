import LockdepSpdk.Blk.Roundtrip
import LockdepSpdk.Blk.Window

/-!
# Unaligned reads

`read_random` reads the blocks around its range, and `copy_to_buf` drops the head
of the first one. It steps over bytes of the first segment only, so that the head
has to fit there.
-/

namespace LockdepSpdk.Blk

set_option autoImplicit false

open Function ByteRange Transition

section
variable {cfg : Config} {pend : CtxPtr → List TaskPtr} {rest : List TaskPtr} {s t : Sys}
  {p : TaskPtr} {task : Task} {cmd : Command} {off len buf : Nat} {Q : Sys → Prop}

/-! The thread on its own. -/

def Stalled (cfg : Config) (s : Sys) : Prop :=
  s.pc ≠ .idle ∧ s.inflight = [] ∧ ∃ pend rest, rest ≠ [] ∧ Core cfg pend rest s

theorem Stalled.tick (h : Stalled cfg s) (hdepth : cfg.maxQueueDepth = 0) :
    ∃ l t, Working cfg s l t ∧ Stalled cfg t := by
  obtain ⟨hpc, hin, pend, rest, hne, hcore⟩ := h
  obtain ⟨t, rest', ht, hturn⟩ := hcore.tick_turn hpc
  have hcore' := hcore.turn hturn
  refine ⟨.tick, t, ⟨hpc, ht⟩, ?_⟩
  cases hturn with
  | done hpc' hin' => exact absurd rfl hne
  | more hpc' hlive => exact ⟨Pc.noConfusion, hin, pend, rest, hne, hcore'⟩
  | poll hpc' hin' => exact absurd hin hin'
  | skip hpc' hin' => exact ⟨Pc.noConfusion, hin, pend, rest, hne, hcore'⟩
  | polled hpc' => exact ⟨Pc.noConfusion, hin, pend, rest, hne, hcore'⟩
  | last hpc' => exact absurd rfl hne
  | wait hpc' htask htask' hwait => exact ⟨Pc.noConfusion, hin, pend, _, hne, hcore'⟩
  | send hpc' htask hready hslot hpool =>
    rw [hdepth] at hslot
    exact absurd hslot (Nat.not_lt_zero _)

/-- Without a slot the loop goes round for ever, with nothing to wait for. -/
theorem Stalled.not_returns (h : Stalled cfg s) (hdepth : cfg.maxQueueDepth = 0) :
    ¬ Returns cfg Q s := by
  intro hret
  obtain ⟨r, hr⟩ := InfiniteRun.exists_within (fun s (hs : Stalled cfg s) => hs.tick hdepth) h
  apply hret.ends r
  intro n hpending
  exact absurd (hr n).2.1 hpending

theorem Core.tick_test (h : Core cfg pend rest s) (hpc : s.pc = .test)
    (hlive : flight s.inflight ++ rest ≠ []) : Working cfg s .tick { s with pc := .again } := by
  have hrun := h.running s.ioc
  have hpos := List.length_pos_of_ne_nil hlive
  rw [if_pos rfl] at hrun
  refine ⟨by simp [hpc], ?_⟩
  change tick cfg s = _
  unfold tick
  rw [hpc]
  simp only
  rw [if_neg (by omega)]

theorem Core.tick_again (h : Core cfg pend rest s) (hpc : s.pc = .again) :
    Working cfg s .tick { s with pc := if s.inflight = [] then .loop else .polling } := by
  have hdepth := h.depth
  refine ⟨by simp [hpc], ?_⟩
  change tick cfg s = _
  unfold tick
  rw [hpc]
  simp only
  by_cases hin : s.inflight = []
  · rw [hin, List.length_nil] at hdepth
    rw [if_pos hdepth, if_pos hin]
  · have hpos := List.length_pos_of_ne_nil hin
    rw [if_neg (by omega), if_neg hin]

theorem Turn.at_loop {rest' : List TaskPtr} (h : Turn cfg s rest t rest') (hpc : s.pc = .loop) :
    (rest = [] ∧ t = { s with pc := .test }) ∨
    ∃ p rest1 task, rest = p :: rest1 ∧ s.tasks p = some task ∧
      ((s.inflight ≠ [] ∨ cfg.maxQueueDepth = 0) ∧ rest' = p :: rest1 ∧
          (∃ task', t = { s.setTask p task' with pc := .again }) ∨
        rest' = rest1 ∧ t = afterSubmit cfg s p task) := by
  cases h with
  | done hpc' hin =>
    rw [hpc] at hpc'
    cases hpc'
  | more hpc' hlive =>
    rw [hpc] at hpc'
    cases hpc'
  | poll hpc' hin =>
    rw [hpc] at hpc'
    cases hpc'
  | skip hpc' hin =>
    rw [hpc] at hpc'
    cases hpc'
  | polled hpc' =>
    rw [hpc] at hpc'
    cases hpc'
  | last hpc' => exact Or.inl ⟨rfl, rfl⟩
  | wait hpc' htask htask' hwait =>
    exact Or.inr ⟨_, _, _, rfl, htask, Or.inl ⟨hwait, rfl, _, rfl⟩⟩
  | send hpc' htask hready hslot hpool =>
    exact Or.inr ⟨_, _, _, rfl, htask, Or.inr ⟨rfl, rfl⟩⟩

theorem Core.polls (h : Core cfg pend rest s) (hpc : s.pc = .loop) (hne : s.inflight ≠ []) :
    ∃ ls t rest', Run (Working cfg) s ls t ∧ Core cfg pend rest' t ∧ t.pc = .polling ∧
      s.inflight <+: t.inflight ∧ ∀ cmd ∈ s.inflight, t.tasks cmd.task = s.tasks cmd.task := by
  have hbusy : s.pc ≠ .idle := by simp [hpc]
  have hpoll : ∀ {s1 : Sys} {rest1 : List TaskPtr}, Core cfg pend rest1 s1 → s1.pc = .again →
      s1.inflight ≠ [] → Working cfg s1 .tick { s1 with pc := .polling } := by
    intro s1 rest1 hcore1 hpc1 hne1
    have htick := hcore1.tick_again hpc1
    rwa [if_neg hne1] at htick
  induction rest generalizing s with
  | nil =>
    obtain ⟨s1, rest', hs1, hturn⟩ := h.tick_turn hbusy
    have hstep : Working cfg s .tick s1 := ⟨hbusy, hs1⟩
    rcases hturn.at_loop hpc with ⟨_, rfl⟩ | ⟨p, rest1, task, hnil, _⟩
    · have hcore1 : Core cfg pend [] { s with pc := .test } := h.setPc hbusy Pc.noConfusion
      have hcore2 : Core cfg pend [] { s with pc := .again } := h.setPc hbusy Pc.noConfusion
      have htest : Working cfg { s with pc := .test } .tick { s with pc := .again } := by
        apply hcore1.tick_test rfl
        rw [List.append_nil]
        intro hnil
        exact hne (List.map_eq_nil_iff.mp hnil)
      exact ⟨_, _, [], .cons hstep (.cons htest (.single (hpoll hcore2 rfl hne))),
        h.setPc hbusy Pc.noConfusion, rfl, List.prefix_refl _, fun _ _ => rfl⟩
    · cases hnil
  | cons p rest1 ih =>
    have hother : ∀ cmd ∈ s.inflight, cmd.task ≠ p := fun cmd hcmd =>
      (List.nodup_append.mp h.nodup).2.2 cmd.task (List.mem_map_of_mem hcmd) p List.mem_cons_self
    obtain ⟨s1, rest', hs1, hturn⟩ := h.tick_turn hbusy
    have hstep : Working cfg s .tick s1 := ⟨hbusy, hs1⟩
    have hcore1 := h.turn hturn
    rcases hturn.at_loop hpc with ⟨hnil, _⟩ | ⟨p', rest2, task, heq, htask, hnext⟩
    · cases hnil
    · obtain ⟨rfl, rfl⟩ := List.cons.inj heq
      rcases hnext with ⟨_, rfl, task', rfl⟩ | ⟨rfl, rfl⟩
      · refine ⟨_, _, _, .cons hstep (.single (hpoll hcore1 rfl hne)),
          hcore1.setPc Pc.noConfusion Pc.noConfusion, rfl, List.prefix_refl _, ?_⟩
        intro cmd hcmd
        exact update_of_ne (hother cmd hcmd) _ _
      · have hmore : (afterSubmit cfg s p task).inflight ≠ [] := by
          change s.inflight ++ _ ≠ []
          simp [hne]
        obtain ⟨ls, t, rest', hrun, hcore', hpc', hpre, hkeep⟩ := ih hcore1 hpc hmore hbusy
        refine ⟨_, t, rest', .cons hstep hrun, hcore', hpc',
          (List.prefix_append _ _).trans hpre, ?_⟩
        intro cmd hcmd
        rw [hkeep cmd (List.mem_append_left _ hcmd)]
        exact update_of_ne (hother cmd hcmd) _ _

/-! The head. -/

/-- A read drops bytes beyond the first segment: its `copy_to_buf` leaves the segment. -/
theorem fillMem_overrun {f : FillCb} (s : Sys) (task : Task) (hread : task.command = .readCommand)
    (hfill : task.fillCb = some f) (hhead : dataBufferSize < f.tmpOff) (hlt : f.tmpOff < 2 ^ 64)
    (hlen : 0 < f.tmpLen) : fillMem s task = .error .overrun := by
  unfold fillMem
  rw [hread, hfill]
  exact copyToBuf_overrun s.dma task.ioRequest.segs f.buf s.mem hhead hlt hlen

theorem Core.first_moved (h : Core cfg pend (p :: rest) s) (hpc : s.pc = .test)
    (hin : s.inflight = []) (hdepth : 0 < cfg.maxQueueDepth) (htask : s.tasks p = some task) :
    ∃ ls t, Run (Working cfg) s ls t ∧ Core cfg pend rest t ∧ t.pc = .loop ∧
      ∃ cmd s1, t.inflight = [cmd] ∧ cmd.moved = true ∧ t.tasks cmd.task = some (sentTask s1 task) := by
  have hlive : flight s.inflight ++ p :: rest ≠ [] := by simp
  have htest := h.tick_test hpc hlive
  have hcore1 : Core cfg pend (p :: rest) { s with pc := .again } :=
    h.setPc htest.1 Pc.noConfusion
  have hagain := hcore1.tick_again rfl
  have hcore2 : Core cfg pend (p :: rest) { s with pc := .loop } := h.setPc htest.1 Pc.noConfusion
  rw [if_pos hin] at hagain
  obtain ⟨s3, rest', hs3, hturn⟩ := hcore2.tick_turn Pc.noConfusion
  have hsubmit : Working cfg { s with pc := .loop } .tick s3 := ⟨Pc.noConfusion, hs3⟩
  have hcore3 := hcore2.turn hturn
  rcases hturn.at_loop rfl with ⟨hnil, _⟩ | ⟨p', rest1, task', heq, htask', hnext⟩
  · cases hnil
  obtain ⟨rfl, rfl⟩ := List.cons.inj heq
  obtain rfl : task = task' := Option.some.inj (htask.symm.trans htask')
  rcases hnext with ⟨hwait, _⟩ | ⟨rfl, rfl⟩
  · rcases hwait with hne | hzero
    · exact absurd hin hne
    · omega
  have hone : (afterSubmit cfg { s with pc := .loop } p task).inflight =
      [sentCommand cfg { s with pc := .loop } p task] := by
    change s.inflight ++ [_] = _
    rw [hin]
    exact rfl
  have hi : (afterSubmit cfg { s with pc := .loop } p task).inflight[0]? =
      some (sentCommand cfg { s with pc := .loop } p task) := by
    rw [hone]
    exact rfl
  have hmove : Working cfg (afterSubmit cfg { s with pc := .loop } p task) (.transfer 0) (move cfg
      { afterSubmit cfg { s with pc := .loop } p task with
        inflight := (afterSubmit cfg { s with pc := .loop } p task).inflight.set 0
          { sentCommand cfg { s with pc := .loop } p task with moved := true } }
      (sentCommand cfg { s with pc := .loop } p task)) := by
    refine ⟨Pc.noConfusion, ?_⟩
    unfold Step Label.exec
    simp only [hi]
    exact if_neg Bool.false_ne_true
  refine ⟨_, _, .cons htest (.cons hagain (.cons hsubmit (.single hmove))), hcore3.transfer hi, ?_⟩
  rw [hone]
  unfold move
  split
  · exact ⟨rfl, _, _, rfl, rfl, update_self _ _ _⟩
  · exact ⟨rfl, _, _, rfl, rfl, update_self _ _ _⟩

theorem Core.overruns {f : FillCb} (h : Core cfg pend (p :: rest) s) (hpc : s.pc = .test)
    (hin : s.inflight = []) (hdepth : 0 < cfg.maxQueueDepth) (htask : s.tasks p = some task)
    (hread : task.command = .readCommand) (hfill : task.fillCb = some f)
    (hhead : dataBufferSize < f.tmpOff) (hlt : f.tmpOff < 2 ^ 64) (hlen : 0 < f.tmpLen) :
    ¬ Returns cfg Q s := by
  intro hret
  obtain ⟨ls, s1, hrun, hcore1, hloop, cmd, s2, hone, hmoved, hsentTask⟩ :=
    h.first_moved hpc hin hdepth htask
  have hmem : cmd ∈ s1.inflight := by
    rw [hone]
    exact List.mem_singleton_self cmd
  obtain ⟨ks, t, rest', hrun', hcore, hpoll, ⟨more, hmore⟩, hkeep⟩ :=
    hcore1.polls hloop (List.ne_nil_of_mem hmem)
  have hi : t.inflight[0]? = some cmd := by
    rw [← hmore, hone]
    exact rfl
  obtain ⟨task', htask', hsent⟩ := hcore.sent cmd (List.mem_of_getElem? hi)
  obtain rfl : sentTask s2 task = task' :=
    Option.some.inj ((hkeep cmd hmem).trans hsentTask ▸ htask')
  have hfault : Label.exec cfg t (.complete 0) = .error .overrun := by
    unfold Label.exec
    simp only [hi]
    rw [if_pos ⟨hpoll, hmoved⟩, hcore.ioComplete_eq hi htask' hsent,
      fillMem_overrun t (sentTask s2 task) hread hfill hhead hlt hlen]
    exact rfl
  have hdisabled := (hret.safe _ t (hrun.trans hrun') (by simp [hpoll])).2 _ _ hfault
  cases hdisabled

/-! `read_random`. -/

/-- The blocks from `a` on, `n` bytes of them, around a range. -/
structure Around (cfg : Config) (off len a n : Nat) : Prop where
  start : cfg.blockSize ∣ a
  blocks : cfg.blockSize ∣ n
  le : a ≤ off
  head : off - a = off % cfg.blockSize
  covers : off + len ≤ a + n
  inside : a + n ≤ cfg.size
  tight : n < len + 2 * cfg.blockSize

theorem around {k : Nat} (hbs : cfg.blockSize = 2 ^ k) (hk : k < 64) (hsize : cfg.size < 2 ^ 63)
    (hdvd : cfg.blockSize ∣ cfg.size) (hpos : 0 < len) (hend : off + len ≤ cfg.size) :
    Around cfg off len (p2align off cfg.blockSize)
      (sub64 (p2roundup (add64 off len) cfg.blockSize) (p2align off cfg.blockSize)) := by
  have hb : 0 < cfg.blockSize := by
    rw [hbs]
    exact Nat.two_pow_pos k
  obtain ⟨hcover, _⟩ := window_cover hk hbs hdvd (by omega) hpos hend
  have hle : p2align off cfg.blockSize ≤ off := hcover.start.1.2
  have htail := hcover.tail hb
  have hhead := hcover.head hb
  exact ⟨hcover.start.1.1, hcover.blocks, hle, (hcover.mod_eq hb).symm, hcover.stop.1.2,
    hcover.inside hdvd hend, by omega⟩

/-- `read_random` returns 0 with the bytes of its range, and writes nothing beyond them; no copy
leaves a segment on the way, or the call would not be safe. -/
def ReadsExactly (cfg : Config) (s : Sys) (off len buf : Nat) : Prop :=
  ∃ s', readRandom cfg s off len buf = .ok s' ∧ Returns cfg (fun t => t.ret = 0 ∧
    (∀ i, i < len → t.mem (buf + i) = s.disk (off + i)) ∧
    ∀ x, ¬ Within buf len x → t.mem x = s.mem x) s'

/-- A request that the asserts of `read_random` admit, on a device of whole blocks. -/
structure Admitted (cfg : Config) (k off len : Nat) : Prop where
  blockSize : cfg.blockSize = 2 ^ k
  le : cfg.blockSize ≤ 131072
  size : cfg.size < 2 ^ 63
  whole : cfg.blockSize ∣ cfg.size
  pos : 0 < len
  lt : len < 2 ^ 47
  inside : off + len ≤ cfg.size

theorem Admitted.split {k : Nat} (h : Admitted cfg k off len) : cfg.blockSize ∣ splitSize :=
  dvd_splitSize h.blockSize h.le

theorem Admitted.around {k : Nat} (h : Admitted cfg k off len) : ∃ a n, Around cfg off len a n ∧
    ∀ s buf, readRandom cfg s off len buf = readSync s a n buf off len := by
  have hk : k < 64 := by
    have hlt : 2 ^ k < 2 ^ 64 := by
      have hle := h.le
      rw [h.blockSize] at hle
      omega
    exact (Nat.pow_lt_pow_iff_right (by decide)).mp hlt
  refine ⟨_, _, Blk.around h.blockSize hk h.size h.whole h.pos h.inside, ?_⟩
  intro s buf
  have hin := h.inside
  have hpos := h.pos
  have hsize := h.size
  unfold readRandom
  rw [if_pos]
  refine ⟨hpos, by omega, ?_⟩
  rwa [add64_of_lt (by omega)]

theorem Admitted.skip {k a n : Nat} (h : Admitted cfg k off len) (ha : Around cfg off len a n) :
    off - a < min n splitSize := by
  have hb : 0 < cfg.blockSize := by
    rw [h.blockSize]
    exact Nat.two_pow_pos k
  have hmod := Nat.mod_lt off hb
  have hle := h.le
  have hpos := h.pos
  have hstart := ha.le
  have hcovers := ha.covers
  have hhead := ha.head
  have hsplit : splitSize = 131072 := rfl
  omega

theorem Admitted.count {k a n : Nat} (h : Admitted cfg k off len) (ha : Around cfg off len a n) :
    (n + (splitSize - 1)) / splitSize < 2 ^ 31 := by
  have hle := h.le
  have hlt := h.lt
  have htight := ha.tight
  have hsplit : splitSize = 131072 := rfl
  rw [hsplit]
  omega

/-- What `read_random` submits: the first of its tasks is to drop the head. -/
theorem Admitted.begun {k : Nat} (h : Admitted cfg k off len) (hs : Reached cfg s)
    (hidle : s.pc = .idle) {s' : Sys} (hcall : readRandom cfg s off len buf = .ok s') :
    ∃ pend p rest task f, Core cfg pend (p :: rest) s' ∧ s'.pc = .test ∧ s'.inflight = [] ∧
      s'.tasks p = some task ∧ task.command = .readCommand ∧ task.fillCb = some f ∧
      f.tmpOff = off % cfg.blockSize ∧ 0 < f.tmpLen := by
  obtain ⟨a, n, ha, hsync⟩ := h.around
  obtain ⟨pend, hquiet, _⟩ := hs.quiet hidle
  have hskip := h.skip ha
  have hpos := h.pos
  have hinside := ha.inside
  have hsize := h.size
  have hle := ha.le
  obtain ⟨cs, hcs, hspec⟩ : ∃ cs, readChunks a buf n off len = some cs ∧
      ReadSplit a n (off - a) len buf cs :=
    readChunks_spec (by omega) hle (Or.inr hskip) ha.covers
  have hloop : makeReadLoop (2 ^ 64 - 1 + 1) a (add64 a n) (sub64 off a) len buf = some cs := hcs
  rw [add64_of_lt (by omega), sub64_of_le hle (by omega)] at hloop
  obtain ⟨_, _, cs', rfl, _⟩ := makeReadLoop_cons hloop (by omega)
  obtain ⟨s1, ps, hs1, hbegun⟩ := hquiet.readSync_begun hidle hcs (List.cons_ne_nil _ _)
    (by rw [hspec.count]; exact h.count ha) cfg
  rw [hsync, hs1] at hcall
  obtain rfl := Except.ok.inj hcall
  have hjobs := hbegun.jobs
  cases ps with
  | nil => cases hjobs
  | cons p rest =>
    obtain ⟨hjob, _⟩ := List.cons.inj hjobs
    obtain ⟨task, htask, hfirst⟩ := Option.map_eq_some_iff.mp hjob
    refine ⟨pend, p, rest, task, _, hbegun.core, hbegun.pc, hbegun.inflight, htask,
      congrArg Job.command hfirst, congrArg Job.fillCb hfirst, ha.head, ?_⟩
    change 0 < min len (sub64 (min (a + n - a) splitSize) (off - a))
    rw [Nat.add_sub_cancel_left, sub64_of_le (by omega) (by omega)]
    omega

theorem Admitted.reads {k : Nat} (h : Admitted cfg k off len) (hs : Reached cfg s)
    (hidle : s.pc = .idle) (hhead : off % cfg.blockSize ≤ dataBufferSize)
    (hdepth : 0 < cfg.maxQueueDepth) (buf : Nat) : ReadsExactly cfg s off len buf := by
  obtain ⟨a, n, ha, hsync⟩ := h.around
  obtain ⟨pend, hquiet, _⟩ := hs.quiet hidle
  have hskip := h.skip ha
  have hinside := ha.inside
  have hsize := h.size
  obtain ⟨s', hs', hret⟩ := hquiet.readSync_returns hidle h.split hdepth ha.start
    ha.blocks (by omega) (by omega) ha.le (Or.inr hskip) ha.covers (by rw [ha.head]; exact hhead)
    (h.count ha)
  refine ⟨s', (hsync s buf).trans hs', hret.mono fun t ht => ⟨ht.ret, ?_, ?_⟩⟩
  · intro i hi
    rw [ht.mem, blit_within s.mem _ hi]
  · intro x hx
    rw [ht.mem, blit_outside s.mem _ hx]

theorem Admitted.overruns {k : Nat} (h : Admitted cfg k off len) (hs : Reached cfg s)
    (hidle : s.pc = .idle) (hhead : dataBufferSize < off % cfg.blockSize)
    (hdepth : 0 < cfg.maxQueueDepth) (buf : Nat) : ¬ ReadsExactly cfg s off len buf := by
  rintro ⟨s', hcall, hret⟩
  obtain ⟨pend, p, rest, task, f, hcore, hpc, hin, htask, hread, hfill, hskip, hpos⟩ :=
    h.begun hs hidle hcall
  have hle : off % cfg.blockSize ≤ off := Nat.mod_le _ _
  have hinside := h.inside
  have hsize := h.size
  exact hcore.overruns hpc hin hdepth htask hread hfill (by omega) (by omega) hpos hret

/-- `read_random` reads exactly its range if and only if the head it drops lies in one segment, and
the queue has a slot. -/
theorem read_random_exact_iff {k : Nat} (h : Admitted cfg k off len) (hs : Reached cfg s)
    (hidle : s.pc = .idle) (buf : Nat) :
    ReadsExactly cfg s off len buf ↔
      off % cfg.blockSize ≤ dataBufferSize ∧ 0 < cfg.maxQueueDepth := by
  constructor
  · intro hreads
    have hdepth : 0 < cfg.maxQueueDepth := by
      rcases Nat.eq_zero_or_pos cfg.maxQueueDepth with hzero | hdepth
      · obtain ⟨s', hcall, hret⟩ := hreads
        obtain ⟨pend, p, rest, _, _, hcore, hpc, hin, _⟩ := h.begun hs hidle hcall
        have hstalled : Stalled cfg s' :=
          ⟨by simp [hpc], hin, pend, p :: rest, List.cons_ne_nil _ _, hcore⟩
        exact absurd hret (hstalled.not_returns hzero)
      · exact hdepth
    refine ⟨?_, hdepth⟩
    by_contra hhead
    exact h.overruns hs hidle (by omega) hdepth buf hreads
  · rintro ⟨hhead, hdepth⟩
    exact h.reads hs hidle hhead hdepth buf

/-- The head may end where the segment ends. -/
theorem read_random_exact_iff_8192 :
    ReadsExactly ⟨16384, 2 ^ 40, 2⟩ started 8192 300000 7 ↔
      8192 % 16384 ≤ dataBufferSize ∧ 0 < 2 :=
  read_random_exact_iff (k := 14) ⟨by decide, by decide, by decide, by decide, by decide, by decide,
    by decide⟩ (.start started_initial) rfl 7

/-- One byte further, on blocks of 16 KiB. -/
theorem read_random_overruns : ¬ ∀ (cfg : Config) (s : Sys) (k off len buf : Nat),
    Admitted cfg k off len → Reached cfg s → s.pc = .idle → ReadsExactly cfg s off len buf := by
  intro hclaim
  have hadmitted : Admitted ⟨16384, 2 ^ 40, 2⟩ 14 8193 1 :=
    ⟨by decide, by decide, by decide, by decide, by decide, by decide, by decide⟩
  have hs : Reached ⟨16384, 2 ^ 40, 2⟩ started := .start started_initial
  exact hadmitted.overruns hs rfl (by decide) (by decide) 0 (hclaim _ _ _ _ _ _ hadmitted hs rfl)

end

end LockdepSpdk.Blk
