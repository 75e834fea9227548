import LockdepSpdk.Blk.Footprint

/-!
# Steps on other bytes

A step of a thread inside its region, taken on bytes that differ outside the region
only, goes the same way. SPDK's transfers, the copy into the segments of a write and
the `fill_cb` of a read are all that look at bytes.
-/

namespace LockdepSpdk.Blk

set_option autoImplicit false

open Function ByteRange Interleaving Transition

/-! The three copies. -/

section Copies

theorem blit_same {m m' : Nat → UInt8} (a k : Nat) (src : Nat → UInt8) {x : Nat}
    (h : m x = m' x) : blit m a k src x = blit m' a k src x := by
  unfold blit
  split
  · rfl
  · exact h

theorem loadSegs_congr {mem mem' : Nat → UInt8} {segs : List Nat} {src left : Nat}
    (dma : Nat → Nat → UInt8) (hleft : segs.length * dataBufferSize < left + dataBufferSize)
    (h : ∀ x, Within src left x → mem x = mem' x) :
    loadSegs mem segs src left dma = loadSegs mem' segs src left dma := by
  induction segs generalizing src left dma with
  | nil => rfl
  | cons g gs ih =>
    cases gs with
    | nil =>
      simp only [loadSegs]
      rw [blit_congr (dma g) fun j hj => h (src + j) (within_add.mpr hj)]
    | cons g' gs =>
      rw [List.length_cons, Nat.add_mul] at hleft
      have hlong : dataBufferSize ≤ left := by
        rw [List.length_cons, Nat.add_mul] at hleft
        omega
      have hhead : blit (dma g) 0 dataBufferSize (fun j => mem (src + j)) =
          blit (dma g) 0 dataBufferSize (fun j => mem' (src + j)) :=
        blit_congr (dma g) fun j hj => h (src + j) (within_add.mpr (by omega))
      simp only [loadSegs]
      rw [hhead]
      refine ih _ (by omega) fun x hx => h x ?_
      unfold Within at *
      omega

theorem scatter_congr {sgl : List Sge} {src src' : Nat → UInt8} {n : Nat}
    (dma : Nat → Nat → UInt8) (h : ∀ j, j < n → src j = src' j) :
    scatter sgl src n dma = scatter sgl src' n dma := by
  induction sgl generalizing src src' n dma with
  | nil => rfl
  | cons e es ih =>
    have hhead : blit (dma e.seg) e.off (min e.len n) src =
        blit (dma e.seg) e.off (min e.len n) src' :=
      blit_congr (dma e.seg) fun j hj => h j (by omega)
    simp only [scatter]
    rw [hhead]
    exact ih _ fun j hj => h (e.len + j) (by omega)

theorem copyToBuf_local (dma : Nat → Nat → UInt8) (segs : List Nat) (off left buf : Nat)
    (mem mem' : Nat → UInt8) :
    (∃ e, copyToBuf dma segs off left buf mem = .error e ∧
      copyToBuf dma segs off left buf mem' = .error e) ∨
    ∃ m m', copyToBuf dma segs off left buf mem = .ok m ∧
      copyToBuf dma segs off left buf mem' = .ok m' ∧
      (∀ x, ¬ Within buf left x → m x = mem x) ∧ ∀ x, mem x = mem' x → m x = m' x := by
  induction segs generalizing off left buf mem mem' with
  | nil =>
    simp only [copyToBuf]
    split
    · exact Or.inr ⟨mem, mem', rfl, rfl, fun _ _ => rfl, fun _ h => h⟩
    · exact Or.inl ⟨_, rfl, rfl⟩
  | cons g gs ih =>
    simp only [copyToBuf]
    split
    · exact Or.inr ⟨mem, mem', rfl, rfl, fun _ _ => rfl, fun _ h => h⟩
    · split
      · generalize hneed : min left (sub64 dataBufferSize off) = need
        rcases ih 0 (left - need) (buf + need) (blit mem buf need fun j => dma g (off + j))
            (blit mem' buf need fun j => dma g (off + j)) with herror | ⟨m, m', hm, hm', hout, hin⟩
        · exact Or.inl herror
        · refine Or.inr ⟨m, m', hm, hm', fun x hx => ?_, fun x hx => hin x ?_⟩
          · have hrest : ¬ Within (buf + need) (left - need) x := by
              unfold Within at *
              omega
            have hfirst : ¬ Within buf need x := by
              unfold Within at *
              omega
            rw [hout x hrest, blit_outside mem _ hfirst]
          · exact blit_same _ _ _ hx
      · exact Or.inl ⟨_, rfl, rfl⟩

end Copies

/-! Two results of a step. -/

/-- `y` is the outcome `x` of a step from `s`, on bytes that differ outside the region only; the
step has written inside. -/
inductive Follows (r : Region) (s : Sys) : Except Fault Sys → Except Fault Sys → Prop where
  | error (e : Fault) : Follows r s (.error e) (.error e)
  | ok {u : Sys} {n : Place → UInt8} : (∀ x, ¬ r.writes x → u.store x = s.store x) →
      Agree r.uses u.store n → Follows r s (.ok u) (.ok (u.over n))

section
variable {cfg : Config} {r : Region} {s s' : Sys} {n : Place → UInt8} {p : TaskPtr} {task : Task}

theorem Follows.onto {f : Sys → Except Fault Sys} (hn : Agree r.uses s.store n)
    (h : f (s.over n) = Blk.onto n (f s)) (hstore : ∀ u, f s = .ok u → u.store = s.store) :
    Follows r s (f s) (f (s.over n)) := by
  rw [h]
  cases hf : f s with
  | error e => exact .error e
  | ok u =>
    have heq := hstore u hf
    refine .ok (fun x _ => by rw [heq]) ?_
    rw [heq]
    exact hn

theorem Blind.follows {f : Sys → Except Fault Sys} (h : Blind f) (hn : Agree r.uses s.store n) :
    Follows r s (f s) (f (s.over n)) := .onto hn (h s n) fun _ hu => h.store hu

theorem Follows.bind {x y : Except Fault Sys} {f : Sys → Except Fault Sys} (h : Follows r s x y)
    (hf : Blind f) : Follows r s (x >>= f) (y >>= f) := by
  cases h with
  | error e => exact .error e
  | @ok u n hframe hagree =>
    change Follows r s (f u) (f (u.over n))
    rw [hf u n]
    cases hu : f u with
    | error e => exact .error e
    | ok v =>
      have heq := hf.store hu
      refine .ok (fun x hx => ?_) ?_
      · rw [heq]
        exact hframe x hx
      · rw [heq]
        exact hagree

theorem Follows.base {x y : Except Fault Sys} (h : Follows r s' x y) (hstore : s'.store = s.store) :
    Follows r s x y := by
  cases h with
  | error e => exact .error e
  | ok hframe hagree => exact .ok (fun z hz => (hframe z hz).trans (congrFun hstore z)) hagree

theorem allocBufFromPool_over {write : Bool} (htask : task.Inside cfg r)
    (hwrite : write = true → task.command = .writeCommand) (hn : Agree r.uses s.store n) :
    allocBufFromPool (s.over n) p task write =
      (allocBufFromPool s p task write).map (Option.map fun u => u.over n) := by
  unfold allocBufFromPool
  change (if s.dataBufList.length < segCount task.len then _ else _) =
    Except.map _ (if s.dataBufList.length < segCount task.len then _ else _)
  by_cases hlt : s.dataBufList.length < segCount task.len
  · rw [if_pos hlt, if_pos hlt]
    rfl
  · rw [if_neg hlt, if_neg hlt]
    cases task.ctx with
    | none => rfl
    | some c =>
      cases write with
      | false => rfl
      | true =>
        have hlen : (s.dataBufList.take (segCount task.len)).length = segCount task.len :=
          List.length_take_of_le (by omega)
        have hload : loadSegs (s.over n).mem (s.dataBufList.take (segCount task.len)) task.buf
            task.len s.dma = loadSegs s.mem (s.dataBufList.take (segCount task.len)) task.buf
            task.len s.dma := by
          refine loadSegs_congr s.dma ?_ fun x hx => ?_
          · rw [hlen]
            exact segCount_lt task.len
          · exact (hn (.mem x) ((htask.written (hwrite rfl)).2 x hx)).symm
        simp only
        change Except.ok (some _) = Except.ok (some _)
        rw [show (s.over n).dataBufList = s.dataBufList from rfl,
          show (s.over n).dma = s.dma from rfl, hload]
        rfl

theorem sendData_over {write : Bool} (htask : task.Inside cfg r)
    (hwrite : write = true → task.command = .writeCommand) (hn : Agree r.uses s.store n) :
    sendData cfg (s.over n) p task write = onto n (sendData cfg s p task write) := by
  unfold sendData
  rw [allocBufFromPool_over htask hwrite hn]
  cases allocBufFromPool s p task write with
  | error e => rfl
  | ok o =>
    cases o with
    | none => rfl
    | some s1 => exact (sendCommand_blind cfg p write).bind (submitted_blind p) s1 n

theorem submit_over (h : s.Inside cfg r) (hn : Agree r.uses s.store n) :
    submit cfg (s.over n) p = onto n (submit cfg s p) := by
  unfold submit
  rw [show (s.over n).currentQueueDepth = s.currentQueueDepth from rfl,
    show (s.over n).task p = s.task p from rfl]
  split
  · rfl
  · cases htask : s.task p with
    | error e => rfl
    | ok task =>
      have hin : task.queued.Inside cfg r := (h.tasks p task (Sys.task_ok htask)).congr rfl
      have hover : (s.over n).setTask p task.queued = (s.setTask p task.queued).over n := rfl
      have hagree : Agree r.uses (s.setTask p task.queued).store n := hn
      simp only [ok_bind]
      rw [hover]
      cases hcmd : task.command with
      | writeCommand => exact sendData_over hin (fun _ => hcmd) hagree
      | readCommand => exact sendData_over hin (fun hw => by cases hw) hagree
      | flushCommand => exact submitted_blind p (sendFlush (s.setTask p task.queued) p) n

theorem tick_over (h : s.Inside cfg r) (hn : Agree r.uses s.store n) :
    tick cfg (s.over n) = onto n (tick cfg s) := by
  unfold tick
  rw [show (s.over n).pc = s.pc from rfl]
  cases s.pc with
  | idle => rfl
  | test =>
    simp only
    rw [show ((s.over n).ctxs (s.over n).ioc).numRunning = (s.ctxs s.ioc).numRunning from rfl]
    split
    · exact returnCall_blind s n
    · rfl
  | again => rfl
  | polling => rfl
  | loop =>
    simp only
    rw [show (s.over n).t = s.t from rfl]
    cases s.t with
    | none => rfl
    | some p => exact submit_over h hn

theorem runFillCb_follows (htask : task.Inside cfg r) (hcmd : task.command = .readCommand)
    (hn : Agree r.uses s.store n) : Follows r s (runFillCb s task) (runFillCb (s.over n) task) := by
  unfold runFillCb
  cases hfill : task.fillCb with
  | none => exact .error _
  | some f =>
    simp only
    rw [show (s.over n).dma = s.dma from rfl]
    rcases copyToBuf_local s.dma task.ioRequest.segs f.tmpOff f.tmpLen f.buf s.mem (s.over n).mem with
      ⟨e, he, he'⟩ | ⟨m, m', hm, hm', hout, hin⟩
    · rw [he, he']
      exact .error e
    · rw [hm, hm']
      have hwrites := ((htask.read hcmd).2 f hfill)
      refine .ok (u := { s with mem := m }) (n := bytes (fun a => n (.disk a)) m') ?_ ?_
      · intro x hx
        cases x with
        | disk a => rfl
        | mem a => exact hout a fun hw => hx (hwrites a hw)
      · intro x hx
        cases x with
        | disk a => exact hn (.disk a) hx
        | mem a => exact hin a (hn (.mem a) hx)

theorem move_follows {c : Command} (hc : c.Inside cfg r) (hn : Agree r.uses s.store n) :
    Follows r s (.ok (move cfg s c)) (.ok (move cfg (s.over n) c)) := by
  unfold move
  simp only
  by_cases hw : c.write = true
  · rw [if_pos hw, if_pos hw]
    refine .ok (n := bytes (blit (fun a => n (.disk a)) (c.lbaOff * cfg.blockSize)
      (min (sglLen c.sgl) (c.lbaCount * cfg.blockSize)) (gather s.dma c.sgl))
        (fun a => n (.mem a))) ?_ ?_
    · intro x hx
      cases x with
      | mem a => rfl
      | disk a =>
        refine blit_outside s.disk _ fun hin => hx ?_
        have ha := hc a (by unfold Within at *; omega)
        rwa [if_pos hw] at ha
    · intro x hx
      cases x with
      | mem a => exact hn (.mem a) hx
      | disk a =>
        have ha : s.disk a = (s.over n).disk a := hn (.disk a) hx
        exact blit_same _ _ _ ha
  · rw [if_neg hw, if_neg hw]
    have hsame : scatter c.sgl (fun j => (s.over n).disk (c.lbaOff * cfg.blockSize + j))
        (c.lbaCount * cfg.blockSize) s.dma = scatter c.sgl
          (fun j => s.disk (c.lbaOff * cfg.blockSize + j)) (c.lbaCount * cfg.blockSize) s.dma := by
      refine scatter_congr s.dma fun j hj => ?_
      have ha := hc (c.lbaOff * cfg.blockSize + j) (within_add.mpr hj)
      rw [if_neg hw] at ha
      exact (hn (.disk _) ha).symm
    rw [show (s.over n).dma = s.dma from rfl, hsame]
    exact .ok (fun _ _ => rfl) hn

theorem settle_blind (p : TaskPtr) (c : CtxPtr) : Blind fun s => releaseSegs s p >>= fun s2 =>
    s2.task p >>= fun task =>
      if task.returnCode = 0 then finishOne s2 c >>= fun s3 => deleteTask s3 p
      else finishSync s2 p task c := by
  refine (releaseSegs_blind p).bind fun s n => ?_
  rw [show (s.over n).task p = s.task p from rfl]
  cases s.task p with
  | error e => rfl
  | ok task =>
    simp only [ok_bind]
    split
    · exact (finishOne_blind c).bind (deleteTask_blind p) s n
    · exact finishSync_blind p task c s n

theorem ioComplete_follows (h : s.Inside cfg r) (hn : Agree r.uses s.store n) :
    Follows r s (ioComplete s p) (ioComplete (s.over n) p) := by
  unfold ioComplete
  rw [show (s.over n).task p = s.task p from rfl]
  cases htask : s.task p with
  | error e => exact .error e
  | ok task =>
    have hin := h.tasks p task (Sys.task_ok htask)
    simp only [ok_bind]
    cases task.ctx with
    | none => exact .error _
    | some c =>
      simp only
      split
      · exact .error _
      · have hstart : { s.over n with
            currentQueueDepth := (s.over n).currentQueueDepth - 1 }.record (.complete c p) =
            ({ s with currentQueueDepth := s.currentQueueDepth - 1 }.record (.complete c p)).over n :=
          rfl
        rw [hstart]
        cases hcmd : task.command with
        | writeCommand =>
          exact (((finishOne_blind c).bind ((releaseSegs_blind p).bind (deleteTask_blind p))).follows
            (s := { s with currentQueueDepth := s.currentQueueDepth - 1 }.record (.complete c p))
            hn).base (s := s) rfl
        | readCommand =>
          exact ((runFillCb_follows
            (s := { s with currentQueueDepth := s.currentQueueDepth - 1 }.record (.complete c p))
            hin hcmd hn).base (s := s) rfl).bind (settle_blind p c)
        | flushCommand => exact .ok (fun _ _ => rfl) hn

theorem Label.exec_follows (h : s.Inside cfg r) {l : Label} (hl : l.Inside cfg r)
    (hn : Agree r.uses s.store n) : Follows r s (l.exec cfg s) (l.exec cfg (s.over n)) := by
  cases l with
  | call call =>
    simp only [Label.exec]
    rw [show (s.over n).pc = s.pc from rfl]
    split
    · exact (Call.exec_blind cfg call).follows hn
    · exact .error _
  | store a v =>
    simp only [Label.exec]
    rw [show (s.over n).pc = s.pc from rfl]
    split
    · refine .ok (u := { s with mem := update s.mem a v })
        (n := bytes (fun b => n (.disk b)) (update (fun b => n (.mem b)) a v)) ?_ ?_
      · intro x hx
        cases x with
        | disk b => rfl
        | mem b =>
          refine update_of_ne ?_ v s.mem
          rintro rfl
          exact hx hl
      · intro x hx
        cases x with
        | disk b => exact hn (.disk b) hx
        | mem b =>
          have hb : s.mem b = n (.mem b) := hn (.mem b) hx
          change update s.mem a v b = update (fun b => n (.mem b)) a v b
          by_cases hba : b = a
          · rw [hba, update_self, update_self]
          · rw [update_of_ne hba, update_of_ne hba]
            exact hb
    · exact .error _
  | tick =>
    refine Follows.onto hn (tick_over h hn) fun u hu => ?_
    have hself := tick_over h (Agree.refl s.store)
    change Blk.tick cfg s = onto s.store (Blk.tick cfg s) at hself
    rw [show Blk.tick cfg s = .ok u from hu] at hself
    have heq : u = u.over s.store := Except.ok.inj hself
    rw [heq, Sys.store_over]
  | transfer i =>
    simp only [Label.exec]
    rw [show (s.over n).inflight = s.inflight from rfl]
    cases hi : s.inflight[i]? with
    | none => exact .error _
    | some c =>
      simp only
      split
      · exact .error _
      · exact (move_follows (s := { s with inflight := s.inflight.set i { c with moved := true } })
          (h.inflight c (List.mem_of_getElem? hi)) hn).base (s := s) rfl
  | complete i =>
    simp only [Label.exec]
    rw [show (s.over n).inflight = s.inflight from rfl, show (s.over n).pc = s.pc from rfl]
    cases hi : s.inflight[i]? with
    | none => exact .error _
    | some c =>
      simp only
      split
      · have herased : Sys.Inside cfg r { s with inflight := s.inflight.eraseIdx i } :=
          ⟨h.tasks, fun d hd => h.inflight d (List.mem_of_mem_eraseIdx hd)⟩
        exact (ioComplete_follows herased hn).base (s := s) rfl
      · exact .error _

end

end LockdepSpdk.Blk
