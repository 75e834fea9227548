import LockdepSpdk.Blk.Plan
import LockdepSpdk.Blk.Invariant

/-!
# The bytes under way

Of a plan for the live tasks: what the device, the memory and the segments hold of
it while commands are submitted, moved and completed in any order.
-/

namespace LockdepSpdk.Blk

set_option autoImplicit false

open Function ByteRange Transition

/-! The jobs of live tasks. -/

def jobsOf (tasks : TaskPtr → Option Task) (ps : List TaskPtr) : List Job :=
  ps.filterMap (jobOf tasks)

/-- The tasks of the commands that SPDK has not moved. -/
def unmoved (inflight : List Command) : List TaskPtr :=
  flight (inflight.filter fun c => c.moved = false)

section
variable {tasks tasks' : TaskPtr → Option Task} {ps qs : List TaskPtr} {p : TaskPtr} {task : Task}
  {job : Job}

theorem mem_jobsOf : job ∈ jobsOf tasks ps ↔ ∃ p ∈ ps, ∃ task, tasks p = some task ∧
    task.job = job := by
  unfold jobsOf jobOf
  simp only [List.mem_filterMap, Option.map_eq_some_iff]

theorem jobsOf_mem (hp : p ∈ ps) (htask : tasks p = some task) : task.job ∈ jobsOf tasks ps :=
  mem_jobsOf.mpr ⟨p, hp, task, htask, rfl⟩

theorem jobsOf_mono (hle : ∀ q ∈ qs, q ∈ ps) : ∀ j ∈ jobsOf tasks qs, j ∈ jobsOf tasks ps := by
  intro j hj
  obtain ⟨q, hq, hjob⟩ := mem_jobsOf.mp hj
  exact mem_jobsOf.mpr ⟨q, hle q hq, hjob⟩

theorem jobsOf_congr (h : ∀ q ∈ ps, jobOf tasks' q = jobOf tasks q) :
    jobsOf tasks' ps = jobsOf tasks ps := by
  unfold jobsOf
  apply List.filterMap_congr
  exact h

theorem jobOf_update {task' : Task} (htask : tasks p = some task) (hjob : task'.job = task.job) :
    jobOf (update tasks p (some task')) = jobOf tasks := by
  funext q
  unfold jobOf
  by_cases hq : q = p
  · subst hq
    rw [update_self, htask, Option.map_some, Option.map_some, hjob]
  · rw [update_of_ne hq]

theorem firstTargets_jobs {l : List Job} {a n : Nat} : firstTargets (l.map Job.copy) a n ↔
    ∃ j ∈ l, j.command = .writeCommand ∧ j.offset + j.skip = a ∧ j.count = n := by
  unfold firstTargets
  simp only [List.mem_map, exists_exists_and_eq_and, Job.toFirst_iff]
  exact Iff.rfl

theorem secondTargets_jobs {l : List Job} {a n : Nat} : secondTargets (l.map Job.copy) a n ↔
    ∃ j ∈ l, j.command ≠ .writeCommand ∧ j.mem = a ∧ j.count = n := by
  unfold secondTargets
  simp only [List.mem_map, exists_exists_and_eq_and, Job.toFirst_iff]
  exact Iff.rfl

theorem firstTargets_left (hps : ∀ q ∈ ps, q = p ∨ q ∈ qs) (htask : tasks p = some task) {a n : Nat}
    (h : firstTargets ((jobsOf tasks ps).map Job.copy) a n) :
    firstTargets ((jobsOf tasks qs).map Job.copy) a n ∨
      (task.command = .writeCommand ∧ a = task.offset + task.job.skip ∧ n = task.job.count) := by
  obtain ⟨j, hj, hwrite, ha, hn⟩ := firstTargets_jobs.mp h
  obtain ⟨q, hq, task', htask', hjob⟩ := mem_jobsOf.mp hj
  rcases hps q hq with rfl | hq
  · rw [htask] at htask'
    obtain rfl := Option.some.inj htask'
    subst hjob
    exact Or.inr ⟨hwrite, ha.symm, hn.symm⟩
  · subst hjob
    exact Or.inl (firstTargets_jobs.mpr ⟨_, jobsOf_mem hq htask', hwrite, ha, hn⟩)

theorem secondTargets_left (hps : ∀ q ∈ ps, q = p ∨ q ∈ qs) (htask : tasks p = some task)
    {a n : Nat} (h : secondTargets ((jobsOf tasks ps).map Job.copy) a n) :
    secondTargets ((jobsOf tasks qs).map Job.copy) a n ∨
      (task.command ≠ .writeCommand ∧ a = task.job.mem ∧ n = task.job.count) := by
  obtain ⟨j, hj, hread, ha, hn⟩ := secondTargets_jobs.mp h
  obtain ⟨q, hq, task', htask', hjob⟩ := mem_jobsOf.mp hj
  rcases hps q hq with rfl | hq
  · rw [htask] at htask'
    obtain rfl := Option.some.inj htask'
    subst hjob
    exact Or.inr ⟨hread, ha.symm, hn.symm⟩
  · subst hjob
    exact Or.inl (secondTargets_jobs.mpr ⟨_, jobsOf_mem hq htask', hread, ha, hn⟩)

end

/-- The live tasks carry out a plan: the segments of a write, and of a read that is moved, hold the
blocks as they are to be. -/
structure Carries (cfg : Config) (disk mem : Nat → UInt8) (rest : List TaskPtr) (s : Sys) :
    Prop where
  plan : Planned cfg.blockSize disk mem (jobsOf s.tasks (flight s.inflight ++ rest))
  written : Settled s.disk disk
    (firstTargets ((jobsOf s.tasks (unmoved s.inflight ++ rest)).map Job.copy))
  filled : Settled s.mem mem
    (secondTargets ((jobsOf s.tasks (flight s.inflight ++ rest)).map Job.copy))
  held : ∀ cmd ∈ s.inflight, cmd.write = true ∨ cmd.moved = true → ∀ task,
    s.tasks cmd.task = some task → ∀ j, j < task.len →
      segView s.dma task.ioRequest.segs j = disk (task.offset + j)

section
variable {cfg : Config} {pend : CtxPtr → List TaskPtr} {rest : List TaskPtr} {s s' : Sys}
  {disk mem : Nat → UInt8} {i : Nat} {cmd cmd' : Command} {p : TaskPtr} {task : Task}

theorem Carries.quiet (h : Carries cfg disk mem rest s) (hinflight : s'.inflight = s.inflight)
    (hjobs : jobOf s'.tasks = jobOf s.tasks)
    (htasks : ∀ cmd ∈ s.inflight, s'.tasks cmd.task = s.tasks cmd.task)
    (hdisk : s'.disk = s.disk) (hmem : s'.mem = s.mem) (hdma : s'.dma = s.dma) :
    Carries cfg disk mem rest s' := by
  have hsame : ∀ ps, jobsOf s'.tasks ps = jobsOf s.tasks ps := fun ps =>
    jobsOf_congr fun q _ => congrFun hjobs q
  refine ⟨?_, ?_, ?_, ?_⟩
  · rw [hinflight, hsame]
    exact h.plan
  · rw [hinflight, hsame, hdisk]
    exact h.written
  · rw [hinflight, hsame, hmem]
    exact h.filled
  · rw [hinflight, hdma]
    intro cmd hcmd hbytes task htask
    rw [htasks cmd hcmd] at htask
    exact h.held cmd hcmd hbytes task htask

theorem Sent.segs_fit {frame : Option TaskPtr} {c : CtxPtr} (h : Sent cfg frame c cmd task) :
    task.len ≤ task.ioRequest.segs.length * dataBufferSize := by
  rw [h.segs]
  exact le_segCount task.len

theorem Core.held_nodup (h : Core cfg pend rest s) :
    (s.dataBufList ++ heldSegs s.tasks s.inflight).Nodup :=
  h.pool.nodup_iff.mpr List.nodup_range

theorem Sent.mem_held {frame : Option TaskPtr} {c : CtxPtr} (h : Sent cfg frame c cmd task)
    (htask : s.tasks cmd.task = some task) {inflight : List Command} (hcmd : cmd ∈ inflight) {g : Nat}
    (hg : g ∈ task.ioRequest.segs) : g ∈ heldSegs s.tasks inflight := by
  apply List.mem_flatMap.mpr
  refine ⟨cmd, hcmd, ?_⟩
  rw [segsHeld_of htask, h.nseg, ← h.segs, List.take_length]
  exact hg

theorem Sent.range {frame : Option TaskPtr} {c : CtxPtr} (h : Sent cfg frame c cmd task)
    (hoff : cfg.blockSize ∣ task.offset) (hlen : cfg.blockSize ∣ task.len) :
    cmd.lbaOff * cfg.blockSize = task.offset ∧ cmd.lbaCount * cfg.blockSize = task.len := by
  obtain ⟨hlbaOff, hlbaCount⟩ := Prod.mk.inj h.extent
  rw [hlbaOff, hlbaCount]
  exact ⟨Nat.div_mul_cancel hoff, Nat.div_mul_cancel hlen⟩

theorem mem_unmoved {inflight : List Command} :
    p ∈ unmoved inflight ↔ ∃ cmd ∈ inflight, cmd.moved = false ∧ cmd.task = p := by
  unfold unmoved flight
  simp only [List.mem_map, List.mem_filter, decide_eq_true_eq, and_assoc]

theorem unmoved_flight {inflight : List Command} (h : p ∈ unmoved inflight ++ rest) :
    p ∈ flight inflight ++ rest := by
  rcases List.mem_append.mp h with h | h
  · obtain ⟨cmd, hcmd, _, rfl⟩ := mem_unmoved.mp h
    exact List.mem_append_left _ (List.mem_map_of_mem hcmd)
  · exact List.mem_append_right _ h

/-! Submission. -/

theorem Carries.send (h : Carries cfg disk mem (p :: rest) s) (hcore : Core cfg pend (p :: rest) s)
    (htask : s.tasks p = some task) (_ : Ready s.frame s.ioc p task)
    (hpool : segCount task.len ≤ s.dataBufList.length) :
    Carries cfg disk mem rest (afterSubmit cfg s p task) := by
  have hjobs : jobOf (update s.tasks p (some (sentTask s task))) = jobOf s.tasks :=
    jobOf_update htask rfl
  have hsame : ∀ ps, jobsOf (update s.tasks p (some (sentTask s task))) ps = jobsOf s.tasks ps :=
    fun ps => jobsOf_congr fun q _ => congrFun hjobs q
  have hlive : flight (s.inflight ++ [sentCommand cfg s p task]) ++ rest =
      flight s.inflight ++ p :: rest := flight_append _ _ _
  have hunmoved : unmoved (s.inflight ++ [sentCommand cfg s p task]) ++ rest =
      unmoved s.inflight ++ p :: rest := by
    simp [unmoved, flight, sentCommand]
  have hnd := List.nodup_append.mp hcore.held_nodup
  refine ⟨?_, ?_, ?_, ?_⟩
  · change Planned _ _ _ (jobsOf (update s.tasks p _) (flight (s.inflight ++ [_]) ++ rest))
    rw [hsame, hlive]
    exact h.plan
  · change Settled s.disk disk (firstTargets
      ((jobsOf (update s.tasks p _) (unmoved (s.inflight ++ [_]) ++ rest)).map Job.copy))
    rw [hsame, hunmoved]
    exact h.written
  · change Settled s.mem mem (secondTargets
      ((jobsOf (update s.tasks p _) (flight (s.inflight ++ [_]) ++ rest)).map Job.copy))
    rw [hsame, hlive]
    exact h.filled
  · intro cmd hcmd hbytes task' htask' j hj
    change update s.tasks p (some (sentTask s task)) cmd.task = some task' at htask'
    rcases List.mem_append.mp hcmd with hcmd | hcmd
    · -- the segments of the other commands were not in the pool
      have hne : cmd.task ≠ p := (List.nodup_append.mp hcore.nodup).2.2 cmd.task
        (List.mem_map_of_mem hcmd) p List.mem_cons_self
      rw [update_of_ne hne] at htask'
      obtain ⟨task0, htask0, hsent⟩ := hcore.sent cmd hcmd
      rw [htask'] at htask0
      obtain rfl := Option.some.inj htask0
      rw [← h.held cmd hcmd hbytes task' htask' j hj]
      apply segView_congr _ (Nat.lt_of_lt_of_le hj hsent.segs_fit)
      intro g hg
      have hheld := hsent.mem_held htask' hcmd hg
      change (if task.command = .writeCommand then loadSegs s.mem _ task.buf task.len s.dma
        else s.dma) g = s.dma g
      split
      · apply loadSegs_other
        intro hpooled
        exact hnd.2.2 g (List.mem_of_mem_take hpooled) g hheld rfl
      · exact rfl
    · obtain rfl := List.mem_singleton.mp hcmd
      have hself : update s.tasks p (some (sentTask s task)) p = some (sentTask s task) :=
        update_self _ _ _
      obtain rfl := Option.some.inj (hself.symm.trans htask')
      change j < task.len at hj
      have hwrite : task.command = .writeCommand := by
        rcases hbytes with hwrite | hmoved
        · exact of_decide_eq_true hwrite
        · cases hmoved
      have hjob : task.job ∈ jobsOf s.tasks (flight s.inflight ++ p :: rest) :=
        jobsOf_mem (List.mem_append_right _ List.mem_cons_self) htask
      have hfill := h.plan.of_write hjob hwrite
      have hcount : task.job.count = task.len := Job.none_count hfill
      have hmem : task.job.mem = task.buf := Job.none_mem hfill
      have hsrc : s.mem (task.job.mem + j) = mem (task.job.mem + j) := by
        apply h.filled.read _ (hcount ▸ hj)
        intro b k hk
        obtain ⟨r, hr, hread, rfl, rfl⟩ := secondTargets_jobs.mp hk
        exact (h.plan.memory r hr _ hjob (h.plan.of_read hr hread).1 hwrite).symm
      have hagree := h.plan.agree _ hjob j (hcount ▸ hj)
      have hdma : (afterSubmit cfg s p task).dma =
          loadSegs s.mem (s.dataBufList.take (segCount task.len)) task.buf task.len s.dma :=
        if_pos hwrite
      rw [Job.none_skip hfill, ← hsrc, hmem] at hagree
      change segView (afterSubmit cfg s p task).dma (s.dataBufList.take (segCount task.len)) j =
        disk (task.offset + j)
      rw [hdma, loadSegs_view s.mem (hnd.1.sublist (List.take_sublist _ _)) _ _ _ _ hj]
      · exact hagree.symm
      · rw [List.length_take, Nat.min_eq_left hpool]
        exact le_segCount task.len

/-! Transfers. -/

theorem set_perm (cmd' : Command) (hi : s.inflight[i]? = some cmd) :
    (s.inflight.set i cmd').Perm (cmd' :: s.inflight.eraseIdx i) := by
  have hlt := (List.getElem?_eq_some_iff.mp hi).1
  have hperm := inflight_perm (s := { s with inflight := s.inflight.set i cmd' })
    (List.getElem?_set_self hlt)
  change (s.inflight.set i cmd').Perm (cmd' :: (s.inflight.set i cmd').eraseIdx i) at hperm
  rwa [List.eraseIdx_set_eq] at hperm

theorem mem_set_iff (hi : s.inflight[i]? = some cmd) {cmd'' : Command} :
    cmd' ∈ s.inflight.set i cmd'' ↔ cmd' = cmd'' ∨ cmd' ∈ s.inflight.eraseIdx i := by
  rw [(set_perm cmd'' hi).mem_iff, List.mem_cons]

/-- Two commands in flight share no segment. -/
theorem Core.segs_apart {task' : Task} (h : Core cfg pend rest s) (hi : s.inflight[i]? = some cmd)
    (htask : s.tasks cmd.task = some task) (hsent : Sent cfg s.frame s.ioc cmd task)
    (hcmd' : cmd' ∈ s.inflight.eraseIdx i) (htask' : s.tasks cmd'.task = some task')
    (hsent' : Sent cfg s.frame s.ioc cmd' task') {g : Nat} (hg : g ∈ task'.ioRequest.segs) :
    g ∉ task.ioRequest.segs := by
  intro hg'
  have hnd := (held_perm s.tasks hi).nodup_iff.mp (List.nodup_append.mp h.held_nodup).2.1
  have hself : g ∈ segsHeld s.tasks cmd.task := by
    rw [(hsent.held htask).1, hsent.nseg, ← hsent.segs, List.take_length]
    exact hg'
  exact (List.nodup_append.mp hnd).2.2 g hself g (hsent'.mem_held htask' hcmd' hg) rfl

theorem Core.segs_nodup (h : Core cfg pend rest s) (hi : s.inflight[i]? = some cmd)
    (htask : s.tasks cmd.task = some task) (hsent : Sent cfg s.frame s.ioc cmd task) :
    task.ioRequest.segs.Nodup := by
  have hnd := (held_perm s.tasks hi).nodup_iff.mp (List.nodup_append.mp h.held_nodup).2.1
  have hself := (List.nodup_append.mp hnd).1
  rwa [(hsent.held htask).1, hsent.nseg, ← hsent.segs, List.take_length] at hself

theorem unmoved_set (hi : s.inflight[i]? = some cmd) :
    ∀ q ∈ unmoved s.inflight ++ rest,
      q = cmd.task ∨ q ∈ unmoved (s.inflight.set i { cmd with moved := true }) ++ rest := by
  intro q hq
  rcases List.mem_append.mp hq with hq | hq
  · obtain ⟨cmd', hcmd', hmoved, rfl⟩ := mem_unmoved.mp hq
    rcases List.mem_cons.mp ((inflight_perm hi).mem_iff.mp hcmd') with rfl | hcmd'
    · exact Or.inl rfl
    · right
      apply List.mem_append_left
      exact mem_unmoved.mpr ⟨cmd', (mem_set_iff hi).mpr (Or.inr hcmd'), hmoved, rfl⟩
  · exact Or.inr (List.mem_append_right _ hq)

theorem move_write (s : Sys) (hsent : Sent cfg s.frame s.ioc cmd task) (hwrite : cmd.write = true)
    (hoff : cfg.blockSize ∣ task.offset) (hlen : cfg.blockSize ∣ task.len) :
    move cfg s cmd = { s with
      disk := blit s.disk task.offset task.len (segView s.dma task.ioRequest.segs) } := by
  obtain ⟨hlba, hcount⟩ := hsent.range hoff hlen
  have hbytes : blit s.disk task.offset task.len (gather s.dma cmd.sgl) =
      blit s.disk task.offset task.len (segView s.dma task.ioRequest.segs) := by
    apply blit_congr
    intro j hj
    rw [hsent.sgl]
    exact gather_pieces s.dma hsent.segs_fit hj
  have hsgl : sglLen cmd.sgl = task.len := by
    rw [hsent.sgl]
    exact pieces_sglLen hsent.segs_fit
  unfold move
  simp only
  rw [if_pos hwrite, hlba, hcount, hsgl, Nat.min_self, hbytes]

theorem move_read (s : Sys) (hsent : Sent cfg s.frame s.ioc cmd task) (hread : cmd.write ≠ true)
    (hoff : cfg.blockSize ∣ task.offset) (hlen : cfg.blockSize ∣ task.len) :
    move cfg s cmd = { s with
      dma := scatter (pieces task.ioRequest.segs task.len) (fun j => s.disk (task.offset + j))
        task.len s.dma } := by
  obtain ⟨hlba, hcount⟩ := hsent.range hoff hlen
  unfold move
  simp only
  rw [if_neg hread, hlba, hcount, hsent.sgl]

theorem Carries.transfer (h : Carries cfg disk mem rest s) (hcore : Core cfg pend rest s)
    (hi : s.inflight[i]? = some cmd) :
    Carries cfg disk mem rest
      (move cfg { s with inflight := s.inflight.set i { cmd with moved := true } } cmd) := by
  have hcmd := List.mem_of_getElem? hi
  obtain ⟨task, htask, hsent⟩ := hcore.sent cmd hcmd
  have hflight := flight_set hi
  have hjob : task.job ∈ jobsOf s.tasks (flight s.inflight ++ rest) :=
    jobsOf_mem (List.mem_append_left _ (List.mem_map_of_mem hcmd)) htask
  obtain ⟨hoff, hlen⟩ : cfg.blockSize ∣ task.offset ∧ cfg.blockSize ∣ task.len :=
    h.plan.blocks _ hjob
  have hplan : Planned cfg.blockSize disk mem (jobsOf s.tasks
      (flight (s.inflight.set i { cmd with moved := true }) ++ rest)) := by
    rw [hflight]
    exact h.plan
  have hfilled : Settled s.mem mem (secondTargets ((jobsOf s.tasks
      (flight (s.inflight.set i { cmd with moved := true }) ++ rest)).map Job.copy)) := by
    rw [hflight]
    exact h.filled
  by_cases hwrite : cmd.write = true
  · have hmove := move_write { s with inflight := s.inflight.set i { cmd with moved := true } } hsent
      hwrite hoff hlen
    have hcommand : task.command = .writeCommand := of_decide_eq_true (hsent.write.symm.trans hwrite)
    have hfill := h.plan.of_write hjob hcommand
    rw [hmove]
    refine ⟨hplan, ?_, hfilled, ?_⟩
    · apply h.written.blit
      · intro j hj
        exact h.held cmd hcmd (Or.inl hwrite) task htask j hj
      · intro b k hk
        rcases firstTargets_left (unmoved_set hi) htask hk with hk | ⟨_, hb, hn⟩
        · exact Or.inl hk
        · rw [Job.none_skip hfill, Nat.add_zero] at hb
          exact Or.inr ⟨hb, hn.trans (Job.none_count hfill)⟩
    · intro cmd' hcmd' hbytes task' htask' j hj
      rcases (mem_set_iff hi).mp hcmd' with rfl | hcmd'
      · exact h.held cmd hcmd (Or.inl hwrite) task' htask' j hj
      · exact h.held cmd' (List.mem_of_mem_eraseIdx hcmd') hbytes task' htask' j hj
  · have hmove := move_read { s with inflight := s.inflight.set i { cmd with moved := true } } hsent
      hwrite hoff hlen
    have hcommand : task.command ≠ .writeCommand := by
      intro hcommand
      exact hwrite (hsent.write.trans (decide_eq_true hcommand))
    have hread : task.job.command = .readCommand := (h.plan.of_read hjob hcommand).1
    rw [hmove]
    refine ⟨hplan, ?_, hfilled, ?_⟩
    · apply h.written.mono
      intro b k hk
      rcases firstTargets_left (unmoved_set hi) htask hk with hk | ⟨hw, _⟩
      · exact hk
      · exact absurd hw hcommand
    · intro cmd' hcmd' hbytes task' htask' j hj
      rcases (mem_set_iff hi).mp hcmd' with rfl | hcmd'
      · have hself : some task = some task' := htask.symm.trans htask'
        obtain rfl := Option.some.inj hself
        change segView (scatter _ _ _ s.dma) _ _ = _
        rw [scatter_pieces (hcore.segs_nodup hi htask hsent) _ _ hsent.segs_fit (Nat.le_refl _) hj]
        -- no write that is still to come changes the blocks of a read
        apply h.written.read _ hj
        intro b k hk
        obtain ⟨w, hw, hwc, rfl, rfl⟩ := firstTargets_jobs.mp hk
        have hw' := jobsOf_mono (fun _ hq => unmoved_flight hq) w hw
        have hnone := h.plan.of_write hw' hwc
        rw [Job.none_skip hnone, Job.none_count hnone, Nat.add_zero]
        exact h.plan.device _ hjob w hw' hread hwc
      · have hcmd'' := List.mem_of_mem_eraseIdx hcmd'
        obtain ⟨task0, htask0, hsent0⟩ := hcore.sent cmd' hcmd''
        have hself : some task0 = some task' := htask0.symm.trans htask'
        obtain rfl := Option.some.inj hself
        rw [← h.held cmd' hcmd'' hbytes task0 htask' j hj]
        apply segView_congr _ (Nat.lt_of_lt_of_le hj hsent0.segs_fit)
        intro g hg
        apply scatter_other
        intro e he heq
        apply hcore.segs_apart hi htask hsent hcmd' htask0 hsent0 hg
        rw [← heq]
        exact pieces_seg he

/-! Completion. -/

theorem Carries.fill (h : Carries cfg disk mem rest s) (hi : s.inflight[i]? = some cmd)
    (hmoved : cmd.moved = true) (htask : s.tasks cmd.task = some task)
    (hsent : Sent cfg s.frame s.ioc cmd task) :
    ∃ m, fillMem s task = .ok m ∧ Settled m mem (secondTargets
      ((jobsOf s.tasks (flight (s.inflight.eraseIdx i) ++ rest)).map Job.copy)) := by
  have hcmd := List.mem_of_getElem? hi
  have hjob : task.job ∈ jobsOf s.tasks (flight s.inflight ++ rest) :=
    jobsOf_mem (List.mem_append_left _ (List.mem_map_of_mem hcmd)) htask
  have hlive : ∀ q ∈ flight s.inflight ++ rest,
      q = cmd.task ∨ q ∈ flight (s.inflight.eraseIdx i) ++ rest := by
    intro q hq
    exact List.mem_cons.mp ((live_perm rest hi).mem_iff.mp hq)
  rcases h.plan.kind _ hjob with ⟨hwrite, _⟩ | ⟨hread, f, hf⟩
  · have hcommand : task.command = .writeCommand := hwrite
    refine ⟨s.mem, ?_, ?_⟩
    · unfold fillMem
      rw [hcommand]
    · apply h.filled.mono
      intro b k hk
      rcases secondTargets_left hlive htask hk with hk | ⟨hr, _⟩
      · exact hk
      · exact absurd hcommand hr
  · have hcommand : task.command = .readCommand := hread
    have hfill : task.fillCb = some f := hf
    have hskip : task.job.skip = f.tmpOff := by
      unfold Job.skip
      rw [hf]
    have hcount : task.job.count = f.tmpLen := by
      unfold Job.count
      rw [hf]
    have hmem : task.job.mem = f.buf := by
      unfold Job.mem
      rw [hf]
    obtain ⟨hfit, hhead⟩ := h.plan.fit _ hjob
    rw [hskip, hcount] at hfit
    rw [hskip] at hhead
    have hle : f.tmpOff + f.tmpLen ≤ task.ioRequest.segs.length * dataBufferSize :=
      Nat.le_trans hfit hsent.segs_fit
    refine ⟨blit s.mem f.buf f.tmpLen fun j => segView s.dma task.ioRequest.segs (f.tmpOff + j),
      ?_, ?_⟩
    · unfold fillMem
      rw [hcommand, hfill]
      exact copyToBuf_ok s.dma s.mem hhead hle
    · apply h.filled.blit
      · intro j hj
        have hagree := h.plan.agree _ hjob j (hcount ▸ hj)
        rw [hskip, hmem, Nat.add_assoc] at hagree
        have hin : f.tmpOff + j < task.len := Nat.lt_of_lt_of_le (Nat.add_lt_add_left hj _) hfit
        rw [← hagree]
        exact h.held cmd hcmd (Or.inr hmoved) task htask _ hin
      · intro b k hk
        rcases secondTargets_left hlive htask hk with hk | ⟨_, hb, hn⟩
        · exact Or.inl hk
        · exact Or.inr ⟨hb.trans hmem, hn.trans hcount⟩

theorem Carries.retire {m : Nat → UInt8} (h : Carries cfg disk mem rest s)
    (hcore : Core cfg pend rest s) (hi : s.inflight[i]? = some cmd) (hmoved : cmd.moved = true)
    (hm : Settled m mem (secondTargets
      ((jobsOf s.tasks (flight (s.inflight.eraseIdx i) ++ rest)).map Job.copy)))
    (events : List Event) :
    Carries cfg disk mem rest (completed { s with inflight := s.inflight.eraseIdx i } cmd.task task
      (retireTasks s cmd.task task) m events) := by
  have hkeep : ∀ p ∈ flight (s.inflight.eraseIdx i) ++ rest,
      retireTasks s cmd.task task p = s.tasks p := fun p hp => hcore.retire_other hi task hp
  have hjobs : ∀ ps : List TaskPtr, (∀ p ∈ ps, p ∈ flight (s.inflight.eraseIdx i) ++ rest) →
      jobsOf (retireTasks s cmd.task task) ps = jobsOf s.tasks ps := by
    intro ps hps
    apply jobsOf_congr
    intro p hp
    unfold jobOf
    rw [hkeep p (hps p hp)]
  have hlive : ∀ q ∈ flight (s.inflight.eraseIdx i) ++ rest, q ∈ flight s.inflight ++ rest := by
    intro q hq
    exact (live_perm rest hi).mem_iff.mpr (List.mem_cons_of_mem _ hq)
  refine ⟨?_, ?_, ?_, ?_⟩
  · change Planned _ _ _ (jobsOf (retireTasks s cmd.task task) (flight (s.inflight.eraseIdx i) ++ rest))
    rw [hjobs _ fun _ hp => hp]
    exact h.plan.mono (jobsOf_mono hlive)
  · change Settled s.disk disk (firstTargets
      ((jobsOf (retireTasks s cmd.task task) (unmoved (s.inflight.eraseIdx i) ++ rest)).map Job.copy))
    rw [hjobs _ fun _ hp => unmoved_flight hp]
    apply h.written.mono
    intro a n hk
    obtain ⟨w, hw, hwc⟩ := firstTargets_jobs.mp hk
    refine firstTargets_jobs.mpr ⟨w, jobsOf_mono ?_ w hw, hwc⟩
    intro p hp
    rcases List.mem_append.mp hp with hp | hp
    · obtain ⟨cmd', hcmd', hunmoved, htask'⟩ := mem_unmoved.mp hp
      apply List.mem_append_left
      rcases List.mem_cons.mp ((inflight_perm hi).mem_iff.mp hcmd') with rfl | hcmd'
      · rw [hmoved] at hunmoved
        cases hunmoved
      · exact mem_unmoved.mpr ⟨cmd', hcmd', hunmoved, htask'⟩
    · exact List.mem_append_right _ hp
  · change Settled m mem (secondTargets
      ((jobsOf (retireTasks s cmd.task task) (flight (s.inflight.eraseIdx i) ++ rest)).map Job.copy))
    rw [hjobs _ fun _ hp => hp]
    exact hm
  · intro cmd' hcmd' hbytes task' htask' j hj
    change retireTasks s cmd.task task cmd'.task = some task' at htask'
    rw [hkeep _ (List.mem_append_left _ (List.mem_map_of_mem hcmd'))] at htask'
    exact h.held cmd' (List.mem_of_mem_eraseIdx hcmd') hbytes task' htask' j hj

/-! All steps. -/

theorem Carries.through (h : Carries cfg disk mem rest s) (hlive : flight s.inflight ++ rest = []) :
    s.disk = disk ∧ s.mem = mem := by
  obtain ⟨hflight, rfl⟩ := List.append_eq_nil_iff.mp hlive
  obtain hin : s.inflight = [] := List.map_eq_nil_iff.mp hflight
  have hwritten := h.written
  have hfilled := h.filled
  rw [hin] at hwritten hfilled
  exact ⟨first_done hwritten, second_done hfilled⟩

theorem carries_nil (hin : s.inflight = []) (hdisk : s.disk = disk) (hmem : s.mem = mem) :
    Carries cfg disk mem [] s := by
  refine ⟨?_, ?_, ?_, ?_⟩
  · rw [hin]
    exact ⟨by simp [jobsOf, flight], by simp [jobsOf, flight], by simp [jobsOf, flight],
      by simp [jobsOf, flight], by simp [jobsOf, flight], by simp [jobsOf, flight]⟩
  · rw [hdisk]
    exact Settled.self disk _
  · rw [hmem]
    exact Settled.self mem _
  · simp [hin]

theorem Carries.turn {rest' : List TaskPtr} (h : Carries cfg disk mem rest s)
    (hcore : Core cfg pend rest s) (ht : Turn cfg s rest s' rest') :
    Carries cfg disk mem rest' s' := by
  cases ht with
  | done hpc hin =>
    obtain ⟨hdisk, hmem⟩ := h.through (by rw [hin]; exact rfl)
    exact carries_nil hin hdisk hmem
  | more hpc hne => exact h.quiet rfl rfl (fun _ _ => rfl) rfl rfl rfl
  | poll hpc hin => exact h.quiet rfl rfl (fun _ _ => rfl) rfl rfl rfl
  | skip hpc hin => exact h.quiet rfl rfl (fun _ _ => rfl) rfl rfl rfl
  | polled hpc => exact h.quiet rfl rfl (fun _ _ => rfl) rfl rfl rfl
  | last hpc => exact h.quiet rfl rfl (fun _ _ => rfl) rfl rfl rfl
  | @wait p rest task task' hpc htask htask' _ =>
    have hjob : task'.job = task.job := by
      rcases htask' with rfl | rfl
      · exact rfl
      · exact rfl
    refine h.quiet rfl (jobOf_update htask hjob) ?_ rfl rfl rfl
    intro cmd hcmd
    apply update_of_ne
    exact (List.nodup_append.mp hcore.nodup).2.2 cmd.task (List.mem_map_of_mem hcmd) p
      List.mem_cons_self
  | @send p rest task hpc htask hready hslot hpool => exact h.send hcore htask hready hpool

theorem Carries.working {l : Label} (h : Carries cfg disk mem rest s)
    (hcore : Core cfg pend rest s) (hstep : Working cfg s l s') :
    ∃ rest', Core cfg pend rest' s' ∧ Carries cfg disk mem rest' s' := by
  rcases hstep.cases with ⟨_, htick⟩ | ⟨i, cmd, _, hi, _, rfl⟩ | ⟨i, cmd, _, hi, hmoved, hpc, hdone⟩
  · obtain ⟨s1, rest', hs1, hturn⟩ := hcore.tick_turn hstep.1
    obtain rfl := Except.ok.inj (hs1.symm.trans htick)
    exact ⟨rest', hcore.turn hturn, h.turn hcore hturn⟩
  · exact ⟨rest, hcore.transfer hi, h.transfer hcore hi⟩
  · obtain ⟨task, htask, hsent⟩ := hcore.sent cmd (List.mem_of_getElem? hi)
    obtain ⟨m, hfill, hm⟩ := h.fill hi hmoved htask hsent
    rw [hcore.ioComplete_eq hi htask hsent, hfill] at hdone
    obtain rfl := Except.ok.inj hdone
    exact ⟨rest, hcore.retire (by simp [hpc]) hi htask hsent m, h.retire hcore hi hmoved hm _⟩

end

end LockdepSpdk.Blk
