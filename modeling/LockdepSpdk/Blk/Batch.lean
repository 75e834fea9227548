import LockdepSpdk.Blk.Roundtrip
import Mathlib.Algebra.Order.BigOperators.Group.List
import Mathlib.Algebra.Order.Group.Nat

/-!
# Batches

Requests that are appended to one context and submitted at once, against the same
requests made one after the other. They come to the same when no request disturbs
another one, on the device or in the memory of the caller.
-/

namespace LockdepSpdk.Blk

set_option autoImplicit false

open Function ByteRange Transition

structure Request where
  write : Bool
  off : Nat
  len : Nat
  buf : Nat
  deriving DecidableEq

namespace Request

def aio (n : Nat) (r : Request) : Call :=
  if r.write then .aioWrite r.off r.len r.buf n else .aioRead r.off r.len r.buf n

def sync (r : Request) : Call :=
  if r.write then .write r.off r.len r.buf else .read r.off r.len r.buf

def job (r : Request) : Job :=
  if r.write then Job.ofWrite r.off r.len r.buf else Job.ofRead r.off r.len 0 r.len r.buf

/-- `is_valid_io` passes, and not because the sum wraps. -/
def Valid (cfg : Config) (r : Request) : Prop :=
  isValidIo cfg r.off r.len = true ∧ r.off + r.len < 2 ^ 64

/-- Neither request writes what the other reads or writes. -/
def Disjoint (r q : Request) : Prop :=
  Apart r.off r.len q.off q.len ∧
    (r.write = false ∨ q.write = false → Apart r.buf r.len q.buf q.len)

theorem Disjoint.symm {r q : Request} (h : Disjoint r q) : Disjoint q r :=
  ⟨h.1.symm, fun hread => (h.2 hread.symm).symm⟩

end Request

def submitAll (cfg : Config) (n : Nat) (s : Sys) (rs : List Request) : Except Fault Sys := do
  let s1 ← rs.foldlM (fun s r => (r.aio n).exec cfg s) s
  aioSubmit s1 (.user n)

/-- The requests are made one after the other, and the last one returns with `Q`. -/
def OneByOne (cfg : Config) (Q : Sys → Prop) : List Request → Sys → Prop
  | [], s => Q s
  | r :: rs, s => ∃ s', r.sync.exec cfg s = .ok s' ∧ Returns cfg (OneByOne cfg Q rs) s'

/-- The device is as `disk`, and the buffers that the requests read into are as `mem`. -/
def Agrees (rs : List Request) (disk mem : Nat → UInt8) (s : Sys) : Prop :=
  s.disk = disk ∧ ∀ r ∈ rs, r.write = false → ∀ i, i < r.len → s.mem (r.buf + i) = mem (r.buf + i)

def NonePending (s : Sys) (c : CtxPtr) : Prop :=
  (s.ctxs c).nvmeTaskFirst = none ∧ (s.ctxs c).nvmeTaskLast = none ∧ (s.ctxs c).numPending = 0

/-- The batch comes to what the requests come to one by one, on every run of either. -/
def Refines (cfg : Config) (n : Nat) (rs batch : List Request) (s : Sys) : Prop :=
  ∃ disk mem, OneByOne cfg (Agrees rs disk mem) rs s ∧ ∃ s', submitAll cfg n s batch = .ok s' ∧
    Returns cfg (fun t => Agrees rs disk mem t ∧ NonePending t (.user n)) s'

section
variable {cfg : Config} {pend : CtxPtr → List TaskPtr} {s s' : Sys} {n : Nat} {r : Request}
  {rs : List Request}

/-! One request. -/

theorem Request.Valid.inside (h : r.Valid cfg) : cfg.blockSize ∣ r.off ∧ cfg.blockSize ∣ r.len ∧
    0 < r.len ∧ r.off + r.len ≤ cfg.size := by
  obtain ⟨hvalid, hlt⟩ := h
  obtain ⟨hoff, hlen, hpos, _, hend⟩ := isValidIo_iff.mp hvalid
  rw [add64_of_lt hlt] at hend
  exact ⟨hoff, hlen, hpos, hend⟩

theorem Request.Valid.chunks (h : r.Valid cfg) (hsize : cfg.size < 2 ^ 63) :
    ∃ cs, readChunks r.off r.buf r.len r.off r.len = some cs ∧
      ReadSplit r.off r.len 0 r.len r.buf cs := by
  obtain ⟨_, _, hpos, hend⟩ := h.inside
  obtain ⟨cs, hcs, hspec⟩ : ∃ cs, readChunks r.off r.buf r.len r.off r.len = some cs ∧
      ReadSplit r.off r.len (r.off - r.off) r.len r.buf cs :=
    readChunks_spec (by omega) (Nat.le_refl _) (Or.inl rfl) (Nat.le_refl _)
  rw [Nat.sub_self] at hspec
  exact ⟨cs, hcs, hspec⟩

theorem Request.Valid.count (h : r.Valid cfg) (hsize : cfg.size < 2 ^ 63) (n : Nat) :
    (r.aio n).taskCount cfg = (r.len + (splitSize - 1)) / splitSize := by
  obtain ⟨cs, hcs, hspec⟩ := h.chunks hsize
  obtain ⟨_, _, _, hend⟩ := h.inside
  have hwrite : WriteSplit r.off r.len r.buf (writeChunks r.off r.len r.buf) :=
    writeChunks_spec (by omega)
  unfold Request.aio
  split
  · exact hwrite.count
  · change ((readChunks r.off r.buf r.len r.off r.len).getD []).length = _
    rw [hcs]
    exact hspec.count

theorem Request.Valid.divides (h : r.Valid cfg) (hsize : cfg.size < 2 ^ 63)
    (hb : cfg.blockSize ∣ splitSize) : Divides cfg.blockSize r.job r.job.split := by
  obtain ⟨hoff, hlen, _, hend⟩ := h.inside
  obtain ⟨cs, hcs, hspec⟩ := h.chunks hsize
  unfold Request.job
  split
  · exact write_divides (by omega) hb hoff hlen
  · exact read_divides hcs hspec hb hoff hlen

theorem Request.job_fit : r.job.skip + r.job.count ≤ r.job.len ∧ r.job.skip ≤ dataBufferSize := by
  unfold Request.job
  cases r.write with
  | true => exact ⟨Nat.le_of_eq (Nat.zero_add _), Nat.zero_le _⟩
  | false => exact ⟨Nat.le_of_eq (Nat.zero_add _), Nat.zero_le _⟩

theorem Request.job_kind : (r.job.command = .writeCommand ∧ r.job.fillCb = none) ∨
    (r.job.command = .readCommand ∧ ∃ f, r.job.fillCb = some f) := by
  unfold Request.job
  cases r.write with
  | true => exact Or.inl ⟨rfl, rfl⟩
  | false => exact Or.inr ⟨rfl, _, rfl⟩

theorem Request.job_range : r.job.offset = r.off ∧ r.job.len = r.len ∧
    r.job.copy = ⟨r.write, r.off, r.buf, r.len⟩ := by
  unfold Request.job
  cases r.write with
  | true => exact ⟨rfl, rfl, rfl⟩
  | false => exact ⟨rfl, rfl, rfl⟩

theorem Request.Disjoint.independent {q : Request} (h : r.Disjoint q) :
    Independent r.job.copy q.job.copy := by
  rw [r.job_range.2.2, q.job_range.2.2]
  refine ⟨fun _ => h.1, fun hread => h.2 ?_⟩
  simpa using hread

theorem requests_planned (hvalid : ∀ r ∈ rs, r.Valid cfg) (hdisjoint : rs.Pairwise Request.Disjoint)
    (d : (Nat → UInt8) × (Nat → UInt8)) :
    Planned cfg.blockSize (runAll ((rs.map Request.job).map Job.copy) d).1
      (runAll ((rs.map Request.job).map Job.copy) d).2 (rs.map Request.job) := by
  apply planned_of_independent
  · intro j hj
    obtain ⟨r, _, rfl⟩ := List.mem_map.mp hj
    exact r.job_kind
  · intro j hj
    obtain ⟨r, hr, rfl⟩ := List.mem_map.mp hj
    obtain ⟨hoff, hlen, _⟩ := (hvalid r hr).inside
    rw [r.job_range.1, r.job_range.2.1]
    exact ⟨hoff, hlen⟩
  · intro j hj
    obtain ⟨r, _, rfl⟩ := List.mem_map.mp hj
    exact r.job_fit
  · intro j hj k hk hread hwrite
    obtain ⟨r, hr, rfl⟩ := List.mem_map.mp hj
    obtain ⟨q, hq, rfl⟩ := List.mem_map.mp hk
    have hne : r ≠ q := by
      intro heq
      rw [heq, hwrite] at hread
      cases hread
    have hsymm : Std.Symm Request.Disjoint := ⟨fun _ _ h => h.symm⟩
    rw [r.job_range.1, r.job_range.2.1, q.job_range.1, q.job_range.2.1]
    exact (hdisjoint.forall hr hq hne).1
  · exact List.pairwise_map.mpr (hdisjoint.imp fun h => h.independent)

/-! One by one. -/

theorem Quiet.sync_returns (h : Quiet pend s) (hpc : s.pc = .idle) (hframe : s.frame = none)
    (hb : cfg.blockSize ∣ splitSize) (hdepth : 0 < cfg.maxQueueDepth) (hsize : cfg.size < 2 ^ 63)
    (hvalid : r.Valid cfg) (hcount : (r.len + (splitSize - 1)) / splitSize < 2 ^ 31) :
    ∃ s', r.sync.exec cfg s = .ok s' ∧ Returns cfg (Returned cfg pend
      (r.job.copy.run (s.disk, s.mem)).1 (r.job.copy.run (s.disk, s.mem)).2) s' := by
  obtain ⟨hoff, hlen, hpos, hend⟩ := hvalid.inside
  have hwrite : WriteSplit r.off r.len r.buf (writeChunks r.off r.len r.buf) :=
    writeChunks_spec (by omega)
  rw [r.job_range.2.2]
  unfold Request.sync
  cases r.write with
  | true =>
    exact h.write_returns hpc hframe hb hdepth hsize hoff hlen hpos hend
      (by rw [hwrite.count]; exact hcount)
  | false => exact h.read_returns hpc hb hdepth hsize hoff hlen hpos hend hcount

theorem OneByOne.mono {Q Q' : Sys → Prop} (hQ : ∀ t, Q t → Q' t) (h : OneByOne cfg Q rs s) :
    OneByOne cfg Q' rs s := by
  induction rs generalizing s with
  | nil => exact hQ s h
  | cons r rs ih =>
    obtain ⟨s', hs', hret⟩ := h
    exact ⟨s', hs', hret.mono fun t ht => ih ht⟩

theorem Quiet.oneByOne (h : Quiet pend s) (hpc : s.pc = .idle) (hframe : s.frame = none)
    (hb : cfg.blockSize ∣ splitSize) (hdepth : 0 < cfg.maxQueueDepth) (hsize : cfg.size < 2 ^ 63)
    (hvalid : ∀ r ∈ rs, r.Valid cfg)
    (hcount : ∀ r ∈ rs, (r.len + (splitSize - 1)) / splitSize < 2 ^ 31) :
    OneByOne cfg (fun t =>
      t.disk = (runAll ((rs.map Request.job).map Job.copy) (s.disk, s.mem)).1 ∧
      t.mem = (runAll ((rs.map Request.job).map Job.copy) (s.disk, s.mem)).2) rs s := by
  induction rs generalizing s with
  | nil => exact ⟨rfl, rfl⟩
  | cons r rs ih =>
    obtain ⟨s', hs', hret⟩ := h.sync_returns hpc hframe hb hdepth hsize
      (hvalid r List.mem_cons_self) (hcount r List.mem_cons_self)
    refine ⟨s', hs', hret.mono fun t ht => ?_⟩
    obtain ⟨hquiet, hframe'⟩ := ht.quiet
    have hrest := ih hquiet ht.pc hframe' (fun q hq => hvalid q (List.mem_cons_of_mem r hq))
      fun q hq => hcount q (List.mem_cons_of_mem r hq)
    rw [ht.disk, ht.mem] at hrest
    exact hrest

/-! At once. -/

theorem Extends.setRet {c : CtxPtr} {s0 : Sys} {ps : List TaskPtr} {js : List Job}
    (h : Extends pend c s0 ps js s) (ret : Int) :
    Extends pend c { s0 with ret := ret } ps js { s with ret := ret } where
  loaded := { h.loaded with }
  same := congrArg (fun s => { s with ret := ret }) h.same
  priv := h.priv
  jobs := h.jobs
  known := h.known
  dead := h.dead
  fresh := h.fresh
  log := h.log

theorem Loaded.aio_ok (h : Loaded pend (.user n) s) (hframe : s.frame = none)
    (hvalid : r.Valid cfg) (hsize : cfg.size < 2 ^ 63)
    (hlt : (pend (.user n)).length + (r.len + (splitSize - 1)) / splitSize < 2 ^ 31) :
    ∃ ps s1, (r.aio n).exec cfg s = .ok { s1 with ret := 0 } ∧
      Extends pend (.user n) s ps r.job.split s1 ∧
      ps.length = (r.len + (splitSize - 1)) / splitSize := by
  obtain ⟨_, _, _, hend⟩ := hvalid.inside
  have hwrite : WriteSplit r.off r.len r.buf (writeChunks r.off r.len r.buf) :=
    writeChunks_spec (by omega)
  obtain ⟨cs, hcs, hspec⟩ := hvalid.chunks hsize
  unfold Request.aio Request.job
  cases r.write with
  | true =>
    obtain ⟨ps, s1, hs1, hext⟩ : ∃ ps s1,
        aioWrite cfg s r.off r.len r.buf (.user n) = .ok { s1 with ret := 0 } ∧
        Extends pend (.user n) s ps ((writeChunks r.off r.len r.buf).map WriteChunk.job) s1 :=
      aioWrite_ok h hframe hvalid.1 (by rw [hwrite.count]; exact hlt)
    refine ⟨ps, s1, hs1, hext, hext.length_eq.trans ?_⟩
    rw [List.length_map, hwrite.count]
  | false =>
    obtain ⟨ps, s1, hs1, hext⟩ := aioRead_ok h hframe hvalid.1 hcs (by rw [hspec.count]; exact hlt)
    have hjobs : (Job.ofRead r.off r.len 0 r.len r.buf).split = cs.map ReadChunk.job := by
      change ((readChunks r.off r.buf r.len (r.off + 0) r.len).getD []).map ReadChunk.job = _
      rw [Nat.add_zero, hcs, Option.getD_some]
    refine ⟨ps, s1, hs1, ?_, hext.length_eq.trans ?_⟩
    · rw [if_neg Bool.false_ne_true, hjobs]
      exact hext
    · rw [List.length_map, hspec.count]

theorem Loaded.aios_ok (h : Loaded pend (.user n) s) (hframe : s.frame = none)
    (hvalid : ∀ r ∈ rs, r.Valid cfg) (hsize : cfg.size < 2 ^ 63)
    (hlt : (pend (.user n)).length +
      (rs.map fun r => (r.len + (splitSize - 1)) / splitSize).sum < 2 ^ 31) :
    ∃ ps s', rs.foldlM (fun s r => (r.aio n).exec cfg s) s = .ok s' ∧
      Extends pend (.user n) { s with ret := s'.ret } ps ((rs.map Request.job).flatMap Job.split) s' ∧
      ps.length = (rs.map fun r => (r.len + (splitSize - 1)) / splitSize).sum := by
  induction rs generalizing pend s with
  | nil => exact ⟨[], s, rfl, Extends.refl h, rfl⟩
  | cons r rs ih =>
    rw [List.map_cons, List.sum_cons] at hlt
    obtain ⟨ps, s1, hs1, hext, hps⟩ :=
      h.aio_ok hframe (hvalid r List.mem_cons_self) hsize (by omega)
    have hext0 := hext.setRet 0
    obtain ⟨qs, s', hs', hext', hqs⟩ := ih hext0.loaded (hext.frame_eq.trans hframe)
      (fun q hq => hvalid q (List.mem_cons_of_mem r hq)) (by
        rw [update_self, List.length_append, hps]
        omega)
    refine ⟨ps ++ qs, s', ?_, ?_, ?_⟩
    · rw [List.foldlM_cons, hs1]
      exact hs'
    · rw [List.map_cons, List.flatMap_cons]
      exact (hext.setRet s'.ret).trans hext'
    · rw [List.length_append, List.map_cons, List.sum_cons, hps, hqs]

theorem Pending.none_pending {c : CtxPtr} (h : Pending s.tasks (s.ctxs c) []) : NonePending s c :=
  ⟨h.chain.head, h.last, h.count⟩

theorem Loaded.submitAll_nil (h : Loaded pend (.user n) s) (hframe : s.frame = none)
    (hempty : pend (.user n) = []) : submitAll cfg n s [] = .ok (returned s 0) := by
  change aioSubmit s (.user n) = _
  rw [h.submit_empty hempty, returnCall_none hframe]

/-- The batch carries out any plan for its requests. -/
theorem Loaded.submitAll_returns {disk mem : Nat → UInt8} (h : Loaded pend (.user n) s)
    (hframe : s.frame = none) (hempty : pend (.user n) = []) (hb : cfg.blockSize ∣ splitSize)
    (hdepth : 0 < cfg.maxQueueDepth) (hsize : cfg.size < 2 ^ 63) (hvalid : ∀ r ∈ rs, r.Valid cfg)
    (hlt : (rs.map fun r => (r.len + (splitSize - 1)) / splitSize).sum < 2 ^ 31)
    (hplan : Planned cfg.blockSize disk mem (rs.map Request.job))
    (hwritten : Settled s.disk disk (firstTargets ((rs.map Request.job).map Job.copy)))
    (hfilled : Settled s.mem mem (secondTargets ((rs.map Request.job).map Job.copy))) :
    ∃ s', submitAll cfg n s rs = .ok s' ∧
      Returns cfg (fun t => t.disk = disk ∧ t.mem = mem ∧ NonePending t (.user n)) s' := by
  have hpend := h.pending (.user n)
  rw [hempty] at hpend
  cases rs with
  | nil =>
    exact ⟨_, h.submitAll_nil hframe hempty,
      Returns.at_once rfl ⟨first_done hwritten, second_done hfilled, hpend.none_pending⟩⟩
  | cons r rs =>
    obtain ⟨ps, s1, hs1, hext, hps⟩ :=
      h.aios_ok hframe hvalid hsize (by rw [hempty, List.length_nil, Nat.zero_add]; exact hlt)
    have hcall : submitAll cfg n s (r :: rs) = aioSubmit s1 (.user n) := by
      unfold submitAll
      rw [hs1]
      exact rfl
    have hne : ps ≠ [] := by
      intro hnil
      obtain ⟨_, _, hpos, _⟩ := (hvalid r List.mem_cons_self).inside
      have hsplit : splitSize = 131072 := rfl
      rw [hnil, List.map_cons, List.sum_cons, List.length_nil, hsplit] at hps
      omega
    obtain ⟨s', hs', hbegun⟩ := hext.begun hempty hne (by omega) cfg
    have hjobs : Begun cfg pend ps (((r :: rs).map Request.job).flatMap Job.split) s s' :=
      { hbegun with }
    have hret := hjobs.returns hdepth hplan (by
      intro j hj
      obtain ⟨q, hq, rfl⟩ := List.mem_map.mp hj
      exact (hvalid q hq).divides hsize hb) hwritten hfilled
    refine ⟨s', hcall.trans hs', hret.mono fun t ht => ⟨ht.disk, ht.mem, ?_⟩⟩
    have hpend' := ht.core.pending (.user n)
    rw [hempty] at hpend'
    exact hpend'.none_pending

/-- Valid requests, and an empty context for them between two calls. -/
structure Submittable (cfg : Config) (n : Nat) (rs : List Request) (s : Sys) : Prop where
  reached : Reached cfg s
  idle : s.pc = .idle
  empty : (s.ctxs (.user n)).numPending = 0
  block : ∃ k, cfg.blockSize = 2 ^ k
  block_le : cfg.blockSize ≤ 131072
  depth : 1 ≤ cfg.maxQueueDepth
  size : cfg.size < 2 ^ 63
  valid : ∀ r ∈ rs, r.Valid cfg
  count : (rs.map fun r => (r.aio n).taskCount cfg).sum < 2 ^ 31

theorem Submittable.tasks (h : Submittable cfg n rs s) :
    (rs.map fun r => (r.len + (splitSize - 1)) / splitSize).sum < 2 ^ 31 := by
  have hcount := h.count
  rwa [List.map_congr_left fun r hr => (h.valid r hr).count h.size n] at hcount

/-- A batch, in any order, comes to what its requests come to one by one. -/
theorem batch_refines {batch : List Request} (h : Submittable cfg n rs s) (hperm : batch.Perm rs)
    (hdisjoint : rs.Pairwise Request.Disjoint) : Refines cfg n rs batch s := by
  obtain ⟨pend, hquiet, hframe⟩ := h.reached.quiet h.idle
  obtain ⟨k, hk⟩ := h.block
  have hb : cfg.blockSize ∣ splitSize := dvd_splitSize hk h.block_le
  have hempty : pend (.user n) = [] := by
    have hcount := (hquiet.pending (.user n)).count
    rw [h.empty] at hcount
    exact List.length_eq_zero_iff.mp (by omega)
  have hmem : ∀ j ∈ batch.map Request.job, j ∈ rs.map Request.job := fun j hj =>
    (hperm.map Request.job).mem_iff.mp hj
  have hmem' : ∀ c ∈ (rs.map Request.job).map Job.copy, c ∈ (batch.map Request.job).map Job.copy :=
    fun c hc => ((hperm.map Request.job).map Job.copy).mem_iff.mpr hc
  refine ⟨(runAll ((rs.map Request.job).map Job.copy) (s.disk, s.mem)).1,
    (runAll ((rs.map Request.job).map Job.copy) (s.disk, s.mem)).2,
    OneByOne.mono ?_ (hquiet.oneByOne h.idle hframe hb h.depth h.size h.valid ?_), ?_⟩
  · rintro t ⟨hdisk, hm⟩
    exact ⟨hdisk, fun r _ _ i _ => congrFun hm (r.buf + i)⟩
  · intro r hr
    have hle := List.le_sum_of_mem (List.mem_map_of_mem
      (f := fun r : Request => (r.len + (splitSize - 1)) / splitSize) hr)
    exact Nat.lt_of_le_of_lt hle h.tasks
  · have hcount := (hperm.map fun r => (r.len + (splitSize - 1)) / splitSize).sum_nat
    obtain ⟨s', hs', hret⟩ := (hquiet.loaded (.user n) h.idle hframe).submitAll_returns
      hframe hempty hb h.depth h.size (fun r hr => h.valid r (hperm.mem_iff.mp hr))
      (by rw [hcount]; exact h.tasks)
      ((requests_planned h.valid hdisjoint (s.disk, s.mem)).mono hmem)
      ((runAll_first _ (s.disk, s.mem)).mono fun a m ⟨c, hc, hto⟩ => ⟨c, hmem' c hc, hto⟩)
      ((runAll_second _ (s.disk, s.mem)).mono fun a m ⟨c, hc, hto⟩ => ⟨c, hmem' c hc, hto⟩)
    refine ⟨s', hs', hret.mono ?_⟩
    rintro t ⟨hdisk, hm, hpending⟩
    exact ⟨⟨hdisk, fun r _ _ i _ => congrFun hm (r.buf + i)⟩, hpending⟩

end

/-! Runs of their own. -/

theorem Initial.onDisk {s : Sys} (h : Initial s) (disk : Nat → UInt8) :
    Initial { s with disk := disk } :=
  ⟨h.tasks, h.ctxs, h.pool, h.depth, h.inflight, h.pc, h.t, h.frame, h.log⟩

def striped : Sys := { started with disk := fun x => UInt8.ofNat (x / 4096) }

theorem striped_reached (cfg : Config) : Reached cfg striped :=
  .start (started_initial.onDisk _)

theorem batch_refines_three : Refines ⟨4096, 2 ^ 40, 2⟩ 0
    [⟨true, 0, 300000 * 4096, 0⟩, ⟨false, 2 ^ 32, 8192, 2 ^ 33⟩, ⟨true, 2 ^ 34, 4096, 4096⟩]
    [⟨false, 2 ^ 32, 8192, 2 ^ 33⟩, ⟨true, 2 ^ 34, 4096, 4096⟩, ⟨true, 0, 300000 * 4096, 0⟩]
    striped := by
  have hvalid : ∀ r ∈ [(⟨true, 0, 300000 * 4096, 0⟩ : Request), ⟨false, 2 ^ 32, 8192, 2 ^ 33⟩,
      ⟨true, 2 ^ 34, 4096, 4096⟩], r.Valid ⟨4096, 2 ^ 40, 2⟩ := by
    unfold Request.Valid
    decide +kernel
  apply batch_refines
  · refine ⟨striped_reached _, rfl, rfl, ⟨12, by decide⟩, by decide, by decide, by decide, hvalid, ?_⟩
    rw [List.map_congr_left fun r hr => (hvalid r hr).count (by decide) 0]
    decide
  · decide
  · unfold Request.Disjoint Apart
    decide

def readLabels : List Label :=
  [.tick, .tick, .tick, .transfer 0, .tick, .tick, .tick, .complete 0, .tick, .tick, .tick]

def crossedLabels : List Label :=
  [.tick, .tick, .tick, .tick, .transfer 0, .transfer 1, .tick, .tick, .tick, .complete 1,
    .complete 0, .tick, .tick, .tick]

def callRun (cfg : Config) (s : Sys) (ls : List Label) : Option Sys :=
  execAll (Label.exec cfg) (fun s _ => decide (s.pc ≠ .idle)) s ls

theorem Returns.callRun {cfg : Config} {Q : Sys → Prop} {s t : Sys} {ls : List Label}
    (h : Returns cfg Q s) (hrun : Blk.callRun cfg s ls = some t) (hidle : t.pc = .idle) : Q t := by
  apply h.stop ls t (execAll_run (fun _ _ _ hbusy hexec => ?_) hrun) hidle
  exact ⟨of_decide_eq_true hbusy, hexec⟩

/-- Two reads into one buffer: the one that is completed last is the one that stays. -/
theorem batch_order_matters : ¬ ∀ (cfg : Config) (n : Nat) (rs batch : List Request) (s : Sys),
    Submittable cfg n rs s → batch.Perm rs →
    rs.Pairwise (fun r q => Apart r.off r.len q.off q.len) → Refines cfg n rs batch s := by
  intro hclaim
  have hvalid : ∀ r ∈ [(⟨false, 0, 4096, 0⟩ : Request), ⟨false, 4096, 4096, 0⟩],
      r.Valid ⟨4096, 2 ^ 40, 2⟩ := by
    unfold Request.Valid
    decide +kernel
  have hsubmittable : Submittable ⟨4096, 2 ^ 40, 2⟩ 0
      [⟨false, 0, 4096, 0⟩, ⟨false, 4096, 4096, 0⟩] striped := by
    refine ⟨striped_reached _, rfl, rfl, ⟨12, by decide⟩, by decide, by decide, by decide, hvalid, ?_⟩
    rw [List.map_congr_left fun r hr => (hvalid r hr).count (by decide) 0]
    decide
  obtain ⟨disk, mem, ⟨s1, hs1, hfirst⟩, s', hs', hbatch⟩ := hclaim _ 0 _ _ _ hsubmittable
    (List.Perm.refl _) (by unfold Apart; decide)
  have hone : ∃ s1 ∈ (Call.exec ⟨4096, 2 ^ 40, 2⟩ striped (.read 0 4096 0)).toOption,
      ∃ t ∈ callRun ⟨4096, 2 ^ 40, 2⟩ s1 readLabels, t.pc = .idle ∧
      ∃ s2 ∈ (Call.exec ⟨4096, 2 ^ 40, 2⟩ t (.read 4096 4096 0)).toOption,
      ∃ u ∈ callRun ⟨4096, 2 ^ 40, 2⟩ s2 readLabels, u.pc = .idle ∧ u.mem 0 = 1 := by
    decide +kernel
  have htwo : ∃ s' ∈ (submitAll ⟨4096, 2 ^ 40, 2⟩ 0 striped
        [⟨false, 0, 4096, 0⟩, ⟨false, 4096, 4096, 0⟩]).toOption,
      ∃ t ∈ callRun ⟨4096, 2 ^ 40, 2⟩ s' crossedLabels, t.pc = .idle ∧ t.mem 0 = 0 := by
    decide +kernel
  obtain ⟨s1', hs1', t, ht, htidle, s2, hs2, u, hu, huidle, hu0⟩ := hone
  obtain rfl : s1' = s1 := Except.ok.inj ((ok_of_toOption hs1').symm.trans hs1)
  obtain ⟨s2', hs2', hsecond⟩ := hfirst.callRun ht htidle
  obtain rfl : s2 = s2' := Except.ok.inj ((ok_of_toOption hs2).symm.trans hs2')
  have hlast : u.mem 0 = mem 0 :=
    (hsecond.callRun hu huidle).2 _ List.mem_cons_self rfl 0 (by decide)
  obtain ⟨s'', hs'', v, hv, hvidle, hv0⟩ := htwo
  obtain rfl : s'' = s' := Except.ok.inj ((ok_of_toOption hs'').symm.trans hs')
  have hcrossed : v.mem 0 = mem 0 :=
    (hbatch.callRun hv hvidle).1.2 _ List.mem_cons_self rfl 0 (by decide)
  rw [← hlast, hu0, hv0] at hcrossed
  cases hcrossed

end LockdepSpdk.Blk
