import LockdepSpdk.Blk.Accounting

/-!
# Walks of a request

SPDK restarts the walk over the segments of a task at any offset. The addresses
it is given from there on are those of the rest of the payload.
-/

namespace LockdepSpdk.Blk

set_option autoImplicit false

open Function

abbrev Address := Nat × Nat

def span (g a n : Nat) : List Address := (List.range' a n).map fun i => (g, i)

def concatenation (segs : List Nat) : List Address := segs.flatMap fun g => span g 0 dataBufferSize

def addresses (sgl : List Sge) : List Address := sgl.flatMap fun e => span e.seg e.off e.len

section
variable {segs gs : List Nat} {g a n k len : Nat}

@[simp] theorem span_length (g a n : Nat) : (span g a n).length = n := by
  unfold span
  rw [List.length_map, List.length_range']

theorem span_take (g a n k : Nat) : (span g a n).take k = span g a (min k n) := by
  unfold span
  rw [← List.map_take]
  rcases Nat.le_total k n with h | h
  · rw [List.take_range'_of_length_ge h, Nat.min_eq_left h]
  · rw [List.take_range'_of_length_le h, Nat.min_eq_right h]

theorem span_drop (g a n k : Nat) : (span g a n).drop k = span g (a + k) (n - k) := by
  unfold span
  rw [← List.map_drop, List.drop_range', Nat.mul_one]

theorem concatenation_cons (g : Nat) (gs : List Nat) :
    concatenation (g :: gs) = span g 0 dataBufferSize ++ concatenation gs := List.flatMap_cons

theorem concatenation_length (segs : List Nat) :
    (concatenation segs).length = segs.length * dataBufferSize := by
  induction segs with
  | nil => exact (Nat.zero_mul _).symm
  | cons g gs ih =>
    rw [concatenation_cons, List.length_append, span_length, ih, List.length_cons, Nat.succ_mul,
      Nat.add_comm]

theorem concatenation_drop (segs : List Nat) (i : Nat) :
    (concatenation segs).drop (i * dataBufferSize) = concatenation (segs.drop i) := by
  induction i generalizing segs with
  | zero => rw [Nat.zero_mul, List.drop_zero, List.drop_zero]
  | succ i ih =>
    cases segs with
    | nil => exact List.drop_nil
    | cons g gs =>
      have hlen : dataBufferSize + i * dataBufferSize =
          (span g 0 dataBufferSize).length + i * dataBufferSize := by rw [span_length]
      rw [List.drop_succ_cons, concatenation_cons, Nat.succ_mul, Nat.add_comm, hlen,
        List.drop_length_add_append]
      exact ih gs

theorem addresses_pieces (segs : List Nat) (len : Nat) :
    addresses (pieces segs len) = (concatenation segs).take len := by
  induction segs generalizing len with
  | nil => exact List.take_nil.symm
  | cons g gs ih =>
    have htail := ih (len - dataBufferSize)
    unfold addresses at *
    rw [pieces, List.flatMap_cons, htail, concatenation_cons, List.take_append, span_length,
      span_take, Nat.min_comm]

theorem pieces_inside (hlt : segs.length * dataBufferSize < len + dataBufferSize) :
    ∀ e ∈ pieces segs len, 0 < e.len ∧ e.seg ∈ segs ∧ e.off + e.len ≤ dataBufferSize := by
  induction segs generalizing len with
  | nil =>
    intro e he
    cases he
  | cons g gs ih =>
    rw [List.length_cons, Nat.succ_mul] at hlt
    intro e he
    rcases List.mem_cons.mp he with heq | he
    · subst heq
      have hsize : 0 < dataBufferSize := by decide
      exact ⟨by simp only; omega, List.mem_cons_self, by simp only; omega⟩
    · have hgs : gs ≠ [] := by
        rintro rfl
        cases he
      have hone : 1 * dataBufferSize ≤ gs.length * dataBufferSize :=
        Nat.mul_le_mul_right _ (List.length_pos_of_ne_nil hgs)
      obtain ⟨hpos, hmem, hin⟩ := ih (by omega) e he
      exact ⟨hpos, List.mem_cons_of_mem g hmem, hin⟩

theorem payload_drop {i r : Nat} (hg : segs[i]? = some g)
    (hr : r < min dataBufferSize (len - i * dataBufferSize)) :
    ((concatenation segs).take len).drop (i * dataBufferSize + r) =
      span g r (min dataBufferSize (len - i * dataBufferSize) - r) ++
        (concatenation (segs.drop (i + 1))).take (len - (i + 1) * dataBufferSize) := by
  obtain ⟨hi, hget⟩ := List.getElem?_eq_some_iff.mp hg
  have hcons : segs.drop i = g :: segs.drop (i + 1) := by
    rw [← hget]
    exact List.drop_eq_getElem_cons hi
  have hrest : len - i * dataBufferSize - dataBufferSize = len - (i + 1) * dataBufferSize := by
    rw [Nat.sub_sub, Nat.succ_mul]
  rw [← List.drop_drop, List.drop_take, concatenation_drop, hcons, concatenation_cons,
    List.take_append, span_length, span_take, hrest, List.drop_append_of_le_length, span_drop,
    Nat.zero_add, Nat.min_comm]
  rw [span_length]
  omega

end

section
variable {s s1 : Sys} {p : TaskPtr} {task task1 : Task} {write : Bool} {off : Nat}

theorem SegsFit.inSeg (h : SegsFit task) (i left : Nat) : SegsFit (task.inSeg i left) :=
  ⟨h.nseg, h.pos, h.le, h.tight⟩

theorem restartSgl_addresses (h : SegsFit task) (hoff : off < task.len)
    (hlt : off + dataBufferSize < 2 ^ 32) :
    ∃ es, restartSgl task off = .ok (es, task.atSeg task.ioRequest.nseg) ∧
      (∀ e ∈ es, 0 < e.len ∧ e.seg ∈ task.ioRequest.segs ∧ e.off + e.len ≤ dataBufferSize) ∧
      addresses es = ((concatenation task.ioRequest.segs).take task.len).drop off := by
  have hdiv : off / dataBufferSize * dataBufferSize + off % dataBufferSize = off := by
    rw [Nat.mul_comm]
    exact Nat.div_add_mod off dataBufferSize
  have hmod : off % dataBufferSize < dataBufferSize := Nat.mod_lt off (by decide)
  obtain ⟨g, hg, hwalk⟩ := restartSgl_eq h hoff hlt
  refine ⟨_, hwalk, ?_, ?_⟩
  · intro e he
    rcases List.mem_cons.mp he with heq | he
    · subst heq
      refine ⟨?_, List.mem_of_getElem? hg, ?_⟩
      · simp only
        omega
      · simp only
        omega
    · have htight : (task.ioRequest.segs.drop (off / dataBufferSize + 1)).length * dataBufferSize <
          task.len - (off / dataBufferSize + 1) * dataBufferSize + dataBufferSize := by
        have hlast := h.tight
        rw [List.length_drop, ← h.nseg, Nat.sub_mul]
        omega
      obtain ⟨hpos, hmem, hin⟩ := pieces_inside htight e he
      exact ⟨hpos, List.mem_of_mem_drop hmem, hin⟩
  · have hleft : off % dataBufferSize <
        min dataBufferSize (task.len - off / dataBufferSize * dataBufferSize) := by omega
    have hsplit := payload_drop hg hleft
    rw [hdiv] at hsplit
    rw [hsplit, ← addresses_pieces]
    exact List.flatMap_cons

/-- Behind the last segment the answer is length 0, and the cursor stays. -/
theorem dataBufNextSge_end (task : Task) :
    dataBufNextSge (task.atSeg task.ioRequest.nseg) =
      .ok (none, task.atSeg task.ioRequest.nseg) := if_pos (Nat.le_refl _)

theorem allocBufFromPool_enough {c : CtxPtr} (hctx : task.ctx = some c)
    (hpool : ¬ s.dataBufList.length < segCount task.len) :
    ∃ s1 task1, allocBufFromPool s p task write = .ok (some s1) ∧ s1.tasks p = some task1 := by
  unfold allocBufFromPool
  simp only [hctx]
  rw [if_neg hpool]
  exact ⟨_, _, rfl, update_self _ _ _⟩

theorem allocBufFromPool_fits (hextra : task.ioRequest.extraSegs = none) (hpos : 0 < task.len)
    (halloc : allocBufFromPool s p task write = .ok (some s1)) (htask : s1.tasks p = some task1) :
    SegsFit task1 ∧ task1.len = task.len := by
  unfold allocBufFromPool at halloc
  simp only at halloc
  by_cases hpool : s.dataBufList.length < segCount task.len
  · rw [if_pos hpool] at halloc
    cases halloc
  rw [if_neg hpool] at halloc
  have htake : (s.dataBufList.take (segCount task.len)).length = segCount task.len := by
    rw [List.length_take]
    omega
  cases hctx : task.ctx with
  | none =>
    rw [hctx] at halloc
    cases halloc
  | some c =>
    rw [hctx] at halloc
    obtain rfl := Option.some.inj (Except.ok.inj halloc)
    rw [Sys.setTask_tasks, update_self] at htask
    obtain rfl := Option.some.inj htask
    refine ⟨?_, rfl⟩
    by_cases hinline : segCount task.len ≤ inlineSegmentNum
    · refine ⟨?_, hpos, ?_, ?_⟩
      · simp only [if_pos hinline, IORequest.segs, hextra, Option.getD_none, htake]
      · simp only [if_pos hinline]
        exact le_segCount task.len
      · simp only [if_pos hinline]
        exact segCount_lt task.len
    · refine ⟨?_, hpos, ?_, ?_⟩
      · simp only [if_neg hinline, IORequest.segs, Option.getD_some, htake]
      · simp only [if_neg hinline]
        exact le_segCount task.len
      · simp only [if_neg hinline]
        exact segCount_lt task.len

/-- From any offset, and whatever the cursor was: the rest of the payload in non-empty pieces, then
length 0. Two walks agree where both have been. -/
theorem sgl_walks (s s1 : Sys) (p : TaskPtr) (task task1 : Task) (write : Bool)
    (hextra : task.ioRequest.extraSegs = none) (hpos : 1 ≤ task.len)
    (hlen : task.len ≤ 1024 * dataBufferSize)
    (halloc : allocBufFromPool s p task write = .ok (some s1)) (htask : s1.tasks p = some task1) :
    (∀ idx left off, off < task.len → ∃ es last,
      restartSgl (task1.inSeg idx left) off = .ok (es, last) ∧
      (∀ e ∈ es, 0 < e.len ∧ e.seg ∈ task1.ioRequest.segs ∧ e.off + e.len ≤ dataBufferSize) ∧
      addresses es = ((concatenation task1.ioRequest.segs).take task.len).drop off ∧
      (addresses es).length = task.len - off ∧
      dataBufNextSge last = .ok (none, last)) ∧
    ∀ idx left off es last idx' left' off' es' last', off ≤ off' → off' < task.len →
      restartSgl (task1.inSeg idx left) off = .ok (es, last) →
      restartSgl (task1.inSeg idx' left') off' = .ok (es', last') →
      addresses es' = (addresses es).drop (off' - off) := by
  have hsize : dataBufferSize = 8192 := rfl
  obtain ⟨hfit, hsame⟩ := allocBufFromPool_fits hextra hpos halloc htask
  have hwalk : ∀ idx left off, off < task.len → ∃ es,
      restartSgl (task1.inSeg idx left) off = .ok (es, task1.atSeg task1.ioRequest.nseg) ∧
      (∀ e ∈ es, 0 < e.len ∧ e.seg ∈ task1.ioRequest.segs ∧ e.off + e.len ≤ dataBufferSize) ∧
      addresses es = ((concatenation task1.ioRequest.segs).take task.len).drop off := by
    intro idx left off hoff
    rw [← hsame] at hoff ⊢
    exact restartSgl_addresses (hfit.inSeg idx left) hoff (by omega)
  constructor
  · intro idx left off hoff
    obtain ⟨es, hes, hinside, hbytes⟩ := hwalk idx left off hoff
    refine ⟨es, _, hes, hinside, hbytes, ?_, dataBufNextSge_end task1⟩
    have hle := hfit.le
    rw [hfit.nseg, ← concatenation_length, hsame] at hle
    rw [hbytes, List.length_drop, List.length_take, Nat.min_eq_left hle]
  · intro idx left off es last idx' left' off' es' last' hle hoff' hes hes'
    obtain ⟨ds, hds, _, hbytes⟩ := hwalk idx left off (Nat.lt_of_le_of_lt hle hoff')
    obtain ⟨ds', hds', _, hbytes'⟩ := hwalk idx' left' off' hoff'
    obtain ⟨rfl, _⟩ := Prod.mk.inj (Except.ok.inj (hds.symm.trans hes))
    obtain ⟨rfl, _⟩ := Prod.mk.inj (Except.ok.inj (hds'.symm.trans hes'))
    rw [hbytes', hbytes, List.drop_drop, Nat.add_sub_cancel' hle]

/-- 300000 bytes take 37 segments, more than are kept inline, and the last one is short. -/
theorem sgl_walks_300000 : ∃ s1 task1 es last es' last',
    allocBufFromPool started (.heap 0)
      { Task.new .readCommand 0 300000 0 with ctx := some (.user 0) } false = .ok (some s1) ∧
    s1.tasks (.heap 0) = some task1 ∧
    restartSgl (task1.inSeg 9 9) 8191 = .ok (es, last) ∧
    restartSgl (task1.inSeg 0 1) 299999 = .ok (es', last') ∧
    addresses es' = (addresses es).drop 291808 := by
  have hpool : ¬ started.dataBufList.length < segCount 300000 := by
    simp only [started, List.length_reverse, List.length_range]
    decide
  obtain ⟨s1, task1, halloc, htask⟩ : ∃ s1 task1, allocBufFromPool started (.heap 0)
      { Task.new .readCommand 0 300000 0 with ctx := some (.user 0) } false = .ok (some s1) ∧
      s1.tasks (.heap 0) = some task1 := allocBufFromPool_enough rfl hpool
  obtain ⟨hwalk, hagree⟩ := sgl_walks started s1 (.heap 0)
    { Task.new .readCommand 0 300000 0 with ctx := some (.user 0) } task1 false rfl (by decide)
    (by decide) halloc htask
  obtain ⟨es, last, hes, _⟩ := hwalk 9 9 8191 (by decide)
  obtain ⟨es', last', hes', _⟩ := hwalk 0 1 299999 (by decide)
  exact ⟨s1, task1, es, last, es', last', halloc, htask, hes, hes',
    hagree 9 9 8191 es last 0 1 299999 es' last' (by decide) (by decide) hes hes'⟩

end

end LockdepSpdk.Blk
