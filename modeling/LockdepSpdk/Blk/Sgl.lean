import LockdepSpdk.Blk.Task
import LockdepSpdk.Blk.Word
import LockdepSpdk.Lib.ByteRange

/-!
# Segments

The scatter-gather callbacks SPDK walks a request with, and the copies between
the user's memory and the segments of a task. Read in order, the segments of a
task are one payload: `segView` is its byte `j`.
-/

namespace LockdepSpdk.Blk

set_option autoImplicit false

open Function ByteRange

/-! The callbacks. -/

/-- The loop of `data_buf_reset_sgl`, with `n` segments ahead. -/
def resetScan (len sglOffset : Nat) : Nat → Nat → Nat → Nat × Nat
  | 0, i, offset => (i, offset)
  | n + 1, i, offset =>
    if sglOffset < offset + dataBufferSize then
      (i, if len < offset + dataBufferSize then len else offset + dataBufferSize)
    else resetScan len sglOffset n (i + 1) (offset + dataBufferSize)

def dataBufResetSgl (task : Task) (sglOffset : Nat) : Except Fault Task :=
  let r := task.ioRequest
  let i := sglOffset / dataBufferSize
  if r.nseg < i then .error .abort
  else
    let (idx, offset) := resetScan task.len sglOffset (r.nseg - i) i (i * dataBufferSize)
    .ok { task with ioRequest := { r with curSegIdx := idx, curSegLeft := sub32 offset sglOffset } }

def segSize (task : Task) (i : Nat) : Nat :=
  if i = task.ioRequest.nseg - 1 ∧ task.len % dataBufferSize ≠ 0 then task.len % dataBufferSize
  else dataBufferSize

/-- `none` is the answer of length 0. -/
def dataBufNextSge (task : Task) : Except Fault (Option Sge × Task) :=
  let r := task.ioRequest
  if r.nseg ≤ r.curSegIdx then .ok (none, task)
  else
    match r.segs[r.curSegIdx]? with
    | none => .error .overrun
    | some seg =>
      let size := segSize task r.curSegIdx
      let task' := { task with ioRequest := { r with curSegIdx := r.curSegIdx + 1, curSegLeft := 0 } }
      if r.curSegLeft = 0 then .ok (some ⟨seg, 0, size⟩, task')
      else if size < r.curSegLeft then .error .overrun
      else .ok (some ⟨seg, size - r.curSegLeft, r.curSegLeft⟩, task')

def walkSgl : Nat → Task → Except Fault (List Sge × Task)
  | 0, task => .ok ([], task)
  | n + 1, task => do
    let (sge, task1) ← dataBufNextSge task
    match sge with
    | none => .ok ([], task1)
    | some e => do
      let (es, task2) ← walkSgl n task1
      .ok (e :: es, task2)

def enumerateSgl (task : Task) : Except Fault (List Sge × Task) := do
  let task1 ← dataBufResetSgl task 0
  walkSgl (task1.ioRequest.nseg + 1) task1

/-! The copies. -/

def loadSegs (mem : Nat → UInt8) :
    List Nat → Nat → Nat → (Nat → Nat → UInt8) → (Nat → Nat → UInt8)
  | [], _, _, dma => dma
  | [g], src, left, dma => update dma g (blit (dma g) 0 left fun j => mem (src + j))
  | g :: gs, src, left, dma =>
    loadSegs mem gs (src + dataBufferSize) (left - dataBufferSize)
      (update dma g (blit (dma g) 0 dataBufferSize fun j => mem (src + j)))

def copyToBuf (dma : Nat → Nat → UInt8) :
    List Nat → Nat → Nat → Nat → (Nat → UInt8) → Except Fault (Nat → UInt8)
  | [], _, left, _, mem => if left = 0 then .ok mem else .error .overrun
  | g :: gs, off, left, buf, mem =>
    if left = 0 then .ok mem
    else
      let needCopy := min left (sub64 dataBufferSize off)
      if off + needCopy ≤ dataBufferSize then
        copyToBuf dma gs 0 (left - needCopy) (buf + needCopy)
          (blit mem buf needCopy fun j => dma g (off + j))
      else .error .overrun

def gather (dma : Nat → Nat → UInt8) : List Sge → Nat → UInt8
  | [], _ => 0
  | e :: es, j => if j < e.len then dma e.seg (e.off + j) else gather dma es (j - e.len)

/-- `n` bytes of the device arrive in the pieces SPDK was given. -/
def scatter : List Sge → (Nat → UInt8) → Nat → (Nat → Nat → UInt8) → (Nat → Nat → UInt8)
  | [], _, _, dma => dma
  | e :: es, src, n, dma =>
    scatter es (fun j => src (e.len + j)) (n - e.len)
      (update dma e.seg (blit (dma e.seg) e.off (min e.len n) src))

def sglLen (sgl : List Sge) : Nat := (sgl.map Sge.len).sum

/-! The segments as one payload. -/

/-- Byte `j` of the payload in `segs`. -/
def segView (dma : Nat → Nat → UInt8) (segs : List Nat) (j : Nat) : UInt8 :=
  dma (segs.getD (j / dataBufferSize) 0) (j % dataBufferSize)

def pieces : List Nat → Nat → List Sge
  | [], _ => []
  | g :: gs, len => ⟨g, 0, min dataBufferSize len⟩ :: pieces gs (len - dataBufferSize)

theorem segView_head (dma : Nat → Nat → UInt8) (g : Nat) (gs : List Nat) {j : Nat}
    (h : j < dataBufferSize) : segView dma (g :: gs) j = dma g j := by
  unfold segView
  rw [Nat.div_eq_of_lt h, Nat.mod_eq_of_lt h]
  simp

theorem segView_tail (dma : Nat → Nat → UInt8) (g : Nat) (gs : List Nat) {j : Nat}
    (h : dataBufferSize ≤ j) :
    segView dma (g :: gs) j = segView dma gs (j - dataBufferSize) := by
  unfold segView
  obtain ⟨i, rfl⟩ : ∃ i, j = i + dataBufferSize := ⟨j - dataBufferSize, by omega⟩
  rw [Nat.add_div_right _ (by decide), Nat.add_mod_right, Nat.add_sub_cancel]
  simp

theorem segView_congr {dma dma' : Nat → Nat → UInt8} {segs : List Nat}
    (h : ∀ g ∈ segs, dma' g = dma g) {j : Nat} (hj : j < segs.length * dataBufferSize) :
    segView dma' segs j = segView dma segs j := by
  have hidx : j / dataBufferSize < segs.length := Nat.div_lt_of_lt_mul (by rwa [Nat.mul_comm])
  unfold segView
  rw [List.getD_eq_getElem _ _ hidx, h _ (List.getElem_mem hidx)]

theorem loadSegs_other (mem : Nat → UInt8) {segs : List Nat} {h : Nat} (hh : h ∉ segs)
    (src left : Nat) (dma : Nat → Nat → UInt8) : loadSegs mem segs src left dma h = dma h := by
  induction segs generalizing src left dma with
  | nil => rfl
  | cons g gs ih =>
    have hne : h ≠ g := fun heq => hh (by simp [heq])
    have hgs : h ∉ gs := fun hmem => hh (List.mem_cons_of_mem g hmem)
    cases gs with
    | nil =>
      simp only [loadSegs]
      rw [update_of_ne hne]
    | cons g' gs =>
      simp only [loadSegs]
      rw [ih hgs, update_of_ne hne]

theorem loadSegs_view (mem : Nat → UInt8) {segs : List Nat} (hnd : segs.Nodup) (src left : Nat)
    (dma : Nat → Nat → UInt8) (hleft : left ≤ segs.length * dataBufferSize) {j : Nat}
    (hj : j < left) : segView (loadSegs mem segs src left dma) segs j = mem (src + j) := by
  induction segs generalizing src left dma j with
  | nil => simp at hleft; omega
  | cons g gs ih =>
    have hg : g ∉ gs := (List.nodup_cons.mp hnd).1
    cases gs with
    | nil =>
      have hj' : j < dataBufferSize := by simp at hleft; omega
      rw [segView_head _ _ _ hj']
      simp only [loadSegs]
      rw [update_self]
      have hin := blit_within (dma g) (a := 0) (fun i => mem (src + i)) hj
      rwa [Nat.zero_add] at hin
    | cons g' gs =>
      simp only [loadSegs]
      by_cases hj' : j < dataBufferSize
      · rw [segView_head _ _ _ hj', loadSegs_other mem hg, update_self]
        have hin := blit_within (dma g) (a := 0) (fun i => mem (src + i)) hj'
        rwa [Nat.zero_add] at hin
      · have hsrc : src + dataBufferSize + (j - dataBufferSize) = src + j := by omega
        rw [segView_tail _ _ _ (by omega), ih (List.nodup_cons.mp hnd).2 _ _ _ _ (by omega)]
        · rw [hsrc]
        · rw [List.length_cons, Nat.add_mul] at hleft
          omega

theorem gather_pieces (dma : Nat → Nat → UInt8) {segs : List Nat} {len j : Nat}
    (hlen : len ≤ segs.length * dataBufferSize) (hj : j < len) :
    gather dma (pieces segs len) j = segView dma segs j := by
  induction segs generalizing len j with
  | nil => simp at hlen; omega
  | cons g gs ih =>
    simp only [pieces, gather]
    by_cases hj' : j < dataBufferSize
    · rw [if_pos (by omega), segView_head _ _ _ hj', Nat.zero_add]
    · rw [List.length_cons, Nat.add_mul] at hlen
      rw [if_neg (by omega), segView_tail _ _ _ (by omega), Nat.min_eq_left (by omega)]
      exact ih (by omega) (by omega)

theorem scatter_other {sgl : List Sge} {h : Nat} (hh : ∀ e ∈ sgl, e.seg ≠ h) (src : Nat → UInt8)
    (n : Nat) (dma : Nat → Nat → UInt8) : scatter sgl src n dma h = dma h := by
  induction sgl generalizing src n dma with
  | nil => rfl
  | cons e es ih =>
    simp only [scatter]
    rw [ih fun e' he' => hh e' (List.mem_cons_of_mem e he')]
    exact update_of_ne (hh e List.mem_cons_self).symm _ _

theorem pieces_seg {segs : List Nat} {len : Nat} {e : Sge} (h : e ∈ pieces segs len) :
    e.seg ∈ segs := by
  induction segs generalizing len with
  | nil => simp [pieces] at h
  | cons g gs ih =>
    rcases List.mem_cons.mp h with heq | h
    · rw [heq]
      exact List.mem_cons_self
    · exact List.mem_cons_of_mem g (ih h)

theorem scatter_pieces {segs : List Nat} (hnd : segs.Nodup) (src : Nat → UInt8) {len n : Nat}
    (dma : Nat → Nat → UInt8) (hlen : len ≤ segs.length * dataBufferSize) (hn : len ≤ n) {j : Nat}
    (hj : j < len) : segView (scatter (pieces segs len) src n dma) segs j = src j := by
  induction segs generalizing src len n dma j with
  | nil => simp at hlen; omega
  | cons g gs ih =>
    obtain ⟨hg, hgs⟩ := List.nodup_cons.mp hnd
    simp only [pieces, scatter]
    by_cases hj' : j < dataBufferSize
    · have hother : ∀ e ∈ pieces gs (len - dataBufferSize), e.seg ≠ g := by
        intro e he heq
        rw [← heq] at hg
        exact hg (pieces_seg he)
      rw [segView_head _ _ _ hj', scatter_other hother, update_self]
      have hin := blit_within (dma g) (a := 0) src (show j < min (min dataBufferSize len) n by omega)
      rwa [Nat.zero_add] at hin
    · rw [List.length_cons, Nat.add_mul] at hlen
      rw [segView_tail _ _ _ (by omega), Nat.min_eq_left (by omega)]
      rw [ih hgs _ _ (by omega) (by omega) (by omega)]
      have hsrc : dataBufferSize + (j - dataBufferSize) = j := by omega
      rw [hsrc]

theorem pieces_sglLen {segs : List Nat} {len : Nat} (hlen : len ≤ segs.length * dataBufferSize) :
    sglLen (pieces segs len) = len := by
  induction segs generalizing len with
  | nil => simp at hlen; simp [pieces, sglLen, hlen]
  | cons g gs ih =>
    rw [List.length_cons, Nat.add_mul] at hlen
    have htail := ih (show len - dataBufferSize ≤ gs.length * dataBufferSize by omega)
    unfold sglLen at *
    simp only [pieces, List.map_cons, List.sum_cons, htail]
    omega

theorem copyToBuf_ok (dma : Nat → Nat → UInt8) {segs : List Nat} {off left buf : Nat}
    (mem : Nat → UInt8) (hoff : off ≤ dataBufferSize)
    (hleft : off + left ≤ segs.length * dataBufferSize) :
    copyToBuf dma segs off left buf mem =
      .ok (blit mem buf left fun j => segView dma segs (off + j)) := by
  have hsize : dataBufferSize = 8192 := rfl
  induction segs generalizing off left buf mem with
  | nil =>
    obtain rfl : left = 0 := by simp at hleft; omega
    simp [copyToBuf]
  | cons g gs ih =>
    simp only [copyToBuf]
    by_cases hl : left = 0
    · subst hl
      simp
    · rw [List.length_cons, Nat.add_mul] at hleft
      rw [if_neg hl, sub64_of_le hoff (by omega), if_pos (by omega), ih _ (by omega) (by omega)]
      congr 1
      have hsplit : left = min left (dataBufferSize - off) + (left - min left (dataBufferSize - off)) := by
        omega
      conv_rhs => rw [hsplit]
      rw [← blit_blit]
      have hhead : blit mem buf (min left (dataBufferSize - off)) (fun j => dma g (off + j)) =
          blit mem buf (min left (dataBufferSize - off)) (fun j => segView dma (g :: gs) (off + j)) := by
        apply blit_congr
        intro j hj
        rw [segView_head _ _ _ (by omega)]
      rw [hhead]
      apply blit_congr
      intro j hj
      have hsrc : off + (min left (dataBufferSize - off) + j) - dataBufferSize = 0 + j := by omega
      rw [segView_tail _ _ _ (by omega), hsrc]

/-- Beyond one segment into the payload the unsigned difference wraps, and the first copy leaves
its segment. -/
theorem copyToBuf_overrun (dma : Nat → Nat → UInt8) (segs : List Nat) {off left : Nat} (buf : Nat)
    (mem : Nat → UInt8) (hoff : dataBufferSize < off) (hlt : off < 2 ^ 64) (hleft : 0 < left) :
    copyToBuf dma segs off left buf mem = .error .overrun := by
  have hsize : dataBufferSize = 8192 := rfl
  cases segs with
  | nil =>
    simp only [copyToBuf]
    rw [if_neg (by omega)]
  | cons g gs =>
    simp only [copyToBuf]
    have hwrap : 0 < sub64 dataBufferSize off := by
      unfold sub64
      omega
    rw [if_neg (by omega), if_neg (by omega)]

/-! The walk. -/

/-- The segments of a task fit its length. -/
structure SegsFit (task : Task) : Prop where
  nseg : task.ioRequest.nseg = task.ioRequest.segs.length
  pos : 0 < task.len
  le : task.len ≤ task.ioRequest.nseg * dataBufferSize
  tight : task.ioRequest.nseg * dataBufferSize < task.len + dataBufferSize

theorem SegsFit.segSize {task : Task} (h : SegsFit task) {i : Nat} (hi : i < task.ioRequest.nseg) :
    segSize task i = min dataBufferSize (task.len - i * dataBufferSize) := by
  have hsize : dataBufferSize = 8192 := rfl
  have hle := h.le
  have htight := h.tight
  unfold Blk.segSize
  rw [hsize] at *
  split
  · next hlast => omega
  · next hnot => omega

/-- The cursor at the start of segment `i`. -/
def Task.atSeg (task : Task) (i : Nat) : Task :=
  { task with ioRequest := { task.ioRequest with curSegIdx := i, curSegLeft := 0 } }

theorem walkSgl_from {task : Task} (h : SegsFit task) {i n : Nat} (hi : i ≤ task.ioRequest.nseg)
    (hn : task.ioRequest.nseg < i + n) :
    walkSgl n (task.atSeg i) =
      .ok (pieces (task.ioRequest.segs.drop i) (task.len - i * dataBufferSize),
        task.atSeg task.ioRequest.nseg) := by
  induction n generalizing i with
  | zero => omega
  | succ n ih =>
    simp only [walkSgl, dataBufNextSge, Task.atSeg]
    by_cases hend : task.ioRequest.nseg ≤ i
    · obtain rfl : i = task.ioRequest.nseg := by omega
      rw [if_pos hend]
      have hdrop : task.ioRequest.segs.drop task.ioRequest.nseg = [] := by
        rw [h.nseg, List.drop_length]
      rw [hdrop]
      exact rfl
    · have hlt : i < task.ioRequest.segs.length := by
        rw [← h.nseg]
        omega
      have hsegs : ∀ a b, ({ task.ioRequest with curSegIdx := a, curSegLeft := b } : IORequest).segs =
          task.ioRequest.segs := fun _ _ => rfl
      have hrest := ih (i := i + 1) (by omega) (by omega)
      rw [if_neg hend, hsegs, List.getElem?_eq_getElem hlt]
      simp only [if_true]
      have hsz : Blk.segSize (task.atSeg i) i = min dataBufferSize (task.len - i * dataBufferSize) := by
        exact h.segSize (by omega)
      unfold Task.atSeg at hsz hrest
      change (do
        let (es, task2) ← walkSgl n (task.atSeg (i + 1))
        Except.ok (_ :: es, task2)) = _
      unfold Task.atSeg
      rw [hrest, List.drop_eq_getElem_cons hlt]
      simp only [pieces, hsz]
      rw [Nat.sub_sub, Nat.add_mul, Nat.one_mul]
      exact rfl

def restartSgl (task : Task) (sglOffset : Nat) : Except Fault (List Sge × Task) := do
  let task1 ← dataBufResetSgl task sglOffset
  walkSgl (task1.ioRequest.nseg + 1) task1

/-- The cursor in the middle of segment `i`, `left` bytes before its end. -/
def Task.inSeg (task : Task) (i left : Nat) : Task :=
  { task with ioRequest := { task.ioRequest with curSegIdx := i, curSegLeft := left } }

section
variable {task : Task} {off : Nat}

theorem SegsFit.index_lt (h : SegsFit task) (hoff : off < task.len) :
    off / dataBufferSize < task.ioRequest.nseg := by
  apply Nat.div_lt_of_lt_mul
  rw [Nat.mul_comm]
  exact Nat.lt_of_lt_of_le hoff h.le

theorem dataBufResetSgl_eq (h : SegsFit task) (hoff : off < task.len)
    (hlt : off + dataBufferSize < 2 ^ 32) : dataBufResetSgl task off =
      .ok (task.inSeg (off / dataBufferSize)
        (min task.len (off / dataBufferSize * dataBufferSize + dataBufferSize) - off)) := by
  have hidx := h.index_lt hoff
  have hdiv : off / dataBufferSize * dataBufferSize ≤ off := Nat.div_mul_le_self off _
  have hmod : off < off / dataBufferSize * dataBufferSize + dataBufferSize :=
    Nat.lt_div_mul_add (by decide)
  have hscan : resetScan task.len off (task.ioRequest.nseg - off / dataBufferSize)
      (off / dataBufferSize) (off / dataBufferSize * dataBufferSize) =
      (off / dataBufferSize,
        min task.len (off / dataBufferSize * dataBufferSize + dataBufferSize)) := by
    have hahead : task.ioRequest.nseg - off / dataBufferSize =
        task.ioRequest.nseg - off / dataBufferSize - 1 + 1 := by omega
    rw [hahead]
    simp only [resetScan]
    rw [if_pos hmod]
    congr 1
    split <;> omega
  unfold dataBufResetSgl Task.inSeg
  simp only [hscan]
  rw [if_neg (by omega), sub32_of_le (by omega) (by omega)]

theorem dataBufNextSge_inSeg (h : SegsFit task) (hoff : off < task.len) :
    ∃ g, task.ioRequest.segs[off / dataBufferSize]? = some g ∧
      dataBufNextSge (task.inSeg (off / dataBufferSize)
        (min task.len (off / dataBufferSize * dataBufferSize + dataBufferSize) - off)) =
      .ok (some ⟨g, off % dataBufferSize,
        min dataBufferSize (task.len - off / dataBufferSize * dataBufferSize) -
          off % dataBufferSize⟩, task.atSeg (off / dataBufferSize + 1)) := by
  have hsize : dataBufferSize = 8192 := rfl
  have hidx := h.index_lt hoff
  have hdiv : off / dataBufferSize * dataBufferSize + off % dataBufferSize = off := by
    rw [Nat.mul_comm]
    exact Nat.div_add_mod off dataBufferSize
  have hmod : off % dataBufferSize < dataBufferSize := Nat.mod_lt off (by decide)
  have hseg := h.segSize hidx
  have hlt : off / dataBufferSize < task.ioRequest.segs.length := by
    rw [← h.nseg]
    exact hidx
  generalize off / dataBufferSize = i at *
  generalize off % dataBufferSize = r at *
  generalize hleft : min task.len (i * dataBufferSize + dataBufferSize) - off = left
  have hr : min dataBufferSize (task.len - i * dataBufferSize) - left = r := by omega
  have hlen : min dataBufferSize (task.len - i * dataBufferSize) - r = left := by omega
  refine ⟨_, List.getElem?_eq_getElem hlt, ?_⟩
  have hseg' : segSize (task.inSeg i left) i =
      min dataBufferSize (task.len - i * dataBufferSize) := hseg
  have hsegs : (task.inSeg i left).ioRequest.segs = task.ioRequest.segs := rfl
  have hcur : (task.inSeg i left).ioRequest.curSegIdx = i := rfl
  have hcount : (task.inSeg i left).ioRequest.nseg = task.ioRequest.nseg := rfl
  have hmark : (task.inSeg i left).ioRequest.curSegLeft = left := rfl
  simp only [dataBufNextSge, hcur, hcount, hsegs, hmark, hseg']
  rw [if_neg (by omega), List.getElem?_eq_getElem hlt]
  simp only
  rw [if_neg (by omega), if_neg (by omega), hr, hlen]
  exact rfl

theorem restartSgl_eq (h : SegsFit task) (hoff : off < task.len)
    (hlt : off + dataBufferSize < 2 ^ 32) :
    ∃ g, task.ioRequest.segs[off / dataBufferSize]? = some g ∧ restartSgl task off =
      .ok (⟨g, off % dataBufferSize,
        min dataBufferSize (task.len - off / dataBufferSize * dataBufferSize) -
          off % dataBufferSize⟩ ::
        pieces (task.ioRequest.segs.drop (off / dataBufferSize + 1))
          (task.len - (off / dataBufferSize + 1) * dataBufferSize),
        task.atSeg task.ioRequest.nseg) := by
  have hidx := h.index_lt hoff
  obtain ⟨g, hg, hnext⟩ := dataBufNextSge_inSeg h hoff
  have hrest : walkSgl task.ioRequest.nseg (task.atSeg (off / dataBufferSize + 1)) =
      .ok (pieces (task.ioRequest.segs.drop (off / dataBufferSize + 1))
        (task.len - (off / dataBufferSize + 1) * dataBufferSize),
        task.atSeg task.ioRequest.nseg) :=
    walkSgl_from h hidx (Nat.lt_add_of_pos_left (Nat.succ_pos _))
  refine ⟨g, hg, ?_⟩
  unfold restartSgl
  rw [dataBufResetSgl_eq h hoff hlt]
  change walkSgl (task.ioRequest.nseg + 1) _ = _
  unfold walkSgl
  rw [hnext]
  change (do
    let (es, task2) ← walkSgl task.ioRequest.nseg (task.atSeg (off / dataBufferSize + 1))
    Except.ok (_ :: es, task2)) = _
  rw [hrest]
  exact rfl

/-- SPDK sees the payload in order, whatever the cursor was left at. -/
theorem enumerateSgl_eq (h : SegsFit task) :
    enumerateSgl task =
      .ok (pieces task.ioRequest.segs task.len, task.atSeg task.ioRequest.nseg) := by
  obtain ⟨g, hg, hwalk⟩ := restartSgl_eq h h.pos (by decide)
  rw [Nat.zero_div, Nat.zero_mod, Nat.zero_mul, Nat.zero_add, Nat.one_mul, Nat.sub_zero,
    Nat.sub_zero] at hwalk
  have hsegs : task.ioRequest.segs = g :: task.ioRequest.segs.drop 1 := by
    rw [Nat.zero_div] at hg
    obtain ⟨hlt, hget⟩ := List.getElem?_eq_some_iff.mp hg
    rw [← hget, ← List.drop_eq_getElem_cons hlt, List.drop_zero]
  conv_rhs => rw [hsegs]
  exact hwalk

end

end LockdepSpdk.Blk
