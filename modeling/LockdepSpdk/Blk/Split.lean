import LockdepSpdk.Blk.Task
import LockdepSpdk.Blk.Word
import LockdepSpdk.Lib.ByteRange
import Mathlib.Data.Nat.ModEq

/-!
# Request splitting

The loops of `write_split` and `make_read_tasks`, as the arguments of the tasks
they create, and the LBA extents the tasks are issued with.
-/

namespace LockdepSpdk.Blk

set_option autoImplicit false

open ByteRange

structure Config where
  blockSize : Nat
  size : Nat
  maxQueueDepth : Nat

/-- A task of `write_split`: its range and where its data is. -/
structure WriteChunk where
  off : Nat
  len : Nat
  buf : Nat
  deriving DecidableEq, Repr

/-- A task of `make_read_tasks`: its range and the copy its `fill_cb` makes. -/
structure ReadChunk where
  off : Nat
  len : Nat
  fill : FillCb
  deriving DecidableEq, Repr

def writeSplitLoop (off buf remainLen begin : Nat) : List WriteChunk :=
  if remainLen = 0 then []
  else
    let writeSize := min remainLen splitSize
    ⟨add64 off begin, writeSize, buf + begin⟩ ::
      writeSplitLoop off buf (remainLen - writeSize) (add64 begin writeSize)
termination_by remainLen
decreasing_by
  unfold splitSize
  omega

/-- `begin` has fewer than 2^64 values and decides alone whether the loop goes on, so a loop that
uses up the fuel never ends. -/
def makeReadLoop : Nat → Nat → Nat → Nat → Nat → Nat → Option (List ReadChunk)
  | 0, _, _, _, _, _ => none
  | fuel + 1, begin, alignedEnd, tmpOff, remainOrigLen, buf =>
    if begin < alignedEnd then
      let readSize := min (alignedEnd - begin) splitSize
      let tmpLen := min remainOrigLen (sub64 readSize tmpOff)
      match makeReadLoop fuel (add64 begin splitSize) alignedEnd 0 (sub64 remainOrigLen tmpLen)
          (buf + tmpLen) with
      | none => none
      | some cs => some (⟨begin, readSize, ⟨buf, tmpOff, tmpLen⟩⟩ :: cs)
    else some []

def writeChunks (off len buf : Nat) : List WriteChunk := writeSplitLoop off buf len 0

def readChunks (alignedOff buf alignedLen origOff origLen : Nat) : Option (List ReadChunk) :=
  makeReadLoop (2 ^ 64) alignedOff (add64 alignedOff alignedLen) (sub64 origOff alignedOff) origLen
    buf

def extent (blockSize off len : Nat) : Nat × Nat := (off / blockSize, len / blockSize)

/-! What the loops produce. -/

structure WriteSplit (off len buf : Nat) (cs : List WriteChunk) : Prop where
  tiles : Tiles off len (cs.map fun c => (c.off, c.len))
  size : ∀ c ∈ cs, 0 < c.len ∧ c.len ≤ splitSize
  source : ∀ c ∈ cs, c.buf + off = buf + c.off
  blocks : ∀ b, b ∣ splitSize → b ∣ off → b ∣ len → ∀ c ∈ cs, b ∣ c.off ∧ b ∣ c.len
  count : cs.length = (len + (splitSize - 1)) / splitSize
  first : 0 < len → ∃ c ∈ cs, c.len = min len splitSize

theorem writeSplitLoop_spec {off buf remainLen begin : Nat}
    (h : off + begin + remainLen < 2 ^ 64) :
    WriteSplit (off + begin) remainLen (buf + begin) (writeSplitLoop off buf remainLen begin) := by
  have hsplit : splitSize = 131072 := rfl
  fun_induction writeSplitLoop off buf remainLen begin with
  | case1 begin =>
    refine ⟨rfl, by simp, by simp, by simp, ?_, by simp⟩
    rw [hsplit]
    exact rfl
  | case2 remainLen begin hne writeSize ih =>
    have hw : writeSize = min remainLen splitSize := rfl
    have hbegin : add64 begin writeSize = begin + writeSize := add64_of_lt (by omega)
    have hoff : add64 off begin = off + begin := add64_of_lt (by omega)
    rw [hbegin] at ih ⊢
    rw [hoff]
    have htail := ih (by omega)
    refine ⟨⟨rfl, by simp only; omega, ?_⟩, ?_, ?_, ?_, ?_, fun _ => ⟨_, List.mem_cons_self, rfl⟩⟩
    · rw [Nat.add_assoc]
      exact htail.tiles
    · intro c hc
      rcases List.mem_cons.mp hc with heq | hc
      · subst heq
        simp only
        omega
      · exact htail.size c hc
    · intro c hc
      rcases List.mem_cons.mp hc with heq | hc
      · subst heq
        exact rfl
      · have hsrc := htail.source c hc
        omega
    · intro b hb hboff hblen c hc
      have hbw : b ∣ writeSize := by
        rw [hw]
        rcases Nat.le_total remainLen splitSize with hle | hle
        · rwa [Nat.min_eq_left hle]
        · rwa [Nat.min_eq_right hle]
      rcases List.mem_cons.mp hc with heq | hc
      · subst heq
        exact ⟨hboff, hbw⟩
      · apply htail.blocks b hb _ (Nat.dvd_sub hblen hbw) c hc
        rw [← Nat.add_assoc]
        exact Nat.dvd_add hboff hbw
    · rw [List.length_cons, htail.count, hsplit]
      rw [hsplit] at hw
      omega

theorem writeChunks_spec {off len buf : Nat} (h : off + len < 2 ^ 64) :
    WriteSplit off len buf (writeChunks off len buf) := by
  have hloop : WriteSplit (off + 0) len (buf + 0) (writeSplitLoop off buf len 0) :=
    writeSplitLoop_spec h
  exact hloop

/-- The tasks read `n` bytes from `off` on; from `skip` bytes into them, `len` bytes are copied to
consecutive addresses from `buf` on. -/
structure ReadSplit (off n skip len buf : Nat) (cs : List ReadChunk) : Prop where
  tiles : Tiles off n (cs.map fun c => (c.off, c.len))
  size : ∀ c ∈ cs, 0 < c.len ∧ c.len ≤ splitSize
  fills : Tiles buf len (cs.map fun c => (c.fill.buf, c.fill.tmpLen))
  inside : ∀ c ∈ cs, c.fill.tmpOff + c.fill.tmpLen ≤ c.len ∧ c.fill.tmpOff ≤ skip
  target : ∀ c ∈ cs, 0 < c.fill.tmpLen → c.fill.buf + (off + skip) = buf + (c.off + c.fill.tmpOff)
  blocks : ∀ b, b ∣ splitSize → b ∣ off → b ∣ n → ∀ c ∈ cs, b ∣ c.off ∧ b ∣ c.len
  count : cs.length = (n + (splitSize - 1)) / splitSize
  first : 0 < n → ∃ c ∈ cs, c.off = off ∧ c.len = min n splitSize ∧ c.fill.tmpOff = skip ∧
    c.fill.tmpLen = min len (min n splitSize - skip)

theorem makeReadLoop_done {fuel begin alignedEnd skip len buf : Nat} (h : alignedEnd ≤ begin) :
    makeReadLoop (fuel + 1) begin alignedEnd skip len buf = some [] := by
  simp only [makeReadLoop]
  rw [if_neg (by omega)]

theorem makeReadLoop_spec {fuel off n skip len buf : Nat} (hend : off + n < 2 ^ 63)
    (hfuel : n / splitSize + 1 < fuel) (hskip : skip = 0 ∨ skip < min n splitSize)
    (hlen : skip + len ≤ n) :
    ∃ cs, makeReadLoop fuel off (off + n) skip len buf = some cs ∧
      ReadSplit off n skip len buf cs := by
  have hsplit : splitSize = 131072 := rfl
  induction fuel generalizing off n skip len buf with
  | zero => exact absurd hfuel (Nat.not_lt_zero _)
  | succ fuel ih =>
    simp only [makeReadLoop]
    by_cases hn : n = 0
    · subst hn
      rw [if_neg (by omega)]
      obtain rfl : len = 0 := by omega
      refine ⟨[], rfl, rfl, by simp, rfl, by simp, by simp, by simp, ?_, by simp⟩
      rw [hsplit]
      exact rfl
    · rw [if_pos (by omega), Nat.add_sub_cancel_left,
        sub64_of_le (a := min n splitSize) (b := skip) (by omega) (by omega),
        sub64_of_le (a := len) (Nat.min_le_left _ _) (by omega), add64_of_lt (by omega)]
      generalize hr : min n splitSize = readSize
      generalize ht : min len (readSize - skip) = tmpLen
      by_cases hlast : n ≤ splitSize
      · -- the last chunk: `begin` leaves the range
        obtain ⟨fuel', rfl⟩ : ∃ fuel', fuel = fuel' + 1 := by
          rw [hsplit] at hfuel
          exact ⟨fuel - 1, by omega⟩
        rw [makeReadLoop_done (by omega)]
        obtain rfl : readSize = n := by omega
        obtain rfl : tmpLen = len := by omega
        refine ⟨_, rfl, ?_, ?_, ?_, ?_, ?_, ?_, ?_,
          fun _ => ⟨_, List.mem_cons_self, rfl, hr.symm, rfl, by rw [hr, ht]⟩⟩
        · exact ⟨rfl, Nat.le_refl _, Nat.sub_self _⟩
        · simp only [List.mem_singleton, forall_eq]
          omega
        · exact ⟨rfl, Nat.le_refl _, Nat.sub_self _⟩
        · simp only [List.mem_singleton, forall_eq]
          omega
        · intro c hc _
          rw [List.mem_singleton.mp hc]
        · intro b _ hboff hbn
          simp only [List.mem_singleton, forall_eq]
          exact ⟨hboff, hbn⟩
        · rw [List.length_singleton, hsplit]
          omega
      · obtain rfl : readSize = splitSize := by omega
        have hend' : off + n = off + splitSize + (n - splitSize) := by omega
        rw [hend']
        have hfuel' : (n - splitSize) / splitSize + 1 < fuel := by
          rw [hsplit] at hfuel hlast ⊢
          omega
        obtain ⟨cs, hcs, htail⟩ : ∃ cs, makeReadLoop fuel (off + splitSize)
            (off + splitSize + (n - splitSize)) 0 (len - tmpLen) (buf + tmpLen) = some cs ∧
            ReadSplit (off + splitSize) (n - splitSize) 0 (len - tmpLen) (buf + tmpLen) cs :=
          ih (by omega) hfuel' (Or.inl rfl) (by omega)
        rw [hcs]
        refine ⟨_, rfl, ?_, ?_, ?_, ?_, ?_, ?_, ?_,
          fun _ => ⟨_, List.mem_cons_self, rfl, hr.symm, rfl, by rw [hr, ht]⟩⟩
        · exact ⟨rfl, by simp only; omega, htail.tiles⟩
        · intro c hc
          rcases List.mem_cons.mp hc with heq | hc
          · subst heq
            simp only
            omega
          · exact htail.size c hc
        · exact ⟨rfl, by simp only; omega, htail.fills⟩
        · intro c hc
          rcases List.mem_cons.mp hc with heq | hc
          · subst heq
            simp only
            omega
          · have hin := htail.inside c hc
            omega
        · intro c hc hpos
          rcases List.mem_cons.mp hc with heq | hc
          · subst heq
            exact rfl
          · have hto := htail.target c hc hpos
            have hmem : (c.fill.buf, c.fill.tmpLen) ∈ cs.map fun c => (c.fill.buf, c.fill.tmpLen) :=
              List.mem_map_of_mem hc
            have hb := htail.fills.bounds hmem
            simp only at hb
            omega
        · intro b hb hboff hbn c hc
          rcases List.mem_cons.mp hc with heq | hc
          · subst heq
            exact ⟨hboff, hb⟩
          · exact htail.blocks b hb (Nat.dvd_add hboff hb) (Nat.dvd_sub hbn hb) c hc
        · rw [List.length_cons, htail.count, hsplit]
          rw [hsplit] at hlast
          omega

theorem readChunks_spec {alignedOff buf alignedLen origOff origLen : Nat}
    (hend : alignedOff + alignedLen < 2 ^ 63) (hle : alignedOff ≤ origOff)
    (hskip : origOff = alignedOff ∨ origOff - alignedOff < min alignedLen splitSize)
    (horig : origOff + origLen ≤ alignedOff + alignedLen) :
    ∃ cs, readChunks alignedOff buf alignedLen origOff origLen = some cs ∧
      ReadSplit alignedOff alignedLen (origOff - alignedOff) origLen buf cs := by
  have hsplit : splitSize = 131072 := rfl
  unfold readChunks
  rw [add64_of_lt (by omega), sub64_of_le hle (by omega)]
  apply makeReadLoop_spec hend
  · rw [hsplit]
    omega
  · omega
  · omega

/-! What holds of the tasks also where sums wrap. -/

theorem writeSplitLoop_size (off buf remainLen begin : Nat) :
    ∀ c ∈ writeSplitLoop off buf remainLen begin, 0 < c.len ∧ c.len ≤ splitSize := by
  have hsplit : splitSize = 131072 := rfl
  fun_induction writeSplitLoop off buf remainLen begin with
  | case1 begin => simp
  | case2 remainLen begin hne writeSize ih =>
    have hw : writeSize = min remainLen splitSize := rfl
    intro c hc
    rcases List.mem_cons.mp hc with heq | hc
    · subst heq
      simp only
      omega
    · exact ih c hc

theorem makeReadLoop_cons {fuel begin alignedEnd skip len buf : Nat} {cs : List ReadChunk}
    (h : makeReadLoop (fuel + 1) begin alignedEnd skip len buf = some cs)
    (hlt : begin < alignedEnd) :
    ∃ len' buf' cs', cs = ⟨begin, min (alignedEnd - begin) splitSize,
        ⟨buf, skip, min len (sub64 (min (alignedEnd - begin) splitSize) skip)⟩⟩ :: cs' ∧
      makeReadLoop fuel (add64 begin splitSize) alignedEnd 0 len' buf' = some cs' := by
  simp only [makeReadLoop] at h
  rw [if_pos hlt] at h
  split at h
  · cases h
  · next cs' hcs' => exact ⟨_, _, cs', (Option.some.inj h).symm, hcs'⟩

/-- The ranges of the tasks that the first `n` turns of `make_read_tasks` create. -/
def readTurns : Nat → Nat → Nat → List (Nat × Nat)
  | 0, _, _ => []
  | n + 1, begin, alignedEnd =>
    if begin < alignedEnd then
      (begin, min (alignedEnd - begin) splitSize) :: readTurns n (add64 begin splitSize) alignedEnd
    else []

theorem makeReadLoop_turns {fuel begin alignedEnd skip len buf : Nat} {cs : List ReadChunk}
    (h : makeReadLoop fuel begin alignedEnd skip len buf = some cs) :
    cs.map (fun c => (c.off, c.len)) = readTurns fuel begin alignedEnd := by
  induction fuel generalizing begin skip len buf cs with
  | zero => cases h
  | succ fuel ih =>
    unfold readTurns
    by_cases hlt : begin < alignedEnd
    · obtain ⟨len', buf', cs', rfl, hcs'⟩ := makeReadLoop_cons h hlt
      rw [if_pos hlt, List.map_cons, ih hcs']
    · rw [makeReadLoop_done (by omega)] at h
      obtain rfl := Option.some.inj h
      rw [if_neg hlt]
      exact List.map_nil

theorem readTurns_size (n begin alignedEnd : Nat) :
    ∀ r ∈ readTurns n begin alignedEnd, 0 < r.2 ∧ r.2 ≤ splitSize := by
  have hsplit : splitSize = 131072 := rfl
  induction n generalizing begin with
  | zero =>
    intro r hr
    cases hr
  | succ n ih =>
    unfold readTurns
    by_cases hlt : begin < alignedEnd
    · rw [if_pos hlt]
      intro r hr
      rcases List.mem_cons.mp hr with heq | hr
      · subst heq
        simp only
        omega
      · exact ih _ r hr
    · rw [if_neg hlt]
      intro r hr
      cases hr

/-- A turn goes on by a task of its size, or wraps and has at most one task to go. -/
theorem makeReadLoop_count {fuel begin alignedEnd skip len buf : Nat} {cs : List ReadChunk}
    (h : makeReadLoop fuel begin alignedEnd skip len buf = some cs) (hend : alignedEnd < 2 ^ 64) :
    alignedEnd - begin ≤ cs.length * splitSize := by
  have hsplit : splitSize = 131072 := rfl
  induction fuel generalizing begin skip len buf cs with
  | zero => cases h
  | succ fuel ih =>
    by_cases hlt : begin < alignedEnd
    · obtain ⟨len', buf', cs', rfl, hcs'⟩ := makeReadLoop_cons h hlt
      have hcount := ih hcs'
      rw [List.length_cons, Nat.add_mul, Nat.one_mul]
      by_cases hwrap : begin + splitSize < 2 ^ 64
      · rw [add64_of_lt hwrap] at hcount
        omega
      · omega
    · rw [makeReadLoop_done (by omega)] at h
      omega

theorem readChunks_size {alignedOff buf alignedLen origOff origLen : Nat} {cs : List ReadChunk}
    (h : readChunks alignedOff buf alignedLen origOff origLen = some cs) :
    ∀ c ∈ cs, 0 < c.len ∧ c.len ≤ splitSize := by
  intro c hc
  have hmem : (c.off, c.len) ∈ cs.map fun c => (c.off, c.len) := List.mem_map_of_mem hc
  rw [makeReadLoop_turns h] at hmem
  exact readTurns_size _ _ _ _ hmem

/-- The copy of a task is in its payload, from the first segment on. -/
def ReadChunk.Fits (c : ReadChunk) : Prop :=
  c.fill.tmpOff ≤ dataBufferSize ∧ c.fill.tmpOff + c.fill.tmpLen ≤ c.len

theorem makeReadLoop_fits {fuel begin alignedEnd len buf : Nat} {cs : List ReadChunk}
    (h : makeReadLoop fuel begin alignedEnd 0 len buf = some cs) : ∀ c ∈ cs, c.Fits := by
  have hsplit : splitSize = 131072 := rfl
  induction fuel generalizing begin len buf cs with
  | zero => cases h
  | succ fuel ih =>
    by_cases hlt : begin < alignedEnd
    · obtain ⟨len', buf', cs', rfl, hcs'⟩ := makeReadLoop_cons h hlt
      intro c hc
      rcases List.mem_cons.mp hc with heq | hc
      · have hread : sub64 (min (alignedEnd - begin) splitSize) 0 =
            min (alignedEnd - begin) splitSize := sub64_of_le (Nat.zero_le _) (by omega)
        subst heq
        refine ⟨Nat.zero_le _, ?_⟩
        simp only [hread]
        omega
      · exact ih hcs' c hc
    · rw [makeReadLoop_done (by omega)] at h
      obtain rfl := Option.some.inj h
      exact fun c hc => nomatch hc

theorem readChunks_fits {off buf len origLen : Nat} {cs : List ReadChunk}
    (h : readChunks off buf len off origLen = some cs) : ∀ c ∈ cs, c.Fits := by
  have hzero : sub64 off off = 0 := by
    unfold sub64
    omega
  unfold readChunks at h
  rw [hzero] at h
  exact makeReadLoop_fits h

theorem readChunks_single {alignedOff buf alignedLen origOff origLen : Nat} {cs : List ReadChunk}
    (h : readChunks alignedOff buf alignedLen origOff origLen = some cs)
    (hle : alignedLen ≤ splitSize) (hlen : cs.length < 2 ^ 31) :
    cs = [] ∨ ∃ fill, cs = [⟨alignedOff, alignedLen, fill⟩] := by
  have hsplit : splitSize = 131072 := rfl
  have hend : add64 alignedOff alignedLen < 2 ^ 64 := Nat.mod_lt _ (by decide)
  unfold readChunks at h
  by_cases hlt : alignedOff < add64 alignedOff alignedLen
  · have hsum : add64 alignedOff alignedLen = alignedOff + alignedLen := by
      unfold add64 at *
      omega
    obtain ⟨len', buf', cs', rfl, hcs'⟩ := makeReadLoop_cons h hlt
    have hread : min (add64 alignedOff alignedLen - alignedOff) splitSize = alignedLen := by omega
    rw [hread]
    by_cases hwrap : alignedOff + splitSize < 2 ^ 64
    · rw [add64_of_lt hwrap, makeReadLoop_done (by omega)] at hcs'
      obtain rfl := Option.some.inj hcs'
      exact Or.inr ⟨_, rfl⟩
    · -- from the wrapped `begin` the loop would go over the whole device
      have hcount := makeReadLoop_count hcs' hend
      have hbegin : add64 alignedOff splitSize < splitSize := by
        unfold add64
        omega
      rw [List.length_cons] at hlen
      rw [hsplit] at hcount hbegin hwrap
      omega
  · exact Or.inl (Option.some.inj (h.symm.trans (makeReadLoop_done (by omega))))

/-! The extents. -/

def writeExtents (blockSize off len buf : Nat) : List (Nat × Nat) :=
  (writeChunks off len buf).map fun c => extent blockSize c.off c.len

def readExtents (blockSize off len buf : Nat) : Option (List (Nat × Nat)) :=
  (readChunks off buf len off len).map fun cs => cs.map fun c => extent blockSize c.off c.len

def ExtentsTile (blockSize off len buf : Nat) : Prop :=
  Tiles (off / blockSize) ((off + len) / blockSize - off / blockSize)
      (writeExtents blockSize off len buf) ∧
    ∃ es ∈ readExtents blockSize off len buf,
      Tiles (off / blockSize) ((off + len) / blockSize - off / blockSize) es

instance (blockSize off len buf : Nat) : Decidable (ExtentsTile blockSize off len buf) :=
  inferInstanceAs (Decidable (_ ∧ ∃ es ∈ _, _))

theorem sum_div_le (b : Nat) (l : List Nat) : b * (l.map (· / b)).sum ≤ l.sum := by
  induction l with
  | nil => simp
  | cons x l ih =>
    have hx := Nat.mul_div_le x b
    simp only [List.map_cons, List.sum_cons, Nat.mul_add]
    omega

theorem dvd_of_sum_div {b : Nat} {l : List Nat} (h : b * (l.map (· / b)).sum = l.sum) :
    ∀ x ∈ l, b ∣ x := by
  induction l with
  | nil => simp
  | cons x l ih =>
    have hx := Nat.mul_div_le x b
    have hl := sum_div_le b l
    simp only [List.map_cons, List.sum_cons, Nat.mul_add] at h
    intro y hy
    rcases List.mem_cons.mp hy with heq | hy
    · subst heq
      exact ⟨y / b, by omega⟩
    · exact ih (by omega) y hy

theorem tiles_extent {b off len : Nat} {l : List (Nat × Nat)} (h : Tiles off len l)
    (hoff : b ∣ off) (hl : ∀ r ∈ l, b ∣ r.2) :
    Tiles (off / b) (len / b) (l.map fun r => extent b r.1 r.2) := by
  induction l generalizing off len with
  | nil =>
    obtain rfl : len = 0 := h
    exact Nat.zero_div b
  | cons r l ih =>
    obtain ⟨hr, hle, htail⟩ := h
    obtain ⟨k, hk⟩ := hl r List.mem_cons_self
    have hrest := ih htail (Nat.dvd_add hoff ⟨k, hk⟩) fun q hq => hl q (List.mem_cons_of_mem r hq)
    refine ⟨?_, Nat.div_le_div_right hle, ?_⟩
    · change r.1 / b = off / b
      rw [hr]
    · change Tiles (off / b + r.2 / b) (len / b - r.2 / b) _
      rw [Nat.add_div_of_dvd_right hoff, hk, Nat.sub_mul_div, ← hk] at hrest
      rcases Nat.eq_zero_or_pos b with hb | hb
      · subst hb
        simpa using hrest
      · have hdiv : r.2 / b = k := by rw [hk, Nat.mul_div_cancel_left k hb]
        rw [hdiv] at hrest ⊢
        exact hrest

theorem dvd_of_tiles_extent {b off len a : Nat} {l : List (Nat × Nat)} (h : Tiles off len l)
    (hlen : b ∣ len) (hext : Tiles a (len / b) (l.map fun r => extent b r.1 r.2)) :
    ∀ r ∈ l, b ∣ r.2 := by
  have hsum := hext.sum
  have hmap : (l.map fun r => extent b r.1 r.2).map Prod.snd = (l.map Prod.snd).map (· / b) := by
    simp [extent]
  rw [hmap] at hsum
  have hall := dvd_of_sum_div (b := b) (l := l.map Prod.snd) (by
    rw [hsum, h.sum]
    exact Nat.mul_div_cancel' hlen)
  intro r hr
  exact hall r.2 (List.mem_map_of_mem hr)

theorem single_chunk {off len : Nat} {l : List (Nat × Nat)} (h : Tiles off len l)
    (hl : l.length = 1) : ∀ r ∈ l, r.2 = len := by
  obtain ⟨r, hr⟩ := List.length_eq_one_iff.mp hl
  subst hr
  have hsum := h.sum
  intro q hq
  rw [List.mem_singleton.mp hq]
  simpa using hsum

/-- The issued extents tile the request exactly when it is one task, or the block size divides the
split size. -/
theorem extents_tile_iff (cfg : Config) (off len buf : Nat) (hsize : cfg.size < 2 ^ 63)
    (hoff : cfg.blockSize ∣ off) (hlen : cfg.blockSize ∣ len) (hpos : 0 < len)
    (hin : off + len ≤ cfg.size) :
    ExtentsTile cfg.blockSize off len buf ↔ len ≤ splitSize ∨ cfg.blockSize ∣ splitSize := by
  have hsplit : splitSize = 131072 := rfl
  generalize cfg.blockSize = b at *
  have hw : WriteSplit off len buf (writeChunks off len buf) := writeChunks_spec (by omega)
  have hend : off + len < 2 ^ 63 := by omega
  obtain ⟨cs, hcs, hr⟩ : ∃ cs, readChunks off buf len off len = some cs ∧
      ReadSplit off len (off - off) len buf cs :=
    readChunks_spec hend (Nat.le_refl off) (Or.inl rfl) (Nat.le_refl _)
  have hcount : (off + len) / b - off / b = len / b := by
    rw [Nat.add_div_of_dvd_right hoff, Nat.add_sub_cancel_left]
  have hwext : writeExtents b off len buf =
      ((writeChunks off len buf).map fun c => (c.off, c.len)).map fun r => extent b r.1 r.2 := by
    simp [writeExtents]
  have hrext : readExtents b off len buf =
      some ((cs.map fun c => (c.off, c.len)).map fun r => extent b r.1 r.2) := by
    simp [readExtents, hcs]
  unfold ExtentsTile
  rw [hcount, hwext, hrext]
  constructor
  · intro h
    rcases Nat.lt_or_ge splitSize len with hlong | hshort
    · obtain ⟨c, hc, hclen⟩ := hw.first hpos
      have hdvd := dvd_of_tiles_extent hw.tiles hlen h.1 _ (List.mem_map_of_mem hc)
      simp only [hclen, Nat.min_eq_right (Nat.le_of_lt hlong)] at hdvd
      exact Or.inr hdvd
    · exact Or.inl hshort
  · intro h
    have hwdvd : ∀ r ∈ (writeChunks off len buf).map fun c => (c.off, c.len), b ∣ r.2 := by
      rcases h with hshort | hdvd
      · intro r hr'
        rw [single_chunk hw.tiles _ r hr']
        · exact hlen
        · rw [List.length_map, hw.count, hsplit]
          omega
      · intro r hr'
        obtain ⟨c, hc, heq⟩ := List.mem_map.mp hr'
        rw [← heq]
        exact (hw.blocks b hdvd hoff hlen c hc).2
    have hrdvd : ∀ r ∈ cs.map fun c => (c.off, c.len), b ∣ r.2 := by
      rcases h with hshort | hdvd
      · intro r hr'
        rw [single_chunk hr.tiles _ r hr']
        · exact hlen
        · rw [List.length_map, hr.count, hsplit]
          omega
      · intro r hr'
        obtain ⟨c, hc, heq⟩ := List.mem_map.mp hr'
        rw [← heq]
        exact (hr.blocks b hdvd hoff hlen c hc).2
    exact ⟨tiles_extent hw.tiles hoff hwdvd, _, rfl, tiles_extent hr.tiles hoff hrdvd⟩

/-- 33 blocks of 4096 bytes: a task of 32 blocks and one of 1. -/
theorem extents_tile_iff_4096 : ExtentsTile 4096 4096 135168 0 :=
  (extents_tile_iff ⟨4096, 2 ^ 40, 127⟩ 4096 135168 0 (by decide) (by decide) (by decide)
    (by decide) (by decide)).mpr (Or.inr (by decide))

/-- 256 blocks of 520 bytes, formatted with metadata: 252 of them are in the first task and 3 in the
second, and one is in neither. -/
theorem extents_lose_block : ¬ ∀ (cfg : Config) (raw off len buf : Nat), 0 < cfg.blockSize →
    cfg.size = openSize raw cfg.blockSize → cfg.size < 2 ^ 63 → cfg.blockSize ∣ off →
    cfg.blockSize ∣ len → 0 < len → off + len ≤ cfg.size →
    ExtentsTile cfg.blockSize off len buf := by
  intro h
  have htile := h ⟨520, 2 ^ 40, 127⟩ (2 ^ 40) 0 133120 0 (by decide) (by decide +kernel) (by decide)
    (by decide) (by decide) (by decide) (by decide)
  revert htile
  decide +kernel

end LockdepSpdk.Blk
