import LockdepSpdk.Blk.Device

/-!
# Range guards

What `is_valid_io` and the asserts of `read_random` admit, and where the tasks
of an admitted request lie.
-/

namespace LockdepSpdk.Blk

set_option autoImplicit false

open ByteRange

/-! Rounding with any mask, also where the block size is not a power of two. -/

section
variable {x m : Nat}

theorem p2align_le (x align : Nat) : p2align x align ≤ x := Nat.and_le_left

theorem p2align_eq_zero (hx : x < 2 ^ 64) (hm : m < 2 ^ 64) :
    p2align x (m + 1) = 0 ↔ x &&& m = x := by
  have hbit : ∀ i, (p2align x (m + 1)).testBit i = (x.testBit i && !m.testBit i) := by
    intro i
    unfold p2align
    rw [neg64_of_pos (Nat.succ_pos m) hm, Nat.testBit_and, Nat.testBit_two_pow_sub_succ hm]
    by_cases hi : i < 64
    · simp [hi]
    · have hxi : x.testBit i = false := by
        apply Nat.testBit_lt_two_pow
        exact Nat.lt_of_lt_of_le hx (Nat.pow_le_pow_right (by decide) (by omega))
      simp [hxi]
  constructor
  · intro h
    apply Nat.eq_of_testBit_eq
    intro i
    have hi := hbit i
    rw [h, Nat.zero_testBit] at hi
    rw [Nat.testBit_and]
    revert hi
    cases x.testBit i <;> cases m.testBit i <;> decide
  · intro h
    apply Nat.eq_of_testBit_eq
    intro i
    have hi : (x &&& m).testBit i = x.testBit i := congrArg (Nat.testBit · i) h
    rw [Nat.testBit_and] at hi
    rw [hbit, Nat.zero_testBit]
    revert hi
    cases x.testBit i <;> cases m.testBit i <;> decide

end

/-! The tasks. -/

theorem readTurns_le (n begin alignedEnd : Nat) :
    ∀ r ∈ readTurns n begin alignedEnd, r.1 + r.2 ≤ alignedEnd := by
  induction n generalizing begin with
  | zero =>
    intro r hr
    cases hr
  | succ n ih =>
    unfold readTurns
    by_cases hlt : begin < alignedEnd
    · rw [if_pos hlt]
      intro r hr
      rcases List.mem_cons.mp hr with heq | hr
      · subst heq
        simp only
        omega
      · exact ih _ r hr
    · rw [if_neg hlt]
      intro r hr
      cases hr

def readRanges (alignedOff alignedLen n : Nat) : List (Nat × Nat) :=
  (alignedOff, alignedLen) :: readTurns n alignedOff (add64 alignedOff alignedLen)

/-- The asserts of `read_random`. -/
def RandomAsserts (cfg : Config) (off len : Nat) : Prop :=
  0 < len ∧ off < cfg.size ∧ add64 off len ≤ cfg.size

def alignedEnd (cfg : Config) (off len : Nat) : Nat := p2roundup (add64 off len) cfg.blockSize

structure GuardsExact (cfg : Config) (off len : Nat) : Prop where
  valid : isValidIo cfg off len = true ↔
    0 < len ∧ cfg.blockSize ∣ off ∧ cfg.blockSize ∣ len ∧ off + len ≤ cfg.size
  random : RandomAsserts cfg off len ↔ 0 < len ∧ off + len ≤ cfg.size
  writes : isValidIo cfg off len = true →
    ∀ buf, ∀ c ∈ writeChunks off len buf, c.off + c.len ≤ cfg.size
  reads : isValidIo cfg off len = true →
    ∀ n, ∀ r ∈ readRanges off len n, r.1 + r.2 ≤ cfg.size
  randoms : RandomAsserts cfg off len →
    ∀ n, ∀ r ∈ readRanges (p2align off cfg.blockSize)
      (sub64 (alignedEnd cfg off len) (p2align off cfg.blockSize)) n, r.1 + r.2 ≤ cfg.size

/-- The sum passes 2^64 and comes down on the device. -/
def WrapsOnto (cfg : Config) (off len : Nat) : Prop :=
  off < cfg.size ∧ 2 ^ 64 ≤ off + len ∧ off + len ≤ 2 ^ 64 + cfg.size

/-- The last block of the range ends on the device; or it is the last of the 2^64 bytes and the first
is the first of them, and `aligned_len` wraps to 0. -/
def LastBlockInside (cfg : Config) (off len : Nat) : Prop :=
  (off + len - 1) ||| (cfg.blockSize - 1) < cfg.size ∨
    ((off + len - 1) ||| (cfg.blockSize - 1) = 2 ^ 64 - 1 ∧ off &&& (cfg.blockSize - 1) = off)

section
variable {cfg : Config} {off len : Nat}

theorem isValidIo_iff : isValidIo cfg off len = true ↔
    cfg.blockSize ∣ off ∧ cfg.blockSize ∣ len ∧ RandomAsserts cfg off len := by
  unfold isValidIo RandomAsserts
  simp only [Bool.and_eq_true, beq_iff_eq, decide_eq_true_eq, Nat.dvd_iff_mod_eq_zero, and_assoc]

theorem randomAsserts_iff (hsize : cfg.size < 2 ^ 64) (hoff : off < 2 ^ 64) (hlen : len < 2 ^ 64) :
    (RandomAsserts cfg off len ↔ 0 < len ∧ off + len ≤ cfg.size) ↔ ¬ WrapsOnto cfg off len := by
  unfold RandomAsserts WrapsOnto add64
  omega

theorem readRanges_le {alignedOff alignedLen : Nat} (h : alignedOff + alignedLen ≤ cfg.size)
    (hsize : cfg.size < 2 ^ 64) (n : Nat) :
    ∀ r ∈ readRanges alignedOff alignedLen n, r.1 + r.2 ≤ cfg.size := by
  intro r hr
  rcases List.mem_cons.mp hr with heq | hr
  · subst heq
    exact h
  · have hle := readTurns_le n alignedOff _ r hr
    rw [add64_of_lt (by omega)] at hle
    omega

theorem writeChunks_le {buf : Nat} (h : off + len ≤ cfg.size) (hsize : cfg.size < 2 ^ 64) :
    ∀ c ∈ writeChunks off len buf, c.off + c.len ≤ cfg.size := by
  have hsplit : WriteSplit off len buf (writeChunks off len buf) := writeChunks_spec (by omega)
  intro c hc
  have hmem : (c.off, c.len) ∈ (writeChunks off len buf).map fun c => (c.off, c.len) :=
    List.mem_map_of_mem hc
  have hbounds := hsplit.tiles.bounds hmem
  simp only at hbounds
  omega

theorem alignedRange_iff (hbs : 0 < cfg.blockSize) (hbs' : cfg.blockSize < 2 ^ 64)
    (hsize : cfg.size < 2 ^ 64) (hpos : 0 < len) (hin : off + len ≤ cfg.size) :
    p2align off cfg.blockSize + sub64 (alignedEnd cfg off len) (p2align off cfg.blockSize) ≤
      cfg.size ↔ LastBlockInside cfg off len := by
  obtain ⟨m, hm⟩ : ∃ m, cfg.blockSize = m + 1 := ⟨cfg.blockSize - 1, by omega⟩
  obtain ⟨x, hx⟩ : ∃ x, off + len = x + 1 := ⟨off + len - 1, by omega⟩
  have hround : alignedEnd cfg off len = ((x ||| m) + 1) % 2 ^ 64 := by
    unfold alignedEnd
    rw [add64_of_lt (by omega), hx, hm]
    exact p2roundup_or (by omega) (by omega)
  have hor : x ||| m < 2 ^ 64 := Nat.or_lt_two_pow (by omega) (by omega)
  have hle : x ≤ x ||| m := Nat.left_le_or
  have halign : p2align off (m + 1) ≤ off := p2align_le off (m + 1)
  have hzero : p2align off (m + 1) = 0 ↔ off &&& m = off :=
    p2align_eq_zero (by omega) (by omega)
  unfold LastBlockInside
  rw [hround, hm, hx, Nat.add_sub_cancel, Nat.add_sub_cancel, ← hzero]
  generalize x ||| m = last at *
  generalize p2align off (m + 1) = a at *
  unfold sub64
  omega

theorem guards_exact_iff (hbs : 0 < cfg.blockSize) (hbs' : cfg.blockSize < 2 ^ 64)
    (hsize : cfg.size < 2 ^ 64) (hoff : off < 2 ^ 64) (hlen : len < 2 ^ 64) :
    GuardsExact cfg off len ↔ ¬ WrapsOnto cfg off len ∧
      (0 < len → off + len ≤ cfg.size → LastBlockInside cfg off len) := by
  have hasserts := randomAsserts_iff hsize hoff hlen
  constructor
  · intro h
    refine ⟨hasserts.mp h.random, ?_⟩
    intro hpos hin
    have hframe := h.randoms (h.random.mpr ⟨hpos, hin⟩) 0 _ List.mem_cons_self
    exact (alignedRange_iff hbs hbs' hsize hpos hin).mp hframe
  · rintro ⟨hwrap, hlast⟩
    have hrandom := hasserts.mpr hwrap
    have hvalid : isValidIo cfg off len = true ↔
        0 < len ∧ cfg.blockSize ∣ off ∧ cfg.blockSize ∣ len ∧ off + len ≤ cfg.size := by
      rw [isValidIo_iff, hrandom]
      constructor
      · rintro ⟨hdoff, hdlen, hpos, hin⟩
        exact ⟨hpos, hdoff, hdlen, hin⟩
      · rintro ⟨hpos, hdoff, hdlen, hin⟩
        exact ⟨hdoff, hdlen, hpos, hin⟩
    refine ⟨hvalid, hrandom, ?_, ?_, ?_⟩
    · intro hadmit buf
      exact writeChunks_le (hvalid.mp hadmit).2.2.2 hsize
    · intro hadmit
      exact readRanges_le (hvalid.mp hadmit).2.2.2 hsize
    · intro hadmit
      obtain ⟨hpos, hin⟩ := hrandom.mp hadmit
      apply readRanges_le _ hsize
      exact (alignedRange_iff hbs hbs' hsize hpos hin).mpr (hlast hpos hin)

/-- Three bytes across a block border, near the end of a device of 2^64 − 4096 bytes. -/
theorem guards_exact_iff_4096 :
    GuardsExact ⟨4096, 2 ^ 64 - 4096, 127⟩ (2 ^ 64 - 8193) 3 := by
  apply (guards_exact_iff (by decide) (by decide) (by decide) (by decide) (by decide)).mpr
  refine ⟨?_, fun _ _ => Or.inl (by decide)⟩
  rintro ⟨_, hwrap, _⟩
  exact absurd hwrap (by decide)

/-- Offset and length are whole blocks, and their sum is 0. -/
theorem guards_wrap : ¬ ∀ (cfg : Config) (off len : Nat), 0 < cfg.blockSize →
    cfg.blockSize < 2 ^ 64 → cfg.size < 2 ^ 64 → off < 2 ^ 64 → len < 2 ^ 64 →
    GuardsExact cfg off len := by
  intro h
  have hexact : GuardsExact ⟨4096, 2 ^ 40, 127⟩ 4096 (2 ^ 64 - 4096) :=
    h ⟨4096, 2 ^ 40, 127⟩ 4096 (2 ^ 64 - 4096) (by decide) (by decide) (by decide) (by decide)
      (by decide)
  have hadmit : isValidIo ⟨4096, 2 ^ 40, 127⟩ 4096 (2 ^ 64 - 4096) = true := by decide
  exact absurd (hexact.valid.mp hadmit).2.2.2 (by decide)

theorem lastBlockInside_two_pow {k : Nat} (hbs : cfg.blockSize = 2 ^ k)
    (hdvd : 2 ^ k ∣ cfg.size) (hpos : 0 < len) (hin : off + len ≤ cfg.size) :
    LastBlockInside cfg off len := by
  left
  obtain ⟨q, hq⟩ := hdvd
  rw [hbs, hq]
  -- the blocks before the end are whole
  have hblock : (off + len - 1) / 2 ^ k < q := by
    apply Nat.div_lt_of_lt_mul
    omega
  have hor : ((off + len - 1) ||| (2 ^ k - 1)) / 2 ^ k = (off + len - 1) / 2 ^ k := by
    rw [Nat.or_div_two_pow, Nat.div_eq_of_lt (Nat.sub_lt (Nat.two_pow_pos k) Nat.one_pos),
      Nat.or_zero]
  rw [Nat.mul_comm]
  apply (Nat.div_lt_iff_lt_mul (Nat.two_pow_pos k)).mp
  rw [hor]
  exact hblock

end

end LockdepSpdk.Blk
