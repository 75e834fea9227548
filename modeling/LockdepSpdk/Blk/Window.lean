import LockdepSpdk.Blk.Device
import Mathlib.Order.Bounds.Basic

/-!
# The window of a read

The least range of whole blocks around a range of bytes, and the masks with which
`read_random` computes it.
-/

namespace LockdepSpdk.Blk

set_option autoImplicit false

theorem isGreatest_multiple {b : Nat} (x : Nat) : IsGreatest {y | b ∣ y ∧ y ≤ x} (x / b * b) := by
  refine ⟨⟨Nat.dvd_mul_left b _, Nat.div_mul_le_self x b⟩, ?_⟩
  rintro y ⟨⟨q, rfl⟩, hle⟩
  rcases Nat.eq_zero_or_pos b with rfl | hb
  · rw [Nat.zero_mul]
    exact Nat.zero_le _
  · rw [Nat.mul_comm] at hle ⊢
    exact Nat.mul_le_mul_right b ((Nat.le_div_iff_mul_le hb).mpr hle)

theorem isLeast_multiple {b : Nat} (hb : 0 < b) (x : Nat) :
    IsLeast {y | b ∣ y ∧ x ≤ y} ((x + (b - 1)) / b * b) := by
  refine ⟨⟨Nat.dvd_mul_left b _, ?_⟩, ?_⟩
  · have hdiv := Nat.div_add_mod (x + (b - 1)) b
    have hmod := Nat.mod_lt (x + (b - 1)) hb
    rw [Nat.mul_comm] at hdiv
    omega
  · rintro y ⟨⟨q, rfl⟩, hle⟩
    rw [Nat.mul_comm b q] at hle ⊢
    apply Nat.mul_le_mul_right b
    apply Nat.le_of_lt_succ
    apply Nat.div_lt_of_lt_mul
    rw [Nat.mul_succ, Nat.mul_comm b q]
    omega

/-- The `n` bytes from `a` on are the least whole blocks around the `len` bytes from `off` on. -/
structure LeastCover (b off len a n : Nat) : Prop where
  start : IsGreatest {x | b ∣ x ∧ x ≤ off} a
  stop : IsLeast {x | b ∣ x ∧ off + len ≤ x} (a + n)

namespace LeastCover
variable {b off len a n : Nat}

theorem head (h : LeastCover b off len a n) (hb : 0 < b) : off - a < b := by
  have hle : a ≤ off := h.start.1.2
  have hnext : ¬ a + b ≤ off := by
    intro hle'
    have hmax : a + b ≤ a := h.start.2 ⟨Nat.dvd_add h.start.1.1 (Nat.dvd_refl b), hle'⟩
    omega
  omega

theorem tail (h : LeastCover b off len a n) (hb : 0 < b) : a + n < off + len + b := by
  by_contra hge
  have hmin : a + n ≤ a + n - b :=
    h.stop.2 ⟨Nat.dvd_sub h.stop.1.1 (Nat.dvd_refl b), by omega⟩
  omega

theorem mod_eq (h : LeastCover b off len a n) (hb : 0 < b) : off % b = off - a := by
  obtain ⟨⟨q, rfl⟩, hle⟩ := h.start.1
  have hhead := h.head hb
  have hoff : off = off - b * q + b * q := (Nat.sub_add_cancel hle).symm
  rw [hoff, Nat.add_mul_mod_self_left, Nat.mod_eq_of_lt hhead, Nat.add_sub_cancel]

theorem pos (h : LeastCover b off len a n) (hlen : 0 < len) : 0 < n := by
  have hstart : a ≤ off := h.start.1.2
  have hstop : off + len ≤ a + n := h.stop.1.2
  omega

theorem blocks (h : LeastCover b off len a n) : b ∣ n :=
  (Nat.dvd_add_right h.start.1.1).mp h.stop.1.1

theorem inside (h : LeastCover b off len a n) {size : Nat} (hsize : b ∣ size)
    (hend : off + len ≤ size) : a + n ≤ size := h.stop.2 ⟨hsize, hend⟩

end LeastCover

section
variable {cfg : Config} {off len k : Nat}

theorem size_room {size : Nat} (hk : k < 64) (hdvd : 2 ^ k ∣ size) (hsize : size < 2 ^ 64) :
    size + 2 ^ k ≤ 2 ^ 64 := by
  have hle : 2 ^ k ≤ 2 ^ 64 - size :=
    Nat.le_of_dvd (by omega) (Nat.dvd_sub (Nat.pow_dvd_pow 2 (Nat.le_of_lt hk)) hdvd)
  omega

theorem window_cover (hk : k < 64) (hbs : cfg.blockSize = 2 ^ k) (hdvd : cfg.blockSize ∣ cfg.size)
    (hsize : cfg.size < 2 ^ 64) (hpos : 0 < len) (hin : off + len ≤ cfg.size) :
    LeastCover cfg.blockSize off len (p2align off cfg.blockSize)
      (sub64 (p2roundup (add64 off len) cfg.blockSize) (p2align off cfg.blockSize)) ∧
    p2align off cfg.blockSize +
      sub64 (p2roundup (add64 off len) cfg.blockSize) (p2align off cfg.blockSize) =
        p2roundup (off + len) cfg.blockSize := by
  rw [hbs] at hdvd ⊢
  have hroom := size_room hk hdvd hsize
  have hb : 0 < 2 ^ k := Nat.two_pow_pos k
  have hstart : IsGreatest {x | 2 ^ k ∣ x ∧ x ≤ off} (off / 2 ^ k * 2 ^ k) := isGreatest_multiple off
  have hstop := isLeast_multiple hb (off + len)
  have hend := hstop.2 ⟨hdvd, hin⟩
  have hle : off / 2 ^ k * 2 ^ k ≤ (off + len + (2 ^ k - 1)) / 2 ^ k * 2 ^ k :=
    Nat.le_trans hstart.1.2 (Nat.le_trans (Nat.le_add_right off len) hstop.1.2)
  rw [add64_of_lt (by omega), p2align_eq (by omega) hk, p2roundup_eq (by omega) (by omega),
    sub64_of_le hle (by omega), Nat.add_sub_cancel' hle]
  refine ⟨⟨hstart, ?_⟩, rfl⟩
  rw [Nat.add_sub_cancel' hle]
  exact hstop

end

/-- The window of `read_random` is the least cover of its range by blocks, and on the device. -/
theorem read_random_window (cfg : Config) (k raw off len : Nat) (hk : k < 64) (hbs : cfg.blockSize = 2 ^ k)
    (hraw : raw < 2 ^ 64) (hsize : cfg.size = openSize raw cfg.blockSize) (hpos : 0 < len)
    (hin : off + len ≤ cfg.size) :
    ∃ a n, (∀ s buf, readRandom cfg s off len buf = readSync s a n buf off len) ∧
      a = p2align off cfg.blockSize ∧ a + n = p2roundup (off + len) cfg.blockSize ∧
      LeastCover cfg.blockSize off len a n ∧ a ≤ off ∧ off - a < cfg.blockSize ∧ 0 < n ∧
      a + n ≤ cfg.size := by
  have hb : 0 < cfg.blockSize := by
    rw [hbs]
    exact Nat.two_pow_pos k
  have hround : cfg.size = raw / 2 ^ k * 2 ^ k := by
    rw [hsize, hbs]
    exact openSize_eq hraw hk
  have hdvd : cfg.blockSize ∣ cfg.size := by
    rw [hround, hbs]
    exact Nat.dvd_mul_left _ _
  have hlt : cfg.size < 2 ^ 64 := by
    rw [hround]
    exact Nat.lt_of_le_of_lt (Nat.div_mul_le_self _ _) hraw
  obtain ⟨hcover, hend⟩ := window_cover hk hbs hdvd hlt hpos hin
  refine ⟨_, _, ?_, rfl, hend, hcover, hcover.start.1.2, hcover.head hb, hcover.pos hpos,
    hcover.inside hdvd hin⟩
  intro s buf
  unfold readRandom
  rw [if_pos]
  refine ⟨hpos, by omega, ?_⟩
  rwa [add64_of_lt (by omega)]

/-- The last three bytes of the largest device of 4 KiB blocks. -/
theorem read_random_window_4096 :
    ∃ a n, (∀ s buf, readRandom ⟨4096, 2 ^ 64 - 4096, 127⟩ s (2 ^ 64 - 4099) 3 buf =
        readSync s a n buf (2 ^ 64 - 4099) 3) ∧
      a = p2align (2 ^ 64 - 4099) 4096 ∧ a + n = p2roundup (2 ^ 64 - 4099 + 3) 4096 ∧
      LeastCover 4096 (2 ^ 64 - 4099) 3 a n ∧ a ≤ 2 ^ 64 - 4099 ∧ 2 ^ 64 - 4099 - a < 4096 ∧
      0 < n ∧ a + n ≤ 2 ^ 64 - 4096 :=
  read_random_window ⟨4096, 2 ^ 64 - 4096, 127⟩ 12 (2 ^ 64 - 1) (2 ^ 64 - 4099) 3 (by decide)
    (by decide) (by decide) (by decide +kernel) (by decide) (by decide)

end LockdepSpdk.Blk
