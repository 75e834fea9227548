import LockdepSpdk.Lib.CheckedInt
import Mathlib.Data.List.TakeWhile
import Mathlib.Data.Nat.Bitwise
import Mathlib.Tactic.Common

/-!
# The core mask

`find_first_bitset` of the string that names the cores, against the number the
string denotes.
-/

namespace LockdepSpdk.Nvme

set_option autoImplicit false

open CheckedInt

def hex2dec (c : Char) : Nat :=
  if c.isDigit then c.toNat - '0'.toNat
  else if c.isUpper then c.toNat - 'A'.toNat + 10
  else c.toNat - 'a'.toNat + 10

def isxdigit (c : Char) : Bool :=
  c.isDigit || ('a' ≤ c && c ≤ 'f') || ('A' ≤ c && c ≤ 'F')

/-- `ffs`: the first bit set, from 1. -/
def ffs (n : Nat) : Nat :=
  match (List.range 32).find? n.testBit with
  | some i => i + 1
  | none => 0

def einval : Int := 22

/-- The loop of `find_first_bitset` from the last digit; no answer where `pos` overflows. -/
def scanDigits : List Char → Nat → Option Int
  | [], _ => some 0
  | c :: cs, pos =>
    if !isxdigit c then some (-einval)
    else if hex2dec c ≠ 0 then (addInt pos (ffs (hex2dec c))).map Int.ofNat
    else
      match addInt pos 4 with
      | some pos' => scanDigits cs pos'
      | none => none

def digits (s : List Char) : List Char :=
  match s with
  | '0' :: 'x' :: rest | '0' :: 'X' :: rest => rest
  | _ => s

def findFirstBitset (s : List Char) : Option Int := scanDigits (digits s).reverse 0

/-! What the string denotes. -/

def value (d : List Char) : Nat := d.foldl (fun n c => 16 * n + hex2dec c) 0

/-- Bit `i` of `n` is its lowest set bit. -/
def LowestBit (n i : Nat) : Prop := n.testBit i = true ∧ ∀ j, j < i → n.testBit j = false

/-- The answer is the error exactly for what is no hexadecimal number, and the position of the lowest
set bit of the number otherwise. -/
structure Decoded (s : List Char) : Prop where
  reject : findFirstBitset s = some (-einval) ↔ ∃ c ∈ digits s, isxdigit c = false
  zero : (∀ c ∈ digits s, isxdigit c = true) → value (digits s) = 0 → findFirstBitset s = some 0
  lowest : (∀ c ∈ digits s, isxdigit c = true) → ∀ i, LowestBit (value (digits s)) i →
    findFirstBitset s = some ((i : Int) + 1)

def trailingZeros (d : List Char) : Nat := (d.reverse.takeWhile (· = '0')).length

def lastNonzero (d : List Char) : Option Char := (d.reverse.dropWhile (· = '0')).head?

/-- The position the scan comes to fits an `int`. -/
def PosFits (d : List Char) : Prop :=
  4 * trailingZeros d + (match lastNonzero d with
    | some c => if isxdigit c then ffs (hex2dec c) else 0
    | none => 0) < 2 ^ 31

/-- The last character other than a zero already decides whether `d` is a number. -/
def LastDecides (d : List Char) : Prop :=
  (∀ c ∈ d, isxdigit c = true) ∨ ∃ c, lastNonzero d = some c ∧ isxdigit c = false

instance (d : List Char) : Decidable (PosFits d) := inferInstanceAs (Decidable (_ < _))

instance (n i : Nat) : Decidable (LowestBit n i) := inferInstanceAs (Decidable (_ ∧ _))

/-! Digits. -/

theorem hex2dec_val (c : Char) : hex2dec c =
    if 48 ≤ c.val.toNat ∧ c.val.toNat ≤ 57 then c.val.toNat - 48
    else if 65 ≤ c.val.toNat ∧ c.val.toNat ≤ 90 then c.val.toNat - 65 + 10
    else c.val.toNat - 97 + 10 := by
  have hupper : c.isUpper = decide ('A'.val ≤ c.val ∧ c.val ≤ 'Z'.val) := rfl
  simp only [hex2dec, Char.isDigit, hupper, Bool.and_eq_true, decide_eq_true_eq, ge_iff_le,
    UInt32.le_iff_toNat_le]
  exact rfl

theorem hex2dec_ne_zero {c : Char} (hc : c ≠ '0') : hex2dec c ≠ 0 := by
  have hval : c.val.toNat ≠ 48 := fun heq => hc (Char.toNat_inj.mp heq)
  rw [hex2dec_val]
  split
  · omega
  · split <;> omega

theorem hex2dec_lt {c : Char} (h : isxdigit c = true) : hex2dec c < 16 := by
  simp only [isxdigit, Char.isDigit, Bool.or_eq_true, Bool.and_eq_true, decide_eq_true_eq,
    ge_iff_le, Char.le_def, UInt32.le_iff_toNat_le] at h
  change ((48 ≤ c.val.toNat ∧ c.val.toNat ≤ 57) ∨ (97 ≤ c.val.toNat ∧ c.val.toNat ≤ 102)) ∨
    (65 ≤ c.val.toNat ∧ c.val.toNat ≤ 70) at h
  rw [hex2dec_val]
  split
  · omega
  · split <;> omega

theorem ffs_lowest : ∀ v, v < 16 → v ≠ 0 → LowestBit v (ffs v - 1) ∧ 0 < ffs v := by decide

/-! Numbers. -/

theorem LowestBit.unique {n i j : Nat} (hi : LowestBit n i) (hj : LowestBit n j) : i = j := by
  rcases Nat.lt_trichotomy i j with hlt | heq | hgt
  · have hbit := hj.2 i hlt
    rw [hi.1] at hbit
    cases hbit
  · exact heq
  · have hbit := hi.2 j hgt
    rw [hj.1] at hbit
    cases hbit

theorem LowestBit.pos {n i : Nat} (h : LowestBit n i) : n ≠ 0 := by
  intro h0
  have hbit := h.1
  rw [h0, Nat.zero_testBit] at hbit
  cases hbit

/-- The lowest set bit of a last digit that is not zero is the number's. -/
theorem LowestBit.digit {m v i : Nat} (h : LowestBit v i) (hv : v < 16) :
    LowestBit (16 * m + v) i := by
  have hlow : ∀ j, j < 4 → (16 * m + v).testBit j = v.testBit j := by
    intro j hj
    have hbits := Nat.testBit_two_pow_mul_add m (show v < 2 ^ 4 from hv) j
    rwa [if_pos hj] at hbits
  have hi : i < 4 := by
    by_contra hge
    have hzero : v.testBit i = false := by
      apply Nat.testBit_lt_two_pow
      exact Nat.lt_of_lt_of_le hv (Nat.pow_le_pow_right (show 0 < 2 by decide) (not_lt.mp hge))
    rw [h.1] at hzero
    cases hzero
  refine ⟨(hlow i hi).trans h.1, ?_⟩
  intro j hj
  rw [hlow j (by omega)]
  exact h.2 j hj

theorem LowestBit.shift {n i : Nat} (h : LowestBit n i) (z : Nat) :
    LowestBit (n * 16 ^ z) (4 * z + i) := by
  have hpow : n * 16 ^ z = 2 ^ (4 * z) * n := by
    rw [Nat.mul_comm, Nat.pow_mul]
  rw [hpow]
  constructor
  · rw [Nat.testBit_two_pow_mul, Nat.add_sub_cancel_left, h.1]
    simp
  · intro j hj
    rw [Nat.testBit_two_pow_mul]
    by_cases hle : 4 * z ≤ j
    · rw [h.2 (j - 4 * z) (by omega), Bool.and_false]
    · simp [hle]

theorem value_zeros (d : List Char) (z : Nat) :
    value (d ++ List.replicate z '0') = value d * 16 ^ z := by
  induction z with
  | zero => simp
  | succ z ih =>
    rw [List.replicate_succ', ← List.append_assoc]
    unfold value at *
    rw [List.foldl_append, ih, Nat.pow_succ, ← Nat.mul_assoc, Nat.mul_comm _ 16]
    exact rfl

theorem value_snoc (d : List Char) (c : Char) : value (d ++ [c]) = 16 * value d + hex2dec c := by
  unfold value
  rw [List.foldl_append]
  exact rfl

/-! The scan. -/

section
variable {c : Char} {cs d rest : List Char} {pos z : Nat}

theorem scanDigits_stop (h : isxdigit c = false) : scanDigits (c :: cs) pos = some (-einval) := by
  unfold scanDigits
  rw [if_pos (by simp [h])]

theorem scanDigits_digit (h : isxdigit c = true) (hc : hex2dec c ≠ 0) :
    scanDigits (c :: cs) pos = (addInt pos (ffs (hex2dec c))).map Int.ofNat := by
  unfold scanDigits
  rw [if_neg (by simp [h]), if_pos hc]

theorem scanDigits_zero (h : pos + 4 < 2 ^ 31) :
    scanDigits ('0' :: cs) pos = scanDigits cs (pos + 4) := by
  conv_lhs => unfold scanDigits
  rw [if_neg (by decide), if_neg (by decide), addInt_of_lt h]

theorem scanDigits_zero_overflow (h : ¬ pos + 4 < 2 ^ 31) :
    scanDigits ('0' :: cs) pos = none := by
  unfold scanDigits
  rw [if_neg (by decide), if_neg (by decide), addInt_of_ge h]

theorem scanDigits_zeros (hpos : pos < 2 ^ 31) : scanDigits (List.replicate z '0' ++ rest) pos =
    if pos + 4 * z < 2 ^ 31 then scanDigits rest (pos + 4 * z) else none := by
  induction z generalizing pos with
  | zero =>
    rw [if_pos (by omega)]
    exact rfl
  | succ z ih =>
    rw [List.replicate_succ, List.cons_append]
    by_cases hfit : pos + 4 < 2 ^ 31
    · have hsum : pos + 4 + 4 * z = pos + 4 * (z + 1) := by omega
      rw [scanDigits_zero hfit, ih hfit, hsum]
    · rw [scanDigits_zero_overflow hfit, if_neg (by omega)]

theorem reverse_split (d : List Char) : d.reverse =
    List.replicate (trailingZeros d) '0' ++ d.reverse.dropWhile (· = '0') := by
  have hzeros : d.reverse.takeWhile (· = '0') = List.replicate (trailingZeros d) '0' := by
    apply List.eq_replicate_of_mem
    intro c hc
    have hall := List.mem_takeWhile_imp hc
    exact of_decide_eq_true hall
  rw [← hzeros]
  exact (List.takeWhile_append_dropWhile).symm

theorem findFirstBitset_eq (s : List Char) : findFirstBitset s =
    if 4 * trailingZeros (digits s) < 2 ^ 31 then
      scanDigits ((digits s).reverse.dropWhile (· = '0')) (4 * trailingZeros (digits s))
    else none := by
  unfold findFirstBitset
  conv_lhs => rw [reverse_split]
  rw [scanDigits_zeros (by decide), Nat.zero_add]

theorem value_split (d : List Char) :
    value d = value (d.reverse.dropWhile (· = '0')).reverse * 16 ^ trailingZeros d := by
  have hd : d = (d.reverse.dropWhile (· = '0')).reverse ++
      List.replicate (trailingZeros d) '0' := by
    have hsplit := congrArg List.reverse (reverse_split d)
    rwa [List.reverse_reverse, List.reverse_append, List.reverse_replicate] at hsplit
  conv_lhs => rw [hd]
  exact value_zeros _ _

/-- The last character that is not a zero: what the scan answers there, and what it has not seen. -/
theorem lastNonzero_some {d : List Char} (h : lastNonzero d = some c) :
    ∃ cs, d.reverse.dropWhile (· = '0') = c :: cs ∧ hex2dec c ≠ 0 := by
  unfold lastNonzero at h
  cases hdrop : d.reverse.dropWhile (· = '0') with
  | nil =>
    rw [hdrop] at h
    cases h
  | cons c' cs =>
    rw [hdrop] at h
    obtain rfl : c' = c := Option.some.inj h
    refine ⟨cs, rfl, hex2dec_ne_zero ?_⟩
    intro h0
    have hhead := List.head_dropWhile_not (p := fun x => decide (x = '0')) (l := d.reverse)
      (by rw [hdrop]; exact List.cons_ne_nil _ _)
    simp only [hdrop, List.head_cons, h0] at hhead
    cases hhead

theorem posFits_none {d : List Char} (h : lastNonzero d = none) :
    PosFits d ↔ 4 * trailingZeros d < 2 ^ 31 := by
  unfold PosFits
  rw [h, Nat.add_zero]

theorem posFits_some {d : List Char} (h : lastNonzero d = some c) :
    PosFits d ↔ 4 * trailingZeros d + (if isxdigit c then ffs (hex2dec c) else 0) < 2 ^ 31 := by
  unfold PosFits
  rw [h]

theorem mem_split {d : List Char} :
    c ∈ d ↔ c ∈ List.replicate (trailingZeros d) '0' ∨ c ∈ d.reverse.dropWhile (· = '0') := by
  rw [← List.mem_append, ← reverse_split, List.mem_reverse]

theorem answer_none {s : List Char} (h : lastNonzero (digits s) = none) :
    (findFirstBitset s = if PosFits (digits s) then some 0 else none) ∧
      (∀ c ∈ digits s, isxdigit c = true) ∧ value (digits s) = 0 := by
  have hdrop : (digits s).reverse.dropWhile (· = '0') = [] := List.head?_eq_none_iff.mp h
  refine ⟨?_, ?_, ?_⟩
  · rw [findFirstBitset_eq, hdrop]
    simp only [posFits_none h]
    exact rfl
  · intro c hc
    rcases mem_split.mp hc with hc | hc
    · rw [List.eq_of_mem_replicate hc]
      decide
    · rw [hdrop] at hc
      cases hc
  · rw [value_split, hdrop]
    exact Nat.zero_mul _

theorem answer_reject {s : List Char} (h : lastNonzero (digits s) = some c)
    (hc : isxdigit c = false) :
    (findFirstBitset s = if PosFits (digits s) then some (-einval) else none) ∧ c ∈ digits s := by
  obtain ⟨cs, hdrop, _⟩ := lastNonzero_some h
  constructor
  · rw [findFirstBitset_eq, hdrop, scanDigits_stop hc]
    simp only [posFits_some h, hc, Bool.false_eq_true, if_false, Nat.add_zero]
  · apply mem_split.mpr
    rw [hdrop]
    exact Or.inr List.mem_cons_self

theorem answer_digit {s : List Char} (h : lastNonzero (digits s) = some c)
    (hc : isxdigit c = true) :
    ∃ i : Nat, findFirstBitset s = (if PosFits (digits s) then some ((i : Int) + 1) else none) ∧
      LowestBit (value (digits s)) i := by
  obtain ⟨cs, hdrop, hne⟩ := lastNonzero_some h
  obtain ⟨hlow, hpos⟩ := ffs_lowest (hex2dec c) (hex2dec_lt hc) hne
  refine ⟨4 * trailingZeros (digits s) + (ffs (hex2dec c) - 1), ?_, ?_⟩
  · rw [findFirstBitset_eq, hdrop, scanDigits_digit hc hne]
    simp only [posFits_some h, hc, if_true]
    by_cases hfit : 4 * trailingZeros (digits s) + ffs (hex2dec c) < 2 ^ 31
    · have hsum : 4 * trailingZeros (digits s) + (ffs (hex2dec c) - 1) + 1 =
          4 * trailingZeros (digits s) + ffs (hex2dec c) := by omega
      rw [if_pos (by omega), addInt_of_lt hfit, if_pos hfit]
      rw [← hsum]
      exact rfl
    · rw [addInt_of_ge hfit, if_neg hfit]
      split <;> rfl
  · rw [value_split, hdrop, List.reverse_cons, value_snoc]
    exact (hlow.digit (hex2dec_lt hc)).shift _

/-- The parser is right exactly when no character is left unchecked before the last digit that is not
a zero, and the position fits an `int`. -/
theorem first_bitset_iff (s : List Char) :
    Decoded s ↔ PosFits (digits s) ∧ LastDecides (digits s) := by
  cases hlast : lastNonzero (digits s) with
  | none =>
    obtain ⟨hans, hall, hzero⟩ := answer_none hlast
    constructor
    · intro h
      refine ⟨?_, Or.inl hall⟩
      by_contra hfit
      have hright := h.zero hall hzero
      rw [hans, if_neg hfit] at hright
      cases hright
    · rintro ⟨hfit, -⟩
      rw [if_pos hfit] at hans
      refine ⟨?_, fun _ _ => hans, ?_⟩
      · rw [hans]
        constructor
        · intro hneg
          cases hneg
        · rintro ⟨c, hc, hbad⟩
          rw [hall c hc] at hbad
          cases hbad
      · intro _ i hi
        exact absurd hzero hi.pos
  | some c =>
    cases hc : isxdigit c with
    | false =>
      obtain ⟨hans, hmem⟩ := answer_reject hlast hc
      constructor
      · intro h
        refine ⟨?_, Or.inr ⟨c, hlast, hc⟩⟩
        by_contra hfit
        have hright := h.reject.mpr ⟨c, hmem, hc⟩
        rw [hans, if_neg hfit] at hright
        cases hright
      · rintro ⟨hfit, -⟩
        rw [if_pos hfit] at hans
        have hnot : ¬ ∀ c ∈ digits s, isxdigit c = true := by
          intro hall
          rw [hall c hmem] at hc
          cases hc
        exact ⟨iff_of_true hans ⟨c, hmem, hc⟩, fun hall => absurd hall hnot,
          fun hall => absurd hall hnot⟩
    | true =>
      obtain ⟨i, hans, hlow⟩ := answer_digit hlast hc
      have hnot : ∀ j : Nat, (some ((j : Int) + 1) : Option Int) ≠ some (-einval) := by
        intro j heq
        have hj := Option.some.inj heq
        unfold einval at hj
        omega
      constructor
      · intro h
        have hall : ∀ c ∈ digits s, isxdigit c = true := by
          by_contra hbad
          push Not at hbad
          obtain ⟨c', hc', hbad⟩ := hbad
          have hright := h.reject.mpr ⟨c', hc', by simpa using hbad⟩
          rw [hans] at hright
          split at hright
          · exact hnot i hright
          · cases hright
        refine ⟨?_, Or.inl hall⟩
        by_contra hfit
        have hright := h.lowest hall i hlow
        rw [hans, if_neg hfit] at hright
        cases hright
      · rintro ⟨hfit, hdecides⟩
        rw [if_pos hfit] at hans
        have hall : ∀ c ∈ digits s, isxdigit c = true := by
          rcases hdecides with hall | ⟨c', hlast', hbad⟩
          · exact hall
          · obtain rfl := Option.some.inj (hlast.symm.trans hlast')
            rw [hc] at hbad
            cases hbad
        refine ⟨?_, ?_, ?_⟩
        · rw [hans]
          apply iff_of_false (hnot i)
          rintro ⟨c', hc', hbad⟩
          rw [hall c' hc'] at hbad
          cases hbad
        · intro _ hzero
          exact absurd hzero hlow.pos
        · intro _ j hj
          rw [hans, hlow.unique hj]

/-- `g1` is not a number, and is taken for the number 1. -/
theorem first_bitset_unchecked : ¬ ∀ s : List Char, (∀ c ∈ s, c.toNat < 128) → Decoded s := by
  intro h
  have hascii : ∀ c ∈ ['g', '1'], c.toNat < 128 := by
    intro c hc
    rcases List.mem_cons.mp hc with rfl | hc
    · decide
    · obtain rfl := List.mem_singleton.mp hc
      decide
  have hright := (h ['g', '1'] hascii).reject.mpr ⟨'g', by decide, by decide⟩
  revert hright
  decide

end

end LockdepSpdk.Nvme
