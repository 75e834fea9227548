import LockdepSpdk.Blk.Word
import LockdepSpdk.Lib.ByteRange
import LockdepSpdk.Lib.CheckedInt
import Mathlib.Data.List.TakeDrop

/-!
# Backtraces

`ClibBackTrace::print` into the buffer of the fatal-signal handler. A write
outside the buffer has no result; `demangle` is any function on strings.
-/

namespace LockdepSpdk.Signal

set_option autoImplicit false

open Blk (sub64 sub64_of_le)
open ByteRange CheckedInt

structure ClibBackTrace where
  skip : Nat
  strings : List (List UInt8)

def newline : UInt8 := 10

/-- The memory with `bytes` from address `a` on. -/
def store (m : Nat → UInt8) (a : Nat) (bytes : List UInt8) : Nat → UInt8 :=
  blit m a bytes.length fun i => bytes.getD i 0

/-- A write of `bytes` at `out + k`, into a buffer of `len` bytes. -/
def memcpy (len : Nat) (out : Nat → UInt8) (k : Nat) (bytes : List UInt8) : Option (Nat → UInt8) :=
  if k + bytes.length ≤ len then some (store out k bytes) else none

/-- The loop over the frames that are left, with `k` and `l`. -/
def printLoop (demangle : List UInt8 → List UInt8) (len : Nat) :
    List (List UInt8) → (Nat → UInt8) → Nat → Nat → Option ((Nat → UInt8) × Nat)
  | [], out, k, _ => some (out, k)
  | f :: fs, out, k, l =>
    if 0 < l then do
      let s := demangle f
      let n := min s.length l
      let out1 ← memcpy len out k (s.take n)
      let l1 := sub64 l n
      let k1 ← addInt k n
      if 0 < l1 then do
        let out2 ← memcpy len out1 k1 [newline]
        let k2 ← addInt k1 1
        printLoop demangle len fs out2 k2 (sub64 l1 1)
      else printLoop demangle len fs out1 k1 l1
    else some (out, k)

def print (demangle : List UInt8 → List UInt8) (bt : ClibBackTrace) (out : Nat → UInt8) (len : Nat) :
    Option (Nat → UInt8) := do
  let (out1, k) ← printLoop demangle len (bt.strings.drop bt.skip) out 0 (sub64 len 1)
  memcpy len out1 k [0]

def text (demangle : List UInt8 → List UInt8) (frames : List (List UInt8)) : List UInt8 :=
  frames.flatMap fun f => demangle f ++ [newline]

section
variable {m : Nat → UInt8} {a k len : Nat} {bytes bytes' : List UInt8}

theorem store_nil (m : Nat → UInt8) (a : Nat) : store m a [] = m := blit_zero m a _

theorem store_append (m : Nat → UInt8) (a : Nat) (bytes bytes' : List UInt8) :
    store (store m a bytes) (a + bytes.length) bytes' = store m a (bytes ++ bytes') := by
  unfold store
  rw [List.length_append, ← blit_blit]
  have hhead : blit m a bytes.length (fun i => (bytes ++ bytes').getD i 0) =
      blit m a bytes.length (fun i => bytes.getD i 0) := by
    apply blit_congr
    intro i hi
    rw [List.getD_append _ _ _ _ hi]
  rw [hhead]
  apply blit_congr
  intro i _
  rw [List.getD_append_right _ _ _ _ (Nat.le_add_right _ _), Nat.add_sub_cancel_left]

theorem store_get {i : Nat} (hi : i < bytes.length) : bytes[i]? = some (store m a bytes (a + i)) := by
  unfold store
  rw [blit_within m _ hi, List.getElem?_eq_getElem hi, List.getD_eq_getElem _ _ hi]

theorem store_other {i : Nat} (hi : i < a ∨ a + bytes.length ≤ i) : store m a bytes i = m i := by
  apply blit_outside
  unfold Within
  omega

theorem memcpy_of_le (h : k + bytes.length ≤ len) (out : Nat → UInt8) :
    memcpy len out k bytes = some (store out k bytes) := if_pos h

end

section
variable {demangle : List UInt8 → List UInt8} {len k l : Nat} {f : List UInt8}
  {fs : List (List UInt8)}

theorem text_cons : text demangle (f :: fs) = demangle f ++ newline :: text demangle fs := by
  unfold text
  rw [List.flatMap_cons, List.append_assoc]
  exact rfl

theorem printLoop_line (out : Nat → UInt8) (hkl : k + l < len) (hlen : len < 2 ^ 31)
    (hfit : (demangle f).length < l) : printLoop demangle len (f :: fs) out k l =
      printLoop demangle len fs (store out k (demangle f ++ [newline]))
        (k + (demangle f).length + 1) (l - (demangle f).length - 1) := by
  generalize hs : demangle f = s at hfit ⊢
  have hcopy : memcpy len out k (s.take (min s.length l)) = some (store out k s) := by
    rw [Nat.min_eq_left (by omega), List.take_length]
    exact memcpy_of_le (by omega) out
  have hnewline : memcpy len (store out k s) (k + s.length) [newline] =
      some (store out k (s ++ [newline])) := by
    rw [memcpy_of_le (by simp only [List.length_singleton]; omega), store_append]
  conv_lhs => unfold printLoop
  rw [if_pos (by omega), hs]
  simp only [hcopy, Option.bind_eq_bind, Option.bind_some]
  rw [Nat.min_eq_left (by omega), sub64_of_le (by omega) (by omega), addInt_of_lt (by omega),
    Option.bind_some, if_pos (by omega), hnewline, Option.bind_some, addInt_of_lt (by omega),
    Option.bind_some, sub64_of_le (by omega) (by omega)]

theorem printLoop_cut (out : Nat → UInt8) (hkl : k + l < len) (hlen : len < 2 ^ 31) (hl : 0 < l)
    (hfull : l ≤ (demangle f).length) : printLoop demangle len (f :: fs) out k l =
      printLoop demangle len fs (store out k ((demangle f).take l)) (k + l) 0 := by
  generalize hs : demangle f = s at hfull ⊢
  have hcopy : memcpy len out k (s.take (min s.length l)) = some (store out k (s.take l)) := by
    rw [Nat.min_eq_right hfull]
    apply memcpy_of_le
    rw [List.length_take]
    omega
  conv_lhs => unfold printLoop
  rw [if_pos hl, hs]
  simp only [hcopy, Option.bind_eq_bind, Option.bind_some]
  rw [Nat.min_eq_right hfull, sub64_of_le (Nat.le_refl l) (by omega), Nat.sub_self,
    addInt_of_lt (by omega), Option.bind_some, if_neg (Nat.lt_irrefl 0)]

/-- What the loop writes, while `k` and `l` keep one byte of the buffer back. -/
theorem printLoop_eq (demangle : List UInt8 → List UInt8) (hlen : len < 2 ^ 31)
    (frames : List (List UInt8)) (out : Nat → UInt8) (hkl : k + l + 1 = len) :
    printLoop demangle len frames out k l =
      some (store out k ((text demangle frames).take l),
        k + ((text demangle frames).take l).length) := by
  induction frames generalizing out k l with
  | nil =>
    unfold printLoop text
    rw [List.flatMap_nil, List.take_nil, store_nil]
    exact rfl
  | cons f fs ih =>
    rw [text_cons]
    by_cases hl : 0 < l
    · by_cases hfit : (demangle f).length < l
      · obtain ⟨r, hr⟩ : ∃ r, l = (demangle f).length + (r + 1) :=
          ⟨l - (demangle f).length - 1, by omega⟩
        have hrest : l - (demangle f).length - 1 = r := by omega
        have htake : (demangle f ++ newline :: text demangle fs).take l =
            (demangle f ++ [newline]) ++ (text demangle fs).take r := by
          rw [hr, List.take_length_add_append, List.take_succ_cons, List.append_assoc]
          exact rfl
        have hk : k + (demangle f).length + 1 = k + (demangle f ++ [newline]).length := by
          rw [List.length_append, List.length_singleton, Nat.add_assoc]
        have hsum : ((demangle f ++ [newline]) ++ (text demangle fs).take r).length =
            (demangle f ++ [newline]).length + ((text demangle fs).take r).length :=
          List.length_append
        rw [printLoop_line out (by omega) hlen hfit, hrest, ih _ (by omega), htake, hk,
          store_append, hsum, Nat.add_assoc]
      · have hfull : l ≤ (demangle f).length := by omega
        have hlength : ((demangle f).take l).length = l := by
          rw [List.length_take, Nat.min_eq_left hfull]
        rw [printLoop_cut out (by omega) hlen hl hfull, ih _ (by omega), List.take_zero, store_nil,
          List.take_append_of_le_length hfull, hlength]
        exact rfl
    · obtain rfl : l = 0 := by omega
      unfold printLoop
      rw [if_neg hl, List.take_zero, store_nil]
      exact rfl

end

/-- The first bytes of the text, a NUL behind them, and nothing else. -/
theorem print_truncates (demangle : List UInt8 → List UInt8) (bt : ClibBackTrace) (out : Nat → UInt8)
    (len : Nat) (hpos : 1 ≤ len) (hlen : len < 2 ^ 31) :
    ∃ out', print demangle bt out len = some out' ∧
      (∀ i, i < min (len - 1) (text demangle (bt.strings.drop bt.skip)).length →
        (text demangle (bt.strings.drop bt.skip))[i]? = some (out' i)) ∧
      out' (min (len - 1) (text demangle (bt.strings.drop bt.skip)).length) = 0 ∧
      ∀ i, min (len - 1) (text demangle (bt.strings.drop bt.skip)).length < i → out' i = out i := by
  generalize htext : text demangle (bt.strings.drop bt.skip) = t
  have hloop := printLoop_eq demangle hlen (bt.strings.drop bt.skip) out
    (show 0 + (len - 1) + 1 = len by omega)
  have hlength : (t.take (len - 1)).length = min (len - 1) t.length := List.length_take
  rw [htext, Nat.zero_add, hlength] at hloop
  refine ⟨store (store out 0 (t.take (len - 1))) (min (len - 1) t.length) [0], ?_, ?_, ?_, ?_⟩
  · unfold print
    rw [sub64_of_le hpos (by omega), hloop]
    apply memcpy_of_le
    rw [List.length_singleton]
    omega
  · intro i hi
    have hget : (t.take (len - 1))[i]? = some (store out 0 (t.take (len - 1)) (0 + i)) :=
      store_get (by omega)
    rw [Nat.zero_add, List.getElem?_take_of_lt (by omega)] at hget
    rw [hget, store_other (Or.inl hi)]
  · have hget : ([0] : List UInt8)[0]? = some (store (store out 0 (t.take (len - 1)))
        (min (len - 1) t.length) [0] (min (len - 1) t.length + 0)) := store_get (by decide)
    exact (Option.some.inj hget).symm
  · intro i hi
    rw [store_other (Or.inr hi), store_other]
    right
    omega

/-- Two frames, the first skipped, and room for less than the second with its newline. -/
theorem print_truncates_two : ∃ out', print id ⟨1, [[97], [98, 99, 100]]⟩ (fun _ => 7) 4 = some out' ∧
    out' 2 = 100 ∧ out' 3 = 0 ∧ out' 4 = 7 := by
  obtain ⟨out', hprint, hbytes, hnul, hrest⟩ :=
    print_truncates id ⟨1, [[97], [98, 99, 100]]⟩ (fun _ => 7) 4 (by decide) (by decide)
  refine ⟨out', hprint, ?_, hnul, hrest 4 (by decide)⟩
  exact (Option.some.inj (hbytes 2 (by decide))).symm

end LockdepSpdk.Signal
