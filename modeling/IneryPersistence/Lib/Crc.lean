import Mathlib.Data.List.Basic
import Mathlib.Data.Nat.Init
import Mathlib.Logic.Function.Iterate
import Mathlib.Tactic.Common

/-!
# Cyclic redundancy checks, lowest bit first

* `crcStep`, `crcBits`, `crcByte`: the remainder after one bit, after many and after a byte;
* `crcBits_xor`: it is linear;
* **`crcBits_table`**: the lowest byte is looked up, the others are shifted;
* **`crcBits_word`**: a word that is taken in at once is taken in byte by byte;
* `foldChunks`, **`foldl_foldChunks`**: a fold that takes several elements in one step.
-/

namespace KV

/-! ## Bits -/

section Bits

variable {w : ℕ} (poly : BitVec w)

/-- One bit is shifted out, and the polynomial subtracted when it was set. -/
def crcStep (x : BitVec w) : BitVec w := if x.getLsbD 0 then (x >>> 1) ^^^ poly else x >>> 1

/-- So many bits are shifted out. -/
def crcBits (n : ℕ) (x : BitVec w) : BitVec w := (crcStep poly)^[n] x

/-- A byte is taken in. -/
def crcByte (x b : BitVec w) : BitVec w := crcBits poly 8 (x ^^^ b)

variable {poly}

theorem crcStep_xor (x y : BitVec w) : crcStep poly (x ^^^ y) = crcStep poly x ^^^ crcStep poly y := by
  simp only [crcStep, BitVec.getLsbD_xor, BitVec.ushiftRight_xor_distrib]
  cases x.getLsbD 0 <;> cases y.getLsbD 0 <;> ext i <;> simp [Bool.xor_left_comm, Bool.xor_comm]

theorem crcBits_xor (n : ℕ) (x y : BitVec w) :
    crcBits poly n (x ^^^ y) = crcBits poly n x ^^^ crcBits poly n y := by
  induction n generalizing x y with
  | zero => rfl
  | succ n ih =>
    simp only [crcBits, Function.iterate_succ_apply] at ih ⊢
    rw [crcStep_xor, ih]

theorem crcBits_add (m n : ℕ) (x : BitVec w) :
    crcBits poly (m + n) x = crcBits poly m (crcBits poly n x) :=
  Function.iterate_add_apply _ m n x

theorem crcBits_of_low {n : ℕ} {x : BitVec w} (h : ∀ i < n, x.getLsbD i = false) :
    crcBits poly n x = x >>> n := by
  induction n generalizing x with
  | zero =>
    ext i
    simp [crcBits]
  | succ n ih =>
    have hstep : crcStep poly x = x >>> 1 := by simp [crcStep, h 0 (by omega)]
    have hlow : ∀ i < n, (x >>> 1).getLsbD i = false := fun i hi => by
      rw [BitVec.getLsbD_ushiftRight]
      exact h (1 + i) (by omega)
    have hih := ih hlow
    simp only [crcBits, Function.iterate_succ_apply] at hih ⊢
    rw [hstep, hih, ← BitVec.shiftRight_add, Nat.add_comm]

theorem crcBits_shiftLeft (n : ℕ) (x : BitVec w) : crcBits poly n (x <<< n) = (x <<< n) >>> n :=
  crcBits_of_low fun i hi => by simp [hi]

/-! ## Tables -/

theorem eq_low_xor_high (x : BitVec w) : x = (x &&& 255#w) ^^^ ((x >>> 8) <<< 8) := by
  ext i hi
  have hlow : (255#w)[i] = decide (i < 8) := by
    rw [← BitVec.getLsbD_eq_getElem, BitVec.getLsbD_ofNat, decide_eq_true hi, Bool.true_and]
    exact Nat.testBit_two_pow_sub_one 8 i
  rw [BitVec.getElem_xor, BitVec.getElem_and, hlow, BitVec.getElem_shiftLeft]
  by_cases h8 : i < 8
  · simp [h8]
  · have hback : 8 + (i - 8) = i := by omega
    simp [h8, hback, BitVec.getLsbD_eq_getElem hi]

/-- **The lowest byte is looked up**, the others are shifted. -/
theorem crcBits_table (n : ℕ) (x : BitVec w) :
    crcBits poly (n + 8) x = crcBits poly (n + 8) (x &&& 255#w) ^^^ crcBits poly n (x >>> 8) := by
  conv_lhs => rw [eq_low_xor_high x]
  rw [crcBits_xor, crcBits_add n 8 ((x >>> 8) <<< 8), crcBits_shiftLeft]
  have hback : ((x >>> 8) <<< 8) >>> 8 = x >>> 8 := by
    ext i hi
    simpa using BitVec.lt_of_getLsbD (x := x) (i := 8 + i)
  rw [hback]

/-- **A word that is taken in at once** is taken in byte by byte. -/
theorem crcBits_word (n : ℕ) (x b r : BitVec w) (hr : (r <<< 8) >>> 8 = r) :
    crcBits poly (n + 8) (x ^^^ (b ^^^ (r <<< 8))) = crcBits poly n (crcByte poly x b ^^^ r) := by
  rw [crcBits_add, ← BitVec.xor_assoc, crcBits_xor 8, crcBits_shiftLeft, hr]
  rfl

end Bits

/-! ## Steps of several elements -/

section Chunks

variable {A S : Type}

/-- As long as there are `n + 1` elements they are taken in one step; the rest is left. -/
def foldChunks (n : ℕ) (f : S → List A → S) (s : S) (l : List A) : S × List A :=
  if n < l.length then foldChunks n f (f s (l.take (n + 1))) (l.drop (n + 1)) else (s, l)
termination_by l.length
decreasing_by
  rw [List.length_drop]
  omega

/-- **The steps and the rest together** are a fold over the elements, when each step is one. -/
theorem foldl_foldChunks {n : ℕ} {f : S → List A → S} {g : S → A → S}
    (h : ∀ s l, l.length = n + 1 → f s l = l.foldl g s) (s : S) (l : List A) :
    (foldChunks n f s l).2.foldl g (foldChunks n f s l).1 = l.foldl g s := by
  induction hlen : l.length using Nat.strongRecOn generalizing s l with
  | _ m ih =>
    subst hlen
    rw [foldChunks]
    split_ifs with hl
    · have htake : (l.take (n + 1)).length = n + 1 := by
        rw [List.length_take]
        omega
      rw [ih _ (by rw [List.length_drop]; omega) _ _ rfl, h _ _ htake, ← List.foldl_append,
        List.take_append_drop]
    · rfl

end Chunks

end KV
