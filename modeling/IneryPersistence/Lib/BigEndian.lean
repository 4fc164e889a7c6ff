import IneryPersistence.Lib.Lex
import Mathlib.Data.List.Lex
import Mathlib.Data.Nat.Basic
import Mathlib.Order.Fin.Basic
import Mathlib.Tactic.Common

/-!
# Numbers as digits of a fixed length

* `bigEndian w n`: the `w` lowest digits of `n` to the base 256, the highest first;
* `ofBigEndian`, **`ofBigEndian_bigEndian`**: they are read back;
* **`bigEndian_lt_iff`**: and they are ordered like the numbers;
* `bigEndian_append_lt_iff`: what follows decides between equal ones.
-/

namespace KV

/-- The base, as a modulus of digits. -/
instance neZero_base : NeZero 256 := ⟨by decide⟩

/-- The `w` lowest digits of a number. -/
def bigEndian : ℕ → ℕ → List (Fin 256)
  | 0, _ => []
  | w + 1, n => Fin.ofNat 256 (n / 256 ^ w) :: bigEndian w (n % 256 ^ w)

/-- The number with the given digits. -/
def ofBigEndian : List (Fin 256) → ℕ
  | [] => 0
  | d :: l => d * 256 ^ l.length + ofBigEndian l

@[simp] theorem length_bigEndian (w n : ℕ) : (bigEndian w n).length = w := by
  induction w generalizing n with
  | zero => rfl
  | succ w ih => rw [bigEndian, List.length_cons, ih]

theorem ofBigEndian_bigEndian {w n : ℕ} (h : n < 256 ^ w) : ofBigEndian (bigEndian w n) = n := by
  induction w generalizing n with
  | zero =>
    have hn : n = 0 := by simpa using h
    rw [hn]
    rfl
  | succ w ih =>
    have hpos : 0 < 256 ^ w := Nat.pow_pos (by decide)
    have hdigit : ((Fin.ofNat 256 (n / 256 ^ w) : Fin 256) : ℕ) = n / 256 ^ w :=
      Nat.mod_eq_of_lt (Nat.div_lt_of_lt_mul h)
    rw [bigEndian, ofBigEndian, length_bigEndian, hdigit, ih (Nat.mod_lt _ hpos)]
    exact Nat.div_add_mod' n (256 ^ w)

/-- **Digits of one length are ordered like the numbers.** -/
theorem bigEndian_lt_iff {w m n : ℕ} (hm : m < 256 ^ w) (hn : n < 256 ^ w) :
    bigEndian w m < bigEndian w n ↔ m < n := by
  induction w generalizing m n with
  | zero =>
    have hm' : m = 0 := by simpa using hm
    have hn' : n = 0 := by simpa using hn
    simp [bigEndian, hm', hn']
  | succ w ih =>
    have hsplit_m := Nat.div_add_mod m (256 ^ w)
    have hsplit_n := Nat.div_add_mod n (256 ^ w)
    have hpos : 0 < 256 ^ w := Nat.pow_pos (by decide)
    have hlt_m := Nat.mod_lt m hpos
    have hlt_n := Nat.mod_lt n hpos
    have hdigit_m : m / 256 ^ w < 256 := Nat.div_lt_of_lt_mul hm
    have hdigit_n : n / 256 ^ w < 256 := Nat.div_lt_of_lt_mul hn
    rw [bigEndian, bigEndian, List.cons_lt_cons_iff, ih hlt_m hlt_n, Fin.lt_def, Fin.ext_iff,
      Fin.val_ofNat, Fin.val_ofNat, Nat.mod_eq_of_lt hdigit_m, Nat.mod_eq_of_lt hdigit_n]
    rcases lt_trichotomy (m / 256 ^ w) (n / 256 ^ w) with h | h | h
    · refine iff_of_true (.inl h) ?_
      exact Nat.lt_of_div_lt_div h
    · rw [h]
      rw [h] at hsplit_m
      omega
    · refine iff_of_false (fun hor => ?_) (Nat.lt_of_div_lt_div h).not_gt
      omega

theorem bigEndian_append_lt_iff {w m n : ℕ} (hm : m < 256 ^ w) (hn : n < 256 ^ w) (s t : List (Fin 256)) :
    bigEndian w m ++ s < bigEndian w n ++ t ↔ m < n ∨ m = n ∧ s < t := by
  have hlt : ∀ {m n : ℕ}, m < 256 ^ w → n < 256 ^ w → m < n → ∀ s t : List (Fin 256),
      bigEndian w m ++ s < bigEndian w n ++ t := by
    intro m n hm hn h s t
    have hdigits := (bigEndian_lt_iff hm hn).mpr h
    refine append_lt_append_of_lt hdigits (fun hpre => hdigits.ne (hpre.eq_of_length ?_)) s t
    rw [length_bigEndian, length_bigEndian]
  rcases lt_trichotomy m n with h | rfl | h
  · exact iff_of_true (hlt hm hn h s t) (.inl h)
  · rw [append_lt_append_iff]
    simp
  · refine iff_of_false (lt_asymm (hlt hn hm h t s)) ?_
    rintro (h' | ⟨rfl, -⟩)
    · exact lt_asymm h h'
    · exact lt_irrefl _ h

end KV
