import Mathlib

/-!
# Conversions between machine integers

Machine integers are integers together with a width.  `toUnsigned w` and `toSigned w` convert an
arbitrary integer to an unsigned and to a two's complement type of `w` bits.  `InSigned w` is the
range of the signed type; inside it the conversion changes nothing.
-/

namespace Words

/-- Conversion to an unsigned type of `w` bits. -/
def toUnsigned (w : ℕ) (z : ℤ) : ℤ := z % 2 ^ w

/-- Conversion to a two's complement type of `w` bits. -/
def toSigned (w : ℕ) (z : ℤ) : ℤ := Int.bmod z (2 ^ w)

/-- The range of the two's complement type of `w` bits. -/
def InSigned (w : ℕ) (z : ℤ) : Prop := -(2 ^ w) ≤ z * 2 ∧ z * 2 < 2 ^ w

instance (w : ℕ) (z : ℤ) : Decidable (InSigned w z) := inferInstanceAs (Decidable (_ ∧ _))

theorem toSigned_of_inSigned {w : ℕ} {z : ℤ} (h : InSigned w z) : toSigned w z = z :=
  Int.bmod_eq_of_le_mul_two (by exact_mod_cast h.1) (by exact_mod_cast h.2)

theorem toSigned_toUnsigned {v w : ℕ} (h : v ≤ w) (z : ℤ) :
    toSigned v (toUnsigned w z) = toSigned v z := by
  unfold toSigned toUnsigned
  rw [Int.bmod_eq_bmod_iff_bmod_sub_eq_zero]
  refine Int.bmod_eq_zero_of_dvd ?_
  have hw : (2 : ℤ) ^ w ∣ z % 2 ^ w - z := (Int.mod_modEq z (2 ^ w)).symm.dvd
  exact_mod_cast (pow_dvd_pow 2 h).trans hw

/-- A value is converted to `c` when it differs from it by a multiple of the modulus. -/
theorem toSigned_eq_iff {w : ℕ} {z c : ℤ} (hc : InSigned w c) :
    toSigned w z = c ↔ (2 : ℤ) ^ w ∣ z - c := by
  have hself := toSigned_of_inSigned hc
  constructor
  · rintro rfl
    have split := Int.bmod_add_bdiv z (2 ^ w)
    refine ⟨Int.bdiv z (2 ^ w), ?_⟩
    unfold toSigned
    push_cast at split
    linarith
  · intro h
    rw [← hself]
    unfold toSigned
    rw [Int.bmod_eq_bmod_iff_bmod_sub_eq_zero]
    exact Int.bmod_eq_zero_of_dvd (by exact_mod_cast h)

end Words
