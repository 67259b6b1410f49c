import Mathlib.Data.Nat.Bitwise

/-!
Words of four channels of eight bits. A word is joined from its channels with shifts; seen as a
number it is their value in base 256, so each channel comes back from it by a shift and a mask.
-/

namespace Tellurium.Lib

variable {a r g b : Nat}

/-- The channels joined to a word. -/
theorem pack_channels (hr : r < 2 ^ 8) (hg : g < 2 ^ 8) (hb : b < 2 ^ 8) :
    a <<< 24 ||| r <<< 16 ||| g <<< 8 ||| b = a * 2 ^ 24 + r * 2 ^ 16 + g * 2 ^ 8 + b := by
  rw [Nat.or_assoc, Nat.or_assoc, Nat.shiftLeft_eq, Nat.shiftLeft_eq, Nat.shiftLeft_eq,
    Nat.mul_comm a, Nat.mul_comm r, Nat.mul_comm g, ← Nat.two_pow_add_eq_or_of_lt hb,
    ← Nat.two_pow_add_eq_or_of_lt (show 2 ^ 8 * g + b < 2 ^ 16 by omega),
    ← Nat.two_pow_add_eq_or_of_lt (show 2 ^ 16 * r + (2 ^ 8 * g + b) < 2 ^ 24 by omega)]
  omega

/-- The channel of a word that starts at bit `shift`. -/
def channelOf (color : UInt32) (shift : Nat) : Nat := color.toNat >>> shift % 2 ^ 8

/-- Each channel of a joined word. -/
theorem channelOf_pack (ha : a < 2 ^ 8) (hr : r < 2 ^ 8) (hg : g < 2 ^ 8) (hb : b < 2 ^ 8) :
    channelOf (UInt32.ofNat (a <<< 24 ||| r <<< 16 ||| g <<< 8 ||| b)) 24 = a ∧
      channelOf (UInt32.ofNat (a <<< 24 ||| r <<< 16 ||| g <<< 8 ||| b)) 16 = r ∧
      channelOf (UInt32.ofNat (a <<< 24 ||| r <<< 16 ||| g <<< 8 ||| b)) 8 = g ∧
      channelOf (UInt32.ofNat (a <<< 24 ||| r <<< 16 ||| g <<< 8 ||| b)) 0 = b := by
  rw [pack_channels hr hg hb]
  have hfits : a * 2 ^ 24 + r * 2 ^ 16 + g * 2 ^ 8 + b < 2 ^ 32 := by omega
  have hword : (UInt32.ofNat (a * 2 ^ 24 + r * 2 ^ 16 + g * 2 ^ 8 + b)).toNat =
      a * 2 ^ 24 + r * 2 ^ 16 + g * 2 ^ 8 + b := UInt32.toNat_ofNat_of_lt' hfits
  simp only [channelOf, hword, Nat.shiftRight_eq_div_pow]
  omega

/-- A mean with integer weights lies between the two numbers. -/
theorem mean_bounds {x y v w : Nat} (hpos : 0 < v + w) :
    min x y ≤ (x * v + y * w) / (v + w) ∧ (x * v + y * w) / (v + w) ≤ max x y := by
  constructor
  · rw [Nat.le_div_iff_mul_le hpos, Nat.mul_add]
    exact Nat.add_le_add (Nat.mul_le_mul_right v (Nat.min_le_left x y))
      (Nat.mul_le_mul_right w (Nat.min_le_right x y))
  · apply Nat.div_le_of_le_mul
    rw [Nat.add_mul, Nat.mul_comm x, Nat.mul_comm y]
    exact Nat.add_le_add (Nat.mul_le_mul_left v (Nat.le_max_left x y))
      (Nat.mul_le_mul_left w (Nat.le_max_right x y))

end Tellurium.Lib
