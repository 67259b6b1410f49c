import Tellurium.Gui.Surface
import Tellurium.Lib.Pixel

/-!
The arithmetic of `alphaBlendPixel` (`libGUI/Surface.cpp`). The source multiplies with
`256 - alphaA` and shifts by eight in place of a division by 255. What is left over is enough for
every narrowing to eight bits to keep its number.
-/

namespace Tellurium.Gui

open Tellurium.Lib

/-- The adjusted alpha of the pixel behind, before it is narrowed. -/
def alphaBehind (colorA colorB : UInt32) : Nat :=
  (channelOf colorB 24 * (256 - channelOf colorA 24)) >>> 8

/-- The alpha of the blended pixel, before it is narrowed. -/
def alphaSum (colorA colorB : UInt32) : Nat := channelOf colorA 24 + alphaBehind colorA colorB

/-- A colour channel of the blended pixel, before it is narrowed. -/
def blendChannel (colorA colorB : UInt32) (shift : Nat) : Nat :=
  (channelOf colorA shift * channelOf colorA 24 + channelOf colorB shift * alphaBehind colorA colorB) /
    alphaSum colorA colorB

section Blend

variable {colorA colorB : UInt32}

theorem channelOf_lt (color : UInt32) (shift : Nat) : channelOf color shift < 256 :=
  Nat.mod_lt _ (by decide)

/-- The alpha behind fits beside the alpha in front. -/
theorem alphaBehind_le (colorA colorB : UInt32) :
    alphaBehind colorA colorB ≤ 255 - channelOf colorA 24 := by
  have hA := channelOf_lt colorA 24
  have hB := channelOf_lt colorB 24
  have hproduct : channelOf colorB 24 * (256 - channelOf colorA 24) ≤
      255 * (256 - channelOf colorA 24) := Nat.mul_le_mul_right _ (by omega)
  rw [alphaBehind, Nat.shiftRight_eq_div_pow]
  omega

theorem blendChannel_bounds (hback : channelOf colorA 24 ≠ 0) (shift : Nat) :
    min (channelOf colorA shift) (channelOf colorB shift) ≤ blendChannel colorA colorB shift ∧
      blendChannel colorA colorB shift ≤ max (channelOf colorA shift) (channelOf colorB shift) :=
  mean_bounds (Nat.add_pos_left (Nat.pos_of_ne_zero hback) _)

/-- Nothing of the front pixel changes in front of nothing. -/
theorem blendChannel_alone (hback : channelOf colorA 24 ≠ 0) (hbehind : alphaBehind colorA colorB = 0)
    (shift : Nat) : blendChannel colorA colorB shift = channelOf colorA shift := by
  rw [blendChannel, alphaSum, hbehind, Nat.mul_zero, Nat.add_zero, Nat.add_zero]
  exact Nat.mul_div_cancel _ (Nat.pos_of_ne_zero hback)

theorem toNat_shift (color : UInt32) : (color >>> 24).toNat % 256 = channelOf color 24 := rfl

theorem toNat_mask (color shift : UInt32) (hshift : shift.toNat < 32) :
    ((color >>> shift) &&& 0xff).toNat = channelOf color shift.toNat := by
  rw [UInt32.toNat_and, UInt32.toNat_shiftRight, Nat.mod_eq_of_lt hshift]
  exact Nat.and_two_pow_sub_one_eq_mod _ 8

/-- Without the shortcuts the four numbers are joined as they are. -/
theorem alphaBlendPixel_eq (hfront : channelOf colorA 24 ≠ 0xff) (hback : channelOf colorA 24 ≠ 0) :
    alphaBlendPixel colorA colorB =
      UInt32.ofNat (alphaSum colorA colorB <<< 24 ||| blendChannel colorA colorB 16 <<< 16 |||
        blendChannel colorA colorB 8 <<< 8 ||| blendChannel colorA colorB 0) := by
  have hA := channelOf_lt colorA 24
  have hbehind := alphaBehind_le colorA colorB
  have hbehindFits : alphaBehind colorA colorB % 256 = alphaBehind colorA colorB :=
    Nat.mod_eq_of_lt (by omega)
  have hsumFits : (channelOf colorA 24 + alphaBehind colorA colorB) % 256 =
      channelOf colorA 24 + alphaBehind colorA colorB := Nat.mod_eq_of_lt (by omega)
  have hchannelFits : ∀ shift, blendChannel colorA colorB shift % 256 =
      blendChannel colorA colorB shift := by
    intro shift
    have hbounds := (@blendChannel_bounds colorA colorB hback shift).2
    have hchannelA := channelOf_lt colorA shift
    have hchannelB := channelOf_lt colorB shift
    exact Nat.mod_eq_of_lt (by omega)
  rw [alphaBlendPixel, if_neg (by exact hfront), if_neg (by exact hback)]
  simp only [toNat_shift, toNat_mask _ 16 (by decide), toNat_mask _ 8 (by decide),
    toNat_mask _ 0 (by decide)]
  unfold blendChannel alphaSum alphaBehind at *
  rw [hbehindFits, hsumFits]
  have hred := congrArg (· <<< 16) (hchannelFits 16)
  have hgreen := congrArg (· <<< 8) (hchannelFits 8)
  exact congrArg UInt32.ofNat (congrArg₂ _ (congrArg₂ _ (congrArg₂ _ rfl hred) hgreen) (hchannelFits 0))

/-- What the blended pixel is made of. The divisor is `alphaSum`. -/
structure Blends (colorA colorB out : UInt32) : Prop where
  divisor : 0 < alphaSum colorA colorB
  behind_fits : alphaBehind colorA colorB < 256
  sum_fits : alphaSum colorA colorB < 256
  front_le : channelOf colorA 24 ≤ alphaSum colorA colorB
  behind_le : alphaBehind colorA colorB ≤ alphaSum colorA colorB
  alpha : channelOf out 24 = alphaSum colorA colorB
  channel : ∀ shift ∈ [16, 8, 0], channelOf out shift = blendChannel colorA colorB shift
  between : alphaBehind colorA colorB ≠ 0 → ∀ shift ∈ [16, 8, 0],
    min (channelOf colorA shift) (channelOf colorB shift) ≤ channelOf out shift ∧
      channelOf out shift ≤ max (channelOf colorA shift) (channelOf colorB shift)
  alone : alphaBehind colorA colorB = 0 → ∀ shift ∈ [16, 8, 0],
    channelOf out shift = channelOf colorA shift

theorem alpha_blend_arithmetic (colorA colorB : UInt32) :
    (channelOf colorA 24 = 0xff → alphaBlendPixel colorA colorB = colorA) ∧
      (channelOf colorA 24 = 0 → alphaBlendPixel colorA colorB = colorB) ∧
      (channelOf colorA 24 ≠ 0xff → channelOf colorA 24 ≠ 0 →
        Blends colorA colorB (alphaBlendPixel colorA colorB)) := by
  refine ⟨fun hfront => if_pos hfront, fun hback => ?_, fun hfront hback => ?_⟩
  · rw [alphaBlendPixel, if_neg (by rw [toNat_shift, hback]; decide), if_pos (by exact hback)]
  · have hA := channelOf_lt colorA 24
    have hbehind := alphaBehind_le colorA colorB
    have hsum : alphaSum colorA colorB = channelOf colorA 24 + alphaBehind colorA colorB := rfl
    have hbounds := @blendChannel_bounds colorA colorB hback
    have hsmall : ∀ shift, blendChannel colorA colorB shift < 2 ^ 8 := by
      intro shift
      have hchannelA := channelOf_lt colorA shift
      have hchannelB := channelOf_lt colorB shift
      have hmax := (hbounds shift).2
      omega
    obtain ⟨halpha, hred, hgreen, hblue⟩ := channelOf_pack
      (show alphaSum colorA colorB < 2 ^ 8 by omega) (hsmall 16) (hsmall 8) (hsmall 0)
    have hchannel : ∀ shift ∈ [16, 8, 0],
        channelOf (alphaBlendPixel colorA colorB) shift = blendChannel colorA colorB shift := by
      rw [alphaBlendPixel_eq hfront hback]
      simp only [List.forall_mem_cons, List.not_mem_nil, false_imp_iff, implies_true, and_true]
      exact ⟨hred, hgreen, hblue⟩
    constructor
    case divisor => omega
    case behind_fits => omega
    case sum_fits => omega
    case front_le => omega
    case behind_le => omega
    case alpha => rw [alphaBlendPixel_eq hfront hback, halpha]
    case channel => exact hchannel
    case between =>
      intro _ shift hshift
      rw [hchannel shift hshift]
      exact hbounds shift
    case alone =>
      intro hnothing shift hshift
      rw [hchannel shift hshift, blendChannel_alone hback hnothing]

/-- Half red in front of blue. -/
theorem alpha_blend_half_red :
    Blends 0x80ff0000 0xff0000ff (alphaBlendPixel 0x80ff0000 0xff0000ff) :=
  (alpha_blend_arithmetic 0x80ff0000 0xff0000ff).2.2 (by decide) (by decide)

end Blend

end Tellurium.Gui
