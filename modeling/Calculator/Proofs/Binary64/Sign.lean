import Mathlib
import Calculator.Proofs.Binary64.Bits

/-!
# Signs of products and quotients

The sign of a product or of a quotient is computed by itself, from the signs of the operands;
what is rounded is the magnitude. So a negation moves from an operand to the result
(`neg_mul`, `mul_neg`, `neg_div`, `div_neg`), for all numbers, infinities and what is no
number. The numbers are followed in their unpacked form, where a negation changes one field;
`ofUnpacked_neg` says that packing keeps it.
-/

namespace Calculator

namespace Binary64

open Float.Model (Format UnpackedFloat)
open Float.Model.UnpackedFloat

/-- The number that is packed from its fields. -/
def ofUnpacked (w : UnpackedFloat) : Float :=
  .ofModel (.pack w)

/-- The fields of a number. -/
def unpacked (x : Float) : UnpackedFloat :=
  UnpackedFloat.unpack Format.binary64 (bits x)

theorem neg_eq (x : Float) : -x = ofUnpacked (unpacked x).neg := rfl

theorem mul_eq (x y : Float) :
    x * y = ofUnpacked (UnpackedFloat.mul Format.binary64 (unpacked x) (unpacked y)) := rfl

theorem div_eq (x y : Float) :
    x / y = ofUnpacked (UnpackedFloat.div Format.binary64 (unpacked x) (unpacked y)) := rfl

theorem ofUnpacked_unpacked (x : Float) : ofUnpacked (unpacked x) = x := by
  refine Float.toBits_inj.1 (UInt64.toBitVec_inj.1 ?_)
  exact pack_unpack_of_valid x.toModel.valid

theorem unpacked_ofUnpacked (w : UnpackedFloat) :
    unpacked (ofUnpacked w) =
      UnpackedFloat.unpack Format.binary64 (UnpackedFloat.pack Format.binary64 w) := rfl

theorem neg_neg_unpacked (w : UnpackedFloat) : w.neg.neg = w := by
  cases w with
  | notANumber => rfl
  | infinity s => cases s <;> rfl
  | zero s => cases s <;> rfl
  | finite s m e hm => cases s <;> rfl

/-- Fields and their negation are packed alike, but for the sign. -/
theorem unpack_pack_neg (w : UnpackedFloat) :
    UnpackedFloat.unpack Format.binary64 (UnpackedFloat.pack Format.binary64 w.neg) =
      (UnpackedFloat.unpack Format.binary64 (UnpackedFloat.pack Format.binary64 w)).neg := by
  have hcomponents (s : Sign) (e : BitVec Format.binary64.exponentBits)
      (m : BitVec Format.binary64.mantissaBitsWithoutImplicit) :
      UnpackedFloat.unpack Format.binary64 (packComponents Format.binary64 (-s) e m) =
        (UnpackedFloat.unpack Format.binary64 (packComponents Format.binary64 s e m)).neg := by
    refine unpack_eq_neg ?_ ?_ ?_
    · rw [unpackExponent_packComponents, unpackExponent_packComponents]
    · rw [unpackMantissa_packComponents, unpackMantissa_packComponents]
    · rw [unpackSign_packComponents, unpackSign_packComponents, Sign.ofBitVec_toBitVec,
        Sign.ofBitVec_toBitVec]
  cases w with
  | notANumber =>
      change UnpackedFloat.unpack Format.binary64 (packedNaN Format.binary64) =
        (UnpackedFloat.unpack Format.binary64 (packedNaN Format.binary64)).neg
      rw [unpack_packedNaN]
      rfl
  | infinity s => exact hcomponents s _ _
  | zero s => exact hcomponents s _ _
  | finite s m e hm =>
      rw [UnpackedFloat.neg, UnpackedFloat.pack, UnpackedFloat.pack]
      dsimp only
      split
      · exact hcomponents s _ _
      · split
        · exact hcomponents s _ _
        · exact hcomponents s _ _

/-- A number is negated in its fields. -/
theorem ofUnpacked_neg (w : UnpackedFloat) : ofUnpacked w.neg = -ofUnpacked w := by
  rw [neg_eq, unpacked_ofUnpacked, ← unpack_pack_neg, ← unpacked_ofUnpacked, ofUnpacked_unpacked]

theorem unpacked_neg (x : Float) : unpacked (-x) = (unpacked x).neg := by
  rw [neg_eq, unpacked_ofUnpacked, unpack_pack_neg, ← unpacked_ofUnpacked, ofUnpacked_unpacked]

/-- The sign is not rounded. -/
theorem roundWithAccuracy_neg (s : Sign) (m : Nat) (e : Int) (a : Accuracy) :
    roundWithAccuracy Format.binary64 (-s) m e a =
      (roundWithAccuracy Format.binary64 s m e a).neg := by
  rw [roundWithAccuracy, roundWithAccuracy]
  dsimp only
  split <;> rfl

theorem neg_mul_sign (s t : Sign) : -s * t = -(s * t) := by
  cases s <;> cases t <;> rfl

theorem mul_neg_sign (s t : Sign) : s * -t = -(s * t) := by
  cases s <;> cases t <;> rfl

theorem div_sign (s t : Sign) : s / t = s * t := by
  cases s <;> cases t <;> rfl

theorem neg_mul_unpacked (v w : UnpackedFloat) :
    UnpackedFloat.mul Format.binary64 v.neg w = (UnpackedFloat.mul Format.binary64 v w).neg := by
  cases v <;> cases w <;>
    simp [UnpackedFloat.mul, UnpackedFloat.neg, neg_mul_sign, roundWithAccuracy_neg]

theorem mul_neg_unpacked (v w : UnpackedFloat) :
    UnpackedFloat.mul Format.binary64 v w.neg = (UnpackedFloat.mul Format.binary64 v w).neg := by
  cases v <;> cases w <;>
    simp [UnpackedFloat.mul, UnpackedFloat.neg, mul_neg_sign, roundWithAccuracy_neg]

theorem neg_div_unpacked (v w : UnpackedFloat) :
    UnpackedFloat.div Format.binary64 v.neg w = (UnpackedFloat.div Format.binary64 v w).neg := by
  cases v <;> cases w <;>
    simp [UnpackedFloat.div, UnpackedFloat.neg, div_sign, neg_mul_sign, roundWithAccuracy_neg]

theorem div_neg_unpacked (v w : UnpackedFloat) :
    UnpackedFloat.div Format.binary64 v w.neg = (UnpackedFloat.div Format.binary64 v w).neg := by
  cases v <;> cases w <;>
    simp [UnpackedFloat.div, UnpackedFloat.neg, div_sign, mul_neg_sign, roundWithAccuracy_neg]

theorem unpacked_zero : unpacked 0.0 = .zero .positive := by
  have hbits : bits 0.0 = 0#64 := by decide +kernel
  rw [unpacked, hbits]
  rfl

section Numbers

variable (x y : Float)

theorem neg_neg : - -x = x := by
  rw [neg_eq, unpacked_neg, neg_neg_unpacked, ofUnpacked_unpacked]

theorem neg_mul : -x * y = -(x * y) := by
  rw [mul_eq, unpacked_neg, neg_mul_unpacked, ofUnpacked_neg, mul_eq]

theorem mul_neg : x * -y = -(x * y) := by
  rw [mul_eq, unpacked_neg, mul_neg_unpacked, ofUnpacked_neg, mul_eq]

theorem neg_div : -x / y = -(x / y) := by
  rw [div_eq, unpacked_neg, neg_div_unpacked, ofUnpacked_neg, div_eq]

theorem div_neg : x / -y = -(x / y) := by
  rw [div_eq, unpacked_neg, div_neg_unpacked, ofUnpacked_neg, div_eq]

theorem neg_beq_zero : (-x == 0.0) = (x == 0.0) := by
  change UnpackedFloat.beq (unpacked (-x)) (unpacked 0.0) =
    UnpackedFloat.beq (unpacked x) (unpacked 0.0)
  rw [unpacked_neg, unpacked_zero]
  cases unpacked x with
  | notANumber => rfl
  | infinity s => cases s <;> rfl
  | zero s => rfl
  | finite s m e hm => cases s <;> rfl

end Numbers

end Binary64

end Calculator
