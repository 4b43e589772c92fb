import Calculator.Arithmetic
import Calculator.Proofs.Rounding

/-!
Whole numbers as the operands of arithmetic. Those of at most `2 ^ 53` in
magnitude are what the digits of a number are rounded to, and addition,
subtraction, negation and multiplication compute them exactly within that bound.
-/

namespace Calculator

open Float.Model Float.Model.UnpackedFloat

theorem toNat_significand {k : Nat} (hlow : 2 ^ 52 ≤ k) (hhigh : k < 2 ^ 53) :
    (1#1 ++ BitVec.ofNat 52 k).toNat = k := by
  rw [BitVec.toNat_append, ← Nat.shiftLeft_add_eq_or_of_lt (BitVec.isLt _),
    BitVec.toNat_ofNat, BitVec.toNat_ofNat, Nat.shiftLeft_eq]
  omega

theorem unpack_pack_finite {k q : Nat} (s : Sign) (hk : k.log2 = 52) (hq : q ≤ 53)
    (hpos : 0 < k) :
    UnpackedFloat.unpack Format.binary64
      (UnpackedFloat.pack Format.binary64 (.finite s k (q - 52) hpos)) =
        .finite s k (q - 52) hpos := by
  have hlow : 2 ^ 52 ≤ k := hk ▸ Nat.log2_self_le hpos.ne'
  have hhigh : k < 2 ^ (52 + 1) := hk ▸ Nat.lt_log2_self
  have hbiased : ((q : Int) - 52 + (Format.binary64.exponentBias : Nat) + (52 : Nat)).toNat =
      q + 1023 := by
    change ((q : Int) - 52 + (1023 : Nat) + (52 : Nat)).toNat = q + 1023
    omega
  have hfield : (BitVec.ofNat 11 (q + 1023)).toNat = q + 1023 := by
    rw [BitVec.toNat_ofNat]
    omega
  have hones : ¬ BitVec.ofNat 11 (q + 1023) = -1#11 := by
    rw [← BitVec.toNat_inj, hfield]
    change ¬ q + 1023 = 2047
    omega
  have hzeros : ¬ BitVec.ofNat 11 (q + 1023) = 0#11 := by
    rw [← BitVec.toNat_inj, hfield]
    change ¬ q + 1023 = 0
    omega
  have hexponent : ((q + 1023 : Nat) : Int) -
      ((Format.binary64.exponentBias : Nat) + (52 : Nat)) = q - 52 := by
    change ((q + 1023 : Nat) : Int) - ((1023 : Nat) + (52 : Nat)) = q - 52
    omega
  have hnormal : ¬ 2 ^ 11 ≤ q + 1023 + 1 := by omega
  simp only [UnpackedFloat.pack, hbiased, hk, if_neg hnormal]
  rw [if_pos (by rfl), UnpackedFloat.unpack]
  simp only [unpackMantissa_packComponents, unpackExponent_packComponents,
    unpackSign_packComponents, Sign.ofBitVec_toBitVec, if_neg hones, if_neg hzeros, hfield,
    toNat_significand hlow hhigh, hexponent]

/-- A whole number survives being packed into sixty-four bits. -/
theorem Holds.unpack_pack {f : UnpackedFloat} {n : Int} (h : Holds f n) :
    (pack f).unpack = f := by
  cases h with
  | zero s => cases s <;> rfl
  | finite hpos hk hq h => exact unpack_pack_finite _ hk hq hpos

def Binary64.ofUnpacked : UnpackedFloat → Binary64
  | .notANumber => .nan
  | .infinity s => .infinite (s == .negative)
  | .zero s => .finite (s == .negative) ⟨0, -1074⟩
  | .finite s m e _ => .finite (s == .negative) ⟨m, e⟩

theorem toNat_unpackMantissa (b : BitVec 64) :
    (@unpackMantissa Format.binary64 b).toNat = b.toNat % 2 ^ 52 := by
  simp [unpackMantissa]

theorem toNat_unpackExponent (b : BitVec 64) :
    (@unpackExponent Format.binary64 b).toNat = b.toNat / 2 ^ 52 % 2 ^ 11 := by
  simp [unpackExponent, Nat.shiftRight_eq_div_pow]

theorem sign_eq_negative (b : BitVec 64) :
    (Sign.ofBitVec (@unpackSign Format.binary64 b) == .negative) = decide (2 ^ 63 ≤ b.toNat) := by
  have hsign : (@unpackSign Format.binary64 b).toNat = b.toNat / 2 ^ 63 % 2 := by
    simp [unpackSign, Nat.shiftRight_eq_div_pow]
  have hb := b.isLt
  by_cases h : 2 ^ 63 ≤ b.toNat
  · have hone : @unpackSign Format.binary64 b = 1#1 := by
      apply BitVec.eq_of_toNat_eq
      rw [hsign, BitVec.toNat_ofNat]
      omega
    rw [hone, decide_eq_true h]
    rfl
  · have hzero : @unpackSign Format.binary64 b = 0#1 := by
      apply BitVec.eq_of_toNat_eq
      rw [hsign, BitVec.toNat_ofNat]
      omega
    rw [hzero, decide_eq_false h]
    rfl

/-- The decoding of the bits agrees with the one that arithmetic is defined by. -/
theorem ofFloat_eq (x : Float) : Binary64.ofFloat x = .ofUnpacked x.toModel.unpack := by
  obtain ⟨⟨⟨b⟩, hb⟩⟩ := x
  have hfield := toNat_unpackExponent b
  have hfraction := toNat_unpackMantissa b
  have hones : @unpackExponent Format.binary64 b = -1#11 ↔
      b.toNat / 2 ^ 52 % 2 ^ 11 = 2047 := by
    rw [← hfield, ← BitVec.toNat_inj]
    rfl
  have hzeros : @unpackExponent Format.binary64 b = 0#11 ↔ b.toNat / 2 ^ 52 % 2 ^ 11 = 0 := by
    rw [← hfield, ← BitVec.toNat_inj]
    rfl
  have hnone : @unpackMantissa Format.binary64 b = 0#52 ↔ b.toNat % 2 ^ 52 = 0 := by
    rw [← hfraction, ← BitVec.toNat_inj]
    rfl
  have hlead : (1#1 ++ @unpackMantissa Format.binary64 b).toNat =
      2 ^ 52 + b.toNat % 2 ^ 52 := by
    rw [BitVec.toNat_append, ← Nat.shiftLeft_add_eq_or_of_lt (BitVec.isLt _), hfraction,
      Nat.shiftLeft_eq]
    rfl
  have hbias : ((Format.binary64.exponentBias : Nat) : Int) + (52 : Nat) = 1075 := rfl
  change
    (if b.toNat / 2 ^ 52 % 2 ^ 11 = 2047 then
      if b.toNat % 2 ^ 52 = 0 then .infinite (decide (2 ^ 63 ≤ b.toNat)) else .nan
    else if b.toNat / 2 ^ 52 % 2 ^ 11 = 0 then
      .finite (decide (2 ^ 63 ≤ b.toNat)) ⟨b.toNat % 2 ^ 52, -1074⟩
    else
      .finite (decide (2 ^ 63 ≤ b.toNat))
        ⟨2 ^ 52 + b.toNat % 2 ^ 52, (b.toNat / 2 ^ 52 % 2 ^ 11 : Nat) - 1075⟩) =
      Binary64.ofUnpacked (UnpackedFloat.unpack Format.binary64 b)
  rw [← sign_eq_negative, UnpackedFloat.unpack]
  simp only [hones, hzeros, hnone, hfield]
  split
  · split <;> rfl
  · split
    · rename_i hsmall
      split
      · rename_i hzero
        rw [hzero]
        rfl
      · simp only [Binary64.ofUnpacked, hfraction, hsmall]
        rfl
    · simp only [Binary64.ofUnpacked, hlead, hbias]

/-- The whole number that the contents are, if they are one. Both zeros are `0`. -/
def Binary64.toInt? : Binary64 → Option Int
  | .finite negative magnitude =>
      magnitude.whole?.map fun (n : Nat) => if negative then -(n : Int) else n
  | _ => none

theorem whole?_eq {k q n : Nat} (h : k * 2 ^ q = n * 2 ^ 52) :
    Magnitude.whole? ⟨k, q - 52⟩ = some n := by
  rcases Nat.lt_or_ge q 52 with hlt | hge
  · obtain ⟨d, hd⟩ := Nat.exists_eq_add_of_lt hlt
    have hexponent : (q : Int) - 52 = .negSucc d := by omega
    have hk : k = n * 2 ^ (d + 1) := by
      rw [hd, Nat.add_assoc] at h
      exact eq_mul_two_pow h
    have hmod : k % Nat.pow 2 (d + 1) = 0 := by
      rw [hk]
      exact Nat.mul_mod_left n _
    have hdiv : k / Nat.pow 2 (d + 1) = n := by
      rw [hk]
      exact Nat.mul_div_cancel n (Nat.two_pow_pos (d + 1))
    rw [hexponent, Magnitude.whole?]
    simp only [hmod, hdiv, ↓reduceIte]
  · obtain ⟨d, rfl⟩ := Nat.exists_eq_add_of_le hge
    have hexponent : ((52 + d : Nat) : Int) - 52 = .ofNat d := by
      rw [Int.ofNat_eq_natCast]
      omega
    have hk : k * 2 ^ d = n := (eq_mul_two_pow h.symm).symm
    rw [hexponent, Magnitude.whole?]
    exact congrArg some hk

theorem whole?_zero (e : Int) : Magnitude.whole? ⟨0, e⟩ = some 0 := by
  cases e with
  | ofNat e => simp [Magnitude.whole?]
  | negSucc e => simp [Magnitude.whole?]

theorem Holds.toInt?_eq {f : UnpackedFloat} {n : Int} (h : Holds f n) :
    (Binary64.ofUnpacked f).toInt? = some n := by
  cases h with
  | zero s =>
      rw [Binary64.ofUnpacked, Binary64.toInt?, whole?_zero, Option.map_some]
      cases s with
      | negative => rfl
      | positive => rfl
  | @finite s k q n hpos hk hq h =>
      have hvalue : s.apply (k * 2 ^ q : Nat) = n * (2 ^ 52 : Nat) := by
        push_cast
        rw [← sign_apply_mul, h]
        norm_num
      obtain ⟨hnat, hsign⟩ := eq_of_sign_apply (by norm_num) hvalue
      rw [Binary64.ofUnpacked, Binary64.toInt?, whole?_eq hnat, Option.map_some]
      cases s with
      | negative => exact congrArg some hsign
      | positive => exact congrArg some hsign

/-- Whether a number is a whole number, exactly. -/
def Represents (x : Float) (n : Int) : Prop := Holds x.toModel.unpack n

namespace Represents

variable {x y : Float} {n m : Int}

theorem toInt?_eq (h : Represents x n) : (Binary64.ofFloat x).toInt? = some n := by
  rw [ofFloat_eq]
  exact Holds.toInt?_eq h

theorem of_pack {f : UnpackedFloat} (h : Holds f n) : Represents (.ofModel (pack f)) n := by
  rw [Represents, h.unpack_pack]
  exact h

theorem neg (h : Represents x n) : Represents (-x) (-n) := of_pack (Holds.neg h)

theorem add (hx : Represents x n) (hy : Represents y m)
    (hbound : (n + m).natAbs ≤ exactBound) : Represents (x + y) (n + m) :=
  of_pack (Holds.add hx hy hbound)

theorem sub (hx : Represents x n) (hy : Represents y m)
    (hbound : (n - m).natAbs ≤ exactBound) : Represents (x - y) (n - m) :=
  of_pack (Holds.sub hx hy hbound)

theorem mul (hx : Represents x n) (hy : Represents y m)
    (hbound : (n * m).natAbs ≤ exactBound) : Represents (x * y) (n * m) :=
  of_pack (Holds.mul hx hy hbound)

theorem one : Represents (Float.ofBits 0x3FF0000000000000) 1 := by
  have hone : UnpackedFloat.unpack Format.binary64 0x3FF0000000000000#64 =
      .finite .positive (2 ^ 52) ((0 : Nat) - 52) (by norm_num) := rfl
  have hholds : Holds (UnpackedFloat.unpack Format.binary64 0x3FF0000000000000#64) 1 := by
    rw [hone]
    exact .finite _ Nat.log2_two_pow (Nat.zero_le _) rfl
  exact of_pack hholds

theorem toFloat {n : Nat} (hn : n < 2 ^ 53) : Represents n.toUInt64.toFloat n := by
  have hnat : n.toUInt64.toNat = n := by
    rw [Nat.toUInt64_eq, UInt64.toNat_ofNat']
    omega
  have hnormal : Holds (UnpackedFloat.normalize Format.binary64 n ((52 : Nat) - 52) .positive) n :=
    holds_normalize rfl (by simpa [exactBound] using hn.le)
  apply of_pack
  change Holds (UnpackedFloat.normalize Format.binary64 (n.toUInt64.toNat : Int) 0 .positive) n
  rw [hnat]
  exact hnormal

/-- The way of a number that is too long for the table of powers of ten. -/
theorem holds_ofScientific {n : Nat} (hpos : 0 < n) (hn : n ≤ exactBound) :
    Holds (UnpackedFloat.ofScientific Format.binary64 n 0) n := by
  have hlong : 52 ≤ (n * 2 ^ 53).log2 := by
    rw [log2_mul_two_pow hpos.ne']
    omega
  have hvalue : n * 2 ^ 53 * 2 ^ 51 = n * 2 ^ 52 * 2 ^ 52 := by ring
  have hround := holds_roundWithAccuracy .positive hvalue hlong hpos hn
  rw [UnpackedFloat.ofScientific, dif_neg hpos.ne', if_neg (by norm_num),
    if_neg (by norm_num), if_pos le_rfl, UnpackedFloat.mul]
  have hmantissa : n <<< Format.binary64.mantissaBits * 10 ^ Int.toNat 0 = n * 2 ^ 53 := by
    rw [Int.toNat_zero, Nat.pow_zero, Nat.mul_one, Nat.shiftLeft_eq]
    rfl
  have hexponent : -(Format.binary64.mantissaBits : Int) + 0 = (51 : Nat) - 104 := rfl
  rw [hmantissa, hexponent]
  exact hround

/-- Every natural number up to the bound has an exact representation. -/
theorem ofNat {n : Nat} (hn : n ≤ exactBound) : Represents (Float.ofNat n) n := by
  change Represents (Float.ofScientific n false 0) n
  by_cases hlt : n < 2 ^ 53
  · have hproduct : Represents (n.toUInt64.toFloat * Float.ofBits 0x3FF0000000000000) (n * 1) :=
      (toFloat hlt).mul one (by simpa using hn)
    rw [Float.ofScientific, dif_pos ⟨hlt, Nat.zero_le 22⟩]
    rwa [mul_one] at hproduct
  · have hpos : 0 < n := by omega
    rw [Float.ofScientific, dif_neg fun h => hlt h.1]
    exact of_pack (holds_ofScientific hpos hn)

end Represents

end Calculator
