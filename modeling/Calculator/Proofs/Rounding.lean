import Mathlib

/-!
Rounding of whole numbers in binary floating point. A whole number of at most
`2 ^ 53` in magnitude has a significand of fifty-three bits, so rounding keeps
it, and sums, differences and products of such numbers are exact as long as they
are such numbers again. A zero may have either sign.
-/

namespace Calculator

open Float.Model Float.Model.UnpackedFloat

theorem log2_mul_two_pow {m : Nat} (hm : m ≠ 0) (d : Nat) :
    (m * 2 ^ d).log2 = m.log2 + d := by
  have hne : m * 2 ^ d ≠ 0 := Nat.mul_ne_zero hm (Nat.pos_iff_ne_zero.mp (Nat.two_pow_pos d))
  refine (Nat.log2_eq_iff hne).mpr ⟨?_, ?_⟩
  · rw [Nat.pow_add]
    exact Nat.mul_le_mul_right _ (Nat.log2_self_le hm)
  · rw [Nat.add_right_comm, Nat.pow_add]
    exact Nat.mul_lt_mul_of_pos_right Nat.lt_log2_self (Nat.two_pow_pos d)

theorem eq_mul_two_pow {m k a d : Nat} (h : m * 2 ^ a = k * 2 ^ (a + d)) : m = k * 2 ^ d := by
  rw [Nat.pow_add, Nat.mul_comm (2 ^ a), ← Nat.mul_assoc] at h
  exact Nat.mul_right_cancel (Nat.two_pow_pos a) h

theorem pos_of_log2 {k : Nat} (hk : k.log2 = 52) : 0 < k := by
  rcases Nat.eq_zero_or_pos k with rfl | hpos
  · simp at hk
  · exact hpos

/-- Two ways of writing one number have its leading bit at one place. -/
theorem log2_add_eq {m k a b : Nat} (hk : k.log2 = 52) (h : m * 2 ^ a = k * 2 ^ b) :
    m.log2 + a = 52 + b := by
  have hk0 : k ≠ 0 := (pos_of_log2 hk).ne'
  have hm : m ≠ 0 := by
    rintro rfl
    simp [hk0] at h
  rw [← hk, ← log2_mul_two_pow hm, ← log2_mul_two_pow hk0, h]

/-- The significand and the exponent of a whole number. The significand has its
leading bit in front of fifty-two others. -/
theorem exists_significand {n : Nat} (hpos : 0 < n) (hn : n ≤ 2 ^ 53) :
    ∃ k q, k.log2 = 52 ∧ q ≤ 53 ∧ k * 2 ^ q = n * 2 ^ 52 := by
  have hne : n ≠ 0 := Nat.pos_iff_ne_zero.mp hpos
  rcases Nat.lt_or_eq_of_le hn with hlt | rfl
  · have hq : n.log2 ≤ 52 := Nat.lt_succ_iff.mp ((Nat.log2_lt hne).mpr hlt)
    refine ⟨n * 2 ^ (52 - n.log2), n.log2, ?_, by omega, ?_⟩
    · rw [log2_mul_two_pow hne]
      omega
    · rw [Nat.mul_assoc, ← Nat.pow_add, Nat.sub_add_cancel hq]
  · exact ⟨2 ^ 52, 53, Nat.log2_two_pow, by omega, by norm_num⟩

theorem shiftRight_mul_two_pow (k d : Nat) :
    (⟨k * 2 ^ d, false, false⟩ : ExtendedMantissa) >>> d = ⟨k, false, false⟩ := by
  change Nat.repeat ExtendedMantissa.shiftRightOne d ⟨k * 2 ^ d, false, false⟩ = _
  induction d generalizing k with
  | zero => simp [Nat.repeat]
  | succ d ih =>
      have hsplit : k * 2 ^ (d + 1) = (k * 2) * 2 ^ d := by ring
      rw [Nat.repeat, hsplit, ih]
      simp [ExtendedMantissa.shiftRightOne]

theorem shiftToTargetExponent_eq {k d : Nat} {e : Int} (hk : k.log2 = 52)
    (he : -1074 ≤ e + d) :
    shiftToTargetExponent Format.binary64 (k * 2 ^ d) e .exact = (⟨k, false, false⟩, e + d) := by
  have hk0 : k ≠ 0 := (pos_of_log2 hk).ne'
  have hshift : (Format.binary64.targetExponent (totalExponent (k * 2 ^ d) e) - e).toNat = d := by
    rw [Format.targetExponent, totalExponent, log2_mul_two_pow hk0, hk]
    simp only [Format.mantissaBits, Format.minExponent]
    norm_num
    omega
  rw [shiftToTargetExponent, shiftToExponent, hshift]
  exact congrArg (·, e + (d : Int)) (shiftRight_mul_two_pow k d)

theorem roundWithAccuracy_eq {k d : Nat} {e : Int} (s : Sign) (hk : k.log2 = 52)
    (he : -1074 ≤ e + d) (hpos : 0 < k) :
    roundWithAccuracy Format.binary64 s (k * 2 ^ d) e .exact = .finite s k (e + d) hpos := by
  have hfinal := @shiftToTargetExponent_eq k 0 (e + d) hk (by simpa using he)
  rw [Nat.pow_zero, Nat.mul_one] at hfinal
  rw [roundWithAccuracy, shiftToTargetExponent_eq hk he]
  simp only [ExtendedMantissa.roundedMantissa, ExtendedMantissa.accuracy,
    Accuracy.roundToNearestEven, hfinal]
  simp [Nat.pos_iff_ne_zero.mp hpos]

theorem decreaseExponent_of_le {e target : Int} (h : e ≤ target) (m : Nat) :
    decreaseExponent m e target = (m, e) := by
  have hshift : (e - target).toNat = 0 := by omega
  rw [decreaseExponent, hshift, Nat.shiftLeft_zero, Nat.cast_zero, sub_zero]

theorem decreaseExponent_of_sub {e target : Int} {d : Nat} (h : e - target = d) (m : Nat) :
    decreaseExponent m e target = (m * 2 ^ d, target) := by
  have hshift : (e - target).toNat = d := by omega
  have htarget : e - d = target := by omega
  rw [decreaseExponent, hshift, Nat.shiftLeft_eq, htarget]

/-- Rounding keeps a number that has a significand of its size: `m * 2 ^ e` where
`m * 2 ^ a` is `k * 2 ^ b`. -/
theorem round_eq {m k a b : Nat} {e : Int} (s : Sign) (hk : k.log2 = 52)
    (h : m * 2 ^ a = k * 2 ^ b) (he : -1074 ≤ e + b - a) (hpos : 0 < k) :
    UnpackedFloat.round Format.binary64 s m e = .finite s k (e + b - a) hpos := by
  have hlog : m.log2 + a = 52 + b := log2_add_eq hk h
  have htarget : Format.binary64.targetExponent (totalExponent m e) = e + b - a := by
    rw [Format.targetExponent, totalExponent]
    simp only [Format.mantissaBits, Format.minExponent]
    norm_num
    omega
  rw [UnpackedFloat.round, htarget]
  -- `m` is `k` with zeros behind it, which are shifted out, or it lacks zeros that
  -- `k` has, which are shifted in before the rounding.
  rcases Nat.le_total a b with hab | hba
  · obtain ⟨d, rfl⟩ := Nat.exists_eq_add_of_le hab
    have hm : m = k * 2 ^ d := eq_mul_two_pow h
    have hexponent : e + ((a + d : Nat) : Int) - a = e + d := by omega
    rw [decreaseExponent_of_le (by omega), hexponent, hm]
    exact roundWithAccuracy_eq s hk (by omega) hpos
  · obtain ⟨d, rfl⟩ := Nat.exists_eq_add_of_le hba
    have hm : m * 2 ^ d = k := (eq_mul_two_pow h.symm).symm
    have hshift : e - (e + b - ((b + d : Nat) : Int)) = d := by omega
    have hround := @roundWithAccuracy_eq k 0 (e + b - ((b + d : Nat) : Int)) s hk
      (by omega) hpos
    rw [Nat.pow_zero, Nat.mul_one, Nat.cast_zero, add_zero] at hround
    rw [decreaseExponent_of_sub hshift, hm]
    exact hround

def exactBound : Nat := Nat.pow 2 53

/-- An unpacked number that is a whole number: a zero, or a number with a
significand of full length. -/
inductive Holds : UnpackedFloat → Int → Prop where
  | zero (s : Sign) : Holds (.zero s) 0
  | finite {s : Sign} {k q : Nat} {n : Int} (hpos : 0 < k) (hk : k.log2 = 52) (hq : q ≤ 53)
      (h : s.apply k * 2 ^ q = n * 2 ^ 52) : Holds (.finite s k (q - 52) hpos) n

theorem sign_apply_mul (s : Sign) (a b : Int) : s.apply a * b = s.apply (a * b) := by
  cases s <;> simp [Sign.apply]

theorem sign_apply_neg (s : Sign) (a : Int) : (-s).apply a = -s.apply a := by
  cases s with
  | negative => exact (neg_neg a).symm
  | positive => rfl

theorem sign_mul_apply (s t : Sign) (a b : Int) :
    (s * t).apply (a * b) = s.apply a * t.apply b := by
  cases s with
  | negative =>
      cases t with
      | negative => exact (neg_mul_neg a b).symm
      | positive => exact (neg_mul a b).symm
  | positive =>
      cases t with
      | negative => exact (mul_neg a b).symm
      | positive => rfl

/-- The magnitude and the sign of a number that is written with a sign. -/
theorem eq_of_sign_apply {s : Sign} {a c : Nat} {n : Int} (hc : 0 < c)
    (h : s.apply a = n * c) : a = n.natAbs * c ∧ s.apply n.natAbs = n := by
  have hscale : (0 : Int) < c := by exact_mod_cast hc
  cases s with
  | negative =>
      change -(a : Int) = n * c at h
      have hn : n ≤ 0 := nonpos_of_mul_nonpos_left (by omega) hscale
      have habs : (n.natAbs : Int) = -n := by omega
      constructor
      · zify
        rw [abs_of_nonpos hn, neg_mul, ← h, neg_neg]
      · change -(n.natAbs : Int) = n
        rw [habs, neg_neg]
  | positive =>
      change (a : Int) = n * c at h
      have hn : 0 ≤ n := nonneg_of_mul_nonneg_left (by omega) hscale
      constructor
      · zify
        rw [abs_of_nonneg hn, h]
      · exact Int.natAbs_of_nonneg hn

/-- A significand may be written with a smaller exponent. -/
theorem sign_apply_scale (s : Sign) (k : Nat) {p q d : Nat} (h : q = p + d) :
    s.apply (k * 2 ^ d : Nat) * 2 ^ p = s.apply k * 2 ^ q := by
  rw [sign_apply_mul, sign_apply_mul, h]
  congr 1
  push_cast
  ring

theorem Holds.of_significand {k q n : Nat} (s : Sign) (hk : k.log2 = 52) (hq : q ≤ 53)
    (h : k * 2 ^ q = n * 2 ^ 52) :
    Holds (.finite s k (q - 52) (pos_of_log2 hk)) (s.apply n) := by
  refine .finite (pos_of_log2 hk) hk hq ?_
  rw [sign_apply_mul, sign_apply_mul]
  exact congrArg s.apply (by exact_mod_cast h)

/-- Rounding keeps a whole number. -/
theorem holds_round {m p n : Nat} (s : Sign) (h : m * 2 ^ p = n * 2 ^ 52) (hpos : 0 < n)
    (hn : n ≤ exactBound) :
    Holds (UnpackedFloat.round Format.binary64 s m (p - 52)) (s.apply n) := by
  obtain ⟨k, q, hk, hq, hvalue⟩ := exists_significand hpos hn
  have hexponent : (p : Int) - 52 + q - p = q - 52 := by omega
  have hround := @round_eq m k p q ((p : Int) - 52) s hk (h.trans hvalue.symm) (by omega)
    (pos_of_log2 hk)
  simp only [hexponent] at hround
  rw [hround]
  exact .of_significand s hk hq hvalue

/-- So it does where there are twice as many bits, as in a product. -/
theorem holds_roundWithAccuracy {m a n : Nat} (s : Sign) (h : m * 2 ^ a = n * 2 ^ 52 * 2 ^ 52)
    (hlong : 52 ≤ m.log2) (hpos : 0 < n) (hn : n ≤ exactBound) :
    Holds (roundWithAccuracy Format.binary64 s m (a - 104) .exact) (s.apply n) := by
  obtain ⟨k, q, hk, hq, hvalue⟩ := exists_significand hpos hn
  have hwhole : m * 2 ^ a = k * 2 ^ (q + 52) := by
    rw [h, ← hvalue, Nat.pow_add, Nat.mul_assoc]
  have hlog : m.log2 + a = 52 + (q + 52) := log2_add_eq hk hwhole
  obtain ⟨d, hd⟩ := Nat.exists_eq_add_of_le (show a ≤ q + 52 by omega)
  have hm : m = k * 2 ^ d := eq_mul_two_pow (hd ▸ hwhole)
  have hexponent : (a : Int) - 104 + d = q - 52 := by omega
  have hround := @roundWithAccuracy_eq k d ((a : Int) - 104) s hk (by omega) (pos_of_log2 hk)
  simp only [hexponent] at hround
  rw [hm, hround]
  exact .of_significand s hk hq hvalue

theorem holds_normalize {m n : Int} {p : Nat} (h : m * 2 ^ p = n * 2 ^ 52)
    (hn : n.natAbs ≤ exactBound) :
    Holds (UnpackedFloat.normalize Format.binary64 m (p - 52) .positive) n := by
  have hscale : (0 : Int) < 2 ^ p := by positivity
  have hnat : m.natAbs * 2 ^ p = n.natAbs * 2 ^ 52 := by
    have habs := congrArg Int.natAbs h
    rwa [Int.natAbs_mul, Int.natAbs_mul, Int.natAbs_pow, Int.natAbs_pow] at habs
  rw [UnpackedFloat.normalize]
  rcases lt_trichotomy m 0 with hm | rfl | hm
  · have hproduct : m * 2 ^ p < 0 := mul_neg_of_neg_of_pos hm hscale
    have hmagnitude : (-m).toNat = m.natAbs := by omega
    have hsign : Sign.negative.apply n.natAbs = n := by
      rw [Sign.apply]
      omega
    rw [compare_lt_iff_lt.mpr hm, hmagnitude]
    exact hsign ▸ holds_round .negative hnat (by omega) hn
  · have hzero : n = 0 := by omega
    rw [compare_eq_iff_eq.mpr rfl, hzero]
    exact .zero .positive
  · have hproduct : 0 < m * 2 ^ p := mul_pos hm hscale
    have hmagnitude : m.toNat = m.natAbs := by omega
    have hsign : Sign.positive.apply n.natAbs = n := by
      rw [Sign.apply]
      omega
    rw [compare_gt_iff_gt.mpr hm, hmagnitude]
    exact hsign ▸ holds_round .positive hnat (by omega) hn

theorem Holds.neg {f : UnpackedFloat} {n : Int} (h : Holds f n) : Holds f.neg (-n) := by
  cases h with
  | zero s =>
      rw [neg_zero]
      exact .zero (-s)
  | @finite s k q n hpos hk hq h =>
      refine .finite hpos hk hq ?_
      rw [sign_apply_neg, neg_mul, neg_mul, h]

theorem Holds.add {f g : UnpackedFloat} {n m : Int} (hf : Holds f n) (hg : Holds g m)
    (hbound : (n + m).natAbs ≤ exactBound) :
    Holds (UnpackedFloat.add Format.binary64 f g) (n + m) := by
  cases hf with
  | zero s =>
      cases hg with
      | zero t =>
          rw [UnpackedFloat.add]
          split
          · exact .zero s
          · exact .zero .positive
      | finite hpos hk hq h =>
          rw [zero_add]
          exact .finite hpos hk hq h
  | @finite s k q n hpos hk hq hfirst =>
      cases hg with
      | zero t =>
          rw [add_zero]
          exact .finite hpos hk hq hfirst
      | @finite t j r m hpos' hj hr hsecond =>
          obtain ⟨d, hd⟩ := Nat.exists_eq_add_of_le (Nat.min_le_left q r)
          obtain ⟨c, hc⟩ := Nat.exists_eq_add_of_le (Nat.min_le_right q r)
          have hmin : min ((q : Int) - 52) ((r : Int) - 52) = (min q r : Nat) - 52 := by omega
          have hvalue : (s.apply (k * 2 ^ d : Nat) + t.apply (j * 2 ^ c : Nat)) * 2 ^ (min q r) =
              (n + m) * 2 ^ 52 := by
            rw [add_mul, add_mul, sign_apply_scale s k hd, sign_apply_scale t j hc, hfirst, hsecond]
          change Holds (UnpackedFloat.normalize Format.binary64
            (s.apply (decreaseExponent k _ _).1 + t.apply (decreaseExponent j _ _).1) _ _) _
          rw [hmin, decreaseExponent_of_sub (by omega : (q : Int) - 52 - _ = d),
            decreaseExponent_of_sub (by omega : (r : Int) - 52 - _ = c)]
          exact holds_normalize hvalue hbound

theorem unpackedSub_eq (f g : UnpackedFloat) :
    UnpackedFloat.sub Format.binary64 f g = UnpackedFloat.add Format.binary64 f g.neg := by
  cases f with
  | finite s k e hk =>
      cases g with
      | finite t j d hj =>
          change UnpackedFloat.normalize _ (_ - _) _ _ = UnpackedFloat.normalize _ (_ + _) _ _
          rw [sign_apply_neg, ← Int.sub_eq_add_neg]
      | _ => rfl
  | _ => cases g <;> rfl

theorem Holds.sub {f g : UnpackedFloat} {n m : Int} (hf : Holds f n) (hg : Holds g m)
    (hbound : (n - m).natAbs ≤ exactBound) :
    Holds (UnpackedFloat.sub Format.binary64 f g) (n - m) := by
  rw [unpackedSub_eq, sub_eq_add_neg]
  exact hf.add hg.neg (by rwa [← sub_eq_add_neg])

/-- The product of two significands is rounded to the significand of the product. -/
theorem holds_product {s t : Sign} {k j q r : Nat} {n m : Int} (hk : k.log2 = 52)
    (hj : j.log2 = 52) (hfirst : s.apply k * 2 ^ q = n * 2 ^ 52)
    (hsecond : t.apply j * 2 ^ r = m * 2 ^ 52) (hbound : (n * m).natAbs ≤ exactBound) :
    Holds (roundWithAccuracy Format.binary64 (s * t) (k * j) ((q - 52) + (r - 52)) .exact)
      (n * m) := by
  have hproduct : (s * t).apply (k * j * 2 ^ (q + r) : Nat) = n * m * (2 ^ 52 * 2 ^ 52 : Nat) := by
    push_cast
    rw [← sign_apply_mul, sign_mul_apply, pow_add, mul_mul_mul_comm, hfirst, hsecond]
    ring
  obtain ⟨hnat, hsign⟩ := eq_of_sign_apply (by norm_num) hproduct
  rw [← Nat.mul_assoc _ (2 ^ 52)] at hnat
  have hpositive : 0 < k * j := Nat.mul_pos (pos_of_log2 hk) (pos_of_log2 hj)
  have hne : 0 < (n * m).natAbs := by
    rcases Nat.eq_zero_or_pos (n * m).natAbs with hzero | hne
    · rw [hzero, Nat.zero_mul, Nat.zero_mul] at hnat
      exact absurd hnat (Nat.mul_pos hpositive (Nat.two_pow_pos (q + r))).ne'
    · exact hne
  have hlong : 52 ≤ (k * j).log2 := by
    rw [Nat.le_log2 hpositive.ne']
    have hk52 : 2 ^ 52 ≤ k := hk ▸ Nat.log2_self_le (pos_of_log2 hk).ne'
    exact hk52.trans (Nat.le_mul_of_pos_right k (pos_of_log2 hj))
  have hexponent : ((q : Int) - 52) + ((r : Int) - 52) = (q + r : Nat) - 104 := by omega
  rw [hexponent]
  exact hsign ▸ holds_roundWithAccuracy (s * t) hnat hlong hne hbound

theorem Holds.mul {f g : UnpackedFloat} {n m : Int} (hf : Holds f n) (hg : Holds g m)
    (hbound : (n * m).natAbs ≤ exactBound) :
    Holds (UnpackedFloat.mul Format.binary64 f g) (n * m) := by
  cases hf with
  | zero s =>
      rw [zero_mul]
      cases hg with
      | zero t => exact .zero (s * t)
      | finite => exact .zero (s * _)
  | @finite s k q n hpos hk hq hfirst =>
      cases hg with
      | zero t =>
          rw [mul_zero]
          exact .zero (s * t)
      | finite hpos' hj hr hsecond => exact holds_product hk hj hfirst hsecond hbound

end Calculator
