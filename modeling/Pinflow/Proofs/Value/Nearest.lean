import Mathlib
import Pinflow.Condition
import Pinflow.Proofs.Value.Shape

/-!
# Integers compared through floats

Two numbers are compared through the floats they stand for. The float of an integer of 64 bits is
worth `nearestInt` of it, the nearest integer with at most 53 significant bits. So integers are
compared exactly as long as they are equal or their floats differ, `comparison_exact_iff_apart`,
and else they are taken for equal.
-/

namespace Pinflow

open Float.Model (Format UnpackedFloat totalExponent)
open Float.Model.UnpackedFloat
open Value (Fits)

variable {k n n' m m' v v' : Nat} {e e' : Int}

/-- A number in units of `2 ^ k`, rounded to the nearest and from the middle to the even one. -/
def halfEven (k n : Nat) : Nat :=
  n / 2 ^ k +
    if 2 * (n % 2 ^ k) < 2 ^ k then 0 else if 2 * (n % 2 ^ k) = 2 ^ k then n / 2 ^ k % 2 else 1

/-- The number with at most 53 significant bits that is nearest to a number. -/
def nearest (n : Nat) : Nat := halfEven (n.log2 - 52) n * 2 ^ (n.log2 - 52)

def nearestInt (i : Int) : Int := if 0 ≤ i then nearest i.toNat else -(nearest (-i).toNat)

theorem halfEven_mono (le : n ≤ n') : halfEven k n ≤ halfEven k n' := by
  have below := Nat.mod_lt n (Nat.two_pow_pos k)
  rw [halfEven, halfEven]
  rcases Nat.eq_or_lt_of_le (Nat.div_le_div_right (c := 2 ^ k) le) with same | less
  · have order : n % 2 ^ k ≤ n' % 2 ^ k := by
      have parts := Nat.div_add_mod n (2 ^ k)
      have parts' := Nat.div_add_mod n' (2 ^ k)
      rw [same] at parts
      omega
    rw [same]
    split_ifs <;> omega
  · split_ifs <;> omega

theorem halfEven_bounds (large : 52 ≤ n.log2) :
    2 ^ 52 ≤ halfEven (n.log2 - 52) n ∧ halfEven (n.log2 - 52) n ≤ 2 ^ 53 := by
  have floor : 2 ^ 52 ≤ n / 2 ^ (n.log2 - 52) := by
    rw [Nat.le_div_iff_mul_le (Nat.two_pow_pos _), ← Nat.pow_add, Nat.add_sub_cancel' large]
    exact Nat.log2_self_le (by rintro rfl; cases large)
  have ceiling : n / 2 ^ (n.log2 - 52) < 2 ^ 53 := by
    rw [Nat.div_lt_iff_lt_mul (Nat.two_pow_pos _), ← Nat.pow_add,
      show 53 + (n.log2 - 52) = n.log2 + 1 by omega]
    exact Nat.lt_log2_self
  rw [halfEven]
  split_ifs <;> omega

theorem halfEven_zero (n : Nat) : halfEven 0 n = n := by simp [halfEven, Nat.mod_one]

theorem nearest_of_log (small : n.log2 ≤ 52) : nearest n = n := by
  rw [nearest, Nat.sub_eq_zero_of_le small, halfEven_zero, pow_zero, Nat.mul_one]

theorem nearest_of_le (small : n ≤ 2 ^ 53) : nearest n = n := by
  rcases Nat.lt_or_eq_of_le small with less | rfl
  · rcases Nat.eq_zero_or_pos n with rfl | pos
    · rfl
    · exact nearest_of_log (Nat.lt_succ_iff.mp ((Nat.log2_lt (by omega)).mpr less))
  · rw [nearest, Nat.log2_two_pow]
    decide

theorem nearest_bounds (pos : 0 < n) : 2 ^ n.log2 ≤ nearest n ∧ nearest n ≤ 2 ^ (n.log2 + 1) := by
  rcases Nat.le_total n.log2 52 with small | large
  · rw [nearest_of_log small]
    exact ⟨Nat.log2_self_le (by omega), Nat.lt_log2_self.le⟩
  · obtain ⟨floor, ceiling⟩ := halfEven_bounds large
    constructor
    · calc 2 ^ n.log2 = 2 ^ 52 * 2 ^ (n.log2 - 52) := by rw [← pow_add, Nat.add_sub_cancel' large]
        _ ≤ nearest n := Nat.mul_le_mul_right _ floor
    · calc nearest n ≤ 2 ^ 53 * 2 ^ (n.log2 - 52) := Nat.mul_le_mul_right _ ceiling
        _ = 2 ^ (n.log2 + 1) := by rw [← pow_add]; congr 1; omega

theorem nearest_mono (le : n ≤ n') : nearest n ≤ nearest n' := by
  rcases Nat.eq_zero_or_pos n with rfl | pos
  · exact Nat.zero_le _
  have logs : n.log2 ≤ n'.log2 :=
    (Nat.le_log2 (by omega)).mpr ((Nat.log2_self_le (by omega)).trans le)
  rcases Nat.eq_or_lt_of_le logs with same | less
  · rw [nearest, nearest, same]
    exact Nat.mul_le_mul_right _ (halfEven_mono le)
  · calc nearest n ≤ 2 ^ (n.log2 + 1) := (nearest_bounds pos).2
      _ ≤ 2 ^ n'.log2 := Nat.pow_le_pow_right (by decide) less
      _ ≤ nearest n' := (nearest_bounds (by omega)).1

theorem nearestInt_mono {a b : Int} (le : a ≤ b) : nearestInt a ≤ nearestInt b := by
  rw [nearestInt, nearestInt]
  split_ifs with nonneg nonneg'
  · exact Int.ofNat_le.mpr (nearest_mono (by omega))
  · omega
  · omega
  · have negated := @nearest_mono (-b).toNat (-a).toNat (by omega)
    omega

theorem nearestInt_of_le {i : Int} (small : i.natAbs ≤ 2 ^ 53) : nearestInt i = i := by
  rw [nearestInt, nearest_of_le (by omega), nearest_of_le (by omega)]
  split_ifs <;> omega

theorem shift_eq (k n : Nat) : (⟨n, false, false⟩ : ExtendedMantissa) >>> k =
    ⟨n / 2 ^ k, 2 ^ k ≤ 2 * (n % 2 ^ k), n % 2 ^ k ≠ 0 ∧ 2 * (n % 2 ^ k) ≠ 2 ^ k⟩ := by
  induction k with
  | zero => simp [HShiftRight.hShiftRight, Nat.repeat, Nat.mod_one]
  | succ k ih =>
    change ExtendedMantissa.shiftRightOne ((⟨n, false, false⟩ : ExtendedMantissa) >>> k) = _
    have left : n % 2 ^ k < 2 ^ k := Nat.mod_lt n (Nat.two_pow_pos k)
    have cut : n % 2 ^ (k + 1) = n % 2 ^ k + 2 ^ k * (n / 2 ^ k % 2) := Nat.mod_pow_succ
    rw [ih, ExtendedMantissa.shiftRightOne, cut, Nat.pow_succ, ← Nat.div_div_eq_div_mul]
    generalize 2 ^ k = unit at *
    rcases Nat.mod_two_eq_zero_or_one (n / unit) with bit | bit <;> simp [bit] <;> grind

theorem roundedMantissa_eq (k n : Nat) :
    ((⟨n, false, false⟩ : ExtendedMantissa) >>> k).roundedMantissa = halfEven k n := by
  rw [shift_eq, halfEven]
  have left : n % 2 ^ k < 2 ^ k := Nat.mod_lt n (Nat.two_pow_pos k)
  generalize n / 2 ^ k = q, n % 2 ^ k = r, 2 ^ k = unit at *
  by_cases up : unit ≤ 2 * r <;> by_cases tie : 2 * r = unit <;> by_cases r = 0 <;>
    simp_all [ExtendedMantissa.roundedMantissa, ExtendedMantissa.accuracy,
      Accuracy.roundToNearestEven] <;> grind

/-- The floats that integers of 64 bits are converted to, with their values: zero, or a full
mantissa of 53 bits with an exponent far from both ends. -/
inductive Denotes : UnpackedFloat → Int → Prop
  | zero (sign : Sign) : Denotes (.zero sign) 0
  | finite {sign m e pos} {v : Nat} (full : 2 ^ 52 ≤ m) (fits : m < 2 ^ 53) (low : -52 ≤ e)
      (high : e ≤ 12) (same : v * 2 ^ 52 = m * 2 ^ (e + 52).toNat) :
      Denotes (.finite sign m e pos) (sign.apply v)

theorem target_eq (m : Nat) (low : -52 ≤ e) :
    Format.binary64.targetExponent (totalExponent m e) = m.log2 + e - 52 := by
  simp only [Format.targetExponent, totalExponent, Format.mantissaBits, Format.minExponent]
  omega

theorem shiftToTarget_eq (low : -52 ≤ e) : shiftToTargetExponent Format.binary64 m e .exact =
    ((⟨m, false, false⟩ : ExtendedMantissa) >>> (m.log2 - 52), e + (m.log2 - 52 : Nat)) := by
  have amount : ((m.log2 : Int) + e - 52 - e).toNat = m.log2 - 52 := by omega
  rw [shiftToTargetExponent, target_eq m low]
  simp only [shiftToExponent, ExtendedMantissa.ofMantissaAndAccuracy, amount]

/-- A rounding may carry into one bit more. The last bit is zero then and is shifted out. -/
theorem denotes_of_rounded (full : 2 ^ 52 ≤ m) (fits : m ≤ 2 ^ 53) (low : -52 ≤ e) (high : e ≤ 11)
    (same : v * 2 ^ 52 = m * 2 ^ (e + 52).toNat) :
    let final := shiftToTargetExponent Format.binary64 m e .exact
    Denotes (if none : final.1.mantissa = 0 then .zero .positive
      else .finite .positive final.1.mantissa final.2 (Nat.pos_of_ne_zero none)) v := by
  simp only [shiftToTarget_eq low, shift_eq]
  rcases Nat.lt_or_eq_of_le fits with less | rfl
  · have log : m.log2 = 52 := (Nat.log2_eq_iff (by omega)).mpr ⟨full, less⟩
    simp only [log, Nat.sub_self, Nat.pow_zero, Nat.div_one]
    rw [dif_neg (by omega)]
    exact .finite full less (by omega) (by omega) (by simpa using same)
  · simp only [Nat.log2_two_pow]
    rw [dif_neg (by decide)]
    refine .finite (by decide) (by decide) (by omega) (by omega) ?_
    rw [same, show (e + (53 - 52 : Nat) + 52).toNat = (e + 52).toNat + 1 by omega, Nat.pow_succ]
    omega

theorem denotes_roundWithAccuracy (low : -52 ≤ e) (large : 52 ≤ m.log2) (high : m.log2 + e ≤ 63)
    (same : v * 2 ^ 52 = halfEven (m.log2 - 52) m * 2 ^ (m.log2 + e).toNat) :
    Denotes (roundWithAccuracy Format.binary64 .positive m e .exact) v := by
  obtain ⟨floor, ceiling⟩ := halfEven_bounds large
  rw [roundWithAccuracy, shiftToTarget_eq low]
  simp only [roundedMantissa_eq]
  refine denotes_of_rounded floor ceiling (by omega) (by omega) ?_
  rw [same, show e + (m.log2 - 52 : Nat) + 52 = m.log2 + e by omega]

theorem log_scaled (pos : 0 < n) (small : n.log2 ≤ 52) : (n * 2 ^ (52 - n.log2)).log2 = 52 := by
  refine (Nat.log2_eq_iff (Nat.mul_ne_zero (by omega) (Nat.two_pow_pos _).ne')).mpr ⟨?_, ?_⟩
  · calc 2 ^ 52 = 2 ^ n.log2 * 2 ^ (52 - n.log2) := by rw [← pow_add, Nat.add_sub_cancel' small]
      _ ≤ _ := Nat.mul_le_mul_right _ (Nat.log2_self_le (by omega))
  · calc n * 2 ^ (52 - n.log2) < 2 ^ (n.log2 + 1) * 2 ^ (52 - n.log2) :=
        Nat.mul_lt_mul_of_pos_right Nat.lt_log2_self (Nat.two_pow_pos _)
      _ = 2 ^ 53 := by rw [← pow_add]; congr 1; omega

theorem denotes_round (pos : 0 < n) (fits : n < 2 ^ 64) :
    Denotes (UnpackedFloat.round Format.binary64 .positive n 0) (nearest n) := by
  have big : n.log2 < 64 := (Nat.log2_lt (by omega)).mpr fits
  rw [UnpackedFloat.round, target_eq n (by decide)]
  simp only [decreaseExponent]
  rcases Nat.le_total n.log2 52 with small | large
  · have amount : (0 - ((n.log2 : Int) + 0 - 52)).toNat = 52 - n.log2 := by omega
    have log := log_scaled pos small
    rw [amount, Nat.shiftLeft_eq, nearest_of_log small]
    refine denotes_roundWithAccuracy (by omega) (by omega) (by omega) ?_
    rw [log, show ((52 : Nat) + (0 - ((52 - n.log2 : Nat) : Int))).toNat = n.log2 by omega,
      halfEven_zero, Nat.mul_assoc, ← pow_add, Nat.sub_add_cancel small]
  · have amount : (0 - ((n.log2 : Int) + 0 - 52)).toNat = 0 := by omega
    rw [amount, Nat.shiftLeft_zero]
    refine denotes_roundWithAccuracy (by omega) (by omega) (by omega) ?_
    rw [show ((n.log2 : Int) + (0 - (0 : Nat))).toNat = n.log2 - 52 + 52 by omega, nearest,
      Nat.mul_assoc, ← pow_add]

theorem denotes_ofNat (fits : n < 2 ^ 64) : Denotes (ofNat Format.binary64 n) (nearest n) := by
  rcases Nat.eq_zero_or_pos n with rfl | pos
  · exact .zero _
  have positive : compare (n : Int) 0 = .gt := compare_gt_iff_gt.mpr (by omega)
  rw [ofNat, ofInt, UnpackedFloat.normalize, positive]
  exact denotes_round pos fits

namespace Denotes

variable {u u' : UnpackedFloat} {a b : Int}

/-- Such a float is read back from its packed form, which leaves out the first bit. -/
theorem unpack_pack (denotes : Denotes u a) : (Float.Model.pack u).unpack = u := by
  cases denotes with
  | zero => exact unpack_packedZero
  | @finite sign m e pos _ full fits low high =>
    have log : m.log2 = 52 := (Nat.log2_eq_iff (by omega)).mpr ⟨full, fits⟩
    have whole : (1#1 ++ BitVec.ofNat 52 m).toNat = m := by
      rw [BitVec.toNat_append, ← Nat.shiftLeft_add_eq_or_of_lt (BitVec.isLt _), BitVec.toNat_ofNat,
        Nat.shiftLeft_eq, BitVec.toNat_ofNat]
      have first : m / 2 ^ 52 = 1 := by omega
      have parts := Nat.div_add_mod m (2 ^ 52)
      rwa [first] at parts
    have bias : Format.binary64.exponentBias = 1023 := rfl
    obtain ⟨field, biased⟩ : ∃ field, (e + (1023 : Nat) + (52 : Nat)).toNat = field := ⟨_, rfl⟩
    have number : (BitVec.ofNat 11 field).toNat = field := by
      rw [BitVec.toNat_ofNat, Nat.mod_eq_of_lt (by omega)]
    have inside (last : BitVec 11) (apart : last.toNat ≠ field) : BitVec.ofNat 11 field ≠ last := by
      rintro rfl
      exact apart number
    have packed : pack Format.binary64 (.finite sign m e pos) =
        packComponents Format.binary64 sign (BitVec.ofNat 11 field) (BitVec.ofNat 52 m) := by
      simp only [pack, bias, biased]
      rw [if_neg (by omega), if_pos (by rw [log]; rfl)]
    change unpack Format.binary64 (pack Format.binary64 _) = _
    rw [packed, unpack]
    simp only [unpackMantissa_packComponents, unpackExponent_packComponents,
      unpackSign_packComponents, Sign.ofBitVec_toBitVec, whole, number, bias]
    rw [if_neg (inside _ (by change 2047 ≠ field; omega)),
      if_neg (inside _ (by change 0 ≠ field; omega))]
    congr 1
    omega

theorem neg (denotes : Denotes u a) : Denotes u.neg (-a) := by
  cases denotes with
  | zero sign => exact .zero (-sign)
  | @finite sign _ _ _ v full fits low high same =>
    have flipped : -sign.apply v = (-sign).apply v := by
      cases sign
      · exact Int.neg_neg _
      · rfl
    rw [flipped]
    exact .finite full fits low high same

theorem scaled_lt {e e' : Nat} (fits : m < 2 ^ 53) (full : 2 ^ 52 ≤ m') (less : e < e') :
    m * 2 ^ e < m' * 2 ^ e' := by
  calc m * 2 ^ e < 2 ^ 53 * 2 ^ e := Nat.mul_lt_mul_of_pos_right fits (Nat.two_pow_pos e)
    _ = 2 ^ 52 * 2 ^ (e + 1) := by rw [← pow_add, ← pow_add]; congr 1; omega
    _ ≤ m' * 2 ^ e' := Nat.mul_le_mul full (Nat.pow_le_pow_right (by decide) less)

/-- Of full mantissas the exponents decide first. -/
theorem compare_scaled (full : 2 ^ 52 ≤ m) (fits : m < 2 ^ 53) (low : -52 ≤ e)
    (same : v * 2 ^ 52 = m * 2 ^ (e + 52).toNat) (full' : 2 ^ 52 ≤ m') (fits' : m' < 2 ^ 53)
    (low' : -52 ≤ e') (same' : v' * 2 ^ 52 = m' * 2 ^ (e' + 52).toNat) :
    (compare e e').then (compare m m') = compare (v : Int) v' := by
  rcases lt_trichotomy e e' with less | rfl | more
  · have scaled := scaled_lt fits full' (by omega : (e + 52).toNat < (e' + 52).toNat)
    rw [compare_lt_iff_lt.mpr less, compare_lt_iff_lt.mpr (by omega : (v : Int) < v')]
    rfl
  · have scale := Nat.two_pow_pos (e + 52).toNat
    rw [compare_eq_iff_eq.mpr rfl]
    rcases lt_trichotomy m m' with less | rfl | more
    · have scaled := Nat.mul_lt_mul_of_pos_right less scale
      exact (compare_lt_iff_lt.mpr less).trans (compare_lt_iff_lt.mpr (by omega)).symm
    · exact (compare_eq_iff_eq.mpr rfl).trans (compare_eq_iff_eq.mpr (by omega)).symm
    · have scaled := Nat.mul_lt_mul_of_pos_right more scale
      exact (compare_gt_iff_gt.mpr more).trans (compare_gt_iff_gt.mpr (by omega)).symm
  · have scaled := scaled_lt fits' full (by omega : (e' + 52).toNat < (e + 52).toNat)
    rw [compare_gt_iff_gt.mpr more, compare_gt_iff_gt.mpr (by omega : (v' : Int) < v)]
    rfl

theorem compare_neg (a b : Int) : compare (-a) (-b) = (compare a b).swap := by
  rcases lt_trichotomy a b with less | rfl | more
  · rw [compare_lt_iff_lt.mpr less]
    exact compare_gt_iff_gt.mpr (by omega)
  · rw [compare_eq_iff_eq.mpr rfl, compare_eq_iff_eq.mpr rfl]
    rfl
  · rw [compare_gt_iff_gt.mpr more]
    exact compare_lt_iff_lt.mpr (by omega)

theorem value_pos (full : 2 ^ 52 ≤ m) (same : v * 2 ^ 52 = m * 2 ^ k) : 0 < v := by
  have some : 0 < m * 2 ^ k := Nat.mul_pos (by omega) (Nat.two_pow_pos k)
  omega

attribute [local grind =] UnpackedFloat.compare Sign.apply compare_lt_iff_lt compare_gt_iff_gt

theorem compare (denotes : Denotes u a) (denotes' : Denotes u' b) :
    u.compare u' = some (compare a b) := by
  cases denotes with
  | zero =>
    cases denotes' with
    | zero => rfl
    | @finite sign _ _ _ _ full _ _ _ same =>
      have pos := value_pos full same
      cases sign <;> grind
  | @finite sign _ _ _ _ full fits low _ same =>
    have pos := value_pos full same
    cases denotes' with
    | zero => cases sign <;> grind
    | @finite sign' _ _ _ _ full' fits' low' _ same' =>
      have pos' := value_pos full' same'
      have magnitudes := compare_scaled full fits low same full' fits' low' same'
      cases sign <;> cases sign'
      · exact (congrArg (some ·.swap) magnitudes).trans (congrArg some (compare_neg _ _).symm)
      · grind
      · grind
      · exact congrArg some magnitudes

end Denotes

theorem denotes_toFloat (fits : n < 2 ^ 64) :
    Denotes n.toUInt64.toFloat.toModel.unpack (nearest n) := by
  have denotes := denotes_ofNat fits
  change Denotes (Float.Model.pack (ofNat Format.binary64 n.toUInt64.toNat)).unpack _
  rw [show n.toUInt64.toNat = n from Nat.mod_eq_of_lt fits, denotes.unpack_pack]
  exact denotes

theorem denotes_floatOfInt {i : Int} (fits : Fits i) :
    Denotes (floatOfInt i).toModel.unpack (nearestInt i) := by
  obtain ⟨low, high⟩ := fits
  cases i with
  | ofNat n => exact denotes_toFloat (Int.ofNat_lt.mp high)
  | negSucc n =>
    have denotes := (denotes_toFloat (n := n + 1) (by simp only [signedBound] at low; omega)).neg
    change Denotes (Float.Model.pack ((n + 1).toUInt64.toFloat.toModel.unpack.neg)).unpack _
    rw [denotes.unpack_pack]
    exact denotes

namespace Comparison

/-- What an operator says of two integers. -/
def decides (op : Comparison) (a b : Int) : Bool :=
  match op with
  | .eq => a = b
  | .ne => a ≠ b
  | .gt => b < a
  | .ge => b ≤ a
  | .lt => a < b
  | .le => a ≤ b
  | .contains => false

/-- Two integers that are equal or stand for different floats. -/
def Apart (a b : Int) : Prop := a = b ∨ nearestInt a ≠ nearestInt b

variable {a b : Int}

section

variable (fits : Fits a) (fits' : Fits b)
include fits fits'

theorem looseEq_ints : looseEq (.int a) (.int b) = decide (nearestInt a = nearestInt b) := by
  change ((floatOfInt a).toModel.unpack.compare (floatOfInt b).toModel.unpack == some .eq) = _
  rw [(denotes_floatOfInt fits).compare (denotes_floatOfInt fits'), Bool.eq_iff_iff]
  simp

theorem lt_ints : floatOfInt a < floatOfInt b ↔ nearestInt a < nearestInt b := by
  change decide ((floatOfInt a).toModel.unpack.compare (floatOfInt b).toModel.unpack ==
    some Ordering.lt) = true ↔ _
  rw [(denotes_floatOfInt fits).compare (denotes_floatOfInt fits')]
  simp [compare_lt_iff_lt]

theorem order?_ints : order? (.int a) (.int b) = some (compare (nearestInt a) (nearestInt b)) := by
  change (if floatOfInt a < floatOfInt b then some Ordering.lt else if floatOfInt b <
    floatOfInt a then some .gt else if looseEq (.int a) (.int b) then some .eq else none) = _
  simp only [lt_ints fits fits', lt_ints fits' fits, looseEq_ints fits fits']
  rcases lt_trichotomy (nearestInt a) (nearestInt b) with less | same | more
  · rw [if_pos less, compare_lt_iff_lt.mpr less]
  · simp [same]
  · rw [if_neg more.not_gt, if_pos more, compare_gt_iff_gt.mpr more]

theorem apply_ints (op : Comparison) :
    op.apply (.int a) (.int b) = op.decides (nearestInt a) (nearestInt b) := by
  have order := order?_ints fits fits'
  rw [Bool.eq_iff_iff]
  cases op with
  | eq => rw [apply, looseEq_ints fits fits', decides]
  | ne => simp [apply, looseEq_ints fits fits', decides]
  | contains => rfl
  | gt => simp [apply, order, decides, compare_gt_iff_gt]
  | lt => simp [apply, order, decides, compare_lt_iff_lt]
  | ge =>
    simp [apply, order, decides, compare_gt_iff_gt]
    omega
  | le =>
    simp [apply, order, decides, compare_lt_iff_lt]
    omega

end

theorem decides_apart (apart : Apart a b) (op : Comparison) :
    op.decides (nearestInt a) (nearestInt b) = op.decides a b := by
  have forth := @nearestInt_mono a b
  have back := @nearestInt_mono b a
  rcases apart with rfl | apart
  · cases op <;> simp [decides]
  · cases op <;> simp only [decides] <;> rw [Bool.eq_iff_iff] <;> simp <;> omega

/-- Integers of 64 bits are compared exactly just when they are equal or stand for different
floats, as any two up to `2 ^ 53` do. -/
theorem comparison_exact_iff_apart (fits : Fits a) (fits' : Fits b) :
    ((∀ op : Comparison, op.apply (.int a) (.int b) = op.decides a b) ↔ Apart a b) ∧
    (a.natAbs ≤ 2 ^ 53 → b.natAbs ≤ 2 ^ 53 → Apart a b) ∧
    (∀ items : List Int, (∀ item ∈ items, Fits item ∧ Apart item b) →
      (contains.apply (.arr (items.map .int)) (.int b) = true ↔ b ∈ items)) ∧
    ∀ (condition : Condition) (vars : Fields), vars.lookup? condition.path = some (.int a) →
      condition.literal = .int b → Apart a b → condition.holds vars = condition.op.decides a b := by
  have decided {i : Int} (fits : Fits i) (apart : Apart i b) (op : Comparison) :
      op.apply (.int i) (.int b) = op.decides i b := by
    rw [apply_ints fits fits', decides_apart apart]
  refine ⟨⟨?_, decided fits⟩, ?_, ?_, ?_⟩
  · intro decided
    have equal := decided .eq
    rw [apply_ints fits fits'] at equal
    by_cases same : nearestInt a = nearestInt b
    · exact .inl (by simpa [decides, same] using equal)
    · exact .inr same
  · intro small small'
    rw [Apart, nearestInt_of_le small, nearestInt_of_le small']
    exact eq_or_ne a b
  · intro items apart
    have found : ∀ item ∈ items, looseEq (.int item) (.int b) = true ↔ item = b := by
      intro item member
      have equal : looseEq (.int item) (.int b) = decide (item = b) :=
        decided (apart item member).1 (apart item member).2 .eq
      simp [equal]
    simp only [apply, holds, List.any_eq_true, List.mem_map]
    grind
  · intro condition vars found literal apart
    rw [Condition.holds, found, literal]
    exact decided fits apart condition.op

/-- Neighbours of different floats beyond `2 ^ 53`. -/
theorem comparison_exact_distant :
    Apart 9007199254740993 9007199254740996 ∧ ∀ op : Comparison,
      op.apply (.int 9007199254740993) (.int 9007199254740996) =
        op.decides 9007199254740993 9007199254740996 := by
  have apart : Apart 9007199254740993 9007199254740996 := .inr (by decide +kernel)
  exact ⟨apart, (comparison_exact_iff_apart ⟨by decide, by decide⟩ ⟨by decide, by decide⟩).1.mpr
    apart⟩

/-- A condition on an identity holds of the one next to it. -/
theorem condition_holds_of_neighbour :
    (⟨"id == 9007199254740993", "id", .eq, .int 9007199254740993⟩ : Condition).holds
      [("id", .int 9007199254740992)] = true := by
  decide +kernel

end Comparison

end Pinflow
