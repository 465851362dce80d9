/-
One's complement sums, and the 16-bit words of a byte string.

`onesAdd m` adds numbers of at most `m`, all ones, and brings the carry round; `onesSum m` is the sum of a list.
`bigWords` and `littleWords` are the words of a byte string with the high or the low byte first; an odd last byte is
followed by a zero. `addCompl` is `sum += ~word` of C, `foldCarries` the loop that adds the carries of a 32-bit sum to
its lower half.

- `onesSum_eq_iff`: a one's complement sum is all ones exactly when the plain sum is a multiple of `m`, and not 0;
- `littleWords_modEq`: exchanging the bytes of all words multiplies the sum by 256, up to multiples of 65535;
- `allOnes_bigWords_iff`: so it does not matter in which order the bytes of a word are taken;
- `foldl_addCompl`: adding complements takes the words, and one for each, from the sum, up to the width it is kept in;
- `foldCarries_le`, `foldCarries_modEq`: folding ends in 16 bits and keeps the sum up to multiples of 65535.
-/
import NetSec.Core.Memory

namespace NetSec.OnesComplement

open NetSec.Memory

def onesAdd (m a b : ℕ) : ℕ := if a + b ≤ m then a + b else a + b - m

def onesSum (m : ℕ) (words : List ℕ) : ℕ := words.foldl (onesAdd m) 0

def bigWords : List Byte → List ℕ
  | [] => []
  | [hi] => [256 * hi.toNat]
  | hi :: lo :: rest => (256 * hi.toNat + lo.toNat) :: bigWords rest

def littleWords : List Byte → List ℕ
  | [] => []
  | [lo] => [lo.toNat]
  | lo :: hi :: rest => (256 * hi.toNat + lo.toNat) :: littleWords rest

/-! ## Sums -/

section Sums

variable {m : ℕ}

theorem onesAdd_modEq (m a b : ℕ) : onesAdd m a b ≡ a + b [MOD m] := by
  unfold onesAdd
  split_ifs with h
  · exact Nat.ModEq.refl _
  · exact (Nat.sub_modulus_modEq_iff (by omega)).2 (Nat.ModEq.refl _)

theorem onesAdd_le {a b : ℕ} (ha : a ≤ m) (hb : b ≤ m) : onesAdd m a b ≤ m := by
  unfold onesAdd
  split_ifs
  · assumption
  · omega

/-- the carry is brought round, so that a sum is 0 only of zeros -/
theorem onesAdd_eq_zero {a b : ℕ} : onesAdd m a b = 0 ↔ a + b = 0 := by
  unfold onesAdd
  split_ifs
  · rfl
  · omega

theorem foldl_onesAdd {words : List ℕ} (hwords : ∀ x ∈ words, x ≤ m) {a : ℕ} (ha : a ≤ m) :
    words.foldl (onesAdd m) a ≤ m ∧ words.foldl (onesAdd m) a ≡ a + words.sum [MOD m] ∧
      (words.foldl (onesAdd m) a = 0 ↔ a + words.sum = 0) := by
  induction words generalizing a with
  | nil => exact ⟨ha, Nat.ModEq.refl _, Iff.rfl⟩
  | cons x words ih =>
    obtain ⟨hx, hwords⟩ := List.forall_mem_cons.1 hwords
    obtain ⟨hle, hmod, hzero⟩ := ih hwords (onesAdd_le ha hx)
    rw [List.foldl_cons, List.sum_cons, ← Nat.add_assoc]
    refine ⟨hle, hmod.trans ((onesAdd_modEq m a x).add_right _), hzero.trans ?_⟩
    rw [Nat.add_eq_zero_iff, onesAdd_eq_zero, ← Nat.add_eq_zero_iff]

/-- **A one's complement sum that is all ones.** -/
theorem onesSum_eq_iff {words : List ℕ} (hwords : ∀ x ∈ words, x ≤ m) (hm : 0 < m) :
    onesSum m words = m ↔ m ∣ words.sum ∧ words.sum ≠ 0 := by
  obtain ⟨hle, hmod, hzero⟩ := foldl_onesAdd hwords (Nat.zero_le m)
  rw [Nat.zero_add] at hmod hzero
  rw [onesSum, ← Nat.modEq_zero_iff_dvd, Ne, ← hzero]
  refine ⟨?_, ?_⟩
  · intro h
    rw [h] at hmod ⊢
    exact ⟨hmod.symm.trans (Nat.modEq_zero_iff_dvd.2 dvd_rfl), hm.ne'⟩
  · intro ⟨hdvd, hne⟩
    obtain ⟨k, hk⟩ := Nat.modEq_zero_iff_dvd.1 (hmod.trans hdvd)
    have hk1 : k = 1 := by
      have hpos : k ≠ 0 := by
        rintro rfl
        exact hne hk
      have hle1 : k ≤ 1 := Nat.le_of_mul_le_mul_left (by rw [← hk, Nat.mul_one]; exact hle) hm
      omega
    rw [hk, hk1, Nat.mul_one]

end Sums

/-! ## Words of bytes -/

theorem bigWords_le (bytes : List Byte) : ∀ x ∈ bigWords bytes, x ≤ 65535 := by
  induction bytes using bigWords.induct with
  | case1 => nofun
  | case2 hi => simp only [bigWords, List.mem_singleton, forall_eq]; omega
  | case3 hi lo rest ih =>
    simp only [bigWords, List.forall_mem_cons]
    exact ⟨by omega, ih⟩

/-- **The other order of bytes.** -/
theorem littleWords_modEq (bytes : List Byte) : (littleWords bytes).sum ≡ 256 * (bigWords bytes).sum [MOD 65535] := by
  induction bytes using bigWords.induct with
  | case1 => exact Nat.ModEq.refl _
  | case2 hi =>
    simp only [littleWords, bigWords, List.sum_singleton]
    unfold Nat.ModEq
    omega
  | case3 hi lo rest ih =>
    simp only [littleWords, bigWords, List.sum_cons, Nat.mul_add]
    refine Nat.ModEq.add ?_ ih
    unfold Nat.ModEq
    omega

theorem littleWords_sum_eq_zero (bytes : List Byte) : (littleWords bytes).sum = 0 ↔ (bigWords bytes).sum = 0 := by
  induction bytes using bigWords.induct with
  | case1 => exact Iff.rfl
  | case2 hi => simp [littleWords, bigWords]
  | case3 hi lo rest ih =>
    simp only [littleWords, bigWords, List.sum_cons]
    omega

/-- **The check, in the other order of bytes.** -/
theorem allOnes_bigWords_iff (bytes : List Byte) : onesSum 65535 (bigWords bytes) = 65535 ↔
    65535 ∣ (littleWords bytes).sum ∧ (littleWords bytes).sum ≠ 0 := by
  have hmod := littleWords_modEq bytes
  rw [onesSum_eq_iff (bigWords_le bytes) (by norm_num), Ne, Ne, littleWords_sum_eq_zero]
  refine and_congr_left fun _ => ?_
  unfold Nat.ModEq at hmod
  omega

theorem littleWords_append {l : List Byte} (r : List Byte) (hl : Even l.length) :
    littleWords (l ++ r) = littleWords l ++ littleWords r := by
  induction l using littleWords.induct with
  | case1 => rfl
  | case2 lo => simp at hl
  | case3 lo hi rest ih =>
    simp only [List.cons_append, littleWords, List.cons.injEq, true_and]
    apply ih
    simpa [Nat.even_add_one] using hl

theorem bigWords_append {l : List Byte} (r : List Byte) (hl : Even l.length) :
    bigWords (l ++ r) = bigWords l ++ bigWords r := by
  induction l using bigWords.induct with
  | case1 => rfl
  | case2 hi => simp at hl
  | case3 hi lo rest ih =>
    simp only [List.cons_append, bigWords, List.cons.injEq, true_and]
    apply ih
    simpa [Nat.even_add_one] using hl

theorem bigWords_htons (v : BitVec 16) : bigWords (htons v) = [v.toNat] := by
  simp only [htons, bigWords, BitVec.extractLsb'_toNat, List.cons.injEq, and_true, Nat.shiftRight_eq_div_pow]
  omega

theorem bigWords_htonl (v : BitVec 32) : bigWords (htonl v) = [v.toNat / 65536, v.toNat % 65536] := by
  simp only [htonl, bigWords, BitVec.extractLsb'_toNat, List.cons.injEq, and_true, Nat.shiftRight_eq_div_pow]
  omega

/-- a 16-bit number with its bytes exchanged -/
def swapped (n : ℕ) : ℕ := 256 * (n % 256) + n / 256 % 256

theorem littleWords_htons (v : BitVec 16) : littleWords (htons v) = [swapped v.toNat] := by
  simp only [htons, littleWords, swapped, BitVec.extractLsb'_toNat, List.cons.injEq, and_true,
    Nat.shiftRight_eq_div_pow]
  omega

theorem littleWords_htonl (v : BitVec 32) :
    littleWords (htonl v) = [swapped (v.toNat / 65536), swapped (v.toNat % 65536)] := by
  simp only [htonl, littleWords, swapped, BitVec.extractLsb'_toNat, List.cons.injEq, and_true,
    Nat.shiftRight_eq_div_pow]
  omega

theorem littleWords_hosts (v : BitVec 16) : littleWords (hosts v) = [v.toNat] := by
  simp only [hosts, littleWords, BitVec.extractLsb'_toNat, List.cons.injEq, and_true, Nat.shiftRight_eq_div_pow]
  omega

/-- **A checksum that is stored over zeros** is added to the words. -/
theorem littleWords_stored {front : List Byte} (h : Even front.length) (v : BitVec 16) (rest : List Byte) :
    (littleWords (front ++ (hosts v ++ rest))).sum = (littleWords (front ++ ([0, 0] ++ rest))).sum + v.toNat := by
  have hzero : littleWords [0, 0] = [0] := rfl
  have heven : Even (hosts v).length := by simp [hosts]
  rw [littleWords_append _ h, littleWords_append _ h, littleWords_append _ heven, littleWords_append _ (by decide),
    littleWords_hosts, hzero]
  simp only [List.sum_append, List.sum_singleton]
  omega

/-- the words that a little-endian machine reads -/
theorem littleWords_load (n a : ℕ) (mem : Mem) :
    littleWords (load (2 * n) a mem) = (loadShorts n a mem).map BitVec.toNat := by
  induction n generalizing a with
  | zero => rfl
  | succ n ih =>
    have hword : (mem (a + 1) ++ mem a).toNat = 256 * (mem (a + 1)).toNat + (mem a).toNat := by
      rw [BitVec.toNat_append, Nat.shiftLeft_eq, Nat.mul_comm, ← Nat.two_pow_add_eq_or_of_lt (mem a).isLt]
    rw [show 2 * (n + 1) = 2 * n + 1 + 1 by omega, load, load, littleWords, ih, loadShorts, List.map_cons, hword]

/-! ## Adding complements -/

/-- `sum += ~word`: both become an `int`, and the result is cut to the width of the sum -/
def addCompl {w : ℕ} (sum : BitVec w) (word : BitVec 16) : BitVec w :=
  (sum.setWidth 32 + ~~~(word.setWidth 32)).setWidth w

theorem addCompl_modEq {w : ℕ} (hw : w ≤ 32) (sum : BitVec w) (word : BitVec 16) :
    (addCompl sum word).toNat + (word.toNat + 1) ≡ sum.toNat [MOD 2 ^ w] := by
  have hdvd : 2 ^ w ∣ 2 ^ 32 := Nat.pow_dvd_pow 2 hw
  have hsum : (sum.setWidth 32).toNat = sum.toNat := by
    rw [BitVec.toNat_setWidth]
    exact Nat.mod_eq_of_lt (sum.isLt.trans_le (Nat.pow_le_pow_right (by norm_num) hw))
  have hword : (word.setWidth 32).toNat = word.toNat := by
    rw [BitVec.toNat_setWidth]
    omega
  have hint : (addCompl sum word).toNat = (sum.toNat + (2 ^ 32 - 1 - word.toNat)) % 2 ^ 32 % 2 ^ w := by
    rw [addCompl, BitVec.toNat_setWidth, BitVec.toNat_add, BitVec.toNat_not, hsum, hword]
  calc
    (addCompl sum word).toNat + (word.toNat + 1) ≡ sum.toNat + (2 ^ 32 - 1 - word.toNat) + (word.toNat + 1)
        [MOD 2 ^ w] := by
      rw [hint, Nat.mod_mod_of_dvd _ hdvd]
      exact (Nat.mod_modEq _ _).add_right _
    _ = sum.toNat + 2 ^ 32 := by omega
    _ ≡ sum.toNat [MOD 2 ^ w] := by
      have h0 := (Nat.modEq_zero_iff_dvd.2 hdvd).add_left sum.toNat
      rwa [Nat.add_zero] at h0

/-- **Adding complements** takes the words from the sum, and one for each. -/
theorem foldl_addCompl {w : ℕ} (hw : w ≤ 32) (words : List (BitVec 16)) (sum : BitVec w) :
    (words.foldl addCompl sum).toNat + ((words.map BitVec.toNat).sum + words.length) ≡ sum.toNat [MOD 2 ^ w] := by
  induction words generalizing sum with
  | nil => exact Nat.ModEq.refl _
  | cons word words ih =>
    calc
      ((word :: words).foldl addCompl sum).toNat + (((word :: words).map BitVec.toNat).sum + (word :: words).length)
        = (words.foldl addCompl (addCompl sum word)).toNat + ((words.map BitVec.toNat).sum + words.length) +
            (word.toNat + 1) := by
          simp only [List.foldl_cons, List.map_cons, List.sum_cons, List.length_cons]
          omega
      _ ≡ (addCompl sum word).toNat + (word.toNat + 1) [MOD 2 ^ w] := (ih (addCompl sum word)).add_right _
      _ ≡ sum.toNat [MOD 2 ^ w] := addCompl_modEq hw sum word

/-! ## Folding carries -/

theorem folded_toNat (sum : BitVec 32) :
    ((sum &&& (0xffff : BitVec 32)) + (sum >>> 16)).toNat = sum.toNat % 65536 + sum.toNat / 65536 := by
  have hlow : (sum &&& (0xffff : BitVec 32)).toNat = sum.toNat % 65536 := by
    rw [BitVec.toNat_and]
    exact Nat.and_two_pow_sub_one_eq_mod _ 16
  rw [BitVec.toNat_add, hlow, BitVec.toNat_ushiftRight, Nat.shiftRight_eq_div_pow]
  omega

/-- `while( sum > 0xffff ) sum = (sum & 0xffff) + (sum >> 16)` -/
def foldCarries (sum : BitVec 32) : BitVec 32 :=
  if 0xffff < sum.toNat then foldCarries ((sum &&& (0xffff : BitVec 32)) + (sum >>> 16)) else sum
termination_by sum.toNat
decreasing_by
  rw [folded_toNat]
  omega

theorem foldCarries_le (sum : BitVec 32) : (foldCarries sum).toNat ≤ 65535 := by
  induction sum using foldCarries.induct with
  | case1 sum h ih => rwa [foldCarries, if_pos h]
  | case2 sum h => rw [foldCarries, if_neg h]; omega

/-- **Folding keeps the sum**, up to multiples of 65535. -/
theorem foldCarries_modEq (sum : BitVec 32) : (foldCarries sum).toNat ≡ sum.toNat [MOD 65535] := by
  induction sum using foldCarries.induct with
  | case1 sum h ih =>
    rw [foldCarries, if_pos h]
    refine ih.trans ?_
    rw [folded_toNat]
    unfold Nat.ModEq
    omega
  | case2 sum h => rw [foldCarries, if_neg h]

end NetSec.OnesComplement
