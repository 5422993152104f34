import Mathlib.Tactic.Ring
import Mathlib.Tactic.NormNum
import Mathlib.Tactic.Positivity
import Mathlib.Tactic.Linarith

/-! # Checked operations on signed 64-bit words

The shifts and the subtraction of a build with overflow checks: `none` is a trap.
A shift traps on an amount of 64 or more and drops the bits that leave the word;
the subtraction traps when its result is not a signed 64-bit value. The lemmas
read the operations as arithmetic on the values of the words. -/

namespace Checked

/-- `i64::from(u8)`. -/
def ofU8 (n : UInt8) : Int64 := Int64.ofNat n.toNat

/-- `x as u8`. -/
def asU8 (x : Int64) : UInt8 := UInt8.ofBitVec (x.toBitVec.setWidth 8)

def shl (x : Int64) (n : UInt8) : Option Int64 :=
  if n.toNat < 64 then some (Int64.ofBitVec (x.toBitVec <<< n.toNat)) else none

/-- The arithmetic right shift. -/
def shr (x : Int64) (n : UInt8) : Option Int64 :=
  if n.toNat < 64 then some (Int64.ofBitVec (x.toBitVec.sshiftRight n.toNat)) else none

def sub (x y : Int64) : Option Int64 :=
  if -2 ^ 63 ≤ x.toInt - y.toInt ∧ x.toInt - y.toInt < 2 ^ 63 then some (x - y) else none

theorem toInt_ofU8 (n : UInt8) : (ofU8 n).toInt = n.toNat := by
  have hn := n.toNat_lt
  rw [ofU8, Int64.toInt_ofNat']
  exact Int.bmod_eq_of_le (by simp only [Int64.size]; omega) (by simp only [Int64.size]; omega)

theorem toNat_of_nonneg {x : Int64} (h : 0 ≤ x.toInt) : (x.toBitVec.toNat : ℤ) = x.toInt := by
  have hc := BitVec.toInt_eq_toNat_cond x.toBitVec
  have hlt := x.toBitVec.isLt
  rw [Int64.toInt_toBitVec] at hc
  split at hc
  · exact hc.symm
  · push_cast at hc
    omega

theorem toInt_of_toNat {b : BitVec 64} (h : b.toNat < 2 ^ 63) :
    (Int64.ofBitVec b).toInt = b.toNat := by
  rw [Int64.toInt_ofBitVec]
  exact BitVec.toInt_eq_toNat_of_lt (by omega)

theorem shl_isSome (x : Int64) (n : UInt8) : (shl x n).isSome ↔ n.toNat < 64 := by
  unfold shl
  split <;> simp_all

theorem shl_val {x : Int64} {n : UInt8} (hn : n.toNat < 64) (h0 : 0 ≤ x.toInt)
    (hx : x.toInt * 2 ^ n.toNat < 2 ^ 63) :
    ∃ y, shl x n = some y ∧ y.toInt = x.toInt * 2 ^ n.toNat := by
  refine ⟨_, by rw [shl, if_pos hn], ?_⟩
  have hnat := toNat_of_nonneg h0
  have hlt : x.toBitVec.toNat * 2 ^ n.toNat < 2 ^ 63 := by
    have hc : ((x.toBitVec.toNat * 2 ^ n.toNat : ℕ) : ℤ) < 2 ^ 63 := by
      push_cast
      rw [hnat]
      exact hx
    exact_mod_cast hc
  have hmod : (x.toBitVec <<< n.toNat).toNat = x.toBitVec.toNat * 2 ^ n.toNat := by
    rw [BitVec.toNat_shiftLeft, Nat.shiftLeft_eq]
    exact Nat.mod_eq_of_lt (by omega)
  rw [toInt_of_toNat (by rw [hmod]; exact hlt), hmod]
  push_cast
  rw [hnat]

theorem shr_val (x : Int64) {n : UInt8} (hn : n.toNat < 64) :
    ∃ y, shr x n = some y ∧ y.toInt = x.toInt / 2 ^ n.toNat := by
  refine ⟨_, by rw [shr, if_pos hn], ?_⟩
  rw [Int64.toInt_ofBitVec, BitVec.toInt_sshiftRight, Int64.toInt_toBitVec,
    Int.shiftRight_eq_div_pow]
  push_cast
  rfl

theorem sub_val {x y : Int64} (h1 : -2 ^ 63 ≤ x.toInt - y.toInt)
    (h2 : x.toInt - y.toInt < 2 ^ 63) :
    ∃ z, sub x y = some z ∧ z.toInt = x.toInt - y.toInt := by
  refine ⟨x - y, by rw [sub, if_pos ⟨h1, h2⟩], ?_⟩
  rw [Int64.toInt_sub]
  exact Int.bmod_eq_of_le (by omega) (by omega)

/-- `(1 << n) - 1`, the mask of the low `n` bits. -/
theorem mask_val {n : UInt8} (hn : n.toNat ≤ 62) :
    ∃ one m, shl 1 n = some one ∧ one.toInt = 2 ^ n.toNat ∧ sub one 1 = some m ∧
      m.toInt = 2 ^ n.toNat - 1 := by
  have hone : (1 : Int64).toInt = 1 := by decide
  have hp : (2 : ℤ) ^ n.toNat ≤ 2 ^ 62 := pow_le_pow_right₀ (by norm_num) hn
  have h0 : (0 : ℤ) < 2 ^ n.toNat := by positivity
  obtain ⟨one, hs, hv⟩ := shl_val (x := 1) (n := n) (by omega) (by rw [hone]; norm_num)
    (by rw [hone]; omega)
  rw [hone, one_mul] at hv
  obtain ⟨m, hm, hmv⟩ := sub_val (x := one) (y := 1) (by rw [hone, hv]; omega)
    (by rw [hone, hv]; omega)
  exact ⟨one, m, hs, hv, hm, by rw [hmv, hone, hv]⟩

theorem or_val {x y : Int64} {r : ℤ} {n : ℕ} (hr : 0 ≤ r) (hx : x.toInt = r * 2 ^ n)
    (hy0 : 0 ≤ y.toInt) (hy : y.toInt < 2 ^ n) (hsum : x.toInt + y.toInt < 2 ^ 63) :
    (x ||| y).toInt = x.toInt + y.toInt := by
  have hx0 : 0 ≤ x.toInt := by
    rw [hx]
    positivity
  have hxn := toNat_of_nonneg hx0
  have hyn := toNat_of_nonneg hy0
  obtain ⟨q, rfl⟩ := Int.eq_ofNat_of_zero_le hr
  have hxq : x.toBitVec.toNat = q * 2 ^ n := by
    have hc : (x.toBitVec.toNat : ℤ) = ((q * 2 ^ n : ℕ) : ℤ) := by
      rw [hxn, hx]
      push_cast
      rfl
    exact_mod_cast hc
  have hyl : y.toBitVec.toNat < 2 ^ n := by
    have hc : (y.toBitVec.toNat : ℤ) < ((2 ^ n : ℕ) : ℤ) := by
      rw [hyn]
      push_cast
      exact hy
    exact_mod_cast hc
  have hor : (x ||| y).toBitVec.toNat = x.toBitVec.toNat + y.toBitVec.toNat := by
    rw [Int64.toBitVec_or, BitVec.toNat_or, hxq, ← Nat.shiftLeft_eq]
    exact (Nat.shiftLeft_add_eq_or_of_lt hyl q).symm
  have hlt : (x ||| y).toBitVec.toNat < 2 ^ 63 := by
    have hc : ((x ||| y).toBitVec.toNat : ℤ) < 2 ^ 63 := by
      rw [hor]
      push_cast
      rw [hxn, hyn]
      exact hsum
    exact_mod_cast hc
  have h := toInt_of_toNat hlt
  rw [Int64.ofBitVec_toBitVec] at h
  rw [h, hor]
  push_cast
  rw [hxn, hyn]

theorem and_mask_val (x : Int64) {m : Int64} {n : ℕ} (hn : n ≤ 62)
    (hm : m.toInt = 2 ^ n - 1) : (x &&& m).toInt = x.toInt % 2 ^ n := by
  have h0 : (1 : ℤ) ≤ 2 ^ n := one_le_pow₀ (by norm_num)
  have hmn : m.toBitVec.toNat = 2 ^ n - 1 := by
    have hc := toNat_of_nonneg (x := m) (by rw [hm]; omega)
    rw [hm] at hc
    have h1 : 1 ≤ 2 ^ n := Nat.one_le_two_pow
    have hc' : (m.toBitVec.toNat : ℤ) = ((2 ^ n - 1 : ℕ) : ℤ) := by
      rw [hc]
      push_cast [h1]
      rfl
    exact_mod_cast hc'
  have hand : (x &&& m).toBitVec.toNat = x.toBitVec.toNat % 2 ^ n := by
    rw [Int64.toBitVec_and, BitVec.toNat_and, hmn, Nat.and_two_pow_sub_one_eq_mod]
  have hpow : 2 ^ n ≤ 2 ^ 62 := Nat.pow_le_pow_right (by norm_num) hn
  have hlt : x.toBitVec.toNat % 2 ^ n < 2 ^ n := Nat.mod_lt _ (by positivity)
  have h := toInt_of_toNat (b := (x &&& m).toBitVec) (by rw [hand]; omega)
  rw [Int64.ofBitVec_toBitVec] at h
  have hdvd : (2 : ℤ) ^ n ∣ ((2 ^ 64 : ℕ) : ℤ) := by
    exact_mod_cast (pow_dvd_pow 2 (by omega) : (2 : ℤ) ^ n ∣ 2 ^ 64)
  have hb : x.toInt = Int.bmod (x.toBitVec.toNat : ℤ) (2 ^ 64) :=
    BitVec.toInt_eq_toNat_bmod x.toBitVec
  have hbm : Int.bmod (x.toBitVec.toNat : ℤ) (2 ^ 64) % ((2 ^ 64 : ℕ) : ℤ)
      = (x.toBitVec.toNat : ℤ) % ((2 ^ 64 : ℕ) : ℤ) := Int.bmod_emod
  have hmod : x.toInt % 2 ^ n = (x.toBitVec.toNat : ℤ) % 2 ^ n := by
    rw [← Int.emod_emod_of_dvd x.toInt hdvd, hb, hbm, Int.emod_emod_of_dvd _ hdvd]
  rw [h, hand, hmod]
  push_cast
  rfl

end Checked
