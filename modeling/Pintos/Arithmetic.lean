import Mathlib.Data.BitVec
import Mathlib.Tactic.Ring

/-!
The 64-bit division and remainder of `lib/arithmetic.c`, on the words of the machine. An instruction that traps
has no result. The negation of the least `int64_t` is the least `int64_t`, as the instruction has
it.
-/
namespace Pintos.Arithmetic
set_option linter.unusedSimpArgs false
set_option linter.style.nameCheck false

/-- The instruction traps unless the quotient fits in 32 bits. -/
def divl (n : BitVec 64) (d : BitVec 32) : Option (BitVec 32) :=
  if d = 0#32 ∨ 2 ^ 32 ≤ n.toNat / d.toNat then none else some (BitVec.ofNat 32 (n.toNat / d.toNat))

/-- One test of `nlz`: `x` moves by `k` bits if none is lost. -/
def shift (bound : BitVec 32) (k : Nat) (p : Nat × BitVec 32) : Nat × BitVec 32 :=
  if p.2 ≤ bound then (p.1 + k,p.2 <<< k) else p

def nlz (x : BitVec 32) : Nat :=
  let p := shift 0x0000FFFF#32 16 (0,x)
  let p := shift 0x00FFFFFF#32 8 p
  let p := shift 0x0FFFFFFF#32 4 p
  let p := shift 0x3FFFFFFF#32 2 p
  (shift 0x7FFFFFFF#32 1 p).1

def udiv64 (n d : BitVec 64) : Option (BitVec 64) :=
  if d >>> 32 = 0#64 then
    let b := 1#64 <<< 32
    let n1 := (n >>> 32).setWidth 32
    let n0 := n.setWidth 32
    let d0 := d.setWidth 32
    (divl (b * (n1 % d0).setWidth 64 + n0.setWidth 64) d0).map fun q => q.setWidth 64 + b * (n1 / d0).setWidth 64
  else if n < d then some 0#64
  else
    let d1 := (d >>> 32).setWidth 32
    let s := nlz d1
    (divl (n >>> 1) (((d <<< s) >>> 32).setWidth 32)).map fun half : BitVec 32 =>
      let q := (half >>> (31 - s)).setWidth 64
      if n - (q - 1#64) * d < d then q - 1#64 else q

/-- `umod64` and `smod64` return 32 bits. -/
def umod64 (n d : BitVec 64) : Option (BitVec 32) := (udiv64 n d).map fun q => (n - d * q).setWidth 32

def sdiv64 (n d : BitVec 64) : Option (BitVec 64) :=
  let n_abs := if n.toInt ≥ 0 then n else -n
  let d_abs := if d.toInt ≥ 0 then d else -d
  (udiv64 n_abs d_abs).map fun q_abs => if (n.toInt < 0) = (d.toInt < 0) then q_abs else -q_abs

def smod64 (n d : BitVec 64) : Option (BitVec 32) := (sdiv64 n d).map fun q => (n - d * q).setWidth 32

def __divdi3 (n d : BitVec 64) : Option (BitVec 64) := sdiv64 n d
def __moddi3 (n d : BitVec 64) : Option (BitVec 64) := (smod64 n d).map (BitVec.signExtend 64)
def __umoddi3 (n d : BitVec 64) : Option (BitVec 64) := (umod64 n d).map (BitVec.setWidth 64)

/-! ### Leading zeros -/

theorem shift_spec {x n k : Nat} {y bound : BitVec 32} (wide : bound.toNat = 2 ^ (32 - k) - 1) (fits : 2 * k ≤ 32)
    (value : y.toNat = x * 2 ^ n) (low : 2 ^ (32 - 2 * k) ≤ y.toNat) :
    (shift bound k (n,y)).2.toNat = x * 2 ^ (shift bound k (n,y)).1 ∧ 2 ^ (32 - k) ≤ (shift bound k (n,y)).2.toNat := by
  have split : 2 ^ 32 = 2 ^ (32 - k) * 2 ^ k := by rw [← Nat.pow_add]; congr 1; omega
  have again : 2 ^ (32 - k) = 2 ^ (32 - 2 * k) * 2 ^ k := by rw [← Nat.pow_add]; congr 1; omega
  have positive : 0 < 2 ^ (32 - k) := Nat.two_pow_pos _
  unfold shift
  by_cases short : y ≤ bound
  · have below : y.toNat < 2 ^ (32 - k) := by
      have le : y.toNat ≤ bound.toNat := short
      omega
    have whole : (y <<< k).toNat = y.toNat * 2 ^ k := by
      rw [BitVec.toNat_shiftLeft,Nat.shiftLeft_eq,Nat.mod_eq_of_lt]
      rw [split]
      exact Nat.mul_lt_mul_of_pos_right below (Nat.two_pow_pos k)
    rw [if_pos short]
    constructor
    · rw [whole,value,Nat.mul_assoc,← Nat.pow_add]
    · rw [whole,again]
      exact Nat.mul_le_mul_right _ low
  · rw [if_neg short]
    refine ⟨value,?_⟩
    have le : ¬ y.toNat ≤ bound.toNat := short
    show 2 ^ (32 - k) ≤ y.toNat
    omega

/-- The first bit of `x` comes to the front. -/
theorem nlz_spec {x : BitVec 32} (nonzero : x ≠ 0#32) : 2 ^ 31 ≤ x.toNat * 2 ^ nlz x ∧ x.toNat * 2 ^ nlz x < 2 ^ 32 := by
  have positive : 0 < x.toNat := Nat.pos_of_ne_zero fun zero => nonzero (BitVec.eq_of_toNat_eq zero)
  obtain ⟨value₁,low₁⟩ := @shift_spec x.toNat 0 16 x (0x0000FFFF#32) rfl (by decide)
    (by omega) (by omega)
  obtain ⟨value₂,low₂⟩ := @shift_spec _ _ 8 _ (0x00FFFFFF#32) rfl (by decide) value₁ low₁
  obtain ⟨value₃,low₃⟩ := @shift_spec _ _ 4 _ (0x0FFFFFFF#32) rfl (by decide) value₂ low₂
  obtain ⟨value₄,low₄⟩ := @shift_spec _ _ 2 _ (0x3FFFFFFF#32) rfl (by decide) value₃ low₃
  obtain ⟨value₅,low₅⟩ := @shift_spec _ _ 1 _ (0x7FFFFFFF#32) rfl (by decide) value₄ low₄
  rw [nlz,← value₅]
  exact ⟨low₅,BitVec.isLt _⟩

/-! ### One-word divisors -/

theorem divl_some {n : BitVec 64} {d : BitVec 32} (nonzero : d ≠ 0#32) (fits : n.toNat / d.toNat < 2 ^ 32) :
    ∃ q, divl n d = some q ∧ q.toNat = n.toNat / d.toNat := by
  refine ⟨BitVec.ofNat 32 (n.toNat / d.toNat),?_,?_⟩
  · rw [divl,if_neg]
    rintro (zero | trap)
    · exact nonzero zero
    · omega
  · rw [BitVec.toNat_ofNat,Nat.mod_eq_of_lt fits]

/-- The halves of the dividend are divided one after the other, as by hand. -/
theorem short_division {n d b : Nat} (positive : 0 < d) :
    (b * (n / b % d) + n % b) / d + b * (n / b / d) = n / d := by
  have halves : n = (b * (n / b % d) + n % b) + d * (b * (n / b / d)) := by
    calc n = b * (n / b) + n % b := (Nat.div_add_mod n b).symm
      _ = b * (d * (n / b / d) + n / b % d) + n % b := by rw [Nat.div_add_mod (n / b) d]
      _ = (b * (n / b % d) + n % b) + d * (b * (n / b / d)) := by ring
  conv_rhs => rw [halves]
  rw [Nat.add_mul_div_left _ _ positive]

theorem short_fits {n1 n0 d b : Nat} (positive : 0 < d) (low : n0 < b) : (b * (n1 % d) + n0) / d < b := by
  rw [Nat.div_lt_iff_lt_mul positive]
  have room : n1 % d + 1 ≤ d := Nat.mod_lt _ positive
  calc b * (n1 % d) + n0 < b * (n1 % d) + b := by omega
    _ = b * (n1 % d + 1) := by ring
    _ ≤ b * d := Nat.mul_le_mul_left _ room

/-! ### Two-word divisors -/

section Estimate
variable {n d s : Nat}

/-- The first word of the divisor, after its leading zeros. -/
theorem word_bounds (normal : 2 ^ 31 ≤ d / 2 ^ 32 * 2 ^ s) (fits : d / 2 ^ 32 * 2 ^ s < 2 ^ 32) (shift : s ≤ 31) :
    d * 2 ^ s < 2 ^ 64 ∧ 2 ^ 31 ≤ d * 2 ^ s / 2 ^ 32 ∧ d * 2 ^ s / 2 ^ 32 = d / 2 ^ (32 - s) := by
  have split : 2 ^ 32 = 2 ^ (32 - s) * 2 ^ s := by rw [← Nat.pow_add]; congr 1; omega
  have positive : 0 < 2 ^ s := Nat.two_pow_pos s
  have short : d / 2 ^ 32 + 1 ≤ 2 ^ (32 - s) := by
    have : d / 2 ^ 32 < 2 ^ (32 - s) := Nat.lt_of_mul_lt_mul_right (a := 2 ^ s) (by rw [← split]; exact fits)
    omega
  refine ⟨?_,?_,?_⟩
  · have below : d < (d / 2 ^ 32 + 1) * 2 ^ 32 := by omega
    calc d * 2 ^ s < (d / 2 ^ 32 + 1) * 2 ^ 32 * 2 ^ s := Nat.mul_lt_mul_of_pos_right below positive
      _ ≤ 2 ^ (32 - s) * 2 ^ 32 * 2 ^ s := Nat.mul_le_mul_right _ (Nat.mul_le_mul_right _ short)
      _ = 2 ^ (32 - s) * 2 ^ s * 2 ^ 32 := by ring
      _ = 2 ^ 64 := by rw [← split,← Nat.pow_add]
  · rw [Nat.le_div_iff_mul_le (by decide)]
    calc 2 ^ 31 * 2 ^ 32 ≤ d / 2 ^ 32 * 2 ^ s * 2 ^ 32 := Nat.mul_le_mul_right _ normal
      _ = d / 2 ^ 32 * 2 ^ 32 * 2 ^ s := by ring
      _ ≤ d * 2 ^ s := Nat.mul_le_mul_right _ (Nat.div_mul_le_self d _)
  · conv_lhs => rw [split]
    exact Nat.mul_div_mul_right _ _ positive

/-- Halving the dividend and cutting the divisor gives the quotient or one more. -/
theorem estimate (small : n < 2 ^ 64) (normal : 2 ^ 31 ≤ d / 2 ^ 32 * 2 ^ s) (fits : d / 2 ^ 32 * 2 ^ s < 2 ^ 32)
    (shift : s ≤ 31) :
    n / d ≤ n / 2 / (d * 2 ^ s / 2 ^ 32) / 2 ^ (31 - s) ∧ n / 2 / (d * 2 ^ s / 2 ^ 32) / 2 ^ (31 - s) ≤ n / d + 1 := by
  obtain ⟨_,large,cut⟩ := word_bounds normal fits shift
  have double : 2 ^ (32 - s) = 2 * 2 ^ (31 - s) := by rw [← Nat.pow_succ']; congr 1; omega
  rw [cut] at large
  have quotient : n / 2 / (d * 2 ^ s / 2 ^ 32) / 2 ^ (31 - s) = n / (d / 2 ^ (32 - s) * 2 ^ (32 - s)) := by
    rw [cut,Nat.div_div_eq_div_mul,Nat.div_div_eq_div_mul]
    congr 1
    calc 2 * (d / 2 ^ (32 - s) * 2 ^ (31 - s)) = d / 2 ^ (32 - s) * (2 * 2 ^ (31 - s)) := by ring
      _ = d / 2 ^ (32 - s) * 2 ^ (32 - s) := by rw [← double]
  rw [quotient]
  -- `D` is the divisor without the bits that the word leaves out, fewer than `e`
  generalize hD : d / 2 ^ (32 - s) * 2 ^ (32 - s) = D
  generalize he : 2 ^ (32 - s) = e at *
  have unit : 0 < e := he ▸ Nat.two_pow_pos _
  have le : D ≤ d := hD ▸ Nat.div_mul_le_self d e
  have near : d ≤ D + (e - 1) := by
    have whole : D + d % e = d := by rw [← hD,Nat.mul_comm,Nat.div_add_mod]
    have := Nat.mod_lt d unit
    omega
  have least : 2 ^ (63 - s) ≤ D := by
    calc 2 ^ (63 - s) = 2 ^ 31 * e := by rw [← he,← Nat.pow_add]; congr 1; omega
      _ ≤ d / e * e := Nat.mul_le_mul_right _ large
      _ = D := hD
  have positive : 0 < D := Nat.lt_of_lt_of_le (Nat.two_pow_pos _) least
  refine ⟨Nat.div_le_div_left le positive,?_⟩
  have bound : n / d + 1 ≤ 2 ^ (s + 1) := by
    have : n / d < 2 ^ (s + 1) := by
      rw [Nat.div_lt_iff_lt_mul (by omega)]
      calc n < 2 ^ 64 := small
        _ = 2 ^ (s + 1) * 2 ^ (63 - s) := by rw [← Nat.pow_add]; congr 1; omega
        _ ≤ 2 ^ (s + 1) * d := Nat.mul_le_mul_left _ (least.trans le)
    exact this
  have lost : (n / d + 1) * (e - 1) ≤ D := by
    refine (Nat.mul_le_mul_right _ bound).trans (Nat.le_trans ?_ least)
    by_cases last : s = 31
    · subst last
      rw [← he]
      decide
    · calc 2 ^ (s + 1) * (e - 1) ≤ 2 ^ (s + 1) * e := Nat.mul_le_mul_left _ (Nat.sub_le e 1)
        _ = 2 ^ 33 := by rw [← he,← Nat.pow_add]; congr 1; omega
        _ ≤ 2 ^ (63 - s) := Nat.pow_le_pow_right (by decide) (by omega)
  have below : n / D < n / d + 1 + 1 := by
    rw [Nat.div_lt_iff_lt_mul positive]
    have upper : n < (n / d + 1) * d := by
      have := Nat.div_add_mod n d
      have := Nat.mod_lt n (show 0 < d by omega)
      calc n = d * (n / d) + n % d := (Nat.div_add_mod n d).symm
        _ < d * (n / d) + d := by omega
        _ = (n / d + 1) * d := by ring
    calc n < (n / d + 1) * d := upper
      _ ≤ (n / d + 1) * (D + (e - 1)) := Nat.mul_le_mul_left _ near
      _ = (n / d + 1) * D + (n / d + 1) * (e - 1) := by ring
      _ ≤ (n / d + 1) * D + D := by omega
      _ = (n / d + 1 + 1) * D := by ring
  omega

end Estimate

/-- The last test takes the estimate down by one if it is one too many. -/
theorem corrected {n d q : BitVec 64} (nonzero : 0 < d.toNat) (order : d.toNat ≤ n.toNat)
    (low : n.toNat / d.toNat ≤ q.toNat) (high : q.toNat ≤ n.toNat / d.toNat + 1) :
    (if n - (q - 1#64) * d < d then q - 1#64 else q).toNat = n.toNat / d.toNat := by
  have one : 1 ≤ n.toNat / d.toNat := (Nat.one_le_div_iff nonzero).mpr order
  have less : (q - 1#64).toNat = q.toNat - 1 := BitVec.toNat_sub_of_le (show (1#64).toNat ≤ q.toNat by simp; omega)
  have whole : (q.toNat - 1) * d.toNat ≤ n.toNat :=
    (Nat.mul_le_mul_right _ (show q.toNat - 1 ≤ n.toNat / d.toNat by omega)).trans (Nat.div_mul_le_self _ _)
  have product : ((q - 1#64) * d).toNat = (q.toNat - 1) * d.toNat := by
    rw [BitVec.toNat_mul,less,Nat.mod_eq_of_lt (by omega)]
  have rest : (n - (q - 1#64) * d).toNat = n.toNat - (q.toNat - 1) * d.toNat := by
    rw [BitVec.toNat_sub_of_le (by rw [BitVec.le_def,product]; exact whole),product]
  have divides := Nat.div_add_mod n.toNat d.toNat
  have mod := Nat.mod_lt n.toNat nonzero
  by_cases same : q.toNat = n.toNat / d.toNat
  · rw [if_neg]
    · exact same
    · rw [BitVec.lt_def,rest]
      have : (q.toNat - 1) * d.toNat + d.toNat ≤ n.toNat := by
        calc (q.toNat - 1) * d.toNat + d.toNat = (q.toNat - 1 + 1) * d.toNat := by ring
          _ = n.toNat / d.toNat * d.toNat := by rw [← same]; congr 1; omega
          _ ≤ n.toNat := Nat.div_mul_le_self _ _
      omega
  · have more : q.toNat - 1 = n.toNat / d.toNat := by omega
    rw [if_pos]
    · rw [less,more]
    · rw [BitVec.lt_def,rest,more,Nat.mul_comm]
      omega

/-! ### The division -/

theorem nlz_le {x : BitVec 32} (nonzero : x ≠ 0#32) : nlz x ≤ 31 := by
  have bounds := nlz_spec nonzero
  have positive : 0 < x.toNat := Nat.pos_of_ne_zero fun zero => nonzero (BitVec.eq_of_toNat_eq zero)
  have below : 2 ^ nlz x < 2 ^ 32 := Nat.lt_of_le_of_lt (Nat.le_mul_of_pos_left _ positive) bounds.2
  have := (Nat.pow_lt_pow_iff_right (by decide)).mp below
  omega

theorem high_word (x : BitVec 64) : ((x >>> 32).setWidth 32).toNat = x.toNat / 2 ^ 32 := by
  have := x.isLt
  rw [BitVec.toNat_setWidth,BitVec.toNat_ushiftRight,Nat.shiftRight_eq_div_pow,Nat.mod_eq_of_lt (by omega)]

theorem high_zero (x : BitVec 64) : x >>> 32 = 0#64 ↔ x.toNat < 2 ^ 32 := by
  rw [← BitVec.toNat_inj,BitVec.toNat_ushiftRight,Nat.shiftRight_eq_div_pow,BitVec.toNat_ofNat]
  omega

theorem udiv64_short {n d : BitVec 64} (nonzero : d ≠ 0#64) (short : d >>> 32 = 0#64) :
    ∃ q, udiv64 n d = some q ∧ q.toNat = n.toNat / d.toNat := by
  have small := (high_zero d).mp short
  have positive : 0 < d.toNat := Nat.pos_of_ne_zero fun zero => nonzero (BitVec.eq_of_toNat_eq zero)
  have low : (n.setWidth 32).toNat = n.toNat % 2 ^ 32 := BitVec.toNat_setWidth ..
  have divisor : (d.setWidth 32).toNat = d.toNat := by rw [BitVec.toNat_setWidth,Nat.mod_eq_of_lt small]
  have fits := @short_fits (n.toNat / 2 ^ 32) _ _ _ positive (Nat.mod_lt n.toNat (show 0 < 2 ^ 32 by decide))
  have mod : n.toNat / 2 ^ 32 % d.toNat < d.toNat := Nat.mod_lt _ positive
  have whole := n.isLt
  have unit : (1#64 <<< 32).toNat = 2 ^ 32 := rfl
  have dividend : (1#64 <<< 32 * (((n >>> 32).setWidth 32) % d.setWidth 32).setWidth 64 + (n.setWidth 32).setWidth 64).toNat =
      2 ^ 32 * (n.toNat / 2 ^ 32 % d.toNat) + n.toNat % 2 ^ 32 := by
    rw [BitVec.toNat_add,BitVec.toNat_mul,unit,BitVec.toNat_setWidth,BitVec.toNat_setWidth,BitVec.toNat_umod,high_word,low,
      divisor]
    omega
  obtain ⟨q,divided,value⟩ := divl_some (d := d.setWidth 32) (fun zero => by simp [zero] at divisor; omega)
    (by rw [dividend,divisor]; exact fits)
  refine ⟨_,by rw [udiv64,if_pos short]; simp only [divided,Option.map_some]; rfl,?_⟩
  have sum := short_division (n := n.toNat) (b := 2 ^ 32) positive
  have upper : n.toNat / d.toNat < 2 ^ 64 := Nat.lt_of_le_of_lt (Nat.div_le_self _ _) whole
  have high : n.toNat / 2 ^ 32 / d.toNat < 2 ^ 32 := Nat.lt_of_le_of_lt (Nat.div_le_self _ _) (by omega)
  rw [dividend,divisor] at value
  rw [BitVec.toNat_add,BitVec.toNat_mul,unit,BitVec.toNat_setWidth,BitVec.toNat_setWidth,BitVec.toNat_udiv,high_word,divisor,
    value]
  rw [Nat.mod_eq_of_lt (a := n.toNat / 2 ^ 32 / d.toNat) (by omega),Nat.mod_eq_of_lt (a := _ / d.toNat) (by omega),
    Nat.mod_eq_of_lt (a := 2 ^ 32 * _) (by omega),sum,Nat.mod_eq_of_lt upper]

theorem udiv64_long {n d : BitVec 64} (long : d >>> 32 ≠ 0#64) : ∃ q, udiv64 n d = some q ∧ q.toNat = n.toNat / d.toNat := by
  have large : 2 ^ 32 ≤ d.toNat := Nat.le_of_not_lt fun small => long ((high_zero d).mpr small)
  by_cases order : n < d
  · refine ⟨0#64,by rw [udiv64,if_neg long,if_pos order],?_⟩
    exact (Nat.div_eq_of_lt (BitVec.lt_def.mp order)).symm
  have order : d.toNat ≤ n.toNat := Nat.le_of_not_lt fun less => order (BitVec.lt_def.mpr less)
  have whole := n.isLt
  have word := high_word d
  have nonzero : (d >>> 32).setWidth 32 ≠ 0#32 := fun zero => by
    rw [zero,BitVec.toNat_ofNat] at word
    omega
  obtain ⟨normal,fits⟩ := nlz_spec nonzero
  have shift := nlz_le nonzero
  rw [word] at normal fits
  generalize front : nlz ((d >>> 32).setWidth 32) = s at *
  obtain ⟨room,most,_⟩ := word_bounds normal fits shift
  have divisor : (((d <<< s) >>> 32).setWidth 32).toNat = d.toNat * 2 ^ s / 2 ^ 32 := by
    rw [high_word,BitVec.toNat_shiftLeft,Nat.shiftLeft_eq,Nat.mod_eq_of_lt room]
  have dividend : (n >>> 1).toNat = n.toNat / 2 := by rw [BitVec.toNat_ushiftRight,Nat.shiftRight_eq_div_pow,Nat.pow_one]
  have untrapped : n.toNat / 2 / (d.toNat * 2 ^ s / 2 ^ 32) < 2 ^ 32 := by
    rw [Nat.div_lt_iff_lt_mul (by omega)]
    omega
  obtain ⟨q,divided,value⟩ := divl_some (n := n >>> 1) (d := ((d <<< s) >>> 32).setWidth 32)
    (fun zero => by rw [zero,BitVec.toNat_ofNat] at divisor; omega) (by rw [dividend,divisor]; exact untrapped)
  refine ⟨_,by rw [udiv64,if_neg long,if_neg (by rw [BitVec.lt_def]; omega)]; simp only [front,divided,Option.map_some]; rfl,?_⟩
  have shifted : ((q >>> (31 - s)).setWidth 64).toNat = n.toNat / 2 / (d.toNat * 2 ^ s / 2 ^ 32) / 2 ^ (31 - s) := by
    rw [BitVec.toNat_setWidth,BitVec.toNat_ushiftRight,Nat.shiftRight_eq_div_pow,value,dividend,divisor,Nat.mod_eq_of_lt]
    exact Nat.lt_of_le_of_lt (Nat.div_le_self _ _) (by omega)
  obtain ⟨low,high⟩ := estimate whole normal fits shift
  exact corrected (by omega) order (by rw [shifted]; exact low) (by rw [shifted]; exact high)

theorem udiv64_spec {n d : BitVec 64} (nonzero : d ≠ 0#64) : ∃ q, udiv64 n d = some q ∧ q.toNat = n.toNat / d.toNat := by
  by_cases short : d >>> 32 = 0#64
  · exact udiv64_short nonzero short
  · exact udiv64_long short

/-! ### The signed division -/

theorem abs_toNat (x : BitVec 64) : (if x.toInt ≥ 0 then x else -x).toNat = x.toInt.natAbs := by
  have bounds := x.isLt
  have value := BitVec.toInt_eq_toNat_cond x
  by_cases sign : x.toInt ≥ 0
  · rw [if_pos sign]
    split at value <;> omega
  · rw [if_neg sign,BitVec.toNat_neg]
    split at value <;> omega

/-- The quotient has the size of the quotient of the sizes, and is negative for operands of two signs. -/
theorem tdiv_signs (n d : Int) :
    n.tdiv d = if (n < 0) = (d < 0) then ((n.natAbs / d.natAbs : Nat) : Int) else -((n.natAbs / d.natAbs : Nat) : Int) := by
  rcases Int.natAbs_eq n with pn | pn <;> rcases Int.natAbs_eq d with pd | pd <;> generalize n.natAbs = a at * <;>
    generalize d.natAbs = b at * <;> subst pn pd
  · rw [Int.ofNat_tdiv,if_pos (by simp only [eq_iff_iff]; omega)]
  · rw [Int.tdiv_neg,Int.ofNat_tdiv]
    by_cases zero : b = 0
    · subst zero
      simp
    · rw [if_neg (by simp only [eq_iff_iff]; omega)]
  · rw [Int.neg_tdiv,Int.ofNat_tdiv]
    by_cases zero : a = 0
    · subst zero
      simp
    · rw [if_neg (by simp only [eq_iff_iff]; omega)]
  · rw [Int.neg_tdiv,Int.tdiv_neg,Int.ofNat_tdiv,neg_neg]
    by_cases zero : a = 0
    · subst zero
      simp
    · by_cases none : b = 0
      · subst none
        simp
      · rw [if_pos (by simp only [eq_iff_iff]; omega)]

theorem sdiv64_spec {n d : BitVec 64} (nonzero : d ≠ 0#64) (inside : ¬(n.toInt = -2 ^ 63 ∧ d.toInt = -1)) :
    ∃ q, sdiv64 n d = some q ∧ q.toInt = n.toInt.tdiv d.toInt := by
  have nonzero_abs : (if d.toInt ≥ 0 then d else -d) ≠ 0#64 := fun zero => by
    have size := abs_toNat d
    rw [zero] at size
    exact nonzero (BitVec.eq_of_toInt_eq (Int.natAbs_eq_zero.mp size.symm))
  obtain ⟨q,divided,value⟩ := udiv64_spec (n := if n.toInt ≥ 0 then n else -n) nonzero_abs
  rw [abs_toNat,abs_toNat] at value
  refine ⟨if (n.toInt < 0) = (d.toInt < 0) then q else -q,by simp only [sdiv64,divided,Option.map_some],?_⟩
  rw [tdiv_signs,← value]
  have least : -2 ^ 63 ≤ n.toInt := BitVec.le_toInt n
  have most : n.toInt < 2 ^ 63 := BitVec.toInt_lt
  have size : q.toNat ≤ 2 ^ 63 := by
    rw [value]
    exact (Nat.div_le_self _ _).trans (by omega)
  have signed := BitVec.toInt_eq_toNat_cond q
  by_cases signs : (n.toInt < 0) = (d.toInt < 0)
  · -- only the excluded pair has a quotient of `2 ^ 63`
    have fits : q.toNat < 2 ^ 63 := by
      have positive : 0 < d.toInt.natAbs := Int.natAbs_pos.mpr fun zero => nonzero (BitVec.eq_of_toInt_eq zero)
      rw [value,Nat.div_lt_iff_lt_mul positive]
      simp only [eq_iff_iff] at signs
      omega
    rw [if_pos signs,if_pos signs,signed,if_pos (by omega)]
  · have negated := BitVec.toInt_eq_toNat_cond (-q)
    rw [BitVec.toNat_neg] at negated
    rw [if_neg signs,if_neg signs,negated]
    split <;> omega

/-- The quotients of the 64-bit division are exact. No instruction traps: one that does has no result, nor has
the division then. -/
theorem division_exact (n d : BitVec 64) (nonzero : d ≠ 0#64) :
    (∃ q, udiv64 n d = some q ∧ q.toNat = n.toNat / d.toNat) ∧
    (¬(n.toInt = -2 ^ 63 ∧ d.toInt = -1) → ∃ q, __divdi3 n d = some q ∧ q.toInt = n.toInt.tdiv d.toInt) :=
  ⟨udiv64_spec nonzero,sdiv64_spec nonzero⟩

theorem division_exact_minus_seven :
    (∃ q, udiv64 (-7#64) 0x100000001#64 = some q ∧ q.toNat = (-7#64).toNat / (0x100000001#64).toNat) ∧
    ∃ q, __divdi3 (-7#64) 0x100000001#64 = some q ∧ q.toInt = (-7#64).toInt.tdiv (0x100000001#64).toInt :=
  ⟨(division_exact (-7#64) 0x100000001#64 (by decide)).1,(division_exact (-7#64) 0x100000001#64 (by decide)).2 (by decide)⟩

/-! ### The remainders -/

theorem umod64_spec {n d : BitVec 64} (nonzero : d ≠ 0#64) :
    ∃ r, __umoddi3 n d = some r ∧ r.toNat = n.toNat % d.toNat % 2 ^ 32 := by
  obtain ⟨q,divided,value⟩ := @udiv64_spec n d nonzero
  refine ⟨_,by simp only [__umoddi3,umod64,divided,Option.map_some]; rfl,?_⟩
  have whole := n.isLt
  have split := Nat.div_add_mod n.toNat d.toNat
  have product : (d * q).toNat = d.toNat * (n.toNat / d.toNat) := by
    rw [BitVec.toNat_mul,value,Nat.mod_eq_of_lt (by omega)]
  have rest : (n - d * q).toNat = n.toNat % d.toNat := by
    rw [BitVec.toNat_sub_of_le (by rw [BitVec.le_def,product]; omega),product]
    omega
  rw [BitVec.toNat_setWidth,BitVec.toNat_setWidth,rest]
  omega

/-- What two widths make of a number is what the narrower makes of it. -/
theorem toInt_narrow (x : BitVec 64) {y : Int} (value : x.toInt = y.bmod (2 ^ 64)) : (x.setWidth 32).toInt = y.bmod (2 ^ 32) := by
  have whole : (x.toNat : Int).bmod (2 ^ 64) = y.bmod (2 ^ 64) := by rw [← value,BitVec.toInt_eq_toNat_bmod]
  rw [BitVec.toInt_setWidth,← Int.bmod_bmod_of_dvd (m := 2 ^ 64) (by decide),whole,Int.bmod_bmod_of_dvd (by decide)]

theorem smod64_spec {n d : BitVec 64} (nonzero : d ≠ 0#64) (inside : ¬(n.toInt = -2 ^ 63 ∧ d.toInt = -1)) :
    ∃ r, __moddi3 n d = some r ∧ r.toInt = (n.toInt - d.toInt * n.toInt.tdiv d.toInt).bmod (2 ^ 32) := by
  obtain ⟨q,divided,value⟩ := sdiv64_spec nonzero inside
  refine ⟨_,by simp only [__moddi3,smod64,divided,Option.map_some]; rfl,?_⟩
  rw [BitVec.toInt_signExtend_of_le (by decide)]
  refine toInt_narrow _ ?_
  rw [BitVec.toInt_sub,BitVec.toInt_mul,Int.sub_bmod_bmod,value]

/-- `umod64` and `smod64` cut the remainder to 32 bits: it is exact where it has no more. -/
theorem remainder_exact_iff (n d : BitVec 64) (nonzero : d ≠ 0#64) :
    ((∃ r, __umoddi3 n d = some r ∧ r.toNat = n.toNat % d.toNat) ↔ n.toNat % d.toNat < 2 ^ 32) ∧
    (¬(n.toInt = -2 ^ 63 ∧ d.toInt = -1) →
      ((∃ r, __moddi3 n d = some r ∧ r.toInt = n.toInt - d.toInt * n.toInt.tdiv d.toInt) ↔
        -2 ^ 31 ≤ n.toInt - d.toInt * n.toInt.tdiv d.toInt ∧ n.toInt - d.toInt * n.toInt.tdiv d.toInt < 2 ^ 31)) := by
  constructor
  · obtain ⟨r,ran,value⟩ := @umod64_spec n d nonzero
    constructor
    · rintro ⟨r',ran',exact_⟩
      cases ran.symm.trans ran'
      omega
    · exact fun small => ⟨r,ran,by rw [value,Nat.mod_eq_of_lt small]⟩
  · intro inside
    obtain ⟨r,ran,value⟩ := smod64_spec nonzero inside
    constructor
    · rintro ⟨r',ran',exact_⟩
      cases ran.symm.trans ran'
      rw [← exact_,value]
      exact ⟨Int.le_bmod (by decide),Int.bmod_lt (by decide)⟩
    · exact fun small => ⟨r,ran,by rw [value,Int.bmod_eq_of_le small.1 small.2]⟩

theorem remainder_exact_minus_seven :
    (∃ r, __umoddi3 (-7#64) 0x100000001#64 = some r ∧ r.toNat = (-7#64).toNat % (0x100000001#64).toNat) ∧
    ∃ r, __moddi3 (-7#64) 3#64 = some r ∧ r.toInt = (-7#64).toInt - (3#64).toInt * (-7#64).toInt.tdiv (3#64).toInt :=
  ⟨(remainder_exact_iff (-7#64) 0x100000001#64 (by decide)).1.mpr (by decide),
    ((remainder_exact_iff (-7#64) 3#64 (by decide)).2 (by decide)).mpr (by decide)⟩

/-- Remainders of 33 bits, and of 32 bits and a sign. -/
theorem remainder_cut :
    (¬ ∃ r, __umoddi3 0x100000000#64 0x200000000#64 = some r ∧ r.toNat = (0x100000000#64).toNat % (0x200000000#64).toNat) ∧
    ¬ ∃ r, __moddi3 0x80000000#64 0x100000000#64 = some r ∧
      r.toInt = (0x80000000#64).toInt - (0x100000000#64).toInt * (0x80000000#64).toInt.tdiv (0x100000000#64).toInt := by
  have unsigned : __umoddi3 0x100000000#64 0x200000000#64 = some 0#64 := by decide +kernel
  have signed : __moddi3 0x80000000#64 0x100000000#64 = some (-0x80000000#64) := by decide +kernel
  constructor
  · rintro ⟨r,ran,exact_⟩
    cases unsigned.symm.trans ran
    exact absurd exact_ (by decide)
  · rintro ⟨r,ran,exact_⟩
    cases signed.symm.trans ran
    exact absurd exact_ (by decide)

end Pintos.Arithmetic
