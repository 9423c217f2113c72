import Mathlib.Data.Nat.Size
import Mathlib.Data.BitVec
import Mathlib.Tactic.Ring

/-!
`timer_calibrate` of `devices/timer.c`: the loops that a timer tick has time for, found
bit by bit. The refinement tests each bit with the highest one alone, not with the bits
that were taken before it.
-/
namespace Pintos.Calibration
set_option linter.unusedSimpArgs false

abbrev Word := BitVec 32

/-- `passed loops` is by how much `ticks` grows in so many turns of `busy_wait` that
    begin at a tick. -/
def too_many_loops (passed : Nat → Nat) (loops : Word) : Bool := passed loops.toNat != 0

/-- The first loop, of at most so many turns; no result when the assertion fails. -/
def approximate (passed : Nat → Nat) : Nat → Word → Option Word
  | 0, _ => none
  | n + 1, loops_per_tick =>
    if too_many_loops passed (loops_per_tick <<< 1) then some loops_per_tick
    else if loops_per_tick <<< 1 ≠ 0 then approximate passed n (loops_per_tick <<< 1) else none

/-- The loop over `test_bit`, of at most so many turns. -/
def refine_bits (passed : Nat → Nat) (high_bit : Word) : Nat → Word → Word → Word
  | 0, _, loops_per_tick => loops_per_tick
  | n + 1, test_bit, loops_per_tick =>
    if test_bit ≠ high_bit >>> 10 then
      refine_bits passed high_bit n (test_bit >>> 1)
        (if too_many_loops passed (high_bit ||| test_bit) then loops_per_tick else loops_per_tick ||| test_bit)
    else loops_per_tick

/-- `loops_per_tick` at the end. -/
def timer_calibrate (passed : Nat → Nat) : Option Word :=
  -- A bit is shifted out of a word in 32 turns.
  (approximate passed 32 (1#32 <<< 10)).map fun high_bit => refine_bits passed high_bit 32 (high_bit >>> 1) high_bit

/-- The machine has time for so many loops in a tick. -/
def Threshold (passed : Nat → Nat) (T : Nat) : Prop := ∀ loops, too_many_loops passed loops = true ↔ T < loops.toNat

/-- Below the highest bit of the threshold there are some zeros among the next nine bits,
    and then only ones. -/
def OnesAtLast (T : Nat) : Prop := ∃ ones ≤ 9, T / 2 ^ (Nat.log2 T - 9) = 2 ^ 9 + (2 ^ ones - 1)

variable {passed : Nat → Nat} {T R k i n a : Nat} {high_bit test_bit loops_per_tick : Word}

theorem or_lower (multiple : 2 ^ (i + 1) ∣ a) : a ||| 2 ^ i = a + 2 ^ i := by
  obtain ⟨c,rfl⟩ := multiple
  exact (Nat.two_pow_add_eq_or_of_lt (Nat.pow_lt_pow_right (by decide) (Nat.lt_succ_self i)) c).symm

/-- The first loop ends with the highest bit of the threshold. -/
theorem approximate_spec (threshold : Threshold passed T) (high : T < 2 ^ 31) (bit : loops_per_tick.toNat = 2 ^ i) (low : 2 ^ i ≤ T)
    (enough : 31 ≤ i + n) : ∃ high_bit, approximate passed n loops_per_tick = some high_bit ∧ high_bit.toNat = 2 ^ Nat.log2 T := by
  have below : i < 31 := (Nat.pow_lt_pow_iff_right (by decide)).mp (Nat.lt_of_le_of_lt low high)
  induction n generalizing i loops_per_tick with
  | zero => omega
  | succ n ih =>
    have twice : (loops_per_tick <<< 1).toNat = 2 ^ (i + 1) := by
      have fits : 2 ^ (i + 1) < 2 ^ 32 := Nat.pow_lt_pow_right (by decide) (by omega)
      rw [BitVec.toNat_shiftLeft,bit,Nat.shiftLeft_eq,← Nat.pow_succ,Nat.mod_eq_of_lt fits]
    have test := threshold (loops_per_tick <<< 1)
    rw [twice] at test
    rw [approximate]
    by_cases above : T < 2 ^ (i + 1)
    · refine ⟨loops_per_tick,if_pos (test.mpr above),?_⟩
      rw [bit,(Nat.log2_eq_iff (by have := Nat.two_pow_pos i; omega)).mpr ⟨low,above⟩]
    · have nonzero : loops_per_tick <<< 1 ≠ 0 := by
        intro zero
        rw [zero] at twice
        exact absurd twice.symm (Nat.two_pow_pos (i + 1)).ne'
      rw [if_neg (mt test.mp above),if_pos nonzero]
      have more : 2 ^ (i + 1) ≤ T := Nat.le_of_not_lt above
      exact ih twice more (by omega) ((Nat.pow_lt_pow_iff_right (by decide)).mp (Nat.lt_of_le_of_lt more high))

/-- Once a bit is taken, every later one is: alone with the highest bit, it is not too much. -/
theorem refine_bits_spec (threshold : Threshold passed (2 ^ k + R)) (rest : R < 2 ^ k) (low : 10 ≤ k) (high : k < 31)
    (top : high_bit.toNat = 2 ^ k) (bit : test_bit.toNat = 2 ^ i) (from_ : k - 10 ≤ i) (below : i < k) (enough : i ≤ n + (k - 10))
    (taken : loops_per_tick.toNat = 2 ^ k + (2 ^ Nat.size R - 2 ^ (i + 1))) :
    (refine_bits passed high_bit n test_bit loops_per_tick).toNat = 2 ^ k + (2 ^ Nat.size R - 2 ^ (k - 9)) := by
  induction n generalizing i test_bit loops_per_tick with
  | zero =>
    obtain rfl : i = k - 10 := by omega
    rwa [show k - 10 + 1 = k - 9 by omega] at taken
  | succ n ih =>
    have last : (high_bit >>> 10).toNat = 2 ^ (k - 10) := by
      rw [BitVec.toNat_ushiftRight,top,Nat.shiftRight_eq_div_pow,Nat.pow_div low (by decide)]
    have same_bit : test_bit = high_bit >>> 10 ↔ i = k - 10 := by
      rw [← BitVec.toNat_inj,bit,last]
      exact Nat.pow_right_inj (by decide)
    rw [refine_bits]
    by_cases ended : i = k - 10
    · rw [if_neg (not_not.mpr (same_bit.mpr ended)),taken,ended,show k - 10 + 1 = k - 9 by omega]
    · rw [if_pos (mt same_bit.mp ended)]
      have next_bit : (test_bit >>> 1).toNat = 2 ^ (i - 1) := by
        rw [BitVec.toNat_ushiftRight,bit,Nat.shiftRight_eq_div_pow,Nat.pow_div (by omega) (by decide)]
      refine ih next_bit (by omega) (by omega) (by omega) ?_
      rw [show i - 1 + 1 = i by omega]
      have test := threshold (high_bit ||| test_bit)
      rw [BitVec.toNat_or,top,bit,or_lower (Nat.pow_dvd_pow 2 below),Nat.add_lt_add_iff_left,← Nat.size_le] at test
      have sized : Nat.size R ≤ k := Nat.size_le.mpr rest
      by_cases large : Nat.size R ≤ i
      · have less : 2 ^ Nat.size R ≤ 2 ^ i := Nat.pow_le_pow_right (by decide) large
        have twice : 2 ^ (i + 1) = 2 * 2 ^ i := Nat.pow_succ'
        rw [if_pos (test.mpr large),taken]
        omega
      · have multiple : 2 ^ (i + 1) ∣ loops_per_tick.toNat := by
          rw [taken]
          exact Nat.dvd_add (Nat.pow_dvd_pow 2 below) (Nat.dvd_sub (Nat.pow_dvd_pow 2 (by omega)) (dvd_refl _))
        have less : 2 ^ (i + 1) ≤ 2 ^ Nat.size R := Nat.pow_le_pow_right (by decide) (by omega)
        have twice : 2 ^ (i + 1) = 2 * 2 ^ i := Nat.pow_succ'
        rw [if_neg (mt test.mp large),BitVec.toNat_or,bit,or_lower multiple,taken]
        omega

/-- What the calibration ends with: the highest bit, and ones from the next bit of the
    threshold on. -/
theorem timer_calibrate_spec (threshold : Threshold passed (2 ^ k + R)) (rest : R < 2 ^ k) (low : 10 ≤ k) (high : k < 31) :
    ∃ loops, timer_calibrate passed = some loops ∧ loops.toNat = 2 ^ k + (2 ^ Nat.size R - 2 ^ (k - 9)) := by
  have top : Nat.log2 (2 ^ k + R) = k := by
    rw [Nat.log2_eq_iff (by have := Nat.two_pow_pos k; omega),Nat.pow_succ]
    omega
  have small : 2 ^ k + R < 2 ^ 31 := by
    have sum : 2 ^ (k + 1) ≤ 2 ^ 31 := Nat.pow_le_pow_right (by decide) (by omega)
    rw [Nat.pow_succ] at sum
    omega
  have first : (1#32 <<< 10).toNat = 2 ^ 10 := by decide
  have from_ : 2 ^ 10 ≤ 2 ^ k + R := Nat.le_trans (Nat.pow_le_pow_right (by decide) low) (Nat.le_add_right _ _)
  obtain ⟨high_bit,found,bit⟩ := approximate_spec (n := 32) threshold small first from_ (by decide)
  rw [top] at bit
  refine ⟨_,by rw [timer_calibrate,found]; rfl,?_⟩
  have half : (high_bit >>> 1).toNat = 2 ^ (k - 1) := by
    rw [BitVec.toNat_ushiftRight,bit,Nat.shiftRight_eq_div_pow,Nat.pow_div (by omega) (by decide)]
  refine refine_bits_spec threshold rest low high bit half (by omega) (by omega) (by omega) ?_
  have none : 2 ^ Nat.size R ≤ 2 ^ k := Nat.pow_le_pow_right (by decide) (Nat.size_le.mpr rest)
  rw [bit,show k - 1 + 1 = k by omega]
  omega

/-- The bits taken are not too many exactly when those of the threshold are ones to the last. -/
theorem taken_le_iff {m : Nat} : 2 ^ Nat.size R - 2 ^ m ≤ R ↔ ∃ ones, R / 2 ^ m = 2 ^ ones - 1 := by
  have unit := Nat.two_pow_pos m
  constructor
  · intro fits
    by_cases large : m ≤ Nat.size R
    · refine ⟨Nat.size R - m,?_⟩
      have whole : 2 ^ Nat.size R = 2 ^ (Nat.size R - m) * 2 ^ m := by rw [← Nat.pow_add,Nat.sub_add_cancel large]
      rw [Nat.div_eq_iff unit,Nat.sub_mul,Nat.one_mul,← whole]
      have above := Nat.lt_size_self R
      have positive := Nat.two_pow_pos (Nat.size R - m)
      omega
    · refine ⟨0,Nat.div_eq_of_lt (Nat.size_le.mp (by omega))⟩
  · rintro ⟨ones,quotient⟩
    rw [Nat.div_eq_iff unit,Nat.sub_mul,Nat.one_mul,← Nat.pow_add] at quotient
    have positive : 2 ^ m ≤ 2 ^ (ones + m) := Nat.pow_le_pow_right (by decide) (by omega)
    have sized : Nat.size R ≤ ones + m := Nat.size_le.mpr (by omega)
    have less : 2 ^ Nat.size R ≤ 2 ^ (ones + m) := Nat.pow_le_pow_right (by decide) sized
    omega

/-- On a machine with time for `T` loops in a tick the calibration ends at most at `T`, and
    with the first bits of it, exactly when the bits of `T` below the highest one are zeros
    and then ones. -/
theorem calibration_right_iff (threshold : Threshold passed T) (low : 2 ^ 10 ≤ T) (high : T < 2 ^ 31) :
    (∃ loops, timer_calibrate passed = some loops ∧ loops.toNat ≤ T ∧ T < loops.toNat + 2 ^ Nat.log2 T >>> 9) ↔ OnesAtLast T := by
  obtain ⟨k,named⟩ : ∃ k, Nat.log2 T = k := ⟨_,rfl⟩
  obtain ⟨large,above⟩ := (Nat.log2_eq_iff (show T ≠ 0 by omega)).mp named
  have k_low : 10 ≤ k := Nat.lt_succ_iff.mp ((Nat.pow_lt_pow_iff_right (by decide)).mp (Nat.lt_of_le_of_lt low above))
  have k_high : k < 31 := (Nat.pow_lt_pow_iff_right (by decide)).mp (Nat.lt_of_le_of_lt large high)
  obtain ⟨R,rfl⟩ : ∃ R, T = 2 ^ k + R := ⟨T - 2 ^ k,by omega⟩
  have rest : R < 2 ^ k := by
    rw [Nat.pow_succ] at above
    omega
  have split : 2 ^ k = 2 ^ 9 * 2 ^ (k - 9) := by rw [← Nat.pow_add,show 9 + (k - 9) = k by omega]
  have unit : 2 ^ k >>> 9 = 2 ^ (k - 9) := by rw [Nat.shiftRight_eq_div_pow,Nat.pow_div (by omega) (by decide)]
  have quotient : (2 ^ k + R) / 2 ^ (k - 9) = 2 ^ 9 + R / 2 ^ (k - 9) := by
    rw [split,Nat.mul_comm,Nat.mul_add_div (Nat.two_pow_pos _)]
  obtain ⟨loops,ran,value⟩ := timer_calibrate_spec threshold rest k_low k_high
  rw [OnesAtLast,named,unit,quotient]
  constructor
  · rintro ⟨loops',ran',fits,_⟩
    obtain rfl := Option.some.inj (ran.symm.trans ran')
    obtain ⟨ones,few⟩ := taken_le_iff.mp (show 2 ^ Nat.size R - 2 ^ (k - 9) ≤ R by omega)
    refine ⟨ones,?_,by rw [few]⟩
    have bounded : R / 2 ^ (k - 9) < 2 ^ 9 := Nat.div_lt_of_lt_mul (by rwa [Nat.mul_comm,← split])
    refine Nat.lt_succ_iff.mp ((Nat.pow_lt_pow_iff_right (a := 2) (by decide)).mp ?_)
    have positive := Nat.two_pow_pos ones
    omega
  · rintro ⟨ones,_,few⟩
    have fits := taken_le_iff.mpr ⟨ones,show R / 2 ^ (k - 9) = 2 ^ ones - 1 by omega⟩
    have above := Nat.lt_size_self R
    refine ⟨loops,ran,by omega,?_⟩
    omega

/-- The machine with time for 1024 loops. -/
theorem calibration_right_low_bit : (∃ loops, timer_calibrate (fun n => if 1024 < n then 1 else 0) = some loops ∧
    loops.toNat ≤ 1024 ∧ 1024 < loops.toNat + 2 ^ Nat.log2 1024 >>> 9) ↔ OnesAtLast 1024 :=
  calibration_right_iff (fun loops => by rw [too_many_loops]; split <;> simp [*]) (by decide) (by decide)

/-- With time for 1536 loops the calibration ends with 2046: the bit for 512 is one of the
    threshold, and those below it are tested without it. -/
theorem calibration_overshoots : ¬ ∀ passed T, Threshold passed T → 2 ^ 10 ≤ T → T < 2 ^ 31 →
    ∃ loops, timer_calibrate passed = some loops ∧ loops.toNat ≤ T ∧ T < loops.toNat + 2 ^ Nat.log2 T >>> 9 := by
  intro claim
  have threshold : Threshold (fun n => if 1536 < n then 1 else 0) 1536 := fun loops => by
    rw [too_many_loops]
    split <;> simp [*]
  obtain ⟨loops,ran,fits,_⟩ := claim _ _ threshold (by decide) (by decide)
  have ends : timer_calibrate (fun n => if 1536 < n then 1 else 0) = some 2046#32 := by decide
  obtain rfl := Option.some.inj (ends.symm.trans ran)
  exact absurd fits (by decide)

end Pintos.Calibration
