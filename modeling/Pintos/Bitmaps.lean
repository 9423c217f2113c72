import Mathlib.Logic.Function.Basic
import Mathlib.Data.Nat.Find

/-!
Words as bytes in memory, and the bitmaps of `lib/kernel/bitmap.c`. An assertion that
fails has no result. The memory of a new bitmap holds anything; `bitmap_create` clears
the bits of the map, and leaves the rest of the last element as it was.
-/
namespace Pintos.Bitmaps
set_option linter.unusedSimpArgs false

abbrev Byte := BitVec 8

/-- Byte `k` of a word, the least significant first. -/
def byte_of (w : BitVec 32) (k : Nat) : Byte := w.extractLsb' (8 * k) 8
def word_of (b : Nat → Byte) : BitVec 32 := b 3 ++ b 2 ++ b 1 ++ b 0

def ELEM_BITS : Nat := 32

/-- `struct bitmap`; `bits` are its elements. -/
structure Bitmap where
  bit_cnt : Nat
  bits : Nat → BitVec 32

def elem_idx (bit_idx : Nat) : Nat := bit_idx / ELEM_BITS
def bit_mask (bit_idx : Nat) : BitVec 32 := 1#32 <<< (bit_idx % ELEM_BITS)
/-- `DIV_ROUND_UP (bit_cnt, ELEM_BITS)` -/
def elem_cnt (bit_cnt : Nat) : Nat := (bit_cnt + ELEM_BITS - 1) / ELEM_BITS
def byte_cnt (bit_cnt : Nat) : Nat := 4 * elem_cnt bit_cnt
def last_mask (b : Bitmap) : BitVec 32 :=
  if b.bit_cnt % ELEM_BITS ≠ 0 then (1#32 <<< (b.bit_cnt % ELEM_BITS)) - 1#32 else BitVec.allOnes 32

def bitmap_mark (b : Bitmap) (bit_idx : Nat) : Bitmap :=
  { b with bits := Function.update b.bits (elem_idx bit_idx) (b.bits (elem_idx bit_idx) ||| bit_mask bit_idx) }
def bitmap_reset (b : Bitmap) (bit_idx : Nat) : Bitmap :=
  { b with bits := Function.update b.bits (elem_idx bit_idx) (b.bits (elem_idx bit_idx) &&& ~~~ bit_mask bit_idx) }
def bitmap_flip (b : Bitmap) (bit_idx : Nat) : Bitmap :=
  { b with bits := Function.update b.bits (elem_idx bit_idx) (b.bits (elem_idx bit_idx) ^^^ bit_mask bit_idx) }
def bitmap_set (b : Bitmap) (idx : Nat) (value : Bool) : Option Bitmap :=
  if idx < b.bit_cnt then some (if value then bitmap_mark b idx else bitmap_reset b idx) else none
def bitmap_test (b : Bitmap) (idx : Nat) : Option Bool :=
  if idx < b.bit_cnt then some (b.bits (elem_idx idx) &&& bit_mask idx ≠ 0) else none

def setLoop (start : Nat) (value : Bool) : Nat → Nat → Bitmap → Option Bitmap
  | 0, _, b => some b
  | n + 1, i, b => (bitmap_set b (start + i) value).bind (setLoop start value n (i + 1))
def bitmap_set_multiple (b : Bitmap) (start cnt : Nat) (value : Bool) : Option Bitmap :=
  if start ≤ b.bit_cnt ∧ start + cnt ≤ b.bit_cnt then setLoop start value cnt 0 b else none

/-- `value_cnt` of the bits before `start + i` are `value`. -/
def countLoop (b : Bitmap) (start : Nat) (value : Bool) : Nat → (i value_cnt : Nat) → Option Nat
  | 0, _, value_cnt => some value_cnt
  | n + 1, i, value_cnt => (bitmap_test b (start + i)).bind fun bit =>
    countLoop b start value n (i + 1) (if bit = value then value_cnt + 1 else value_cnt)
def bitmap_count (b : Bitmap) (start cnt : Nat) (value : Bool) : Option Nat :=
  if start ≤ b.bit_cnt ∧ start + cnt ≤ b.bit_cnt then countLoop b start value cnt 0 0 else none

def containsLoop (b : Bitmap) (start : Nat) (value : Bool) : Nat → Nat → Option Bool
  | 0, _ => some false
  | n + 1, i => (bitmap_test b (start + i)).bind fun bit => if bit = value then some true else containsLoop b start value n (i + 1)
def bitmap_contains (b : Bitmap) (start cnt : Nat) (value : Bool) : Option Bool :=
  if start ≤ b.bit_cnt ∧ start + cnt ≤ b.bit_cnt then containsLoop b start value cnt 0 else none
def bitmap_all (b : Bitmap) (start cnt : Nat) : Option Bool := (bitmap_contains b start cnt false).map not

/-- `i` runs up to `last`; there are `n` turns left. -/
def scanLoop (b : Bitmap) (cnt : Nat) (value : Bool) : Nat → Nat → Option (Option Nat)
  | 0, _ => some none
  | n + 1, i => (bitmap_contains b i cnt !value).bind fun bad => if bad then scanLoop b cnt value n (i + 1) else some (some i)
/-- `BITMAP_ERROR` is the inner `none`. -/
def bitmap_scan (b : Bitmap) (start cnt : Nat) (value : Bool) : Option (Option Nat) :=
  if start ≤ b.bit_cnt then
    if cnt ≤ b.bit_cnt then scanLoop b cnt value (b.bit_cnt - cnt + 1 - start) start else some none
  else none
def bitmap_scan_and_flip (b : Bitmap) (start cnt : Nat) (value : Bool) : Option (Option Nat × Bitmap) := do
  match ← bitmap_scan b start cnt value with
    | none => pure (none,b)
    | some idx => (bitmap_set_multiple b idx cnt !value).map fun b => (some idx,b)

/-- In any memory. -/
def bitmap_create (bit_cnt : Nat) (memory : Nat → BitVec 32) : Option Bitmap :=
  bitmap_set_multiple { bit_cnt := bit_cnt, bits := memory } 0 bit_cnt false

/-- The bytes of the elements. -/
def image (b : Bitmap) (k : Nat) : Byte := byte_of (b.bits (k / 4)) (k % 4)
/-- The elements once `bytes` were read over them. -/
def overwrite (b : Bitmap) (bytes : List Byte) : Bitmap :=
  { b with bits := fun i => word_of fun k => bytes.getD (4 * i + k) (byte_of (b.bits i) k) }
/-- The masking of the last element. -/
def trim (b : Bitmap) : Bitmap :=
  { b with bits := Function.update b.bits (elem_cnt b.bit_cnt - 1) (b.bits (elem_cnt b.bit_cnt - 1) &&& last_mask b) }

/-! ### Bits -/

/-- The bit is set. -/
def Bitmap.has (b : Bitmap) (i : Nat) : Bool := (b.bits (elem_idx i)).getLsbD (i % ELEM_BITS)

section
variable {b b' : Bitmap} {i j start cnt idx : Nat} {value : Bool} {w : BitVec 32} {k : Nat}

theorem byte_of_bit (j : Nat) : (byte_of w k).getLsbD j = (decide (j < 8) && w.getLsbD (8 * k + j)) := by
  rw [byte_of,BitVec.getLsbD_extractLsb']

theorem word_of_bit (b : Nat → Byte) (below : i < 32) : (word_of b).getLsbD i = (b (i / 8)).getLsbD (i % 8) := by
  have split : i = 8 * (i / 8) + i % 8 := by omega
  have quarter : i / 8 = 0 ∨ i / 8 = 1 ∨ i / 8 = 2 ∨ i / 8 = 3 := by omega
  rw [word_of,BitVec.getLsbD_append,BitVec.getLsbD_append,BitVec.getLsbD_append]
  rcases quarter with first | second | third | fourth
  · rw [if_pos (by omega),first,show i % 8 = i by omega]
  · rw [if_neg (by omega),if_pos (by omega),second,show i % 8 = i - 8 by omega]
  · rw [if_neg (by omega),if_neg (by omega),if_pos (by omega),third,show i % 8 = i - 8 - 8 by omega]
  · rw [if_neg (by omega),if_neg (by omega),if_neg (by omega),fourth,show i % 8 = i - 8 - 8 - 8 by omega]

theorem word_of_byte_of (w : BitVec 32) : word_of (byte_of w) = w := by
  refine BitVec.eq_of_getLsbD_eq fun i below => ?_
  rw [word_of_bit _ below,byte_of_bit,decide_eq_true (Nat.mod_lt i (by decide)),Bool.true_and,Nat.div_add_mod]

theorem byte_of_word_of (b : Nat → Byte) (below : k < 4) : byte_of (word_of b) k = b k := by
  refine BitVec.eq_of_getLsbD_eq fun i inside => ?_
  rw [byte_of_bit,decide_eq_true inside,Bool.true_and,word_of_bit _ (by omega),show (8 * k + i) / 8 = k by omega,
    show (8 * k + i) % 8 = i by omega]

theorem word_of_congr {b b' : Nat → Byte} (same : ∀ k < 4, b k = b' k) : word_of b = word_of b' := by
  rw [word_of,word_of,same 0 (by decide),same 1 (by decide),same 2 (by decide),same 3 (by decide)]

theorem bit_mask_bit (i : Nat) (j : Nat) : (bit_mask i).getLsbD j = decide (i % ELEM_BITS = j) := by
  rw [bit_mask,← BitVec.twoPow_eq,BitVec.getLsbD_twoPow,
    decide_eq_true (show i % ELEM_BITS < 32 from Nat.mod_lt i (by decide)),Bool.true_and]

/-- One bit of one element is one bit of the map. -/
theorem same_bit (same : elem_idx j = elem_idx i) : decide (i % ELEM_BITS = j % ELEM_BITS) = decide (j = i) := by
  rw [elem_idx,elem_idx,ELEM_BITS] at same
  rw [ELEM_BITS]
  exact decide_eq_decide.mpr ⟨fun both => by omega,fun both => by omega⟩

theorem has_mark (b : Bitmap) (i j : Nat) : (bitmap_mark b i).has j = (decide (j = i) || b.has j) := by
  by_cases same : elem_idx j = elem_idx i
  · simp only [Bitmap.has,bitmap_mark,same,Function.update_self,BitVec.getLsbD_or,bit_mask_bit,same_bit same]
    exact Bool.or_comm _ _
  · have other : decide (j = i) = false := decide_eq_false fun equal => same (by rw [equal])
    simp only [Bitmap.has,bitmap_mark,Function.update_of_ne same,other,Bool.false_or]

theorem has_reset (b : Bitmap) (i j : Nat) : (bitmap_reset b i).has j = (!decide (j = i) && b.has j) := by
  by_cases same : elem_idx j = elem_idx i
  · have below : decide (j % ELEM_BITS < 32) = true := decide_eq_true (Nat.mod_lt j (by decide))
    simp only [Bitmap.has,bitmap_reset,same,Function.update_self,BitVec.getLsbD_and,BitVec.getLsbD_not,bit_mask_bit,
      same_bit same,below,
      Bool.true_and]
    exact Bool.and_comm _ _
  · have other : decide (j = i) = false := decide_eq_false fun equal => same (by rw [equal])
    simp only [Bitmap.has,bitmap_reset,Function.update_of_ne same,other,Bool.not_false,Bool.true_and]

theorem has_flip (b : Bitmap) (i j : Nat) : (bitmap_flip b i).has j = if j = i then !b.has j else b.has j := by
  by_cases same : elem_idx j = elem_idx i
  · simp only [Bitmap.has,bitmap_flip,same,Function.update_self,BitVec.getLsbD_xor,bit_mask_bit,same_bit same]
    by_cases equal : j = i <;> simp [equal]
  · have other : j ≠ i := fun equal => same (by rw [equal])
    simp only [Bitmap.has,bitmap_flip,Function.update_of_ne same,if_neg other]

theorem bitmap_set_spec (value : Bool) (below : idx < b.bit_cnt) :
    ∃ b', bitmap_set b idx value = some b' ∧ b'.bit_cnt = b.bit_cnt ∧ ∀ j, b'.has j = if j = idx then value else b.has j := by
  refine ⟨_,if_pos below,?_,fun j => ?_⟩
  · cases value <;> rfl
  · cases value with
    | true =>
      rw [if_pos rfl,has_mark]
      split
      · next same => rw [decide_eq_true same,Bool.true_or]
      · next other => rw [decide_eq_false other,Bool.false_or]
    | false =>
      rw [if_neg (by decide),has_reset]
      split
      · next same => rw [decide_eq_true same,Bool.not_true,Bool.false_and]
      · next other => rw [decide_eq_false other,Bool.not_false,Bool.true_and]

theorem bitmap_test_spec (below : idx < b.bit_cnt) : bitmap_test b idx = some (b.has idx) := by
  rw [bitmap_test,if_pos below]
  refine congrArg some ?_
  have one : b.bits (elem_idx idx) &&& bit_mask idx ≠ 0 ↔ b.has idx = true := by
    constructor
    · intro nonzero
      refine Decidable.byContradiction fun clear => nonzero (BitVec.eq_of_getLsbD_eq fun k _ => ?_)
      show _ = (0#32).getLsbD k
      rw [BitVec.getLsbD_and,bit_mask_bit,BitVec.getLsbD_zero]
      by_cases same : idx % ELEM_BITS = k
      · rw [← same,show (b.bits (elem_idx idx)).getLsbD (idx % ELEM_BITS) = false from Bool.eq_false_iff.mpr clear,Bool.false_and]
      · rw [decide_eq_false same,Bool.and_false]
    · intro set zero
      have bit := congrArg (fun w => BitVec.getLsbD w (idx % ELEM_BITS)) zero
      simp only [BitVec.getLsbD_and,bit_mask_bit,decide_true,Bool.and_true,BitVec.ofNat_eq_ofNat,BitVec.getLsbD_zero] at bit
      rw [Bitmap.has,bit] at set
      cases set
  cases bit : b.has idx with
  | true => exact decide_eq_true (one.mpr bit)
  | false => exact decide_eq_false fun nonzero => by rw [one.mp nonzero] at bit; cases bit

theorem setLoop_spec (value : Bool) (n i : Nat) (b : Bitmap) (inside : start + i + n ≤ b.bit_cnt) :
    ∃ b', setLoop start value n i b = some b' ∧ b'.bit_cnt = b.bit_cnt ∧
      ∀ j, b'.has j = if start + i ≤ j ∧ j < start + i + n then value else b.has j := by
  induction n generalizing i b with
  | zero =>
    refine ⟨b,rfl,rfl,fun j => ?_⟩
    rw [if_neg (by omega)]
  | succ n ih =>
    obtain ⟨b₁,set,cnt₁,bits₁⟩ := bitmap_set_spec value (show start + i < b.bit_cnt by omega)
    obtain ⟨b₂,ran,cnt₂,bits₂⟩ := ih (i + 1) b₁ (by omega)
    refine ⟨b₂,?_,cnt₂.trans cnt₁,fun j => ?_⟩
    · rw [setLoop,set]
      exact ran
    · rw [bits₂,bits₁]
      by_cases first : j = start + i
      · rw [if_neg (by omega),if_pos first,if_pos (by omega)]
      · rw [if_neg first]
        by_cases later : start + (i + 1) ≤ j ∧ j < start + (i + 1) + n
        · rw [if_pos later,if_pos (by omega)]
        · rw [if_neg later,if_neg (by omega)]

theorem bitmap_set_multiple_spec (value : Bool) (inside : start + cnt ≤ b.bit_cnt) :
    ∃ b', bitmap_set_multiple b start cnt value = some b' ∧ b'.bit_cnt = b.bit_cnt ∧
      ∀ j, b'.has j = if start ≤ j ∧ j < start + cnt then value else b.has j := by
  rw [bitmap_set_multiple,if_pos ⟨by omega,inside⟩]
  exact setLoop_spec value cnt 0 b inside

theorem countLoop_spec (n i value_cnt : Nat) (inside : start + i + n ≤ b.bit_cnt) :
    countLoop b start value n i value_cnt =
      some (value_cnt + (List.range' (start + i) n).countP fun j => decide (b.has j = value)) := by
  induction n generalizing i value_cnt with
  | zero => rfl
  | succ n ih =>
    rw [countLoop,bitmap_test_spec (by omega),Option.bind_some,ih (i + 1) _ (by omega),List.range'_succ,List.countP_cons]
    refine congrArg some ?_
    rw [← Nat.add_assoc start i 1]
    by_cases here : b.has (start + i) = value
    · simp only [here,if_true,decide_true]
      omega
    · simp only [here,if_false,decide_false,Bool.false_eq_true,Nat.add_zero]

theorem bitmap_count_spec (value : Bool) (inside : start + cnt ≤ b.bit_cnt) :
    bitmap_count b start cnt value = some ((List.range' start cnt).countP fun j => decide (b.has j = value)) := by
  rw [bitmap_count,if_pos ⟨by omega,inside⟩,countLoop_spec cnt 0 0 inside,Nat.add_zero,Nat.zero_add]

theorem containsLoop_spec (n i : Nat) (inside : start + i + n ≤ b.bit_cnt) :
    ∃ r, containsLoop b start value n i = some r ∧ (r = true ↔ ∃ j, start + i ≤ j ∧ j < start + i + n ∧ b.has j = value) := by
  induction n generalizing i with
  | zero =>
    refine ⟨false,rfl,fun none_ => (by cases none_),?_⟩
    rintro ⟨j,low,high,-⟩
    omega
  | succ n ih =>
    rw [containsLoop,bitmap_test_spec (by omega),Option.bind_some]
    split
    · next first => exact ⟨true,rfl,fun _ => ⟨start + i,Nat.le_refl _,by omega,first⟩,fun _ => rfl⟩
    · next other =>
      obtain ⟨r,ran,found⟩ := ih (i + 1) (by omega)
      refine ⟨r,ran,found.trans ⟨?_,?_⟩⟩
      · rintro ⟨j,low,high,bit⟩
        exact ⟨j,by omega,by omega,bit⟩
      · rintro ⟨j,low,high,bit⟩
        have later : j ≠ start + i := by
          rintro rfl
          exact other bit
        exact ⟨j,by omega,by omega,bit⟩

theorem bitmap_contains_spec (value : Bool) (inside : start + cnt ≤ b.bit_cnt) :
    ∃ r, bitmap_contains b start cnt value = some r ∧ (r = true ↔ ∃ j, start ≤ j ∧ j < start + cnt ∧ b.has j = value) := by
  rw [bitmap_contains,if_pos ⟨by omega,inside⟩]
  exact containsLoop_spec cnt 0 inside

theorem bitmap_all_spec (inside : start + cnt ≤ b.bit_cnt) :
    ∃ r, bitmap_all b start cnt = some r ∧ (r = true ↔ ∀ j, start ≤ j → j < start + cnt → b.has j = true) := by
  obtain ⟨r,ran,found⟩ := bitmap_contains_spec false inside
  refine ⟨!r,by rw [bitmap_all,ran]; rfl,?_⟩
  rw [Bool.not_eq_true',← Bool.not_eq_true,found]
  constructor
  · intro none_ j low high
    exact Decidable.byContradiction fun clear => none_ ⟨j,low,high,Bool.eq_false_iff.mpr clear⟩
  · rintro all ⟨j,low,high,clear⟩
    rw [all j low high] at clear
    cases clear

/-- The bits from `i` on are all `value`. -/
def Bitmap.Run (b : Bitmap) (i cnt : Nat) (value : Bool) : Prop := ∀ j, i ≤ j → j < i + cnt → b.has j = value

theorem scanLoop_spec (value : Bool) (n i : Nat) (inside : n = 0 ∨ i + n - 1 + cnt ≤ b.bit_cnt) :
    ∃ r, scanLoop b cnt value n i = some r ∧ match r with
      | some idx => i ≤ idx ∧ idx < i + n ∧ b.Run idx cnt value ∧ ∀ k, i ≤ k → k < idx → ¬ b.Run k cnt value
      | none => ∀ k, i ≤ k → k < i + n → ¬ b.Run k cnt value := by
  induction n generalizing i with
  | zero =>
    refine ⟨none,rfl,fun k low high => ?_⟩
    omega
  | succ n ih =>
    obtain ⟨bad,ran,found⟩ := bitmap_contains_spec (!value) (show i + cnt ≤ b.bit_cnt by omega)
    rw [scanLoop,ran,Option.bind_some]
    split
    · next broken =>
      obtain ⟨j,low,high,other⟩ := found.mp broken
      obtain ⟨r,ran,result⟩ := ih (i + 1) (by omega)
      refine ⟨r,ran,?_⟩
      have not_here : ¬ b.Run i cnt value := by
        intro all
        rw [all j low high] at other
        cases value <;> cases other
      cases r with
      | some idx =>
        refine ⟨by omega,by omega,result.2.2.1,fun k after before all => ?_⟩
        by_cases first : k = i
        · exact not_here (first ▸ all)
        · exact result.2.2.2 k (by omega) before all
      | none =>
        intro k after before all
        by_cases first : k = i
        · exact not_here (first ▸ all)
        · exact result k (by omega) (by omega) all
    · next good =>
      refine ⟨some i,rfl,Nat.le_refl i,by omega,fun j low high => Decidable.byContradiction fun other => ?_,
        fun k after before => by omega⟩
      refine good (found.mpr ⟨j,low,high,?_⟩)
      cases value <;> cases bit : b.has j <;> simp_all

theorem bitmap_scan_spec (value : Bool) (cnt : Nat) (inside : start ≤ b.bit_cnt) :
    ∃ r, bitmap_scan b start cnt value = some r ∧ match r with
      | some idx => start ≤ idx ∧ idx + cnt ≤ b.bit_cnt ∧ b.Run idx cnt value ∧
          ∀ k, start ≤ k → k < idx → ¬ b.Run k cnt value
      | none => ∀ k, start ≤ k → k + cnt ≤ b.bit_cnt → ¬ b.Run k cnt value := by
  rw [bitmap_scan,if_pos inside]
  split
  · next fits =>
    obtain ⟨r,ran,result⟩ := scanLoop_spec value (b.bit_cnt - cnt + 1 - start) start (show _ ∨ _ + cnt ≤ b.bit_cnt by omega)
    refine ⟨r,ran,?_⟩
    cases r with
    | some idx => exact ⟨result.1,by omega,result.2.2⟩
    | none => exact fun k low high => result k low (by omega)
  · next large =>
    refine ⟨none,rfl,fun k low high => ?_⟩
    omega

theorem bitmap_scan_and_flip_spec (value : Bool) (cnt : Nat) (inside : start ≤ b.bit_cnt) :
    ∃ r b', bitmap_scan_and_flip b start cnt value = some (r,b') ∧ b'.bit_cnt = b.bit_cnt ∧
    bitmap_scan b start cnt value = some r ∧ match r with
      | some idx => start ≤ idx ∧ idx + cnt ≤ b.bit_cnt ∧ b.Run idx cnt value ∧
          ∀ j, b'.has j = if idx ≤ j ∧ j < idx + cnt then !value else b.has j
      | none => b' = b := by
  obtain ⟨r,ran,result⟩ := bitmap_scan_spec value cnt inside
  cases r with
  | none => exact ⟨none,b,by rw [bitmap_scan_and_flip,ran]; rfl,rfl,ran,rfl⟩
  | some idx =>
    obtain ⟨b',set,same,bits⟩ := bitmap_set_multiple_spec (!value) result.2.1
    exact ⟨some idx,b',by rw [bitmap_scan_and_flip,ran]; simp [set],same,ran,result.1,result.2.1,result.2.2.1,bits⟩

theorem bitmap_create_spec (bit_cnt : Nat) (memory : Nat → BitVec 32) :
    ∃ b, bitmap_create bit_cnt memory = some b ∧ b.bit_cnt = bit_cnt ∧ ∀ j < bit_cnt, b.has j = false := by
  obtain ⟨b,set,same,bits⟩ := bitmap_set_multiple_spec (b := { bit_cnt := bit_cnt, bits := memory }) false
    (Nat.le_of_eq (Nat.zero_add bit_cnt))
  refine ⟨b,set,same,fun j below => ?_⟩
  rw [bits,if_pos (by omega)]

/-! ### The map as bytes -/

theorem image_bit (b : Bitmap) (k j : Nat) (below : j < 8) : (image b k).getLsbD j = b.has (8 * k + j) := by
  rw [image,byte_of_bit,decide_eq_true below,Bool.true_and,Bitmap.has,elem_idx,ELEM_BITS,show (8 * k + j) / 32 = k / 4 by omega,
    show (8 * k + j) % 32 = 8 * (k % 4) + j by omega]

theorem image_overwrite (b : Bitmap) (bytes : List Byte) (k : Nat) : image (overwrite b bytes) k = bytes.getD k (image b k) := by
  rw [image,overwrite,byte_of_word_of _ (Nat.mod_lt k (by decide)),Nat.div_add_mod]
  rfl

theorem low_mask : ∀ l < 32, ∀ i < l, ((1#32 <<< l) - 1#32).getLsbD i = true := by
  decide

theorem has_trim (b : Bitmap) (i : Nat) (below : i < b.bit_cnt) : (trim b).has i = b.has i := by
  by_cases last : elem_idx i = elem_cnt b.bit_cnt - 1
  · have inside : (last_mask b).getLsbD (i % ELEM_BITS) = true := by
      rw [last_mask]
      split
      · rw [elem_idx,elem_cnt,ELEM_BITS] at last
        refine low_mask _ (Nat.mod_lt _ (by decide)) _ ?_
        rw [ELEM_BITS] at *
        omega
      · rw [BitVec.getLsbD_allOnes]
        exact decide_eq_true (Nat.mod_lt i (by decide))
    simp only [Bitmap.has,trim,last,Function.update_self,BitVec.getLsbD_and,inside,Bool.and_true]
  · simp only [Bitmap.has,trim,Function.update_of_ne last]

end

end Pintos.Bitmaps
