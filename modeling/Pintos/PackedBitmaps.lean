import Pintos.Bitmaps
import Pintos.FirstFit
import Mathlib.Algebra.Group.Nat.Defs

/-!
`lib/kernel/bitmap.c` with the machine's numbers. Indexes and counts are words, and so are the sums of them; the elements
are an array, and an access outside of it has no result. Each operation is one of `Bitmaps` on what the words stand for,
and that is one on an array of booleans.
-/
namespace Pintos.PackedBitmaps
open Pintos.FirstFit
set_option linter.unusedSimpArgs false

abbrev Word := BitVec 32

def ELEM_BITS : Word := 32
/-- `SIZE_MAX` -/
def BITMAP_ERROR : Word := BitVec.allOnes 32

/-- `struct bitmap` -/
structure Bitmap where
  bit_cnt : Word
  bits : List Word
  deriving DecidableEq

/-- The sum of two indexes, as the machine adds. -/
def wrapping (x y : Word) : Option Word := some (x + y)
/-- No result where the sum wraps. -/
def checked (x y : Word) : Option Word := if x.toNat + y.toNat < 2 ^ 32 then some (x + y) else none

def elem_idx (bit_idx : Word) : Word := bit_idx / ELEM_BITS
def bit_mask (bit_idx : Word) : Word := 1#32 <<< (bit_idx % ELEM_BITS)
/-- `DIV_ROUND_UP (bit_cnt, ELEM_BITS)` -/
def elem_cnt (bit_cnt : Word) : Word := (bit_cnt + ELEM_BITS - 1) / ELEM_BITS
def byte_cnt (bit_cnt : Word) : Word := 4 * elem_cnt bit_cnt

/-- One instruction that changes one element. -/
def edit (b : Bitmap) (idx : Word) (change : Word → Word) : Option Bitmap := do
  let elem ← b.bits[idx.toNat]?
  pure { b with bits := b.bits.set idx.toNat (change elem) }

def bitmap_mark (b : Bitmap) (bit_idx : Word) : Option Bitmap := edit b (elem_idx bit_idx) (· ||| bit_mask bit_idx)
def bitmap_reset (b : Bitmap) (bit_idx : Word) : Option Bitmap := edit b (elem_idx bit_idx) (· &&& ~~~ bit_mask bit_idx)
def bitmap_flip (b : Bitmap) (bit_idx : Word) : Option Bitmap := edit b (elem_idx bit_idx) (· ^^^ bit_mask bit_idx)

def bitmap_set (b : Bitmap) (idx : Word) (value : Bool) : Option Bitmap :=
  if idx < b.bit_cnt then if value then bitmap_mark b idx else bitmap_reset b idx else none

def bitmap_test (b : Bitmap) (idx : Word) : Option Bool :=
  if idx < b.bit_cnt then do
    let elem ← b.bits[(elem_idx idx).toNat]?
    pure (elem &&& bit_mask idx ≠ 0)
  else none

section
variable (sum : Word → Word → Option Word)

/-- `ASSERT (start <= b->bit_cnt); ASSERT (start + cnt <= b->bit_cnt);` -/
def assertRange (b : Bitmap) (start cnt : Word) : Option Unit := do
  let last ← sum start cnt
  if start ≤ b.bit_cnt ∧ last ≤ b.bit_cnt then pure () else none

/-- The number bounds the turns. -/
def setLoop (start cnt : Word) (value : Bool) : Nat → (i : Word) → Bitmap → Option Bitmap
  | 0, _, _ => none
  | n + 1, i, b =>
    if i < cnt then do
      let b ← bitmap_set b (← sum start i) value
      setLoop start cnt value n (← sum i 1) b
    else some b
def bitmap_set_multiple (b : Bitmap) (start cnt : Word) (value : Bool) : Option Bitmap := do
  assertRange sum b start cnt
  setLoop sum start cnt value (cnt.toNat + 1) 0 b

def bitmap_set_all (b : Bitmap) (value : Bool) : Option Bitmap := bitmap_set_multiple sum b 0 b.bit_cnt value

def countLoop (b : Bitmap) (start cnt : Word) (value : Bool) : Nat → (i value_cnt : Word) → Option Word
  | 0, _, _ => none
  | n + 1, i, value_cnt =>
    if i < cnt then do
      let bit ← bitmap_test b (← sum start i)
      let value_cnt ← if bit = value then sum value_cnt 1 else some value_cnt
      countLoop b start cnt value n (← sum i 1) value_cnt
    else some value_cnt
def bitmap_count (b : Bitmap) (start cnt : Word) (value : Bool) : Option Word := do
  assertRange sum b start cnt
  countLoop sum b start cnt value (cnt.toNat + 1) 0 0

def containsLoop (b : Bitmap) (start cnt : Word) (value : Bool) : Nat → (i : Word) → Option Bool
  | 0, _ => none
  | n + 1, i =>
    if i < cnt then do
      let bit ← bitmap_test b (← sum start i)
      if bit = value then some true else containsLoop b start cnt value n (← sum i 1)
    else some false
def bitmap_contains (b : Bitmap) (start cnt : Word) (value : Bool) : Option Bool := do
  assertRange sum b start cnt
  containsLoop sum b start cnt value (cnt.toNat + 1) 0

def bitmap_all (b : Bitmap) (start cnt : Word) : Option Bool := (bitmap_contains sum b start cnt false).map not

def scanLoop (b : Bitmap) (last cnt : Word) (value : Bool) : Nat → (i : Word) → Option Word
  | 0, _ => none
  | n + 1, i =>
    if i ≤ last then do
      let bad ← bitmap_contains sum b i cnt (!value)
      if bad then scanLoop b last cnt value n (← sum i 1) else some i
    else some BITMAP_ERROR
def bitmap_scan (b : Bitmap) (start cnt : Word) (value : Bool) : Option Word :=
  if start ≤ b.bit_cnt then
    if cnt ≤ b.bit_cnt then scanLoop sum b (b.bit_cnt - cnt) cnt value (b.bit_cnt.toNat + 2) start else some BITMAP_ERROR
  else none

def bitmap_scan_and_flip (b : Bitmap) (start cnt : Word) (value : Bool) : Option (Word × Bitmap) := do
  let idx ← bitmap_scan sum b start cnt value
  if idx ≠ BITMAP_ERROR then
    let b ← bitmap_set_multiple sum b idx cnt (!value)
    pure (idx,b)
  else pure (idx,b)

/-- A block of `size` bytes with anything in it, if there is one; there is none of no bytes. -/
def malloc (memory : Option (Nat → Word)) (size : Word) : Option (List Word) :=
  if size = 0 then none else memory.map fun content => (List.range (size.toNat / 4)).map content

/-- `header` says whether there is memory for the structure itself. The inner `none` is a null pointer. -/
def bitmap_create (bit_cnt : Word) (header : Bool) (memory : Option (Nat → Word)) : Option (Option Bitmap) :=
  if header then
    let bits := malloc memory (byte_cnt bit_cnt)
    if bits.isSome ∨ bit_cnt = 0 then (bitmap_set_all sum { bit_cnt := bit_cnt, bits := bits.getD [] } false).map some
    else some none
  else some none

/-- `content` is what the block holds behind the structure. No more than `bitmap_buf_size (bit_cnt)` bytes of it are used. -/
def bitmap_create_in_buf (bit_cnt : Word) (content : Nat → Word) : Option Bitmap :=
  bitmap_set_all sum { bit_cnt := bit_cnt, bits := (List.range (elem_cnt bit_cnt).toNat).map content } false

end

/-! ### What the words stand for -/

def view (b : Bitmap) : Bitmaps.Bitmap := { bit_cnt := b.bit_cnt.toNat, bits := fun i => b.bits.getD i 0 }

/-- The elements hold all of the bits, and the number of elements does not wrap. -/
structure Sound (b : Bitmap) : Prop where
  room : b.bit_cnt.toNat ≤ 32 * b.bits.length
  small : b.bit_cnt.toNat + 31 < 2 ^ 32

/-- The result is a map as large as `b`, and stands for `s`. -/
structure Yields (r : Option Bitmap) (b : Bitmap) (s : Bitmaps.Bitmap) (b' : Bitmap) : Prop where
  ran : r = some b'
  same : view b' = s
  bit_cnt : b'.bit_cnt = b.bit_cnt
  length : b'.bits.length = b.bits.length

/-- Sums that do not wrap are computed. -/
def Exact (sum : Word → Word → Option Word) : Prop := ∀ x y, x.toNat + y.toNat < 2 ^ 32 → sum x y = some (x + y)

theorem exact_wrapping : Exact wrapping := fun _ _ _ => rfl
theorem exact_checked : Exact checked := fun _ _ small => if_pos small

variable {sum : Word → Word → Option Word} {b b' : Bitmap} {s : Bitmaps.Bitmap} {value : Bool} {n : Nat}
variable {idx start cnt i x y last value_cnt : Word}

theorem Sound.congr (sound : Sound b) (bit_cnt : b'.bit_cnt = b.bit_cnt) (length : b'.bits.length = b.bits.length) : Sound b' where
  room := by
    rw [bit_cnt,length]
    exact sound.room
  small := by
    rw [bit_cnt]
    exact sound.small

theorem Yields.sound {r : Option Bitmap} (yields : Yields r b s b') (sound : Sound b) : Sound b' :=
  sound.congr yields.bit_cnt yields.length

theorem toNat_sum (small : x.toNat + y.toNat < 2 ^ 32) : (x + y).toNat = x.toNat + y.toNat := by
  rw [BitVec.toNat_add,Nat.mod_eq_of_lt small]

theorem elem_idx_eq (idx : Word) : (elem_idx idx).toNat = Bitmaps.elem_idx idx.toNat := BitVec.toNat_udiv

theorem bit_mask_eq (idx : Word) : bit_mask idx = Bitmaps.bit_mask idx.toNat := by
  rw [bit_mask,BitVec.shiftLeft_eq',BitVec.toNat_umod]
  rfl

theorem inside_elements (sound : Sound b) (below : idx.toNat < b.bit_cnt.toNat) : Bitmaps.elem_idx idx.toNat < b.bits.length := by
  have room := sound.room
  rw [Bitmaps.elem_idx,Bitmaps.ELEM_BITS]
  omega

theorem element {k : Nat} (inside : k < b.bits.length) : b.bits[k]? = some ((view b).bits k) := by
  simp only [view,List.getD_eq_getElem?_getD,List.getElem?_eq_getElem inside,Option.getD_some]

/-- One element is another. -/
def withElement (s : Bitmaps.Bitmap) (k : Nat) (w : Word) : Bitmaps.Bitmap := { s with bits := Function.update s.bits k w }

theorem edit_spec (change : Word → Word) (sound : Sound b) (below : idx.toNat < b.bit_cnt.toNat) :
    ∃ b', Yields (edit b (elem_idx idx) change) b (withElement (view b) (Bitmaps.elem_idx idx.toNat)
      (change ((view b).bits (Bitmaps.elem_idx idx.toNat)))) b' := by
  have inside := inside_elements sound below
  refine ⟨{ b with bits := b.bits.set (Bitmaps.elem_idx idx.toNat) (change ((view b).bits (Bitmaps.elem_idx idx.toNat))) },?_,?_,rfl,
    List.length_set⟩
  · rw [edit,elem_idx_eq,element inside]
    rfl
  · refine congrArg (Bitmaps.Bitmap.mk _) (funext fun k => ?_)
    rw [List.getD_eq_getElem?_getD,List.getElem?_set,Function.update_apply]
    by_cases here : k = Bitmaps.elem_idx idx.toNat
    · rw [if_pos here,if_pos here.symm,if_pos inside,Option.getD_some]
    · rw [if_neg here,if_neg (Ne.symm here)]
      exact (List.getD_eq_getElem?_getD).symm

theorem bitmap_mark_spec (sound : Sound b) (below : idx.toNat < b.bit_cnt.toNat) :
    ∃ b', Yields (bitmap_mark b idx) b (Bitmaps.bitmap_mark (view b) idx.toNat) b' := by
  rw [bitmap_mark,bit_mask_eq]
  exact edit_spec _ sound below

theorem bitmap_reset_spec (sound : Sound b) (below : idx.toNat < b.bit_cnt.toNat) :
    ∃ b', Yields (bitmap_reset b idx) b (Bitmaps.bitmap_reset (view b) idx.toNat) b' := by
  rw [bitmap_reset,bit_mask_eq]
  exact edit_spec _ sound below

theorem bitmap_flip_spec (sound : Sound b) (below : idx.toNat < b.bit_cnt.toNat) :
    ∃ b', Yields (bitmap_flip b idx) b (Bitmaps.bitmap_flip (view b) idx.toNat) b' := by
  rw [bitmap_flip,bit_mask_eq]
  exact edit_spec _ sound below

/-- The assertions on numbers and on words are the same. -/
theorem below_iff : idx < b.bit_cnt ↔ idx.toNat < (view b).bit_cnt := BitVec.lt_def

theorem bitmap_set_spec (sound : Sound b) (ran : Bitmaps.bitmap_set (view b) idx.toNat value = some s) :
    ∃ b', Yields (bitmap_set b idx value) b s b' := by
  rw [Bitmaps.bitmap_set] at ran
  split at ran
  · next below =>
    cases ran
    rw [bitmap_set,if_pos (below_iff.mpr below)]
    cases value with
    | true => exact bitmap_mark_spec sound below
    | false => exact bitmap_reset_spec sound below
  · cases ran

theorem bitmap_test_spec {bit : Bool} (sound : Sound b) (ran : Bitmaps.bitmap_test (view b) idx.toNat = some bit) :
    bitmap_test b idx = some bit := by
  rw [Bitmaps.bitmap_test] at ran
  split at ran
  · next below =>
    rw [bitmap_test,if_pos (below_iff.mpr below),elem_idx_eq,element (inside_elements sound below),bit_mask_eq]
    exact ran
  · cases ran

/-! ### Loops -/

section
variable (exact : Exact sum)
include exact

/-- The sums of one turn. -/
theorem turn_sums (low : i.toNat < cnt.toNat) (fits : start.toNat + cnt.toNat < 2 ^ 32) :
    sum start i = some (start + i) ∧ (start + i).toNat = start.toNat + i.toNat ∧ sum i 1 = some (i + 1) ∧
      (i + 1).toNat = i.toNat + 1 := by
  have one : (1 : Word).toNat = 1 := rfl
  exact ⟨exact _ _ (by omega),toNat_sum (by omega),exact _ _ (by omega),toNat_sum (by omega)⟩

theorem setLoop_spec {m : Nat} (sound : Sound b) (turns : i.toNat + n = cnt.toNat) (fits : start.toNat + cnt.toNat < 2 ^ 32)
    (enough : n < m) (ran : Bitmaps.setLoop start.toNat value n i.toNat (view b) = some s) :
    ∃ b', Yields (setLoop sum start cnt value m i b) b s b' := by
  induction n generalizing m i b with
  | zero =>
    obtain ⟨m,rfl⟩ := Nat.exists_eq_succ_of_ne_zero (Nat.ne_of_gt enough)
    cases ran
    have last : ¬ i < cnt := by rw [BitVec.lt_def]; omega
    exact ⟨b,by rw [setLoop,if_neg last],rfl,rfl,rfl⟩
  | succ n ih =>
    obtain ⟨m,rfl⟩ := Nat.exists_eq_succ_of_ne_zero (Nat.ne_of_gt (Nat.zero_lt_of_lt enough))
    obtain ⟨here,here_eq,next,next_eq⟩ := turn_sums exact (show i.toNat < cnt.toNat by omega) fits
    obtain ⟨s₁,set,later⟩ := Option.bind_eq_some_iff.mp ran
    rw [← here_eq] at set
    obtain ⟨b₁,first⟩ := bitmap_set_spec sound set
    rw [← first.same,← next_eq] at later
    obtain ⟨b',rest⟩ := ih (first.sound sound) (by omega) (show n < m by omega) later
    refine ⟨b',?_,rest.same,rest.bit_cnt.trans first.bit_cnt,rest.length.trans first.length⟩
    rw [setLoop,if_pos (BitVec.lt_def.mpr (by omega)),here]
    simp only [bind,Option.bind,first.ran,next]
    exact rest.ran

theorem countLoop_spec {m k result : Nat} (sound : Sound b) (turns : i.toNat + n = cnt.toNat)
    (fits : start.toNat + cnt.toNat < 2 ^ 32) (enough : n < m) (few : k ≤ i.toNat) (same : value_cnt.toNat = k)
    (ran : Bitmaps.countLoop (view b) start.toNat value n i.toNat k = some result) :
    ∃ r, countLoop sum b start cnt value m i value_cnt = some r ∧ r.toNat = result := by
  induction n generalizing m i k value_cnt with
  | zero =>
    obtain ⟨m,rfl⟩ := Nat.exists_eq_succ_of_ne_zero (Nat.ne_of_gt enough)
    cases ran
    have last : ¬ i < cnt := by rw [BitVec.lt_def]; omega
    exact ⟨value_cnt,by rw [countLoop,if_neg last],same⟩
  | succ n ih =>
    obtain ⟨m,rfl⟩ := Nat.exists_eq_succ_of_ne_zero (Nat.ne_of_gt (Nat.zero_lt_of_lt enough))
    obtain ⟨here,here_eq,next,next_eq⟩ := turn_sums exact (show i.toNat < cnt.toNat by omega) fits
    obtain ⟨bit,test,later⟩ := Option.bind_eq_some_iff.mp ran
    rw [← here_eq] at test
    have tested := bitmap_test_spec sound test
    have one : (1 : Word).toNat = 1 := rfl
    have small : value_cnt.toNat + (1 : Word).toNat < 2 ^ 32 := by omega
    rw [← next_eq] at later
    rw [countLoop,if_pos (BitVec.lt_def.mpr (by omega)),here]
    by_cases equal : bit = value
    · rw [if_pos equal] at later
      simp only [bind,Option.bind,tested,if_pos equal,exact _ _ small,next]
      exact ih (by omega) (by omega) (by omega) (by rw [toNat_sum small]; omega) later
    · rw [if_neg equal] at later
      simp only [bind,Option.bind,tested,if_neg equal,next]
      exact ih (by omega) (by omega) (by omega) same later

theorem containsLoop_spec {m : Nat} {r : Bool} (sound : Sound b) (turns : i.toNat + n = cnt.toNat)
    (fits : start.toNat + cnt.toNat < 2 ^ 32) (enough : n < m)
    (ran : Bitmaps.containsLoop (view b) start.toNat value n i.toNat = some r) :
    containsLoop sum b start cnt value m i = some r := by
  induction n generalizing m i with
  | zero =>
    obtain ⟨m,rfl⟩ := Nat.exists_eq_succ_of_ne_zero (Nat.ne_of_gt enough)
    have last : ¬ i < cnt := by rw [BitVec.lt_def]; omega
    rw [containsLoop,if_neg last]
    exact ran
  | succ n ih =>
    obtain ⟨m,rfl⟩ := Nat.exists_eq_succ_of_ne_zero (Nat.ne_of_gt (Nat.zero_lt_of_lt enough))
    obtain ⟨here,here_eq,next,next_eq⟩ := turn_sums exact (show i.toNat < cnt.toNat by omega) fits
    obtain ⟨bit,test,later⟩ := Option.bind_eq_some_iff.mp ran
    rw [← here_eq] at test
    rw [containsLoop,if_pos (BitVec.lt_def.mpr (by omega)),here]
    simp only [bind,Option.bind,bitmap_test_spec sound test,next]
    by_cases equal : bit = value
    · rw [if_pos equal] at later ⊢
      exact later
    · rw [if_neg equal,← next_eq] at later
      rw [if_neg equal]
      exact ih (by omega) (by omega) later

theorem assertRange_spec (sound : Sound b) (range : start.toNat ≤ (view b).bit_cnt ∧ start.toNat + cnt.toNat ≤ (view b).bit_cnt) :
    assertRange sum b start cnt = some () ∧ start.toNat + cnt.toNat < 2 ^ 32 := by
  have small := sound.small
  obtain ⟨low,high⟩ := range
  have fits : start.toNat + cnt.toNat < 2 ^ 32 := by simp only [view] at high; omega
  refine ⟨?_,fits⟩
  rw [assertRange,exact _ _ fits]
  refine if_pos ⟨BitVec.le_def.mpr low,BitVec.le_def.mpr ?_⟩
  rw [toNat_sum fits]
  exact high

theorem bitmap_set_multiple_spec (sound : Sound b)
    (ran : Bitmaps.bitmap_set_multiple (view b) start.toNat cnt.toNat value = some s) :
    ∃ b', Yields (bitmap_set_multiple sum b start cnt value) b s b' := by
  rw [Bitmaps.bitmap_set_multiple] at ran
  split at ran
  · next range =>
    obtain ⟨asserted,fits⟩ := assertRange_spec exact sound range
    rw [bitmap_set_multiple,asserted]
    exact setLoop_spec exact sound (Nat.zero_add _) fits (Nat.lt_succ_self _) ran
  · cases ran

theorem bitmap_count_spec {result : Nat} (sound : Sound b)
    (ran : Bitmaps.bitmap_count (view b) start.toNat cnt.toNat value = some result) :
    ∃ r, bitmap_count sum b start cnt value = some r ∧ r.toNat = result := by
  rw [Bitmaps.bitmap_count] at ran
  split at ran
  · next range =>
    obtain ⟨asserted,fits⟩ := assertRange_spec exact sound range
    rw [bitmap_count,asserted]
    exact countLoop_spec exact sound (Nat.zero_add _) fits (Nat.lt_succ_self _) (Nat.le_refl 0) rfl ran
  · cases ran

theorem bitmap_contains_spec {r : Bool} (sound : Sound b)
    (ran : Bitmaps.bitmap_contains (view b) start.toNat cnt.toNat value = some r) :
    bitmap_contains sum b start cnt value = some r := by
  rw [Bitmaps.bitmap_contains] at ran
  split at ran
  · next range =>
    obtain ⟨asserted,fits⟩ := assertRange_spec exact sound range
    rw [bitmap_contains,asserted]
    exact containsLoop_spec exact sound (Nat.zero_add _) fits (Nat.lt_succ_self _) ran
  · cases ran

theorem bitmap_all_spec {r : Bool} (sound : Sound b) (ran : Bitmaps.bitmap_all (view b) start.toNat cnt.toNat = some r) :
    bitmap_all sum b start cnt = some r := by
  obtain ⟨bad,found,rfl⟩ := Option.map_eq_some_iff.mp ran
  rw [bitmap_all,bitmap_contains_spec exact sound found]
  rfl

/-- What `bitmap_scan` returns for an index, if there is one. -/
def indexWord : Option Nat → Word
  | some i => BitVec.ofNat 32 i
  | none => BITMAP_ERROR

theorem scanLoop_spec {m : Nat} {r : Option Nat} (sound : Sound b) (turns : i.toNat + n = last.toNat + 1)
    (low : last.toNat ≤ b.bit_cnt.toNat) (enough : n < m)
    (ran : Bitmaps.scanLoop (view b) cnt.toNat value n i.toNat = some r) :
    scanLoop sum b last cnt value m i = some (indexWord r) := by
  have small := sound.small
  induction n generalizing m i with
  | zero =>
    obtain ⟨m,rfl⟩ := Nat.exists_eq_succ_of_ne_zero (Nat.ne_of_gt enough)
    cases ran
    have behind : ¬ i ≤ last := by rw [BitVec.le_def]; omega
    rw [scanLoop,if_neg behind]
    rfl
  | succ n ih =>
    obtain ⟨m,rfl⟩ := Nat.exists_eq_succ_of_ne_zero (Nat.ne_of_gt (Nat.zero_lt_of_lt enough))
    have one : (1 : Word).toNat = 1 := rfl
    have next : i.toNat + (1 : Word).toNat < 2 ^ 32 := by omega
    obtain ⟨bad,contains,later⟩ := Option.bind_eq_some_iff.mp ran
    rw [scanLoop,if_pos (BitVec.le_def.mpr (by omega))]
    simp only [bind,Option.bind,bitmap_contains_spec exact sound contains,exact _ _ next]
    cases bad with
    | true =>
      rw [if_pos rfl,← one,← toNat_sum next] at later
      rw [if_pos rfl]
      exact ih (by rw [toNat_sum next]; omega) (by omega) later
    | false =>
      cases later
      rw [if_neg (by decide),indexWord,BitVec.ofNat_toNat,BitVec.setWidth_eq]

theorem bitmap_scan_spec {r : Option Nat} (sound : Sound b)
    (ran : Bitmaps.bitmap_scan (view b) start.toNat cnt.toNat value = some r) :
    bitmap_scan sum b start cnt value = some (indexWord r) := by
  have small := sound.small
  rw [Bitmaps.bitmap_scan] at ran
  rw [bitmap_scan]
  split at ran
  · next inside =>
    rw [if_pos (BitVec.le_def.mpr inside)]
    split at ran
    · next fits =>
      have last : (b.bit_cnt - cnt).toNat = b.bit_cnt.toNat - cnt.toNat := BitVec.toNat_sub_of_le (BitVec.le_def.mpr fits)
      rw [if_pos (BitVec.le_def.mpr fits)]
      by_cases empty : start.toNat ≤ b.bit_cnt.toNat - cnt.toNat + 1
      · refine scanLoop_spec exact sound ?_ ?_ ?_ ran
        · simp only [view]
          omega
        · omega
        · simp only [view]
          omega
      · -- The loop ends before its first turn.
        have none_left : (view b).bit_cnt - cnt.toNat + 1 - start.toNat = 0 := by
          simp only [view]
          omega
        rw [none_left] at ran
        cases ran
        have behind : ¬ start ≤ b.bit_cnt - cnt := by
          rw [BitVec.le_def]
          omega
        rw [scanLoop,if_neg behind]
        rfl
    · next large =>
      cases ran
      rw [if_neg (fun fits => large (BitVec.le_def.mp fits))]
      rfl
  · cases ran

end

/-! ### Arrays of booleans -/

/-- The bits of a map. -/
def contents (b : Bitmaps.Bitmap) : List Bool := (List.range b.bit_cnt).map b.has

section
variable {p q : Bitmaps.Bitmap} {xs : List Bool} {j k c : Nat}

@[simp] theorem length_contents : (contents p).length = p.bit_cnt := by rw [contents,List.length_map,List.length_range]

theorem getElem?_contents (below : j < p.bit_cnt) : (contents p)[j]? = some (p.has j) := by
  rw [contents,List.getElem?_map,List.getElem?_range below]
  rfl

theorem contents_eq (size : xs.length = p.bit_cnt) (bits : ∀ j < p.bit_cnt, xs[j]? = some (p.has j)) : contents p = xs := by
  refine List.ext_getElem? fun j => ?_
  by_cases below : j < p.bit_cnt
  · rw [getElem?_contents below,bits j below]
  · rw [List.getElem?_eq_none (by rw [length_contents]; omega),List.getElem?_eq_none (by omega)]

theorem contents_set (same : q.bit_cnt = p.bit_cnt) (bits : ∀ j, q.has j = if j = k then value else p.has j) :
    contents q = (contents p).set k value := by
  refine contents_eq (by rw [List.length_set,length_contents,same]) fun j below => ?_
  rw [same] at below
  rw [List.getElem?_set,bits,getElem?_contents below,length_contents]
  by_cases here : k = j
  · rw [if_pos here,if_pos here.symm,if_pos (here ▸ below)]
  · rw [if_neg here,if_neg (Ne.symm here)]

theorem contents_modify (same : q.bit_cnt = p.bit_cnt) (bits : ∀ j, q.has j = if j = k then !p.has j else p.has j) :
    contents q = (contents p).modify k not := by
  refine contents_eq (by rw [List.length_modify,length_contents,same]) fun j below => ?_
  rw [same] at below
  rw [List.getElem?_modify,bits,getElem?_contents below]
  show some (if k = j then !p.has j else p.has j) = _
  by_cases here : k = j
  · rw [if_pos here,if_pos here.symm]
  · rw [if_neg here,if_neg (Ne.symm here)]

theorem contents_fill (same : q.bit_cnt = p.bit_cnt) (bits : ∀ j, q.has j = if k ≤ j ∧ j < k + c then value else p.has j) :
    contents q = fill (contents p) k c value := by
  refine contents_eq (by rw [length_fill,length_contents,same]) fun j below => ?_
  rw [same] at below
  rw [getElem?_fill (by rw [length_contents]; exact below),bits,getElem?_contents below]
  split <;> rfl

theorem slice_contents (inside : k + c ≤ p.bit_cnt) : slice (contents p) k c = (List.range' k c).map p.has := by
  refine List.ext_getElem? fun j => ?_
  rw [slice,List.getElem?_take,List.getElem?_drop,List.getElem?_map]
  by_cases below : j < c
  · rw [if_pos below,getElem?_contents (by omega),List.getElem?_range' below,Nat.one_mul]
    rfl
  · rw [if_neg below,List.getElem?_eq_none (by rw [List.length_range']; omega)]
    rfl

theorem fits_contents {start : Nat} : Fits (contents p) start c value k ↔ start ≤ k ∧ k + c ≤ p.bit_cnt ∧ p.Run k c value := by
  constructor
  · rintro ⟨low,high,same⟩
    rw [length_contents] at high
    refine ⟨low,high,fun j after before => Option.some.inj ?_⟩
    rw [← getElem?_contents (by omega)]
    exact same j after before
  · rintro ⟨low,high,run⟩
    refine ⟨low,by rw [length_contents]; exact high,fun j after before => ?_⟩
    rw [getElem?_contents (by omega),run j after before]

end

/-! ### Runs -/

inductive Operation
  | bitmap_set (idx : Word) (value : Bool)
  | bitmap_mark (bit_idx : Word)
  | bitmap_reset (bit_idx : Word)
  | bitmap_flip (bit_idx : Word)
  | bitmap_set_multiple (start cnt : Word) (value : Bool)
  | bitmap_scan_and_flip (start cnt : Word) (value : Bool)

/-- The arguments are in range for a map of so many bits. -/
def Operation.InRange (bit_cnt : Nat) : Operation → Prop
  | bitmap_set idx _ => idx.toNat < bit_cnt
  | bitmap_mark bit_idx => bit_idx.toNat < bit_cnt
  | bitmap_reset bit_idx => bit_idx.toNat < bit_cnt
  | bitmap_flip bit_idx => bit_idx.toNat < bit_cnt
  | bitmap_set_multiple start cnt _ => start.toNat + cnt.toNat ≤ bit_cnt
  | bitmap_scan_and_flip start _ _ => start.toNat ≤ bit_cnt

/-- What the operation returns, if it does, and the map after it. -/
def perform (sum : Word → Word → Option Word) : Operation → Bitmap → Option (Option Word × Bitmap)
  | .bitmap_set idx value, b => (bitmap_set b idx value).map fun b => (none,b)
  | .bitmap_mark bit_idx, b => (bitmap_mark b bit_idx).map fun b => (none,b)
  | .bitmap_reset bit_idx, b => (bitmap_reset b bit_idx).map fun b => (none,b)
  | .bitmap_flip bit_idx, b => (bitmap_flip b bit_idx).map fun b => (none,b)
  | .bitmap_set_multiple start cnt value, b => (bitmap_set_multiple sum b start cnt value).map fun b => (none,b)
  | .bitmap_scan_and_flip start cnt value, b => (bitmap_scan_and_flip sum b start cnt value).map fun r => (some r.1,r.2)

def performAll (sum : Word → Word → Option Word) : List Operation → Bitmap → Option (List (Option Word) × Bitmap)
  | [], b => some ([],b)
  | op :: ops, b => do
    let (r,b) ← perform sum op b
    let (results,b) ← performAll sum ops b
    pure (r :: results,b)

/-- The operation on an array. -/
def Operation.apply : Operation → List Bool → Option Word × List Bool
  | bitmap_set idx value, xs => (none,xs.set idx.toNat value)
  | bitmap_mark bit_idx, xs => (none,xs.set bit_idx.toNat true)
  | bitmap_reset bit_idx, xs => (none,xs.set bit_idx.toNat false)
  | bitmap_flip bit_idx, xs => (none,xs.modify bit_idx.toNat not)
  | bitmap_set_multiple start cnt value, xs => (none,fill xs start.toNat cnt.toNat value)
  | bitmap_scan_and_flip start cnt value, xs =>
    let found := firstFit xs start.toNat cnt.toNat value
    (some (indexWord found),(found.map fun i => fill xs i cnt.toNat (!value)).getD xs)

def applyAll : List Operation → List Bool → List (Option Word) × List Bool
  | [], xs => ([],xs)
  | op :: ops, xs =>
    let later := applyAll ops (op.apply xs).2
    ((op.apply xs).1 :: later.1,later.2)

/-- The map `b'` is what an operation on `b` leaves: as large, and the same outside of its bits. -/
structure After (b b' : Bitmap) (xs : List Bool) : Prop where
  bit_cnt : b'.bit_cnt = b.bit_cnt
  length : b'.bits.length = b.bits.length
  bits : contents (view b') = xs
  beyond : ∀ j, b.bit_cnt.toNat ≤ j → (view b').has j = (view b).has j

theorem After.sound {xs : List Bool} (after : After b b' xs) (sound : Sound b) : Sound b' :=
  sound.congr after.bit_cnt after.length

/-- A map is told by what it stands for and the number of its elements. -/
theorem view_injective {c : Bitmap} (same : view b = view c) (length : b.bits.length = c.bits.length) : b = c := by
  obtain ⟨bit_cnt,bits⟩ := b
  obtain ⟨bit_cnt',bits'⟩ := c
  obtain ⟨cnts,elements⟩ := Bitmaps.Bitmap.mk.inj same
  obtain rfl := BitVec.eq_of_toNat_eq cnts
  refine congrArg _ (List.ext_getElem length fun k one two => ?_)
  have equal := congrFun elements k
  simp only [List.getD_eq_getElem?_getD,List.getElem?_eq_getElem one,List.getElem?_eq_getElem two,Option.getD_some] at equal
  exact equal

theorem Yields.after {r : Option Bitmap} {xs : List Bool} (yields : Yields r b s b') (bits : contents s = xs)
    (beyond : ∀ j, b.bit_cnt.toNat ≤ j → s.has j = (view b).has j) : After b b' xs where
  bit_cnt := yields.bit_cnt
  length := yields.length
  bits := by rw [yields.same,bits]
  beyond := by
    rw [yields.same]
    exact beyond

/-- Where only one bit is another. -/
theorem Yields.after_one {r : Option Bitmap} {xs : List Bool} {k : Nat} (yields : Yields r b s b') (bits : contents s = xs)
    (inside : k < b.bit_cnt.toNat) (others : ∀ j, j ≠ k → s.has j = (view b).has j) : After b b' xs :=
  yields.after bits fun j beyond => others j (by omega)

theorem Yields.unique {r r' : Option Bitmap} {c : Bitmap} (one : Yields r b s b') (two : Yields r' b s c) : b' = c :=
  view_injective (one.same.trans two.same.symm) (one.length.trans two.length.symm)

/-- The search on the map is the one on the array. -/
theorem firstFit_contents {p : Bitmaps.Bitmap} {r : Option Nat} {k c : Nat} (inside : k ≤ p.bit_cnt)
    (ran : Bitmaps.bitmap_scan p k c value = some r) : firstFit (contents p) k c value = r := by
  obtain ⟨r',ran',result⟩ := Bitmaps.bitmap_scan_spec value c inside
  obtain rfl := Option.some.inj (ran.symm.trans ran')
  cases r with
  | none =>
    refine firstFit_none.mpr fun i fits => ?_
    obtain ⟨low,high,run⟩ := fits_contents.mp fits
    exact result i low high run
  | some i =>
    refine firstFit_some.mpr ⟨fits_contents.mpr ⟨result.1,result.2.1,result.2.2.1⟩,fun j before fits => ?_⟩
    obtain ⟨low,high,run⟩ := fits_contents.mp fits
    exact result.2.2.2 j low before run

theorem indexWord_found {r : Nat} (small : r + 1 < 2 ^ 32) :
    indexWord (some r) ≠ BITMAP_ERROR ∧ (indexWord (some r)).toNat = r := by
  have back : (indexWord (some r)).toNat = r := by
    rw [indexWord,BitVec.toNat_ofNat,Nat.mod_eq_of_lt (by omega)]
  refine ⟨fun same => ?_,back⟩
  rw [same,BITMAP_ERROR,BitVec.toNat_allOnes] at back
  omega

theorem set_after (value : Bool) (sound : Sound b) (inside : idx.toNat < b.bit_cnt.toNat) :
    ∃ b', After b b' ((contents (view b)).set idx.toNat value) ∧ bitmap_set b idx value = some b' := by
  obtain ⟨s,ran,same,bits⟩ := Bitmaps.bitmap_set_spec (b := view b) value inside
  obtain ⟨b',yields⟩ := bitmap_set_spec sound ran
  refine ⟨b',yields.after_one (contents_set same bits) inside fun j other => ?_,yields.ran⟩
  rw [bits,if_neg other]

theorem set_multiple_after (start cnt : Word) (value : Bool) (sound : Sound b)
    (inside : start.toNat + cnt.toNat ≤ b.bit_cnt.toNat) :
    ∃ b', After b b' (fill (contents (view b)) start.toNat cnt.toNat value) ∧
      ∀ sum, Exact sum → bitmap_set_multiple sum b start cnt value = some b' := by
  obtain ⟨s,ran,same,bits⟩ := Bitmaps.bitmap_set_multiple_spec (b := view b) value inside
  obtain ⟨b',yields⟩ := bitmap_set_multiple_spec exact_wrapping sound ran
  refine ⟨b',yields.after (contents_fill same bits) fun j beyond => ?_,fun sum exact => ?_⟩
  · rw [bits,if_neg (by omega)]
  · obtain ⟨c,yields'⟩ := bitmap_set_multiple_spec exact sound ran
    rw [yields.unique yields']
    exact yields'.ran

theorem scan_and_flip_after (cnt : Word) (value : Bool) (sound : Sound b) (inside : start.toNat ≤ b.bit_cnt.toNat) :
    ∃ b', After b b' ((Operation.bitmap_scan_and_flip start cnt value).apply (contents (view b))).2 ∧
      ∀ sum, Exact sum → bitmap_scan_and_flip sum b start cnt value =
        some (indexWord (firstFit (contents (view b)) start.toNat cnt.toNat value),b') := by
  obtain ⟨r,ran,result⟩ := Bitmaps.bitmap_scan_spec (b := view b) value cnt.toNat inside
  have found := firstFit_contents inside ran
  rw [Operation.apply,found]
  cases r with
  | none =>
    refine ⟨b,⟨rfl,rfl,rfl,fun _ _ => rfl⟩,fun sum exact => ?_⟩
    rw [bitmap_scan_and_flip,bitmap_scan_spec exact sound ran]
    rfl
  | some idx =>
    obtain ⟨-,high,-,-⟩ := result
    have small := sound.small
    obtain ⟨found_one,back⟩ := indexWord_found (show idx + 1 < 2 ^ 32 by simp only [view] at high; omega)
    obtain ⟨b',after,sets⟩ := set_multiple_after (indexWord (some idx)) cnt (!value) sound (by rw [back]; exact high)
    rw [back] at after
    refine ⟨b',after,fun sum exact => ?_⟩
    rw [bitmap_scan_and_flip,bitmap_scan_spec exact sound ran]
    simp only [bind,Option.bind,if_pos found_one,sets sum exact,pure]

/-- One operation. -/
theorem perform_spec (op : Operation) (sound : Sound b) (inside : op.InRange b.bit_cnt.toNat) :
    ∃ b', After b b' (op.apply (contents (view b))).2 ∧
      ∀ sum, Exact sum → perform sum op b = some ((op.apply (contents (view b))).1,b') := by
  cases op with
  | bitmap_set idx value =>
    obtain ⟨b',after,sets⟩ := set_after value sound inside
    exact ⟨b',after,fun _ _ => by rw [perform,sets]; rfl⟩
  | bitmap_mark idx =>
    obtain ⟨b',after,sets⟩ := set_after true sound inside
    rw [bitmap_set,if_pos (below_iff.mpr inside),if_pos rfl] at sets
    exact ⟨b',after,fun _ _ => by rw [perform,sets]; rfl⟩
  | bitmap_reset idx =>
    obtain ⟨b',after,sets⟩ := set_after false sound inside
    rw [bitmap_set,if_pos (below_iff.mpr inside),if_neg Bool.false_ne_true] at sets
    exact ⟨b',after,fun _ _ => by rw [perform,sets]; rfl⟩
  | bitmap_flip idx =>
    obtain ⟨b',yields⟩ := bitmap_flip_spec sound inside
    have bits := Bitmaps.has_flip (view b) idx.toNat
    refine ⟨b',yields.after_one (contents_modify rfl bits) inside fun j other => ?_,fun sum exact => ?_⟩
    · rw [bits,if_neg other]
    · rw [perform,yields.ran]
      rfl
  | bitmap_set_multiple start cnt value =>
    obtain ⟨b',after,sets⟩ := set_multiple_after start cnt value sound inside
    exact ⟨b',after,fun sum exact => by rw [perform,sets sum exact]; rfl⟩
  | bitmap_scan_and_flip start cnt value =>
    obtain ⟨b',after,flips⟩ := scan_and_flip_after cnt value sound inside
    exact ⟨b',after,fun sum exact => by rw [perform,flips sum exact]; rfl⟩

theorem performAll_spec (ops : List Operation) (sound : Sound b) (inside : ∀ op ∈ ops, op.InRange b.bit_cnt.toNat) :
    ∃ b', After b b' (applyAll ops (contents (view b))).2 ∧
      ∀ sum, Exact sum → performAll sum ops b = some ((applyAll ops (contents (view b))).1,b') := by
  induction ops generalizing b with
  | nil => exact ⟨b,⟨rfl,rfl,rfl,fun _ _ => rfl⟩,fun _ _ => rfl⟩
  | cons op ops ih =>
    obtain ⟨b₁,first,performs⟩ := perform_spec op sound (inside op List.mem_cons_self)
    obtain ⟨b',rest,runs⟩ := ih (first.sound sound) (by
      rw [first.bit_cnt]
      exact fun op member => inside op (List.mem_cons_of_mem _ member))
    rw [first.bits] at rest runs
    refine ⟨b',⟨rest.bit_cnt.trans first.bit_cnt,rest.length.trans first.length,rest.bits,fun j beyond => ?_⟩,fun sum exact => ?_⟩
    · rw [rest.beyond j (by rw [first.bit_cnt]; exact beyond),first.beyond j beyond]
    · simp only [performAll,performs sum exact,runs sum exact,bind,Option.bind,pure,applyAll]

/-! ### Answers -/

/-- The map answers as the array does. -/
structure Answers (sum : Word → Word → Option Word) (b : Bitmap) (xs : List Bool) : Prop where
  bitmap_test : ∀ idx : Word, idx.toNat < xs.length → bitmap_test b idx = xs[idx.toNat]?
  bitmap_count : ∀ (start cnt : Word) (value : Bool), start.toNat + cnt.toNat ≤ xs.length →
    ∃ r, bitmap_count sum b start cnt value = some r ∧ r.toNat = (slice xs start.toNat cnt.toNat).count value
  bitmap_contains : ∀ (start cnt : Word) (value : Bool), start.toNat + cnt.toNat ≤ xs.length →
    bitmap_contains sum b start cnt value = some ((slice xs start.toNat cnt.toNat).contains value)
  bitmap_all : ∀ start cnt : Word, start.toNat + cnt.toNat ≤ xs.length →
    bitmap_all sum b start cnt = some ((slice xs start.toNat cnt.toNat).all id)
  bitmap_scan : ∀ (start cnt : Word) (value : Bool), start.toNat ≤ xs.length →
    ∃ r, bitmap_scan sum b start cnt value = some r ∧
      (r = BITMAP_ERROR ↔ ∀ i, ¬ Fits xs start.toNat cnt.toNat value i) ∧
      (r ≠ BITMAP_ERROR → Fits xs start.toNat cnt.toNat value r.toNat ∧ ∀ j < r.toNat, ¬ Fits xs start.toNat cnt.toNat value j)

theorem answers (exact : Exact sum) (sound : Sound b) : Answers sum b (contents (view b)) where
  bitmap_test idx inside := by
    rw [length_contents] at inside
    rw [getElem?_contents inside]
    exact bitmap_test_spec sound (Bitmaps.bitmap_test_spec inside)
  bitmap_count start cnt value inside := by
    rw [length_contents] at inside
    obtain ⟨r,ran,same⟩ := bitmap_count_spec exact sound (Bitmaps.bitmap_count_spec value inside)
    refine ⟨r,ran,same.trans ?_⟩
    rw [slice_contents inside,List.count,List.countP_map]
    refine List.countP_congr fun j _ => ?_
    simp
  bitmap_contains start cnt value inside := by
    rw [length_contents] at inside
    obtain ⟨r,ran,found⟩ := Bitmaps.bitmap_contains_spec value inside
    rw [bitmap_contains_spec exact sound ran,slice_contents inside]
    refine congrArg some (Bool.eq_iff_iff.mpr (found.trans ?_))
    simp only [List.contains_iff_mem,List.mem_map,List.mem_range'_1]
    exact ⟨fun ⟨j,low,high,bit⟩ => ⟨j,⟨low,high⟩,bit⟩,fun ⟨j,⟨low,high⟩,bit⟩ => ⟨j,low,high,bit⟩⟩
  bitmap_all start cnt inside := by
    rw [length_contents] at inside
    obtain ⟨r,ran,found⟩ := Bitmaps.bitmap_all_spec inside
    rw [bitmap_all_spec exact sound ran,slice_contents inside]
    refine congrArg some (Bool.eq_iff_iff.mpr (found.trans ?_))
    simp only [List.all_eq_true,List.mem_map,List.mem_range'_1]
    exact ⟨fun all x ⟨j,⟨low,high⟩,bit⟩ => bit ▸ all j low high,fun all j low high => all _ ⟨j,⟨low,high⟩,rfl⟩⟩
  bitmap_scan start cnt value inside := by
    rw [length_contents] at inside
    obtain ⟨r,ran,-⟩ := Bitmaps.bitmap_scan_spec (b := view b) value cnt.toNat inside
    have found := firstFit_contents inside ran
    refine ⟨_,bitmap_scan_spec exact sound ran,?_⟩
    cases r with
    | none => exact ⟨⟨fun _ => firstFit_none.mp found,fun _ => rfl⟩,fun other => absurd rfl other⟩
    | some idx =>
      obtain ⟨fits,least⟩ := firstFit_some.mp found
      have high := fits.high
      have small := sound.small
      rw [length_contents] at high
      obtain ⟨other,back⟩ := indexWord_found (show idx + 1 < 2 ^ 32 by simp only [view] at high; omega)
      rw [back]
      exact ⟨⟨fun same => absurd same other,fun none => absurd fits (none idx)⟩,fun _ => ⟨fits,least⟩⟩

/-! ### New maps -/

/-- A map of so many bits as one of the functions that make one returns it, in any memory. -/
def Created (bit_cnt : Word) (b : Bitmap) : Prop :=
  (∃ header memory, bitmap_create wrapping bit_cnt header memory = some (some b)) ∨
    ∃ content, bitmap_create_in_buf wrapping bit_cnt content = some b

theorem elem_cnt_eq (bit_cnt : Word) : (elem_cnt bit_cnt).toNat = (bit_cnt.toNat + 31) % 2 ^ 32 / 32 := by
  have rounded : (bit_cnt + ELEM_BITS - 1).toNat = (bit_cnt.toNat + 31) % 2 ^ 32 := by
    rw [ELEM_BITS]
    bv_omega
  rw [elem_cnt,BitVec.toNat_udiv,rounded]
  rfl

/-- Where the number of elements wraps there is none, and not even the first bit can be cleared. -/
theorem set_all_small {bits : List Word} {bit_cnt : Word} (length : bits.length = (elem_cnt bit_cnt).toNat)
    (ran : bitmap_set_all wrapping { bit_cnt := bit_cnt, bits := bits } false = some b) : bit_cnt.toNat + 31 < 2 ^ 32 := by
  refine Nat.lt_of_not_le fun large => ?_
  have below := bit_cnt.isLt
  have empty : bits = [] := by
    rw [elem_cnt_eq] at length
    exact List.eq_nil_of_length_eq_zero (by omega)
  have positive : (0 : Word) < bit_cnt := by
    rw [BitVec.lt_def]
    show 0 < bit_cnt.toNat
    omega
  have fails : bitmap_set { bit_cnt := bit_cnt, bits := [] } (0 + 0) false = none := by
    rw [bitmap_set]
    split <;> rfl
  obtain ⟨_,_,cleared⟩ := Option.bind_eq_some_iff.mp ran
  rw [setLoop,if_pos positive,empty] at cleared
  simp only [wrapping,bind,Option.bind,fails] at cleared
  cases cleared

theorem new_sound {bits : List Word} {bit_cnt : Word} (length : bits.length = (elem_cnt bit_cnt).toNat)
    (small : bit_cnt.toNat + 31 < 2 ^ 32) : Sound { bit_cnt := bit_cnt, bits := bits } := by
  rw [elem_cnt_eq,Nat.mod_eq_of_lt small] at length
  exact ⟨by simp only [length]; omega,small⟩

theorem set_all_spec {bits : List Word} {bit_cnt : Word} (length : bits.length = (elem_cnt bit_cnt).toNat)
    (ran : bitmap_set_all wrapping { bit_cnt := bit_cnt, bits := bits } false = some b) :
    Sound b ∧ b.bit_cnt = bit_cnt ∧ contents (view b) = List.replicate bit_cnt.toNat false := by
  have sound := new_sound length (set_all_small length ran)
  obtain ⟨b',after,sets⟩ := set_multiple_after 0 bit_cnt false sound (Nat.le_of_eq (Nat.zero_add _))
  obtain rfl := Option.some.inj ((sets wrapping exact_wrapping).symm.trans ran)
  refine ⟨after.sound sound,after.bit_cnt,after.bits.trans ?_⟩
  refine List.ext_getElem? fun j => ?_
  by_cases below : j < bit_cnt.toNat
  · rw [getElem?_fill (by rw [length_contents]; exact below),List.getElem?_replicate,if_pos below]
    exact if_pos ⟨Nat.zero_le j,(Nat.zero_add bit_cnt.toNat).symm ▸ below⟩
  · rw [List.getElem?_eq_none (by rw [length_fill,length_contents]; exact Nat.le_of_not_lt below),List.getElem?_replicate,
      if_neg below]

theorem byte_cnt_eq (bit_cnt : Word) : (byte_cnt bit_cnt).toNat = 4 * (elem_cnt bit_cnt).toNat := by
  have few := elem_cnt_eq bit_cnt
  have bounded := Nat.mod_lt (bit_cnt.toNat + 31) (show 0 < 2 ^ 32 by decide)
  rw [byte_cnt,BitVec.toNat_mul]
  exact Nat.mod_eq_of_lt (by show 4 * _ < _; omega)

theorem length_malloc {memory : Option (Nat → Word)} {size : Word} {block : List Word} (got : malloc memory size = some block) :
    block.length = size.toNat / 4 := by
  rw [malloc] at got
  split at got
  · cases got
  · obtain ⟨content,_,rfl⟩ := Option.map_eq_some_iff.mp got
    rw [List.length_map,List.length_range]

theorem length_elements {bit_cnt : Word} {memory : Option (Nat → Word)}
    (there : (malloc memory (byte_cnt bit_cnt)).isSome ∨ bit_cnt = 0) :
    ((malloc memory (byte_cnt bit_cnt)).getD []).length = (elem_cnt bit_cnt).toNat := by
  cases got : malloc memory (byte_cnt bit_cnt) with
  | none =>
    rw [got] at there
    obtain rfl : bit_cnt = 0 := there.resolve_left (by decide)
    rfl
  | some block =>
    rw [Option.getD_some,length_malloc got,byte_cnt_eq]
    omega

theorem created_spec {bit_cnt : Word} (created : Created bit_cnt b) :
    Sound b ∧ b.bit_cnt = bit_cnt ∧ contents (view b) = List.replicate bit_cnt.toNat false := by
  rcases created with ⟨header,memory,created⟩ | ⟨content,created⟩
  · rw [bitmap_create] at created
    split at created
    · dsimp only at created
      split at created
      · next there =>
        obtain ⟨c,ran,same⟩ := Option.map_eq_some_iff.mp created
        obtain rfl := Option.some.inj same
        exact set_all_spec (length_elements there) ran
      · cases created
    · cases created
  · refine set_all_spec ?_ created
    rw [List.length_map,List.length_range]

/-- There is memory for the elements unless there are none, as there are for no bits or for so many that their number wraps. -/
theorem malloc_elements (bit_cnt : Word) (memory : Option (Nat → Word)) :
    (malloc memory (byte_cnt bit_cnt)).isSome ↔ memory.isSome ∧ bit_cnt ≠ 0 ∧ bit_cnt.toNat + 31 < 2 ^ 32 := by
  have below := bit_cnt.isLt
  have count := elem_cnt_eq bit_cnt
  have zero : byte_cnt bit_cnt = 0 ↔ ¬ (bit_cnt ≠ 0 ∧ bit_cnt.toNat + 31 < 2 ^ 32) := by
    rw [← BitVec.toNat_inj,byte_cnt_eq,ne_eq,← BitVec.toNat_inj]
    show 4 * _ = 0 ↔ ¬ (¬ _ = 0 ∧ _)
    omega
  rw [malloc]
  split
  · next none => exact ⟨fun given => (nomatch given),fun all => absurd all.2 (zero.mp none)⟩
  · next some_ => rw [Option.isSome_map,and_iff_left (Decidable.byContradiction fun other => some_ (zero.mpr other))]

/-- `bitmap_create` returns, and a map unless there is no memory or there are too many bits. -/
theorem bitmap_create_answers (bit_cnt : Word) (header : Bool) (memory : Option (Nat → Word)) :
    ∃ answer, bitmap_create wrapping bit_cnt header memory = some answer ∧
      (answer.isSome ↔ header = true ∧ (bit_cnt = 0 ∨ memory.isSome ∧ bit_cnt.toNat + 31 < 2 ^ 32)) := by
  have elements := malloc_elements bit_cnt memory
  cases header with
  | false => exact ⟨none,rfl,fun given => (nomatch given),fun all => (nomatch all.1)⟩
  | true =>
    by_cases there : (malloc memory (byte_cnt bit_cnt)).isSome ∨ bit_cnt = 0
    · have length := length_elements there
      have small : bit_cnt.toNat + 31 < 2 ^ 32 := by
        rcases there with given | rfl
        · exact (elements.mp given).2.2
        · decide
      obtain ⟨b',_,sets⟩ := set_multiple_after 0 bit_cnt false (new_sound length small) (Nat.le_of_eq (Nat.zero_add _))
      refine ⟨some b',?_,fun _ => ⟨rfl,?_⟩,fun _ => rfl⟩
      · rw [bitmap_create,if_pos rfl,if_pos there]
        exact congrArg (Option.map some) (sets wrapping exact_wrapping)
      · rcases there with given | none
        · exact .inr ⟨(elements.mp given).1,small⟩
        · exact .inl none
    · obtain ⟨missing,some_⟩ := not_or.mp there
      refine ⟨none,?_,fun given => (nomatch given),fun all => ?_⟩
      · rw [bitmap_create,if_pos rfl,if_neg there]
      · rcases all.2 with none | ⟨memory,small⟩
        · exact absurd none some_
        · exact absurd (elements.mpr ⟨memory,some_,small⟩) missing

/-- A map is an array of booleans, all of them false at first, over any operations with arguments in range: these return
    what they return for the array, the answers after them are those of the array, `bitmap_scan` returns the least index
    that fits or `BITMAP_ERROR` if none does, and no sum of indexes wraps. The bits of the last element that are not of the
    map stay as they are. -/
theorem bitmap_is_array {bit_cnt : Word} (created : Created bit_cnt b) (ops : List Operation)
    (inside : ∀ op ∈ ops, op.InRange bit_cnt.toNat) :
    ∃ results b' xs, (∀ sum ∈ [wrapping,checked], performAll sum ops b = some (results,b') ∧ Answers sum b' xs) ∧
      (results,xs) = applyAll ops (List.replicate bit_cnt.toNat false) ∧ xs.length = bit_cnt.toNat ∧
      ∀ j, bit_cnt.toNat ≤ j → (view b').has j = (view b).has j := by
  obtain ⟨sound,same,cleared⟩ := created_spec created
  rw [← same] at inside
  obtain ⟨b',after,runs⟩ := performAll_spec ops sound inside
  refine ⟨(applyAll ops (contents (view b))).1,b',contents (view b'),fun sum which => ?_,?_,?_,?_⟩
  · have exact : Exact sum := by
      rcases List.mem_cons.mp which with rfl | which
      · exact exact_wrapping
      · obtain rfl := List.mem_singleton.mp which
        exact exact_checked
    exact ⟨runs sum exact,answers exact (after.sound sound)⟩
  · rw [after.bits,cleared]
  · rw [length_contents,← same,← after.bit_cnt]
    rfl
  · rw [← same]
    exact after.beyond

theorem bitmap_is_array_forty : ∃ results b' xs,
    (∀ sum ∈ [wrapping,checked], performAll sum [.bitmap_flip 35,.bitmap_set_multiple 0 34 true,.bitmap_scan_and_flip 1 2 false]
      ⟨40,[0,0xcccccc00]⟩ = some (results,b') ∧ Answers sum b' xs) ∧
    (results,xs) = applyAll [.bitmap_flip 35,.bitmap_set_multiple 0 34 true,.bitmap_scan_and_flip 1 2 false]
      (List.replicate (40 : Word).toNat false) ∧ xs.length = (40 : Word).toNat ∧
    ∀ j, (40 : Word).toNat ≤ j → (view b').has j = (view ⟨40,[0,0xcccccc00]⟩).has j :=
  bitmap_is_array (.inl ⟨true,some fun _ => 0xcccccccc,by decide +kernel⟩) _ (by
    simp only [List.mem_cons,List.not_mem_nil,or_false,forall_eq_or_imp,forall_eq,Operation.InRange]
    decide)

end Pintos.PackedBitmaps
