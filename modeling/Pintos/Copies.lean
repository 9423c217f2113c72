import Pintos.Bitmaps
import Mathlib.Logic.Function.Basic
import Mathlib.Data.BitVec

/-!
`memmove` of `lib/string.c`, on pointers of 32 bits. Both loops use up the pointers that they
start from.
-/
namespace Pintos.Copies
open Pintos.Bitmaps (Byte)
set_option linter.unusedSimpArgs false

abbrev Addr := BitVec 32
abbrev Memory := Addr → Byte

/-- The loop from the first byte on: memory and `dst` after it. -/
def copyUp : Nat → Memory → Addr → Addr → Memory × Addr
  | 0, m, dst, _ => (m,dst)
  | size + 1, m, dst, src => copyUp size (Function.update m dst (m src)) (dst + 1) (src + 1)

/-- The loop from the last byte back. -/
def copyDown : Nat → Memory → Addr → Addr → Memory × Addr
  | 0, m, dst, _ => (m,dst)
  | size + 1, m, dst, src => copyDown size (Function.update m (dst - 1) (m (src - 1))) (dst - 1) (src - 1)

/-- Memory and the value returned. A failed assertion has neither. -/
def memmove (m : Memory) (dst src size : Addr) : Option (Memory × Addr) :=
  if (dst = 0 ∧ size ≠ 0) ∨ (src = 0 ∧ size ≠ 0) then none
  else if dst < src then some (copyUp size.toNat m dst src)
  else some (copyDown size.toNat m (dst + size) (src + size))

/-- The bytes at `dst` are those that were at `src`, and the others are as before. -/
structure Moved (m m' : Memory) (dst src size : Addr) : Prop where
  copied : ∀ k < size.toNat, m' (dst + BitVec.ofNat 32 k) = m (src + BitVec.ofNat 32 k)
  kept : ∀ a, (∀ k < size.toNat, a ≠ dst + BitVec.ofNat 32 k) → m' a = m a

variable {m m' : Memory} {dst src size : Addr} {d s n x : Nat}

theorem update_at {v : Byte} (inside : x < 2 ^ 32) (place : d < 2 ^ 32) :
    Function.update m (BitVec.ofNat 32 d) v (BitVec.ofNat 32 x) = if x = d then v else m (BitVec.ofNat 32 x) := by
  by_cases here : x = d
  · rw [here,Function.update_self,if_pos rfl]
  · refine (Function.update_of_ne (fun same => here ?_) _ _).trans (if_neg here).symm
    have numbers := congrArg BitVec.toNat same
    rwa [BitVec.toNat_ofNat,BitVec.toNat_ofNat,Nat.mod_eq_of_lt inside,Nat.mod_eq_of_lt place] at numbers

/-- Upwards no byte is written before it is read, as each is read above where it goes. -/
theorem copyUp_spec (order : d ≤ s) (dst_room : d + n ≤ 2 ^ 32) (src_room : s + n ≤ 2 ^ 32) :
    (copyUp n m (BitVec.ofNat 32 d) (BitVec.ofNat 32 s)).2 = BitVec.ofNat 32 (d + n) ∧
    ∀ x < 2 ^ 32, (copyUp n m (BitVec.ofNat 32 d) (BitVec.ofNat 32 s)).1 (BitVec.ofNat 32 x) =
      m (BitVec.ofNat 32 (if d ≤ x ∧ x < d + n then s + (x - d) else x)) := by
  induction n generalizing m d s with
  | zero => exact ⟨rfl,fun x _ => by rw [if_neg (by omega)]; rfl⟩
  | succ n ih =>
    rw [copyUp,show BitVec.ofNat 32 d + 1 = BitVec.ofNat 32 (d + 1) from (BitVec.ofNat_add d 1).symm,
      show BitVec.ofNat 32 s + 1 = BitVec.ofNat 32 (s + 1) from (BitVec.ofNat_add s 1).symm]
    obtain ⟨pointer,bytes⟩ := @ih (Function.update m (BitVec.ofNat 32 d) (m (BitVec.ofNat 32 s))) (d + 1) (s + 1)
      (by omega) (by omega) (by omega)
    refine ⟨by rw [pointer]; congr 1; omega,fun x inside => ?_⟩
    rw [bytes x inside]
    by_cases later : d + 1 ≤ x ∧ x < d + 1 + n
    · rw [if_pos later,if_pos (by omega),update_at (by omega) (by omega),if_neg (by omega)]
      congr 2
      omega
    · rw [if_neg later,update_at inside (by omega)]
      by_cases here : x = d
      · rw [if_pos here,if_pos (by omega),here,Nat.sub_self,Nat.add_zero]
      · rw [if_neg here,if_neg (by omega)]

theorem copyDown_spec (order : s ≤ d) (dst_room : d + n ≤ 2 ^ 32) (src_room : s + n ≤ 2 ^ 32) :
    (copyDown n m (BitVec.ofNat 32 (d + n)) (BitVec.ofNat 32 (s + n))).2 = BitVec.ofNat 32 d ∧
    ∀ x < 2 ^ 32, (copyDown n m (BitVec.ofNat 32 (d + n)) (BitVec.ofNat 32 (s + n))).1 (BitVec.ofNat 32 x) =
      m (BitVec.ofNat 32 (if d ≤ x ∧ x < d + n then s + (x - d) else x)) := by
  induction n generalizing m with
  | zero => exact ⟨rfl,fun x _ => by rw [if_neg (by omega)]; rfl⟩
  | succ n ih =>
    have before : ∀ y, BitVec.ofNat 32 (y + (n + 1)) - 1 = BitVec.ofNat 32 (y + n) := fun y => by
      rw [← Nat.add_assoc,BitVec.ofNat_add (y + n) 1]
      exact BitVec.add_sub_cancel _ _
    rw [copyDown,before,before]
    obtain ⟨pointer,bytes⟩ := @ih (Function.update m (BitVec.ofNat 32 (d + n)) (m (BitVec.ofNat 32 (s + n)))) (by omega) (by omega)
    refine ⟨pointer,fun x inside => ?_⟩
    rw [bytes x inside]
    by_cases later : d ≤ x ∧ x < d + n
    · rw [if_pos later,if_pos (by omega),update_at (by omega) (by omega),if_neg (by omega)]
    · rw [if_neg later,update_at inside (by omega)]
      by_cases here : x = d + n
      · rw [if_pos here,if_pos (by omega),here,Nat.add_sub_cancel_left]
      · rw [if_neg here,if_neg (by omega)]

/-- What either loop does to the bytes is what is asked for. -/
theorem moved_of_bytes (dst_room : dst.toNat + size.toNat ≤ 2 ^ 32)
    (bytes : ∀ x < 2 ^ 32, m' (BitVec.ofNat 32 x) =
      m (BitVec.ofNat 32 (if dst.toNat ≤ x ∧ x < dst.toNat + size.toNat then src.toNat + (x - dst.toNat) else x))) :
    Moved m m' dst src size := by
  have number : ∀ (a : Addr) (k : Nat), a + BitVec.ofNat 32 k = BitVec.ofNat 32 (a.toNat + k) := fun a k => by
    rw [BitVec.ofNat_add,BitVec.ofNat_toNat,BitVec.setWidth_eq]
  constructor
  · intro k below
    rw [number,number,bytes _ (by omega),if_pos (by omega),Nat.add_sub_cancel_left]
  · intro a outside
    have here : a = BitVec.ofNat 32 a.toNat := by rw [BitVec.ofNat_toNat,BitVec.setWidth_eq]
    rw [here,bytes _ a.isLt,if_neg]
    rintro ⟨low,high⟩
    refine outside (a.toNat - dst.toNat) (by omega) ?_
    rw [number,show dst.toNat + (a.toNat - dst.toNat) = a.toNat by omega]
    exact here

/-- However the ranges overlap the bytes are moved; the pointer returned is that which the loop leaves. -/
theorem memmove_spec (dst_room : dst.toNat + size.toNat ≤ 2 ^ 32) (src_room : src.toNat + size.toNat ≤ 2 ^ 32)
    (valid : ¬ ((dst = 0 ∧ size ≠ 0) ∨ (src = 0 ∧ size ≠ 0))) :
    ∃ m', memmove m dst src size = some (m',if dst < src then dst + size else dst) ∧ Moved m m' dst src size := by
  have number : ∀ a : Addr, a = BitVec.ofNat 32 a.toNat := fun a => by rw [BitVec.ofNat_toNat,BitVec.setWidth_eq]
  have sum : ∀ a : Addr, a + size = BitVec.ofNat 32 (a.toNat + size.toNat) := fun a => by
    rw [BitVec.ofNat_add,← number,← number]
  rw [memmove,if_neg valid]
  by_cases order : dst < src
  · have up := @copyUp_spec m _ _ _ (Nat.le_of_lt (BitVec.lt_def.mp order)) dst_room src_room
    rw [← number,← number] at up
    rw [if_pos order,if_pos order]
    exact ⟨_,congrArg some (Prod.ext rfl (up.1.trans (sum dst).symm)),moved_of_bytes dst_room up.2⟩
  · have down := @copyDown_spec m _ _ _ (BitVec.not_lt.mp order) dst_room src_room
    rw [← sum,← sum,← number] at down
    rw [if_neg order,if_neg order]
    exact ⟨_,congrArg some (Prod.ext rfl down.1),moved_of_bytes dst_room down.2⟩

/-- `memmove` copies between any two ranges; it returns `dst` only after the loop that counts down. -/
theorem memmove_returns_iff (m : Memory) (dst src size : Addr) (dst_room : dst.toNat + size.toNat ≤ 2 ^ 32)
    (src_room : src.toNat + size.toNat ≤ 2 ^ 32) :
    (∃ m', memmove m dst src size = some (m',dst) ∧ Moved m m' dst src size) ↔
      size = 0 ∨ (dst ≠ 0 ∧ src ≠ 0 ∧ src ≤ dst) := by
  by_cases valid : (dst = 0 ∧ size ≠ 0) ∨ (src = 0 ∧ size ≠ 0)
  · constructor
    · rintro ⟨m',ran,-⟩
      rw [memmove,if_pos valid] at ran
      cases ran
    · intro fine
      exfalso
      rcases valid with ⟨null,some_⟩ | ⟨null,some_⟩
      · exact fine.elim some_ fun both => both.1 null
      · exact fine.elim some_ fun both => both.2.1 null
  · obtain ⟨m',ran,moved⟩ := @memmove_spec m dst src size dst_room src_room valid
    rw [ran]
    constructor
    · rintro ⟨m₁,same,-⟩
      by_cases none_ : size = 0
      · exact .inl none_
      · refine .inr ⟨fun null => valid (.inl ⟨null,none_⟩),fun null => valid (.inr ⟨null,none_⟩),?_⟩
        refine BitVec.not_lt.mp fun order => none_ ?_
        have pointer := congrArg Prod.snd (Option.some.inj same)
        rw [if_pos order] at pointer
        have numbers : dst + size = dst := pointer
        bv_omega
    · intro fine
      refine ⟨m',congrArg some (Prod.ext rfl ?_),moved⟩
      rcases fine with none_ | ⟨-,-,order⟩
      · subst none_
        show (if dst < src then dst + 0#32 else dst) = dst
        rw [BitVec.add_zero,ite_self]
      · exact if_neg (BitVec.not_lt.mpr order)

theorem memmove_returns_overlapping : ∃ m', memmove (fun a => a.setWidth 8) 0x1002 0x1000 4 = some (m',0x1002) ∧
    Moved (fun a => a.setWidth 8) m' 0x1002 0x1000 4 :=
  (memmove_returns_iff (fun a => a.setWidth 8) 0x1002 0x1000 4 (by decide) (by decide)).mpr (.inr (by decide))

/-- One byte is moved down. -/
theorem memmove_returns_end : ¬ ∃ m', memmove (fun _ => 0) 0x1000 0x2000 1 = some (m',0x1000) ∧
    Moved (fun _ => 0) m' 0x1000 0x2000 1 := by
  have pointer : (memmove (fun _ => 0) 0x1000 0x2000 1).map Prod.snd = some 0x1001 := by decide
  rintro ⟨m',ran,-⟩
  rw [ran] at pointer
  exact absurd (Option.some.inj pointer) (show ¬ (0x1000 : Addr) = 0x1001 by decide)

end Pintos.Copies
