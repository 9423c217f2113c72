import Mathlib.Data.BitVec

/-!
Memory as a function of an address, and writes of bytes to it. Where no two writes
of a list have an address in common, each of them can be read back.
-/
namespace Pintos.Stores
universe u

variable {n : Nat} {β : Type u}

/-- The bytes of a write replace those from its address on. -/
def put (m : BitVec n → β) (b : BitVec n × List β) : BitVec n → β := fun a => (b.2[(a - b.1).toNat]?).getD (m a)
def store (m : BitVec n → β) (writes : List (BitVec n × List β)) : BitVec n → β := writes.foldl put m

/-- The bytes are in memory from `a` on. -/
def Holds (m : BitVec n → β) (a : BitVec n) (bytes : List β) :
    Prop := ∀ i (h : i < bytes.length), m (a + BitVec.ofNat n i) = bytes[i]

def Apart (b c : BitVec n × List β) : Prop := b.1.toNat + b.2.length ≤ c.1.toNat ∨ c.1.toNat + c.2.length ≤ b.1.toNat
/-- A write does not wrap. -/
def Fits (b : BitVec n × List β) : Prop := b.1.toNat + b.2.length ≤ 2 ^ n

variable {m : BitVec n → β} {a : BitVec n} {b c : BitVec n × List β} {writes : List (BitVec n × List β)}

theorem put_outside (outside : b.2.length ≤ (a - b.1).toNat) : put m b a = m a := by
  rw [put,List.getElem?_eq_none outside]
  rfl

theorem offset_toNat {i : Nat} (fits : Fits b) (below : i < b.2.length) :
    (b.1 + BitVec.ofNat n i).toNat = b.1.toNat + i := by
  have small : i < 2 ^ n := by
    unfold Fits at fits
    omega
  rw [BitVec.toNat_add,BitVec.toNat_ofNat,Nat.mod_eq_of_lt small,Nat.mod_eq_of_lt]
  unfold Fits at fits
  omega

theorem put_inside (fits : Fits b) : Holds (put m b) b.1 b.2 := by
  intro i below
  have index : (b.1 + BitVec.ofNat n i - b.1).toNat = i := by
    have small : i < 2 ^ n := by
      unfold Fits at fits
      omega
    rw [BitVec.add_comm,BitVec.add_sub_cancel,BitVec.toNat_ofNat,Nat.mod_eq_of_lt small]
  rw [put,index,List.getElem?_eq_getElem below]
  rfl

theorem apart_outside {i : Nat} (apart : Apart b c) (fits : Fits b) (fits' : Fits c) (below : i < b.2.length) :
    c.2.length ≤ (b.1 + BitVec.ofNat n i - c.1).toNat := by
  have here := offset_toNat fits below
  unfold Fits at fits fits'
  unfold Apart at apart
  have bound := (b.1 + BitVec.ofNat n i).isLt
  have bound' := c.1.isLt
  rw [BitVec.toNat_sub,here]
  rcases apart with before | after
  · rw [Nat.mod_eq_of_lt (by omega)]
    omega
  · have wrap : 2 ^ n - c.1.toNat + (b.1.toNat + i) = b.1.toNat + i - c.1.toNat + 2 ^ n := by omega
    rw [wrap,Nat.add_mod_right,Nat.mod_eq_of_lt (by omega)]
    omega

theorem store_outside (apart : ∀ c ∈ writes, Apart b c) (fits : Fits b) (all_fit : ∀ c ∈ writes, Fits c)
    (holds : Holds m b.1 b.2) :
    Holds (store m writes) b.1 b.2 := by
  induction writes generalizing m with
  | nil => exact holds
  | cons c rest ih =>
    refine ih (fun d member => apart d (List.mem_cons_of_mem c member)) (fun d member => all_fit d (List.mem_cons_of_mem c member)) ?_
    intro i below
    rw [put_outside (apart_outside (apart c List.mem_cons_self) fits (all_fit c List.mem_cons_self) below)]
    exact holds i below

/-- Reading back what was written. -/
theorem store_inside (apart : writes.Pairwise Apart) (all_fit : ∀ c ∈ writes, Fits c) (member : b ∈ writes) :
    Holds (store m writes) b.1 b.2 := by
  induction writes generalizing m with
  | nil => cases member
  | cons c rest ih =>
    obtain ⟨first,others⟩ := List.pairwise_cons.mp apart
    have rest_fit := fun d member => all_fit d (List.mem_cons_of_mem c member)
    rcases List.mem_cons.mp member with same | later
    · subst same
      have fits := all_fit b List.mem_cons_self
      exact store_outside (m := put m b) first fits rest_fit (put_inside fits)
    · exact ih others rest_fit later

end Pintos.Stores
