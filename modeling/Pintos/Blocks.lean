import Mathlib.Tactic.Common

/-!
A buffer copied to and from a block device, one block after the other. A device
maps block numbers to blocks; blocks and buffers are functions of an offset.
-/
namespace Pintos.Blocks
universe u
variable {β : Type u} {size n i j o base block : Nat} {buffer old : Nat → β} {device : Nat → Nat → β}

/-- The loop that writes the first `n` blocks of a buffer from block `base` on. -/
def writeBlocks (size : Nat) (buffer : Nat → β) (base : Nat) (device : Nat → Nat → β) : Nat → Nat → Nat → β
  | 0 => device
  | n + 1 => fun block =>
    if block = base + n then fun j => buffer (n * size + j) else writeBlocks size buffer base device n block

/-- The loop that reads `n` blocks from block `base` on into a buffer. -/
def readBlocks (size : Nat) (device : Nat → Nat → β) (base : Nat) (buffer : Nat → β) : Nat → Nat → β
  | 0 => buffer
  | n + 1 => fun o =>
    if n * size ≤ o ∧ o < n * size + size then device (base + n) (o - n * size)
    else readBlocks size device base buffer n o

theorem writeBlocks_inside (inside : i < n) :
    writeBlocks size buffer base device n (base + i) = fun j => buffer (i * size + j) := by
  induction n with
  | zero => omega
  | succ n ih =>
    by_cases last : i = n
    · simp [writeBlocks,last]
    · have other : ¬ base + i = base + n := by omega
      simp only [writeBlocks,other,↓reduceIte]
      exact ih (by omega)

theorem writeBlocks_outside (outside : block < base ∨ base + n ≤ block) :
    writeBlocks size buffer base device n block = device block := by
  induction n with
  | zero => rfl
  | succ n ih =>
    have other : ¬ block = base + n := by omega
    simp only [writeBlocks,other,↓reduceIte]
    exact ih (by omega)

theorem readBlocks_inside (inside : i < n) (within : j < size) :
    readBlocks size device base buffer n (i * size + j) = device (base + i) j := by
  induction n with
  | zero => omega
  | succ n ih =>
    by_cases last : i = n
    · subst last
      simp [readBlocks,within]
    · have before : (i + 1) * size ≤ n * size := Nat.mul_le_mul_right size (by omega)
      rw [Nat.add_mul,Nat.one_mul] at before
      have earlier : ¬ (n * size ≤ i * size + j ∧ i * size + j < n * size + size) := by omega
      simp only [readBlocks,earlier,↓reduceIte]
      exact ih (by omega)

/-- What has been written is read back. -/
theorem readBlocks_writeBlocks (inside : o < n * size) :
    readBlocks size (writeBlocks size buffer base device n) base old n o = buffer o := by
  have positive : 0 < size := by
    rcases Nat.eq_zero_or_pos size with zero | positive
    · simp [zero] at inside
    · exact positive
  have block : o / size < n := Nat.div_lt_of_lt_mul (by rwa [Nat.mul_comm])
  have offset : o % size < size := Nat.mod_lt o positive
  have split : o / size * size + o % size = o := Nat.div_add_mod' o size
  rw [← split,readBlocks_inside block offset,writeBlocks_inside block]

/-- A read depends only on the blocks it reads. -/
theorem readBlocks_congr {other : Nat → Nat → β} (same : ∀ i < n, other (base + i) = device (base + i)) :
    readBlocks size other base old n = readBlocks size device base old n := by
  induction n with
  | zero => rfl
  | succ n ih =>
    have before := ih (fun i inside => same i (by omega))
    funext o
    simp only [readBlocks,same n (by omega),before]

end Pintos.Blocks
