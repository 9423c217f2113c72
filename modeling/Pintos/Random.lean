import Pintos.Bitmaps
import Mathlib.Logic.Function.Basic
import Mathlib.Data.Nat.Bitwise

/-!
The random numbers of `lib/random.c`: RC4, with a seed of four bytes as its key. The
calls of `random_bytes` read one stream of bytes. To run it, the table of the
generator is a number of 256 bytes.
-/
namespace Pintos.Random
open Pintos.Bitmaps (Byte byte_of)
set_option linter.unusedSimpArgs false

abbrev Word := BitVec 32

/-- The static variables; a byte is an index of the table. -/
structure Prng where
  s : Byte → Byte
  s_i : Byte
  s_j : Byte
  inited : Bool

def swap_byte (s : Byte → Byte) (a b : Byte) : Byte → Byte := Function.update (Function.update s a (s b)) b (s a)

/-- The second loop of `random_init`, of so many turns from `i` on. -/
def schedule (seed : Word) : Nat → Nat → Byte → (Byte → Byte) → Byte → Byte
  | 0, _, _, s => s
  | n + 1, i, j, s =>
    let j := j + (s (BitVec.ofNat 8 i) + byte_of seed (i % 4))
    schedule seed n (i + 1) j (swap_byte s (BitVec.ofNat 8 i) j)

def random_init (seed : Word) : Prng := { s := schedule seed 256 0 0 id, s_i := 0, s_j := 0, inited := true }

/-- One turn of the loop of `random_bytes`. -/
def turn (g : Prng) : Byte × Prng :=
  let s_i := g.s_i + 1
  let s_j := g.s_j + g.s s_i
  let s := swap_byte g.s s_i s_j
  (s (s s_i + s s_j),{ g with s := s, s_i := s_i, s_j := s_j })

def bytesLoop : Nat → Prng → List Byte × Prng
  | 0, g => ([],g)
  | n + 1, g => ((turn g).1 :: (bytesLoop n (turn g).2).1,(bytesLoop n (turn g).2).2)

def random_bytes (g : Prng) (size : Nat) : List Byte × Prng := bytesLoop size (if g.inited then g else random_init 0)

variable {g : Prng} {m n i j : Nat} {s : Byte → Byte} {a b v : Byte}

theorem bytesLoop_append (m n : Nat) (g : Prng) :
    (bytesLoop (m + n) g).1 = (bytesLoop m g).1 ++ (bytesLoop n (bytesLoop m g).2).1 ∧
    (bytesLoop m g).2.inited = g.inited := by
  induction m generalizing g with
  | zero =>
    rw [Nat.zero_add]
    exact ⟨rfl,rfl⟩
  | succ m ih =>
    rw [Nat.add_right_comm,bytesLoop,bytesLoop,(ih (turn g).2).1]
    exact ⟨rfl,(ih (turn g).2).2⟩

/-- Two calls in a row read the stream on. -/
theorem random_bytes_append (m n : Nat) (g : Prng) :
    (random_bytes g (m + n)).1 = (random_bytes g m).1 ++ (random_bytes (random_bytes g m).2 n).1 := by
  have started : (if g.inited then g else random_init 0).inited = true := by
    cases inited : g.inited with
    | true => rw [if_pos rfl,inited]
    | false => rfl
  obtain ⟨split,kept⟩ := bytesLoop_append m n (if g.inited then g else random_init 0)
  rw [random_bytes,random_bytes,random_bytes,if_pos (kept.trans started)]
  exact split

/-! ### Bytes of a number -/

/-- Byte `i` of a number. -/
def entry (t i : Nat) : Nat := (t >>> (8 * i)) % 256
/-- The number with another byte there. -/
def put (t i v : Nat) : Nat := t ^^^ ((entry t i ^^^ v) <<< (8 * i))

theorem entry_bit (t i k : Nat) : (entry t i).testBit k = (decide (k < 8) && t.testBit (8 * i + k)) := by
  rw [entry,show 256 = 2 ^ 8 from rfl,Nat.testBit_mod_two_pow,Nat.testBit_shiftRight]

theorem entry_put {t v : Nat} (small : v < 256) : entry (put t i v) j = if j = i then v else entry t j := by
  refine Nat.eq_of_testBit_eq fun k => ?_
  rw [entry_bit,put,Nat.testBit_xor,Nat.testBit_shiftLeft]
  by_cases inside : k < 8
  · rcases Nat.lt_trichotomy j i with before | same | behind
    · rw [decide_eq_false (show ¬ 8 * j + k ≥ 8 * i by omega),if_neg (by omega),entry_bit]
      simp
    · subst same
      rw [decide_eq_true (show 8 * j + k ≥ 8 * j by omega),if_pos rfl,show 8 * j + k - 8 * j = k by omega,Nat.testBit_xor,entry_bit,
        decide_eq_true inside]
      cases t.testBit (8 * j + k) <;> simp
    · have high : (entry t i ^^^ v).testBit (8 * j + k - 8 * i) = false := by
        have bounded : entry t i ^^^ v < 2 ^ 8 := Nat.xor_lt_two_pow (Nat.mod_lt _ (by decide)) small
        exact Nat.testBit_lt_two_pow (Nat.lt_of_lt_of_le bounded (Nat.pow_le_pow_right (by decide) (by omega)))
      rw [high,if_neg (by omega),entry_bit]
      simp
  · have high : v.testBit k = false :=
      Nat.testBit_lt_two_pow (Nat.lt_of_lt_of_le small (Nat.pow_le_pow_right (n := 2) (i := 8) (by decide) (by omega)))
    rw [decide_eq_false inside]
    split
    · rw [high]
      rfl
    · rw [entry_bit,decide_eq_false inside]
      simp

/-- The number has the bytes of the table. -/
def Packed (t : Nat) (s : Byte → Byte) : Prop := ∀ b, entry t b.toNat = (s b).toNat

def packedSwap (t i j : Nat) : Nat := put (put t i (entry t j)) j (entry t i)

def packedSchedule (seed : Nat) : Nat → Nat → Nat → Nat → Nat
  | 0, _, _, t => t
  | n + 1, i, j, t =>
    let j := (j + (entry t (i % 256) + entry seed (i % 4))) % 256
    packedSchedule seed n (i + 1) j (packedSwap t (i % 256) j)

/-- The table at the start: every byte at its own place. -/
def packedTable : Nat := (List.range 256).foldr (fun i t => t * 256 + i) 0

/-- The first byte of the stream of a seed. -/
def packedFirst (seed : Nat) : Nat :=
  let t := packedSchedule seed 256 0 0 packedTable
  let t' := packedSwap t 1 (entry t 1)
  entry t' ((entry t' 1 + entry t' (entry t 1)) % 256)

theorem entry_lt (t i : Nat) : entry t i < 256 := Nat.mod_lt _ (by decide)

theorem packed_swap {t : Nat} (packed : Packed t s) (a b : Byte) : Packed (packedSwap t a.toNat b.toNat) (swap_byte s a b) := by
  intro c
  rw [packedSwap,entry_put (entry_lt t _),entry_put (entry_lt t _),swap_byte]
  by_cases at_b : c = b
  · rw [if_pos (congrArg _ at_b),at_b,Function.update_self,packed]
  · rw [if_neg (mt BitVec.toNat_inj.mp at_b),Function.update_of_ne at_b]
    by_cases at_a : c = a
    · rw [if_pos (congrArg _ at_a),at_a,Function.update_self,packed]
    · rw [if_neg (mt BitVec.toNat_inj.mp at_a),Function.update_of_ne at_a,packed]

theorem packed_schedule {t : Nat} (seed : Word) (packed : Packed t s) (n i : Nat) (j : Byte) :
    Packed (packedSchedule seed.toNat n i j.toNat t) (schedule seed n i j s) := by
  induction n generalizing i j t s with
  | zero => exact packed
  | succ n ih =>
    have place : (BitVec.ofNat 8 i).toNat = i % 256 := BitVec.toNat_ofNat i 8
    have key : (byte_of seed (i % 4)).toNat = entry seed.toNat (i % 4) := BitVec.extractLsb'_toNat _ _ _
    have sum : (j.toNat + (entry t (i % 256) + entry seed.toNat (i % 4))) % 256 =
        (j + (s (BitVec.ofNat 8 i) + byte_of seed (i % 4))).toNat := by
      rw [BitVec.toNat_add,BitVec.toNat_add,← packed,place,key,Nat.add_mod_mod]
    rw [packedSchedule,schedule,sum,← place]
    exact ih (packed_swap packed _ _) (i + 1) _

theorem packed_table : Packed packedTable id := by
  have all : ∀ i < 256, entry packedTable i = i := by decide +kernel
  exact fun b => all b.toNat b.isLt

theorem packed_first (seed : Word) : (random_bytes (random_init seed) 1).1.map BitVec.toNat = [packedFirst seed.toNat] := by
  obtain ⟨s,named⟩ : ∃ s, schedule seed 256 0 0 id = s := ⟨_,rfl⟩
  have packed : Packed (packedSchedule seed.toNat 256 0 0 packedTable) s := named ▸ packed_schedule seed packed_table 256 0 0
  have swapped := packed_swap packed 1 (s 1)
  have first : (random_bytes (random_init seed) 1).1 = [(turn (random_init seed)).1] := rfl
  rw [first,random_init,named,turn]
  have start (c : Byte) : 0 + c = c := BitVec.zero_add c
  have second : (s 1).toNat = entry (packedSchedule seed.toNat 256 0 0 packedTable) 1 := (packed 1).symm
  simp only [start,List.map_singleton]
  rw [← swapped,BitVec.toNat_add,← swapped,← swapped,second]
  rfl

/-- The streams of two seeds differ. -/
theorem streams_differ : (random_bytes (random_init 2678400) 1).1 ≠ (random_bytes (random_init 2678401) 1).1 := by
  intro same
  have firsts := congrArg (List.map BitVec.toNat) same
  rw [packed_first,packed_first] at firsts
  exact absurd firsts (by decide +kernel)

end Pintos.Random
