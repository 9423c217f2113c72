import Pintos.ListFamilies
import Pintos.Machines
import Mathlib.Data.Finset.Card
import Mathlib.Algebra.Group.Nat.Defs

/-!
The kernel heap of `threads/malloc.c`: `malloc_init`, `malloc` and `free` down to the
links of the free lists, which lie in the free blocks themselves. Addresses are byte
addresses; an arena is found by its page number. A free list's links and an arena's
header are kept apart here by their types; that they never lie on each other's bytes,
nor on those of a live block, is part of what is proved.

`palloc_get_multiple` gives any pages that the heap does not hold, or none. Between the
calls the kernel writes what it likes to the live blocks and to pages that the heap
does not hold. Each descriptor has its lock, so each call is one step.

`held` and `live` are not in the source. They keep how many pages were handed out from
each page on, and the size that was asked for at each address that `malloc` returned
and nobody freed.
-/
namespace Pintos.Malloc
open Pintos.Machines Pintos.LinkedLists Pintos.ListFamilies
set_option linter.unusedSimpArgs false

def PGSIZE : Nat := 4096
def ARENA_MAGIC : Nat := 0x9a548eed
/-- `sizeof (struct arena)` -/
def sizeof_arena : Nat := 12
/-- `sizeof (struct list_elem)` -/
def sizeof_list_elem : Nat := 8

/-- The sentinels of a descriptor's free list, and the `free_elem` of a block. -/
inductive Address
  | head (d : Nat)
  | tail (d : Nat)
  | byte (a : Nat)
deriving DecidableEq

structure Desc where
  block_size : Nat
  blocks_per_arena : Nat
deriving DecidableEq

/-- `struct arena`; `desc` is the number of the descriptor, or null. -/
structure Arena where
  magic : Nat
  desc : Option Nat
  free_cnt : Nat

structure Heap where
  memory : Memory Address
  arena : Nat → Arena
  held : Nat → Nat
  live : Nat → Option Nat

/-- The loop of `malloc_init`, with `room` left in `descs`. -/
def init_descs : Nat → Nat → List Desc
  | 0, _ => []
  | room + 1, block_size =>
    if block_size < PGSIZE / 2 then
      { block_size := block_size, blocks_per_arena := (PGSIZE - sizeof_arena) / block_size } :: init_descs room (block_size * 2)
    else []

def descs : List Desc := init_descs 10 16
def desc_cnt : Nat := descs.length
def desc (d : Nat) : Desc := descs.getD d { block_size := 0, blocks_per_arena := 0 }

def init_lists (m : Memory Address) : Nat → Memory Address
  | 0 => m
  | d + 1 => list_init (init_lists m d) (.head d) (.tail d)

/-- In any memory. -/
def malloc_init (m : Memory Address) (arena : Nat → Arena) : Heap where
  memory := init_lists m desc_cnt
  arena := arena
  held _ := 0
  live _ := none

/-! ### Pages and blocks -/

/-- `answer` is the page it finds, if it finds one. -/
def palloc_get_multiple (h : Heap) (answer : Option Nat) (page_cnt : Nat) : Option (Nat × Heap) :=
  if page_cnt = 0 then none
  else answer.map fun page => (page,{ h with held := Function.update h.held page page_cnt })

/-- Fails unless these pages were handed out as they are given back. -/
def palloc_free_multiple (h : Heap) (page page_cnt : Nat) : Option Heap :=
  if h.held page = page_cnt then some { h with held := Function.update h.held page 0 } else none

def pg_ofs (a : Nat) : Nat := a % PGSIZE

/-- Null where the descriptor is null. -/
def arena_to_block (h : Heap) (page idx : Nat) : Option Nat := do
  let d ← (h.arena page).desc
  if (h.arena page).magic = ARENA_MAGIC ∧ idx < (desc d).blocks_per_arena then
    some (page * PGSIZE + sizeof_arena + idx * (desc d).block_size)
  else none

/-- The block is where its arena has blocks. -/
def aligned (b : Nat) : Option Nat → Bool
  | some d => (pg_ofs b + 2 ^ 32 - sizeof_arena) % 2 ^ 32 % (desc d).block_size = 0
  | none => pg_ofs b = sizeof_arena

/-- The page of the arena. -/
def block_to_arena (h : Heap) (b : Nat) : Option Nat :=
  let a := h.arena (b / PGSIZE)
  if b / PGSIZE ≠ 0 ∧ a.magic = ARENA_MAGIC ∧ aligned b a.desc then some (b / PGSIZE) else none

def block_size (h : Heap) (b : Nat) : Nat :=
  let a := h.arena (b / PGSIZE)
  match a.desc with
    | some d => (desc d).block_size
    | none => PGSIZE * a.free_cnt - pg_ofs b

/-- The `n` bytes from `a` on and the `k` bytes from `b` on have a byte in common. -/
def Touches (a n b k : Nat) : Prop := a < b + k ∧ b < a + n

instance (a n b k : Nat) : Decidable (Touches a n b k) := inferInstanceAs (Decidable (a < b + k ∧ b < a + n))

/-- `memset` of a block to 0xcc. -/
def clear_block (h : Heap) (b n : Nat) : Heap := { h with
  memory := fun a => match a with
    | .byte x => if Touches b n x sizeof_list_elem then { prev := some (.byte 0xcccccccc), next := some (.byte 0xcccccccc) } else h.memory a
    | _ => h.memory a
  arena := fun page =>
    if Touches b n (page * PGSIZE) sizeof_arena then { magic := 0xcccccccc, desc := some 0xcccccccc, free_cnt := 0xcccccccc }
    else h.arena page }

/-! ### The calls -/

/-- The smallest descriptor that satisfies a request. -/
def find_desc (size : BitVec 32) : Option Nat := (List.range desc_cnt).find? fun d => (desc d).block_size ≥ size.toNat

/-- `DIV_ROUND_UP (size + sizeof *a, PGSIZE)` -/
def page_cnt (size : BitVec 32) : Nat := ((size + 12#32 + 4096#32 - 1#32) / 4096#32).toNat

/-- The blocks of a new arena, the next `n` from `i` on. -/
def add_blocks (d page : Nat) : Nat → Nat → Heap → Option Heap
  | 0, _, h => some h
  | n + 1, i, h => do
    let b ← arena_to_block h page i
    let m ← list_push_back h.memory (.tail d) (.byte b)
    add_blocks d page n (i + 1) { h with memory := m }

/-- A new arena for a descriptor. -/
def add_arena (h : Heap) (d page : Nat) : Option Heap :=
  add_blocks d page (desc d).blocks_per_arena 0 { h with
    arena := Function.update h.arena page { magic := ARENA_MAGIC, desc := some d, free_cnt := (desc d).blocks_per_arena } }

/-- A block from the free list. -/
def take_block (h : Heap) (d : Nat) (size : BitVec 32) : Option (Option Nat × Heap) := do
  let (front,m) ← list_pop_front h.memory (.head d) (.tail d)
  match front with
    | .byte b =>
      let page ← block_to_arena h b
      let a := h.arena page
      pure (some b,{ h with
        memory := m
        arena := Function.update h.arena page { a with free_cnt := a.free_cnt - 1 }
        live := Function.update h.live b (some size.toNat) })
    | _ => none

def malloc (h : Heap) (size : BitVec 32) (answer : Option Nat) : Option (Option Nat × Heap) :=
  if size = 0 then some (none,h)
  else match find_desc size with
    | none =>
      match palloc_get_multiple h answer (page_cnt size) with
        | none => some (none,h)
        | some (page,h) =>
          let b := page * PGSIZE + sizeof_arena
          some (some b,{ h with
            arena := Function.update h.arena page { magic := ARENA_MAGIC, desc := none, free_cnt := page_cnt size }
            live := Function.update h.live b (some size.toNat) })
    | some d =>
      if (h.memory (.head d)).next = some (.tail d) then
        match palloc_get_multiple h answer 1 with
          | none => some (none,h)
          | some (page,h) => (add_arena h d page).bind fun h => take_block h d size
      else take_block h d size

/-- The blocks of an arena leave the free list, the next `n` from `i` on. -/
def remove_blocks (page : Nat) : Nat → Nat → Heap → Option Heap
  | 0, _, h => some h
  | n + 1, i, h => do
    let b ← arena_to_block h page i
    let m ← list_remove h.memory (.byte b)
    remove_blocks page n (i + 1) { h with memory := m }

/-- `free` of a block of an arena. -/
def free_block (h : Heap) (d page b : Nat) : Option Heap := do
  let h := clear_block h b (desc d).block_size
  let m ← list_push_front h.memory (.head d) (.byte b)
  let a := { h.arena page with free_cnt := (h.arena page).free_cnt + 1 }
  let h := { h with memory := m, arena := Function.update h.arena page a, live := Function.update h.live b none }
  if a.free_cnt ≥ (desc d).blocks_per_arena then
    if a.free_cnt = (desc d).blocks_per_arena then
      let h ← remove_blocks page (desc d).blocks_per_arena 0 h
      palloc_free_multiple h page 1
    else none
  else pure h

def free (h : Heap) : Option Nat → Option Heap
  | none => some h
  | some b => do
    let page ← block_to_arena h b
    match (h.arena page).desc with
      | some d => free_block h d page b
      | none => palloc_free_multiple { h with live := Function.update h.live b none } page (h.arena page).free_cnt

/-! ### Runs -/

inductive Event
  | malloc (size : BitVec 32) (answer : Option Nat) (result : Option Nat)
  | free (p : Option Nat)
  /-- Writes of the rest of the kernel, up to the next call. -/
  | write (memory : Memory Address) (arena : Nat → Arena)

/-- The pages that a call of `malloc` asks for, if it asks for pages. -/
def request (size : BitVec 32) : Nat := if find_desc size = none then page_cnt size else 1

/-- These pages can be handed out. -/
def Available (h : Heap) (page n : Nat) : Prop :=
  1 ≤ page ∧ page + n ≤ 2 ^ 20 ∧ ∀ q, h.held q ≠ 0 → page + n ≤ q ∨ q + h.held q ≤ page

/-- The byte is in a live block, or in a page that the heap does not hold. -/
def Writable (h : Heap) (a : Nat) : Prop :=
  (∃ b n, h.live b = some n ∧ b ≤ a ∧ a < b + block_size h b) ∨
    ∀ page, h.held page ≠ 0 → ¬ (page * PGSIZE ≤ a ∧ a < (page + h.held page) * PGSIZE)

/-- Nothing else is written. -/
structure Spares (h : Heap) (memory : Memory Address) (arena : Nat → Arena) : Prop where
  lists : ∀ d, memory (.head d) = h.memory (.head d) ∧ memory (.tail d) = h.memory (.tail d)
  links : ∀ a, (∀ i < sizeof_list_elem, ¬ Writable h (a + i)) → memory (.byte a) = h.memory (.byte a)
  arenas : ∀ page, (∀ i < sizeof_arena, ¬ Writable h (page * PGSIZE + i)) → arena page = h.arena page

/-- A request is within the sizes that leave room for the arena. -/
def Ask (h : Heap) (size : BitVec 32) (answer : Option Nat) : Prop :=
  size.toNat ≤ 2 ^ 32 - 4096 ∧ ∀ page, answer = some page → Available h page (request size)

/-- The pointer is null, or `malloc` has returned it and it has not been freed. -/
def Freeable (h : Heap) (p : Option Nat) : Prop := ∀ b, p = some b → h.live b ≠ none

def machine : Machine Heap Event where
  Initial h := ∃ m arena, h = malloc_init m arena
  Step h event h' := match event with
    | .malloc size answer result => Ask h size answer ∧ malloc h size answer = some (result,h')
    | .free p => Freeable h p ∧ free h p = some h'
    | .write memory arena => Spares h memory arena ∧ h' = { h with memory := memory, arena := arena }

/-! ### What is kept -/

/-- The address of a block of an arena. -/
def block (page d i : Nat) : Nat := page * PGSIZE + sizeof_arena + i * (desc d).block_size

/-- The blocks of an arena that are not live. -/
def unused (h : Heap) (page d : Nat) : Finset Nat :=
  (Finset.range (desc d).blocks_per_arena).filter fun i => h.live (block page d i) = none

/-- The header of pages that are held. -/
def Headed (h : Heap) (page : Nat) : Option Nat → Prop
  | some d => d < desc_cnt ∧ h.held page = 1 ∧ (h.arena page).free_cnt = (unused h page d).card
  | none => (h.arena page).free_cnt = h.held page

/-- A live block in the pages that are held from `page` on. -/
def Placed (h : Heap) (page x n : Nat) : Option Nat → Prop
  | some d => n ≤ (desc d).block_size ∧ ∃ i < (desc d).blocks_per_arena, x = block page d i
  | none => x = page * PGSIZE + sizeof_arena ∧ n + sizeof_arena ≤ h.held page * PGSIZE

/-- A block of a descriptor that is not live. -/
def Unused (h : Heap) (d x : Nat) : Prop :=
  ∃ page i, h.held page ≠ 0 ∧ (h.arena page).desc = some d ∧ i < (desc d).blocks_per_arena ∧ x = block page d i ∧ h.live x = none

structure Inv (h : Heap) (xs : Nat → List Nat) : Prop where
  family : Family h.memory (fun d => d < desc_cnt) .head .tail fun d => (xs d).map .byte
  pages : ∀ page, h.held page ≠ 0 → 1 ≤ page ∧ page + h.held page ≤ 2 ^ 20
  apart : ∀ p q, h.held p ≠ 0 → h.held q ≠ 0 → p ≠ q → p + h.held p ≤ q ∨ q + h.held q ≤ p
  magic : ∀ page, h.held page ≠ 0 → (h.arena page).magic = ARENA_MAGIC
  header : ∀ page, h.held page ≠ 0 → Headed h page (h.arena page).desc
  listed : ∀ d < desc_cnt, ∀ x, x ∈ xs d ↔ Unused h d x
  placed : ∀ x n, h.live x = some n → ∃ page, h.held page ≠ 0 ∧ Placed h page x n (h.arena page).desc

/-- A live block lies in the pages that are held from `page` on. -/
def Occupied (h : Heap) (page : Nat) : Prop :=
  ∃ x n, h.live x = some n ∧ page * PGSIZE ≤ x ∧ x < (page + h.held page) * PGSIZE

section
variable {h h' : Heap} {xs : Nat → List Nat} {page p q d e i j x y n m : Nat} {size : BitVec 32}

theorem desc_fits : ∀ d < desc_cnt, sizeof_list_elem ≤ (desc d).block_size ∧ 1 ≤ (desc d).blocks_per_arena ∧
    sizeof_arena + (desc d).blocks_per_arena * (desc d).block_size ≤ PGSIZE := by
  decide

/-! ### Addresses -/

theorem block_bounds (page : Nat) (small : d < desc_cnt) (below : i < (desc d).blocks_per_arena) :
    page * PGSIZE + sizeof_arena ≤ block page d i ∧ block page d i + (desc d).block_size ≤ (page + 1) * PGSIZE := by
  have fits := (desc_fits d small).2.2
  have inside : (i + 1) * (desc d).block_size ≤ (desc d).blocks_per_arena * (desc d).block_size := Nat.mul_le_mul_right _ below
  rw [Nat.add_mul] at inside
  rw [block,Nat.add_mul]
  omega

theorem block_order (later : i < j) : block page d i + (desc d).block_size ≤ block page d j := by
  have step : (i + 1) * (desc d).block_size ≤ j * (desc d).block_size := Nat.mul_le_mul_right _ later
  rw [Nat.add_mul] at step
  rw [block,block]
  omega

theorem block_apart (page d : Nat) (other : i ≠ j) : block page d i + (desc d).block_size ≤ block page d j ∨
    block page d j + (desc d).block_size ≤ block page d i :=
  (Nat.lt_or_gt_of_ne other).imp block_order block_order

theorem block_injective (small : d < desc_cnt) (same : block page d i = block page d j) : i = j := by
  have positive := (desc_fits d small).1
  refine Decidable.byContradiction fun other => ?_
  have apart := block_apart page d other
  rw [sizeof_list_elem] at positive
  omega

theorem page_of (low : page * PGSIZE ≤ x) (high : x < (page + 1) * PGSIZE) : x / PGSIZE = page := by
  rw [PGSIZE] at low high ⊢
  omega

theorem block_page (page : Nat) (small : d < desc_cnt) (below : i < (desc d).blocks_per_arena) :
    block page d i / PGSIZE = page := by
  have bounds := block_bounds page small below
  have positive := (desc_fits d small).1
  rw [sizeof_list_elem] at positive
  exact page_of (by omega) (by omega)

theorem big_page (page : Nat) : (page * PGSIZE + sizeof_arena) / PGSIZE = page := by
  rw [PGSIZE,sizeof_arena]
  omega

theorem block_aligned (small : d < desc_cnt) (below : i < (desc d).blocks_per_arena) :
    aligned (block page d i) (some d) = true := by
  have bounds := block_bounds page small below
  have positive := (desc_fits d small).1
  have offset : pg_ofs (block page d i) = sizeof_arena + i * (desc d).block_size := by
    rw [block] at bounds ⊢
    rw [pg_ofs]
    rw [PGSIZE,sizeof_list_elem] at *
    omega
  rw [aligned,offset,decide_eq_true_eq]
  have small : i * (desc d).block_size < 2 ^ 32 := by
    rw [block,PGSIZE,sizeof_arena,sizeof_list_elem] at *
    omega
  rw [show sizeof_arena + i * (desc d).block_size + 2 ^ 32 - sizeof_arena = i * (desc d).block_size + 2 ^ 32 by omega,
    Nat.add_mod_right,Nat.mod_eq_of_lt small,Nat.mul_mod_left]

/-! ### Extents -/

/-- Pages that are held from different pages on are different. -/
theorem page_unique (inv : Inv h xs) (one : h.held p ≠ 0) (two : h.held q ≠ 0)
    (inOne : p * PGSIZE ≤ x ∧ x < (p + h.held p) * PGSIZE)
    (inTwo : q * PGSIZE ≤ x ∧ x < (q + h.held q) * PGSIZE) : p = q := by
  refine Decidable.byContradiction fun other => ?_
  have apart := inv.apart p q one two other
  rw [PGSIZE] at *
  omega

/-- What is known of a live block. -/
structure Extent (h : Heap) (x n page : Nat) : Prop where
  held : h.held page ≠ 0
  low : page * PGSIZE + sizeof_arena ≤ x
  high : x + block_size h x ≤ (page + h.held page) * PGSIZE
  enough : n ≤ block_size h x
  placed : Placed h page x n (h.arena page).desc

theorem live_extent (inv : Inv h xs) (live : h.live x = some n) : ∃ page, Extent h x n page := by
  obtain ⟨page,held,placed⟩ := inv.placed x n live
  have header := inv.header page held
  suffices fits : page * PGSIZE + sizeof_arena ≤ x ∧ x + block_size h x ≤ (page + h.held page) * PGSIZE ∧ n ≤ block_size h x from
    ⟨page,held,fits.1,fits.2.1,fits.2.2,placed⟩
  cases kind : (h.arena page).desc with
  | some d =>
    rw [kind] at placed header
    obtain ⟨small,one,-⟩ := header
    obtain ⟨enough,i,below,rfl⟩ := placed
    obtain ⟨low,high⟩ := block_bounds page small below
    have extent : block_size h (block page d i) = (desc d).block_size := by rw [block_size,block_page _ small below,kind]
    rw [extent,one]
    exact ⟨low,high,enough⟩
  | none =>
    rw [kind] at placed header
    obtain ⟨rfl,enough⟩ := placed
    have extent : block_size h (page * PGSIZE + sizeof_arena) = PGSIZE * h.held page - sizeof_arena := by
      rw [block_size,big_page]
      simp only [kind]
      rw [show (h.arena page).free_cnt = h.held page from header,pg_ofs,PGSIZE,sizeof_arena]
      omega
    rw [extent]
    refine ⟨Nat.le_refl _,?_,?_⟩
    · rw [PGSIZE,sizeof_arena] at *
      omega
    · rw [PGSIZE,sizeof_arena] at *
      omega

theorem extent_positive (inv : Inv h xs) (extent : Extent h x n page) : 0 < block_size h x := by
  have header := inv.header page extent.held
  have placed := extent.placed
  cases kind : (h.arena page).desc with
  | some d =>
    rw [kind] at placed header
    obtain ⟨-,i,below,rfl⟩ := placed
    have positive := (desc_fits d header.1).1
    rw [block_size,block_page _ header.1 below,kind]
    exact Nat.lt_of_lt_of_le (by decide) positive
  | none =>
    rw [kind] at placed header
    have held := extent.held
    rw [placed.1,block_size,big_page]
    simp only [kind]
    rw [show (h.arena page).free_cnt = h.held page from header,pg_ofs,PGSIZE,sizeof_arena]
    omega

/-- The bytes of a live block are in the pages of its arena. -/
theorem extent_range (inv : Inv h xs) (extent : Extent h x n page) : page * PGSIZE ≤ x ∧ x < (page + h.held page) * PGSIZE := by
  have positive := extent_positive inv extent
  have low := extent.low
  have high := extent.high
  omega

theorem live_apart (inv : Inv h xs) (one : h.live x = some n) (two : h.live y = some m) (other : x ≠ y) :
    x + block_size h x ≤ y ∨ y + block_size h y ≤ x := by
  obtain ⟨p,first⟩ := live_extent inv one
  obtain ⟨q,second⟩ := live_extent inv two
  by_cases same : p = q
  · subst same
    have header := inv.header p first.held
    have here := first.placed
    have there := second.placed
    cases kind : (h.arena p).desc with
    | some d =>
      rw [kind] at here there header
      obtain ⟨-,i,below,rfl⟩ := here
      obtain ⟨-,j,under,rfl⟩ := there
      rw [block_size,block_size,block_page _ header.1 below,block_page _ header.1 under,kind]
      exact block_apart _ _ fun equal => other (by rw [equal])
    | none =>
      rw [kind] at here there
      exact absurd (here.1.trans there.1.symm) other
  · have apart := inv.apart p q first.held second.held same
    have lowX := first.low
    have highX := first.high
    have lowY := second.low
    have highY := second.high
    rw [PGSIZE] at *
    omega

/-- A block that is not live is apart from those that are. -/
theorem unused_apart (inv : Inv h xs) (small : d < desc_cnt) (unused : Unused h d x) (live : h.live y = some n) :
    x + (desc d).block_size ≤ y ∨ y + block_size h y ≤ x := by
  obtain ⟨p,i,held,kind,below,rfl,free⟩ := unused
  obtain ⟨q,extent⟩ := live_extent inv live
  have header := inv.header p held
  rw [kind] at header
  have one := header.2.1
  obtain ⟨low,high⟩ := block_bounds p small below
  by_cases same : p = q
  · subst same
    have there := extent.placed
    rw [kind] at there
    obtain ⟨-,j,under,rfl⟩ := there
    rw [block_size,block_page _ small under,kind]
    refine block_apart _ _ fun equal => ?_
    subst equal
    rw [free] at live
    cases live
  · have apart := inv.apart p q held extent.held same
    have lowY := extent.low
    have highY := extent.high
    rw [PGSIZE] at *
    omega

theorem header_apart (inv : Inv h xs) (held : h.held p ≠ 0) (live : h.live x = some n) :
    p * PGSIZE + sizeof_arena ≤ x ∨ x + block_size h x ≤ p * PGSIZE := by
  obtain ⟨q,extent⟩ := live_extent inv live
  have low := extent.low
  have high := extent.high
  by_cases same : p = q
  · subst same
    exact .inl low
  · have apart := inv.apart p q held extent.held same
    rw [PGSIZE,sizeof_arena] at *
    omega

/-! ### Memory that nothing depends on -/

theorem unused_range (small : d < desc_cnt) (unused : Unused h d x) :
    ∃ page, h.held page ≠ 0 ∧ page * PGSIZE + sizeof_arena ≤ x ∧ x + (desc d).block_size ≤ (page + 1) * PGSIZE := by
  obtain ⟨page,i,held,-,below,rfl,-⟩ := unused
  exact ⟨page,held,block_bounds _ small below⟩

/-- The sentinels, the links of blocks on free lists and the headers of arenas are all
    that matters. -/
theorem inv_overwrite {memory : Memory Address} {arena : Nat → Arena} (inv : Inv h xs)
    (lists : ∀ d, memory (.head d) = h.memory (.head d) ∧ memory (.tail d) = h.memory (.tail d))
    (links : ∀ d < desc_cnt, ∀ x ∈ xs d, memory (.byte x) = h.memory (.byte x))
    (headers : ∀ page, h.held page ≠ 0 → arena page = h.arena page) : Inv { h with memory := memory, arena := arena } xs where
  family := by
    refine family_frame inv.family fun d small a member => ?_
    rcases mem_nodes.mp member with rfl | element | rfl
    · exact (lists d).1
    · obtain ⟨x,listed,rfl⟩ := List.mem_map.mp element
      exact links d small x listed
    · exact (lists d).2
  pages := inv.pages
  apart := inv.apart
  magic page held := by
    show (arena page).magic = ARENA_MAGIC
    rw [headers page held]
    exact inv.magic page held
  header page held := by
    have header := inv.header page held
    show Headed _ page (arena page).desc
    rw [headers page held]
    cases kind : (h.arena page).desc with
    | some d =>
      rw [kind] at header
      refine ⟨header.1,header.2.1,?_⟩
      show (arena page).free_cnt = _
      rw [headers page held]
      exact header.2.2
    | none =>
      rw [kind] at header
      show (arena page).free_cnt = _
      rw [headers page held]
      exact header
  listed d small x := by
    rw [inv.listed d small x]
    refine exists_congr fun page => exists_congr fun i => and_congr_right fun held => ?_
    show _ ↔ (arena page).desc = some d ∧ _
    rw [headers page held]
  placed x n live := by
    obtain ⟨page,held,placed⟩ := inv.placed x n live
    refine ⟨page,held,?_⟩
    show Placed _ page x n (arena page).desc
    rw [headers page held]
    cases kind : (h.arena page).desc with
    | some d =>
      rw [kind] at placed
      exact placed
    | none =>
      rw [kind] at placed
      exact placed

/-- The bytes of the heap's own that the kernel may write to. -/
theorem not_writable {k a : Nat} (held : h.held p ≠ 0) (inside : p * PGSIZE ≤ a ∧ a + k ≤ (p + h.held p) * PGSIZE)
    (apart : ∀ y n, h.live y = some n → a + k ≤ y ∨ y + block_size h y ≤ a) : ∀ i < k, ¬ Writable h (a + i) := by
  rintro i below (⟨y,n,live,low,high⟩ | outside)
  · rcases apart y n live with before | after
    · omega
    · omega
  · exact outside p held ⟨by omega,by omega⟩

theorem inv_write {memory : Memory Address} {arena : Nat → Arena} (inv : Inv h xs) (spares : Spares h memory arena) :
    Inv { h with memory := memory, arena := arena } xs := by
  refine inv_overwrite inv spares.lists ?_ ?_
  · intro d small x listed
    have unused := (inv.listed d small x).mp listed
    have room := (desc_fits d small).1
    obtain ⟨page,held,low,high⟩ := unused_range small unused
    have some_ : 1 ≤ h.held page := Nat.pos_of_ne_zero held
    have wide := Nat.mul_le_mul_right PGSIZE (Nat.add_le_add_left some_ page)
    refine spares.links x (not_writable held ⟨by omega,by omega⟩ fun y n live => ?_)
    exact (unused_apart inv small unused live).imp_left fun before => by omega
  · intro page held
    have some_ : 1 ≤ h.held page := Nat.pos_of_ne_zero held
    have wide := Nat.mul_le_mul_right PGSIZE (Nat.add_le_add_left some_ page)
    refine spares.arenas page (not_writable held ⟨Nat.le_refl _,?_⟩ fun y n live => header_apart inv held live)
    have header : sizeof_arena ≤ 1 * PGSIZE := by decide
    rw [Nat.add_mul page 1] at wide
    omega

/-- The block that is cleared in `free` is still live. -/
theorem inv_clear (inv : Inv h xs) (live : h.live x = some n) : Inv (clear_block h x (block_size h x)) xs := by
  refine inv_overwrite inv (fun d => ⟨rfl,rfl⟩) ?_ ?_
  · intro d small y listed
    have apart := unused_apart inv small ((inv.listed d small y).mp listed) live
    have room := (desc_fits d small).1
    refine if_neg fun touches => ?_
    obtain ⟨one,two⟩ := touches
    omega
  · intro page held
    have apart := header_apart inv held live
    refine if_neg fun touches => ?_
    obtain ⟨one,two⟩ := touches
    omega

/-! ### Arenas of blocks -/

theorem block_to_arena_block (inv : Inv h xs) (held : h.held page ≠ 0) (kind : (h.arena page).desc = some d)
    (below : i < (desc d).blocks_per_arena) : block_to_arena h (block page d i) = some page := by
  have header := inv.header page held
  rw [kind] at header
  have here := block_page page header.1 below
  have positive := (inv.pages page held).1
  simp only [block_to_arena,here,kind]
  exact if_pos ⟨by omega,inv.magic page held,block_aligned header.1 below⟩

theorem block_to_arena_big (inv : Inv h xs) (held : h.held page ≠ 0) (kind : (h.arena page).desc = none) :
    block_to_arena h (page * PGSIZE + sizeof_arena) = some page := by
  have positive := (inv.pages page held).1
  simp only [block_to_arena,big_page,kind]
  refine if_pos ⟨by omega,inv.magic page held,?_⟩
  rw [aligned,pg_ofs,PGSIZE,sizeof_arena,decide_eq_true_eq]
  omega

/-- A block is taken or given back. -/
theorem inv_block (ys : List Nat) (memory : Memory Address) (v : Option Nat) {free_cnt : Nat} (inv : Inv h xs)
    (held : h.held p ≠ 0)
    (kind : (h.arena p).desc = some d) (below : i < (desc d).blocks_per_arena)
    (result : h' = { h with
      memory := memory
      arena := Function.update h.arena p { h.arena p with free_cnt := free_cnt }
      live := Function.update h.live (block p d i) v })
    (family : Family memory (fun d => d < desc_cnt) .head .tail fun e => (Function.update xs d ys e).map .byte)
    (listed : ∀ y, y ∈ ys ↔ if y = block p d i then v = none else y ∈ xs d) (count : free_cnt = (unused h' p d).card)
    (fits : ∀ n, v = some n → n ≤ (desc d).block_size) : Inv h' (Function.update xs d ys) := by
  have header := inv.header p held
  rw [kind] at header
  obtain ⟨small,one,-⟩ := header
  have descs : ∀ q, (h'.arena q).desc = (h.arena q).desc := by
    intro q
    rw [result]
    by_cases same : q = p
    · subst same
      simp
    · simp [same]
  have pages : h'.held = h.held := by rw [result]
  have elsewhere : ∀ q e j, h.held q ≠ 0 → (h.arena q).desc = some e → j < (desc e).blocks_per_arena → (q ≠ p ∨ e ≠ d) →
      block q e j ≠ block p d i := by
    intro q e j there other under different same
    have onPage : q = p := by
      have first := block_page q (inv.header q there |> fun header => by rw [other] at header; exact header.1) under
      rw [same,block_page _ small below] at first
      exact first.symm
    subst onPage
    rw [kind] at other
    exact different.elim (fun h => h rfl) fun h => h (Option.some.inj other).symm
  refine ⟨by rw [result]; exact family,?_,?_,?_,?_,?_,?_⟩
  · rw [pages]
    exact inv.pages
  · rw [pages]
    exact inv.apart
  · intro q there
    rw [pages] at there
    have magic := inv.magic q there
    rw [result]
    by_cases same : q = p
    · subst same
      simpa using magic
    · simpa [same] using magic
  · intro q there
    rw [pages] at there
    rw [descs]
    by_cases same : q = p
    · subst same
      rw [kind]
      refine ⟨small,by rw [pages]; exact one,?_⟩
      rw [← count,result]
      simp
    · have header := inv.header q there
      have arena : h'.arena q = h.arena q := by rw [result]; simp [same]
      cases other : (h.arena q).desc with
      | some e =>
        rw [other] at header
        refine ⟨header.1,by rw [pages]; exact header.2.1,?_⟩
        have set : unused h' q e = unused h q e := by
          refine Finset.filter_congr fun j listed => ?_
          rw [result]
          simp only
          rw [Function.update_of_ne (elsewhere q e j there other (Finset.mem_range.mp listed) (.inl same))]
        rw [arena,set]
        exact header.2.2
      | none =>
        rw [other] at header
        rw [Headed,arena,pages]
        exact header
  · intro e tiny x
    have lives : h'.live = Function.update h.live (block p d i) v := by rw [result]
    have unchanged : ∀ x, x ≠ block p d i → (Unused h' e x ↔ Unused h e x) := by
      intro x other
      refine exists_congr fun q => exists_congr fun j => ?_
      rw [pages,descs,lives,Function.update_of_ne other]
    by_cases same : e = d
    · subst same
      rw [Function.update_self,listed]
      split
      · next self =>
        subst self
        constructor
        · intro none_
          exact ⟨p,i,by rw [pages]; exact held,by rw [descs]; exact kind,below,rfl,by rw [lives,Function.update_self]; exact none_⟩
        · rintro ⟨-,-,-,-,-,-,free⟩
          rwa [lives,Function.update_self] at free
      · next other => rw [inv.listed e tiny,unchanged x other]
    · rw [Function.update_of_ne same,inv.listed e tiny]
      by_cases self : x = block p d i
      · subst self
        constructor
        · rintro ⟨q,j,there,other,under,equal,-⟩
          exact absurd equal.symm (elsewhere q e j there other under (.inr same))
        · rintro ⟨q,j,there,other,under,equal,-⟩
          rw [pages] at there
          rw [descs] at other
          exact absurd equal.symm (elsewhere q e j there other under (.inr same))
      · exact (unchanged x self).symm
  · intro x n live
    have lives : h'.live = Function.update h.live (block p d i) v := by rw [result]
    rw [lives] at live
    by_cases self : x = block p d i
    · subst self
      rw [Function.update_self] at live
      refine ⟨p,by rw [pages]; exact held,?_⟩
      rw [descs,kind]
      exact ⟨fits n live,i,below,rfl⟩
    · rw [Function.update_of_ne self] at live
      obtain ⟨q,there,placed⟩ := inv.placed x n live
      refine ⟨q,by rw [pages]; exact there,?_⟩
      rw [descs]
      cases other : (h.arena q).desc with
      | some e =>
        rw [other] at placed
        exact placed
      | none =>
        rw [other] at placed
        rw [Placed,pages]
        exact placed

theorem update_map (xs : Nat → List Nat) (d : Nat) (ys : List Nat) :
    Function.update (fun e => (xs e).map Address.byte) d (ys.map .byte) = fun e => (Function.update xs d ys e).map .byte := by
  funext e
  by_cases same : e = d
  · subst same
    simp
  · simp [same]

theorem xs_nodup (inv : Inv h xs) (small : d < desc_cnt) : (xs d).Nodup := by
  have once := (inv.family.each d small).once
  rw [List.nodup_cons,List.nodup_append] at once
  exact List.Nodup.of_map _ once.2.1

/-- What `malloc` does to the heap besides returning `b`. -/
structure Given (h h' : Heap) (b n : Nat) : Prop where
  fresh : h.live b = none
  live : h'.live = Function.update h.live b (some n)

theorem take_block_spec {rest : List Nat} (inv : Inv h xs) (small : d < desc_cnt) (front : xs d = x :: rest)
    (fits : size.toNat ≤ (desc d).block_size) :
    ∃ h', take_block h d size = some (some x,h') ∧ Inv h' (Function.update xs d rest) ∧ Given h h' x size.toNat ∧
    h'.held = h.held := by
  have unused := (inv.listed d small x).mp (by rw [front]; exact List.mem_cons_self ..)
  obtain ⟨page,i,held,kind,below,rfl,free⟩ := unused
  have list := inv.family.each d small
  rw [front,List.map_cons] at list
  have first := (represents_front list).1
  rw [following] at first
  obtain ⟨m',removed,family,-⟩ := family_remove _ [] (rest.map .byte) inv.family small
    (by rw [front,List.map_cons,List.nil_append])
  rw [List.nil_append,update_map] at family
  have once := xs_nodup inv small
  rw [front,List.nodup_cons] at once
  have header := inv.header page held
  rw [kind] at header
  have notTail : ¬ Address.byte (block page d i) = .tail d := fun same => by cases same
  refine ⟨{ h with
    memory := m'
    arena := Function.update h.arena page { h.arena page with free_cnt := (h.arena page).free_cnt - 1 }
    live := Function.update h.live (block page d i) (some size.toNat) },?_,inv_block rest m' (some size.toNat) inv held kind below rfl family ?_ ?_ ?_,⟨free,rfl⟩,rfl⟩
  · simp only [take_block,list_pop_front,first,Option.bind_eq_bind,Option.bind_some,if_neg notTail,removed,Option.pure_def,
      block_to_arena_block inv held kind below]
  · intro y
    split
    · next self =>
      subst self
      simp [once.1]
    · next other => rw [front,List.mem_cons,or_iff_right other]
  · have set : unused { h with
        memory := m'
        arena := Function.update h.arena page { h.arena page with free_cnt := (h.arena page).free_cnt - 1 }
        live := Function.update h.live (block page d i) (some size.toNat) } page d = (unused h page d).erase i := by
      ext j
      rw [Finset.mem_erase]
      simp only [unused,Finset.mem_filter]
      by_cases same : j = i
      · subst same
        simp
      · have other : block page d j ≠ block page d i := fun equal => same (block_injective small equal)
        rw [Function.update_of_ne other]
        simp [same]
    rw [set,Finset.card_erase_of_mem,header.2.2]
    exact Finset.mem_filter.mpr ⟨Finset.mem_range.mpr below,free⟩
  · intro n same
    cases same
    exact fits

theorem unused_le (h : Heap) (page d : Nat) : (unused h page d).card ≤ (desc d).blocks_per_arena := by
  have bound := Finset.card_filter_le (Finset.range (desc d).blocks_per_arena) fun i => h.live (block page d i) = none
  rwa [Finset.card_range] at bound

theorem arena_to_block_spec (kind : (h.arena page).desc = some d) (magic : (h.arena page).magic = ARENA_MAGIC)
    (below : i < (desc d).blocks_per_arena) : arena_to_block h page i = some (block page d i) := by
  simp only [arena_to_block,kind,Option.bind_eq_bind,Option.bind_some]
  exact if_pos ⟨magic,below⟩

/-- The loop that fills the free list of a new arena. -/
theorem add_blocks_spec (page n i : Nat) (h : Heap) (xs : Nat → List Nat) (small : d < desc_cnt)
    (all : i + n = (desc d).blocks_per_arena)
    (kind : (h.arena page).desc = some d) (magic : (h.arena page).magic = ARENA_MAGIC)
    (family : Family h.memory (fun d => d < desc_cnt) .head .tail fun d => (xs d).map .byte)
    (fresh : ∀ j, i ≤ j → j < (desc d).blocks_per_arena → ∀ e < desc_cnt, block page d j ∉ xs e) :
    ∃ m', add_blocks d page n i h = some { h with memory := m' } ∧
      Family m' (fun d => d < desc_cnt) .head .tail
        fun e => (Function.update xs d (xs d ++ (List.range' i n).map (block page d)) e).map .byte := by
  induction n generalizing i h xs with
  | zero =>
    refine ⟨h.memory,rfl,?_⟩
    simpa using family
  | succ n ih =>
    have below : i < (desc d).blocks_per_arena := by omega
    obtain ⟨m,pushed,longer,-⟩ := family_insert (.byte (block page d i)) ((xs d).map .byte) [] family small
      (List.append_nil _).symm (by
        intro e tiny member
        rcases mem_nodes.mp member with same | element | same
        · cases same
        · obtain ⟨x,listed,same⟩ := List.mem_map.mp element
          rw [Address.byte.inj same] at listed
          exact fresh i (Nat.le_refl i) below e tiny listed
        · cases same)
    rw [← List.map_singleton (a := block page d i),← List.map_append,update_map] at longer
    have later : ∀ j, i + 1 ≤ j → j < (desc d).blocks_per_arena → ∀ e < desc_cnt,
        block page d j ∉ Function.update xs d (xs d ++ [block page d i]) e := by
      intro j after under e tiny member
      by_cases same : e = d
      · subst same
        rw [Function.update_self,List.mem_append,List.mem_singleton] at member
        rcases member with old | equal
        · exact fresh j (by omega) under e tiny old
        · have position := block_injective small equal
          omega
      · rw [Function.update_of_ne same] at member
        exact fresh j (by omega) under e tiny member
    obtain ⟨m',ran,after⟩ := ih (i + 1) { h with memory := m } _ (by omega) kind magic longer later
    refine ⟨m',?_,?_⟩
    · rw [add_blocks,arena_to_block_spec kind magic below]
      simp only [Option.bind_eq_bind,Option.bind_some,list_push_back]
      rw [following] at pushed
      rw [pushed]
      exact ran
    · rw [Function.update_idem,Function.update_self,List.append_assoc,List.singleton_append,← List.map_cons] at after
      exact after

/-- The pages that are handed out belong to no live block. -/
theorem available_live {k : Nat} (inv : Inv h xs) (available : Available h page k) (live : h.live x = some n) :
    ¬ (page * PGSIZE ≤ x ∧ x < (page + k) * PGSIZE) := by
  rintro ⟨low,high⟩
  obtain ⟨q,extent⟩ := live_extent inv live
  obtain ⟨lowQ,highQ⟩ := extent_range inv extent
  have apart := available.2.2 q extent.held
  rw [PGSIZE] at *
  omega

theorem available_held {k : Nat} (available : Available h page k) (some_ : k ≠ 0) : h.held page = 0 := by
  refine Decidable.byContradiction fun held => ?_
  have apart := available.2.2 page held
  omega

/-- New pages, with a header of their own, and perhaps with new free blocks. -/
theorem inv_arena (d : Nat) (ys : List Nat) (memory : Memory Address) {a : Arena} {k : Nat} (inv : Inv h xs)
    (available : Available h page k)
    (some_ : k ≠ 0) (result : h' = { h with
      memory := memory, arena := Function.update h.arena page a, held := Function.update h.held page k })
    (family : Family memory (fun d => d < desc_cnt) .head .tail fun e => (Function.update xs d ys e).map .byte)
    (magic : a.magic = ARENA_MAGIC) (header : Headed h' page a.desc)
    (listed : ∀ y, y ∈ ys ↔ y ∈ xs d ∨ a.desc = some d ∧ ∃ i < (desc d).blocks_per_arena, y = block page d i)
    (only : ∀ e, a.desc = some e → e = d) : Inv h' (Function.update xs d ys) := by
  have free := available_held available some_
  have arena : ∀ q, q ≠ page → h'.arena q = h.arena q ∧ h'.held q = h.held q := by
    intro q other
    rw [result]
    simp [other]
  have here : h'.arena page = a ∧ h'.held page = k := by
    rw [result]
    simp
  have live : h'.live = h.live := by rw [result]
  have old : ∀ q, h.held q ≠ 0 → q ≠ page := by
    rintro q held rfl
    exact held free
  refine ⟨by rw [result]; exact family,?_,?_,?_,?_,?_,?_⟩
  · intro q held
    by_cases same : q = page
    · subst same
      rw [here.2]
      exact ⟨available.1,available.2.1⟩
    · rw [(arena q same).2] at held ⊢
      exact inv.pages q held
  · intro p q one two other
    by_cases first : p = page
    · subst first
      rw [(arena q other.symm).2] at two ⊢
      rw [here.2]
      exact available.2.2 q two
    · rw [(arena p first).2] at one ⊢
      by_cases second : q = page
      · subst second
        rw [here.2]
        exact (available.2.2 p one).symm
      · rw [(arena q second).2] at two ⊢
        exact inv.apart p q one two other
  · intro q held
    by_cases same : q = page
    · subst same
      rw [here.1]
      exact magic
    · rw [(arena q same).2] at held
      rw [(arena q same).1]
      exact inv.magic q held
  · intro q held
    by_cases same : q = page
    · subst same
      rw [here.1]
      exact header
    · rw [(arena q same).2] at held
      rw [(arena q same).1]
      have header := inv.header q held
      cases kind : (h.arena q).desc with
      | some e =>
        rw [kind] at header
        refine ⟨header.1,by rw [(arena q same).2]; exact header.2.1,?_⟩
        rw [(arena q same).1,header.2.2,unused,unused,live]
      | none =>
        rw [kind] at header
        rw [Headed,(arena q same).1,(arena q same).2]
        exact header
  · intro e tiny x
    have unchanged : Unused h' e x ↔ Unused h e x ∨ a.desc = some e ∧ ∃ i < (desc e).blocks_per_arena, x = block page e i := by
      constructor
      · rintro ⟨q,i,held,kind,below,equal,none_⟩
        rw [live] at none_
        by_cases same : q = page
        · subst same
          rw [here.1] at kind
          exact .inr ⟨kind,i,below,equal⟩
        · rw [(arena q same).2] at held
          rw [(arena q same).1] at kind
          exact .inl ⟨q,i,held,kind,below,equal,none_⟩
      · rintro (⟨q,i,held,kind,below,equal,none_⟩ | ⟨kind,i,below,rfl⟩)
        · have other := old q held
          exact ⟨q,i,by rw [(arena q other).2]; exact held,by rw [(arena q other).1]; exact kind,below,equal,by rw [live]; exact none_⟩
        · refine ⟨page,i,by rw [here.2]; exact some_,by rw [here.1]; exact kind,below,rfl,?_⟩
          rw [live]
          cases alive : h.live (block page e i) with
          | none => rfl
          | some n =>
            obtain ⟨low,high⟩ := block_bounds page tiny below
            have room := (desc_fits e tiny).1
            have least : 1 ≤ k := Nat.pos_of_ne_zero some_
            have more := Nat.mul_le_mul_right PGSIZE (Nat.add_le_add_left least page)
            refine absurd ⟨?_,?_⟩ (available_live inv available alive)
            · omega
            · rw [sizeof_list_elem] at room
              omega
    rw [unchanged]
    by_cases same : e = d
    · subst same
      rw [Function.update_self,listed,inv.listed e tiny]
    · rw [Function.update_of_ne same,inv.listed e tiny,or_iff_left]
      exact fun new => same (only e new.1)
  · intro x n alive
    rw [live] at alive
    obtain ⟨q,held,placed⟩ := inv.placed x n alive
    have other := old q held
    refine ⟨q,by rw [(arena q other).2]; exact held,?_⟩
    rw [(arena q other).1]
    cases kind : (h.arena q).desc with
    | some e =>
      rw [kind] at placed
      exact placed
    | none =>
      rw [kind] at placed
      rw [Placed,(arena q other).2]
      exact placed

theorem add_arena_spec (inv : Inv h xs) (small : d < desc_cnt) (available : Available h page 1) :
    ∃ h', add_arena { h with held := Function.update h.held page 1 } d page = some h' ∧
      Inv h' (Function.update xs d (xs d ++ (List.range (desc d).blocks_per_arena).map (block page d))) ∧ h'.live = h.live ∧
      h'.held = Function.update h.held page 1 := by
  have outside : ∀ j, 0 ≤ j → j < (desc d).blocks_per_arena → ∀ e < desc_cnt, block page d j ∉ xs e := by
    intro j _ below e tiny member
    obtain ⟨q,i,held,kind,under,equal,-⟩ := (inv.listed e tiny _).mp member
    have first := block_page page small below
    rw [equal,block_page _ tiny under] at first
    exact held (first ▸ available_held available Nat.one_ne_zero)
  obtain ⟨m',ran,family⟩ := add_blocks_spec page (desc d).blocks_per_arena 0 { h with
    held := Function.update h.held page 1
    arena := Function.update h.arena page { magic := ARENA_MAGIC, desc := some d, free_cnt := (desc d).blocks_per_arena } } xs small
    (Nat.zero_add _) (by simp) (by simp) inv.family outside
  rw [← List.range_eq_range'] at family
  refine ⟨_,ran,inv_arena d _ m' inv available Nat.one_ne_zero rfl family rfl ⟨small,by simp,?_⟩ ?_ ?_,rfl,rfl⟩
  · have all : unused { h with
        memory := m'
        held := Function.update h.held page 1
        arena := Function.update h.arena page { magic := ARENA_MAGIC, desc := some d, free_cnt := (desc d).blocks_per_arena } } page d =
        Finset.range (desc d).blocks_per_arena := by
      refine Finset.filter_true_of_mem fun i listed => ?_
      have below := Finset.mem_range.mp listed
      cases alive : h.live (block page d i) with
      | none => rfl
      | some n =>
        obtain ⟨low,high⟩ := block_bounds page small below
        have room := (desc_fits d small).1
        rw [sizeof_list_elem] at room
        exact absurd ⟨by omega,by omega⟩ (available_live inv available alive)
    rw [all,Finset.card_range]
    simp
  · intro y
    rw [List.mem_append,List.mem_map]
    refine or_congr_right ?_
    constructor
    · rintro ⟨i,listed,rfl⟩
      exact ⟨rfl,i,List.mem_range.mp listed,rfl⟩
    · rintro ⟨-,i,below,rfl⟩
      exact ⟨i,List.mem_range.mpr below,rfl⟩
  · intro e same
    exact (Option.some.inj same).symm

/-! ### Pages that are given back -/

/-- Pages without a live block are given back, and their free blocks are off the lists. -/
theorem inv_release {ys : Nat → List Nat} {memory : Memory Address} (inv : Inv h xs) (held : h.held page ≠ 0)
    (empty : ¬ Occupied h page)
    (family : Family memory (fun d => d < desc_cnt) .head .tail fun d => (ys d).map .byte)
    (listed : ∀ e < desc_cnt, ∀ x, x ∈ ys e ↔ x ∈ xs e ∧ x / PGSIZE ≠ page) :
    Inv { h with memory := memory, held := Function.update h.held page 0 } ys := by
  have kept : ∀ q, Function.update h.held page 0 q ≠ 0 → q ≠ page ∧ Function.update h.held page 0 q = h.held q ∧
      h.held q ≠ 0 := by
    intro q still
    by_cases same : q = page
    · subst same
      simp at still
    · rw [Function.update_of_ne same] at still
      exact ⟨same,Function.update_of_ne same _ _,still⟩
  have keeps : ∀ q, q ≠ page → h.held q ≠ 0 → Function.update h.held page 0 q ≠ 0 := by
    intro q other before
    rw [Function.update_of_ne other]
    exact before
  refine ⟨family,?_,?_,?_,?_,?_,?_⟩
  · intro q still
    obtain ⟨-,same,before⟩ := kept q still
    show 1 ≤ q ∧ q + Function.update h.held page 0 q ≤ 2 ^ 20
    rw [same]
    exact inv.pages q before
  · intro p q one two other
    obtain ⟨-,first,before⟩ := kept p one
    obtain ⟨-,second,too⟩ := kept q two
    show p + Function.update h.held page 0 p ≤ q ∨ q + Function.update h.held page 0 q ≤ p
    rw [first,second]
    exact inv.apart p q before too other
  · exact fun q still => inv.magic q (kept q still).2.2
  · intro q still
    obtain ⟨-,same,before⟩ := kept q still
    have header := inv.header q before
    show Headed _ q (h.arena q).desc
    cases kind : (h.arena q).desc with
    | some e =>
      rw [kind] at header
      exact ⟨header.1,same.trans header.2.1,header.2.2⟩
    | none =>
      rw [kind] at header
      exact header.trans same.symm
  · intro e small x
    rw [listed e small,inv.listed e small]
    constructor
    · rintro ⟨⟨q,i,before,kind,below,equal,free⟩,other⟩
      have apart : q ≠ page := by
        rintro rfl
        exact other (equal ▸ block_page _ small below)
      exact ⟨q,i,keeps q apart before,kind,below,equal,free⟩
    · rintro ⟨q,i,still,kind,below,equal,free⟩
      obtain ⟨other,-,before⟩ := kept q still
      exact ⟨⟨q,i,before,kind,below,equal,free⟩,by rw [equal,block_page _ small below]; exact other⟩
  · intro x n live
    obtain ⟨q,extent⟩ := live_extent inv live
    have apart : q ≠ page := by
      rintro rfl
      exact empty ⟨x,n,live,extent_range inv extent⟩
    refine ⟨q,keeps q apart extent.held,?_⟩
    have placed := extent.placed
    show Placed _ q x n (h.arena q).desc
    cases kind : (h.arena q).desc with
    | some e =>
      rw [kind] at placed
      exact placed
    | none =>
      rw [kind] at placed
      refine ⟨placed.1,?_⟩
      show n + sizeof_arena ≤ Function.update h.held page 0 q * PGSIZE
      rw [Function.update_of_ne apart]
      exact placed.2

/-- A big block is handed out or taken back. -/
theorem inv_big {v : Option Nat} (inv : Inv h xs) (held : h.held page ≠ 0) (kind : (h.arena page).desc = none)
    (fits : ∀ n, v = some n → n + sizeof_arena ≤ h.held page * PGSIZE) :
    Inv { h with live := Function.update h.live (page * PGSIZE + sizeof_arena) v } xs := by
  have blocks : ∀ q e j, h.held q ≠ 0 → (h.arena q).desc = some e → j < (desc e).blocks_per_arena →
      block q e j ≠ page * PGSIZE + sizeof_arena := by
    intro q e j there other under same
    have header := inv.header q there
    rw [other] at header
    have first := block_page q header.1 under
    rw [same,big_page] at first
    subst first
    rw [kind] at other
    cases other
  refine ⟨inv.family,inv.pages,inv.apart,inv.magic,?_,?_,?_⟩
  · intro q there
    have header := inv.header q there
    show Headed _ q (h.arena q).desc
    cases other : (h.arena q).desc with
    | some e =>
      rw [other] at header
      refine ⟨header.1,header.2.1,?_⟩
      rw [show (h.arena q).free_cnt = (unused h q e).card from header.2.2]
      refine congrArg Finset.card (Finset.filter_congr fun j listed => ?_)
      simp only
      rw [Function.update_of_ne (blocks q e j there other (Finset.mem_range.mp listed))]
    | none =>
      rw [other] at header
      exact header
  · intro e small x
    rw [inv.listed e small]
    refine exists_congr fun q => exists_congr fun j => and_congr_right fun there => and_congr_right fun other =>
      and_congr_right fun under => and_congr_right fun equal => ?_
    simp only
    rw [equal,Function.update_of_ne (blocks q e j there other under)]
  · intro x n live
    by_cases same : x = page * PGSIZE + sizeof_arena
    · subst same
      have this : v = some n := by simpa using live
      refine ⟨page,held,?_⟩
      show Placed _ page _ n (h.arena page).desc
      rw [kind]
      exact ⟨rfl,fits n this⟩
    · have before : h.live x = some n := by simpa [same] using live
      obtain ⟨q,there,placed⟩ := inv.placed x n before
      refine ⟨q,there,?_⟩
      show Placed _ q x n (h.arena q).desc
      cases other : (h.arena q).desc with
      | some e =>
        rw [other] at placed
        exact placed
      | none =>
        rw [other] at placed
        exact placed

/-- The loop that takes the blocks of an arena off the free list. -/
theorem remove_blocks_spec (n i : Nat) (h : Heap) (xs : Nat → List Nat) (small : d < desc_cnt)
    (all : i + n = (desc d).blocks_per_arena)
    (kind : (h.arena page).desc = some d) (magic : (h.arena page).magic = ARENA_MAGIC)
    (family : Family h.memory (fun d => d < desc_cnt) .head .tail fun d => (xs d).map .byte) (once : (xs d).Nodup)
    (listed : ∀ j, i ≤ j → j < (desc d).blocks_per_arena → block page d j ∈ xs d) :
    ∃ m' ys, remove_blocks page n i h = some { h with memory := m' } ∧
      Family m' (fun d => d < desc_cnt) .head .tail (fun e => (Function.update xs d ys e).map .byte) ∧
      ∀ x, x ∈ ys ↔ x ∈ xs d ∧ ∀ j, i ≤ j → j < (desc d).blocks_per_arena → x ≠ block page d j := by
  induction n generalizing i h xs with
  | zero =>
    refine ⟨h.memory,xs d,rfl,?_,fun x => ?_⟩
    · rw [Function.update_eq_self]
      exact family
    · refine ⟨fun member => ⟨member,fun j after below => ?_⟩,fun both => both.1⟩
      omega
  | succ n ih =>
    have below : i < (desc d).blocks_per_arena := by omega
    obtain ⟨before,after,cut⟩ := List.append_of_mem (listed i (Nat.le_refl i) below)
    obtain ⟨m,removed,shorter,-⟩ := family_remove (.byte (block page d i)) (before.map .byte)
      (after.map .byte) family small (by rw [cut,List.map_append,List.map_cons])
    rw [← List.map_append,update_map] at shorter
    have fewer : ∀ x, x ∈ before ++ after ↔ x ∈ xs d ∧ x ≠ block page d i := by
      intro x
      rw [cut,List.nodup_middle,List.nodup_cons] at once
      rw [cut,List.mem_append,List.mem_append,List.mem_cons]
      constructor
      · intro member
        refine ⟨member.imp_right .inr,?_⟩
        rintro rfl
        exact once.1 (List.mem_append.mpr member)
      · rintro ⟨member,other⟩
        exact member.imp_right fun later => later.resolve_left other
    have distinct : (Function.update xs d (before ++ after) d).Nodup := by
      rw [cut,List.nodup_middle,List.nodup_cons] at once
      rw [Function.update_self]
      exact once.2
    have left : ∀ j, i + 1 ≤ j → j < (desc d).blocks_per_arena → block page d j ∈ Function.update xs d (before ++ after) d := by
      intro j later under
      rw [Function.update_self,fewer]
      refine ⟨listed j (by omega) under,fun same => ?_⟩
      have position := block_injective small same
      omega
    obtain ⟨m',ys,ran,done,members⟩ := ih (i + 1) { h with memory := m } _ (by omega) kind magic shorter distinct left
    refine ⟨m',ys,?_,?_,fun x => ?_⟩
    · rw [remove_blocks,arena_to_block_spec kind magic below]
      simp only [Option.bind_eq_bind,Option.bind_some,removed]
      exact ran
    · rw [Function.update_idem] at done
      exact done
    · rw [members,Function.update_self,fewer]
      constructor
      · rintro ⟨⟨member,other⟩,others⟩
        refine ⟨member,fun j after_ under => ?_⟩
        rcases Nat.lt_or_eq_of_le after_ with later | rfl
        · exact others j later under
        · exact other
      · rintro ⟨member,others⟩
        exact ⟨⟨member,others i (Nat.le_refl i) below⟩,fun j later under => others j (by omega) under⟩

/-! ### The calls -/

/-- What is known between two calls. -/
structure Sane (h : Heap) (xs : Nat → List Nat) : Prop where
  inv : Inv h xs
  occupied : ∀ page, h.held page ≠ 0 → Occupied h page

theorem occupied_same (occupied : Occupied h page) (held : h'.held page = h.held page)
    (live : ∀ x n, h.live x = some n → page * PGSIZE ≤ x ∧ x < (page + h.held page) * PGSIZE → h'.live x ≠ none) :
    Occupied h' page := by
  obtain ⟨x,n,alive,low,high⟩ := occupied
  obtain ⟨k,still⟩ := Option.ne_none_iff_exists'.mp (live x n alive ⟨low,high⟩)
  exact ⟨x,k,still,low,by rw [held]; exact high⟩

theorem given_occupied {b : Nat} (given : Given h h' b n) (held : h'.held page = h.held page) (occupied : Occupied h page) :
    Occupied h' page := by
  refine occupied_same occupied held fun x k alive _ => ?_
  rw [given.live]
  by_cases same : x = b
  · subst same
    simp
  · rw [Function.update_of_ne same,alive]
    exact Option.some_ne_none k

theorem find_desc_spec (found : find_desc size = some d) : d < desc_cnt ∧ size.toNat ≤ (desc d).block_size := by
  have member := List.mem_of_find?_eq_some found
  have enough := List.find?_some found
  exact ⟨List.mem_range.mp member,by simpa using enough⟩

theorem page_cnt_spec (asked : size.toNat ≤ 2 ^ 32 - 4096) :
    page_cnt size = 0 ∨ size.toNat + sizeof_arena ≤ page_cnt size * PGSIZE := by
  have range := size.isLt
  simp only [page_cnt,BitVec.toNat_udiv,BitVec.toNat_sub,BitVec.toNat_add,BitVec.toNat_ofNat,sizeof_arena,PGSIZE,Nat.reducePow,
    Nat.reduceMod,Nat.reduceSub] at *
  omega

/-- A new arena whose first block is taken, or the next free block. -/
theorem malloc_block {answer : Option Nat} (sane : Sane h xs) (ask : Ask h size answer) (nonzero : size ≠ 0)
    (found : find_desc size = some d) :
    malloc h size answer = some (none,h) ∨
      ∃ b h' xs', malloc h size answer = some (some b,h') ∧ Sane h' xs' ∧ Given h h' b size.toNat := by
  obtain ⟨small,fits⟩ := find_desc_spec found
  have asked : request size = 1 := by
    rw [request,found]
    exact if_neg fun same => by cases same
  rw [malloc,if_neg nonzero,found]
  simp only
  have front := (represents_front (sane.inv.family.each d small)).1
  cases listed : xs d with
  | nil =>
    rw [listed] at front
    rw [if_pos (by rw [front]; rfl)]
    cases answer with
    | none => exact .inl rfl
    | some page =>
      have available := ask.2 page rfl
      rw [asked] at available
      obtain ⟨grown,ran,inv,live,held⟩ := add_arena_spec sane.inv small available
      have first : ∃ rest, Function.update xs d (xs d ++ (List.range (desc d).blocks_per_arena).map (block page d)) d = block page d 0 :: rest := by
        obtain ⟨k,count⟩ := Nat.exists_eq_succ_of_ne_zero (Nat.one_le_iff_ne_zero.mp (desc_fits d small).2.1)
        rw [Function.update_self,listed,count,List.range_succ_eq_map]
        exact ⟨_,rfl⟩
      obtain ⟨rest,first⟩ := first
      obtain ⟨h',took,after,given,same⟩ := take_block_spec inv small first fits
      have mine : Given h h' (block page d 0) size.toNat := ⟨live ▸ given.fresh,live ▸ given.live⟩
      refine .inr ⟨_,h',_,?_,⟨after,fun q there => ?_⟩,mine⟩
      · simp only [palloc_get_multiple,if_neg Nat.one_ne_zero,Option.map_some,ran,Option.bind_some,took]
      · by_cases new : q = page
        · subst new
          obtain ⟨low,high⟩ := block_bounds q small (Nat.lt_of_lt_of_le Nat.zero_lt_one (desc_fits d small).2.1)
          have room := (desc_fits d small).1
          have one : h'.held q = 1 := by rw [same,held,Function.update_self]
          refine ⟨block q d 0,size.toNat,by rw [given.live,Function.update_self],by omega,?_⟩
          rw [one]
          rw [sizeof_list_elem] at room
          omega
        · have before : h'.held q = h.held q := by rw [same,held,Function.update_of_ne new]
          rw [before] at there
          exact given_occupied mine before (sane.occupied q there)
  | cons x rest =>
    have notTail : ¬ (h.memory (.head d)).next = some (.tail d) := by
      rw [front,listed]
      exact fun same => by cases same
    rw [if_neg notTail]
    obtain ⟨h',took,after,given,same⟩ := take_block_spec sane.inv small listed fits
    refine .inr ⟨x,h',_,took,⟨after,fun q there => ?_⟩,given⟩
    rw [same] at there
    exact given_occupied given (by rw [same]) (sane.occupied q there)

theorem malloc_big {answer : Option Nat} (sane : Sane h xs) (ask : Ask h size answer) (nonzero : size ≠ 0)
    (big : find_desc size = none) :
    malloc h size answer = some (none,h) ∨
      ∃ b h' xs', malloc h size answer = some (some b,h') ∧ Sane h' xs' ∧ Given h h' b size.toNat := by
  rw [malloc,if_neg nonzero,big]
  simp only [palloc_get_multiple]
  by_cases zero : page_cnt size = 0
  · rw [if_pos zero]
    exact .inl rfl
  · rw [if_neg zero]
    cases answer with
    | none => exact .inl rfl
    | some page =>
      have available := ask.2 page rfl
      rw [request,if_pos big] at available
      have enough := (page_cnt_spec ask.1).resolve_left zero
      -- The header and the pages come first, the block after them.
      have grown := inv_arena 0 (xs 0) h.memory (a := { magic := ARENA_MAGIC, desc := none, free_cnt := page_cnt size })
        sane.inv available zero rfl (by rw [Function.update_eq_self]; exact sane.inv.family) rfl (by simp [Headed])
        (fun y => ⟨.inl,fun either => either.resolve_right fun new => by cases new.1⟩) (fun e same => by cases same)
      rw [Function.update_eq_self] at grown
      have fresh : h.live (page * PGSIZE + sizeof_arena) = none := by
        cases alive : h.live (page * PGSIZE + sizeof_arena) with
        | none => rfl
        | some n =>
          refine absurd ⟨by omega,?_⟩ (available_live sane.inv available alive)
          have least : 1 ≤ page_cnt size := Nat.pos_of_ne_zero zero
          rw [PGSIZE,sizeof_arena]
          omega
      have given : Given h { h with
          held := Function.update h.held page (page_cnt size)
          arena := Function.update h.arena page { magic := ARENA_MAGIC, desc := none, free_cnt := page_cnt size }
          live := Function.update h.live (page * PGSIZE + sizeof_arena) (some size.toNat) } (page * PGSIZE + sizeof_arena) size.toNat :=
        ⟨fresh,rfl⟩
      refine .inr ⟨_,_,xs,rfl,⟨?_,fun q there => ?_⟩,given⟩
      · refine inv_big grown (by simpa using zero) (by simp) fun n same => ?_
        cases same
        simpa using enough
      · by_cases new : q = page
        · subst new
          refine ⟨_,_,Function.update_self _ _ _,by omega,?_⟩
          have least : 1 ≤ page_cnt size := Nat.pos_of_ne_zero zero
          simp only [Function.update_self]
          rw [PGSIZE,sizeof_arena]
          omega
        · have same : Function.update h.held page (page_cnt size) q = h.held q := Function.update_of_ne new _ _
          exact given_occupied given same (sane.occupied q (by rw [← same]; exact there))

/-- What a call of `malloc` returns. -/
def Returned (h h' : Heap) (n : Nat) : Option Nat → Prop
  | none => h' = h
  | some b => Given h h' b n

theorem malloc_spec {answer : Option Nat} (sane : Sane h xs) (ask : Ask h size answer) :
    ∃ result h' xs', malloc h size answer = some (result,h') ∧ Sane h' xs' ∧ Returned h h' size.toNat result := by
  by_cases nonzero : size = 0
  · exact ⟨none,h,xs,by rw [malloc,if_pos nonzero],sane,rfl⟩
  · have answers : malloc h size answer = some (none,h) ∨
        ∃ b h' xs', malloc h size answer = some (some b,h') ∧ Sane h' xs' ∧ Given h h' b size.toNat := by
      cases found : find_desc size with
      | none => exact malloc_big sane ask nonzero found
      | some d => exact malloc_block sane ask nonzero found
    rcases answers with failed | ⟨b,h',xs',served,after,given⟩
    · exact ⟨none,h,xs,failed,sane,rfl⟩
    · exact ⟨some b,h',xs',served,after,given⟩

/-- What a call of `free` does. -/
structure Freed (h h' : Heap) (b : Nat) : Prop where
  live : h'.live = Function.update h.live b none
  /-- Only pages with no live block left are given back. -/
  held : ∀ page, h'.held page = h.held page ∨ h'.held page = 0 ∧ ¬ Occupied { h' with held := h.held } page

theorem clear_block_arena (inv : Inv h xs) (held : h.held page ≠ 0) (live : h.live x = some n) :
    (clear_block h x (block_size h x)).arena page = h.arena page := by
  have apart := header_apart inv held live
  refine if_neg fun touches => ?_
  obtain ⟨one,two⟩ := touches
  omega

/-- The other pages keep the blocks they have. -/
theorem freed_occupied (sane : Sane h xs) (extent : Extent h x n page) (live : h'.live = Function.update h.live x none)
    (other : q ≠ page)
    (held : h'.held q = h.held q) (still : h.held q ≠ 0) : Occupied h' q := by
  refine occupied_same (sane.occupied q still) held fun y k alive inside => ?_
  have apart : y ≠ x := by
    rintro rfl
    exact other (page_unique sane.inv still extent.held inside (extent_range sane.inv extent))
  rw [live,Function.update_of_ne apart,alive]
  exact Option.some_ne_none k

theorem free_big (sane : Sane h xs) (live : h.live x = some n) (extent : Extent h x n page) (kind : (h.arena page).desc = none) :
    ∃ h' xs', free h (some x) = some h' ∧ Sane h' xs' ∧ Freed h h' x := by
  have placed := extent.placed
  have header := sane.inv.header page extent.held
  rw [kind] at placed header
  obtain ⟨rfl,-⟩ := placed
  have forgotten := inv_big (v := none) sane.inv extent.held kind fun n same => by cases same
  have empty : ¬ Occupied { h with live := Function.update h.live (page * PGSIZE + sizeof_arena) none } page := by
    rintro ⟨y,k,alive,inside⟩
    have other : y ≠ page * PGSIZE + sizeof_arena := by
      rintro rfl
      simp at alive
    have before : h.live y = some k := by simpa [other] using alive
    obtain ⟨q,there⟩ := live_extent sane.inv before
    have same := page_unique sane.inv there.held extent.held (extent_range sane.inv there) inside
    subst same
    have placed := there.placed
    rw [kind] at placed
    exact other placed.1
  have released := inv_release forgotten extent.held empty forgotten.family fun e small x => by
    refine ⟨fun member => ⟨member,?_⟩,fun both => both.1⟩
    obtain ⟨q,i,held,other,below,rfl,-⟩ := (sane.inv.listed e small x).mp member
    have header := sane.inv.header q held
    rw [other] at header
    rw [block_page _ header.1 below]
    rintro rfl
    rw [kind] at other
    cases other
  refine ⟨_,xs,?_,⟨released,fun q still => ?_⟩,rfl,fun q => ?_⟩
  · simp only [free,block_to_arena_big sane.inv extent.held kind,Option.bind_eq_bind,Option.bind_some,kind]
    exact if_pos header.symm
  · have other : q ≠ page := by
      rintro rfl
      simp at still
    have same : Function.update h.held page 0 q = h.held q := Function.update_of_ne other _ _
    exact freed_occupied sane extent rfl other same (by rw [← same]; exact still)
  · by_cases same : q = page
    · subst same
      exact .inr ⟨Function.update_self _ _ _,empty⟩
    · exact .inl (Function.update_of_ne same _ _)

/-- All blocks of the arena are unused, and so they are all on the list. -/
theorem unused_all (full : (unused h page d).card = (desc d).blocks_per_arena) (below : i < (desc d).blocks_per_arena) :
    h.live (block page d i) = none := by
  have all : unused h page d = Finset.range (desc d).blocks_per_arena := by
    refine Finset.eq_of_subset_of_card_le (Finset.filter_subset _ _) ?_
    rw [full,Finset.card_range]
  have member : i ∈ unused h page d := by
    rw [all]
    exact Finset.mem_range.mpr below
  exact (Finset.mem_filter.mp member).2

theorem unused_some (part : (unused h page d).card ≠ (desc d).blocks_per_arena) :
    ∃ i < (desc d).blocks_per_arena, h.live (block page d i) ≠ none := by
  refine Decidable.byContradiction fun none_ => part ?_
  have all : unused h page d = Finset.range (desc d).blocks_per_arena := by
    refine Finset.filter_true_of_mem fun i listed => Decidable.byContradiction fun alive => ?_
    exact none_ ⟨i,Finset.mem_range.mp listed,alive⟩
  rw [all,Finset.card_range]

/-- An arena without live blocks is dissolved. -/
theorem dissolve_spec (inv : Inv h xs) (held : h.held page ≠ 0) (kind : (h.arena page).desc = some d)
    (full : (unused h page d).card = (desc d).blocks_per_arena) :
    ¬ Occupied h page ∧ ∃ m' xs', (remove_blocks page (desc d).blocks_per_arena 0 h).bind (fun h => palloc_free_multiple h page 1) =
        some { h with memory := m', held := Function.update h.held page 0 } ∧
      Inv { h with memory := m', held := Function.update h.held page 0 } xs' := by
  have header := inv.header page held
  rw [kind] at header
  obtain ⟨small,one,-⟩ := header
  have empty : ¬ Occupied h page := by
    rintro ⟨y,k,alive,inside⟩
    obtain ⟨q,there⟩ := live_extent inv alive
    have same := page_unique inv there.held held (extent_range inv there) inside
    subst same
    have placed := there.placed
    rw [kind] at placed
    obtain ⟨-,i,below,rfl⟩ := placed
    rw [unused_all full below] at alive
    cases alive
  have listed : ∀ j, 0 ≤ j → j < (desc d).blocks_per_arena → block page d j ∈ xs d := by
    intro j _ below
    exact (inv.listed d small _).mpr ⟨page,j,held,kind,below,rfl,unused_all full below⟩
  obtain ⟨m',ys,ran,family,members⟩ := remove_blocks_spec (desc d).blocks_per_arena 0 h xs small (Nat.zero_add _) kind (inv.magic page held)
    inv.family (xs_nodup inv small) listed
  refine ⟨empty,m',_,?_,inv_release inv held empty family fun e tiny x => ?_⟩
  · rw [ran,Option.bind_some]
    exact if_pos one
  · have where_ : x ∈ xs e → ∃ q i, (h.arena q).desc = some e ∧ i < (desc e).blocks_per_arena ∧ x = block q e i := by
      intro member
      obtain ⟨q,i,-,other,below,equal,-⟩ := (inv.listed e tiny x).mp member
      exact ⟨q,i,other,below,equal⟩
    by_cases same : e = d
    · subst same
      rw [Function.update_self,members]
      refine and_congr_right fun member => ?_
      obtain ⟨q,i,-,below,rfl⟩ := where_ member
      rw [block_page _ small below]
      constructor
      · rintro others rfl
        exact others i (Nat.zero_le i) below rfl
      · intro other j _ under same
        have first := block_page q small below
        rw [same,block_page _ small under] at first
        exact other first.symm
    · rw [Function.update_of_ne same]
      refine ⟨fun member => ⟨member,?_⟩,fun both => both.1⟩
      obtain ⟨q,i,other,below,rfl⟩ := where_ member
      rw [block_page _ tiny below]
      rintro rfl
      rw [kind] at other
      exact same (Option.some.inj other).symm

theorem free_block_spec (sane : Sane h xs) (live : h.live x = some n) (extent : Extent h x n page)
    (kind : (h.arena page).desc = some d) :
    ∃ h' xs', free h (some x) = some h' ∧ Sane h' xs' ∧ Freed h h' x := by
  have placed := extent.placed
  have header := sane.inv.header page extent.held
  rw [kind] at placed header
  obtain ⟨small,one,count⟩ := header
  obtain ⟨-,i,below,rfl⟩ := placed
  have size : block_size h (block page d i) = (desc d).block_size := by rw [block_size,block_page _ small below,kind]
  have cleared := inv_clear sane.inv live
  have arena := clear_block_arena sane.inv extent.held live
  rw [size] at cleared arena
  obtain ⟨m,pushed,family,-⟩ := family_push_front (.byte (block page d i)) cleared.family small (by
    intro e tiny member
    rcases mem_nodes.mp member with same | element | same
    · cases same
    · obtain ⟨y,listed,same⟩ := List.mem_map.mp element
      obtain ⟨-,-,-,-,-,-,free⟩ := (sane.inv.listed e tiny y).mp listed
      rw [← Address.byte.inj same,free] at live
      cases live
    · cases same)
  rw [← List.map_cons,update_map] at family
  have larger : ∀ h' : Heap, h'.live = Function.update h.live (block page d i) none →
      (h.arena page).free_cnt + 1 = (unused h' page d).card := by
    intro h' lives
    have set : unused h' page d = insert i (unused h page d) := by
      ext j
      rw [Finset.mem_insert]
      simp only [unused,Finset.mem_filter,lives]
      by_cases same : j = i
      · subst same
        simpa using below
      · have other : block page d j ≠ block page d i := fun equal => same (block_injective small equal)
        rw [Function.update_of_ne other]
        simp [same]
    rw [set,Finset.card_insert_of_notMem,count]
    rw [unused,Finset.mem_filter,live]
    exact fun both => by cases both.2
  -- The heap once the block is back on the list.
  obtain ⟨h₁,freed⟩ : ∃ h₁ : Heap, h₁ = { clear_block h (block page d i) (desc d).block_size with
      memory := m
      arena := Function.update (clear_block h (block page d i) (desc d).block_size).arena page
        { (clear_block h (block page d i) (desc d).block_size).arena page with free_cnt := (h.arena page).free_cnt + 1 }
      live := Function.update (clear_block h (block page d i) (desc d).block_size).live (block page d i) none } := ⟨_,rfl⟩
  have lives : h₁.live = Function.update h.live (block page d i) none := by rw [freed]; rfl
  have helds : h₁.held = h.held := by rw [freed]; rfl
  have same : (h₁.arena page).desc = some d := by rw [freed]; simpa [arena] using kind
  have inv := inv_block (block page d i :: xs d) m none cleared extent.held (by rw [arena]; exact kind) below freed family
    (fun y => by
      rw [List.mem_cons]
      split
      · next same => exact ⟨fun _ => rfl,fun _ => .inl same⟩
      · next other => exact or_iff_right other)
    (larger h₁ lives) (fun n same => by cases same)
  have ran : free h (some (block page d i)) = if (h.arena page).free_cnt + 1 ≥ (desc d).blocks_per_arena then
      if (h.arena page).free_cnt + 1 = (desc d).blocks_per_arena then
        (remove_blocks page (desc d).blocks_per_arena 0 h₁).bind fun h => palloc_free_multiple h page 1
      else none
    else some h₁ := by
    simp only [free,block_to_arena_block sane.inv extent.held kind below,Option.bind_eq_bind,Option.bind_some,kind,
      free_block,pushed,
      Option.pure_def,arena,freed]
  rw [ran,larger h₁ lives]
  by_cases full : (unused h₁ page d).card = (desc d).blocks_per_arena
  · obtain ⟨empty,m',xs',dissolved,after⟩ := dissolve_spec inv (by rw [helds]; exact extent.held) same full
    refine ⟨_,xs',?_,⟨after,fun q still => ?_⟩,lives,fun q => ?_⟩
    · rw [if_pos (Nat.le_of_eq full.symm),if_pos full]
      exact dissolved
    · have other : q ≠ page := by
        rintro rfl
        simp at still
      have before : Function.update h₁.held page 0 q = h.held q := by rw [Function.update_of_ne other,helds]
      exact freed_occupied sane extent lives other before (by rw [← before]; exact still)
    · by_cases this : q = page
      · subst this
        refine .inr ⟨Function.update_self _ _ _,?_⟩
        rw [← helds]
        exact empty
      · exact .inl (by simp [this,helds])
  · have fewer := Nat.lt_of_le_of_ne (unused_le h₁ page d) full
    refine ⟨h₁,_,by rw [if_neg (Nat.not_le.mpr fewer)],⟨inv,fun q still => ?_⟩,lives,fun q => .inl (by rw [helds])⟩
    by_cases this : q = page
    · subst this
      obtain ⟨j,under,alive⟩ := unused_some full
      obtain ⟨k,alive⟩ := Option.ne_none_iff_exists'.mp alive
      obtain ⟨low,high⟩ := block_bounds q small under
      have room := (desc_fits d small).1
      rw [sizeof_list_elem] at room
      refine ⟨_,k,alive,by omega,?_⟩
      rw [helds,one]
      omega
    · exact freed_occupied sane extent lives this (by rw [helds]) (by rw [← helds]; exact still)

theorem free_spec (sane : Sane h xs) (live : h.live x = some n) :
    ∃ h' xs', free h (some x) = some h' ∧ Sane h' xs' ∧ Freed h h' x := by
  obtain ⟨page,extent⟩ := live_extent sane.inv live
  cases kind : (h.arena page).desc with
  | none => exact free_big sane live extent kind
  | some d => exact free_block_spec sane live extent kind

/-! ### Every reachable heap -/

/-- The free lists hold the elements `xs`. -/
structure Listed (h : Heap) (xs : Nat → List Nat) : Prop where
  represents : ∀ d < desc_cnt, Represents h.memory (.head d) (.tail d) ((xs d).map .byte)
  free_cnt : ∀ page d, h.held page ≠ 0 → (h.arena page).desc = some d →
    d < desc_cnt ∧ (h.arena page).free_cnt = ((xs d).filter fun x => x / PGSIZE = page).length
  /-- A block is live, or once on its list. -/
  once : ∀ page d i, h.held page ≠ 0 → (h.arena page).desc = some d → i < (desc d).blocks_per_arena →
    (xs d).count (block page d i) = if h.live (block page d i) = none then 1 else 0
  only : ∀ d < desc_cnt, ∀ x ∈ xs d, Unused h d x
  /-- The links lie on no live block, on no header and not on each other. -/
  links : ∀ d < desc_cnt, ∀ x ∈ xs d,
    (∀ y n, h.live y = some n → ¬ Touches x sizeof_list_elem y (block_size h y)) ∧
    (∀ page, h.held page ≠ 0 → ¬ Touches x sizeof_list_elem (page * PGSIZE) sizeof_arena) ∧
    ∀ e < desc_cnt, ∀ y ∈ xs e, x ≠ y → ¬ Touches x sizeof_list_elem y sizeof_list_elem

/-- The heap between two calls. -/
structure Sound (h : Heap) : Prop where
  disjoint : ∀ x n y m, h.live x = some n → h.live y = some m → x ≠ y → ¬ Touches x (block_size h x) y (block_size h y)
  enough : ∀ x n, h.live x = some n → n ≤ block_size h x
  within : ∀ x n, h.live x = some n → ∃ page, h.held page ≠ 0 ∧ page * PGSIZE ≤ x ∧
    x + block_size h x ≤ (page + h.held page) * PGSIZE
  headers : ∀ x n page, h.live x = some n → h.held page ≠ 0 → ¬ Touches x (block_size h x) (page * PGSIZE) sizeof_arena
  lists : ∃ xs, Listed h xs
  /-- Pages are only held for a block that is live. -/
  retained : ∀ page, h.held page ≠ 0 → Occupied h page

/-- The blocks of the arena on the list are its unused ones. -/
theorem listed_count (inv : Inv h xs) (held : h.held page ≠ 0) (kind : (h.arena page).desc = some d) :
    d < desc_cnt ∧ (h.arena page).free_cnt = ((xs d).filter fun x => x / PGSIZE = page).length := by
  have header := inv.header page held
  rw [kind] at header
  obtain ⟨small,-,count⟩ := header
  refine ⟨small,?_⟩
  have image : (unused h page d).image (block page d) = ((xs d).filter fun x => x / PGSIZE = page).toFinset := by
    ext x
    rw [Finset.mem_image,List.mem_toFinset,List.mem_filter,decide_eq_true_eq,inv.listed d small]
    constructor
    · rintro ⟨i,member,rfl⟩
      obtain ⟨below,free⟩ := Finset.mem_filter.mp member
      have below := Finset.mem_range.mp below
      exact ⟨⟨page,i,held,kind,below,rfl,free⟩,block_page _ small below⟩
    · rintro ⟨⟨q,i,there,other,below,rfl,free⟩,same⟩
      rw [block_page _ small below] at same
      subst same
      exact ⟨i,Finset.mem_filter.mpr ⟨Finset.mem_range.mpr below,free⟩,rfl⟩
  rw [count,← List.toFinset_card_of_nodup ((xs_nodup inv small).filter _),← image,
    Finset.card_image_of_injective _ fun i j same => block_injective small same]

/-- Free blocks of two arenas, or of one, are apart. -/
theorem unused_disjoint (small : d < desc_cnt) (tiny : e < desc_cnt) (one : Unused h d x) (two : Unused h e y) (other : x ≠ y) :
    x + (desc d).block_size ≤ y ∨ y + (desc e).block_size ≤ x := by
  obtain ⟨p,i,held,kind,below,rfl,-⟩ := one
  obtain ⟨q,j,there,kind',under,rfl,-⟩ := two
  obtain ⟨low,high⟩ := block_bounds p small below
  obtain ⟨low',high'⟩ := block_bounds q tiny under
  by_cases same : p = q
  · subst same
    rw [kind] at kind'
    cases kind'
    exact block_apart _ _ fun equal => other (by rw [equal])
  · rw [PGSIZE] at *
    omega

theorem unused_header (inv : Inv h xs) (small : d < desc_cnt) (one : Unused h d x) (held : h.held p ≠ 0) :
    p * PGSIZE + sizeof_arena ≤ x ∨ x + (desc d).block_size ≤ p * PGSIZE := by
  obtain ⟨q,there,low,high⟩ := unused_range small one
  have apart := inv.apart p q held there
  by_cases same : p = q
  · subst same
    exact .inl low
  · rw [PGSIZE,sizeof_arena] at *
    omega

theorem inv_listed (inv : Inv h xs) : Listed h xs where
  represents := inv.family.each
  free_cnt page d held kind := listed_count inv held kind
  once page d i held kind below := by
    have small := (listed_count inv held kind).1
    have member := inv.listed d small (block page d i)
    split
    · next free => exact List.count_eq_one_of_mem (xs_nodup inv small) (member.mpr ⟨page,i,held,kind,below,rfl,free⟩)
    · next live =>
      refine List.count_eq_zero.mpr fun listed => live ?_
      obtain ⟨-,-,-,-,-,-,free⟩ := member.mp listed
      exact free
  only d small x listed := (inv.listed d small x).mp listed
  links d small x listed := by
    have unused := (inv.listed d small x).mp listed
    have room := (desc_fits d small).1
    refine ⟨fun y n live touches => ?_,fun page held touches => ?_,fun e tiny y member other touches => ?_⟩
    · have apart := unused_apart inv small unused live
      obtain ⟨one,two⟩ := touches
      omega
    · have apart := unused_header inv small unused held
      obtain ⟨one,two⟩ := touches
      omega
    · have apart := unused_disjoint small tiny unused ((inv.listed e tiny y).mp member) other
      have space := (desc_fits e tiny).1
      obtain ⟨one,two⟩ := touches
      omega

theorem sane_sound (sane : Sane h xs) : Sound h where
  disjoint x n y m one two other touches := by
    have apart := live_apart sane.inv one two other
    obtain ⟨first,second⟩ := touches
    omega
  enough x n live := by
    obtain ⟨page,extent⟩ := live_extent sane.inv live
    exact extent.enough
  within x n live := by
    obtain ⟨page,extent⟩ := live_extent sane.inv live
    exact ⟨page,extent.held,by have low := extent.low; omega,extent.high⟩
  headers x n page live held touches := by
    have apart := header_apart sane.inv held live
    obtain ⟨first,second⟩ := touches
    omega
  lists := ⟨xs,inv_listed sane.inv⟩
  retained := sane.occupied

theorem init_family (m : Memory Address) (k : Nat) : Family (init_lists m k) (fun d => d < k) .head .tail fun _ => [] := by
  induction k with
  | zero => exact ⟨fun i below => absurd below (Nat.not_lt_zero i),fun i j below => absurd below (Nat.not_lt_zero i)⟩
  | succ k ih =>
    have extended := family_init ih (Nat.lt_irrefl k) (fun same => by cases same) (by
      intro j below member
      rcases mem_nodes.mp member with same | none_ | same
      · exact Nat.ne_of_gt below (Address.head.inj same)
      · cases none_
      · cases same) (by
      intro j below member
      rcases mem_nodes.mp member with same | none_ | same
      · cases same
      · cases none_
      · exact Nat.ne_of_gt below (Address.tail.inj same))
    rw [Function.update_eq_self] at extended
    exact family_mono extended fun j below => Nat.lt_succ_iff_lt_or_eq.mp below

theorem malloc_init_sane (m : Memory Address) (arena : Nat → Arena) : Sane (malloc_init m arena) fun _ => [] where
  inv := by
    refine ⟨init_family m desc_cnt,fun page held => absurd rfl held,fun p q held => absurd rfl held,fun page held => absurd rfl held,
      fun page held => absurd rfl held,fun d small x => ⟨fun member => (by cases member),?_⟩,fun x n live => (by cases live)⟩
    rintro ⟨page,-,held,-⟩
    exact absurd rfl held
  occupied page held := absurd rfl held

theorem reaches_sane (reach : Reaches machine Anything h) : ∃ xs, Sane h xs := by
  refine reaches_invariant (fun h => ∃ xs, Sane h xs) ?_ ?_ reach
  · rintro h ⟨m,arena,rfl⟩
    exact ⟨_,malloc_init_sane m arena⟩
  · rintro h event h' ⟨xs,sane⟩ - step
    cases event with
    | malloc size answer result =>
      obtain ⟨ask,ran⟩ := step
      obtain ⟨result',h₁,xs',served,after,-⟩ := malloc_spec sane ask
      rw [ran] at served
      obtain ⟨-,rfl⟩ := Prod.mk.inj (Option.some.inj served)
      exact ⟨xs',after⟩
    | free p =>
      obtain ⟨freeable,ran⟩ := step
      cases p with
      | none =>
        cases ran
        exact ⟨xs,sane⟩
      | some x =>
        obtain ⟨n,live⟩ := Option.ne_none_iff_exists'.mp (freeable x rfl)
        obtain ⟨h₁,xs',served,after,-⟩ := free_spec sane live
        rw [ran] at served
        cases served
        exact ⟨xs',after⟩
    | write memory arena =>
      obtain ⟨spares,rfl⟩ := step
      exact ⟨xs,inv_write sane.inv spares,sane.occupied⟩

/-- The kernel heap is sound after any calls: whatever `palloc_get_multiple` answered
    and whatever was written to the live blocks, the next call succeeds, and pages stay
    held only for blocks that are live. -/
theorem heap_sound (reach : Reaches machine Anything h) :
    Sound h ∧ ((∀ x, h.live x = none) → ∀ page, h.held page = 0) ∧
      (∀ size answer, Ask h size answer → ∃ result h', malloc h size answer = some (result,h') ∧
        Returned h h' size.toNat result) ∧
      ∀ x, h.live x ≠ none → ∃ h', free h (some x) = some h' ∧ Sound h' ∧ Freed h h' x := by
  obtain ⟨xs,sane⟩ := reaches_sane reach
  refine ⟨sane_sound sane,fun dead page => ?_,fun size answer ask => ?_,fun x alive => ?_⟩
  · refine Decidable.byContradiction fun held => ?_
    obtain ⟨x,n,live,-⟩ := sane.occupied page held
    rw [dead x] at live
    cases live
  · obtain ⟨result,h',-,ran,-,returned⟩ := malloc_spec sane ask
    exact ⟨result,h',ran,returned⟩
  · obtain ⟨n,live⟩ := Option.ne_none_iff_exists'.mp alive
    obtain ⟨h',xs',ran,after,freed⟩ := free_spec sane live
    exact ⟨h',ran,sane_sound after,freed⟩
end

/-- The only block of its arena is freed, and with it the page. -/
theorem heap_sound_freed : ∃ h h' : Heap, h.live 4108 = some 1000 ∧ h.held 1 = 1 ∧ free h (some 4108) = some h' ∧ Sound h' ∧
    h'.held 1 = 0 := by
  obtain ⟨start,blank⟩ : ∃ start, start = malloc_init (fun _ => { prev := none, next := none }) fun _ => { magic := 0, desc := none, free_cnt := 0 } :=
    ⟨_,rfl⟩
  have ran : ∃ h, malloc start 1000 (some 1) = some (some 4108,h) ∧ h.held 1 = 1 ∧
      h.live = Function.update start.live 4108 (some 1000) := by
    rw [blank]
    exact ⟨_,rfl,rfl,rfl⟩
  obtain ⟨h,ran,held,live⟩ := ran
  have dead : ∀ x, start.live x = none := fun x => by rw [blank]; rfl
  have ask : Ask start 1000 (some 1) := by
    refine ⟨by decide,fun page same => ?_⟩
    cases same
    refine ⟨Nat.le_refl 1,by decide,fun q some_ => absurd ?_ some_⟩
    rw [blank]
    rfl
  have reach : Reaches machine Anything h := by
    refine .next (e := .malloc 1000 (some 1) (some 4108)) (.start ⟨_,_,blank⟩) trivial ⟨ask,ran⟩
  have alive : h.live 4108 ≠ none := by
    rw [live,Function.update_self]
    exact Option.some_ne_none _
  obtain ⟨h',freed,sound,done⟩ := (heap_sound reach).2.2.2 4108 alive
  refine ⟨h,h',by rw [live,Function.update_self],held,freed,sound,Decidable.byContradiction fun kept => ?_⟩
  obtain ⟨x,n,still,-⟩ := sound.retained 1 kept
  rw [done.live,live,Function.update_idem] at still
  by_cases same : x = 4108
  · subst same
    simp at still
  · rw [Function.update_of_ne same,dead x] at still
    cases still

end Pintos.Malloc
