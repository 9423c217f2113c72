import Pintos.Malloc

/-!
Requests to the kernel heap of any size: `malloc`, `calloc` and `realloc` of
`threads/malloc.c`, with the bytes of the blocks. The bytes outside of live blocks are
not followed. What `memset` or `memcpy` would write behind the block of its destination
destroys the heap, or runs off the end of memory; it has no result.

The sizes in `live` are those that were asked for. No call reads them, so that the
invariant of the heap is the one with sizes that the blocks have room for.
-/
namespace Pintos.Requests
open Pintos.Machines Pintos.LinkedLists Pintos.Malloc
set_option linter.unusedSimpArgs false

abbrev Byte := BitVec 8

structure Kernel where
  heap : Heap
  bytes : Nat → Byte

def memset (k : Kernel) (dst : Nat) (value : Byte) (size : Nat) : Option Kernel :=
  if size ≤ block_size k.heap dst then
    some { k with bytes := fun x => if dst ≤ x ∧ x < dst + size then value else k.bytes x }
  else none
def memcpy (k : Kernel) (dst src size : Nat) : Option Kernel :=
  if size ≤ block_size k.heap dst then
    some { k with bytes := fun x => if dst ≤ x ∧ x < dst + size then k.bytes (src + (x - dst)) else k.bytes x }
  else none

def calloc (k : Kernel) (a b : BitVec 32) (answer : Option Nat) : Option (Option Nat × Kernel) :=
  let size := a * b
  if size < a ∨ size < b then some (none,k)
  else do
    let (p,h) ← malloc k.heap size answer
    match p with
      | none => some (none,{ k with heap := h })
      | some p => (memset { k with heap := h } p 0 size.toNat).map fun k => (some p,k)

def realloc (k : Kernel) (old_block : Option Nat) (new_size : BitVec 32) (answer : Option Nat) :
    Option (Option Nat × Kernel) :=
  if new_size = 0 then (free k.heap old_block).map fun h => (none,{ k with heap := h })
  else do
    let (new_block,h) ← malloc k.heap new_size answer
    match old_block, new_block with
      | some old, some new =>
        -- The assertions of `block_size`.
        let _ ← block_to_arena h old
        let old_size := block_size h old
        let min_size := if new_size.toNat < old_size then new_size.toNat else old_size
        let k ← memcpy { k with heap := h } new old min_size
        (free k.heap (some old)).map fun h => (some new,{ k with heap := h })
      | _, _ => some (new_block,{ k with heap := h })

/-! ### Runs -/

inductive Request
  | malloc (size : BitVec 32)
  | calloc (a b : BitVec 32)
  | realloc (old_block : Option Nat) (new_size : BitVec 32)
  | free (p : Option Nat)

def perform (k : Kernel) (answer : Option Nat) : Request → Option (Option Nat × Kernel)
  | .malloc size => (malloc k.heap size answer).map fun r => (r.1,{ k with heap := r.2 })
  | .calloc a b => calloc k a b answer
  | .realloc old_block new_size => realloc k old_block new_size answer
  | .free p => (free k.heap p).map fun h => (none,{ k with heap := h })

/-- The size that `malloc` is asked for. -/
def Request.size : Request → BitVec 32
  | .malloc size => size
  | .calloc a b => a * b
  | .realloc _ new_size => new_size
  | .free _ => 0

/-- What is freed was returned and not yet freed, and `palloc_get_multiple` answers with
    pages that are not held. -/
def Lawful (k : Kernel) (answer : Option Nat) (r : Request) : Prop :=
  (∀ page, answer = some page → Available k.heap page (request r.size)) ∧
  match r with
    | .realloc old_block _ => Freeable k.heap old_block
    | .free p => Freeable k.heap p
    | _ => True

inductive Event
  | request (r : Request) (answer : Option Nat) (result : Option Nat)
  /-- Writes of the rest of the kernel, up to the next call. -/
  | write (memory : Memory Address) (arena : Nat → Arena) (bytes : Nat → Byte)

def machine : Machine Kernel Event where
  Initial k := ∃ m arena, k.heap = malloc_init m arena
  Step k event k' := match event with
    | .request r answer result => Lawful k answer r ∧ perform k answer r = some (result,k')
    | .write memory arena bytes => Spares k.heap memory arena ∧ k' = ⟨{ k.heap with memory := memory, arena := arena },bytes⟩

/-! ### The recorded sizes -/

def sized (h : Heap) (live : Nat → Option Nat) : Heap := { h with live := live }

section
variable {h h' : Heap} {live : Nat → Option Nat} {d page b n i : Nat} {size : BitVec 32} {answer p : Option Nat}

theorem map_sized {α : Type} (x : Option Heap) (f : Heap → Option α) (g : α → α)
    (same : ∀ h, f (sized h live) = (f h).map g) : (x.map fun h => sized h live).bind f = (x.bind f).map g := by
  cases x with
  | none => rfl
  | some h => exact same h

theorem add_blocks_sized (d page n i : Nat) (h : Heap) :
    add_blocks d page n i (sized h live) = (add_blocks d page n i h).map fun h => sized h live := by
  induction n generalizing i h with
  | zero => rfl
  | succ n ih =>
    simp only [add_blocks,Option.bind_eq_bind]
    show Option.bind (arena_to_block h page i) _ = _
    cases arena_to_block h page i with
    | none => rfl
    | some b =>
      simp only [Option.bind_some]
      show Option.bind (list_push_back h.memory (.tail d) (.byte b)) _ = _
      cases list_push_back h.memory (.tail d) (.byte b) with
      | none => rfl
      | some m => exact ih (i + 1) { h with memory := m }

theorem add_arena_sized (h : Heap) (d page : Nat) :
    add_arena (sized h live) d page = (add_arena h d page).map fun h => sized h live :=
  add_blocks_sized d page _ 0 { h with
    arena := Function.update h.arena page { magic := ARENA_MAGIC, desc := some d, free_cnt := (desc d).blocks_per_arena } }

/-- What `live` is once `p` was handed out. -/
def taken (live : Nat → Option Nat) (size : BitVec 32) (p : Option Nat) : Nat → Option Nat :=
  p.elim live fun b => Function.update live b (some size.toNat)

theorem take_block_sized (h : Heap) (d : Nat) (size : BitVec 32) :
    take_block (sized h live) d size = (take_block h d size).map fun r => (r.1,sized r.2 (taken live size r.1)) := by
  simp only [take_block,Option.bind_eq_bind]
  show Option.bind (list_pop_front h.memory (.head d) (.tail d)) _ = _
  cases list_pop_front h.memory (.head d) (.tail d) with
  | none => rfl
  | some r =>
    obtain ⟨front,m⟩ := r
    simp only [Option.bind_some]
    cases front with
    | byte b =>
      simp only
      show Option.bind (block_to_arena h b) _ = _
      cases block_to_arena h b with
      | none => rfl
      | some page => rfl
    | head e => rfl
    | tail e => rfl

theorem malloc_sized (h : Heap) (size : BitVec 32) (answer : Option Nat) :
    malloc (sized h live) size answer = (malloc h size answer).map fun r => (r.1,sized r.2 (taken live size r.1)) := by
  unfold malloc
  split
  · rfl
  · cases find_desc size with
    | none =>
      simp only [palloc_get_multiple]
      by_cases none_ : page_cnt size = 0
      · rw [if_pos none_,if_pos none_]
        rfl
      · rw [if_neg none_,if_neg none_]
        cases answer with
        | none => rfl
        | some page => rfl
    | some d =>
      simp only [palloc_get_multiple]
      show (if (h.memory (.head d)).next = some (.tail d) then _ else _) = Option.map _ (if (h.memory (.head d)).next = some (.tail d) then _ else _)
      split
      · cases answer with
        | none => rfl
        | some page =>
          simp only [if_neg Nat.one_ne_zero,Option.map_some]
          show (add_arena (sized { h with held := Function.update h.held page 1 } live) d page).bind _ = _
          rw [add_arena_sized]
          exact map_sized _ _ _ fun h => take_block_sized h d size
      · exact take_block_sized h d size

theorem palloc_free_sized (h : Heap) (page page_cnt : Nat) :
    palloc_free_multiple (sized h live) page page_cnt = (palloc_free_multiple h page page_cnt).map fun h => sized h live := by
  unfold palloc_free_multiple
  show (if h.held page = page_cnt then _ else _) = Option.map _ (if h.held page = page_cnt then _ else _)
  split
  · rfl
  · rfl

theorem remove_blocks_sized (page n i : Nat) (h : Heap) :
    remove_blocks page n i (sized h live) = (remove_blocks page n i h).map fun h => sized h live := by
  induction n generalizing i h with
  | zero => rfl
  | succ n ih =>
    simp only [remove_blocks,Option.bind_eq_bind]
    show Option.bind (arena_to_block h page i) _ = _
    cases arena_to_block h page i with
    | none => rfl
    | some b =>
      simp only [Option.bind_some]
      show Option.bind (list_remove h.memory (.byte b)) _ = _
      cases list_remove h.memory (.byte b) with
      | none => rfl
      | some m => exact ih (i + 1) { h with memory := m }

theorem free_block_sized (h : Heap) (d page b : Nat) :
    free_block (sized h live) d page b = (free_block h d page b).map fun h => sized h (Function.update live b none) := by
  simp only [free_block,Option.bind_eq_bind]
  rw [show clear_block (sized h live) b (desc d).block_size = sized (clear_block h b (desc d).block_size) live from rfl]
  generalize clear_block h b (desc d).block_size = c
  show Option.bind (list_push_front c.memory (.head d) (.byte b)) _ = _
  cases list_push_front c.memory (.head d) (.byte b) with
  | none => rfl
  | some m =>
    simp only [Option.bind_some]
    show (if (c.arena page).free_cnt + 1 ≥ (desc d).blocks_per_arena then
      if (c.arena page).free_cnt + 1 = (desc d).blocks_per_arena then _ else _ else _) = _
    by_cases full : (c.arena page).free_cnt + 1 ≥ (desc d).blocks_per_arena
    · rw [if_pos full,if_pos full]
      by_cases exactly : (c.arena page).free_cnt + 1 = (desc d).blocks_per_arena
      · rw [if_pos exactly,if_pos exactly]
        show (remove_blocks page _ 0 (sized { c with
            memory := m
            arena := Function.update c.arena page { c.arena page with free_cnt := (c.arena page).free_cnt + 1 }
            live := Function.update c.live b none } (Function.update live b none))).bind _ = _
        rw [remove_blocks_sized]
        refine map_sized _ (fun h => palloc_free_multiple h page 1) _ fun h => ?_
        exact palloc_free_sized h page 1
      · rw [if_neg exactly,if_neg exactly]
        rfl
    · rw [if_neg full,if_neg full]
      rfl

/-- What `live` is once `p` was freed. -/
def freed (live : Nat → Option Nat) (p : Option Nat) : Nat → Option Nat := p.elim live fun b => Function.update live b none

theorem free_sized (h : Heap) (p : Option Nat) : free (sized h live) p = (free h p).map fun h => sized h (freed live p) := by
  cases p with
  | none => rfl
  | some b =>
    simp only [free,Option.bind_eq_bind]
    show Option.bind (block_to_arena h b) _ = _
    cases block_to_arena h b with
    | none => rfl
    | some page =>
      simp only [Option.bind_some]
      have desc : ((sized h live).arena page).desc = (h.arena page).desc := rfl
      rw [desc]
      cases (h.arena page).desc with
      | some d => exact free_block_sized h d page b
      | none => exact palloc_free_sized { h with live := Function.update h.live b none } page (h.arena page).free_cnt

/-! ### The heap after any requests -/

/-- Each live block, with all the bytes it has. -/
def full (h : Heap) (x : Nat) : Option Nat := (h.live x).map fun _ => block_size h x

def Good (h : Heap) : Prop := ∃ xs, Sane (sized h (full h)) xs

/-- The record may say that all of a block was asked for. -/
theorem good_of_sane {xs : Nat → List Nat} (sane : Sane (sized h live) xs) (same : ∀ x, live x = none ↔ h.live x = none) :
    Good h := by
  have none_ : ∀ x, full h x = none ↔ live x = none := fun x => by
    rw [full,Option.map_eq_none_iff,same]
  have unused_same : ∀ page d, unused (sized h (full h)) page d = unused (sized h live) page d := by
    intro page d
    refine Finset.filter_congr fun i _ => ?_
    exact none_ _
  have unused_iff : ∀ d x, Malloc.Unused (sized h (full h)) d x ↔ Malloc.Unused (sized h live) d x := by
    intro d x
    refine exists_congr fun page => exists_congr fun i => ?_
    show _ ∧ _ ∧ _ ∧ _ ∧ full h x = none ↔ _ ∧ _ ∧ _ ∧ _ ∧ live x = none
    rw [none_]
    exact Iff.rfl
  refine ⟨xs,⟨sane.inv.family,sane.inv.pages,sane.inv.apart,sane.inv.magic,fun page held => ?_,fun d small x => ?_,fun x n recorded => ?_⟩,
    fun page held => ?_⟩
  · have header := sane.inv.header page held
    show Headed (sized h (full h)) page (h.arena page).desc
    have header : Headed (sized h live) page (h.arena page).desc := header
    cases kind : (h.arena page).desc with
    | none =>
      rw [kind] at header
      exact header
    | some d =>
      rw [kind] at header
      refine ⟨header.1,header.2.1,?_⟩
      rw [unused_same]
      exact header.2.2
  · rw [unused_iff]
    exact sane.inv.listed d small x
  · have recorded : full h x = some n := recorded
    rw [full,Option.map_eq_some_iff] at recorded
    obtain ⟨m,alive,rfl⟩ := recorded
    have known : live x ≠ none := fun nothing => by
      rw [(same x).mp nothing] at alive
      cases alive
    obtain ⟨k,known⟩ := Option.ne_none_iff_exists'.mp known
    obtain ⟨page,extent⟩ := live_extent sane.inv known
    have header := sane.inv.header page extent.held
    have placed := extent.placed
    refine ⟨page,extent.held,?_⟩
    show Placed (sized h (full h)) page x (block_size h x) (h.arena page).desc
    have placed : Placed (sized h live) page x k (h.arena page).desc := placed
    have header : Headed (sized h live) page (h.arena page).desc := header
    cases kind : (h.arena page).desc with
    | some d =>
      rw [kind] at placed header
      obtain ⟨-,i,below,rfl⟩ := placed
      refine ⟨?_,i,below,rfl⟩
      rw [block_size,block_page _ header.1 below,kind]
    | none =>
      rw [kind] at placed
      refine ⟨placed.1,?_⟩
      have high := extent.high
      have low := extent.low
      have high : x + block_size h x ≤ (page + h.held page) * PGSIZE := high
      show block_size h x + sizeof_arena ≤ h.held page * PGSIZE
      rw [placed.1,Nat.add_mul] at high
      rw [placed.1]
      omega
  · obtain ⟨x,k,alive,low,high⟩ := sane.occupied page held
    have alive : live x = some k := alive
    have known : full h x ≠ none := fun nothing => by
      rw [(none_ x).mp nothing] at alive
      cases alive
    obtain ⟨m,known⟩ := Option.ne_none_iff_exists'.mp known
    exact ⟨x,m,known,low,high⟩

theorem full_none (h : Heap) (x : Nat) : full h x = none ↔ h.live x = none := by
  rw [full,Option.map_eq_none_iff]

/-- The bytes of a live block are in pages that are held. -/
structure Within (h : Heap) (x : Nat) : Prop where
  pages : ∃ page, h.held page ≠ 0 ∧ page * PGSIZE + sizeof_arena ≤ x ∧ x + block_size h x ≤ (page + h.held page) * PGSIZE
  /-- The first page is never held. -/
  room : block_size h x + 4108 ≤ 2 ^ 32

theorem good_within (good : Good h) {x : Nat} (alive : h.live x ≠ none) : Within h x := by
  obtain ⟨xs,sane⟩ := good
  obtain ⟨n,known⟩ := Option.ne_none_iff_exists'.mp (fun nothing => alive ((full_none h x).mp nothing))
  obtain ⟨page,extent⟩ := live_extent sane.inv (h := sized h (full h)) known
  have bounds : 1 ≤ page ∧ page + h.held page ≤ 2 ^ 20 := sane.inv.pages page extent.held
  have low : page * PGSIZE + sizeof_arena ≤ x := extent.low
  have high : x + block_size h x ≤ (page + h.held page) * PGSIZE := extent.high
  refine ⟨⟨page,extent.held,low,high⟩,?_⟩
  rw [PGSIZE,sizeof_arena] at *
  omega

/-- What a request that is served does. -/
structure Served (h h' : Heap) (size : BitVec 32) (b : Nat) : Prop where
  fresh : h.live b = none
  live : h'.live = Function.update h.live b (some size.toNat)
  enough : size.toNat < 2 ^ 32 - 11 → size.toNat ≤ block_size h' b
  old : ∀ x, h.live x ≠ none → block_size h x ≤ block_size h' x

theorem sane_sizes {xs : Nat → List Nat} (sane : Sane h xs) {x : Nat} (alive : h.live x = some n) : n ≤ block_size h x := by
  obtain ⟨page,extent⟩ := live_extent sane.inv alive
  exact extent.enough

/-- A request for a size that does not wrap. -/
theorem malloc_good_small (good : Good h) (small : size.toNat ≤ 2 ^ 32 - 4096)
    (available : ∀ page, answer = some page → Available h page (request size)) :
    ∃ result h', malloc h size answer = some (result,h') ∧ Good h' ∧
      (result = none → h' = h) ∧ ∀ b, result = some b → Served h h' size b := by
  obtain ⟨xs,sane⟩ := good
  obtain ⟨result,h₁,xs',ran,after,returned⟩ := malloc_spec sane ⟨small,available⟩
  have whole := @malloc_sized h.live (sized h (full h)) size answer
  rw [ran] at whole
  refine ⟨result,sized h₁ (taken h.live size result),whole,?_,?_,?_⟩
  · refine good_of_sane (h := sized h₁ (taken h.live size result)) after fun x => ?_
    show h₁.live x = none ↔ taken h.live size result x = none
    cases result with
    | none =>
      have same : h₁ = sized h (full h) := returned
      rw [same]
      exact full_none h x
    | some b =>
      have given : Malloc.Given (sized h (full h)) h₁ b size.toNat := returned
      rw [given.live]
      show Function.update (full h) b (some size.toNat) x = none ↔ Function.update h.live b (some size.toNat) x = none
      by_cases here : x = b
      · rw [here,Function.update_self,Function.update_self]
      · rw [Function.update_of_ne here,Function.update_of_ne here,full_none]
  · rintro rfl
    have same : h₁ = sized h (full h) := returned
    rw [same]
    rfl
  · rintro b rfl
    have given : Malloc.Given (sized h (full h)) h₁ b size.toNat := returned
    have live₁ : h₁.live = Function.update (full h) b (some size.toNat) := given.live
    refine ⟨(full_none h b).mp given.fresh,rfl,fun _ => ?_,fun x alive => ?_⟩
    · exact sane_sizes after (by rw [live₁,Function.update_self])
    · have other : x ≠ b := by
        rintro rfl
        exact alive ((full_none h x).mp given.fresh)
      obtain ⟨n,known⟩ := Option.ne_none_iff_exists'.mp alive
      refine sane_sizes after (x := x) ?_
      rw [live₁,Function.update_of_ne other,full,known]
      rfl

theorem find_desc_big (size : BitVec 32) (big : 1024 < size.toNat) : find_desc size = none := by
  have blocks : ∀ d < desc_cnt, (desc d).block_size ≤ 1024 := by decide
  refine List.find?_eq_none.mpr fun d member => ?_
  have bound := blocks d (List.mem_range.mp member)
  simp only [decide_eq_true_eq]
  omega

/-- The number of pages wraps for the greatest sizes. -/
theorem page_cnt_wraps (size : BitVec 32) (large : 2 ^ 32 - 4107 ≤ size.toNat) :
    page_cnt size = if size.toNat < 2 ^ 32 - 11 then 0 else 1 := by
  have range := size.isLt
  simp only [page_cnt,BitVec.toNat_udiv,BitVec.toNat_sub,BitVec.toNat_add,BitVec.toNat_ofNat,Nat.reducePow,
    Nat.reduceMod,Nat.reduceSub] at *
  split
  · omega
  · omega

/-- A request that wraps: none of the greatest sizes gets more than a page. -/
theorem malloc_wraps (h : Heap) (large : 2 ^ 32 - 4107 ≤ size.toNat) :
    malloc h size answer = if size.toNat < 2 ^ 32 - 11 then some (none,h)
      else (malloc h 4084 answer).map fun r => (r.1,sized r.2 (taken h.live size r.1)) := by
  have nonzero : size ≠ 0 := by
    rintro rfl
    exact absurd large (by decide)
  have wraps := page_cnt_wraps size large
  rw [malloc,if_neg nonzero,find_desc_big size (by omega)]
  simp only [palloc_get_multiple]
  by_cases below : size.toNat < 2 ^ 32 - 11
  · rw [if_pos below] at wraps
    rw [if_pos wraps,if_pos below]
  · rw [if_neg below] at wraps
    rw [wraps,if_neg below,malloc,if_neg (by decide),find_desc_big 4084 (by decide)]
    have one : page_cnt 4084 = 1 := by decide
    simp only [palloc_get_multiple,one]
    cases answer with
    | none => rfl
    | some page => rfl

/-- Whatever size is asked for, the heap stays good. -/
theorem malloc_good (good : Good h) (available : ∀ page, answer = some page → Available h page (request size)) :
    ∃ result h', malloc h size answer = some (result,h') ∧ Good h' ∧
      (result = none → h' = h) ∧ ∀ b, result = some b → Served h h' size b := by
  by_cases small : size.toNat ≤ 2 ^ 32 - 4096
  · exact malloc_good_small good small available
  · have wraps := @malloc_wraps size answer h (by omega)
    by_cases below : size.toNat < 2 ^ 32 - 11
    · rw [if_pos below] at wraps
      exact ⟨none,h,wraps,good,fun _ => rfl,fun b none_ => by cases none_⟩
    · rw [if_neg below] at wraps
      have pages : request size = request 4084 := by
        rw [request,request,find_desc_big size (by omega),find_desc_big 4084 (by decide),if_pos rfl,if_pos rfl,
          page_cnt_wraps size (by omega),if_neg below]
        decide
      rw [pages] at available
      obtain ⟨result,h₁,ran,good₁,kept,served⟩ := malloc_good_small good (by decide) available
      rw [ran] at wraps
      refine ⟨result,_,wraps,?_,?_,?_⟩
      · obtain ⟨xs,sane⟩ := good₁
        refine good_of_sane sane fun x => ?_
        rw [full_none]
        show h₁.live x = none ↔ taken h.live size result x = none
        cases result with
        | none => rw [kept rfl]; exact Iff.rfl
        | some b =>
          rw [(served b rfl).live]
          show _ ↔ Function.update h.live b (some size.toNat) x = none
          by_cases here : x = b
          · rw [here,Function.update_self,Function.update_self]
            simp
          · rw [Function.update_of_ne here,Function.update_of_ne here]
      · rintro rfl
        rw [kept rfl]
        rfl
      · rintro b rfl
        have before := served b rfl
        exact ⟨before.fresh,rfl,fun also => absurd also below,before.old⟩

theorem free_good (good : Good h) {x : Nat} (alive : h.live x ≠ none) : ∃ h', free h (some x) = some h' ∧ Good h' ∧
    h'.live = Function.update h.live x none ∧ ∀ y, y ≠ x → h.live y ≠ none → block_size h y ≤ block_size h' y := by
  obtain ⟨xs,sane⟩ := good
  obtain ⟨n,known⟩ := Option.ne_none_iff_exists'.mp (fun nothing => alive ((full_none h x).mp nothing))
  obtain ⟨h₁,xs',ran,after,freed_⟩ := free_spec sane known
  have whole := @free_sized h.live (sized h (full h)) (some x)
  rw [ran] at whole
  have live₁ : h₁.live = Function.update (full h) x none := freed_.live
  refine ⟨sized h₁ (freed h.live (some x)),whole,?_,rfl,fun y other alive => ?_⟩
  · refine good_of_sane (h := sized h₁ (freed h.live (some x))) after fun y => ?_
    rw [live₁]
    show Function.update (full h) x none y = none ↔ Function.update h.live x none y = none
    by_cases here : y = x
    · rw [here,Function.update_self,Function.update_self]
    · rw [Function.update_of_ne here,Function.update_of_ne here,full_none]
  · obtain ⟨m,there⟩ := Option.ne_none_iff_exists'.mp alive
    refine sane_sizes after (x := y) ?_
    rw [live₁,Function.update_of_ne other,full,there]
    rfl

end

section
variable {k k' : Kernel} {a b size new_size : BitVec 32} {answer result old_block : Option Nat} {h h' : Heap} {p : Nat}

/-- `calloc` clears what it was asked for modulo 2^32, and that fits in the block. -/
theorem calloc_spec (good : Good k.heap) (available : ∀ page, answer = some page → Available k.heap page (request (a * b)))
    (ran : calloc k a b answer = some (result,k')) : Good k'.heap ∧ ∀ p, result = some p →
      k'.heap.live p ≠ none ∧ (a * b).toNat ≤ block_size k'.heap p ∧ ∀ i < (a * b).toNat, k'.bytes (p + i) = 0 := by
  unfold calloc at ran
  dsimp only at ran
  split at ran
  · cases ran
    exact ⟨good,fun p none_ => by cases none_⟩
  · obtain ⟨r,h',served,good',-,given⟩ := malloc_good good available
    rw [served] at ran
    simp only [Option.bind_eq_bind,Option.bind_some] at ran
    cases r with
    | none =>
      cases ran
      exact ⟨good',fun p none_ => by cases none_⟩
    | some p =>
      obtain ⟨k₁,cleared,same⟩ := Option.map_eq_some_iff.mp ran
      cases same
      unfold memset at cleared
      split at cleared
      · next fits =>
        cases cleared
        refine ⟨good',fun q same => ?_⟩
        cases same
        refine ⟨?_,fits,fun i below => if_pos ⟨Nat.le_add_right _ _,Nat.add_lt_add_left below p⟩⟩
        show h'.live p ≠ none
        rw [(given p rfl).live,Function.update_self]
        exact Option.some_ne_none _
      · cases cleared

/-- `realloc` copies what fits of the old block. -/
theorem realloc_spec (good : Good k.heap) (available : ∀ page, answer = some page → Available k.heap page (request new_size))
    (freeable : Freeable k.heap old_block) (ran : realloc k old_block new_size answer = some (result,k')) :
    Good k'.heap ∧ ∀ p, result = some p → k'.heap.live p ≠ none ∧
      (new_size.toNat < 2 ^ 32 - 11 → new_size.toNat ≤ block_size k'.heap p) ∧
      ∀ b, old_block = some b → ∀ i < min new_size.toNat (block_size k.heap b), k'.bytes (p + i) = k.bytes (b + i) := by
  unfold realloc at ran
  split at ran
  · obtain ⟨h',ended,same⟩ := Option.map_eq_some_iff.mp ran
    cases same
    refine ⟨?_,fun p none_ => by cases none_⟩
    cases old_block with
    | none =>
      cases ended
      exact good
    | some old =>
      obtain ⟨h₁,freed₁,good₁,-⟩ := free_good good (freeable old rfl)
      obtain rfl := Option.some.inj (freed₁.symm.trans ended)
      exact good₁
  · obtain ⟨r,h₁,served,good₁,-,given⟩ := malloc_good good available
    rw [served] at ran
    simp only [Option.bind_eq_bind,Option.bind_some] at ran
    have new_live : ∀ p, r = some p → h₁.live p ≠ none := by
      intro p same
      rw [(given p same).live,Function.update_self]
      exact Option.some_ne_none _
    cases old_block with
    | none =>
      cases ran
      exact ⟨good₁,fun p same => ⟨new_live p same,(given p same).enough,fun b none_ => by cases none_⟩⟩
    | some old =>
      cases r with
      | none =>
        cases ran
        exact ⟨good₁,fun p none_ => by cases none_⟩
      | some new =>
        have given := given new rfl
        have alive := freeable old rfl
        have other : new ≠ old := by
          rintro rfl
          exact alive given.fresh
        have still : h₁.live old ≠ none := by
          rw [given.live,Function.update_of_ne other.symm]
          exact alive
        obtain ⟨page,-,ran⟩ := Option.bind_eq_some_iff.mp ran
        obtain ⟨k₁,copied,ran⟩ := Option.bind_eq_some_iff.mp ran
        obtain ⟨h₂,ended,same⟩ := Option.map_eq_some_iff.mp ran
        cases same
        have least : (if new_size.toNat < block_size h₁ old then new_size.toNat else block_size h₁ old)
            = min new_size.toNat (block_size h₁ old) := by
          split <;> omega
        rw [least] at copied
        unfold memcpy at copied
        split at copied
        · cases copied
          obtain ⟨h₃,freed₃,good₃,live₃,sizes⟩ := free_good good₁ still
          obtain rfl := Option.some.inj (freed₃.symm.trans ended)
          refine ⟨good₃,fun p same => ?_⟩
          cases same
          refine ⟨?_,fun small => ?_,fun b same i below => ?_⟩
          · show h₃.live new ≠ none
            rw [live₃,Function.update_of_ne other]
            exact new_live new rfl
          · exact (given.enough small).trans (sizes new other (new_live new rfl))
          · cases same
            have grown := given.old old alive
            have inside : i < min new_size.toNat (block_size h₁ old) := by omega
            show (if new ≤ new + i ∧ new + i < new + _ then k.bytes (old + (new + i - new)) else k.bytes (new + i)) = _
            rw [if_pos ⟨Nat.le_add_right _ _,Nat.add_lt_add_left inside new⟩,Nat.add_sub_cancel_left]
        · cases copied

theorem perform_good {r : Request} (good : Good k.heap) (lawful : Lawful k answer r)
    (ran : perform k answer r = some (result,k')) : Good k'.heap := by
  cases r with
  | malloc size =>
    obtain ⟨result₁,h₁,served,good₁,-⟩ := malloc_good good lawful.1
    rw [perform,show malloc k.heap size answer = some (result₁,h₁) from served] at ran
    cases ran
    exact good₁
  | calloc a b => exact (calloc_spec good lawful.1 ran).1
  | realloc old_block new_size => exact (realloc_spec good lawful.1 lawful.2 ran).1
  | free p =>
    obtain ⟨h₁,ended,same⟩ := Option.map_eq_some_iff.mp ran
    cases same
    cases p with
    | none =>
      cases ended
      exact good
    | some b =>
      obtain ⟨h₂,freed₂,good₂,-⟩ := free_good good (lawful.2 b rfl)
      obtain rfl := Option.some.inj (freed₂.symm.trans ended)
      exact good₂

/-- The rest of the kernel writes to none of the bytes that the heap needs. -/
theorem write_good {memory : Memory Address} {arena : Nat → Arena} (good : Good h) (spares : Spares h memory arena) :
    Good { h with memory := memory, arena := arena } := by
  obtain ⟨xs,sane⟩ := good
  have writable : ∀ a, Writable (sized h (full h)) a ↔ Writable h a := by
    intro a
    refine or_congr (exists_congr fun b => ?_) Iff.rfl
    constructor
    · rintro ⟨n,alive,inside⟩
      have alive : full h b = some n := alive
      rw [full,Option.map_eq_some_iff] at alive
      obtain ⟨m,alive,-⟩ := alive
      exact ⟨m,alive,inside⟩
    · rintro ⟨m,alive,inside⟩
      refine ⟨block_size h b,?_,inside⟩
      show full h b = _
      rw [full,alive]
      rfl
  have spares : Spares (sized h (full h)) memory arena := by
    refine ⟨spares.lists,fun a none_ => spares.links a fun i below => ?_,fun page none_ => spares.arenas page fun i below => ?_⟩
    · exact fun inside => none_ i below ((writable _).mpr inside)
    · exact fun inside => none_ i below ((writable _).mpr inside)
  have after : Sane (sized { h with memory := memory, arena := arena } (full h)) xs := ⟨inv_write sane.inv spares,sane.occupied⟩
  exact good_of_sane after (full_none h)

theorem reaches_good (reach : Reaches machine Anything k) : Good k.heap := by
  refine reaches_invariant (fun k => Good k.heap) ?_ ?_ reach
  · rintro k ⟨m,arena,started⟩
    rw [started]
    exact good_of_sane (malloc_init_sane m arena) fun x => Iff.rfl
  · intro k event k' good _ step
    cases event with
    | request r answer result => exact perform_good good step.1 step.2
    | write memory arena bytes =>
      obtain ⟨spares,rfl⟩ := step
      exact write_good good spares

/-! ### What the callers get -/

/-- At least `n` bytes of the block can be used, and they are in pages held for it. -/
def Usable (h : Heap) (p n : Nat) : Prop := n ≤ block_size h p ∧ Within h p

def MallocServes (size : BitVec 32) : Prop :=
  ∀ k answer p k', Reaches machine Anything k → Lawful k answer (.malloc size) →
    perform k answer (.malloc size) = some (some p,k') → Usable k'.heap p size.toNat

/-- As many bytes as the product of the two numbers, all of them zero. -/
def CallocServes (a b : BitVec 32) : Prop :=
  ∀ k answer p k', Reaches machine Anything k → Lawful k answer (.calloc a b) →
    perform k answer (.calloc a b) = some (some p,k') →
      Usable k'.heap p (a.toNat * b.toNat) ∧ ∀ i < a.toNat * b.toNat, k'.bytes (p + i) = 0

def ReallocServes (new_size : BitVec 32) : Prop :=
  ∀ k old_block answer p k', Reaches machine Anything k → Lawful k answer (.realloc old_block new_size) →
    perform k answer (.realloc old_block new_size) = some (some p,k') →
      Usable k'.heap p new_size.toNat ∧
        ∀ b, old_block = some b → ∀ i < min new_size.toNat (block_size k.heap b), k'.bytes (p + i) = k.bytes (b + i)

/-- A request has a result if its size does not wrap to a single page. -/
theorem perform_answers {r : Request} (good : Good k.heap) (lawful : Lawful k answer r) (below : r.size.toNat < 2 ^ 32 - 11) :
    ∃ result k', perform k answer r = some (result,k') := by
  cases r with
  | malloc size =>
    obtain ⟨result₁,h₁,served,-⟩ := malloc_good good lawful.1
    exact ⟨result₁,{ k with heap := h₁ },Option.map_eq_some_iff.mpr ⟨_,served,rfl⟩⟩
  | free p =>
    cases p with
    | none => exact ⟨none,k,rfl⟩
    | some b =>
      obtain ⟨h₁,ended,-⟩ := free_good good (lawful.2 b rfl)
      exact ⟨none,{ k with heap := h₁ },Option.map_eq_some_iff.mpr ⟨_,ended,rfl⟩⟩
  | calloc a b =>
    show ∃ result k', calloc k a b answer = some (result,k')
    unfold calloc
    dsimp only
    split
    · exact ⟨none,k,rfl⟩
    · obtain ⟨r,h₁,served,-,-,given⟩ := malloc_good good lawful.1
      rw [show malloc k.heap (a * b) answer = some (r,h₁) from served]
      cases r with
      | none => exact ⟨none,{ k with heap := h₁ },rfl⟩
      | some p =>
        have fits : (a * b).toNat ≤ block_size h₁ p := (given p rfl).enough below
        simp only [Option.bind_eq_bind,Option.bind_some,memset,if_pos fits,Option.map_some]
        exact ⟨_,_,rfl⟩
  | realloc old_block new_size =>
    show ∃ result k', realloc k old_block new_size answer = some (result,k')
    have freeable : Freeable k.heap old_block := lawful.2
    unfold realloc
    split
    · cases old_block with
      | none => exact ⟨none,k,rfl⟩
      | some old =>
        obtain ⟨h₁,ended,-⟩ := free_good good (freeable old rfl)
        exact ⟨none,{ k with heap := h₁ },Option.map_eq_some_iff.mpr ⟨_,ended,rfl⟩⟩
    · obtain ⟨r,h₁,served,good₁,-,given⟩ := malloc_good good lawful.1
      rw [show malloc k.heap new_size answer = some (r,h₁) from served]
      simp only [Option.bind_eq_bind,Option.bind_some]
      cases old_block with
      | none => exact ⟨r,{ k with heap := h₁ },rfl⟩
      | some old =>
        cases r with
        | none => exact ⟨none,{ k with heap := h₁ },rfl⟩
        | some new =>
          have given := given new rfl
          have alive := freeable old rfl
          have other : old ≠ new := by
            rintro rfl
            exact alive given.fresh
          have still : h₁.live old ≠ none := by
            rw [given.live,Function.update_of_ne other]
            exact alive
          obtain ⟨h₂,ended,-⟩ := free_good good₁ still
          obtain ⟨page,found,-⟩ := Option.bind_eq_some_iff.mp (show (block_to_arena h₁ old).bind _ = some h₂ from ended)
          have fits : (if new_size.toNat < block_size h₁ old then new_size.toNat else block_size h₁ old) ≤ block_size h₁ new := by
            have enough : new_size.toNat ≤ block_size h₁ new := given.enough below
            split <;> omega
          simp only [found,memcpy,if_pos fits,Option.bind_some,ended,Option.map_some]
          exact ⟨_,_,rfl⟩

/-- `malloc` fails only where it asks for no pages or gets none. -/
theorem malloc_none {page : Nat} (ran : malloc h size (some page) = some (none,h')) :
    size = 0 ∨ find_desc size = none ∧ page_cnt size = 0 := by
  have given : ∀ h d, take_block h d size ≠ some (none,h') := by
    intro h d taken
    obtain ⟨front,-,taken⟩ := Option.bind_eq_some_iff.mp taken
    obtain ⟨front,m⟩ := front
    cases front with
    | byte b =>
      obtain ⟨page,-,taken⟩ := Option.bind_eq_some_iff.mp taken
      cases taken
    | head e => cases taken
    | tail e => cases taken
  unfold malloc at ran
  split at ran
  · next zero => exact Or.inl zero
  · cases found : find_desc size with
    | none =>
      rw [found] at ran
      simp only [palloc_get_multiple] at ran
      by_cases none_ : page_cnt size = 0
      · exact Or.inr ⟨rfl,none_⟩
      · rw [if_neg none_] at ran
        cases ran
    | some d =>
      rw [found] at ran
      simp only [palloc_get_multiple,if_neg Nat.one_ne_zero,Option.map_some] at ran
      split at ran
      · obtain ⟨h₁,-,taken⟩ := Option.bind_eq_some_iff.mp ran
        exact absurd taken (given h₁ d)
      · exact absurd ran (given h d)

/-- The kernel at its start. -/
def start : Kernel where
  heap := malloc_init (fun _ => { prev := none, next := none }) fun _ => { magic := 0, desc := none, free_cnt := 0 }
  bytes _ := 0

theorem start_reached : Reaches machine Anything start := .start ⟨_,_,rfl⟩

/-- All the pages but the first are free. -/
theorem start_available (fits : 1 + request size ≤ 2 ^ 20) (page : Nat) (same : some 1 = some page) :
    Available start.heap page (request size) := by
  cases same
  exact ⟨Nat.le_refl 1,fits,fun q held => absurd rfl held⟩

theorem page_cnt_small (below : size.toNat < 2 ^ 32 - 4107) : page_cnt size = (size.toNat + 4107) / 4096 := by
  simp only [page_cnt,BitVec.toNat_udiv,BitVec.toNat_sub,BitVec.toNat_add,BitVec.toNat_ofNat,Nat.reducePow,
    Nat.reduceMod,Nat.reduceSub] at *
  omega

/-- What a fresh heap serves. -/
theorem start_serves (nonzero : size ≠ 0) (outside : size.toNat < 2 ^ 32 - 4107 ∨ 2 ^ 32 - 11 ≤ size.toNat) :
    (∀ page, some 1 = some page → Available start.heap page (request size)) ∧
      ∃ p h', malloc start.heap size (some 1) = some (some p,h') ∧ (size.toNat < 2 ^ 32 - 11 → size.toNat ≤ block_size h' p) := by
  have range := size.isLt
  have available : ∀ page, some 1 = some page → Available start.heap page (request size) := by
    refine start_available ?_
    rw [request]
    split
    · rcases outside with below | above
      · rw [page_cnt_small below]
        omega
      · rw [page_cnt_wraps size (by omega),if_neg (by omega)]
        decide
    · decide
  refine ⟨available,?_⟩
  obtain ⟨result,h',ran,-,-,served⟩ := malloc_good (reaches_good start_reached) available
  cases result with
  | some p => exact ⟨p,h',ran,(served p rfl).enough⟩
  | none =>
    exfalso
    rcases malloc_none ran with zero | ⟨-,pages⟩
    · exact nonzero zero
    · rcases outside with below | above
      · rw [page_cnt_small below] at pages
        omega
      · rw [page_cnt_wraps size (by omega),if_neg (by omega)] at pages
        cases pages

theorem usable_bound {n : Nat} (usable : Usable h p n) : n ≤ 2 ^ 32 - 4108 := by
  have room := usable.2.room
  have enough := usable.1
  omega

theorem malloc_serves : MallocServes size ↔ size.toNat < 2 ^ 32 - 11 := by
  constructor
  · intro serves
    refine Decidable.byContradiction fun above => ?_
    have nonzero : size ≠ 0 := by
      rintro rfl
      exact above (by decide)
    obtain ⟨available,p,h',ran,-⟩ := start_serves nonzero (Or.inr (by omega))
    have usable := serves start (some 1) p { start with heap := h' } start_reached ⟨available,trivial⟩
      (Option.map_eq_some_iff.mpr ⟨_,ran,rfl⟩)
    have bound := usable_bound usable
    omega
  · intro below k answer p k' reach lawful ran
    obtain ⟨result,h₁,served,good₁,-,given⟩ := malloc_good (reaches_good reach) lawful.1
    rw [perform,show malloc k.heap size answer = some (result,h₁) from served] at ran
    cases ran
    have given := given p rfl
    refine ⟨given.enough below,good_within good₁ ?_⟩
    rw [given.live,Function.update_self]
    exact Option.some_ne_none _

theorem realloc_serves : ReallocServes new_size ↔ new_size.toNat < 2 ^ 32 - 11 := by
  constructor
  · intro serves
    refine Decidable.byContradiction fun above => ?_
    have nonzero : new_size ≠ 0 := by
      rintro rfl
      exact above (by decide)
    obtain ⟨available,p,h',ran,-⟩ := start_serves nonzero (Or.inr (by omega))
    have whole : perform start (some 1) (.realloc none new_size) = some (some p,{ start with heap := h' }) := by
      rw [perform,realloc,if_neg nonzero,ran]
      rfl
    have usable := serves start none (some 1) p _ start_reached ⟨available,fun b none_ => by cases none_⟩ whole
    have bound := usable_bound usable.1
    omega
  · intro below k old_block answer p k' reach lawful ran
    obtain ⟨good',given⟩ := realloc_spec (reaches_good reach) lawful.1 lawful.2 ran
    obtain ⟨alive,enough,copied⟩ := given p rfl
    exact ⟨⟨enough below,good_within good' alive⟩,copied⟩

theorem product_mod (a b : BitVec 32) : (a * b).toNat = a.toNat * b.toNat % 2 ^ 32 := BitVec.toNat_mul a b

theorem calloc_serves : CallocServes a b ↔
    a.toNat * b.toNat < 2 ^ 32 ∨ a * b < a ∨ a * b < b ∨ 2 ^ 32 - 4107 ≤ (a * b).toNat := by
  constructor
  · intro serves
    refine Decidable.byContradiction fun fails => ?_
    obtain ⟨large,first,second,below⟩ : ¬ a.toNat * b.toNat < 2 ^ 32 ∧ ¬ a * b < a ∧ ¬ a * b < b ∧
        ¬ 2 ^ 32 - 4107 ≤ (a * b).toNat := by
      simp only [not_or] at fails
      exact fails
    have nonzero : a * b ≠ 0 := by
      intro zero
      rw [zero,BitVec.lt_def] at first
      have none_ : a.toNat = 0 := Nat.eq_zero_of_not_pos first
      rw [none_,Nat.zero_mul] at large
      exact large (by decide)
    obtain ⟨available,p,h',ran,enough⟩ := start_serves nonzero (Or.inl (by omega))
    have fits : (a * b).toNat ≤ block_size h' p := enough (by omega)
    have whole : ∃ k', perform start (some 1) (.calloc a b) = some (some p,k') := by
      rw [perform,calloc]
      dsimp only
      rw [if_neg (not_or.mpr ⟨first,second⟩),ran]
      simp only [Option.bind_eq_bind,Option.bind_some,memset,if_pos fits,Option.map_some]
      exact ⟨_,rfl⟩
    obtain ⟨k',whole⟩ := whole
    have usable := serves start (some 1) p k' start_reached ⟨available,trivial⟩ whole
    have bound := usable_bound usable.1
    omega
  · intro condition k answer p k' reach lawful ran
    have ran : calloc k a b answer = some (some p,k') := ran
    obtain ⟨good',given⟩ := calloc_spec (reaches_good reach) lawful.1 ran
    obtain ⟨alive,fits,zeros⟩ := given p rfl
    have within := good_within good' alive
    have passed : ¬ (a * b < a ∨ a * b < b) := by
      intro wraps
      rw [calloc] at ran
      dsimp only at ran
      rw [if_pos wraps] at ran
      cases ran
    rcases condition with small | first | second | above
    · rw [product_mod,Nat.mod_eq_of_lt small] at fits zeros
      exact ⟨⟨fits,within⟩,zeros⟩
    · exact absurd (Or.inl first) passed
    · exact absurd (Or.inr second) passed
    · have room := within.room
      omega

/-- Which requests get what they ask for, in every heap that any calls can leave:
    `malloc` and `realloc` all but the eleven greatest sizes, and `calloc` the products
    below 2^32, besides those whose remainder it refuses or cannot clear. All of them
    have a result where their size does not wrap to a page. -/
theorem requests_served (size a b new_size : BitVec 32) :
    (MallocServes size ↔ size.toNat < 2 ^ 32 - 11) ∧
      (CallocServes a b ↔
        a.toNat * b.toNat < 2 ^ 32 ∨ a * b < a ∨ a * b < b ∨ 2 ^ 32 - 4107 ≤ (a * b).toNat) ∧
      (ReallocServes new_size ↔ new_size.toNat < 2 ^ 32 - 11) ∧
      ∀ k answer r, Reaches machine Anything k → Lawful k answer r → r.size.toNat < 2 ^ 32 - 11 →
        ∃ result k', perform k answer r = some (result,k') :=
  ⟨malloc_serves,calloc_serves,realloc_serves,
    fun _ _ _ reach lawful below => perform_answers (reaches_good reach) lawful below⟩

/-- A page for 4 GB, and 33 pages for 2^32 + 0x20001 bytes. -/
theorem requests_under_served : ¬ MallocServes 0xfffffff5 ∧ ¬ CallocServes 0x10001 0x10001 ∧ ¬ ReallocServes 0xfffffff5 :=
  ⟨fun serves => absurd (malloc_serves.mp serves) (by decide),
    fun serves => absurd (calloc_serves.mp serves) (by decide),
    fun serves => absurd (realloc_serves.mp serves) (by decide)⟩

end

end Pintos.Requests
