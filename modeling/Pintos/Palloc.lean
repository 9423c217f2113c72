import Pintos.UserMemory
import Pintos.Bitmaps

/-!
The page allocator of `threads/palloc.c`. An address and a size are words, and their
arithmetic wraps. A call is one step. A panic and a failed assertion have no result, and
the null pointer is zero.

The elements of a pool's bitmap lie behind its `struct bitmap` at `used_map`; they are
in `map` here, and `memory` is what was there before. `given` is not in the source. It
keeps the ranges that were handed out and not yet freed.
-/
namespace Pintos.Palloc
open Pintos.Machines Pintos.Bitmaps Pintos.UserMemory
set_option linter.unusedSimpArgs false

def PAL_ASSERT : BitVec 32 := 1
def PAL_ZERO : BitVec 32 := 2
def PAL_USER : BitVec 32 := 4

/-- `PGSIZE` as a word. -/
def page_size : BitVec 32 := BitVec.ofNat 32 PGSIZE

/-- `struct pool` -/
structure Pool where
  used_map : Addr
  map : Bitmap
  base : Addr

structure Pools where
  kernel_pool : Pool
  user_pool : Pool
  /-- The bytes of memory, but for the bitmaps. -/
  ram : Addr → Byte

def Pools.pool (p : Pools) (user : Bool) : Pool := if user then p.user_pool else p.kernel_pool
def Pools.with_map (p : Pools) (user : Bool) (map : Bitmap) : Pools :=
  if user then { p with user_pool := { p.user_pool with map := map } } else { p with kernel_pool := { p.kernel_pool with map := map } }

def memset (ram : Addr → Byte) (dst : Addr) (value : Byte) (size : BitVec 32) (a : Addr) : Byte :=
  if a - dst < size then value else ram a

def DIV_ROUND_UP (x step : BitVec 32) : BitVec 32 := (x + step - 1) / step
/-- `sizeof (struct bitmap) + byte_cnt (bit_cnt)` -/
def bitmap_buf_size (bit_cnt : BitVec 32) : BitVec 32 := 8 + 4 * DIV_ROUND_UP bit_cnt 32
def bitmap_create_in_buf (bit_cnt block_size : BitVec 32) (memory : Nat → BitVec 32) : Option Bitmap :=
  if block_size ≥ bitmap_buf_size bit_cnt then bitmap_create bit_cnt.toNat memory else none
def bitmap_size (b : Bitmap) : BitVec 32 := BitVec.ofNat 32 b.bit_cnt

def init_pool (base : Addr) (page_cnt : BitVec 32) (memory : Nat → BitVec 32) : Option Pool :=
  let bm_pages := DIV_ROUND_UP (bitmap_buf_size page_cnt) page_size
  if bm_pages > page_cnt then none
  else (bitmap_create_in_buf (page_cnt - bm_pages) (bm_pages * page_size) memory).map fun map =>
    { used_map := base, map := map, base := base + bm_pages * page_size }

def palloc_init (init_ram_pages user_page_limit : BitVec 32) (ram : Addr → Byte) (memory : Bool → Nat → BitVec 32) :
    Option Pools :=
  -- The assertions of `ptov`.
  if 1024 * 1024 < PHYS_BASE ∧ init_ram_pages * page_size < PHYS_BASE then do
    let free_start := ptov (1024 * 1024)
    let free_end := ptov (init_ram_pages * page_size)
    let free_pages := (free_end - free_start).sdiv page_size
    let user_pages := if free_pages / 2 > user_page_limit then user_page_limit else free_pages / 2
    let kernel_pages := free_pages - user_pages
    let kernel_pool ← init_pool free_start kernel_pages (memory false)
    let user_pool ← init_pool (free_start + kernel_pages * page_size) user_pages (memory true)
    some { kernel_pool := kernel_pool, user_pool := user_pool, ram := ram }
  else none

def palloc_get_multiple (p : Pools) (flags page_cnt : BitVec 32) : Option (Addr × Pools) :=
  if page_cnt = 0 then some (0,p)
  else do
    let user : Bool := flags &&& PAL_USER ≠ 0
    let (page_idx,map) ← bitmap_scan_and_flip (p.pool user).map 0 page_cnt.toNat false
    let p := p.with_map user map
    let pages := page_idx.elim 0 fun idx => (p.pool user).base + page_size * BitVec.ofNat 32 idx
    if pages ≠ 0 then
      some (pages,if flags &&& PAL_ZERO ≠ 0 then { p with ram := memset p.ram pages 0 (page_size * page_cnt) } else p)
    else if flags &&& PAL_ASSERT ≠ 0 then none
    else some (0,p)

def page_from_pool (pool : Pool) (page : Addr) : Bool :=
  let page_no := pg_no page
  let start_page := pg_no pool.base
  let end_page := start_page + bitmap_size pool.map
  page_no ≥ start_page && page_no < end_page

/-- The pool that a page is from; `NOT_REACHED` if it is from none. -/
def find_pool (p : Pools) (page : Addr) : Option Bool :=
  if page_from_pool p.kernel_pool page then some false
  else if page_from_pool p.user_pool page then some true
  else none

def palloc_free_multiple (p : Pools) (pages : Addr) (page_cnt : BitVec 32) : Option Pools :=
  if pg_ofs pages ≠ 0 then none
  else if pages = 0 ∨ page_cnt = 0 then some p
  else do
    let user ← find_pool p pages
    let page_idx := pg_no pages - pg_no (p.pool user).base
    let p := { p with ram := memset p.ram pages 0xcc (page_size * page_cnt) }
    let used ← bitmap_all (p.pool user).map page_idx.toNat page_cnt.toNat
    if used then (bitmap_set_multiple (p.pool user).map page_idx.toNat page_cnt.toNat false).map (p.with_map user) else none

/-! ### Ranges of memory -/

structure Range where
  start : Nat
  size : Nat

def Range.Has (r : Range) (a : Nat) : Prop := r.start ≤ a ∧ a < r.start + r.size
def Range.Apart (r q : Range) : Prop := ∀ a, r.Has a → ¬ q.Has a
def Range.Inside (r q : Range) : Prop := ∀ a, r.Has a → q.Has a

theorem range_apart {r q : Range} (order : r.start + r.size ≤ q.start) : r.Apart q := by
  intro _ one two
  have low := two.1
  have high := one.2
  omega

theorem apart_symm {r q : Range} (apart : r.Apart q) : q.Apart r := fun a one two => apart a two one

theorem range_inside {r q : Range} (low : q.start ≤ r.start) (high : r.start + r.size ≤ q.start + q.size) : r.Inside q :=
  fun _ within => ⟨Nat.le_trans low within.1,Nat.lt_of_lt_of_le within.2 high⟩

/-! ### Runs -/

/-- What `palloc_get_multiple` handed out. -/
structure Given where
  user : Bool
  pages : Addr
  page_cnt : BitVec 32
deriving DecidableEq

structure Allocator where
  init_ram_pages : BitVec 32
  pools : Pools
  given : List Given

inductive Op
  | palloc_get_multiple (flags page_cnt : BitVec 32) (pages : Addr)
  | palloc_free_multiple (g : Given)

def machine : Machine Allocator Op where
  Initial s := (256 < s.init_ram_pages.toNat ∧ s.init_ram_pages.toNat < 2 ^ 18) ∧ s.given = [] ∧
    ∃ user_page_limit ram memory, palloc_init s.init_ram_pages user_page_limit ram memory = some s.pools
  Step s op s' := match op with
    | .palloc_get_multiple flags page_cnt pages => ∃ pools, palloc_get_multiple s.pools flags page_cnt = some (pages,pools) ∧
        s' = { s with pools := pools, given := if pages = 0 then s.given else ⟨flags &&& PAL_USER ≠ 0,pages,page_cnt⟩ :: s.given }
    | .palloc_free_multiple g => g ∈ s.given ∧ ∃ pools, palloc_free_multiple s.pools g.pages g.page_cnt = some pools ∧
        s' = { s with pools := pools, given := s.given.erase g }

/-- The pages of a pool, and those of its bitmap. -/
def Pool.pages (p : Pool) : Range := ⟨p.base.toNat,4096 * p.map.bit_cnt⟩
def Pool.bitmap_pages (p : Pool) : Range := ⟨p.used_map.toNat,p.base.toNat - p.used_map.toNat⟩
def Given.range (g : Given) : Range := ⟨g.pages.toNat,4096 * g.page_cnt.toNat⟩

/-! ### The pools -/

section
variable {x step base page_cnt init_ram_pages limit : BitVec 32} {memory : Nat → BitVec 32} {pool : Pool} {p : Pools}

theorem div_round_up_toNat (positive : 0 < step.toNat) (small : x.toNat + step.toNat ≤ 2 ^ 32) :
    (DIV_ROUND_UP x step).toNat = (x.toNat + step.toNat - 1) / step.toNat := by
  have sum : (x + step - 1).toNat = x.toNat + step.toNat - 1 := by bv_omega
  rw [DIV_ROUND_UP,BitVec.toNat_udiv,sum]

theorem pages_toNat (small : x.toNat < 2 ^ 20) : (x * page_size).toNat = 4096 * x.toNat := by
  have size : page_size.toNat = 4096 := rfl
  rw [BitVec.toNat_mul,size,Nat.mul_comm,Nat.mod_eq_of_lt (by omega)]

/-- The pages that the bitmap of `n` pages takes. -/
def bm_pages (n : Nat) : Nat := (8 + 4 * ((n + 31) / 32) + 4095) / 4096

theorem buf_size_toNat (small : page_cnt.toNat < 2 ^ 18) :
    (bitmap_buf_size page_cnt).toNat = 8 + 4 * ((page_cnt.toNat + 31) / 32) := by
  have elements : (DIV_ROUND_UP page_cnt 32).toNat = (page_cnt.toNat + 31) / 32 :=
    div_round_up_toNat (by decide) (show page_cnt.toNat + 32 ≤ 2 ^ 32 by omega)
  rw [bitmap_buf_size]
  bv_omega

theorem bm_pages_toNat (small : page_cnt.toNat < 2 ^ 18) :
    (DIV_ROUND_UP (bitmap_buf_size page_cnt) page_size).toNat = bm_pages page_cnt.toNat := by
  have buf := buf_size_toNat small
  rw [div_round_up_toNat (by decide) (show _ + 4096 ≤ 2 ^ 32 by omega),buf]
  rfl

/-- A pool from `base` on: its bitmap, and behind it its pages. -/
structure Laid (pool : Pool) (base page_cnt : Nat) : Prop where
  used_map : pool.used_map.toNat = base
  aligned : pool.base.toNat % 4096 = 0
  bitmap : base + 8 + 4 * elem_cnt pool.map.bit_cnt ≤ pool.base.toNat
  pages : pool.base.toNat + 4096 * pool.map.bit_cnt = base + 4096 * page_cnt

theorem init_pool_spec (aligned : base.toNat % 4096 = 0) (small : page_cnt.toNat < 2 ^ 18)
    (fits : base.toNat + 4096 * page_cnt.toNat < 2 ^ 32) (made : init_pool base page_cnt memory = some pool) :
    Laid pool base.toNat page_cnt.toNat ∧ ∀ j < pool.map.bit_cnt, pool.map.has j = false := by
  have bm := bm_pages_toNat small
  unfold init_pool at made
  dsimp only at made
  generalize DIV_ROUND_UP (bitmap_buf_size page_cnt) page_size = bm_cnt at made bm
  split at made
  · cases made
  · next enough =>
    have enough : bm_cnt.toNat ≤ page_cnt.toNat := by
      rw [gt_iff_lt,BitVec.lt_def] at enough
      omega
    have rest : (page_cnt - bm_cnt).toNat = page_cnt.toNat - bm_cnt.toNat := by bv_omega
    obtain ⟨map,created,rfl⟩ := Option.map_eq_some_iff.mp made
    rw [bitmap_create_in_buf] at created
    split at created
    · next room =>
      obtain ⟨map',created',cnt,clear⟩ := bitmap_create_spec (page_cnt - bm_cnt).toNat memory
      obtain rfl := Option.some.inj (created'.symm.trans created)
      have bytes := pages_toNat (x := bm_cnt) (by omega)
      have start : (base + bm_cnt * page_size).toNat = base.toNat + 4096 * bm_cnt.toNat := by bv_omega
      have buf := @buf_size_toNat (page_cnt - bm_cnt) (by omega)
      rw [ge_iff_le,BitVec.le_def,buf,bytes,rest] at room
      refine ⟨⟨rfl,?_,?_,?_⟩,fun j below => clear j (by rw [← cnt]; exact below)⟩
      · show (base + bm_cnt * page_size).toNat % 4096 = 0
        omega
      · show base.toNat + 8 + 4 * elem_cnt map'.bit_cnt ≤ (base + bm_cnt * page_size).toNat
        rw [elem_cnt,ELEM_BITS,cnt,rest]
        omega
      · show (base + bm_cnt * page_size).toNat + 4096 * map'.bit_cnt = _
        rw [cnt,rest]
        omega
    · cases created

/-- The two pools share memory from 1 MB on. -/
structure Layout (ram_pages : Nat) (p : Pools) : Prop where
  small : ram_pages < 2 ^ 18
  split : ∃ kernel_pages user_pages, 256 + kernel_pages + user_pages = ram_pages ∧
    Laid p.kernel_pool 0xc0100000 kernel_pages ∧ Laid p.user_pool (0xc0100000 + 4096 * kernel_pages) user_pages

theorem free_pages_toNat (large : 256 < init_ram_pages.toNat) (small : init_ram_pages.toNat < 2 ^ 18) :
    ((ptov (init_ram_pages * page_size) - ptov (1024 * 1024)).sdiv page_size).toNat = init_ram_pages.toNat - 256 := by
  have bytes := pages_toNat (x := init_ram_pages) (by omega)
  have difference : (ptov (init_ram_pages * page_size) - ptov (1024 * 1024)).toNat = 4096 * (init_ram_pages.toNat - 256) := by
    rw [ptov,ptov,PHYS_BASE]
    bv_omega
  have positive : (ptov (init_ram_pages * page_size) - ptov (1024 * 1024)).msb = false := by
    rw [BitVec.msb_eq_decide,difference]
    exact decide_eq_false (by omega)
  rw [BitVec.sdiv_eq,positive]
  show ((ptov (init_ram_pages * page_size) - ptov (1024 * 1024)) / page_size).toNat = _
  have size : page_size.toNat = 4096 := rfl
  rw [BitVec.toNat_udiv,difference,size]
  omega

theorem palloc_init_spec {ram : Addr → Byte} {memory : Bool → Nat → BitVec 32} (large : 256 < init_ram_pages.toNat)
    (small : init_ram_pages.toNat < 2 ^ 18) (made : palloc_init init_ram_pages limit ram memory = some p) :
    Layout init_ram_pages.toNat p ∧ ∀ user, ∀ j < (p.pool user).map.bit_cnt, (p.pool user).map.has j = false := by
  have free_pages := free_pages_toNat large small
  unfold palloc_init at made
  split at made
  · dsimp only at made
    generalize (ptov (init_ram_pages * page_size) - ptov (1024 * 1024)).sdiv page_size = free at made free_pages
    have half : (free / 2).toNat = free.toNat / 2 := BitVec.toNat_udiv
    have user_pages : (if free / 2 > limit then limit else free / 2).toNat ≤ free.toNat / 2 := by
      split
      · next more =>
        rw [gt_iff_lt,BitVec.lt_def,half] at more
        omega
      · rw [half]
    generalize (if free / 2 > limit then limit else free / 2) = user_cnt at made user_pages
    have rest : (free - user_cnt).toNat = free.toNat - user_cnt.toNat := by bv_omega
    generalize free - user_cnt = kernel_cnt at made rest
    obtain ⟨kernel_pool,kernel,made⟩ := Option.bind_eq_some_iff.mp made
    obtain ⟨user_pool,user,made⟩ := Option.bind_eq_some_iff.mp made
    cases made
    have start : (ptov (1024 * 1024)).toNat = 0xc0100000 := rfl
    have bytes := pages_toNat (x := kernel_cnt) (by omega)
    have middle : (ptov (1024 * 1024) + kernel_cnt * page_size).toNat = 0xc0100000 + 4096 * kernel_cnt.toNat := by
      rw [BitVec.toNat_add,start,bytes,Nat.mod_eq_of_lt (by omega)]
    obtain ⟨kernel_laid,kernel_clear⟩ := init_pool_spec (by rw [start]) (by omega) (by rw [start]; omega) kernel
    obtain ⟨user_laid,user_clear⟩ := init_pool_spec (by rw [middle]; omega) (by omega) (by rw [middle]; omega) user
    rw [start] at kernel_laid
    rw [middle] at user_laid
    refine ⟨⟨small,kernel_cnt.toNat,user_cnt.toNat,by omega,kernel_laid,user_laid⟩,fun user => ?_⟩
    cases user with
    | false => exact kernel_clear
    | true => exact user_clear
  · cases made

/-- The four regions of memory: the pages of each bitmap, and behind them those of its pool. -/
def regions (p : Pools) : List Range :=
  [p.kernel_pool.bitmap_pages,p.kernel_pool.pages,p.user_pool.bitmap_pages,p.user_pool.pages]

/-- Memory, as the kernel sees it. -/
def ram_range (ram_pages : Nat) : Range := ⟨0xc0000000,4096 * ram_pages⟩

theorem regions_apart {ram_pages : Nat} (layout : Layout ram_pages p) :
    (regions p).Pairwise Range.Apart ∧ ∀ r ∈ regions p, r.Inside (ram_range ram_pages) := by
  obtain ⟨kernel_pages,user_pages,sum,kernel,user⟩ := layout.split
  have kernel_map := kernel.bitmap
  have kernel_end := kernel.pages
  have user_map := user.bitmap
  have user_end := user.pages
  have kernel_start := kernel.used_map
  have user_start := user.used_map
  have first : p.kernel_pool.bitmap_pages.start + p.kernel_pool.bitmap_pages.size = p.kernel_pool.pages.start := by
    show p.kernel_pool.used_map.toNat + (p.kernel_pool.base.toNat - p.kernel_pool.used_map.toNat) = p.kernel_pool.base.toNat
    omega
  have second : p.kernel_pool.pages.start + p.kernel_pool.pages.size = p.user_pool.bitmap_pages.start := by
    show p.kernel_pool.base.toNat + 4096 * p.kernel_pool.map.bit_cnt = p.user_pool.used_map.toNat
    omega
  have third : p.user_pool.bitmap_pages.start + p.user_pool.bitmap_pages.size = p.user_pool.pages.start := by
    show p.user_pool.used_map.toNat + (p.user_pool.base.toNat - p.user_pool.used_map.toNat) = p.user_pool.base.toNat
    omega
  have low : 0xc0100000 = p.kernel_pool.bitmap_pages.start := kernel_start.symm
  have high : p.user_pool.pages.start + p.user_pool.pages.size = 0xc0000000 + 4096 * ram_pages := by
    show p.user_pool.base.toNat + 4096 * p.user_pool.map.bit_cnt = _
    omega
  have ram : (ram_range ram_pages).start + (ram_range ram_pages).size = 0xc0000000 + 4096 * ram_pages := rfl
  have zero : (ram_range ram_pages).start = 0xc0000000 := rfl
  constructor
  · simp only [regions,List.pairwise_cons,List.mem_cons,List.not_mem_nil,or_false,forall_eq_or_imp,forall_eq,
      false_imp_iff,implies_true,List.Pairwise.nil,and_true]
    refine ⟨⟨?_,?_,?_⟩,⟨?_,?_⟩,?_⟩
    all_goals exact range_apart (by omega)
  · simp only [regions,List.mem_cons,List.not_mem_nil,or_false,forall_eq_or_imp,forall_eq]
    refine ⟨?_,?_,?_,?_⟩
    all_goals exact range_inside (by omega) (by omega)

/-- Where the pages of a pool are. -/
structure Placed (pool : Pool) : Prop where
  aligned : pool.base.toNat % 4096 = 0
  positive : 0 < pool.base.toNat
  top : pool.base.toNat + 4096 * pool.map.bit_cnt < 2 ^ 32

theorem pool_placed {ram_pages : Nat} (layout : Layout ram_pages p) (user : Bool) : Placed (p.pool user) := by
  obtain ⟨kernel_pages,user_pages,sum,kernel,also⟩ := layout.split
  have small := layout.small
  have kernel_map := kernel.bitmap
  have kernel_end := kernel.pages
  have user_map := also.bitmap
  have user_end := also.pages
  cases user with
  | false => exact ⟨kernel.aligned,show 0 < p.kernel_pool.base.toNat by omega,show p.kernel_pool.base.toNat + 4096 * p.kernel_pool.map.bit_cnt < 2 ^ 32 by omega⟩
  | true => exact ⟨also.aligned,show 0 < p.user_pool.base.toNat by omega,show p.user_pool.base.toNat + 4096 * p.user_pool.map.bit_cnt < 2 ^ 32 by omega⟩

/-- The pools of the kernel and of the user have no page in common. -/
theorem pools_apart {ram_pages : Nat} (layout : Layout ram_pages p) : p.kernel_pool.pages.Apart p.user_pool.pages := by
  obtain ⟨apart,-⟩ := regions_apart layout
  rw [regions,List.pairwise_cons,List.pairwise_cons] at apart
  exact apart.2.1 _ (by simp)

/-- The pool that is not chosen. -/
theorem other_apart {ram_pages : Nat} (layout : Layout ram_pages p) {one two : Bool} (other : one ≠ two) :
    (p.pool one).pages.Apart (p.pool two).pages := by
  have apart := pools_apart layout
  cases one with
  | false =>
    cases two with
    | false => exact absurd rfl other
    | true => exact apart
  | true =>
    cases two with
    | false => exact apart_symm apart
    | true => exact absurd rfl other

theorem page_toNat (placed : Placed pool) {k : Nat} (inside : k ≤ pool.map.bit_cnt) :
    (pool.base + page_size * BitVec.ofNat 32 k).toNat = pool.base.toNat + 4096 * k := by
  have top := placed.top
  have number : (BitVec.ofNat 32 k).toNat = k := by
    rw [BitVec.toNat_ofNat,Nat.mod_eq_of_lt (by omega)]
  have bytes := pages_toNat (x := BitVec.ofNat 32 k) (by omega)
  rw [BitVec.mul_comm,BitVec.toNat_add,bytes,number,Nat.mod_eq_of_lt (by omega)]

theorem with_map_pool (p : Pools) (user other : Bool) (map : Bitmap) :
    (p.with_map user map).pool other = if other = user then { p.pool other with map := map } else p.pool other := by
  cases user <;> cases other <;> rfl

theorem with_map_self (p : Pools) (user : Bool) : p.with_map user (p.pool user).map = p := by
  cases user <;> rfl

theorem with_map_ram (p : Pools) (user : Bool) (map : Bitmap) (ram : Addr → Byte) :
    { p.with_map user map with ram := ram } = { p with ram := ram }.with_map user map := by
  cases user <;> rfl

theorem layout_ram {ram_pages : Nat} (layout : Layout ram_pages p) (ram : Addr → Byte) : Layout ram_pages { p with ram := ram } :=
  ⟨layout.small,layout.split⟩

theorem layout_with_map {ram_pages : Nat} (layout : Layout ram_pages p) (user : Bool) {map : Bitmap}
    (cnt : map.bit_cnt = (p.pool user).map.bit_cnt) : Layout ram_pages (p.with_map user map) := by
  obtain ⟨kernel_pages,user_pages,sum,kernel,also⟩ := layout.split
  refine ⟨layout.small,kernel_pages,user_pages,sum,?_⟩
  cases user with
  | false =>
    have cnt : map.bit_cnt = p.kernel_pool.map.bit_cnt := cnt
    refine ⟨⟨kernel.used_map,kernel.aligned,?_,?_⟩,also⟩
    · show _ + 4 * elem_cnt map.bit_cnt ≤ _
      rw [cnt]
      exact kernel.bitmap
    · show _ + 4096 * map.bit_cnt = _
      rw [cnt]
      exact kernel.pages
  | true =>
    have cnt : map.bit_cnt = p.user_pool.map.bit_cnt := cnt
    refine ⟨kernel,also.used_map,also.aligned,?_,?_⟩
    · show _ + 4 * elem_cnt map.bit_cnt ≤ _
      rw [cnt]
      exact also.bitmap
    · show _ + 4096 * map.bit_cnt = _
      rw [cnt]
      exact also.pages

/-! ### The calls -/

/-- The flag for the user pool. -/
def wants_user (flags : BitVec 32) : Bool := flags &&& PAL_USER ≠ 0

/-- There is a run of pages that are not in use: it is found, and marked. -/
theorem get_found {ram_pages : Nat} {flags : BitVec 32} (layout : Layout ram_pages p) (some_ : page_cnt ≠ 0)
    {idx : Nat} {map : Bitmap} (fits : idx + page_cnt.toNat ≤ (p.pool (wants_user flags)).map.bit_cnt)
    (scanned : bitmap_scan_and_flip (p.pool (wants_user flags)).map 0 page_cnt.toNat false = some (some idx,map)) :
    ∃ pages ram, palloc_get_multiple p flags page_cnt = some (pages,{ p with ram := ram }.with_map (wants_user flags) map) ∧
      pages.toNat = (p.pool (wants_user flags)).base.toNat + 4096 * idx ∧ pages ≠ 0 := by
  have placed := pool_placed layout (wants_user flags)
  have place := page_toNat placed (k := idx) (by omega)
  have base : ((p.with_map (wants_user flags) map).pool (wants_user flags)).base = (p.pool (wants_user flags)).base := by
    rw [with_map_pool,if_pos rfl]
  have nonzero : (p.pool (wants_user flags)).base + page_size * BitVec.ofNat 32 idx ≠ 0 := by
    intro zero
    have zero := congrArg BitVec.toNat zero
    rw [place] at zero
    have positive := placed.positive
    have none_ : (0 : BitVec 32).toNat = 0 := rfl
    omega
  unfold palloc_get_multiple
  rw [if_neg some_]
  dsimp only
  have scanned : bitmap_scan_and_flip (p.pool (decide (flags &&& PAL_USER ≠ 0))).map 0 page_cnt.toNat false = _ := scanned
  rw [scanned]
  simp only [Option.bind_eq_bind,Option.bind_some,Option.elim_some]
  show ∃ pages ram, (if ((p.with_map (wants_user flags) map).pool (wants_user flags)).base + page_size * BitVec.ofNat 32 idx ≠ 0 then
    some ((((p.with_map (wants_user flags) map).pool (wants_user flags)).base + page_size * BitVec.ofNat 32 idx),_) else _) = _ ∧ _
  rw [base,if_pos nonzero]
  split
  · exact ⟨_,_,congrArg (fun p => some (_,p)) (with_map_ram _ _ _ _),place,nonzero⟩
  · exact ⟨_,(p.with_map (wants_user flags) map).ram,congrArg (fun p => some (_,p)) (with_map_ram _ _ _ _),place,nonzero⟩

/-- There is none. -/
theorem get_none {flags : BitVec 32} (some_ : page_cnt ≠ 0)
    (scanned : bitmap_scan_and_flip (p.pool (wants_user flags)).map 0 page_cnt.toNat false =
      some (none,(p.pool (wants_user flags)).map)) :
    palloc_get_multiple p flags page_cnt = if flags &&& PAL_ASSERT ≠ 0 then none else some (0,p) := by
  unfold palloc_get_multiple
  rw [if_neg some_]
  dsimp only
  have scanned : bitmap_scan_and_flip (p.pool (decide (flags &&& PAL_USER ≠ 0))).map 0 page_cnt.toNat false = _ := scanned
  rw [scanned]
  simp only [Option.bind_eq_bind,Option.bind_some,Option.elim_none,ne_eq,not_true_eq_false,if_false]
  rw [show p.with_map (decide ¬flags &&& PAL_USER = 0) (p.pool (wants_user flags)).map = p from with_map_self p _]

/-- A page of a pool is told from those of the other. -/
theorem page_from_pool_iff (placed : Placed pool) {page : Addr} (aligned : page.toNat % 4096 = 0) :
    page_from_pool pool page = true ↔ pool.pages.Has page.toNat := by
  have base_aligned := placed.aligned
  have top := placed.top
  have size : (bitmap_size pool.map).toNat = pool.map.bit_cnt := by
    rw [bitmap_size,BitVec.toNat_ofNat,Nat.mod_eq_of_lt (by omega)]
  have stop : (pg_no pool.base + bitmap_size pool.map).toNat = pool.base.toNat / 4096 + pool.map.bit_cnt := by
    rw [BitVec.toNat_add,pg_no_eq,size,Nat.mod_eq_of_lt (by omega)]
  rw [page_from_pool,Bool.and_eq_true,decide_eq_true_eq,decide_eq_true_eq,ge_iff_le,BitVec.le_def,BitVec.lt_def,stop,
    pg_no_eq,pg_no_eq]
  show _ ↔ pool.base.toNat ≤ page.toNat ∧ page.toNat < pool.base.toNat + 4096 * pool.map.bit_cnt
  constructor
  · rintro ⟨low,high⟩
    omega
  · rintro ⟨low,high⟩
    omega

/-- Pages that are in use are taken back, in their own pool. -/
theorem free_spec {ram_pages idx : Nat} {user : Bool} {pages : Addr} (layout : Layout ram_pages p)
    (place : pages.toNat = (p.pool user).base.toNat + 4096 * idx) (some_ : 0 < page_cnt.toNat)
    (fits : idx + page_cnt.toNat ≤ (p.pool user).map.bit_cnt)
    (used : ∀ j, idx ≤ j → j < idx + page_cnt.toNat → (p.pool user).map.has j = true) :
    page_from_pool (p.pool user) pages = true ∧ (user = true → page_from_pool p.kernel_pool pages = false) ∧
    ∃ map ram, palloc_free_multiple p pages page_cnt = some ({ p with ram := ram }.with_map user map) ∧
      map.bit_cnt = (p.pool user).map.bit_cnt ∧
      ∀ j, map.has j = if idx ≤ j ∧ j < idx + page_cnt.toNat then false else (p.pool user).map.has j := by
  have placed := pool_placed layout user
  have base_aligned := placed.aligned
  have positive := placed.positive
  have top := placed.top
  have aligned : pages.toNat % 4096 = 0 := by omega
  have inside : (p.pool user).pages.Has pages.toNat := by
    show (p.pool user).base.toNat ≤ pages.toNat ∧ pages.toNat < (p.pool user).base.toNat + 4096 * (p.pool user).map.bit_cnt
    omega
  have mine := (page_from_pool_iff placed aligned).mpr inside
  have kernel : user = true → page_from_pool p.kernel_pool pages = false := by
    rintro rfl
    rw [← Bool.not_eq_true,show p.kernel_pool = p.pool false from rfl,page_from_pool_iff (pool_placed layout false) aligned]
    exact fun also => pools_apart layout _ also inside
  refine ⟨mine,kernel,?_⟩
  have chosen : find_pool p pages = some user := by
    rw [find_pool]
    cases user with
    | false =>
      have mine : page_from_pool p.kernel_pool pages = true := mine
      rw [mine,if_pos rfl]
    | true =>
      have mine : page_from_pool p.user_pool pages = true := mine
      rw [kernel rfl,mine,if_neg Bool.false_ne_true,if_pos rfl]
  have ofs : pg_ofs pages = 0 := by
    refine BitVec.eq_of_toNat_eq ?_
    rw [pg_ofs,and_pgmask,aligned]
    rfl
  have nonzero : ¬(pages = 0 ∨ page_cnt = 0) := by
    rintro (rfl | rfl)
    · have none_ : (0 : BitVec 32).toNat = 0 := rfl
      omega
    · exact absurd some_ (by decide)
  have index : (pg_no pages - pg_no (p.pool user).base).toNat = idx := by
    have one := pg_no_eq pages
    have two := pg_no_eq (p.pool user).base
    rw [BitVec.toNat_sub_of_le (by rw [BitVec.le_def,one,two]; omega),one,two]
    omega
  obtain ⟨all,ran,found⟩ := bitmap_all_spec fits
  obtain ⟨map,set,cnt,bits⟩ := bitmap_set_multiple_spec (b := (p.pool user).map) false fits
  refine ⟨map,memset p.ram pages 0xcc (page_size * page_cnt),?_,cnt,bits⟩
  unfold palloc_free_multiple
  rw [if_neg (not_not.mpr ofs),if_neg nonzero,chosen]
  simp only [Option.bind_eq_bind,Option.bind_some]
  show (bitmap_all (p.pool user).map _ _).bind _ = _
  rw [index,ran,found.mpr used]
  show Option.map _ (bitmap_set_multiple (p.pool user).map _ _ _) = _
  rw [set]
  rfl

end

/-! ### Every run -/

/-- Page `j` of a pool. -/
def Pool.page (pool : Pool) (j : Nat) : Nat := pool.base.toNat + 4096 * j

/-- A range is a run of pages of a pool. -/
def Given.At (g : Given) (pool : Pool) (k : Nat) : Prop :=
  g.pages.toNat = pool.page k ∧ 0 < g.page_cnt.toNat ∧ k + g.page_cnt.toNat ≤ pool.map.bit_cnt

structure Sound (s : Allocator) : Prop where
  layout : Layout s.init_ram_pages.toNat s.pools
  inside : ∀ g ∈ s.given, ∃ k, g.At (s.pools.pool g.user) k
  /-- A bit is set as long as its page is handed out. -/
  used : ∀ user, ∀ j < (s.pools.pool user).map.bit_cnt, ((s.pools.pool user).map.has j = true ↔
    ∃ g ∈ s.given, g.user = user ∧ g.range.Has ((s.pools.pool user).page j))
  apart : s.given.Pairwise fun g h => g.range.Apart h.range

section
variable {s : Allocator} {g h : Given} {pool : Pool} {k j a : Nat} {user : Bool} {flags page_cnt : BitVec 32}

theorem at_page (placed : g.At pool k) : g.range.Has (pool.page j) ↔ k ≤ j ∧ j < k + g.page_cnt.toNat := by
  obtain ⟨place,-,-⟩ := placed
  show g.pages.toNat ≤ pool.page j ∧ pool.page j < g.pages.toNat + 4096 * g.page_cnt.toNat ↔ _
  rw [place,Pool.page,Pool.page]
  omega

/-- With a byte, a range has the whole page. -/
theorem at_byte (placed : g.At pool k) (has : g.range.Has a) : ∃ j, k ≤ j ∧ j < k + g.page_cnt.toNat ∧
    pool.page j ≤ a ∧ a < pool.page (j + 1) := by
  obtain ⟨place,-,-⟩ := placed
  obtain ⟨low,high⟩ := has
  have low : g.pages.toNat ≤ a := low
  have high : a < g.pages.toNat + 4096 * g.page_cnt.toNat := high
  rw [place,Pool.page] at low high
  refine ⟨(a - pool.base.toNat) / 4096,?_,?_,?_,?_⟩
  · omega
  · omega
  · rw [Pool.page]
    omega
  · rw [Pool.page]
    omega

theorem page_unique {i : Nat} (low : pool.page i ≤ a) (high : a < pool.page (i + 1)) (low' : pool.page j ≤ a)
    (high' : a < pool.page (j + 1)) : i = j := by
  rw [Pool.page] at low high low' high'
  omega

theorem at_inside (placed : g.At pool k) : g.range.Inside pool.pages := by
  obtain ⟨place,-,fits⟩ := placed
  rw [Pool.page] at place
  refine range_inside ?_ ?_
  · show pool.base.toNat ≤ g.pages.toNat
    omega
  · show g.pages.toNat + 4096 * g.page_cnt.toNat ≤ pool.base.toNat + 4096 * pool.map.bit_cnt
    omega

/-- Pages that are not in use are apart from all that were handed out. -/
theorem clear_apart (sound : Sound s) (placed : g.At (s.pools.pool g.user) k)
    (clear : ∀ j, k ≤ j → j < k + g.page_cnt.toNat → (s.pools.pool g.user).map.has j = false) :
    ∀ h ∈ s.given, g.range.Apart h.range := by
  intro h member a one two
  obtain ⟨k',place⟩ := sound.inside h member
  by_cases same : h.user = g.user
  · rw [same] at place
    obtain ⟨j,low,high,from_,upto⟩ := at_byte placed one
    obtain ⟨j',low',high',from_',upto'⟩ := at_byte place two
    obtain rfl := page_unique from_ upto from_' upto'
    have fits := placed.2.2
    have set := (sound.used g.user j (by omega)).mpr ⟨h,member,same,(at_page place).mpr ⟨low',high'⟩⟩
    rw [clear j low high] at set
    cases set
  · exact other_apart sound.layout (Ne.symm same) a (at_inside placed a one) (at_inside place a two)

/-- A run of pages of the pool that are not handed out. A run is not empty. -/
def FreeRun (s : Allocator) (user : Bool) (page_cnt : BitVec 32) : Prop := 0 < page_cnt.toNat ∧
  ∃ k, k + page_cnt.toNat ≤ (s.pools.pool user).map.bit_cnt ∧ ∀ j, k ≤ j → j < k + page_cnt.toNat →
    ∀ g ∈ s.given, ¬ g.range.Has ((s.pools.pool user).page j)

/-- In the bitmap it is a run of clear bits. -/
theorem freeRun_iff (sound : Sound s) (some_ : 0 < page_cnt.toNat) : FreeRun s user page_cnt ↔
    ∃ k, k + page_cnt.toNat ≤ (s.pools.pool user).map.bit_cnt ∧ (s.pools.pool user).map.Run k page_cnt.toNat false := by
  have clear : ∀ j < (s.pools.pool user).map.bit_cnt, (s.pools.pool user).map.has j = false ↔
      ∀ g ∈ s.given, ¬ g.range.Has ((s.pools.pool user).page j) := by
    intro j below
    rw [← Bool.not_eq_true,sound.used user j below]
    constructor
    · intro none_ g member has
      obtain ⟨k,place⟩ := sound.inside g member
      by_cases same : g.user = user
      · exact none_ ⟨g,member,same,has⟩
      · refine other_apart sound.layout same _ (at_inside place _ has) ?_
        show (s.pools.pool user).base.toNat ≤ _ ∧ _ < (s.pools.pool user).base.toNat + 4096 * _
        rw [Pool.page]
        omega
    · rintro none_ ⟨g,member,-,has⟩
      exact none_ g member has
  rw [FreeRun,and_iff_right some_]
  refine exists_congr fun k => and_congr_right fun fits => forall_congr' fun j => forall_congr' fun low => forall_congr' fun high => ?_
  exact (clear j (by omega)).symm

theorem sound_start (initial : machine.Initial s) : Sound s := by
  obtain ⟨⟨large,small⟩,none_,limit,ram,memory,made⟩ := initial
  obtain ⟨layout,clear⟩ := palloc_init_spec large small made
  refine ⟨layout,?_,?_,?_⟩
  · rw [none_]
    exact fun g member => by cases member
  · intro user j below
    rw [none_,clear user j below]
    simp
  · rw [none_]
    exact .nil

/-- The pool that changes keeps its pages. -/
theorem at_with_map {p : Pools} {map : Bitmap} {other : Bool} (ram : Addr → Byte) (cnt : map.bit_cnt = (p.pool user).map.bit_cnt)
    (placed : g.At (p.pool other) k) : g.At (({ p with ram := ram }.with_map user map).pool other) k := by
  rw [with_map_pool]
  split
  · next same =>
    subst same
    exact ⟨placed.1,placed.2.1,by rw [show ({ (p.pool other) with map := map } : Pool).map.bit_cnt = _ from cnt]; exact placed.2.2⟩
  · exact placed

theorem sound_get {map : Bitmap} {pages : Addr} {ram : Addr → Byte} (sound : Sound s)
    (place : pages.toNat = (s.pools.pool user).base.toNat + 4096 * k) (some_ : 0 < page_cnt.toNat)
    (fits : k + page_cnt.toNat ≤ (s.pools.pool user).map.bit_cnt)
    (run : (s.pools.pool user).map.Run k page_cnt.toNat false) (cnt : map.bit_cnt = (s.pools.pool user).map.bit_cnt)
    (bits : ∀ j, map.has j = if k ≤ j ∧ j < k + page_cnt.toNat then true else (s.pools.pool user).map.has j) :
    Sound { s with pools := { s.pools with ram := ram }.with_map user map, given := ⟨user,pages,page_cnt⟩ :: s.given } := by
  have placed : (⟨user,pages,page_cnt⟩ : Given).At (s.pools.pool user) k := ⟨place,some_,fits⟩
  refine ⟨layout_with_map (layout_ram sound.layout ram) user cnt,?_,?_,?_⟩
  · intro g member
    rcases List.mem_cons.mp member with rfl | before
    · exact ⟨k,at_with_map ram cnt placed⟩
    · obtain ⟨k',place'⟩ := sound.inside g before
      exact ⟨k',at_with_map ram cnt place'⟩
  · intro other j below
    show ((Pools.with_map _ user map).pool other).map.has j = true ↔ ∃ g ∈ (_ : List Given), g.user = other ∧
      g.range.Has (((Pools.with_map _ user map).pool other).page j)
    have below : j < ((Pools.with_map { s.pools with ram := ram } user map).pool other).map.bit_cnt := below
    rw [with_map_pool] at below ⊢
    by_cases same : other = user
    · subst same
      rw [if_pos rfl] at below ⊢
      have below : j < map.bit_cnt := below
      rw [cnt] at below
      have before := sound.used other j below
      show map.has j = true ↔ ∃ g ∈ (_ : List Given), g.user = other ∧ g.range.Has ((s.pools.pool other).page j)
      rw [bits]
      by_cases new : k ≤ j ∧ j < k + page_cnt.toNat
      · rw [if_pos new]
        exact ⟨fun _ => ⟨_,List.mem_cons_self,rfl,(at_page placed).mpr new⟩,fun _ => rfl⟩
      · rw [if_neg new,before]
        constructor
        · rintro ⟨g,member,rest⟩
          exact ⟨g,List.mem_cons_of_mem _ member,rest⟩
        · rintro ⟨g,member,mine,has⟩
          rcases List.mem_cons.mp member with rfl | old
          · exact absurd ((at_page placed).mp has) new
          · exact ⟨g,old,mine,has⟩
    · rw [if_neg same] at below ⊢
      refine (sound.used other j below).trans ⟨?_,?_⟩
      · rintro ⟨g,member,rest⟩
        exact ⟨g,List.mem_cons_of_mem _ member,rest⟩
      · rintro ⟨g,member,mine,has⟩
        rcases List.mem_cons.mp member with rfl | old
        · exact absurd mine.symm same
        · exact ⟨g,old,mine,has⟩
  · exact List.pairwise_cons.mpr ⟨clear_apart sound placed run,sound.apart⟩

/-- What is handed out at one time. -/
theorem erase_apart (apart : s.given.Pairwise fun g h => g.range.Apart h.range) (member : g ∈ s.given) :
    (s.given.erase g).Pairwise (fun g h => g.range.Apart h.range) ∧ ∀ h ∈ s.given.erase g, g.range.Apart h.range := by
  have sorted := (List.perm_cons_erase member).pairwise apart fun both => apart_symm both
  exact ⟨(List.pairwise_cons.mp sorted).2,(List.pairwise_cons.mp sorted).1⟩

theorem sound_free {map : Bitmap} {ram : Addr → Byte} (sound : Sound s) (member : g ∈ s.given)
    (placed : g.At (s.pools.pool g.user) k) (cnt : map.bit_cnt = (s.pools.pool g.user).map.bit_cnt)
    (bits : ∀ j, map.has j = if k ≤ j ∧ j < k + g.page_cnt.toNat then false else (s.pools.pool g.user).map.has j) :
    Sound { s with pools := { s.pools with ram := ram }.with_map g.user map, given := s.given.erase g } := by
  obtain ⟨rest,apart⟩ := erase_apart sound.apart member
  refine ⟨layout_with_map (layout_ram sound.layout ram) g.user cnt,?_,?_,rest⟩
  · intro h left
    obtain ⟨k',place'⟩ := sound.inside h (List.mem_of_mem_erase left)
    exact ⟨k',at_with_map ram cnt place'⟩
  · intro other j below
    show ((Pools.with_map _ g.user map).pool other).map.has j = true ↔ ∃ h ∈ (_ : List Given), h.user = other ∧
      h.range.Has (((Pools.with_map _ g.user map).pool other).page j)
    have below : j < ((Pools.with_map { s.pools with ram := ram } g.user map).pool other).map.bit_cnt := below
    rw [with_map_pool] at below ⊢
    by_cases same : other = g.user
    · subst same
      rw [if_pos rfl] at below ⊢
      have below : j < map.bit_cnt := below
      rw [cnt] at below
      have before := sound.used g.user j below
      show map.has j = true ↔ ∃ h ∈ (_ : List Given), h.user = g.user ∧ h.range.Has ((s.pools.pool g.user).page j)
      rw [bits]
      by_cases gone : k ≤ j ∧ j < k + g.page_cnt.toNat
      · rw [if_pos gone]
        refine ⟨fun set => absurd set Bool.false_ne_true,?_⟩
        rintro ⟨h,left,-,has⟩
        exact absurd has (apart h left _ ((at_page placed).mpr gone))
      · rw [if_neg gone,before]
        constructor
        · rintro ⟨h,there,mine,has⟩
          have other : h ≠ g := by
            rintro rfl
            exact gone ((at_page placed).mp has)
          exact ⟨h,(List.mem_erase_of_ne other).mpr there,mine,has⟩
        · rintro ⟨h,left,rest⟩
          exact ⟨h,List.mem_of_mem_erase left,rest⟩
    · rw [if_neg same] at below ⊢
      refine (sound.used other j below).trans ⟨?_,?_⟩
      · rintro ⟨h,there,mine,has⟩
        have apart : h ≠ g := by
          rintro rfl
          exact same mine.symm
        exact ⟨h,(List.mem_erase_of_ne apart).mpr there,mine,has⟩
      · rintro ⟨h,left,rest⟩
        exact ⟨h,List.mem_of_mem_erase left,rest⟩

theorem get_cases (sound : Sound s) (flags : BitVec 32) (some_ : page_cnt ≠ 0) :
    (FreeRun s (wants_user flags) page_cnt ∧ ∃ pages pools, palloc_get_multiple s.pools flags page_cnt = some (pages,pools) ∧
      pages ≠ 0 ∧ Sound { s with pools := pools, given := ⟨wants_user flags,pages,page_cnt⟩ :: s.given }) ∨
    (¬ FreeRun s (wants_user flags) page_cnt ∧
      palloc_get_multiple s.pools flags page_cnt = if flags &&& PAL_ASSERT ≠ 0 then none else some (0,s.pools)) := by
  have positive : 0 < page_cnt.toNat := by
    refine Nat.pos_of_ne_zero fun zero => some_ (BitVec.eq_of_toNat_eq ?_)
    rw [zero]
    rfl
  obtain ⟨r,map,flipped,cnt,scanned,result⟩ :=
    bitmap_scan_and_flip_spec (b := (s.pools.pool (wants_user flags)).map) false page_cnt.toNat (Nat.zero_le _)
  obtain ⟨r',scanned',which⟩ := bitmap_scan_spec (b := (s.pools.pool (wants_user flags)).map) false page_cnt.toNat (Nat.zero_le _)
  obtain rfl := Option.some.inj (scanned.symm.trans scanned')
  rw [freeRun_iff sound positive]
  cases r with
  | some idx =>
    obtain ⟨-,fits,run,bits⟩ := result
    obtain ⟨pages,ram,got,place,nonzero⟩ := get_found sound.layout some_ fits flipped
    refine .inl ⟨⟨idx,fits,run⟩,pages,_,got,nonzero,sound_get sound place positive fits run cnt ?_⟩
    simpa using bits
  | none =>
    subst result
    refine .inr ⟨?_,get_none some_ flipped⟩
    rintro ⟨k,fits,run⟩
    exact which k (Nat.zero_le k) fits run

theorem free_given (sound : Sound s) (member : g ∈ s.given) :
    page_from_pool (s.pools.pool g.user) g.pages = true ∧ (g.user = true → page_from_pool s.pools.kernel_pool g.pages = false) ∧
    ∃ pools, palloc_free_multiple s.pools g.pages g.page_cnt = some pools ∧
      Sound { s with pools := pools, given := s.given.erase g } := by
  obtain ⟨k,placed⟩ := sound.inside g member
  have used : ∀ j, k ≤ j → j < k + g.page_cnt.toNat → (s.pools.pool g.user).map.has j = true := by
    intro j low high
    have fits := placed.2.2
    exact (sound.used g.user j (by omega)).mpr ⟨g,member,rfl,(at_page placed).mpr ⟨low,high⟩⟩
  obtain ⟨mine,kernel,map,ram,freed,cnt,bits⟩ := free_spec sound.layout placed.1 placed.2.1 placed.2.2 used
  exact ⟨mine,kernel,_,freed,sound_free sound member placed cnt bits⟩

theorem sound_step {s' : Allocator} {op : Op} (sound : Sound s) (step : machine.Step s op s') : Sound s' := by
  cases op with
  | palloc_get_multiple flags page_cnt pages =>
    obtain ⟨pools,got,rfl⟩ := step
    by_cases zero : page_cnt = 0
    · rw [palloc_get_multiple,if_pos zero] at got
      cases got
      exact sound
    · rcases get_cases sound flags zero with ⟨-,pages',pools',got',nonzero,sound'⟩ | ⟨-,refused⟩
      · have same := Option.some.inj (got'.symm.trans got)
        cases same
        rw [if_neg nonzero]
        exact sound'
      · rw [got] at refused
        split at refused
        · cases refused
        · cases refused
          exact sound
  | palloc_free_multiple g =>
    obtain ⟨member,pools,freed,rfl⟩ := step
    obtain ⟨-,-,pools',freed',sound'⟩ := free_given sound member
    obtain rfl := Option.some.inj (freed'.symm.trans freed)
    exact sound'

theorem reaches_sound {Guard : Allocator → Op → Prop} (reached : Reaches machine Guard s) : Sound s :=
  reaches_invariant Sound (fun _ => sound_start) (fun _ _ _ sound _ step => sound_step sound step) reached

/-- The pools and the pages of their bitmaps have no page in common, nor have the ranges
    that are handed out, each of them in the pool that was asked for. A request is
    refused only where that pool has no run of free pages, and what is freed is found in
    its pool. -/
theorem pages_disjoint (reached : Reaches machine Anything s) :
    ((regions s.pools).Pairwise Range.Apart ∧ (∀ r ∈ regions s.pools, r.Inside (ram_range s.init_ram_pages.toNat)) ∧
      ∀ user, 8 + 4 * elem_cnt (s.pools.pool user).map.bit_cnt ≤ (s.pools.pool user).bitmap_pages.size) ∧
    (s.given.Pairwise (fun g h => g.range.Apart h.range) ∧ ∀ g ∈ s.given, g.range.Inside (s.pools.pool g.user).pages) ∧
    (∀ flags page_cnt, (FreeRun s (wants_user flags) page_cnt →
        ∃ pages s', machine.Step s (.palloc_get_multiple flags page_cnt pages) s') ∧
      ∀ pages s', machine.Step s (.palloc_get_multiple flags page_cnt pages) s' →
        (pages = 0 ↔ ¬ FreeRun s (wants_user flags) page_cnt) ∧
        (pages ≠ 0 → s'.given = ⟨wants_user flags,pages,page_cnt⟩ :: s.given)) ∧
    ∀ g ∈ s.given, find_pool s.pools g.pages = some g.user ∧ ∃ s', machine.Step s (.palloc_free_multiple g) s' := by
  have sound := reaches_sound reached
  obtain ⟨apart,inside⟩ := regions_apart sound.layout
  refine ⟨⟨apart,inside,fun user => ?_⟩,⟨sound.apart,fun g member => ?_⟩,fun flags page_cnt => ⟨fun free => ?_,
    fun pages s' step => ?_⟩,fun g member => ?_⟩
  · obtain ⟨kernel_pages,user_pages,sum,kernel,also⟩ := sound.layout.split
    have kernel_map := kernel.bitmap
    have kernel_start := kernel.used_map
    have user_map := also.bitmap
    have user_start := also.used_map
    cases user with
    | false =>
      show _ + 4 * elem_cnt s.pools.kernel_pool.map.bit_cnt ≤ s.pools.kernel_pool.base.toNat - s.pools.kernel_pool.used_map.toNat
      omega
    | true =>
      show _ + 4 * elem_cnt s.pools.user_pool.map.bit_cnt ≤ s.pools.user_pool.base.toNat - s.pools.user_pool.used_map.toNat
      omega
  · obtain ⟨k,placed⟩ := sound.inside g member
    exact at_inside placed
  · have some_ : page_cnt ≠ 0 := by
      rintro rfl
      exact absurd free.1 (by decide)
    rcases get_cases sound flags some_ with ⟨-,pages,pools,got,-⟩ | ⟨none_,-⟩
    · exact ⟨pages,_,pools,got,rfl⟩
    · exact absurd free none_
  · obtain ⟨pools,got,rfl⟩ := step
    refine ⟨?_,fun nonzero => if_neg nonzero⟩
    by_cases zero : page_cnt = 0
    · subst zero
      rw [palloc_get_multiple,if_pos rfl] at got
      cases got
      exact ⟨fun _ free => absurd free.1 (by decide),fun _ => rfl⟩
    · rcases get_cases sound flags zero with ⟨free,pages',pools',got',nonzero,-⟩ | ⟨none_,refused⟩
      · have same := Option.some.inj (got'.symm.trans got)
        cases same
        exact ⟨fun null => absurd null nonzero,fun none_ => absurd free none_⟩
      · rw [got] at refused
        split at refused
        · cases refused
        · cases refused
          exact ⟨fun _ => none_,fun _ => rfl⟩
  · obtain ⟨mine,kernel,pools,freed,-⟩ := free_given sound member
    refine ⟨?_,_,member,pools,freed,rfl⟩
    rw [find_pool]
    cases user : g.user with
    | false =>
      rw [user] at mine
      rw [show page_from_pool s.pools.kernel_pool g.pages = true from mine,if_pos rfl]
    | true =>
      rw [user] at mine
      rw [kernel user,show page_from_pool s.pools.user_pool g.pages = true from mine,if_neg Bool.false_ne_true,if_pos rfl]

/-- Of four free pages one is the user's, and a second request is refused. -/
theorem pages_disjoint_four : ∃ s, Reaches machine Anything s ∧ s.given = [⟨true,0xc0103000,1⟩] ∧
    palloc_get_multiple s.pools PAL_USER 1 = some (0,s.pools) ∧ ¬ FreeRun s true 1 := by
  have start : ∃ pools, palloc_init 260 100 (fun _ => 0) (fun _ _ => 0) = some pools ∧ machine.Initial ⟨260,pools,[]⟩ :=
    ⟨_,rfl,⟨show 256 < 260 ∧ 260 < 2 ^ 18 by decide,rfl,100,fun _ => 0,fun _ _ => 0,rfl⟩⟩
  obtain ⟨pools,made,start⟩ := start
  cases made
  have got := @Reaches.next _ _ _ Anything _ _ (Op.palloc_get_multiple PAL_USER 1 0xc0103000) (.start start) trivial ⟨_,rfl,rfl⟩
  exact ⟨_,got,rfl,rfl,((pages_disjoint got).2.2.1 PAL_USER 1).2 0 _ ⟨_,rfl,rfl⟩ |>.1.mp rfl⟩

end

end Pintos.Palloc
