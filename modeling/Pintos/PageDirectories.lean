import Pintos.Images
import Mathlib.Data.List.Nodup

/-!
`userprog/pagedir.c` on the words of memory: a page directory is a page of words that
name page tables, whose words name frames; `threads/pte.h` says how. A user page is
mapped by a word whose flags share it with the address of the frame.

`palloc_get_page` gives some page that is not in use, or none. What other code does
between the calls is a step that leaves page directories and page tables alone. TLBs
are not modelled. `freed` and `mapped` are not in the code: the first lists the pages
that `palloc_free_page` frees, latest first, the second is the map that a page directory
stands for.
-/
namespace Pintos.PageDirectories
open Pintos.Machines Pintos.UserMemory
open Pintos.Images (PTE_W PTE_U vtop pte_create_user pg_no_split pte_page pte_present vtop_toNat pte_addr)
set_option linter.unusedSimpArgs false

abbrev Word := BitVec 32

def PTE_A : Word := 0x20
def PTE_D : Word := 0x40

structure Memory where
  init_page_dir : Addr
  init_ram_pages : Nat
  /-- The words of the page at a kernel address. -/
  page : Addr → Word → Word
  /-- The pages of both pools, and those in use. -/
  pool : Addr → Bool
  in_use : Addr → Bool
  freed : List Addr

def Memory.setWord (m : Memory) (p : Addr) (i w : Word) : Memory :=
  { m with page := fun q j => if q = p ∧ j = i then w else m.page q j }
def Memory.fill (m : Memory) (p : Addr) (w : Word) : Memory :=
  { m with page := fun q => if q = p then fun _ => w else m.page q }
def Memory.setUse (m : Memory) (p : Addr) (used : Bool) : Memory :=
  { m with in_use := fun q => if q = p then used else m.in_use q }

/-! ### The code -/

/-- `answer` is the page that is found; the null pointer is zero. -/
def palloc_get_page (m : Memory) (zero : Bool) (answer : Option Addr) : Option (Addr × Memory) :=
  match answer with
  | none => some (0,m)
  | some p =>
    if m.pool p ∧ m.in_use p = false then some (p,if zero then (m.setUse p true).fill p 0 else m.setUse p true)
    else none

def palloc_free_page (m : Memory) (page : Addr) : Option Memory :=
  if pg_ofs page = 0 then
    if page = 0 then some m
    else if m.pool page ∧ m.in_use page then
      some { (m.fill page 0xcccccccc).setUse page false with freed := page :: m.freed }
    else none
  else none

/-- The pointers that the entries name, with the assertions of `pte.h` and `ptov`. -/
def pde_create (pt : Addr) : Option Word :=
  if pg_ofs pt = 0 ∧ PHYS_BASE ≤ pt then some (vtop pt ||| PTE_U ||| PTE_P ||| PTE_W) else none
def pte_page_of (pte : Word) : Option Addr := if pte &&& PTE_ADDR < PHYS_BASE then some (pte_get_page pte) else none
def pde_get_pt (pde : Word) : Option Addr := if pde &&& PTE_P ≠ 0 then pte_page_of pde else none

/-- `&pt[pt_no (vaddr)]` of the page table that is there. -/
def entry_of (m : Memory) (pd vaddr : Addr) : Option (Option (Addr × Word) × Memory) :=
  (pde_get_pt (m.page pd (pd_no vaddr))).map fun pt => (some (pt,pt_no vaddr),m)

def lookup_page (m : Memory) (pd vaddr : Addr) (create : Bool) (answer : Option Addr) : Option (Option (Addr × Word) × Memory) :=
  if pd = 0 ∨ (create ∧ ¬ is_user_vaddr vaddr) then none
  else if m.page pd (pd_no vaddr) = 0 then
    if create then do
      let (pt,m) ← palloc_get_page m true answer
      if pt = 0 then some (none,m)
      else do
        let pde ← pde_create pt
        entry_of (m.setWord pd (pd_no vaddr) pde) pd vaddr
    else some (none,m)
  else entry_of m pd vaddr

def pagedir_create (m : Memory) (answer : Option Addr) : Option (Addr × Memory) := do
  let (pd,m) ← palloc_get_page m false answer
  if pd = 0 then some (0,m)
  else some (pd,{ m with page := fun q => if q = pd then m.page m.init_page_dir else m.page q })

def pagedir_set_page (m : Memory) (pd upage kpage : Addr) (writable : Bool) (answer : Option Addr) : Option (Bool × Memory) :=
  if pg_ofs upage = 0 ∧ pg_ofs kpage = 0 ∧ is_user_vaddr upage ∧ PHYS_BASE ≤ kpage ∧
      (vtop kpage >>> PGBITS).toNat < m.init_ram_pages ∧ pd ≠ m.init_page_dir then do
    let (pte,m) ← lookup_page m pd upage true answer
    match pte with
    | none => some (false,m)
    | some (pt,i) =>
      if m.page pt i &&& PTE_P = 0 then some (true,m.setWord pt i (pte_create_user kpage writable)) else none
  else none

def pagedir_get_page (m : Memory) (pd uaddr : Addr) : Option Addr :=
  if is_user_vaddr uaddr then do
    let (pte,m) ← lookup_page m pd uaddr false none
    match pte with
    | none => some 0
    | some (pt,i) =>
      if m.page pt i &&& PTE_P ≠ 0 then (pte_page_of (m.page pt i)).map fun page => page + pg_ofs uaddr else some 0
  else none

def pagedir_clear_page (m : Memory) (pd upage : Addr) : Option Memory :=
  if pg_ofs upage = 0 ∧ is_user_vaddr upage then do
    let (pte,m) ← lookup_page m pd upage false none
    match pte with
    | none => some m
    | some (pt,i) => if m.page pt i &&& PTE_P ≠ 0 then some (m.setWord pt i (m.page pt i &&& ~~~PTE_P)) else some m
  else none

/-- Whether a flag is set in the entry of a page, and a write of the flag. -/
def flag (bit : Word) (m : Memory) (pd vpage : Addr) : Option Bool := do
  let (pte,m) ← lookup_page m pd vpage false none
  match pte with
  | none => some false
  | some (pt,i) => some (m.page pt i &&& bit != 0)

def set_flag (bit : Word) (m : Memory) (pd vpage : Addr) (value : Bool) : Option Memory := do
  let (pte,m) ← lookup_page m pd vpage false none
  match pte with
  | none => some m
  | some (pt,i) => some (m.setWord pt i (if value then m.page pt i ||| bit else m.page pt i &&& ~~~bit))

def pagedir_is_dirty (m : Memory) (pd vpage : Addr) : Option Bool := flag PTE_D m pd vpage
def pagedir_set_dirty (m : Memory) (pd vpage : Addr) (dirty : Bool) : Option Memory := set_flag PTE_D m pd vpage dirty
def pagedir_is_accessed (m : Memory) (pd vpage : Addr) : Option Bool := flag PTE_A m pd vpage
def pagedir_set_accessed (m : Memory) (pd vpage : Addr) (accessed : Bool) : Option Memory := set_flag PTE_A m pd vpage accessed

/-- The loops of `pagedir_destroy`: over a page table, and over the user half of the
    page directory. -/
def destroy_entry (pt : Addr) (m : Memory) (j : Nat) : Option Memory :=
  if m.page pt (.ofNat 32 j) &&& PTE_P ≠ 0 then do
    let page ← pte_page_of (m.page pt (.ofNat 32 j))
    palloc_free_page m page
  else some m

def destroy_table (pd : Addr) (m : Memory) (i : Nat) : Option Memory :=
  if m.page pd (.ofNat 32 i) &&& PTE_P ≠ 0 then do
    let pt ← pde_get_pt (m.page pd (.ofNat 32 i))
    let m ← (List.range 1024).foldlM (destroy_entry pt) m
    palloc_free_page m pt
  else some m

def pagedir_destroy (m : Memory) (pd : Addr) : Option Memory :=
  if pd = 0 then some m
  else if pd = m.init_page_dir then none
  else do
    let m ← (List.range (pd_no PHYS_BASE).toNat).foldlM (destroy_table pd) m
    palloc_free_page m pd

/-! ### Words -/

/-- All of an entry but what `pagedir_set_dirty` and `pagedir_set_accessed` write. -/
def KEPT : Word := ~~~(PTE_A ||| PTE_D)

variable {m m' : Memory} {pd pt a b kpage upage : Addr} {w v i j bit : Word} {writable : Bool}

theorem kept_and (part : i &&& KEPT = i) (same : w &&& KEPT = v &&& KEPT) : w &&& i = v &&& i := by
  have inside : KEPT &&& i = i := (BitVec.and_comm ..).trans part
  rw [← inside,← BitVec.and_assoc,same,BitVec.and_assoc]

theorem kept_present (same : w &&& KEPT = v &&& KEPT) : w &&& PTE_P = v &&& PTE_P := kept_and (by decide) same
theorem kept_writable (same : w &&& KEPT = v &&& KEPT) : w &&& PTE_W = v &&& PTE_W := kept_and (by decide) same
theorem kept_page (same : w &&& KEPT = v &&& KEPT) : pte_page_of w = pte_page_of v := by
  rw [pte_page_of,pte_page_of,pte_get_page,pte_get_page,kept_and (by decide) same]

/-- Writes of the two flags. -/
theorem kept_set (value : Bool) (flag : bit &&& KEPT = 0) :
    (if value then w ||| bit else w &&& ~~~bit) &&& KEPT = w &&& KEPT := by
  cases value with
  | true =>
    show (w ||| bit) &&& KEPT = _
    rw [BitVec.and_or_distrib_right,flag]
    exact BitVec.or_zero
  | false =>
    show w &&& ~~~bit &&& KEPT = _
    have outside : ~~~bit &&& KEPT = KEPT := by
      refine BitVec.eq_of_getLsbD_eq fun k below => ?_
      have clear := congrArg (fun x => x.getLsbD k) flag
      simp only [BitVec.getLsbD_and,BitVec.getLsbD_zero] at clear
      rw [BitVec.getLsbD_and,BitVec.getLsbD_not]
      cases set : bit.getLsbD k <;> simp_all
    rw [BitVec.and_assoc,outside]

theorem aligned_toNat (aligned : pg_ofs kpage = 0) : kpage.toNat % 4096 = 0 := by
  rw [← and_pgmask]
  exact congrArg BitVec.toNat aligned

theorem pte_create_user_page (aligned : pg_ofs kpage = 0) (kernel : PHYS_BASE ≤ kpage) :
    pte_page_of (pte_create_user kpage writable) = some kpage := by
  have offset := aligned_toNat aligned
  have low := vtop_toNat kernel
  have small : pte_create_user kpage writable &&& PTE_ADDR < PHYS_BASE := by
    rw [BitVec.lt_def,pte_addr,low]
    have top := kpage.isLt
    show _ < 0xc0000000
    omega
  rw [pte_page_of,if_pos small,pte_page offset kernel]

/-- A page directory entry is that of a writable page. -/
theorem pde_create_eq (aligned : pg_ofs pt = 0) (kernel : PHYS_BASE ≤ pt) : pde_create pt = some (pte_create_user pt true) := by
  rw [pde_create,if_pos ⟨aligned,kernel⟩,pte_create_user,BitVec.or_assoc,BitVec.or_assoc,BitVec.or_assoc,BitVec.or_assoc]
  exact congrArg (fun flags => some (vtop pt ||| flags)) (by decide)

theorem pde_get_pt_create (aligned : pg_ofs pt = 0) (kernel : PHYS_BASE ≤ pt) :
    pde_get_pt (pte_create_user pt true) = some pt := by
  rw [pde_get_pt,if_pos (pte_present pt true),pte_create_user_page aligned kernel]

theorem pde_get_pt_zero : pde_get_pt 0 = none := by decide

/-! ### Page directories in memory -/

/-- Every entry of the page directory in use names a page table of its own, in the
    kernel half those of `init_page_dir`. -/
structure Laid (m : Memory) (pd : Addr) : Prop where
  pools : ∀ p, m.pool p = true → pg_ofs p = 0 ∧ PHYS_BASE ≤ p
  dir : m.pool pd = true ∧ m.in_use pd = true ∧ pd ≠ m.init_page_dir
  init : m.in_use m.init_page_dir = true
  named : ∀ i : Word, i.toNat < 1024 → m.page pd i ≠ 0 → ∃ pt, pde_get_pt (m.page pd i) = some pt ∧ m.in_use pt = true ∧
    pt ≠ pd ∧ pt ≠ m.init_page_dir ∧ (i.toNat < 768 → m.pool pt = true)
  apart : ∀ (i j : Word) pt, i.toNat < 768 → j.toNat < 1024 → pde_get_pt (m.page pd i) = some pt →
    pde_get_pt (m.page pd j) = some pt → i = j
  kernel : ∀ i : Word, 768 ≤ i.toNat → i.toNat < 1024 → m.page pd i = m.page m.init_page_dir i

/-- The page table entry of an address, zero where there is no page table. -/
def word_at (m : Memory) (pd a : Addr) : Word := (pde_get_pt (m.page pd (pd_no a))).elim 0 fun pt => m.page pt (pt_no a)

theorem pd_no_toNat (a : Addr) : (pd_no a).toNat = a.toNat / 4194304 := by
  rw [pd_no,PDSHIFT,BitVec.toNat_ushiftRight,Nat.shiftRight_eq_div_pow]

theorem pd_no_lt (a : Addr) : (pd_no a).toNat < 1024 := by
  have top := a.isLt
  rw [pd_no_toNat]
  omega

theorem pd_no_user : (pd_no a).toNat < 768 ↔ a < PHYS_BASE := by
  rw [pd_no_toNat,user_lt]
  omega

theorem is_user : is_user_vaddr a = true ↔ a < PHYS_BASE := by
  rw [is_user_vaddr,decide_eq_true_eq]

theorem nonnull (kernel : PHYS_BASE ≤ a) : a ≠ 0 := by
  rintro rfl
  exact absurd kernel (by decide)

theorem laid_nonnull (laid : Laid m pd) : pd ≠ 0 := nonnull (laid.pools pd laid.dir.1).2

theorem table_cases (laid : Laid m pd) (a : Addr) :
    (m.page pd (pd_no a) = 0 ∧ pde_get_pt (m.page pd (pd_no a)) = none) ∨
      (m.page pd (pd_no a) ≠ 0 ∧ ∃ pt, pde_get_pt (m.page pd (pd_no a)) = some pt) := by
  by_cases zero : m.page pd (pd_no a) = 0
  · exact .inl ⟨zero,by rw [zero]; exact pde_get_pt_zero⟩
  · obtain ⟨pt,named,-⟩ := laid.named (pd_no a) (pd_no_lt a) zero
    exact .inr ⟨zero,pt,named⟩

theorem named_of_table (laid : Laid m pd) (table : pde_get_pt (m.page pd i) = some pt) (below : i.toNat < 1024) :
    m.in_use pt = true ∧ pt ≠ pd ∧ pt ≠ m.init_page_dir ∧ (i.toNat < 768 → m.pool pt = true) := by
  have nonzero : m.page pd i ≠ 0 := by
    intro zero
    rw [zero,pde_get_pt_zero] at table
    cases table
  obtain ⟨pt',named,facts⟩ := laid.named i below nonzero
  cases table.symm.trans named
  exact facts

/-- `lookup_page` of a page directory, which it leaves as it is. -/
theorem lookup_spec (laid : Laid m pd) (a : Addr) (answer : Option Addr) :
    lookup_page m pd a false answer = some ((pde_get_pt (m.page pd (pd_no a))).map fun pt => (pt,pt_no a),m) := by
  have valid : ¬ (pd = 0 ∨ (false = true ∧ ¬ is_user_vaddr a = true)) := by
    rintro (null | ⟨create,-⟩)
    · exact laid_nonnull laid null
    · cases create
  rw [lookup_page,if_neg valid]
  rcases table_cases laid a with ⟨zero,none_⟩ | ⟨nonzero,pt,table⟩
  · rw [if_pos zero,none_]
    rfl
  · rw [if_neg nonzero,entry_of,table]
    rfl

/-- A word is written into the page table that an address has. -/
theorem laid_write (laid : Laid m pd) (table : pde_get_pt (m.page pd i) = some pt) (below : i.toNat < 1024) (j w : Word) :
    Laid (m.setWord pt j w) pd ∧ ∀ k, (m.setWord pt j w).page pd k = m.page pd k := by
  obtain ⟨-,notDir,notInit,-⟩ := named_of_table laid table below
  have dir : ∀ k, (m.setWord pt j w).page pd k = m.page pd k := fun k => if_neg fun both => notDir both.1.symm
  refine ⟨⟨laid.pools,laid.dir,laid.init,?_,?_,?_⟩,dir⟩
  · intro k low nonzero
    rw [dir] at nonzero ⊢
    exact laid.named k low nonzero
  · intro k l pt' low lowToo first second
    rw [dir] at first second
    exact laid.apart k l pt' low lowToo first second
  · intro k high low
    rw [dir,laid.kernel k high low]
    exact (if_neg fun both => notInit both.1.symm).symm

theorem word_at_setWord (laid : Laid m pd) (table : pde_get_pt (m.page pd i) = some pt) (below : i.toNat < 1024)
    (j w : Word) (b : Addr) :
    word_at (m.setWord pt j w) pd b =
      if pde_get_pt (m.page pd (pd_no b)) = some pt ∧ pt_no b = j then w else word_at m pd b := by
  rw [word_at,word_at,(laid_write laid table below j w).2]
  cases pde_get_pt (m.page pd (pd_no b)) with
  | none => rfl
  | some pt' => simp [Memory.setWord]

/-- The entry of a user page is of this page only. -/
theorem word_at_write (laid : Laid m pd) (table : pde_get_pt (m.page pd (pd_no a)) = some pt) (user : a < PHYS_BASE) (w : Word)
    (b : Addr) : word_at (m.setWord pt (pt_no a) w) pd b = if pg_no b = pg_no a then w else word_at m pd b := by
  rw [word_at_setWord laid table (pd_no_lt a)]
  refine if_congr ?_ rfl rfl
  rw [pg_no_split]
  constructor
  · rintro ⟨other,slot⟩
    exact ⟨(laid.apart _ _ pt (pd_no_user.mpr user) (pd_no_lt b) table other).symm,slot⟩
  · rintro ⟨directory,slot⟩
    exact ⟨by rw [directory]; exact table,slot⟩

/-- An entry of the kernel is of no user page. -/
theorem word_at_kernel (laid : Laid m pd) (table : pde_get_pt (m.page pd (pd_no a)) = some pt) (kernel : PHYS_BASE ≤ a) (w : Word)
    (user : b < PHYS_BASE) : word_at (m.setWord pt (pt_no a) w) pd b = word_at m pd b := by
  rw [word_at_setWord laid table (pd_no_lt a)]
  refine if_neg ?_
  rintro ⟨other,-⟩
  have same := laid.apart _ _ pt (pd_no_user.mpr user) (pd_no_lt a) other table
  have low := pd_no_user.mpr user
  rw [same,pd_no_user] at low
  exact absurd low (BitVec.not_lt.mpr kernel)

theorem word_at_same (same : m'.page pd (pd_no a) = m.page pd (pd_no a))
    (tables : ∀ pt, pde_get_pt (m.page pd (pd_no a)) = some pt → m'.page pt = m.page pt) : word_at m' pd a = word_at m pd a := by
  rw [word_at,word_at,same]
  cases table : pde_get_pt (m.page pd (pd_no a)) with
  | none => rfl
  | some pt => exact congrFun (tables pt table) _

/-- A page that was free is now a page table, all zero. -/
theorem laid_table (laid : Laid m pd) (user : a < PHYS_BASE) (missing : m.page pd (pd_no a) = 0) (pooled : m.pool pt = true)
    (free : m.in_use pt = false) (made : m' = ((m.setUse pt true).fill pt 0).setWord pd (pd_no a) (pte_create_user pt true)) :
    Laid m' pd ∧ pde_get_pt (m'.page pd (pd_no a)) = some pt ∧ (∀ j, m'.page pt j = 0) ∧ (∀ b, word_at m' pd b = word_at m pd b) ∧
      ∀ i, i ≠ pd_no a → m'.page pd i = m.page pd i := by
  obtain ⟨aligned,high⟩ := laid.pools pt pooled
  have fresh {p : Addr} (used : m.in_use p = true) : p ≠ pt := by
    rintro rfl
    rw [free] at used
    cases used
  have notDir := fresh laid.dir.2.1
  have notInit := fresh laid.init
  have dir (i : Word) : m'.page pd i = if i = pd_no a then pte_create_user pt true else m.page pd i := by
    simp [made,Memory.setWord,Memory.fill,Memory.setUse,notDir]
  have others (p : Addr) (notPd : p ≠ pd) : m'.page p = if p = pt then fun _ => 0 else m.page p := by
    funext j
    simp [made,Memory.setWord,Memory.fill,Memory.setUse,notPd]
  have use (p : Addr) : m'.in_use p = if p = pt then true else m.in_use p := by
    simp [made,Memory.setWord,Memory.fill,Memory.setUse]
  have constant : m'.pool = m.pool ∧ m'.init_page_dir = m.init_page_dir := by
    simp [made,Memory.setWord,Memory.fill,Memory.setUse]
  obtain ⟨pool,init⟩ := constant
  have own : pde_get_pt (m'.page pd (pd_no a)) = some pt := by
    rw [dir,if_pos rfl]
    exact pde_get_pt_create aligned high
  have elsewhere (i : Word) (other : i ≠ pd_no a) : m'.page pd i = m.page pd i := by rw [dir,if_neg other]
  have inUse {p : Addr} (used : m.in_use p = true) : m'.in_use p = true := by
    rw [use]
    split <;> simp [used]
  refine ⟨⟨?_,?_,?_,?_,?_,?_⟩,own,?_,?_,elsewhere⟩
  · rw [pool]
    exact laid.pools
  · rw [pool,init]
    exact ⟨laid.dir.1,inUse laid.dir.2.1,laid.dir.2.2⟩
  · rw [init]
    exact inUse laid.init
  · intro i below nonzero
    rw [init,pool]
    by_cases here : i = pd_no a
    · subst here
      exact ⟨pt,own,by rw [use,if_pos rfl],notDir.symm,notInit.symm,fun _ => pooled⟩
    · rw [elsewhere i here] at nonzero ⊢
      obtain ⟨pt',named,used,facts⟩ := laid.named i below nonzero
      exact ⟨pt',named,inUse used,facts⟩
  · intro i j pt' low below first second
    -- A page table that was there is not the new one.
    have old {k : Word} (other : k ≠ pd_no a) (below : k.toNat < 1024) (named : pde_get_pt (m'.page pd k) = some pt) : False := by
      rw [elsewhere k other] at named
      exact fresh (named_of_table laid named below).1 rfl
    by_cases here : i = pd_no a
    · subst here
      cases own.symm.trans first
      by_contra other
      exact old (fun same => other same.symm) below second
    · by_cases there : j = pd_no a
      · subst there
        cases own.symm.trans second
        exact (old here (by omega) first).elim
      · rw [elsewhere i here] at first
        rw [elsewhere j there] at second
        exact laid.apart i j pt' low below first second
  · intro i low below
    have other : i ≠ pd_no a := by
      rintro rfl
      exact absurd (pd_no_user.mpr user) (Nat.not_lt.mpr low)
    rw [elsewhere i other,init,others _ laid.dir.2.2.symm,if_neg notInit]
    exact laid.kernel i low below
  · intro j
    rw [others pt notDir.symm,if_pos rfl]
  · intro b
    by_cases here : pd_no b = pd_no a
    · rw [word_at,word_at,here,own,missing,pde_get_pt_zero]
      show m'.page pt (pt_no b) = 0
      rw [others pt notDir.symm,if_pos rfl]
    · refine word_at_same (elsewhere _ here) fun pt' named => ?_
      obtain ⟨used,notPd,-⟩ := named_of_table laid named (pd_no_lt b)
      rw [others pt' notPd,if_neg (fresh used)]

/-! ### The calls -/

/-- What a call for the page of `a` keeps: the kernel half, and every other page. -/
structure Beside (m m' : Memory) (pd a : Addr) : Prop where
  laid : Laid m' pd
  dir : ∀ i : Word, 768 ≤ i.toNat → m'.page pd i = m.page pd i
  others : ∀ b, a < PHYS_BASE ∨ b < PHYS_BASE → pg_no b ≠ pg_no a → word_at m' pd b = word_at m pd b

theorem beside_refl (laid : Laid m pd) : Beside m m pd a := ⟨laid,fun _ _ => rfl,fun _ _ _ => rfl⟩

/-- The entry of a page is written. -/
theorem beside_write (laid : Laid m pd) (table : pde_get_pt (m.page pd (pd_no a)) = some pt) (w : Word) :
    Beside m (m.setWord pt (pt_no a) w) pd a := by
  obtain ⟨laid',dir⟩ := laid_write laid table (pd_no_lt a) (pt_no a) w
  refine ⟨laid',fun i _ => dir i,fun b user other => ?_⟩
  by_cases low : a < PHYS_BASE
  · rw [word_at_write laid table low,if_neg other]
  · exact word_at_kernel laid table (BitVec.not_lt.mp low) w (user.resolve_left low)

theorem word_of_table (table : pde_get_pt (m.page pd (pd_no a)) = some pt) : m.page pt (pt_no a) = word_at m pd a := by
  rw [word_at,table]
  rfl

theorem word_missing (missing : pde_get_pt (m.page pd (pd_no a)) = none) : word_at m pd a = 0 := by
  rw [word_at,missing]
  rfl

theorem get_page_spec (laid : Laid m pd) (user : a < PHYS_BASE) : pagedir_get_page m pd a =
    if word_at m pd a &&& PTE_P ≠ 0 then (pte_page_of (word_at m pd a)).map fun page => page + pg_ofs a else some 0 := by
  rw [pagedir_get_page,if_pos (is_user.mpr user),lookup_spec laid]
  cases table : pde_get_pt (m.page pd (pd_no a)) with
  | none =>
    rw [word_missing table]
    rfl
  | some pt =>
    rw [← word_of_table table]
    rfl

theorem flag_spec (laid : Laid m pd) (bit a : Word) : flag bit m pd a = some (word_at m pd a &&& bit != 0) := by
  rw [flag,lookup_spec laid]
  cases table : pde_get_pt (m.page pd (pd_no a)) with
  | none =>
    rw [word_missing table]
    simp
  | some pt =>
    rw [← word_of_table table]
    rfl

/-- A write of a flag leaves every mapping as it is. -/
theorem set_flag_spec {value : Bool} (laid : Laid m pd) (flag : bit &&& KEPT = 0) (ran : set_flag bit m pd a value = some m') :
    Beside m m' pd a ∧ ∀ b, word_at m' pd b &&& KEPT = word_at m pd b &&& KEPT := by
  rw [set_flag,lookup_spec laid] at ran
  cases table : pde_get_pt (m.page pd (pd_no a)) with
  | none =>
    rw [table] at ran
    cases ran
    exact ⟨beside_refl laid,fun _ => rfl⟩
  | some pt =>
    rw [table] at ran
    cases ran
    refine ⟨beside_write laid table _,fun b => ?_⟩
    rw [word_at_setWord laid table (pd_no_lt a)]
    split
    · next here =>
      rw [kept_set value flag,word_at,here.1,← here.2]
      rfl
    · rfl

theorem clear_page_spec (laid : Laid m pd) (ran : pagedir_clear_page m pd a = some m') : a < PHYS_BASE ∧ Beside m m' pd a ∧
    ∀ b, pg_no b = pg_no a → word_at m' pd b &&& PTE_P = 0 := by
  rw [pagedir_clear_page] at ran
  split at ran
  · next valid =>
    have user := is_user.mp valid.2
    rw [lookup_spec laid] at ran
    refine ⟨user,?_⟩
    have page {b : Addr} (same : pg_no b = pg_no a) : word_at m pd b = word_at m pd a := by
      rw [word_at,word_at,(pg_no_split.mp same).1,(pg_no_split.mp same).2]
    cases table : pde_get_pt (m.page pd (pd_no a)) with
    | none =>
      rw [table] at ran
      cases ran
      refine ⟨beside_refl laid,fun b same => ?_⟩
      rw [page same,word_missing table]
      rfl
    | some pt =>
      rw [table] at ran
      simp only [Option.map_some,Option.bind_eq_bind,Option.bind_some,word_of_table table] at ran
      split at ran
      · cases ran
        refine ⟨beside_write laid table _,fun b same => ?_⟩
        rw [word_at_write laid table user,if_pos same,BitVec.and_assoc,show ~~~PTE_P &&& PTE_P = 0 by decide]
        exact BitVec.and_zero
      · next absent =>
        cases ran
        refine ⟨beside_refl laid,fun b same => ?_⟩
        rw [page same]
        exact Decidable.not_not.mp absent
  · cases ran

/-- `lookup_page` with `create`, of a user page: there is no memory for a page table, or
    there is one now. -/
theorem lookup_create_spec {answer : Option Addr} {r : Option (Addr × Word) × Memory} (laid : Laid m pd) (user : a < PHYS_BASE)
    (ran : lookup_page m pd a true answer = some r) :
    r = (none,m) ∨ ∃ pt, r.1 = some (pt,pt_no a) ∧ pde_get_pt (r.2.page pd (pd_no a)) = some pt ∧ Beside m r.2 pd a ∧
      ∀ b, word_at r.2 pd b = word_at m pd b := by
  have valid : ¬ (pd = 0 ∨ (true = true ∧ ¬ is_user_vaddr a = true)) := by
    rintro (null | ⟨-,kernel⟩)
    · exact laid_nonnull laid null
    · exact kernel (is_user.mpr user)
  rw [lookup_page,if_neg valid] at ran
  rcases table_cases laid a with ⟨missing,-⟩ | ⟨nonzero,pt,table⟩
  · rw [if_pos missing,if_pos rfl] at ran
    obtain ⟨⟨pt,m₁⟩,takes,rest⟩ := Option.bind_eq_some_iff.mp ran
    unfold palloc_get_page at takes
    split at takes
    · cases takes
      cases rest
      exact .inl rfl
    · next p =>
      split at takes
      · next free =>
        obtain ⟨rfl,made⟩ := Prod.mk.inj (Option.some.inj takes)
        obtain ⟨aligned,high⟩ := laid.pools _ free.1
        rw [if_pos rfl] at made
        simp only [← made,nonnull high,↓reduceIte,pde_create_eq aligned high,Option.bind_eq_bind,Option.bind_some] at rest
        obtain ⟨laid',table,-,words,elsewhere⟩ := laid_table laid user missing free.1 free.2 rfl
        simp only [entry_of,table,Option.map_some] at rest
        cases rest
        refine .inr ⟨_,rfl,table,⟨laid',fun i high => elsewhere i ?_,fun b _ _ => words b⟩,words⟩
        rintro rfl
        exact absurd (pd_no_user.mpr user) (Nat.not_lt.mpr high)
      · cases takes
  · rw [if_neg nonzero,entry_of,table] at ran
    cases ran
    exact .inr ⟨pt,rfl,table,beside_refl laid,fun _ => rfl⟩

theorem set_page_spec {answer : Option Addr} {done : Bool} (laid : Laid m pd)
    (ran : pagedir_set_page m pd a kpage writable answer = some (done,m')) :
    a < PHYS_BASE ∧ pg_ofs kpage = 0 ∧ PHYS_BASE ≤ kpage ∧ Beside m m' pd a ∧
      ∀ b, pg_no b = pg_no a → word_at m' pd b = if done then pte_create_user kpage writable else word_at m pd b := by
  rw [pagedir_set_page] at ran
  split at ran
  · next valid =>
    have user := is_user.mp valid.2.2.1
    refine ⟨user,valid.2.1,valid.2.2.2.1,?_⟩
    obtain ⟨⟨pte,m₁⟩,looks,rest⟩ := Option.bind_eq_some_iff.mp ran
    rcases lookup_create_spec laid user looks with same | ⟨pt,found,table,beside,words⟩
    · cases same
      cases rest
      exact ⟨beside_refl laid,fun _ _ => rfl⟩
    · dsimp only at found table beside words
      subst found
      dsimp only at rest
      split at rest
      · cases rest
        have written := beside_write beside.laid table (pte_create_user kpage writable)
        refine ⟨⟨written.laid,fun i high => (written.dir i high).trans (beside.dir i high),fun b low other => ?_⟩,fun b same => ?_⟩
        · rw [written.others b low other,words]
        · rw [word_at_write beside.laid table user,if_pos same]
          rfl
      · cases rest
  · cases ran

/-! ### Runs -/

structure Dir where
  memory : Memory
  pd : Addr
  /-- By the number of a user page, what it was last set to. -/
  mapped : Word → Option (Addr × Bool)

inductive Op
  | set_page (upage kpage : Addr) (writable : Bool) (answer : Option Addr)
  | clear_page (upage : Addr)
  | set_dirty (vpage : Addr) (dirty : Bool)
  | set_accessed (vpage : Addr) (accessed : Bool)

def Op.page : Op → Addr
  | .set_page upage _ _ _ | .clear_page upage => upage
  | .set_dirty vpage _ | .set_accessed vpage _ => vpage

def call (d : Dir) : Op → Option Dir
  | .set_page upage kpage writable answer => (pagedir_set_page d.memory d.pd upage kpage writable answer).map fun (done,m) =>
      { d with
        memory := m
        mapped := if done then Function.update d.mapped (pg_no upage) (some (kpage,writable)) else d.mapped }
  | .clear_page upage => (pagedir_clear_page d.memory d.pd upage).map fun m =>
      { d with memory := m, mapped := Function.update d.mapped (pg_no upage) none }
  | .set_dirty vpage dirty => (pagedir_set_dirty d.memory d.pd vpage dirty).map fun m => { d with memory := m }
  | .set_accessed vpage accessed => (pagedir_set_accessed d.memory d.pd vpage accessed).map fun m => { d with memory := m }

/-- The page directory, `init_page_dir` and the page tables of the page directory. -/
def Structural (m : Memory) (pd p : Addr) : Prop :=
  p = pd ∨ p = m.init_page_dir ∨ ∃ i : Word, i.toNat < 1024 ∧ pde_get_pt (m.page pd i) = some p

/-- Other code takes and gives back pages, and writes to any but these. -/
structure Elsewhere (m m' : Memory) (pd : Addr) : Prop where
  constant : m'.pool = m.pool ∧ m'.init_page_dir = m.init_page_dir
  page : ∀ p, Structural m pd p → m'.page p = m.page p
  in_use : ∀ p, Structural m pd p → m'.in_use p = m.in_use p

inductive Event
  | call (op : Op)
  | other (m : Memory)

def Step (d : Dir) : Event → Dir → Prop
  | .call op, d' => call d op = some d'
  | .other m, d' => Elsewhere d.memory m d.pd ∧ d' = { d with memory := m }

/-- As `paging_init` leaves it: no user page is mapped, and the kernel's page tables
    are in use. -/
structure Paged (m : Memory) : Prop where
  pools : ∀ p, m.pool p = true → pg_ofs p = 0 ∧ PHYS_BASE ≤ p
  init : m.in_use m.init_page_dir = true
  user : ∀ i : Word, i.toNat < 768 → m.page m.init_page_dir i = 0
  kernel : ∀ i : Word, i.toNat < 1024 → m.page m.init_page_dir i ≠ 0 →
    ∃ pt, pde_get_pt (m.page m.init_page_dir i) = some pt ∧ m.in_use pt = true ∧ pt ≠ m.init_page_dir

def machine : Machine Dir Event where
  Initial d := ∃ m answer, Paged m ∧ pagedir_create m answer = some (d.pd,d.memory) ∧ d.pd ≠ 0 ∧ d.mapped = fun _ => none
  Step := Step

/-- What a user page is set to, and its entry. -/
def Agrees : Option (Addr × Bool) → Word → Prop
  | none, w => w &&& PTE_P = 0
  | some (kpage,writable), w => w &&& KEPT = pte_create_user kpage writable &&& KEPT ∧ pg_ofs kpage = 0 ∧ PHYS_BASE ≤ kpage

structure Sound (d : Dir) : Prop where
  laid : Laid d.memory d.pd
  agrees : ∀ a < PHYS_BASE, Agrees (d.mapped (pg_no a)) (word_at d.memory d.pd a)

variable {d d' : Dir} {op : Op}

theorem agrees_kept {f : Option (Addr × Bool)} (agrees : Agrees f w) (same : v &&& KEPT = w &&& KEPT) : Agrees f v := by
  cases f with
  | none => exact (kept_present same).trans agrees
  | some f => exact ⟨same.trans agrees.1,agrees.2⟩

theorem sound_create {answer : Option Addr} (paged : Paged m) (ran : pagedir_create m answer = some (pd,m')) (made : pd ≠ 0) :
    Laid m' pd ∧ ∀ a < PHYS_BASE, word_at m' pd a = 0 := by
  obtain ⟨⟨found,m₁⟩,takes,rest⟩ := Option.bind_eq_some_iff.mp ran
  unfold palloc_get_page at takes
  split at takes
  · cases takes
    cases rest
    exact absurd rfl made
  · next p =>
    split at takes
    · next free =>
      obtain ⟨same,taken⟩ := Prod.mk.inj (Option.some.inj takes)
      rw [if_neg Bool.false_ne_true] at taken
      have high := (paged.pools p free.1).2
      subst same taken
      simp only [if_neg (nonnull high)] at rest
      obtain ⟨same,copied⟩ := Prod.mk.inj (Option.some.inj rest)
      subst same
      have notInit : m.init_page_dir ≠ p := by
        intro same
        have used := paged.init
        rw [same,free.2] at used
        cases used
      have dir (i : Word) : m'.page p i = m.page m.init_page_dir i := by simp [← copied,Memory.setUse]
      have others {q : Addr} (other : q ≠ p) : m'.page q = m.page q := by simp [← copied,Memory.setUse,other]
      have use (q : Addr) : m'.in_use q = if q = p then true else m.in_use q := by simp [← copied,Memory.setUse]
      have constant : m'.pool = m.pool ∧ m'.init_page_dir = m.init_page_dir := by simp [← copied,Memory.setUse]
      obtain ⟨pool,init⟩ := constant
      refine ⟨⟨?_,?_,?_,?_,?_,?_⟩,?_⟩
      · rw [pool]
        exact paged.pools
      · rw [pool,init,use,if_pos rfl]
        exact ⟨free.1,rfl,notInit.symm⟩
      · rw [init,use,if_neg notInit]
        exact paged.init
      · intro i below nonzero
        rw [dir] at nonzero ⊢
        obtain ⟨pt,named,used,other⟩ := paged.kernel i below nonzero
        have notDir : pt ≠ p := by
          rintro rfl
          rw [free.2] at used
          cases used
        rw [init]
        exact ⟨pt,named,by rw [use,if_neg notDir]; exact used,notDir,other,fun low => absurd (paged.user i low) nonzero⟩
      · intro i j pt low _ first _
        rw [dir,paged.user i low,pde_get_pt_zero] at first
        cases first
      · intro i _ _
        rw [dir,init,others notInit]
      · intro a user
        rw [word_at,dir,paged.user _ (pd_no_user.mpr user),pde_get_pt_zero]
        rfl
    · cases takes

/-- What a call does to the map and to the memory. -/
theorem call_spec (laid : Laid d.memory d.pd) (ran : call d op = some d') :
    d'.pd = d.pd ∧ Beside d.memory d'.memory d.pd op.page ∧
    (∀ n, n ≠ pg_no op.page → d'.mapped n = d.mapped n) ∧
    (∀ b < PHYS_BASE, pg_no b = pg_no op.page → Agrees (d.mapped (pg_no b)) (word_at d.memory d.pd b) →
      Agrees (d'.mapped (pg_no b)) (word_at d'.memory d.pd b)) ∧
    ∀ b, op.page < PHYS_BASE ∨ word_at d'.memory d.pd b &&& KEPT = word_at d.memory d.pd b &&& KEPT := by
  have flags {bit : Word} {value : Bool} (a : Addr) (flag : bit &&& KEPT = 0) {m : Memory} (ran : set_flag bit d.memory d.pd a value = some m) :
      Beside d.memory m d.pd a ∧ (∀ n, n ≠ pg_no a → d.mapped n = d.mapped n) ∧
      (∀ b < PHYS_BASE, pg_no b = pg_no a → Agrees (d.mapped (pg_no b)) (word_at d.memory d.pd b) →
        Agrees (d.mapped (pg_no b)) (word_at m d.pd b)) ∧
      ∀ b, a < PHYS_BASE ∨ word_at m d.pd b &&& KEPT = word_at d.memory d.pd b &&& KEPT := by
    obtain ⟨beside,kept⟩ := set_flag_spec laid flag ran
    exact ⟨beside,fun _ _ => rfl,fun b _ _ agrees => agrees_kept agrees (kept b),fun b => .inr (kept b)⟩
  cases op with
  | set_page upage kpage writable answer =>
    obtain ⟨⟨done,m⟩,sets,rfl⟩ := Option.map_eq_some_iff.mp ran
    obtain ⟨user,aligned,kernel,beside,own⟩ := set_page_spec laid sets
    refine ⟨rfl,beside,fun n other => ?_,fun b _ same agrees => ?_,fun _ => .inl user⟩
    · cases done with
      | false => rfl
      | true => exact Function.update_of_ne other _ _
    · have same : pg_no b = pg_no upage := same
      dsimp only
      rw [own b same]
      cases done with
      | false => exact agrees
      | true =>
        rw [if_pos rfl,if_pos rfl,same,Function.update_self]
        exact ⟨rfl,aligned,kernel⟩
  | clear_page upage =>
    obtain ⟨m,clears,rfl⟩ := Option.map_eq_some_iff.mp ran
    obtain ⟨user,beside,own⟩ := clear_page_spec laid clears
    refine ⟨rfl,beside,fun n other => Function.update_of_ne other _ _,fun b _ same _ => ?_,fun _ => .inl user⟩
    have same : pg_no b = pg_no upage := same
    dsimp only
    rw [same,Function.update_self]
    exact own b same
  | set_dirty vpage dirty =>
    obtain ⟨m,sets,rfl⟩ := Option.map_eq_some_iff.mp ran
    exact ⟨rfl,flags vpage (by decide) sets⟩
  | set_accessed vpage accessed =>
    obtain ⟨m,sets,rfl⟩ := Option.map_eq_some_iff.mp ran
    exact ⟨rfl,flags vpage (by decide) sets⟩

theorem elsewhere_spec (laid : Laid m pd) (other : Elsewhere m m' pd) : Laid m' pd ∧ ∀ a, word_at m' pd a = word_at m pd a := by
  obtain ⟨pool,init⟩ := other.constant
  have dir : m'.page pd = m.page pd := other.page pd (.inl rfl)
  refine ⟨⟨?_,?_,?_,?_,?_,?_⟩,fun a => ?_⟩
  · rw [pool]
    exact laid.pools
  · rw [pool,init,other.in_use pd (.inl rfl)]
    exact laid.dir
  · rw [init,other.in_use _ (.inr (.inl rfl))]
    exact laid.init
  · intro i below nonzero
    rw [dir] at nonzero ⊢
    obtain ⟨pt,named,facts⟩ := laid.named i below nonzero
    rw [pool,init]
    exact ⟨pt,named,by rw [other.in_use pt (.inr (.inr ⟨i,below,named⟩))]; exact facts⟩
  · rw [dir]
    exact laid.apart
  · intro i high below
    rw [dir,init,other.page _ (.inr (.inl rfl))]
    exact laid.kernel i high below
  · exact word_at_same (congrFun dir _) fun pt named => other.page pt (.inr (.inr ⟨_,pd_no_lt a,named⟩))

theorem reaches_sound (reached : Reaches machine Anything d) : Sound d := by
  refine reaches_invariant Sound ?_ ?_ reached
  · rintro d ⟨m,answer,paged,ran,made,none_⟩
    obtain ⟨laid,zero⟩ := sound_create paged ran made
    refine ⟨laid,fun a user => ?_⟩
    rw [none_,zero a user]
    show (0 : Word) &&& PTE_P = 0
    decide
  · intro d event d' sound _ ran
    cases event with
    | call op =>
      obtain ⟨same,beside,others,own,-⟩ := call_spec sound.laid ran
      refine ⟨same ▸ beside.laid,fun a user => ?_⟩
      rw [same]
      by_cases here : pg_no a = pg_no op.page
      · exact own a user here (sound.agrees a user)
      · rw [others _ here,beside.others a (.inr user) here]
        exact sound.agrees a user
    | other m =>
      obtain ⟨other,rfl⟩ := ran
      obtain ⟨laid,words⟩ := elsewhere_spec sound.laid other
      exact ⟨laid,fun a user => (words a).symm ▸ sound.agrees a user⟩

/-! ### The map and its neighbours -/

theorem agrees_present {f : Option (Addr × Bool)} (agrees : Agrees f w) : w &&& PTE_P ≠ 0 ↔ f.isSome = true := by
  cases f with
  | none => simp [show w &&& PTE_P = 0 from agrees]
  | some f =>
    rw [kept_present agrees.1]
    exact iff_of_true (pte_present f.1 f.2) rfl

theorem agrees_page {f : Addr × Bool} (agrees : Agrees (some f) w) : pte_page_of w = some f.1 := by
  obtain ⟨same,aligned,kernel⟩ := agrees
  rw [kept_page same,pte_create_user_page aligned kernel]

theorem get_page_is_map (sound : Sound d) (user : a < PHYS_BASE) :
    pagedir_get_page d.memory d.pd a = some ((d.mapped (pg_no a)).elim 0 fun f => f.1 + pg_ofs a) := by
  have agrees := sound.agrees a user
  rw [get_page_spec sound.laid user]
  cases set : d.mapped (pg_no a) with
  | none =>
    rw [set] at agrees
    exact if_neg fun present => present agrees
  | some f =>
    rw [set] at agrees
    rw [if_pos ((agrees_present agrees).mpr rfl),agrees_page agrees]
    rfl

theorem same_word (laid : Laid m pd) (laid' : Laid m' pd) (user : b < PHYS_BASE) (same : word_at m' pd b = word_at m pd b) :
    pagedir_get_page m' pd b = pagedir_get_page m pd b ∧ pagedir_is_dirty m' pd b = pagedir_is_dirty m pd b ∧
      pagedir_is_accessed m' pd b = pagedir_is_accessed m pd b := by
  rw [get_page_spec laid user,get_page_spec laid' user,pagedir_is_dirty,pagedir_is_dirty,pagedir_is_accessed,pagedir_is_accessed,
    flag_spec laid,flag_spec laid,flag_spec laid',flag_spec laid',same]
  exact ⟨rfl,rfl,rfl⟩

/-- A call for a user page leaves the kernel half as it is. -/
theorem kernel_same (laid : Laid d.memory d.pd) (ran : call d op = some d') (kernel : PHYS_BASE ≤ b) :
    word_at d'.memory d.pd b &&& KEPT = word_at d.memory d.pd b &&& KEPT ∧
      (op.page < PHYS_BASE → word_at d'.memory d.pd b = word_at d.memory d.pd b) := by
  obtain ⟨-,beside,-,-,kept⟩ := call_spec laid ran
  have whole (user : op.page < PHYS_BASE) : word_at d'.memory d.pd b = word_at d.memory d.pd b := by
    refine beside.others b (.inl user) fun same => ?_
    have low := pd_no_user.mpr user
    rw [← (pg_no_split.mp same).1,pd_no_user] at low
    exact absurd low (BitVec.not_lt.mpr kernel)
  refine ⟨?_,whole⟩
  rcases kept b with user | same
  · rw [whole user]
  · exact same

/-! ### `pagedir_destroy` -/

/-- The pages of `L` are freed, in this order. -/
structure Frees (m m' : Memory) (L : List Addr) : Prop where
  constant : m'.pool = m.pool ∧ m'.init_page_dir = m.init_page_dir
  freed : m'.freed = L.reverse ++ m.freed
  page : ∀ p, p ∉ L → m'.page p = m.page p
  in_use : ∀ p, p ∉ L → m'.in_use p = m.in_use p

theorem frees_nil (m : Memory) : Frees m m [] := ⟨⟨rfl,rfl⟩,rfl,fun _ _ => rfl,fun _ _ => rfl⟩

theorem frees_append {m₁ : Memory} {L K : List Addr} (first : Frees m m₁ L) (second : Frees m₁ m' K) : Frees m m' (L ++ K) where
  constant := ⟨second.constant.1.trans first.constant.1,second.constant.2.trans first.constant.2⟩
  freed := by rw [second.freed,first.freed,List.reverse_append,List.append_assoc]
  page p out := by
    rw [List.mem_append,not_or] at out
    rw [second.page p out.2,first.page p out.1]
  in_use p out := by
    rw [List.mem_append,not_or] at out
    rw [second.in_use p out.2,first.in_use p out.1]

/-- A page that `palloc_free_page` may be called with. -/
def Owned (m : Memory) (p : Addr) : Prop := m.pool p = true ∧ m.in_use p = true ∧ pg_ofs p = 0 ∧ PHYS_BASE ≤ p

theorem owned_later {L : List Addr} {p : Addr} (owned : Owned m p) (frees : Frees m m' L) (out : p ∉ L) : Owned m' p := by
  rw [Owned,frees.constant.1,frees.in_use p out]
  exact owned

theorem free_page_spec {p : Addr} (owned : Owned m p) : ∃ m', palloc_free_page m p = some m' ∧ Frees m m' [p] := by
  obtain ⟨pooled,used,aligned,high⟩ := owned
  refine ⟨_,by rw [palloc_free_page,if_pos aligned,if_neg (nonnull high),if_pos ⟨pooled,used⟩],?_⟩
  constructor <;> simp +contextual [Memory.fill,Memory.setUse]

/-- A loop whose steps free pages: a step may rely on what the steps before it freed. -/
theorem loop_frees {step : Memory → Nat → Option Memory} {pages : Nat → List Addr} {all : List Nat} (ks front : List Nat)
    {m₁ : Memory} (split : all = front ++ ks) (before : Frees m m₁ (front.flatMap pages))
    (steps : ∀ front k back m₁, all = front ++ k :: back → Frees m m₁ (front.flatMap pages) →
      ∃ m₂, step m₁ k = some m₂ ∧ Frees m₁ m₂ (pages k)) :
    ∃ m', ks.foldlM step m₁ = some m' ∧ Frees m m' (all.flatMap pages) := by
  induction ks generalizing front m₁ with
  | nil => exact ⟨m₁,rfl,by rwa [split,List.append_nil]⟩
  | cons k ks ih =>
    obtain ⟨m₂,ran,freed⟩ := steps front k ks m₁ split before
    have after : Frees m m₂ ((front ++ [k]).flatMap pages) := by
      rw [List.flatMap_append,List.flatMap_singleton]
      exact frees_append before freed
    obtain ⟨m',rest,all⟩ := ih (front ++ [k]) (by rw [split,List.append_assoc,List.singleton_append]) after
    exact ⟨m',by rw [List.foldlM_cons,ran]; exact rest,all⟩

/-- Distinct pages: what a step frees was not freed before. -/
theorem not_before {pages : Nat → List Addr} {all front back : List Nat} {k : Nat} {p : Addr}
    (distinct : (all.flatMap pages).Nodup)
    (split : all = front ++ k :: back) (here : p ∈ pages k) : p ∉ front.flatMap pages := by
  rw [split,List.flatMap_append,List.flatMap_cons] at distinct
  exact fun earlier => (List.disjoint_of_nodup_append distinct) earlier (List.mem_append_left _ here)

/-- What `pagedir_destroy` frees: the frames of a page table, then the page table, and
    the page directory last. -/
def entry_pages (w : Word) : List Addr := if w &&& PTE_P ≠ 0 then (pte_page_of w).toList else []
def frame_pages (m : Memory) (pt : Addr) (j : Nat) : List Addr := entry_pages (m.page pt (.ofNat 32 j))
def table_pages (m : Memory) (pd : Addr) (i : Nat) : List Addr :=
  (pde_get_pt (m.page pd (.ofNat 32 i))).elim [] fun pt => (List.range 1024).flatMap (frame_pages m pt) ++ [pt]
def dir_pages (m : Memory) (pd : Addr) : List Addr := (List.range 768).flatMap (table_pages m pd) ++ [pd]

theorem destroy_entry_spec {j : Nat} (named : m.page pt (.ofNat 32 j) &&& PTE_P ≠ 0 →
      (pte_page_of (m.page pt (.ofNat 32 j))).isSome)
    (owned : ∀ p ∈ frame_pages m pt j, Owned m p) : ∃ m', destroy_entry pt m j = some m' ∧ Frees m m' (frame_pages m pt j) := by
  rw [destroy_entry]
  unfold frame_pages entry_pages at owned ⊢
  by_cases present : m.page pt (.ofNat 32 j) &&& PTE_P ≠ 0
  · obtain ⟨p,page⟩ := Option.isSome_iff_exists.mp (named present)
    rw [if_pos present,page] at owned ⊢
    rw [if_pos present]
    exact free_page_spec (owned p (List.mem_singleton_self p))
  · rw [if_neg present,if_neg present]
    exact ⟨m,rfl,frees_nil m⟩

/-- The frames of a page table, which none of them is. -/
theorem destroy_entries_spec
    (named : ∀ j < 1024, m.page pt (.ofNat 32 j) &&& PTE_P ≠ 0 → (pte_page_of (m.page pt (.ofNat 32 j))).isSome)
    (owned : ∀ p ∈ (List.range 1024).flatMap (frame_pages m pt), Owned m p ∧ p ≠ pt)
    (distinct : ((List.range 1024).flatMap (frame_pages m pt)).Nodup) :
    ∃ m', (List.range 1024).foldlM (destroy_entry pt) m = some m' ∧
    Frees m m' ((List.range 1024).flatMap (frame_pages m pt)) := by
  refine loop_frees _ [] (List.nil_append _).symm (frees_nil m) fun front j back m₁ split before => ?_
  have inside {k : Nat} (listed : k ∈ front ++ j :: back) {p : Addr} (here : p ∈ frame_pages m pt k) :
      p ∈ (List.range 1024).flatMap (frame_pages m pt) := List.mem_flatMap.mpr ⟨k,split ▸ listed,here⟩
  have table : m₁.page pt = m.page pt := by
    refine before.page pt fun freed => ?_
    obtain ⟨k,listed,here⟩ := List.mem_flatMap.mp freed
    exact (owned pt (inside (List.mem_append_left _ listed) here)).2 rfl
  have same : frame_pages m₁ pt j = frame_pages m pt j := by rw [frame_pages,frame_pages,table]
  have below : j < 1024 := List.mem_range.mp (split ▸ List.mem_append_right _ List.mem_cons_self)
  rw [← same]
  refine destroy_entry_spec (by rw [table]; exact named j below) fun p here => ?_
  rw [same] at here
  exact owned_later (owned p (inside (List.mem_append_right _ List.mem_cons_self) here)).1 before (not_before distinct split here)

/-- Present entries name pages: that of a page table, and those in it. -/
structure Named (m : Memory) (pd : Addr) (i : Nat) : Prop where
  table : m.page pd (.ofNat 32 i) &&& PTE_P ≠ 0 → ∃ pt, pde_get_pt (m.page pd (.ofNat 32 i)) = some pt
  frame : ∀ pt, pde_get_pt (m.page pd (.ofNat 32 i)) = some pt → ∀ j < 1024,
    m.page pt (.ofNat 32 j) &&& PTE_P ≠ 0 → (pte_page_of (m.page pt (.ofNat 32 j))).isSome

theorem destroy_table_spec {i : Nat} (named : Named m pd i) (owned : ∀ p ∈ table_pages m pd i, Owned m p)
    (distinct : (table_pages m pd i).Nodup) :
    ∃ m', destroy_table pd m i = some m' ∧ Frees m m' (table_pages m pd i) := by
  rw [destroy_table]
  by_cases present : m.page pd (.ofNat 32 i) &&& PTE_P ≠ 0
  · obtain ⟨pt,table⟩ := named.table present
    unfold table_pages at owned distinct ⊢
    rw [table,Option.elim_some] at owned distinct ⊢
    rw [if_pos present]
    obtain ⟨frames,-,apart⟩ := List.nodup_append'.mp distinct
    have last : pt ∉ (List.range 1024).flatMap (frame_pages m pt) := fun here => apart here (List.mem_singleton_self pt)
    obtain ⟨m₁,entries,freed⟩ := destroy_entries_spec (named.frame pt table)
      (fun p here => ⟨owned p (List.mem_append_left _ here),fun same => apart here (List.mem_singleton.mpr same)⟩) frames
    have kept := owned_later (owned pt (List.mem_append_right _ (List.mem_singleton_self pt))) freed last
    obtain ⟨m',frees,freed'⟩ := free_page_spec kept
    refine ⟨m',?_,frees_append freed freed'⟩
    simp only [Option.bind_eq_bind,Option.bind_some,entries,frees]
  · rw [if_neg present,table_pages,pde_get_pt,if_neg present]
    exact ⟨m,rfl,frees_nil m⟩

/-- Where the pages are distinct and may be freed, all of them are. -/
theorem pagedir_destroy_spec (laid : Laid m pd) (named : ∀ i < 768, Named m pd i) (owned : ∀ p ∈ dir_pages m pd, Owned m p)
    (distinct : (dir_pages m pd).Nodup) : ∃ m', pagedir_destroy m pd = some m' ∧ Frees m m' (dir_pages m pd) := by
  rw [pagedir_destroy,if_neg (laid_nonnull laid),if_neg laid.dir.2.2]
  unfold dir_pages at owned distinct ⊢
  obtain ⟨tables,-,apart⟩ := List.nodup_append'.mp distinct
  have last : pd ∉ (List.range 768).flatMap (table_pages m pd) := fun here => apart here (List.mem_singleton_self pd)
  have loop : ∃ m₁, (List.range 768).foldlM (destroy_table pd) m = some m₁ ∧
      Frees m m₁ ((List.range 768).flatMap (table_pages m pd)) := by
    refine loop_frees _ [] (List.nil_append _).symm (frees_nil m) fun front i back m₁ split before => ?_
    have inside {k : Nat} (listed : k ∈ front ++ i :: back) {p : Addr} (here : p ∈ table_pages m pd k) :
        p ∈ (List.range 768).flatMap (table_pages m pd) := List.mem_flatMap.mpr ⟨k,split ▸ listed,here⟩
    have below : i < 768 := List.mem_range.mp (split ▸ List.mem_append_right _ List.mem_cons_self)
    have dir : m₁.page pd = m.page pd := by
      refine before.page pd fun freed => last ?_
      obtain ⟨k,listed,here⟩ := List.mem_flatMap.mp freed
      exact inside (List.mem_append_left _ listed) here
    have table {pt : Addr} (named : pde_get_pt (m.page pd (.ofNat 32 i)) = some pt) : m₁.page pt = m.page pt := by
      refine before.page pt (not_before tables split ?_)
      rw [table_pages,named]
      exact List.mem_append_right _ (List.mem_singleton_self pt)
    have same : table_pages m₁ pd i = table_pages m pd i := by
      rw [table_pages,table_pages,dir]
      cases isTable : pde_get_pt (m.page pd (.ofNat 32 i)) with
      | none => rw [Option.elim_none,Option.elim_none]
      | some pt =>
        have frames : frame_pages m₁ pt = frame_pages m pt := by
          funext j
          rw [frame_pages,frame_pages,table isTable]
        rw [Option.elim_some,Option.elim_some,frames]
    rw [← same]
    refine destroy_table_spec ⟨?_,?_⟩ (fun p freed => ?_) ?_
    · rw [dir]
      exact (named i below).table
    · rw [dir]
      intro pt isTable
      rw [table isTable]
      exact (named i below).frame pt isTable
    · rw [same] at freed
      exact owned_later (owned p (List.mem_append_left _ (inside (List.mem_append_right _ List.mem_cons_self) freed))) before (not_before tables split freed)
    · rw [same]
      exact (List.nodup_flatMap.mp tables).1 i (List.mem_range.mpr below)
  obtain ⟨m₁,ran,freed⟩ := loop
  have kept := owned_later (owned pd (List.mem_append_right _ (List.mem_singleton_self pd))) freed last
  obtain ⟨m',frees,freed'⟩ := free_page_spec kept
  refine ⟨m',?_,frees_append freed freed'⟩
  show (List.range 768).foldlM (destroy_table pd) m >>= _ = _
  rw [ran]
  exact frees

/-- The page tables of the user half. -/
def IsTable (d : Dir) (p : Addr) : Prop := ∃ i < 768, pde_get_pt (d.memory.page d.pd (.ofNat 32 i)) = some p
def IsFrame (d : Dir) (p : Addr) : Prop := ∃ a < PHYS_BASE, ∃ writable, d.mapped (pg_no a) = some (p,writable)

/-- The frames that are mapped are pages in use, of one user page each, and neither the
    page directory nor page tables. -/
structure Private (d : Dir) : Prop where
  owned : ∀ p, IsFrame d p → d.memory.pool p = true ∧ d.memory.in_use p = true
  apart : ∀ a < PHYS_BASE, ∀ b < PHYS_BASE, ∀ f g, d.mapped (pg_no a) = some f → d.mapped (pg_no b) = some g → f.1 = g.1 →
    pg_no a = pg_no b
  notDir : ¬ IsFrame d d.pd
  notTable : ∀ p, IsFrame d p → ¬ IsTable d p

/-- The user page of two indexes. -/
theorem indexed {i j : Nat} (low : i < 768) (below : j < 1024) :
    ∃ a : Addr, a < PHYS_BASE ∧ pd_no a = .ofNat 32 i ∧ pt_no a = .ofNat 32 j := by
  have small : i * 4194304 + j * 4096 < 2 ^ 32 := by omega
  have directory : pd_no (.ofNat 32 (i * 4194304 + j * 4096)) = .ofNat 32 i := by
    refine BitVec.eq_of_toNat_eq ?_
    rw [pd_no_toNat,BitVec.toNat_ofNat,BitVec.toNat_ofNat,Nat.mod_eq_of_lt small]
    omega
  refine ⟨.ofNat 32 (i * 4194304 + j * 4096),?_,directory,?_⟩
  · rw [← pd_no_user,directory,BitVec.toNat_ofNat]
    omega
  · refine BitVec.eq_of_toNat_eq ?_
    rw [pt_no_pg_no,BitVec.toNat_and,pg_no,PGBITS,BitVec.toNat_ushiftRight,Nat.shiftRight_eq_div_pow,BitVec.toNat_ofNat,
      BitVec.toNat_ofNat,Nat.mod_eq_of_lt small,show (0x3ff : BitVec 32).toNat = 2 ^ 10 - 1 from rfl,Nat.and_two_pow_sub_one_eq_mod]
    omega

/-- The frame of an entry is that which its page is set to. -/
theorem entry_pages_mapped (sound : Sound d) (user : a < PHYS_BASE)
    (table : pde_get_pt (d.memory.page d.pd (pd_no a)) = some pt) :
    entry_pages (d.memory.page pt (pt_no a)) = ((d.mapped (pg_no a)).map Prod.fst).toList := by
  have agrees := sound.agrees a user
  rw [word_of_table table,entry_pages]
  cases set : d.mapped (pg_no a) with
  | none =>
    rw [set] at agrees
    exact if_neg fun present => present agrees
  | some f =>
    rw [set] at agrees
    rw [if_pos ((agrees_present agrees).mpr rfl),agrees_page agrees]
    rfl

theorem mem_frame_pages {k l : Nat} {p : Addr} (sound : Sound d) (low : k < 768) (below : l < 1024)
    (table : pde_get_pt (d.memory.page d.pd (.ofNat 32 k)) = some pt) :
    p ∈ frame_pages d.memory pt l ↔ ∃ a < PHYS_BASE, pd_no a = .ofNat 32 k ∧ pt_no a = .ofNat 32 l ∧
      ∃ writable, d.mapped (pg_no a) = some (p,writable) := by
  obtain ⟨a,user,directory,slot⟩ := indexed low below
  have entry := entry_pages_mapped sound user (directory ▸ table)
  rw [frame_pages,← slot,entry]
  constructor
  · intro here
    obtain ⟨f,set,rfl⟩ := Option.map_eq_some_iff.mp (Option.mem_toList.mp here)
    exact ⟨a,user,directory,rfl,f.2,set⟩
  · rintro ⟨b,-,directory',slot',writable,set⟩
    rw [pg_no_split.mpr ⟨directory'.trans directory.symm,slot'⟩] at set
    rw [set]
    exact List.mem_singleton_self p

/-- A page that is freed with a page table is it, or a frame of one of its pages. -/
theorem mem_table_pages {k : Nat} {p : Addr} (sound : Sound d) (low : k < 768) :
    p ∈ table_pages d.memory d.pd k ↔ pde_get_pt (d.memory.page d.pd (.ofNat 32 k)) = some p ∨
      ∃ a < PHYS_BASE, pd_no a = .ofNat 32 k ∧ ∃ writable, d.mapped (pg_no a) = some (p,writable) := by
  rw [table_pages]
  cases table : pde_get_pt (d.memory.page d.pd (.ofNat 32 k)) with
  | none =>
    rw [Option.elim_none]
    constructor
    · exact fun here => absurd here List.not_mem_nil
    · rintro (named | ⟨a,user,directory,writable,set⟩)
      · cases named
      · have agrees := sound.agrees a user
        rw [word_missing (directory.symm ▸ table),set] at agrees
        exact absurd ((agrees_present agrees).mpr rfl) (by decide)
  | some pt =>
    rw [Option.elim_some,List.mem_append,List.mem_flatMap,List.mem_singleton,or_comm]
    refine or_congr ⟨fun same => congrArg some same.symm,fun same => (Option.some.inj same).symm⟩ ?_
    constructor
    · rintro ⟨j,listed,here⟩
      obtain ⟨a,user,directory,-,set⟩ := (mem_frame_pages sound low (List.mem_range.mp listed) table).mp here
      exact ⟨a,user,directory,set⟩
    · rintro ⟨a,user,directory,set⟩
      have below : (pt_no a).toNat < 1024 := by
        rw [pt_no_pg_no,BitVec.toNat_and]
        exact Nat.and_lt_two_pow _ (by decide : (0x3ff : BitVec 32).toNat < 2 ^ 10)
      exact ⟨(pt_no a).toNat,List.mem_range.mpr below,
        (mem_frame_pages sound low below table).mpr ⟨a,user,directory,by simp,set⟩⟩

theorem mem_dir_pages {p : Addr} (sound : Sound d) :
    p ∈ dir_pages d.memory d.pd ↔ p = d.pd ∨ IsTable d p ∨ IsFrame d p := by
  rw [dir_pages,List.mem_append,List.mem_flatMap,List.mem_singleton,or_comm]
  refine or_congr Iff.rfl ?_
  constructor
  · rintro ⟨k,listed,here⟩
    have low := List.mem_range.mp listed
    rcases (mem_table_pages sound low).mp here with table | ⟨a,user,-,set⟩
    · exact .inl ⟨k,low,table⟩
    · exact .inr ⟨a,user,set⟩
  · rintro (⟨k,low,table⟩ | ⟨a,user,set⟩)
    · exact ⟨k,List.mem_range.mpr low,(mem_table_pages sound low).mpr (.inl table)⟩
    · have low := pd_no_user.mpr user
      exact ⟨(pd_no a).toNat,List.mem_range.mpr low,
        (mem_table_pages sound low).mpr (.inr ⟨a,user,by simp,set⟩)⟩

theorem index_inj {k l : Nat} (low : k < 768) (lowToo : l < 768) (same : BitVec.ofNat 32 k = BitVec.ofNat 32 l) : k = l := by
  have values := congrArg BitVec.toNat same
  rw [BitVec.toNat_ofNat,BitVec.toNat_ofNat] at values
  omega

/-- Each page is freed with one page table, and once with it. -/
theorem dir_pages_nodup (sound : Sound d) (own : Private d) : (dir_pages d.memory d.pd).Nodup := by
  rw [dir_pages,List.nodup_append',List.nodup_flatMap]
  refine ⟨⟨fun k listed => ?_,?_⟩,List.nodup_singleton _,?_⟩
  · have low := List.mem_range.mp listed
    rw [table_pages]
    cases table : pde_get_pt (d.memory.page d.pd (.ofNat 32 k)) with
    | none => exact List.nodup_nil
    | some pt =>
      rw [Option.elim_some,List.nodup_append',List.nodup_flatMap]
      refine ⟨⟨fun l _ => ?_,?_⟩,List.nodup_singleton _,?_⟩
      · rw [frame_pages,entry_pages]
        split
        · cases pte_page_of (d.memory.page pt (.ofNat 32 l)) <;> simp
        · exact List.nodup_nil
      · refine List.nodup_range.pairwise_of_forall_ne fun l listed l' listed' other p here there => ?_
        have below := List.mem_range.mp listed
        have below' := List.mem_range.mp listed'
        obtain ⟨a,user,-,slot,_,set⟩ := (mem_frame_pages sound low below table).mp here
        obtain ⟨b,user',-,slot',_,set'⟩ := (mem_frame_pages sound low below' table).mp there
        have same := (pg_no_split.mp (own.apart a user b user' _ _ set set' rfl)).2
        rw [slot,slot'] at same
        have values := congrArg BitVec.toNat same
        rw [BitVec.toNat_ofNat,BitVec.toNat_ofNat] at values
        omega
      · intro p here last
        obtain ⟨l,listed,here⟩ := List.mem_flatMap.mp here
        obtain ⟨a,user,-,-,set⟩ := (mem_frame_pages sound low (List.mem_range.mp listed) table).mp here
        exact own.notTable p ⟨a,user,set⟩ ⟨k,low,List.mem_singleton.mp last ▸ table⟩
  · refine List.nodup_range.pairwise_of_forall_ne fun k listed l listed' other p here there => other ?_
    have low := List.mem_range.mp listed
    have low' := List.mem_range.mp listed'
    rcases (mem_table_pages sound low).mp here with table | ⟨a,user,directory,_,set⟩ <;>
      rcases (mem_table_pages sound low').mp there with table' | ⟨b,user',directory',_,set'⟩
    · refine index_inj low low' (sound.laid.apart _ _ p ?_ ?_ table table')
      · rw [BitVec.toNat_ofNat]
        omega
      · rw [BitVec.toNat_ofNat]
        omega
    · exact (own.notTable p ⟨b,user',_,set'⟩ ⟨k,low,table⟩).elim
    · exact (own.notTable p ⟨a,user,_,set⟩ ⟨l,low',table'⟩).elim
    · have same := (pg_no_split.mp (own.apart a user b user' _ _ set set' rfl)).1
      rw [directory,directory'] at same
      exact index_inj low low' same
  · intro p here last
    cases List.mem_singleton.mp last
    obtain ⟨k,listed,here⟩ := List.mem_flatMap.mp here
    have low := List.mem_range.mp listed
    rcases (mem_table_pages sound low).mp here with table | ⟨a,user,-,set⟩
    · refine (named_of_table sound.laid table ?_).2.1 rfl
      rw [BitVec.toNat_ofNat]
      omega
    · exact own.notDir ⟨a,user,set⟩

/-- `pagedir_destroy` frees the page directory, its page tables and the frames that are
    still mapped, each once. -/
theorem destroyed_once (sound : Sound d) (own : Private d) : ∃ m L, pagedir_destroy d.memory d.pd = some m ∧
    m.freed = L ++ d.memory.freed ∧ L.Nodup ∧ ∀ p, p ∈ L ↔ p = d.pd ∨ IsTable d p ∨ IsFrame d p := by
  have laid := sound.laid
  have named : ∀ k < 768, Named d.memory d.pd k := by
    refine fun k low => ⟨fun present => ?_,fun pt table j below present => ?_⟩
    · have nonzero : d.memory.page d.pd (.ofNat 32 k) ≠ 0 := by
        intro zero
        rw [zero] at present
        exact present (by decide)
      obtain ⟨pt,table,-⟩ := laid.named _ (by rw [BitVec.toNat_ofNat]; omega) nonzero
      exact ⟨pt,table⟩
    · obtain ⟨a,user,directory,slot⟩ := indexed low below
      have agrees := sound.agrees a user
      rw [← slot,word_of_table (directory.symm ▸ table)] at present ⊢
      obtain ⟨f,set⟩ := Option.isSome_iff_exists.mp ((agrees_present agrees).mp present)
      rw [set] at agrees
      rw [agrees_page agrees]
      rfl
  have owned : ∀ p ∈ dir_pages d.memory d.pd, Owned d.memory p := by
    intro p here
    have facts : d.memory.pool p = true ∧ d.memory.in_use p = true := by
      rcases (mem_dir_pages sound).mp here with rfl | ⟨k,low,table⟩ | frame
      · exact ⟨laid.dir.1,laid.dir.2.1⟩
      · have small : (BitVec.ofNat 32 k).toNat = k := by
          rw [BitVec.toNat_ofNat]
          omega
        obtain ⟨used,-,-,pooled⟩ := named_of_table laid table (by omega)
        exact ⟨pooled (by omega),used⟩
      · exact own.owned p frame
    exact ⟨facts.1,facts.2,laid.pools p facts.1⟩
  obtain ⟨m,ran,frees⟩ := pagedir_destroy_spec laid named owned (dir_pages_nodup sound own)
  refine ⟨m,(dir_pages d.memory d.pd).reverse,ran,frees.freed,List.nodup_reverse.mpr (dir_pages_nodup sound own),fun p => ?_⟩
  rw [List.mem_reverse,mem_dir_pages sound]

/-- A page directory is a map from user pages to frames: `pagedir_get_page` reads it,
    a call is of one page, and the kernel half keeps its mappings. -/
theorem page_directory_is_map (d : Dir) (reached : Reaches machine Anything d) :
    (∀ a < PHYS_BASE, pagedir_get_page d.memory d.pd a = some ((d.mapped (pg_no a)).elim 0 fun f => f.1 + pg_ofs a) ∧
      ∀ f, d.mapped (pg_no a) = some f → flag PTE_W d.memory d.pd a = some f.2) ∧
    (∀ op d', call d op = some d' → d'.pd = d.pd ∧
      (∀ b < PHYS_BASE, pg_no b ≠ pg_no op.page →
        pagedir_get_page d'.memory d.pd b = pagedir_get_page d.memory d.pd b ∧
        pagedir_is_dirty d'.memory d.pd b = pagedir_is_dirty d.memory d.pd b ∧
        pagedir_is_accessed d'.memory d.pd b = pagedir_is_accessed d.memory d.pd b) ∧
      (∀ i : Word, 768 ≤ i.toNat → d'.memory.page d.pd i = d.memory.page d.pd i) ∧
      ∀ b, PHYS_BASE ≤ b → word_at d'.memory d.pd b &&& KEPT = word_at d.memory d.pd b &&& KEPT ∧
        (op.page < PHYS_BASE → word_at d'.memory d.pd b = word_at d.memory d.pd b)) ∧
    (Private d → ∃ m L, pagedir_destroy d.memory d.pd = some m ∧ m.freed = L ++ d.memory.freed ∧ L.Nodup ∧
      ∀ p, p ∈ L ↔ p = d.pd ∨ IsTable d p ∨ IsFrame d p) := by
  have sound := reaches_sound reached
  refine ⟨fun a user => ⟨get_page_is_map sound user,fun f set => ?_⟩,fun op d' ran => ?_,destroyed_once sound⟩
  · have agrees := sound.agrees a user
    rw [set] at agrees
    have bit := Images.pte_writable (aligned_toNat agrees.2.1) agrees.2.2 f.2
    rw [flag_spec sound.laid,kept_writable agrees.1]
    refine congrArg some (Bool.eq_iff_iff.mpr ?_)
    exact bne_iff_ne.trans (decide_eq_true_iff.symm.trans (by rw [bit]))
  · obtain ⟨same,beside,-,-,-⟩ := call_spec sound.laid ran
    exact ⟨same,fun b user other => same_word sound.laid beside.laid user (beside.others b (.inr user) other),beside.dir,
      fun b kernel => kernel_same sound.laid ran kernel⟩

/-! A memory with one kernel page table and three pages that are free, of which the third
is in use by the process, and a run that sets user pages to it. -/

def ram : Memory where
  init_page_dir := 0xc0101000
  init_ram_pages := 1024
  page p i := if p = 0xc0101000 ∧ i = 768 then 0x102007 else 0
  pool p := p == 0xc0103000 || p == 0xc0104000 || p == 0xc0200000
  in_use p := p == 0xc0101000 || p == 0xc0102000 || p == 0xc0200000
  freed := []

theorem ram_paged : Paged ram where
  pools p pooled := by
    simp only [ram,Bool.or_eq_true,beq_iff_eq] at pooled
    rcases pooled with (rfl | rfl) | rfl <;> decide
  init := by decide
  user i low := by
    refine if_neg ?_
    rintro ⟨-,rfl⟩
    exact absurd low (by decide)
  kernel i _ nonzero := by
    have here : i = 768 := by
      by_contra other
      exact nonzero (if_neg fun both => other both.2)
    subst here
    exact ⟨0xc0102000,by decide⟩

def set_pages : Dir → List Addr → Option Dir
  | d, [] => some d
  | d, upage :: rest => (call d (.set_page upage 0xc0200000 true (some 0xc0104000))).bind fun d => set_pages d rest

def pages_set (upages : List Addr) : Option Dir :=
  (pagedir_create ram (some 0xc0103000)).bind fun (pd,m) => if pd = 0 then none else set_pages ⟨m,pd,fun _ => none⟩ upages

theorem set_pages_reached {upages : List Addr} (start : Reaches machine Anything d) (ran : set_pages d upages = some d') :
    Reaches machine Anything d' ∧ ∀ n f, d'.mapped n = some f → d.mapped n = some f ∨ f = (0xc0200000,true) ∧
    n ∈ upages.map pg_no := by
  induction upages generalizing d with
  | nil =>
    cases ran
    exact ⟨start,fun n f set => .inl set⟩
  | cons upage upages ih =>
    obtain ⟨d₁,first,later⟩ := Option.bind_eq_some_iff.mp ran
    obtain ⟨reached,sets⟩ := ih (.next start (e := .call _) trivial first) later
    have one : d₁.mapped = d.mapped ∨ d₁.mapped = Function.update d.mapped (pg_no upage) (some (0xc0200000,true)) := by
      obtain ⟨⟨done,m⟩,-,rfl⟩ := Option.map_eq_some_iff.mp first
      cases done with
      | false => exact .inl rfl
      | true => exact .inr rfl
    refine ⟨reached,fun n f set => ?_⟩
    rcases sets n f set with before | ⟨frame,listed⟩
    · rcases one with same | updated
      · exact .inl (same ▸ before)
      · rw [updated,Function.update_apply] at before
        split at before
        · next here => exact .inr ⟨(Option.some.inj before).symm,here ▸ List.mem_cons_self⟩
        · exact .inl before
    · exact .inr ⟨frame,List.mem_cons_of_mem _ listed⟩

theorem pages_set_reached {upages : List Addr} (ran : pages_set upages = some d) :
    Reaches machine Anything d ∧ ∀ n f, d.mapped n = some f → f = (0xc0200000,true) ∧ n ∈ upages.map pg_no := by
  obtain ⟨⟨pd,m⟩,made,rest⟩ := Option.bind_eq_some_iff.mp ran
  dsimp only at rest
  split at rest
  · cases rest
  · next nonnull =>
    obtain ⟨reached,sets⟩ := set_pages_reached (.start ⟨ram,_,ram_paged,made,nonnull,rfl⟩) rest
    exact ⟨reached,fun n f set => (sets n f set).resolve_left (by simp)⟩

theorem page_set_and_destroyed : ∃ d, Reaches machine Anything d ∧ pagedir_get_page d.memory d.pd 0x8048123 = some 0xc0200123 ∧
    ∃ m L, pagedir_destroy d.memory d.pd = some m ∧ m.freed = L ++ d.memory.freed ∧ L.Nodup ∧
      ∀ p, p ∈ L ↔ p = d.pd ∨ IsTable d p ∨ IsFrame d p := by
  have runs : (pages_set [0x8048000]).any fun d => decide (d.mapped 0x8048 = some (0xc0200000,true)) &&
      decide (d.memory.pool 0xc0200000 = true ∧ d.memory.in_use 0xc0200000 = true ∧ d.pd ≠ 0xc0200000) &&
      (List.range 768).all fun i => pde_get_pt (d.memory.page d.pd (.ofNat 32 i)) != some 0xc0200000 := by
    decide +kernel
  obtain ⟨d,ran,facts⟩ := (Option.any_eq_true _ _).mp runs
  simp only [Bool.and_eq_true,decide_eq_true_eq,List.all_eq_true,List.mem_range,bne_iff_ne] at facts
  obtain ⟨⟨set,pooled,used,notDir⟩,notTable⟩ := facts
  obtain ⟨reached,sets⟩ := pages_set_reached ran
  have frame {p : Addr} (frame : IsFrame d p) : p = 0xc0200000 := by
    obtain ⟨a,-,writable,set⟩ := frame
    exact congrArg Prod.fst (sets _ _ set).1
  obtain ⟨read,-,destroy⟩ := page_directory_is_map d reached
  refine ⟨d,reached,?_,destroy ⟨?_,?_,?_,?_⟩⟩
  · rw [(read 0x8048123 (by decide)).1,show pg_no 0x8048123 = 0x8048 by decide,set]
    decide
  · rintro p isFrame
    rw [frame isFrame]
    exact ⟨pooled,used⟩
  · intro a _ b _ f g first second _
    rw [List.mem_singleton.mp (sets _ _ first).2,List.mem_singleton.mp (sets _ _ second).2]
  · exact fun isFrame => notDir (frame isFrame)
  · rintro p isFrame ⟨i,low,table⟩
    exact notTable i low (frame isFrame ▸ table)

/-- One frame at two user pages: `pagedir_destroy` frees it a second time, which fails an
    assertion of `palloc_free_page`. -/
theorem shared_frame_freed_twice : ∃ d, Reaches machine Anything d ∧ d.mapped 0x8048 = some (0xc0200000,true) ∧
    d.mapped 0x8049 = some (0xc0200000,true) ∧ pagedir_destroy d.memory d.pd = none := by
  have runs : (pages_set [0x8048000,0x8049000]).any fun d => decide (d.mapped 0x8048 = some (0xc0200000,true)) &&
      decide (d.mapped 0x8049 = some (0xc0200000,true)) && (pagedir_destroy d.memory d.pd).isNone := by
    decide +kernel
  obtain ⟨d,ran,facts⟩ := (Option.any_eq_true _ _).mp runs
  simp only [Bool.and_eq_true,decide_eq_true_eq,Option.isNone_iff_eq_none] at facts
  exact ⟨d,(pages_set_reached ran).1,facts.1.1,facts.1.2,facts.2⟩

end Pintos.PageDirectories
