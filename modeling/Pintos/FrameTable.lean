import Pintos.LinkedLists
import Pintos.Vm

/-!
The frame table of `vm/frame.c` as a doubly linked list in memory. An eviction
takes two steps: `find_swap_victim` pops the front entry, and `frame_entry_delete`
unlinks the same entry again once its page is on the disk. Between the two the
evicting thread can block, and the other threads insert and delete entries.

`page_lock` admits one eviction at a time. Each call is one step; `reuse` stands
for whatever the kernel writes to memory that is not a frame entry, so nothing
depends on what `free` leaves behind. Beside the table runs a plain list of what
it ought to hold.
-/
namespace Pintos.FrameTable
open Pintos.Machines Pintos.LinkedLists Pintos.Vm

/-- The sentinels of `frametable`, and the blocks of `malloc`. -/
inductive Addr
  | head
  | tail
  | block (n : Nat)
deriving DecidableEq

structure Table where
  mem : Memory Addr
  entry : Addr → FrameEntry
  /-- The blocks that hold a frame entry. -/
  live : Addr → Bool
  /-- The entry that `page_swap_to_disk` has popped and not yet deleted. -/
  victim : Option Addr

inductive Event
  | find_swap_victim
  /-- `malloc` gives the block. -/
  | frame_entry_insert (block : Nat) (entry : FrameEntry)
  /-- The loop goes round fewer than `bound` times. -/
  | frame_delete_by_pid (tid : Tid) (bound : Nat)
  | frame_entry_delete
  | reuse (block : Nat) (node : Node Addr) (entry : FrameEntry)

def frametable_init : Table where
  mem := list_init (fun _ => { prev := none, next := none }) .head .tail
  entry _ := { upage := 0, kpage := 0, owner_pid := 0 }
  live _ := false
  victim := none

def write (s : Table) (a : Addr) (entry : FrameEntry) : Table :=
  { s with entry := fun b => if b = a then entry else s.entry b }
def malloc (s : Table) (a : Addr) : Option Table :=
  if s.live a then none else some { s with live := fun b => if b = a then true else s.live b }
def free (s : Table) (a : Addr) : Table := { s with live := fun b => if b = a then false else s.live b }

def find_swap_victim (s : Table) : Option Table :=
  if s.victim = none then do
    let (front,mem) ← list_pop_front s.mem .head .tail
    pure { s with mem := mem, victim := some front }
  else none

def frame_entry_insert (s : Table) (block : Nat) (entry : FrameEntry) : Option Table := do
  let s ← malloc s (.block block)
  let s := write s (.block block) entry
  let mem ← list_push_back s.mem .tail (.block block)
  pure { s with mem := mem }

/-- The loop of `frame_delete_by_pid` from element `e` on. -/
def frame_delete_loop (tid : Tid) : Nat → Table → Addr → Option Table
  | 0, _, _ => none
  | bound + 1, s, e =>
    if e = .tail then some s
    else do
      let next ← (s.mem e).next
      if (s.entry e).owner_pid = tid then
        let mem ← list_remove s.mem e
        frame_delete_loop tid bound (free { s with mem := mem } e) next
      else frame_delete_loop tid bound s next

def frame_delete_by_pid (s : Table) (tid : Tid) (bound : Nat) : Option Table := do
  let begin ← (s.mem .head).next
  frame_delete_loop tid bound s begin

def frame_entry_delete (s : Table) : Option Table := do
  let f ← s.victim
  let mem ← list_remove s.mem f
  pure (free { s with mem := mem, victim := none } f)

def reuse (s : Table) (a : Addr) (node : Node Addr) (entry : FrameEntry) : Option Table :=
  if s.live a then none
  else some (write { s with mem := fun b => if b = a then node else s.mem b } a entry)

def stepTable (s : Table) : Event → Option Table
  | .find_swap_victim => find_swap_victim s
  | .frame_entry_insert block entry => frame_entry_insert s block entry
  | .frame_delete_by_pid tid bound => frame_delete_by_pid s tid bound
  | .frame_entry_delete => frame_entry_delete s
  | .reuse block node entry => reuse s (.block block) node entry

/-! ### What the table ought to hold -/

/-- The entries, oldest first, and where they are. -/
abbrev Entries := List (Addr × FrameEntry)

def expect (entries : Entries) : Event → Entries
  | .find_swap_victim => entries.tail
  | .frame_entry_insert block entry => entries ++ [(.block block,entry)]
  | .frame_delete_by_pid tid _ => entries.filter fun f => f.2.owner_pid ≠ tid
  | .frame_entry_delete => entries
  | .reuse _ _ _ => entries

structure State where
  table : Table
  expected : Entries

def boot : State where
  table := frametable_init
  expected := []
def step (s : State) (e : Event) : Option State := do
  let table ← stepTable s.table e
  pure { table := table, expected := expect s.expected e }
def machine : Machine State Event := ofStep boot step

/-- The list is well formed, and holds the expected entries, with their contents. -/
structure Kept (table : Table) (entries : Entries) : Prop where
  list : Represents table.mem .head .tail (entries.map Prod.fst)
  contents : ∀ f ∈ entries, table.entry f.1 = f.2

/-- The second unlinking finds the victim's old successor at the front of the table. -/
def SuccessorAtFront (s : State) : Event → Prop
  | .frame_entry_delete => ∀ f ∈ s.table.victim, (s.table.mem .head).next = (s.table.mem f).next
  | _ => True

instance decidableSuccessorAtFront (s : State) (e : Event) : Decidable (SuccessorAtFront s e) :=
  match e with
  | .frame_entry_delete =>
    inferInstanceAs (Decidable (∀ f ∈ s.table.victim, (s.table.mem .head).next = (s.table.mem f).next))
  | .find_swap_victim => isTrue trivial
  | .frame_entry_insert _ _ => isTrue trivial
  | .frame_delete_by_pid _ _ => isTrue trivial
  | .reuse _ _ _ => isTrue trivial

/-! ### The invariant -/

/-- An unlinked victim still points at its old neighbours, the first of which is
    the head. -/
structure Popped (table : Table) (entries : Entries) (f : Addr) : Prop where
  live : table.live f = true
  outside : f ∉ entries.map Prod.fst
  prev : (table.mem f).prev = some .head
  next : ∃ n, (table.mem f).next = some n

structure Inv (table : Table) (entries : Entries) : Prop extends Kept table entries where
  live : ∀ a ∈ entries.map Prod.fst, table.live a = true
  sentinels : table.live .head = false ∧ table.live .tail = false
  popped : ∀ f, table.victim = some f → Popped table entries f

variable {table table' : Table} {entries : Entries}

theorem inv_boot : Inv frametable_init [] where
  list := ⟨⟨rfl,rfl,trivial⟩,rfl,rfl,by decide⟩
  contents := by simp
  live := by simp
  sentinels := ⟨rfl,rfl⟩
  popped := by simp [frametable_init]

theorem inv_unlisted (inv : Inv table entries) {a : Addr} (dead : table.live a = false) : a ∉ entries.map Prod.fst := by
  intro member
  have live := inv.live a member
  rw [dead] at live
  cases live

/-- A victim is not a node of the list. -/
theorem popped_apart (inv : Inv table entries) {f : Addr} (popped : Popped table entries f) :
    f ∉ Addr.head :: (entries.map Prod.fst ++ [.tail]) := by
  intro member
  have live := popped.live
  simp only [List.mem_cons,List.mem_append,List.not_mem_nil,or_false] at member
  rcases member with rfl | listed | rfl
  · rw [inv.sentinels.1] at live
    cases live
  · exact popped.outside listed
  · rw [inv.sentinels.2] at live
    cases live

theorem inv_find_swap_victim (inv : Inv table entries) (step : find_swap_victim table = some table') :
    Inv table' entries.tail := by
  simp only [find_swap_victim] at step
  split at step
  case isFalse => cases step
  obtain ⟨⟨front,mem⟩,pop,result⟩ := Option.bind_eq_some_iff.mp step
  cases result
  cases entries with
  | nil =>
    have empty : (table.mem .head).next = some .tail := (represents_front inv.list).1
    simp [list_pop_front,empty] at pop
  | cons f rest =>
    have list : Represents table.mem .head .tail ([] ++ f.1 :: rest.map Prod.fst) := inv.list
    obtain ⟨prev,next⟩ := represents_links list
    obtain ⟨mem',removed,shorter,framed⟩ := represents_remove list
    have first : (table.mem .head).next = some f.1 := (represents_front inv.list).1
    have live : table.live f.1 = true := inv.live f.1 (by simp)
    have interior : f.1 ≠ .tail := by
      intro same
      rw [same,inv.sentinels.2] at live
      cases live
    simp only [list_pop_front,first,interior,if_false,removed,Option.bind_eq_bind,Option.bind_some,Option.pure_def,
      Option.some.injEq,Prod.mk.injEq] at pop
    obtain ⟨rfl,rfl⟩ := pop
    have outside : f.1 ∉ Addr.head :: ([] ++ rest.map Prod.fst ++ [.tail]) :=
      (List.nodup_cons.mp ((rearranged Addr.head Addr.tail f.1 [] _).nodup_iff.mp list.once)).1
    refine ⟨⟨shorter,?_⟩,?_,inv.sentinels,?_⟩
    · exact fun g member => inv.contents g (List.mem_cons_of_mem f member)
    · exact fun a member => inv.live a (List.mem_cons_of_mem f.1 member)
    · rintro g ⟨⟩
      refine ⟨live,?_,?_,?_⟩
      · intro member
        exact outside (List.mem_cons_of_mem _ (List.mem_append_left _ member))
      · show (mem' f.1).prev = _
        rw [framed f.1 outside,prev]
        rfl
      · show ∃ n, (mem' f.1).next = some n
        rw [framed f.1 outside,next]
        exact ⟨_,rfl⟩

theorem inv_frame_entry_insert {block : Nat} {entry : FrameEntry} (inv : Inv table entries)
    (step : frame_entry_insert table block entry = some table') : Inv table' (entries ++ [(.block block,entry)]) := by
  obtain ⟨allocated,fresh,step⟩ := Option.bind_eq_some_iff.mp step
  simp only [malloc] at fresh
  split at fresh
  case isTrue => cases fresh
  next dead =>
  cases fresh
  rw [Bool.not_eq_true] at dead
  have outside : Addr.block block ∉ Addr.head :: (entries.map Prod.fst ++ [] ++ [.tail]) := by
    have unlisted := inv_unlisted inv dead
    rw [List.append_nil]
    simp only [List.mem_cons,List.mem_append,List.not_mem_nil,or_false,not_or]
    exact ⟨by simp,unlisted,by simp⟩
  have list : Represents table.mem .head .tail (entries.map Prod.fst ++ []) := by
    rw [List.append_nil]
    exact inv.list
  obtain ⟨mem',inserted,longer,framed⟩ := represents_insert list outside
  have pushed : list_push_back table.mem .tail (.block block) = some mem' := inserted
  simp only [write,pushed,Option.bind_eq_bind,Option.bind_some,Option.pure_def,Option.some.injEq] at step
  subst step
  refine ⟨⟨?_,?_⟩,?_,?_,?_⟩
  · rw [List.map_append]
    exact longer
  · intro f member
    rcases List.mem_append.mp member with old | new
    · have other : f.1 ≠ .block block := by
        intro same
        exact inv_unlisted inv dead (same ▸ List.mem_map_of_mem old)
      simp [other,inv.contents f old]
    · rw [List.mem_singleton.mp new]
      simp
  · intro a member
    rw [List.map_append,List.mem_append] at member
    rcases member with old | new
    · simp [inv.live a old]
    · simp [List.mem_singleton.mp new]
  · simp [inv.sentinels]
  · intro f victim
    have popped := inv.popped f victim
    have other : f ≠ .block block := by
      rintro rfl
      rw [popped.live] at dead
      cases dead
    have same : mem' f = table.mem f := by
      refine framed f ?_ other
      rw [List.append_nil]
      exact popped_apart inv popped
    refine ⟨?_,?_,?_,?_⟩
    · simp [popped.live]
    · simpa [other] using popped.outside
    · show (mem' f).prev = _
      rw [same,popped.prev]
    · show ∃ n, (mem' f).next = some n
      rw [same]
      exact popped.next

/-- Unlinking and freeing one listed entry. -/
theorem inv_unlink {done rest : Entries} {f : Addr × FrameEntry} (inv : Inv table (done ++ f :: rest)) :
    ∃ mem, list_remove table.mem f.1 = some mem ∧ Inv (free { table with mem := mem } f.1) (done ++ rest) := by
  have list : Represents table.mem .head .tail (done.map Prod.fst ++ f.1 :: rest.map Prod.fst) := by
    have listed := inv.list
    rw [List.map_append] at listed
    exact listed
  obtain ⟨mem,removed,shorter,framed⟩ := represents_remove list
  have unlisted : f.1 ∉ (done ++ rest).map Prod.fst := by
    obtain ⟨absent,-⟩ := List.nodup_cons.mp ((rearranged Addr.head Addr.tail f.1 _ _).nodup_iff.mp list.once)
    rw [List.map_append]
    exact fun member => absent (List.mem_cons_of_mem _ (List.mem_append_left _ member))
  have remains : ∀ g ∈ done ++ rest, g ∈ done ++ f :: rest := fun g member =>
    ((List.sublist_cons_self f rest).append_left done).subset member
  refine ⟨mem,removed,⟨?_,?_⟩,?_,?_,?_⟩
  · rw [List.map_append]
    exact shorter
  · exact fun g member => inv.contents g (remains g member)
  · intro a member
    have other : a ≠ f.1 := fun same => unlisted (same ▸ member)
    obtain ⟨g,listed,rfl⟩ := List.mem_map.mp member
    simp [free,other,inv.live g.1 (List.mem_map_of_mem (remains g listed))]
  · simp [free,inv.sentinels]
  · intro v victim
    have popped := inv.popped v victim
    have outside : v ∉ (done ++ rest).map Prod.fst := by
      intro member
      obtain ⟨g,listed,rfl⟩ := List.mem_map.mp member
      exact popped.outside (List.mem_map_of_mem (remains g listed))
    have other : v ≠ f.1 := by
      rintro rfl
      exact popped.outside (List.mem_map_of_mem (by simp))
    have same : mem v = table.mem v := by
      refine framed v ?_
      have apart := popped_apart inv popped
      rw [List.map_append] at apart
      intro member
      refine apart ?_
      have kept : (Addr.head :: (done.map Prod.fst ++ rest.map Prod.fst ++ [.tail])).Sublist
          (.head :: (done.map Prod.fst ++ (f :: rest).map Prod.fst ++ [.tail])) :=
        ((((List.sublist_cons_self f.1 _).append_left _).append_right _).cons_cons _)
      exact kept.subset member
    refine ⟨?_,outside,?_,?_⟩
    · simp [free,other,popped.live]
    · show (mem v).prev = _
      rw [same,popped.prev]
    · show ∃ n, (mem v).next = some n
      rw [same]
      exact popped.next

/-- The loop, started at the entries `todo`, either exceeds its bound or deletes
    those of the owner. -/
theorem inv_frame_delete_loop (tid : Tid) (todo : Entries) (bound : Nat) (done : Entries)
    (inv : Inv table (done ++ todo)) :
    (frame_delete_loop tid bound table (following .tail (todo.map Prod.fst)) = none ∧ bound ≤ todo.length) ∨
      ∃ table', frame_delete_loop tid bound table (following .tail (todo.map Prod.fst)) = some table' ∧
        Inv table' (done ++ todo.filter fun f => f.2.owner_pid ≠ tid) := by
  induction todo generalizing bound done table with
  | nil =>
    cases bound with
    | zero => exact .inl ⟨rfl,Nat.le_refl 0⟩
    | succ bound => exact .inr ⟨table,by simp [frame_delete_loop,following],inv⟩
  | cons f rest ih =>
    cases bound with
    | zero => exact .inl ⟨rfl,Nat.zero_le _⟩
    | succ bound =>
      have list : Represents table.mem .head .tail (done.map Prod.fst ++ f.1 :: rest.map Prod.fst) := by
        have listed := inv.list
        rw [List.map_append] at listed
        exact listed
      have next := (represents_links list).2
      have interior : f.1 ≠ .tail := by
        intro same
        have live := inv.live f.1 (List.mem_map_of_mem (by simp))
        rw [same,inv.sentinels.2] at live
        cases live
      have entry : table.entry f.1 = f.2 := inv.contents f (by simp)
      by_cases owned : f.2.owner_pid = tid
      · obtain ⟨mem,removed,unlinked⟩ := inv_unlink inv
        have turn : frame_delete_loop tid (bound + 1) table (following .tail ((f :: rest).map Prod.fst)) =
            frame_delete_loop tid bound (free { table with mem := mem } f.1) (following .tail (rest.map Prod.fst)) := by
          show frame_delete_loop tid (bound + 1) table f.1 = _
          simp [frame_delete_loop,interior,next,entry,owned,removed]
        rw [turn,List.filter_cons_of_neg (by simp [owned]),List.length_cons]
        rcases ih bound done unlinked with ⟨none,short⟩ | found
        · exact .inl ⟨none,Nat.succ_le_succ short⟩
        · exact .inr found
      · have turn : frame_delete_loop tid (bound + 1) table (following .tail ((f :: rest).map Prod.fst)) =
            frame_delete_loop tid bound table (following .tail (rest.map Prod.fst)) := by
          show frame_delete_loop tid (bound + 1) table f.1 = _
          simp [frame_delete_loop,interior,next,entry,owned]
        rw [turn,List.filter_cons_of_pos (by simp [owned]),List.length_cons]
        rcases ih bound (done ++ [f]) (List.append_cons done f rest ▸ inv) with ⟨none,short⟩ | found
        · exact .inl ⟨none,Nat.succ_le_succ short⟩
        · rw [List.append_cons]
          exact .inr found

theorem inv_frame_delete_by_pid {tid : Tid} {bound : Nat} (inv : Inv table entries)
    (step : frame_delete_by_pid table tid bound = some table') :
    Inv table' (entries.filter fun f => f.2.owner_pid ≠ tid) := by
  have first := (represents_front inv.list).1
  simp only [frame_delete_by_pid,first,Option.bind_eq_bind,Option.bind_some] at step
  rcases inv_frame_delete_loop tid entries bound [] inv with ⟨none,-⟩ | ⟨after,ran,kept⟩
  · rw [none] at step
    cases step
  · rw [ran] at step
    cases step
    exact kept

theorem inv_reuse {block : Nat} {node : Node Addr} {entry : FrameEntry} (inv : Inv table entries)
    (step : reuse table (.block block) node entry = some table') : Inv table' entries := by
  simp only [reuse] at step
  split at step
  case isTrue => cases step
  next dead =>
  cases step
  rw [Bool.not_eq_true] at dead
  have unlisted := inv_unlisted inv dead
  refine ⟨⟨represents_frame inv.list ?_,?_⟩,inv.live,inv.sentinels,?_⟩
  · intro a member
    have other : a ≠ .block block := by
      rintro rfl
      simp only [List.mem_cons,List.mem_append,List.not_mem_nil,or_false] at member
      rcases member with same | listed | same
      · cases same
      · exact unlisted listed
      · cases same
    simp [write,other]
  · intro f member
    have other : f.1 ≠ .block block := fun same => unlisted (same ▸ List.mem_map_of_mem member)
    simp [write,other,inv.contents f member]
  · intro f victim
    have popped := inv.popped f victim
    have other : f ≠ .block block := by
      rintro rfl
      rw [popped.live] at dead
      cases dead
    refine ⟨popped.live,popped.outside,?_,?_⟩
    · simp [write,other,popped.prev]
    · simpa [write,other] using popped.next

/-! ### The second unlinking -/

/-- It sets the head's successor to the victim's. -/
theorem frame_entry_delete_links (inv : Inv table entries) (step : frame_entry_delete table = some table') :
    ∃ f n, table.victim = some f ∧ Popped table entries f ∧ (table.mem f).next = some n ∧
      (∀ a, (table'.mem a).next = if a = .head then some n else (table.mem a).next) ∧
      (∀ a, (table'.mem a).prev = if a = n then some .head else (table.mem a).prev) ∧
      table'.entry = table.entry ∧ table'.victim = none ∧ ∀ a, table'.live a = if a = f then false else table.live a := by
  obtain ⟨f,victim,step⟩ := Option.bind_eq_some_iff.mp step
  have popped := inv.popped f victim
  obtain ⟨n,next⟩ := popped.next
  obtain ⟨mem,removed,nexts,prevs⟩ := list_remove_links popped.prev next
  simp only [removed,Option.bind_eq_bind,Option.bind_some,Option.pure_def,Option.some.injEq] at step
  subst step
  exact ⟨f,n,victim,popped,next,nexts,prevs,rfl,rfl,fun _ => rfl⟩

theorem inv_frame_entry_delete (inv : Inv table entries)
    (front : ∀ f ∈ table.victim, (table.mem .head).next = (table.mem f).next)
    (step : frame_entry_delete table = some table') : Inv table' entries := by
  obtain ⟨f,n,victim,popped,next,nexts,prevs,entry,none,live⟩ := frame_entry_delete_links inv step
  obtain ⟨first,back⟩ := represents_front inv.list
  have successor : n = following .tail (entries.map Prod.fst) := by
    have same := front f victim
    rw [first,next] at same
    exact (Option.some.inj same).symm
  -- Both pointers that it writes already have the value written.
  have unchanged : table'.mem = table.mem := by
    funext a
    ext1
    · rw [prevs]
      split
      · next same => rw [same,successor,back]
      · rfl
    · rw [nexts]
      split
      · next same => rw [same,successor,first]
      · rfl
  refine ⟨⟨?_,?_⟩,?_,?_,?_⟩
  · rw [unchanged]
    exact inv.list
  · rw [entry]
    exact inv.contents
  · intro a member
    have other : a ≠ f := fun same => popped.outside (same ▸ member)
    rw [live,if_neg other,inv.live a member]
  · constructor
    · rw [live]
      split
      · rfl
      · exact inv.sentinels.1
    · rw [live]
      split
      · rfl
      · exact inv.sentinels.2
  · intro g victim
    rw [none] at victim
    cases victim

theorem kept_breaks (inv : Inv table entries)
    (elsewhere : ¬ ∀ f ∈ table.victim, (table.mem .head).next = (table.mem f).next)
    (step : frame_entry_delete table = some table') : ¬ Kept table' entries := by
  obtain ⟨f,n,victim,popped,next,nexts,-,-,-,-⟩ := frame_entry_delete_links inv step
  intro kept
  apply elsewhere
  intro g popped
  rw [Option.mem_def,victim] at popped
  cases popped
  have first := (represents_front kept.list).1
  rw [nexts,if_pos rfl] at first
  rw [(represents_front inv.list).1,next,first]

/-! ### Runs -/

variable {s s' : State} {e : Event}

theorem step_table (ran : step s e = some s') :
    stepTable s.table e = some s'.table ∧ s'.expected = expect s.expected e := by
  obtain ⟨table,stepped,result⟩ := Option.bind_eq_some_iff.mp ran
  cases result
  exact ⟨stepped,rfl⟩

theorem inv_step (inv : Inv s.table s.expected) (meets : SuccessorAtFront s e) (ran : step s e = some s') :
    Inv s'.table s'.expected := by
  obtain ⟨stepped,expected⟩ := step_table ran
  rw [expected]
  cases e with
  | find_swap_victim => exact inv_find_swap_victim inv stepped
  | frame_entry_insert block entry => exact inv_frame_entry_insert inv stepped
  | frame_delete_by_pid tid bound => exact inv_frame_delete_by_pid inv stepped
  | frame_entry_delete => exact inv_frame_entry_delete inv meets stepped
  | reuse block node entry => exact inv_reuse inv stepped

theorem reaches_inv (reached : Reaches machine SuccessorAtFront s) : Inv s.table s.expected := by
  refine reaches_invariant (fun s => Inv s.table s.expected) ?_ ?_ reached
  · rintro s rfl
    exact inv_boot
  · exact fun s e s' inv meets ran => inv_step inv meets ran

/-- In a run whose evictions all find the victim's successor at the front, the
    deletion by owner ends. -/
theorem frame_delete_by_pid_ends (reached : Reaches machine SuccessorAtFront s) (tid : Tid) (bound : Nat)
    (enough : s.expected.length < bound) : ∃ s', step s (.frame_delete_by_pid tid bound) = some s' := by
  have inv := reaches_inv reached
  have first := (represents_front inv.list).1
  rcases inv_frame_delete_loop tid s.expected bound [] inv with ⟨-,short⟩ | ⟨table',ran,-⟩
  · omega
  · refine ⟨⟨table',expect s.expected (.frame_delete_by_pid tid bound)⟩,?_⟩
    simp only [step,stepTable,frame_delete_by_pid,first,Option.bind_eq_bind,Option.bind_some]
    rw [ran]
    rfl

/-- In every state of a run whose evictions all find the victim's old successor
    at the front of the table, the table is well formed and holds what it ought
    to; and the next step keeps it so exactly when it is such an eviction's end or
    no eviction's end at all. -/
theorem frametable_kept_iff_successor_at_front (reached : Reaches machine SuccessorAtFront s) :
    Kept s.table s.expected ∧
      ∀ e s', machine.Step s e s' → (Kept s'.table s'.expected ↔ SuccessorAtFront s e) := by
  have inv := reaches_inv reached
  refine ⟨inv.toKept,?_⟩
  intro e s' ran
  constructor
  · intro kept
    by_contra fails
    obtain ⟨stepped,expected⟩ := step_table ran
    rw [expected] at kept
    cases e with
    | frame_entry_delete => exact kept_breaks inv fails stepped kept
    | _ => exact fails trivial
  · exact fun meets => (inv_step inv meets ran).toKept

def entryOf (tid : Tid) (page : Nat) : FrameEntry where
  upage := page
  kpage := page
  owner_pid := tid

/-- While the first of two entries is evicted, a third is inserted. -/
def insertMeanwhile : List Event :=
  [.frame_entry_insert 0 (entryOf 1 0),.frame_entry_insert 1 (entryOf 1 1),.find_swap_victim,
    .frame_entry_insert 2 (entryOf 2 0),.frame_entry_delete]

theorem frametable_kept_insert_meanwhile : ∃ s, guardedRun step SuccessorAtFront boot insertMeanwhile = some s ∧
    Kept s.table s.expected ∧ s.expected = [(.block 1,entryOf 1 1),(.block 2,entryOf 2 0)] :=
  ⟨_,rfl,(frametable_kept_iff_successor_at_front
    (guardedRun_reachable boot step SuccessorAtFront insertMeanwhile rfl)).1,rfl⟩

/-- While the first of three entries is evicted, the process that owns the second
    exits. -/
def exitMeanwhile : List Event :=
  [.frame_entry_insert 0 (entryOf 1 0),.frame_entry_insert 1 (entryOf 2 0),.frame_entry_insert 2 (entryOf 1 1),
    .find_swap_victim,.frame_delete_by_pid 2 4,.frame_entry_delete]

/-- The freed entry is back at the front of the table. -/
theorem freed_entry_resurrected : ∃ s, run step boot exitMeanwhile = some s ∧ Reaches machine Anything s ∧
    s.expected = [(.block 2,entryOf 1 1)] ∧ (s.table.mem .head).next = some (.block 1) ∧
    s.table.live (.block 1) = false ∧ ¬ Kept s.table s.expected := by
  refine ⟨_,rfl,run_reachable boot step exitMeanwhile rfl,by decide,by decide,by decide,?_⟩
  intro kept
  have first := (represents_front kept.list).1
  revert first
  decide

end Pintos.FrameTable
