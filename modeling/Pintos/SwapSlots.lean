import Pintos.Vm
import Mathlib.Data.List.Nodup

/-!
The slots of `vm/swap.c`. A slot is eight sectors of the swap device, and
`empty_block_sector` says of each whether it is free. `swap_frame_to_disk` and
`swap_disk_to_frame` may be called by any owner for any page, in any order, with
other stores to the frames between the calls; both hold `swap_lock` throughout.
-/
namespace Pintos.SwapSlots
open Pintos.Blocks Pintos.Machines Pintos.Vm
set_option linter.unusedSimpArgs false
variable {s s' : Vm} {t w : Tid} {k dst slot : Nat} {entry : SwapEntry} {before after : List SwapEntry}

/-- The entries have slots of their own, and the slots in use are theirs. -/
structure Exclusive (s : Vm) : Prop where
  used : ∀ i, s.empty_block_sector i = false ↔ ∃ t, ∃ e ∈ s.swap_table t, e.disk_offset = i
  inside : ∀ t, ∀ e ∈ s.swap_table t, e.disk_offset < s.swap_disk_size
  apart : ∀ t w, ∀ e ∈ s.swap_table t, ∀ d ∈ s.swap_table w, e.disk_offset = d.disk_offset → t = w
  once : ∀ t, ((s.swap_table t).map SwapEntry.disk_offset).Nodup

/-! ### Taking a slot and giving it back -/

/-- No entry has a slot that is free. -/
theorem unused_of_empty (exclusive : Exclusive s) (empty : s.empty_block_sector slot = true) (w : Tid) :
    ∀ d ∈ s.swap_table w, d.disk_offset ≠ slot := by
  intro d member same
  have taken := (exclusive.used slot).mpr ⟨w,d,member,same⟩
  rw [empty] at taken
  cases taken

theorem exclusive_take (entry : SwapEntry) (exclusive : Exclusive s) (empty : s.empty_block_sector entry.disk_offset = true)
    (inside : entry.disk_offset < s.swap_disk_size) (size : s'.swap_disk_size = s.swap_disk_size)
    (sector : ∀ i, s'.empty_block_sector i = if i = entry.disk_offset then false else s.empty_block_sector i)
    (table : ∀ w, s'.swap_table w = if w = t then s.swap_table t ++ [entry] else s.swap_table w) : Exclusive s' := by
  have members : ∀ w d, d ∈ s'.swap_table w ↔ d ∈ s.swap_table w ∨ (w = t ∧ d = entry) := by
    intro w d
    rw [table]
    split
    · next owner => simp [owner]
    · next other => simp [other]
  have unused := unused_of_empty exclusive empty
  refine ⟨?_,?_,?_,?_⟩
  · intro i
    rw [sector]
    constructor
    · intro taken
      split at taken
      · next same => exact ⟨t,entry,(members t entry).mpr (.inr ⟨rfl,rfl⟩),same.symm⟩
      · obtain ⟨w,d,member,same⟩ := (exclusive.used i).mp taken
        exact ⟨w,d,(members w d).mpr (.inl member),same⟩
    · rintro ⟨w,d,member,rfl⟩
      rcases (members w d).mp member with before | ⟨-,rfl⟩
      · rw [if_neg (unused w d before)]
        exact (exclusive.used _).mpr ⟨w,d,before,rfl⟩
      · exact if_pos rfl
  · intro w d member
    rw [size]
    rcases (members w d).mp member with before | ⟨-,rfl⟩
    · exact exclusive.inside w d before
    · exact inside
  · intro w x d first b second same
    rcases (members w d).mp first with before | ⟨rfl,rfl⟩
    · rcases (members x b).mp second with beforeToo | ⟨rfl,rfl⟩
      · exact exclusive.apart w x d before b beforeToo same
      · exact absurd same (unused w d before)
    · rcases (members x b).mp second with beforeToo | ⟨rfl,rfl⟩
      · exact absurd same.symm (unused x b beforeToo)
      · rfl
  · intro w
    rw [table]
    split
    · rw [List.map_append]
      refine List.Nodup.append (exclusive.once t) (List.nodup_singleton _) (List.disjoint_singleton.mpr ?_)
      intro member
      obtain ⟨d,listed,same⟩ := List.mem_map.mp member
      exact unused t d listed same
    · exact exclusive.once w

/-- When an entry is taken out, the others are those with another slot. -/
theorem mem_given (exclusive : Exclusive s) (split : s.swap_table t = before ++ entry :: after)
    (table : ∀ w, s'.swap_table w = if w = t then before ++ after else s.swap_table w) (w : Tid) (d : SwapEntry) :
    d ∈ s'.swap_table w ↔ d ∈ s.swap_table w ∧ d.disk_offset ≠ entry.disk_offset := by
  have once := exclusive.once t
  rw [split,List.map_append,List.map_cons,List.nodup_middle,List.nodup_cons,← List.map_append] at once
  rw [table]
  by_cases owner : w = t
  · subst owner
    rw [if_pos rfl,split]
    constructor
    · intro member
      refine ⟨?_,fun same => once.1 (List.mem_map.mpr ⟨d,member,same⟩)⟩
      rcases List.mem_append.mp member with early | late
      · exact List.mem_append_left _ early
      · exact List.mem_append_right _ (List.mem_cons_of_mem _ late)
    · rintro ⟨member,other⟩
      rcases List.mem_append.mp member with early | late
      · exact List.mem_append_left _ early
      · rcases List.mem_cons.mp late with rfl | late
        · exact absurd rfl other
        · exact List.mem_append_right _ late
  · rw [if_neg owner]
    refine ⟨fun member => ⟨member,fun same => ?_⟩,fun both => both.1⟩
    exact owner (exclusive.apart w t d member entry (by rw [split]; simp) same)

theorem exclusive_give (exclusive : Exclusive s) (split : s.swap_table t = before ++ entry :: after)
    (size : s'.swap_disk_size = s.swap_disk_size)
    (sector : ∀ i, s'.empty_block_sector i = if i = entry.disk_offset then true else s.empty_block_sector i)
    (table : ∀ w, s'.swap_table w = if w = t then before ++ after else s.swap_table w) : Exclusive s' := by
  have members := mem_given exclusive split table
  refine ⟨?_,?_,?_,?_⟩
  · intro i
    rw [sector]
    constructor
    · intro taken
      split at taken
      · cases taken
      · next other =>
        obtain ⟨w,d,member,rfl⟩ := (exclusive.used i).mp taken
        exact ⟨w,d,(members w d).mpr ⟨member,other⟩,rfl⟩
    · rintro ⟨w,d,member,rfl⟩
      obtain ⟨before,other⟩ := (members w d).mp member
      rw [if_neg other]
      exact (exclusive.used _).mpr ⟨w,d,before,rfl⟩
  · intro w d member
    rw [size]
    exact exclusive.inside w d ((members w d).mp member).1
  · intro w x d first b second same
    exact exclusive.apart w x d ((members w d).mp first).1 b ((members x b).mp second).1 same
  · intro w
    rw [table]
    split
    · have once := exclusive.once t
      rw [split,List.map_append,List.map_cons,List.nodup_middle,List.nodup_cons,← List.map_append] at once
      exact once.2
    · exact exclusive.once w

/-- `swap_entry_delete` of the entry that `swap_entry_lookup` finds. -/
theorem lookup_split (found : swap_entry_lookup s k t = some entry) : ∃ before after,
    s.swap_table t = before ++ entry :: after ∧ (s.swap_table t).eraseP (fun e => e.kpage = k) = before ++ after := by
  obtain ⟨key,before,after,split,earlier⟩ := List.find?_eq_some_iff_append.mp found
  exact ⟨before,after,split,List.eraseP_eq_iff.mpr (.inr ⟨entry,before,after,by simpa using earlier,key,split,rfl⟩)⟩

/-! ### Every sequence of calls -/

inductive Event
  | swap_frame_to_disk (kpage : Nat) (owner_pid : Tid)
  | swap_disk_to_frame (dst kpage : Nat) (owner_pid : Tid)
  /-- Other code stores to a frame. -/
  | store (kpage : Nat) (bytes : Page)

/-- The entries made here are of no page's eviction in particular. -/
def step (s : Vm) : Event → Option Vm
  | .swap_frame_to_disk kpage owner_pid => (swap_frame_to_disk s kpage owner_pid 0).toOption
  | .swap_disk_to_frame dst kpage owner_pid => (swap_disk_to_frame s dst kpage owner_pid).toOption
  | .store kpage bytes => some (s.setMem kpage bytes)

/-- `swap_disk_init`, with a swap device of `block_size` sectors. -/
def swap_disk_init (block_size : Nat) : Vm := boot 0 (block_size / 8)

def machine (block_size : Nat) : Machine Vm Event := ofStep (swap_disk_init block_size) step

theorem swap_frame_to_disk_ok {victim : Nat} (ran : swap_frame_to_disk s k t victim = .ok s') :
    ∃ slot, s.empty_block_sector slot = true ∧ slot < s.swap_disk_size ∧ s' = swappedOut s k t victim slot := by
  rw [swap_frame_to_disk] at ran
  split at ran
  · cases ran
  · split at ran
    · cases ran
    · next slot found =>
      cases ran
      exact ⟨slot,by simpa using List.find?_some found,List.mem_range.mp (List.mem_of_find?_eq_some found),rfl⟩

/-- What `swap_disk_to_frame` does, with an entry or without one. -/
theorem swap_disk_to_frame_ok (ran : swap_disk_to_frame s dst k t = .ok s') :
    (swap_entry_lookup s k t = none ∧ s' = { s with swap_lock := true }) ∨
      ∃ e, swap_entry_lookup s k t = some e ∧ s' = swappedIn s dst k t e := by
  rw [swap_disk_to_frame] at ran
  split at ran
  · cases ran
  · split at ran
    · next missing =>
      cases ran
      exact .inl ⟨missing,rfl⟩
    · next e found =>
      cases ran
      exact .inr ⟨e,found,rfl⟩

theorem exclusive_step {event : Event} (exclusive : Exclusive s) (ran : step s event = some s') : Exclusive s' := by
  cases event with
  | swap_frame_to_disk kpage owner_pid =>
    obtain ⟨slot,empty,inside,rfl⟩ := swap_frame_to_disk_ok (ok_of_toOption ran)
    exact exclusive_take { kpage := kpage, disk_offset := slot, victim := 0 } exclusive empty inside rfl (fun _ => rfl)
      fun _ => rfl
  | swap_disk_to_frame dst kpage owner_pid =>
    rcases swap_disk_to_frame_ok (ok_of_toOption ran) with ⟨-,rfl⟩ | ⟨e,found,rfl⟩
    · exact ⟨exclusive.used,exclusive.inside,exclusive.apart,exclusive.once⟩
    · obtain ⟨before,after,split,erased⟩ := lookup_split found
      refine exclusive_give exclusive split rfl (fun _ => rfl) fun w => ?_
      rw [← erased]
      rfl
  | store kpage bytes =>
    cases ran
    exact ⟨exclusive.used,exclusive.inside,exclusive.apart,exclusive.once⟩

theorem size_step {event : Event} (ran : step s event = some s') : s'.swap_disk_size = s.swap_disk_size := by
  cases event with
  | swap_frame_to_disk kpage owner_pid =>
    obtain ⟨slot,-,-,rfl⟩ := swap_frame_to_disk_ok (ok_of_toOption ran)
    rfl
  | swap_disk_to_frame dst kpage owner_pid =>
    rcases swap_disk_to_frame_ok (ok_of_toOption ran) with ⟨-,rfl⟩ | ⟨e,-,rfl⟩ <;> rfl
  | store kpage bytes =>
    cases ran
    rfl

/-- A step leaves the sectors of every entry as they are. -/
theorem sectors_step {event : Event} {i : Nat} (exclusive : Exclusive s) (ran : step s event = some s')
    (member : entry ∈ s.swap_table w) (sector : i < 8) :
    s'.swap_disk (8 * entry.disk_offset + i) = s.swap_disk (8 * entry.disk_offset + i) := by
  cases event with
  | swap_frame_to_disk kpage owner_pid =>
    obtain ⟨slot,empty,-,rfl⟩ := swap_frame_to_disk_ok (ok_of_toOption ran)
    have other := unused_of_empty exclusive empty w entry member
    exact writeBlocks_outside (by omega)
  | swap_disk_to_frame dst kpage owner_pid =>
    rcases swap_disk_to_frame_ok (ok_of_toOption ran) with ⟨-,rfl⟩ | ⟨e,-,rfl⟩ <;> rfl
  | store kpage bytes =>
    cases ran
    rfl

theorem exclusive_init (block_size : Nat) : Exclusive (swap_disk_init block_size) where
  used i := by simp [swap_disk_init,boot]
  inside t e member := by simp [swap_disk_init,boot] at member
  apart t w e member := by simp [swap_disk_init,boot] at member
  once t := .nil

theorem reaches_exclusive {block_size : Nat} (reached : Reaches (machine block_size) Anything s) :
    Exclusive s ∧ s.swap_disk_size = block_size / 8 := by
  refine reaches_invariant (fun s => Exclusive s ∧ s.swap_disk_size = block_size / 8) ?_ ?_ reached
  · rintro s rfl
    exact ⟨exclusive_init block_size,rfl⟩
  · rintro s event s' ⟨exclusive,size⟩ _ ran
    exact ⟨exclusive_step exclusive ran,(size_step ran).trans size⟩

/-- For a device of any size and calls in any order: each entry has a slot of its own,
    the slots in use are those of the entries, all their sectors are on the device and
    no sector is of two entries, and no call changes a sector of an entry there is. -/
theorem slots_exclusive (block_size : Nat) (s : Vm) (reached : Reaches (machine block_size) Anything s) :
    Exclusive s ∧
    (∀ t, ∀ e ∈ s.swap_table t, ∀ i < 8, 8 * e.disk_offset + i < block_size) ∧
    (∀ t w, ∀ e ∈ s.swap_table t, ∀ d ∈ s.swap_table w, ∀ i < 8, ∀ j < 8,
      8 * e.disk_offset + i = 8 * d.disk_offset + j → t = w ∧ e = d) ∧
    ∀ event s', step s event = some s' → ∀ t, ∀ e ∈ s.swap_table t, ∀ i < 8,
      s'.swap_disk (8 * e.disk_offset + i) = s.swap_disk (8 * e.disk_offset + i) := by
  obtain ⟨exclusive,size⟩ := reaches_exclusive reached
  refine ⟨exclusive,?_,?_,?_⟩
  · intro t e member i sector
    have inside := exclusive.inside t e member
    omega
  · intro t w e first d second i below j belowToo same
    have slot : e.disk_offset = d.disk_offset := by omega
    obtain rfl := exclusive.apart t w e first d second slot
    exact ⟨rfl,List.inj_on_of_nodup_map (exclusive.once t) first second slot⟩
  · exact fun event s' ran t e member i sector => sectors_step exclusive ran member sector

/-- Two owners use the two slots of a device of 19 sectors; the slot that is given
    back is taken again. -/
def reused : List Event :=
  [.store 0 (fun _ => 1),.swap_frame_to_disk 0 3,.swap_frame_to_disk 0 4,.swap_disk_to_frame 1 0 3,.swap_frame_to_disk 2 4]

theorem slots_exclusive_reused : ∃ s, run step (swap_disk_init 19) reused = some s ∧ Exclusive s ∧
    (s.swap_table 4).map SwapEntry.disk_offset = [1,0] ∧ s.swap_table 3 = [] :=
  ⟨_,rfl,(slots_exclusive 19 _ (run_reachable (swap_disk_init 19) step reused rfl)).1,rfl,rfl⟩

end Pintos.SwapSlots
