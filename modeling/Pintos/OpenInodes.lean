import Pintos.Handles
import Pintos.Contents

/-!
The counts of open inodes. Whoever opens an inode has a handle on it, an inode handle or
a file, until it is closed; `open_cnt` counts the handles, `deny_write_cnt` the files
that deny writes, and the inode is in `open_inodes` as long as there is a handle. The
counts do not overflow: there are fewer handles than an `int` can count.
-/
namespace Pintos.OpenInodes
open Pintos.Machines Pintos.FileSystem
set_option linter.unusedSimpArgs false

/-- `file_reopen` -/
def file_reopen (s : FileSystem) (file : Nat) : Option (Option Nat × FileSystem) := do
  let f ← s.files file
  let s ← inode_reopen s f.inode
  file_open s (some f.inode)

/-! ### Runs -/

/-- The system and the inode handles that its callers have: as many of an inode as they
    have to close. -/
structure Holders where
  sys : FileSystem
  held : List Nat

inductive Op
  | inode_open (sector : Nat)
  | inode_reopen (inode : Option Nat)
  | inode_close (inode : Option Nat)
  | file_open (inode : Option Nat)
  | file_reopen (file : Nat)
  | file_close (file : Option Nat)
  | file_deny_write (file : Nat)
  | file_allow_write (file : Nat)

/-- A handle is closed once, and not used after that. `file_open` takes the handle. -/
def Lawful (h : Holders) : Op → Prop
  | .inode_open sector => sector < h.sys.fs_device.size
  | .inode_reopen inode => ∀ a, inode = some a → h.sys.inodes a ≠ none
  | .inode_close inode => ∀ a, inode = some a → a ∈ h.held
  | .file_open inode => ∀ a, inode = some a → a ∈ h.held
  | .file_reopen file => h.sys.files file ≠ none
  | .file_close file => ∀ f, file = some f → h.sys.files f ≠ none
  | .file_deny_write file => h.sys.files file ≠ none
  | .file_allow_write file => h.sys.files file ≠ none

/-- The handles once that on `inode` is given away. -/
def give (held : List Nat) (inode : Option Nat) : List Nat := inode.elim held held.erase

def apply (h : Holders) : Op → Option Holders
  | .inode_open sector => (inode_open h.sys sector).map fun r => ⟨r.2,r.1.toList ++ h.held⟩
  | .inode_reopen inode =>
    match inode with
    | none => some h
    | some a => (inode_reopen h.sys a).map fun s => ⟨s,a :: h.held⟩
  | .inode_close inode =>
    match inode with
    | none => some h
    | some a => (inode_close h.sys a).map fun s => ⟨s,h.held.erase a⟩
  | .file_open inode => (file_open h.sys inode).map fun r => ⟨r.2,give h.held inode⟩
  | .file_reopen file => (file_reopen h.sys file).map fun r => ⟨r.2,h.held⟩
  | .file_close file =>
    match file with
    | none => some h
    | some f => (file_close h.sys f).map fun s => ⟨s,h.held⟩
  | .file_deny_write file => (file_deny_write h.sys file).map fun s => ⟨s,h.held⟩
  | .file_allow_write file => (file_allow_write h.sys file).map fun s => ⟨s,h.held⟩

/-- From `inode_init` on: no inode and no file is open. -/
def machine : Machine Holders Op where
  Initial h := h.sys.open_inodes = [] ∧ h.sys.inodes = (fun _ => none) ∧ h.sys.files = (fun _ => none) ∧ h.held = []
  Step h op h' := Lawful h op ∧ apply h op = some h'

/-- The handles on the inode at `a`. -/
def outstanding (t : Tables) (held : List Nat) (a : Nat) : Nat := refs t a + held.count a

def open_cnt (t : Tables) (a : Nat) : Nat := (t.inodes a).elim 0 Inode.open_cnt
def deny_write_cnt (t : Tables) (a : Nat) : Nat := (t.inodes a).elim 0 Inode.deny_write_cnt

structure Exact (t : Tables) (held : List Nat) : Prop where
  once : t.open_inodes.Nodup
  listed : ∀ a, a ∈ t.open_inodes ↔ t.inodes a ≠ none
  sector : ∀ a b i j, t.inodes a = some i → t.inodes b = some j → i.sector = j.sector → a = b
  count : ∀ a, open_cnt t a = outstanding t held a
  positive : ∀ a i, t.inodes a = some i → 0 < i.open_cnt
  deny : ∀ a, deny_write_cnt t a = denials t a
  fresh : ∀ a, t.next ≤ a → t.inodes a = none ∧ t.files a = none
  /-- No caller removes inodes. -/
  unremoved : ∀ a i, t.inodes a = some i → i.removed = false

section
variable {t : Tables} {held after : List Nat} {a b f c d : Nat} {n m : Inode} {u : File} {g : Nat → Option File}

theorem file_below (exact : Exact t held) (found : t.files f = some u) : f < t.next := by
  refine Nat.lt_of_not_le fun later => ?_
  rw [(exact.fresh f later).2] at found
  cases found

theorem count_found (exact : Exact t held) (found : t.inodes a = some n) : n.open_cnt = outstanding t held a := by
  have count := exact.count a
  rwa [open_cnt,found] at count

theorem deny_found (exact : Exact t held) (found : t.inodes a = some n) : n.deny_write_cnt = denials t a := by
  have deny := exact.deny a
  rwa [deny_write_cnt,found] at deny

/-- A handle is on an open inode. -/
theorem held_open (exact : Exact t held) (member : a ∈ held) : ∃ n, t.inodes a = some n := by
  cases found : t.inodes a with
  | some n => exact ⟨n,rfl⟩
  | none =>
    have count := exact.count a
    rw [open_cnt,found,outstanding] at count
    have positive := List.count_pos_iff.mpr member
    simp only [Option.elim_none] at count
    omega

theorem file_open_inode (exact : Exact t held) (file : t.files f = some u) : ∃ n, t.inodes u.inode = some n := by
  cases found : t.inodes u.inode with
  | some n => exact ⟨n,rfl⟩
  | none =>
    have count := exact.count u.inode
    rw [open_cnt,found,outstanding] at count
    have positive : 0 < refs t u.inode := by
      rw [refs,List.countP_pos_iff]
      exact ⟨f,List.mem_range.mpr (file_below exact file),by simp [file]⟩
    simp only [Option.elim_none] at count
    omega

/-- The counts of one inode change as the handles on it do. -/
theorem exact_adjust (exact : Exact t held) (found : t.inodes a = some n) (positive : 0 < c)
    (counted : ∀ b, outstanding { t with files := g } after b + (if b = a then n.open_cnt else 0) =
      outstanding t held b + if b = a then c else 0)
    (denied : ∀ b, denials { t with files := g } b + (if b = a then n.deny_write_cnt else 0) =
      denials t b + if b = a then d else 0)
    (fresh : ∀ f, t.next ≤ f → g f = none) :
    Exact { t with
      inodes := Function.update t.inodes a (some { n with open_cnt := c, deny_write_cnt := d })
      files := g } after := by
  have before : ∀ b m, Function.update t.inodes a (some { n with open_cnt := c, deny_write_cnt := d }) b = some m →
      ∃ p, t.inodes b = some p ∧ m.sector = p.sector ∧ m.removed = p.removed ∧ (b ≠ a → m = p) ∧ (b = a → m.open_cnt = c) := by
    intro b m inode
    rcases update_inode inode with ⟨rfl,same⟩ | ⟨other,was⟩
    · cases same
      exact ⟨n,found,rfl,rfl,fun other => absurd rfl other,fun _ => rfl⟩
    · exact ⟨m,was,rfl,rfl,fun _ => rfl,fun same => absurd same other⟩
  refine ⟨exact.once,fun b => ?_,fun b b' m m' one two equal => ?_,fun b => ?_,fun b m inode => ?_,fun b => ?_,fun b later => ?_,
    fun b m inode => ?_⟩
  · rw [exact.listed]
    by_cases here : b = a
    · subst here
      simp [found]
    · simp [Function.update_of_ne here]
  · obtain ⟨p,was,sector,-⟩ := before b m one
    obtain ⟨p',was',sector',-⟩ := before b' m' two
    exact exact.sector b b' p p' was was' (by rw [← sector,← sector',equal])
  · have change := counted b
    have count := exact.count b
    rw [open_cnt] at count
    show Option.elim (Function.update t.inodes a _ b) 0 Inode.open_cnt = outstanding { t with files := g } after b
    by_cases here : b = a
    · subst here
      rw [if_pos rfl,if_pos rfl] at change
      rw [found] at count
      rw [Function.update_self]
      simp only [Option.elim_some] at count ⊢
      omega
    · rw [if_neg here,if_neg here] at change
      rw [Function.update_of_ne here]
      omega
  · obtain ⟨p,was,-,-,other,same⟩ := before b m inode
    by_cases here : b = a
    · rw [same here]
      exact positive
    · rw [other here]
      exact exact.positive b p was
  · have change := denied b
    have deny := exact.deny b
    rw [deny_write_cnt] at deny
    show Option.elim (Function.update t.inodes a _ b) 0 Inode.deny_write_cnt = denials { t with files := g } b
    by_cases here : b = a
    · subst here
      rw [if_pos rfl,if_pos rfl] at change
      rw [found] at deny
      rw [Function.update_self]
      simp only [Option.elim_some] at deny ⊢
      omega
    · rw [if_neg here,if_neg here] at change
      rw [Function.update_of_ne here]
      omega
  · obtain ⟨inode,-⟩ := exact.fresh b later
    have here : b ≠ a := by
      rintro rfl
      rw [found] at inode
      cases inode
    exact ⟨(Function.update_of_ne here _ _).trans inode,fresh b later⟩
  · obtain ⟨p,was,-,removed,-⟩ := before b m inode
    rw [removed]
    exact exact.unremoved b p was

/-- A number is taken. -/
theorem exact_next (exact : Exact t held) : Exact { t with next := t.next + 1 } held where
  once := exact.once
  listed := exact.listed
  sector := exact.sector
  count b := by
    show open_cnt t b = refs { t with next := t.next + 1 } b + held.count b
    rw [refs_unused (exact.fresh t.next (Nat.le_refl _)).2]
    exact exact.count b
  positive := exact.positive
  deny b := by
    rw [denials_unused (exact.fresh t.next (Nat.le_refl _)).2]
    exact exact.deny b
  fresh b later := exact.fresh b (Nat.le_of_succ_le later)
  unremoved := exact.unremoved

/-- A sector that is not open gets an inode, with one handle. -/
theorem exact_new (exact : Exact t held) (one : n.open_cnt = 1) (allows : n.deny_write_cnt = 0) (stays : n.removed = false)
    (closed : ∀ b m, t.inodes b = some m → m.sector ≠ n.sector) :
    Exact { t with
      open_inodes := t.next :: t.open_inodes
      inodes := Function.update t.inodes t.next (some n)
      next := t.next + 1 } (t.next :: held) := by
  obtain ⟨unused,unfiled⟩ := exact.fresh t.next (Nat.le_refl _)
  have count := exact.count t.next
  have deny := exact.deny t.next
  rw [open_cnt,unused] at count
  rw [deny_write_cnt,unused] at deny
  have counted : ∀ b, refs { t with
      open_inodes := t.next :: t.open_inodes
      inodes := Function.update t.inodes t.next (some n)
      next := t.next + 1 } b = refs t b := refs_unused unfiled
  have denied : ∀ b, denials { t with
      open_inodes := t.next :: t.open_inodes
      inodes := Function.update t.inodes t.next (some n)
      next := t.next + 1 } b = denials t b := denials_unused unfiled
  refine ⟨?_,fun b => ?_,fun b b' m m' first second equal => ?_,fun b => ?_,fun b m inode => ?_,fun b => ?_,fun b later => ?_,
    fun b m inode => ?_⟩
  · exact List.nodup_cons.mpr ⟨fun member => (exact.listed t.next).mp member unused,exact.once⟩
  · rw [List.mem_cons,exact.listed]
    by_cases here : b = t.next
    · subst here
      simp
    · simp [here]
  · rcases update_inode first with ⟨rfl,same⟩ | ⟨-,was⟩
    · cases same
      rcases update_inode second with ⟨rfl,-⟩ | ⟨-,was'⟩
      · rfl
      · exact absurd equal.symm (closed b' m' was')
    · rcases update_inode second with ⟨rfl,same⟩ | ⟨-,was'⟩
      · cases same
        exact absurd equal (closed b m was)
      · exact exact.sector b b' m m' was was' equal
  · rw [outstanding,counted]
    show Option.elim (Function.update t.inodes t.next (some n) b) 0 Inode.open_cnt = _
    by_cases here : b = t.next
    · subst here
      rw [outstanding] at count
      simp only [Option.elim_none] at count
      rw [Function.update_self,Option.elim_some,one,List.count_cons_self]
      omega
    · rw [Function.update_of_ne here,List.count_cons_of_ne (Ne.symm here)]
      exact exact.count b
  · rcases update_inode inode with ⟨-,same⟩ | ⟨-,was⟩
    · cases same
      rw [one]
      exact Nat.one_pos
    · exact exact.positive b m was
  · rw [denied]
    show Option.elim (Function.update t.inodes t.next (some n) b) 0 Inode.deny_write_cnt = _
    by_cases here : b = t.next
    · subst here
      rw [Function.update_self,Option.elim_some,allows]
      exact deny
    · rw [Function.update_of_ne here]
      exact exact.deny b
  · have bound : t.next < b := later
    obtain ⟨inode,file⟩ := exact.fresh b (Nat.le_of_lt bound)
    exact ⟨(Function.update_of_ne (Nat.ne_of_gt bound) _ _).trans inode,file⟩
  · rcases update_inode inode with ⟨-,same⟩ | ⟨-,was⟩
    · cases same
      exact stays
    · exact exact.unremoved b m was

/-- A handle on an inode is closed; the last takes the inode along. -/
theorem exact_close (exact : Exact t held) (found : t.inodes a = some n)
    (counted : ∀ b, outstanding { t with files := g } after b + (if b = a then 1 else 0) = outstanding t held b)
    (denied : ∀ b, denials { t with files := g } b = denials t b) (fresh : ∀ f, t.next ≤ f → g f = none) :
    Exact { t.close a n with files := g } after := by
  have mine := count_found exact found
  have here := counted a
  rw [if_pos rfl,← mine] at here
  rw [Tables.close]
  by_cases last : n.open_cnt = 1
  · rw [if_pos last]
    have none_ : outstanding { t with files := g } after a = 0 := by omega
    have no_denial : denials t a = 0 := by
      rw [← denied a]
      have bound := denials_refs { t with files := g } a
      rw [outstanding] at none_
      omega
    have before : ∀ b m, Function.update t.inodes a none b = some m → b ≠ a ∧ t.inodes b = some m := by
      intro b m inode
      rcases update_inode inode with ⟨-,nothing⟩ | other
      · cases nothing
      · exact other
    refine ⟨exact.once.erase a,fun b => ?_,fun b b' m m' one two equal => ?_,fun b => ?_,fun b m inode => ?_,fun b => ?_,
      fun b later => ?_,fun b m inode => ?_⟩
    · rw [exact.once.mem_erase_iff,exact.listed]
      by_cases same : b = a
      · subst same
        simp
      · simp [same]
    · exact exact.sector b b' m m' (before b m one).2 (before b' m' two).2 equal
    · show Option.elim (Function.update t.inodes a none b) 0 Inode.open_cnt = outstanding { t with files := g } after b
      by_cases same : b = a
      · subst same
        rw [Function.update_self]
        exact none_.symm
      · have there := counted b
        rw [if_neg same] at there
        rw [Function.update_of_ne same]
        exact (exact.count b).trans there.symm
    · exact exact.positive b m (before b m inode).2
    · show Option.elim (Function.update t.inodes a none b) 0 Inode.deny_write_cnt = denials { t with files := g } b
      rw [denied]
      by_cases same : b = a
      · subst same
        rw [Function.update_self]
        exact no_denial.symm
      · rw [Function.update_of_ne same]
        exact exact.deny b
    · refine ⟨?_,fresh b later⟩
      show Function.update t.inodes a none b = none
      by_cases same : b = a
      · subst same
        exact Function.update_self ..
      · rw [Function.update_of_ne same]
        exact (exact.fresh b later).1
    · exact exact.unremoved b m (before b m inode).2
  · rw [if_neg last]
    have positive := exact.positive a n found
    refine exact_adjust exact found (d := n.deny_write_cnt) (by omega) (fun b => ?_) (fun b => by rw [denied]) fresh
    have there := counted b
    by_cases same : b = a
    · rw [if_pos same] at there
      rw [if_pos same,if_pos same]
      omega
    · rw [if_neg same] at there
      rw [if_neg same,if_neg same]
      exact there

/-- A handle becomes a file, which is on the inode instead. -/
theorem exact_file (exact : Exact t held) (found : t.inodes a = some n) (member : a ∈ held) :
    Exact { t with
      files := Function.update t.files t.next (some { inode := a, pos := 0, deny_write := false })
      next := t.next + 1 } (held.erase a) := by
  have unfiled := (exact.fresh t.next (Nat.le_refl _)).2
  have next := exact_next exact
  have same : Function.update t.inodes a (some n) = t.inodes := by rw [← found,Function.update_eq_self]
  have known : t.next < { t with next := t.next + 1 }.next := Nat.lt_succ_self _
  have adjusted : Exact { t with
      inodes := Function.update t.inodes a (some n)
      files := Function.update t.files t.next (some { inode := a, pos := 0, deny_write := false })
      next := t.next + 1 } (held.erase a) := by
    refine exact_adjust next found (exact.positive a n found) (fun b => ?_) (fun b => ?_) fun f later => ?_
    · have change := refs_update known (some { inode := a, pos := 0, deny_write := false }) b
      simp only [unfiled,Option.any_none,Option.any_some,Bool.toNat_false,Nat.add_zero] at change
      rw [outstanding,outstanding,change]
      by_cases here : b = a
      · subst here
        have positive := List.count_pos_iff.mpr member
        rw [if_pos rfl,List.count_erase_self,decide_eq_true rfl]
        show refs _ b + 1 + _ + _ = _
        omega
      · rw [if_neg here,List.count_erase_of_ne here,decide_eq_false (Ne.symm here)]
        rfl
    · have change := denials_update known (some { inode := a, pos := 0, deny_write := false }) b
      simp only [unfiled,Option.any_none,Option.any_some,Bool.toNat_false,Nat.add_zero,Bool.and_false] at change
      exact congrArg (· + _) change
    · have later : t.next < f := later
      rw [Function.update_of_ne (Nat.ne_of_gt later)]
      exact (exact.fresh f (Nat.le_of_lt later)).2
  rwa [same] at adjusted

/-- A file starts or stops denying writes, and its inode counts it. -/
theorem exact_deny {r : Bool} (exact : Exact t held) (file : t.files f = some u) (found : t.inodes u.inode = some n)
    (counted : c + u.deny_write.toNat = n.deny_write_cnt + r.toNat) :
    Exact { t with
      inodes := Function.update t.inodes u.inode (some { n with deny_write_cnt := c })
      files := Function.update t.files f (some { u with deny_write := r }) } held := by
  have known := file_below exact file
  refine exact_adjust exact found (exact.positive _ n found) (fun b => ?_) (fun b => ?_) fun g later => ?_
  · have change := refs_update known (some { u with deny_write := r }) b
    simp only [file,Option.any_some] at change
    rw [outstanding,outstanding]
    omega
  · have change := denials_update known (some { u with deny_write := r }) b
    simp only [file,Option.any_some] at change
    by_cases here : b = u.inode
    · subst here
      simp only [decide_true,Bool.true_and] at change
      rw [if_pos rfl,if_pos rfl]
      omega
    · simp only [decide_eq_false (Ne.symm here),Bool.false_and,Bool.toNat_false] at change
      rw [if_neg here,if_neg here]
      omega
  · rw [Function.update_of_ne (Nat.ne_of_gt (Nat.lt_of_lt_of_le known later))]
    exact (exact.fresh g later).2

/-- A file that allows writes is closed. -/
theorem exact_file_close (exact : Exact t held) (file : t.files f = some u) (found : t.inodes u.inode = some n)
    (allows : u.deny_write = false) : Exact { t.close u.inode n with files := Function.update t.files f none } held := by
  have known := file_below exact file
  refine exact_close exact found (fun b => ?_) (fun b => ?_) fun g later => ?_
  · have change := refs_update known none b
    simp only [file,Option.any_some,Option.any_none,Bool.toNat_false,Nat.add_zero] at change
    rw [outstanding,outstanding]
    by_cases here : b = u.inode
    · subst here
      rw [decide_eq_true rfl,Bool.toNat_true] at change
      rw [if_pos rfl]
      omega
    · rw [decide_eq_false (Ne.symm here)] at change
      rw [if_neg here]
      exact congrArg (· + held.count b) change
  · have change := denials_update known none b
    simpa only [file,allows,Option.any_some,Option.any_none,Bool.toNat_false,Nat.add_zero,Bool.and_false] using change
  · rw [Function.update_of_ne (Nat.ne_of_gt (Nat.lt_of_lt_of_le known later))]
    exact (exact.fresh g later).2

end

/-! ### The calls -/

section
variable {s : FileSystem} {held : List Nat} {a f sector : Nat} {n : Inode} {u : File}

theorem inode_reopen_exact (exact : Exact s.tables held) (found : s.inodes a = some n) :
    ∃ s', inode_reopen s a = some s' ∧ Exact s'.tables (a :: held) := by
  refine ⟨{ s with inodes := Function.update s.inodes a (some { n with open_cnt := n.open_cnt + 1 }) },?_,?_⟩
  · rw [inode_reopen,found]
    rfl
  · have adjusted : Exact { s.tables with
        inodes := Function.update s.inodes a (some { n with open_cnt := n.open_cnt + 1, deny_write_cnt := n.deny_write_cnt })
        files := s.files } (a :: held) := by
      refine exact_adjust exact found (Nat.succ_pos _) (fun b => ?_) (fun b => rfl) fun f later => (exact.fresh f later).2
      show refs s.tables b + (a :: held).count b + _ = refs s.tables b + held.count b + _
      by_cases here : b = a
      · subst here
        rw [if_pos rfl,if_pos rfl,List.count_cons_self]
        omega
      · rw [if_neg here,if_neg here,List.count_cons_of_ne (Ne.symm here)]
    exact adjusted

theorem inode_open_exact (exact : Exact s.tables held) (inside : sector < s.fs_device.size) :
    ∃ r, inode_open s sector = some r ∧ Exact r.2.tables (r.1.toList ++ held) := by
  rw [inode_open]
  cases found : s.open_inodes.find? fun a => (s.inodes a).any fun i => i.sector = sector with
  | some a =>
    have test := List.find?_some found
    cases inode : s.inodes a with
    | none => simp [inode] at test
    | some n =>
      obtain ⟨s',reopened,exact'⟩ := inode_reopen_exact exact inode
      refine ⟨(some a,s'),?_,exact'⟩
      simp only [reopened,Option.map_some]
  | none =>
    have closed : ∀ b m, s.inodes b = some m → m.sector ≠ sector := by
      intro b m inode same
      have listed : b ∈ s.open_inodes := (exact.listed b).mpr (by rw [show s.tables.inodes b = _ from inode]; exact Option.some_ne_none m)
      have test := List.find?_eq_none.mp found b listed
      simp [inode,same] at test
    rw [malloc_eq]
    cases memory : s.memory 0 with
    | false => exact ⟨(none,forget s 1),rfl,exact⟩
    | true =>
      have opened := exact_new exact (n := ⟨sector,1,false,0,inode_disk (s.fs_device.data sector)⟩) rfl rfl rfl closed
      refine ⟨(some s.next,with_inode (forget s 1) sector (inode_disk (s.fs_device.data sector))),?_,opened⟩
      have read : block_read (forget s 1).fs_device sector = some (s.fs_device.data sector) := if_pos inside
      simp only [if_true,Option.bind_eq_bind,read,Option.bind_some]
      rfl

theorem inode_close_eq (found : s.inodes a = some n) (stays : n.removed = false) :
    ∃ s', inode_close s a = some s' ∧ s'.tables = s.tables.close a n := by
  rw [inode_close,found,Tables.close]
  simp only [Option.bind_eq_bind,Option.bind_some]
  by_cases last : n.open_cnt = 1
  · rw [if_pos last,if_pos last,if_neg (by rw [stays]; exact Bool.false_ne_true)]
    exact ⟨_,rfl,rfl⟩
  · rw [if_neg last,if_neg last]
    exact ⟨_,rfl,rfl⟩

theorem inode_close_exact (exact : Exact s.tables held) (member : a ∈ held) :
    ∃ s', inode_close s a = some s' ∧ Exact s'.tables (held.erase a) := by
  obtain ⟨n,found⟩ := held_open exact member
  obtain ⟨s',closed,tables⟩ := inode_close_eq (s := s) found (exact.unremoved a n found)
  refine ⟨s',closed,?_⟩
  have dropped : Exact { s.tables.close a n with files := s.files } (held.erase a) := by
    refine exact_close exact found (fun b => ?_) (fun b => rfl) fun f later => (exact.fresh f later).2
    show refs s.tables b + (held.erase a).count b + _ = refs s.tables b + held.count b
    by_cases here : b = a
    · subst here
      have positive := List.count_pos_iff.mpr member
      rw [if_pos rfl,List.count_erase_self]
      omega
    · rw [if_neg here,List.count_erase_of_ne here]
      rfl
  have files : (s.tables.close a n).files = s.files := close_files _ _ _
  rw [tables]
  rw [← files] at dropped
  exact dropped

theorem file_open_exact (exact : Exact s.tables held) (inode : Option Nat) (member : ∀ a, inode = some a → a ∈ held) :
    ∃ r, file_open s inode = some r ∧ Exact r.2.tables (give held inode) := by
  rw [file_open,malloc_eq]
  cases inode with
  | none => exact ⟨(none,forget s 1),rfl,exact⟩
  | some a =>
    have member := member a rfl
    dsimp only
    cases memory : s.memory 0 with
    | false =>
      obtain ⟨s',closed,exact'⟩ := inode_close_exact (s := forget s 1) exact member
      refine ⟨(none,s'),?_,exact'⟩
      simp only [Bool.false_eq_true,if_false,closed,Option.map_some]
    | true =>
      obtain ⟨n,found⟩ := held_open exact member
      exact ⟨_,rfl,exact_file exact found member⟩

theorem file_reopen_exact (exact : Exact s.tables held) (file : s.files f = some u) :
    ∃ r, file_reopen s f = some r ∧ Exact r.2.tables held := by
  obtain ⟨n,found⟩ := file_open_inode exact file
  obtain ⟨s',reopened,exact'⟩ := inode_reopen_exact (s := s) exact found
  obtain ⟨r,opened,exact''⟩ := file_open_exact exact' (some u.inode) fun a same => by
    cases same
    exact List.mem_cons_self
  refine ⟨r,?_,?_⟩
  · rw [file_reopen,file]
    simp only [Option.bind_eq_bind,Option.bind_some,reopened,opened]
  · rwa [give,Option.elim_some,List.erase_cons_head] at exact''

theorem denying_exact (r : Bool) (exact : Exact s.tables held) (file : s.files f = some u) (found : s.inodes u.inode = some n) :
    Exact (denying s f u n r).tables held := by
  refine exact_deny exact file found ?_
  have counted := deny_found exact found
  have bound : u.deny_write.toNat ≤ n.deny_write_cnt := by
    rw [counted]
    cases denies : u.deny_write with
    | false => exact Nat.zero_le _
    | true => exact denials_positive (file_below exact file) file denies
  omega

theorem file_deny_write_exact (exact : Exact s.tables held) (file : s.files f = some u) :
    ∃ s', file_deny_write s f = some s' ∧ Exact s'.tables held := by
  obtain ⟨n,found⟩ := file_open_inode exact file
  refine ⟨_,file_deny_write_eq file found fun allows => ?_,denying_exact true exact file found⟩
  have few := denials_lt (file_below exact file) file allows
  have count := count_found exact found
  have deny := deny_found exact found
  rw [outstanding] at count
  omega

/-- Then it does not deny writes. -/
theorem file_allow_write_exact (exact : Exact s.tables held) (file : s.files f = some u) :
    ∃ s', file_allow_write s f = some s' ∧ Exact s'.tables held ∧ s'.files f = some { u with deny_write := false } := by
  obtain ⟨n,found⟩ := file_open_inode exact file
  refine ⟨_,file_allow_write_eq file found fun denies => ?_,denying_exact false exact file found,Function.update_self ..⟩
  have positive := denials_positive (file_below exact file) file denies
  have bound := denials_refs s.tables u.inode
  have count := count_found exact found
  have deny := deny_found exact found
  rw [outstanding] at count
  omega

theorem file_close_exact (exact : Exact s.tables held) (file : s.files f = some u) :
    ∃ s', file_close s f = some s' ∧ Exact s'.tables held := by
  obtain ⟨s₁,allowed,exact₁,file₁⟩ := file_allow_write_exact exact file
  obtain ⟨n,found⟩ := file_open_inode exact₁ file₁
  obtain ⟨s₂,closed,tables⟩ := inode_close_eq (s := s₁) found (exact₁.unremoved _ n found)
  refine ⟨{ s₂ with files := Function.update s₂.files f none },?_,?_⟩
  · rw [file_close,allowed]
    simp only [Option.bind_eq_bind,Option.bind_some,file₁,closed]
  · have files : s₂.files = s₁.files := (congrArg Tables.files tables).trans (close_files _ _ _)
    have same : FileSystem.tables { s₂ with files := Function.update s₂.files f none } =
        { s₁.tables.close u.inode n with files := Function.update s₁.tables.files f none } := by
      rw [← tables]
      show _ = { s₂.tables with files := Function.update s₁.files f none }
      rw [← files]
      rfl
    rw [same]
    exact @exact_file_close _ _ _ _ { u with deny_write := false } exact₁ file₁ found rfl

end

/-! ### Every run -/

theorem exact_start {h : Holders} (initial : machine.Initial h) : Exact h.sys.tables h.held := by
  obtain ⟨open_inodes,inodes,files,held⟩ := initial
  have inode : ∀ a, h.sys.tables.inodes a = none := fun a => congrFun inodes a
  have file : ∀ f, h.sys.tables.files f = none := fun f => congrFun files f
  have listed : h.sys.tables.open_inodes = [] := open_inodes
  refine ⟨?_,fun a => ?_,fun a b i j there => ?_,fun a => ?_,fun a i there => ?_,fun a => ?_,fun a _ => ⟨inode a,file a⟩,
    fun a i there => ?_⟩
  · rw [listed]
    exact .nil
  · simp [listed,inode]
  · simp [inode] at there
  · rw [open_cnt,outstanding,refs,held,inode]
    simp [file]
  · simp [inode] at there
  · rw [deny_write_cnt,denials,inode]
    simp [file]
  · simp [inode] at there

/-- A lawful call has a result, and the counts are exact after it. -/
theorem apply_exact {h : Holders} {op : Op} (exact : Exact h.sys.tables h.held) (lawful : Lawful h op) :
    ∃ h', apply h op = some h' ∧ Exact h'.sys.tables h'.held := by
  cases op with
  | inode_open sector =>
    obtain ⟨r,opened,exact'⟩ := inode_open_exact exact lawful
    exact ⟨⟨r.2,_⟩,by rw [apply,opened]; rfl,exact'⟩
  | inode_reopen inode =>
    cases inode with
    | none => exact ⟨h,rfl,exact⟩
    | some a =>
      obtain ⟨n,found⟩ := Option.ne_none_iff_exists'.mp (lawful a rfl)
      obtain ⟨s',reopened,exact'⟩ := inode_reopen_exact exact found
      exact ⟨⟨s',_⟩,by simp only [apply,reopened,Option.map_some],exact'⟩
  | inode_close inode =>
    cases inode with
    | none => exact ⟨h,rfl,exact⟩
    | some a =>
      obtain ⟨s',closed,exact'⟩ := inode_close_exact exact (lawful a rfl)
      exact ⟨⟨s',_⟩,by simp only [apply,closed,Option.map_some],exact'⟩
  | file_open inode =>
    obtain ⟨r,opened,exact'⟩ := file_open_exact exact inode lawful
    exact ⟨⟨r.2,_⟩,by rw [apply,opened]; rfl,exact'⟩
  | file_reopen file =>
    obtain ⟨u,found⟩ := Option.ne_none_iff_exists'.mp lawful
    obtain ⟨r,opened,exact'⟩ := file_reopen_exact exact found
    exact ⟨⟨r.2,_⟩,by rw [apply,opened]; rfl,exact'⟩
  | file_close file =>
    cases file with
    | none => exact ⟨h,rfl,exact⟩
    | some f =>
      obtain ⟨u,found⟩ := Option.ne_none_iff_exists'.mp (lawful f rfl)
      obtain ⟨s',closed,exact'⟩ := file_close_exact exact found
      exact ⟨⟨s',_⟩,by simp only [apply,closed,Option.map_some],exact'⟩
  | file_deny_write file =>
    obtain ⟨u,found⟩ := Option.ne_none_iff_exists'.mp lawful
    obtain ⟨s',denied,exact'⟩ := file_deny_write_exact exact found
    exact ⟨⟨s',_⟩,by rw [apply,denied]; rfl,exact'⟩
  | file_allow_write file =>
    obtain ⟨u,found⟩ := Option.ne_none_iff_exists'.mp lawful
    obtain ⟨s',allowed,exact',-⟩ := file_allow_write_exact exact found
    exact ⟨⟨s',_⟩,by rw [apply,allowed]; rfl,exact'⟩

theorem reaches_exact {Guard : Holders → Op → Prop} {h : Holders} (reached : Reaches machine Guard h) :
    Exact h.sys.tables h.held := by
  refine reaches_invariant (fun h => Exact h.sys.tables h.held) (fun h => exact_start) ?_ reached
  intro h op h' exact _ step
  obtain ⟨h₁,applied,exact'⟩ := apply_exact exact step.1
  obtain rfl := Option.some.inj (applied.symm.trans step.2)
  exact exact'

/-- An inode is in the list as long as there is a handle on it. -/
theorem listed_iff {t : Tables} {held : List Nat} (exact : Exact t held) (a : Nat) :
    a ∈ t.open_inodes ↔ 0 < outstanding t held a := by
  rw [exact.listed,← exact.count a,open_cnt]
  cases found : t.inodes a with
  | none => simp
  | some n => simpa using exact.positive a n found

/-- A sector has at most one open inode. Its counts are those of its handles and of the
    files that deny writes, so that no assertion on them fails, and it leaves the list
    with its last handle. -/
theorem counts_exact {h : Holders} (reached : Reaches machine Anything h) :
    (h.sys.open_inodes.Nodup ∧ (∀ a, a ∈ h.sys.open_inodes ↔ h.sys.inodes a ≠ none) ∧
      ∀ a b i j, h.sys.inodes a = some i → h.sys.inodes b = some j → i.sector = j.sector → a = b) ∧
    (∀ a i, h.sys.inodes a = some i → i.open_cnt = outstanding h.sys.tables h.held a ∧ 0 < i.open_cnt ∧
      i.deny_write_cnt = denials h.sys.tables a ∧ i.deny_write_cnt ≤ i.open_cnt) ∧
    (∀ op, Lawful h op → ∃ h', machine.Step h op h') ∧
    ∀ op h', machine.Step h op h' → ∀ a ∈ h.sys.open_inodes,
      (a ∉ h'.sys.open_inodes ↔ outstanding h'.sys.tables h'.held a = 0) := by
  have exact := reaches_exact reached
  refine ⟨⟨exact.once,exact.listed,exact.sector⟩,fun a i found => ?_,fun op lawful => ?_,fun op h' step a _ => ?_⟩
  · have count := count_found exact found
    have deny := deny_found exact found
    have bound := denials_refs h.sys.tables a
    refine ⟨count,exact.positive a i found,deny,?_⟩
    rw [outstanding] at count
    omega
  · obtain ⟨h',applied,-⟩ := apply_exact exact lawful
    exact ⟨h',lawful,applied⟩
  · have after := reaches_exact (.next reached trivial step)
    rw [show a ∈ h'.sys.open_inodes ↔ _ from listed_iff after a]
    exact Nat.not_lt.trans Nat.le_zero

/-- An inode opened twice, once as a file that denies writes. -/
theorem counts_exact_two : ∃ h i, Reaches machine Anything h ∧ h.sys.inodes 0 = some i ∧ i.open_cnt = 2 ∧ i.deny_write_cnt = 1 ∧
    outstanding h.sys.tables h.held 0 = 2 ∧ denials h.sys.tables 0 = 1 := by
  have start : machine.Initial ⟨{ two_sectors with open_inodes := [], inodes := fun _ => none, next := 0 },[]⟩ :=
    ⟨rfl,rfl,rfl,rfl⟩
  have opened := @Reaches.next _ _ _ Anything _ _ (Op.inode_open 5) (.start start) trivial ⟨show 5 < 9 by decide,rfl⟩
  have again := Reaches.next opened trivial (e := Op.inode_open 5) ⟨show 5 < 9 by decide,rfl⟩
  have filed := Reaches.next again trivial (e := Op.file_open (some 0)) ⟨by rintro a ⟨⟩; exact List.mem_cons_self,rfl⟩
  have denied := Reaches.next filed trivial (e := Op.file_deny_write 1) ⟨Option.some_ne_none _,rfl⟩
  obtain ⟨count,-,deny,-⟩ := (counts_exact denied).2.1 0 _ rfl
  exact ⟨_,_,denied,rfl,rfl,rfl,count.symm,deny.symm⟩

end Pintos.OpenInodes
