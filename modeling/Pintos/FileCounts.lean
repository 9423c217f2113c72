import Pintos.Files
import Pintos.Lists
import Mathlib.Data.List.Nodup

/-!
What holds of the files in memory in every run of the file system calls: the counts
of an inode are those of the files on it, every mapping and every executable has a
file of its own, and descriptors are given out once.
-/
namespace Pintos.FileCounts
open Pintos.Machines Pintos.Files Pintos.Lists
set_option linter.unusedSimpArgs false
variable {s s' : Sys} {t u : Tid} {id x : FileId} {f : File} {i j : Sector} {m : Mapping} {fault : Fault} {e : Event}
  {out : Outcome} {status : Int} {space : Space} {name : Option String}

/-! ### Counting files -/

def on (s : Sys) (i : Sector) (id : FileId) : Bool := (s.files id).any (fun f => f.inode = i)
def denying (s : Sys) (i : Sector) (id : FileId) : Bool := (s.files id).any (fun f => f.inode = i && f.deny_write)

structure Counted (s : Sys) : Prop where
  opens : ∀ i, (s.inodes i).open_cnt = (List.range s.next_file).countP (on s i)
  denies : ∀ i, (s.inodes i).deny_write_cnt = (List.range s.next_file).countP (denying s i)
  fresh : ∀ id, s.next_file ≤ id → s.files id = none
  pos : ∀ id f, s.files id = some f → 0 ≤ f.pos

theorem file_known (counted : Counted s) (found : s.files id = some f) : id < s.next_file := by
  by_contra later
  rw [counted.fresh id (Nat.le_of_not_lt later)] at found
  cases found

/-- An inode that a file is on is open. -/
theorem open_pos (counted : Counted s) (found : s.files id = some f) : 0 < (s.inodes f.inode).open_cnt := by
  rw [counted.opens,List.countP_pos_iff]
  exact ⟨id,List.mem_range.mpr (file_known counted found),by simp [on,found]⟩

theorem on_of_denying (denies : denying s i id = true) : on s i id = true := by
  unfold on
  unfold denying at denies
  cases found : s.files id with
  | none => simp [found] at denies
  | some f =>
    simp only [found,Option.any_some,Bool.and_eq_true] at denies ⊢
    exact denies.1

theorem denies_le_opens (counted : Counted s) (i : Sector) : (s.inodes i).deny_write_cnt ≤ (s.inodes i).open_cnt := by
  rw [counted.opens,counted.denies]
  exact List.countP_mono_left (fun _ _ denies => on_of_denying denies)

/-- One file changes, and the counts of inodes by what it adds or takes away. -/
theorem counted_setFile (after : Option File) {inodes : Sector → Inode} (counted : Counted s) (known : id < s.next_file)
    (pos : ∀ f, after = some f → 0 ≤ f.pos)
    (opens : ∀ i, (inodes i).open_cnt + (on s i id).toNat = (s.inodes i).open_cnt + (after.any (fun f => f.inode = i)).toNat)
    (denies : ∀ i, (inodes i).deny_write_cnt + (denying s i id).toNat = (s.inodes i).deny_write_cnt +
      (after.any (fun f => f.inode = i && f.deny_write)).toNat) :
    Counted { s.setFile id after with inodes := inodes } := by
  have others : ∀ x, x ≠ id → (s.setFile id after).files x = s.files x := by
    intro x other
    simp [Sys.setFile,other]
  refine ⟨?_,?_,?_,?_⟩
  · intro i
    have change := countP_range_change (p := on s i) (q := on (s.setFile id after) i) known
      (fun x other => by simp only [on,others x other])
    have own : on (s.setFile id after) i id = after.any (fun f => f.inode = i) := by simp [on,Sys.setFile]
    rw [own] at change
    have count := opens i
    rw [counted.opens i] at count
    show (inodes i).open_cnt = (List.range s.next_file).countP (on (s.setFile id after) i)
    omega
  · intro i
    have change := countP_range_change (p := denying s i) (q := denying (s.setFile id after) i) known
      (fun x other => by simp only [denying,others x other])
    have own : denying (s.setFile id after) i id = after.any (fun f => f.inode = i && f.deny_write) := by
      simp [denying,Sys.setFile]
    rw [own] at change
    have count := denies i
    rw [counted.denies i] at count
    show (inodes i).deny_write_cnt = (List.range s.next_file).countP (denying (s.setFile id after) i)
    omega
  · intro x later
    have other : x ≠ id := by
      rintro rfl
      exact absurd known (Nat.not_lt.mpr later)
    exact (others x other).trans (counted.fresh x later)
  · intro x f found
    by_cases own : x = id
    · subst own
      exact pos f (by simpa [Sys.setFile] using found)
    · exact counted.pos x f ((others x own).symm.trans found)

/-- Nothing that the counts see changes. -/
theorem counted_same (counted : Counted s) (files : s'.files = s.files) (next_file : s'.next_file = s.next_file)
    (opens : ∀ i, (s'.inodes i).open_cnt = (s.inodes i).open_cnt)
    (denies : ∀ i, (s'.inodes i).deny_write_cnt = (s.inodes i).deny_write_cnt) : Counted s' := by
  refine ⟨?_,?_,?_,?_⟩
  · intro i
    rw [opens,counted.opens,next_file]
    refine List.countP_congr ?_
    intro x _
    rw [on,on,files]
  · intro i
    rw [denies,counted.denies,next_file]
    refine List.countP_congr ?_
    intro x _
    rw [denying,denying,files]
  · intro x later
    rw [files]
    exact counted.fresh x (next_file ▸ later)
  · intro x f found
    exact counted.pos x f (files ▸ found)

/-! ### Operations on one file -/

/-- Only the file `id`, and the counts of inodes, may differ. -/
structure OnlyFile (id : FileId) (s s' : Sys) : Prop where
  fd_name_mapping : s'.fd_name_mapping = s.fd_name_mapping
  fd_index : s'.fd_index = s.fd_index
  files : ∀ x, x ≠ id → s'.files x = s.files x
  next_file : s'.next_file = s.next_file
  bytes : ∀ i, (s'.inodes i).bytes = (s.inodes i).bytes ∧ (s'.inodes i).length = (s.inodes i).length
  root : s'.root = s.root
  live : s'.live = s.live
  executable : s'.executable = s.executable
  next_tid : s'.next_tid = s.next_tid

theorem onlyFile_refl : OnlyFile id s s := ⟨rfl,rfl,fun _ _ => rfl,rfl,fun _ => ⟨rfl,rfl⟩,rfl,rfl,rfl,rfl⟩

theorem onlyFile_setFile {after : Option File} {inodes : Sector → Inode}
    (bytes : ∀ i, (inodes i).bytes = (s.inodes i).bytes ∧ (inodes i).length = (s.inodes i).length) :
    OnlyFile id s { s.setFile id after with inodes := inodes } :=
  ⟨rfl,rfl,fun x other => by simp [Sys.setFile,other],rfl,bytes,rfl,rfl,rfl,rfl⟩

/-- The assertions of `inode_allow_write` hold for a file that denies writes. -/
theorem allow_spec (counted : Counted s) (found : s.files id = some f) : ∃ s', file_allow_write s id = .ok s' ∧
    Counted s' ∧ OnlyFile id s s' ∧ s'.files id = some { f with deny_write := false } := by
  have known := file_known counted found
  unfold file_allow_write
  rw [found]
  dsimp only
  by_cases denies : f.deny_write = true
  · rw [if_pos denies]
    have positive : 0 < (s.inodes f.inode).deny_write_cnt := by
      rw [counted.denies,List.countP_pos_iff]
      exact ⟨id,List.mem_range.mpr known,by simp [denying,found,denies]⟩
    have below := denies_le_opens counted f.inode
    unfold inode_allow_write
    rw [if_pos ⟨positive,below⟩]
    refine ⟨_,rfl,?_,?_,by simp [Sys.setInode,Sys.setFile]⟩
    · refine counted_setFile (some { f with deny_write := false }) counted known ?_ ?_ ?_
      · intro g same
        cases same
        exact counted.pos id f found
      · intro i
        by_cases here : i = f.inode
        · subst here; simp [on,found,Sys.setFile]
        · simp [on,found,Sys.setFile,here,Ne.symm here]
      · intro i
        by_cases here : i = f.inode
        · subst here
          simp only [denying,found,Option.any_some,denies,decide_true,Bool.and_self,Bool.toNat_true,Bool.and_false,
            Bool.toNat_false,Sys.setFile,↓reduceIte]
          omega
        · simp [denying,found,Sys.setFile,here,Ne.symm here]
    · refine onlyFile_setFile ?_
      intro i
      by_cases here : i = f.inode
      · subst here; simp [Sys.setFile]
      · simp [here,Sys.setFile]
  · rw [if_neg denies]
    have same : f = { f with deny_write := false } := by
      cases f
      simp_all
    exact ⟨s,rfl,counted,onlyFile_refl,by rw [found,← same]⟩

theorem deny_spec (counted : Counted s) (found : s.files id = some f) (allows : f.deny_write = false) :
    ∃ s', file_deny_write s id = .ok s' ∧ Counted s' ∧ OnlyFile id s s' ∧
      s'.files id = some { f with deny_write := true } := by
  have known := file_known counted found
  -- This file is open and does not deny writes, so fewer files deny than are open.
  have room : (s.inodes f.inode).deny_write_cnt + 1 ≤ (s.inodes f.inode).open_cnt := by
    obtain ⟨more,rule⟩ : ∃ more : FileId → Bool, ∀ x, more x = if x = id then true else denying s f.inode x :=
      ⟨_,fun _ => rfl⟩
    have change := countP_range_change (p := denying s f.inode) (q := more) known (fun x other => by simp [rule,other])
    have below : (List.range s.next_file).countP more ≤ (List.range s.next_file).countP (on s f.inode) := by
      refine List.countP_mono_left ?_
      intro x _ test
      rw [rule] at test
      by_cases own : x = id
      · subst own; simp [on,found]
      · rw [if_neg own] at test
        exact on_of_denying test
    have own : denying s f.inode id = false := by simp [denying,found,allows]
    rw [own,rule id,if_pos rfl,Bool.toNat_false,Bool.toNat_true] at change
    rw [counted.denies,counted.opens]
    omega
  unfold file_deny_write
  rw [found]
  simp only [allows,Bool.false_eq_true,↓reduceIte]
  unfold inode_deny_write
  rw [if_pos (by exact room)]
  refine ⟨_,rfl,?_,?_,by simp [Sys.setInode,Sys.setFile]⟩
  · refine counted_setFile (some { f with deny_write := true }) counted known ?_ ?_ ?_
    · intro g same
      cases same
      exact counted.pos id f found
    · intro i
      by_cases here : i = f.inode
      · subst here; simp [on,found,Sys.setFile]
      · simp [on,found,Sys.setFile,here,Ne.symm here]
    · intro i
      by_cases here : i = f.inode
      · subst here; simp [denying,found,Sys.setFile,allows]
      · simp [denying,found,Sys.setFile,here,Ne.symm here]
  · refine onlyFile_setFile ?_
    intro i
    by_cases here : i = f.inode
    · subst here; simp [Sys.setFile]
    · simp [here,Sys.setFile]

theorem close_spec (counted : Counted s) (found : s.files id = some f) : ∃ s', file_close s id = .ok s' ∧
    Counted s' ∧ OnlyFile id s s' ∧ s'.files id = none := by
  obtain ⟨s1,allowed,counted1,only,here⟩ := allow_spec counted found
  have known := file_known counted1 here
  have positive := open_pos counted1 here
  unfold file_close
  rw [found]
  simp only [allowed,Except.map]
  refine ⟨_,rfl,?_,?_,by simp [Sys.setFile]⟩
  · refine counted_setFile none counted1 known (by simp) ?_ ?_
    · intro i
      by_cases same : i = f.inode
      · subst same
        simp only [on,here,Option.any_some,decide_true,Bool.toNat_true,Option.any_none,Bool.toNat_false,inode_close,
          Sys.setInode,↓reduceIte] at positive ⊢
        omega
      · simp [on,here,same,Ne.symm same,inode_close,Sys.setInode]
    · intro i
      by_cases same : i = f.inode
      · subst same; simp [denying,here,inode_close,Sys.setInode]
      · simp [denying,here,same,inode_close,Sys.setInode]
  · have closed : OnlyFile id s1 { s1.setFile id none with inodes := (inode_close s1 f.inode).inodes } :=
      onlyFile_setFile (by
        intro i
        by_cases same : i = f.inode
        · subst same; simp [inode_close,Sys.setInode]
        · simp [inode_close,Sys.setInode,same])
    exact ⟨closed.fd_name_mapping.trans only.fd_name_mapping,closed.fd_index.trans only.fd_index,
      fun x other => (closed.files x other).trans (only.files x other),closed.next_file.trans only.next_file,
      fun i => ⟨(closed.bytes i).1.trans (only.bytes i).1,(closed.bytes i).2.trans (only.bytes i).2⟩,
      closed.root.trans only.root,closed.live.trans only.live,closed.executable.trans only.executable,
      closed.next_tid.trans only.next_tid⟩

/-! ### Opening -/

/-- What `filesys_open` gives: nothing new, or a file of its own at position zero. -/
inductive Opened (s : Sys) : Option FileId → Sys → Prop
  | refused : Opened s none s
  | new {s' : Sys} (i : Sector) (file : s'.files s.next_file = some { inode := i, pos := 0, deny_write := false })
      (files : ∀ x, x ≠ s.next_file → s'.files x = s.files x) (next_file : s'.next_file = s.next_file + 1)
      (bytes : ∀ j, (s'.inodes j).bytes = (s.inodes j).bytes ∧ (s'.inodes j).length = (s.inodes j).length)
      (fd_name_mapping : s'.fd_name_mapping = s.fd_name_mapping) (fd_index : s'.fd_index = s.fd_index)
      (live : s'.live = s.live) (executable : s'.executable = s.executable) (next_tid : s'.next_tid = s.next_tid) :
      Opened s (some s.next_file) s'

theorem inode_open_cnt (i j : Sector) : ((inode_open s i).inodes j).open_cnt = (s.inodes j).open_cnt + (decide (j = i)).toNat := by
  unfold inode_open
  by_cases same : j = i
  · subst same
    dsimp only
    split
    · next zero => simp [Sys.setInode,zero]
    · simp [Sys.setInode]
  · dsimp only
    split <;> simp [Sys.setInode,same]

/-- An inode that is not open denies no writes, so that nothing is lost when it is
    read again. -/
theorem inode_open_deny (counted : Counted s) (i j : Sector) :
    ((inode_open s i).inodes j).deny_write_cnt = (s.inodes j).deny_write_cnt := by
  have below := denies_le_opens counted i
  unfold inode_open
  by_cases same : j = i
  · subst same
    dsimp only
    split
    · next zero =>
      simp only [Sys.setInode,↓reduceIte]
      omega
    · simp [Sys.setInode]
  · dsimp only
    split <;> simp [Sys.setInode,same]

theorem inode_open_bytes (i j : Sector) : ((inode_open s i).inodes j).bytes = (s.inodes j).bytes ∧
    ((inode_open s i).inodes j).length = (s.inodes j).length := by
  unfold inode_open
  by_cases same : j = i
  · subst same
    dsimp only
    split <;> simp [Sys.setInode]
  · dsimp only
    split <;> simp [Sys.setInode,same]

theorem inode_open_frame (i : Sector) : inode_open s i = { s with inodes := (inode_open s i).inodes } := by
  unfold inode_open
  dsimp only
  split <;> rfl

/-- A property of the files before `n` is counted alike if these files are the same. -/
theorem count_earlier {s s' : Sys} {n : Nat} (same : ∀ x < n, s'.files x = s.files x) (p : File → Bool) :
    (List.range n).countP (fun x => (s'.files x).any p) = (List.range n).countP fun x => (s.files x).any p :=
  List.countP_congr fun x member => by rw [same x (List.mem_range.mp member)]

theorem counted_new (counted : Counted s) (i : Sector) :
    Counted { (inode_open s i).setFile s.next_file (some { inode := i, pos := 0, deny_write := false }) with
      next_file := s.next_file + 1 } := by
  have bare : s.files s.next_file = none := counted.fresh _ (Nat.le_refl _)
  have others : ∀ x, x ≠ s.next_file → ((inode_open s i).setFile s.next_file
      (some { inode := i, pos := 0, deny_write := false })).files x = s.files x := by
    intro x other
    rw [inode_open_frame]
    simp [Sys.setFile,other]
  refine ⟨?_,?_,?_,?_⟩
  · intro j
    show ((inode_open s i).inodes j).open_cnt = _
    rw [inode_open_cnt,counted.opens]
    show _ = (List.range (s.next_file + 1)).countP _
    rw [List.range_succ,List.countP_append,List.countP_singleton]
    congr 1
    · exact (count_earlier (fun x below => others x (Nat.ne_of_lt below)) _).symm
    · by_cases same : j = i
      · subst same; simp [on,Sys.setFile]
      · simp [on,Sys.setFile,same,Ne.symm same]
  · intro j
    show ((inode_open s i).inodes j).deny_write_cnt = _
    rw [inode_open_deny counted,counted.denies]
    show _ = (List.range (s.next_file + 1)).countP _
    rw [List.range_succ,List.countP_append,List.countP_singleton]
    have new : denying { (inode_open s i).setFile s.next_file (some { inode := i, pos := 0, deny_write := false }) with
        next_file := s.next_file + 1 } j s.next_file = false := by simp [denying,Sys.setFile]
    rw [new]
    exact (count_earlier (fun x below => others x (Nat.ne_of_lt below)) _).symm
  · intro x later
    have later : s.next_file + 1 ≤ x := later
    exact (others x (Nat.ne_of_gt later)).trans (counted.fresh x (Nat.le_of_succ_le later))
  · intro x f found
    by_cases own : x = s.next_file
    · subst own
      have same : some { inode := i, pos := 0, deny_write := false } = some f := by simpa [Sys.setFile] using found
      cases same
      exact Int.le_refl 0
    · exact counted.pos x f ((others x own).symm.trans found)

theorem open_spec (counted : Counted s) (text : String) (space : Space) :
    ∃ file s', filesys_open s (some text) space = .ok (file,s') ∧ Counted s' ∧ Opened s file s' := by
  unfold filesys_open
  split
  · exact ⟨none,s,rfl,counted,.refused⟩
  · dsimp only
    split
    · exact ⟨none,s,rfl,counted,.refused⟩
    · next i found =>
      split
      · refine ⟨_,_,rfl,counted_new counted i,.new i ?_ ?_ rfl (inode_open_bytes i) ?_ ?_ ?_ ?_ ?_⟩
        · simp [Sys.setFile]
        · intro x other
          rw [inode_open_frame]
          simp [Sys.setFile,other]
        all_goals
          rw [inode_open_frame]
          rfl
      · exact ⟨none,s,rfl,counted,.refused⟩

/-! ### Descriptors and executables -/

structure Linked (s : Sys) : Prop where
  entry : ∀ m ∈ s.fd_name_mapping, s.live m.tid = true ∧ ∃ f, s.files m.file = some f
  once : (s.fd_name_mapping.map Mapping.file).Nodup
  apart : ∀ t id, s.executable t = some id → ∀ m ∈ s.fd_name_mapping, m.file ≠ id
  running : ∀ t id, s.executable t = some id → ∃ f, s.files id = some f
  runOnce : ∀ t u id, s.executable t = some id → s.executable u = some id → t = u
  tids : ∀ t, s.next_tid ≤ t → s.live t = false ∧ s.executable t = none
  fds : ∀ m ∈ s.fd_name_mapping, 2 ≤ m.fd ∧ m.fd < s.fd_index
  fdsOnce : (s.fd_name_mapping.map Mapping.fd).Nodup
  index : 2 ≤ s.fd_index

structure Inv (s : Sys) : Prop extends Counted s, Linked s

/-- The files of fewer mappings, all of them still there. -/
theorem linked_fewer (linked : Linked s) (fewer : s'.fd_name_mapping.Sublist s.fd_name_mapping)
    (files : ∀ m ∈ s'.fd_name_mapping, ∃ f, s'.files m.file = some f)
    (running : ∀ t id, s.executable t = some id → ∃ f, s'.files id = some f) (live : s'.live = s.live)
    (executable : s'.executable = s.executable) (next_tid : s'.next_tid = s.next_tid) (fd_index : s'.fd_index = s.fd_index) :
    Linked s' := by
  refine ⟨?_,?_,?_,?_,?_,?_,?_,?_,?_⟩
  · intro m member
    rw [live]
    exact ⟨(linked.entry m (fewer.subset member)).1,files m member⟩
  · exact linked.once.sublist (fewer.map _)
  · intro t id runs m member
    exact linked.apart t id (executable ▸ runs) m (fewer.subset member)
  · intro t id runs
    exact running t id (executable ▸ runs)
  · simpa only [executable] using linked.runOnce
  · simpa only [live,executable,next_tid] using linked.tids
  · intro m member
    rw [fd_index]
    exact linked.fds m (fewer.subset member)
  · exact linked.fdsOnce.sublist (fewer.map _)
  · rw [fd_index]
    exact linked.index

/-- A file changes and stays. -/
theorem linked_only (linked : Linked s) (only : OnlyFile id s s') (stays : ∃ f, s'.files id = some f) : Linked s' := by
  have files : ∀ x, (∃ f, s.files x = some f) → ∃ f, s'.files x = some f := by
    intro x found
    by_cases own : x = id
    · exact own ▸ stays
    · rw [only.files x own]
      exact found
  refine linked_fewer linked (by rw [only.fd_name_mapping]) ?_ ?_ only.live only.executable only.next_tid only.fd_index
  · intro m member
    rw [only.fd_name_mapping] at member
    exact files m.file (linked.entry m member).2
  · exact fun t x runs => files x (linked.running t x runs)

/-- What the exit of `t` does to the descriptors and the files. -/
structure Left (t : Tid) (s s' : Sys) : Prop where
  fd_name_mapping : s'.fd_name_mapping = s.fd_name_mapping.filter (fun m => m.tid ≠ t)
  fd_index : s'.fd_index = s.fd_index
  files : ∀ x, (∀ m ∈ s.fd_name_mapping, m.tid = t → m.file ≠ x) → s'.files x = s.files x
  next_file : s'.next_file = s.next_file
  bytes : ∀ i, (s'.inodes i).bytes = (s.inodes i).bytes ∧ (s'.inodes i).length = (s.inodes i).length
  root : s'.root = s.root
  live : s'.live = s.live
  executable : s'.executable = s.executable
  next_tid : s'.next_tid = s.next_tid

/-- Erasing the first element that meets a test. -/
theorem eraseP_rest {α : Type} {p : α → Bool} {xs : List α} {a : α} (found : xs.find? p = some a) :
    xs.countP p = (xs.eraseP p).countP p + 1 ∧ (xs.eraseP p).filter (fun x => !p x) = xs.filter (fun x => !p x) := by
  induction xs with
  | nil => simp at found
  | cons b rest ih =>
    cases test : p b with
    | true => simp [test]
    | false =>
      have later : rest.find? p = some a := by simpa [test] using found
      simpa [test] using ih later

/-- One turn of the loop of `syscall_exit`. -/
theorem exit_turn (inv : Inv s) (found : find_mapping_by_tid s t = some m) : ∃ s',
    file_close { s with fd_name_mapping := s.fd_name_mapping.eraseP (fun m => m.tid = t) } m.file = .ok s' ∧ Inv s' ∧
    OnlyFile m.file { s with fd_name_mapping := s.fd_name_mapping.eraseP (fun m => m.tid = t) } s' := by
  obtain ⟨owner,before,after,split,earlier⟩ := List.find?_eq_some_iff_append.mp found
  have member : m ∈ s.fd_name_mapping := List.mem_of_find?_eq_some found
  have erased : s.fd_name_mapping.eraseP (fun m => m.tid = t) = before ++ after :=
    List.eraseP_eq_iff.mpr (.inr ⟨m,before,after,by simpa using earlier,owner,split,rfl⟩)
  have sublist : (before ++ after).Sublist s.fd_name_mapping := by
    rw [split]
    exact List.Sublist.append_left (List.sublist_cons_self m after) before
  have once := inv.once
  rw [split,List.map_append,List.map_cons,List.nodup_middle,List.nodup_cons,← List.map_append] at once
  obtain ⟨-,f,here⟩ := inv.entry m member
  have counted : Counted { s with fd_name_mapping := s.fd_name_mapping.eraseP (fun m => m.tid = t) } :=
    counted_same inv.toCounted rfl rfl (fun _ => rfl) (fun _ => rfl)
  obtain ⟨s',closed,countedToo,only,-⟩ := close_spec counted here
  have other : ∀ d ∈ before ++ after, d.file ≠ m.file :=
    fun d listed same => once.1 (List.mem_map.mpr ⟨d,listed,same⟩)
  refine ⟨s',closed,⟨countedToo,?_⟩,only⟩
  have mapping : s'.fd_name_mapping = before ++ after := only.fd_name_mapping.trans erased
  refine linked_fewer inv.toLinked (by rw [mapping]; exact sublist) ?_ ?_ only.live only.executable only.next_tid only.fd_index
  · intro d listed
    rw [mapping] at listed
    rw [only.files d.file (other d listed)]
    exact (inv.entry d (sublist.subset listed)).2
  · intro u x runs
    rw [only.files x (Ne.symm (inv.apart u x runs m member))]
    exact inv.running u x runs

theorem exitLoop_spec (n : Nat) : ∀ s : Sys, Inv s → s.fd_name_mapping.countP (fun m => m.tid = t) ≤ n →
    ∃ s', exitLoop n s t = .ok s' ∧ Inv s' ∧ Left t s s' := by
  have done : ∀ s : Sys, Inv s → find_mapping_by_tid s t = none → Left t s s := by
    intro s inv none
    refine ⟨?_,rfl,fun _ _ => rfl,rfl,fun _ => ⟨rfl,rfl⟩,rfl,rfl,rfl,rfl⟩
    refine (List.filter_eq_self.mpr ?_).symm
    intro m member
    have := List.find?_eq_none.mp none m member
    simpa using this
  induction n with
  | zero =>
    intro s inv enough
    have none : find_mapping_by_tid s t = none := by
      refine List.find?_eq_none.mpr ?_
      intro m member owner
      have := List.countP_pos_iff (p := fun m : Mapping => decide (m.tid = t)) |>.mpr ⟨m,member,owner⟩
      omega
    exact ⟨s,rfl,inv,done s inv none⟩
  | succ n ih =>
    intro s inv enough
    unfold exitLoop
    cases found : find_mapping_by_tid s t with
    | none => exact ⟨s,rfl,inv,done s inv found⟩
    | some m =>
      obtain ⟨s1,closed,inv1,only⟩ := exit_turn inv found
      have owner : m.tid = t := by simpa using List.find?_some found
      have member : m ∈ s.fd_name_mapping := List.mem_of_find?_eq_some found
      obtain ⟨fewer,rest⟩ := eraseP_rest (p := fun m : Mapping => decide (m.tid = t)) found
      have room : s1.fd_name_mapping.countP (fun m => m.tid = t) ≤ n := by
        rw [only.fd_name_mapping]
        rw [fewer] at enough
        exact Nat.le_of_succ_le_succ enough
      obtain ⟨s',loop,inv',left⟩ := ih s1 inv1 room
      refine ⟨s',by simp only [closed]; exact loop,inv',?_⟩
      refine ⟨?_,left.fd_index.trans only.fd_index,?_,left.next_file.trans only.next_file,?_,left.root.trans only.root,
        left.live.trans only.live,left.executable.trans only.executable,left.next_tid.trans only.next_tid⟩
      · rw [left.fd_name_mapping,only.fd_name_mapping]
        simpa using rest
      · intro x free
        have other : x ≠ m.file := fun same => free m member owner same.symm
        rw [left.files x,only.files x other]
        intro d listed
        rw [only.fd_name_mapping] at listed
        exact free d (List.mem_of_mem_eraseP listed)
      · intro i
        exact ⟨(left.bytes i).1.trans (only.bytes i).1,(left.bytes i).2.trans (only.bytes i).2⟩

/-- A process leaves: no assertion fails on the way. -/
structure Gone (t : Tid) (s s' : Sys) : Prop where
  fd_name_mapping : s'.fd_name_mapping = s.fd_name_mapping.filter (fun m => m.tid ≠ t)
  files : ∀ x, (∀ m ∈ s.fd_name_mapping, m.tid = t → m.file ≠ x) → s.executable t ≠ some x → s'.files x = s.files x
  bytes : ∀ i, (s'.inodes i).bytes = (s.inodes i).bytes ∧ (s'.inodes i).length = (s.inodes i).length
  live : ∀ u, s'.live u = if u = t then false else s.live u

theorem exit_spec (inv : Inv s) (status : Int) : ∃ s', syscall_exit s t status = .ok (.exited status s') ∧ Inv s' ∧
    Gone t s s' := by
  have enough : s.fd_name_mapping.countP (fun m => m.tid = t) ≤ s.fd_name_mapping.length := List.countP_le_length
  obtain ⟨s1,loop,inv1,left⟩ := exitLoop_spec (t := t) _ s inv enough
  have dead : Inv { s1 with live := fun u => if u = t then false else s1.live u } := by
    refine ⟨counted_same inv1.toCounted rfl rfl (fun _ => rfl) (fun _ => rfl),?_⟩
    refine ⟨?_,inv1.once,inv1.apart,inv1.running,inv1.runOnce,?_,inv1.fds,inv1.fdsOnce,inv1.index⟩
    · intro m member
      obtain ⟨live,file⟩ := inv1.entry m member
      have other : m.tid ≠ t := by
        have listed : m ∈ s.fd_name_mapping.filter (fun m => m.tid ≠ t) := left.fd_name_mapping ▸ member
        simpa using (List.mem_filter.mp listed).2
      exact ⟨by simpa [other] using live,file⟩
    · intro u later
      obtain ⟨live,executable⟩ := inv1.tids u later
      refine ⟨?_,executable⟩
      show (if u = t then false else s1.live u) = false
      rw [live,ite_self]
  unfold syscall_exit
  rw [loop]
  cases runs : s1.executable t with
  | none =>
    refine ⟨_,by simp only [runs],dead,left.fd_name_mapping,fun x free _ => left.files x free,left.bytes,?_⟩
    intro u
    show (if u = t then false else s1.live u) = _
    rw [left.live]
  | some id =>
    obtain ⟨f,here⟩ := inv1.running t id runs
    obtain ⟨s2,allowed,counted2,only,stays⟩ := allow_spec dead.toCounted here
    refine ⟨s2,by simp only [runs,allowed,Except.map],⟨counted2,linked_only dead.toLinked only ⟨_,stays⟩⟩,
      only.fd_name_mapping.trans left.fd_name_mapping,?_,?_,?_⟩
    · intro x free other
      have different : x ≠ id := by
        rintro rfl
        exact other (left.executable ▸ runs)
      exact (only.files x different).trans (left.files x free)
    · intro i
      exact ⟨(only.bytes i).1.trans (left.bytes i).1,(only.bytes i).2.trans (left.bytes i).2⟩
    · intro u
      rw [only.live]
      show (if u = t then false else s1.live u) = _
      rw [left.live]

/-! ### Every call -/

theorem find_file_some (inv : Inv s) {fd : Int} (found : find_mapping_by_fd s fd = some m) :
    ∃ f, s.files m.file = some f ∧ find_file_by_fd s fd = some (m.file,f) := by
  obtain ⟨-,f,here⟩ := inv.entry m (List.mem_of_find?_eq_some found)
  exact ⟨f,here,by simp [find_file_by_fd,found,here]⟩

theorem find_file_found {fd : Int} (found : find_file_by_fd s fd = some (id,f)) :
    s.files id = some f ∧ ∃ m, find_mapping_by_fd s fd = some m ∧ m.file = id := by
  obtain ⟨m,mapped,file⟩ := Option.bind_eq_some_iff.mp found
  obtain ⟨g,here,same⟩ := Option.map_eq_some_iff.mp file
  obtain ⟨rfl,rfl⟩ := Prod.mk.inj same
  exact ⟨here,m,mapped,rfl⟩

theorem chunk_le {length size offset : Int} (more : ¬ (size ≤ 0 ∨ chunkSize length size offset ≤ 0)) :
    0 < chunkSize length size offset := by
  omega

/-- The loops count up from what they are given. -/
theorem readLoop_ge (length : Int) (n : Nat) : ∀ size offset bytes_read : Int,
    bytes_read ≤ readLoop length n size offset bytes_read := by
  induction n with
  | zero => exact fun _ _ _ => Int.le_refl _
  | succ n ih =>
    intro size offset bytes_read
    unfold readLoop
    dsimp only
    split
    · exact Int.le_refl _
    · next more =>
      have := ih (size - chunkSize length size offset) (offset + chunkSize length size offset)
        (bytes_read + chunkSize length size offset)
      have := chunk_le more
      omega

theorem writeLoop_ge (length : Int) (buffer : Int → UInt8) (n : Nat) : ∀ (size offset bytes_written : Int) (bytes : Int → UInt8),
    bytes_written ≤ (writeLoop length buffer n size offset bytes_written bytes).1 := by
  induction n with
  | zero => exact fun _ _ _ _ => Int.le_refl _
  | succ n ih =>
    intro size offset bytes_written bytes
    unfold writeLoop
    dsimp only
    split
    · exact Int.le_refl _
    · next more =>
      have := chunk_le more
      exact Int.le_trans (by omega) (ih _ _ _ _)

theorem read_ge (v : Inode) (size offset : Int) : 0 ≤ inode_read_at v size offset := readLoop_ge _ _ _ _ _
theorem write_ge (v : Inode) (buffer : Int → UInt8) (size offset : Int) : 0 ≤ (inode_write_at v buffer size offset).1 := by
  unfold inode_write_at
  split
  · exact Int.le_refl _
  · exact writeLoop_ge _ _ _ _ _ _ _

/-- A file moves to another place. -/
theorem inv_setPos (inv : Inv s) (found : s.files id = some f) {pos : Int} (ahead : 0 ≤ pos) {inodes : Sector → Inode}
    (opens : ∀ i, (inodes i).open_cnt = (s.inodes i).open_cnt)
    (denies : ∀ i, (inodes i).deny_write_cnt = (s.inodes i).deny_write_cnt) :
    Inv { s.setFile id (some { f with pos := pos }) with inodes := inodes } := by
  constructor
  · refine counted_setFile _ inv.toCounted (file_known inv.toCounted found) ?_ ?_ ?_
    · intro g same
      cases same
      exact ahead
    · intro i
      simp [on,found,opens]
    · intro i
      simp [denying,found,denies]
  · have files : ∀ x, (∃ g, s.files x = some g) → ∃ g, (s.setFile id (some { f with pos := pos })).files x = some g := by
      intro x here
      by_cases own : x = id
      · subst own; simp [Sys.setFile]
      · simpa [Sys.setFile,own] using here
    exact linked_fewer inv.toLinked (List.Sublist.refl _) (fun m member => files _ (inv.entry m member).2)
      (fun t x runs => files x (inv.running t x runs)) rfl rfl rfl rfl

/-- Only the directory, and inodes but not their counts, change. -/
theorem inv_disk (root : List (String × Sector)) (inv : Inv s) {inodes : Sector → Inode}
    (opens : ∀ i, (inodes i).open_cnt = (s.inodes i).open_cnt)
    (denies : ∀ i, (inodes i).deny_write_cnt = (s.inodes i).deny_write_cnt) :
    Inv { s with inodes := inodes, root := root } :=
  ⟨counted_same inv.toCounted rfl rfl opens denies,
    ⟨inv.entry,inv.once,inv.apart,inv.running,inv.runOnce,inv.tids,inv.fds,inv.fdsOnce,inv.index⟩⟩

theorem markClosed_map (fd : Int) (mapping : List Mapping) :
    (markClosed fd mapping).map Mapping.file = mapping.map Mapping.file ∧
    (markClosed fd mapping).map Mapping.fd = mapping.map Mapping.fd ∧
    (markClosed fd mapping).map Mapping.tid = mapping.map Mapping.tid := by
  induction mapping with
  | nil => exact ⟨rfl,rfl,rfl⟩
  | cons m rest ih =>
    unfold markClosed
    split
    · exact ⟨rfl,rfl,rfl⟩
    · simp only [List.map_cons,ih.1,ih.2.1,ih.2.2,and_self]

/-- A mapping after `markClosed` is one of before, but for its state. -/
theorem mem_markClosed {fd : Int} {mapping : List Mapping} (member : m ∈ markClosed fd mapping) :
    ∃ old ∈ mapping, m.tid = old.tid ∧ m.fd = old.fd ∧ m.file = old.file := by
  induction mapping with
  | nil => cases member
  | cons a rest ih =>
    unfold markClosed at member
    split at member
    · rcases List.mem_cons.mp member with rfl | later
      · exact ⟨a,List.mem_cons_self,rfl,rfl,rfl⟩
      · exact ⟨m,List.mem_cons_of_mem a later,rfl,rfl,rfl⟩
    · rcases List.mem_cons.mp member with rfl | later
      · exact ⟨m,List.mem_cons_self,rfl,rfl,rfl⟩
      · obtain ⟨old,inside,same⟩ := ih later
        exact ⟨old,List.mem_cons_of_mem a inside,same⟩

theorem inv_markClosed (inv : Inv s) (fd : Int) : Inv { s with fd_name_mapping := markClosed fd s.fd_name_mapping } := by
  obtain ⟨files,fds,-⟩ := markClosed_map fd s.fd_name_mapping
  refine ⟨counted_same inv.toCounted rfl rfl (fun _ => rfl) (fun _ => rfl),?_⟩
  refine ⟨?_,by rw [files]; exact inv.once,?_,inv.running,inv.runOnce,inv.tids,?_,by rw [fds]; exact inv.fdsOnce,inv.index⟩
  · intro m member
    obtain ⟨old,inside,owner,-,file⟩ := mem_markClosed member
    rw [owner,file]
    exact inv.entry old inside
  · intro t x runs m member
    obtain ⟨old,inside,-,-,file⟩ := mem_markClosed member
    rw [file]
    exact inv.apart t x runs old inside
  · intro m member
    obtain ⟨old,inside,-,fd,-⟩ := mem_markClosed member
    rw [fd]
    exact inv.fds old inside

/-- A file that was just opened belongs to nobody yet. -/
theorem opened_inv {file : Option FileId} (inv : Inv s) (counted : Counted s') (opened : Opened s file s') : Inv s' ∧
    ∀ id, file = some id → (∃ f, s'.files id = some f ∧ f.deny_write = false) ∧
      (∀ m ∈ s'.fd_name_mapping, m.file ≠ id) ∧ ∀ t, s'.executable t ≠ some id := by
  cases opened with
  | refused => exact ⟨inv,fun id none => by cases none⟩
  | new i here files next_file bytes fd_name_mapping fd_index live executable next_tid =>
    have known : ∀ x, (∃ f, s.files x = some f) → x ≠ s.next_file := by
      rintro x ⟨f,found⟩
      exact Nat.ne_of_lt (file_known inv.toCounted found)
    have stays : ∀ x, (∃ f, s.files x = some f) → ∃ f, s'.files x = some f := by
      intro x found
      rw [files x (known x found)]
      exact found
    refine ⟨⟨counted,?_⟩,?_⟩
    · refine linked_fewer inv.toLinked (by rw [fd_name_mapping]) ?_ ?_ live executable next_tid fd_index
      · intro m member
        rw [fd_name_mapping] at member
        exact stays m.file (inv.entry m member).2
      · exact fun t x runs => stays x (inv.running t x runs)
    · rintro id same
      cases same
      refine ⟨⟨_,here,rfl⟩,?_,?_⟩
      · intro m member
        rw [fd_name_mapping] at member
        exact known m.file (inv.entry m member).2
      · intro t runs
        rw [executable] at runs
        exact known _ (inv.running t _ runs) rfl

theorem inv_open (inv : Inv s) (live : s.live t = true) (file : ∃ f, s.files id = some f)
    (free : ∀ m ∈ s.fd_name_mapping, m.file ≠ id) (idle : ∀ u, s.executable u ≠ some id) (text : String) :
    Inv { s with
      fd_index := s.fd_index + 1
      fd_name_mapping := s.fd_name_mapping ++
        [{ tid := t, fd := s.fd_index, name := text, file := id, file_state := .FILE_OPEN }] } := by
  refine ⟨counted_same inv.toCounted rfl rfl (fun _ => rfl) (fun _ => rfl),?_⟩
  refine ⟨?_,?_,?_,inv.running,inv.runOnce,inv.tids,?_,?_,?_⟩
  · intro m member
    rcases List.mem_append.mp member with before | added
    · exact inv.entry m before
    · rw [List.mem_singleton.mp added]
      exact ⟨live,file⟩
  · rw [List.map_append]
    refine List.Nodup.append inv.once (List.nodup_singleton _) (List.disjoint_singleton.mpr ?_)
    intro member
    obtain ⟨m,listed,same⟩ := List.mem_map.mp member
    exact free m listed same
  · intro u x runs m member
    rcases List.mem_append.mp member with before | added
    · exact inv.apart u x runs m before
    · rw [List.mem_singleton.mp added]
      rintro rfl
      exact idle u runs
  · intro m member
    show 2 ≤ m.fd ∧ m.fd < s.fd_index + 1
    rcases List.mem_append.mp member with before | added
    · have := inv.fds m before
      omega
    · rw [List.mem_singleton.mp added]
      have := inv.index
      dsimp only
      omega
  · rw [List.map_append]
    refine List.Nodup.append inv.fdsOnce (List.nodup_singleton _) (List.disjoint_singleton.mpr ?_)
    intro member
    obtain ⟨m,listed,same⟩ := List.mem_map.mp member
    have := (inv.fds m listed).2
    simp only at same
    omega
  · have := inv.index
    show 2 ≤ s.fd_index + 1
    omega

theorem inv_create {created : Bool} (inv : Inv s) {text : String} {size : Int}
    (ran : filesys_create s text size space = .ok (created,s')) : Inv s' := by
  unfold filesys_create at ran
  split at ran
  · cases ran
    exact inv
  · split at ran
    · cases ran
      exact inv
    · next i _ =>
      unfold inode_create at ran
      by_cases negative : size < 0
      · simp [negative] at ran
      · by_cases room : space.data = true
        · simp only [negative,room,↓reduceIte] at ran
          have written : Inv (s.setInode i { s.inodes i with length := size.toNat, bytes := fun _ => 0 }) := by
            refine inv_disk s.root inv ?_ ?_
            · intro j
              split
              · next same => rw [same]
              · rfl
            · intro j
              split
              · next same => rw [same]
              · rfl
          split at ran
          · unfold dir_add at ran
            split at ran
            · cases ran
              exact written
            · split at ran
              · cases ran
                exact written
              · split at ran
                · cases ran
                  exact inv_disk _ written (fun _ => rfl) (fun _ => rfl)
                · cases ran
                  exact written
          · cases ran
        · simp only [negative,room,↓reduceIte,Bool.false_eq_true] at ran
          split at ran
          · cases ran
            exact inv
          · cases ran

theorem inv_remove {removed : Bool} (inv : Inv s) (ran : filesys_remove s name space = .ok (removed,s')) : Inv s' := by
  unfold filesys_remove at ran
  split at ran
  · cases ran
    exact inv
  · split at ran
    · cases ran
    · split at ran
      · cases ran
        exact inv
      · next i _ =>
        split at ran
        · cases ran
          rw [inode_open_frame]
          refine inv_disk _ inv ?_ ?_
          · intro j
            have opened := inode_open_cnt (s := s) i j
            by_cases same : j = i
            · subst same
              simp only [inode_remove,Sys.setInode,↓reduceIte,decide_true,Bool.toNat_true] at opened ⊢
              omega
            · simpa [inode_remove,Sys.setInode,same] using opened
          · intro j
            have opened := inode_open_deny inv.toCounted i j
            by_cases same : j = i
            · subst same
              simpa [inode_remove,Sys.setInode] using opened
            · simpa [inode_remove,Sys.setInode,same] using opened
        · cases ran
          exact inv

/-- The state that a call leaves, if it leaves one. -/
def after : Outcome → Option Sys
  | .returned _ s => some s
  | .exited _ s => some s
  | .halted => none

theorem inv_exited (inv : Inv s) (ran : syscall_exit s t status = .ok out) : ∀ s' ∈ after out, Inv s' := by
  obtain ⟨s',exits,inv',-⟩ := exit_spec (t := t) inv status
  obtain rfl := Except.ok.inj (exits.symm.trans ran)
  rintro _ ⟨⟩
  exact inv'

theorem map_ok {α β : Type} {x : Except Fault α} {g : α → β} {y : β} (ran : x.map g = .ok y) : ∃ a, x = .ok a ∧ g a = y := by
  cases x with
  | error fault => cases ran
  | ok a => exact ⟨a,rfl,Except.ok.inj ran⟩

theorem inv_handler {user : User} {c : Call} (inv : Inv s) (live : s.live t = true)
    (ran : syscall_handler s t user space c = .ok out) : ∀ s' ∈ after out, Inv s' := by
  have stays : ∀ eax, (.ok (.returned eax s) : Except Fault Outcome) = .ok out → ∀ s' ∈ after out, Inv s' := by
    rintro eax same s' leaves
    cases same
    cases leaves
    exact inv
  cases c with
  | halt =>
    cases ran
    exact fun s' leaves => by cases leaves
  | exit status => exact inv_exited inv ran
  | exec file pid =>
    simp only [syscall_handler,syscall_exec] at ran
    split at ran
    · exact inv_exited inv ran
    · split at ran
      · exact inv_exited inv ran
      · split at ran
        · exact stays _ ran
        · split at ran
          · cases ran
          · exact stays _ ran
  | wait pid ret => exact stays _ ran
  | create file initial_size =>
    simp only [syscall_handler,syscall_create] at ran
    split at ran
    · exact inv_exited inv ran
    · split at ran
      · exact inv_exited inv ran
      · split at ran
        · exact inv_exited inv ran
        · obtain ⟨r,created,rfl⟩ := map_ok ran
          rintro _ ⟨⟩
          exact inv_create inv created
  | remove file =>
    simp only [syscall_handler,syscall_remove] at ran
    split at ran
    · cases ran
    · obtain ⟨r,removed,rfl⟩ := map_ok ran
      rintro _ ⟨⟩
      exact inv_remove inv removed
  | «open» file =>
    simp only [syscall_handler,syscall_open] at ran
    split at ran
    · exact inv_exited inv ran
    · split at ran
      · exact inv_exited inv ran
      · split at ran
        · exact stays _ ran
        · obtain ⟨found,s1,opens,counted,opened⟩ := open_spec inv.toCounted file.text space
          obtain ⟨inv1,own⟩ := opened_inv inv counted opened
          rw [opens] at ran
          cases found with
          | none =>
            cases ran
            rintro _ ⟨⟩
            exact inv1
          | some id =>
            dsimp only at ran
            split at ran
            · cases ran
              rintro _ ⟨⟩
              obtain ⟨⟨f,here,-⟩,free,idle⟩ := own id rfl
              refine inv_open inv1 ?_ ⟨f,here⟩ free idle file.text
              cases opened with
              | new i here files next_file bytes fd_name_mapping fd_index liveToo executable next_tid =>
                rw [liveToo]
                exact live
            · cases ran
  | filesize fd =>
    simp only [syscall_handler,syscall_filesize] at ran
    split at ran
    · exact stays _ ran
    · exact stays _ ran
  | read fd buffer length =>
    simp only [syscall_handler,syscall_read] at ran
    split at ran
    · exact inv_exited inv ran
    · split at ran
      · exact stays _ ran
      · split at ran
        · exact stays _ ran
        · next id f found =>
          cases ran
          rintro _ ⟨⟩
          have here := (find_file_found found).1
          have ahead := inv.pos id f here
          have more := read_ge (s.inodes f.inode) (off_t length) f.pos
          exact inv_setPos inv here (by omega) (fun _ => rfl) (fun _ => rfl)
  | write fd buffer length =>
    simp only [syscall_handler,syscall_write] at ran
    split at ran
    · exact inv_exited inv ran
    · split at ran
      · exact stays _ ran
      · split at ran
        · exact stays _ ran
        · next id f found =>
          cases ran
          rintro _ ⟨⟩
          have here := (find_file_found found).1
          have ahead := inv.pos id f here
          have more := write_ge (s.inodes f.inode) (fun o => user.memory (buffer + UInt32.ofInt o)) (off_t length) f.pos
          refine inv_setPos inv here (by omega) ?_ ?_
          · intro i
            by_cases same : i = f.inode
            · subst same; simp [Sys.setInode]
            · simp [Sys.setInode,same]
          · intro i
            by_cases same : i = f.inode
            · subst same; simp [Sys.setInode]
            · simp [Sys.setInode,same]
  | seek fd position =>
    obtain ⟨s1,sought,rfl⟩ := map_ok ran
    rintro _ ⟨⟩
    unfold file_seek at sought
    split at sought
    · cases sought
    · next id f found =>
      split at sought
      · cases sought
      · next positive =>
        cases sought
        exact inv_setPos inv (find_file_found found).1 (Int.not_lt.mp positive) (fun _ => rfl) (fun _ => rfl)
  | tell fd =>
    obtain ⟨pos,-,rfl⟩ := map_ok ran
    rintro _ ⟨⟩
    exact inv
  | close fd =>
    simp only [syscall_handler,syscall_close] at ran
    split at ran
    · exact stays _ ran
    · cases ran
      rintro _ ⟨⟩
      exact inv_markClosed inv fd
  | other number => exact stays _ ran

theorem inv_start {text : String} (inv : Inv s) (ran : start_process s text space = .ok s') : Inv s' := by
  unfold start_process at ran
  obtain ⟨file,s1,opens,counted,opened⟩ := open_spec inv.toCounted text space
  obtain ⟨inv1,own⟩ := opened_inv inv counted opened
  rw [opens] at ran
  dsimp only at ran
  have started : Inv { s1 with
      next_tid := s1.next_tid + 1
      live := fun u => if u = s1.next_tid then true else s1.live u
      executable := fun u => if u = s1.next_tid then file else s1.executable u } := by
    have runs : ∀ u id, (if u = s1.next_tid then file else s1.executable u) = some id →
        (u = s1.next_tid ∧ file = some id) ∨ s1.executable u = some id := by
      intro u id same
      split at same
      · next new => exact .inl ⟨new,same⟩
      · exact .inr same
    refine ⟨counted_same inv1.toCounted rfl rfl (fun _ => rfl) (fun _ => rfl),?_⟩
    refine ⟨?_,inv1.once,?_,?_,?_,?_,inv1.fds,inv1.fdsOnce,inv1.index⟩
    · intro m member
      obtain ⟨live,here⟩ := inv1.entry m member
      refine ⟨?_,here⟩
      show (if m.tid = s1.next_tid then true else s1.live m.tid) = true
      rw [live,ite_self]
    · intro u id same m member
      rcases runs u id same with ⟨-,new⟩ | before
      · exact (own id new).2.1 m member
      · exact inv1.apart u id before m member
    · intro u id same
      rcases runs u id same with ⟨-,new⟩ | before
      · obtain ⟨f,here,-⟩ := (own id new).1
        exact ⟨f,here⟩
      · exact inv1.running u id before
    · intro u v id first second
      rcases runs u id first with ⟨newest,new⟩ | before
      · rcases runs v id second with ⟨newestToo,-⟩ | beforeToo
        · rw [newest,newestToo]
        · exact absurd beforeToo ((own id new).2.2 v)
      · rcases runs v id second with ⟨-,new⟩ | beforeToo
        · exact absurd before ((own id new).2.2 u)
        · exact inv1.runOnce u v id before beforeToo
    · intro u later
      have later : s1.next_tid + 1 ≤ u := later
      obtain ⟨live,executable⟩ := inv1.tids u (Nat.le_of_succ_le later)
      have other : u ≠ s1.next_tid := Nat.ne_of_gt later
      exact ⟨by simpa [other] using live,by simpa [other] using executable⟩
  cases file with
  | none =>
    cases ran
    exact started
  | some id =>
    obtain ⟨f,here,allows⟩ := (own id rfl).1
    obtain ⟨s2,denied,counted2,only,stays⟩ := deny_spec started.toCounted here allows
    obtain rfl := Except.ok.inj (denied.symm.trans ran)
    exact ⟨counted2,linked_only started.toLinked only ⟨_,stays⟩⟩

theorem inv_step (inv : Inv s) (ran : step s e = .ok s') : Inv s' := by
  cases e with
  | start_process text space => exact inv_start inv ran
  | syscall t user space c =>
    simp only [step] at ran
    split at ran
    · next live =>
      split at ran
      · cases ran
      · next eax s1 returned =>
        cases ran
        exact inv_handler inv live returned s' rfl
      · next status s1 exited =>
        cases ran
        exact inv_handler inv live exited s' rfl
      · cases ran
    · cases ran

theorem inv_boot : Inv boot where
  opens i := rfl
  denies i := rfl
  fresh id _ := rfl
  pos id f found := by cases found
  entry m member := by cases member
  once := .nil
  apart t id runs := by cases runs
  running t id runs := by cases runs
  runOnce t u id runs := by cases runs
  tids t _ := ⟨rfl,rfl⟩
  fds m member := by cases member
  fdsOnce := .nil
  index := Int.le_refl 2

theorem reaches_inv {Guard : Sys → Event → Prop} (reached : Reaches machine Guard s) : Inv s := by
  refine reaches_invariant Inv ?_ ?_ reached
  · rintro s rfl
    exact inv_boot
  · intro s e s' inv _ ran
    refine inv_step (e := e) inv ?_
    have ran : (step s e).toOption = some s' := ran
    cases result : step s e with
    | error fault => simp [result,Except.toOption] at ran
    | ok after => simpa [result,Except.toOption] using ran

end Pintos.FileCounts
