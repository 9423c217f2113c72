import Pintos.Lifetimes

/-!
What the system calls of a process do to the files that processes have of their executables.
-/
namespace Pintos.Lifetimes
open Pintos.Machines Pintos.FileCounts
open Pintos.Files hiding Event step boot machine start_process
set_option linter.unusedSimpArgs false
variable {s s' : System} {t u : Tid} {h id : FileId} {f : File} {st : Stage} {i : Sector} {files' : Sys} {e : Event} {c : Call}

/-- What a call of `t` leaves of files that no descriptor is for. Where the process leaves,
    its executable may allow writes, and it is no longer live. -/
structure Called (t : Tid) (leaves : Bool) (s s' : Sys) : Prop where
  executable : s'.executable = s.executable
  next_tid : s'.next_tid = s.next_tid
  next_file : s.next_file ≤ s'.next_file
  live : ∀ u, leaves = false ∨ u ≠ t → s'.live u = s.live u
  files : ∀ h f, s.files h = some f → (∀ m ∈ s.fd_name_mapping, m.file ≠ h) →
    ∃ f', s'.files h = some f' ∧ f'.inode = f.inode ∧ (leaves = false ∨ s.executable t ≠ some h → f'.deny_write = f.deny_write)
  mapped : ∀ m ∈ s'.fd_name_mapping, (∃ m' ∈ s.fd_name_mapping, m'.file = m.file) ∨ s.next_file ≤ m.file
  owned : ∀ y f, s'.files y = some f → (∃ m ∈ s'.fd_name_mapping, m.file = y) ∨
    (∃ f, s.files y = some f) ∧ ∀ m ∈ s.fd_name_mapping, m.file ≠ y

theorem lives_called {leaves : Bool} (lives : Lives s) (started : s.stage t ≠ .unborn) (called : Called t leaves s.files s'.files)
    (inv : Inv s'.files)
    (stage : ∀ u, u ≠ t → s'.stage u = s.stage u) (program : ∀ u, u ≠ t → s'.program u = s.program u)
    (obtained : s'.obtained = s.obtained) (closed : s'.closed = s.closed)
    (before : pending (s.stage t) = []) (after : pending (s'.stage t) = [])
    (alive : s'.files.live t = true ∨ s'.stage t = .gone) (fits : Fits s' t (s'.stage t)) : Lives s' := by
  have own := lives.own t
  have holds : ∀ h, Holds s' t h ↔ Holds s t h := fun h => by rw [Holds,Holds,before,after,called.executable]
  refine lives_frame lives ⟨stage,program,?_,?_,fun u other => called.live u (.inr other),?_,?_,called.next_file,?_,
    called.mapped,?_,?_,?_⟩ inv ⟨?_,fits,?_,?_,?_,?_⟩
  · exact fun u _ => by rw [obtained]
  · exact fun u _ => by rw [called.executable]
  · rw [called.next_tid]
  · rw [called.next_tid]
    exact born lives started
  · intro h f unmapped notMine found
    obtain ⟨f',found',inode,deny_write⟩ := called.files h f found unmapped
    exact ⟨f',found',inode,deny_write (.inr fun same => notMine (.inr same))⟩
  · exact fun h _ => by rw [closed]
  · exact fun h member => .inl (obtained ▸ member)
  · intro y f found
    rcases called.owned y f found with mapped | ⟨⟨f₀,open₀⟩,unmapped⟩
    · exact .inl mapped
    · by_cases mine : Holds s t y
      · exact .inr (.inl ((holds y).mpr mine))
      · exact .inr (.inr ⟨⟨f₀,open₀⟩,unmapped,mine⟩)
  · rcases alive with alive | gone
    · split <;> trivial
    · rw [gone]
      trivial
  · intro h held m member
    have mine := (holds h).mp held
    rcases called.mapped m member with ⟨m',old,file⟩ | new
    · exact file ▸ own.unmapped h mine m' old
    · exact Nat.ne_of_gt (Nat.lt_of_lt_of_le (own.known h (own.obtains h mine)) new)
  · exact fun h held => obtained ▸ own.obtains h ((holds h).mp held)
  · exact fun h member => Nat.lt_of_lt_of_le (own.known h (obtained ▸ member)) called.next_file
  · intro h member
    rw [holds h,closed]
    exact own.closes h (obtained ▸ member)

section
variable {s s' : Sys} {leaves : Bool}

/-- A call that leaves descriptors and open files alone. -/
theorem called_disk (files : s'.files = s.files) (fd_name_mapping : s'.fd_name_mapping = s.fd_name_mapping)
    (next_file : s'.next_file = s.next_file) (live : s'.live = s.live) (executable : s'.executable = s.executable)
    (next_tid : s'.next_tid = s.next_tid) : Called t leaves s s' where
  executable := executable
  next_tid := next_tid
  next_file := Nat.le_of_eq next_file.symm
  live u _ := by rw [live]
  files h f found _ := ⟨f,by rw [files]; exact found,rfl,fun _ => rfl⟩
  mapped m member := .inl ⟨m,fd_name_mapping ▸ member,rfl⟩
  owned y f found := by
    rw [files] at found
    rw [fd_name_mapping]
    by_cases mapped : ∃ m ∈ s.fd_name_mapping, m.file = y
    · exact .inl mapped
    · exact .inr ⟨⟨f,found⟩,fun m member file => mapped ⟨m,member,file⟩⟩

theorem called_refl : Called t leaves s s := called_disk rfl rfl rfl rfl rfl rfl

theorem called_trans {s'' : Sys} (counted : Counted s) (first : Called t leaves s s') (second : Called t leaves s' s'') :
    Called t leaves s s'' where
  executable := second.executable.trans first.executable
  next_tid := second.next_tid.trans first.next_tid
  next_file := Nat.le_trans first.next_file second.next_file
  live u other := (second.live u other).trans (first.live u other)
  files h f found unmapped := by
    obtain ⟨f',found',inode,deny_write⟩ := first.files h f found unmapped
    have still : ∀ m ∈ s'.fd_name_mapping, m.file ≠ h := by
      intro m member
      rcases first.mapped m member with ⟨m',before,file⟩ | new
      · exact file ▸ unmapped m' before
      · exact Nat.ne_of_gt (Nat.lt_of_lt_of_le (file_known counted found) new)
    obtain ⟨f'',found'',inode',deny_write'⟩ := second.files h f' found' still
    refine ⟨f'',found'',inode'.trans inode,fun other => ?_⟩
    rw [deny_write' (by rw [first.executable]; exact other),deny_write other]
  mapped m member := by
    rcases second.mapped m member with ⟨m',before,file⟩ | new
    · exact file ▸ first.mapped m' before
    · exact .inr (Nat.le_trans first.next_file new)
  owned y f found := by
    rcases second.owned y f found with mapped | ⟨⟨f',found'⟩,unmapped⟩
    · exact .inl mapped
    · rcases first.owned y f' found' with ⟨m,member,file⟩ | before
      · exact absurd file (unmapped m member)
      · exact .inr before

/-- One file changes, but not which inode it is on. -/
theorem called_file {id : FileId} (only : OnlyFile id s s') (found : s.files id = some f) (stays : ∃ f', s'.files id = some f' ∧
      f'.inode = f.inode ∧ (leaves = false ∨ s.executable t ≠ some id →
        f'.deny_write = f.deny_write)) : Called t leaves s s' where
  executable := only.executable
  next_tid := only.next_tid
  next_file := Nat.le_of_eq only.next_file.symm
  live u _ := by rw [only.live]
  files h g found' _ := by
    by_cases same : h = id
    · subst same
      obtain rfl := Option.some.inj (found.symm.trans found')
      exact stays
    · exact ⟨g,by rw [only.files h same]; exact found',rfl,fun _ => rfl⟩
  mapped m member := .inl ⟨m,only.fd_name_mapping ▸ member,rfl⟩
  owned y g found' := by
    rw [only.fd_name_mapping]
    by_cases mapped : ∃ m ∈ s.fd_name_mapping, m.file = y
    · exact .inl mapped
    refine .inr ⟨?_,fun m member file => mapped ⟨m,member,file⟩⟩
    by_cases same : y = id
    · exact ⟨f,same ▸ found⟩
    · exact ⟨g,by rw [← only.files y same]; exact found'⟩

theorem called_create {text : String} {size : Int} {space : Space} {created : Bool}
    (ran : filesys_create s text size space = .ok (created,s')) : Called t leaves s s' := by
  unfold filesys_create at ran
  split at ran
  · cases ran
    exact called_refl
  · split at ran
    · cases ran
      exact called_refl
    · next i _ =>
      unfold inode_create at ran
      by_cases negative : size < 0
      · simp [negative] at ran
      · by_cases room : space.data = true
        · simp only [negative,room,↓reduceIte] at ran
          split at ran
          · unfold dir_add at ran
            split at ran
            · cases ran
              exact called_disk rfl rfl rfl rfl rfl rfl
            · split at ran
              · cases ran
                exact called_disk rfl rfl rfl rfl rfl rfl
              · split at ran <;> cases ran <;> exact called_disk rfl rfl rfl rfl rfl rfl
          · cases ran
        · simp only [negative,room,↓reduceIte,Bool.false_eq_true] at ran
          split at ran
          · cases ran
            exact called_refl
          · cases ran

theorem called_remove {name : Option String} {space : Space} {removed : Bool}
    (ran : filesys_remove s name space = .ok (removed,s')) : Called t leaves s s' := by
  unfold filesys_remove at ran
  split at ran
  · cases ran
    exact called_refl
  · split at ran
    · cases ran
    · split at ran
      · cases ran
        exact called_refl
      · next i _ =>
        split at ran
        · cases ran
          rw [inode_open_frame]
          exact called_disk rfl rfl rfl rfl rfl rfl
        · cases ran
          exact called_refl

/-- A file moves to another place. -/
theorem called_moved {id : FileId} {pos : Int} (found : s.files id = some f) :
    Called t leaves s (s.setFile id (some { f with pos := pos })) :=
  called_file (onlyFile_setFile fun _ => ⟨rfl,rfl⟩) found ⟨_,if_pos rfl,rfl,fun _ => rfl⟩

theorem called_written {id : FileId} {i : Sector} {v : Inode} {pos : Int} (counted : Counted s) (found : s.files id = some f) :
    Called t leaves s ((s.setInode i v).setFile id (some { f with pos := pos })) := by
  have wrote : Called t leaves s (s.setInode i v) := called_disk rfl rfl rfl rfl rfl rfl
  exact called_trans counted wrote (called_moved found)

/-- A file that is opened goes into `fd_name_mapping`. -/
theorem called_open {file : Option FileId} {new : List Mapping} (counted : Counted s) (opened : Opened s file s')
    (added : new.map Mapping.file = file.toList) (index : Int) :
    Called t leaves s { s' with fd_index := index, fd_name_mapping := s'.fd_name_mapping ++ new } := by
  have opens := opens_of_opened counted opened
  have entered : ∀ y, file = some y ↔ ∃ m ∈ new, m.file = y := fun y => by
    rw [← List.mem_map,added,Option.mem_toList]
  refine ⟨opens.executable,opens.next_tid,opens.next_file,fun u _ => congrFun opens.live u,fun h f found _ => ?_,
    fun m member => ?_,fun y f found => ?_⟩
  · exact ⟨f,opens.files h f found,rfl,fun _ => rfl⟩
  · rcases List.mem_append.mp member with before | fresh
    · exact .inl ⟨m,opens.fd_name_mapping ▸ before,rfl⟩
    · exact .inr (Nat.le_of_eq (opens.new _ ((entered m.file).mpr ⟨m,fresh,rfl⟩)).1.symm)
  · by_cases mapped : ∃ m ∈ s'.fd_name_mapping ++ new, m.file = y
    · exact .inl mapped
    · have unmapped : ∀ m ∈ s'.fd_name_mapping ++ new, m.file ≠ y := fun m member same => mapped ⟨m,member,same⟩
      refine .inr ⟨?_,fun m member => unmapped m (List.mem_append_left _ (opens.fd_name_mapping ▸ member))⟩
      rcases opens.only y f found with before | fresh
      · exact ⟨f,before⟩
      · obtain ⟨m,member,same⟩ := (entered y).mp fresh
        exact absurd same (unmapped m (List.mem_append_right _ member))

theorem called_close (fd : Int) : Called t leaves s { s with fd_name_mapping := markClosed fd s.fd_name_mapping } := by
  have same : ∀ y, (∃ m ∈ markClosed fd s.fd_name_mapping, m.file = y) ↔ ∃ m ∈ s.fd_name_mapping, m.file = y := fun y => by
    rw [← List.mem_map,(markClosed_map fd s.fd_name_mapping).1,List.mem_map]
  refine ⟨rfl,rfl,Nat.le_refl _,fun _ _ => rfl,fun h f found _ => ⟨f,found,rfl,fun _ => rfl⟩,fun m member => ?_,fun y f found => ?_⟩
  · exact .inl ((same m.file).mp ⟨m,member,rfl⟩)
  · by_cases mapped : ∃ m ∈ s.fd_name_mapping, m.file = y
    · exact .inl ((same y).mpr mapped)
    · exact .inr ⟨⟨f,found⟩,fun m member file => mapped ⟨m,member,file⟩⟩

/-- The loop of `syscall_exit` closes every file of the process. -/
theorem exitLoop_closes (n : Nat) (inv : Inv s) (enough : s.fd_name_mapping.countP (fun m => m.tid = t) ≤ n)
    (ran : exitLoop n s t = .ok s') {m : Mapping} (member : m ∈ s.fd_name_mapping) (owner : m.tid = t) :
    s'.files m.file = none := by
  induction n generalizing s with
  | zero =>
    have := List.countP_pos_iff (p := fun m : Mapping => decide (m.tid = t)) |>.mpr ⟨m,member,by simpa using owner⟩
    omega
  | succ n ih =>
    unfold exitLoop at ran
    cases found : find_mapping_by_tid s t with
    | none =>
      have := List.find?_eq_none.mp found m member
      simp [owner] at this
    | some first =>
      obtain ⟨s₁,closed,inv₁,only⟩ := exit_turn inv found
      simp only [found,closed] at ran
      obtain ⟨fewer,-⟩ := eraseP_rest (p := fun m : Mapping => decide (m.tid = t)) found
      have room : s₁.fd_name_mapping.countP (fun m => m.tid = t) ≤ n := by
        rw [only.fd_name_mapping]
        rw [fewer] at enough
        exact Nat.le_of_succ_le_succ enough
      by_cases same : m = first
      · -- Closed in this turn, and the turns that follow have other files.
        have gone : s₁.files m.file = none := by
          rw [same]
          unfold file_close at closed
          split at closed
          · cases closed
          · obtain ⟨s₂,-,rfl⟩ := map_ok closed
            exact if_pos rfl
        obtain ⟨s₃,loop,-,left⟩ := exitLoop_spec (t := t) n s₁ inv₁ room
        obtain rfl := Except.ok.inj (loop.symm.trans ran)
        rw [left.files m.file ?_,gone]
        intro other listed _ file
        obtain ⟨f,found'⟩ := (inv₁.entry other listed).2
        rw [file,gone] at found'
        cases found'
      · refine ih inv₁ room ran ?_
        rw [only.fd_name_mapping]
        have := List.mem_of_find?_eq_some found
        obtain ⟨own,before,after,split,earlier⟩ := List.find?_eq_some_iff_append.mp found
        have erased : s.fd_name_mapping.eraseP (fun m => m.tid = t) = before ++ after :=
          List.eraseP_eq_iff.mpr (.inr ⟨first,before,after,by simpa using earlier,own,split,rfl⟩)
        rw [split] at member
        show m ∈ s.fd_name_mapping.eraseP (fun m => m.tid = t)
        rw [erased]
        rcases List.mem_append.mp member with inside | inside
        · exact List.mem_append_left _ inside
        · exact List.mem_append_right _ ((List.mem_cons.mp inside).resolve_left same)

theorem allow_called {id : FileId} (inv : Inv s) (runs : s.executable t = some id) : ∃ s', file_allow_write s id = .ok s' ∧
    Inv s' ∧ Called t true s s' := by
  obtain ⟨f,found⟩ := inv.running t id runs
  obtain ⟨s',allowed,counted,only,stays⟩ := allow_spec inv.toCounted found
  refine ⟨s',allowed,⟨counted,linked_only inv.toLinked only ⟨_,stays⟩⟩,called_file only found ⟨_,stays,rfl,fun other => ?_⟩⟩
  exact absurd runs (other.resolve_left (by simp))

theorem exit_called (inv : Inv s) (status : Int) : ∃ s', syscall_exit s t status = .ok (.exited status s') ∧ Inv s' ∧
    Called t true s s' ∧ ∀ m ∈ s'.fd_name_mapping, m.tid ≠ t := by
  obtain ⟨s',exits,inv',gone⟩ := exit_spec (t := t) inv status
  have enough : s.fd_name_mapping.countP (fun m => m.tid = t) ≤ s.fd_name_mapping.length := List.countP_le_length
  obtain ⟨s₁,loop,inv₁,left⟩ := exitLoop_spec (t := t) _ s inv enough
  have closes {m : Mapping} (member : m ∈ s.fd_name_mapping) (owner : m.tid = t) : s₁.files m.file = none :=
    exitLoop_closes _ inv enough loop member owner
  refine ⟨s',exits,inv',?_,fun m member => ?_⟩
  · obtain ⟨dead,shape⟩ : ∃ dead, dead = { s₁ with live := fun u => if u = t then false else s₁.live u } := ⟨_,rfl⟩
    have left_called : Called t true s dead := by
      refine ⟨?_,?_,?_,fun u other => ?_,fun h f found unmapped => ?_,fun m member => ?_,fun y f found => ?_⟩
      · rw [shape]
        exact left.executable
      · rw [shape]
        exact left.next_tid
      · rw [shape]
        exact Nat.le_of_eq left.next_file.symm
      · rw [shape]
        have other : u ≠ t := other.resolve_left (by simp)
        exact (if_neg other).trans (congrFun left.live u)
      · refine ⟨f,?_,rfl,fun _ => rfl⟩
        rw [shape]
        exact (left.files h fun m member _ => unmapped m member).trans found
      · rw [shape] at member
        have listed : m ∈ s.fd_name_mapping.filter (fun m => m.tid ≠ t) := left.fd_name_mapping ▸ member
        exact .inl ⟨m,(List.mem_filter.mp listed).1,rfl⟩
      · rw [shape] at found ⊢
        have found : s₁.files y = some f := found
        by_cases mapped : ∃ m ∈ s.fd_name_mapping, m.file = y
        · obtain ⟨m,member,rfl⟩ := mapped
          refine .inl ⟨m,?_,rfl⟩
          show m ∈ s₁.fd_name_mapping
          rw [left.fd_name_mapping,List.mem_filter]
          refine ⟨member,?_⟩
          by_contra own
          rw [closes member (by simpa using own)] at found
          cases found
        · have unmapped : ∀ m ∈ s.fd_name_mapping, m.file ≠ y := fun m member file => mapped ⟨m,member,file⟩
          rw [left.files y fun m member _ => unmapped m member] at found
          exact .inr ⟨⟨f,found⟩,unmapped⟩
    simp only [syscall_exit,loop] at exits
    have same : s₁.executable = s.executable := left.executable
    cases runs : s₁.executable t with
    | none =>
      rw [runs] at exits
      cases exits
      exact shape ▸ left_called
    | some id =>
      rw [runs] at exits
      obtain ⟨s₂,allowed,leaves⟩ := map_ok exits
      cases leaves
      have counted : Counted dead := by
        rw [shape]
        exact counted_same inv₁.toCounted rfl rfl (fun _ => rfl) (fun _ => rfl)
      obtain ⟨f,found⟩ := inv₁.running t id runs
      have before : dead.files id = some f := by rw [shape]; exact found
      obtain ⟨s₃,allowed₃,-,only,stays⟩ := allow_spec counted before
      rw [shape] at allowed₃
      obtain rfl := Except.ok.inj (allowed₃.symm.trans allowed)
      refine called_trans inv.toCounted left_called (called_file only before ⟨_,stays,rfl,fun other => ?_⟩)
      have idle : dead.executable t ≠ some id := other.resolve_left (by simp)
      rw [shape] at idle
      exact absurd runs idle
  · rw [gone.fd_name_mapping,List.mem_filter] at member
    simpa using member.2

/-- What `outcome` makes of a call. -/
inductive Leaves (t : Tid) (s : Sys) : Outcome → Prop
  | returned {eax : Option Int} {s' : Sys} (inv : Inv s') (called : Called t false s s') : Leaves t s (.returned eax s')
  | exited {status : Int} {s' : Sys} (inv : Inv s') (called : Called t true s s')
      (closed : ∀ m ∈ s'.fd_name_mapping, m.tid ≠ t) : Leaves t s (.exited status s')
  | halted : Leaves t s .halted

theorem leaves_exit {status : Int} {out : Outcome} (inv : Inv s) (ran : syscall_exit s t status = .ok out) : Leaves t s out := by
  obtain ⟨s',exits,inv',called,closed⟩ := exit_called (t := t) inv status
  obtain rfl := Except.ok.inj (exits.symm.trans ran)
  exact .exited inv' called closed

theorem leaves_handler {user : User} {space : Space} {out : Outcome} (inv : Inv s) (live : s.live t = true)
    (ran : syscall_handler s t user space c = .ok out) : Leaves t s out := by
  have kept := inv_handler inv live ran
  have stays : ∀ eax, (.ok (.returned eax s) : Except Fault Outcome) = .ok out → Leaves t s out := by
    rintro eax same
    cases same
    exact .returned inv called_refl
  cases c with
  | halt =>
    cases ran
    exact .halted
  | exit status => exact leaves_exit inv ran
  | exec file pid =>
    simp only [syscall_handler,syscall_exec] at ran
    split at ran
    · exact leaves_exit inv ran
    · split at ran
      · exact leaves_exit inv ran
      · split at ran
        · exact stays _ ran
        · split at ran
          · cases ran
          · exact stays _ ran
  | wait pid ret => exact stays _ ran
  | create file initial_size =>
    simp only [syscall_handler,syscall_create] at ran
    split at ran
    · exact leaves_exit inv ran
    · split at ran
      · exact leaves_exit inv ran
      · split at ran
        · exact leaves_exit inv ran
        · obtain ⟨r,created,rfl⟩ := map_ok ran
          exact .returned (kept r.2 rfl) (called_create created)
  | remove file =>
    simp only [syscall_handler,syscall_remove] at ran
    split at ran
    · cases ran
    · obtain ⟨r,removed,rfl⟩ := map_ok ran
      exact .returned (kept r.2 rfl) (called_remove removed)
  | «open» file =>
    simp only [syscall_handler,syscall_open] at ran
    split at ran
    · exact leaves_exit inv ran
    · split at ran
      · exact leaves_exit inv ran
      · split at ran
        · exact stays _ ran
        · obtain ⟨found,s₁,opens,counted,opened⟩ := open_spec inv.toCounted file.text space
          rw [opens] at ran
          cases found with
          | none =>
            cases ran
            refine .returned (kept _ rfl) ?_
            cases opened
            exact called_refl
          | some id =>
            dsimp only at ran
            split at ran
            · cases ran
              exact .returned (kept _ rfl) (called_open inv.toCounted opened rfl _)
            · cases ran
  | filesize fd =>
    simp only [syscall_handler,syscall_filesize] at ran
    split at ran
    · exact stays _ ran
    · exact stays _ ran
  | read fd buffer length =>
    simp only [syscall_handler,syscall_read] at ran
    split at ran
    · exact leaves_exit inv ran
    · split at ran
      · exact stays _ ran
      · split at ran
        · exact stays _ ran
        · next id f found =>
          cases ran
          exact .returned (kept _ rfl) (called_moved (find_file_found found).1)
  | write fd buffer length =>
    simp only [syscall_handler,syscall_write] at ran
    split at ran
    · exact leaves_exit inv ran
    · split at ran
      · exact stays _ ran
      · split at ran
        · exact stays _ ran
        · next id f found =>
          cases ran
          exact .returned (kept _ rfl) (called_written inv.toCounted (find_file_found found).1)
  | seek fd position =>
    obtain ⟨s₁,sought,rfl⟩ := map_ok ran
    refine .returned (kept _ rfl) ?_
    unfold file_seek at sought
    split at sought
    · cases sought
    · next id f found =>
      split at sought
      · cases sought
      · cases sought
        exact called_moved (find_file_found found).1
  | tell fd =>
    obtain ⟨pos,-,rfl⟩ := map_ok ran
    exact .returned (kept _ rfl) called_refl
  | close fd =>
    simp only [syscall_handler,syscall_close] at ran
    split at ran
    · exact stays _ ran
    · cases ran
      exact .returned (kept _ rfl) (called_close fd)
  | other number => exact stays _ ran

end

end Pintos.Lifetimes
