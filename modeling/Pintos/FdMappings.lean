import Pintos.LifetimeCalls
import Pintos.Descriptors

/-!
The life of `fd_name_mapping`. A run of the system calls hands out descriptors, and
`syscall_exit` closes those of its process: its loop searches the one list of all
processes from the start again after each entry that it frees.
-/
namespace Pintos.FdMappings
open Pintos.Machines Pintos.Files Pintos.FileCounts Pintos.Descriptors
set_option linter.unusedSimpArgs false
variable {s s' s₁ : Sys} {t : Tid} {m : Mapping} {e : Event} {c : Call} {out : Outcome} {user : User} {space : Space}

/-! ### What a run hands out -/

/-- An event that calls `syscall_open`. -/
def opens : Event → Bool
  | .syscall _ _ _ (.open _) => true
  | _ => false

/-- The descriptor that an event returns. -/
def issued (s : Sys) : Event → Option Int
  | .syscall t user space (.open file) =>
    match syscall_open s t user space file with
    | .ok (.returned (some fd) _) => if fd = -1 then none else some fd
    | _ => none
  | _ => none

/-- The descriptors that a run returns, in order, and the state after it. -/
def life : Sys → List Event → Except Fault (List Int × Sys)
  | s, [] => .ok ([],s)
  | s, e :: rest => (step s e).bind fun after => (life after rest).map fun r => ((issued s e).toList ++ r.1,r.2)

/-- The loop of `syscall_exit`, with the files that it calls `file_close` on. -/
def exitCloses : Nat → Sys → Tid → Except Fault (List FileId × Sys)
  | 0, s, _ => .ok ([],s)
  | n + 1, s, t =>
    match find_mapping_by_tid s t with
    | none => .ok ([],s)
    | some m =>
      match file_close { s with fd_name_mapping := s.fd_name_mapping.eraseP (fun m => m.tid = t) } m.file with
      | .error fault => .error fault
      | .ok s => (exitCloses n s t).map fun r => (m.file :: r.1,r.2)

theorem exitCloses_exitLoop (n : Nat) (s : Sys) (t : Tid) : (exitCloses n s t).map Prod.snd = exitLoop n s t := by
  induction n generalizing s with
  | zero => rfl
  | succ n ih =>
    unfold exitCloses exitLoop
    cases find_mapping_by_tid s t with
    | none => rfl
    | some m =>
      dsimp only
      cases closed : file_close { s with fd_name_mapping := s.fd_name_mapping.eraseP (fun m => m.tid = t) } m.file with
      | error fault => rfl
      | ok s₁ =>
        dsimp only
        rw [← ih s₁]
        cases exitCloses n s₁ t <;> rfl

/-! ### The clean-up -/

/-- What the loop of `syscall_exit` has done when it is over. -/
structure CleanUp (t : Tid) (s s' : Sys) (closed : List FileId) : Prop where
  exact : closed = (s.fd_name_mapping.filter (fun m => m.tid = t)).map Mapping.file
  once : closed.Nodup
  gone : ∀ id ∈ closed, s'.files id = none
  kept : ∀ id, id ∉ closed → s'.files id = s.files id
  others : s'.fd_name_mapping = s.fd_name_mapping.filter (fun m => m.tid ≠ t)
  done : find_mapping_by_tid s' t = none

/-- The first that meets a test, and the others that do. -/
theorem filter_find {α : Type} {p : α → Bool} {xs : List α} {a : α} (found : xs.find? p = some a) :
    xs.filter p = a :: (xs.eraseP p).filter p := by
  induction xs with
  | nil => simp at found
  | cons b rest ih =>
    cases test : p b with
    | true =>
      rw [List.find?_cons_of_pos test] at found
      cases found
      rw [List.filter_cons_of_pos test,List.eraseP_cons_of_pos test]
    | false =>
      rw [List.find?_cons_of_neg (by simp [test])] at found
      rw [List.filter_cons_of_neg (by simp [test]),List.eraseP_cons_of_neg (by simp [test]),
        List.filter_cons_of_neg (by simp [test])]
      exact ih found

/-- The loop turns as often as the process has entries, however much fuel there is. -/
theorem exitCloses_files (k : Nat) (inv : Inv s) (owns : s.fd_name_mapping.countP (fun m => m.tid = t) = k) :
    ∃ s', ∀ n, k ≤ n → exitCloses n s t = .ok ((s.fd_name_mapping.filter (fun m => m.tid = t)).map Mapping.file,s') := by
  induction k generalizing s with
  | zero =>
    have idle := List.countP_eq_zero.mp owns
    have none : find_mapping_by_tid s t = none := List.find?_eq_none.mpr idle
    refine ⟨s,fun n _ => ?_⟩
    rw [List.filter_eq_nil_iff.mpr idle]
    cases n with
    | zero => rfl
    | succ n =>
      unfold exitCloses
      rw [none]
      rfl
  | succ k ih =>
    cases found : find_mapping_by_tid s t with
    | none =>
      rw [List.countP_eq_zero.mpr (List.find?_eq_none.mp found)] at owns
      cases owns
    | some m =>
      obtain ⟨s₁,closed,inv₁,only⟩ := exit_turn inv found
      obtain ⟨fewer,-⟩ := eraseP_rest (p := fun m : Mapping => decide (m.tid = t)) found
      have rest : s₁.fd_name_mapping.countP (fun m => m.tid = t) = k := by
        rw [only.fd_name_mapping]
        rw [fewer] at owns
        exact Nat.succ.inj owns
      obtain ⟨s',loop⟩ := ih inv₁ rest
      refine ⟨s',fun n long => ?_⟩
      obtain ⟨n,rfl⟩ := Nat.exists_eq_add_of_lt long
      have turns := loop (k + n) (Nat.le_add_right _ _)
      unfold exitCloses
      simp only [found,closed]
      rw [turns,only.fd_name_mapping,filter_find (p := fun m : Mapping => decide (m.tid = t)) found]
      rfl

/-- However much fuel there is, the loop ends with the last entry of the process. -/
theorem clean_up (inv : Inv s) (t : Tid) : ∃ closed s', CleanUp t s s' closed ∧ Inv s' ∧ s'.fd_index = s.fd_index ∧
    ∀ n, s.fd_name_mapping.length ≤ n → exitCloses n s t = .ok (closed,s') := by
  have enough : s.fd_name_mapping.countP (fun m => m.tid = t) ≤ s.fd_name_mapping.length := List.countP_le_length
  obtain ⟨s',turns⟩ := exitCloses_files _ inv (t := t) rfl
  have loop : exitLoop s.fd_name_mapping.length s t = .ok s' := by
    rw [← exitCloses_exitLoop,turns _ enough]
    rfl
  obtain ⟨s₁,ran,inv',left⟩ := exitLoop_spec (t := t) _ s inv enough
  obtain rfl := Except.ok.inj (ran.symm.trans loop)
  refine ⟨_,s₁,⟨rfl,?_,?_,?_,left.fd_name_mapping,?_⟩,inv',left.fd_index,fun n long => turns n (enough.trans long)⟩
  · exact inv.once.sublist (List.filter_sublist.map _)
  · intro id member
    obtain ⟨m,mine,rfl⟩ := List.mem_map.mp member
    obtain ⟨listed,owner⟩ := List.mem_filter.mp mine
    exact Lifetimes.exitLoop_closes _ inv enough loop listed (by simpa using owner)
  · intro id free
    refine left.files id fun m listed owner same => free ?_
    exact List.mem_map.mpr ⟨m,List.mem_filter.mpr ⟨listed,by simpa using owner⟩,same⟩
  · refine List.find?_eq_none.mpr fun m member => ?_
    rw [left.fd_name_mapping] at member
    simpa using (List.mem_filter.mp member).2

/-- What `syscall_exit` does after the loop leaves the descriptors alone. -/
theorem exit_clean_up (inv : Inv s) (t : Tid) (status : Int) : ∃ closed s₁ s', CleanUp t s s₁ closed ∧
    (∀ n, s.fd_name_mapping.length ≤ n → exitCloses n s t = .ok (closed,s₁)) ∧
    syscall_exit s t status = .ok (.exited status s') ∧ s'.fd_name_mapping = s₁.fd_name_mapping ∧ s'.fd_index = s.fd_index := by
  obtain ⟨closed,s₁,cleaned,inv₁,index,turns⟩ := clean_up inv t
  have loop : exitLoop s.fd_name_mapping.length s t = .ok s₁ := by
    rw [← exitCloses_exitLoop,turns _ (Nat.le_refl _)]
    rfl
  obtain ⟨s',exits,-,-⟩ := exit_spec (t := t) inv status
  refine ⟨closed,s₁,s',cleaned,turns,exits,?_⟩
  simp only [syscall_exit,loop] at exits
  cases runs : s₁.executable t with
  | none =>
    rw [runs] at exits
    cases exits
    exact ⟨rfl,index⟩
  | some id =>
    rw [runs] at exits
    obtain ⟨s₂,allowed,leaves⟩ := map_ok exits
    cases leaves
    obtain ⟨f,found⟩ := inv₁.running t id runs
    have counted : Counted { s₁ with live := fun u => if u = t then false else s₁.live u } :=
      counted_same inv₁.toCounted rfl rfl (fun _ => rfl) (fun _ => rfl)
    obtain ⟨s₃,allowed₃,-,only,-⟩ := allow_spec counted found
    obtain rfl := Except.ok.inj (allowed₃.symm.trans allowed)
    exact ⟨only.fd_name_mapping,only.fd_index.trans index⟩

/-! ### The next descriptor -/

theorem opened_index {file : Option FileId} (opened : Opened s file s') : s'.fd_index = s.fd_index := by
  cases opened with
  | refused => rfl
  | new i here files next_file bytes fd_name_mapping fd_index live executable next_tid => exact fd_index

theorem create_index {text : String} {size : Int} {created : Bool}
    (ran : filesys_create s text size space = .ok (created,s')) : s'.fd_index = s.fd_index := by
  unfold filesys_create inode_create at ran
  split at ran
  · cases ran
    rfl
  · split at ran
    · cases ran
      rfl
    · split at ran
      · cases ran
      · next written made found =>
        have kept : written.fd_index = s.fd_index := by
          split at found
          · cases found
          · split at found <;> cases found <;> rfl
        split at ran
        · unfold dir_add at ran
          split at ran
          · repeat' split at ran
            all_goals
              cases ran
              exact kept
          · cases ran
            exact kept
        · cases ran

theorem remove_index {name : Option String} {removed : Bool}
    (ran : filesys_remove s name space = .ok (removed,s')) : s'.fd_index = s.fd_index := by
  unfold filesys_remove at ran
  split at ran
  · cases ran
    rfl
  · split at ran
    · cases ran
    · split at ran
      · cases ran
        rfl
      · split at ran
        · cases ran
          rw [inode_open_frame]
          rfl
        · cases ran
          rfl

theorem exit_index (inv : Inv s) {status : Int} (ran : syscall_exit s t status = .ok out) :
    ∃ s', out = .exited status s' ∧ s'.fd_index = s.fd_index := by
  obtain ⟨-,-,s',-,-,exits,-,index⟩ := exit_clean_up inv t status
  obtain rfl := Except.ok.inj (exits.symm.trans ran)
  exact ⟨s',rfl,index⟩

/-- Only `syscall_open` takes a descriptor. -/
theorem handler_index (inv : Inv s) (ran : syscall_handler s t user space c = .ok out)
    (other : ∀ file, c ≠ .open file) : ∀ s' ∈ after out, s'.fd_index = s.fd_index := by
  have stays : ∀ eax, (.ok (.returned eax s) : Except Fault Outcome) = .ok out → ∀ s' ∈ after out, s'.fd_index = s.fd_index := by
    rintro eax same s' leaves
    cases same
    cases leaves
    rfl
  have exits : ∀ status, syscall_exit s t status = .ok out → ∀ s' ∈ after out, s'.fd_index = s.fd_index := by
    rintro status ran s' leaves
    obtain ⟨s₁,rfl,index⟩ := exit_index inv ran
    cases leaves
    exact index
  cases c with
  | halt =>
    cases ran
    exact fun s' leaves => by cases leaves
  | exit status => exact exits _ ran
  | exec file pid =>
    simp only [syscall_handler,syscall_exec] at ran
    split at ran
    · exact exits _ ran
    · split at ran
      · exact exits _ ran
      · split at ran
        · exact stays _ ran
        · split at ran
          · cases ran
          · exact stays _ ran
  | wait pid ret => exact stays _ ran
  | create file initial_size =>
    simp only [syscall_handler,syscall_create] at ran
    split at ran
    · exact exits _ ran
    · split at ran
      · exact exits _ ran
      · split at ran
        · exact exits _ ran
        · obtain ⟨r,created,rfl⟩ := map_ok ran
          rintro _ ⟨⟩
          exact create_index created
  | remove file =>
    simp only [syscall_handler,syscall_remove] at ran
    split at ran
    · cases ran
    · obtain ⟨r,removed,rfl⟩ := map_ok ran
      rintro _ ⟨⟩
      exact remove_index removed
  | «open» file => exact absurd rfl (other file)
  | filesize fd =>
    simp only [syscall_handler,syscall_filesize] at ran
    split at ran
    · exact stays _ ran
    · exact stays _ ran
  | read fd buffer length =>
    simp only [syscall_handler,syscall_read] at ran
    split at ran
    · exact exits _ ran
    · split at ran
      · exact stays _ ran
      · split at ran
        · exact stays _ ran
        · cases ran
          rintro _ ⟨⟩
          rfl
  | write fd buffer length =>
    simp only [syscall_handler,syscall_write] at ran
    split at ran
    · exact exits _ ran
    · split at ran
      · exact stays _ ran
      · split at ran
        · exact stays _ ran
        · cases ran
          rintro _ ⟨⟩
          rfl
  | seek fd position =>
    simp only [syscall_handler,syscall_seek] at ran
    obtain ⟨s₁,sought,rfl⟩ := map_ok ran
    rintro _ ⟨⟩
    unfold file_seek at sought
    split at sought
    · cases sought
    · split at sought
      · cases sought
      · cases sought
        rfl
  | tell fd =>
    simp only [syscall_handler,syscall_tell] at ran
    obtain ⟨pos,-,rfl⟩ := map_ok ran
    rintro _ ⟨⟩
    rfl
  | close fd =>
    simp only [syscall_handler,syscall_close] at ran
    split at ran
    · exact stays _ ran
    · cases ran
      rintro _ ⟨⟩
      rfl
  | other number => exact stays _ ran

/-- What `syscall_open` gives: it ends its process, finds nothing, or hands out `fd_index`. -/
inductive Answers (s : Sys) : Outcome → Prop
  | exited {s' : Sys} (index : s'.fd_index = s.fd_index) : Answers s (.exited (-1) s')
  | refused {s' : Sys} (index : s'.fd_index = s.fd_index) : Answers s (.returned (some (-1)) s')
  | opened {s' : Sys} (index : s'.fd_index = s.fd_index + 1) : Answers s (.returned (some s.fd_index) s')

/-- It fails only where `fd_index` is the greatest `int`. -/
theorem open_answers (inv : Inv s) (t : Tid) (user : User) (space : Space) (file : UserString) :
    (∃ out, syscall_open s t user space file = .ok out ∧ Answers s out) ∨
      (2147483647 ≤ s.fd_index ∧ syscall_open s t user space file = .error .fd_overflow) := by
  have exits : ∃ out, syscall_exit s t (-1) = .ok out ∧ Answers s out := by
    obtain ⟨-,-,s',-,-,exits,-,index⟩ := exit_clean_up inv t (-1)
    exact ⟨_,exits,.exited index⟩
  unfold syscall_open
  split
  · exact .inl exits
  · split
    · exact .inl exits
    · split
      · exact .inl ⟨_,rfl,.refused rfl⟩
      · obtain ⟨found,s₁,opened,-,how⟩ := open_spec inv.toCounted file.text space
        have index := opened_index how
        rw [opened]
        cases found with
        | none => exact .inl ⟨_,rfl,.refused index⟩
        | some id =>
          dsimp only
          by_cases room : s₁.fd_index < 2147483647
          · rw [if_pos room,index]
            exact .inl ⟨_,rfl,.opened rfl⟩
          · rw [if_neg room]
            exact .inr ⟨by omega,rfl⟩

/-- A step moves `fd_index` past what it hands out. -/
theorem issue_step (inv : Inv s) (ran : step s e = .ok s') :
    (issued s e = none ∧ s'.fd_index = s.fd_index) ∨
      (issued s e = some s.fd_index ∧ s'.fd_index = s.fd_index + 1 ∧ opens e = true) := by
  cases e with
  | start_process text space =>
    refine .inl ⟨rfl,?_⟩
    simp only [step,start_process] at ran
    obtain ⟨file,s₁,opened,counted,how⟩ := open_spec inv.toCounted text space
    obtain ⟨inv₁,own⟩ := opened_inv inv counted how
    rw [opened] at ran
    dsimp only at ran
    cases file with
    | none =>
      cases ran
      exact (opened_index how :)
    | some id =>
      obtain ⟨f,here,allows⟩ := (own id rfl).1
      have started : Counted { s₁ with
          next_tid := s₁.next_tid + 1
          live := fun u => if u = s₁.next_tid then true else s₁.live u
          executable := fun u => if u = s₁.next_tid then some id else s₁.executable u } :=
        counted_same counted rfl rfl (fun _ => rfl) (fun _ => rfl)
      obtain ⟨s₂,denied,-,only,-⟩ := deny_spec started here allows
      obtain rfl := Except.ok.inj (denied.symm.trans ran)
      exact only.fd_index.trans (opened_index how :)
  | syscall t user space c =>
    simp only [step] at ran
    split at ran
    · have leaves : ∃ out, syscall_handler s t user space c = .ok out ∧ s' ∈ after out := by
        split at ran
        · cases ran
        · next eax s₁ returned =>
          cases ran
          exact ⟨_,returned,rfl⟩
        · next status s₁ exited =>
          cases ran
          exact ⟨_,exited,rfl⟩
        · cases ran
      obtain ⟨out,handled,leaves⟩ := leaves
      by_cases opener : ∃ file, c = .open file
      · obtain ⟨file,rfl⟩ := opener
        have handled : syscall_open s t user space file = .ok out := handled
        rcases open_answers inv t user space file with ⟨out',opened,answers⟩ | ⟨-,fails⟩
        · obtain rfl := Except.ok.inj (handled.symm.trans opened)
          have positive := inv.index
          cases answers with
          | exited index =>
            cases leaves
            exact .inl ⟨by simp only [issued,handled],index⟩
          | refused index =>
            cases leaves
            exact .inl ⟨by simp only [issued,handled,if_true],index⟩
          | opened index =>
            cases leaves
            refine .inr ⟨?_,index,rfl⟩
            simp only [issued,handled]
            rw [if_neg (by omega)]
        · rw [handled] at fails
          cases fails
      · have other : ∀ file, c ≠ .open file := fun file same => opener ⟨file,same⟩
        refine .inl ⟨?_,handler_index inv handled other s' leaves⟩
        cases c with
        | «open» file => exact absurd rfl (other file)
        | _ => rfl
    · cases ran

/-- The descriptors of a run are the numbers from `fd_index` on. -/
theorem life_issued {fds : List Int} (events : List Event) (inv : Inv s) (ran : life s events = .ok (fds,s')) : Inv s' ∧
    fds = (List.range fds.length).map (fun k : Nat => s.fd_index + k) ∧ s'.fd_index = s.fd_index + fds.length ∧
    fds.length ≤ events.countP opens := by
  induction events generalizing s fds with
  | nil =>
    cases ran
    exact ⟨inv,rfl,by simp,Nat.zero_le _⟩
  | cons e rest ih =>
    unfold life at ran
    cases first : step s e with
    | error fault =>
      rw [first] at ran
      cases ran
    | ok s₁ =>
      rw [first] at ran
      obtain ⟨⟨later,s₂⟩,lived,same⟩ := map_ok (x := life s₁ rest) ran
      cases same
      obtain ⟨inv',numbers,index,few⟩ := ih (inv_step inv first) lived
      rcases issue_step inv first with ⟨nothing,kept⟩ | ⟨new,next,opener⟩
      · rw [nothing]
        rw [kept] at numbers index
        refine ⟨inv',numbers,index,few.trans ?_⟩
        exact (List.sublist_cons_self e rest).countP_le
      · rw [new]
        refine ⟨inv',?_,?_,?_⟩
        · show s.fd_index :: later = (List.range (later.length + 1)).map fun k : Nat => s.fd_index + k
          rw [List.range_succ_eq_map,List.map_cons,List.map_map]
          refine congrArg₂ List.cons (Int.add_zero _).symm (numbers.trans (List.map_congr_left fun k _ => ?_))
          rw [next]
          exact (Int.add_assoc ..).trans (congrArg _ (Int.add_comm ..))
        · show s₂.fd_index = s.fd_index + ((later.length + 1 : Nat) : Int)
          rw [index,next]
          omega
        · rw [List.countP_cons_of_pos opener]
          exact Nat.succ_le_succ few

/-- Every descriptor that a run returns is at least 2 and new, no two entries have the
    same one, a call of `syscall_open` does not fail while there are fewer than 2^31 - 2
    of them, and `syscall_exit` closes the files of its process, each of them once. -/
theorem descriptor_table_life (events : List Event) {fds : List Int} (ran : life boot events = .ok (fds,s)) :
    (fds.Nodup ∧ ∀ fd ∈ fds, 2 ≤ fd) ∧ (s.fd_name_mapping.map Mapping.fd).Nodup ∧
    (events.countP opens + 1 < 2 ^ 31 - 2 → ∀ t user space file, ∃ out, syscall_open s t user space file = .ok out ∧
      ((∃ s', out = .exited (-1) s') ∨ (∃ s', out = .returned (some (-1)) s') ∨
        ∃ fd s', out = .returned (some fd) s' ∧ 2 ≤ fd ∧ fd ∉ fds)) ∧
    ∀ t status, ∃ closed s₁ s', CleanUp t s s₁ closed ∧
      (∀ n, s.fd_name_mapping.length ≤ n → exitCloses n s t = .ok (closed,s₁)) ∧
      syscall_exit s t status = .ok (.exited status s') ∧ s'.fd_name_mapping = s₁.fd_name_mapping := by
  obtain ⟨inv,numbers,index,few⟩ := life_issued events inv_boot ran
  have start : boot.fd_index = 2 := rfl
  rw [start] at index numbers
  have range : ∀ fd ∈ fds, 2 ≤ fd ∧ fd < s.fd_index := by
    intro fd member
    rw [numbers] at member
    obtain ⟨k,below,rfl⟩ := List.mem_map.mp member
    have below := List.mem_range.mp below
    omega
  refine ⟨⟨?_,fun fd member => (range fd member).1⟩,inv.fdsOnce,fun room t user space file => ?_,fun t status => ?_⟩
  · rw [numbers]
    refine List.Nodup.map (fun j k same => ?_) List.nodup_range
    have same : (2 : Int) + j = 2 + k := same
    omega
  · rcases open_answers inv t user space file with ⟨out,opened,answers⟩ | ⟨full,-⟩
    · refine ⟨out,opened,?_⟩
      cases answers with
      | exited index => exact .inl ⟨_,rfl⟩
      | refused index => exact .inr (.inl ⟨_,rfl⟩)
      | opened index =>
        refine .inr (.inr ⟨_,_,rfl,inv.index,fun before => ?_⟩)
        exact Int.lt_irrefl _ (range _ before).2
    · omega
  · obtain ⟨closed,s₁,s',cleaned,turns,exits,mapping,-⟩ := exit_clean_up inv t status
    exact ⟨closed,s₁,s',cleaned,turns,exits,mapping⟩

/-- The process has a second descriptor for the file, and its exit closes both. -/
theorem descriptor_table_life_two : ∃ s s', life boot (opensOne ++ [.syscall 0 anywhere (room 7) (.open ⟨64,"data"⟩)]) =
    .ok ([2,3],s) ∧ syscall_exit s 0 0 = .ok (.exited 0 s') ∧ s'.fd_name_mapping = [] := by
  obtain ⟨-,-,-,exits⟩ := descriptor_table_life (opensOne ++ [.syscall 0 anywhere (room 7) (.open ⟨64,"data"⟩)])
     rfl
  obtain ⟨closed,s₁,s',cleaned,-,exits,mapping⟩ := exits 0 0
  refine ⟨_,s',rfl,exits,?_⟩
  rw [mapping,cleaned.others]
  rfl

end Pintos.FdMappings
