import Pintos.LifetimeCalls

/-!
Every step of `load`, `start_process` and user code keeps the invariant of `Lifetimes`.
-/
namespace Pintos.Lifetimes
open Pintos.Machines Pintos.FileCounts
open Pintos.Files hiding Event step boot machine start_process
set_option linter.unusedSimpArgs false
variable {s s' : System} {t u : Tid} {h id : FileId} {f : File} {st : Stage} {i : Sector} {files' : Sys} {e : Event} {c : Call}

/-! ### The statements of `load` and `start_process` -/

theorem awake (own : Own s t) (here : s.stage t = st) (alive : st ≠ .unborn) (runs : st ≠ .gone) : s.files.live t = true := by
  have live := own.live
  rw [here] at live
  cases st <;> first | exact live | exact absurd rfl alive | exact absurd rfl runs

/-- `load` opens the file. -/
theorem lives_load_open {name : String} {space : Space} (lives : Lives s) (here : s.stage t = .load_open name)
    (ran : next s t space (.load_open name) = .ok s') : Lives s' := by
  have own := lives.own t
  have started : s.stage t ≠ .unborn := by rw [here]; simp
  have alive := awake own here (by simp) (by simp)
  have fits := own.fits
  rw [here] at fits
  have bare : ∀ h, ¬ Holds s t h := by
    rintro h (listed | runs)
    · rw [here] at listed
      exact List.not_mem_nil listed
    · rw [fits.1] at runs
      cases runs
  obtain ⟨file,files',opens,counted,opened⟩ := open_spec lives.inv.toCounted name space
  obtain ⟨inv,new⟩ := opened_inv lives.inv counted opened
  have opens' := opens_of_opened lives.inv.toCounted opened
  have none_ : files'.executable t = none := by rw [opens'.executable]; exact fits.1
  simp only [next,opens] at ran
  cases file with
  | none =>
    obtain rfl := Except.ok.inj ran
    have stage : ((({ s.obtain t none with files := files' } : System)).setStage t (.load_close name none false)).stage t =
        .load_close name none false := Function.update_self _ _ _
    refine lives_opened lives started bare opens' inv rfl rfl rfl rfl rfl (fun u _ => congrFun opens'.executable u)
      (fun u other => Function.update_of_ne other _ _) (fun _ _ => rfl) rfl rfl (fun h => ?_) alive ?_
    · rw [Holds,stage]
      refine iff_of_false ?_ (by simp)
      rintro (listed | runs)
      · exact List.not_mem_nil listed
      · exact absurd (none_.symm.trans runs) (by simp)
    · rw [stage]
      exact ⟨none_,fits.2⟩
  | some id =>
    obtain rfl := Except.ok.inj ran
    have stage : ((({ s.obtain t (some id) with files := files' } : System)).setStage t (.load_deny name id)).stage t =
        .load_deny name id := Function.update_self _ _ _
    refine lives_opened lives started bare opens' inv rfl rfl rfl rfl rfl (fun u _ => congrFun opens'.executable u)
      (fun u other => Function.update_of_ne other _ _) (fun _ _ => rfl) rfl rfl (fun h => ?_) alive ?_
    · rw [Holds,stage]
      constructor
      · rintro (listed | runs)
        · rw [List.mem_singleton.mp listed]
        · exact absurd (none_.symm.trans runs) (by simp)
      · intro same
        obtain rfl := Option.some.inj same
        exact .inl (List.mem_singleton.mpr rfl)
    · rw [stage]
      exact ⟨none_,fits.2,(new id rfl).1⟩

/-- `start_process` opens it again. -/
theorem lives_start_open {name : String} {success : Bool} {space : Space} (lives : Lives s)
    (here : s.stage t = .start_open name success)
    (ran : next s t space (.start_open name success) = .ok s') : Lives s' := by
  have own := lives.own t
  have started : s.stage t ≠ .unborn := by rw [here]; simp
  have alive := awake own here (by simp) (by simp)
  have fits := own.fits
  rw [here] at fits
  have bare : ∀ h, ¬ Holds s t h := by
    rintro h (listed | runs)
    · rw [here] at listed
      exact List.not_mem_nil listed
    · rw [show s.files.executable t = none from fits] at runs
      cases runs
  obtain ⟨file,files',opens,counted,opened⟩ := open_spec lives.inv.toCounted name space
  obtain ⟨inv₁,new⟩ := opened_inv lives.inv counted opened
  have opens' := opens_of_opened lives.inv.toCounted opened
  have inv : Inv { files' with executable := fun u => if u = t then file else files'.executable u } := by
    refine inv_executable inv₁ ?_ fun id same => ?_
    · rw [opens'.next_tid]
      exact born lives started
    · obtain ⟨⟨f,found,-⟩,unmapped,idle⟩ := new id same
      exact ⟨⟨f,found⟩,unmapped,idle⟩
  have executable : ∀ u, u ≠ t → (if u = t then file else files'.executable u) = s.files.executable u := fun u other =>
    (if_neg other).trans (congrFun opens'.executable u)
  simp only [next,opens] at ran
  obtain ⟨v,bareStage,shape,stays⟩ : ∃ v, pending v = [] ∧ s' = ({ s.obtain t file with
      files := { files' with executable := fun u => if u = t then file else files'.executable u } } : System).setStage t v ∧
      ((∃ id, file = some id ∧ v = .start_deny success id) ∨ file = none ∧ v = .start_check success) := by
    cases file with
    | none => exact ⟨_,rfl,(Except.ok.inj ran).symm,.inr ⟨rfl,rfl⟩⟩
    | some id => exact ⟨_,rfl,(Except.ok.inj ran).symm,.inl ⟨id,rfl,rfl⟩⟩
  have stage : s'.stage t = v := by rw [shape]; exact Function.update_self _ _ _
  have runs : s'.files.executable t = file := by rw [shape]; exact if_pos rfl
  refine lives_opened lives started bare opens' (by rw [shape]; exact inv) (by rw [shape]; rfl) (by rw [shape]; rfl) (by rw [shape]; rfl)
    (by rw [shape]; rfl) (by rw [shape]; rfl) ?_ ?_ (by intro u _; rw [shape]; rfl) (by rw [shape]; rfl) (by rw [shape]; rfl) ?_ alive ?_
  · intro u other
    rw [shape]
    exact executable u other
  · intro u other
    rw [shape]
    exact Function.update_of_ne other _ _
  · intro h
    rw [Holds,stage,bareStage,runs]
    simp
  · rw [stage]
    rcases stays with ⟨id,rfl,rfl⟩ | ⟨rfl,rfl⟩
    · obtain ⟨f,found,allows⟩ := (new id rfl).1
      exact ⟨runs,f,by rw [shape]; exact found,allows⟩
    · intro h same
      rw [runs] at same
      cases same

/-! ### Every step -/

theorem lives_leave {leaves : Bool} (lives : Lives s) (started : s.stage t ≠ .unborn) (called : Called t leaves s.files files')
    (inv : Inv files') (before : pending (s.stage t) = []) :
    Lives (s.leave t files') := by
  have here : (s.leave t files').stage t = .gone := Function.update_self _ _ _
  refine lives_called lives started called inv (fun u other => Function.update_of_ne other _ _)
    (fun u other => Function.update_of_ne other _ _) rfl rfl before (by rw [here]; rfl) (.inr here) ?_
  rw [here]
  exact Function.update_self _ _ _

theorem lives_outcome {out : Outcome} (lives : Lives s) (here : s.stage t = .user) (leaves : Leaves t s.files out)
    (ran : outcome s t out = .ok s') : Lives s' := by
  have own := lives.own t
  have started : s.stage t ≠ .unborn := by rw [here]; simp
  have before : pending (s.stage t) = [] := by rw [here]; rfl
  cases leaves with
  | returned inv called =>
    obtain rfl := Except.ok.inj ran
    refine lives_called lives started called inv (fun _ _ => rfl) (fun _ _ => rfl) rfl rfl before before (.inl ?_) ?_
    · show _ = true
      rw [called.live t (.inl rfl)]
      exact awake own here (by simp) (by simp)
    · refine fits_same own.fits (congrFun called.executable t) rfl ?_
      intro h mine f found
      obtain ⟨f',found',inode,deny_write⟩ := called.files h f found (own.unmapped h mine)
      exact ⟨f',found',inode,deny_write (.inl rfl)⟩
  | exited inv called closed =>
    obtain rfl := Except.ok.inj ran
    exact lives_leave lives started called inv before
  | halted => cases ran

/-- `load` and `start_process` deny writes to a file that was just opened. -/
theorem lives_deny {v : Stage} (lives : Lives s) (started : s.stage t ≠ .unborn) (alive : s.files.live t = true)
    (mine : Holds s t id) (flag : Flag s id false) (ran : file_deny_write s.files id = .ok files')
    (same : pending v = pending (s.stage t))
    (fits : files'.executable = s.files.executable → Flag { s with files := files' } id true →
      Fits { s.setStage t v with files := files' } t v) : Lives { s.setStage t v with files := files' } := by
  obtain ⟨f,found,allows⟩ := flag
  obtain ⟨files₁,denies,counted,only,stays⟩ := deny_spec lives.inv.toCounted found allows
  obtain rfl := Except.ok.inj (denies.symm.trans ran)
  exact lives_call lives v started mine only counted stays alive same (fits only.executable ⟨_,stays,rfl⟩)

theorem lives_load_deny {name : String} {space : Space} (lives : Lives s) (here : s.stage t = .load_deny name id)
    (ran : next s t space (.load_deny name id) = .ok s') : Lives s' := by
  have own := lives.own t
  have fits := own.fits
  rw [here] at fits
  obtain ⟨none_,idle,flag⟩ := fits
  cases denied : file_deny_write s.files id with
  | error fault =>
    simp only [next,denied] at ran
    cases ran
  | ok files' =>
    simp only [next,denied] at ran
    obtain rfl := Except.ok.inj ran
    refine lives_deny lives (by rw [here]; simp) (awake own here (by simp) (by simp)) (.inl ?_) flag denied ?_ ?_
    · rw [here]
      exact List.mem_singleton.mpr rfl
    · rw [here]
      rfl
    · exact fun executable denies => ⟨(congrFun executable t).trans none_,idle,denies⟩

theorem lives_start_deny {success : Bool} {space : Space} (lives : Lives s) (here : s.stage t = .start_deny success id)
    (ran : next s t space (.start_deny success id) = .ok s') : Lives s' := by
  have own := lives.own t
  have fits := own.fits
  rw [here] at fits
  obtain ⟨runs,flag⟩ := fits
  cases denied : file_deny_write s.files id with
  | error fault =>
    simp only [next,denied] at ran
    cases ran
  | ok files' =>
    simp only [next,denied] at ran
    obtain rfl := Except.ok.inj ran
    refine lives_deny lives (by rw [here]; simp) (awake own here (by simp) (by simp)) (.inr runs) flag denied ?_ ?_
    · rw [here]
      rfl
    · intro executable denies h same
      have runs' : files'.executable t = some h := same
      rw [executable,runs] at runs'
      exact Option.some.inj runs' ▸ denies

theorem lives_load_allow {name : String} {space : Space} (lives : Lives s) (here : s.stage t = .load_allow name id)
    (ran : next s t space (.load_allow name id) = .ok s') : Lives s' := by
  have own := lives.own t
  have fits := own.fits
  rw [here] at fits
  obtain ⟨none_,-,f,found,inode⟩ := fits
  obtain ⟨files',allowed,counted,only,stays⟩ := allow_spec lives.inv.toCounted found
  simp only [next,allowed] at ran
  obtain rfl := Except.ok.inj ran
  have mine : Holds s t id := .inl (by rw [here]; exact List.mem_singleton.mpr rfl)
  refine lives_call lives _ (by rw [here]; simp) mine only counted stays (awake own here (by simp) (by simp)) ?_ ?_
  · rw [here]
    rfl
  · exact ⟨(congrFun only.executable t).trans none_,⟨_,stays,rfl⟩,_,stays,inode⟩

/-- The file of `load` moves. -/
theorem lives_moved {v : Stage} {pos : Int} {program : Option Sector} (lives : Lives s) (started : s.stage t ≠ .unborn)
    (alive : s.files.live t = true) (mine : Holds s t id) (found : s.files.files id = some f) (ahead : 0 ≤ pos)
    (same : pending v = pending (s.stage t))
    (fits : Fits { s.setStage t v with
      files := s.files.setFile id (some { f with pos := pos }), program := Function.update s.program t program } t v) :
    Lives { s.setStage t v with
      files := s.files.setFile id (some { f with pos := pos }), program := Function.update s.program t program } := by
  obtain ⟨s₁,shape⟩ : ∃ s₁ : System, s₁ = { s.setStage t v with
      files := s.files.setFile id (some { f with pos := pos }), program := Function.update s.program t program } := ⟨_,rfl⟩
  have here : s₁.stage t = v := by rw [shape]; exact Function.update_self _ _ _
  have files : s₁.files = s.files.setFile id (some { f with pos := pos }) := by rw [shape]
  rw [← shape] at fits ⊢
  refine lives_only lives started mine ?_ ?_ alive (fun u other => ?_) (fun u other => ?_) (by rw [shape]; rfl)
    (by rw [shape]; rfl) (by rw [here]; exact same) (by rw [here]; exact fits)
  · rw [files]
    exact onlyFile_setFile fun _ => ⟨rfl,rfl⟩
  · rw [files]
    exact inv_setPos lives.inv found ahead (fun _ => rfl) fun _ => rfl
  · rw [shape]
    exact Function.update_of_ne other _ _
  · rw [shape]
    exact Function.update_of_ne other _ _

theorem setFile_found {s : Sys} (id : FileId) (file : Option File) : (s.setFile id file).files id = file := if_pos rfl

theorem lives_load_header {name : String} {space : Space} (lives : Lives s) (here : s.stage t = .load_header name id)
    (ran : next s t space (.load_header name id) = .ok s') : Lives s' := by
  have own := lives.own t
  have fits := own.fits
  rw [here] at fits
  obtain ⟨none_,-,f,found,denies⟩ := fits
  simp only [next,found] at ran
  obtain rfl := Except.ok.inj ran
  have ahead := lives.inv.pos id f found
  have more := read_ge (s.files.inodes f.inode) sizeof_Ehdr f.pos
  refine lives_moved lives (by rw [here]; simp) (awake own here (by simp) (by simp)) (.inl ?_) found
    (Int.add_nonneg ahead more) ?_ ?_
  · rw [here]
    exact List.mem_singleton.mpr rfl
  · rw [here]
    rfl
  · exact ⟨none_,⟨_,setFile_found id _,denies⟩,_,setFile_found id _,Function.update_self _ _ _⟩

/-- The statements that leave the files alone. -/
theorem lives_goes (v : Stage) (lives : Lives s) (here : s.stage t = st) (born : st ≠ .unborn) (runs : st ≠ .gone)
    (same : pending v = pending st) (fits : Fits s t st → Fits (s.setStage t v) t v) : Lives (s.setStage t v) := by
  have own := lives.own t
  have before := own.fits
  rw [here] at before
  refine lives_stage lives v (by rw [here]; exact born) (awake own here born runs) (by rw [here]; exact same) (fits before)

theorem lives_next {space : Space} (lives : Lives s) (ran : next s t space (s.stage t) = .ok s') : Lives s' := by
  cases here : s.stage t with
  | unborn | user | writing id inode buffer size offset | gone =>
    rw [here] at ran
    cases ran
  | load_open name =>
    rw [here] at ran
    exact lives_load_open lives here ran
  | load_deny name id =>
    rw [here] at ran
    exact lives_load_deny lives here ran
  | load_header name id =>
    rw [here] at ran
    exact lives_load_header lives here ran
  | load_read name id =>
    rw [here] at ran
    obtain rfl := Except.ok.inj ran
    exact lives_goes _ lives here (by simp) (by simp) rfl fun fits => fits
  | load_allow name id =>
    rw [here] at ran
    exact lives_load_allow lives here ran
  | load_close name file success =>
    rw [here] at ran
    cases file with
    | none =>
      obtain rfl := Except.ok.inj ran
      exact lives_goes _ lives here (by simp) (by simp) rfl And.left
    | some id =>
      cases closed : file_close s.files id with
      | error fault =>
        simp only [next,closed] at ran
        cases ran
      | ok files' =>
        simp only [next,closed] at ran
        obtain rfl := Except.ok.inj ran
        exact lives_close lives here closed
  | start_open name success =>
    rw [here] at ran
    exact lives_start_open lives here ran
  | start_deny success id =>
    rw [here] at ran
    exact lives_start_deny lives here ran
  | start_check success =>
    rw [here] at ran
    cases success with
    | true =>
      obtain rfl := Except.ok.inj ran
      exact lives_goes _ lives here (by simp) (by simp) rfl fun fits => fits
    | false =>
      obtain ⟨files',exits,inv,called,-⟩ := exit_called (t := t) lives.inv (-1)
      simp only [next,exits] at ran
      obtain rfl := Except.ok.inj ran
      exact lives_leave lives (by rw [here]; simp) called inv (by rw [here]; rfl)

theorem lives_fail (lives : Lives s) (ran : fail s t (s.stage t) = .ok s') : Lives s' := by
  cases here : s.stage t with
  | load_open name =>
    rw [here] at ran
    obtain rfl := Except.ok.inj ran
    exact lives_goes _ lives here (by simp) (by simp) rfl fun fits => fits
  | load_read name id =>
    rw [here] at ran
    obtain rfl := Except.ok.inj ran
    exact lives_goes _ lives here (by simp) (by simp) rfl fun fits => fits
  | _ =>
    rw [here] at ran
    cases ran

theorem setStage_self (s : System) (t : Tid) : s.setStage t (s.stage t) = s := by
  unfold System.setStage
  rw [Function.update_eq_self]

theorem lives_read {pos : Nat} (lives : Lives s) (ran : read s pos (s.stage t) = .ok s') : Lives s' := by
  cases here : s.stage t with
  | load_read name id =>
    have own := lives.own t
    have fits := own.fits
    rw [here] at fits ran
    obtain ⟨none_,-,f,found,inode⟩ := fits
    have ahead : ¬ (pos : Int) < 0 := Int.not_lt.mpr (Int.natCast_nonneg pos)
    simp only [read,found,Option.map_some,file_seek,if_neg ahead,Except.map] at ran
    obtain rfl := Except.ok.inj ran
    have same : ({ s.setStage t (s.stage t) with
        files := s.files.setFile id (some { f with pos := pos }), program := Function.update s.program t (s.program t) } : System) =
        { s with files := s.files.setFile id (some { f with pos := pos }) } := by
      rw [Function.update_eq_self,setStage_self]
    rw [← same]
    refine lives_moved lives (by rw [here]; simp) (awake own here (by simp) (by simp))
      (.inl (by rw [here]; exact List.mem_singleton.mpr rfl)) found (Int.natCast_nonneg pos) rfl ?_
    rw [same,here]
    have flag := own.fits
    rw [here] at flag
    obtain ⟨-,⟨g,found',denies⟩,-⟩ := flag
    obtain rfl := Option.some.inj (found.symm.trans found')
    exact ⟨none_,⟨_,setFile_found id _,denies⟩,_,setFile_found id _,inode⟩
  | _ =>
    rw [here] at ran
    cases ran

/-- `syscall_write` either returns or goes on to `inode_write_at`, on a file that a descriptor is for. -/
theorem write_cases {user : User} {fd : Int} {buffer length : UInt32} (ran : write s t user fd buffer length = .ok s') :
    (validBuffer user buffer length = false ∧ ∃ out, syscall_exit s.files t (-1) = .ok out ∧ outcome s t out = .ok s') ∨ s' = s ∨
    ∃ id f, find_file_by_fd s.files fd = some (id,f) ∧ (s.files.inodes f.inode).deny_write_cnt = 0 ∧
      s' = s.setStage t (.writing id f.inode (fun o => user.memory (buffer + UInt32.ofInt o)) (off_t length) f.pos) := by
  unfold write at ran
  cases valid : validBuffer user buffer length with
  | false =>
    rw [valid] at ran
    cases exits : syscall_exit s.files t (-1) with
    | error fault =>
      rw [exits] at ran
      cases ran
    | ok out =>
      rw [exits] at ran
      exact .inl ⟨rfl,out,rfl,ran⟩
  | true =>
    simp only [valid,Bool.not_true,Bool.false_eq_true,↓reduceIte] at ran
    split at ran
    · exact .inr (.inl (Except.ok.inj ran).symm)
    · cases found : find_file_by_fd s.files fd with
      | none =>
        rw [found] at ran
        exact .inr (.inl (Except.ok.inj ran).symm)
      | some file =>
        simp only [found] at ran
        split at ran
        · exact .inr (.inl (Except.ok.inj ran).symm)
        · next allows => exact .inr (.inr ⟨file.1,file.2,rfl,not_not.mp allows,(Except.ok.inj ran).symm⟩)

theorem lives_write {user : User} {fd : Int} {buffer length : UInt32} (lives : Lives s) (here : s.stage t = .user)
    (ran : write s t user fd buffer length = .ok s') : Lives s' := by
  rcases write_cases ran with ⟨-,out,exits,ran⟩ | rfl | ⟨id,f,-,-,rfl⟩
  · exact lives_outcome lives here (leaves_exit lives.inv exits) ran
  · exact lives
  · exact lives_goes _ lives here (by simp) (by simp) rfl fun fits => fits

/-- The file of a write may be closed meanwhile, by a process that leaves. -/
theorem called_write_returns {s : Sys} {i : Sector} {v : Inode} {moved : Int} (counted : Counted s) :
    Called t false s ((s.setInode i v).setFile id ((s.files id).map fun f => { f with pos := f.pos + moved })) := by
  cases found : s.files id with
  | some f => exact called_written counted found
  | none =>
    refine called_disk (funext fun x => ?_) rfl rfl rfl rfl rfl
    by_cases same : x = id
    · rw [same,found]
      exact if_pos rfl
    · exact if_neg same

theorem inv_write_returns {s : Sys} {i : Sector} {bytes : Int → UInt8} {moved : Int} (inv : Inv s) (ahead : 0 ≤ moved) :
    Inv ((s.setInode i { s.inodes i with bytes := bytes }).setFile id ((s.files id).map fun f => { f with pos := f.pos + moved })) := by
  have opens : ∀ j, ((s.setInode i { s.inodes i with bytes := bytes }).inodes j).open_cnt = (s.inodes j).open_cnt := by
    intro j
    by_cases same : j = i
    · simp [same,Sys.setInode]
    · simp [same,Sys.setInode]
  have denies : ∀ j, ((s.setInode i { s.inodes i with bytes := bytes }).inodes j).deny_write_cnt = (s.inodes j).deny_write_cnt := by
    intro j
    by_cases same : j = i
    · simp [same,Sys.setInode]
    · simp [same,Sys.setInode]
  cases found : s.files id with
  | some f => exact inv_setPos inv found (Int.add_nonneg (inv.pos id f found) ahead) opens denies
  | none =>
    have same : (s.setInode i { s.inodes i with bytes := bytes }).setFile id none = s.setInode i { s.inodes i with bytes := bytes } := by
      have files : (s.setFile id none).files = s.files := funext fun x => by
        by_cases same : x = id
        · rw [same,found]
          exact if_pos rfl
        · exact if_neg same
      show { s.setInode i { s.inodes i with bytes := bytes } with files := (s.setFile id none).files } = _
      rw [files]
      rfl
    show Inv ((s.setInode i { s.inodes i with bytes := bytes }).setFile id none)
    rw [same]
    exact inv_disk s.root inv opens denies

theorem lives_write_returns (lives : Lives s) (ran : write_returns s t (s.stage t) = .ok s') : Lives s' := by
  cases here : s.stage t with
  | writing id inode buffer size offset =>
    rw [here] at ran
    obtain rfl := Except.ok.inj ran
    have own := lives.own t
    have fits := own.fits
    rw [here] at fits
    have ahead : 0 ≤ (rest_of_write s inode buffer size offset).1 := writeLoop_ge _ _ _ _ _ _ _
    obtain ⟨s₁,shape⟩ : ∃ s₁ : System, s₁ = { s.setStage t .user with
        files := (s.files.setInode inode { s.files.inodes inode with bytes := (rest_of_write s inode buffer size offset).2 }).setFile id
          ((s.files.files id).map fun f => { f with pos := f.pos + (rest_of_write s inode buffer size offset).1 }) } := ⟨_,rfl⟩
    have after : s₁.stage t = .user := by rw [shape]; exact Function.update_self _ _ _
    have called : Called t false s.files s₁.files := by rw [shape]; exact called_write_returns lives.inv.toCounted
    show Lives _
    rw [← shape]
    refine lives_called lives (by rw [here]; simp) called ?_ ?_ ?_ ?_ ?_ (by rw [here]; rfl) (by rw [after]; rfl) (.inl ?_) ?_
    · rw [shape]
      exact inv_write_returns lives.inv ahead
    · intro u other
      rw [shape]
      exact Function.update_of_ne other _ _
    · intro u _
      rw [shape]
      rfl
    · rw [shape]
      rfl
    · rw [shape]
      rfl
    · rw [called.live t (.inl rfl)]
      exact awake own here (by simp) (by simp)
    · rw [after]
      intro h runs
      rw [called.executable] at runs
      refine flag_same (fits h runs) fun g found => ?_
      obtain ⟨g',found',inode',deny_write⟩ := called.files h g found (own.unmapped h (.inr runs))
      exact ⟨g',found',inode',deny_write (.inl rfl)⟩
  | _ =>
    rw [here] at ran
    cases ran

theorem lives_kill (lives : Lives s) (here : s.stage t = .user) (ran : kill s t = .ok s') : Lives s' := by
  have started : s.stage t ≠ .unborn := by rw [here]; simp
  have before : pending (s.stage t) = [] := by rw [here]; rfl
  unfold kill at ran
  cases runs : s.files.executable t with
  | none =>
    rw [runs] at ran
    obtain rfl := Except.ok.inj ran
    exact lives_leave lives started (called_refl : Called t true s.files s.files) lives.inv before
  | some id =>
    obtain ⟨files',allowed,inv,called⟩ := allow_called lives.inv runs
    simp only [runs,allowed,Except.map] at ran
    obtain rfl := Except.ok.inj ran
    exact lives_leave lives started called inv before

/-- A thread that does not exist yet runs no file, so that the executable of a new one is none already. -/
theorem inv_process_execute {s : Sys} (inv : Inv s) : Inv { s with
    next_tid := s.next_tid + 1
    live := fun u => if u = s.next_tid then true else s.live u
    executable := fun u => if u = s.next_tid then none else s.executable u } := by
  have runs : ∀ u id, (if u = s.next_tid then none else s.executable u) = some id → s.executable u = some id := by
    intro u id same
    split at same
    · cases same
    · exact same
  refine ⟨counted_same inv.toCounted rfl rfl (fun _ => rfl) (fun _ => rfl),?_⟩
  refine ⟨fun m member => ⟨?_,(inv.entry m member).2⟩,inv.once,fun u id same => inv.apart u id (runs u id same),
    fun u id same => inv.running u id (runs u id same),
    fun u v id first second => inv.runOnce u v id (runs u id first) (runs v id second),fun u later => ?_,inv.fds,inv.fdsOnce,
      inv.index⟩
  · show (if m.tid = s.next_tid then true else s.live m.tid) = true
    split
    · rfl
    · exact (inv.entry m member).1
  · have later : s.next_tid + 1 ≤ u := later
    have other : u ≠ s.next_tid := Nat.ne_of_gt later
    obtain ⟨live,none_⟩ := inv.tids u (Nat.le_of_succ_le later)
    exact ⟨(if_neg other).trans live,(if_neg other).trans none_⟩

theorem lives_process_execute (lives : Lives s) (name : String) : Lives (process_execute s name) := by
  obtain ⟨s₁,shape⟩ : ∃ s₁, s₁ = process_execute s name := ⟨_,rfl⟩
  obtain ⟨t,new⟩ : ∃ t, t = s.files.next_tid := ⟨_,rfl⟩
  have here : s.stage t = .unborn := lives.unborn t (Nat.le_of_eq new.symm)
  have own := lives.own t
  have fits := own.fits
  rw [here] at fits
  have bare : ∀ h, ¬ Holds s t h := fun h held => holds_born lives held here
  have stage : s₁.stage t = .load_open name := by rw [shape,new]; exact Function.update_self _ _ _
  have runs : s₁.files.executable t = none := by rw [shape,new]; exact if_pos rfl
  have after : ∀ h, ¬ Holds s₁ t h := by
    rintro h (listed | same)
    · rw [stage] at listed
      exact List.not_mem_nil listed
    · rw [runs] at same
      cases same
  rw [← shape]
  refine lives_frame (t := t) lives ⟨?_,?_,?_,?_,?_,?_,?_,?_,?_,?_,?_,?_,?_⟩ ?_ ⟨?_,?_,?_,?_,?_,?_⟩
  · intro u other
    rw [shape]
    exact Function.update_of_ne (new ▸ other) _ _
  · exact fun u _ => by rw [shape]; rfl
  · exact fun u _ => by rw [shape]; rfl
  · intro u other
    rw [shape]
    exact if_neg (new ▸ other)
  · intro u other
    rw [shape]
    exact if_neg (new ▸ other)
  · rw [shape]
    exact Nat.le_succ _
  · rw [shape,new]
    exact Nat.lt_succ_self _
  · exact Nat.le_of_eq (by rw [shape]; rfl)
  · exact fun h f _ _ found => ⟨f,by rw [shape]; exact found,rfl,rfl⟩
  · exact fun m member => .inl ⟨m,by rw [shape] at member; exact member,rfl⟩
  · exact fun h _ => by rw [shape]; rfl
  · exact fun h member => .inl (by rw [shape] at member; exact member)
  · intro id f found
    have found : s.files.files id = some f := by rw [shape] at found; exact found
    by_cases mapped : ∃ m ∈ s.files.fd_name_mapping, m.file = id
    · exact .inl (by rw [shape]; exact mapped)
    · exact .inr (.inr ⟨⟨f,found⟩,fun m member file => mapped ⟨m,member,file⟩,bare id⟩)
  · rw [shape]
    exact inv_process_execute lives.inv
  · rw [stage,shape,new]
    exact if_pos rfl
  · rw [stage]
    exact ⟨runs,by rw [shape]; exact fits.2⟩
  · exact fun h held => absurd held (after h)
  · exact fun h held => absurd held (after h)
  · exact fun h member => by rw [shape] at member ⊢; exact own.known h member
  · intro h member
    have member : h ∈ s.obtained t := by rw [shape] at member; exact member
    exact ⟨fun held => absurd held (after h),fun _ => by rw [shape]; exact (own.closes h member).2 (bare h)⟩

theorem lives_boot (root : List (String × Sector)) (inodes : Sector → Inode) : Lives (boot root inodes) where
  inv := inv_disk root inv_boot (fun _ => rfl) fun _ => rfl
  unborn _ _ := rfl
  own t := by
    have bare : ∀ h, ¬ Holds (boot root inodes) t h := by
      rintro h (listed | runs)
      · exact List.not_mem_nil listed
      · cases runs
    exact ⟨trivial,⟨rfl,rfl⟩,fun h held => absurd held (bare h),fun h held => absurd held (bare h),
      fun h member => absurd member List.not_mem_nil,fun h member => absurd member List.not_mem_nil⟩
  owner t u h member _ := absurd member List.not_mem_nil
  owned id f found := by cases found
  closedKnown h member := absurd member List.not_mem_nil

theorem syscall_cases {user : User} {space : Space} (ran : step s (.syscall t user space c) = .ok s') : s.stage t = .user ∧
    ∃ out, syscall_handler s.files t user space c = .ok out ∧ outcome s t out = .ok s' := by
  have bound : ∀ {x : Except Fault Outcome}, x >>= outcome s t = .ok s' → ∃ out, x = .ok out ∧ outcome s t out = .ok s' := by
    intro x same
    cases x with
    | error fault => cases same
    | ok out => exact ⟨out,rfl,same⟩
  cases here : s.stage t with
  | user =>
    cases c with
    | write fd buffer length =>
      simp only [step,here] at ran
      cases ran
    | _ =>
      simp only [step,here] at ran
      exact ⟨rfl,bound ran⟩
  | _ =>
    simp only [step,here] at ran
    cases ran

theorem lives_step (lives : Lives s) (ran : step s e = .ok s') : Lives s' := by
  cases e with
  | process_execute name =>
    obtain rfl := Except.ok.inj ran
    exact lives_process_execute lives name
  | next t space => exact lives_next lives ran
  | fail t => exact lives_fail lives ran
  | read t pos => exact lives_read lives ran
  | syscall t user space c =>
    obtain ⟨here,out,handled,ran⟩ := syscall_cases ran
    exact lives_outcome lives here (leaves_handler lives.inv (awake (lives.own t) here (by simp) (by simp)) handled) ran
  | write t user fd buffer length =>
    cases here : s.stage t with
    | user =>
      simp only [step,here] at ran
      exact lives_write lives here ran
    | _ =>
      simp only [step,here] at ran
      cases ran
  | write_returns t => exact lives_write_returns lives ran
  | kill t =>
    cases here : s.stage t with
    | user =>
      simp only [step,here] at ran
      exact lives_kill lives here ran
    | _ =>
      simp only [step,here] at ran
      cases ran

theorem reaches_lives {root : List (String × Sector)} {inodes : Sector → Inode} {Guard : System → Event → Prop}
    (reached : Reaches (machine root inodes) Guard s) : Lives s := by
  refine reaches_invariant Lives ?_ ?_ reached
  · rintro s rfl
    exact lives_boot root inodes
  · intro s e s' lives _ ran
    exact lives_step lives (ok_of_toOption ran)

end Pintos.Lifetimes
