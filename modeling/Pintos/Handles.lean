import Pintos.Operations

/-!
What the calls on an open file do: reading and writing at its position, moving it,
denying and allowing writes to its inode, and closing it, which frees the sectors of a
removed file with its last handle.
-/
namespace Pintos.FileSystem
open Pintos.Machines Pintos.Bitmaps Pintos.Lists
set_option linter.unusedSimpArgs false

section
variable {s s' s₁ : FileSystem} {L L' : Nat → Option InodeDisk} {x z a b f k pos : Nat} {i m : InodeDisk} {n : Inode}
  {extra : List Nat}
  {d d' : Device} {u v : File} {t : Tables}

/-- The inode of a handle is neither that of the free map nor the root directory's. -/
theorem handle_inode (sane : Sane s L extra) (file : s.files f = some u) :
    ∃ n, s.inodes u.inode = some n ∧ L n.sector = some n.data ∧
      (s.free_map_file ≠ some f → n.sector ≠ FREE_MAP_SECTOR ∧ n.sector ≠ ROOT_DIR_SECTOR) := by
  obtain ⟨n,found⟩ := Option.ne_none_iff_exists'.mp (sane.opened.file f u file)
  exact ⟨n,found,sane.opened.stored _ n found,fun other => sane.opened.user f u n file other found⟩

/-- The files other than that of the free map change. -/
theorem mapped_other {cnt : Nat} {w : Option File} (mapped : Mapped t cnt) (other : t.free_map_file ≠ some f) :
    Mapped { t with files := Function.update t.files f w } cnt := by
  refine mapped_keep mapped rfl (fun g v file found => ?_) fun c p found _ => ⟨p,found,rfl,rfl⟩
  have apart : g ≠ f := by
    rintro rfl
    exact other file
  rw [← found]
  exact Function.update_of_ne apart _ _

theorem steady_files {n : Nat} (steady : Steady n s s') (files : Nat → Option File) : Steady n s { s' with files := files } :=
  ⟨steady.size,steady.bits,steady.plenty,steady.ready,steady.synced⟩

theorem sane_move (sane : Sane s L extra) (file : s.files f = some u) (other : s.free_map_file ≠ some f) (pos : Nat) :
    Sane { s with files := Function.update s.files f (some { u with pos := pos }) } L extra where
  ledger := sane.ledger
  opened := opened_file_move sane.opened file pos
  mapped := mapped_other sane.mapped other
  root := ⟨sane.root.root,sane.root.named,sane.root.once,sane.root.removed⟩

theorem file_read_spec (sane : Sane s L []) (file : s.files f = some u) (other : s.free_map_file ≠ some f) (size : BitVec 32) :
    ∃ n bytes, s.inodes u.inode = some n ∧
      bytes = (List.range (transferred (s.memory 0) u.pos (reach n.data (off_t size) u.pos))).map
        (fun k => content s.fs_device.data n.data.start.toNat (u.pos + k)) ∧
      file_read s f size = some (bytes,{ forget s 1 with files := Function.update s.files f (some { u with pos := u.pos + bytes.length }) }) ∧
      Sane { forget s 1 with files := Function.update s.files f (some { u with pos := u.pos + bytes.length }) } L [] := by
  obtain ⟨n,found,owned,-⟩ := handle_inode sane file
  have read := inode_read_at_spec found (on_device (ledger_inside sane.ledger owned)) (off_t size) u.pos
  refine ⟨n,_,found,rfl,?_,?_⟩
  · rw [file_read,file]
    simp only [Option.bind_eq_bind,Option.bind_some,read]
    rfl
  · exact sane_move (s := forget s 1) (sane_forget sane 1) file other _

theorem sane_write {buffer : Nat → Byte} {amount : Nat} (sane : Sane s L extra) (owned : L x = some i)
    (user : x ≠ FREE_MAP_SECTOR ∧ x ≠ ROOT_DIR_SECTOR) (written : Written s.fs_device d' i buffer pos amount) :
    Sane { s with fs_device := d' } L extra ∧ Steady 0 s { s with fs_device := d' } ∧
    (∀ z, ¬ Extent i z → d'.data z = s.fs_device.data z) ∧
      ∀ l < entry_cnt, slot d' l = slot s.fs_device l := by
  have outside : ∀ z, ¬ Extent i z → d'.data z = s.fs_device.data z :=
    fun z out => written.outside z fun pos below same => out (by
    rw [same]
    exact extent_pos sane.ledger owned below)
  have slots : ∀ l < entry_cnt, slot d' l = slot s.fs_device l := by
    obtain ⟨j,there,length⟩ := sane.root.root
    refine fun l below => slot_same sane.ledger there below length fun z mine => outside z fun also => ?_
    exact sane.ledger.apart _ _ j i there owned user.2.symm z mine (.inr also)
  refine ⟨⟨ledger_outside sane.ledger owned written.size outside,sane.opened,sane.mapped,root_slots sane.root slots⟩,?_,
    outside,slots⟩
  obtain ⟨-,-,p,-,-,-,-,mine,length⟩ := map_file sane.opened sane.mapped
  refine steady_device sane.ledger mine length written.size fun z inside => outside z fun also => ?_
  exact sane.ledger.apart _ _ p.data i mine owned user.1.symm z inside (.inr also)

theorem file_write_spec (sane : Sane s L []) (file : s.files f = some u) (other : s.free_map_file ≠ some f)
    (buffer : Nat → Byte) (size : BitVec 32) :
    ∃ n amount d', s.inodes u.inode = some n ∧ amount = (if n.deny_write_cnt = 0 then
        transferred (s.memory 0) u.pos (reach n.data (off_t size) u.pos) else 0) ∧
      file_write s f buffer size = some (amount,{ forget s 1 with
        fs_device := d', files := Function.update s.files f (some { u with pos := u.pos + amount }) }) ∧
      Written s.fs_device d' n.data buffer u.pos amount ∧ (n.deny_write_cnt ≠ 0 → d' = s.fs_device) ∧
      Sane { forget s 1 with fs_device := d', files := Function.update s.files f (some { u with pos := u.pos + amount }) } L [] ∧
      Steady 0 s { forget s 1 with fs_device := d', files := Function.update s.files f (some { u with pos := u.pos + amount }) } := by
  obtain ⟨n,found,owned,user⟩ := handle_inode sane file
  have quiet : Sane (forget s 1) L [] := sane_forget sane 1
  by_cases writable : n.deny_write_cnt = 0
  · obtain ⟨d',ran,written⟩ := write_at_spec (s := forget s 1) found writable (on_device (ledger_inside sane.ledger owned)) (s.memory 0) buffer (off_t size) u.pos
    obtain ⟨sane',steady',-⟩ := sane_write quiet owned (user other) written
    refine ⟨n,_,d',found,by rw [if_pos writable],?_,written,fun deny => absurd writable deny,sane_move sane' file other _,?_⟩
    · rw [file_write,file]
      simp only [Option.bind_eq_bind,Option.bind_some]
      rw [inode_write_at,malloc_eq]
      show Option.bind (write_at (forget s 1) (s.memory 0) u.inode buffer (off_t size) u.pos) _ = _
      rw [ran]
      rfl
    · exact steady_files (steady_trans (steady_forget s 1) steady') _
  · refine ⟨n,0,s.fs_device,found,by rw [if_neg writable],?_,written_none _ _ _ _,fun _ => rfl,sane_move quiet file other _,?_⟩
    · rw [file_write,file]
      simp only [Option.bind_eq_bind,Option.bind_some]
      rw [inode_write_at,malloc_eq]
      show Option.bind (write_at (forget s 1) (s.memory 0) u.inode buffer (off_t size) u.pos) _ = _
      rw [write_at]
      show Option.bind (Option.bind (s.inodes u.inode) _) _ = _
      rw [found]
      simp only [Option.bind_some,ne_eq,writable,not_false_eq_true,if_true]
      rfl
    · exact steady_files (steady_forget s 1) _

theorem file_seek_spec (sane : Sane s L []) (file : s.files f = some u) (other : s.free_map_file ≠ some f) {new_pos : BitVec 32}
    (nonnegative : 0 ≤ new_pos.toInt) :
    file_seek s f new_pos = some { s with files := Function.update s.files f (some { u with pos := off_t new_pos }) } ∧
      Sane { s with files := Function.update s.files f (some { u with pos := off_t new_pos }) } L [] := by
  refine ⟨?_,sane_move sane file other _⟩
  rw [file_seek,file]
  simp only [Option.bind_eq_bind,Option.bind_some]
  rw [if_neg (Int.not_lt.mpr nonnegative)]

/-! ### Denying writes -/

/-- A file starts or stops denying writes, and its inode counts it. -/
theorem opened_deny {c : Nat} {r : Bool} (opened : Opened t L extra) (file : t.files f = some u)
    (found : t.inodes u.inode = some n)
    (counted : c + u.deny_write.toNat = n.deny_write_cnt + r.toNat) :
    Opened { t with
      inodes := Function.update t.inodes u.inode (some { n with deny_write_cnt := c })
      files := Function.update t.files f (some { u with deny_write := r }) } L extra := by
  have known := file_known opened file
  have same : ∀ b m, Function.update t.inodes u.inode (some { n with deny_write_cnt := c }) b = some m →
      ∃ p, t.inodes b = some p ∧
      m.sector = p.sector ∧ m.data = p.data ∧ m.open_cnt = p.open_cnt ∧
          m.deny_write_cnt = if b = u.inode then c else p.deny_write_cnt := by
    intro b m inode
    rcases update_inode inode with ⟨rfl,same⟩ | ⟨apart,before⟩
    · cases same
      exact ⟨n,found,rfl,rfl,rfl,(if_pos rfl).symm⟩
    · exact ⟨m,before,rfl,rfl,rfl,(if_neg apart).symm⟩
  refine opened_adjust opened (fun b m inode => ?_) (fun b some_ => update_some some_ _) ?_ (fun b m inode => ?_) (fun b m inode => ?_) opened.held
  · obtain ⟨p,before,sector,data,-⟩ := same b m inode
    exact ⟨p,before,sector,data⟩
  · intro g v there
    by_cases here : g = f
    · subst here
      rw [Function.update_self] at there
      cases there
      exact ⟨u,file,rfl⟩
    · rw [Function.update_of_ne here] at there
      exact ⟨v,there,rfl⟩
  · obtain ⟨p,before,-,-,count,-⟩ := same b m inode
    have change := refs_update known (some { u with deny_write := r }) b
    simp only [file,Option.any_some] at change
    have kept : refs { t with files := Function.update t.files f (some { u with deny_write := r }) } b = refs t b := by omega
    show m.open_cnt = refs { t with files := Function.update t.files f (some { u with deny_write := r }) } b + _ ∧ _
    rw [kept,count]
    exact opened.count b p before
  · obtain ⟨p,before,-,-,-,deny⟩ := same b m inode
    have change := denials_update known (some { u with deny_write := r }) b
    simp only [file,Option.any_some] at change
    show m.deny_write_cnt = denials { t with files := Function.update t.files f (some { u with deny_write := r }) } b
    rw [deny]
    by_cases here : b = u.inode
    · subst here
      rw [found] at before
      cases before
      have was := opened.deny _ n found
      simp only [decide_true,Bool.true_and] at change
      rw [if_pos rfl]
      omega
    · rw [if_neg here,opened.deny b p before]
      simp only [decide_eq_false (Ne.symm here),Bool.false_and,Bool.toNat_false] at change
      omega

/-- The state with another denial. -/
def denying (s : FileSystem) (f : Nat) (u : File) (n : Inode) (r : Bool) : FileSystem :=
  { s with
    files := Function.update s.files f (some { u with deny_write := r })
    inodes := Function.update s.inodes u.inode (some { n with deny_write_cnt := n.deny_write_cnt + r.toNat - u.deny_write.toNat }) }

/-- A file that denies writes is one of those that are counted. -/
theorem denials_positive (known : f < t.next) (file : t.files f = some u) (denies : u.deny_write = true) :
    0 < denials t u.inode := by
  rw [denials,List.countP_pos_iff]
  exact ⟨f,List.mem_range.mpr known,by simp [file,denies]⟩

theorem denials_refs (t : Tables) (a : Nat) : denials t a ≤ refs t a := by
  rw [denials,refs]
  refine List.countP_mono_left fun g _ there => ?_
  cases found : t.files g with
  | none => simp [found] at there
  | some v =>
    simp only [found,Option.any_some,decide_eq_true_eq,Bool.and_eq_true] at there ⊢
    exact there.1

/-- A denial that is not there yet has an opener of its own. -/
theorem denials_lt (known : f < t.next) (file : t.files f = some u) (allows : u.deny_write = false) :
    denials t u.inode < refs t u.inode := by
  have change := denials_update known (some { u with deny_write := true }) u.inode
  have same := refs_update known (some { u with deny_write := true }) u.inode
  have bound := denials_refs { t with files := Function.update t.files f (some { u with deny_write := true }) } u.inode
  simp only [file,Option.any_some,allows,decide_true,Bool.true_and,Bool.toNat_false,Bool.toNat_true] at change same
  omega

theorem sane_deny (sane : Sane s L extra) (file : s.files f = some u) (found : s.inodes u.inode = some n)
    (other : s.free_map_file ≠ some f) (r : Bool) : Sane (denying s f u n r) L extra where
  ledger := sane.ledger
  opened := by
    refine opened_deny sane.opened file found ?_
    have counted := sane.opened.deny _ n found
    have bound : u.deny_write.toNat ≤ n.deny_write_cnt := by
      rw [counted]
      cases denies : u.deny_write with
      | false => exact Nat.zero_le _
      | true => exact denials_positive (file_known sane.opened file) file denies
    omega
  mapped := by
    refine mapped_keep (t := { s.tables with files := Function.update s.files f (some { u with deny_write := r }) })
      (mapped_other sane.mapped other) rfl (fun g v _ there => there) fun c p there _ => ?_
    show ∃ m, Function.update s.inodes u.inode _ c = some m ∧ _
    have before : s.inodes c = some p := there
    by_cases here : c = u.inode
    · subst here
      rw [found] at before
      cases before
      exact ⟨_,Function.update_self ..,rfl,rfl⟩
    · exact ⟨p,(Function.update_of_ne here _ _).trans before,rfl,rfl⟩
  root := by
    refine ⟨sane.root.root,sane.root.named,sane.root.once,fun c p there gone => ?_⟩
    rcases update_inode there with ⟨rfl,same⟩ | ⟨-,before⟩
    · cases same
      exact sane.root.removed _ n found gone
    · exact sane.root.removed c p before gone

theorem file_deny_write_eq (file : s.files f = some u) (found : s.inodes u.inode = some n)
    (room : u.deny_write = false → n.deny_write_cnt + 1 ≤ n.open_cnt) : file_deny_write s f = some (denying s f u n true) := by
  rw [file_deny_write,file]
  simp only [Option.bind_eq_bind,Option.bind_some]
  cases denies : u.deny_write with
  | true =>
    have kept : ({ u with deny_write := true } : File) = u := by rw [← denies]
    have count : n.deny_write_cnt + true.toNat - u.deny_write.toNat = n.deny_write_cnt := by rw [denies,Nat.add_sub_cancel]
    rw [if_pos rfl,denying,kept,count,← file,← found,Function.update_eq_self,Function.update_eq_self]
  | false =>
    have count : n.deny_write_cnt + true.toNat - u.deny_write.toNat = n.deny_write_cnt + 1 := by rw [denies]; rfl
    rw [if_neg Bool.false_ne_true,inode_deny_write]
    show Option.bind (s.inodes u.inode) _ = _
    rw [found]
    simp only [Option.bind_some]
    rw [if_pos (room denies),denying,count]

theorem file_allow_write_eq (file : s.files f = some u) (found : s.inodes u.inode = some n)
    (counted : u.deny_write = true → 0 < n.deny_write_cnt ∧ n.deny_write_cnt ≤ n.open_cnt) :
    file_allow_write s f = some (denying s f u n false) := by
  rw [file_allow_write,file]
  simp only [Option.bind_eq_bind,Option.bind_some]
  cases denies : u.deny_write with
  | false =>
    have kept : ({ u with deny_write := false } : File) = u := by rw [← denies]
    have count : n.deny_write_cnt + false.toNat - u.deny_write.toNat = n.deny_write_cnt := by rw [denies]; rfl
    rw [if_neg Bool.false_ne_true,denying,kept,count,← file,← found,Function.update_eq_self,Function.update_eq_self]
  | true =>
    have count : n.deny_write_cnt + false.toNat - u.deny_write.toNat = n.deny_write_cnt - 1 := by rw [denies]; rfl
    rw [if_pos rfl,inode_allow_write]
    show Option.bind (s.inodes u.inode) _ = _
    rw [found]
    simp only [Option.bind_some]
    rw [if_pos (counted denies),denying,count]

theorem file_deny_write_spec (sane : Sane s L extra) (file : s.files f = some u) (found : s.inodes u.inode = some n)
    (other : s.free_map_file ≠ some f) : file_deny_write s f = some (denying s f u n true) ∧
    Sane (denying s f u n true) L extra := by
  refine ⟨file_deny_write_eq file found fun allows => ?_,sane_deny sane file found other true⟩
  have bound := denials_lt (file_known sane.opened file) file allows
  rw [← sane.opened.deny _ n found] at bound
  have count := (sane.opened.count _ n found).1
  omega

theorem file_allow_write_spec (sane : Sane s L extra) (file : s.files f = some u) (found : s.inodes u.inode = some n)
    (other : s.free_map_file ≠ some f) : file_allow_write s f = some (denying s f u n false) ∧
    Sane (denying s f u n false) L extra := by
  refine ⟨file_allow_write_eq file found fun denies => ?_,sane_deny sane file found other false⟩
  have positive := denials_positive (file_known sane.opened file) file denies
  have bound := denials_refs s.tables u.inode
  have counted := sane.opened.deny _ n found
  have count := (sane.opened.count _ n found).1
  exact ⟨by rw [counted]; exact positive,by omega⟩

/-! ### Closing -/

/-- What `file_close` has done to the inode `n` at `a` of the handle `f`. -/
structure Dropped (s s' : FileSystem) (L : Nat → Option InodeDisk) (f a : Nat) (n : Inode) : Prop where
  files : s'.files = Function.update s.files f none
  map_file : s'.free_map_file = s.free_map_file
  outside : ∀ z, (∀ m, L FREE_MAP_SECTOR = some m → ¬ Extent m z) → s'.fs_device.data z = s.fs_device.data z
  kept : ¬ Ends n → s'.fs_device = s.fs_device ∧ s'.free_map = s.free_map
  freed : Ends n → ∀ z, s'.free_map.has z = true ↔ s.free_map.has z = true ∧ ¬ Span n.sector n.data z
  others : ∀ b, b ≠ a → s'.inodes b = s.inodes b
  last : n.open_cnt = 1 → s'.inodes a = none ∧ s'.open_inodes = s.open_inodes.erase a
  more : n.open_cnt ≠ 1 → ∃ m, s'.inodes a = some m ∧ m.sector = n.sector ∧ m.data = n.data ∧ m.removed = n.removed ∧
    m.open_cnt = n.open_cnt - 1

theorem close_inodes (t : Tables) (a : Nat) (n : Inode) (b : Nat) :
    (t.close a n).inodes b = if b = a then if n.open_cnt = 1 then none else some { n with open_cnt := n.open_cnt - 1 } else t.inodes b := by
  rw [Tables.close]
  by_cases here : b = a
  · subst here
    rw [if_pos rfl]
    split
    · exact Function.update_self ..
    · exact Function.update_self ..
  · rw [if_neg here]
    split
    · exact Function.update_of_ne here _ _
    · exact Function.update_of_ne here _ _

theorem file_close_spec (sane : Sane s L extra) (file : s.files f = some u) (other : s.free_map_file ≠ some f) :
    ∃ n s', s.inodes u.inode = some n ∧ file_close s f = some s' ∧ Steady 2 s s' ∧ Sane s' (closed L n) extra ∧
    Dropped s s' L f u.inode n := by
  obtain ⟨n,found,owned,user⟩ := handle_inode sane file
  obtain ⟨allows,sane₁⟩ := file_allow_write_spec sane file found other
  have file₁ : (denying s f u n false).files f = some { u with deny_write := false } := Function.update_self ..
  have found₁ : (denying s f u n false).inodes u.inode = some { n with deny_write_cnt := n.deny_write_cnt + false.toNat - u.deny_write.toNat } :=
    Function.update_self ..
  obtain ⟨s₂,ran,done⟩ := inode_close_spec sane₁.ledger (map_file sane₁.opened sane₁.mapped) found₁ owned fun _ => (user other).1
  have same : closed L { n with deny_write_cnt := n.deny_write_cnt + false.toNat - u.deny_write.toNat } = closed L n := rfl
  have opened := opened_close_file sane₁.opened file₁ found₁ rfl
    (show ∀ y, (n.open_cnt = 1 → y ≠ n.sector) → closed L n y = L y from fun y apart => closed_other apart)
  have files₂ : s₂.files = Function.update s.files f (some { u with deny_write := false }) := by
    have close : s₂.files = _ := congrArg Tables.files done.tables
    rw [close,close_files]
    rfl
  have map_file₂ : s₂.free_map_file = s.free_map_file := by
    have close : s₂.free_map_file = _ := congrArg Tables.free_map_file done.tables
    rw [close,close_map_file]
    rfl
  have inodes₂ : ∀ b, s₂.inodes b = if b = u.inode then if n.open_cnt = 1 then none else
      some { n with deny_write_cnt := n.deny_write_cnt + false.toNat - u.deny_write.toNat, open_cnt := n.open_cnt - 1 } else s.inodes b := by
    intro b
    have close : s₂.inodes b = _ := congrFun (congrArg Tables.inodes done.tables) b
    rw [close,close_inodes]
    by_cases here : b = u.inode
    · rw [if_pos here,if_pos here]
    · rw [if_neg here,if_neg here]
      exact Function.update_of_ne here _ _
  have tables : FileSystem.tables { s₂ with files := Function.update s₂.files f none } =
      { (denying s f u n false).tables.close u.inode { n with deny_write_cnt := n.deny_write_cnt + false.toNat - u.deny_write.toNat } with
        files := Function.update (denying s f u n false).tables.files f none } := by
    have close := congrArg Tables.files done.tables
    rw [close_files] at close
    rw [← done.tables,← close]
    rfl
  have steady : Steady 2 s s₂ := by
    have first : Steady 0 s (denying s f u n false) := steady_quiet rfl rfl rfl ⟨0,rfl⟩
    have both := steady_trans first done.steady
    rwa [Nat.zero_add] at both
  refine ⟨n,{ s₂ with files := Function.update s₂.files f none },found,?_,steady_files steady _,⟨done.ledger,?_,?_,?_⟩,?_⟩
  · rw [file_close,allows]
    simp only [Option.bind_eq_bind,Option.bind_some,file₁,ran]
  · rw [tables]
    exact opened
  · show Mapped _ s₂.free_map.bit_cnt
    rw [done.steady.bits]
    refine mapped_keep (t := s.tables) sane.mapped map_file₂ (fun g v first there => ?_) fun c p there first => ?_
    · have apart : g ≠ f := by
        rintro rfl
        exact other first
      show Function.update s₂.files f none g = some v
      rw [Function.update_of_ne apart,files₂,Function.update_of_ne apart]
      exact there
    · have apart : c ≠ u.inode := by
        rintro rfl
        have before : s.inodes u.inode = some p := there
        rw [found] at before
        cases before
        exact (user other).1 first
      refine ⟨p,?_,rfl,rfl⟩
      show s₂.inodes c = some p
      rw [inodes₂,if_neg apart]
      exact there
  · have slots : ∀ l < entry_cnt, slot s₂.fs_device l = slot s.fs_device l := fun l below =>
      slot_map sane.ledger sane.root.root done.outside below
    -- What was removed is in no entry, and neither the free map nor the root directory is.
    have kept : ∀ y, (Ends n → y ≠ n.sector) → closed L n y = L y := by
      intro y apart
      rw [closed]
      split
      · next ends => exact Function.update_of_ne (apart ends) _ _
      · rfl
    refine root_slots (d := s.fs_device) ⟨?_,fun l below busy => ?_,sane.root.once,fun c p there gone => ?_⟩ slots
    · obtain ⟨i,root,length⟩ := sane.root.root
      exact ⟨i,by rw [kept _ fun _ => (user other).2.symm]; exact root,length⟩
    · obtain ⟨there,rest⟩ := sane.root.named l below busy
      exact ⟨by rw [kept _ fun ends => (sane.root.removed _ n found ends.2).2.2 l below busy]; exact there,rest⟩
    · have now : s₂.inodes c = some p := there
      rw [inodes₂] at now
      by_cases here : c = u.inode
      · rw [if_pos here] at now
        split at now
        · cases now
        · cases now
          exact sane.root.removed _ n found gone
      · rw [if_neg here] at now
        exact sane.root.removed c p now gone
  · refine ⟨?_,map_file₂,done.outside,fun stays => ⟨(done.kept stays).1,(done.kept stays).2.1⟩,done.freed,
      fun b apart => ?_,fun one => ⟨?_,?_⟩,
      fun many => ?_⟩
    · show Function.update s₂.files f none = _
      rw [files₂,Function.update_idem]
    · show s₂.inodes b = _
      rw [inodes₂,if_neg apart]
    · show s₂.inodes u.inode = none
      rw [inodes₂,if_pos rfl,if_pos one]
    · have close : s₂.open_inodes = _ := congrArg Tables.open_inodes done.tables
      show s₂.open_inodes = _
      rw [close,Tables.close,if_pos one]
      rfl
    · refine ⟨{ n with deny_write_cnt := n.deny_write_cnt + false.toNat - u.deny_write.toNat, open_cnt := n.open_cnt - 1 },
        ?_,rfl,rfl,rfl,rfl⟩
      show s₂.inodes u.inode = _
      rw [inodes₂,if_pos rfl,if_neg many]
end

end Pintos.FileSystem
