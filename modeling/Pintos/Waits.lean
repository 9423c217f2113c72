import Pintos.Executions

/-!
What `process_wait` returns, in orderly runs where no child leaves while its parent
looks for it in `all_list`: the status that a child exited with, once, and -1 for
every other tid. Only a call about a child that has not been waited for blocks.
-/
namespace Pintos.Waits
open Pintos.Machines Pintos.Processes Pintos.Protocol Pintos.Calls Pintos.Executions
set_option linter.unusedSimpArgs false

variable {k k' m : Kernel} {t c d u : Tid} {pc pc' : Pc} {a : Activity} {event : Event}

/-! ### Steps in time -/

/-- The child that `process_wait` looks for in `all_list`. -/
def enquiring : Pc → Option Tid
  | .run (.wait_lookup c _) => some c
  | .run (.wait_parent c _) => some c
  | _ => none

/-- No child leaves while its creator looks for it. -/
def LeavesUnsought (k : Kernel) (t : Tid) : Prop :=
  (k.threads t).pc = .exit_schedule → enquiring (k.threads (k.threads t).creator).pc ≠ some t

def Timely (k : Kernel) : Event → Prop
  | .run t => OrderlyRun k t ∧ LeavesUnsought k t
  | event => Orderly k event

theorem timely_orderly (timely : Timely k event) : Orderly k event := by
  cases event with
  | run t => exact timely.1
  | _ => exact timely

instance (k : Kernel) (t : Tid) : Decidable (LeavesUnsought k t) :=
  inferInstanceAs (Decidable
    ((k.threads t).pc = .exit_schedule → enquiring (k.threads (k.threads t).creator).pc ≠ some t))
instance (k : Kernel) : ∀ event, Decidable (Timely k event)
  | .run t => inferInstanceAs (Decidable (Orderly k (.run t) ∧ LeavesUnsought k t))
  | .process_execute t p => inferInstanceAs (Decidable (Orderly k (.process_execute t p)))
  | .process_execute_fails t => inferInstanceAs (Decidable (Orderly k (.process_execute_fails t)))
  | .load t success => inferInstanceAs (Decidable (Orderly k (.load t success)))
  | .process_wait t c => inferInstanceAs (Decidable (Orderly k (.process_wait t c)))
  | .syscall_exit t status => inferInstanceAs (Decidable (Orderly k (.syscall_exit t status)))
  | .reuse p n => inferInstanceAs (Decidable (Orderly k (.reuse p n)))

/-! ### The children of a process -/

/-- A process that has not begun to exit. -/
def tending : Pc → Bool
  | .load => true
  | .loaded => true
  | .run _ => true
  | _ => false

/-- The child that `process_wait` has taken off the list and not returned yet. -/
def takes : Pc → Option Tid
  | .run (.collect_free .wait c _) => some c
  | _ => none
/-- The value of `waiting_child`. -/
def awaits : Pc → Tid
  | .run (.wait_down c _ _ _) => c
  | _ => 0

/-- The walk that looks for a child of the caller has not passed it. -/
def Sought (k : Kernel) (t : Tid) : Pc → Prop
  | .run (.wait_lookup c e) => c ∈ (k.threads t).child_thread_list → c ∈ k.all_list ∧ Ahead k.all_list c e
  | .run (.wait_parent c _) => c ∈ (k.threads t).child_thread_list → c ∈ k.all_list
  | _ => True

/-- The children that a process has not waited for are those on its list, but for the
    one that its call is about. -/
structure Tended (k : Kernel) (t : Tid) : Prop where
  once : (k.threads t).children.Nodup
  given : ∀ d, d ∈ (k.threads t).children ↔
    d ∈ (k.threads t).child_thread_list ∧ call (k.threads t).pc ≠ some (.execute,d) ∨ takes (k.threads t).pc = some d
  waits : (k.threads t).waiting_child = awaits (k.threads t).pc
  sought : Sought k t (k.threads t).pc

theorem tending_wake (pc : Pc) : tending (wake pc) = tending pc := by
  cases pc with
  | run a => cases a <;> rfl
  | _ => rfl
theorem call_wake (pc : Pc) : call (wake pc) = call pc := by
  cases pc with
  | run a => cases a <;> rfl
  | _ => rfl
theorem takes_wake (pc : Pc) : takes (wake pc) = takes pc := by
  cases pc with
  | run a => cases a <;> rfl
  | _ => rfl
theorem awaits_wake (pc : Pc) : awaits (wake pc) = awaits pc := by
  cases pc with
  | run a => cases a <;> rfl
  | _ => rfl
theorem sought_wake (k : Kernel) (t : Tid) (pc : Pc) : Sought k t (wake pc) = Sought k t pc := by
  cases pc with
  | run a => cases a <;> rfl
  | _ => rfl

/-! ### Steps of others -/

theorem sought_lists (inv : Inv k) (timely : Timely k event) (sought : Sought k t (k.threads t).pc)
    (list : (k'.threads t).child_thread_list = (k.threads t).child_thread_list)
    (step : Processes.step k event = some k') : Sought k' t (k.threads t).pc := by
  have lists := step_all_list step
  generalize here : (k.threads t).pc = pc at sought
  -- a child that is looked for neither is new nor leaves
  have kept : ∀ c, enquiring pc = some c → c ∈ (k.threads t).child_thread_list → c ∈ k.all_list → c ∈ k'.all_list := by
    intro c seeks listed live
    rcases lists with same | ⟨-,more⟩ | ⟨u,rfl,leaves,fewer⟩
    · rw [same]
      exact live
    · rw [more]
      exact List.mem_append_left _ live
    · rw [fewer]
      refine (List.mem_erase_of_ne ?_).mpr live
      rintro rfl
      have unsought := timely.2 leaves
      rw [(inv.sound.listed t c listed).1,here] at unsought
      exact unsought seeks
  cases pc with
  | run a =>
    cases a with
    | wait_lookup c e =>
      simp only [Sought,list] at sought ⊢
      intro listed
      obtain ⟨live,ahead⟩ := sought listed
      refine ⟨kept c rfl listed live,?_⟩
      rcases lists with same | ⟨-,more⟩ | ⟨u,rfl,leaves,fewer⟩
      · rw [same]
        exact ahead
      · rw [more]
        exact ahead_append ahead (live_ne_next_tid inv.sound live).symm
      · rw [fewer]
        refine ahead_erase ahead ?_
        rintro rfl
        refine (timely.1.2.2.2.2.2.2.1 leaves).1 t (live_of_pc inv.sound here (by simp)) ?_
        rw [here]
        rfl
    | wait_parent c child =>
      simp only [Sought,list] at sought ⊢
      exact fun listed => kept c rfl listed (sought listed)
    | _ => exact trivial
  | _ => exact trivial

/-- The steps of others leave a process with its children. -/
theorem tended_beside (inv : Inv k) (timely : Timely k event) (tended : Tended k t) (beside : Beside k k' event t)
    (step : Processes.step k event = some k') : Tended k' t := by
  have sought := sought_lists inv timely tended.sought beside.child_thread_list step
  obtain ⟨list,children,waiting,-,pc⟩ := beside
  rcases pc with same | ⟨woken,-⟩
  · refine ⟨?_,?_,?_,?_⟩
    · rw [children]
      exact tended.once
    · rw [children,list,same]
      exact tended.given
    · rw [waiting,same]
      exact tended.waits
    · rw [same]
      exact sought
  · refine ⟨?_,?_,?_,?_⟩
    · rw [children]
      exact tended.once
    · rw [children,list,woken,call_wake,takes_wake]
      exact tended.given
    · rw [waiting,woken,awaits_wake]
      exact tended.waits
    · rw [woken,sought_wake]
      exact sought

/-! ### Steps of the caller -/

/-- A thread that moves within a call keeps its children. -/
theorem tended_moves {w : Semaphore} (tended : Tended k t) (here : (k.threads t).pc = pc)
    (same : k'.threads t = { k.threads t with pc := pc', waiting_sema := w })
    (calls : ∀ d, call pc' = some (.execute,d) ↔ call pc = some (.execute,d))
    (frees : takes pc' = takes pc) (stays : awaits pc' = awaits pc) (sought : Sought k' t pc') : Tended k' t := by
  refine ⟨?_,?_,?_,?_⟩
  · rw [same]
    exact tended.once
  · rw [same]
    simp only [ne_eq,calls,frees,← here]
    exact tended.given
  · rw [same]
    simp only [stays,← here]
    exact tended.waits
  · rw [same]
    exact sought

theorem semaQueue_thread (k : Kernel) (t u : Tid) (p : Page) : (semaQueue k t p).threads u =
    { k.threads u with waiting_sema := ((semaQueue k t p).threads u).waiting_sema } := by
  unfold semaQueue
  split
  · rw [setThread_threads]
    split
    · next self => rw [self]
    · rfl
  · rfl

theorem semaTake_thread (k : Kernel) (u : Tid) (p : Page) : (semaTake k p).threads u =
    { k.threads u with waiting_sema := ((semaTake k p).threads u).waiting_sema } := by
  unfold semaTake
  split
  · dsimp only
    rw [setThread_threads]
    split
    · next self => rw [self]
    · rfl
  · rfl

theorem queue_moves (k : Kernel) (t : Tid) (p : Page) (pc : Pc) : (setPc (semaQueue k t p) t pc).threads t =
    { k.threads t with pc := pc, waiting_sema := ((semaQueue k t p).threads t).waiting_sema } := by
  rw [setPc_self,semaQueue_thread]
theorem take_moves (k : Kernel) (t : Tid) (p : Page) (pc : Pc) : (setPc (semaTake k p) t pc).threads t =
    { k.threads t with pc := pc, waiting_sema := ((semaTake k p).threads t).waiting_sema } := by
  rw [setPc_self,semaTake_thread]
theorem adopt_moves (other : c ≠ t) (v : Thread) (pc : Pc) : (setPc (setThread k c v) t pc).threads t =
    { k.threads t with pc := pc } := by
  rw [setPc_self,setThread_other _ other.symm]

theorem up_moves (k : Kernel) (t : Tid) (pc : Pc) : (setPc (sema_up k t) t pc).threads t =
    { k.threads t with pc := pc, waiting_sema := ((sema_up k t).threads t).waiting_sema } := by
  rw [setPc_self]
  unfold sema_up
  dsimp only
  split
  · simp
  · next w rest _ =>
    by_cases self : t = w
    · subst self
      simp
    · simp [setPc_other self]

/-- `process_wait` that returns: the child is not a child any more. -/
theorem tended_returns (tended : Tended k t) (here : (k.threads t).pc = .run a) (unlisted : c ∉ (k.threads t).child_thread_list)
    (called : ∀ d, call (.run a) ≠ some (.execute,d)) (others : ∀ d, takes (.run a) = some d → d = c)
    (same : k'.threads t = { k.threads t with pc := .run .user, children := (k.threads t).children.erase c })
    (idle : awaits (.run a) = 0) : Tended k' t := by
  have given := tended.given
  have waits := tended.waits
  rw [here] at given waits
  refine ⟨?_,?_,?_,?_⟩
  · rw [same]
    exact tended.once.erase c
  · intro d
    rw [same]
    simp only [tended.once.mem_erase_iff,given]
    constructor
    · rintro ⟨differ,⟨listed,-⟩ | taken⟩
      · exact .inl ⟨listed,by simp [call]⟩
      · exact absurd (others d taken) differ
    · rintro (⟨listed,-⟩ | taken)
      · refine ⟨?_,.inl ⟨listed,called d⟩⟩
        rintro rfl
        exact unlisted listed
      · cases taken
  · rw [same]
    exact waits.trans idle
  · rw [same]
    exact trivial

theorem missed_unlisted (tended : Tended k t) (here : (k.threads t).pc = .run (.wait_lookup c .stop)) :
    c ∉ (k.threads t).child_thread_list := by
  intro listed
  have sought := tended.sought
  rw [here] at sought
  obtain ⟨live,passed⟩ := sought listed
  exact passed live

theorem stranger_unlisted (inv : Inv k) (tended : Tended k t) {child : Page}
    (here : (k.threads t).pc = .run (.wait_parent c child))
    (stranger : c ∈ k.all_list → (k.threads c).parent_thread ≠ .page (k.threads t).page) :
    c ∉ (k.threads t).child_thread_list := by
  intro listed
  have sought := tended.sought
  rw [here] at sought
  have live : c ∈ k.all_list := sought listed
  obtain ⟨mine,-,given⟩ := given_of_listed inv here (by simp [subject]) listed
  refine stranger live ?_
  have parent : (k.threads c).parent_thread = .page (k.threads (k.threads c).creator).page := given.parent live
  rw [parent,mine]

/-- `process_execute` that returns a child. -/
theorem tended_given (tended : Tended k t) (here : (k.threads t).pc = .run (.execute_check c))
    (listed : c ∈ (k.threads t).child_thread_list)
    (same : k'.threads t = { k.threads t with pc := .run .user, children := (k.threads t).children ++ [c] }) :
    Tended k' t := by
  have given := tended.given
  rw [here] at given
  simp only [call,takes] at given
  have fresh : c ∉ (k.threads t).children := by
    rw [given]
    simp
  refine ⟨?_,?_,?_,?_⟩
  · rw [same]
    refine List.nodup_append.mpr ⟨tended.once,List.nodup_singleton c,?_⟩
    rintro d member e last rfl
    rw [List.mem_singleton.mp last] at member
    exact fresh member
  · intro d
    rw [same]
    simp only [List.mem_append,List.mem_singleton,given,call,takes]
    constructor
    · rintro ((⟨member,-⟩ | taken) | rfl)
      · exact .inl ⟨member,by simp⟩
      · cases taken
      · exact .inl ⟨listed,by simp⟩
    · rintro (⟨member,-⟩ | taken)
      · by_cases self : d = c
        · exact .inr self
        · refine .inl (.inl ⟨member,?_⟩)
          rintro called
          cases called
          exact self rfl
      · cases taken
  · rw [same]
    exact tended.waits.trans (by rw [here]; rfl)
  · rw [same]
    exact trivial

/-- `process_execute` that returns -1. -/
theorem tended_refused {ret : Int} (tended : Tended k t) (here : (k.threads t).pc = .run (.collect_free .execute c ret))
    (unlisted : c ∉ (k.threads t).child_thread_list) (same : k'.threads t = { k.threads t with pc := .run .user }) :
    Tended k' t := by
  have given := tended.given
  rw [here] at given
  refine ⟨?_,?_,?_,?_⟩
  · rw [same]
    exact tended.once
  · intro d
    rw [same]
    simp only [given,call,takes]
    constructor
    · rintro (⟨listed,-⟩ | taken)
      · exact .inl ⟨listed,by simp⟩
      · cases taken
    · rintro (⟨listed,-⟩ | taken)
      · refine .inl ⟨listed,?_⟩
        rintro called
        cases called
        exact unlisted listed
      · cases taken
  · rw [same]
    exact tended.waits.trans (by rw [here]; rfl)
  · rw [same]
    exact trivial

/-- A record is taken off the list. -/
theorem tended_removes {f : Call} {ret : Int} (inv : Inv k) (tended : Tended k t)
    (here : (k.threads t).pc = .run (.collect_remove f c ret)) (listed : c ∈ (k.threads t).child_thread_list)
    (same : k'.threads t = { k.threads t with
      pc := .run (.collect_free f c ret), child_thread_list := (k.threads t).child_thread_list.erase c }) : Tended k' t := by
  have given := tended.given
  rw [here] at given
  refine ⟨?_,?_,?_,?_⟩
  · rw [same]
    exact tended.once
  · intro d
    rw [same]
    simp only [given,(inv.sound.distinct t).mem_erase_iff]
    cases f with
    | execute =>
      simp only [call,takes]
      constructor
      · rintro (⟨member,differ⟩ | taken)
        · refine .inl ⟨⟨?_,member⟩,differ⟩
          rintro rfl
          exact differ rfl
        · cases taken
      · rintro (⟨⟨-,member⟩,differ⟩ | taken)
        · exact .inl ⟨member,differ⟩
        · cases taken
    | wait =>
      simp only [call,takes]
      constructor
      · rintro (⟨member,-⟩ | taken)
        · by_cases self : c = d
          · exact .inr (by rw [self])
          · exact .inl ⟨⟨Ne.symm self,member⟩,by simp⟩
        · cases taken
      · rintro (⟨⟨-,member⟩,-⟩ | taken)
        · exact .inl ⟨member,by simp⟩
        · cases taken
          exact .inl ⟨listed,by simp⟩
  · rw [same]
    exact tended.waits.trans (by rw [here]; rfl)
  · rw [same]
    exact trivial

theorem tended_goes (inv : Inv k) (tended : Tended k t) (here : (k.threads t).pc = .run a) (goes : Goes k t a k') :
    Tended k' t := by
  have given := tended.given
  rw [here] at given
  cases goes with
  | execute_walk go => exact tended_moves tended here (setPc_self ..) (fun _ => .rfl) rfl rfl trivial
  | execute_met => exact tended_moves tended here (setPc_self ..) (fun _ => .rfl) rfl rfl trivial
  | execute_record v => exact tended_moves tended here (setPc_self ..) (fun _ => .rfl) rfl rfl trivial
  | execute_adopt other parent => exact tended_moves tended here (adopt_moves other ..) (fun _ => .rfl) rfl rfl trivial
  | execute_push =>
    refine ⟨?_,?_,?_,?_⟩
    · rw [setThread_self]
      exact tended.once
    · intro d
      rw [setThread_self]
      simp only [given,call,takes,List.mem_append,List.mem_singleton]
      constructor
      · rintro (⟨listed,differ⟩ | taken)
        · exact .inl ⟨.inl listed,differ⟩
        · cases taken
      · rintro (⟨listed | rfl,differ⟩ | taken)
        · exact .inl ⟨listed,differ⟩
        · exact absurd rfl differ
        · cases taken
    · rw [setThread_self]
      exact tended.waits.trans (by rw [here]; rfl)
    · rw [setThread_self]
      exact trivial
  | sema_walk go => exact tended_moves tended here (setPc_self ..) (fun _ => .rfl) rfl rfl trivial
  | sema_met => exact tended_moves tended here (setPc_self ..) (fun _ => .rfl) rfl rfl trivial
  | execute_queue starts => exact tended_moves tended here (queue_moves ..) (fun _ => .rfl) rfl rfl trivial
  | execute_take => exact tended_moves tended here (take_moves ..) (fun _ => .rfl) rfl rfl trivial
  | execute_refuses => exact tended_moves tended here (setPc_self ..) (fun _ => .rfl) rfl rfl trivial
  | execute_gives loaded listed => exact tended_given tended here listed (by simp [execute_returns])
  | find_walk go => exact tended_moves tended here (setPc_self ..) (fun _ => .rfl) rfl rfl trivial
  | find_met listed => exact tended_moves tended here (setPc_self ..) (fun _ => .rfl) rfl rfl trivial
  | find_missed unlisted =>
    refine tended_moves tended here (setPc_self ..) (fun _ => .rfl) rfl rfl ?_
    intro listed
    rw [setPc_list] at listed
    exact absurd listed unlisted
  | check_dying listed => exact tended_moves tended here (setPc_self ..) (fun _ => .rfl) rfl rfl trivial
  | check_alive live => exact tended_moves tended here (setPc_self ..) (fun _ => .rfl) rfl rfl fun _ => ⟨live,trivial⟩
  | lookup_walk go =>
    refine tended_moves tended here (setPc_self ..) (fun _ => .rfl) rfl rfl ?_
    intro listed
    rw [setPc_list] at listed
    have sought := tended.sought
    rw [here] at sought
    obtain ⟨live,ahead⟩ := sought listed
    rcases survey inv live ahead with ⟨e,on,further⟩ | found
    · rw [go] at on
      cases on
      exact ⟨live,further⟩
    · rw [go] at found
      cases found
  | lookup_met live => exact tended_moves tended here (setPc_self ..) (fun _ => .rfl) rfl rfl fun _ => live
  | lookup_missed =>
    exact tended_returns tended here (missed_unlisted tended here) (by simp [call]) (by simp [takes]) (setThread_self ..) rfl
  | parent_mine listed => exact tended_moves tended here (setPc_self ..) (fun _ => .rfl) rfl rfl trivial
  | parent_other stranger =>
    exact tended_returns tended here (stranger_unlisted inv tended here stranger) (by simp [call]) (by simp [takes])
      (setThread_self ..) rfl
  | record_walk go => exact tended_moves tended here (setPc_self ..) (fun _ => .rfl) rfl rfl trivial
  | record_met =>
    refine ⟨?_,?_,?_,?_⟩
    · simpa using tended.once
    · intro d
      simp only [setPc_self,setThread_self,given,call,takes]
    · simp [awaits]
    · simp [Sought]
  | wait_queue live => exact tended_moves tended here (queue_moves ..) (fun _ => .rfl) rfl rfl trivial
  | wait_take left =>
    have same := semaTake_thread k t
    refine ⟨?_,?_,?_,?_⟩
    · simp only [setPc_self,setThread_self]
      rw [same]
      exact tended.once
    · intro d
      simp only [setPc_self,setThread_self]
      rw [same]
      simp only [given,call,takes]
    · simp [awaits]
    · simp [Sought]
  | collect_status ret => exact tended_moves tended here (setPc_self ..) (fun _ => .rfl) rfl rfl trivial
  | collect_remove listed => exact tended_removes inv tended here listed (by simp [list_remove])
  | collect_refused lost unlisted => exact tended_refused tended here unlisted (by simp [execute_returns,free])
  | collect_waited exited unlisted =>
    exact tended_returns tended here unlisted (by simp [call]) (by simp [takes,eq_comm]) (setThread_self ..) rfl

/-! ### Every step -/

theorem tended_new {p : Page} (other : u ≠ k.next_tid) : Tended (process_execute k u p) k.next_tid := by
  have new : (process_execute k u p).threads k.next_tid = newThread u p := by
    simp [process_execute,setPc,setThread,Ne.symm other]
  refine ⟨?_,?_,?_,?_⟩
  · rw [new]
    exact List.nodup_nil
  · intro d
    rw [new]
    simp [newThread,takes]
  · rw [new]
    rfl
  · rw [new]
    exact trivial

/-- What a process has not waited for, in every thread that has not begun to exit. -/
def Families (k : Kernel) : Prop := ∀ t, tending (k.threads t).pc = true → Tended k t

theorem tended_execute (inv : Inv k) {p : Page} (tended : Tended k t) (here : (k.threads t).pc = .run .user) :
    Tended (process_execute k t p) t := by
  have given := tended.given
  rw [here] at given
  have known : t ≠ k.next_tid := live_ne_next_tid inv.sound (live_of_pc inv.sound here (by simp))
  have same : (process_execute k t p).threads t =
      { k.threads t with pc := .run (.execute_lookup k.next_tid .begin) } := by
    simp [process_execute,setPc,setThread,known]
  refine ⟨?_,?_,?_,?_⟩
  · rw [same]
    exact tended.once
  · intro d
    rw [same]
    simp only [given,call,takes]
    constructor
    · rintro (⟨listed,-⟩ | taken)
      · refine .inl ⟨listed,?_⟩
        rintro new
        cases new
        obtain ⟨mine,nonzero⟩ := inv.sound.listed t _ listed
        exact ne_next_tid inv.sound (mine ▸ nonzero) rfl
      · cases taken
    · rintro (⟨listed,-⟩ | taken)
      · exact .inl ⟨listed,by simp⟩
      · cases taken
  · rw [same]
    exact tended.waits.trans (by rw [here]; rfl)
  · rw [same]
    exact trivial

theorem tending_stage (pc : Pc) : tending pc = true ↔ stage pc = .loading ∨ stage pc = .loaded ∨ stage pc = .running := by
  cases pc with
  | mark s => cases s <;> simp [tending,stage]
  | mark_find s p e => cases s <;> simp [tending,stage]
  | mark_status s => cases s <;> simp [tending,stage]
  | mark_exit_status s => cases s <;> simp [tending,stage]
  | _ => simp [tending,stage]

theorem tended_run (inv : Inv k) (orderly : OrderlyRun k t) (families : Families k) (here : (k.threads t).pc = pc)
    (step : pcStep k t pc = some k') (tends : tending (k'.threads t).pc = true) : Tended k' t := by
  by_cases running : ∃ a, pc = .run a
  · obtain ⟨a,rfl⟩ := running
    by_cases user : a = .user
    · subst user
      cases step
    · obtain ⟨f,c,called⟩ := call_run user
      exact tended_goes inv (families t (by rw [here]; rfl)) here (goes_of_step inv here orderly.2.2.1 called step)
  · have outside : ∀ a, pc ≠ .run a := fun a same => running ⟨a,same⟩
    rw [tending_stage] at tends
    rcases stage_pcStep here outside step with rfl | same | exiting | gone
    · cases step
      exact tended_moves (families t (by rw [here]; rfl)) here (up_moves ..) (by simp [call]) rfl rfl trivial
    · rw [same,← tending_stage] at tends
      cases pc with
      | load => cases step
      | loaded =>
        cases step
        simp [stage] at same
      | run a => exact absurd rfl (outside a)
      | _ => cases tends
    · rw [exiting] at tends
      simp at tends
    · rw [gone] at tends
      simp at tends

theorem zero_unlisted (inv : Inv k) : 0 ∉ (k.threads t).child_thread_list := by
  intro listed
  obtain ⟨mine,nonzero⟩ := inv.sound.listed t 0 listed
  obtain ⟨positive,below,-⟩ := inv.sound.creators 0 (mine ▸ nonzero)
  exact Int.lt_irrefl 0 (Int.lt_trans positive below)

theorem tended_wait (inv : Inv k) (tended : Tended k t) (here : (k.threads t).pc = .run .user) :
    Tended (process_wait k t c) t := by
  unfold process_wait
  split
  · next waiting =>
    -- only 0 passes for a child that is waited for already
    have zero : c = 0 := by
      rw [← waiting,tended.waits,here]
      rfl
    subst zero
    exact tended_returns tended here (zero_unlisted inv) (by simp [call]) (by simp [takes]) (setThread_self ..) rfl
  · exact tended_moves tended here (setPc_self ..) (by simp [call]) rfl rfl trivial

theorem tended_load {success : Bool} (tended : Tended k t) (here : (k.threads t).pc = .load)
    (same : k'.threads t = { k.threads t with load := some success, pc := .loaded }) : Tended k' t := by
  obtain ⟨once,given,waits,-⟩ := tended
  rw [here] at given waits
  refine ⟨?_,?_,?_,?_⟩
  · rw [same]
    exact once
  · rw [same]
    exact given
  · rw [same]
    exact waits
  · rw [same]
    exact trivial

theorem families_step (inv : Inv k) (timely : Timely k event) (families : Families k)
    (step : Processes.step k event = some k') : Families k' := by
  intro t tends
  by_cases own : actor event = some t
  · cases (taken_of_step step).2 with
    | process_execute here vacant =>
      cases own
      exact tended_execute inv (families t (by rw [here]; rfl)) here
    | process_execute_fails here => exact families t tends
    | @load _ success here =>
      cases own
      cases success with
      | false => simp [tending] at tends
      | true => exact tended_load (families t (by rw [here]; rfl)) here (setThread_self ..)
    | process_wait here =>
      cases own
      exact tended_wait inv (families t (by rw [here]; rfl)) here
    | syscall_exit here created =>
      cases own
      simp [syscall_exit,tending] at tends
    | run taken =>
      cases own
      exact tended_run inv timely.1 families rfl taken tends
    | reuse vacant => cases own
  · by_cases new : t = k.next_tid ∧ ∃ u p, event = .process_execute u p
    · obtain ⟨rfl,u,p,rfl⟩ := new
      cases (taken_of_step step).2 with
      | process_execute here vacant =>
      exact tended_new (live_ne_next_tid inv.sound (live_of_pc inv.sound here (by simp)))
    · have beside := step_beside own (fun u p same known => new ⟨known,u,p,same⟩) step
      refine tended_beside inv timely (families t ?_) beside step
      rcases beside.pc with same | ⟨woken,-⟩
      · rwa [same] at tends
      · rwa [woken,tending_wake] at tends

/-! ### Results -/

/-- The status of a child that was not waited for, and -1 for every other tid. -/
def Collects (x : Waited) : Prop := (x.direct = true → x.exited = some x.ret) ∧ (x.direct = false → x.ret = -1)

theorem collects_other (unlisted : c ∉ (k.threads t).children) : Collects (waited k t c (-1)) := by
  refine ⟨?_,fun _ => rfl⟩
  intro direct
  exact absurd (of_decide_eq_true direct) unlisted

/-- A process in `process_wait` has not waited for what it has on its list. -/
theorem children_listed (tended : Tended k t) (here : (k.threads t).pc = .run a)
    (called : ∀ d, call (.run a) ≠ some (.execute,d)) (idle : takes (.run a) = none) :
    c ∈ (k.threads t).children ↔ c ∈ (k.threads t).child_thread_list := by
  rw [tended.given,here,idle]
  constructor
  · rintro (⟨listed,-⟩ | taken)
    · exact listed
    · cases taken
  · exact fun listed => .inl ⟨listed,called c⟩

theorem waits_goes (inv : Inv k) (tended : Tended k t) (here : (k.threads t).pc = .run a) (goes : Goes k t a k') :
    k'.waits = k.waits ∨ ∃ x, k'.waits = k.waits ++ [x] ∧ Collects x := by
  cases goes with
  | lookup_missed =>
    refine .inr ⟨_,rfl,collects_other ?_⟩
    rw [children_listed tended here (by simp [call]) rfl]
    exact missed_unlisted tended here
  | parent_other stranger =>
    refine .inr ⟨_,rfl,collects_other ?_⟩
    rw [children_listed tended here (by simp [call]) rfl]
    exact stranger_unlisted inv tended here stranger
  | @collect_waited c ret exited unlisted =>
    refine .inr ⟨_,rfl,fun _ => exited,?_⟩
    intro other
    have direct : c ∈ (k.threads t).children := by
      rw [tended.given,here]
      exact .inr rfl
    exact absurd direct (of_decide_eq_false other)
  | execute_queue starts => exact .inl (sameLogs_queue k t _).waits
  | execute_take => exact .inl (sameLogs_take k _).waits
  | wait_queue live => exact .inl (sameLogs_queue k t _).waits
  | wait_take left => exact .inl (sameLogs_take k _).waits
  | _ => exact .inl rfl

theorem waits_step (inv : Inv k) (families : Families k) (orderly : Orderly k event)
    (step : Processes.step k event = some k') :
    k'.waits = k.waits ∨ ∃ x, k'.waits = k.waits ++ [x] ∧ Collects x := by
  rcases step_logs inv orderly step with same | ⟨t,a,here,goes⟩ | ⟨t,here,rfl⟩
  · exact .inl same.waits
  · exact waits_goes inv (families t (by rw [here]; rfl)) here goes
  · have tended := families t (by rw [here]; rfl)
    refine .inr ⟨_,rfl,collects_other ?_⟩
    rw [tended.waits,here,children_listed tended here (by simp [call]) rfl]
    exact zero_unlisted inv

/-! ### Progress -/

theorem wait_queued (called : call pc = some (.wait,c)) (queued : blocked pc = true) :
    ∃ p found, pc = .run (.wait_down c p found true) := by
  cases pc with
  | run a =>
    cases a with
    | wait_down d p found b =>
      cases called
      obtain rfl : b = true := queued
      exact ⟨p,found,rfl⟩
    | execute_down d p b => cases called
    | _ => cases queued
  | _ => cases called

/-- A call of `process_wait` that is queued waits for a child that is still there. -/
theorem wait_blocked (inv : Inv k) (tended : Tended k t) {p : Page} {found : Bool}
    (here : (k.threads t).pc = .run (.wait_down c p found true)) : c ∈ (k.threads t).children ∧ c ∈ k.all_list := by
  obtain ⟨mine,pair⟩ := pair_at inv here rfl
  have given : Given (view k c) := pair.joint
  refine ⟨?_,pair.signals.awake rfl⟩
  rw [children_listed tended here (by simp [call]) rfl]
  exact listed_mine mine given.listed

/-- The thread that wakes it leaves. -/
theorem wait_woken (inv : Inv k) {p : Page} {found : Bool} (here : (k.threads t).pc = .run (.wait_down c p found true))
    (signal : signals (k.threads u).pc = true) (waits : (k.threads u).waiting_sema.waiters.head? = some t) :
    u = c ∧ (k.threads c).pc = .exit_schedule := by
  obtain ⟨live,created⟩ := signals_live inv signal
  obtain ⟨-,queued⟩ := waiter_blocked inv live created waits
  have self : u = c := by
    by_contra differ
    rw [here,role_other (by simp [subject,Ne.symm differ])] at queued
    cases queued
  subst self
  refine ⟨rfl,?_⟩
  obtain ⟨-,pair⟩ := pair_at inv here rfl
  have started : starting (k.threads u).pc = false := Given.started pair.joint
  generalize (k.threads u).pc = pc at signal started
  cases pc with
  | exit_schedule => rfl
  | loaded => cases started
  | failed_up => cases started
  | _ => cases signal

theorem leaves_all_list (leaves : (k.threads u).pc = .exit_schedule) (step : Processes.step k (.run u) = some k') :
    k'.all_list = k.all_list.erase u := by
  cases (taken_of_step step).2 with
  | run taken =>
  rw [leaves] at taken
  cases taken
  rfl

/-- The threads that a step adds to `all_list`. -/
def grows : Event → Nat
  | .process_execute _ _ => 1
  | _ => 0

theorem length_lists (step : Processes.step k event = some k') : k'.all_list.length ≤ k.all_list.length + grows event := by
  rcases step_all_list step with same | ⟨⟨u,p,rfl⟩,more⟩ | ⟨u,rfl,-,fewer⟩
  · rw [same]
    exact Nat.le_add_right _ _
  · rw [more]
    simp [grows]
  · rw [fewer]
    exact List.length_erase_le

theorem turns_lists (inv : Inv k) (orderly : Orderly k event) {e : Cursor}
    (here : (k.threads t).pc = .run (.wait_lookup c e)) (step : Processes.step k event = some k') :
    turns List.length k'.all_list e ≤ turns List.length k.all_list e + grows event := by
  have standing := (local_at inv here).1
  rcases step_all_list step with same | ⟨⟨u,p,rfl⟩,more⟩ | ⟨u,rfl,leaves,fewer⟩
  · rw [same]
    exact Nat.le_add_right _ _
  · rw [more]
    exact length_append _ inv.sound.once standing
  · rw [fewer]
    refine turns_erase inv.sound.once standing ?_ (fun l => List.length_erase_le)
    rintro rfl
    refine (orderly.2.2.2.2.2.2.1 leaves).1 t (live_of_pc inv.sound here (by simp)) ?_
    rw [here]
    rfl

/-- A child that has left does not come back. -/
theorem left_lists_down (inv : Inv k) (created : (k.threads c).creator ≠ 0) (step : Processes.step k event = some k')
    (live : c ∈ k'.all_list) : c ∈ k.all_list := by
  rcases step_all_list step with same | ⟨-,more⟩ | ⟨u,-,-,fewer⟩
  · rwa [same] at live
  · rw [more] at live
    rcases List.mem_append.mp live with before | new
    · exact before
    · exact absurd (List.mem_singleton.mp new) (ne_next_tid inv.sound created)
  · rw [fewer] at live
    exact List.mem_of_mem_erase live

/-- The steps of other threads do not take a call of `process_wait` back, but for new
    threads that it has to walk past. -/
theorem wait_other (inv : Inv k) (orderly : Orderly k event) (called : call (k.threads t).pc = some (.wait,c))
    (other : actor event ≠ some t) (step : Processes.step k event = some k') :
    call (k'.threads t).pc = some (.wait,c) ∧ left k' t ≤ left k t + grows event := by
  obtain ⟨a,here⟩ := call_pc called
  have present : t ∈ k.all_list := live_of_pc inv.sound here (by simp)
  have beside := step_beside other (fun _ _ _ => live_ne_next_tid inv.sound present) step
  rcases beside.pc with same | ⟨woken,u,rfl,signal,waits⟩
  · rw [same]
    refine ⟨called,?_⟩
    have longer := length_lists step
    unfold left
    rw [same,here,beside.child_thread_list]
    rw [here] at called
    cases a with
    | wait_find d e => simp only; omega
    | wait_check d => simp only; omega
    | wait_lookup d e =>
      have further := turns_lists inv orderly here step
      simp only
      omega
    | wait_parent d child => simp only; omega
    | wait_record d child e => simp only; omega
    | wait_down d child found b =>
      cases b with
      | true => simp only; omega
      | false =>
        obtain ⟨mine,nonzero⟩ := inv.sound.owns t d _ (by rw [here]; rfl)
        simp only
        split
        · next live =>
          rw [if_pos (left_lists_down inv (mine ▸ nonzero) step live)]
          omega
        · split <;> omega
    | collect_status f d => simp only; omega
    | collect_remove f d ret => simp only; omega
    | collect_free f d ret => simp only; omega
    | _ => cases called
  · obtain ⟨live,created⟩ := signals_live inv signal
    obtain ⟨queued,-⟩ := role_queued (waiter_blocked inv live created waits).2
    obtain ⟨p,found,down⟩ := wait_queued called queued
    obtain ⟨rfl,leaves⟩ := wait_woken inv down signal waits
    rw [down] at woken
    have up : (k'.threads t).pc = .run (.wait_down u p found false) := woken
    refine ⟨by rw [up]; rfl,?_⟩
    have gone : u ∉ k'.all_list := by
      rw [leaves_all_list leaves step]
      exact inv.sound.once.not_mem_erase
    simp [left,up,down,gone,grows]

/-! ### Every run in time -/

theorem families_boot : Families boot := by
  intro t tends
  refine ⟨List.nodup_nil,?_,?_,?_⟩
  · simp only [boot] at tends ⊢
    split
    · simp [newThread,takes]
    · split <;> simp [newThread,takes]
  · simp only [boot]
    split
    · rfl
    · split <;> rfl
  · simp only [boot]
    split
    · exact trivial
    · split <;> exact trivial

theorem reaches_collects (reached : Reaches machine Timely k) : Inv k ∧ Families k ∧ ∀ x ∈ k.waits, Collects x := by
  refine reaches_invariant (fun k => Inv k ∧ Families k ∧ ∀ x ∈ k.waits, Collects x) ?_ ?_ reached
  · rintro s rfl
    refine ⟨inv_boot,families_boot,?_⟩
    intro x logged
    cases logged
  · rintro s event s' ⟨inv,families,collects⟩ timely step
    refine ⟨inv_step inv (timely_orderly timely) step,families_step inv timely families step,?_⟩
    rcases waits_step inv families (timely_orderly timely) step with same | ⟨y,more,answers⟩
    · rw [same]
      exact collects
    · intro x logged
      rw [more] at logged
      rcases List.mem_append.mp logged with old | new
      · exact collects x old
      · rw [List.mem_singleton.mp new]
        exact answers

/-- The initial thread waits twice for a child that exits meanwhile. -/
def waitsTwice : List Event :=
  executes ++ List.replicate 2 (.run 1) ++ .process_wait 1 3 :: List.replicate 11 (.run 1) ++
    .syscall_exit 3 7 :: List.replicate 8 (.run 3) ++ List.replicate 4 (.run 1) ++
    .process_wait 1 3 :: List.replicate 6 (.run 1)

/-- The child has marked its record but not left when the second call is made. -/
def waitsAgain : List Event :=
  executes ++ List.replicate 2 (.run 1) ++ .syscall_exit 3 7 :: List.replicate 6 (.run 3) ++
    .process_wait 1 3 :: List.replicate 6 (.run 1) ++ .process_wait 1 3 :: List.replicate 10 (.run 1)

end Pintos.Waits
