import Pintos.SynchSteps
import Mathlib.Data.List.Nodup

/-!
What justifies a donated priority. A release that finds another priority than
its own at the front of the waiters leaves the lock in `lock_list`, although the
thread no longer holds it, and leaves the priority as it is. `LiveDonors` says
when that is harmless.
-/
namespace Pintos.Justification
open Pintos.Lists Pintos.Machines Pintos.Synch
set_option linter.unusedSimpArgs false
variable {k k' d : Kernel} {t u w ct : Tid} {l m : LockId} {e : Event} {stray : Int} {W : Tid → LockId → Prop}

/-- A thread in `lock_acquire`, whether in the waiters or just taken out. -/
def WaitsFor (k : Kernel) (w : Tid) (l : LockId) : Prop := (k.threads w).lock_waiting_for = some l

/-- No thread runs above its base priority but for a thread that waits for one of
    its locks, and the base priority is what `orig_priority` holds. -/
structure Justified (k : Kernel) : Prop where
  bound : ∀ t < k.count, k.priority t ≤ k.base t ∨
    ∃ l w, k.holder l = some t ∧ WaitsFor k w l ∧ k.priority t ≤ k.priority w
  unwaited : ∀ t < k.count, (∀ l w, k.holder l = some t → ¬ WaitsFor k w l) → k.priority t = k.base t
  orig : ∀ t < k.count, (k.threads t).orig_priority = k.base t

/-- The steps that `Justified` asks for. A thread takes no lock that is still in
    its own `lock_list`. A release that leaves the lock in `lock_list` leaves
    another lock there that justifies the priority, and one that computes a new
    priority from `lock_list` finds no waiters at locks the thread has released.
    Base priorities are not negative. -/
def LiveDonors (k : Kernel) : Event → Prop
  | .lock_acquire t l => k.holder l = none → l ∉ (k.threads t).lock_list
  | .resume t l => k.holder l = none → l ∉ (k.threads t).lock_list
  | .lock_release t l stray => (k.threads t).donation_nested_level ≠ 0 → l ∈ (k.threads t).lock_list →
      (frontPriority k l stray = k.priority t → (k.threads t).donation_nested_level ≠ 1 →
        ∀ m ∈ (k.threads t).lock_list, k.holder m ≠ some t → k.waiters m = []) ∧
      (frontPriority k l stray ≠ k.priority t →
        ∃ m ∈ (k.threads t).lock_list, m ≠ l ∧ k.holder m = some t ∧
          ∃ w < k.count, WaitsFor k w m ∧ k.priority t ≤ k.priority w)
  | .thread_set_priority _ p => PRI_MIN ≤ p
  | .thread_create _ | .lock_init _ => True

instance (k : Kernel) (w : Tid) (l : LockId) : Decidable (WaitsFor k w l) := inferInstanceAs (Decidable (_ = _))

instance (k : Kernel) : (e : Event) → Decidable (LiveDonors k e)
  | .lock_acquire t l | .resume t l => inferInstanceAs (Decidable (k.holder l = none → l ∉ (k.threads t).lock_list))
  | .lock_release t l stray => inferInstanceAs (Decidable ((k.threads t).donation_nested_level ≠ 0 →
      l ∈ (k.threads t).lock_list →
      (frontPriority k l stray = k.priority t → (k.threads t).donation_nested_level ≠ 1 →
        ∀ m ∈ (k.threads t).lock_list, k.holder m ≠ some t → k.waiters m = []) ∧
      (frontPriority k l stray ≠ k.priority t →
        ∃ m ∈ (k.threads t).lock_list, m ≠ l ∧ k.holder m = some t ∧
          ∃ w < k.count, WaitsFor k w m ∧ k.priority t ≤ k.priority w)))
  | .thread_set_priority _ p => inferInstanceAs (Decidable (PRI_MIN ≤ p))
  | .thread_create _ | .lock_init _ => .isTrue trivial

/-- The number of locks in the list of `t` that `t` holds. -/
def heldCount (k : Kernel) (t : Tid) : Nat := (k.threads t).lock_list.countP (fun l => k.holder l == some t)

/-- The invariant behind `Justified`, for any notion `W` of waiting: the level
    counts the listed locks that are held, and one of them justifies a donated
    priority. -/
structure Ledger (W : Tid → LockId → Prop) (k : Kernel) : Prop where
  once : ∀ t < k.count, (k.threads t).lock_list.Nodup
  level : ∀ t < k.count, (k.threads t).donation_nested_level = heldCount k t
  recorded : ∀ t < k.count, ∀ l ∈ (k.threads t).lock_list, k.holder l = some t → ∃ w < k.count, W w l
  plain : ∀ t < k.count, (k.threads t).donation_nested_level = 0 → k.priority t = k.base t
  donor : ∀ t < k.count, (k.threads t).donation_nested_level ≠ 0 →
    ∃ l ∈ (k.threads t).lock_list, k.holder l = some t ∧ ∃ w < k.count, W w l ∧ k.priority t ≤ k.priority w
  orig : ∀ t < k.count, (k.threads t).orig_priority = k.base t
  nonneg : ∀ t < k.count, 0 ≤ k.priority t ∧ 0 ≤ k.base t

theorem heldCount_pos (listed : l ∈ (k.threads t).lock_list) (holds : k.holder l = some t) : 0 < heldCount k t :=
  List.countP_pos_iff.mpr ⟨l,listed,by simp [holds]⟩

theorem ledger_justified (ledger : Ledger (WaitsFor k) k) : Justified k where
  bound t known := by
    by_cases zero : (k.threads t).donation_nested_level = 0
    · exact .inl (Int.le_of_eq (ledger.plain t known zero))
    · obtain ⟨l,_,holds,w,_,waits,below⟩ := ledger.donor t known zero
      exact .inr ⟨l,w,holds,waits,below⟩
  unwaited t known alone := by
    by_cases zero : (k.threads t).donation_nested_level = 0
    · exact ledger.plain t known zero
    · obtain ⟨l,_,holds,w,_,waits,_⟩ := ledger.donor t known zero
      exact absurd waits (alone l w holds)
  orig := ledger.orig

theorem ledger_boot : Ledger (WaitsFor boot) boot where
  once _ _ := .nil
  level _ _ := rfl
  recorded _ _ l member := by simp [boot,init_thread] at member
  plain _ _ _ := rfl
  donor _ _ some := absurd rfl some
  orig _ _ := rfl
  nonneg _ _ := by simp [boot,Kernel.priority,init_thread,PRI_DEFAULT]

/-- A waiting thread may be known under a larger notion of waiting. -/
theorem ledger_mono {W V : Tid → LockId → Prop} (larger : ∀ w l, W w l → V w l) (ledger : Ledger W k) : Ledger V k where
  once := ledger.once
  level := ledger.level
  recorded t known l listed holds := by
    obtain ⟨w,below,waits⟩ := ledger.recorded t known l listed holds
    exact ⟨w,below,larger w l waits⟩
  plain := ledger.plain
  donor t known some := by
    obtain ⟨l,listed,holds,w,below,waits,under⟩ := ledger.donor t known some
    exact ⟨l,listed,holds,w,below,larger w l waits,under⟩
  orig := ledger.orig
  nonneg := ledger.nonneg

/-- States with the same books, whose holders differ only at locks that are in
    nobody's books as held. -/
theorem ledger_congr {W V : Tid → LockId → Prop} (ledger : Ledger W k) (count : k'.count = k.count)
    (base : k'.base = k.base) (priority : ∀ t, k'.priority t = k.priority t)
    (orig : ∀ t, (k'.threads t).orig_priority = (k.threads t).orig_priority)
    (level : ∀ t, (k'.threads t).donation_nested_level = (k.threads t).donation_nested_level)
    (list : ∀ t, (k'.threads t).lock_list = (k.threads t).lock_list)
    (holder : ∀ t < k.count, ∀ l ∈ (k.threads t).lock_list, k'.holder l = some t ↔ k.holder l = some t)
    (waits : ∀ t < k.count, ∀ l w, k.holder l = some t → W w l → V w l) : Ledger V k' := by
  have same : ∀ t < k.count, heldCount k' t = heldCount k t := by
    intro t known
    unfold heldCount
    rw [list]
    apply List.countP_congr
    intro l listed
    simpa using holder t known l listed
  refine ⟨?_,?_,?_,?_,?_,?_,?_⟩
  · intro t known
    rw [list]
    exact ledger.once t (count ▸ known)
  · intro t known
    rw [level,same t (count ▸ known)]
    exact ledger.level t (count ▸ known)
  · intro t known l listed holds
    rw [list] at listed
    have before := (holder t (count ▸ known) l listed).mp holds
    obtain ⟨w,below,waiting⟩ := ledger.recorded t (count ▸ known) l listed before
    exact ⟨w,count ▸ below,waits t (count ▸ known) l w before waiting⟩
  · intro t known zero
    rw [level] at zero
    rw [priority,base]
    exact ledger.plain t (count ▸ known) zero
  · intro t known some
    rw [level] at some
    obtain ⟨l,listed,holds,w,below,waiting,under⟩ := ledger.donor t (count ▸ known) some
    refine ⟨l,by rwa [list],(holder t (count ▸ known) l listed).mpr holds,w,count ▸ below,
      waits t (count ▸ known) l w holds waiting,?_⟩
    rwa [priority,priority]
  · intro t known
    rw [orig,base]
    exact ledger.orig t (count ▸ known)
  · intro t known
    rw [priority,base]
    exact ledger.nonneg t (count ▸ known)

/-- The list and level of a holder that takes a donation through `l`. -/
theorem donated_books (ledger : Ledger W k) (known : t < k.count) (holds : k.holder l = some t) (p : Int) :
    (donated (k.threads t) l p).lock_list.Nodup ∧ l ∈ (donated (k.threads t) l p).lock_list ∧
      (∀ m ∈ (donated (k.threads t) l p).lock_list, m ∈ (k.threads t).lock_list ∨ m = l) ∧
      (donated (k.threads t) l p).donation_nested_level =
        (donated (k.threads t) l p).lock_list.countP (fun m => k.holder m == some t) := by
  have level := ledger.level t known
  by_cases listed : l ∈ (k.threads t).lock_list
  · obtain ⟨list,same⟩ := donated_listed (k.threads t) p listed
    rw [list,same]
    exact ⟨ledger.once t known,listed,fun m member => .inl member,level⟩
  · obtain ⟨list,more⟩ := donated_unlisted (k.threads t) p listed
    rw [list,more]
    refine ⟨?_,by simp,?_,?_⟩
    · exact List.Nodup.append (ledger.once t known) (List.nodup_singleton l) (by simpa using listed)
    · intro m member
      simpa using member
    · rw [List.countP_append,level]
      simp [holds,heldCount]

theorem ledger_donateOnce {next : Option LockId} (wf : Wf k) (ledger : Ledger W k)
    (included : ∀ w m, WaitsFor k w m → W w m) (nonneg : 0 ≤ k.priority ct)
    (donor : ∃ w < k.count, W w l ∧ k.priority ct ≤ k.priority w) (ran : donateOnce k ct l = some (k',next)) :
    Ledger W k' ∧ ∀ m, next = some m → ∃ w < k'.count, W w m ∧ k'.priority ct ≤ k'.priority w := by
  have frame := donateOnce_same ran
  rcases donateOnce_cases ran with ⟨rfl,rfl,_⟩ | ⟨lh,holds,lower,_,_,rfl,rfl⟩
  · exact ⟨ledger,fun m none => by cases none⟩
  · have known := (wf.held l lh holds).1
    obtain ⟨once,listed,from_,counted⟩ := donated_books ledger known holds (k.priority ct)
    obtain ⟨donorThread,donorKnown,donorWaits,donorAbove⟩ := donor
    have raised := frame.raised
    have otherPriority : ∀ u, u ≠ lh → (k.setThread lh (donated (k.threads lh) l (k.priority ct))).priority u =
        k.priority u := by
      intro u other
      simp [Kernel.priority,setThread_other _ other]
    have ownPriority : (k.setThread lh (donated (k.threads lh) l (k.priority ct))).priority lh = k.priority ct := by
      simp [Kernel.priority]
    have ownLevel : (donated (k.threads lh) l (k.priority ct)).donation_nested_level ≠ 0 := by
      have positive : 0 < (donated (k.threads lh) l (k.priority ct)).lock_list.countP (fun m => k.holder m == some lh) :=
        List.countP_pos_iff.mpr ⟨l,listed,by simp [holds]⟩
      omega
    refine ⟨⟨?_,?_,?_,?_,?_,?_,?_⟩,?_⟩
    · intro u below
      by_cases same : u = lh
      · subst same; simpa using once
      · rw [setThread_other _ same]
        exact ledger.once u below
    · intro u below
      by_cases same : u = lh
      · subst same
        simpa [heldCount] using counted
      · simpa [heldCount,setThread_other _ same] using ledger.level u below
    · intro u below m member holdsToo
      by_cases same : u = lh
      · subst same
        rw [setThread_same] at member
        rcases from_ m member with before | added
        · exact ledger.recorded u below m before holdsToo
        · exact ⟨donorThread,donorKnown,added ▸ donorWaits⟩
      · rw [setThread_other _ same] at member
        exact ledger.recorded u below m member holdsToo
    · intro u below zero
      by_cases same : u = lh
      · subst same
        rw [setThread_same] at zero
        exact absurd zero ownLevel
      · rw [setThread_other _ same] at zero
        rw [otherPriority u same]
        exact ledger.plain u below zero
    · intro u below some
      by_cases same : u = lh
      · subst same
        refine ⟨l,by simpa using listed,holds,donorThread,donorKnown,donorWaits,?_⟩
        rw [ownPriority]
        exact Int.le_trans donorAbove (raised donorThread)
      · rw [setThread_other _ same] at some ⊢
        obtain ⟨m,member,holdsToo,w,wKnown,waits,above⟩ := ledger.donor u below some
        refine ⟨m,member,holdsToo,w,wKnown,waits,?_⟩
        rw [otherPriority u same]
        exact Int.le_trans above (raised w)
    · intro u below
      by_cases same : u = lh
      · subst same
        rw [setThread_same,donated_orig]
        split
        · next zero => exact ledger.plain u below zero
        · exact ledger.orig u below
      · rw [setThread_other _ same]
        exact ledger.orig u below
    · intro u below
      by_cases same : u = lh
      · subst same
        rw [ownPriority]
        exact ⟨nonneg,(ledger.nonneg u below).2⟩
      · rw [otherPriority u same]
        exact ledger.nonneg u below
    · -- The recursive call goes on from `lh`, which waits with the priority it was given.
      intro m waits
      have different : ct ≠ lh := by
        rintro rfl
        exact absurd lower (by omega)
      refine ⟨lh,known,included lh m waits,?_⟩
      exact Int.le_of_eq (by rw [otherPriority ct different,ownPriority])

theorem ledger_donation (wf : Wf k) (ledger : Ledger W k) (included : ∀ w m, WaitsFor k w m → W w m)
    (nonneg : 0 ≤ k.priority ct) (donor : ∃ w < k.count, W w l ∧ k.priority ct ≤ k.priority w)
    (ran : priority_donation k ct l = some d) : Ledger W d := by
  refine donate_induction
    (fun k l => Wf k ∧ Ledger W k ∧ (∀ w m, WaitsFor k w m → W w m) ∧ 0 ≤ k.priority ct ∧
      ∃ w < k.count, W w l ∧ k.priority ct ≤ k.priority w)
    (Ledger W) ?_ _ k l ⟨wf,ledger,included,nonneg,donor⟩ ran
  rintro k1 l1 k2 next ⟨wf1,ledger1,included1,nonneg1,donor1⟩ once
  obtain ⟨after,further⟩ := ledger_donateOnce wf1 ledger1 included1 nonneg1 donor1 once
  have frame := donateOnce_same once
  refine ⟨after,fun m more => ⟨wf_donated wf1 frame,after,?_,?_,further m more⟩⟩
  · intro w m waits
    exact included1 w m (by unfold WaitsFor at waits ⊢; rwa [frame.waiting] at waits)
  · exact Int.le_trans nonneg1 (frame.raised ct)

/-- What the loop of `priority_restoration` returns. -/
theorem highestFront_spec (k : Kernel) (ls : List LockId) (start : Int) :
    start ≤ highestFront k ls start ∧
      (∀ l ∈ ls, ∀ w rest, k.waiters l = w :: rest → k.priority w ≤ highestFront k ls start) ∧
      (highestFront k ls start = start ∨
        ∃ l ∈ ls, ∃ w rest, k.waiters l = w :: rest ∧ highestFront k ls start = k.priority w) := by
  induction ls generalizing start with
  | nil => simp [highestFront]
  | cons cl ls ih =>
    cases front : k.waiters cl with
    | nil =>
      obtain ⟨low,above,reached⟩ := ih start
      simp only [highestFront,front]
      refine ⟨low,?_,?_⟩
      · intro l member w rest waiters
        rcases List.mem_cons.mp member with rfl | later
        · rw [front] at waiters
          cases waiters
        · exact above l later w rest waiters
      · rcases reached with same | ⟨l,member,found⟩
        · exact .inl same
        · exact .inr ⟨l,List.mem_cons_of_mem _ member,found⟩
    | cons first others =>
      obtain ⟨low,above,reached⟩ := ih (if k.priority first > start then k.priority first else start)
      simp only [highestFront,front]
      have bounds : start ≤ (if k.priority first > start then k.priority first else start) ∧
          k.priority first ≤ (if k.priority first > start then k.priority first else start) := by
        split <;> omega
      refine ⟨Int.le_trans bounds.1 low,?_,?_⟩
      · intro l member w rest waiters
        rcases List.mem_cons.mp member with rfl | later
        · rw [front] at waiters
          cases waiters
          exact Int.le_trans bounds.2 low
        · exact above l later w rest waiters
      · rcases reached with same | ⟨l,member,found⟩
        · by_cases higher : k.priority first > start
          · simp only [higher,↓reduceIte] at same ⊢
            exact .inr ⟨cl,by simp,first,others,front,same⟩
          · simp only [higher,↓reduceIte] at same ⊢
            exact .inl same
        · exact .inr ⟨l,List.mem_cons_of_mem _ member,found⟩

/-- Releasing `l` takes one off the number of listed locks that are held. -/
theorem countP_release {ls : List LockId} {p q : LockId → Bool} (once : ls.Nodup) (listed : l ∈ ls) (was : p l = true)
    (is : q l = false) (others : ∀ m, m ≠ l → q m = p m) :
    ls.countP q + 1 = ls.countP p ∧ (ls.erase l).countP q + 1 = ls.countP p := by
  have perm := List.perm_cons_erase listed
  have rest : (ls.erase l).countP q = (ls.erase l).countP p := by
    apply List.countP_congr
    intro m member
    have other : m ≠ l := by
      rintro rfl
      exact once.not_mem_erase member
    rw [others m other]
  constructor
  · rw [perm.countP_eq q,perm.countP_eq p]
    simp [was,is,rest]
  · rw [perm.countP_eq p]
    simp [was,rest]

/-- What the ledger asks of the record `r` that `t` has in the state `k'`, with
    waiting and priorities as in the state `k` before. -/
structure RecordOk (k k' : Kernel) (t : Tid) (r : Thread) : Prop where
  once : r.lock_list.Nodup
  listed : ∀ m ∈ r.lock_list, m ∈ (k.threads t).lock_list
  level : r.donation_nested_level = r.lock_list.countP (fun m => k'.holder m == some t)
  plain : r.donation_nested_level = 0 → r.priority = k.base t
  donor : r.donation_nested_level ≠ 0 → ∃ m ∈ r.lock_list, k'.holder m = some t ∧
    ∃ w < k.count, WaitsFor k w m ∧ r.priority ≤ k.priority w
  orig : r.orig_priority = k.base t
  nonneg : 0 ≤ r.priority

theorem restored_recordOk (wf : Wf k) (ledger : Ledger (WaitsFor k) k) (known : t < k.count)
    (held : k.holder l = some t) (meets : LiveDonors k (.lock_release t l stray))
    (gone : k'.holder l = none) (holder : ∀ m, m ≠ l → k'.holder m = k.holder m) :
    RecordOk k k' t (restored k t l stray) := by
  have level := ledger.level t known
  unfold heldCount at level
  have released : ∀ ls : List LockId, ls.Nodup → l ∈ ls →
      ls.countP (fun m => k'.holder m == some t) + 1 = ls.countP (fun m => k.holder m == some t) ∧
      (ls.erase l).countP (fun m => k'.holder m == some t) + 1 = ls.countP (fun m => k.holder m == some t) := by
    intro ls once listed
    exact countP_release once listed (by simp [held]) (by simp [gone]) (fun m other => by rw [holder m other])
  rcases restored_cases k t l stray with ⟨early,same⟩ | ⟨some,listed,front,same⟩ | ⟨some,listed,front,same⟩
  · -- A listed lock that is held would have been counted.
    have unlisted : l ∉ (k.threads t).lock_list := by
      rcases early with zero | unlisted
      · intro listed
        have counted := heldCount_pos listed held
        unfold heldCount at counted
        omega
      · exact unlisted
    have other : ∀ m ∈ (k.threads t).lock_list, k'.holder m = k.holder m := by
      intro m member
      exact holder m (fun equal => unlisted (equal ▸ member))
    rw [same]
    refine ⟨ledger.once t known,fun _ member => member,?_,ledger.plain t known,?_,ledger.orig t known,
      (ledger.nonneg t known).1⟩
    · rw [level]
      congr 1
      apply List.countP_congr
      intro m member
      rw [other m member]
    · intro some
      obtain ⟨m,member,holds,donor⟩ := ledger.donor t known some
      exact ⟨m,member,(other m member).trans holds,donor⟩
  · have computed := (meets some listed).1 front
    obtain ⟨_,erased⟩ := released _ (ledger.once t known) listed
    have notSame : ∀ m ∈ (k.threads t).lock_list.erase l, m ≠ l := by
      rintro m member rfl
      exact (ledger.once t known).not_mem_erase member
    rw [same]
    have orig := ledger.orig t known
    obtain ⟨low,_,reached⟩ := highestFront_spec k ((k.threads t).lock_list.erase l) 0
    by_cases last : (k.threads t).donation_nested_level - 1 = 0
    · have priority : restoredPriority k t l = k.base t := by
        have nonneg := (ledger.nonneg t known).2
        simp [restoredPriority,last,orig,nonneg]
      refine ⟨(ledger.once t known).erase l,fun m member => List.mem_of_mem_erase member,?_,fun _ => priority,
        fun more => absurd last more,orig,?_⟩
      · show (k.threads t).donation_nested_level - 1 =
          (((k.threads t).lock_list.erase l).countP (fun m => k'.holder m == Option.some t) : Nat)
        omega
      · show 0 ≤ restoredPriority k t l
        rw [priority]
        exact (ledger.nonneg t known).2
    · have priority : restoredPriority k t l = highestFront k ((k.threads t).lock_list.erase l) 0 := by
        simp [restoredPriority,last,low]
      refine ⟨(ledger.once t known).erase l,fun m member => List.mem_of_mem_erase member,?_,
        fun zero => absurd zero last,?_,orig,?_⟩
      · show (k.threads t).donation_nested_level - 1 =
          (((k.threads t).lock_list.erase l).countP (fun m => k'.holder m == Option.some t) : Nat)
        omega
      · intro _
        show ∃ m ∈ (k.threads t).lock_list.erase l, k'.holder m = Option.some t ∧
          ∃ w < k.count, WaitsFor k w m ∧ restoredPriority k t l ≤ k.priority w
        rw [priority]
        rcases reached with zero | ⟨m,member,w,rest,waiters,top⟩
        · -- Nobody stands at the front of the locks that are left: any waiter will do.
          have positive : 0 < ((k.threads t).lock_list.erase l).countP (fun m => k'.holder m == Option.some t) := by
            omega
          obtain ⟨m,member,holds⟩ := List.countP_pos_iff.mp positive
          have holdsNow : k'.holder m = Option.some t := by simpa using holds
          have before := holder m (notSame m member) ▸ holdsNow
          obtain ⟨w,below,waits⟩ := ledger.recorded t known m (List.mem_of_mem_erase member) before
          refine ⟨m,member,holdsNow,w,below,waits,?_⟩
          rw [zero]
          exact (ledger.nonneg w below).1
        · have holds : k.holder m = Option.some t := by
            by_contra lost
            have none := computed (by omega) m (List.mem_of_mem_erase member) lost
            rw [waiters] at none
            cases none
          obtain ⟨below,waits⟩ := wf.waiting m w (by rw [waiters]; simp)
          exact ⟨m,member,(holder m (notSame m member)).trans holds,w,below,waits,Int.le_of_eq top⟩
      · show 0 ≤ restoredPriority k t l
        rw [priority]
        exact low
  · obtain ⟨m,member,other,holds,donor⟩ := (meets some listed).2 front
    obtain ⟨counted,_⟩ := released _ (ledger.once t known) listed
    have holdsNow := (holder m other).trans holds
    rw [same]
    have positive : 0 < (k.threads t).lock_list.countP (fun m => k'.holder m == Option.some t) :=
      List.countP_pos_iff.mpr ⟨m,member,by simp [holdsNow]⟩
    refine ⟨ledger.once t known,fun _ member => member,?_,?_,fun _ => ⟨m,member,holdsNow,donor⟩,ledger.orig t known,
      (ledger.nonneg t known).1⟩
    · show (k.threads t).donation_nested_level - 1 =
        ((k.threads t).lock_list.countP (fun m => k'.holder m == Option.some t) : Nat)
      omega
    · intro zero
      have none : (k.threads t).donation_nested_level - 1 = 0 := zero
      omega

theorem ledger_released (wf : Wf k) (ledger : Ledger (WaitsFor k) k) (free : Free k t) (held : k.holder l = some t)
    (meets : LiveDonors k (.lock_release t l stray)) (released : Released k k' t l stray) :
    Ledger (WaitsFor k') k' := by
  have waiting : ∀ w m, WaitsFor k w m → WaitsFor k' w m := by
    intro w m waits
    unfold WaitsFor at waits ⊢
    by_cases same : w = t
    · rw [same,released.own,restored_waiting]
      exact same ▸ waits
    · rwa [released.others w same]
  have holder : ∀ m, m ≠ l → k'.holder m = k.holder m := by
    intro m other
    simp [Kernel.holder,released.locks m other]
  have priority : ∀ u, u ≠ t → k'.priority u = k.priority u := by
    intro u other
    simp [Kernel.priority,released.others u other]
  -- No waiter is `t` itself, so waiters keep their priorities.
  have others : ∀ w m, WaitsFor k w m → k'.priority w = k.priority w := by
    intro w m waits
    apply priority
    rintro rfl
    unfold WaitsFor at waits
    rw [free.2] at waits
    cases waits
  -- Another thread loses no lock of its own.
  have keeps : ∀ u < k.count, u ≠ t → ∀ m, k'.holder m = some u ↔ k.holder m = some u := by
    intro u _ other m
    by_cases same : m = l
    · subst same
      rw [released.holder,held]
      simpa using fun equal : t = u => other equal.symm
    · rw [holder m same]
  have own := restored_recordOk wf ledger free.1 held meets released.holder holder
  refine ⟨?_,?_,?_,?_,?_,?_,?_⟩
  · intro u known
    by_cases same : u = t
    · rw [same,released.own]; exact own.once
    · rw [released.others u same]; exact ledger.once u (released.count ▸ known)
  · intro u known
    by_cases same : u = t
    · rw [same]
      unfold heldCount
      rw [released.own]
      exact own.level
    · unfold heldCount
      rw [released.others u same,ledger.level u (released.count ▸ known)]
      unfold heldCount
      congr 1
      apply List.countP_congr
      intro m _
      simpa using (keeps u (released.count ▸ known) same m).symm
  · intro u known m member holds
    rw [released.count] at known ⊢
    have before : m ∈ (k.threads u).lock_list ∧ k.holder m = some u := by
      by_cases same : u = t
      · subst same
        have different : m ≠ l := by
          rintro rfl
          rw [released.holder] at holds
          cases holds
        exact ⟨own.listed m (released.own ▸ member),(holder m different) ▸ holds⟩
      · exact ⟨released.others u same ▸ member,(keeps u known same m).mp holds⟩
    obtain ⟨w,below,waits⟩ := ledger.recorded u known m before.1 before.2
    exact ⟨w,below,waiting w m waits⟩
  · intro u known zero
    rw [released.base]
    by_cases same : u = t
    · subst same
      rw [released.own] at zero
      simpa [Kernel.priority,released.own] using own.plain zero
    · rw [released.others u same] at zero
      rw [priority u same]
      exact ledger.plain u (released.count ▸ known) zero
  · intro u known some
    rw [released.count] at known ⊢
    by_cases same : u = t
    · subst same
      rw [released.own] at some ⊢
      obtain ⟨m,member,holds,w,below,waits,above⟩ := own.donor some
      refine ⟨m,member,holds,w,below,waiting w m waits,?_⟩
      rw [others w m waits]
      simpa [Kernel.priority,released.own] using above
    · rw [released.others u same] at some ⊢
      obtain ⟨m,member,holds,w,below,waits,above⟩ := ledger.donor u known some
      refine ⟨m,member,(keeps u known same m).mpr holds,w,below,waiting w m waits,?_⟩
      rw [others w m waits,priority u same]
      exact above
  · intro u known
    rw [released.base]
    by_cases same : u = t
    · rw [same,released.own]; exact own.orig
    · rw [released.others u same]; exact ledger.orig u (released.count ▸ known)
  · intro u known
    rw [released.base]
    rw [released.count] at known
    by_cases same : u = t
    · subst same
      exact ⟨by simpa [Kernel.priority,released.own] using own.nonneg,(ledger.nonneg u known).2⟩
    · rw [priority u same]; exact ledger.nonneg u known

/-- A lock that `t` takes is in nobody's books as held. -/
theorem ledger_taken (ledger : Ledger (WaitsFor k) k) (unheld : k.holder l = none)
    (unlisted : l ∉ (k.threads t).lock_list) (only : ∀ m, WaitsFor k t m → m = l) :
    Ledger (WaitsFor (taken k t l)) (taken k t l) := by
  refine ledger_congr ledger rfl rfl (fun _ => taken_priority) (fun _ => taken_orig) (fun _ => taken_level)
    (fun _ => taken_lock_list) ?_ ?_
  · intro u _ m member
    rw [taken_holder]
    by_cases same : m = l
    · subst same
      simp only [↓reduceIte,unheld,reduceCtorEq,iff_false]
      rintro equal
      exact unlisted (Option.some.inj equal ▸ member)
    · simp [same]
  · intro u _ m w holds waits
    have other : w ≠ t := by
      rintro rfl
      rw [only m waits,unheld] at holds
      cases holds
    simpa [WaitsFor,taken_threads,other] using waits

theorem ledger_created {p : Int} (ledger : Ledger (WaitsFor k) k) (low : PRI_MIN ≤ p)
    (created : thread_create k p = some k') : Ledger (WaitsFor k') k' := by
  unfold thread_create at created
  split at created
  · have same := Option.some.inj created
    subst same
    have before : ∀ u, u < k.count + 1 → u ≠ k.count → u < k.count := fun u bound other =>
      Nat.lt_of_le_of_ne (Nat.le_of_lt_succ bound) other
    have later : ∀ w, w < k.count → w ≠ k.count := fun w known => Nat.ne_of_lt known
    refine ⟨?_,?_,?_,?_,?_,?_,?_⟩
    · intro u known
      by_cases new : u = k.count
      · subst new; simp [init_thread]
      · simpa [setThread_other _ new] using ledger.once u (before u known new)
    · intro u known
      by_cases new : u = k.count
      · subst new; simp [init_thread,heldCount]
      · simpa [heldCount,setThread_other _ new,Kernel.holder] using ledger.level u (before u known new)
    · intro u known m member holds
      by_cases new : u = k.count
      · subst new; simp [init_thread] at member
      · simp only [setThread_other _ new] at member
        obtain ⟨w,below,waits⟩ := ledger.recorded u (before u known new) m member holds
        exact ⟨w,Nat.lt_succ_of_lt below,by simpa [WaitsFor,setThread_other _ (later w below)] using waits⟩
    · intro u known zero
      by_cases new : u = k.count
      · subst new; simp [init_thread,Kernel.priority]
      · simp only [setThread_other _ new] at zero
        simpa [Kernel.priority,setThread_other _ new,new] using ledger.plain u (before u known new) zero
    · intro u known some
      by_cases new : u = k.count
      · subst new; simp [init_thread] at some
      · simp only [setThread_other _ new] at some ⊢
        obtain ⟨m,member,holds,w,below,waits,above⟩ := ledger.donor u (before u known new) some
        refine ⟨m,member,holds,w,Nat.lt_succ_of_lt below,?_,?_⟩
        · simpa [WaitsFor,setThread_other _ (later w below)] using waits
        · simpa [Kernel.priority,setThread_other _ new,setThread_other _ (later w below)] using above
    · intro u known
      by_cases new : u = k.count
      · subst new; simp [init_thread]
      · simpa [setThread_other _ new,new] using ledger.orig u (before u known new)
    · intro u known
      by_cases new : u = k.count
      · subst new; simpa [init_thread,Kernel.priority,PRI_MIN] using low
      · simpa [Kernel.priority,setThread_other _ new,new] using ledger.nonneg u (before u known new)
  · cases created

theorem ledger_prioritised {p : Int} (ledger : Ledger (WaitsFor k) k) (free : Free k t) (low : PRI_MIN ≤ p) :
    Ledger (WaitsFor (thread_set_priority k t p)) (thread_set_priority k t p) := by
  have list : ∀ u, ((thread_set_priority k t p).threads u).lock_list = (k.threads u).lock_list := by
    intro u
    by_cases same : u = t
    · subst same; simp [thread_set_priority]
    · simp [thread_set_priority,setThread_other _ same]
  have level : ∀ u, ((thread_set_priority k t p).threads u).donation_nested_level =
      (k.threads u).donation_nested_level := by
    intro u
    by_cases same : u = t
    · subst same; simp [thread_set_priority]
    · simp [thread_set_priority,setThread_other _ same]
  have waiting : ∀ w m, WaitsFor (thread_set_priority k t p) w m ↔ WaitsFor k w m := by
    intro w m
    by_cases same : w = t
    · subst same; simp [WaitsFor,thread_set_priority]
    · simp [WaitsFor,thread_set_priority,setThread_other _ same]
  have priority : ∀ u, u ≠ t → (thread_set_priority k t p).priority u = k.priority u := by
    intro u other
    simp [Kernel.priority,thread_set_priority,setThread_other _ other]
  have own : (thread_set_priority k t p).priority t =
      if (k.threads t).donation_nested_level = 0 then p else k.priority t := by
    simp [Kernel.priority,thread_set_priority]
  have base : ∀ u, (thread_set_priority k t p).base u = if u = t then p else k.base u := fun _ => rfl
  -- The thread that sets its priority waits for nothing, so donors keep theirs.
  have donors : ∀ w m, WaitsFor k w m → (thread_set_priority k t p).priority w = k.priority w := by
    intro w m waits
    apply priority
    rintro rfl
    unfold WaitsFor at waits
    rw [free.2] at waits
    cases waits
  refine ⟨?_,?_,?_,?_,?_,?_,?_⟩
  · intro u known
    rw [list]
    exact ledger.once u known
  · intro u known
    unfold heldCount
    rw [level,list]
    exact ledger.level u known
  · intro u known m member holds
    rw [list] at member
    obtain ⟨w,below,waits⟩ := ledger.recorded u known m member holds
    exact ⟨w,below,(waiting w m).mpr waits⟩
  · intro u known zero
    rw [level] at zero
    rw [base]
    by_cases same : u = t
    · subst same; simp [own,zero]
    · rw [priority u same,if_neg same]
      exact ledger.plain u known zero
  · intro u known some
    rw [level] at some
    rw [list]
    obtain ⟨m,member,holds,w,below,waits,above⟩ := ledger.donor u known some
    refine ⟨m,member,holds,w,below,(waiting w m).mpr waits,?_⟩
    rw [donors w m waits]
    by_cases same : u = t
    · subst same
      rw [own,if_neg some]
      exact above
    · rw [priority u same]
      exact above
  · intro u known
    rw [base]
    by_cases same : u = t
    · subst same; simp [thread_set_priority]
    · simpa [thread_set_priority,setThread_other _ same,same] using ledger.orig u known
  · intro u known
    rw [base]
    have low' : 0 ≤ p := low
    by_cases same : u = t
    · subst same
      rw [own,if_pos rfl]
      have before := (ledger.nonneg u known).1
      split <;> omega
    · rw [priority u same,if_neg same]
      exact ledger.nonneg u known

theorem ledger_blocked {h : Tid} (wf : Wf k) (ledger : Ledger (WaitsFor k) k) (free : Free k t)
    (held : k.holder l = some h) (ran : priority_donation k t l = some d) :
    Ledger (WaitsFor (enqueued (waitingFor d t l) t l)) (enqueued (waitingFor d t l) t l) := by
  have frame := priority_donation_same ran
  have nonneg := (ledger.nonneg t free.1).1
  have donation := ledger_donation (W := fun w m => WaitsFor k w m ∨ (w = t ∧ m = l)) wf
    (ledger_mono (fun _ _ => .inl) ledger) (fun _ _ => .inl) nonneg
    ⟨t,free.1,.inr ⟨rfl,rfl⟩,Int.le_refl _⟩ ran
  refine ledger_congr donation rfl rfl ?_ ?_ ?_ ?_ ?_ ?_
  · intro u
    by_cases same : u = t
    · subst same; simp [Kernel.priority,waitingFor]
    · simp [Kernel.priority,waitingFor,setThread_other _ same]
  · intro u
    by_cases same : u = t
    · subst same; simp [waitingFor]
    · simp [waitingFor,setThread_other _ same]
  · intro u
    by_cases same : u = t
    · subst same; simp [waitingFor]
    · simp [waitingFor,setThread_other _ same]
  · intro u
    by_cases same : u = t
    · subst same; simp [waitingFor]
    · simp [waitingFor,setThread_other _ same]
  · intro u _ m _
    simp [waitingFor]
  · rintro u _ m w _ (before | ⟨rfl,rfl⟩)
    · have other : w ≠ t := by
        rintro rfl
        unfold WaitsFor at before
        rw [free.2] at before
        cases before
      simpa [WaitsFor,waitingFor,setThread_other _ other,frame.waiting] using before
    · simp [WaitsFor,waitingFor]

theorem ledger_steps (wf : Wf k) (ledger : Ledger (WaitsFor k) k) (meets : LiveDonors k e) (steps : Steps k e k') :
    Ledger (WaitsFor k') k' := by
  cases steps with
  | create low high created => exact ledger_created ledger low created
  | @init l unused =>
    refine ledger_congr ledger rfl rfl (fun _ => rfl) (fun _ => rfl) (fun _ => rfl) (fun _ => rfl) ?_
      (fun _ _ _ _ _ waits => waits)
    intro u _ m _
    by_cases same : m = l
    · subst same
      have before := unused.1
      simp only [Kernel.holder] at before
      simp [lock_init,Kernel.holder,before]
    · simp [lock_init,Kernel.holder,setLock_other _ same]
  | @acquire t l free unheld =>
    refine ledger_taken ledger unheld (meets unheld) ?_
    intro m waits
    unfold WaitsFor at waits
    rw [free.2] at waits
    cases waits
  | block free held other ran => exact ledger_blocked wf ledger free held ran
  | @resume t l woken unheld =>
    refine ledger_taken ledger unheld (meets unheld) ?_
    intro m waits
    unfold WaitsFor at waits
    rw [woken.2.1] at waits
    exact (Option.some.inj waits).symm
  | again woken held =>
    exact ledger_congr ledger rfl rfl (fun _ => rfl) (fun _ => rfl) (fun _ => rfl) (fun _ => rfl)
      (fun u _ m _ => by simp) (fun _ _ _ _ _ waits => waits)
  | release free held released => exact ledger_released wf ledger free held meets released
  | prioritise free => exact ledger_prioritised ledger free meets

/-- The test `priority-donate-multiple2`, with both releases. -/
def donateMultiple2Done : List Event :=
  [.lock_acquire 0 0,.lock_acquire 0 1,.thread_create 34,.lock_acquire 1 0,.thread_create 36,.lock_acquire 2 1,
    .lock_release 0 0 0,.resume 1 0,.lock_release 0 1 0,.resume 2 1]

/-- A chain: the front waiter of the released lock has itself been raised after
    it donated, while a third thread waits behind it. -/
def raisedWaiter : List Event :=
  [.lock_acquire 0 0,.thread_create 35,.lock_acquire 1 1,.lock_acquire 1 0,.thread_create 40,.lock_acquire 2 0,
    .thread_create 50,.lock_acquire 3 1,.lock_release 0 0 0]

end Pintos.Justification
