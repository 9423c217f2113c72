import Pintos.UserReads
import Pintos.Scans

/-!
Which of the bytes that a system call reads were checked. A check of one byte
settles the page it is in, so a read is established when an earlier lookup of
`is_valid_addr` passed for an address of the same page.

`Reads m known x Pages value` is the rule for a part of a call that only reads:
with the pages `known` it is established exactly when `Pages` holds, and then it
returns `value`. The pages come from the page directory, so none of them is above
`PHYS_BASE`; a loop over a string leaves them before it has gone through every
address.
-/
namespace Pintos.UserReads
open Pintos Pintos.UserMemory Pintos.Traces Pintos.Scans
open Pintos.Bitmaps (Byte)
set_option linter.unusedSimpArgs false

/-- Every byte that is fetched is user memory, on a page of which some byte was checked
    before. -/
def Established (pd : PageDir) (log : List Event) : Prop :=
  ∀ before a after, log = before ++ .fetch a :: after → Mapped pd a ∧ ∃ b, .check b true ∈ before ∧ pg_no b = pg_no a
/-- After a check that fails nothing more is read, and the process exits with -1. -/
def Terminated {α : Type} (log : List Event) (result : Except Stop α) : Prop :=
  ∀ before b after, log = before ++ .check b false :: after → after = [] ∧ result = .error (.exit (-1))

def checked_pages : Discipline Event (List (BitVec 32)) where
  learn known e := match e with
    | .check a true => pg_no a :: known
    | _ => known
  Allowed known e := match e with
    | .fetch a => pg_no a ∈ known
    | .check _ _ => True

/-- What is known of the page directory. -/
def Sound (m : Memory) (known : List (BitVec 32)) : Prop := ∀ a, pg_no a ∈ known → Mapped m.pd a

def byte (m : Memory) (a : Addr) : Byte := (peek m a).getD 0
def word (m : Memory) (a : Addr) : BitVec 32 := byte m (a + 3) ++ byte m (a + 2) ++ byte m (a + 1) ++ byte m a

def Reads {α : Type} (m : Memory) (known : List (BitVec 32)) (x : Kernel α) (Pages : Prop) (value : α) : Prop :=
  (checked_pages.Obeys known (x m).1 → Pages) ∧
  (Pages → checked_pages.Obeys known (x m).1 ∧ checked_pages.after known (x m).1 = known ∧ (x m).2 = .ok value)

variable {α β : Type} {m : Memory} {known : List (BitVec 32)} {a b : Addr} {env : Env} {esp : Addr} {x : Kernel α}
  {f : α → Kernel β} {C D : Prop} {v : α} {w : β} {log : List Event} {p : BitVec 32}

/-! ### What is known -/

theorem after_checks : p ∈ checked_pages.after known log ↔ p ∈ known ∨ ∃ b, .check b true ∈ log ∧ pg_no b = p := by
  induction log generalizing known with
  | nil => simp
  | cons e rest ih =>
    rw [after_cons,ih]
    cases e with
    | fetch a => simp [checked_pages]
    | check a passed =>
      cases passed with
      | false => simp [checked_pages]
      | true =>
        show (p ∈ pg_no a :: known ∨ _) ↔ _
        simp only [List.mem_cons,Event.check.injEq,and_true]
        constructor
        · rintro ((rfl | member) | ⟨b,later,same⟩)
          · exact .inr ⟨a,.inl rfl,rfl⟩
          · exact .inl member
          · exact .inr ⟨b,.inr later,same⟩
        · rintro (member | ⟨b,rfl | later,same⟩)
          · exact .inl (.inr member)
          · exact .inl (.inl same.symm)
          · exact .inr ⟨b,later,same⟩

theorem page_user (same : pg_no a = pg_no b) (user : a < PHYS_BASE) : b < PHYS_BASE := by
  have page := congrArg BitVec.toNat same
  rw [pg_no_eq,pg_no_eq] at page
  rw [user_lt] at user ⊢
  omega

/-- Where the log of the checks is right, the discipline is all there is to show. -/
theorem established_iff (honest : ∀ b, .check b true ∈ log → Mapped m.pd b) :
    Established m.pd log ↔ checked_pages.Obeys [] log := by
  rw [obeys_iff]
  constructor
  · intro established before e rest split
    cases e with
    | check a passed => trivial
    | fetch a => exact after_checks.mpr (.inr (established before a rest split).2)
  · intro obeys before a rest split
    rcases after_checks.mp (obeys before _ rest split) with known | ⟨b,checked,same⟩
    · cases known
    · have mapped := honest b (by rw [split]; exact List.mem_append_left _ checked)
      exact ⟨mapped_same_page same (page_user same mapped.1) mapped,b,checked,same⟩

theorem sound_nil : Sound m [] := fun a member => by cases member

theorem sound_cons (mapped : Mapped m.pd b) (sound : Sound m known) : Sound m (pg_no b :: known) := by
  intro a member
  rcases List.mem_cons.mp member with same | old
  · exact mapped_same_page same.symm (page_user same.symm mapped.1) mapped
  · exact sound a old

theorem peek_mapped (mapped : Mapped m.pd a) : peek m a = some (byte m a) := by
  obtain ⟨user,pte,entry,present⟩ := mapped
  have found : peek m a = some (m.ram (pte_get_page pte + pg_ofs a)) := by
    rw [peek,is_user_vaddr,decide_eq_true user,if_pos rfl,entry]
    exact if_pos present
  rw [byte,found]
  rfl

/-! ### Rules -/

theorem reads_iff (reads : Reads m known x C v) (same : C ↔ D) : Reads m known x D v :=
  ⟨fun obeys => same.mp (reads.1 obeys),fun holds => reads.2 (same.mpr holds)⟩

theorem reads_pure : Reads m known (Pure.pure v : Kernel α) True v := ⟨fun _ => trivial,fun _ => ⟨trivial,rfl,rfl⟩⟩

theorem reads_obeys (reads : Reads m known x C v) :
    checked_pages.Obeys known ((x >>= f) m).1 ↔ C ∧ checked_pages.Obeys known (f v m).1 := by
  rw [obeys_bind]
  constructor
  · rintro ⟨first,later⟩
    have holds := reads.1 first
    obtain ⟨_,same,returned⟩ := reads.2 holds
    have second := later v returned
    rw [same] at second
    exact ⟨holds,second⟩
  · rintro ⟨holds,second⟩
    obtain ⟨first,same,returned⟩ := reads.2 holds
    refine ⟨first,fun u result => ?_⟩
    rw [returned] at result
    cases result
    rwa [same]

theorem reads_bind (reads : Reads m known x C v) (later : C → Reads m known (f v) D w) : Reads m known (x >>= f) (C ∧ D) w := by
  refine ⟨fun obeys => ?_,fun ⟨holds,rest⟩ => ?_⟩
  · obtain ⟨holds,second⟩ := (reads_obeys reads).mp obeys
    exact ⟨holds,(later holds).1 second⟩
  · obtain ⟨first,same,returned⟩ := reads.2 holds
    obtain ⟨second,kept,value⟩ := (later holds).2 rest
    refine ⟨(reads_obeys reads).mpr ⟨holds,second⟩,?_⟩
    have ran : x m = ((x m).1,.ok v) := Prod.ext rfl returned
    rw [run_bind_ok ran]
    exact ⟨by rw [after_append,same,kept],value⟩

theorem fetch_reads (sound : Sound m known) (a : Addr) : Reads m known (fetch a) (pg_no a ∈ known) (byte m a) := by
  refine ⟨fun obeys => obeys.1,fun member => ⟨⟨member,trivial⟩,rfl,?_⟩⟩
  simp only [fetch,peek_mapped (sound a member)]

theorem fetch_word_reads (sound : Sound m known) (a : Addr) :
    Reads m known (fetch_word a) (pg_no a ∈ known ∧ pg_no (a + 1) ∈ known ∧ pg_no (a + 2) ∈ known ∧
      pg_no (a + 3) ∈ known) (word m a) := by
  refine reads_iff (reads_bind (fetch_reads sound a) fun _ => reads_bind (fetch_reads sound _) fun _ =>
    reads_bind (fetch_reads sound _) fun _ => reads_bind (fetch_reads sound _) fun _ => reads_pure) ?_
  simp

/-- `x` followed by a conversion of its result. -/
theorem obeys_map {g : α → β} : checked_pages.Obeys known ((x >>= fun r => Pure.pure (g r)) m).1 ↔
    checked_pages.Obeys known (x m).1 := by
  rw [obeys_bind]
  exact ⟨fun both => both.1,fun obeys => ⟨obeys,fun _ _ => trivial⟩⟩

theorem obeys_valid {f : Bool → Kernel β} :
    checked_pages.Obeys known ((is_valid_addr a >>= f) m).1 ↔
      if Mapped m.pd a then checked_pages.Obeys (pg_no a :: known) (f true m).1 else checked_pages.Obeys known (f false m).1 := by
  rw [obeys_bind]
  have logged : (is_valid_addr a m).1 = [.check a (UserMemory.is_valid_addr m.pd a)] := rfl
  have returned : (is_valid_addr a m).2 = .ok (UserMemory.is_valid_addr m.pd a) := rfl
  rw [logged,returned]
  by_cases mapped : Mapped m.pd a
  · rw [if_pos mapped,(is_valid_addr_spec m.pd a).mpr mapped]
    exact ⟨fun both => both.2 true rfl,fun obeys => ⟨⟨trivial,trivial⟩,fun v same => by cases same; exact obeys⟩⟩
  · rw [if_neg mapped,Bool.eq_false_iff.mpr (mt (is_valid_addr_spec m.pd a).mp mapped)]
    exact ⟨fun both => both.2 false rfl,fun obeys => ⟨⟨trivial,trivial⟩,fun v same => by cases same; exact obeys⟩⟩

theorem obeys_catch {f : Unit → Kernel β} :
    checked_pages.Obeys known ((catch_addr_error a >>= f) m).1 ↔
      (Mapped m.pd a → checked_pages.Obeys (pg_no a :: known) (f () m).1) := by
  by_cases mapped : Mapped m.pd a
  · have passed : catch_addr_error a m = ([.check a true],.ok ()) := by
      show (is_valid_addr a >>= _) m = _
      have valid : is_valid_addr a m = ([.check a true],.ok true) := by
        rw [is_valid_addr,(is_valid_addr_spec m.pd a).mpr mapped]
      rw [run_bind_ok valid]
      rfl
    rw [run_bind_ok passed]
    exact ⟨fun obeys _ => obeys.2,fun obeys => ⟨trivial,obeys mapped⟩⟩
  · have failed : catch_addr_error a m = ([.check a false],.error (.exit (-1))) := by
      show (is_valid_addr a >>= _) m = _
      have valid : is_valid_addr a m = ([.check a false],.ok false) := by
        rw [is_valid_addr,Bool.eq_false_iff.mpr (mt (is_valid_addr_spec m.pd a).mp mapped)]
      rw [run_bind_ok valid]
      rfl
    rw [run_bind_error failed]
    exact ⟨fun _ holds => absurd holds mapped,fun _ => ⟨trivial,trivial⟩⟩

/-! ### Loops -/

/-- The length of the string at an address. -/
def length (m : Memory) (a : Addr) : Nat := leading (fun i => decide (byte m (a + BitVec.ofNat 32 i) ≠ 0)) (2 ^ 32) 0

def Source.byte (m : Memory) : Source → Nat → Byte
  | .user a, i => UserReads.byte m (a + BitVec.ofNat 32 i)
  | .kernel text, i => text.getD i 0
def Source.In (known : List (BitVec 32)) : Source → Nat → Prop
  | .user a, i => pg_no (a + BitVec.ofNat 32 i) ∈ known
  | .kernel _, _ => True

/-- How many bytes two strings share before one of them ends. -/
def agree (m : Memory) (a b : Source) : Nat := leading (fun i => decide (a.byte m i ≠ 0) && decide (a.byte m i = b.byte m i)) (2 ^ 32) 0
/-- The bytes from the first up to the one with index `n` are on known pages. -/
def Covered (known : List (BitVec 32)) (a : Addr) (n : Nat) : Prop := ∀ i ≤ n, pg_no (a + BitVec.ofNat 32 i) ∈ known
/-- What a search looks at: up to the first element that is equal. -/
def searched {ι : Type} (equal : ι → Bool) : List ι → List ι
  | [] => []
  | x :: rest => x :: (if equal x then [] else searched equal rest)

/-- Some byte of the address space is on no known page, whatever the start. -/
theorem leaves (sound : Sound m known) (a : Addr) : ∃ j < 2 ^ 32, pg_no (a + BitVec.ofNat 32 j) ∉ known := by
  refine ⟨(0xffffffff - a).toNat,(0xffffffff - a).isLt,fun member => ?_⟩
  have last := sound _ member
  rw [BitVec.ofNat_toNat,BitVec.setWidth_eq,show a + (0xffffffff - a) = 0xffffffff by bv_omega] at last
  exact absurd last.1 (by decide)

/-- A range of indices, one at a time. -/
theorem range_one (P : Nat → Prop) {i : Nat} : P i ↔ ∀ j, i ≤ j → j ≤ i → P j := by
  constructor
  · intro here j from_ upto
    rwa [Nat.le_antisymm upto from_]
  · exact fun all => all i (Nat.le_refl i) (Nat.le_refl i)

theorem range_step (P : Nat → Prop) {i k : Nat} (more : i + 1 ≤ k) :
    (P i ∧ ∀ j, i + 1 ≤ j → j ≤ k → P j) ↔ ∀ j, i ≤ j → j ≤ k → P j := by
  constructor
  · rintro ⟨here,rest⟩ j from_ upto
    rcases Nat.lt_or_ge i j with after | same
    · exact rest j after upto
    · rwa [Nat.le_antisymm same from_]
  · exact fun all => ⟨all i (Nat.le_refl i) (by omega),fun j from_ upto => all j (by omega) upto⟩

theorem next_out {P : Nat → Prop} {i n : Nat} (here : P i) (out : ∃ j, i ≤ j ∧ j < i + (n + 1) ∧ ¬ P j) :
    ∃ j, i + 1 ≤ j ∧ j < i + 1 + n ∧ ¬ P j := by
  obtain ⟨j,from_,below,fails⟩ := out
  have other : j ≠ i := by
    rintro rfl
    exact fails here
  exact ⟨j,by omega,by omega,fails⟩

theorem strlen_from_reads (sound : Sound m known) (n i : Nat)
    (out : ∃ j, i ≤ j ∧ j < i + n ∧ pg_no (a + BitVec.ofNat 32 j) ∉ known) :
    Reads m known (strlen_from a n i)
      (∀ j, i ≤ j → j ≤ leading (fun i => decide (byte m (a + BitVec.ofNat 32 i) ≠ 0)) n i →
        pg_no (a + BitVec.ofNat 32 j) ∈ known)
      (leading (fun i => decide (byte m (a + BitVec.ofNat 32 i) ≠ 0)) n i) := by
  induction n generalizing i with
  | zero =>
    obtain ⟨j,from_,below,_⟩ := out
    omega
  | succ n ih =>
    rw [strlen_from,leading]
    by_cases ended : byte m (a + BitVec.ofNat 32 i) = 0
    · rw [if_neg (by simpa using ended)]
      refine reads_iff (reads_bind (D := True) (fetch_reads sound _) fun _ => ?_)
        (Iff.trans (iff_of_eq (and_true _)) (range_one fun j => pg_no (a + BitVec.ofNat 32 j) ∈ known))
      rw [if_neg (by simpa using ended)]
      exact reads_pure
    · rw [if_pos (by simpa using ended)]
      refine reads_iff (reads_bind (fetch_reads sound _) fun member => ?_)
        (range_step (fun j => pg_no (a + BitVec.ofNat 32 j) ∈ known) (leading_spec _ n (i + 1)).1)
      rw [if_pos (by simpa using ended)]
      exact ih (i + 1) (next_out member out)

theorem strlen_reads (sound : Sound m known) (nonnull : a ≠ 0) :
    Reads m known (strlen a) (Covered known a (length m a)) (length m a) := by
  rw [strlen,if_neg nonnull]
  obtain ⟨j,below,unknown⟩ := leaves sound a
  refine reads_iff (strlen_from_reads sound (2 ^ 32) 0 ⟨j,Nat.zero_le j,by omega,unknown⟩) ?_
  exact ⟨fun all j upto => all j (Nat.zero_le j) upto,fun all j _ upto => all j upto⟩

/-- The bytes before index `n`, where all of them are on known pages. -/
theorem memcpy_from_obeys (sound : Sound m known) (n i : Nat)
    (all : ∀ j, i ≤ j → j < i + n → pg_no (a + BitVec.ofNat 32 j) ∈ known) :
    Reads m known (memcpy_from a n i) True ((List.range' i n).map fun j => byte m (a + BitVec.ofNat 32 j)) := by
  induction n generalizing i with
  | zero => exact reads_pure
  | succ n ih =>
    rw [memcpy_from]
    have here := all i (Nat.le_refl i) (by omega)
    have rest := ih (i + 1) fun j from_ below => all j (by omega) (by omega)
    refine reads_iff (reads_bind (fetch_reads sound _) fun _ => reads_bind rest fun _ => reads_pure) ?_
    simpa using here

theorem source_reads (sound : Sound m known) (s : Source) (i : Nat) : Reads m known (s.read i) (s.In known i) (s.byte m i) := by
  cases s with
  | user a => exact fetch_reads sound _
  | kernel text => exact reads_pure

def compare (x y : Byte) : Int := if x < y then -1 else if y < x then 1 else 0

theorem difference_reads (sound : Sound m known) (s t : Source) (i : Nat) :
    Reads m known (difference s t i) (s.In known i ∧ t.In known i) (compare (s.byte m i) (t.byte m i)) := by
  refine reads_iff (reads_bind (source_reads sound s i) fun _ => reads_bind (source_reads sound t i) fun _ => reads_pure) ?_
  rw [and_true]

theorem strcmp_from_reads (sound : Sound m known) (t : Source) (n i : Nat)
    (out : ∃ j, i ≤ j ∧ j < i + n ∧ pg_no (a + BitVec.ofNat 32 j) ∉ known) :
    let end_ := leading (fun i => decide ((Source.user a).byte m i ≠ 0) && decide ((Source.user a).byte m i = t.byte m i)) n i
    Reads m known (strcmp_from (.user a) t n i) (∀ j, i ≤ j → j ≤ end_ → (Source.user a).In known j ∧ t.In known j)
      (compare ((Source.user a).byte m end_) (t.byte m end_)) := by
  induction n generalizing i with
  | zero =>
    obtain ⟨j,from_,below,_⟩ := out
    omega
  | succ n ih =>
    intro end_
    let Both := fun j => (Source.user a).In known j ∧ t.In known j
    have reach : end_ = leading _ (n + 1) i := rfl
    rw [leading] at reach
    rw [strcmp_from]
    by_cases ended : (Source.user a).byte m i = 0
    · rw [if_neg (by simp [ended])] at reach
      rw [reach]
      refine reads_iff (reads_bind (D := Both i) (source_reads sound _ i) fun member => ?_) (Iff.trans ?_ (range_one Both))
      · rw [if_neg (by simpa using ended)]
        exact difference_reads sound _ t i
      · exact ⟨fun both => both.2,fun both => ⟨both.1,both⟩⟩
    · by_cases same : (Source.user a).byte m i = t.byte m i
      · rw [if_pos (by simpa using ⟨ended,same⟩)] at reach
        rw [reach]
        refine reads_iff (reads_bind (source_reads sound _ i) fun member => ?_)
          (Iff.trans and_assoc.symm (range_step Both (leading_spec _ n (i + 1)).1))
        rw [if_pos ended]
        refine reads_bind (source_reads sound t i) fun _ => ?_
        rw [if_pos same]
        exact ih (i + 1) (next_out member out)
      · rw [if_neg (by simp [same])] at reach
        rw [reach]
        refine reads_iff (reads_bind (D := t.In known i ∧ Both i) (source_reads sound _ i) fun member => ?_) (Iff.trans ?_ (range_one Both))
        · rw [if_pos ended]
          refine reads_bind (source_reads sound t i) fun _ => ?_
          rw [if_neg same]
          exact difference_reads sound _ t i
        · exact ⟨fun both => both.2.2,fun both => ⟨both.1,both.2,both⟩⟩

theorem strcmp_reads (sound : Sound m known) (t : Source) (nonnull : a ≠ 0) (some : t.null = false) :
    Reads m known (strcmp (.user a) t) (∀ i ≤ agree m (.user a) t, (Source.user a).In known i ∧ t.In known i)
      (compare ((Source.user a).byte m (agree m (.user a) t)) (t.byte m (agree m (.user a) t))) := by
  rw [strcmp,some,if_neg (by simpa [Source.null] using nonnull)]
  obtain ⟨j,below,unknown⟩ := leaves sound a
  refine reads_iff (strcmp_from_reads sound t (2 ^ 32) 0 ⟨j,Nat.zero_le j,by omega,unknown⟩) ?_
  exact ⟨fun all j upto => all j (Nat.zero_le j) upto,fun all j _ upto => all j upto⟩

theorem search_reads {ι : Type} {compare : ι → Kernel Int} {Cond : ι → Prop} {value : ι → Int} (list : List ι)
    (each : ∀ x ∈ list, Reads m known (compare x) (Cond x) (value x)) :
    Reads m known (search compare list) (∀ x ∈ searched (fun x => decide (value x = 0)) list, Cond x)
      (list.find? fun x => decide (value x = 0)) := by
  induction list with
  | nil => exact reads_iff reads_pure (by simp [searched])
  | cons x rest ih =>
    have first := each x List.mem_cons_self
    rw [search,searched,List.find?_cons]
    by_cases equal : value x = 0
    · refine reads_iff (reads_bind (D := True) first fun _ => ?_) (by simp [equal])
      simp only [equal,decide_true,if_true]
      exact reads_pure
    · have later := ih fun y member => each y (List.mem_cons_of_mem x member)
      simp only [equal,decide_false,Bool.false_eq_true,if_false,List.forall_mem_cons]
      refine reads_bind first fun _ => ?_
      rw [if_neg equal]
      exact later

/-! ### Calls -/

/-- The verdict of `strcmp`, from the first byte where the strings part. -/
def equal (m : Memory) (a : Addr) (t : Source) : Bool :=
  decide (compare ((Source.user a).byte m (agree m (.user a) t)) (t.byte m (agree m (.user a) t)) = 0)

theorem obeys_halt {stop : Stop} : checked_pages.Obeys known ((halt stop : Kernel α) m).1 := trivial
theorem obeys_return : checked_pages.Obeys known ((Pure.pure v : Kernel α) m).1 := trivial
theorem obeys_halt_bind {stop : Stop} : checked_pages.Obeys known (((halt stop : Kernel α) >>= f) m).1 := trivial

theorem agree_le_length (m : Memory) (a : Addr) (t : Source) : agree m (.user a) t ≤ length m a := by
  refine leading_mono (fun i both => ?_) (2 ^ 32) 0
  exact (Bool.and_eq_true_iff.mp both).1

theorem covered_mono {i j : Nat} (less : i ≤ j) (covered : Covered known a j) : Covered known a i :=
  fun k upto => covered k (Nat.le_trans upto less)
theorem covered_cons {i : Nat} (covered : Covered known a i) : Covered (p :: known) a i :=
  fun k upto => List.mem_cons_of_mem p (covered k upto)

theorem strlcpy_reads (sound : Sound m known) (nonnull : a ≠ 0) (size : Nat) :
    ∃ copied, Reads m known (strlcpy true a size) (Covered known a (length m a)) copied := by
  rw [strlcpy,if_neg (by simp)]
  by_cases any : size > 0
  · refine ⟨(List.range' 0 (min (length m a) (size - 1))).map fun j => byte m (a + BitVec.ofNat 32 j),
      reads_iff (reads_bind (D := True) (strlen_reads sound nonnull) fun covered => ?_) (iff_of_eq (and_true _))⟩
    · rw [if_pos any]
      exact memcpy_from_obeys sound _ 0 fun j _ below => covered j (by omega)
  · refine ⟨[],reads_iff (reads_bind (D := True) (strlen_reads sound nonnull) fun covered => ?_) (iff_of_eq (and_true _))⟩
    rw [if_neg any]
    exact reads_pure

theorem process_execute_obeys (sound : Sound m known) (nonnull : a ≠ 0) (covered : Covered known a (length m a)) :
    checked_pages.Obeys known (process_execute env a m).1 := by
  rw [process_execute]
  cases env.page with
  | false => exact obeys_return
  | true =>
    obtain ⟨_,first⟩ := strlcpy_reads sound nonnull PGSIZE
    refine (reads_obeys first).mpr ⟨covered,?_⟩
    refine (reads_obeys (strlen_reads sound nonnull)).mpr ⟨covered,?_⟩
    refine (reads_obeys (strlen_reads sound nonnull)).mpr ⟨covered,?_⟩
    cases env.block with
    | false => exact obeys_halt_bind
    | true =>
      obtain ⟨_,second⟩ := strlcpy_reads sound nonnull (length m a + 1)
      exact (reads_obeys second).mpr ⟨covered,obeys_return⟩

theorem exec_obeys (sound : Sound m known) :
    checked_pages.Obeys known (syscall_exec env a m).1 ↔
      (Mapped m.pd a → a ≠ 0 → Covered (pg_no a :: known) a (length m a)) := by
  rw [syscall_exec,obeys_catch]
  refine forall_congr' fun mapped => ?_
  have sound' := sound_cons mapped sound
  by_cases null : a = 0
  · rw [strlen,if_pos null]
    exact ⟨fun _ nonnull => absurd null nonnull,fun _ => obeys_halt_bind⟩
  · rw [reads_obeys (strlen_reads sound' null),obeys_catch]
    constructor
    · exact fun both _ => both.1
    · intro covers
      have covered := covers null
      refine ⟨covered,fun last => ?_⟩
      exact process_execute_obeys (sound_cons last sound') null (covered_cons covered)

theorem lookup_reads (env : Env) (sound : Sound m known) (nonnull : a ≠ 0) :
    ∃ found, Reads m known (lookup env a)
      (∀ e ∈ searched (fun e => equal m a (.kernel e.val)) env.names, Covered known a (agree m (.user a) (.kernel e.val))) found := by
  rw [lookup,if_neg nonnull]
  refine ⟨_,reads_iff (reads_bind (D := True) (search_reads env.names fun e _ => strcmp_reads sound (.kernel e.val) nonnull rfl)
    fun _ => reads_pure) ?_⟩
  rw [and_true]
  refine forall_congr' fun e => forall_congr' fun _ => ?_
  exact forall_congr' fun i => forall_congr' fun _ => iff_of_eq (and_true _)

theorem lookup_obeys (sound : Sound m known) :
    checked_pages.Obeys known (lookup env a m).1 ↔
      (a ≠ 0 → ∀ e ∈ searched (fun e => equal m a (.kernel e.val)) env.names,
        Covered known a (agree m (.user a) (.kernel e.val))) := by
  by_cases null : a = 0
  · rw [lookup,if_pos null]
    exact ⟨fun _ nonnull => absurd null nonnull,fun _ => obeys_halt⟩
  · obtain ⟨_,reads⟩ := lookup_reads env sound null
    exact ⟨fun obeys _ => reads.1 obeys,fun covers => (reads.2 (covers null)).1⟩

theorem add_zero_addr (a : Addr) : a + BitVec.ofNat 32 0 = a := BitVec.add_zero a

theorem dir_add_obeys (sound : Sound m known) (nonnull : a ≠ 0) (first : pg_no a ∈ known) (some : byte m a ≠ 0) :
    checked_pages.Obeys known (dir_add env a m).1 ↔ Covered known a (length m a) := by
  rw [dir_add,if_neg nonnull,reads_obeys (fetch_reads sound a),if_neg some,reads_obeys (strlen_reads sound nonnull)]
  refine ⟨fun both => both.2.1,fun covered => ⟨first,covered,?_⟩⟩
  by_cases long : length m a > NAME_MAX
  · rw [if_pos long]
    exact obeys_return
  · rw [if_neg long]
    obtain ⟨found,reads⟩ := lookup_reads env sound nonnull
    refine (reads_obeys reads).mpr ⟨fun e _ => covered_mono (agree_le_length m a _) covered,?_⟩
    cases found with
    | true => exact obeys_return
    | false =>
      obtain ⟨_,copied⟩ := strlcpy_reads sound nonnull (NAME_MAX + 1)
      exact (reads_obeys copied).mpr ⟨covered,obeys_return⟩

/-- A comparison with the empty string looks at the first byte only. -/
theorem strcmp_empty (sound : Sound m known) (nonnull : a ≠ 0) (first : pg_no a ∈ known) :
    Reads m known (strcmp (.user a) (.kernel [])) True (compare (byte m a) 0) := by
  have none : agree m (.user a) (.kernel []) = 0 := by
    show leading _ (2 ^ 32 - 1 + 1) 0 = 0
    rw [leading,if_neg]
    intro both
    obtain ⟨some,same⟩ := Bool.and_eq_true_iff.mp both
    exact of_decide_eq_true some (of_decide_eq_true same)
  have same : (Source.user a).byte m 0 = byte m a := congrArg (byte m) (add_zero_addr a)
  have reads := strcmp_reads sound (.kernel []) nonnull rfl
  rw [none,same] at reads
  refine reads_iff reads (iff_of_true (fun i upto => ⟨?_,trivial⟩) trivial)
  rw [Nat.le_zero.mp upto]
  show pg_no _ ∈ known
  rwa [add_zero_addr]

theorem compare_eq_zero {x y : Byte} : UserReads.compare x y = 0 ↔ x = y := by
  unfold UserReads.compare
  split
  · next less => exact iff_of_false (by decide) (BitVec.ne_of_lt less)
  · split
    · next more => exact iff_of_false (by decide) (Ne.symm (BitVec.ne_of_lt more))
    · next not_less not_more => exact iff_of_true rfl (BitVec.le_antisymm (BitVec.not_lt.mp not_more) (BitVec.not_lt.mp not_less))

/-- The steps that `syscall_create` and `syscall_open` begin with: what follows them runs
    for a string that is not empty and whose first byte is mapped. -/
theorem string_obeys {empty rest : Kernel β} (sound : Sound m known) (nonnull : a ≠ 0)
    (harmless : checked_pages.Obeys (pg_no a :: known) (empty m).1) :
    checked_pages.Obeys known ((do
      let valid ← is_valid_addr a
      if !valid then syscall_exit (-1)
      else
        let c ← strcmp (.user a) (.kernel [])
        if c = 0 then empty else rest) m).1 ↔
      (Mapped m.pd a → byte m a ≠ 0 → checked_pages.Obeys (pg_no a :: known) (rest m).1) := by
  rw [obeys_valid]
  by_cases mapped : Mapped m.pd a
  · rw [if_pos mapped,if_neg (by simp),reads_obeys (strcmp_empty (sound_cons mapped sound) nonnull List.mem_cons_self)]
    by_cases none : byte m a = 0
    · rw [if_pos (compare_eq_zero.mpr none)]
      exact ⟨fun _ _ some => absurd none some,fun _ => ⟨trivial,harmless⟩⟩
    · rw [if_neg (mt compare_eq_zero.mp none)]
      exact ⟨fun both _ _ => both.2,fun obeys => ⟨trivial,obeys mapped none⟩⟩
  · rw [if_neg mapped,if_pos (by simp)]
    exact ⟨fun _ holds => absurd holds mapped,fun _ => obeys_halt⟩

theorem create_obeys (sound : Sound m known) (initial_size : BitVec 32) :
    checked_pages.Obeys known (syscall_create env a initial_size m).1 ↔
      (a ≠ 0 → Mapped m.pd a → byte m a ≠ 0 → env.root = true → env.room initial_size = true →
        Covered (pg_no a :: known) a (length m a)) := by
  rw [syscall_create]
  by_cases null : a = 0
  · rw [if_pos null]
    exact ⟨fun _ nonnull => absurd null nonnull,fun _ => obeys_halt⟩
  · have exits : checked_pages.Obeys (pg_no a :: known) ((syscall_exit (-1) : Kernel Bool) m).1 := obeys_halt
    rw [if_neg null,string_obeys sound null exits]
    refine ⟨fun all _ mapped some => ?_,fun all mapped some => ?_⟩
    · have obeys := all mapped some
      intro root room
      rw [filesys_create,if_pos (by rw [root,room]; rfl)] at obeys
      exact (dir_add_obeys (sound_cons mapped sound) null List.mem_cons_self some).mp obeys
    · have covers := all null mapped some
      rw [filesys_create]
      cases root : env.root with
      | false => exact obeys_return
      | true =>
        cases room : env.room initial_size with
        | false => exact obeys_return
        | true => exact (dir_add_obeys (sound_cons mapped sound) null List.mem_cons_self some).mpr (covers root room)

theorem remove_obeys (sound : Sound m known) :
    checked_pages.Obeys known (syscall_remove env a m).1 ↔
      (env.root = true → a ≠ 0 → ∀ e ∈ searched (fun e => equal m a (.kernel e.val)) env.names,
        Covered known a (agree m (.user a) (.kernel e.val))) := by
  rw [syscall_remove,filesys_remove]
  cases env.root with
  | false => exact ⟨(fun _ root => by cases root),fun _ => obeys_return⟩
  | true =>
    rw [if_pos rfl,lookup_obeys sound]
    exact ⟨fun covers _ => covers,fun covers => covers rfl⟩

theorem mapping_reads (env : Env) (sound : Sound m known) (nonnull : a ≠ 0) :
    ∃ found, Reads m known (find_mapping_by_name env a)
      (∀ ffn ∈ searched (fun ffn => equal m ffn.name (.user a)) env.fd_name_mapping,
        Covered known ffn.name (agree m (.user ffn.name) (.user a)) ∧
        Covered known a (agree m (.user ffn.name) (.user a))) found := by
  refine ⟨_,reads_iff (search_reads env.fd_name_mapping fun ffn _ =>
    strcmp_reads sound (.user a) ffn.named (beq_eq_false_iff_ne.mpr nonnull)) ?_⟩
  refine forall_congr' fun ffn => forall_congr' fun _ => ?_
  exact ⟨fun both => ⟨fun i upto => (both i upto).1,fun i upto => (both i upto).2⟩,
    fun both i upto => ⟨both.1 i upto,both.2 i upto⟩⟩

theorem open_obeys (sound : Sound m known) :
    checked_pages.Obeys known (syscall_open env a m).1 ↔
      (a ≠ 0 → Mapped m.pd a → byte m a ≠ 0 →
        (∀ ffn ∈ searched (fun ffn => equal m ffn.name (.user a)) env.fd_name_mapping,
          Covered (pg_no a :: known) ffn.name (agree m (.user ffn.name) (.user a)) ∧
          Covered (pg_no a :: known) a (agree m (.user ffn.name) (.user a))) ∧
        (env.root = true → ∀ e ∈ searched (fun e => equal m a (.kernel e.val)) env.names,
          Covered (pg_no a :: known) a (agree m (.user a) (.kernel e.val)))) := by
  rw [syscall_open]
  by_cases null : a = 0
  · rw [if_pos null]
    exact ⟨fun _ nonnull => absurd null nonnull,fun _ => obeys_halt⟩
  · have returns : checked_pages.Obeys (pg_no a :: known) ((Pure.pure false : Kernel Bool) m).1 := obeys_return
    rw [if_neg null,string_obeys sound null returns]
    refine ⟨fun all _ mapped some => ?_,fun all mapped some => ?_⟩
    · have sound' := sound_cons mapped sound
      obtain ⟨_,found⟩ := mapping_reads env sound' null
      obtain ⟨covers,later⟩ := (reads_obeys found).mp (all mapped some)
      refine ⟨covers,fun root => ?_⟩
      rw [filesys_open,if_pos root] at later
      exact (lookup_obeys sound').mp later null
    · have sound' := sound_cons mapped sound
      obtain ⟨_,found⟩ := mapping_reads env sound' null
      obtain ⟨covers,later⟩ := all null mapped some
      refine (reads_obeys found).mpr ⟨covers,?_⟩
      rw [filesys_open]
      cases root : env.root with
      | false => exact obeys_return
      | true => exact (lookup_obeys sound').mpr fun _ => later root

/-! ### The handler -/

/-- A word at this address does not reach into the next page. -/
def InPage (a : Addr) : Prop := pg_no (a + 3) = pg_no a

/-- What the reads of a path stay on, after the checks of the arguments. -/
def PathKept (m : Memory) (env : Env) (known : List (BitVec 32)) (file initial_size : BitVec 32) : Nr → Prop
  | .SYS_EXEC => Mapped m.pd file → file ≠ 0 → Covered (pg_no file :: known) file (length m file)
  | .SYS_CREATE => file ≠ 0 → Mapped m.pd file → byte m file ≠ 0 → env.root = true → env.room initial_size = true →
      Covered (pg_no file :: known) file (length m file)
  | .SYS_REMOVE => env.root = true → file ≠ 0 → ∀ e ∈ searched (fun e => equal m file (.kernel e.val)) env.names,
      Covered known file (agree m (.user file) (.kernel e.val))
  | .SYS_OPEN => file ≠ 0 → Mapped m.pd file → byte m file ≠ 0 →
      (∀ ffn ∈ searched (fun ffn => equal m ffn.name (.user file)) env.fd_name_mapping,
        Covered (pg_no file :: known) ffn.name (agree m (.user ffn.name) (.user file)) ∧
        Covered (pg_no file :: known) file (agree m (.user ffn.name) (.user file))) ∧
      (env.root = true → ∀ e ∈ searched (fun e => equal m file (.kernel e.val)) env.names,
        Covered (pg_no file :: known) file (agree m (.user file) (.kernel e.val)))
  | _ => True

/-- Where the last argument is. -/
def Nr.last_argument : Nr → Option Addr
  | .SYS_HALT => none
  | .SYS_CREATE | .SYS_SEEK => some 8
  | .SYS_READ | .SYS_WRITE => some 12
  | _ => some 4

/-- The number and the last argument do not cross a page, and what is read of a path is
    on the pages that were checked: those of the number, of the last argument and, except
    in `SYS_REMOVE`, of the first byte of the path. -/
def Kept (m : Memory) (env : Env) (esp : Addr) : Prop :=
  Mapped m.pd esp → InPage esp ∧ ∀ nr, Nr.of_word (word m esp) = some nr → ∀ k, nr.last_argument = some k →
    Mapped m.pd (esp + k) → InPage (esp + k) ∧ PathKept m env [pg_no (esp + k),pg_no esp] (word m (esp + 4)) (word m (esp + 8)) nr

/-- Addresses less than a page apart are on two pages at most. -/
theorem page_between {c : Addr} (low : a.toNat ≤ c.toNat) (high : c.toNat ≤ b.toNat) (near : b.toNat < a.toNat + 4096) :
    pg_no c = pg_no b ∨ pg_no c = pg_no a := by
  rcases (show c.toNat / 4096 = b.toNat / 4096 ∨ c.toNat / 4096 = a.toNat / 4096 by omega) with same | same
  · exact .inl (BitVec.eq_of_toNat_eq (by rw [pg_no_eq,pg_no_eq,same]))
  · exact .inr (BitVec.eq_of_toNat_eq (by rw [pg_no_eq,pg_no_eq,same]))

variable {j k : Addr}

theorem inner_word_reads (user : Mapped m.pd esp) (sound : Sound m [pg_no (esp + k),pg_no esp]) (order : j.toNat + 4 ≤ k.toNat)
    (short : k.toNat ≤ 12) : Reads m [pg_no (esp + k),pg_no esp] (fetch_word (esp + j)) True (word m (esp + j)) := by
  have low := user_lt.mp user.1
  have inside {c : Addr} (from_ : esp.toNat ≤ c.toNat) (upto : c.toNat ≤ esp.toNat + k.toNat) :
      pg_no c ∈ [pg_no (esp + k),pg_no esp] := by
    rcases page_between (a := esp) (b := esp + k) from_ (by bv_omega) (by bv_omega) with same | same <;> simp [same]
  refine reads_iff (fetch_word_reads sound _) (iff_of_true ⟨?_,?_,?_,?_⟩ trivial)
  · exact inside (by bv_omega) (by bv_omega)
  · exact inside (by bv_omega) (by bv_omega)
  · exact inside (by bv_omega) (by bv_omega)
  · exact inside (by bv_omega) (by bv_omega)

theorem last_word_reads (user : Mapped m.pd esp) (sound : Sound m [pg_no (esp + k),pg_no esp]) (short : k.toNat ≤ 12) :
    Reads m [pg_no (esp + k),pg_no esp] (fetch_word (esp + k)) (InPage (esp + k)) (word m (esp + k)) := by
  have low := user_lt.mp user.1
  refine reads_iff (fetch_word_reads sound _) ⟨fun all => ?_,fun same => ?_⟩
  · have last := all.2.2.2
    simp only [List.mem_cons,List.not_mem_nil,or_false] at last
    rcases last with same | back
    · exact same
    · have number := congrArg BitVec.toNat back
      rw [pg_no_eq,pg_no_eq] at number
      refine BitVec.eq_of_toNat_eq ?_
      rw [pg_no_eq,pg_no_eq]
      have start : (esp + k).toNat = esp.toNat + k.toNat := by bv_omega
      have stop : (esp + k + 3).toNat = esp.toNat + k.toNat + 3 := by bv_omega
      omega
  · have inside {c : Addr} (from_ : (esp + k).toNat ≤ c.toNat) (upto : c.toNat ≤ (esp + k + 3).toNat) :
        pg_no c ∈ [pg_no (esp + k),pg_no esp] := by
      rcases page_between from_ upto (by bv_omega) with here | here
      · simp [here,same.symm ▸ here]
        exact .inl same
      · simp [here]
    exact ⟨List.mem_cons_self,inside (by bv_omega) (by bv_omega),inside (by bv_omega) (by bv_omega),inside (by bv_omega) (by bv_omega)⟩

theorem one_argument_obeys {rest : BitVec 32 → Kernel α} (user : Mapped m.pd esp) :
    checked_pages.Obeys [pg_no esp] (one_argument esp rest m).1 ↔
      (Mapped m.pd (esp + 4) → InPage (esp + 4) ∧
        checked_pages.Obeys [pg_no (esp + 4),pg_no esp] (rest (word m (esp + 4)) m).1) := by
  rw [one_argument,obeys_catch]
  refine forall_congr' fun mapped => ?_
  exact reads_obeys (last_word_reads user (sound_cons mapped (sound_cons user sound_nil)) (by decide))

theorem two_arguments_obeys {rest : BitVec 32 → BitVec 32 → Kernel α} (user : Mapped m.pd esp) :
    checked_pages.Obeys [pg_no esp] (two_arguments esp rest m).1 ↔
      (Mapped m.pd (esp + 8) → InPage (esp + 8) ∧
        checked_pages.Obeys [pg_no (esp + 8),pg_no esp] (rest (word m (esp + 4)) (word m (esp + 8)) m).1) := by
  rw [two_arguments,obeys_catch]
  refine forall_congr' fun mapped => ?_
  have sound := sound_cons mapped (sound_cons user sound_nil)
  rw [reads_obeys (inner_word_reads user sound (by decide) (by decide)),true_and]
  exact reads_obeys (last_word_reads user sound (by decide))

theorem three_arguments_obeys {rest : BitVec 32 → BitVec 32 → BitVec 32 → Kernel α} (user : Mapped m.pd esp) :
    checked_pages.Obeys [pg_no esp] (three_arguments esp rest m).1 ↔
      (Mapped m.pd (esp + 12) → InPage (esp + 12) ∧
        checked_pages.Obeys [pg_no (esp + 12),pg_no esp]
          (rest (word m (esp + 4)) (word m (esp + 8)) (word m (esp + 12)) m).1) := by
  rw [three_arguments,obeys_catch]
  refine forall_congr' fun mapped => ?_
  have sound := sound_cons mapped (sound_cons user sound_nil)
  rw [reads_obeys (inner_word_reads user sound (by decide) (by decide)),true_and,
    reads_obeys (inner_word_reads user sound (by decide) (by decide)),true_and]
  exact reads_obeys (last_word_reads user sound (by decide))

theorem dispatch_obeys (user : Mapped m.pd esp) (nr : Nr) :
    checked_pages.Obeys [pg_no esp] (dispatch env esp (some nr) m).1 ↔
      ∀ k, nr.last_argument = some k → Mapped m.pd (esp + k) →
        InPage (esp + k) ∧ PathKept m env [pg_no (esp + k),pg_no esp] (word m (esp + 4)) (word m (esp + 8)) nr := by
  have sound {k : Addr} (mapped : Mapped m.pd (esp + k)) : Sound m [pg_no (esp + k),pg_no esp] :=
    sound_cons mapped (sound_cons user sound_nil)
  cases nr with
  | SYS_HALT => exact iff_of_true obeys_return fun k none => by cases none
  | SYS_EXEC =>
    rw [dispatch,one_argument_obeys user]
    simp only [Nr.last_argument,Option.some.injEq,forall_eq',PathKept]
    exact forall_congr' fun mapped => and_congr_right fun _ => Iff.trans obeys_map (exec_obeys (sound mapped))
  | SYS_CREATE =>
    rw [dispatch,two_arguments_obeys user]
    simp only [Nr.last_argument,Option.some.injEq,forall_eq',PathKept]
    exact forall_congr' fun mapped => and_congr_right fun _ => Iff.trans obeys_map (create_obeys (sound mapped) _)
  | SYS_REMOVE =>
    rw [dispatch,one_argument_obeys user]
    simp only [Nr.last_argument,Option.some.injEq,forall_eq',PathKept]
    exact forall_congr' fun mapped => and_congr_right fun _ => Iff.trans obeys_map (remove_obeys (sound mapped))
  | SYS_OPEN =>
    rw [dispatch,one_argument_obeys user]
    simp only [Nr.last_argument,Option.some.injEq,forall_eq',PathKept]
    exact forall_congr' fun mapped => and_congr_right fun _ => Iff.trans obeys_map (open_obeys (sound mapped))
  | SYS_SEEK =>
    rw [dispatch,two_arguments_obeys user]
    simp [Nr.last_argument,PathKept]
  | SYS_READ | SYS_WRITE =>
    rw [dispatch,three_arguments_obeys user]
    simp [Nr.last_argument,PathKept]
  | SYS_EXIT | SYS_WAIT | SYS_FILESIZE | SYS_TELL | SYS_CLOSE =>
    rw [dispatch,one_argument_obeys user]
    simp [Nr.last_argument,PathKept]

theorem handler_obeys : checked_pages.Obeys [] (syscall_handler env esp m).1 ↔ Kept m env esp := by
  rw [syscall_handler,obeys_catch]
  refine forall_congr' fun user => ?_
  have sound := sound_cons user (sound_nil (m := m))
  have number : Reads m [pg_no esp] (fetch_word esp) (InPage esp) (word m esp) := by
    refine reads_iff (fetch_word_reads sound esp) ?_
    simp only [List.mem_singleton,true_and]
    refine ⟨fun all => all.2.2,fun same => ?_⟩
    have low := user_lt.mp user.1
    have inside {c : Addr} (from_ : esp.toNat ≤ c.toNat) (upto : c.toNat ≤ (esp + 3).toNat) : pg_no c = pg_no esp := by
      rcases page_between from_ upto (by bv_omega) with here | here
      · exact here.trans same
      · exact here
    exact ⟨inside (by bv_omega) (by bv_omega),inside (by bv_omega) (by bv_omega),same⟩
  rw [reads_obeys number]
  refine and_congr_right fun _ => ?_
  cases Nr.of_word (word m esp) with
  | none => exact iff_of_true obeys_return fun nr none => by cases none
  | some nr =>
    rw [dispatch_obeys user]
    simp only [Option.some.injEq,forall_eq']

/-! ### Termination -/

/-- The log tells what the page directory says. No check fails, or the last event is the
    only check that does and the process exits. -/
structure Ends (x : Kernel α) (m : Memory) : Prop where
  honest : ∀ b passed, .check b passed ∈ (x m).1 → passed = UserMemory.is_valid_addr m.pd b
  last : (∀ b, .check b false ∉ (x m).1) ∨
    ∃ before b, (x m).1 = before ++ [.check b false] ∧ (∀ c, .check c false ∉ before) ∧ (x m).2 = .error (.exit (-1))

theorem ends_terminated {x : Kernel α} (ends : Ends x m) : Terminated (x m).1 (x m).2 := by
  intro before b after split
  rcases ends.last with quiet | ⟨first,c,log,quiet,exits⟩
  · exact absurd (by rw [split]; simp) (quiet b)
  · refine ⟨?_,exits⟩
    rw [log] at split
    rcases List.append_eq_append_iff.mp split with ⟨more,_,rest⟩ | ⟨more,more_first,rest⟩
    · cases more with
      | nil =>
        cases rest
        rfl
      | cons e more => cases more <;> cases rest
    · cases more with
      | nil =>
        cases rest
        rfl
      | cons e more =>
        obtain ⟨same,_⟩ := List.cons.inj rest
        exact absurd (by rw [more_first,← same]; simp) (quiet b)

theorem ends_mapped (ends : Ends x m) (b : Addr) (checked : .check b true ∈ (x m).1) : Mapped m.pd b :=
  (is_valid_addr_spec m.pd b).mp (ends.honest b true checked).symm

theorem ends_quiet (quiet : ∀ b passed, .check b passed ∉ (x m).1) : Ends x m :=
  ⟨fun b passed member => absurd member (quiet b passed),.inl fun b => quiet b false⟩
theorem ends_pure : Ends (Pure.pure v : Kernel α) m := ends_quiet fun b _ member => by cases member
theorem ends_halt {stop : Stop} : Ends (halt stop : Kernel α) m := ends_quiet fun b _ member => by cases member
theorem ends_fetch : Ends (fetch a) m := ends_quiet fun b _ member => by cases List.mem_singleton.mp member

theorem ends_bind (ends : Ends x m) (later : ∀ v, Ends (f v) m) : Ends (x >>= f) m := by
  obtain ⟨honest,last⟩ := ends
  rcases ran : x m with ⟨log,stop | v⟩
  · rw [ran] at honest last
    refine ⟨by rwa [run_bind_error ran],?_⟩
    rw [run_bind_error ran]
    rcases last with quiet | ⟨before,b,log,calm,exits⟩
    · exact .inl quiet
    · exact .inr ⟨before,b,log,calm,by cases exits; rfl⟩
  · rw [ran] at honest last
    have quiet : ∀ b, .check b false ∉ log := by
      rcases last with quiet | ⟨_,_,_,_,exits⟩
      · exact quiet
      · cases exits
    obtain ⟨honest',last'⟩ := later v
    constructor
    · rw [run_bind_ok ran]
      exact fun b passed member => (List.mem_append.mp member).elim (honest b passed) (honest' b passed)
    · rw [run_bind_ok ran]
      rcases last' with calm | ⟨before,b,last,calm,exits⟩
      · exact .inl fun b member => (List.mem_append.mp member).elim (quiet b) (calm b)
      · refine .inr ⟨log ++ before,b,?_,fun c member => (List.mem_append.mp member).elim (quiet c) (calm c),exits⟩
        rw [last,List.append_assoc]

theorem ends_valid {rest : Kernel β} (ends : Ends rest m) :
    Ends (do
      let valid ← is_valid_addr a
      if !valid then syscall_exit (-1) else rest) m := by
  have ran : is_valid_addr a m = ([.check a (UserMemory.is_valid_addr m.pd a)],.ok (UserMemory.is_valid_addr m.pd a)) := rfl
  constructor
  · intro b passed member
    rw [run_bind_ok ran] at member
    rcases List.mem_cons.mp member with same | later
    · cases same
      rfl
    · cases valid : UserMemory.is_valid_addr m.pd a with
      | false =>
        rw [valid] at later
        cases later
      | true =>
        rw [valid] at later
        exact ends.honest b passed later
  · rw [run_bind_ok ran]
    cases UserMemory.is_valid_addr m.pd a with
    | false => exact .inr ⟨[],a,rfl,(fun c member => by cases member),rfl⟩
    | true =>
      rcases ends.last with calm | ⟨before,b,last,calm,exits⟩
      · refine .inl fun b member => ?_
        rcases List.mem_cons.mp member with same | later
        · cases same
        · exact calm b later
      · refine .inr ⟨.check a true :: before,b,congrArg (List.cons _) last,fun c member => ?_,exits⟩
        rcases List.mem_cons.mp member with same | later
        · cases same
        · exact calm c later

theorem ends_catch : Ends (catch_addr_error a) m := ends_valid ends_pure

theorem ends_ite {c : Prop} [Decidable c] {y : Kernel α} (yes : Ends x m) (no : Ends y m) : Ends (if c then x else y) m := by
  split
  · exact yes
  · exact no

theorem ends_fetch_word : Ends (fetch_word a) m :=
  ends_bind ends_fetch fun _ => ends_bind ends_fetch fun _ => ends_bind ends_fetch fun _ => ends_bind ends_fetch fun _ => ends_pure

theorem ends_source (s : Source) (i : Nat) : Ends (s.read i) m := by
  cases s with
  | user a => exact ends_fetch
  | kernel text => exact ends_pure

theorem ends_strlen : Ends (strlen a) m := by
  have loop (n i : Nat) : Ends (strlen_from a n i) m := by
    induction n generalizing i with
    | zero => exact ends_halt
    | succ n ih => exact ends_bind ends_fetch fun _ => ends_ite (ih (i + 1)) ends_pure
  exact ends_ite ends_halt (loop _ 0)

theorem ends_strlcpy (dst : Bool) (size : Nat) : Ends (strlcpy dst a size) m := by
  have loop (n i : Nat) : Ends (memcpy_from a n i) m := by
    induction n generalizing i with
    | zero => exact ends_pure
    | succ n ih => exact ends_bind ends_fetch fun _ => ends_bind (ih (i + 1)) fun _ => ends_pure
  exact ends_ite ends_halt (ends_bind ends_strlen fun _ => ends_ite (loop _ 0) ends_pure)

theorem ends_strcmp (s t : Source) : Ends (strcmp s t) m := by
  have part (i : Nat) : Ends (difference s t i) m :=
    ends_bind (ends_source s i) fun _ => ends_bind (ends_source t i) fun _ => ends_pure
  have loop (n i : Nat) : Ends (strcmp_from s t n i) m := by
    induction n generalizing i with
    | zero => exact ends_halt
    | succ n ih =>
      exact ends_bind (ends_source s i) fun _ => ends_ite (ends_bind (ends_source t i) fun _ => ends_ite (ih (i + 1)) (part i)) (part i)
  exact ends_ite ends_halt (loop _ 0)

theorem ends_search {ι : Type} {compare : ι → Kernel Int} (each : ∀ x, Ends (compare x) m) (list : List ι) :
    Ends (search compare list) m := by
  induction list with
  | nil => exact ends_pure
  | cons x rest ih => exact ends_bind (each x) fun _ => ends_ite ends_pure ih

theorem ends_lookup : Ends (lookup env a) m :=
  ends_ite ends_halt (ends_bind (ends_search (fun _ => ends_strcmp _ _) _) fun _ => ends_pure)

theorem ends_exec : Ends (syscall_exec env a) m := by
  have executes : Ends (process_execute env a) m :=
    ends_ite ends_pure (ends_bind (ends_strlcpy _ _) fun _ => ends_bind ends_strlen fun _ => ends_bind ends_strlen fun _ =>
      ends_bind (ends_strlcpy _ _) fun _ => ends_pure)
  exact ends_bind ends_catch fun _ => ends_bind ends_strlen fun _ => ends_bind ends_catch fun _ => executes

theorem ends_create (initial_size : BitVec 32) : Ends (syscall_create env a initial_size) m := by
  have adds : Ends (dir_add env a) m :=
    ends_ite ends_halt (ends_bind ends_fetch fun _ => ends_ite ends_pure (ends_bind ends_strlen fun _ => ends_ite ends_pure
      (ends_bind ends_lookup fun _ => ends_ite ends_pure (ends_bind (ends_strlcpy _ _) fun _ => ends_pure))))
  exact ends_ite ends_halt (ends_valid (ends_bind (ends_strcmp _ _) fun _ => ends_ite ends_halt (ends_ite adds ends_pure)))

theorem ends_open : Ends (syscall_open env a) m :=
  ends_ite ends_halt (ends_valid (ends_bind (ends_strcmp _ _) fun _ => ends_ite ends_pure
    (ends_bind (ends_search (fun _ => ends_strcmp _ _) _) fun _ => ends_ite ends_lookup ends_pure)))

theorem ends_handler : Ends (syscall_handler env esp) m := by
  refine ends_bind ends_catch fun _ => ends_bind ends_fetch_word fun number => ?_
  have one {rest : BitVec 32 → Kernel Action} (later : ∀ x, Ends (rest x) m) : Ends (one_argument esp rest) m :=
    ends_bind ends_catch fun _ => ends_bind ends_fetch_word later
  have two {rest : BitVec 32 → BitVec 32 → Kernel Action} (later : ∀ x y, Ends (rest x y) m) : Ends (two_arguments esp rest) m :=
    ends_bind ends_catch fun _ => ends_bind ends_fetch_word fun x => ends_bind ends_fetch_word (later x)
  have three {rest : BitVec 32 → BitVec 32 → BitVec 32 → Kernel Action} (later : ∀ x y z, Ends (rest x y z) m) :
      Ends (three_arguments esp rest) m :=
    ends_bind ends_catch fun _ => ends_bind ends_fetch_word fun x => ends_bind ends_fetch_word fun y => ends_bind ends_fetch_word (later x y)
  cases Nr.of_word number with
  | none => exact ends_pure
  | some nr =>
    cases nr with
    | SYS_HALT => exact ends_pure
    | SYS_EXEC => exact one fun _ => ends_bind ends_exec fun _ => ends_pure
    | SYS_CREATE => exact two fun _ _ => ends_bind (ends_create _) fun _ => ends_pure
    | SYS_REMOVE => exact one fun _ => ends_bind (ends_ite ends_lookup ends_pure) fun _ => ends_pure
    | SYS_OPEN => exact one fun _ => ends_bind ends_open fun _ => ends_pure
    | SYS_SEEK => exact two fun _ _ => ends_pure
    | SYS_READ | SYS_WRITE => exact three fun _ _ _ => ends_pure
    | SYS_EXIT | SYS_WAIT | SYS_FILESIZE | SYS_TELL | SYS_CLOSE => exact one fun _ => ends_pure

/-! ### Checked calls -/

/-- Every byte that the handler reads was checked, and the process exits with -1 before a
    read that was not, exactly for the calls that `Kept` describes. -/
theorem call_reads_checked_iff (m : Memory) (env : Env) (esp : Addr) :
    (Established m.pd (syscall_handler env esp m).1 ∧ Terminated (syscall_handler env esp m).1 (syscall_handler env esp m).2) ↔
      Kept m env esp := by
  rw [established_iff (ends_mapped ends_handler),handler_obeys]
  exact and_iff_left (ends_terminated ends_handler)

/-- A process with one page, whose bytes are zero but for those given by their offsets. -/
def one_page (bytes : List (Addr × Byte)) : Memory where
  pd := one_table fun j => j == 0x4a
  ram a := (bytes.lookup (pg_ofs a)).getD 0

/-- A root directory with one file, and no file open. -/
def one_file : Env where
  page := true
  block := true
  root := true
  room _ := true
  names := [⟨[97],by decide⟩]
  fd_name_mapping := []
  pid := 3

/-- `remove` of a string on a page that is not mapped, and a number that crosses into
    such a page: the kernel reads, and faults. -/
theorem unchecked_reads :
    ¬ Established (one_page [(0,5),(7,0x10)]).pd (syscall_handler one_file 0x0804a000 (one_page [(0,5),(7,0x10)])).1 ∧
    ¬ Established (one_page []).pd (syscall_handler one_file 0x0804affe (one_page [])).1 := by
  constructor
  · intro established
    have log : (syscall_handler one_file 0x0804a000 (one_page [(0,5),(7,0x10)])).1 =
        [.check 0x0804a000 true,.fetch 0x0804a000,.fetch 0x0804a001,.fetch 0x0804a002,.fetch 0x0804a003,
          .check 0x0804a004 true,.fetch 0x0804a004,.fetch 0x0804a005,.fetch 0x0804a006,.fetch 0x0804a007] ++ .fetch 0x10000000 :: [] := by
      decide +kernel
    exact absurd (established _ _ _ log).1 (by decide)
  · intro established
    have log : (syscall_handler one_file 0x0804affe (one_page [])).1 =
        [.check 0x0804affe true,.fetch 0x0804affe,.fetch 0x0804afff] ++ .fetch 0x0804b000 :: [] := by
      decide +kernel
    exact absurd (established _ _ _ log).1 (by decide)

end Pintos.UserReads
