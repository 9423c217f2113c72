import Mathlib.Data.List.Basic
import Mathlib.Tactic.Common

/-!
The sorting routine of `lib/kernel/list.c`, at the level of the sequence that a
list holds. `list_sort` is the source's natural merge sort: each pass merges
adjacent runs pairwise, and passes repeat until one of them outputs a single
run. Loops of the source run on fuel here, and `list_sort_sorted` shows that the
fuel given to them is enough.
-/
namespace Pintos.Lists
set_option linter.unusedSimpArgs false
universe u
variable {α : Type u} (less : α → α → Bool)

/-- `find_end_of_run`: the first run of elements, none of which is less than the
    one before it, and what follows that run. -/
def find_end_of_run : List α → List α × List α
  | [] => ([],[])
  | [a] => ([a],[])
  | a :: b :: rest =>
    if less b a then ([a],b :: rest)
    else (a :: (find_end_of_run (b :: rest)).1,(find_end_of_run (b :: rest)).2)

/-- The loop of `inplace_merge`: the front of the second run is taken when it is
    less than the front of the first. -/
def mergeLoop : Nat → List α → List α → List α
  | 0, as, bs => as ++ bs
  | _ + 1, [], bs => bs
  | _ + 1, as, [] => as
  | n + 1, a :: as, b :: bs =>
    if !less b a then a :: mergeLoop n as (b :: bs) else b :: mergeLoop n (a :: as) bs

def inplace_merge (as bs : List α) : List α := mergeLoop less (as.length + bs.length) as bs

/-- One pass of `list_sort`: the number of runs it outputs and the new list. -/
def sortPass : Nat → List α → Nat × List α
  | 0, xs => (0,xs)
  | _ + 1, [] => (0,[])
  | n + 1, a :: xs =>
    let first := find_end_of_run less (a :: xs)
    match first.2 with
    | [] => (1,first.1)
    | b :: rest =>
      let second := find_end_of_run less (b :: rest)
      let later := sortPass n second.2
      (later.1 + 1,inplace_merge less first.1 second.1 ++ later.2)

def sortLoop : Nat → List α → List α
  | 0, xs => xs
  | n + 1, xs =>
    let pass := sortPass less (xs.length + 1) xs
    if pass.1 > 1 then sortLoop n pass.2 else pass.2

def list_sort (xs : List α) : List α := sortLoop less (xs.length + 1) xs

/-- In order: no element is less than one before it. -/
def Sorted (xs : List α) : Prop := xs.Pairwise (fun a b => less b a = false)

/-! ### Nothing is lost -/

theorem find_end_of_run_append (xs : List α) :
    (find_end_of_run less xs).1 ++ (find_end_of_run less xs).2 = xs := by
  induction xs using find_end_of_run.induct less with
  | case1 => rfl
  | case2 a => rfl
  | case3 a b rest descends => simp [find_end_of_run,descends]
  | case4 a b rest ascends ih =>
    simp only [find_end_of_run,ascends,Bool.false_eq_true,↓reduceIte,List.cons_append,ih]

theorem find_end_of_run_shorter (a : α) (xs : List α) :
    (find_end_of_run less (a :: xs)).2.length ≤ xs.length := by
  induction xs generalizing a with
  | nil => simp [find_end_of_run]
  | cons b rest ih =>
    by_cases descends : less b a
    · simp [find_end_of_run,descends]
    · have shorter := ih b
      simp only [find_end_of_run,descends,Bool.false_eq_true,↓reduceIte,List.length_cons]
      omega

theorem mergeLoop_eq (n : Nat) (as bs : List α) (enough : as.length + bs.length ≤ n) :
    mergeLoop less n as bs = as.merge bs (fun a b => !less b a) := by
  induction n generalizing as bs with
  | zero =>
    have noneLeft : as = [] ∧ bs = [] := by
      constructor <;> apply List.eq_nil_of_length_eq_zero <;> omega
    simp [noneLeft,mergeLoop]
  | succ n ih =>
    cases as with
    | nil => simp [mergeLoop]
    | cons a as =>
      cases bs with
      | nil => simp [mergeLoop]
      | cons b bs =>
        simp only [List.length_cons] at enough
        by_cases taken : less b a
        · simp [mergeLoop,List.cons_merge_cons,taken,ih (a :: as) bs (by simp; omega)]
        · simp [mergeLoop,List.cons_merge_cons,taken,ih as (b :: bs) (by simp; omega)]

/-- Merging two runs is the merge of the standard library. -/
theorem inplace_merge_eq (as bs : List α) :
    inplace_merge less as bs = as.merge bs (fun a b => !less b a) :=
  mergeLoop_eq less _ as bs (Nat.le_refl _)

theorem sortPass_perm (n : Nat) (xs : List α) : (sortPass less n xs).2.Perm xs := by
  induction n generalizing xs with
  | zero => exact .refl _
  | succ n ih =>
    cases xs with
    | nil => exact .refl _
    | cons a xs =>
      have whole := find_end_of_run_append less (a :: xs)
      simp only [sortPass]
      split
      · next ended => rw [ended,List.append_nil] at whole; simp [whole]
      · next b rest second =>
        have tail := find_end_of_run_append less (b :: rest)
        have merged := (@List.merge_perm_append _ (fun a b => !less b a)
          (find_end_of_run less (a :: xs)).1 (find_end_of_run less (b :: rest)).1).append
          (ih (find_end_of_run less (b :: rest)).2)
        have split : (find_end_of_run less (a :: xs)).1 ++ (find_end_of_run less (b :: rest)).1 ++
            (find_end_of_run less (b :: rest)).2 = a :: xs := by rw [List.append_assoc,tail,← second,whole]
        rw [split] at merged
        simpa only [inplace_merge_eq] using merged

/-- Sorting keeps exactly the elements of the list. -/
theorem list_sort_perm (xs : List α) : (list_sort less xs).Perm xs := by
  have loop : ∀ n xs, (sortLoop less n xs).Perm xs := by
    intro n
    induction n with
    | zero => exact fun xs => .refl _
    | succ n ih =>
      intro xs
      simp only [sortLoop]
      split
      · exact (ih _).trans (sortPass_perm less _ xs)
      · exact sortPass_perm less _ xs
  exact loop _ xs

theorem mem_list_sort (xs : List α) (a : α) : a ∈ list_sort less xs ↔ a ∈ xs :=
  (list_sort_perm less xs).mem_iff

/-! ### The result is in order -/

section
variable {less}
  (transitive : ∀ a b c, less b a = false → less c b = false → less c a = false)
  (asymmetric : ∀ a b, less a b = true → less b a = false)
include transitive

theorem find_end_of_run_sorted (xs : List α) : Sorted less (find_end_of_run less xs).1 := by
  induction xs using find_end_of_run.induct less with
  | case1 => exact .nil
  | case2 a => exact List.pairwise_singleton _ _
  | case3 a b rest descends => simp [find_end_of_run,descends,Sorted]
  | case4 a b rest ascends ih =>
    simp only [find_end_of_run,ascends,Bool.false_eq_true,↓reduceIte]
    -- The run continues with `b`, which is not less than `a`.
    have continues : ∃ more, (find_end_of_run less (b :: rest)).1 = b :: more := by
      cases rest with
      | nil => exact ⟨[],rfl⟩
      | cons c rest =>
        by_cases descends : less c b
        · exact ⟨[],by simp [find_end_of_run,descends]⟩
        · exact ⟨(find_end_of_run less (c :: rest)).1,by simp [find_end_of_run,descends]⟩
    obtain ⟨more,starts⟩ := continues
    rw [starts] at ih ⊢
    have ordered : less b a = false := by simpa using ascends
    refine List.pairwise_cons.mpr ⟨?_,ih⟩
    intro c member
    rcases List.mem_cons.mp member with rfl | later
    · exact ordered
    · exact transitive a b c ordered ((List.pairwise_cons.mp ih).1 c later)

include asymmetric

theorem inplace_merge_sorted {as bs : List α} (first : Sorted less as) (second : Sorted less bs) :
    Sorted less (inplace_merge less as bs) := by
  rw [inplace_merge_eq]
  have merged := @List.pairwise_merge _ (fun a b => !less b a)
    (fun a b c ab bc => by simpa using transitive a b c (by simpa using ab) (by simpa using bc))
    (fun a b => by
      cases above : less b a with
      | false => simp
      | true => simp [asymmetric b a above])
    as bs (by simpa [Sorted] using first) (by simpa [Sorted] using second)
  simpa [Sorted] using merged

/-- A pass that outputs one run leaves the list in order. -/
theorem sortPass_single (n : Nat) (xs : List α) (enough : xs.length < n)
    (single : (sortPass less n xs).1 ≤ 1) : Sorted less (sortPass less n xs).2 := by
  cases n with
  | zero => omega
  | succ n =>
    cases xs with
    | nil => exact .nil
    | cons a xs =>
      have sorted := find_end_of_run_sorted transitive (a :: xs)
      simp only [sortPass] at single ⊢
      split at single
      · next ended => simpa [ended] using sorted
      · next b rest second =>
        have shorter := find_end_of_run_shorter less a xs
        have shorterRest := find_end_of_run_shorter less b rest
        have bound : (find_end_of_run less (b :: rest)).2.length < n := by
          rw [second] at shorter
          simp only [List.length_cons] at enough shorter
          omega
        -- No run is output after the merged one, so nothing follows it.
        have ended : (sortPass less n (find_end_of_run less (b :: rest)).2).2 = [] := by
          cases n with
          | zero => omega
          | succ n =>
            cases left : (find_end_of_run less (b :: rest)).2 with
            | nil => rfl
            | cons c more =>
              exfalso
              rw [left] at single
              simp only [sortPass] at single
              split at single <;> simp at single
        rw [ended,List.append_nil]
        exact inplace_merge_sorted transitive asymmetric sorted (find_end_of_run_sorted transitive (b :: rest))

end

/-! ### The passes come to an end -/

/-- The number of runs of a list. -/
def runs : List α → Nat
  | [] => 0
  | [_] => 1
  | a :: b :: rest => runs (b :: rest) + if less b a then 1 else 0

example : runs (fun a b : Nat => decide (a < b)) [2,4,1,3] = 2 := by simp [runs]

theorem runs_le_length (xs : List α) : runs less xs ≤ xs.length := by
  induction xs using runs.induct with
  | case1 => simp [runs]
  | case2 a => simp [runs]
  | case3 a b rest ih => simp only [runs,List.length_cons] at *; split <;> omega

theorem runs_append (xs ys : List α) : runs less (xs ++ ys) ≤ runs less xs + runs less ys := by
  induction xs using runs.induct with
  | case1 => simp [runs]
  | case2 a =>
    cases ys with
    | nil => simp [runs]
    | cons b rest => simp only [List.singleton_append,runs]; split <;> omega
  | case3 a b rest ih => simp only [List.cons_append,runs] at *; omega

theorem runs_sorted {xs : List α} (sorted : Sorted less xs) : runs less xs ≤ 1 := by
  induction xs using runs.induct with
  | case1 => simp [runs]
  | case2 a => simp [runs]
  | case3 a b rest ih =>
    obtain ⟨above,later⟩ := List.pairwise_cons.mp sorted
    simpa [runs,above b (by simp)] using ih later

theorem runs_find_end_of_run (a : α) (xs : List α) :
    runs less (a :: xs) = 1 + runs less (find_end_of_run less (a :: xs)).2 := by
  induction xs generalizing a with
  | nil => simp [runs,find_end_of_run]
  | cons b rest ih =>
    by_cases descends : less b a
    · simp [runs,find_end_of_run,descends]; omega
    · simp [runs,find_end_of_run,descends,ih b]

/-- A pass outputs half as many runs as it reads. -/
theorem sortPass_halves (n : Nat) (xs : List α) : 2 * (sortPass less n xs).1 ≤ runs less xs + 1 := by
  induction n generalizing xs with
  | zero => simp [sortPass]
  | succ n ih =>
    cases xs with
    | nil => simp [sortPass]
    | cons a xs =>
      have first := runs_find_end_of_run less a xs
      simp only [sortPass]
      split
      · omega
      · next b rest second =>
        have after := ih (find_end_of_run less (b :: rest)).2
        rw [second,runs_find_end_of_run less b rest] at first
        dsimp only
        omega

section
variable {less}
  (transitive : ∀ a b c, less b a = false → less c b = false → less c a = false)
  (asymmetric : ∀ a b, less a b = true → less b a = false)
include transitive asymmetric

theorem sortPass_runs (n : Nat) (xs : List α) (enough : xs.length < n) :
    runs less (sortPass less n xs).2 ≤ (sortPass less n xs).1 := by
  induction n generalizing xs with
  | zero => omega
  | succ n ih =>
    cases xs with
    | nil => simp [sortPass,runs]
    | cons a xs =>
      have sorted := find_end_of_run_sorted transitive (a :: xs)
      have shorter := find_end_of_run_shorter less a xs
      simp only [sortPass]
      split
      · exact runs_sorted less sorted
      · next b rest second =>
        have shorterRest := find_end_of_run_shorter less b rest
        rw [second] at shorter
        simp only [List.length_cons] at enough shorter
        have after := ih (find_end_of_run less (b :: rest)).2 (by omega)
        have merged := runs_sorted less
          (inplace_merge_sorted transitive asymmetric sorted (find_end_of_run_sorted transitive (b :: rest)))
        have both := runs_append less (inplace_merge less (find_end_of_run less (a :: xs)).1
          (find_end_of_run less (b :: rest)).1) (sortPass less n (find_end_of_run less (b :: rest)).2).2
        dsimp only
        omega

/-- `list_sort` leaves the list in order, for every comparison that is a strict
    weak order. -/
theorem list_sort_sorted (xs : List α) : Sorted less (list_sort less xs) := by
  have loop : ∀ n xs, runs less xs < n → Sorted less (sortLoop less n xs) := by
    intro n
    induction n with
    | zero => intro xs few; omega
    | succ n ih =>
      intro xs few
      have halved := sortPass_halves less (xs.length + 1) xs
      have output := sortPass_runs transitive asymmetric (xs.length + 1) xs (by omega)
      simp only [sortLoop]
      split
      · exact ih _ (by omega)
      · exact sortPass_single transitive asymmetric _ xs (by omega) (by omega)
  exact loop _ xs (Nat.lt_succ_of_le (runs_le_length less xs))

end

/-! ### The sort is stable -/

section
variable {less} {p : α → Bool} {R : α → α → Prop}
  (transitive : ∀ a b c, less b a = false → less c b = false → less c a = false)
  (asymmetric : ∀ a b, less a b = true → less b a = false)
include transitive

/-- Elements of which none is less than another come out of a merge as they went in. -/
theorem mergeLoop_filter (ties : ∀ a b, p a = true → p b = true → less b a = false) (n : Nat) (as bs : List α)
    (sorted : Sorted less as) : (mergeLoop less n as bs).filter p = as.filter p ++ bs.filter p := by
  induction n generalizing as bs with
  | zero => exact List.filter_append _ _
  | succ n ih =>
    cases as with
    | nil => simp [mergeLoop]
    | cons a as =>
      cases bs with
      | nil => simp [mergeLoop]
      | cons b bs =>
        simp only [mergeLoop]
        split
        · rw [List.filter_cons,ih as (b :: bs) (List.pairwise_cons.mp sorted).2,@List.filter_cons _ a as p]
          split <;> rfl
        · next taken =>
          rw [List.filter_cons,ih (a :: as) bs sorted,@List.filter_cons _ b bs p]
          split
          · next chosen =>
            -- `b` is less than `a`, and so than all that the first run has left.
            have unchosen : (a :: as).filter p = [] := by
              refine List.filter_eq_nil_iff.mpr fun c member chosen' => taken ?_
              have above : less c a = false := by
                rcases List.mem_cons.mp member with rfl | later
                · exact ties c c chosen' chosen'
                · exact (List.pairwise_cons.mp sorted).1 c later
              rw [transitive a c b above (ties c b chosen' chosen)]
              rfl
            rw [unchosen]
            rfl
          · rfl

theorem sortPass_filter (ties : ∀ a b, p a = true → p b = true → less b a = false) (n : Nat) (xs : List α) :
    (sortPass less n xs).2.filter p = xs.filter p := by
  induction n generalizing xs with
  | zero => rfl
  | succ n ih =>
    cases xs with
    | nil => rfl
    | cons a xs =>
      have whole := find_end_of_run_append less (a :: xs)
      have sorted := find_end_of_run_sorted transitive (a :: xs)
      simp only [sortPass]
      split
      · next ended =>
        rw [ended,List.append_nil] at whole
        rw [whole]
      · next b rest second =>
        have tail := find_end_of_run_append less (b :: rest)
        rw [second] at whole
        rw [List.filter_append,inplace_merge,mergeLoop_filter transitive ties _ _ _ sorted,ih,List.append_assoc,
          ← List.filter_append,tail,← List.filter_append,whole]

theorem list_sort_filter (ties : ∀ a b, p a = true → p b = true → less b a = false) (xs : List α) :
    (list_sort less xs).filter p = xs.filter p := by
  have loop : ∀ n xs, (sortLoop less n xs).filter p = xs.filter p := by
    intro n
    induction n with
    | zero => exact fun xs => rfl
    | succ n ih =>
      intro xs
      simp only [sortLoop]
      split
      · rw [ih,sortPass_filter transitive ties]
      · exact sortPass_filter transitive ties _ xs
  exact loop _ xs

include asymmetric

/-- Of two elements of the sorted list, the later is not less, and where the earlier is
    not less either, they are in the order in which they were. -/
theorem list_sort_stable {xs : List α} (before : xs.Pairwise R) :
    (list_sort less xs).Pairwise fun a b => less b a = false ∧ (less a b = false → R a b) := by
  have sorted := list_sort_sorted transitive asymmetric xs
  rw [Sorted,List.pairwise_iff_forall_sublist] at sorted
  rw [List.pairwise_iff_forall_sublist]
  intro a b inside
  refine ⟨sorted inside,fun tied => ?_⟩
  have irreflexive (c : α) : less c c = false := by
    cases self : less c c with
    | false => rfl
    | true => exact self.symm.trans (asymmetric c c self)
  -- The elements that are neither less nor greater than `a`.
  let p (c : α) : Bool := !less c a && !less a c
  have ties : ∀ c d, p c = true → p d = true → less d c = false := by
    intro c d first second
    simp only [p,Bool.and_eq_true,Bool.not_eq_true'] at first second
    exact transitive c a d first.2 second.1
  have kept := inside.filter p
  rw [list_sort_filter transitive ties] at kept
  have both : [a,b].filter p = [a,b] := by simp [p,irreflexive,tied,sorted inside]
  rw [both] at kept
  exact List.pairwise_iff_forall_sublist.mp (before.filter p) kept

/-- The sorted list is the only one in such an order. -/
theorem list_sort_eq {xs ys : List α} (before : xs.Pairwise R)
    (antisymmetric : ∀ a b, less a b = false → less b a = false → R a b → R b a → a = b) (perm : ys.Perm xs)
    (ordered : ys.Pairwise fun a b => less b a = false ∧ (less a b = false → R a b)) : list_sort less xs = ys := by
  refine List.Perm.eq_of_pairwise ?_ (list_sort_stable transitive asymmetric before) ordered
    ((list_sort_perm less xs).trans perm.symm)
  intro a b _ _ first second
  exact antisymmetric a b second.1 first.1 (first.2 second.1) (second.2 first.1)

end

/-! ### Insertion -/

/-- `list_insert_ordered`: before the first element that the new one is less than. -/
def list_insert_ordered (elem : α) : List α → List α
  | [] => [elem]
  | e :: rest => if less elem e then elem :: e :: rest else e :: list_insert_ordered elem rest

theorem mem_list_insert_ordered {elem a : α} {xs : List α} : a ∈ list_insert_ordered less elem xs ↔ a = elem ∨ a ∈ xs := by
  induction xs with
  | nil => simp [list_insert_ordered]
  | cons e rest ih =>
    simp only [list_insert_ordered]
    split
    · simp
    · simp only [List.mem_cons,ih]
      exact or_left_comm

/-! ### Counting -/

/-- How many of the first `n` numbers meet a test that changes at one of them. -/
theorem countP_range_change {n k : Nat} {p q : Nat → Bool} (inside : k < n) (same : ∀ x, x ≠ k → q x = p x) :
    (List.range n).countP q + (p k).toNat = (List.range n).countP p + (q k).toNat := by
  induction n with
  | zero => omega
  | succ n ih =>
    rw [List.range_succ,List.countP_append,List.countP_append,List.countP_singleton,List.countP_singleton]
    by_cases last : k = n
    · subst last
      have before : (List.range k).countP q = (List.range k).countP p := by
        refine List.countP_congr ?_
        intro x member
        rw [same x (Nat.ne_of_lt (List.mem_range.mp member))]
      rw [before]
      cases p k <;> cases q k <;> simp
    · have := ih (by omega)
      rw [same n (Ne.symm last)]
      omega

end Pintos.Lists
