import Pintos.ListSort

/-!
`list_insert_ordered` and `list_unique` of `lib/kernel/list.c`, on the pointers of a
list and on the sequence it holds. On a sorted list an element that is equivalent to one
before it is so to the one just before it, so that only neighbours need to be compared.
-/
namespace Pintos.OrderedLists
open Pintos.LinkedLists Pintos.ListFamilies Pintos.Splices Pintos.ListSort
set_option linter.unusedSimpArgs false
set_option linter.unusedSectionVars false
variable {α : Type} [DecidableEq α] (less : α → α → Bool)

/-- The loop of `list_insert_ordered`, which ends at the place of `elem`. -/
def placeLoop (elem tail : α) : Nat → Memory α → α → Option α
  | 0, _, _ => none
  | n + 1, m, e =>
    if e = tail then some e
    else if less elem e then some e
    else do
      let next ← list_next m e
      placeLoop elem tail n m next

def list_insert_ordered (fuel : Nat) (m : Memory α) (head tail elem : α) : Option (Memory α) := do
  let begin ← (m head).next
  let e ← placeLoop less elem tail fuel m begin
  list_insert m e elem

/-- One call for each of some elements. -/
def insert_all (fuel : Nat) (head tail : α) : List α → Memory α → Option (Memory α)
  | [], m => some m
  | elem :: rest, m => do
    let m ← list_insert_ordered less fuel m head tail elem
    insert_all fuel head tail rest m

/-- The loop of `list_unique`; `duplicates` is the tail of that list, if there is one. -/
def uniqueLoop (tail : α) (duplicates : Option α) : Nat → Memory α → α → Option (Memory α)
  | 0, _, _ => none
  | n + 1, m, elem => do
    let next ← list_next m elem
    if next = tail then pure m
    else if !less elem next && !less next elem then
      let m ← list_remove m next
      let m ← match duplicates with
        | none => some m
        | some duplicates => list_push_back m duplicates next
      uniqueLoop tail duplicates n m elem
    else uniqueLoop tail duplicates n m next

def list_unique (fuel : Nat) (m : Memory α) (head tail : α) (duplicates : Option α) : Option (Memory α) := do
  let begin ← (m head).next
  if begin = tail then pure m else uniqueLoop less tail duplicates fuel m begin

/-! ### On sequences -/

/-- The sequence after one insertion for each of some elements. -/
def ordered (es xs : List α) : List α := es.foldl (fun xs elem => Lists.list_insert_ordered less elem xs) xs

/-- What is left behind `elem`, and what is removed. -/
def uniqueFrom : α → List α → List α × List α
  | _, [] => ([],[])
  | elem, next :: rest =>
    if equivalent less elem next then ((uniqueFrom elem rest).1,next :: (uniqueFrom elem rest).2)
    else (next :: (uniqueFrom next rest).1,(uniqueFrom next rest).2)

/-- The element is the first of its class in the sequence. -/
def first (xs : List α) (y : α) : Bool := decide (xs.find? (fun x => equivalent less x y) = some y)

variable {less} {m m' : Memory α} {head tail elem a x : α} {xs ys pre es rest : List α} {n fuel : Nat}

theorem insert_perm (elem : α) (xs : List α) : (Lists.list_insert_ordered less elem xs).Perm (elem :: xs) := by
  induction xs with
  | nil => exact .refl _
  | cons e rest ih =>
    rw [Lists.list_insert_ordered]
    split
    · exact .refl _
    · exact (ih.cons e).trans (.swap elem e rest)

section
variable [order : IsStrictWeakOrder α fun a b => less a b = true]
include order

theorem equivalent_refl (a : α) : equivalent less a a = true := by
  have irreflexive : less a a = false := Bool.eq_false_iff.mpr (order.irrefl a)
  simp [equivalent,irreflexive]

/-- Equivalent elements are equivalent to the same ones. -/
theorem equivalent_congr {a b : α} (same : equivalent less a b = true) (c : α) :
    equivalent less a c = equivalent less b c := by
  simp only [equivalent,Bool.and_eq_true,Bool.not_eq_true'] at same
  rw [Bool.eq_iff_iff]
  simp only [equivalent,Bool.and_eq_true,Bool.not_eq_true']
  exact ⟨fun other => ⟨less_transitive c a b other.1 same.2,less_transitive b a c same.1 other.2⟩,
    fun other => ⟨less_transitive c b a other.1 same.1,less_transitive a b c same.2 other.2⟩⟩

/-- What is less than the first element of a sorted list is equivalent to none of it. -/
theorem less_apart {e : α} (sorted : Lists.Sorted less (e :: rest)) (before : less elem e = true) (y : α)
    (member : y ∈ e :: rest) : less elem y = true := by
  refine Bool.not_eq_false _ ▸ fun behind => ?_
  obtain ⟨low,_⟩ := List.pairwise_cons.mp sorted
  have not_before : less elem e = false := by
    rcases List.mem_cons.mp member with rfl | later
    · exact behind
    · exact less_transitive e y elem (low y later) behind
  rw [before] at not_before
  cases not_before

theorem insert_sorted (elem : α) (sorted : Lists.Sorted less xs) :
    Lists.Sorted less (Lists.list_insert_ordered less elem xs) := by
  induction xs with
  | nil => exact List.pairwise_singleton _ _
  | cons e rest ih =>
    obtain ⟨low,later⟩ := List.pairwise_cons.mp sorted
    rw [Lists.list_insert_ordered]
    split
    · next before =>
      refine List.pairwise_cons.mpr ⟨fun a member => ?_,sorted⟩
      rcases List.mem_cons.mp member with rfl | member
      · exact less_asymmetric elem a before
      · exact less_transitive elem e a (less_asymmetric elem e before) (low a member)
    · next behind =>
      refine List.pairwise_cons.mpr ⟨fun a member => ?_,ih later⟩
      rcases (Lists.mem_list_insert_ordered less).mp member with rfl | member
      · exact Bool.eq_false_iff.mpr behind
      · exact low a member

/-- In a sorted list the new element comes behind those that are equivalent to it. -/
theorem insert_filter (elem x : α) (sorted : Lists.Sorted less xs) :
    (Lists.list_insert_ordered less elem xs).filter (equivalent less x) = (xs ++ [elem]).filter (equivalent less x) := by
  induction xs with
  | nil => rfl
  | cons e rest ih =>
    obtain ⟨low,later⟩ := List.pairwise_cons.mp sorted
    rw [Lists.list_insert_ordered]
    split
    · next before =>
      by_cases same : equivalent less x elem = true
      · -- None of the elements from `e` on is equivalent to the new one.
        have none : (e :: rest).filter (equivalent less x) = [] := by
          refine List.filter_eq_nil_iff.mpr fun y member also => ?_
          rw [equivalent_congr same] at also
          simp [equivalent,less_apart sorted before y member] at also
        rw [List.filter_append,none,List.nil_append,List.filter_cons,if_pos same,none,List.filter_cons,if_pos same]
        rfl
      · have gone : [elem].filter (equivalent less x) = [] := List.filter_eq_nil_iff.mpr fun y member => by
          rwa [List.mem_singleton.mp member]
        rw [List.filter_append,gone,List.append_nil,List.filter_cons,if_neg same]
    · rw [List.cons_append,List.filter_cons,List.filter_cons,ih later]

/-- What is equivalent to something before `elem` is not kept. -/
theorem first_cons {elem y : α} (other : elem ≠ y) (rest : List α) :
    first less (elem :: rest) y = (!equivalent less elem y && first less rest y) := by
  rw [first,List.find?_cons]
  cases same : equivalent less elem y with
  | true =>
    simp only [Bool.not_true,Bool.false_and]
    exact decide_eq_false fun equal => other (Option.some.inj equal)
  | false => rfl

theorem first_head (elem : α) (rest : List α) : first less (elem :: rest) elem = true := by
  rw [first,List.find?_cons,equivalent_refl]
  exact decide_eq_true rfl

/-- The elements behind `elem` that are kept are the first of a class that is not its class. -/
theorem uniqueFrom_eq (elem : α) (rest : List α) (sorted : Lists.Sorted less (elem :: rest)) (once : rest.Nodup) :
    uniqueFrom less elem rest =
      (rest.filter (fun y => !equivalent less elem y && first less rest y),
        rest.filter (fun y => !(!equivalent less elem y && first less rest y))) := by
  induction rest generalizing elem with
  | nil => rfl
  | cons next rest ih =>
    obtain ⟨low,later⟩ := List.pairwise_cons.mp sorted
    obtain ⟨next_low,rest_sorted⟩ := List.pairwise_cons.mp later
    obtain ⟨fresh,once⟩ := List.nodup_cons.mp once
    have other (y : α) (member : y ∈ rest) : next ≠ y := fun same => fresh (same ▸ member)
    have here : first less (next :: rest) next = true := first_head next rest
    rw [uniqueFrom]
    by_cases same : equivalent less elem next = true
    · have kept (y : α) (member : y ∈ rest) : (!equivalent less elem y && first less (next :: rest) y) =
          (!equivalent less elem y && first less rest y) := by
        rw [first_cons (other y member),equivalent_congr same]
        cases equivalent less next y <;> simp
      have skipped : Lists.Sorted less (elem :: rest) :=
        List.pairwise_cons.mpr ⟨fun y member => low y (List.mem_cons_of_mem _ member),rest_sorted⟩
      rw [if_pos same,ih elem skipped once]
      rw [List.filter_cons,List.filter_cons,same,here]
      refine Prod.ext ?_ ?_
      · exact (List.filter_congr kept).symm
      · exact congrArg (next :: ·) (List.filter_congr fun y member => congrArg (!·) (kept y member)).symm
    · have before : less elem next = true := by
        have not_less := low next List.mem_cons_self
        simpa [equivalent,not_less] using same
      have kept (y : α) (member : y ∈ rest) : (!equivalent less elem y && first less (next :: rest) y) =
          (!equivalent less next y && first less rest y) := by
        have apart := less_apart later before y (List.mem_cons_of_mem _ member)
        rw [first_cons (other y member)]
        simp [equivalent,apart]
      rw [if_neg same,ih next later once,List.filter_cons,List.filter_cons,Bool.eq_false_iff.mpr same,here]
      refine Prod.ext ?_ ?_
      · exact congrArg (next :: ·) (List.filter_congr kept).symm
      · exact (List.filter_congr fun y member => congrArg (!·) (kept y member)).symm

/-- The elements that are kept increase. -/
theorem uniqueFrom_increases (elem : α) (rest : List α) (sorted : Lists.Sorted less (elem :: rest)) :
    (elem :: (uniqueFrom less elem rest).1).Pairwise (fun a b => less a b = true) := by
  induction rest generalizing elem with
  | nil => exact List.pairwise_singleton _ _
  | cons next rest ih =>
    obtain ⟨low,later⟩ := List.pairwise_cons.mp sorted
    rw [uniqueFrom]
    by_cases same : equivalent less elem next = true
    · rw [if_pos same]
      refine ih elem (List.pairwise_cons.mpr ⟨fun y member => ?_,(List.pairwise_cons.mp later).2⟩)
      exact low y (List.mem_cons_of_mem _ member)
    · have before : less elem next = true := by
        have not_less := low next List.mem_cons_self
        simpa [equivalent,not_less] using same
      have increases := ih next later
      rw [if_neg same]
      refine List.pairwise_cons.mpr ⟨fun y member => ?_,increases⟩
      rcases List.mem_cons.mp member with rfl | member
      · exact before
      · exact order.trans elem next y before ((List.pairwise_cons.mp increases).1 y member)

end

/-! ### On pointers -/

theorem placeLoop_spec (less : α → α → Bool) (elem : α) (list : Represents m head tail (pre ++ ys)) (enough : ys.length < n) :
    ∃ before after, pre ++ ys = before ++ after ∧
      placeLoop less elem tail n m (following tail ys) = some (following tail after) ∧
      before ++ elem :: after = pre ++ Lists.list_insert_ordered less elem ys := by
  induction n generalizing pre ys with
  | zero => omega
  | succ n ih =>
    cases ys with
    | nil => exact ⟨pre,[],rfl,by simp [placeLoop,following],rfl⟩
    | cons e rest =>
      have other : e ≠ tail := ahead (by rw [List.append_nil]; exact list)
      rw [placeLoop,following_cons,if_neg other]
      by_cases before : less elem e = true
      · exact ⟨pre,e :: rest,rfl,by rw [if_pos before]; rfl,by rw [Lists.list_insert_ordered,if_pos before]⟩
      · have list' : Represents m head tail ((pre ++ [e]) ++ rest) := by simpa using list
        obtain ⟨left,right,cut,placed,inserted⟩ := ih list' (by simp only [List.length_cons] at enough; omega)
        refine ⟨left,right,?_,?_,?_⟩
        · rw [← cut,List.append_assoc,List.singleton_append]
        · rw [if_neg before,(next_prev list).1]
          exact placed
        · rw [inserted,Lists.list_insert_ordered,if_neg before,List.append_assoc,List.singleton_append]

theorem list_insert_ordered_spec (less : α → α → Bool) (list : Represents m head tail xs)
    (fresh : elem ∉ nodes head tail xs) (enough : xs.length < fuel) :
    ∃ m', list_insert_ordered less fuel m head tail elem = some m' ∧
      Represents m' head tail (Lists.list_insert_ordered less elem xs) ∧
      ∀ a, a ∉ nodes head tail xs → a ≠ elem → m' a = m a := by
  obtain ⟨before,after,cut,placed,inserted⟩ :=
    placeLoop_spec less elem (show Represents m head tail ([] ++ xs) from list) enough
  rw [List.nil_append] at cut inserted
  subst cut
  obtain ⟨m',linked,result,frame⟩ := represents_insert list fresh
  refine ⟨m',?_,inserted ▸ result,frame⟩
  simp only [list_insert_ordered,(represents_front list).1,placed,bind,Option.bind]
  exact linked

theorem insert_all_spec (less : α → α → Bool) (list : Represents m head tail xs) (once : (nodes head tail xs ++ es).Nodup)
    (enough : xs.length + es.length < fuel) :
    ∃ m', insert_all less fuel head tail es m = some m' ∧ Represents m' head tail (ordered less es xs) ∧
      ∀ a, a ∉ nodes head tail xs → a ∉ es → m' a = m a := by
  induction es generalizing m xs with
  | nil => exact ⟨m,rfl,list,fun _ _ _ => rfl⟩
  | cons elem es ih =>
    obtain ⟨old,new,apart⟩ := List.nodup_append.mp once
    obtain ⟨later,new⟩ := List.nodup_cons.mp new
    have fresh : elem ∉ nodes head tail xs := fun member => apart elem member elem List.mem_cons_self rfl
    have moved : (nodes head tail (Lists.list_insert_ordered less elem xs)).Perm (elem :: nodes head tail xs) :=
      (((insert_perm elem xs).append_right [tail]).cons head).trans (.swap elem head (xs ++ [tail]))
    obtain ⟨m₁,inserted,result,kept⟩ := list_insert_ordered_spec less list fresh (show xs.length < fuel by omega)
    have once' : (nodes head tail (Lists.list_insert_ordered less elem xs) ++ es).Nodup := by
      rw [(moved.append_right es).nodup_iff]
      exact (List.perm_middle.nodup_iff).mp once
    obtain ⟨m',inserts,results,frame⟩ := ih result once' (by
      rw [(insert_perm elem xs).length_eq]
      simp only [List.length_cons] at enough ⊢
      omega)
    refine ⟨m',?_,results,fun a outside untouched => ?_⟩
    · simp only [insert_all,inserted,bind,Option.bind]
      exact inserts
    · obtain ⟨other,untouched⟩ := not_or.mp (fun member => untouched (List.mem_cons.mpr member))
      rw [frame a (fun member => ?_) untouched,kept a outside other]
      rcases List.mem_cons.mp (moved.mem_iff.mp member) with same | member
      · exact other same
      · exact outside member

theorem ordered_perm (es xs : List α) : (ordered less es xs).Perm (xs ++ es) := by
  induction es generalizing xs with
  | nil => rw [List.append_nil]; exact .refl _
  | cons elem es ih => exact (ih _).trans (((insert_perm elem xs).append_right es).trans List.perm_middle.symm)

section
variable [order : IsStrictWeakOrder α fun a b => less a b = true]
include order

theorem ordered_sorted (es : List α) (sorted : Lists.Sorted less xs) : Lists.Sorted less (ordered less es xs) := by
  induction es generalizing xs with
  | nil => exact sorted
  | cons elem es ih => exact ih (insert_sorted elem sorted)

/-- Equivalent elements keep the order in which they were inserted. -/
theorem ordered_filter (x : α) (es : List α) (sorted : Lists.Sorted less xs) :
    (ordered less es xs).filter (equivalent less x) = (xs ++ es).filter (equivalent less x) := by
  induction es generalizing xs with
  | nil => rw [List.append_nil]; rfl
  | cons elem es ih =>
    have later := ih (insert_sorted elem sorted)
    rw [List.filter_append,insert_filter elem x sorted,← List.filter_append,List.append_assoc] at later
    exact later

end

/-! ### Duplicates -/

theorem mem_moved {head' tail' : α} {ds : List α} :
    a ∈ nodes head tail (pre ++ rest) ∨ a ∈ nodes head' tail' (ds ++ [elem]) ↔
      a ∈ nodes head tail (pre ++ elem :: rest) ∨ a ∈ nodes head' tail' ds := by
  simp only [mem_nodes,List.mem_append,List.mem_cons,List.not_mem_nil,or_false]
  tauto

/-- One element goes from a list to the end of another. -/
theorem move_spec {head' tail' : α} {ds : List α} (list : Represents m head tail (pre ++ elem :: rest))
    (others : Represents m head' tail' ds) (apart : ∀ a ∈ nodes head tail (pre ++ elem :: rest), a ∉ nodes head' tail' ds) :
    ∃ m₁ m', list_remove m elem = some m₁ ∧ list_push_back m₁ tail' elem = some m' ∧ Represents m' head tail (pre ++ rest) ∧
      Represents m' head' tail' (ds ++ [elem]) ∧ (∀ a ∈ nodes head tail (pre ++ rest), a ∉ nodes head' tail' (ds ++ [elem])) ∧
      ∀ a, a ∉ nodes head tail (pre ++ elem :: rest) → a ∉ nodes head' tail' ds → m' a = m a := by
  have moved : (nodes head tail (pre ++ elem :: rest)).Perm (elem :: nodes head tail (pre ++ rest)) :=
    ((List.perm_middle.append_right [tail]).cons head).trans (.swap elem head _)
  have fresh : elem ∉ nodes head tail (pre ++ rest) := (List.nodup_cons.mp (moved.nodup_iff.mp list.once)).1
  have outside : elem ∉ nodes head' tail' ds := apart elem (moved.mem_iff.mpr List.mem_cons_self)
  have old (a : α) (member : a ∈ nodes head tail (pre ++ rest)) : a ∉ nodes head' tail' ds :=
    apart a (moved.mem_iff.mpr (List.mem_cons_of_mem _ member))
  obtain ⟨m₁,removed,left,frame⟩ := represents_remove list
  have others₁ : Represents m₁ head' tail' ds :=
    represents_frame others fun a member => frame a fun inside => old a inside member
  rw [← List.append_nil ds] at others₁
  obtain ⟨m',pushed,gained,frame'⟩ := represents_insert others₁ (by rwa [List.append_nil])
  rw [List.append_nil] at frame'
  refine ⟨m₁,m',removed,pushed,?_,gained,fun a member inside => ?_,fun a notHere notThere => ?_⟩
  · refine represents_frame left fun a member => frame' a (old a member) ?_
    rintro rfl
    exact fresh member
  · have other : a ≠ elem := fun same => fresh (same ▸ member)
    refine old a member ?_
    simp only [mem_nodes,List.mem_append,List.mem_singleton,other,or_false] at inside
    exact mem_nodes.mpr inside
  · have other : a ≠ elem := fun same => notHere (same ▸ moved.mem_iff.mpr List.mem_cons_self)
    rw [frame' a notThere other,frame a fun member => notHere (moved.mem_iff.mpr (List.mem_cons_of_mem _ member))]

theorem uniqueLoop_spec (less : α → α → Bool) {head' tail' : α} {ds : List α}
    (list : Represents m head tail (pre ++ elem :: rest))
    (others : Represents m head' tail' ds) (apart : ∀ a ∈ nodes head tail (pre ++ elem :: rest), a ∉ nodes head' tail' ds)
    (enough : rest.length < n) :
    ∃ m', uniqueLoop less tail (some tail') n m elem = some m' ∧
      Represents m' head tail (pre ++ elem :: (uniqueFrom less elem rest).1) ∧
      Represents m' head' tail' (ds ++ (uniqueFrom less elem rest).2) ∧
      ∀ a, a ∉ nodes head tail (pre ++ elem :: rest) → a ∉ nodes head' tail' ds → m' a = m a := by
  induction rest generalizing m pre elem ds n with
  | nil =>
    obtain ⟨n,rfl⟩ := Nat.exists_eq_succ_of_ne_zero (Nat.ne_of_gt enough)
    refine ⟨m,?_,list,by rw [uniqueFrom,List.append_nil]; exact others,fun _ _ _ => rfl⟩
    simp only [uniqueLoop,(next_prev list).1,following,bind,Option.bind,if_true,pure]
  | cons next rest ih =>
    obtain ⟨n,rfl⟩ := Nat.exists_eq_succ_of_ne_zero (Nat.ne_of_gt (Nat.zero_lt_of_lt enough))
    have behind : Represents m head tail ((pre ++ [elem]) ++ next :: rest) := by simpa using list
    have enough' : rest.length < n := by simpa using enough
    have other : next ≠ tail := ahead (by rw [List.append_nil]; exact behind)
    simp only [uniqueLoop,(next_prev list).1,following,bind,Option.bind,if_neg other,pure]
    by_cases same : equivalent less elem next = true
    · obtain ⟨m₁,m₂,removed,pushed,left,gained,apart',frame⟩ :=
        move_spec behind others (by rwa [List.append_assoc,List.singleton_append])
      rw [List.append_assoc,List.singleton_append] at left apart' frame
      obtain ⟨m',looped,kept,dropped,frame'⟩ := ih left gained apart' enough'
      rw [uniqueFrom,if_pos same]
      refine ⟨m',?_,kept,?_,fun a notHere notThere => ?_⟩
      · rw [equivalent] at same
        simp only [same,if_true,removed,pushed]
        exact looped
      · rw [List.append_assoc] at dropped
        exact dropped
      · rw [← List.singleton_append,← List.append_assoc] at notHere
        have outside := mt mem_moved.mp (not_or.mpr ⟨notHere,notThere⟩)
        rw [List.append_assoc,List.singleton_append] at outside notHere
        rw [frame' a (fun member => outside (.inl member)) (fun member => outside (.inr member)),frame a notHere notThere]
    · obtain ⟨m',looped,kept,dropped,frame⟩ := ih behind others (by rwa [List.append_assoc,List.singleton_append]) enough'
      rw [List.append_assoc,List.singleton_append] at kept frame
      rw [uniqueFrom,if_neg same]
      refine ⟨m',?_,kept,dropped,frame⟩
      rw [equivalent] at same
      rw [if_neg same]
      exact looped

theorem list_unique_spec {head' tail' : α} {ds : List α} [IsStrictWeakOrder α fun a b => less a b = true]
    (list : Represents m head tail xs) (others : Represents m head' tail' ds)
    (apart : ∀ a ∈ nodes head tail xs, a ∉ nodes head' tail' ds) (sorted : Lists.Sorted less xs) (enough : xs.length ≤ fuel) :
    ∃ m', list_unique less fuel m head tail (some tail') = some m' ∧ Represents m' head tail (xs.filter (first less xs)) ∧
      Represents m' head' tail' (ds ++ xs.filter (fun x => !first less xs x)) ∧
      (xs.filter (first less xs)).Pairwise (fun a b => less a b = true) ∧
      ∀ a, a ∉ nodes head tail xs → a ∉ nodes head' tail' ds → m' a = m a := by
  have begins := (represents_front list).1
  cases xs with
  | nil =>
    refine ⟨m,?_,list,by rw [List.filter_nil,List.append_nil]; exact others,.nil,fun _ _ _ => rfl⟩
    simp only [list_unique,begins,following,bind,Option.bind,if_true,pure]
  | cons elem rest =>
    have other : elem ≠ tail := ahead (show Represents m head tail ([] ++ elem :: (rest ++ [])) by rwa [List.append_nil])
    have once : (elem :: rest).Nodup := ((List.nodup_cons.mp list.once).2).sublist (List.sublist_append_left _ _)
    obtain ⟨fresh,once⟩ := List.nodup_cons.mp once
    obtain ⟨m',looped,kept,dropped,frame⟩ :=
      uniqueLoop_spec less (show Represents m head tail ([] ++ elem :: rest) from list) others apart enough
    have increases := uniqueFrom_increases elem rest sorted
    have behind (y : α) (member : y ∈ rest) : (!equivalent less elem y && first less rest y) = first less (elem :: rest) y :=
      (first_cons (fun same : elem = y => fresh (same ▸ member)) rest).symm
    have keeps : elem :: (uniqueFrom less elem rest).1 = (elem :: rest).filter (first less (elem :: rest)) := by
      rw [uniqueFrom_eq elem rest sorted once,List.filter_cons,if_pos (first_head elem rest),List.filter_congr behind]
    have drops : (uniqueFrom less elem rest).2 = (elem :: rest).filter (fun x => !first less (elem :: rest) x) := by
      rw [uniqueFrom_eq elem rest sorted once,List.filter_cons,first_head elem rest]
      exact List.filter_congr fun y member => congrArg (!·) (behind y member)
    rw [List.nil_append,keeps] at kept
    rw [keeps] at increases
    rw [drops] at dropped
    refine ⟨m',?_,kept,dropped,increases,frame⟩
    simp only [list_unique,begins,following,bind,Option.bind,if_neg other]
    exact looped

/-- Elements that go into an empty list with `list_insert_ordered` one by one are there in order, and those that are
    equivalent in the order of their insertion. From a sorted list `list_unique` takes all but the first of those that are
    equivalent, so that what stays increases strictly, and appends what it takes to the duplicates, in order. -/
theorem ordered_lists [IsStrictWeakOrder α fun a b => less a b = true] :
    (∀ (m : Memory α) (head tail : α) (es : List α), (nodes head tail es).Nodup → ∀ fuel > es.length,
      ∃ m' ys, insert_all less fuel head tail es (list_init m head tail) = some m' ∧ Represents m' head tail ys ∧
        Lists.Sorted less ys ∧ ys.Perm es ∧ ∀ x, ys.filter (equivalent less x) = es.filter (equivalent less x)) ∧
    ∀ (m : Memory α) (head tail head' tail' : α) (xs ds : List α), Represents m head tail xs → Represents m head' tail' ds →
      (∀ a ∈ nodes head tail xs, a ∉ nodes head' tail' ds) → Lists.Sorted less xs → ∀ fuel ≥ xs.length,
      ∃ m' kept removed, list_unique less fuel m head tail (some tail') = some m' ∧ Represents m' head tail kept ∧
        Represents m' head' tail' (ds ++ removed) ∧ kept = xs.filter (first less xs) ∧
        removed = xs.filter (fun x => !first less xs x) ∧ kept.Pairwise (fun a b => less a b = true) ∧
        (kept ++ removed).Perm xs ∧
        ∀ a, a ∉ nodes head tail xs → a ∉ nodes head' tail' ds → m' a = m a := by
  constructor
  · intro m head tail es once fuel enough
    have apart : head ≠ tail := by
      rintro rfl
      exact (List.nodup_cons.mp once).1 (List.mem_append_right _ (List.mem_singleton_self _))
    have moved : (nodes head tail [] ++ es).Perm (nodes head tail es) :=
      (List.perm_append_comm : ([tail] ++ es).Perm (es ++ [tail])).cons head
    obtain ⟨m',inserted,result,_⟩ := insert_all_spec less (represents_init m apart) (moved.nodup_iff.mpr once)
      (show [].length + es.length < fuel by simpa using enough)
    exact ⟨m',_,inserted,result,ordered_sorted es .nil,ordered_perm es [],fun x => ordered_filter x es .nil⟩
  · intro m head tail head' tail' xs ds list others apart sorted fuel enough
    obtain ⟨m',unique,kept,dropped,increases,frame⟩ := list_unique_spec list others apart sorted enough
    exact ⟨m',_,_,unique,kept,dropped,rfl,rfl,increases,List.filter_append_perm _ xs,frame⟩

/-- Numbers with the same tens are equivalent. -/
def tens (a b : Nat) : Bool := decide (a / 10 < b / 10)

theorem ordered_lists_tens :
    (∃ m' ys, insert_all tens 4 0 1 [25,12,17] (list_init two_elements 0 1) = some m' ∧ Represents m' 0 1 ys ∧
      Lists.Sorted tens ys ∧ ys.Perm [25,12,17] ∧ ∀ x, ys.filter (equivalent tens x) = [25,12,17].filter (equivalent tens x)) ∧
    ∃ m' kept removed, list_unique tens 2 (list_init two_elements 5 6) 0 1 (some 6) = some m' ∧ Represents m' 0 1 kept ∧
      Represents m' 5 6 ([] ++ removed) ∧ kept = [2,3].filter (first tens [2,3]) ∧
      removed = [2,3].filter (fun x => !first tens [2,3] x) ∧ kept.Pairwise (fun a b => tens a b = true) ∧
      (kept ++ removed).Perm [2,3] ∧
      ∀ a, a ∉ nodes 0 1 [2,3] → a ∉ nodes 5 6 [] → m' a = list_init two_elements 5 6 a := by
  have weak : IsStrictWeakOrder Nat fun a b => tens a b = true := by
    refine { irrefl := fun a => ?_, trans := fun a b c => ?_, incomp_trans := fun a b c => ?_ }
    all_goals simp only [tens,decide_eq_true_eq]
    all_goals omega
  refine ⟨ordered_lists.1 two_elements 0 1 [25,12,17] (by decide) 4 (by decide),?_⟩
  exact ordered_lists.2 (list_init two_elements 5 6) 0 1 5 6 [2,3] [] ⟨⟨rfl,rfl,rfl,rfl,rfl,rfl,trivial⟩,rfl,rfl,by decide⟩
    ⟨⟨rfl,rfl,trivial⟩,rfl,rfl,by decide⟩ (by decide) (by simp [Lists.Sorted,tens]) 2 (by decide)

end Pintos.OrderedLists
