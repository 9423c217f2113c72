import Pintos.HashTables

/-!
The walks over a table of `lib/kernel/hash.c`: `hash_apply`, and an iterator with
`hash_first` and `hash_next`, which starts at the head of the first bucket and goes from
the end of one bucket to the next. A node of the array of buckets is read only where the
array has one.
-/
namespace Pintos.HashIterators
open Pintos.Machines Pintos.LinkedLists Pintos.ListFamilies Pintos.HashTables
set_option linter.unusedSimpArgs false
variable {E : Type} [DecidableEq E]

/-- `struct hash_iterator`; `hash` is the table of the call. -/
structure hash_iterator (E : Type) where
  bucket : Nat
  /-- `none` is a null pointer. -/
  elem : Option (Address E)

/-- The node at an address; outside of the array of the table there is none. -/
def node (t : Table E) (array : Nat) : Address E → Option (Node (Address E))
  | .elem e => some (t.memory (.elem e))
  | .head a bucket => if a = array ∧ bucket < t.bucket_cnt then some (t.memory (.head a bucket)) else none
  | .tail a bucket => if a = array ∧ bucket < t.bucket_cnt then some (t.memory (.tail a bucket)) else none

def list_begin (t : Table E) (array bucket : Nat) : Option (Address E) := (node t array (.head array bucket)).bind Node.next
/-- The assertion fails where there is no next node. -/
def list_next (t : Table E) (array : Nat) (elem : Address E) : Option (Address E) := (node t array elem).bind Node.next

/-- The inner loop of `hash_apply`, with the elements that `action` is called for. -/
def applyElems (t : Table E) (array bucket : Nat) : Nat → Address E → Option (List E)
  | 0, _ => none
  | n + 1, elem =>
    if elem = .tail array bucket then some []
    else match elem with
      | .elem e => do
        let next ← list_next t array elem
        let rest ← applyElems t array bucket n next
        pure (e :: rest)
      | _ => none

/-- The outer loop: `n` buckets from `i` on. -/
def applyBuckets (t : Table E) (array : Nat) : Nat → Nat → Option (List E)
  | 0, _ => some []
  | n + 1, i => do
    let begin ← list_begin t array i
    let elems ← applyElems t array i (t.elem_cnt + 1) begin
    let rest ← applyBuckets t array n (i + 1)
    pure (elems ++ rest)

def hash_apply (t : Table E) : Option (List E) := do
  let array ← t.buckets
  applyBuckets t array t.bucket_cnt 0

def hash_first (t : Table E) : Option (hash_iterator E) := do
  let array ← t.buckets
  pure { bucket := 0, elem := some (.head array 0) }

/-- The loop of `hash_next`. -/
def nextLoop (t : Table E) (array : Nat) : Nat → Nat → Address E → Option (hash_iterator E)
  | 0, _, _ => none
  | n + 1, bucket, elem =>
    if elem = .tail array bucket then
      if bucket + 1 ≥ t.bucket_cnt then some { bucket := bucket + 1, elem := none }
      else do
        let begin ← list_begin t array (bucket + 1)
        nextLoop t array n (bucket + 1) begin
    else some { bucket := bucket, elem := some elem }

/-- The iterator after the call; it returns `elem`. -/
def hash_next (t : Table E) (i : hash_iterator E) : Option (hash_iterator E) := do
  let array ← t.buckets
  let elem ← i.elem
  let next ← list_next t array elem
  nextLoop t array t.bucket_cnt i.bucket next

def hash_cur (i : hash_iterator E) : Option (Address E) := i.elem

/-- `while (hash_next (&i))`, of at most so many calls: what `hash_cur` is in each turn. -/
def walk (t : Table E) : Nat → hash_iterator E → Option (List (Address E))
  | 0, _ => none
  | n + 1, i => (hash_next t i).bind fun i =>
    match hash_cur i with
    | none => some []
    | some elem => (walk t n i).map (elem :: ·)

variable {hash : E → BitVec 32} {less : E → E → Bool} {t : Table E} {array bucket n : Nat} {S : Finset E}
  {xs : Nat × Nat → List E} {e : E} {before rest left : List E} {i : hash_iterator E}

/-- The elements of `n` buckets from one on. -/
def later (xs : Nat × Nat → List E) (array bucket n : Nat) : List E := (List.range' bucket n).flatMap fun b => xs (array,b)

omit [DecidableEq E] in
theorem later_succ (xs : Nat × Nat → List E) (array bucket n : Nat) :
    later xs array bucket (n + 1) = xs (array,bucket) ++ later xs array (bucket + 1) n := by
  rw [later,List.range'_succ,List.flatMap_cons,later]

section
variable (chained : Chained t.memory (Buckets array t.bucket_cnt) S xs)
include chained

omit [DecidableEq E] in
/-- The first element of a bucket, or its end. -/
theorem list_begin_spec (below : bucket < t.bucket_cnt) :
    list_begin t array bucket = some (following (.tail array bucket) ((xs (array,bucket)).map .elem)) := by
  rw [list_begin,node,if_pos ⟨rfl,below⟩]
  exact (represents_front (chained.family.each (array,bucket) ⟨rfl,below⟩)).1

omit [DecidableEq E] in
/-- What follows an element in its bucket. -/
theorem list_next_spec (below : bucket < t.bucket_cnt) (cut : xs (array,bucket) = before ++ e :: rest) :
    list_next t array (.elem e) = some (following (.tail array bucket) (rest.map .elem)) := by
  have list := chained.family.each (array,bucket) ⟨rfl,below⟩
  rw [cut,List.map_append,List.map_cons] at list
  exact (represents_links list).2

theorem applyElems_spec (below : bucket < t.bucket_cnt) (n : Nat) (before rest : List E)
    (cut : xs (array,bucket) = before ++ rest) (enough : rest.length < n) :
    applyElems t array bucket n (following (.tail array bucket) (rest.map .elem)) = some rest := by
  induction rest generalizing n before with
  | nil =>
    obtain ⟨n,rfl⟩ : ∃ n', n = n' + 1 := ⟨n - 1,by omega⟩
    exact if_pos rfl
  | cons e rest ih =>
    obtain ⟨n,rfl⟩ : ∃ n', n = n' + 1 := ⟨n - 1,by omega⟩
    have tail := ih n (before ++ [e]) (by rw [cut,List.append_assoc]; rfl) (by simpa using enough)
    rw [List.map_cons,following,applyElems,if_neg (fun same => by cases same)]
    simp only [list_next_spec chained below cut,tail,Option.bind_eq_bind,Option.bind_some,Option.pure_def]

theorem applyBuckets_spec (count : t.elem_cnt = S.card) (n bucket : Nat) (inside : bucket + n ≤ t.bucket_cnt) :
    applyBuckets t array n bucket = some (later xs array bucket n) := by
  induction n generalizing bucket with
  | zero => rfl
  | succ n ih =>
    have below : bucket < t.bucket_cnt := by omega
    have short := chained_length chained (show Buckets array t.bucket_cnt (array,bucket) from ⟨rfl,below⟩)
    have elems := applyElems_spec chained below (t.elem_cnt + 1) [] (xs (array,bucket)) rfl (by omega)
    rw [applyBuckets,later_succ]
    simp only [list_begin_spec chained below,elems,ih (bucket + 1) (by omega),Option.bind_eq_bind,Option.bind_some,Option.pure_def]

end

/-! ### Iterators -/

/-- An iterator that has `left` before it: what is behind it in its bucket, and the buckets
    behind that one. -/
structure At (t : Table E) (array : Nat) (xs : Nat × Nat → List E) (i : hash_iterator E) (left : List E) : Prop where
  below : i.bucket < t.bucket_cnt
  place : ∃ elem before rest, i.elem = some elem ∧ xs (array,i.bucket) = before ++ rest ∧
    list_next t array elem = some (following (.tail array i.bucket) (rest.map .elem)) ∧
    left = rest ++ later xs array (i.bucket + 1) (t.bucket_cnt - (i.bucket + 1))

/-- What a call of `hash_next` does: it returns the first element that is left, if there
    is one. -/
def Advances (t : Table E) (array : Nat) (xs : Nat × Nat → List E) (left : List E) (i : hash_iterator E) : Prop :=
  (left = [] ∧ hash_cur i = none) ∨ ∃ e rest, left = e :: rest ∧ hash_cur i = some (.elem e) ∧ At t array xs i rest

section
variable (chained : Chained t.memory (Buckets array t.bucket_cnt) S xs)
include chained

/-- The loop passes the ends of buckets, until there is an element or no bucket. -/
theorem nextLoop_spec (n bucket : Nat) (before rest : List E) (below : bucket < t.bucket_cnt)
    (cut : xs (array,bucket) = before ++ rest) (enough : t.bucket_cnt ≤ bucket + n) :
    ∃ i, nextLoop t array n bucket (following (.tail array bucket) (rest.map .elem)) = some i ∧
      Advances t array xs (rest ++ later xs array (bucket + 1) (t.bucket_cnt - (bucket + 1))) i := by
  induction n generalizing bucket before rest with
  | zero => omega
  | succ n ih =>
    cases rest with
    | nil =>
      rw [List.map_nil,following,nextLoop,if_pos rfl,List.nil_append]
      by_cases last : bucket + 1 ≥ t.bucket_cnt
      · refine ⟨_,if_pos last,.inl ⟨?_,rfl⟩⟩
        rw [Nat.sub_eq_zero_of_le last]
        rfl
      · obtain ⟨i,ran,advances⟩ := ih (bucket + 1) [] (xs (array,bucket + 1)) (by omega) rfl (by omega)
        refine ⟨i,?_,?_⟩
        · rw [if_neg last,list_begin_spec chained (by omega)]
          exact ran
        · rwa [← later_succ,show t.bucket_cnt - (bucket + 1 + 1) + 1 = t.bucket_cnt - (bucket + 1) by omega] at advances
    | cons e rest =>
      refine ⟨{ bucket := bucket, elem := some (.elem e) },?_,.inr ⟨e,_,rfl,rfl,below,.elem e,before ++ [e],rest,rfl,?_,?_,rfl⟩⟩
      · rw [List.map_cons,following,nextLoop,if_neg (fun same => by cases same)]
      · rw [cut,List.append_assoc]
        rfl
      · exact list_next_spec chained below cut

theorem hash_next_spec (here : t.buckets = some array) (at_ : At t array xs i left) :
    ∃ i', hash_next t i = some i' ∧ Advances t array xs left i' := by
  obtain ⟨below,elem,before,rest,current,cut,next,rfl⟩ := at_
  obtain ⟨i',ran,advances⟩ := nextLoop_spec chained t.bucket_cnt i.bucket before rest below cut (Nat.le_add_left _ _)
  refine ⟨i',?_,advances⟩
  rw [hash_next]
  simp only [here,current,next,ran,Option.bind_eq_bind,Option.bind_some]

omit [DecidableEq E] in
theorem hash_first_spec (here : t.buckets = some array) (some_bucket : 0 < t.bucket_cnt) :
    ∃ i, hash_first t = some i ∧ At t array xs i (later xs array 0 t.bucket_cnt) := by
  refine ⟨{ bucket := 0, elem := some (.head array 0) },?_,some_bucket,.head array 0,[],xs (array,0),rfl,rfl,?_,?_⟩
  · rw [hash_first,here]
    rfl
  · exact list_begin_spec chained some_bucket
  · rw [← later_succ,Nat.sub_add_cancel some_bucket]

/-- The calls return what is left, one element each, and then a null pointer. -/
theorem walk_spec (here : t.buckets = some array) (n : Nat) (at_ : At t array xs i left) (enough : left.length < n) :
    walk t n i = some (left.map .elem) := by
  induction n generalizing i left with
  | zero => omega
  | succ n ih =>
    obtain ⟨i',ran,⟨rfl,ended⟩ | ⟨e,rest,rfl,current,at_'⟩⟩ := hash_next_spec chained here at_
    · rw [walk,ran,Option.bind_some,ended]
      rfl
    · rw [walk,ran,Option.bind_some,current]
      simp only [ih at_' (by simpa using enough),Option.map_some,List.map_cons]

omit [DecidableEq E] in
theorem later_nodup (n bucket : Nat) (inside : bucket + n ≤ t.bucket_cnt) : (later xs array bucket n).Nodup := by
  rw [later,List.nodup_flatMap]
  constructor
  · intro b member
    have below := List.mem_range'_1.mp member
    exact chained_nodup chained (show Buckets array t.bucket_cnt (array,b) from ⟨rfl,by omega⟩)
  · refine List.Pairwise.imp_of_mem ?_ (show (List.range' bucket n).Nodup from List.nodup_range')
    intro a b one two other e inA inB
    have a_below := List.mem_range'_1.mp one
    have b_below := List.mem_range'_1.mp two
    have a_bucket : Buckets array t.bucket_cnt (array,a) := ⟨rfl,by omega⟩
    have b_bucket : Buckets array t.bucket_cnt (array,b) := ⟨rfl,by omega⟩
    exact other (congrArg Prod.snd (chained_same chained a_bucket b_bucket inA inB))

omit [DecidableEq E] in
theorem mem_later : e ∈ later xs array 0 t.bucket_cnt ↔ e ∈ S := by
  rw [later,List.mem_flatMap,chained.members]
  constructor
  · rintro ⟨b,member,listed⟩
    have below := List.mem_range'_1.mp member
    exact ⟨(array,b),⟨rfl,by omega⟩,listed⟩
  · rintro ⟨⟨a,b⟩,⟨rfl,below⟩,listed⟩
    exact ⟨b,List.mem_range'_1.mpr ⟨Nat.zero_le b,by omega⟩,listed⟩

end

/-- An iteration over a table returns each of its elements once, in the order in which
    `hash_apply` comes to them, and ends, with every node of the array that it reads inside. -/
theorem iteration_complete (inv : Inv hash less t) (ready : t.buckets ≠ none) :
    ∃ order : List E, order.Nodup ∧ (∀ e, e ∈ order ↔ e ∈ elements t) ∧ hash_apply t = some order ∧
      ∃ i, hash_first t = some i ∧ ∀ turns > order.length, walk t turns i = some (order.map .elem) := by
  rcases inv with null | ⟨array,S,xs,stored⟩
  · exact absurd null ready
  · have chained := stored.chained
    have four := stored.four
    obtain ⟨i,first,at_⟩ := hash_first_spec chained stored.here (by omega)
    refine ⟨later xs array 0 t.bucket_cnt,later_nodup chained _ _ (by omega),fun e => ?_,?_,i,first,fun turns enough => ?_⟩
    · rw [mem_later chained,stored_elements stored,Finset.mem_coe]
    · rw [hash_apply,stored.here]
      exact applyBuckets_spec chained stored.count t.bucket_cnt 0 (by omega)
    · exact walk_spec chained stored.here turns at_ enough

/-- A table with the elements 1 and 6, in different buckets. -/
theorem iteration_complete_two : ∃ t : Table Nat, t.elem_cnt = 2 ∧
    ∃ order : List Nat, order.Nodup ∧ (∀ e, e ∈ order ↔ e ∈ elements t) ∧ hash_apply t = some order ∧
      ∃ i, hash_first t = some i ∧ ∀ turns > order.length, walk t turns i = some (order.map .elem) := by
  have ran : ∃ t₁ t₂ t₃ : Table Nat,
      call (BitVec.ofNat 32) (fun a b => decide (a < b)) (some 7) blank .hash_init = some (.initialised true,t₁) ∧
      call (BitVec.ofNat 32) (fun a b => decide (a < b)) none t₁ (.hash_insert 1) = some (.elem none,t₂) ∧
      call (BitVec.ofNat 32) (fun a b => decide (a < b)) none t₂ (.hash_insert 6) = some (.elem none,t₃) ∧
      t₃.elem_cnt = 2 ∧ t₃.buckets = some 7 := ⟨_,_,_,rfl,rfl,rfl,rfl,rfl⟩
  obtain ⟨t₁,t₂,t₃,first,second,third,count,buckets⟩ := ran
  have reach : Reaches (machine (BitVec.ofNat 32) fun a b : Nat => decide (a < b)) Anything t₃ := by
    refine .next (e := (.hash_insert 6,none,.elem none)) (.next (e := (.hash_insert 1,none,.elem none))
      (.next (e := (.hash_init,some 7,.initialised true)) (.start (s := blank) rfl) trivial ⟨?_,first⟩) trivial ⟨?_,second⟩) trivial ⟨?_,third⟩
    · exact fun _ same => (by cases same)
    · exact fun given => absurd rfl given
    · exact fun given => absurd rfl given
  exact ⟨t₃,count,iteration_complete (reaches_inv numbers_agree reach) (by simp [buckets])⟩

end Pintos.HashIterators
