import Pintos.ListFamilies
import Pintos.Machines
import Mathlib.Data.Finset.Card
import Mathlib.Data.Set.Card
import Mathlib.Data.Nat.Bitwise
import Mathlib.Order.Defs.Unbundled

/-!
Hash tables: `lib/kernel/hash.c` down to the links of its bucket lists. An element
is a pointer to its `hash_elem`, of any type; `hash` and `less` are any functions of
it. The array of buckets is a block of `malloc`, which may fail and never gives a
block that is still allocated.

`size_t` is a natural number here: a table counts elements, and there are fewer
elements of eight bytes than values of a `size_t`. The loops over lists go round at
most as often as they are allowed to; that this is enough is part of what is proved.
-/
namespace Pintos.HashTables
open Pintos.Machines Pintos.LinkedLists Pintos.ListFamilies
set_option linter.unusedSimpArgs false
variable {E : Type}

/-- The nodes of lists: elements, and the sentinels of the buckets of an array. -/
inductive Address (E : Type)
  | elem (e : E)
  | head (array bucket : Nat)
  | tail (array bucket : Nat)
deriving DecidableEq

/-- `struct hash` and the memory of all nodes. -/
structure Table (E : Type) where
  memory : Memory (Address E)
  elem_cnt : Nat
  bucket_cnt : Nat
  /-- `none` is a null pointer. -/
  buckets : Option Nat

section
variable [DecidableEq E] (hash : E → BitVec 32) (less : E → E → Bool)

def find_bucket (t : Table E) (e : E) : Nat := (hash e).toNat &&& (t.bucket_cnt - 1)

/-- The loop of `find_elem` from `i` on. -/
def find_loop (m : Memory (Address E)) (tail : Address E) (e : E) : Nat → Address E → Option (Option E)
  | 0, _ => none
  | rounds + 1, i =>
    if i = tail then some none
    else match i with
      | .elem hi => if !less hi e && !less e hi then some (some hi) else (m i).next.bind (find_loop m tail e rounds)
      | _ => none

def find_elem (t : Table E) (array bucket : Nat) (e : E) : Option (Option E) := do
  let begin ← (t.memory (.head array bucket)).next
  find_loop less t.memory (.tail array bucket) e (t.elem_cnt + 1) begin

def turn_off_least_1bit (x : Nat) : Nat := x &&& (x - 1)
def is_power_of_2 (x : Nat) : Bool := x ≠ 0 && turn_off_least_1bit x = 0

/-- The loop of `rehash` that rounds down. -/
def round_down : Nat → Nat → Nat
  | 0, x => x
  | rounds + 1, x => if is_power_of_2 x then x else round_down rounds (turn_off_least_1bit x)

/-- `new_bucket_cnt` of `rehash`. -/
def new_bucket_cnt (elem_cnt : Nat) : Nat :=
  let x := if elem_cnt / 2 < 4 then 4 else elem_cnt / 2
  round_down x x

/-- `list_init` of the first buckets of an array. -/
def init_buckets (m : Memory (Address E)) (array : Nat) : Nat → Memory (Address E)
  | 0 => m
  | i + 1 => list_init (init_buckets m array i) (.head array i) (.tail array i)

/-- The inner loop of `rehash` from `elem` on. -/
def move_elems (old i new : Nat) : Nat → Table E → Address E → Option (Table E)
  | 0, _, _ => none
  | rounds + 1, t, elem =>
    if elem = .tail old i then some t
    else match elem with
      | .elem e => do
        let new_bucket := find_bucket hash t e
        let next ← (t.memory elem).next
        let m ← list_remove t.memory elem
        let m ← list_push_front m (.head new new_bucket) elem
        move_elems old i new rounds { t with memory := m } next
      | _ => none

/-- The outer loop of `rehash`: the next `n` buckets from `i` on. -/
def move_buckets (old new : Nat) : Nat → Nat → Table E → Option (Table E)
  | 0, _, t => some t
  | n + 1, i, t => do
    let begin ← (t.memory (.head old i)).next
    let t ← move_elems hash old i new (t.elem_cnt + 1) t begin
    move_buckets old new n (i + 1) t

/-- `malloc` is what the allocation gives if it is reached. -/
def rehash (malloc : Option Nat) (t : Table E) : Option (Table E) := do
  let old_buckets ← t.buckets
  let new_bucket_cnt := new_bucket_cnt t.elem_cnt
  if new_bucket_cnt = t.bucket_cnt then some t
  else match malloc with
    | none => some t
    | some new_buckets =>
      move_buckets hash old_buckets new_buckets t.bucket_cnt 0 { t with
        memory := init_buckets t.memory new_buckets new_bucket_cnt
        buckets := some new_buckets
        bucket_cnt := new_bucket_cnt }

def insert_elem (t : Table E) (array bucket : Nat) (e : E) : Option (Table E) := do
  let m ← list_push_front t.memory (.head array bucket) (.elem e)
  pure { t with memory := m, elem_cnt := t.elem_cnt + 1 }

def remove_elem (t : Table E) (e : E) : Option (Table E) := do
  let m ← list_remove t.memory (.elem e)
  pure { t with memory := m, elem_cnt := t.elem_cnt - 1 }

def hash_insert (malloc : Option Nat) (t : Table E) (new : E) : Option (Option E × Table E) := do
  let array ← t.buckets
  let bucket := find_bucket hash t new
  let old ← find_elem less t array bucket new
  let t ← if old = none then insert_elem t array bucket new else some t
  let t ← rehash hash malloc t
  pure (old,t)

def hash_replace (malloc : Option Nat) (t : Table E) (new : E) : Option (Option E × Table E) := do
  let array ← t.buckets
  let bucket := find_bucket hash t new
  let old ← find_elem less t array bucket new
  let t ← match old with
    | some e => remove_elem t e
    | none => some t
  let t ← insert_elem t array bucket new
  let t ← rehash hash malloc t
  pure (old,t)

def hash_find (t : Table E) (e : E) : Option (Option E) := do
  let array ← t.buckets
  find_elem less t array (find_bucket hash t e) e

def hash_delete (malloc : Option Nat) (t : Table E) (e : E) : Option (Option E × Table E) := do
  let array ← t.buckets
  let found ← find_elem less t array (find_bucket hash t e) e
  match found with
    | none => pure (none,t)
    | some old =>
      let t ← remove_elem t old
      let t ← rehash hash malloc t
      pure (some old,t)

/-- The loop of `hash_clear` over a bucket; `leaves` is what the destructor leaves in
    the memory of an element. -/
def destroy_elems (leaves : E → Node (Address E)) (array i : Nat) :
    Nat → Memory (Address E) → Option (List E × Memory (Address E))
  | 0, _ => none
  | rounds + 1, m =>
    if (m (.head array i)).next = some (.tail array i) then some ([],m)
    else do
      let (front,m) ← list_pop_front m (.head array i) (.tail array i)
      match front with
        | .elem e =>
          let (rest,m) ← destroy_elems leaves array i rounds fun a => if a = .elem e then leaves e else m a
          pure (e :: rest,m)
        | _ => none

/-- `hash_clear` of the first buckets, and the elements it destroys in turn. -/
def clear_buckets (destructor : Option (E → Node (Address E))) (array rounds : Nat) :
    Nat → Memory (Address E) → Option (List E × Memory (Address E))
  | 0, m => some ([],m)
  | i + 1, m => do
    let (destroyed,m) ← clear_buckets destructor array rounds i m
    let (more,m) ← match destructor with
      | none => some ([],m)
      | some leaves => destroy_elems leaves array i rounds m
    pure (destroyed ++ more,list_init m (.head array i) (.tail array i))

def hash_clear (destructor : Option (E → Node (Address E))) (t : Table E) : Option (List E × Table E) := do
  let array ← t.buckets
  let (destroyed,m) ← clear_buckets destructor array (t.elem_cnt + 1) t.bucket_cnt t.memory
  pure (destroyed,{ t with memory := m, elem_cnt := 0 })

def hash_init (malloc : Option Nat) (t : Table E) : Option (Bool × Table E) :=
  let t := { t with elem_cnt := 0, bucket_cnt := 4, buckets := malloc }
  if malloc = none then some (false,t) else (hash_clear none t).map fun (_,t) => (true,t)

/-- A call of a function of the table. -/
inductive Call (E : Type)
  | hash_init
  | hash_insert (new : E)
  | hash_replace (new : E)
  | hash_find (e : E)
  | hash_delete (e : E)
  /-- The destructor, if there is one, as what it leaves of each element. -/
  | hash_clear (destructor : Option (E → Node (Address E)))

inductive Answer (E : Type)
  | initialised (success : Bool)
  | elem (old : Option E)
  /-- The elements that the destructor is called for. -/
  | cleared (destroyed : List E)
deriving DecidableEq

def call (malloc : Option Nat) (t : Table E) : Call E → Option (Answer E × Table E)
  | .hash_init => (hash_init malloc t).map fun (success,t) => (.initialised success,t)
  | .hash_insert new => (hash_insert hash less malloc t new).map fun (old,t) => (.elem old,t)
  | .hash_replace new => (hash_replace hash less malloc t new).map fun (old,t) => (.elem old,t)
  | .hash_find e => (hash_find hash less t e).map fun found => (.elem found,t)
  | .hash_delete e => (hash_delete hash less malloc t e).map fun (found,t) => (.elem found,t)
  | .hash_clear destructor => (hash_clear destructor t).map fun (destroyed,t) => (.cleared destroyed,t)

/-- The block of the table is not given again. -/
def Fresh (malloc : Option Nat) (t : Table E) : Prop := malloc ≠ none → malloc ≠ t.buckets

/-- The calls on a table that starts without buckets, in any memory. -/
def machine : Machine (Table E) (Call E × Option Nat × Answer E) where
  Initial t := t.buckets = none
  Step t event t' := Fresh event.2.1 t ∧ call hash less event.2.1 t event.1 = some (event.2.2,t')

/-- The elements on the bucket lists. -/
def elements (t : Table E) : Set E := { e | ∃ array i xs, t.buckets = some array ∧ i < t.bucket_cnt ∧
  Represents t.memory (.head array i) (.tail array i) xs ∧ .elem e ∈ xs }

def Equivalent (a b : E) : Prop := less a b = false ∧ less b a = false

/-- What a search for `e` in a set finds. -/
def Found (S : Set E) (e : E) : Option E → Prop
  | some old => old ∈ S ∧ Equivalent less old e
  | none => ∀ x ∈ S, ¬ Equivalent less x e

/-- What a call does to a set of elements. -/
def Spec (S S' : Set E) : Call E → Answer E → Prop
  | .hash_init, .initialised _ => S' = ∅
  | .hash_insert new, .elem old => Found less S new old ∧ S' = if old = none then insert new S else S
  | .hash_replace new, .elem old => Found less S new old ∧ S' = insert new { x ∈ S | old ≠ some x }
  | .hash_find e, .elem old => Found less S e old ∧ S' = S
  | .hash_delete e, .elem old => Found less S e old ∧ S' = { x ∈ S | old ≠ some x }
  | .hash_clear destructor, .cleared destroyed => S' = ∅ ∧ destroyed.Nodup ∧
      ∀ e, e ∈ destroyed ↔ destructor.isSome ∧ e ∈ S
  | _, _ => False

/-- A table that is a set. -/
structure Sound (t : Table E) : Prop where
  count : (elements t).encard = t.elem_cnt
  power : ∃ k, t.bucket_cnt = 2 ^ k
  four : 4 ≤ t.bucket_cnt
  placed : ∀ array i xs e, t.buckets = some array → i < t.bucket_cnt →
    Represents t.memory (.head array i) (.tail array i) xs → .elem e ∈ xs → find_bucket hash t e = i
  single : ∀ a ∈ elements t, ∀ b ∈ elements t, Equivalent less a b → a = b
end

/-! ### Powers of two -/

theorem turn_off_even (x : Nat) : turn_off_least_1bit (2 * x) = 2 * turn_off_least_1bit x := by
  refine Nat.eq_of_testBit_eq fun i => ?_
  cases x with
  | zero => rfl
  | succ x =>
    have before : 2 * (x + 1) - 1 = 2 * x + 1 := by omega
    cases i with
    | zero => simp [turn_off_least_1bit,before]
    | succ i =>
      rw [turn_off_least_1bit,turn_off_least_1bit,before,Nat.testBit_and,Nat.testBit_succ,Nat.testBit_succ,Nat.testBit_succ,
        Nat.mul_div_cancel_left _ (by decide),Nat.mul_div_cancel_left _ (by decide),show (2 * x + 1) / 2 = x by omega,
        Nat.testBit_and,show x + 1 - 1 = x by omega]

theorem turn_off_odd (x : Nat) : turn_off_least_1bit (2 * x + 1) = 2 * x := by
  refine Nat.eq_of_testBit_eq fun i => ?_
  rw [turn_off_least_1bit,Nat.testBit_and,show 2 * x + 1 - 1 = 2 * x by omega]
  cases i with
  | zero => simp
  | succ i =>
    rw [Nat.testBit_succ,Nat.testBit_succ,Nat.mul_div_cancel_left _ (by decide),show (2 * x + 1) / 2 = x by omega,Bool.and_self]

theorem turn_off_lt {x : Nat} (positive : x ≠ 0) : turn_off_least_1bit x < x := by
  have bound : turn_off_least_1bit x ≤ x - 1 := Nat.and_le_right
  omega

/-- Only a power of 2 has one bit. -/
theorem power_of_turn_off (x : Nat) (positive : x ≠ 0) (off : turn_off_least_1bit x = 0) : ∃ k, x = 2 ^ k := by
  induction x using Nat.strongRecOn with
  | ind x ih =>
    rcases Nat.even_or_odd' x with ⟨y,rfl | rfl⟩
    · rw [turn_off_even] at off
      obtain ⟨k,same⟩ := ih y (by omega) (by omega) (by omega)
      exact ⟨k + 1,by rw [same,Nat.pow_succ,Nat.mul_comm]⟩
    · rw [turn_off_odd] at off
      exact ⟨0,by omega⟩

/-- Turning off a bit that is not the only one leaves the highest. -/
theorem turn_off_keeps (x k : Nat) (more : turn_off_least_1bit x ≠ 0) (above : 2 ^ k ≤ x) : 2 ^ k ≤ turn_off_least_1bit x := by
  induction x using Nat.strongRecOn generalizing k with
  | ind x ih =>
    cases k with
    | zero => omega
    | succ k =>
      rw [Nat.pow_succ] at above ⊢
      rcases Nat.even_or_odd' x with ⟨y,rfl | rfl⟩
      · have nonzero : y ≠ 0 := by
          rintro rfl
          exact more rfl
        rw [turn_off_even] at more ⊢
        have half := ih y (by omega) k (by omega) (by omega)
        omega
      · rw [turn_off_odd]
        omega

theorem round_down_spec (rounds x k : Nat) (enough : x ≤ rounds) (positive : x ≠ 0) (above : 2 ^ k ≤ x) :
    (∃ j, round_down rounds x = 2 ^ j) ∧ 2 ^ k ≤ round_down rounds x := by
  induction rounds generalizing x with
  | zero => omega
  | succ rounds ih =>
    rw [round_down]
    split
    · next power =>
      simp only [is_power_of_2,Bool.and_eq_true,decide_eq_true_eq] at power
      exact ⟨power_of_turn_off x positive power.2,above⟩
    · next several =>
      have more : turn_off_least_1bit x ≠ 0 := by
        intro off
        exact several (by simp [is_power_of_2,positive,off])
      have less := turn_off_lt positive
      exact ih (turn_off_least_1bit x) (by omega) more (turn_off_keeps x k more above)

theorem new_bucket_cnt_spec (elem_cnt : Nat) : (∃ k, new_bucket_cnt elem_cnt = 2 ^ k) ∧ 4 ≤ new_bucket_cnt elem_cnt := by
  rw [new_bucket_cnt]
  split
  · exact round_down_spec 4 4 2 (Nat.le_refl _) (by decide) (by decide)
  · exact round_down_spec _ _ 2 (Nat.le_refl _) (by omega) (by omega)

theorem find_bucket_lt (hash : E → BitVec 32) (t : Table E) (power : ∃ k, t.bucket_cnt = 2 ^ k) (e : E) :
    find_bucket hash t e < t.bucket_cnt := by
  obtain ⟨k,cnt⟩ := power
  rw [find_bucket,cnt,Nat.and_two_pow_sub_one_eq_mod]
  exact Nat.mod_lt _ (Nat.two_pow_pos k)

/-! ### Buckets -/

/-- Lists of elements, each with the array and the number of its bucket, that hold the
    elements of `S` between them. -/
structure Chained (m : Memory (Address E)) (I : Nat × Nat → Prop) (S : Finset E) (xs : Nat × Nat → List E) : Prop where
  family : Family m I (fun i => .head i.1 i.2) (fun i => .tail i.1 i.2) fun i => (xs i).map .elem
  members : ∀ e, e ∈ S ↔ ∃ i, I i ∧ e ∈ xs i

/-- The buckets of an array. -/
def Buckets (array cnt : Nat) (i : Nat × Nat) : Prop := i.1 = array ∧ i.2 < cnt

section
variable {m m' : Memory (Address E)} {I : Nat × Nat → Prop} {S : Finset E} {xs : Nat × Nat → List E} {i j : Nat × Nat} {e : E}
  {before after : List E} {array : Nat}

theorem elem_mem_map {ys : List E} : Address.elem e ∈ ys.map .elem ↔ e ∈ ys := by
  simp

theorem chained_nodup (chained : Chained m I S xs) (inside : I i) : (xs i).Nodup := by
  have once := (chained.family.each i inside).once
  rw [List.nodup_cons,List.nodup_append] at once
  exact List.Nodup.of_map _ once.2.1

theorem chained_same (chained : Chained m I S xs) (one : I i) (two : I j) (inOne : e ∈ xs i) (inTwo : e ∈ xs j) : i = j :=
  family_elem chained.family one two (elem_mem_map.mpr inOne) (elem_mem_map.mpr inTwo)

theorem update_map (xs : Nat × Nat → List E) (i : Nat × Nat) (ys : List E) :
    Function.update (fun j => (xs j).map (Address.elem (E := E))) i (ys.map .elem) =
      fun j => (Function.update xs i ys j).map .elem := by
  funext j
  by_cases same : j = i
  · subst same
    simp
  · simp [same]

variable [DecidableEq E]

theorem chained_length (chained : Chained m I S xs) (inside : I i) : (xs i).length ≤ S.card := by
  rw [← List.toFinset_card_of_nodup (chained_nodup chained inside)]
  refine Finset.card_le_card fun e member => ?_
  exact (chained.members e).mpr ⟨i,inside,List.mem_toFinset.mp member⟩

theorem chained_push (chained : Chained m I S xs) (inside : I i) (fresh : e ∉ S) :
    ∃ m', list_push_front m (.head i.1 i.2) (.elem e) = some m' ∧
    Chained m' I (insert e S) (Function.update xs i (e :: xs i)) := by
  obtain ⟨m',pushed,family,-⟩ := family_push_front (.elem e) chained.family inside fun j listed member => by
    rcases mem_nodes.mp member with same | element | same
    · cases same
    · exact fresh ((chained.members e).mpr ⟨j,listed,elem_mem_map.mp element⟩)
    · cases same
  refine ⟨m',pushed,?_,fun a => ?_⟩
  · rw [← List.map_cons,update_map] at family
    exact family
  · rw [Finset.mem_insert,chained.members]
    constructor
    · rintro (rfl | ⟨j,listed,element⟩)
      · exact ⟨i,inside,by simp⟩
      · refine ⟨j,listed,?_⟩
        by_cases same : j = i
        · subst same
          simp [element]
        · simpa [same] using element
    · rintro ⟨j,listed,element⟩
      by_cases same : j = i
      · subst same
        rw [Function.update_self] at element
        rcases List.mem_cons.mp element with rfl | old
        · exact .inl rfl
        · exact .inr ⟨j,listed,old⟩
      · rw [Function.update_of_ne same] at element
        exact .inr ⟨j,listed,element⟩

theorem chained_remove (before after : List E) (chained : Chained m I S xs) (inside : I i) (cut : xs i = before ++ e :: after) :
    ∃ m', list_remove m (.elem e) = some m' ∧ Chained m' I (S.erase e) (Function.update xs i (before ++ after)) := by
  have once := chained_nodup chained inside
  rw [cut,List.nodup_middle,List.nodup_cons] at once
  obtain ⟨m',removed,family,-⟩ := family_remove (.elem e) (before.map .elem) (after.map .elem)
    chained.family inside (by rw [cut,List.map_append,List.map_cons])
  refine ⟨m',removed,?_,fun a => ?_⟩
  · rw [← List.map_append,update_map] at family
    exact family
  · rw [Finset.mem_erase,chained.members]
    constructor
    · rintro ⟨other,j,listed,element⟩
      refine ⟨j,listed,?_⟩
      by_cases same : j = i
      · subst same
        rw [cut,List.mem_append,List.mem_cons] at element
        rw [Function.update_self,List.mem_append]
        exact element.imp_right fun later => later.resolve_left other
      · simpa [same] using element
    · rintro ⟨j,listed,element⟩
      by_cases same : j = i
      · subst same
        rw [Function.update_self] at element
        refine ⟨fun equal => once.1 (equal ▸ element),j,listed,?_⟩
        rw [cut,List.mem_append,List.mem_cons]
        exact (List.mem_append.mp element).imp_right .inr
      · rw [Function.update_of_ne same] at element
        refine ⟨?_,j,listed,element⟩
        rintro rfl
        exact same (chained_same chained listed inside element (by rw [cut]; simp))

/-- The loop of `find_elem` is a search of the rest of the bucket. -/
theorem find_loop_spec (less : E → E → Bool) (rounds : Nat) (before rest : List (Address E)) (es : List E) (sought : E)
    {head tail : Address E} (list : Represents m head tail (before ++ rest)) (elems : rest = es.map .elem)
    (enough : es.length < rounds) :
    find_loop less m tail sought rounds (following tail rest) =
      some (es.find? fun hi => !less hi sought && !less sought hi) := by
  induction es generalizing rounds before rest with
  | nil =>
    subst elems
    cases rounds with
    | zero => omega
    | succ rounds => simp [find_loop,following]
  | cons e es ih =>
    subst elems
    cases rounds with
    | zero => omega
    | succ rounds =>
      have once := list.once
      have notTail : Address.elem e ≠ tail := by
        rintro rfl
        simp [List.nodup_cons,List.nodup_append] at once
      rw [List.map_cons] at list ⊢
      have next := (represents_links list).2
      have later := ih rounds (before ++ [.elem e]) (es.map .elem) (by rw [List.append_assoc]; exact list) rfl (by
        simp only [List.length_cons] at enough
        omega)
      rw [following,find_loop,if_neg notTail,List.find?_cons]
      split
      · next matches_ => rw [matches_]
      · next other =>
        rw [Bool.eq_false_iff.mpr other,next]
        exact later
end

/-! ### A table between its steps -/

/-- The table holds `S`, each element in its bucket. -/
structure Stored (hash : E → BitVec 32) (less : E → E → Bool) (t : Table E) (array : Nat) (S : Finset E)
    (xs : Nat × Nat → List E) :
    Prop where
  here : t.buckets = some array
  chained : Chained t.memory (Buckets array t.bucket_cnt) S xs
  placed : ∀ i, Buckets array t.bucket_cnt i → ∀ e ∈ xs i, find_bucket hash t e = i.2
  count : t.elem_cnt = S.card
  power : ∃ k, t.bucket_cnt = 2 ^ k
  four : 4 ≤ t.bucket_cnt
  single : ∀ a ∈ S, ∀ b ∈ S, Equivalent less a b → a = b

section
variable {hash : E → BitVec 32} {less : E → E → Bool} {t t' : Table E} {array new old : Nat} {S : Finset E}
  {xs : Nat × Nat → List E} {e : E} {a b c : E}

theorem equivalent_symm (equal : Equivalent less a b) : Equivalent less b a := ⟨equal.2,equal.1⟩

theorem stored_inside (stored : Stored hash less t array S xs) (e : E) :
    Buckets array t.bucket_cnt (array,find_bucket hash t e) := ⟨rfl,find_bucket_lt hash t stored.power e⟩

theorem stored_mem (stored : Stored hash less t array S xs) : e ∈ S ↔ e ∈ xs (array,find_bucket hash t e) := by
  rw [stored.chained.members]
  constructor
  · rintro ⟨⟨a,i⟩,inside,member⟩
    obtain ⟨rfl,-⟩ := id inside
    rw [stored.placed _ inside e member]
    exact member
  · exact fun member => ⟨_,stored_inside stored e,member⟩

theorem stored_elements (stored : Stored hash less t array S xs) : elements t = ↑S := by
  ext e
  rw [elements,Set.mem_ofPred_eq,Finset.mem_coe,stored.chained.members]
  constructor
  · rintro ⟨a,i,ys,here,below,list,member⟩
    rw [stored.here] at here
    obtain rfl : array = a := Option.some.inj here
    refine ⟨(array,i),⟨rfl,below⟩,elem_mem_map.mp ?_⟩
    rw [represents_unique (stored.chained.family.each (array,i) ⟨rfl,below⟩) list]
    exact member
  · rintro ⟨⟨a,i⟩,inside,member⟩
    obtain ⟨rfl,below⟩ := id inside
    exact ⟨_,i,_,stored.here,below,stored.chained.family.each _ inside,elem_mem_map.mpr member⟩

theorem elements_none (none_ : t.buckets = none) : elements t = ∅ := by
  ext e
  simp [elements,none_]

theorem stored_sound (stored : Stored hash less t array S xs) : Sound hash less t where
  count := by
    rw [stored_elements stored,Set.encard_coe_eq_coe_finsetCard,stored.count]
  power := stored.power
  four := stored.four
  placed a i ys e here below list member := by
    rw [stored.here] at here
    obtain rfl : array = a := Option.some.inj here
    refine stored.placed (array,i) ⟨rfl,below⟩ e (elem_mem_map.mp ?_)
    rw [represents_unique (stored.chained.family.each (array,i) ⟨rfl,below⟩) list]
    exact member
  single := by
    rw [stored_elements stored]
    exact stored.single

variable [DecidableEq E]

/-- A search looks through the one bucket where an equal element can be. -/
theorem stored_find (agrees : ∀ a b, Equivalent less a b → hash a = hash b) (stored : Stored hash less t array S xs) (e : E) :
    ∃ found, find_elem less t array (find_bucket hash t e) e = some found ∧ Found less ↑S e found := by
  have inside := stored_inside stored e
  have list := stored.chained.family.each _ inside
  have enough := chained_length stored.chained inside
  rw [← stored.count] at enough
  refine ⟨(xs (array,find_bucket hash t e)).find? fun hi => !less hi e && !less e hi,?_,?_⟩
  · rw [find_elem,(represents_front list).1]
    exact find_loop_spec less (t.elem_cnt + 1) [] _ (xs (array,find_bucket hash t e)) e list rfl (by omega)
  · cases found : (xs (array,find_bucket hash t e)).find? fun hi => !less hi e && !less e hi with
    | some old =>
      have equal := List.find?_some found
      simp only [Bool.and_eq_true,Bool.not_eq_true'] at equal
      exact ⟨(stored.chained.members old).mpr ⟨_,inside,List.mem_of_find?_eq_some found⟩,equal⟩
    | none =>
      intro x member equal
      have same : find_bucket hash t x = find_bucket hash t e := by rw [find_bucket,agrees x e equal,find_bucket]
      have listed := (stored_mem stored).mp (Finset.mem_coe.mp member)
      rw [same] at listed
      have refused := List.find?_eq_none.mp found x listed
      rw [equal.1,equal.2] at refused
      exact refused rfl

theorem stored_remove (stored : Stored hash less t array S xs) (member : e ∈ S) :
    ∃ t' xs', remove_elem t e = some t' ∧ t'.bucket_cnt = t.bucket_cnt ∧ Stored hash less t' array (S.erase e) xs' := by
  have inside := stored_inside stored e
  obtain ⟨before,after,cut⟩ := List.append_of_mem ((stored_mem stored).mp member)
  obtain ⟨m',removed,chained⟩ := chained_remove before after stored.chained inside cut
  refine ⟨{ t with memory := m', elem_cnt := t.elem_cnt - 1 },_,by rw [remove_elem,removed]; rfl,rfl,stored.here,chained,?_,?_,
    stored.power,stored.four,?_⟩
  · intro i listed f element
    have still : f ∈ xs i := by
      by_cases same : i = (array,find_bucket hash t e)
      · rw [same,Function.update_self] at element
        rw [same,cut]
        rcases List.mem_append.mp element with early | late
        · exact List.mem_append_left _ early
        · exact List.mem_append_right _ (List.mem_cons_of_mem _ late)
      · rwa [Function.update_of_ne same] at element
    exact stored.placed i listed f still
  · rw [Finset.card_erase_of_mem member,stored.count]
  · intro a one b two equal
    exact stored.single a (Finset.mem_of_mem_erase one) b (Finset.mem_of_mem_erase two) equal

theorem stored_insert [order : IsStrictWeakOrder E fun a b => less a b = true] (stored : Stored hash less t array S xs)
    (new : ∀ x ∈ S, ¬ Equivalent less x e) :
    ∃ t' xs', insert_elem t array (find_bucket hash t e) e = some t' ∧ Stored hash less t' array (insert e S) xs' := by
  have inside := stored_inside stored e
  have fresh : e ∉ S := by
    intro member
    have irreflexive : less e e = false := Bool.eq_false_iff.mpr (order.irrefl e)
    exact new e member ⟨irreflexive,irreflexive⟩
  obtain ⟨m',pushed,chained⟩ := chained_push stored.chained inside fresh
  refine ⟨{ t with memory := m', elem_cnt := t.elem_cnt + 1 },_,by rw [insert_elem,pushed]; rfl,stored.here,chained,?_,?_,
    stored.power,stored.four,?_⟩
  · intro i listed f element
    by_cases same : i = (array,find_bucket hash t e)
    · rw [same,Function.update_self] at element
      rcases List.mem_cons.mp element with rfl | old
      · rw [same]
        rfl
      · rw [same]
        exact stored.placed _ inside f old
    · rw [Function.update_of_ne same] at element
      exact stored.placed i listed f element
  · rw [Finset.card_insert_of_notMem fresh,stored.count]
  · intro a one b two equal
    rcases Finset.mem_insert.mp one with first | first
    · rcases Finset.mem_insert.mp two with second | second
      · exact first.trans second.symm
      · exact absurd (equivalent_symm (first ▸ equal)) (new b second)
    · rcases Finset.mem_insert.mp two with second | second
      · exact absurd (second ▸ equal) (new a first)
      · exact stored.single a first b second equal

/-! ### Rehashing -/

/-- The new array, with empty buckets, beside the old one. -/
theorem chained_init {m : Memory (Address E)} {cnt : Nat} (chained : Chained m (Buckets old cnt) S xs) (other : new ≠ old)
    (n : Nat) :
    Chained (init_buckets m new n) (fun i => Buckets old cnt i ∨ Buckets new n i) S fun i => if i.1 = new then [] else xs i := by
  have kept : ∀ i, Buckets old cnt i → xs i = if i.1 = new then [] else xs i := by
    intro i inside
    rw [if_neg fun same => other (same.symm.trans inside.1)]
  constructor
  · induction n with
    | zero =>
      have start := family_congr chained.family fun i inside => congrArg (List.map Address.elem) (kept i inside)
      exact family_mono start fun i inside => inside.resolve_right fun none => Nat.not_lt_zero _ none.2
    | succ n ih =>
      have apart : ∀ j, (Buckets old cnt j ∨ Buckets new n j) → j ≠ (new,n) := by
        rintro j (inside | inside) rfl
        · exact other inside.1
        · exact Nat.lt_irrefl n inside.2
      have extended := family_init (i := (new,n)) ih (fun inside => apart _ inside rfl) (fun same => by cases same) ?_ ?_
      · refine family_congr (family_mono extended ?_) ?_
        · rintro i (inside | ⟨same,below⟩)
          · exact .inl (.inl inside)
          · rcases Nat.lt_succ_iff_lt_or_eq.mp below with earlier | last
            · exact .inl (.inr ⟨same,earlier⟩)
            · exact .inr (Prod.ext same last)
        · intro i _
          by_cases same : i = (new,n)
          · rw [same,Function.update_self,if_pos rfl]
            rfl
          · rw [Function.update_of_ne same]
      · intro j inside member
        rcases mem_nodes.mp member with same | element | same
        · exact apart j inside (Prod.ext (Address.head.inj same).1.symm (Address.head.inj same).2.symm)
        · obtain ⟨e,-,same⟩ := List.mem_map.mp element
          cases same
        · cases same
      · intro j inside member
        rcases mem_nodes.mp member with same | element | same
        · cases same
        · obtain ⟨e,-,same⟩ := List.mem_map.mp element
          cases same
        · exact apart j inside (Prod.ext (Address.tail.inj same).1.symm (Address.tail.inj same).2.symm)
  · intro e
    rw [chained.members]
    constructor
    · rintro ⟨i,inside,member⟩
      exact ⟨i,.inl inside,by rw [← kept i inside]; exact member⟩
    · rintro ⟨i,inside | inside,member⟩
      · exact ⟨i,inside,by rw [kept i inside]; exact member⟩
      · rw [if_pos inside.1] at member
        cases member

/-- The elements of the new array are in their buckets. -/
def Placed (hash : E → BitVec 32) (t : Table E) (new : Nat) (xs : Nat × Nat → List E) : Prop :=
  ∀ j, ∀ e ∈ xs (new,j), find_bucket hash t e = j

/-- The inner loop of `rehash` empties one bucket. -/
theorem move_elems_spec (hash : E → BitVec 32) {cnt i : Nat} (rounds : Nat) (rest : List E) (t : Table E)
    (xs : Nat × Nat → List E)
    (power : ∃ k, t.bucket_cnt = 2 ^ k) (other : new ≠ old) (below : i < cnt)
    (chained : Chained t.memory (fun i => Buckets old cnt i ∨ Buckets new t.bucket_cnt i) S xs) (placed : Placed hash t new xs)
    (left : xs (old,i) = rest) (enough : rest.length < rounds) :
    ∃ m' xs', move_elems hash old i new rounds t (following (.tail old i) (rest.map .elem)) = some { t with memory := m' } ∧
      Chained m' (fun i => Buckets old cnt i ∨ Buckets new t.bucket_cnt i) S xs' ∧ Placed hash t new xs' ∧
      xs' (old,i) = [] ∧ ∀ j, j ≠ i → xs' (old,j) = xs (old,j) := by
  induction rest generalizing rounds t xs with
  | nil =>
    cases rounds with
    | zero => exact absurd enough (Nat.not_lt_zero _)
    | succ rounds =>
      refine ⟨t.memory,xs,?_,chained,placed,left,fun _ _ => rfl⟩
      simp [move_elems,following]
  | cons e rest ih =>
    cases rounds with
    | zero => exact absurd enough (Nat.not_lt_zero _)
    | succ rounds =>
      have inside : Buckets old cnt (old,i) ∨ Buckets new t.bucket_cnt (old,i) := .inl ⟨rfl,below⟩
      have into : Buckets old cnt (new,find_bucket hash t e) ∨ Buckets new t.bucket_cnt (new,find_bucket hash t e) :=
        .inr ⟨rfl,find_bucket_lt hash t power e⟩
      have apart : ∀ b j, ((old,j) : Nat × Nat) ≠ (new,b) := fun b j same => other (congrArg Prod.fst same).symm
      have list := chained.family.each _ inside
      rw [left,List.map_cons] at list
      have next := (represents_links (by rwa [← List.nil_append (_ :: _)] at list)).2
      obtain ⟨m,removed,without⟩ := chained_remove [] rest chained inside left
      obtain ⟨m',pushed,moved⟩ := chained_push without into (Finset.notMem_erase e S)
      have member : e ∈ S := (chained.members e).mpr ⟨_,inside,by rw [left]; exact List.mem_cons_self ..⟩
      rw [Finset.insert_erase member] at moved
      have well : Placed hash t new (Function.update (Function.update xs (old,i) ([] ++ rest)) (new,find_bucket hash t e)
          (e :: Function.update xs (old,i) ([] ++ rest) (new,find_bucket hash t e))) := by
        intro j f element
        by_cases bucket : j = find_bucket hash t e
        · subst bucket
          rw [Function.update_self] at element
          rcases List.mem_cons.mp element with rfl | older
          · rfl
          · rw [Function.update_of_ne (apart _ _).symm] at older
            exact placed _ f older
        · rw [Function.update_of_ne fun equal => bucket (congrArg Prod.snd equal),
            Function.update_of_ne (apart _ _).symm] at element
          exact placed j f element
      have shorter : rest.length < rounds := by
        simp only [List.length_cons] at enough
        omega
      obtain ⟨m'',xs',ran,after,good,empty,same⟩ := ih rounds { t with memory := m' } _ power moved well
        (by rw [Function.update_of_ne (apart _ _),Function.update_self,List.nil_append]) shorter
      refine ⟨m'',xs',?_,after,good,empty,?_⟩
      · rw [List.map_cons,following,move_elems,if_neg (fun same => by cases same)]
        simp only [next,removed,pushed,Option.bind_eq_bind,Option.bind_some]
        exact ran
      · intro j different
        rw [same j different,Function.update_of_ne (apart _ _),
          Function.update_of_ne fun equal => different (congrArg Prod.snd equal)]

/-- The outer loop of `rehash` empties the old array. -/
theorem move_buckets_spec (hash : E → BitVec 32) {cnt : Nat} (n i : Nat) (t : Table E) (xs : Nat × Nat → List E)
    (power : ∃ k, t.bucket_cnt = 2 ^ k)
    (other : new ≠ old) (all : i + n = cnt) (count : t.elem_cnt = S.card)
    (chained : Chained t.memory (fun i => Buckets old cnt i ∨ Buckets new t.bucket_cnt i) S xs) (placed : Placed hash t new xs)
    (done : ∀ j < i, xs (old,j) = []) :
    ∃ m' xs', move_buckets hash old new n i t = some { t with memory := m' } ∧
      Chained m' (fun i => Buckets old cnt i ∨ Buckets new t.bucket_cnt i) S xs' ∧ Placed hash t new xs' ∧
      ∀ j < cnt, xs' (old,j) = [] := by
  induction n generalizing i t xs with
  | zero =>
    subst all
    exact ⟨t.memory,xs,rfl,chained,placed,done⟩
  | succ n ih =>
    have below : i < cnt := by omega
    have inside : Buckets old cnt (old,i) ∨ Buckets new t.bucket_cnt (old,i) := .inl ⟨rfl,below⟩
    have enough := chained_length chained inside
    obtain ⟨m,ys,moved,after,well,empty,same⟩ := move_elems_spec hash (t.elem_cnt + 1) _ t xs power other below chained placed rfl
      (by omega)
    have processed : ∀ j < i + 1, ys (old,j) = [] := by
      intro j earlier
      rcases Nat.lt_succ_iff_lt_or_eq.mp earlier with before | rfl
      · rw [same j (Nat.ne_of_lt before)]
        exact done j before
      · exact empty
    obtain ⟨m',xs',ran,rest,good,finished⟩ := ih (i + 1) { t with memory := m } ys power (by omega) count after well processed
    refine ⟨m',xs',?_,rest,good,finished⟩
    rw [move_buckets,(represents_front (chained.family.each _ inside)).1]
    simp only [Option.bind_eq_bind,Option.bind_some,moved]
    exact ran

theorem rehash_spec {malloc : Option Nat} (stored : Stored hash less t array S xs) (fresh : Fresh malloc t) :
    ∃ t' array' xs', rehash hash malloc t = some t' ∧ Stored hash less t' array' S xs' := by
  rw [rehash,stored.here]
  simp only [Option.bind_eq_bind,Option.bind_some]
  split
  · exact ⟨t,array,xs,rfl,stored⟩
  · cases malloc with
    | none => exact ⟨t,array,xs,rfl,stored⟩
    | some new =>
      have other : new ≠ array := fun same => fresh (Option.some_ne_none _) (by rw [stored.here,same])
      obtain ⟨power,four⟩ := new_bucket_cnt_spec t.elem_cnt
      have chained := chained_init stored.chained other (new_bucket_cnt t.elem_cnt)
      have start : Placed hash { t with buckets := some new, bucket_cnt := new_bucket_cnt t.elem_cnt } new
          fun i => if i.1 = new then [] else xs i := by
        intro j e member
        simp at member
      obtain ⟨m',xs',moved,after,placed,empty⟩ := move_buckets_spec hash t.bucket_cnt 0
        { t with memory := init_buckets t.memory new (new_bucket_cnt t.elem_cnt), buckets := some new, bucket_cnt := new_bucket_cnt t.elem_cnt }
        _ power other (Nat.zero_add _) stored.count chained start fun j before => absurd before (Nat.not_lt_zero _)
      refine ⟨_,new,xs',moved,rfl,⟨family_mono after.family fun i inside => .inr inside,fun e => ?_⟩,?_,stored.count,power,four,
        stored.single⟩
      · rw [after.members]
        constructor
        · rintro ⟨⟨a,i⟩,inside | inside,member⟩
          · obtain ⟨rfl,below⟩ := inside
            rw [empty i below] at member
            cases member
          · exact ⟨_,inside,member⟩
        · rintro ⟨i,inside,member⟩
          exact ⟨i,.inr inside,member⟩
      · rintro ⟨a,i⟩ ⟨rfl,-⟩ e member
        exact placed i e member

/-! ### Clearing -/

theorem list_init_same {m : Memory (Address E)} {head tail : Address E} (list : Represents m head tail []) :
    list_init m head tail = m := by
  obtain ⟨next,prev⟩ := represents_front list
  funext a
  simp only [list_init]
  split
  · next same =>
    subst same
    exact Node.ext list.first.symm next.symm
  · split
    · next same =>
      subst same
      exact Node.ext prev.symm list.last.symm
    · rfl

theorem clear_buckets_plain (m : Memory (Address E)) (array rounds n : Nat) :
    clear_buckets none array rounds n m = some ([],init_buckets m array n) := by
  induction n with
  | zero => rfl
  | succ n ih =>
    rw [clear_buckets,ih]
    rfl

/-- An array whose buckets are initialised holds nothing. -/
theorem chained_empty (m : Memory (Address E)) (array n : Nat) :
    Chained (init_buckets m array n) (Buckets array n) ∅ fun _ => [] := by
  have nothing : Chained m (Buckets (array + 1) 0) ∅ fun _ => [] := by
    refine ⟨⟨fun i inside => ?_,fun i j inside => ?_⟩,fun e => ⟨fun member => ?_,?_⟩⟩
    · exact absurd inside.2 (Nat.not_lt_zero _)
    · exact absurd inside.2 (Nat.not_lt_zero _)
    · exact absurd member (Finset.notMem_empty e)
    · rintro ⟨i,-,member⟩
      cases member
  have both := chained_init nothing (Nat.ne_of_lt (Nat.lt_succ_self array)) n
  refine ⟨family_congr (family_mono both.family fun i inside => .inr inside) fun i _ => by simp,fun e => ⟨fun member => ?_,?_⟩⟩
  · exact absurd member (Finset.notMem_empty e)
  · rintro ⟨i,-,member⟩
    cases member

/-- Nothing depends on the memory of an element that is in no bucket. -/
theorem chained_frame {m : Memory (Address E)} {I : Nat × Nat → Prop} (chained : Chained m I S xs) (outside : e ∉ S)
    (node : Node (Address E)) : Chained (fun a => if a = .elem e then node else m a) I S xs := by
  refine ⟨family_frame chained.family fun i inside a member => if_neg ?_,chained.members⟩
  rintro rfl
  rcases mem_nodes.mp member with same | element | same
  · cases same
  · exact outside ((chained.members e).mpr ⟨i,inside,elem_mem_map.mp element⟩)
  · cases same

theorem destroy_elems_spec {I : Nat × Nat → Prop} {i : Nat} (leaves : E → Node (Address E)) (rounds : Nat) (rest : List E)
    (m : Memory (Address E)) (S : Finset E) (xs : Nat × Nat → List E) (inside : I (array,i)) (chained : Chained m I S xs)
    (left : xs (array,i) = rest) (enough : rest.length < rounds) :
    ∃ m', destroy_elems leaves array i rounds m = some (rest,m') ∧
      Chained m' I (S \ rest.toFinset) (Function.update xs (array,i) []) := by
  induction rest generalizing rounds m S xs with
  | nil =>
    cases rounds with
    | zero => exact absurd enough (Nat.not_lt_zero _)
    | succ rounds =>
      have list := chained.family.each _ inside
      rw [left] at list
      refine ⟨m,?_,?_⟩
      · rw [destroy_elems,(represents_front list).1]
        exact if_pos rfl
      · rw [← left,Function.update_eq_self,left]
        simpa using chained
  | cons e rest ih =>
    cases rounds with
    | zero => exact absurd enough (Nat.not_lt_zero _)
    | succ rounds =>
      have list := chained.family.each _ inside
      rw [left,List.map_cons] at list
      have front := (represents_front list).1
      obtain ⟨m',removed,without⟩ := chained_remove [] rest chained inside left
      have scribbled := chained_frame without (Finset.notMem_erase e S) (leaves e)
      have shorter : rest.length < rounds := by
        simp only [List.length_cons] at enough
        omega
      obtain ⟨m'',ran,after⟩ := ih rounds _ _ _ scribbled (by rw [Function.update_self,List.nil_append]) shorter
      refine ⟨m'',?_,?_⟩
      · have more : ¬ (some (Address.elem e) : Option (Address E)) = some (.tail array i) := fun same => by cases same
        have notTail : ¬ Address.elem e = Address.tail array i := fun same => by cases same
        rw [destroy_elems,front,following,if_neg more]
        simp only [list_pop_front,front,following,Option.bind_eq_bind,Option.bind_some,if_neg notTail,removed,Option.pure_def,ran]
      · rw [Function.update_idem] at after
        rw [List.toFinset_cons,Finset.sdiff_insert,← Finset.erase_sdiff_comm]
        exact after

theorem clear_buckets_spec {cnt rounds : Nat} {m : Memory (Address E)} (leaves : E → Node (Address E))
    (chained : Chained m (Buckets array cnt) S xs) (enough : S.card < rounds) (n : Nat) (some_ : n ≤ cnt) :
    ∃ m' destroyed, clear_buckets (some leaves) array rounds n m = some (destroyed,m') ∧
      Chained m' (Buckets array cnt) (S \ destroyed.toFinset) (fun i => if i.2 < n then [] else xs i) ∧
      destroyed.Nodup ∧ ∀ e ∈ destroyed, e ∈ S := by
  induction n with
  | zero =>
    refine ⟨m,[],rfl,?_,List.nodup_nil,fun e member => by cases member⟩
    simpa using chained
  | succ n ih =>
    obtain ⟨m',destroyed,ran,after,once,members⟩ := ih (Nat.le_of_succ_le some_)
    have inside : Buckets array cnt (array,n) := ⟨rfl,some_⟩
    have short := chained_length after inside
    have fewer := Finset.card_le_card (Finset.sdiff_subset (s := S) (t := destroyed.toFinset))
    obtain ⟨m'',more,rest⟩ := destroy_elems_spec leaves rounds _ m' _ _ inside after rfl (by omega)
    have list := rest.family.each _ inside
    simp only [Function.update_self,List.map_nil] at list
    simp only [Nat.lt_irrefl,if_false] at more rest
    have left : ∀ e ∈ xs (array,n), e ∈ S \ destroyed.toFinset := fun e member =>
      (after.members e).mpr ⟨_,inside,by simpa using member⟩
    refine ⟨m'',destroyed ++ xs (array,n),?_,?_,?_,?_⟩
    · rw [clear_buckets,ran]
      simp only [Option.bind_eq_bind,Option.bind_some,more,Option.pure_def,list_init_same list]
    · rw [List.toFinset_append,← Finset.sup_eq_union,← sdiff_sdiff_left]
      refine ⟨family_congr rest.family fun i listed => ?_,fun e => ?_⟩
      · obtain ⟨a,b⟩ := i
        obtain rfl : a = array := listed.1
        by_cases same : b = n
        · subst same
          simp
        · have other : ((a,b) : Nat × Nat) ≠ (a,n) := fun equal => same (congrArg Prod.snd equal)
          have order : b < n ↔ b < n + 1 := by omega
          simp [other,order]
      · rw [rest.members]
        refine exists_congr fun i => and_congr_right fun listed => ?_
        obtain ⟨a,b⟩ := i
        obtain rfl : a = array := listed.1
        by_cases same : b = n
        · subst same
          simp
        · have other : ((a,b) : Nat × Nat) ≠ (a,n) := fun equal => same (congrArg Prod.snd equal)
          have order : b < n ↔ b < n + 1 := by omega
          simp [other,order]
    · have here := chained_nodup after inside
      simp only [Nat.lt_irrefl,if_false] at here
      refine List.nodup_append.mpr ⟨once,here,fun e one f two same => ?_⟩
      subst same
      exact (Finset.mem_sdiff.mp (left e two)).2 (List.mem_toFinset.mpr one)
    · intro e member
      rcases List.mem_append.mp member with one | two
      · exact members e one
      · exact (Finset.mem_sdiff.mp (left e two)).1

theorem hash_clear_spec (destructor : Option (E → Node (Address E))) (stored : Stored hash less t array S xs) :
    ∃ destroyed t' xs', hash_clear destructor t = some (destroyed,t') ∧ Stored hash less t' array ∅ xs' ∧
      destroyed.Nodup ∧ ∀ e, e ∈ destroyed ↔ destructor.isSome ∧ e ∈ S := by
  have cleared : ∀ m', Chained m' (Buckets array t.bucket_cnt) ∅ (fun _ => []) →
      Stored hash less { t with memory := m', elem_cnt := 0 } array ∅ fun _ => [] := by
    intro m' chained
    refine ⟨stored.here,chained,fun i _ e member => (by cases member),rfl,stored.power,stored.four,fun a member => ?_⟩
    exact absurd member (Finset.notMem_empty a)
  cases destructor with
  | none =>
    refine ⟨[],_,_,?_,cleared _ (chained_empty t.memory array t.bucket_cnt),List.nodup_nil,fun e => by simp⟩
    rw [hash_clear,stored.here]
    simp only [Option.bind_eq_bind,Option.bind_some,clear_buckets_plain,Option.pure_def]
  | some leaves =>
    have enough : S.card < t.elem_cnt + 1 := by
      rw [stored.count]
      exact Nat.lt_succ_self _
    obtain ⟨m',destroyed,ran,after,once,members⟩ := clear_buckets_spec leaves stored.chained enough t.bucket_cnt (Nat.le_refl _)
    have all : S \ destroyed.toFinset = ∅ := by
      refine Finset.eq_empty_iff_forall_notMem.mpr fun e member => ?_
      obtain ⟨i,inside,listed⟩ := (after.members e).mp member
      rw [if_pos inside.2] at listed
      cases listed
    rw [all] at after
    refine ⟨destroyed,_,_,?_,cleared m' ⟨family_congr after.family fun i inside => by simp [inside.2],fun e => ?_⟩,once,fun e => ?_⟩
    · rw [hash_clear,stored.here]
      simp only [Option.bind_eq_bind,Option.bind_some,ran,Option.pure_def]
    · rw [after.members]
      refine exists_congr fun i => and_congr_right fun inside => ?_
      rw [if_pos inside.2]
    · simp only [Option.isSome_some,true_and]
      refine ⟨members e,fun member => ?_⟩
      rw [Finset.sdiff_eq_empty_iff_subset] at all
      exact List.mem_toFinset.mp (all member)

/-! ### The calls -/

/-- What is known between two calls. -/
def Inv (hash : E → BitVec 32) (less : E → E → Bool) (t : Table E) : Prop :=
  t.buckets = none ∨ ∃ array S xs, Stored hash less t array S xs

theorem hash_init_spec (hash : E → BitVec 32) (less : E → E → Bool) (malloc : Option Nat) (t : Table E) :
    ∃ success t', hash_init malloc t = some (success,t') ∧ elements t' = ∅ ∧ Inv hash less t' ∧ success = malloc.isSome := by
  cases malloc with
  | none => exact ⟨false,_,rfl,elements_none rfl,.inl rfl,rfl⟩
  | some array =>
    have stored : Stored hash less { t with memory := init_buckets t.memory array 4, elem_cnt := 0, bucket_cnt := 4, buckets := some array }
        array ∅ fun _ => [] := by
      refine ⟨rfl,chained_empty t.memory array 4,fun i _ e member => (by cases member),rfl,⟨2,rfl⟩,Nat.le_refl _,fun a member => ?_⟩
      exact absurd member (Finset.notMem_empty a)
    refine ⟨true,_,?_,(stored_elements stored).trans Finset.coe_empty,.inr ⟨array,∅,_,stored⟩,rfl⟩
    simp only [hash_init,hash_clear,Option.bind_eq_bind,Option.bind_some,clear_buckets_plain,Option.pure_def]
    rfl

variable {malloc : Option Nat} [order : IsStrictWeakOrder E fun a b => less a b = true]

theorem hash_insert_spec (agrees : ∀ a b, Equivalent less a b → hash a = hash b) (stored : Stored hash less t array S xs)
    (fresh : Fresh malloc t) (e : E) :
    ∃ found t', hash_insert hash less malloc t e = some (found,t') ∧ Inv hash less t' ∧ Found less ↑S e found ∧
      elements t' = if found = none then insert e ↑S else ↑S := by
  obtain ⟨found,searched,finds⟩ := stored_find agrees stored e
  rw [hash_insert,stored.here]
  simp only [Option.bind_eq_bind,Option.bind_some,searched]
  cases found with
  | some old =>
    obtain ⟨t',array',xs',moved,after⟩ := rehash_spec stored fresh
    refine ⟨some old,t',?_,.inr ⟨array',S,xs',after⟩,finds,by rw [stored_elements after]; rfl⟩
    simp [moved]
  | none =>
    obtain ⟨t₁,xs₁,inserted,more⟩ := stored_insert stored finds
    have still : Fresh malloc t₁ := fun given => by
      rw [more.here,← stored.here]
      exact fresh given
    obtain ⟨t',array',xs',moved,after⟩ := rehash_spec more still
    refine ⟨none,t',?_,.inr ⟨array',_,xs',after⟩,finds,by rw [stored_elements after,Finset.coe_insert]; rfl⟩
    simp [inserted,moved]

/-- With an equal element removed there is room for a new one. -/
theorem room (single : ∀ a ∈ S, ∀ b ∈ S, Equivalent less a b → a = b) (member : e ∈ S) (equal : Equivalent less e a) :
    ∀ x ∈ S.erase e, ¬ Equivalent less x a := by
  intro x listed same
  have joined := order.incomp_trans x a e (by simpa [Equivalent] using same) (by simpa [Equivalent] using equivalent_symm equal)
  exact Finset.ne_of_mem_erase listed (single x (Finset.mem_of_mem_erase listed) e member (by simpa [Equivalent] using joined))

theorem remaining (S : Finset E) (e : E) : ((S.erase e : Finset E) : Set E) = { x ∈ (S : Set E) | some e ≠ some x } := by
  ext x
  simp only [Finset.coe_erase,Set.mem_sdiff,Set.mem_singleton_iff,Set.mem_ofPred_eq,ne_eq,Option.some.injEq]
  exact and_congr_right fun _ => not_congr eq_comm

theorem hash_replace_spec (agrees : ∀ a b, Equivalent less a b → hash a = hash b) (stored : Stored hash less t array S xs)
    (fresh : Fresh malloc t) (e : E) :
    ∃ found t', hash_replace hash less malloc t e = some (found,t') ∧ Inv hash less t' ∧ Found less ↑S e found ∧
      elements t' = insert e { x ∈ (S : Set E) | found ≠ some x } := by
  obtain ⟨found,searched,finds⟩ := stored_find agrees stored e
  rw [hash_replace,stored.here]
  simp only [Option.bind_eq_bind,Option.bind_some,searched]
  cases found with
  | some old =>
    obtain ⟨t₁,xs₁,removed,same,fewer⟩ := stored_remove stored (Finset.mem_coe.mp finds.1)
    have bucket : find_bucket hash t e = find_bucket hash t₁ e := by rw [find_bucket,find_bucket,same]
    obtain ⟨t₂,xs₂,inserted,more⟩ := stored_insert fewer (room stored.single (Finset.mem_coe.mp finds.1) finds.2)
    have still : Fresh malloc t₂ := fun given => by
      rw [more.here,← stored.here]
      exact fresh given
    obtain ⟨t',array',xs',moved,after⟩ := rehash_spec more still
    refine ⟨some old,t',?_,.inr ⟨array',_,xs',after⟩,finds,by rw [stored_elements after,Finset.coe_insert,remaining]⟩
    simp [removed,bucket,inserted,moved]
  | none =>
    obtain ⟨t₁,xs₁,inserted,more⟩ := stored_insert stored finds
    have still : Fresh malloc t₁ := fun given => by
      rw [more.here,← stored.here]
      exact fresh given
    obtain ⟨t',array',xs',moved,after⟩ := rehash_spec more still
    refine ⟨none,t',?_,.inr ⟨array',_,xs',after⟩,finds,?_⟩
    · simp [inserted,moved]
    · rw [stored_elements after,Finset.coe_insert]
      simp

omit order in
theorem hash_delete_spec (agrees : ∀ a b, Equivalent less a b → hash a = hash b) (stored : Stored hash less t array S xs)
    (fresh : Fresh malloc t) (e : E) :
    ∃ found t', hash_delete hash less malloc t e = some (found,t') ∧ Inv hash less t' ∧ Found less ↑S e found ∧
      elements t' = { x ∈ (S : Set E) | found ≠ some x } := by
  obtain ⟨found,searched,finds⟩ := stored_find agrees stored e
  rw [hash_delete,stored.here]
  simp only [Option.bind_eq_bind,Option.bind_some,searched]
  cases found with
  | some old =>
    obtain ⟨t₁,xs₁,removed,-,fewer⟩ := stored_remove stored (Finset.mem_coe.mp finds.1)
    have still : Fresh malloc t₁ := fun given => by
      rw [fewer.here,← stored.here]
      exact fresh given
    obtain ⟨t',array',xs',moved,after⟩ := rehash_spec fewer still
    refine ⟨some old,t',?_,.inr ⟨array',_,xs',after⟩,finds,by rw [stored_elements after,remaining]⟩
    simp [removed,moved]
  | none =>
    refine ⟨none,t,rfl,.inr ⟨array,S,xs,stored⟩,finds,?_⟩
    rw [stored_elements stored]
    simp

/-- Every call on a table that is ready returns, and does what it does to a set. -/
theorem call_spec (agrees : ∀ a b, Equivalent less a b → hash a = hash b) (inv : Inv hash less t) (fresh : Fresh malloc t)
    (c : Call E)
    (ready : t.buckets ≠ none ∨ c = .hash_init) :
    ∃ answer t', call hash less malloc t c = some (answer,t') ∧ Inv hash less t' ∧
    Spec less (elements t) (elements t') c answer := by
  rcases inv with null | ⟨array,S,xs,stored⟩
  · obtain rfl := ready.resolve_left fun bound => bound null
    obtain ⟨success,t',ran,empty,after,-⟩ := hash_init_spec hash less malloc t
    exact ⟨.initialised success,t',by rw [call,ran]; rfl,after,empty⟩
  · rw [stored_elements stored]
    cases c with
    | hash_init =>
      obtain ⟨success,t',ran,empty,after,-⟩ := hash_init_spec hash less malloc t
      exact ⟨.initialised success,t',by rw [call,ran]; rfl,after,empty⟩
    | hash_insert e =>
      obtain ⟨found,t',ran,after,finds,set⟩ := hash_insert_spec agrees stored fresh e
      exact ⟨.elem found,t',by rw [call,ran]; rfl,after,finds,set⟩
    | hash_replace e =>
      obtain ⟨found,t',ran,after,finds,set⟩ := hash_replace_spec agrees stored fresh e
      exact ⟨.elem found,t',by rw [call,ran]; rfl,after,finds,set⟩
    | hash_find e =>
      obtain ⟨found,searched,finds⟩ := stored_find agrees stored e
      refine ⟨.elem found,t,?_,.inr ⟨array,S,xs,stored⟩,finds,stored_elements stored⟩
      simp [call,hash_find,stored.here,searched]
    | hash_delete e =>
      obtain ⟨found,t',ran,after,finds,set⟩ := hash_delete_spec agrees stored fresh e
      exact ⟨.elem found,t',by rw [call,ran]; rfl,after,finds,set⟩
    | hash_clear destructor =>
      obtain ⟨destroyed,t',xs',ran,after,once,members⟩ := hash_clear_spec destructor stored
      refine ⟨.cleared destroyed,t',by rw [call,ran]; rfl,.inr ⟨array,∅,xs',after⟩,?_,once,members⟩
      rw [stored_elements after,Finset.coe_empty]

theorem reaches_inv (agrees : ∀ a b, Equivalent less a b → hash a = hash b) (reach : Reaches (machine hash less) Anything t) :
    Inv hash less t := by
  refine reaches_invariant (Inv hash less) (fun t null => .inl null) ?_ reach
  rintro t ⟨c,malloc,answer⟩ t' inv - ⟨fresh,ran⟩
  have ready : t.buckets ≠ none ∨ c = .hash_init := by
    cases c with
    | hash_init => exact .inr rfl
    | _ =>
      refine .inl fun null => ?_
      simp [call,hash_insert,hash_replace,hash_find,hash_delete,hash_clear,null] at ran
  obtain ⟨answer',t'',ran',after,-⟩ := call_spec agrees inv fresh c ready
  rw [ran] at ran'
  obtain ⟨rfl,rfl⟩ := Prod.mk.inj (Option.some.inj ran')
  exact after

/-- A hash table is a finite set with one element for each class of equal ones, whatever
    calls it has come through and whichever allocations failed: it is well formed, and
    each call returns and does to it what it does to a set. -/
theorem table_is_set (agrees : ∀ a b, Equivalent less a b → hash a = hash b) (reach : Reaches (machine hash less) Anything t) :
    (t.buckets ≠ none → Sound hash less t) ∧
      ∀ c malloc, Fresh malloc t → (t.buckets ≠ none ∨ c = .hash_init) →
        ∃ answer t', call hash less malloc t c = some (answer,t') ∧ Spec less (elements t) (elements t') c answer := by
  have inv := reaches_inv agrees reach
  constructor
  · intro ready
    rcases inv with null | ⟨array,S,xs,stored⟩
    · exact absurd null ready
    · exact stored_sound stored
  · intro c malloc fresh ready
    obtain ⟨answer,t',ran,-,spec⟩ := call_spec agrees inv fresh c ready
    exact ⟨answer,t',ran,spec⟩

/-- A table before `hash_init`. -/
def blank : Table Nat := { memory := fun _ => { prev := none, next := none }, elem_cnt := 0, bucket_cnt := 0, buckets := none }

instance numbers_weak : IsStrictWeakOrder Nat fun a b => decide (a < b) = true where
  irrefl a := by simp
  trans a b c := by
    simp only [decide_eq_true_eq]
    omega
  incomp_trans a b c := by
    simp only [decide_eq_true_eq]
    omega

theorem numbers_agree : ∀ a b : Nat, Equivalent (fun a b => decide (a < b)) a b → BitVec.ofNat 32 a = BitVec.ofNat 32 b := by
  intro a b equal
  simp only [Equivalent,decide_eq_false_iff_not,Nat.not_lt] at equal
  rw [Nat.le_antisymm equal.2 equal.1]

/-- Elements 1 and 5 share a bucket; the search for 1 passes 5. -/
theorem table_is_set_shared : ∃ t : Table Nat, t.elem_cnt = 2 ∧ (t.memory (.head 7 1)).next = some (.elem 5) ∧
    ∃ answer t', call (BitVec.ofNat 32) (fun a b => decide (a < b)) none t (.hash_delete 1) = some (answer,t') ∧
      Spec (fun a b => decide (a < b)) (elements t) (elements t') (.hash_delete 1) answer := by
  have ran : ∃ t₁ t₂ t₃ : Table Nat,
      call (BitVec.ofNat 32) (fun a b => decide (a < b)) (some 7) blank .hash_init = some (.initialised true,t₁) ∧
      call (BitVec.ofNat 32) (fun a b => decide (a < b)) none t₁ (.hash_insert 1) = some (.elem none,t₂) ∧
      call (BitVec.ofNat 32) (fun a b => decide (a < b)) none t₂ (.hash_insert 5) = some (.elem none,t₃) ∧
      t₃.elem_cnt = 2 ∧ (t₃.memory (.head 7 1)).next = some (.elem 5) ∧ t₃.buckets = some 7 := ⟨_,_,_,rfl,rfl,rfl,rfl,rfl,rfl⟩
  obtain ⟨t₁,t₂,t₃,first,second,third,count,front,buckets⟩ := ran
  have reach : Reaches (machine (BitVec.ofNat 32) fun a b : Nat => decide (a < b)) Anything t₃ := by
    refine .next (e := (.hash_insert 5,none,.elem none)) (.next (e := (.hash_insert 1,none,.elem none))
      (.next (e := (.hash_init,some 7,.initialised true)) (.start (s := blank) rfl) trivial ⟨?_,first⟩) trivial ⟨?_,second⟩) trivial ⟨?_,third⟩
    · exact fun _ same => (by cases same)
    · exact fun given => absurd rfl given
    · exact fun given => absurd rfl given
  refine ⟨t₃,count,front,(table_is_set numbers_agree reach).2 (.hash_delete 1) none (fun given => absurd rfl given) (.inl ?_)⟩
  rw [buckets]
  exact Option.some_ne_none 7
end

end Pintos.HashTables
