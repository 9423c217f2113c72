import Pintos.Heaps
import Pintos.Searches
import Pintos.Copies

/-!
`sort` of `lib/stdlib.c`, on bytes in memory and on indexes of 32 bits. An access to an index
outside of the array has no result, and neither has a run of too few rounds.
-/
namespace Pintos.Sorting
open Pintos.Heaps Pintos.Searches Pintos.Copies
open Pintos.Bitmaps (Byte)
set_option linter.unusedSimpArgs false

/-- What a comparison reads of an element. -/
abbrev Element (size : Searches.Addr) := Fin size.toNat → Byte

section
variable (array len size : Searches.Addr) (compare : Element size → Element size → Int)

/-- The address of the element with 1-based index `idx`. -/
def place (idx : Searches.Addr) : Searches.Addr := array + (idx - 1) * size

def content (m : Memory) (p : Searches.Addr) : Element size := fun o => m (p + BitVec.ofNat 32 o)

/-- The array has `len` elements. -/
def Within (idx : Searches.Addr) : Prop := 0 < idx ∧ idx ≤ len

instance : DecidablePred (Within len) := fun idx => inferInstanceAs (Decidable (0 < idx ∧ idx ≤ len))

/-- The first rounds of the loop over the bytes of two elements. -/
def swapLoop (a b : Searches.Addr) : Nat → Memory → Memory
  | 0, m => m
  | i + 1, m =>
    let m := swapLoop a b i m
    let t := m (a + BitVec.ofNat 32 i)
    Function.update (Function.update m (a + BitVec.ofNat 32 i) (m (b + BitVec.ofNat 32 i))) (b + BitVec.ofNat 32 i) t

def do_swap (m : Memory) (a_idx b_idx : Searches.Addr) : Option Memory :=
  if Within len a_idx ∧ Within len b_idx then
    some (swapLoop (place array size a_idx) (place array size b_idx) size.toNat m)
  else none

def do_compare (m : Memory) (a_idx b_idx : Searches.Addr) : Option Int :=
  if Within len a_idx ∧ Within len b_idx then
    some (compare (content size m (place array size a_idx)) (content size m (place array size b_idx)))
  else none

/-- `child` takes the place of `max` if it is an index up to `cnt` with a greater element. -/
def pick (m : Memory) (cnt max child : Searches.Addr) : Option Searches.Addr :=
  if child ≤ cnt then
    (do_compare array len size compare m child max).map fun greater => if greater > 0 then child else max
  else some max

def heapify : Nat → Memory → Searches.Addr → Searches.Addr → Option Memory
  | 0, _, _, _ => none
  | fuel + 1, m, i, cnt =>
    let left := 2 * i
    let right := 2 * i + 1
    (pick array len size compare m cnt i left).bind fun max =>
    (pick array len size compare m cnt max right).bind fun max =>
    if max = i then some m
    else (do_swap array len size m i max).bind fun m => heapify fuel m max cnt

/-- The rounds of the first loop of `sort` that are left at `i`. -/
def buildLoop (fuel : Nat) : Nat → Memory → Option Memory
  | 0, m => some m
  | i + 1, m => (heapify array len size compare fuel m (BitVec.ofNat 32 (i + 1)) len).bind (buildLoop fuel i)

/-- The rounds of its second loop. -/
def extractLoop (fuel : Nat) : Nat → Memory → Option Memory
  | 0, m => some m
  | i + 1, m =>
    if i = 0 then some m
    else (do_swap array len size m 1 (BitVec.ofNat 32 (i + 1))).bind fun m =>
      (heapify array len size compare fuel m 1 (BitVec.ofNat 32 i)).bind (extractLoop fuel i)
end

def sort (fuel : Nat) (array cnt size : Searches.Addr) (compare : Element size → Element size → Int) (m : Memory) :
    Option Memory :=
  if (array ≠ 0 ∨ cnt = 0) ∧ 0 < size then
    (buildLoop array cnt size compare fuel (cnt.toNat / 2) m).bind (extractLoop array cnt size compare fuel cnt.toNat)
  else none

/-- The element with 1-based index `k`. -/
def elementAt (array size : Searches.Addr) (m : Memory) (k : Nat) : Element size :=
  content size m (place array size (BitVec.ofNat 32 k))

/-- No byte outside of the array has changed. -/
def Kept (array cnt size : Searches.Addr) (m m' : Memory) : Prop :=
  ∀ x, (∀ k < cnt.toNat, ∀ o < size.toNat, x ≠ element array size k + BitVec.ofNat 32 o) → m' x = m x

/-- The elements are in order, and they are those of before. -/
structure SortedArray (array cnt size : Searches.Addr) (compare : Element size → Element size → Int) (m m' : Memory) :
    Prop where
  nondecreasing : ∀ j k, 0 < j → j ≤ k → k ≤ cnt.toNat →
    compare (elementAt array size m' j) (elementAt array size m' k) ≤ 0
  permutation : ∃ places : Equiv.Perm Nat, (∀ k, k < 1 ∨ cnt.toNat < k → places k = k) ∧
    ∀ k, 0 < k → k ≤ cnt.toNat → elementAt array size m' k = elementAt array size m (places k)
  kept : Kept array cnt size m m'

/-- The elements of the array, by their indexes. -/
def Holds (array cnt size : Searches.Addr) (m : Memory) (a : Nat → Element size) : Prop :=
  ∀ k, 0 < k → k ≤ cnt.toNat → elementAt array size m k = a k

variable {array cnt size : Searches.Addr} {compare : Element size → Element size → Int} {m m' m'' : Memory}
  {a a' : Nat → Element size} {fuel n i j k p q : Nat}

theorem Kept.refl : Kept array cnt size m m := fun _ _ => rfl

theorem Kept.trans (first : Kept array cnt size m m') (second : Kept array cnt size m' m'') :
    Kept array cnt size m m'' := fun x outside => (second x outside).trans (first x outside)

theorem within_index (positive : 0 < k) (inside : k ≤ cnt.toNat) : Within cnt (BitVec.ofNat 32 k) := by
  constructor
  · rw [BitVec.lt_def,word_number (by omega)]
    exact positive
  · rw [BitVec.le_def,word_number (by omega)]
    exact inside

theorem place_element (positive : 0 < k) : place array size (BitVec.ofNat 32 k) = element array size (k - 1) := by
  obtain ⟨k,rfl⟩ := Nat.exists_eq_add_of_le' positive
  rw [place,element,Nat.add_sub_cancel,BitVec.ofNat_add]
  congr 2
  exact BitVec.add_sub_cancel _ _

theorem byte_number (object : IsArray array cnt size) (inside : k < cnt.toNat) {o : Nat} (within_ : o < size.toNat) :
    (element array size k + BitVec.ofNat 32 o).toNat = array.toNat + (k * size.toNat + o) := by
  have room := object.room
  have product : (k + 1) * size.toNat ≤ size.toNat * cnt.toNat := by
    rw [Nat.mul_comm]
    exact Nat.mul_le_mul_left _ inside
  rw [Nat.add_mul] at product
  rw [BitVec.toNat_add,element_number object (by omega),word_number (k := o) (by omega),
    Nat.mod_eq_of_lt (by omega),Nat.add_assoc]

/-- No byte belongs to two elements. -/
theorem bytes_apart (object : IsArray array cnt size) (inside : i < cnt.toNat) (inside' : j < cnt.toNat) {o o' : Nat}
    (within_ : o < size.toNat) (within' : o' < size.toNat)
    (same : element array size i + BitVec.ofNat 32 o = element array size j + BitVec.ofNat 32 o') : i = j ∧ o = o' := by
  have numbers := congrArg BitVec.toNat same
  rw [byte_number object inside within_,byte_number object inside' within',Nat.add_left_cancel_iff] at numbers
  have quotient : ∀ k o, o < size.toNat → (k * size.toNat + o) / size.toNat = k := fun k o below => by
    rw [Nat.mul_comm,Nat.mul_add_div object.positive,Nat.div_eq_of_lt below,Nat.add_zero]
  have equal : i = j := by rw [← quotient i o within_,numbers,quotient j o' within']
  subst equal
  exact ⟨rfl,Nat.add_left_cancel numbers⟩

/-- The loop exchanges the bytes of two ranges that do not meet. -/
theorem swapLoop_spec {x y : Searches.Addr} (n : Nat) (m : Memory)
    (apart : ∀ i < n, ∀ j < n, x + BitVec.ofNat 32 i ≠ y + BitVec.ofNat 32 j)
    (once_x : ∀ i < n, ∀ j < n, x + BitVec.ofNat 32 i = x + BitVec.ofNat 32 j → i = j)
    (once_y : ∀ i < n, ∀ j < n, y + BitVec.ofNat 32 i = y + BitVec.ofNat 32 j → i = j) :
    (∀ i < n, swapLoop x y n m (x + BitVec.ofNat 32 i) = m (y + BitVec.ofNat 32 i)) ∧
    (∀ i < n, swapLoop x y n m (y + BitVec.ofNat 32 i) = m (x + BitVec.ofNat 32 i)) ∧
    ∀ z, (∀ i < n, z ≠ x + BitVec.ofNat 32 i ∧ z ≠ y + BitVec.ofNat 32 i) → swapLoop x y n m z = m z := by
  induction n with
  | zero => exact ⟨fun i below => absurd below (Nat.not_lt_zero i),fun i below => absurd below (Nat.not_lt_zero i),
      fun _ _ => rfl⟩
  | succ n ih =>
    obtain ⟨at_x,at_y,other⟩ := ih (fun i low j low' => apart i (by omega) j (by omega))
      (fun i low j low' => once_x i (by omega) j (by omega)) (fun i low j low' => once_y i (by omega) j (by omega))
    have fresh_x : swapLoop x y n m (x + BitVec.ofNat 32 n) = m (x + BitVec.ofNat 32 n) :=
      other _ fun i low => ⟨fun same => absurd (once_x n (by omega) i (by omega) same) (by omega),
        fun same => apart n (by omega) i (by omega) same⟩
    have fresh_y : swapLoop x y n m (y + BitVec.ofNat 32 n) = m (y + BitVec.ofNat 32 n) :=
      other _ fun i low => ⟨fun same => apart i (by omega) n (by omega) same.symm,
        fun same => absurd (once_y n (by omega) i (by omega) same) (by omega)⟩
    simp only [swapLoop]
    refine ⟨fun i low => ?_,fun i low => ?_,fun z outside => ?_⟩
    · rw [Function.update_of_ne (apart i low n (by omega))]
      by_cases last : i = n
      · rw [last,Function.update_self,fresh_y]
      · rw [Function.update_of_ne (fun same => last (once_x i low n (by omega) same)),at_x i (by omega)]
    · by_cases last : i = n
      · rw [last,Function.update_self,fresh_x]
      · rw [Function.update_of_ne (fun same => last (once_y i low n (by omega) same)),
          Function.update_of_ne (fun same => apart n (by omega) i low same.symm),at_y i (by omega)]
    · have away := outside n (by omega)
      rw [Function.update_of_ne away.2,Function.update_of_ne away.1,other z fun i low => outside i (by omega)]

/-- Two different elements are exchanged and nothing else. -/
theorem do_swap_spec (object : IsArray array cnt size) (holds : Holds array cnt size m a) (p_positive : 0 < p)
    (p_inside : p ≤ cnt.toNat) (q_positive : 0 < q) (q_inside : q ≤ cnt.toNat) (different : p ≠ q) :
    ∃ m', do_swap array cnt size m (BitVec.ofNat 32 p) (BitVec.ofNat 32 q) = some m' ∧
      Holds array cnt size m' (a ∘ Equiv.swap p q) ∧ Kept array cnt size m m' := by
  rw [do_swap,if_pos ⟨within_index p_positive p_inside,within_index q_positive q_inside⟩,place_element p_positive,
    place_element q_positive]
  have p_in : p - 1 < cnt.toNat := by omega
  have q_in : q - 1 < cnt.toNat := by omega
  obtain ⟨at_p,at_q,other⟩ := @swapLoop_spec (element array size (p - 1)) (element array size (q - 1)) size.toNat m
    (fun i low j low' same => absurd (bytes_apart object p_in q_in low low' same).1 (by omega))
    (fun i low j low' same => (bytes_apart object p_in p_in low low' same).2)
    (fun i low j low' same => (bytes_apart object q_in q_in low low' same).2)
  have before : ∀ k, 0 < k → k ≤ cnt.toNat → ∀ o : Fin size.toNat,
      m (element array size (k - 1) + BitVec.ofNat 32 o) = a k o := fun k positive inside o => by
    rw [← holds k positive inside,elementAt,content,place_element positive]
  refine ⟨_,rfl,fun k positive inside => funext fun o => ?_,fun z outside => ?_⟩
  · rw [elementAt,content,place_element positive,Function.comp_apply]
    by_cases first : k = p
    · rw [first,at_p o o.isLt,Equiv.swap_apply_left,before q q_positive q_inside]
    · by_cases second : k = q
      · rw [second,at_q o o.isLt,Equiv.swap_apply_right,before p p_positive p_inside]
      · rw [Equiv.swap_apply_of_ne_of_ne first second,← before k positive inside]
        refine other _ fun i low => ⟨fun same => ?_,fun same => ?_⟩
        · exact absurd (bytes_apart object (by omega) p_in o.isLt low same).1 (by omega)
        · exact absurd (bytes_apart object (by omega) q_in o.isLt low same).1 (by omega)
  · exact other z fun i low => ⟨outside _ p_in i low,outside _ q_in i low⟩

theorem pick_spec (holds : Holds array cnt size m a) (room : n ≤ cnt.toNat) (i_positive : 0 < i) (i_inside : i ≤ cnt.toNat)
    (j_positive : 0 < j) (no_wrap : j < 2 ^ 32) :
    pick array cnt size compare m (BitVec.ofNat 32 n) (BitVec.ofNat 32 i) (BitVec.ofNat 32 j) =
      some (BitVec.ofNat 32 (larger compare a n i j)) := by
  have bound : BitVec.ofNat 32 j ≤ BitVec.ofNat 32 n ↔ j ≤ n := by
    rw [BitVec.le_def,word_number no_wrap,word_number (by omega)]
  rw [pick,larger]
  by_cases inside : j ≤ n
  · have at_j := holds j j_positive (by omega)
    have at_i := holds i i_positive i_inside
    rw [elementAt] at at_j at_i
    rw [if_pos (bound.mpr inside),do_compare,
      if_pos ⟨within_index j_positive (by omega),within_index i_positive i_inside⟩,at_j,at_i,Option.map_some]
    by_cases greater : compare (a j) (a i) > 0
    · rw [if_pos greater,if_pos ⟨inside,greater⟩]
    · rw [if_neg greater,if_neg (fun both => greater both.2)]
  · rw [if_neg (fun below => inside (bound.mp below)),if_neg (fun both => inside both.1)]

/-- In memory an element goes down as it does in a heap, as long as its children have indexes of 32 bits. -/
theorem heapify_spec (object : IsArray array cnt size) (order : TotalPreorder compare) (small : cnt.toNat < 2 ^ 31)
    (holds : Holds array cnt size m a) (room : n ≤ cnt.toNat) (positive : 0 < i) (inside : i ≤ cnt.toNat)
    (sifted : sift compare fuel a n i = some a') :
    ∃ m', heapify array cnt size compare fuel m (BitVec.ofNat 32 i) (BitVec.ofNat 32 n) = some m' ∧
      Holds array cnt size m' a' ∧ Kept array cnt size m m' := by
  induction fuel generalizing m a i with
  | zero => cases sifted
  | succ fuel ih =>
    have left_in := (larger_cases order a n i (2 * i)).1
    have left : (2 : Searches.Addr) * BitVec.ofNat 32 i = BitVec.ofNat 32 (2 * i) := (BitVec.ofNat_mul 2 i).symm
    have right : BitVec.ofNat 32 (2 * i) + 1 = BitVec.ofNat 32 (2 * i + 1) := (BitVec.ofNat_add (2 * i) 1).symm
    rw [heapify,left,right,pick_spec holds room positive inside (by omega) (by omega),Option.bind_some,
      pick_spec holds room (by omega) (by omega) (by omega) (by omega),Option.bind_some]
    change ∃ m', (if BitVec.ofNat 32 (largest compare a n i) = BitVec.ofNat 32 i then some m
      else (do_swap array cnt size m (BitVec.ofNat 32 i) (BitVec.ofNat 32 (largest compare a n i))).bind fun m =>
        heapify array cnt size compare fuel m (BitVec.ofNat 32 (largest compare a n i)) (BitVec.ofNat 32 n)) = some m' ∧ _
    rw [sift] at sifted
    have chosen := (largest_spec order a n i).1
    by_cases stays : largest compare a n i = i
    · rw [if_pos stays] at sifted
      cases sifted
      exact ⟨m,by rw [stays,if_pos rfl],holds,.refl⟩
    · rw [if_neg stays] at sifted
      obtain ⟨child,below⟩ := chosen.resolve_left stays
      have above := child.above positive
      have moved : BitVec.ofNat 32 (largest compare a n i) ≠ BitVec.ofNat 32 i := fun same => stays (by
        have numbers := congrArg BitVec.toNat same
        rwa [word_number (by omega),word_number (by omega)] at numbers)
      obtain ⟨m₁,swapped,holds₁,kept₁⟩ := do_swap_spec object holds positive inside (by omega)
        (Nat.le_trans below room) (Ne.symm stays)
      obtain ⟨m',ran,holds',kept'⟩ := ih holds₁ (by omega) (Nat.le_trans below room) sifted
      exact ⟨m',by rw [if_neg moved,swapped,Option.bind_some,ran],holds',kept₁.trans kept'⟩

theorem buildLoop_spec (object : IsArray array cnt size) (order : TotalPreorder compare) (small : cnt.toNat < 2 ^ 31)
    (holds : Holds array cnt size m a) (inside : i ≤ cnt.toNat) (built : build compare fuel cnt.toNat i a = some a') :
    ∃ m', buildLoop array cnt size compare fuel i m = some m' ∧ Holds array cnt size m' a' ∧ Kept array cnt size m m' := by
  induction i generalizing m a with
  | zero =>
    cases built
    exact ⟨m,rfl,holds,.refl⟩
  | succ i ih =>
    obtain ⟨b,sifted,rest⟩ := Option.bind_eq_some_iff.mp built
    obtain ⟨m₁,ran₁,holds₁,kept₁⟩ := heapify_spec object order small holds (Nat.le_refl _) (by omega) inside sifted
    obtain ⟨m',ran,holds',kept'⟩ := ih holds₁ (by omega) rest
    rw [BitVec.ofNat_toNat,BitVec.setWidth_eq] at ran₁
    exact ⟨m',by rw [buildLoop,ran₁,Option.bind_some,ran],holds',kept₁.trans kept'⟩

theorem extractLoop_spec (object : IsArray array cnt size) (order : TotalPreorder compare) (small : cnt.toNat < 2 ^ 31)
    (holds : Holds array cnt size m a) (inside : i ≤ cnt.toNat) (ran : extract compare fuel i a = some a') :
    ∃ m', extractLoop array cnt size compare fuel i m = some m' ∧ Holds array cnt size m' a' ∧ Kept array cnt size m m' := by
  induction i generalizing m a with
  | zero =>
    cases ran
    exact ⟨m,rfl,holds,.refl⟩
  | succ i ih =>
    rw [extract] at ran
    rw [extractLoop]
    by_cases one : i = 0
    · rw [if_pos one] at ran ⊢
      cases ran
      exact ⟨m,rfl,holds,.refl⟩
    · rw [if_neg one] at ran ⊢
      obtain ⟨b,sifted,rest⟩ := Option.bind_eq_some_iff.mp ran
      obtain ⟨m₁,swapped,holds₁,kept₁⟩ := @do_swap_spec array cnt size m a 1 (i + 1) object holds (by omega) (by omega)
        (by omega) inside (by omega)
      obtain ⟨m₂,ran₂,holds₂,kept₂⟩ := heapify_spec object order small holds₁ (show i ≤ cnt.toNat by omega)
        (by omega) (by omega) sifted
      obtain ⟨m',ran',holds',kept'⟩ := ih holds₂ (by omega) rest
      refine ⟨m',?_,holds',kept₁.trans (kept₂.trans kept')⟩
      rw [show (1 : Searches.Addr) = BitVec.ofNat 32 1 from rfl,swapped,Option.bind_some,ran₂,Option.bind_some,ran']

/-- An array of fewer than 2^31 elements is sorted. -/
theorem sort_sorts (object : IsArray array cnt size) (order : TotalPreorder compare) (small : cnt.toNat < 2 ^ 31)
    (m : Memory) (enough : fuel > cnt.toNat) :
    ∃ m', sort fuel array cnt size compare m = some m' ∧ SortedArray array cnt size compare m m' := by
  have valid : (array ≠ 0 ∨ cnt = 0) ∧ 0 < size := by
    refine ⟨?_,BitVec.lt_def.mpr object.positive⟩
    by_cases empty : cnt = 0
    · exact .inr empty
    · exact .inl (object.nonnull empty)
  obtain ⟨b,a',built,ran,sorted,places,fixed,same⟩ := heapsort_spec order (elementAt array size m) enough
  obtain ⟨m₁,ran₁,holds₁,kept₁⟩ := buildLoop_spec object order small (fun k _ _ => rfl) (by omega) built
  obtain ⟨m',ran',holds',kept'⟩ := extractLoop_spec object order small holds₁ (Nat.le_refl _) ran
  refine ⟨m',by rw [sort,if_pos valid,ran₁,Option.bind_some,ran'],?_,⟨places,fixed,?_⟩,kept₁.trans kept'⟩
  · intro j k positive order_jk inside
    rw [holds' j positive (by omega),holds' k (by omega) inside]
    exact sorted j k positive order_jk inside
  · intro k positive inside
    rw [holds' k positive inside,same]
    rfl

/-- Elements of one byte, by their numbers. -/
def byteOrder (x y : Element 1) : Int := (x ⟨0,by decide⟩).toNat - (y ⟨0,by decide⟩).toNat

/-- In an array at address 1 the element with index 2^31 is greater than all others. -/
def lateGreatest : Memory := fun p => if p = 0x80000000 then 1 else 0

theorem byteOrder_total : TotalPreorder byteOrder := by
  constructor
  · intro x y
    simp only [byteOrder]
    omega
  · intro x y z
    simp only [byteOrder]
    omega

/-- The left child of index 2^31 is index 0. -/
theorem heapify_leaves {array cnt size : Searches.Addr} {compare : Element size → Element size → Int} (fuel : Nat)
    (m : Memory) : heapify array cnt size compare fuel m 0x80000000 cnt = none := by
  cases fuel with
  | zero => rfl
  | succ fuel =>
    have outside : ¬ Within cnt (2 * 0x80000000) := fun within_ => absurd within_.1 (by decide)
    have wraps : (2 : Searches.Addr) * 0x80000000 ≤ cnt := BitVec.le_def.mpr (Nat.zero_le _)
    rw [heapify,pick,if_pos wraps,do_compare,if_neg (fun both => outside both.1)]
    rfl

variable {idx child : Searches.Addr}

theorem pick_bytes (in_idx : Within cnt idx) (positive : 0 < child) :
    pick 1 cnt 1 byteOrder lateGreatest cnt idx child =
      some (if child ≤ cnt ∧ child = 0x80000000 ∧ idx ≠ 0x80000000 then child else idx) := by
  have address : ∀ i : Searches.Addr, place 1 1 i + BitVec.ofNat 32 0 = i := fun i => by
    rw [place]
    bv_omega
  rw [pick]
  by_cases inside : child ≤ cnt
  · rw [if_pos inside,do_compare,if_pos ⟨⟨positive,inside⟩,in_idx⟩,Option.map_some,byteOrder,content,content,
      address,address]
    congr 1
    apply if_congr ?_ rfl rfl
    have values : ∀ p, (lateGreatest p).toNat = if p = 0x80000000 then 1 else 0 := fun p => by
      rw [lateGreatest,apply_ite BitVec.toNat]
      rfl
    rw [values,values]
    by_cases great : child = 0x80000000
    · by_cases great' : idx = 0x80000000
      · rw [if_pos great,if_pos great']
        exact ⟨fun greater => absurd greater (by decide),fun all => absurd great' all.2.2⟩
      · rw [if_pos great,if_neg great']
        exact ⟨fun _ => ⟨inside,great,great'⟩,fun _ => by decide⟩
    · rw [if_neg great]
      exact ⟨fun greater => by split at greater <;> omega,fun all => absurd all.2.1 great⟩
  · rw [if_neg inside,if_neg (fun all => inside all.1)]

/-- Above index 2^30 nothing is greater than its parent. -/
theorem heapify_late (in_idx : Within cnt idx) (above : 0x40000000 < idx) (below : idx < 0x80000000) :
    heapify 1 cnt 1 byteOrder fuel lateGreatest idx cnt = none ∨
    heapify 1 cnt 1 byteOrder fuel lateGreatest idx cnt = some lateGreatest := by
  cases fuel with
  | zero => exact .inl rfl
  | succ fuel =>
    have left : (2 : Searches.Addr) * idx ≠ 0x80000000 := by bv_omega
    have right : (2 : Searches.Addr) * idx + 1 ≠ 0x80000000 := by bv_omega
    right
    rw [heapify,pick_bytes in_idx (by bv_omega),if_neg (fun all => left all.2.1),Option.bind_some,
      pick_bytes in_idx (by bv_omega),if_neg (fun all => right all.2.1),Option.bind_some,if_pos rfl]

/-- From index 2^30 the greatest element leads to index 2^31, and this to index 0. -/
theorem heapify_middle (large : 0x80000000 ≤ cnt) :
    heapify 1 cnt 1 byteOrder fuel lateGreatest 0x40000000 cnt = none := by
  cases fuel with
  | zero => rfl
  | succ fuel =>
    have in_idx : Within cnt 0x40000000 := ⟨by decide,by bv_omega⟩
    have in_child : Within cnt 0x80000000 := ⟨by decide,large⟩
    rw [heapify,show (2 : Searches.Addr) * 0x40000000 = 0x80000000 from rfl,pick_bytes in_idx (by decide),
      if_pos ⟨large,rfl,by decide⟩,Option.bind_some,pick_bytes in_child (by decide),
      if_neg (fun all => absurd all.2.1 (by decide)),Option.bind_some,if_neg (by decide),do_swap,if_pos ⟨in_idx,in_child⟩,
      Option.bind_some,heapify_leaves]

theorem buildLoop_leaves (large : 2 ^ 31 ≤ cnt.toNat) (low : 2 ^ 30 ≤ i) (high : i ≤ cnt.toNat / 2) :
    buildLoop 1 cnt 1 byteOrder fuel i lateGreatest = none := by
  induction i with
  | zero => omega
  | succ i ih =>
    have bounded := cnt.isLt
    have number : (BitVec.ofNat 32 (i + 1)).toNat = i + 1 := word_number (by omega)
    rw [buildLoop]
    by_cases middle : i + 1 = 2 ^ 30
    · rw [middle,show BitVec.ofNat 32 (2 ^ 30) = 0x40000000 from rfl,heapify_middle (BitVec.le_def.mpr large)]
      rfl
    · rcases @heapify_late cnt fuel (BitVec.ofNat 32 (i + 1)) (within_index (by omega) (by omega))
          (by rw [BitVec.lt_def,number]; change 2 ^ 30 < i + 1; omega)
          (by rw [BitVec.lt_def,number]; change i + 1 < 2 ^ 31; omega) with stuck | same
      · rw [stuck]
        rfl
      · rw [same,Option.bind_some]
        exact ih (by omega) (by omega)

/-- With 2^31 elements or more index 0 is accessed. -/
theorem sort_leaves (large : 2 ^ 31 ≤ cnt.toNat) : sort fuel 1 cnt 1 byteOrder lateGreatest = none := by
  rw [sort,if_pos ⟨.inl (by decide),by decide⟩,buildLoop_leaves large (by omega) (Nat.le_refl _)]
  rfl

/-- All arrays of `cnt` elements are sorted, without an access outside of them, exactly if `cnt` is less than 2^31. -/
theorem sort_correct_iff (cnt : Searches.Addr) (possible : ∃ array size, IsArray array cnt size) :
    (∀ (array size : Searches.Addr) (compare : Element size → Element size → Int) (m : Memory),
      IsArray array cnt size → TotalPreorder compare → ∀ fuel > cnt.toNat,
        ∃ m', sort fuel array cnt size compare m = some m' ∧ SortedArray array cnt size compare m m') ↔
      cnt.toNat < 2 ^ 31 := by
  constructor
  · intro sorts
    refine Nat.lt_of_not_le fun large => ?_
    obtain ⟨array,size,object⟩ := possible
    have byte_array : IsArray 1 cnt 1 := by
      have counted : cnt ≠ 0 := fun none_ => by rw [none_] at large; exact absurd large (by decide)
      have room := object.room
      have first : 0 < array.toNat := Nat.pos_of_ne_zero fun null =>
        object.nonnull counted (BitVec.eq_of_toNat_eq null)
      have bytes : 1 * cnt.toNat ≤ size.toNat * cnt.toNat := Nat.mul_le_mul_right _ object.positive
      refine ⟨by decide,?_,fun _ => by decide⟩
      change 1 + 1 * cnt.toNat < 2 ^ 32
      omega
    obtain ⟨m',ran,-⟩ := sorts 1 1 byteOrder lateGreatest byte_array byteOrder_total (cnt.toNat + 1) (Nat.lt_succ_self _)
    rw [sort_leaves large] at ran
    cases ran
  · intro small array size compare m object order fuel enough
    exact sort_sorts object order small m enough

/-- Three bytes at 0x1000, the greatest first. -/
theorem sort_correct_three :
    ∃ m', sort 4 0x1000 3 1 byteOrder (fun p => if p = 0x1000 then 9 else 5) = some m' ∧
      SortedArray 0x1000 3 1 byteOrder (fun p => if p = 0x1000 then 9 else 5) m' :=
  (sort_correct_iff 3 ⟨0x1000,1,by decide,by decide,fun _ => by decide⟩).mpr (by decide) 0x1000 1 byteOrder
    (fun p => if p = 0x1000 then 9 else 5) ⟨by decide,by decide,fun _ => by decide⟩ byteOrder_total 4 (by decide)

/-- 2^31 elements of one byte. -/
theorem sort_access_zero : IsArray 1 0x80000000 1 ∧ TotalPreorder byteOrder ∧
    ¬ ∃ fuel m', sort fuel 1 0x80000000 1 byteOrder lateGreatest = some m' := by
  refine ⟨⟨by decide,by decide,fun _ => by decide⟩,byteOrder_total,?_⟩
  rintro ⟨fuel,m',ran⟩
  rw [sort_leaves (by decide)] at ran
  cases ran

end Pintos.Sorting
