import Mathlib.Data.List.Basic

/-!
Scans: how far a property of indices, or of the characters of a string in memory,
holds from a start on.
-/
namespace Pintos.Scans
universe u

/-- Where `p` first fails, from `i` on; at most `n` elements further. -/
def leading (p : Nat → Bool) : Nat → Nat → Nat
  | 0, i => i
  | n + 1, i => if p i then leading p n (i + 1) else i

theorem leading_stop {p : Nat → Bool} {i : Nat} (stop : p i = false) (n : Nat) : leading p (n + 1) i = i := by
  rw [leading,if_neg (by simp [stop])]

theorem leading_go {p : Nat → Bool} {i : Nat} (go : p i = true) (n : Nat) : leading p (n + 1) i = leading p n (i + 1) := by
  rw [leading,if_pos go]

theorem leading_spec (p : Nat → Bool) (n i : Nat) :
    i ≤ leading p n i ∧ leading p n i ≤ i + n ∧ ∀ j, i ≤ j → j < leading p n i → p j = true := by
  induction n generalizing i with
  | zero => exact ⟨Nat.le_refl i,Nat.le_refl i,fun j from_ below => absurd from_ (Nat.not_le.mpr below)⟩
  | succ n ih =>
    rw [leading]
    cases here : p i with
    | false =>
      rw [if_neg (by simp)]
      exact ⟨Nat.le_refl i,by omega,fun j from_ below => absurd from_ (Nat.not_le.mpr below)⟩
    | true =>
      obtain ⟨low,high,all⟩ := ih (i + 1)
      rw [if_pos rfl]
      refine ⟨by omega,by omega,fun j from_ below => ?_⟩
      rcases Nat.lt_or_ge i j with after | same
      · exact all j after below
      · rwa [Nat.le_antisymm same from_]

theorem leading_mono {p q : Nat → Bool} (weaker : ∀ i, p i = true → q i = true) (n i : Nat) : leading p n i ≤ leading q n i := by
  induction n generalizing i with
  | zero => exact Nat.le_refl i
  | succ n ih =>
    rw [leading,leading]
    cases here : p i with
    | true =>
      rw [if_pos rfl,if_pos (weaker i here)]
      exact ih (i + 1)
    | false =>
      rw [if_neg (by simp)]
      exact (leading_spec q (n + 1) i).1

/-- The indices from `i` up to `j` are the longest without a separator. -/
structure Run (Sep : Nat → Prop) (i j : Nat) : Prop where
  lt : i < j
  inside : ∀ k, i ≤ k → k < j → ¬ Sep k
  starts : i = 0 ∨ Sep (i - 1)
  ends : Sep j

theorem run_none {Sep : Nat → Prop} (all : ∀ k, Sep k) (i j : Nat) : ¬ Run Sep i j :=
  fun run => run.inside i (Nat.le_refl i) run.lt (all i)

/-- Behind the first run and its separator the others are the runs of what is left. -/
theorem run_first {Sep : Nat → Prop} {a b : Nat} (lt : a < b) (before : ∀ k < a, Sep k)
    (inside : ∀ k, a ≤ k → k < b → ¬ Sep k) (ends : Sep b) (i j : Nat) :
    Run Sep i j ↔ (i = a ∧ j = b) ∨ ∃ i' j', i = b + 1 + i' ∧ j = b + 1 + j' ∧ Run (fun k => Sep (b + 1 + k)) i' j' := by
  constructor
  · intro run
    have low : a ≤ i := Nat.le_of_not_lt fun early => run.inside i (Nat.le_refl i) run.lt (before i early)
    have run_lt := run.lt
    rcases Nat.lt_or_ge b i with later | first
    · refine .inr ⟨i - (b + 1),j - (b + 1),by omega,by omega,by omega,fun k from_ below => ?_,?_,?_⟩
      · exact run.inside _ (by omega) (by omega)
      · rcases run.starts with zero | separated
        · omega
        · rcases Nat.eq_zero_or_pos (i - (b + 1)) with none | some
          · exact .inl none
          · refine .inr ?_
            rwa [show b + 1 + (i - (b + 1) - 1) = i - 1 by omega]
      · show Sep (b + 1 + (j - (b + 1)))
        rw [show b + 1 + (j - (b + 1)) = j by omega]
        exact run.ends
    · have start : i = a := by
        rcases run.starts with zero | separated
        · omega
        · refine Nat.le_antisymm (Nat.le_of_not_lt fun more => ?_) low
          exact inside (i - 1) (by omega) (by omega) separated
      refine .inl ⟨start,Nat.le_antisymm (Nat.le_of_not_lt fun long => ?_) (Nat.le_of_not_lt fun short => ?_)⟩
      · exact run.inside b (by omega) long ends
      · exact inside j (by omega) short run.ends
  · rintro (⟨rfl,rfl⟩ | ⟨i',j',rfl,rfl,run⟩)
    · refine ⟨lt,inside,?_,ends⟩
      rcases Nat.eq_zero_or_pos i with zero | some
      · exact .inl zero
      · exact .inr (before (i - 1) (by omega))
    · have run_lt := run.lt
      refine ⟨by omega,fun k from_ below => ?_,.inr ?_,run.ends⟩
      · have within := run.inside (k - (b + 1)) (by omega) (by omega)
        rwa [show b + 1 + (k - (b + 1)) = k by omega] at within
      · rcases run.starts with zero | separated
        · rw [zero]
          exact ends
        · rcases Nat.eq_zero_or_pos i' with none | some
          · rw [none]
            exact ends
          · rwa [show b + 1 + (i' - 1) = b + 1 + i' - 1 by omega] at separated

/-! ### Strings in memory -/

variable {α : Type u} [Zero α]

/-- The characters of `text` are in memory from `s` on, none of them zero, and a zero
    follows. -/
def CString (m : Nat → α) : Nat → List α → Prop
  | s, [] => m s = 0
  | s, c :: rest => m s = c ∧ c ≠ 0 ∧ CString m (s + 1) rest

variable {m m' : Nat → α} {s i : Nat} {text rest : List α} {p : α → Bool}

theorem cstring_append {front : List α} : CString m s (front ++ text) ↔
    (∀ i (h : i < front.length), m (s + i) = front[i] ∧ front[i] ≠ 0) ∧ CString m (s + front.length) text := by
  induction front generalizing s with
  | nil => simp
  | cons c front ih =>
    simp only [List.cons_append,CString,ih,List.length_cons]
    constructor
    · rintro ⟨here,nonzero,chars,later⟩
      refine ⟨fun i below => ?_,by rwa [Nat.add_assoc,Nat.add_comm 1] at later⟩
      cases i with
      | zero => exact ⟨here,nonzero⟩
      | succ i =>
        have char := chars i (by omega)
        rwa [Nat.add_assoc,Nat.add_comm 1] at char
    · rintro ⟨chars,later⟩
      obtain ⟨here,nonzero⟩ := chars 0 (by omega)
      refine ⟨here,nonzero,fun i below => ?_,by rwa [Nat.add_assoc,Nat.add_comm 1]⟩
      have char := chars (i + 1) (by omega)
      rwa [Nat.add_assoc,Nat.add_comm 1]

/-- The characters of a string, one by one. -/
theorem cstring_iff : CString m s text ↔ (∀ i (h : i < text.length), m (s + i) = text[i] ∧ text[i] ≠ 0) ∧ m (s + text.length) = 0 := by
  have whole : CString m s (text ++ []) ↔ _ := cstring_append
  rwa [List.append_nil] at whole

theorem cstring_drop (string : CString m s text) (inside : i ≤ text.length) : CString m (s + i) (text.drop i) := by
  have split : CString m s (text.take i ++ text.drop i) := by rwa [List.take_append_drop]
  have later := (cstring_append.mp split).2
  rwa [List.length_take,Nat.min_eq_left inside] at later

/-- What is written outside of a string does not change it. -/
theorem cstring_same (string : CString m s text) (same : ∀ i, s ≤ i → i ≤ s + text.length → m' i = m i) : CString m' s text := by
  induction text generalizing s with
  | nil => exact (same s (Nat.le_refl s) (Nat.le_refl s)).trans string
  | cons c text ih =>
    obtain ⟨here,nonzero,later⟩ := string
    rw [List.length_cons] at same
    exact ⟨(same s (Nat.le_refl s) (by omega)).trans here,nonzero,ih later fun i low high => same i (by omega) (by omega)⟩

/-- A scan for a property that zero does not have stays in the string: it splits it where
    the property ends. -/
theorem leading_cstring (string : CString m s text) (zero : p 0 = false) {n : Nat} (enough : text.length < n) :
    ∃ front rest, text = front ++ rest ∧ (∀ c ∈ front, p c = true) ∧ (rest = [] ∨ ∃ c tail, rest = c :: tail ∧ p c = false) ∧
      leading (fun i => p (m i)) n s = s + front.length ∧ CString m (s + front.length) rest := by
  induction text generalizing s n with
  | nil =>
    cases n with
    | zero => omega
    | succ n =>
      have here : m s = 0 := string
      refine ⟨[],[],rfl,by simp,.inl rfl,?_,string⟩
      rw [leading,here,zero]
      rfl
  | cons c text ih =>
    obtain ⟨here,nonzero,later⟩ := string
    cases n with
    | zero => omega
    | succ n =>
      rw [leading,here]
      cases holds : p c with
      | false => exact ⟨[],c :: text,rfl,by simp,.inr ⟨c,text,rfl,holds⟩,rfl,here,nonzero,later⟩
      | true =>
        obtain ⟨front,rest,split,all,stops,scan,string⟩ := ih later (n := n) (by simpa using enough)
        refine ⟨c :: front,rest,by rw [split]; rfl,?_,stops,?_,?_⟩
        · intro d member
          rcases List.mem_cons.mp member with same | other
          · rwa [same]
          · exact all d other
        · rw [if_pos rfl,scan,List.length_cons]
          omega
        · rwa [List.length_cons,Nat.add_comm front.length 1,← Nat.add_assoc]

end Pintos.Scans
