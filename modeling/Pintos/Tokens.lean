import Pintos.Strings
import Mathlib.Logic.Function.Iterate

/-!
`strtok_r` of `lib/string.c` as its loops run, over `strchr`: a byte is looked for in
the string of the delimiters, of which the zero at its end is part. Calls with a null
pointer go on from the saved position; together the calls find every token of the string.
-/
namespace Pintos.Tokens
open Pintos.Scans
open Pintos.Bitmaps (Byte)
open Pintos.Strings (Mem limit tokens)
set_option linter.unusedSimpArgs false

/-- `strchr`, in so many turns. -/
def strchr (m : Mem) (c : Byte) : Nat → Nat → Option Nat
  | 0, _ => none
  | n + 1, string => if m string = c then some string else if m string = 0 then none else strchr m c n (string + 1)

/-- The first loop: where the token starts, or where the string ends without one. -/
def skip_delimiters (d : Mem) (delimiters : Nat) (m : Mem) : Nat → Nat → Except Nat Nat
  | 0, s => .error s
  | n + 1, s =>
    if (strchr d (m s) limit delimiters).isSome then
      if m s = 0 then .error s else skip_delimiters d delimiters m n (s + 1)
    else .ok s

/-- The second loop: where the token ends. -/
def skip_token (d : Mem) (delimiters : Nat) (m : Mem) : Nat → Nat → Nat
  | 0, s => s
  | n + 1, s => if (strchr d (m s) limit delimiters).isNone then skip_token d delimiters m n (s + 1) else s

/-- The token, the memory, and `*save_ptr`. -/
def strtok_r (d : Mem) (delimiters : Nat) (m : Mem) (s : Option Nat) (save_ptr : Nat) : Option Nat × Mem × Nat :=
  match skip_delimiters d delimiters m limit (s.getD save_ptr) with
  | .error s => (none,m,s)
  | .ok token =>
    let s := skip_token d delimiters m limit token
    if m s ≠ 0 then (some token,Function.update m s 0,s + 1) else (some token,m,s)

/-- The call after one that gave `r`. -/
def next (d : Mem) (delimiters : Nat) (r : Option Nat × Mem × Nat) : Option Nat × Mem × Nat := strtok_r d delimiters r.2.1 none r.2.2

/-- What call `k` gives, of a first call with a string and further ones with a null pointer. -/
def call (d : Mem) (delimiters : Nat) (m : Mem) (s save_ptr k : Nat) : Option Nat × Mem × Nat :=
  (next d delimiters)^[k] (strtok_r d delimiters m (some s) save_ptr)

/-- There is a delimiter at an index of the string, or its end. -/
def Separates (delimiters text : List Byte) (k : Nat) : Prop := ∀ c, text[k]? = some c → c ∈ delimiters

/-- The bytes between two indices. -/
def word (text : List Byte) (run : Nat × Nat) : List Byte := (text.drop run.1).take (run.2 - run.1)

variable {d m : Mem} {delimiters s save n a b k : Nat} {t : Option Nat} {ds text rest : List Byte} {c : Byte} {r : Option Nat × Mem × Nat}

/-- `strchr` finds the characters of a string and the zero at its end. -/
theorem strchr_spec (string : CString d s ds) (short : ds.length < n) : (strchr d c n s).isSome = true ↔ c = 0 ∨ c ∈ ds := by
  induction ds generalizing s n with
  | nil =>
    have ended : d s = 0 := string
    obtain ⟨n,rfl⟩ : ∃ n', n = n' + 1 := ⟨n - 1,by omega⟩
    rw [strchr,ended]
    by_cases zero : c = 0
    · simp [zero]
    · rw [if_neg (Ne.symm zero),if_pos rfl]
      simpa using zero
  | cons e ds ih =>
    obtain ⟨here,nonzero,later⟩ := string
    obtain ⟨n,rfl⟩ : ∃ n', n = n' + 1 := ⟨n - 1,by omega⟩
    rw [strchr,here]
    by_cases same : e = c
    · simp [same]
    · rw [if_neg same,if_neg nonzero,ih later (by simpa using short)]
      simp [Ne.symm same]

section
variable (set : CString d delimiters ds) (few : ds.length < limit)
include set few

theorem skip_delimiters_eq (string : CString m s text) (short : text.length < n) :
    skip_delimiters d delimiters m n s =
      if m (leading (fun i => decide (m i ∈ ds)) n s) = 0 then .error (leading (fun i => decide (m i ∈ ds)) n s)
      else .ok (leading (fun i => decide (m i ∈ ds)) n s) := by
  have clean : 0 ∉ ds := fun member => Strings.cstring_nonzero set 0 member rfl
  induction text generalizing s n with
  | nil =>
    have ended : m s = 0 := string
    obtain ⟨n,rfl⟩ : ∃ n', n = n' + 1 := ⟨n - 1,by omega⟩
    have found : (strchr d (m s) limit delimiters).isSome = true := (strchr_spec set few).mpr (.inl ended)
    rw [skip_delimiters,if_pos found,if_pos ended,leading_stop (by simpa [ended] using clean),if_pos ended]
  | cons e text ih =>
    obtain ⟨here,nonzero,later⟩ := string
    obtain ⟨n,rfl⟩ : ∃ n', n = n' + 1 := ⟨n - 1,by omega⟩
    have some_char : m s ≠ 0 := fun zero => nonzero (here.symm.trans zero)
    have found : (strchr d (m s) limit delimiters).isSome = true ↔ m s ∈ ds := (strchr_spec set few).trans (or_iff_right some_char)
    rw [skip_delimiters]
    by_cases delimiter : m s ∈ ds
    · rw [if_pos (found.mpr delimiter),if_neg some_char,leading_go (decide_eq_true delimiter)]
      exact ih later (by simpa using short)
    · rw [if_neg (mt found.mp delimiter),leading_stop (decide_eq_false delimiter),if_neg some_char]

theorem skip_token_eq (n s : Nat) : skip_token d delimiters m n s = leading (fun i => decide (m i ∉ ds ∧ m i ≠ 0)) n s := by
  induction n generalizing s with
  | zero => rfl
  | succ n ih =>
    have past : (strchr d (m s) limit delimiters).isNone = true ↔ m s ∉ ds ∧ m s ≠ 0 := by
      rw [Option.isNone_iff_eq_none,← Option.not_isSome_iff_eq_none,strchr_spec set few,not_or]
      exact and_comm
    rw [skip_token]
    by_cases letter : m s ∉ ds ∧ m s ≠ 0
    · rw [if_pos (past.mpr letter),leading_go (decide_eq_true letter),ih]
    · rw [if_neg (mt past.mp letter),leading_stop (decide_eq_false letter)]

/-- `strtok_r` is that of `Strings`, whose loops ask for a member of the set. -/
theorem strtok_r_eq (string : CString m (t.getD save) text) (short : text.length < limit) :
    strtok_r d delimiters m t save = Strings.strtok_r ds m t save := by
  rw [strtok_r,skip_delimiters_eq set few string short,Strings.strtok_r]
  by_cases ended : m (leading (fun i => decide (m i ∈ ds)) limit (t.getD save)) = 0
  · simp only [if_pos ended]
  · simp only [if_neg ended,skip_token_eq set few]

end

/-! ### One call -/

theorem separates_end (after : text.length ≤ k) : Separates ds text k := by
  intro c found
  rw [List.getElem?_eq_none after] at found
  cases found

theorem separates_iff (inside : k < text.length) : Separates ds text k ↔ text[k] ∈ ds := by
  rw [Separates,List.getElem?_eq_getElem inside]
  exact ⟨fun all => all _ rfl,fun member c same => Option.some.inj same ▸ member⟩

theorem separates_drop (i k : Nat) : Separates ds text (i + k) ↔ Separates ds (text.drop i) k := by
  rw [Separates,Separates,List.getElem?_drop]

/-- What a call that finds a token from `a` to `b` does: it ends it there, unless the
    string does, and goes on behind it. -/
structure Cut (delimiters : List Byte) (m : Mem) (s : Nat) (text : List Byte) (a b : Nat) (r : Option Nat × Mem × Nat) : Prop where
  lt : a < b
  le : b ≤ text.length
  before : ∀ k < a, Separates delimiters text k
  inside : ∀ k, a ≤ k → k < b → ¬ Separates delimiters text k
  ends : Separates delimiters text b
  found : r.1 = some (s + a)
  cut : b < text.length → r.2.1 = Function.update m (s + b) 0 ∧ r.2.2 = s + (b + 1)
  last : b = text.length → r.2.1 = m ∧ r.2.2 = s + b
  words : tokens delimiters text = word text (a,b) :: tokens delimiters (text.drop (b + 1))

/-- A text cut where its first token is: `middle`, between delimiters and the rest. -/
structure Parts (delimiters text front middle rest : List Byte) : Prop where
  whole : text = front ++ (middle ++ rest)
  spaces : ∀ c ∈ front, c ∈ delimiters
  letters : ∀ c ∈ middle, c ∉ delimiters
  nonempty : middle ≠ []
  ends : ∀ e tail, rest = e :: tail → e ∈ delimiters

/-- Both scans of a call, for a string with a token and for one without. -/
theorem strtok_r_scans (t : Option Nat) (save : Nat) (set : CString d delimiters ds) (few : ds.length < limit)
    (string : CString m (t.getD save) text) (short : text.length < limit) :
    ((∀ c ∈ text, c ∈ ds) ∧ strtok_r d delimiters m t save = (none,m,t.getD save + text.length)) ∨
    ∃ front middle rest, Parts ds text front middle rest ∧ CString m (t.getD save + front.length + middle.length) rest ∧
      strtok_r d delimiters m t save =
        if m (t.getD save + front.length + middle.length) ≠ 0 then
          (some (t.getD save + front.length),Function.update m (t.getD save + front.length + middle.length) 0,
            t.getD save + front.length + middle.length + 1)
        else (some (t.getD save + front.length),m,t.getD save + front.length + middle.length) := by
  have clean : 0 ∉ ds := fun member => Strings.cstring_nonzero set 0 member rfl
  rw [strtok_r_eq set few string short,Strings.strtok_r]
  obtain ⟨s,named⟩ : ∃ s, t.getD save = s := ⟨_,rfl⟩
  rw [named] at string ⊢
  obtain ⟨front,later,split,spaces,stops,scan,string'⟩ :=
    leading_cstring (p := fun c => decide (c ∈ ds)) string (by simpa using clean) short
  have front_clean : ∀ c ∈ front, c ∈ ds := fun c member => by simpa using spaces c member
  have length : text.length = front.length + later.length := by rw [split,List.length_append]
  rw [scan]
  rcases stops with none | ⟨c,tail,shape,no_delimiter⟩
  · subst none
    rw [List.append_nil] at split
    subst split
    exact .inl ⟨front_clean,if_pos string'⟩
  · have here : m (s + front.length) ≠ 0 := by
      rw [shape] at string'
      rw [string'.1]
      exact string'.2.1
    have letter : c ∉ ds := by simpa using no_delimiter
    obtain ⟨middle,rest,split',letters,ends,scan',string''⟩ :=
      leading_cstring (p := fun c => decide (c ∉ ds ∧ c ≠ 0)) string' (by simp) (show later.length < limit by omega)
    have rest_first (e : Byte) (tail' : List Byte) (rest_shape : rest = e :: tail') : e ∈ ds := by
      rcases ends with none | ⟨e',tail'',shape',stop⟩
      · rw [none] at rest_shape
        cases rest_shape
      · obtain ⟨rfl,rfl⟩ := List.cons.inj (rest_shape.symm.trans shape')
        rw [shape'] at string''
        refine Decidable.byContradiction fun other => of_decide_eq_false stop ⟨other,string''.2.1⟩
    have some_middle : middle ≠ [] := by
      rintro rfl
      rw [shape,List.nil_append] at split'
      exact letter (rest_first c tail split'.symm)
    rw [if_neg here,scan']
    exact .inr ⟨front,middle,rest,⟨by rw [split,split'],front_clean,fun c member => (of_decide_eq_true (letters c member)).1,
      some_middle,rest_first⟩,string'',rfl⟩

section
variable {front middle : List Byte} (parts : Parts ds text front middle rest)
include parts

theorem parts_length : text.length = front.length + middle.length + rest.length := by
  rw [parts.whole,List.length_append,List.length_append,Nat.add_assoc]

theorem parts_behind : text.drop (front.length + middle.length) = rest := by
  rw [parts.whole,← List.append_assoc,← List.length_append,List.drop_left]

/-- Where the separators of the first token are. -/
theorem parts_separate : (∀ k < front.length, Separates ds text k) ∧
    (∀ k, front.length ≤ k → k < front.length + middle.length → ¬ Separates ds text k) ∧
    Separates ds text (front.length + middle.length) := by
  have length := parts_length parts
  refine ⟨fun k below => ?_,fun k from_ below => ?_,?_⟩
  · have within : k < text.length := by omega
    have char : text[k] = front[k] := by simp only [parts.whole,List.getElem_append_left below]
    rw [separates_iff within]
    exact char ▸ parts.spaces _ (List.getElem_mem below)
  · have within : k < text.length := by omega
    have place : k - front.length < middle.length := by omega
    have char : text[k] = middle[k - front.length] := by
      simp only [parts.whole,List.getElem_append_right from_,List.getElem_append_left place]
    rw [separates_iff within]
    exact char ▸ parts.letters _ (List.getElem_mem _)
  · rw [← Nat.add_zero (front.length + middle.length),separates_drop,parts_behind parts]
    intro e first
    cases shape : rest with
    | nil =>
      rw [shape] at first
      cases first
    | cons e' tail =>
      rw [shape] at first
      obtain rfl := Option.some.inj first
      exact parts.ends e' tail shape

theorem parts_tokens : tokens ds text =
    word text (front.length,front.length + middle.length) :: tokens ds (text.drop (front.length + middle.length + 1)) := by
  have cut_word : word text (front.length,front.length + middle.length) = middle := by
    rw [word,parts.whole,List.drop_left,show front.length + middle.length - front.length = middle.length by omega,List.take_left]
  rw [cut_word,← List.drop_drop,parts_behind parts,parts.whole,Strings.tokens_skip front parts.spaces]
  cases shape : rest with
  | nil => rw [List.append_nil,Strings.tokens_word parts.letters parts.nonempty,List.drop_nil,Strings.tokens_nil]
  | cons e tail =>
    rw [Strings.tokens_first parts.letters parts.nonempty (parts.ends e tail shape),List.drop_succ_cons,List.drop_zero]

end

theorem strtok_r_cut (t : Option Nat) (save : Nat) (set : CString d delimiters ds) (few : ds.length < limit)
    (string : CString m (t.getD save) text) (short : text.length < limit) :
    ((∀ k, Separates ds text k) ∧ tokens ds text = [] ∧
      strtok_r d delimiters m t save = (none,m,t.getD save + text.length)) ∨
    ∃ a b, Cut ds m (t.getD save) text a b (strtok_r d delimiters m t save) := by
  rcases strtok_r_scans t save set few string short with ⟨all,ended⟩ | ⟨front,middle,rest,parts,behind,ran⟩
  · refine .inl ⟨fun k c found => all c (List.mem_of_getElem? found),?_,ended⟩
    rw [← List.append_nil text,Strings.tokens_skip text all,Strings.tokens_nil]
  · have length := parts_length parts
    have positive := List.length_pos_iff.mpr parts.nonempty
    obtain ⟨before,inside,ends⟩ := parts_separate parts
    rw [ran]
    refine .inr ⟨front.length,front.length + middle.length,by omega,by omega,before,inside,ends,?_,fun more => ?_,fun no_more => ?_,
      parts_tokens parts⟩
    · split <;> rfl
    · obtain ⟨e,tail,shape⟩ := List.exists_cons_of_length_pos (show 0 < rest.length by omega)
      rw [shape] at behind
      have nonzero : m (t.getD save + front.length + middle.length) ≠ 0 := behind.1 ▸ behind.2.1
      rw [if_pos nonzero,Nat.add_assoc]
      exact ⟨rfl,rfl⟩
    · have none : rest = [] := List.eq_nil_of_length_eq_zero (by omega)
      rw [none] at behind
      have zero : m (t.getD save + front.length + middle.length) = 0 := behind
      rw [if_neg (not_not.mpr zero),Nat.add_assoc]
      exact ⟨rfl,rfl⟩

section
variable (cut : Cut ds m s text a b r)
include cut

/-- Only the byte behind the token changes, and only where it is a delimiter. -/
theorem cut_changed (i : Nat) (changed : r.2.1 i ≠ m i) : r.2.1 i = 0 ∧ i = s + b ∧ b < text.length := by
  rcases Nat.lt_or_ge b text.length with more | none
  · obtain ⟨memory,_⟩ := cut.cut more
    rw [memory] at changed ⊢
    by_cases same : i = s + b
    · exact ⟨by rw [same,Function.update_self],same,more⟩
    · exact absurd (Function.update_of_ne same _ _) changed
  · have le := cut.le
    obtain ⟨memory,_⟩ := cut.last (by omega)
    exact absurd (by rw [memory]) changed

theorem cut_kept (i : Nat) (other : i ≠ s + b) : r.2.1 i = m i :=
  Decidable.byContradiction fun changed => other (cut_changed cut i changed).2.1

/-- What the next call starts from: the position behind the token's end, or no text at all. -/
theorem cut_saved : text.drop (b + 1) = [] ∧ r.2.2 = s + b ∨ r.2.2 = s + (b + 1) := by
  have le := cut.le
  rcases Nat.lt_or_ge b text.length with more | none
  · exact .inr (cut.cut more).2
  · exact .inl ⟨List.drop_eq_nil_of_le (by omega),(cut.last (by omega)).2⟩

theorem cut_word_string (string : CString m s text) : CString r.2.1 (s + a) (word text (a,b)) := by
  have le := cut.le
  have lt := cut.lt
  obtain ⟨chars,ended⟩ := cstring_iff.mp string
  have length : (word text (a,b)).length = b - a := by
    rw [word,List.length_take,List.length_drop]
    omega
  refine cstring_iff.mpr ⟨fun i below => ?_,?_⟩
  · obtain ⟨here,nonzero⟩ := chars (a + i) (by omega)
    have within : a + i < text.length := by omega
    have char : (word text (a,b))[i] = text[a + i] := by simp only [word,List.getElem_take,List.getElem_drop]
    rw [char,cut_kept cut _ (by omega),Nat.add_assoc]
    exact ⟨here,nonzero⟩
  · rw [length,Nat.add_assoc,show a + (b - a) = b by omega]
    rcases Nat.lt_or_ge b text.length with more | none
    · rw [(cut.cut more).1,Function.update_self]
    · obtain rfl : b = text.length := by omega
      rw [(cut.last rfl).1]
      exact ended

theorem cut_rest_string (string : CString m s text) : CString r.2.1 r.2.2 (text.drop (b + 1)) := by
  have le := cut.le
  rcases Nat.lt_or_ge b text.length with more | none
  · obtain ⟨memory,saved⟩ := cut.cut more
    rw [memory,saved]
    exact cstring_same (cstring_drop string more) fun i low _ => Function.update_of_ne (by omega) _ _
  · obtain rfl : b = text.length := by omega
    obtain ⟨memory,saved⟩ := cut.last rfl
    rw [memory,saved,List.drop_eq_nil_of_le (by omega)]
    exact (cstring_iff.mp string).2

end

/-! ### All calls -/

/-- The calls `r` on a string find its longest parts without a delimiter, all of them and
    from left to right, and then none. Each token stays at its place with a zero behind it, and
    nothing but delimiters is overwritten. -/
structure Tokenised (delimiters text : List Byte) (m : Mem) (s : Nat) (runs : List (Nat × Nat))
    (r : Nat → Option Nat × Mem × Nat) : Prop where
  ordered : runs.Pairwise fun run later => run.2 < later.1
  all : ∀ i j, (i,j) ∈ runs ↔ Run (Separates delimiters text) i j
  words : runs.map (word text) = tokens delimiters text
  returned : ∀ k, (r k).1 = runs[k]?.map fun run => s + run.1
  strings : ∀ k, ∀ run ∈ runs.take (k + 1), CString (r k).2.1 (s + run.1) (word text run)
  overwritten : ∀ k i, (r k).2.1 i ≠ m i → (r k).2.1 i = 0 ∧ ∃ j c, i = s + j ∧ text[j]? = some c ∧ c ∈ delimiters

theorem word_drop (text : List Byte) (i : Nat) (run : Nat × Nat) : word text (i + run.1,i + run.2) = word (text.drop i) run := by
  rw [word,word,List.drop_drop,Nat.add_sub_add_left]

/-- Behind the end of the string every call gives a null pointer, and changes nothing. -/
theorem tokenised_end (all : ∀ k, Separates ds text k) (no_tokens : tokens ds text = []) {r : Nat → Option Nat × Mem × Nat}
    (ended : ∀ k, r k = (none,m,save)) : Tokenised ds text m s [] r where
  ordered := List.Pairwise.nil
  all i j := ⟨fun member => absurd member List.not_mem_nil,fun run => absurd run (run_none all i j)⟩
  words := no_tokens.symm
  returned k := by rw [ended]; rfl
  strings k run member := absurd member (by simp)
  overwritten k i changed := by
    rw [ended] at changed
    exact absurd rfl changed

section
variable {runs : List (Nat × Nat)} {r : Nat → Option Nat × Mem × Nat} (cut : Cut ds m s text a b (r 0))
  (later : Tokenised ds (text.drop (b + 1)) (r 0).2.1 (r 0).2.2 runs fun k => r (k + 1))
include cut later

theorem later_saved : runs = [] ∨ (r 0).2.2 = s + (b + 1) := by
  rcases cut_saved cut with ⟨ended,_⟩ | behind
  · refine .inl (List.eq_nil_iff_forall_not_mem.mpr fun run member => ?_)
    have none := later.all run.1 run.2
    rw [ended] at none
    exact run_none (fun k => separates_end (Nat.zero_le k)) _ _ (none.mp member)
  · exact .inr behind

/-- What the later calls overwrite is behind the token, and is a delimiter of the whole text. -/
theorem later_overwritten (k i : Nat) (changed : (r (k + 1)).2.1 i ≠ (r 0).2.1 i) :
    (r (k + 1)).2.1 i = 0 ∧ ∃ j c, i = s + (b + 1 + j) ∧ text[b + 1 + j]? = some c ∧ c ∈ ds := by
  obtain ⟨zero,j,c,rfl,char,delimiter⟩ := later.overwritten k i changed
  rcases cut_saved cut with ⟨ended,_⟩ | place
  · rw [ended] at char
    cases char
  · rw [List.getElem?_drop] at char
    exact ⟨zero,j,c,by rw [place,Nat.add_assoc],char,delimiter⟩

theorem later_all (i j : Nat) : (i,j) ∈ (a,b) :: runs.map (fun run => (b + 1 + run.1,b + 1 + run.2)) ↔
    Run (Separates ds text) i j := by
  have shifted : (fun k => Separates ds text (b + 1 + k)) = Separates ds (text.drop (b + 1)) :=
    funext fun k => propext (separates_drop (b + 1) k)
  rw [run_first cut.lt cut.before cut.inside cut.ends,shifted,List.mem_cons,List.mem_map,Prod.mk.injEq]
  refine or_congr_right ⟨?_,?_⟩
  · rintro ⟨run,member,same⟩
    obtain ⟨rfl,rfl⟩ := Prod.mk.inj same
    exact ⟨run.1,run.2,rfl,rfl,(later.all run.1 run.2).mp member⟩
  · rintro ⟨i',j',rfl,rfl,run⟩
    exact ⟨(i',j'),(later.all i' j').mpr run,rfl⟩

/-- The token stays a string whatever the later calls do. -/
theorem later_token (string : CString m s text) (k : Nat) : CString (r k).2.1 (s + a) (word text (a,b)) := by
  cases k with
  | zero => exact cut_word_string cut string
  | succ k =>
    have lt := cut.lt
    refine cstring_same (cut_word_string cut string) fun i _ high => Decidable.byContradiction fun changed => ?_
    obtain ⟨_,j,c,place,_,_⟩ := later_overwritten cut later k i changed
    rw [word,List.length_take] at high
    omega

theorem later_strings (k : Nat) (run : Nat × Nat) (member : run ∈ runs.take k) :
    CString (r k).2.1 (s + (b + 1 + run.1)) (word text (b + 1 + run.1,b + 1 + run.2)) := by
  cases k with
  | zero => exact absurd member List.not_mem_nil
  | succ k =>
    have string := later.strings k run member
    rcases later_saved cut later with none | place
    · rw [none,List.take_nil] at member
      exact absurd member List.not_mem_nil
    · rw [place,Nat.add_assoc] at string
      rw [word_drop]
      exact string

/-- A call that finds a token, and the calls on the rest of the string. -/
theorem tokenised_cut (string : CString m s text) :
    Tokenised ds text m s ((a,b) :: runs.map fun run => (b + 1 + run.1,b + 1 + run.2)) r := by
  have first (i : Nat) (changed : (r 0).2.1 i ≠ m i) :
      (r 0).2.1 i = 0 ∧ ∃ j c, i = s + j ∧ text[j]? = some c ∧ c ∈ ds := by
    obtain ⟨zero,rfl,more⟩ := cut_changed cut i changed
    exact ⟨zero,b,text[b],rfl,List.getElem?_eq_getElem more,(separates_iff more).mp cut.ends⟩
  refine ⟨?_,later_all cut later,?_,fun k => ?_,fun k run member => ?_,fun k i changed => ?_⟩
  · refine List.pairwise_cons.mpr ⟨fun run member => ?_,List.pairwise_map.mpr (later.ordered.imp fun less => ?_)⟩
    · obtain ⟨run',_,rfl⟩ := List.mem_map.mp member
      show b < b + 1 + run'.1
      omega
    · exact Nat.add_lt_add_left less _
  · rw [List.map_cons,cut.words,← later.words,List.map_map]
    exact congrArg _ (List.map_congr_left fun run _ => word_drop text (b + 1) run)
  · cases k with
    | zero => exact cut.found
    | succ k =>
      rw [later.returned k,List.getElem?_cons_succ,List.getElem?_map]
      rcases later_saved cut later with none | place
      · rw [none]
        rfl
      · rw [place,Option.map_map]
        refine congrArg (fun f => runs[k]?.map f) (funext fun run => ?_)
        exact Nat.add_assoc _ _ _
  · rw [List.take_succ_cons] at member
    rcases List.mem_cons.mp member with rfl | member
    · exact later_token cut later string k
    · rw [← List.map_take] at member
      obtain ⟨run',member',rfl⟩ := List.mem_map.mp member
      exact later_strings cut later k run' member'
  · cases k with
    | zero => exact first i changed
    | succ k =>
      by_cases same : (r (k + 1)).2.1 i = (r 0).2.1 i
      · rw [same] at changed ⊢
        exact first i changed
      · obtain ⟨zero,j,c,place,char,delimiter⟩ := later_overwritten cut later k i same
        exact ⟨zero,b + 1 + j,c,place,char,delimiter⟩

end

/-- The calls from one with the rest `text` of a string on. -/
theorem calls_tokenised (t : Option Nat) (save : Nat) (set : CString d delimiters ds) (few : ds.length < limit)
    (string : CString m (t.getD save) text) (short : text.length < limit) :
    ∃ runs, Tokenised ds text m (t.getD save) runs fun k => (next d delimiters)^[k] (strtok_r d delimiters m t save) := by
  -- By induction on how much of the string is left.
  induction h : text.length using Nat.strong_induction_on generalizing m t save text with
  | h length ih =>
    rcases strtok_r_cut t save set few string short with ⟨all,no_tokens,ended⟩ | ⟨a,b,cut⟩
    · rw [ended]
      refine ⟨[],tokenised_end all no_tokens fun k => Function.iterate_fixed ?_ k⟩
      have rest : CString m (t.getD save + text.length) [] := (cstring_iff.mp string).2
      rcases strtok_r_cut none _ set few rest (by decide) with ⟨_,_,again⟩ | ⟨a,b,cut⟩
      · exact again
      · exact absurd cut.le (by have := cut.lt; simp; omega)
    · have lt := cut.lt
      have le := cut.le
      have shorter : (text.drop (b + 1)).length < length := by
        rw [List.length_drop]
        omega
      obtain ⟨runs,later⟩ := ih _ shorter none _ (cut_rest_string cut string) (by omega) rfl
      exact ⟨_,tokenised_cut cut later string⟩

/-- A first call with a string and further ones with a null pointer give the tokens of the
    string, and a null pointer from then on. The strings lie in a memory of `limit` bytes,
    that of the delimiters apart from the other. -/
theorem strtok_r_tokenises (set : CString d delimiters ds) (string : CString m s text) (set_inside : delimiters + ds.length < limit)
    (inside : s + text.length < limit) (save_ptr : Nat) :
    ∃ runs, Tokenised ds text m s runs (call d delimiters m s save_ptr) ∧
      ∀ k, (call d delimiters m s save_ptr k).1 = none ↔ runs.length ≤ k := by
  obtain ⟨runs,tokenised⟩ := calls_tokenised (some s) save_ptr set (by omega) string (by omega)
  refine ⟨runs,tokenised,fun k => ?_⟩
  have returned : (call d delimiters m s save_ptr k).1 = runs[k]?.map fun run => s + run.1 := tokenised.returned k
  rw [returned,Option.map_eq_none_iff,List.getElem?_eq_none_iff]

/-- `" ab "` with a blank as the delimiter. -/
theorem strtok_r_tokenises_blanks : ∃ runs,
    Tokenised [32] [32,97,98,32] (fun i => [32,97,98,32].getD i 0) 0 runs
      (call (fun i => [32].getD i 0) 0 (fun i => [32,97,98,32].getD i 0) 0 0) ∧
    ∀ k, (call (fun i => [32].getD i 0) 0 (fun i => [32,97,98,32].getD i 0) 0 0 k).1 = none ↔ runs.length ≤ k :=
  strtok_r_tokenises (show CString (fun i => [32].getD i 0) 0 [32] from ⟨rfl,by decide,rfl⟩)
    (show CString (fun i => [32,97,98,32].getD i 0) 0 [32,97,98,32] from
      ⟨rfl,by decide,rfl,by decide,rfl,by decide,rfl,by decide,rfl⟩) (by decide) (by decide) 0

end Pintos.Tokens
