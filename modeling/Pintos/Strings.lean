import Pintos.Scans
import Pintos.Bitmaps
import Mathlib.Logic.Function.Basic
import Mathlib.Algebra.Group.Nat.Defs
import Mathlib.Data.BitVec

/-!
The strings of `lib/string.c` in a memory of bytes: `strlen`, `strlcpy` and
`strtok_r`, whose scans end at the zero of a string. `tokens` is what a string
consists of: its longest parts without a delimiter.
-/
namespace Pintos.Strings
open Pintos.Scans
open Pintos.Bitmaps (Byte)
set_option linter.unusedSimpArgs false

abbrev Mem := Nat → Byte

/-- More than any string has. -/
def limit : Nat := 2 ^ 32

def strlen (m : Mem) (string : Nat) : Nat := leading (fun i => decide (m i ≠ 0)) limit string - string

/-- `strlcpy` of the string at `src` in `m` to the memory `dst`, from `d` on. -/
def strlcpy (dst : Mem) (d : Nat) (m : Mem) (src size : Nat) : Mem :=
  if size > 0 then
    let dst_len := min (strlen m src) (size - 1)
    fun i => if d ≤ i ∧ i < d + dst_len then m (src + (i - d)) else if i = d + dst_len then 0 else dst i
  else dst

/-- `strtok_r`, with the memory and the saved position after it. -/
def strtok_r (delimiters : List Byte) (m : Mem) (s : Option Nat) (save_ptr : Nat) : Option Nat × Mem × Nat :=
  let token := leading (fun i => decide (m i ∈ delimiters)) limit (s.getD save_ptr)
  if m token = 0 then (none,m,token)
  else
    let s := leading (fun i => decide (m i ∉ delimiters ∧ m i ≠ 0)) limit token
    if m s ≠ 0 then (some token,Function.update m s 0,s + 1) else (some token,m,s)

/-- The longest parts of a string without delimiters. -/
def tokens (delimiters text : List Byte) : List (List Byte) := (text.splitOnP fun c => decide (c ∈ delimiters)).filter (· ≠ [])

variable {m dst : Mem} {s save d size : Nat} {text word rest delimiters : List Byte} {c : Byte}

theorem cstring_nonzero (string : CString m s text) : ∀ c ∈ text, c ≠ 0 := by
  induction text generalizing s with
  | nil => exact fun c member => by cases member
  | cons c text ih =>
    intro e member
    rcases List.mem_cons.mp member with same | other
    · exact same ▸ string.2.1
    · exact ih string.2.2 e other

theorem strlen_spec (string : CString m s text) (short : text.length < limit) : strlen m s = text.length := by
  obtain ⟨front,rest,split,_,stops,scan,_⟩ := leading_cstring (p := fun c => decide (c ≠ 0)) string (by simp) short
  have whole : rest = [] := by
    rcases stops with none | ⟨c,tail,shape,ends⟩
    · exact none
    · exact absurd (cstring_nonzero string c (by rw [split,shape]; simp)) (of_decide_eq_false ends)
  rw [strlen,scan,split,whole,List.append_nil]
  omega

theorem strlcpy_spec (dst : Mem) (d : Nat) (string : CString m s text) (short : text.length < limit) (fits : text.length < size) :
    CString (strlcpy dst d m s size) d text ∧ ∀ i, i < d ∨ d + text.length < i → strlcpy dst d m s size i = dst i := by
  have whole : min (strlen m s) (size - 1) = text.length := by
    rw [strlen_spec string short]
    omega
  have copied : strlcpy dst d m s size =
      fun i => if d ≤ i ∧ i < d + text.length then m (s + (i - d)) else if i = d + text.length then 0 else dst i := by
    rw [strlcpy,if_pos (by omega),whole]
  constructor
  · obtain ⟨chars,_⟩ := cstring_append.mp (show CString m s (text ++ []) by rwa [List.append_nil])
    rw [copied,← List.append_nil text]
    refine cstring_append.mpr ⟨fun i below => ⟨?_,(chars i below).2⟩,?_⟩
    · rw [List.append_nil,if_pos (by omega),show s + (d + i - d) = s + i by omega]
      exact (chars i below).1
    · show (if _ then _ else if _ then _ else _) = _
      rw [List.append_nil,if_neg (by omega),if_pos rfl]
  · intro i outside
    rw [copied]
    show (if _ then _ else if _ then _ else _) = _
    rw [if_neg (by omega),if_neg (by omega)]

/-! ### Tokens -/

theorem tokens_nil : tokens delimiters [] = [] := rfl

theorem tokens_delimiter (delimiter : c ∈ delimiters) : tokens delimiters (c :: text) = tokens delimiters text := by
  rw [tokens,List.splitOnP_cons_eq_if_modifyHead,if_pos (by simpa using delimiter),List.filter_cons,if_neg (by simp)]
  rfl

theorem tokens_skip (front : List Byte) (all : ∀ c ∈ front, c ∈ delimiters) :
    tokens delimiters (front ++ text) = tokens delimiters text := by
  induction front with
  | nil => rfl
  | cons c front ih => rw [List.cons_append,tokens_delimiter (all c List.mem_cons_self),ih fun d member => all d (List.mem_cons_of_mem c member)]

theorem tokens_word (none : ∀ c ∈ word, c ∉ delimiters) (some : word ≠ []) : tokens delimiters word = [word] := by
  rw [tokens,List.splitOnP_eq_singleton fun c member => by simpa using none c member]
  simp [some]

theorem tokens_first (none : ∀ c ∈ word, c ∉ delimiters) (some : word ≠ []) (delimiter : c ∈ delimiters) :
    tokens delimiters (word ++ c :: rest) = word :: tokens delimiters rest := by
  rw [tokens,List.splitOnP_append_cons_of_forall_mem (fun d member => by simpa using none d member) c (by simpa using delimiter),
    List.filter_cons,if_pos (by simpa using some)]
  rfl

theorem tokens_some (letter : c ∉ delimiters) : tokens delimiters (c :: text) ≠ [] := by
  obtain ⟨w,rest,shape⟩ := List.exists_cons_of_ne_nil (List.splitOnP_ne_nil (fun c => decide (c ∈ delimiters)) text)
  rw [tokens,List.splitOnP_cons_eq_if_modifyHead,if_neg (by simpa using letter),shape,List.modifyHead_cons,List.filter_cons,
    if_pos (by simp)]
  exact List.cons_ne_nil _ _

/-- What one call finds in a string: no token, or the first one, which it ends, and
    the rest of the string. The token is at the start of the string exactly when the string
    does not start with a delimiter. -/
structure Token (delimiters : List Byte) (m : Mem) (s : Nat) (text : List Byte) (r : Option Nat × Mem × Nat) (token : Nat)
    (word rest : List Byte) : Prop where
  found : r.1 = some token
  first : tokens delimiters text = word :: tokens delimiters rest
  nonempty : word ≠ []
  low : s ≤ token
  shorter : token - s + word.length + rest.length ≤ text.length
  token_string : CString r.2.1 token word
  rest_string : CString r.2.1 r.2.2 rest
  kept : ∀ i, i < s ∨ s + text.length < i → r.2.1 i = m i
  start : token = s ↔ ∃ c tail, text = c :: tail ∧ c ∉ delimiters

theorem strtok_r_spec (t : Option Nat) (save : Nat) (string : CString m (t.getD save) text) (short : text.length < limit)
    (clean : 0 ∉ delimiters) :
    (tokens delimiters text = [] ∧ (strtok_r delimiters m t save).1 = none) ∨
    ∃ token word rest, Token delimiters m (t.getD save) text (strtok_r delimiters m t save) token word rest := by
  obtain ⟨s,named⟩ : ∃ s, t.getD save = s := ⟨_,rfl⟩
  rw [strtok_r,named]
  rw [named] at string
  obtain ⟨front,later,split,spaces,stops,scan,string'⟩ :=
    leading_cstring (p := fun c => decide (c ∈ delimiters)) string (by simpa using clean) short
  rw [scan]
  have front_clean : ∀ c ∈ front, c ∈ delimiters := fun c member => by simpa using spaces c member
  rcases stops with none | ⟨c,tail,shape,no_delimiter⟩
  · subst none
    have ended : m (s + front.length) = 0 := string'
    rw [if_pos ended]
    exact .inl ⟨by rw [split,tokens_skip front front_clean,tokens_nil],rfl⟩
  · have nonzero : m (s + front.length) ≠ 0 := by
      rw [shape] at string'
      rw [string'.1]
      exact string'.2.1
    have no_delimiter : c ∉ delimiters := by simpa using no_delimiter
    have length : text.length = front.length + later.length := by rw [split,List.length_append]
    obtain ⟨word,rest,split',letters,ends,scan',string''⟩ :=
      leading_cstring (p := fun c => decide (c ∉ delimiters ∧ c ≠ 0)) string' (by simp) (show later.length < limit by omega)
    have length' : later.length = word.length + rest.length := by rw [split',List.length_append]
    have word_clean : ∀ c ∈ word, c ∉ delimiters := fun c member => (of_decide_eq_true (letters c member)).1
    have some_word : word ≠ [] := by
      rintro rfl
      rw [shape] at split'
      rcases ends with none | ⟨e,tail',shape',stop⟩
      · rw [none] at split'
        cases split'
      · rw [shape'] at split'
        obtain ⟨same,_⟩ := List.cons.inj split'
        rw [shape] at string'
        rw [← same] at stop
        exact of_decide_eq_false stop ⟨no_delimiter,string'.2.1⟩
    have start : s + front.length = s ↔ ∃ c tail, text = c :: tail ∧ c ∉ delimiters := by
      constructor
      · intro same
        have empty : front = [] := List.eq_nil_of_length_eq_zero (by omega)
        exact ⟨c,tail,by rw [split,empty,shape]; rfl,no_delimiter⟩
      · rintro ⟨e,tail',text_shape,clean_first⟩
        cases front with
        | nil => rfl
        | cons f front =>
          rw [text_shape] at split
          obtain ⟨same,_⟩ := List.cons.inj split
          exact absurd (front_clean f List.mem_cons_self) (same ▸ clean_first)
    have word_string : ∀ i (below : i < word.length), m (s + front.length + i) = word[i] ∧ word[i] ≠ 0 := by
      rw [split'] at string'
      exact (cstring_append.mp string').1
    rw [if_neg nonzero,scan']
    refine .inr ⟨s + front.length,word,?_⟩
    rcases ends with none | ⟨e,tail',rest_shape,stop⟩
    · subst none
      have ended : m (s + front.length + word.length) = 0 := string''
      rw [if_neg (by simpa using ended)]
      have whole : word ++ [] = word := List.append_nil word
      refine ⟨[],rfl,?_,some_word,by omega,by omega,?_,ended,fun _ _ => rfl,start⟩
      · rw [split,tokens_skip front front_clean,split',whole,tokens_word word_clean some_word,tokens_nil]
      · rwa [split',whole] at string'
    · rw [rest_shape] at string'' split'
      obtain ⟨here,rest_nonzero,rest_string⟩ := string''
      have delimiter : e ∈ delimiters := by
        refine Decidable.byContradiction fun other => ?_
        exact of_decide_eq_false stop ⟨other,rest_nonzero⟩
      rw [if_pos (by rw [here]; exact rest_nonzero)]
      rw [rest_shape,List.length_cons] at length'
      refine ⟨tail',rfl,?_,some_word,by omega,by omega,?_,?_,?_,start⟩
      · rw [split,tokens_skip front front_clean,split',tokens_first word_clean some_word delimiter]
      · have ended : CString (Function.update m (s + front.length + word.length) 0) (s + front.length) (word ++ []) := by
          refine cstring_append.mpr ⟨fun i below => ?_,Function.update_self ..⟩
          rw [Function.update_of_ne (by omega)]
          exact word_string i below
        rwa [List.append_nil] at ended
      · refine cstring_same rest_string fun i low high => ?_
        have later : s + front.length + word.length + 1 ≤ i := low
        exact Function.update_of_ne (by omega) ..
      · intro i outside
        exact Function.update_of_ne (by omega) ..

end Pintos.Strings
