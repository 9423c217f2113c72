import Pintos.Ustar
import Pintos.Strings

/-!
The names of archive members: `strip_antisocial_prefixes` of `lib/ustar.c` over `memcmp`, `strchr` and `strcmp`, as their
loops read memory. Reading a byte that is not there has no result, so that what is computed in a memory with only a string
in it reads nothing behind the zero of the string.
-/
namespace Pintos.MemberNames
open Pintos.Bitmaps (Byte)
open Pintos.Scans
set_option linter.unusedSimpArgs false

abbrev Memory := Nat → Option Byte

/-- A string at `p` and nothing else. -/
def only (p : Nat) (text : List Byte) : Memory := fun a => if p ≤ a then (text ++ [0#8])[a - p]? else none

def memcmp (a_ b_ : Memory) : (size : Nat) → (a b : Nat) → Option Int
  | 0, _, _ => some 0
  | size + 1, a, b => do
    let x ← a_ a
    let y ← b_ b
    if x ≠ y then some (if x > y then 1 else -1) else memcmp a_ b_ size (a + 1) (b + 1)

/-- In less than so many turns, as in the other loops. -/
def strcmp (a_ b_ : Memory) : Nat → (a b : Nat) → Option Int
  | 0, _, _ => none
  | n + 1, a, b => do
    let x ← a_ a
    let y ← b_ b
    if x ≠ 0#8 ∧ x = y then strcmp a_ b_ n (a + 1) (b + 1) else some (if x < y then -1 else if x > y then 1 else 0)

def strchr (m : Memory) (c : Byte) : Nat → (string : Nat) → Option (Option Nat)
  | 0, _ => none
  | n + 1, string => do
    let x ← m string
    if x = c then some (some string) else if x = 0#8 then some none else strchr m c n (string + 1)

/-- The condition of the loop. -/
def antisocial (m : Memory) (file_name : Nat) : Option Bool := do
  if (← m file_name) = 47#8 then pure true
  else if (← memcmp m (only 0 [46#8,47#8]) 2 file_name 0) = 0 then pure true
  else pure (decide ((← memcmp m (only 0 [46#8,46#8,47#8]) 3 file_name 0) = 0))

def stripLoop (m : Memory) (fuel : Nat) : Nat → (file_name : Nat) → Option Nat
  | 0, _ => none
  | n + 1, file_name => do
    if (← antisocial m file_name) then
      -- A null pointer is not read behind.
      let slash ← (← strchr m 47#8 fuel file_name)
      stripLoop m fuel n (slash + 1)
    else some file_name

/-- A pointer into the memory, or to a literal. -/
inductive Pointer
  | string (p : Nat)
  | literal (text : List Byte)
  deriving DecidableEq

def strip_antisocial_prefixes (m : Memory) (fuel file_name : Nat) : Option Pointer := do
  let file_name ← stripLoop m fuel fuel file_name
  if (← m file_name) = 0#8 then pure (.literal [46#8])
  else if (← strcmp m (only 0 [46#8,46#8]) fuel file_name 0) = 0 then pure (.literal [46#8])
  else pure (.string file_name)

/-! ### Strings -/

/-- A string is readable at `p`. -/
def Holds (m : Memory) : Nat → List Byte → Prop
  | p, [] => m p = some 0#8
  | p, c :: text => m p = some c ∧ c ≠ 0#8 ∧ Holds m (p + 1) text

variable {m b : Memory} {p q k n fuel : Nat} {text rest l : List Byte} {c : Byte}

theorem holds_drop (string : Holds m p text) (inside : k ≤ text.length) : Holds m (p + k) (text.drop k) := by
  induction k generalizing p text with
  | zero => exact string
  | succ k ih =>
    cases text with
    | nil => cases inside
    | cons c text =>
      have later := ih string.2.2 (Nat.le_of_succ_le_succ inside)
      rwa [Nat.add_right_comm] at later

theorem holds_only (p : Nat) (nonzero : 0#8 ∉ text) : Holds (only p text) p text := by
  have each (k : Nat) : only p text (p + k) = (text ++ [0#8])[k]? := by
    rw [only,if_pos (Nat.le_add_right p k),Nat.add_sub_cancel_left]
  have step : ∀ k rest, text.drop k = rest → k ≤ text.length → Holds (only p text) (p + k) rest := by
    intro k rest
    induction rest generalizing k with
    | nil =>
      intro ended inside
      have last : k = text.length := Nat.le_antisymm inside (List.drop_eq_nil_iff.mp ended)
      show only p text (p + k) = _
      rw [each,last,List.getElem?_concat_length]
    | cons c rest ih =>
      intro cut inside
      have there : text[k]? = some c := by
        rw [← List.head?_drop,cut]
        rfl
      have below := (List.getElem?_eq_some_iff.mp there).1
      refine ⟨?_,?_,ih (k + 1) ?_ below⟩
      · rw [each,List.getElem?_append_left below,there]
      · rintro rfl
        exact nonzero (List.mem_of_getElem? there)
      · rw [← List.tail_drop,cut]
        rfl
  exact step 0 text rfl (Nat.zero_le _)

/-- `memcmp` with a literal reads no more than the string and says whether the literal is its beginning. -/
theorem memcmp_spec (string : Holds m p text) (literal : Holds b q l) :
    ∃ r, memcmp m b l.length p q = some r ∧ (r = 0 ↔ l <+: text) := by
  induction l generalizing p q text with
  | nil => exact ⟨0,rfl,fun _ => List.nil_prefix,fun _ => rfl⟩
  | cons d l ih =>
    obtain ⟨there,nonzero,literal⟩ := literal
    cases text with
    | nil =>
      have ended : m p = some 0#8 := string
      have differ : (0#8 : Byte) ≠ d := Ne.symm nonzero
      simp only [List.length_cons,memcmp,ended,there,bind,Option.bind,if_pos differ]
      refine ⟨_,rfl,fun same => ?_,fun starts => by cases List.prefix_nil.mp starts⟩
      split at same <;> cases same
    | cons c text =>
      obtain ⟨here,_,string⟩ := string
      simp only [List.length_cons,memcmp,here,there,bind,Option.bind]
      by_cases same : c = d
      · obtain ⟨r,ran,zero⟩ := ih string literal
        rw [if_neg (not_not_intro same)]
        exact ⟨r,ran,zero.trans (by rw [List.cons_prefix_cons,and_iff_right same.symm])⟩
      · rw [if_pos same]
        refine ⟨_,rfl,fun equal => ?_,fun starts => absurd (List.cons_prefix_cons.mp starts).1.symm same⟩
        split at equal <;> cases equal

/-- What `strcmp` returns for two bytes. -/
theorem order_zero (x y : Byte) : (if x < y then -1 else if x > y then 1 else 0 : Int) = 0 ↔ x = y := by
  constructor
  · intro zero
    split at zero
    · cases zero
    · split at zero
      · cases zero
      · refine BitVec.eq_of_toNat_eq ?_
        simp only [BitVec.lt_def,gt_iff_lt] at *
        omega
  · rintro rfl
    rw [if_neg (BitVec.lt_irrefl x),if_neg (BitVec.lt_irrefl x)]

theorem strcmp_spec (string : Holds m p text) (literal : Holds b q l) (enough : text.length < n) :
    ∃ r, strcmp m b n p q = some r ∧ (r = 0 ↔ text = l) := by
  induction text generalizing n p q l with
  | nil =>
    obtain ⟨n,rfl⟩ := Nat.exists_eq_succ_of_ne_zero (Nat.ne_of_gt enough)
    have ended : m p = some 0#8 := string
    have stop (y : Byte) : ¬ ((0#8 : Byte) ≠ 0#8 ∧ (0#8 : Byte) = y) := fun both => both.1 rfl
    cases l with
    | nil =>
      have ended' : b q = some 0#8 := literal
      simp only [strcmp,ended,ended',bind,Option.bind,if_neg (stop _)]
      exact ⟨_,rfl,fun _ => trivial,fun _ => rfl⟩
    | cons d l =>
      simp only [strcmp,ended,literal.1,bind,Option.bind,if_neg (stop _)]
      exact ⟨_,rfl,fun zero => absurd ((order_zero _ _).mp zero).symm literal.2.1,fun same => by cases same⟩
  | cons c text ih =>
    obtain ⟨n,rfl⟩ := Nat.exists_eq_succ_of_ne_zero (Nat.ne_of_gt (Nat.zero_lt_of_lt enough))
    obtain ⟨here,nonzero,string⟩ := string
    cases l with
    | nil =>
      have ended : b q = some 0#8 := literal
      have stop : ¬ (c ≠ 0#8 ∧ c = 0#8) := fun both => nonzero both.2
      simp only [strcmp,here,ended,bind,Option.bind,if_neg stop]
      exact ⟨_,rfl,fun zero => absurd ((order_zero _ _).mp zero) nonzero,fun same => by cases same⟩
    | cons d l =>
      obtain ⟨there,_,literal⟩ := literal
      simp only [strcmp,here,there,bind,Option.bind]
      by_cases same : c = d
      · obtain ⟨r,ran,zero⟩ := ih string literal (Nat.lt_of_succ_lt_succ enough)
        rw [if_pos ⟨nonzero,same⟩]
        exact ⟨r,ran,zero.trans (by rw [List.cons.injEq,and_iff_right same])⟩
      · rw [if_neg fun both => same both.2]
        exact ⟨_,rfl,fun zero => absurd ((order_zero _ _).mp zero) same,fun equal => absurd (List.cons.inj equal).1 same⟩

theorem strchr_spec (string : Holds m p text) (member : c ∈ text) (enough : text.length < n) :
    ∃ i, strchr m c n p = some (some (p + i)) ∧ i < text.length ∧
      (text.dropWhile (· ≠ c)).drop 1 = text.drop (i + 1) := by
  induction text generalizing n p with
  | nil => cases member
  | cons d text ih =>
    obtain ⟨n,rfl⟩ := Nat.exists_eq_succ_of_ne_zero (Nat.ne_of_gt (Nat.zero_lt_of_lt enough))
    obtain ⟨here,nonzero,string⟩ := string
    simp only [strchr,here,bind,Option.bind]
    by_cases same : d = c
    · refine ⟨0,if_pos same,Nat.zero_lt_succ _,?_⟩
      rw [List.dropWhile_cons_of_neg (by simp [same])]
    · have later : c ∈ text := (List.mem_cons.mp member).resolve_left (Ne.symm same)
      obtain ⟨i,found,inside,rest⟩ := ih string later (Nat.lt_of_succ_lt_succ enough)
      refine ⟨i + 1,?_,Nat.succ_lt_succ inside,?_⟩
      · rw [if_neg same,if_neg nonzero,found,Nat.add_right_comm,Nat.add_assoc]
      · rw [List.dropWhile_cons_of_pos (by simp [same]),rest,List.drop_succ_cons]

/-! ### Prefixes -/

theorem antisocial_iff : Ustar.Antisocial text ↔ [47#8] <+: text ∨ [46#8,47#8] <+: text ∨ [46#8,46#8,47#8] <+: text := by
  simp only [Ustar.Antisocial,List.prefix_iff_eq_take,List.length_cons,List.length_nil,eq_comm]

/-- The condition of the loop reads no more than the string. -/
theorem antisocial_spec (string : Holds m p text) :
    ∃ r, antisocial m p = some r ∧ (r = true ↔ Ustar.Antisocial text) := by
  obtain ⟨two,dot_ran,dot⟩ := memcmp_spec string (holds_only 0 (show 0#8 ∉ [46#8,47#8] by decide))
  obtain ⟨three,dots_ran,dots⟩ := memcmp_spec string (holds_only 0 (show 0#8 ∉ [46#8,46#8,47#8] by decide))
  obtain ⟨c,here,slash⟩ : ∃ c, m p = some c ∧ (c = 47#8 ↔ [47#8] <+: text) := by
    cases text with
    | nil => exact ⟨0#8,string,by decide⟩
    | cons c text => exact ⟨c,string.1,by rw [List.cons_prefix_cons,and_iff_left List.nil_prefix,eq_comm]⟩
  simp only [List.length_cons,List.length_nil] at dot_ran dots_ran
  rw [antisocial_iff,← slash,← dot,← dots]
  simp only [antisocial,here,dot_ran,dots_ran,bind,Option.bind,pure]
  by_cases first : c = 47#8
  · exact ⟨true,if_pos first,fun _ => .inl first,fun _ => rfl⟩
  · by_cases second : two = 0
    · exact ⟨true,by rw [if_neg first,if_pos second],fun _ => .inr (.inl second),fun _ => rfl⟩
    · refine ⟨decide (three = 0),by rw [if_neg first,if_neg second],?_⟩
      rw [decide_eq_true_eq,or_iff_right first,or_iff_right second]

theorem stripLoop_spec (string : Holds m p text) (enough : text.length < n) (room : text.length < fuel) (k : Nat)
    (turns : text.length ≤ k) :
    ∃ i, stripLoop m fuel n p = some (p + i) ∧ i ≤ text.length ∧ Ustar.stripLoop k text = text.drop i := by
  induction n generalizing p text k with
  | zero => cases enough
  | succ n ih =>
    obtain ⟨r,tested,social⟩ := antisocial_spec string
    by_cases more : Ustar.Antisocial text
    · obtain ⟨i,found,inside,rest⟩ := strchr_spec string more.slash room
      obtain ⟨k,rfl⟩ := Nat.exists_eq_succ_of_ne_zero (Nat.ne_of_gt (Nat.lt_of_lt_of_le (Nat.zero_lt_of_lt inside) turns))
      have shorter : (text.drop (i + 1)).length = text.length - (i + 1) := List.length_drop
      have behind : Holds m (p + (i + 1)) (text.drop (i + 1)) := holds_drop string inside
      obtain ⟨j,ran,within,stripped⟩ := ih behind (by omega) (by omega) k (by omega)
      refine ⟨i + 1 + j,?_,by omega,?_⟩
      · simp only [stripLoop,tested,social.mpr more,found,bind,Option.bind,if_true]
        rw [Nat.add_assoc p i 1,ran,Nat.add_assoc]
      · rw [show Ustar.stripLoop (k + 1) text = Ustar.stripLoop k ((text.dropWhile (· ≠ 47#8)).drop 1) from if_pos more,rest,
          stripped,List.drop_drop]
    · refine ⟨0,?_,Nat.zero_le _,Ustar.stripLoop_stays more⟩
      simp only [stripLoop,tested,mt social.mp more,bind,Option.bind,Bool.false_eq_true,if_false]
      rfl

/-- What the pointer points at. -/
def Reads (m : Memory) (name : List Byte) : Pointer → Prop
  | .string p => Holds m p name
  | .literal text => name = text

/-- What the loop leaves is where it is in the string. -/
theorem strip_spec (string : Holds m p text) (enough : text.length < fuel) (left : Ustar.stripLoop text.length text = rest) :
    Holds m (p + (text.length - rest.length)) rest ∧ strip_antisocial_prefixes m fuel p =
      some (if rest = [] ∨ rest = [46#8,46#8] then .literal [46#8] else .string (p + (text.length - rest.length))) := by
  obtain ⟨i,ran,inside,stripped⟩ := stripLoop_spec string enough enough text.length (Nat.le_refl _)
  have behind := holds_drop string inside
  rw [← stripped,left] at behind
  have place : text.length - rest.length = i := by
    rw [← left,stripped,List.length_drop]
    omega
  have short : rest.length < fuel := by
    rw [← left,stripped,List.length_drop]
    omega
  obtain ⟨r,compared,dots⟩ := strcmp_spec behind (holds_only 0 (show 0#8 ∉ [46#8,46#8] by decide)) short
  obtain ⟨c,here,ended⟩ : ∃ c, m (p + i) = some c ∧ (c = 0#8 ↔ rest = []) := by
    cases rest with
    | nil => exact ⟨0#8,behind,fun _ => rfl,fun _ => rfl⟩
    | cons c rest => exact ⟨c,behind.1,fun zero => absurd zero behind.2.1,fun none => by cases none⟩
  rw [place]
  refine ⟨behind,?_⟩
  simp only [strip_antisocial_prefixes,ran,here,compared,bind,Option.bind,pure]
  by_cases first : c = 0#8
  · rw [if_pos first,if_pos (.inl (ended.mp first))]
  · rw [if_neg first]
    by_cases second : r = 0
    · rw [if_pos second,if_pos (.inr (dots.mp second))]
    · rw [if_neg second,if_neg (not_or.mpr ⟨mt ended.mpr first,mt dots.mpr second⟩)]

theorem strip_reads (string : Holds m p text) (enough : text.length < fuel) :
    ∃ r, strip_antisocial_prefixes m fuel p = some r ∧ Reads m (Ustar.strip_antisocial_prefixes text) r := by
  obtain ⟨rest,left⟩ : ∃ rest, Ustar.stripLoop text.length text = rest := ⟨_,rfl⟩
  obtain ⟨behind,stripped⟩ := strip_spec string enough left
  refine ⟨_,stripped,?_⟩
  simp only [Ustar.strip_antisocial_prefixes,left]
  split
  · rfl
  · exact behind

/-! ### Names -/

/-- A name that stays where it is extracted. -/
structure Safe (text name : List Byte) : Prop where
  nonempty : name ≠ []
  origin : name = [46#8] ∨ name <:+ text
  slash : ¬ [47#8] <+: name
  dot : ¬ [46#8,47#8] <+: name
  dots : ¬ [46#8,46#8,47#8] <+: name
  parent : name ≠ [46#8,46#8]
  again : Ustar.strip_antisocial_prefixes name = name

theorem strip_safe (text : List Byte) : Safe text (Ustar.strip_antisocial_prefixes text) := by
  obtain ⟨plain,suffix⟩ := Ustar.stripLoop_spec (Nat.le_refl text.length)
  obtain ⟨name,same⟩ : ∃ name, Ustar.stripLoop text.length text = name := ⟨_,rfl⟩
  have again := Ustar.strip_idempotent text
  rw [same] at plain suffix
  have whole : Ustar.strip_antisocial_prefixes text = if name = [] ∨ name = [46#8,46#8] then [46#8] else name := by
    rw [Ustar.strip_antisocial_prefixes,same]
  by_cases bad : name = [] ∨ name = [46#8,46#8]
  · rw [if_pos bad] at whole
    rw [whole] at again ⊢
    exact ⟨by decide,.inl rfl,by decide,by decide,by decide,by decide,again⟩
  · rw [if_neg bad] at whole
    rw [whole] at again ⊢
    obtain ⟨some_,other⟩ := not_or.mp bad
    rw [antisocial_iff,not_or,not_or] at plain
    exact ⟨some_,.inr suffix,plain.1,plain.2.1,plain.2.2,other,again⟩

/-- A name that is safe is the result itself. -/
theorem strip_again {name : List Byte} (string : Holds m p name) (enough : name.length < fuel) (safe : Safe text name) :
    strip_antisocial_prefixes m fuel p = some (.string p) := by
  have plain : ¬ Ustar.Antisocial name := by
    rw [antisocial_iff,not_or,not_or]
    exact ⟨safe.slash,safe.dot,safe.dots⟩
  have stripped := (strip_spec string enough (Ustar.stripLoop_stays plain)).2
  rwa [if_neg (not_or.mpr ⟨safe.nonempty,safe.parent⟩),Nat.sub_self] at stripped

/-- The name in a header that has a zero at the end of the field. -/
theorem name_ends {header : Nat → Byte} (ends : header 99 = 0#8) :
    CString header 0 (Ustar.string header 0 100) ∧ (Ustar.string header 0 100).length < 100 := by
  obtain ⟨field,whole⟩ : ∃ field, (List.range 100).map (fun k => header (0 + k)) = field := ⟨_,rfl⟩
  have size : field.length = 100 := by rw [← whole,List.length_map,List.length_range]
  have each (k : Nat) (below : k < field.length) : header (0 + k) = field[k] := by
    simp only [← whole,List.getElem_map,List.getElem_range]
  have name : Ustar.string header 0 100 = field.takeWhile (· ≠ 0#8) := by rw [Ustar.string,whole]
  have split : field.takeWhile (· ≠ 0#8) ++ field.dropWhile (· ≠ 0#8) = field := List.takeWhile_append_dropWhile
  have some_ : field.dropWhile (· ≠ 0#8) ≠ [] := by
    intro none
    have nonzero := List.dropWhile_eq_nil_iff.mp none field[99] (List.getElem_mem _)
    rw [← each,ends] at nonzero
    exact absurd nonzero (by decide)
  obtain ⟨c,tail,behind⟩ := List.exists_cons_of_ne_nil some_
  have zero : c = 0#8 := by
    have stops := List.head_dropWhile_not (fun b => decide (b ≠ 0#8)) some_
    simp only [behind,List.head_cons] at stops
    exact Decidable.byContradiction fun other => of_decide_eq_false stops other
  rw [behind] at split
  rw [name]
  obtain ⟨text,front⟩ : ∃ text, field.takeWhile (· ≠ 0#8) = text := ⟨_,rfl⟩
  have nonzero (b : Byte) (member : b ∈ text) : b ≠ 0#8 := by
    rw [← front] at member
    have stays := List.mem_takeWhile_imp member
    exact of_decide_eq_true stays
  rw [front] at split ⊢
  have short : text.length < field.length := by
    rw [← split,List.length_append,List.length_cons]
    omega
  refine ⟨cstring_iff.mpr ⟨fun i below => ?_,?_⟩,by omega⟩
  · rw [each i (by omega)]
    simp only [← split,List.getElem_append_left below]
    exact ⟨trivial,nonzero _ (List.getElem_mem below)⟩
  · rw [each _ short]
    simp only [← split,List.getElem_append_right (Nat.le_refl _),Nat.sub_self,List.getElem_cons_zero]
    exact zero

/-- For every string `strip_antisocial_prefixes` ends and reads nothing behind its zero, and what it returns is `.` or the
    end of the string, does not lead out of the directory in which an archive is extracted, and is returned as it is when
    the function is called with it. So is every name that `ustar_parse_header` accepts. -/
theorem names_cannot_escape :
    (∀ (p : Nat) (text : List Byte), 0#8 ∉ text → ∀ fuel > text.length,
      ∃ r name, strip_antisocial_prefixes (only p text) fuel p = some r ∧ Reads (only p text) name r ∧ Safe text name ∧
        ∀ (q : Nat), ∀ fuel > name.length, strip_antisocial_prefixes (only q name) fuel q = some (.string q)) ∧
    ∀ header name type size, Ustar.ustar_parse_header header = .ok (some name,type,size) →
      ∃ text, CString header 0 text ∧ text.length < 100 ∧ Safe text name ∧
        (∀ fuel > text.length, ∃ r, strip_antisocial_prefixes (only 0 text) fuel 0 = some r ∧ Reads (only 0 text) name r) ∧
        ∀ (q : Nat), ∀ fuel > name.length, strip_antisocial_prefixes (only q name) fuel q = some (.string q) := by
  have again (text : List Byte) (nonzero : 0#8 ∉ text) (q fuel : Nat)
      (enough : (Ustar.strip_antisocial_prefixes text).length < fuel) :
      strip_antisocial_prefixes (only q (Ustar.strip_antisocial_prefixes text)) fuel q = some (.string q) :=
    strip_again (holds_only q (Ustar.strip_nonzero nonzero)) enough (strip_safe text)
  constructor
  · intro p text nonzero fuel enough
    obtain ⟨r,stripped,reads⟩ := strip_reads (holds_only p nonzero) enough
    exact ⟨r,_,stripped,reads,strip_safe text,fun q fuel enough => again text nonzero q fuel enough⟩
  · intro header name type size parsed
    obtain ⟨none_,-⟩ | ⟨ends,named,-⟩ := Ustar.ustar_parse_header_ok parsed
    · cases none_
    cases named
    obtain ⟨string,short⟩ := name_ends ends
    have nonzero : 0#8 ∉ Ustar.string header 0 100 := fun member => Strings.cstring_nonzero string _ member rfl
    exact ⟨_,string,short,strip_safe _,fun fuel enough => strip_reads (holds_only 0 nonzero) enough,
      fun q fuel enough => again _ nonzero q fuel enough⟩

theorem names_cannot_escape_parent :
    (∃ r name, strip_antisocial_prefixes (only 7 [46#8,46#8,47#8,47#8,97#8]) 6 7 = some r ∧
      Reads (only 7 [46#8,46#8,47#8,47#8,97#8]) name r ∧ Safe [46#8,46#8,47#8,47#8,97#8] name ∧
      ∀ (q : Nat), ∀ fuel > name.length, strip_antisocial_prefixes (only q name) fuel q = some (.string q)) ∧
    ∃ header, Ustar.ustar_parse_header header = .ok (some [97#8],.USTAR_REGULAR,5) ∧
      ∃ text, CString header 0 text ∧ text.length < 100 ∧ Safe text [97#8] ∧
        (∀ fuel > text.length, ∃ r, strip_antisocial_prefixes (only 0 text) fuel 0 = some r ∧ Reads (only 0 text) [97#8] r) ∧
        ∀ (q : Nat), ∀ fuel > 1, strip_antisocial_prefixes (only q [97#8]) fuel q = some (.string q) := by
  obtain ⟨header,_,parsed⟩ : ∃ header, Ustar.ustar_make_header [97#8] .USTAR_REGULAR 5 (fun _ => 0#8) = some header ∧
      Ustar.ustar_parse_header header = .ok (some [97#8],.USTAR_REGULAR,5) :=
    Ustar.ustar_round_trip (by decide) (by decide) (by decide) (by decide) (by decide)
  exact ⟨names_cannot_escape.1 7 [46#8,46#8,47#8,47#8,97#8] (by decide) 6 (by decide),header,parsed,
    names_cannot_escape.2 header [97#8] .USTAR_REGULAR 5 parsed⟩

end Pintos.MemberNames
