import Pintos.IntegerFormats
import Mathlib.Data.List.TakeWhile

/-!
Which formats `__vprintf` reads to their end and no further. An automaton follows the characters
of a format: it is outside of a conversion, or at some place of one.
-/
namespace Pintos.FormatStrings
open Pintos.Bitmaps (Byte)
open Pintos.Printf Pintos.IntegerFormats
set_option linter.unusedSimpArgs false

/-! ### The automaton -/

/-- What was read last: ordinary text or a whole conversion, the flags, the digits or the star of the
width, the point, the digits or the star of the precision, a letter that may stand twice, or all of a type. -/
inductive Place
  | text
  | flags
  | width
  | star
  | point
  | digits
  | argument
  | h
  | l
  | type
  deriving DecidableEq

def isFlag (ch : Byte) : Bool := ch = char '-' ∨ ch = char '+' ∨ ch = char ' ' ∨ ch = char '#' ∨ ch = char '0' ∨ ch = 39#8

/-- Behind the precision comes a type or the character of the conversion. -/
def stepType (ch : Byte) : Place :=
  if ch = char 'h' then .h else if ch = char 'l' then .l
  else if ch = char 'j' ∨ ch = char 't' ∨ ch = char 'z' then .type else .text

/-- Behind the width comes a precision too. -/
def stepPrecision (ch : Byte) : Place := if ch = char '.' then .point else stepType ch

def step : Place → Byte → Place
  | .text, ch => if ch = char '%' then .flags else .text
  | .flags, ch =>
    if isFlag ch then .flags else if ch = char '*' then .star else if isdigit ch then .width else stepPrecision ch
  | .width, ch => if isdigit ch then .width else stepPrecision ch
  | .star, ch => stepPrecision ch
  | .point, ch => if ch = char '*' then .argument else if isdigit ch then .digits else stepType ch
  | .digits, ch => if isdigit ch then .digits else stepType ch
  | .argument, ch => stepType ch
  | .h, ch => if ch = char 'h' then .type else .text
  | .l, ch => if ch = char 'l' then .type else .text
  | .type, _ => .text

def run (place : Place) (text : List Byte) : Place := text.foldl step place

/-- No conversion of the text is cut off by its end. -/
def Complete (text : List Byte) : Prop := run .text text = .text

instance : DecidablePred Complete := fun text => inferInstanceAs (Decidable (run .text text = .text))

/-! ### What the parser leaves -/

def dropDigits (text : List Byte) : List Byte := text.dropWhile fun ch => decide (isdigit ch)

def afterNumber : List Byte → List Byte
  | [] => []
  | ch :: rest => if ch = char '*' then rest else dropDigits (ch :: rest)

def afterPrecision : List Byte → List Byte
  | [] => []
  | ch :: rest => if ch = char '.' then afterNumber rest else ch :: rest

def afterDouble (ch : Byte) : List Byte → List Byte
  | [] => []
  | second :: rest => if second = ch then rest else second :: rest

def afterType : List Byte → List Byte
  | [] => []
  | ch :: rest =>
    if ch = char 'h' then afterDouble (char 'h') rest
    else if ch = char 'j' then rest
    else if ch = char 'l' then afterDouble (char 'l') rest
    else if ch = char 't' then rest
    else if ch = char 'z' then rest
    else ch :: rest

/-- The text from the character of the conversion on. -/
def afterSpecification (text : List Byte) : List Byte := afterType (afterPrecision (afterNumber (text.dropWhile isFlag)))

variable {text rest : List Byte} {flags : Flags} {args : Args} {memory : Memory} {fuel : Nat} {n : Word} {ch : Byte}

theorem dropDigits_digit (digit : isdigit ch) : dropDigits (ch :: text) = dropDigits text :=
  List.dropWhile_cons_of_pos (decide_eq_true digit)

theorem dropDigits_other (other : ¬ isdigit ch) : dropDigits (ch :: text) = ch :: text :=
  List.dropWhile_cons_of_neg (by rw [decide_eq_false other]; decide)

theorem flag_none (ch : Byte) (flags : Flags) : flag ch flags = none ↔ isFlag ch = false := by
  rw [flag,isFlag,decide_eq_false_iff_not]
  split_ifs <;> simp_all

theorem parse_flags_rest : ∃ flags', parse_flags (text ++ [0]) flags = some (flags',text.dropWhile isFlag ++ [0]) := by
  induction text generalizing flags with
  | nil => exact ⟨flags,rfl⟩
  | cons ch text ih =>
    rw [List.cons_append,parse_flags]
    cases added : flag ch flags with
    | none =>
      rw [List.dropWhile_cons_of_neg (by rw [(flag_none ch flags).mp added]; decide)]
      exact ⟨flags,rfl⟩
    | some flags' =>
      have is_flag : isFlag ch = true := by
        rw [← Bool.not_eq_false]
        intro other
        rw [(flag_none ch flags).mpr other] at added
        cases added
      rw [List.dropWhile_cons_of_pos is_flag]
      exact ih

theorem parse_digits_rest :
    ∃ n', parse_digits (text ++ [0]) n = some (n',dropDigits text ++ [0]) := by
  induction text generalizing n with
  | nil => exact ⟨n,rfl⟩
  | cons ch text ih =>
    rw [List.cons_append,parse_digits]
    by_cases digit : isdigit ch
    · rw [if_pos digit,dropDigits_digit digit]
      exact ih
    · rw [if_neg digit,dropDigits_other digit]
      exact ⟨n,rfl⟩

theorem parse_number_rest : ∃ n args', parse_number (text ++ [0]) args = some (n,afterNumber text ++ [0],args') := by
  cases text with
  | nil => exact ⟨0,args,rfl⟩
  | cons ch rest =>
    rw [List.cons_append,parse_number,afterNumber]
    by_cases star : ch = char '*'
    · rw [if_pos star,if_pos star]
      exact ⟨_,_,rfl⟩
    · obtain ⟨n,digits⟩ := @parse_digits_rest (ch :: rest) 0
      rw [if_neg star,if_neg star,← List.cons_append,digits]
      exact ⟨_,_,rfl⟩

theorem parse_precision_rest :
    ∃ n args', parse_precision (text ++ [0]) args = some (n,afterPrecision text ++ [0],args') := by
  cases text with
  | nil => exact ⟨-1,args,rfl⟩
  | cons ch rest =>
    rw [List.cons_append,parse_precision,afterPrecision]
    by_cases point : ch = char '.'
    · obtain ⟨n,args',number⟩ := @parse_number_rest rest args
      rw [if_pos point,if_pos point,number]
      exact ⟨_,_,rfl⟩
    · rw [if_neg point,if_neg point]
      exact ⟨_,_,rfl⟩

theorem parse_double_rest (once twice : ArgType) :
    ∃ type, parse_double ch once twice (text ++ [0]) = some (type,afterDouble ch text ++ [0]) ∨ ch = 0 := by
  cases text with
  | nil =>
    by_cases zero : ch = 0
    · exact ⟨once,.inr zero⟩
    · exact ⟨once,.inl (if_neg (Ne.symm zero))⟩
  | cons second rest =>
    rw [List.cons_append,parse_double,afterDouble]
    by_cases again : second = ch
    · rw [if_pos again,if_pos again]
      exact ⟨twice,.inl rfl⟩
    · rw [if_neg again,if_neg again]
      exact ⟨once,.inl rfl⟩

theorem parse_type_rest : ∃ type, parse_type (text ++ [0]) = some (type,afterType text ++ [0]) := by
  cases text with
  | nil => exact ⟨.INT,rfl⟩
  | cons ch rest =>
    rw [List.cons_append,parse_type,afterType]
    split_ifs with is_h is_j is_l is_t is_z
    · obtain ⟨type,done⟩ := @parse_double_rest rest (char 'h') .SHORT .CHAR
      exact ⟨type,done.resolve_right (by decide)⟩
    · exact ⟨_,rfl⟩
    · obtain ⟨type,done⟩ := @parse_double_rest rest (char 'l') .LONG .LONGLONG
      exact ⟨type,done.resolve_right (by decide)⟩
    · exact ⟨_,rfl⟩
    · exact ⟨_,rfl⟩
    · exact ⟨_,rfl⟩

theorem parse_conversion_rest :
    ∃ c args', parse_conversion (text ++ [0]) args = some (afterSpecification text ++ [0],c,args') := by
  obtain ⟨flags,flagged⟩ := @parse_flags_rest text noFlags
  obtain ⟨width,args₁,wide⟩ := @parse_number_rest (text.dropWhile isFlag) args
  obtain ⟨precision,args₂,precise⟩ := @parse_precision_rest (afterNumber (text.dropWhile isFlag)) args₁
  obtain ⟨type,typed⟩ := @parse_type_rest (afterPrecision (afterNumber (text.dropWhile isFlag)))
  rw [parse_conversion,flagged,Option.bind_some,wide,Option.bind_some,precise,Option.bind_some,typed]
  exact ⟨_,_,rfl⟩

theorem afterNumber_suffix (text : List Byte) : afterNumber text <:+ text := by
  cases text with
  | nil => exact List.suffix_rfl
  | cons ch rest =>
    rw [afterNumber]
    split
    · exact List.suffix_cons ch rest
    · exact List.dropWhile_suffix _

theorem afterPrecision_suffix (text : List Byte) : afterPrecision text <:+ text := by
  cases text with
  | nil => exact List.suffix_rfl
  | cons ch rest =>
    rw [afterPrecision]
    split
    · exact (afterNumber_suffix rest).trans (List.suffix_cons ch rest)
    · exact List.suffix_rfl

theorem afterDouble_suffix (ch : Byte) (text : List Byte) : afterDouble ch text <:+ text := by
  cases text with
  | nil => exact List.suffix_rfl
  | cons second rest =>
    rw [afterDouble]
    split
    · exact List.suffix_cons second rest
    · exact List.suffix_rfl

theorem afterType_suffix (text : List Byte) : afterType text <:+ text := by
  cases text with
  | nil => exact List.suffix_rfl
  | cons ch rest =>
    have tail := List.suffix_cons ch rest
    rw [afterType]
    split_ifs
    · exact (afterDouble_suffix _ rest).trans tail
    · exact tail
    · exact (afterDouble_suffix _ rest).trans tail
    · exact tail
    · exact tail
    · exact List.suffix_rfl

theorem afterSpecification_suffix (text : List Byte) : afterSpecification text <:+ text :=
  (afterType_suffix _).trans ((afterPrecision_suffix _).trans ((afterNumber_suffix _).trans (List.dropWhile_suffix _)))

/-! ### What the automaton makes of it -/

@[simp] theorem run_nil (place : Place) : run place [] = place := rfl

@[simp] theorem run_cons (place : Place) : run place (ch :: text) = run (step place ch) text := rfl

theorem step_ordinary (other : ch ≠ char '%') : step .text ch = .text := if_neg other

theorem none_left : ¬ ∃ ch rest, ([] : List Byte) = ch :: rest ∧ run .text rest = .text := by
  rintro ⟨ch,rest,nothing,-⟩
  cases nothing

theorem one_left : run .text rest = .text ↔ ∃ next after, ch :: rest = next :: after ∧ run .text after = .text := by
  constructor
  · exact fun out => ⟨ch,rest,rfl,out⟩
  · rintro ⟨next,after,same,out⟩
    cases same
    exact out

theorem run_double (place : Place) (second : ∀ next, step place next = if next = ch then .type else .text)
    (inside : place ≠ .text) :
    run place text = .text ↔ ∃ next rest, afterDouble ch text = next :: rest ∧ run .text rest = .text := by
  cases text with
  | nil => exact iff_of_false inside none_left
  | cons next rest =>
    rw [run_cons,second,afterDouble]
    by_cases again : next = ch
    · rw [if_pos again,if_pos again]
      cases rest with
      | nil => exact iff_of_false (by decide) none_left
      | cons next rest => exact one_left
    · rw [if_neg again,if_neg again]
      exact one_left

theorem run_type : run .argument text = .text ↔ ∃ ch rest, afterType text = ch :: rest ∧ run .text rest = .text := by
  cases text with
  | nil => exact iff_of_false (by decide) none_left
  | cons ch rest =>
    have whole : run .type rest = .text ↔ ∃ ch after, rest = ch :: after ∧ run .text after = .text := by
      cases rest with
      | nil => exact iff_of_false (by decide) none_left
      | cons next rest => exact one_left
    rw [run_cons,step,stepType,afterType]
    by_cases is_h : ch = char 'h'
    · rw [if_pos is_h,if_pos is_h]
      exact run_double .h (fun _ => rfl) (by decide)
    · by_cases is_l : ch = char 'l'
      · rw [if_neg is_h,if_pos is_l,if_neg is_h,if_neg (by rw [is_l]; decide),if_pos is_l]
        exact run_double .l (fun _ => rfl) (by decide)
      · rw [if_neg is_h,if_neg is_l,if_neg is_h,if_neg is_l]
        by_cases is_type : ch = char 'j' ∨ ch = char 't' ∨ ch = char 'z'
        · rw [if_pos is_type]
          rcases is_type with is_j | is_t | is_z
          · rw [if_pos is_j]
            exact whole
          · rw [if_neg (by rw [is_t]; decide),if_pos is_t]
            exact whole
          · rw [if_neg (by rw [is_z]; decide),if_neg (by rw [is_z]; decide),if_pos is_z]
            exact whole
        · rw [if_neg is_type,if_neg (fun is_j => is_type (.inl is_j)),if_neg (fun is_t => is_type (.inr (.inl is_t))),
            if_neg (fun is_z => is_type (.inr (.inr is_z)))]
          exact one_left

/-- Behind digits it is as it is behind a star. -/
theorem run_digits (place behind : Place) (inside : place ≠ .text) (inside' : behind ≠ .text)
    (more : ∀ ch, step place ch = if isdigit ch then place else step behind ch) :
    run place text = .text ↔ run behind (dropDigits text) = .text := by
  induction text with
  | nil => exact iff_of_false inside inside'
  | cons ch rest ih =>
    rw [run_cons,more]
    by_cases digit : isdigit ch
    · rw [if_pos digit,dropDigits_digit digit]
      exact ih
    · rw [if_neg digit,dropDigits_other digit]
      rfl

theorem run_point : run .point text = .text ↔ run .argument (afterNumber text) = .text := by
  cases text with
  | nil => exact iff_of_false (by decide) (by decide)
  | cons ch rest =>
    rw [run_cons,step,afterNumber]
    by_cases star : ch = char '*'
    · rw [if_pos star,if_pos star]
    · rw [if_neg star,if_neg star]
      by_cases digit : isdigit ch
      · rw [if_pos digit,dropDigits_digit digit]
        exact run_digits .digits .argument (by decide) (by decide) fun _ => rfl
      · rw [if_neg digit,dropDigits_other digit]
        rfl

theorem run_precision : run .star text = .text ↔ run .argument (afterPrecision text) = .text := by
  cases text with
  | nil => exact iff_of_false (by decide) (by decide)
  | cons ch rest =>
    rw [run_cons,step,stepPrecision,afterPrecision]
    by_cases point : ch = char '.'
    · rw [if_pos point,if_pos point]
      exact run_point
    · rw [if_neg point,if_neg point]
      rfl

theorem run_flags : run .flags text = run .flags (text.dropWhile isFlag) := by
  induction text with
  | nil => rfl
  | cons ch rest ih =>
    by_cases is_flag : isFlag ch = true
    · rw [List.dropWhile_cons_of_pos is_flag,run_cons,step,if_pos is_flag]
      exact ih
    · rw [List.dropWhile_cons_of_neg is_flag]

theorem run_width (start : ∀ ch, text.head? = some ch → isFlag ch = false) :
    run .flags text = .text ↔ run .star (afterNumber text) = .text := by
  cases text with
  | nil => exact iff_of_false (by decide) (by decide)
  | cons ch rest =>
    rw [run_cons,step,start ch rfl,afterNumber]
    by_cases star : ch = char '*'
    · rw [if_neg Bool.false_ne_true,if_pos star,if_pos star]
    · rw [if_neg Bool.false_ne_true,if_neg star,if_neg star]
      by_cases digit : isdigit ch
      · rw [if_pos digit,dropDigits_digit digit]
        exact run_digits .width .star (by decide) (by decide) fun _ => rfl
      · rw [if_neg digit,dropDigits_other digit]
        rfl

/-- A conversion is complete if its character is there, and the text behind it is complete. -/
theorem run_specification :
    run .flags text = .text ↔ ∃ ch rest, afterSpecification text = ch :: rest ∧ run .text rest = .text := by
  have start : ∀ ch, (text.dropWhile isFlag).head? = some ch → isFlag ch = false := fun ch first => by
    have nonempty : text.dropWhile isFlag ≠ [] := fun empty => by rw [empty] at first; cases first
    have not_flag := List.head_dropWhile_not isFlag nonempty
    rw [List.head?_eq_some_head nonempty,Option.some.injEq] at first
    rwa [first] at not_flag
  rw [run_flags,run_width start,run_precision,run_type,afterSpecification]

/-! ### Formats -/

/-- The messages are formats that end, with any argument. -/
theorem no_conversion_message : __vprintf memory (fuel + 24) (chars "<<no %%%c conversion>>" ++ [0]) args =
    some (chars "<<no %" ++ [(args 0).setWidth 8] ++ chars " conversion>>") := rfl

theorem in_kernel_message : __vprintf memory (fuel + 24) (chars "<<no %%%c in kernel>>" ++ [0]) args =
    some (chars "<<no %" ++ [(args 0).setWidth 8] ++ chars " in kernel>>") := rfl

theorem format_integer_some {b : integer_base} (base : b = base_d ∨ b = base_o ∨ b = base_x ∨ b = base_X)
    (value : BitVec 64) (is_signed negative : Bool) (c : printf_conversion) :
    ∃ out, format_integer value is_signed negative b c = some out := by
  obtain ⟨zeros,digits,-⟩ := digitsOf_spec (table_of_base base) value c
  rw [format_integer,digits]
  exact ⟨_,rfl⟩

theorem unsigned_base_cases (ch : Byte) : unsigned_base ch = base_d ∨ unsigned_base ch = base_o ∨
    unsigned_base ch = base_x ∨ unsigned_base ch = base_X := by
  rw [unsigned_base]
  split_ifs <;> simp

/-- Every character has a conversion, if only a message. -/
theorem convert_some (enough : 24 ≤ fuel) (c : printf_conversion) :
    ∃ out args', convert memory (__vprintf memory fuel) ch c args = some (out,args') := by
  obtain ⟨fuel,rfl⟩ := Nat.exists_eq_add_of_le' enough
  rw [convert]
  split_ifs
  · obtain ⟨out,printed⟩ := format_integer_some (.inl rfl)
      (if (signed_arg c.type args).1.slt 0 then -(signed_arg c.type args).1 else (signed_arg c.type args).1) true
      ((signed_arg c.type args).1.slt 0) c
    simp only [printed]
    exact ⟨_,_,rfl⟩
  · obtain ⟨out,printed⟩ := format_integer_some (unsigned_base_cases ch) (unsigned_arg c.type args).1 false false c
    rw [printed]
    exact ⟨_,_,rfl⟩
  · exact ⟨_,_,rfl⟩
  · exact ⟨_,_,rfl⟩
  · obtain ⟨out,printed⟩ := format_integer_some (.inr (.inr (.inl rfl))) ((args 0).setWidth 64) false false
      { c with flags := { noFlags with POUND := true } }
    rw [printed]
    exact ⟨_,_,rfl⟩
  · rw [in_kernel_message]
    exact ⟨_,_,rfl⟩
  · rw [no_conversion_message]
    exact ⟨_,_,rfl⟩

/-- A conversion goes on behind its character. -/
theorem convert_rest_spec {printf : List Byte → Args → Option (List Byte)} (after : afterSpecification text = ch :: rest) :
    ∃ c args', convert_rest memory printf (text ++ [0]) args =
      (convert memory printf ch c args').bind fun done => (printf (rest ++ [0]) done.2).map (done.1 ++ ·) := by
  obtain ⟨c,args',parsed⟩ := @parse_conversion_rest text args
  rw [convert_rest,parsed,after]
  exact ⟨c,args',rfl⟩

/-- If the format is cut off, it goes on behind the null byte. -/
theorem convert_rest_cut {printf : List Byte → Args → Option (List Byte)} (past : ∀ args, printf [] args = none)
    (cut : afterSpecification text = []) : convert_rest memory printf (text ++ [0]) args = none := by
  obtain ⟨c,args',parsed⟩ := @parse_conversion_rest text args
  rw [convert_rest,parsed,cut,Option.bind_some]
  change ((convert memory printf 0 c args').bind fun done => (printf [] done.2).map (done.1 ++ ·)) = none
  simp only [past,Option.map_none,Option.bind_fun_none]

/-- A complete format is read to its end. -/
theorem vprintf_ends (nonzero : 0 ∉ text) (complete : Complete text) (enough : text.length + 25 ≤ fuel) :
    ∃ out, __vprintf memory fuel (text ++ [0]) args = some out := by
  induction fuel generalizing text args with
  | zero => omega
  | succ fuel ih =>
    cases text with
    | nil => exact ⟨[],rfl⟩
    | cons ch text =>
      have nonzero_text : 0 ∉ text := fun later => nonzero (List.mem_cons_of_mem ch later)
      rw [List.length_cons] at enough
      by_cases sign : ch = char '%'
      · subst sign
        rw [List.cons_append,vprintf_percent]
        obtain ⟨next,rest,after,complete_rest⟩ := run_specification.mp complete
        have suffix := afterSpecification_suffix text
        rw [after] at suffix
        have shorter := suffix.length_le
        rw [List.length_cons] at shorter
        cases text with
        | nil => cases after
        | cons second text =>
          by_cases double : second = char '%'
          · subst double
            obtain ⟨out,ran⟩ := @ih text args (fun later => nonzero_text (List.mem_cons_of_mem _ later)) complete
              (by rw [List.length_cons] at enough; omega)
            rw [List.cons_append,percent,if_pos rfl,ran]
            exact ⟨_,rfl⟩
          · obtain ⟨c,args',goes_on⟩ := @convert_rest_spec (second :: text) rest args memory next
              (__vprintf memory fuel) after
            obtain ⟨out,args'',converted⟩ := @convert_some args' memory fuel next (by omega) c
            obtain ⟨out',ran⟩ := @ih rest args'' (fun later => nonzero_text (suffix.mem (List.mem_cons_of_mem next later)))
              complete_rest (by omega)
            rw [List.cons_append,percent_cons double,← List.cons_append,goes_on,converted,Option.bind_some,ran]
            exact ⟨_,rfl⟩
      · have complete_text : Complete text := by
          rw [Complete,run_cons,step_ordinary sign] at complete
          exact complete
        obtain ⟨out,ran⟩ := @ih text args nonzero_text complete_text (by omega)
        rw [List.cons_append,vprintf_ordinary (fun zero => nonzero (by rw [zero]; exact List.mem_cons_self)) sign,ran]
        exact ⟨_,rfl⟩

/-- A format that is cut off has no result, whatever the number of rounds. -/
theorem vprintf_cut (nonzero : 0 ∉ text) (cut : ¬ Complete text) : __vprintf memory fuel (text ++ [0]) args = none := by
  induction fuel generalizing text args with
  | zero => rfl
  | succ fuel ih =>
    cases text with
    | nil => exact absurd rfl cut
    | cons ch text =>
      have nonzero_text : 0 ∉ text := fun later => nonzero (List.mem_cons_of_mem ch later)
      by_cases sign : ch = char '%'
      · subst sign
        rw [List.cons_append,vprintf_percent]
        cases text with
        | nil => exact @convert_rest_cut [] args memory (__vprintf memory fuel) (fun _ => vprintf_past) rfl
        | cons second text =>
          by_cases double : second = char '%'
          · subst double
            rw [List.cons_append,percent,if_pos rfl,ih (fun later => nonzero_text (List.mem_cons_of_mem _ later)) cut]
            rfl
          · rw [List.cons_append,percent_cons double,← List.cons_append]
            cases after : afterSpecification (second :: text) with
            | nil => exact convert_rest_cut (fun _ => vprintf_past) after
            | cons next rest =>
              have suffix := afterSpecification_suffix (second :: text)
              rw [after] at suffix
              obtain ⟨c,args',goes_on⟩ := @convert_rest_spec (second :: text) rest args memory next
                (__vprintf memory fuel) after
              have cut_rest : ¬ Complete rest := fun complete =>
                cut (run_specification.mpr ⟨next,rest,after,complete⟩)
              have none_left : ∀ args, __vprintf memory fuel (rest ++ [0]) args = none := fun args =>
                ih (fun later => nonzero_text (suffix.mem (List.mem_cons_of_mem next later))) cut_rest
              rw [goes_on]
              simp only [none_left,Option.map_none,Option.bind_fun_none]
      · have cut_text : ¬ Complete text := by
          rw [Complete,run_cons,step_ordinary sign] at cut
          exact cut
        rw [List.cons_append,vprintf_ordinary (fun zero => nonzero (by rw [zero]; exact List.mem_cons_self)) sign,
          ih nonzero_text cut_text]
        rfl

/-- A format is read to its null byte and no further exactly if no conversion is cut off by the end. -/
theorem format_read_iff (memory : Memory) (args : Args) (text : List Byte) (nonzero : 0 ∉ text) :
    (∃ fuel out, __vprintf memory fuel (text ++ [0]) args = some out) ↔ Complete text := by
  constructor
  · rintro ⟨fuel,out,ran⟩
    by_contra cut
    rw [vprintf_cut nonzero cut] at ran
    cases ran
  · intro complete
    exact ⟨text.length + 25,vprintf_ends nonzero complete (Nat.le_refl _)⟩

theorem format_read_number : ∃ fuel out, __vprintf (fun _ => 0) fuel (chars "%-5.*ld%%" ++ [0]) (fun _ => 7) = some out :=
  (format_read_iff (fun _ => 0) (fun _ => 7) (chars "%-5.*ld%%") (by decide)).mpr (by decide)

/-- A single percent sign. -/
theorem format_read_past : ¬ ∃ fuel out, __vprintf (fun _ => 0) fuel (chars "%" ++ [0]) (fun _ => 7) = some out := by
  rintro ⟨fuel,out,ran⟩
  rw [vprintf_cut (by decide) (by decide)] at ran
  cases ran

end Pintos.FormatStrings
