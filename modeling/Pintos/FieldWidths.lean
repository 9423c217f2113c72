import Pintos.FormatStrings

/-!
Integer conversions by the text of their specification: what `parse_conversion` makes of it, and
how wide the field is.
-/
namespace Pintos.FieldWidths
open Pintos.Bitmaps (Byte)
open Pintos.Printf Pintos.IntegerFormats Pintos.FormatStrings
set_option linter.unusedSimpArgs false

/-- The number that digits stand for. -/
def valueOf (digits : List Byte) : Nat := digits.foldl (fun n ch => n * 10 + (ch.toNat - 48)) 0

/-- A width or precision as it is written. No digits at all are a number that is left out. -/
inductive Number
  | literal (digits : List Byte) (are_digits : ∀ ch ∈ digits, isdigit ch) (small : valueOf digits < 2 ^ 31)
  | star

def Number.text : Number → List Byte
  | .literal digits _ _ => digits
  | .star => [char '*']

def Number.word (args : Args) : Number → Word
  | .literal digits _ _ => BitVec.ofNat 32 (valueOf digits)
  | .star => args 0

def Number.rest (args : Args) : Number → Args
  | .literal _ _ _ => args
  | .star => next args

def typeText : ArgType → List Byte
  | .CHAR => chars "hh"
  | .SHORT => chars "h"
  | .INT => []
  | .INTMAX => chars "j"
  | .LONG => chars "l"
  | .LONGLONG => chars "ll"
  | .PTRDIFFT => chars "t"
  | .SIZET => chars "z"

/-- An integer conversion. A width does not begin with 0, which is a flag. -/
structure Specification where
  flags : List Byte
  width : Number
  precision : Option Number
  type : ArgType
  conv : Byte
  are_flags : ∀ ch ∈ flags, isFlag ch = true
  no_zero : width.text.head? ≠ some (char '0')
  integer : conv ∈ chars "diouxX"

namespace Specification

def precisionText (spec : Specification) : List Byte :=
  match spec.precision with
  | none => []
  | some number => char '.' :: number.text

/-- What stands between the percent sign and the character of the conversion. -/
def text (spec : Specification) : List Byte := spec.flags ++ spec.width.text ++ spec.precisionText ++ typeText spec.type

/-- The width, from the text or the arguments. -/
def widthWord (spec : Specification) (args : Args) : Word := spec.width.word args

def precisionWord (spec : Specification) (args : Args) : Word :=
  match spec.precision with
  | none => -1
  | some number => if (number.word (spec.width.rest args)).slt 0 then -1 else number.word (spec.width.rest args)

/-- The arguments that are left for the value. -/
def valueArgs (spec : Specification) (args : Args) : Args :=
  match spec.precision with
  | none => spec.width.rest args
  | some number => number.rest (spec.width.rest args)

def flagSet (spec : Specification) : Flags := spec.flags.foldl (fun flags ch => (flag ch flags).getD flags) noFlags

/-- The conversion that is passed on. -/
def passed (spec : Specification) (args : Args) : printf_conversion :=
  conversion spec.flagSet (spec.widthWord args) (spec.precisionWord args) spec.type

end Specification

variable {digits rest tail : List Byte} {args : Args} {memory : Memory} {ch : Byte} {spec : Specification} {number : Number}
  {flags : Flags} {n : Nat}

/-! ### Parsing -/

/-- What can stand behind a number. -/
def Behind (tail : List Byte) : Prop := ∃ ch rest, tail = ch :: rest ∧ ¬ isdigit ch ∧ ch ≠ char '*' ∧ isFlag ch = false

theorem parse_flags_spec (are_flags : ∀ ch ∈ digits, isFlag ch = true) (other : isFlag ch = false) :
    parse_flags (digits ++ ch :: rest) flags =
      some (digits.foldl (fun flags ch => (flag ch flags).getD flags) flags,ch :: rest) := by
  induction digits generalizing flags with
  | nil => rw [List.nil_append,parse_flags,(flag_none ch flags).mpr other]; rfl
  | cons first digits ih =>
    rw [List.cons_append,parse_flags,List.foldl_cons]
    cases added : flag first flags with
    | none =>
      have not_flag := (flag_none first flags).mp added
      rw [are_flags first List.mem_cons_self] at not_flag
      cases not_flag
    | some flags' => exact ih fun ch later => are_flags ch (List.mem_cons_of_mem first later)

theorem parse_digits_spec (are_digits : ∀ ch ∈ digits, isdigit ch) (other : ¬ isdigit ch) :
    parse_digits (digits ++ ch :: rest) (BitVec.ofNat 32 n) =
      some (BitVec.ofNat 32 (digits.foldl (fun n ch => n * 10 + (ch.toNat - 48)) n),ch :: rest) := by
  induction digits generalizing n with
  | nil => exact if_neg other
  | cons first digits ih =>
    have digit := are_digits first List.mem_cons_self
    have shifted : BitVec.ofNat 32 n * 10 + first.signExtend 32 - 48 = BitVec.ofNat 32 (n * 10 + (first.toNat - 48)) := by
      have positive : first.signExtend 32 = BitVec.ofNat 32 first.toNat := by
        rw [BitVec.signExtend_eq_setWidth_of_msb_false]
        · rw [BitVec.ofNat_toNat]
        · rw [BitVec.msb_eq_false_iff_two_mul_lt]
          have := digit.2
          omega
      obtain ⟨d,number⟩ := Nat.exists_eq_add_of_le' digit.1
      have ten : BitVec.ofNat 32 n * 10 = BitVec.ofNat 32 (n * 10) := (BitVec.ofNat_mul n 10).symm
      rw [positive,number,Nat.add_sub_cancel,ten,← BitVec.ofNat_add,← Nat.add_assoc,BitVec.ofNat_add (n * 10 + d) 48]
      exact BitVec.add_sub_cancel _ _
    rw [List.cons_append,parse_digits,if_pos digit,shifted,List.foldl_cons]
    exact ih fun ch later => are_digits ch (List.mem_cons_of_mem first later)

theorem parse_number_spec (behind : Behind tail) :
    parse_number (number.text ++ tail) args = some (number.word args,tail,number.rest args) := by
  obtain ⟨ch,rest,rfl,not_digit,not_star,-⟩ := behind
  cases number with
  | star => rfl
  | literal digits are_digits small =>
    have read := @parse_digits_spec digits rest ch 0 are_digits not_digit
    change parse_number (digits ++ ch :: rest) args = some (BitVec.ofNat 32 (valueOf digits),ch :: rest,args)
    cases digits with
    | nil => rw [List.nil_append,parse_number,if_neg not_star]; exact congrArg _ read
    | cons first digits =>
      have digit := are_digits first List.mem_cons_self
      have no_star : first ≠ char '*' := fun same => by rw [same] at digit; exact absurd digit (by decide)
      rw [List.cons_append,parse_number,if_neg no_star,← List.cons_append]
      exact congrArg _ read

/-- No digit but 0 is a flag. -/
theorem digit_no_flag (digit : isdigit ch) (nonzero : ch ≠ char '0') : isFlag ch = false := by
  have not_flag : ∀ flag : Byte, ¬ isdigit flag → ch ≠ flag := fun flag no_digit same => no_digit (same ▸ digit)
  rw [isFlag,decide_eq_false_iff_not]
  rintro (same | same | same | same | same | same)
  · exact not_flag _ (by decide) same
  · exact not_flag _ (by decide) same
  · exact not_flag _ (by decide) same
  · exact not_flag _ (by decide) same
  · exact nonzero same
  · exact not_flag _ (by decide) same

/-- The flags end where the width begins, or what is behind it. -/
theorem width_start (spec : Specification) (behind : Behind tail) :
    ∃ next after, spec.width.text ++ tail = next :: after ∧ isFlag next = false := by
  have no_zero := spec.no_zero
  revert no_zero
  cases spec.width with
  | star => exact fun _ => ⟨_,_,rfl,by decide⟩
  | literal digits are_digits small =>
    intro no_zero
    cases digits with
    | nil =>
      obtain ⟨next,after,shape,-,-,other⟩ := behind
      exact ⟨next,after,shape,other⟩
    | cons next digits =>
      exact ⟨next,_,rfl,digit_no_flag (are_digits next List.mem_cons_self) fun zero => no_zero (congrArg some zero)⟩

/-- Behind the precision come the type and the character of the conversion. -/
theorem parse_type_spec (type : ArgType) (integer : ch ∈ chars "diouxX") :
    (∃ first others, typeText type ++ ch :: rest = first :: others ∧ ¬ isdigit first ∧ first ≠ char '*' ∧
      isFlag first = false ∧ first ≠ char '.') ∧ parse_type (typeText type ++ ch :: rest) = some (type,ch :: rest) := by
  have cases_ : ch = char 'd' ∨ ch = char 'i' ∨ ch = char 'o' ∨ ch = char 'u' ∨ ch = char 'x' ∨ ch = char 'X' := by
    simpa [chars] using integer
  rcases cases_ with rfl | rfl | rfl | rfl | rfl | rfl <;> cases type <;>
    exact ⟨⟨_,_,rfl,by decide,by decide,by decide,by decide⟩,rfl⟩

/-- The whole specification is read as it was written. -/
theorem parse_conversion_spec (spec : Specification) (args : Args) (rest : List Byte) :
    parse_conversion (spec.text ++ spec.conv :: rest) args =
      some (spec.conv :: rest,spec.passed args,spec.valueArgs args) := by
  obtain ⟨⟨first,others,typed,not_digit,not_star,not_flag,not_point⟩,type_read⟩ :=
    @parse_type_spec rest spec.conv spec.type spec.integer
  have behind : Behind (typeText spec.type ++ spec.conv :: rest) := ⟨first,others,typed,not_digit,not_star,not_flag⟩
  have precise : parse_precision (spec.precisionText ++ (typeText spec.type ++ spec.conv :: rest)) (spec.width.rest args) =
      some (spec.precisionWord args,typeText spec.type ++ spec.conv :: rest,spec.valueArgs args) := by
    rw [Specification.precisionText,Specification.precisionWord,Specification.valueArgs]
    cases spec.precision with
    | none =>
      rw [List.nil_append,typed,parse_precision,if_neg not_point]
    | some number =>
      have read := @parse_number_spec _ (spec.width.rest args) number behind
      simp only [List.cons_append]
      rw [parse_precision,if_pos rfl,read]
      rfl
  have behind_width : Behind (spec.precisionText ++ (typeText spec.type ++ spec.conv :: rest)) := by
    rw [Specification.precisionText]
    cases spec.precision with
    | none => exact behind
    | some number => exact ⟨_,_,rfl,by decide,by decide,by decide⟩
  have wide := @parse_number_spec _ args spec.width behind_width
  have flagged : parse_flags (spec.flags ++ (spec.width.text ++ (spec.precisionText ++ (typeText spec.type ++ spec.conv :: rest))))
      noFlags = some (spec.flagSet,spec.width.text ++ (spec.precisionText ++ (typeText spec.type ++ spec.conv :: rest))) := by
    obtain ⟨next,after,shape,other⟩ := width_start spec behind_width
    rw [shape]
    exact parse_flags_spec spec.are_flags other
  rw [Specification.text,List.append_assoc,List.append_assoc,List.append_assoc,parse_conversion,flagged,Option.bind_some,wide,
    Option.bind_some,precise,Option.bind_some,type_read]
  rfl

/-! ### What is output -/

namespace Specification

/-- The flags clash only if `0` was given, `-` was not, and a star stands for a negative width without a precision. -/
def Clash (spec : Specification) (args : Args) : Prop :=
  char '0' ∈ spec.flags ∧ char '-' ∉ spec.flags ∧ spec.width = .star ∧ (args 0).toInt < 0 ∧
    (spec.precisionWord args).toInt < 0

/-- The field is asked to be filled on its right. -/
def OnRight (spec : Specification) (args : Args) : Prop :=
  char '-' ∈ spec.flags ∨ (spec.width = .star ∧ (args 0).toInt < 0)

end Specification

/-- A text filled up to a width: on its right, or on its left or behind its sign and prefix. -/
def Filled (on_right : Prop) (plain out : List Byte) (width : Nat) : Prop :=
  out.length = max width plain.length ∧
  (on_right → ∃ pad, out = plain ++ List.replicate pad (char ' ')) ∧
  (¬ on_right → ∃ front back pad, plain = front ++ back ∧
    (out = List.replicate pad (char ' ') ++ plain ∨ out = front ++ List.replicate pad (char '0') ++ back))

/-- The conversion that is passed on never has both flags, and the field has the width that was asked for. What the
conversion outputs with a width of 0 is the text that is filled. -/
def Exact (spec : Specification) (args : Args) : Prop :=
  ∃ c value_args args' plain out,
    (∀ rest, parse_conversion (spec.text ++ spec.conv :: rest) args = some (spec.conv :: rest,c,value_args)) ∧
    ¬ (c.flags.MINUS ∧ c.flags.ZERO) ∧
    (∀ memory printf, convert memory printf spec.conv { c with width := 0 } value_args = some (plain,args')) ∧
    (∀ memory fuel rest, __vprintf memory (fuel + 1) (char '%' :: (spec.text ++ spec.conv :: rest)) args =
      (__vprintf memory fuel rest args').map (out ++ ·)) ∧
    Filled (spec.OnRight args) plain out (spec.widthWord args).toInt.natAbs

/-- An integer conversion formats a value that does not depend on the width. -/
theorem convert_integer (integer : ch ∈ chars "diouxX") (type : ArgType) (args : Args) :
    ∃ value is_signed negative b args', (b = base_d ∨ b = base_o ∨ b = base_x ∨ b = base_X) ∧
      ∀ memory printf c, c.type = type → convert memory printf ch c args =
        (format_integer value is_signed negative b c).map fun out => (out,args') := by
  have cases_ : (ch = char 'd' ∨ ch = char 'i') ∨ ch = char 'o' ∨ ch = char 'u' ∨ ch = char 'x' ∨ ch = char 'X' := by
    simpa [chars,or_assoc] using integer
  rcases cases_ with signed | unsigned
  · refine ⟨if (signed_arg type args).1.slt 0 then -(signed_arg type args).1 else (signed_arg type args).1,true,
      (signed_arg type args).1.slt 0,base_d,(signed_arg type args).2,.inl rfl,fun memory printf c same => ?_⟩
    rw [convert,if_pos signed,same]
  · have not_signed : ¬ (ch = char 'd' ∨ ch = char 'i') := by
      rcases unsigned with rfl | rfl | rfl | rfl <;> decide
    refine ⟨(unsigned_arg type args).1,false,false,unsigned_base ch,(unsigned_arg type args).2,unsigned_base_cases ch,
      fun memory printf c same => ?_⟩
    rw [convert,if_neg not_signed,if_pos unsigned,same]

/-- Where the padding stands is decided by the flags. -/
theorem text_filled {value : BitVec 64} {is_signed negative : Bool} {b : integer_base} {c : printf_conversion}
    (apart : ¬ (c.flags.MINUS ∧ c.flags.ZERO)) (zeros width : Nat) :
    Filled (c.flags.MINUS = true) (partsOf value is_signed negative b c zeros 0).plain
      (partsOf value is_signed negative b c zeros (width - (partsOf value is_signed negative b c zeros 0).plain.length)).text
      width := by
  refine ⟨by rw [text_length apart]; omega,?_⟩
  generalize width - (partsOf value is_signed negative b c zeros 0).plain.length = pad
  refine ⟨fun minus => ⟨pad,?_⟩,fun not_minus => ?_⟩
  · have not_zero : c.flags.ZERO = false := Bool.eq_false_iff.mpr fun zero => apart ⟨minus,zero⟩
    simp [Parts.text,Parts.plain,partsOf,minus,not_zero]
  · have no_minus : c.flags.MINUS = false := Bool.eq_false_iff.mpr not_minus
    by_cases zero : c.flags.ZERO
    · refine ⟨(partsOf value is_signed negative b c zeros 0).sign ++ (partsOf value is_signed negative b c zeros 0).x,
        (partsOf value is_signed negative b c zeros 0).zeros ++ (partsOf value is_signed negative b c zeros 0).body,pad,?_,.inr ?_⟩
      · rw [Parts.plain,List.append_assoc,List.append_assoc]
      · simp [Parts.text,partsOf,no_minus,zero]
        rw [← List.append_assoc,List.replicate_append_replicate]
    · refine ⟨[],_,pad,rfl,.inl ?_⟩
      simp [Parts.text,Parts.plain,partsOf,no_minus,zero]

/-- The flags after all conflicts between them. -/
theorem flag_member {flags : Flags} {text : List Byte} :
    ((text.foldl (fun flags ch => (flag ch flags).getD flags) flags).MINUS = true ↔ flags.MINUS = true ∨ char '-' ∈ text) ∧
    ((text.foldl (fun flags ch => (flag ch flags).getD flags) flags).ZERO = true ↔ flags.ZERO = true ∨ char '0' ∈ text) := by
  induction text generalizing flags with
  | nil => simp
  | cons ch text ih =>
    obtain ⟨minus,zero⟩ := @ih ((flag ch flags).getD flags)
    have one : (((flag ch flags).getD flags).MINUS = true ↔ flags.MINUS = true ∨ char '-' = ch) ∧
        (((flag ch flags).getD flags).ZERO = true ↔ flags.ZERO = true ∨ char '0' = ch) := by
      have other : ∀ {flag ch : Byte} {was : Prop}, flag ≠ ch → (was ↔ was ∨ flag = ch) := fun different =>
        ⟨.inl,fun either => either.resolve_right different⟩
      rw [flag]
      split_ifs with is_minus is_plus is_space is_pound is_zero is_group
      · exact ⟨iff_of_true rfl (.inr is_minus.symm),other (by rw [is_minus]; decide)⟩
      · exact ⟨other (by rw [is_plus]; decide),other (by rw [is_plus]; decide)⟩
      · exact ⟨other (by rw [is_space]; decide),other (by rw [is_space]; decide)⟩
      · exact ⟨other (by rw [is_pound]; decide),other (by rw [is_pound]; decide)⟩
      · exact ⟨other (by rw [is_zero]; decide),iff_of_true rfl (.inr is_zero.symm)⟩
      · exact ⟨other (by rw [is_group]; decide),other (by rw [is_group]; decide)⟩
      · exact ⟨other (Ne.symm is_minus),other (Ne.symm is_zero)⟩
    rw [List.foldl_cons,minus,zero,one.1,one.2,List.mem_cons,List.mem_cons,or_assoc,or_assoc]
    exact ⟨Iff.rfl,Iff.rfl⟩

theorem word_negative_iff (w : Word) : w.slt 0 = true ↔ w.toInt < 0 := BitVec.slt_iff_toInt_lt

/-- A width in the text is not negative. -/
theorem width_negative_iff (spec : Specification) (args : Args) :
    (spec.widthWord args).slt 0 = true ↔ spec.width = .star ∧ (args 0).toInt < 0 := by
  rw [Specification.widthWord]
  cases width : spec.width with
  | star => exact (word_negative_iff _).trans ⟨fun negative => ⟨rfl,negative⟩,fun both => both.2⟩
  | literal digits are_digits small =>
    refine iff_of_false (fun negative => ?_) fun both => by cases both.1
    have large := (slt_zero_iff _).mp negative
    change 2 ^ 31 ≤ (BitVec.ofNat 32 (valueOf digits)).toNat at large
    rw [BitVec.toNat_ofNat,Nat.mod_eq_of_lt (by omega)] at large
    omega

theorem minus_passed (spec : Specification) (args : Args) :
    (spec.passed args).flags.MINUS = true ↔ spec.OnRight args := by
  have given := (@flag_member noFlags spec.flags).1
  change (spec.flagSet.MINUS || (spec.widthWord args).slt 0) = true ↔ _
  rw [Bool.or_eq_true,width_negative_iff,Specification.OnRight]
  refine or_congr (given.trans ?_) Iff.rfl
  exact ⟨fun either => either.resolve_left (by decide),.inr⟩

theorem zero_passed (spec : Specification) (args : Args) : (spec.passed args).flags.ZERO = true ↔
    char '0' ∈ spec.flags ∧ char '-' ∉ spec.flags ∧ (spec.precisionWord args).toInt < 0 := by
  obtain ⟨minus,zero⟩ := @flag_member noFlags spec.flags
  have given : spec.flagSet.ZERO = true ↔ char '0' ∈ spec.flags :=
    zero.trans ⟨fun either => either.resolve_left (by decide),.inr⟩
  have not_minus : spec.flagSet.MINUS = false ↔ char '-' ∉ spec.flags := by
    rw [Bool.eq_false_iff]
    exact not_congr (minus.trans ⟨fun either => either.resolve_left (by decide),.inr⟩)
  change ((spec.flagSet.ZERO && !spec.flagSet.MINUS) && (spec.precisionWord args).slt 0) = true ↔ _
  rw [Bool.and_eq_true,Bool.and_eq_true,Bool.not_eq_true',given,not_minus,word_negative_iff,and_assoc]

/-- The flags `-` and `0` are both passed on exactly if they clash. -/
theorem clash_iff (spec : Specification) (args : Args) :
    ((spec.passed args).flags.MINUS = true ∧ (spec.passed args).flags.ZERO = true) ↔ spec.Clash args := by
  rw [minus_passed,zero_passed,Specification.OnRight,Specification.Clash]
  constructor
  · rintro ⟨right,zero,not_minus,no_precision⟩
    obtain ⟨star,negative⟩ := right.resolve_left not_minus
    exact ⟨zero,not_minus,star,negative,no_precision⟩
  · rintro ⟨zero,not_minus,star,negative,no_precision⟩
    exact ⟨.inr ⟨star,negative⟩,zero,not_minus,no_precision⟩

/-- The width passed on is the magnitude of that asked for. -/
theorem width_passed (spec : Specification) (args : Args) (above : spec.width = .star → -2 ^ 31 < (args 0).toInt) :
    (spec.passed args).width.toNat = (spec.widthWord args).toInt.natAbs ∧ (spec.passed args).width.toNat < 2 ^ 31 := by
  change (if (spec.widthWord args).slt 0 then -spec.widthWord args else spec.widthWord args).toNat = _ ∧
    (if (spec.widthWord args).slt 0 then -spec.widthWord args else spec.widthWord args).toNat < _
  have sign := word_negative_iff (spec.widthWord args)
  have bound := (spec.widthWord args).isLt
  by_cases negative : (spec.widthWord args).slt 0
  · obtain ⟨star,-⟩ := (width_negative_iff spec args).mp negative
    have least : -2 ^ 31 < (spec.widthWord args).toInt := by
      rw [Specification.widthWord,star]
      exact above star
    have below := sign.mp negative
    rw [if_pos negative,BitVec.toNat_neg]
    rw [BitVec.toInt_eq_toNat_cond] at least below ⊢
    split at below <;> split at least <;> omega
  · have small := Nat.lt_of_not_le fun large => negative ((slt_zero_iff _).mpr large)
    rw [if_neg negative,BitVec.toInt_eq_toNat_cond,if_pos (by omega)]
    exact ⟨rfl,small⟩

/-- What the parser passes on is what the specification says. -/
theorem passed_of_parsed {c : printf_conversion} {value_args : Args}
    (parsed : ∀ rest, parse_conversion (spec.text ++ spec.conv :: rest) args = some (spec.conv :: rest,c,value_args)) :
    c = spec.passed args :=
  congrArg (fun parsed => parsed.2.1) (Option.some.inj ((parsed []).symm.trans (parse_conversion_spec spec args [])))

theorem percent_specification {printf : List Byte → Args → Option (List Byte)} :
    percent memory printf (spec.text ++ spec.conv :: rest) args =
    convert_rest memory printf (spec.text ++ spec.conv :: rest) args := by
  have parsed := parse_conversion_spec spec args rest
  cases shape : spec.text ++ spec.conv :: rest with
  | nil => exact absurd (congrArg List.length shape) (by simp)
  | cons first others =>
    refine percent_cons fun sign => ?_
    rw [shape,sign] at parsed
    -- a percent sign is left as the character of the conversion
    have same : parse_conversion (char '%' :: others) args =
      some (char '%' :: others,conversion noFlags 0 (-1) .INT,args) := rfl
    have first_left := congrArg (fun parsed => parsed.1.head?) (Option.some.inj (same.symm.trans parsed))
    have integer := spec.integer
    rw [← Option.some.inj first_left] at integer
    exact absurd integer (by decide)

/-- Field widths are exact unless a negative width meets the flag `0`. -/
theorem width_exact_iff (spec : Specification) (args : Args) (above : spec.width = .star → -2 ^ 31 < (args 0).toInt) :
    Exact spec args ↔ ¬ spec.Clash args := by
  constructor
  · rintro ⟨c,value_args,args',plain,out,parsed,apart,-⟩ clash
    rw [passed_of_parsed parsed] at apart
    exact apart ((clash_iff spec args).mpr clash)
  · intro no_clash
    have apart : ¬ ((spec.passed args).flags.MINUS = true ∧ (spec.passed args).flags.ZERO = true) :=
      fun both => no_clash ((clash_iff spec args).mp both)
    obtain ⟨width,below⟩ := width_passed spec args above
    obtain ⟨value,is_signed,negative,b,args',base,converts⟩ := convert_integer spec.integer spec.type (spec.valueArgs args)
    obtain ⟨zeros,text,plain⟩ := format_integer_unpadded (table_of_base base) value is_signed negative (spec.passed args) below
    have filled := @text_filled value is_signed negative b (spec.passed args) apart zeros (spec.passed args).width.toNat
    generalize (partsOf value is_signed negative b (spec.passed args) zeros ((spec.passed args).width.toNat - _)).text = out
      at text filled
    generalize (partsOf value is_signed negative b (spec.passed args) zeros 0).plain = unpadded at plain filled
    refine ⟨spec.passed args,spec.valueArgs args,args',unpadded,out,parse_conversion_spec spec args,apart,
      fun memory printf => ?_,fun memory fuel rest => ?_,?_⟩
    · rw [converts memory printf _ rfl,plain]
      rfl
    · rw [vprintf_percent,percent_specification,convert_rest,parse_conversion_spec,Option.bind_some]
      change ((convert memory (__vprintf memory fuel) spec.conv (spec.passed args) (spec.valueArgs args)).bind fun done =>
        (__vprintf memory fuel rest done.2).map (done.1 ++ ·)) = _
      rw [converts memory _ _ rfl,text]
      rfl
    · rw [← width]
      exact ⟨filled.1,fun right => filled.2.1 ((minus_passed spec args).mpr right),
        fun not_right => filled.2.2 fun minus => not_right ((minus_passed spec args).mp minus)⟩

/-- `%-08d` with a width of 8. -/
def left_spec : Specification where
  flags := chars "-0"
  width := .literal (chars "8") (by decide) (by decide)
  precision := none
  type := .INT
  conv := char 'd'
  are_flags := by decide
  no_zero := by decide
  integer := by decide

theorem width_exact_left : Exact left_spec (fun _ => 7) :=
  (width_exact_iff left_spec (fun _ => 7) (fun star => by cases star)).mpr fun clash => clash.2.1 (by decide)

/-- `%0*d`. -/
def zero_star : Specification where
  flags := chars "0"
  width := .star
  precision := none
  type := .INT
  conv := char 'd'
  are_flags := by decide
  no_zero := by decide
  integer := by decide

/-- The number 7 in a field of width -5 is padded on both sides. -/
theorem width_padded_twice : ¬ Exact zero_star (fun k => if k = 0 then -5 else 7) ∧
    __vprintf (fun _ => 0) 3 (chars "%0*d" ++ [0]) (fun k => if k = 0 then -5 else 7) = some (chars "00007    ") := by
  constructor
  · rintro ⟨c,value_args,args',plain,out,parsed,apart,-⟩
    rw [passed_of_parsed parsed] at apart
    exact apart (by decide)
  · decide +kernel

end Pintos.FieldWidths
