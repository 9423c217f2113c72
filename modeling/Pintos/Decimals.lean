import Pintos.IntegerFormats

/-!
`atoi` of `lib/stdlib.c` reads what `%d` prints. An `int` that overflows has no value, and reading
past the null byte has no result.
-/
namespace Pintos.Decimals
open Pintos.Bitmaps (Byte)
open Pintos.Printf Pintos.IntegerFormats
set_option linter.unusedSimpArgs false

def isspace (ch : Byte) : Prop := ch = char ' ' ∨ ch = 12 ∨ ch = 10 ∨ ch = 13 ∨ ch = 9 ∨ ch = 11

instance : DecidablePred isspace := fun ch =>
  inferInstanceAs (Decidable (ch = char ' ' ∨ ch = 12 ∨ ch = 10 ∨ ch = 13 ∨ ch = 9 ∨ ch = 11))

/-- The value of an expression of type `int`. -/
def int (n : Int) : Option Int := if -2 ^ 31 ≤ n ∧ n < 2 ^ 31 then some n else none

def skip_space : List Byte → Option (List Byte)
  | [] => none
  | ch :: s => if isspace ch then skip_space s else some (ch :: s)

/-- Whether there is a minus sign, and what is behind the sign. -/
def parse_sign : List Byte → Option (Bool × List Byte)
  | [] => none
  | ch :: s => if ch = char '+' then some (false,s) else if ch = char '-' then some (true,s) else some (false,ch :: s)

/-- The digits are subtracted. -/
def digit_loop : List Byte → Int → Option Int
  | [], _ => none
  | ch :: s, value =>
    if isdigit ch then
      (int (value * 10)).bind fun shifted => (int (shifted - (ch.toNat - 48))).bind fun value => digit_loop s value
    else some value

def atoi (s : List Byte) : Option Int :=
  (skip_space s).bind fun s =>
  (parse_sign s).bind fun signed =>
  (digit_loop signed.2 0).bind fun value => if signed.1 then some value else int (-value)

variable {ds : List Nat} {v : Int} {rest spaces s : List Byte} {n : Word} {memory : Memory} {args : Args} {fuel : Nat}

/-- The character of a digit. -/
def digitChar (d : Nat) : Byte := base_d.digits.getD d 0

theorem digitChar_number : ∀ d < 10, isdigit (digitChar d) ∧ (digitChar d).toNat = 48 + d ∧ ¬ isspace (digitChar d) ∧
    digitChar d ≠ char '+' ∧ digitChar d ≠ char '-' := by decide

/-- Digits that stand for a number are read as its negative, as long as this is an `int`. -/
theorem digit_loop_spec (digits : ∀ d ∈ ds, d < 10) (nonpositive : v ≤ 0)
    (fits : -2 ^ 31 ≤ v * 10 ^ ds.length - (Nat.ofDigits 10 ds : Nat)) :
    digit_loop ((ds.map digitChar).reverse ++ rest) v = digit_loop rest (v * 10 ^ ds.length - (Nat.ofDigits 10 ds : Nat)) := by
  induction ds generalizing rest with
  | nil => simp [Nat.ofDigits]
  | cons d ds ih =>
    obtain ⟨is_digit,number,-⟩ := digitChar_number d (digits d List.mem_cons_self)
    have whole : v * 10 ^ (d :: ds).length - (Nat.ofDigits 10 (d :: ds) : Nat) =
        (v * 10 ^ ds.length - (Nat.ofDigits 10 ds : Nat)) * 10 - d := by
      rw [List.length_cons,pow_succ,Nat.ofDigits_cons]
      push_cast
      ring
    have before : v * 10 ^ ds.length - (Nat.ofDigits 10 ds : Nat) ≤ 0 := by
      have scaled : v * 10 ^ ds.length ≤ 0 := mul_nonpos_of_nonpos_of_nonneg nonpositive (by positivity)
      omega
    rw [whole] at fits ⊢
    generalize shift : v * 10 ^ ds.length - (Nat.ofDigits 10 ds : Nat) = w at fits before ⊢
    rw [List.map_cons,List.reverse_cons,List.append_assoc,ih (fun d' later => digits d' (List.mem_cons_of_mem d later))
      (by omega),shift,List.singleton_append,digit_loop,if_pos is_digit,int,if_pos (by omega),Option.bind_some,number,int,
      if_pos (by omega),Option.bind_some]
    congr 1
    omega

theorem skip_space_spec (white : ∀ ch ∈ spaces, isspace ch) : skip_space (spaces ++ s) = skip_space s := by
  induction spaces with
  | nil => rfl
  | cons ch spaces ih =>
    rw [List.cons_append,skip_space,if_pos (white ch List.mem_cons_self)]
    exact ih fun ch' later => white ch' (List.mem_cons_of_mem ch later)

/-- The digits of a number, of which there is at least one. -/
def decimal (k : Nat) : List Nat := if k = 0 then [0] else Nat.digits 10 k

theorem decimal_digits {k : Nat} : (∀ d ∈ decimal k, d < 10) ∧ (Nat.ofDigits 10 (decimal k) : Nat) = k ∧ decimal k ≠ [] := by
  rw [decimal]
  by_cases zero : k = 0
  · rw [if_pos zero,zero]
    exact ⟨by decide,rfl,by decide⟩
  · rw [if_neg zero]
    exact ⟨fun d digit => Nat.digits_lt_base (by decide) digit,Nat.ofDigits_digits 10 k,Nat.digits_ne_nil_iff_ne_zero.mpr zero⟩

/-- What is read is the number with its sign. -/
theorem atoi_decimal {k : Nat} {negative : Bool} (white : ∀ ch ∈ spaces, isspace ch)
    (fits : if negative then k ≤ 2 ^ 31 else k < 2 ^ 31) :
    atoi (spaces ++ ((if negative then [char '-'] else []) ++ ((decimal k).map digitChar).reverse) ++ [0]) =
      some (if negative then -(k : Int) else k) := by
  obtain ⟨digits,number,nonempty⟩ := @decimal_digits k
  obtain ⟨d,ds,last⟩ : ∃ d ds, (decimal k).reverse = d :: ds :=
    List.exists_cons_of_ne_nil (fun none_ => nonempty (List.reverse_eq_nil_iff.mp none_))
  have text : ((decimal k).map digitChar).reverse = digitChar d :: ds.map digitChar := by
    rw [← List.map_reverse,last]
    rfl
  have below := digits d (List.mem_reverse.mp (by rw [last]; exact List.mem_cons_self))
  obtain ⟨-,-,no_space,no_plus,no_minus⟩ := digitChar_number d below
  have read : digit_loop (((decimal k).map digitChar).reverse ++ [0]) 0 = some (-(k : Int)) := by
    rw [digit_loop_spec digits (Int.le_refl 0) (by rw [number]; split at fits <;> omega),number,digit_loop,
      if_neg (by decide)]
    simp
  rw [atoi,List.append_assoc,skip_space_spec white]
  cases negative with
  | true =>
    rw [if_pos rfl,List.singleton_append,List.cons_append,skip_space,if_neg (by decide),Option.bind_some,parse_sign,
      if_neg (by decide),if_pos rfl,Option.bind_some,read]
    rfl
  | false =>
    rw [if_neg Bool.false_ne_true] at fits
    rw [if_neg Bool.false_ne_true,List.nil_append,text,List.cons_append,skip_space,if_neg no_space,Option.bind_some,
      parse_sign,if_neg no_plus,if_neg no_minus,
      Option.bind_some,← List.cons_append,← text,read,Option.bind_some,if_neg Bool.false_ne_true,Int.neg_neg,int,
      if_pos (by omega)]
    rfl

/-- The conversion of `%d`. -/
def plain_d : printf_conversion := ⟨noFlags,0,-1,.INT⟩

theorem format_integer_plain (value : BitVec 64) (negative : Bool) :
    format_integer value true negative base_d plain_d =
      some ((if negative then [char '-'] else []) ++ ((decimal value.toNat).map digitChar).reverse) := by
  obtain ⟨zeros,printed,-,exact_,-⟩ := format_integer_spec (table_of_base (.inl rfl)) value true negative plain_d
    (show (0 : Word).toNat < 2 ^ 31 by decide)
  have body : bodyText value base_d plain_d = (Nat.digits 10 value.toNat).map digitChar :=
    Pintos.Numerals.separate_ungrouped
  have digits : List.replicate zeros (char '0') ++ (bodyText value base_d plain_d).reverse =
      ((decimal value.toNat).map digitChar).reverse := by
    rw [exact_ (by decide),body,List.length_map,decimal,show min (atLeast plain_d) 63 = 1 from rfl]
    by_cases zero : value.toNat = 0
    · rw [if_pos zero,zero,Nat.digits_zero]
      rfl
    · have positive := List.length_pos_iff.mpr (Nat.digits_ne_nil_iff_ne_zero.mpr zero : Nat.digits 10 value.toNat ≠ [])
      rw [if_neg zero,Nat.sub_eq_zero_of_le (by omega),List.replicate_zero,List.nil_append]
  have sign : (if signOf true negative plain_d.flags ≠ 0 then [signOf true negative plain_d.flags] else []) =
      if negative then [char '-'] else [] := by cases negative <;> rfl
  rw [printed,show plain_d.width.toNat = 0 from rfl,Nat.zero_sub,text_unpadded,Parts.plain]
  refine congrArg some ?_
  simp only [partsOf,sign]
  rw [← digits]
  simp [plain_d,noFlags]

theorem vprintf_d (fuel : Nat) : __vprintf memory (fuel + 2) (chars "%d" ++ [0]) args =
    format_integer (if ((args 0).signExtend 64).slt 0 then -(args 0).signExtend 64 else (args 0).signExtend 64) true
      (((args 0).signExtend 64).slt 0) base_d plain_d := by
  have value : (signed_arg plain_d.type args).1 = (args 0).signExtend 64 := rfl
  refine (@vprintf_single memory fuel (char 'd') (char 'd') [0] args args plain_d (by decide) rfl).trans ?_
  rw [convert,if_pos (.inl rfl)]
  simp only [value]
  cases format_integer (if ((args 0).signExtend 64).slt 0 then -(args 0).signExtend 64 else (args 0).signExtend 64) true
      (((args 0).signExtend 64).slt 0) base_d plain_d with
  | none => rfl
  | some out => rfl

/-- The sign and the magnitude of an `int` as `intmax_t` and `uintmax_t`. -/
theorem magnitude (w : Word) : ((w.signExtend 64).slt 0 = true ↔ w.toInt < 0) ∧
    (if (w.signExtend 64).slt 0 then -w.signExtend 64 else w.signExtend 64).toNat = w.toInt.natAbs := by
  have wide : (w.signExtend 64).toInt = w.toInt := BitVec.toInt_signExtend_of_le (by decide)
  have low := BitVec.le_toInt w
  have high := BitVec.toInt_lt (x := w)
  have negative : (w.signExtend 64).slt 0 = true ↔ w.toInt < 0 := by
    rw [BitVec.slt_iff_toInt_lt,wide]
    rfl
  refine ⟨negative,?_⟩
  by_cases minus : w.toInt < 0
  · rw [if_pos (negative.mpr minus)]
    rw [BitVec.toInt_eq_toNat_cond] at wide
    have bound := (w.signExtend 64).isLt
    rw [BitVec.toNat_neg]
    split at wide <;> omega
  · rw [if_neg (fun is => minus (negative.mp is))]
    rw [BitVec.toInt_eq_toNat_cond] at wide
    have bound := (w.signExtend 64).isLt
    split at wide <;> omega

/-- What `%d` prints of an `int` is read as that number by `atoi`, behind any white space. -/
theorem atoi_reads_back (memory : Memory) (args : Args) (spaces : List Byte) (white : ∀ ch ∈ spaces, isspace ch) :
    ∃ out, (∀ fuel ≥ 2, __vprintf memory fuel (chars "%d" ++ [0]) args = some out) ∧
      atoi (spaces ++ out ++ [0]) = some (args 0).toInt := by
  obtain ⟨negative,absolute⟩ := magnitude (args 0)
  have low := BitVec.le_toInt (args 0)
  have high := BitVec.toInt_lt (x := args 0)
  refine ⟨(if ((args 0).signExtend 64).slt 0 then [char '-'] else []) ++
    ((decimal (args 0).toInt.natAbs).map digitChar).reverse,fun fuel enough => ?_,?_⟩
  · obtain ⟨fuel,rfl⟩ := Nat.exists_eq_add_of_le' enough
    rw [vprintf_d,format_integer_plain,absolute]
  · by_cases minus : (args 0).toInt < 0
    · rw [negative.mpr minus,atoi_decimal white (by rw [if_pos rfl]; omega),if_pos rfl]
      congr 1
      omega
    · rw [Bool.eq_false_iff.mpr (fun is => minus (negative.mp is)),
        atoi_decimal white (by rw [if_neg Bool.false_ne_true]; omega),if_neg Bool.false_ne_true]
      congr 1
      omega

theorem atoi_reads_back_least : ∃ out, (∀ fuel ≥ 2,
    __vprintf (fun _ => 0) fuel (chars "%d" ++ [0]) (fun _ => 0x80000000) = some out) ∧
    atoi ([9,char ' '] ++ out ++ [0]) = some (0x80000000 : Word).toInt :=
  atoi_reads_back (fun _ => 0) (fun _ => 0x80000000) [9,char ' '] (by decide)

end Pintos.Decimals
