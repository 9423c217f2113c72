import Pintos.Printf
import Pintos.Numerals

/-!
What `format_integer` outputs: the parts of the text, and the number that they stand for.
-/
namespace Pintos.IntegerFormats
open Pintos.Bitmaps (Byte)
open Pintos.Printf Pintos.Numerals
set_option linter.unusedSimpArgs false

/-- What the loops need of a base. -/
structure Table (b : integer_base) : Prop where
  base : 8 ≤ b.base
  group : 0 < b.group
  comma : ∀ d < b.base, b.digits.getD d 0 ≠ char ','
  index : ∀ d < b.base, b.digits.idxOf (b.digits.getD d 0) = d
  zero : b.digits.getD 0 0 = char '0'
  letter : b.x ≠ 0 ↔ b.base = 16

theorem table_of_base {b : integer_base} (base : b = base_d ∨ b = base_o ∨ b = base_x ∨ b = base_X) : Table b := by
  rcases base with rfl | rfl | rfl | rfl
  · exact ⟨by decide,by decide,by decide,by decide,by decide,by decide⟩
  · exact ⟨by decide,by decide,by decide,by decide,by decide,by decide⟩
  · exact ⟨by decide,by decide,by decide,by decide,by decide,by decide⟩
  · exact ⟨by decide,by decide,by decide,by decide,by decide,by decide⟩

/-- The characters of the digits, from the least significant on. -/
def digitsText (value : BitVec 64) (b : integer_base) : List Byte :=
  (Nat.digits b.base value.toNat).map fun d => b.digits.getD d 0

/-- The digits with their separators, in the order of the buffer. -/
def bodyText (value : BitVec 64) (b : integer_base) (c : printf_conversion) : List Byte :=
  separate (char ',') (if c.flags.GROUP then b.group else 0) 0 (digitsText value b)

/-- The number of digits asked for. -/
def atLeast (c : printf_conversion) : Nat := if c.precision.slt 0 then 1 else c.precision.toNat

variable {value : BitVec 64} {is_signed negative : Bool} {b : integer_base} {c : printf_conversion} {buf : List Byte}
  {fuel n cnt k : Nat}

/-! ### Words -/

theorem slt_zero_iff (w : Word) : w.slt 0 = true ↔ 2 ^ 31 ≤ w.toNat := by
  have bound := w.isLt
  rw [BitVec.slt_iff_toInt_lt,BitVec.toInt_eq_toNat_cond,show (0 : Word).toInt = 0 from rfl]
  split <;> omega

theorem ofNat_slt_iff {p : Word} (small : n < 2 ^ 31) (nonnegative : p.toNat < 2 ^ 31) :
    (BitVec.ofNat 32 n).slt p = true ↔ n < p.toNat := by
  rw [BitVec.slt_iff_toInt_lt,BitVec.toInt_eq_toNat_cond,BitVec.toInt_eq_toNat_cond,BitVec.toNat_ofNat,
    Nat.mod_eq_of_lt (by omega),if_pos (by omega),if_pos (by omega)]
  exact Int.ofNat_lt

/-- What is missing of a width, or nothing. -/
theorem pad_number {w d : Word} (nonnegative : w.toNat < 2 ^ 31) (small : d.toNat < 2 ^ 31) :
    (if (w - d).slt 0 then 0 else w - d).toNat = w.toNat - d.toNat := by
  by_cases enough : d.toNat ≤ w.toNat
  · have exact_ := BitVec.toNat_sub_of_le (BitVec.le_def.mpr enough)
    rw [if_neg (fun below => absurd ((slt_zero_iff _).mp below) (by omega)),exact_]
  · have wrapped : (w - d).toNat = 2 ^ 32 - d.toNat + w.toNat := by
      rw [BitVec.toNat_sub,Nat.mod_eq_of_lt (by omega)]
    rw [if_pos ((slt_zero_iff _).mpr (by omega)),Nat.sub_eq_zero_of_le (by omega)]
    rfl

/-! ### Digits -/

theorem push_spec (ch : Byte) (room : buf.length < 64) : push ch buf = some (buf ++ [ch]) := if_pos room

/-- The loop appends the digits, and a separator before each further group. -/
theorem digitLoop_spec (table : Table b) (group : Bool) (fits : n < b.base ^ k) (turns : k < fuel)
    (room : buf.length + 2 * k ≤ 64) :
    digitLoop b group fuel n cnt buf = some (buf ++ separate (char ',') (if group then b.group else 0) cnt
      ((Nat.digits b.base n).map fun d => b.digits.getD d 0)) := by
  have base := table.base
  induction fuel generalizing n cnt buf k with
  | zero => omega
  | succ fuel ih =>
    rw [digitLoop]
    by_cases zero : n = 0
    · rw [if_neg (by omega),zero,Nat.digits_zero,List.map_nil,separate,List.append_nil]
    · obtain ⟨k,rfl⟩ : ∃ j, k = j + 1 := Nat.exists_eq_succ_of_ne_zero fun none_ => by
        rw [none_,Nat.pow_zero] at fits
        omega
      have rest : n / b.base < b.base ^ k := Nat.div_lt_of_lt_mul (by rwa [Nat.pow_succ,Nat.mul_comm] at fits)
      rw [if_pos (by omega),Nat.digits_def' (by omega) (by omega),List.map_cons,separate]
      by_cases new_group : group = true ∧ cnt > 0 ∧ cnt % b.group = 0
      · have comma : 0 < cnt ∧ cnt % (if group = true then b.group else 0) = 0 := by
          rw [if_pos new_group.1]
          exact new_group.2
        rw [if_pos new_group,if_pos comma,push_spec _ (by omega),Option.bind_some,
          push_spec _ (by rw [List.length_append,List.length_singleton]; omega),Option.bind_some,
          ih rest (by omega) (by simp only [List.length_append,List.length_singleton]; omega)]
        simp only [List.append_assoc,List.cons_append,List.nil_append]
      · have no_comma : ¬ (0 < cnt ∧ cnt % (if group = true then b.group else 0) = 0) := by
          intro both
          cases group with
          | true => exact new_group ⟨rfl,both⟩
          | false =>
            rw [if_neg (by decide),Nat.mod_zero] at both
            omega
        rw [if_neg new_group,if_neg no_comma,Option.bind_some,push_spec _ (by omega),Option.bind_some,
          ih rest (by omega) (by rw [List.length_append,List.length_singleton]; omega)]
        simp only [List.append_assoc,List.cons_append,List.nil_append]

theorem zeroLoop_spec {precision : Word} (nonnegative : precision.toNat < 2 ^ 31) (turns : 63 - buf.length < fuel) :
    zeroLoop precision fuel buf =
      some (buf ++ List.replicate (min precision.toNat 63 - buf.length) (char '0')) := by
  induction fuel generalizing buf with
  | zero => omega
  | succ fuel ih =>
    rw [zeroLoop]
    by_cases more : buf.length < precision.toNat ∧ buf.length < 63
    · obtain ⟨below,room⟩ := more
      rw [if_pos ⟨(ofNat_slt_iff (by omega) nonnegative).mpr below,room⟩,push_spec _ (by omega),Option.bind_some,
        ih (by rw [List.length_append,List.length_singleton]; omega),List.append_assoc,List.length_append,
        List.length_singleton,List.singleton_append,← List.replicate_succ]
      congr 3
      omega
    · have none_left : min precision.toNat 63 - buf.length = 0 := by omega
      rw [none_left,List.replicate_zero,List.append_nil,if_neg]
      intro both
      exact more ⟨(ofNat_slt_iff (by omega) nonnegative).mp both.1,both.2⟩

theorem body_length (table : Table b) : (bodyText value b c).length ≤ 44 := by
  have digits : (Nat.digits b.base value.toNat).length ≤ 22 := by
    refine (Nat.digits_length_le_iff (by have := table.base; omega) _).mpr (Nat.lt_of_lt_of_le value.isLt ?_)
    exact Nat.le_trans (by decide) (Nat.pow_le_pow_left table.base 22)
  refine Nat.le_trans separate_length ?_
  rw [digitsText,List.length_map]
  omega

/-- The buffer is large enough for the digits and the zeros that follow. -/
theorem digitsOf_spec (table : Table b) (value : BitVec 64) (c : printf_conversion) :
    ∃ zeros, digitsOf value b c = some (bodyText value b c ++ List.replicate zeros (char '0')) ∧
      (bodyText value b c).length + zeros ≤ 64 ∧
      (¬ c.flags.POUND → zeros = min (atLeast c) 63 - (bodyText value b c).length) := by
  have digits : digitLoop b c.flags.GROUP 65 value.toNat 0 [] = some (bodyText value b c) := by
    have fits : value.toNat < b.base ^ 22 :=
      Nat.lt_of_lt_of_le value.isLt (Nat.le_trans (by decide) (Nat.pow_le_pow_left table.base 22))
    rw [digitLoop_spec table c.flags.GROUP fits (by decide) (by decide),List.nil_append]
    rfl
  have length := @body_length value b c table
  have precision : (if c.precision.slt 0 then 1 else c.precision).toNat = atLeast c ∧
      (if c.precision.slt 0 then 1 else c.precision).toNat < 2 ^ 31 := by
    rw [atLeast]
    by_cases absent : c.precision.slt 0
    · rw [if_pos absent,if_pos absent]
      exact ⟨rfl,by decide⟩
    · rw [if_neg absent,if_neg absent]
      exact ⟨rfl,Nat.lt_of_not_le fun large => absent ((slt_zero_iff _).mpr large)⟩
  rw [digitsOf,digits,Option.bind_some,zeroLoop_spec precision.2 (by omega),Option.bind_some,precision.1]
  by_cases octal : c.flags.POUND ∧ b.base = 8 ∧
      (bodyText value b c ++ List.replicate (min (atLeast c) 63 - (bodyText value b c).length) (char '0') = [] ∨
        (bodyText value b c ++ List.replicate (min (atLeast c) 63 - (bodyText value b c).length) (char '0')).getLast? ≠
          some (char '0'))
  · rw [if_pos octal,push_spec _ (by rw [List.length_append,List.length_replicate]; omega),List.append_assoc,
      ← List.replicate_succ']
    exact ⟨_,rfl,by omega,fun plain => absurd octal.1 plain⟩
  · rw [if_neg octal]
    exact ⟨_,rfl,by omega,fun _ => rfl⟩

/-! ### The text -/

/-- The parts of an output, in their order. -/
structure Parts where
  left : List Byte
  sign : List Byte
  x : List Byte
  fill : List Byte
  zeros : List Byte
  body : List Byte
  right : List Byte

def Parts.text (p : Parts) : List Byte := p.left ++ p.sign ++ p.x ++ p.fill ++ p.zeros ++ p.body ++ p.right

/-- The text without padding. -/
def Parts.plain (p : Parts) : List Byte := p.sign ++ p.x ++ p.zeros ++ p.body

/-- What the digits of a text stand for in a base. -/
def numberOf (b : integer_base) (text : List Byte) : Nat :=
  Nat.ofDigits b.base ((text.filter (· ≠ char ',')).reverse.map b.digits.idxOf)

/-- Each part is what it should be; the value is read back from the digits. -/
structure Faithful (value : BitVec 64) (is_signed negative : Bool) (b : integer_base) (flags : Flags) (p : Parts) : Prop where
  left : ∀ ch ∈ p.left, ch = char ' '
  fill : ∀ ch ∈ p.fill, ch = char '0'
  right : ∀ ch ∈ p.right, ch = char ' '
  padding : if flags.MINUS then p.left = [] ∧ p.fill = [] else if flags.ZERO then p.left = [] ∧ p.right = []
    else p.fill = [] ∧ p.right = []
  sign : p.sign = if signOf is_signed negative flags ≠ 0 then [signOf is_signed negative flags] else []
  x : p.x = if flags.POUND ∧ value ≠ 0 ∧ b.base = 16 then [char '0',b.x] else []
  zeros : ∀ ch ∈ p.zeros, ch = char '0'
  significant : ∀ ch, p.body.head? = some ch → ch ≠ char '0' ∧ ch ≠ char ','
  commas : ∀ i (inside : i < p.body.reverse.length),
    p.body.reverse[i] = char ',' ↔ flags.GROUP = true ∧ i % (b.group + 1) = b.group
  number : numberOf b (p.zeros ++ p.body) = value.toNat

/-- The parts that the conversion has. -/
def partsOf (value : BitVec 64) (is_signed negative : Bool) (b : integer_base) (c : printf_conversion) (zeros pad : Nat) :
    Parts where
  left := if ¬ c.flags.MINUS ∧ ¬ c.flags.ZERO then List.replicate pad (char ' ') else []
  sign := if signOf is_signed negative c.flags ≠ 0 then [signOf is_signed negative c.flags] else []
  x := if c.flags.POUND ∧ value ≠ 0 ∧ b.base = 16 then [char '0',b.x] else []
  fill := if c.flags.ZERO then List.replicate pad (char '0') else []
  zeros := List.replicate zeros (char '0')
  body := (bodyText value b c).reverse
  right := if c.flags.MINUS then List.replicate pad (char ' ') else []

theorem plain_partsOf (zeros pad pad' : Nat) :
    (partsOf value is_signed negative b c zeros pad).plain = (partsOf value is_signed negative b c zeros pad').plain := rfl

theorem plain_bounded {zeros pad : Nat} (room : (bodyText value b c).length + zeros ≤ 64) :
    (partsOf value is_signed negative b c zeros pad).plain.length ≤ 67 := by
  simp only [Parts.plain,partsOf,List.length_append,List.length_replicate,List.length_reverse]
  split <;> split <;> simp only [List.length_cons,List.length_nil] <;> omega

/-- The characters output are those parts, with the padding that is missing of the width. -/
theorem format_integer_spec (table : Table b) (value : BitVec 64) (is_signed negative : Bool) (c : printf_conversion)
    (wide : c.width.toNat < 2 ^ 31) :
    ∃ zeros, format_integer value is_signed negative b c = some (partsOf value is_signed negative b c zeros
        (c.width.toNat - (partsOf value is_signed negative b c zeros 0).plain.length)).text ∧
      (bodyText value b c).length + zeros ≤ 64 ∧
      (¬ c.flags.POUND → zeros = min (atLeast c) 63 - (bodyText value b c).length) ∧
      digitsOf value b c = some (bodyText value b c ++ List.replicate zeros (char '0')) := by
  obtain ⟨zeros,digits,room,exact_⟩ := digitsOf_spec table value c
  refine ⟨zeros,?_,room,exact_,digits⟩
  have bounded := @plain_bounded value is_signed negative b c zeros 0 room
  have letter : (if c.flags.POUND ∧ value ≠ 0 then b.x else 0) ≠ 0 ↔ c.flags.POUND ∧ value ≠ 0 ∧ b.base = 16 := by
    by_cases shown : c.flags.POUND ∧ value ≠ 0
    · rw [if_pos shown,table.letter]
      exact ⟨fun hex => ⟨shown.1,shown.2,hex⟩,fun all => all.2.2⟩
    · rw [if_neg shown]
      exact ⟨fun zero => absurd rfl zero,fun all => absurd ⟨all.1,all.2.1⟩ shown⟩
  have shown : (if c.flags.POUND ∧ value ≠ 0 ∧ b.base = 16 then [char '0',if c.flags.POUND ∧ value ≠ 0 then b.x else 0] else []) =
      if c.flags.POUND ∧ value ≠ 0 ∧ b.base = 16 then [char '0',b.x] else [] := by
    by_cases all : c.flags.POUND ∧ value ≠ 0 ∧ b.base = 16
    · rw [if_pos all,if_pos all,if_pos ⟨all.1,all.2.1⟩]
    · rw [if_neg all,if_neg all]
  obtain ⟨d,whole,number⟩ : ∃ d : Word, (∀ w : Word,
      w - BitVec.ofNat 32 (bodyText value b c ++ List.replicate zeros (char '0')).length -
        (if c.flags.POUND ∧ value ≠ 0 ∧ b.base = 16 then 2 else 0) - (if signOf is_signed negative c.flags ≠ 0 then 1 else 0) = w - d) ∧
      d.toNat = (partsOf value is_signed negative b c zeros 0).plain.length := by
    refine ⟨BitVec.ofNat 32 (partsOf value is_signed negative b c zeros 0).plain.length,fun w => ?_,?_⟩
    · simp only [Parts.plain,partsOf,List.length_append,List.length_replicate,List.length_reverse,BitVec.ofNat_add]
      split <;> split <;> simp only [List.length_cons,List.length_nil] <;> bv_omega
    · rw [BitVec.toNat_ofNat,Nat.mod_eq_of_lt (by omega)]
  rw [format_integer,digits]
  simp only [Option.map_some,letter,shown,whole,output_dup]
  rw [pad_number wide (by omega),number]
  simp only [Parts.text,partsOf,List.reverse_append,List.reverse_replicate,List.append_assoc]

theorem digits_have_no_comma (table : Table b) (value : BitVec 64) : char ',' ∉ digitsText value b := by
  intro member
  obtain ⟨d,digit,same⟩ := List.mem_map.mp member
  exact table.comma d (Nat.digits_lt_base (by have := table.base; omega) digit) same

/-- The digits are read back as the value, whatever zeros and separators there are. -/
theorem number_of_digits (table : Table b) (zeros : Nat) :
    numberOf b (List.replicate zeros (char '0') ++ (bodyText value b c).reverse) = value.toNat := by
  have base := table.base
  have no_comma := digits_have_no_comma table value
  have zero_index : b.digits.idxOf (char '0') = 0 := by
    rw [← table.zero]
    exact table.index 0 (by omega)
  have back : (digitsText value b).map b.digits.idxOf = Nat.digits b.base value.toNat := by
    rw [digitsText,List.map_map]
    refine (List.map_congr_left fun d digit => ?_).trans (List.map_id _)
    exact table.index d (Nat.digits_lt_base (by omega) digit)
  have not_comma : char '0' ≠ char ',' := by decide
  rw [numberOf,List.filter_append,List.filter_replicate,if_pos (decide_eq_true not_comma),List.filter_reverse,bodyText,
    separate_filter no_comma,List.reverse_append,List.reverse_reverse,List.reverse_replicate,List.map_append,back,
    List.map_replicate,zero_index,Nat.ofDigits_append,Nat.ofDigits_digits,Nat.ofDigits_replicate_zero]
  rfl

/-- The first digit is not zero. -/
theorem first_digit (table : Table b) {ch : Byte} (first : (bodyText value b c).getLast? = some ch) :
    ch ≠ char '0' ∧ ch ≠ char ',' := by
  have base := table.base
  rw [bodyText,separate_last,digitsText,List.getLast?_map,Option.map_eq_some_iff] at first
  obtain ⟨d,last,rfl⟩ := first
  have member := List.mem_of_getLast? last
  have below := Nat.digits_lt_base (by omega) member
  refine ⟨fun zero => ?_,table.comma d below⟩
  have index := table.index d below
  rw [zero,← table.zero,table.index 0 (by omega)] at index
  have some_digits : Nat.digits b.base value.toNat ≠ [] := List.ne_nil_of_mem member
  have significant := Nat.getLast_digit_ne_zero b.base (m := value.toNat) (fun none_ => some_digits (by rw [none_]; exact Nat.digits_zero _))
  rw [List.getLast?_eq_some_getLast some_digits,Option.some.injEq] at last
  exact significant (last.trans index.symm)

theorem commas_of_body (table : Table b) (i : Nat) (inside : i < (bodyText value b c).length) :
    (bodyText value b c)[i] = char ',' ↔ c.flags.GROUP = true ∧ i % (b.group + 1) = b.group := by
  have no_comma := digits_have_no_comma table value
  by_cases grouped : c.flags.GROUP
  · have text : bodyText value b c = separate (char ',') b.group 0 (digitsText value b) := by rw [bodyText,if_pos grouped]
    simp only [text] at inside ⊢
    rw [separate_from_first table.group no_comma i inside]
    exact ⟨fun place => ⟨grouped,place⟩,fun both => both.2⟩
  · have text : bodyText value b c = digitsText value b := by rw [bodyText,if_neg grouped,separate_ungrouped]
    simp only [text] at inside ⊢
    exact ⟨fun comma => absurd (by rw [← comma]; exact List.getElem_mem inside) no_comma,fun both => absurd both.1 grouped⟩

theorem partsOf_faithful (table : Table b) (apart : ¬ (c.flags.MINUS ∧ c.flags.ZERO)) (zeros pad : Nat) :
    Faithful value is_signed negative b c.flags (partsOf value is_signed negative b c zeros pad) := by
  have replicated : ∀ (ch : Byte) (shown : Prop) [Decidable shown],
      ∀ other ∈ (if shown then List.replicate pad ch else []), other = ch := by
    intro ch shown _ other member
    split at member
    · exact List.eq_of_mem_replicate member
    · cases member
  constructor
  case left => exact replicated _ _
  case fill => exact replicated _ _
  case right => exact replicated _ _
  case padding =>
    simp only [partsOf]
    by_cases minus : c.flags.MINUS
    · by_cases zero : c.flags.ZERO
      · exact absurd ⟨minus,zero⟩ apart
      · simp [minus,zero]
    · by_cases zero : c.flags.ZERO
      · simp [minus,zero]
      · simp [minus,zero]
  case sign => rfl
  case x => rfl
  case zeros => exact fun ch member => List.eq_of_mem_replicate member
  case significant =>
    intro ch first
    rw [partsOf,List.head?_reverse] at first
    exact first_digit table first
  case commas =>
    intro i inside
    simp only [partsOf,List.reverse_reverse] at inside ⊢
    exact commas_of_body table i inside
  case number => exact number_of_digits table zeros

theorem text_length (apart : ¬ (c.flags.MINUS ∧ c.flags.ZERO)) (zeros pad : Nat) :
    (partsOf value is_signed negative b c zeros pad).text.length =
      (partsOf value is_signed negative b c zeros 0).plain.length + pad := by
  simp only [Parts.text,Parts.plain,partsOf,List.length_append]
  by_cases minus : c.flags.MINUS
  · by_cases zero : c.flags.ZERO
    · exact absurd ⟨minus,zero⟩ apart
    · simp [minus,zero]
  · by_cases zero : c.flags.ZERO
    · simp [minus,zero]
      omega
    · simp [minus,zero]
      omega

/-- The text without padding is what a width of 0 gives. -/
theorem text_unpadded (zeros : Nat) :
    (partsOf value is_signed negative b c zeros 0).text = (partsOf value is_signed negative b c zeros 0).plain := by
  simp only [Parts.text,Parts.plain,partsOf,List.replicate_zero,ite_self,List.nil_append,List.append_nil]

/-- A conversion and the same conversion with a width of 0 differ in the padding only. -/
theorem format_integer_unpadded (table : Table b) (value : BitVec 64) (is_signed negative : Bool) (c : printf_conversion)
    (wide : c.width.toNat < 2 ^ 31) :
    ∃ zeros, format_integer value is_signed negative b c = some (partsOf value is_signed negative b c zeros
        (c.width.toNat - (partsOf value is_signed negative b c zeros 0).plain.length)).text ∧
      format_integer value is_signed negative b { c with width := 0 } =
        some (partsOf value is_signed negative b c zeros 0).plain := by
  obtain ⟨zeros,out,-,-,digits⟩ := format_integer_spec table value is_signed negative c wide
  obtain ⟨zeros',out',-,-,digits'⟩ := format_integer_spec table value is_signed negative { c with width := 0 }
    (show (0 : Word).toNat < 2 ^ 31 by decide)
  have same : zeros' = zeros := by
    have lengths := congrArg List.length (Option.some.inj (digits'.symm.trans digits))
    rw [List.length_append,List.length_append,List.length_replicate,List.length_replicate] at lengths
    exact Nat.add_left_cancel lengths
  subst same
  refine ⟨zeros',out,out'.trans (congrArg some ?_)⟩
  rw [show (0 : Word).toNat = 0 from rfl,Nat.zero_sub]
  exact text_unpadded zeros'

/-- The buffer is never exceeded, the text is as long as the width if it would be shorter, and its parts are
what they should be. -/
theorem format_integer_faithful (value : BitVec 64) (is_signed negative : Bool) (b : integer_base) (c : printf_conversion)
    (base : b = base_d ∨ b = base_o ∨ b = base_x ∨ b = base_X) (apart : ¬ (c.flags.MINUS ∧ c.flags.ZERO))
    (wide : 0 ≤ c.width.toInt) :
    ∃ p : Parts, format_integer value is_signed negative b c = some p.text ∧
      format_integer value is_signed negative b { c with width := 0 } = some p.plain ∧
      p.text.length = max c.width.toNat p.plain.length ∧ Faithful value is_signed negative b c.flags p := by
  have table := table_of_base base
  have below : c.width.toNat < 2 ^ 31 := by
    have bound := c.width.isLt
    rw [BitVec.toInt_eq_toNat_cond] at wide
    split at wide <;> omega
  obtain ⟨zeros,out,out'⟩ := format_integer_unpadded table value is_signed negative c below
  refine ⟨_,out,out',?_,partsOf_faithful table apart zeros _⟩
  rw [text_length apart,plain_partsOf zeros (c.width.toNat - _) 0]
  omega

/-- -1234 with separators, filled with zeros up to eight characters. -/
theorem format_integer_faithful_grouped :
    ∃ p : Parts, format_integer 1234 true true base_d ⟨{ noFlags with GROUP := true, ZERO := true },8,-1,.INT⟩ = some p.text ∧
      format_integer 1234 true true base_d ⟨{ noFlags with GROUP := true, ZERO := true },0,-1,.INT⟩ = some p.plain ∧
      p.text.length = max 8 p.plain.length ∧
      Faithful 1234 true true base_d { noFlags with GROUP := true, ZERO := true } p :=
  format_integer_faithful 1234 true true base_d ⟨{ noFlags with GROUP := true, ZERO := true },8,-1,.INT⟩ (.inl rfl)
    (by decide) (by decide)

end Pintos.IntegerFormats
