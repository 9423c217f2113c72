import Pintos.IntegerFormats
import Mathlib.Data.Nat.Log
import Mathlib.Data.List.TakeWhile
import Mathlib.Data.BitVec
import Mathlib.Algebra.Order.BigOperators.Group.List
import Mathlib.Algebra.Order.Group.Nat

/-!
The headers of `lib/ustar.c`. A header is memory from its address on; what comes after
its 512 bytes is not part of it. A failed assertion and a failure of
`ustar_make_header` are both `none`.
-/
namespace Pintos.Ustar
open Pintos.Bitmaps (Byte)
set_option linter.unusedSimpArgs false

def USTAR_HEADER_SIZE : Nat := 512
def ULONG_MAX : Nat := 2 ^ 32 - 1
def INT_MAX : Nat := 2 ^ 31 - 1

inductive UstarType
  | USTAR_REGULAR
  | USTAR_DIRECTORY
  | USTAR_EOF
  deriving DecidableEq

/-- The bytes of `"ustar"`, `"root"` and `"0000000"`. -/
def ustar : List Byte := [117#8,115#8,116#8,97#8,114#8]
def root : List Byte := [114#8,111#8,111#8,116#8]
def zeros : List Byte := List.replicate 7 48#8

/-! ### Fields -/

/-- Memory with `bytes` in it from `o` on. -/
def put (h : Nat → Byte) (o : Nat) (bytes : List Byte) : Nat → Byte := fun k => if o ≤ k then (bytes[k - o]?).getD (h k) else h k

/-- `strlcpy` and `snprintf` of a text to a field of `size` bytes. -/
def put_string (h : Nat → Byte) (o size : Nat) (text : List Byte) : Nat → Byte := put h o (text.take (size - 1) ++ [0#8])

/-- The last `k` octal digits of `n`. -/
def octal_digits : Nat → Nat → List Byte
  | 0, _ => []
  | k + 1, n => octal_digits k (n / 8) ++ [BitVec.ofNat 8 (48 + n % 8)]

/-- `%0*o`: at least `width` digits. -/
def octal (width n : Nat) : List Byte := octal_digits (max width (Nat.log2 n / 3 + 1)) n

/-- The string in a field of `size` bytes. -/
def string (h : Nat → Byte) (o size : Nat) : List Byte := ((List.range size).map fun k => h (o + k)).takeWhile (· ≠ 0#8)

/-! ### Headers -/

/-- The octets of the field for the checksum count as spaces. -/
def calculate_chksum (h : Nat → Byte) : Nat :=
  ((List.range USTAR_HEADER_SIZE).map fun i => if 148 ≤ i ∧ i < 156 then 32 else (h i).toNat).sum

/-- The loop of `strip_antisocial_prefixes`, in at most `n` turns. -/
def stripLoop : Nat → List Byte → List Byte
  | 0, file_name => file_name
  | n + 1, file_name =>
    if file_name.take 1 = [47#8] ∨ file_name.take 2 = [46#8,47#8] ∨ file_name.take 3 = [46#8,46#8,47#8] then
      stripLoop n ((file_name.dropWhile (· ≠ 47#8)).drop 1)
    else file_name

def strip_antisocial_prefixes (file_name : List Byte) : List Byte :=
  let file_name := stripLoop file_name.length file_name
  if file_name = [] ∨ file_name = [46#8,46#8] then [46#8] else file_name

def ustar_make_header (file_name : List Byte) (type : UstarType) (size : BitVec 32) (header : Nat → Byte) : Option (Nat → Byte) :=
  let file_name := strip_antisocial_prefixes file_name
  if type = .USTAR_EOF ∨ file_name.length > 99 then none
  else
    let h := fun k => if k < USTAR_HEADER_SIZE then 0#8 else header k
    let h := put_string h 0 100 file_name
    let h := put_string h 100 8 (octal 7 (if type = .USTAR_REGULAR then 420 else 493))
    let h := put_string h 108 8 zeros
    let h := put_string h 116 8 zeros
    let h := put_string h 124 12 (octal 11 size.toNat)
    let h := put_string h 136 12 (octal 11 1136102400)
    let h := put h 156 [if type = .USTAR_REGULAR then 48#8 else 53#8]
    let h := put_string h 257 6 ustar
    let h := put h 263 [48#8,48#8]
    let h := put_string h 297 32 root
    let h := put_string h 265 32 root
    some (put_string h 148 8 (octal 7 (calculate_chksum h)))

/-- The loop of `parse_octal_field`, with `n` bytes of the field left. -/
def octalLoop (s : Nat → Byte) : Nat → Nat → Nat → Option Nat
  | 0, _, _ => none
  | n + 1, ofs, value =>
    let c := s ofs
    if 48 ≤ c.toNat ∧ c.toNat ≤ 55 then
      if value > ULONG_MAX / 8 then none else octalLoop s n (ofs + 1) (c.toNat - 48 + value * 8)
    else if c = 32#8 ∨ c = 0#8 then
      if ofs > 0 then some value else none
    else none

def parse_octal_field (s : Nat → Byte) (size : Nat) : Option Nat := octalLoop s size 0 0

def is_all_zeros (block : Nat → Byte) (cnt : Nat) : Bool := (List.range cnt).all fun k => block k = 0#8

/-- The name, the type and the size of a member, or what is wrong with its header. The
    end of an archive has no name. -/
def ustar_parse_header (header : Nat → Byte) : Except String (Option (List Byte) × UstarType × BitVec 32) :=
  if is_all_zeros header USTAR_HEADER_SIZE then .ok (none,.USTAR_EOF,0#32)
  else if (List.range 6).map (fun k => header (257 + k)) ≠ ustar ++ [0#8] then .error "not a ustar archive"
  else if header 263 ≠ 48#8 ∨ header 264 ≠ 48#8 then .error "invalid ustar version"
  else
    match parse_octal_field (fun k => header (148 + k)) 8 with
    | none => .error "corrupt chksum field"
    | some chksum =>
      if chksum ≠ calculate_chksum header then .error "checksum mismatch"
      else if header 99 ≠ 0#8 ∨ header 345 ≠ 0#8 then .error "file name too long"
      else if header 156 = 48#8 then
        match parse_octal_field (fun k => header (124 + k)) 12 with
        | none => .error "corrupt file size field"
        | some size =>
          if size > INT_MAX then .error "file too large"
          else .ok (some (strip_antisocial_prefixes (string header 0 100)),.USTAR_REGULAR,BitVec.ofNat 32 size)
      else if header 156 = 53#8 then .ok (some (strip_antisocial_prefixes (string header 0 100)),.USTAR_DIRECTORY,0#32)
      else .error "unimplemented file type"

section
variable {h h' header : Nat → Byte} {o size k n width value ofs : Nat} {text bytes file_name : List Byte}

/-! ### Reading fields back -/

theorem put_outside (outside : k < o ∨ o + bytes.length ≤ k) : put h o bytes k = h k := by
  rw [put]
  split
  · rw [List.getElem?_eq_none (by omega)]
    rfl
  · rfl

theorem put_inside (below : k < bytes.length) : put h o bytes (o + k) = bytes[k] := by
  rw [put,if_pos (Nat.le_add_right o k),Nat.add_sub_cancel_left,List.getElem?_eq_getElem below]
  rfl

theorem put_string_outside (positive : 0 < size) (outside : k < o ∨ o + size ≤ k) : put_string h o size text k = h k := by
  refine put_outside (outside.imp_right fun after => ?_)
  rw [List.length_append,List.length_take,List.length_singleton]
  omega

theorem put_string_inside (below : k < text.length) (short : text.length < size) :
    put_string h o size text (o + k) = text[k] := by
  rw [put_string,List.take_of_length_le (by omega),put_inside (by rw [List.length_append]; omega),List.getElem_append_left below]

theorem put_string_end (short : text.length < size) : put_string h o size text (o + text.length) = 0#8 := by
  rw [put_string,List.take_of_length_le (by omega),put_inside (by rw [List.length_append,List.length_singleton]; omega),
    List.getElem_append_right (Nat.le_refl _)]
  simp

/-- A text and a null byte are a string. -/
theorem string_eq (same : ∀ k (below : k < text.length), h (o + k) = text[k]) (ends : h (o + text.length) = 0#8)
    (nonzero : 0#8 ∉ text)
    (short : text.length < size) : string h o size = text := by
  obtain ⟨l,whole⟩ : ∃ l, (List.range size).map (fun k => h (o + k)) = l := ⟨_,rfl⟩
  have long : text.length < l.length := by rw [← whole,List.length_map,List.length_range]; exact short
  have front : l.take text.length = text := by
    refine List.ext_getElem (by rw [List.length_take]; omega) fun k left right => ?_
    rw [List.getElem_take]
    simp only [← whole,List.getElem_map,List.getElem_range]
    exact same k right
  have back : l[text.length] = 0#8 := by
    simp only [← whole,List.getElem_map,List.getElem_range]
    exact ends
  have stays : ∀ b ∈ text, decide (b ≠ 0#8) = true := by
    intro b member
    refine decide_eq_true fun zero => nonzero ?_
    rw [← zero]
    exact member
  rw [string,whole,← List.take_append_drop text.length l,front,List.drop_eq_getElem_cons long,back,
    List.takeWhile_append_of_pos stays,
    List.takeWhile_cons_of_neg (by decide),List.append_nil]

/-- The string in a field has no null byte. -/
theorem string_nonzero (h : Nat → Byte) (o size : Nat) : 0#8 ∉ string h o size := by
  intro member
  rw [string] at member
  have other := List.mem_takeWhile_imp member
  exact absurd rfl (of_decide_eq_true other)

/-! ### Octal numbers -/

theorem octal_digits_length (k n : Nat) : (octal_digits k n).length = k := by
  induction k generalizing n with
  | zero => rfl
  | succ k ih => rw [octal_digits,List.length_append,ih,List.length_singleton]

/-- As many digits as there are places. -/
theorem octal_eq (positive : 0 < width) (fits : n < 8 ^ width) : octal width n = octal_digits width n := by
  have few : Nat.log2 n / 3 + 1 ≤ width := by
    by_cases zero : n = 0
    · subst zero
      exact positive
    · have bound : n < 2 ^ (3 * width) := by
        rw [Nat.pow_mul]
        exact fits
      have log := (Nat.log2_lt zero).mpr bound
      omega
  rw [octal,Nat.max_eq_left few]

/-- The digits of a number behind as many zeros as are missing. -/
theorem octal_digits_eq (fits : n < 8 ^ k) : octal_digits k n =
    List.replicate (k - (Nat.digits 8 n).length) 48#8 ++ ((Nat.digits 8 n).map fun d => BitVec.ofNat 8 (48 + d)).reverse := by
  induction k generalizing n with
  | zero =>
    rw [Nat.pow_zero,Nat.lt_one_iff] at fits
    rw [fits]
    rfl
  | succ k ih =>
    rw [octal_digits]
    by_cases zero : n = 0
    · have none_ : octal_digits k 0 = List.replicate k 48#8 := by
        rw [ih (Nat.pow_pos (by decide)),Nat.digits_zero,List.map_nil,List.reverse_nil,List.append_nil,List.length_nil,
          Nat.sub_zero]
      rw [zero,Nat.zero_div,none_,Nat.digits_zero,List.map_nil,List.reverse_nil,List.append_nil,List.length_nil,Nat.sub_zero,
        List.replicate_succ']
    · have digits : Nat.digits 8 n = n % 8 :: Nat.digits 8 (n / 8) := Nat.digits_def' (by decide) (by omega)
      rw [ih (Nat.div_lt_of_lt_mul (by rwa [Nat.pow_succ,Nat.mul_comm] at fits)),digits,List.map_cons,List.reverse_cons,
        List.length_cons,Nat.add_sub_add_right,List.append_assoc]

/-- The conversion of `%0*o` with a width of `w`. -/
def octal_conversion (w : Printf.Word) : Printf.printf_conversion := ⟨⟨false,false,false,false,true,false⟩,w,-1,.INT⟩

/-- It gives these digits. -/
theorem octal_formatted {value : BitVec 64} {w : Printf.Word} (positive : 0 < w.toNat) (wide : w.toNat < 2 ^ 31)
    (fits : value.toNat < 8 ^ w.toNat) :
    Printf.format_integer value false false Printf.base_o (octal_conversion w) = some (octal w.toNat value.toNat) := by
  obtain ⟨zeros,printed,-,exact_,-⟩ := IntegerFormats.format_integer_spec
    (IntegerFormats.table_of_base (.inr (.inl rfl))) value false false (octal_conversion w) wide
  have body : IntegerFormats.bodyText value Printf.base_o (octal_conversion w) =
      (Nat.digits 8 value.toNat).map fun d => BitVec.ofNat 8 (48 + d) := by
    refine Numerals.separate_ungrouped.trans (List.map_congr_left fun d digit => ?_)
    have each : ∀ d < 8, Printf.base_o.digits.getD d 0 = BitVec.ofNat 8 (48 + d) := by decide
    exact each d (Nat.digits_lt_base (by decide) digit)
  have few : (Nat.digits 8 value.toNat).length ≤ w.toNat := (Nat.digits_length_le_iff (by decide) _).mpr fits
  have missing := exact_ Bool.false_ne_true
  rw [body,List.length_map,show min (IntegerFormats.atLeast (octal_conversion w)) 63 = 1 from rfl] at missing
  have text : ∀ pad, (IntegerFormats.partsOf value false false Printf.base_o (octal_conversion w) zeros pad).text =
      List.replicate (pad + zeros) 48#8 ++ ((Nat.digits 8 value.toNat).map fun d => BitVec.ofNat 8 (48 + d)).reverse := by
    intro pad
    simp only [IntegerFormats.Parts.text,IntegerFormats.partsOf,body]
    simp [octal_conversion,Printf.signOf,show Printf.char '0' = 48#8 from rfl]
  have plain : (IntegerFormats.partsOf value false false Printf.base_o (octal_conversion w) zeros 0).plain.length =
      zeros + (Nat.digits 8 value.toNat).length := by
    simp only [IntegerFormats.Parts.plain,IntegerFormats.partsOf,body,List.length_append,List.length_replicate,
      List.length_reverse,List.length_map]
    simp [octal_conversion,Printf.signOf]
  rw [printed,octal_eq positive fits,octal_digits_eq fits,text,plain]
  congr 3
  change w.toNat - _ + zeros = _
  omega

/-- So they are what the formats of `ustar_make_header` print. -/
theorem octal_printed (memory : Printf.Memory) (args : Printf.Args) (fuel : Nat) :
    ((args 0).toNat < 8 ^ 7 → Printf.__vprintf memory (fuel + 2) (Printf.chars "%07o" ++ [0]) args = some (octal 7 (args 0).toNat)) ∧
    Printf.__vprintf memory (fuel + 2) (Printf.chars "%011o" ++ [0]) args = some (octal 11 (args 0).toNat) := by
  have bound := (args 0).isLt
  have wide : ((args 0).setWidth 64).toNat = (args 0).toNat := by
    rw [BitVec.toNat_setWidth,Nat.mod_eq_of_lt (by omega)]
  have octal_ : ∀ (w : Printf.Word), 0 < w.toNat → w.toNat < 2 ^ 31 → (args 0).toNat < 8 ^ w.toNat → ∀ printf,
      (Printf.convert memory printf (Printf.char 'o') (octal_conversion w) args).map Prod.fst =
        some (octal w.toNat (args 0).toNat) := fun w positive below fits printf => by
    rw [Printf.convert,if_neg (by decide),if_pos (.inl rfl)]
    change ((Printf.format_integer ((args 0).setWidth 64) false false Printf.base_o (octal_conversion w)).map _).map _ = _
    rw [octal_formatted positive below (by rw [wide]; exact fits),wide]
    rfl
  constructor
  · intro fits
    refine (@Printf.vprintf_single memory fuel (Printf.char 'o') (Printf.char '0') (Printf.chars "7o" ++ [0]) args args
      (octal_conversion 7) (by decide) rfl).trans ?_
    exact octal_ 7 (by decide) (by decide) fits _
  · refine (@Printf.vprintf_single memory fuel (Printf.char 'o') (Printf.char '0') (Printf.chars "11o" ++ [0]) args args
      (octal_conversion 11) (by decide) rfl).trans ?_
    exact octal_ 11 (by decide) (by decide) (Nat.lt_of_lt_of_le bound (by decide)) _

/-- Digits are read one after another. -/
theorem octalLoop_digits (s : Nat → Byte) (rest : Nat) (fits : n < 8 ^ k) (small : value * 8 ^ k + n ≤ ULONG_MAX)
    (digits : ∀ j (below : j < (octal_digits k n).length), s (ofs + j) = (octal_digits k n)[j]) :
    octalLoop s (k + rest) ofs value = octalLoop s rest (ofs + k) (value * 8 ^ k + n) := by
  induction k generalizing n rest with
  | zero =>
    rw [Nat.pow_zero,Nat.lt_one_iff] at fits
    rw [fits,Nat.zero_add,Nat.pow_zero,Nat.mul_one,Nat.add_zero,Nat.add_zero]
  | succ k ih =>
    have length := octal_digits_length k (n / 8)
    have halves : 8 * (n / 8) + n % 8 = n := Nat.div_add_mod n 8
    rw [Nat.pow_succ] at fits small ⊢
    have whole : value * (8 ^ k * 8) = 8 * (value * 8 ^ k) := by rw [← Nat.mul_assoc,Nat.mul_comm]
    rw [whole] at small ⊢
    have last : s (ofs + k) = BitVec.ofNat 8 (48 + n % 8) := by
      have here := digits k (by rw [octal_digits_length]; exact Nat.lt_succ_self k)
      simp only [octal_digits] at here
      rw [List.getElem_append_right (by rw [length])] at here
      rw [here]
      simp
    have digit : (BitVec.ofNat 8 (48 + n % 8)).toNat = 48 + n % 8 := by
      rw [BitVec.toNat_ofNat]
      exact Nat.mod_eq_of_lt (by omega)
    rw [Nat.add_assoc,ih (n := n / 8) (1 + rest) (by omega) (by omega) fun j below => ?_]
    · rw [Nat.add_comm 1 rest]
      simp only [octalLoop,last]
      rw [digit,if_pos (by omega)]
      rw [if_neg (by rw [ULONG_MAX] at small ⊢; omega),Nat.add_assoc]
      congr 1
      omega
    · have here := digits j (by rw [octal_digits_length]; rw [length] at below; omega)
      simp only [octal_digits] at here
      rw [List.getElem_append_left below] at here
      exact here

theorem parse_octal_field_octal (positive : 0 < width) (fits : n < 8 ^ width) (small : n ≤ ULONG_MAX) (short : width < size) :
    parse_octal_field (fun k => put_string h o size (octal width n) (o + k)) size = some n := by
  rw [octal_eq positive fits]
  have length := octal_digits_length width n
  have parts : size = width + (size - width - 1 + 1) := by omega
  have read : octalLoop (fun k => put_string h o size (octal_digits width n) (o + k)) (width + (size - width - 1 + 1)) 0 0 =
      some n := by
    rw [octalLoop_digits _ _ fits (by omega) fun j below => ?_]
    · have ends : put_string h o size (octal_digits width n) (o + (0 + width)) = 0#8 := by
        have here : put_string h o size (octal_digits width n) (o + (octal_digits width n).length) = 0#8 :=
          put_string_end (by omega)
        rw [length] at here
        rw [Nat.zero_add]
        exact here
      rw [octalLoop,ends,if_neg (by decide),if_pos (.inr rfl),if_pos (by omega),Nat.zero_mul,Nat.zero_add]
    · rw [Nat.zero_add]
      exact put_string_inside below (by omega)
  rw [parse_octal_field]
  exact (congrArg (fun m => octalLoop _ m 0 0) parts).trans read

/-! ### Reading headers back -/

theorem is_all_zeros_iff (block : Nat → Byte) (cnt : Nat) : is_all_zeros block cnt = true ↔ ∀ k < cnt, block k = 0#8 := by
  rw [is_all_zeros,List.all_eq_true]
  exact ⟨fun all k below => of_decide_eq_true (all k (List.mem_range.mpr below)),
    fun all k inside => decide_eq_true (all k (List.mem_range.mp inside))⟩

/-- Only the bytes of the header count. -/
theorem calculate_chksum_same (same : ∀ k < USTAR_HEADER_SIZE, k < 148 ∨ 156 ≤ k → h' k = h k) :
    calculate_chksum h' = calculate_chksum h := by
  refine congrArg List.sum (List.map_congr_left fun k inside => ?_)
  split
  · rfl
  · rw [same k (List.mem_range.mp inside) (by omega)]

theorem calculate_chksum_le (h : Nat → Byte) : calculate_chksum h ≤ USTAR_HEADER_SIZE * 255 := by
  have each : ∀ x ∈ (List.range USTAR_HEADER_SIZE).map (fun i => if 148 ≤ i ∧ i < 156 then 32 else (h i).toNat), x ≤ 255 := by
    intro x member
    obtain ⟨i,-,rfl⟩ := List.mem_map.mp member
    split
    · decide
    · exact Nat.le_of_lt_succ (h i).isLt
  refine Nat.le_trans (List.sum_le_card_nsmul _ 255 each) ?_
  rw [List.length_map,List.length_range]
  exact Nat.le_refl _

theorem octalLoop_same (s s' : Nat → Byte) (n ofs value : Nat) (same : ∀ k < n, s' (ofs + k) = s (ofs + k)) :
    octalLoop s' n ofs value = octalLoop s n ofs value := by
  induction n generalizing ofs value with
  | zero => rfl
  | succ n ih =>
    have next : ∀ k < n, s' (ofs + 1 + k) = s (ofs + 1 + k) := fun k below => by
      have here := same (k + 1) (by omega)
      rwa [Nat.add_comm k 1,← Nat.add_assoc] at here
    simp only [octalLoop]
    rw [show s' ofs = s ofs from same 0 (Nat.succ_pos n),ih _ _ next]

theorem ustar_parse_header_same (same : ∀ k < USTAR_HEADER_SIZE, h' k = h k) : ustar_parse_header h' = ustar_parse_header h := by
  have zeros : is_all_zeros h' USTAR_HEADER_SIZE = is_all_zeros h USTAR_HEADER_SIZE := by
    rw [Bool.eq_iff_iff,is_all_zeros_iff,is_all_zeros_iff]
    refine forall_congr' fun k => imp_congr_right fun below => ?_
    rw [same k below]
  have range : ∀ o n, o + n ≤ USTAR_HEADER_SIZE →
      (List.range n).map (fun k => h' (o + k)) = (List.range n).map fun k => h (o + k) :=
    fun o n room => List.map_congr_left fun k inside => same _ (by have := List.mem_range.mp inside; omega)
  have field : ∀ o n, o + n ≤ USTAR_HEADER_SIZE →
      parse_octal_field (fun k => h' (o + k)) n = parse_octal_field (fun k => h (o + k)) n :=
    fun o n room => octalLoop_same _ _ n 0 0 fun k below => same _ (by omega)
  have name : string h' 0 100 = string h 0 100 := by rw [string,string,range 0 100 (by decide)]
  rw [ustar_parse_header,ustar_parse_header,zeros,range 257 6 (by decide),field 148 8 (by decide),field 124 12 (by decide),name,
    calculate_chksum_same fun k inside _ => same k inside,same 263 (by decide),same 264 (by decide),same 99 (by decide),
    same 345 (by decide),same 156 (by decide)]

/-- The header without its checksum. -/
def unsummed (file_name : List Byte) (type : UstarType) (size : BitVec 32) (header : Nat → Byte) : Nat → Byte :=
  put_string (put_string (put (put_string (put (put_string (put_string (put_string (put_string (put_string (put_string
    (fun k => if k < USTAR_HEADER_SIZE then 0#8 else header k) 0 100 file_name) 100 8
    (octal 7 (if type = .USTAR_REGULAR then 420 else 493))) 108 8 zeros) 116 8 zeros) 124 12 (octal 11 size.toNat))
    136 12 (octal 11 1136102400)) 156 [if type = .USTAR_REGULAR then 48#8 else 53#8]) 257 6 ustar) 263 [48#8,48#8]) 297 32 root) 265 32 root

/-- The fields before the modification time. -/
def early (file_name : List Byte) (type : UstarType) (size : BitVec 32) (header : Nat → Byte) : Nat → Byte :=
  put_string (put_string (put_string (put_string (put_string (fun k => if k < USTAR_HEADER_SIZE then 0#8 else header k)
    0 100 file_name) 100 8 (octal 7 (if type = .USTAR_REGULAR then 420 else 493))) 108 8 zeros) 116 8 zeros)
    124 12 (octal 11 size.toNat)

/-- The other fields are behind them. -/
theorem unsummed_early {type : UstarType} {size : BitVec 32} {k : Nat} (below : k < 136) :
    unsummed file_name type size header k = early file_name type size header k := by
  rw [unsummed,put_string_outside (by decide) (by omega),put_string_outside (by decide) (by omega),put_outside (by omega),
    put_string_outside (by decide) (by omega),put_outside (by omega),put_string_outside (by decide) (by omega)]
  rfl

/-- The bytes that are read back of a header without its checksum. -/
structure Unsummed (b : Nat → Byte) (file_name : List Byte) (type : UstarType) (size : BitVec 32) : Prop where
  name : string b 0 100 = file_name
  last : b 99 = 0#8
  size : parse_octal_field (fun k => b (124 + k)) 12 = some size.toNat
  typeflag : b 156 = if type = .USTAR_REGULAR then 48#8 else 53#8
  magic : (List.range 6).map (fun k => b (257 + k)) = ustar ++ [0#8]
  version : b 263 = 48#8 ∧ b 264 = 48#8
  no_prefix : b 345 = 0#8

theorem unsummed_spec (type : UstarType) (size : BitVec 32) (header : Nat → Byte) (nonzero : 0#8 ∉ file_name)
    (short : file_name.length ≤ 99) (nonnegative : size.toNat < 2 ^ 31) :
    Unsummed (unsummed file_name type size header) file_name type size := by
  have front : ∀ k < 100, unsummed file_name type size header k =
      put_string (fun k => if k < USTAR_HEADER_SIZE then 0#8 else header k) 0 100 file_name k := by
    intro k below
    rw [unsummed_early (by omega),early,put_string_outside (by decide) (by omega),put_string_outside (by decide) (by omega),
      put_string_outside (by decide) (by omega),put_string_outside (by decide) (by omega)]
  refine ⟨string_eq (fun k below => ?_) ?_ nonzero (by omega),?_,?_,?_,?_,?_,?_⟩
  · rw [front _ (by omega)]
    exact put_string_inside below (by omega)
  · rw [front _ (by omega)]
    exact put_string_end (by omega)
  · rw [front 99 (by omega)]
    by_cases full : file_name.length = 99
    · have ends : put_string (fun k => if k < USTAR_HEADER_SIZE then 0#8 else header k) 0 100 file_name
          (0 + file_name.length) = 0#8 := put_string_end (by omega)
      rwa [Nat.zero_add,full] at ends
    · rw [put_string,put_outside (by rw [List.length_append,List.length_take,List.length_singleton]; omega)]
      rfl
  · rw [parse_octal_field,octalLoop_same (fun k => early file_name type size header (124 + k)) _ 12 0 0
      fun k below => unsummed_early (k := 124 + (0 + k)) (by omega)]
    exact parse_octal_field_octal (by decide) (by omega) (by rw [ULONG_MAX]; omega) (by decide)
  · rw [unsummed,put_string_outside (by decide) (by omega),put_string_outside (by decide) (by omega),put_outside (by omega),
      put_string_outside (by decide) (by omega)]
    exact put_inside (k := 0) (show 0 < [if type = .USTAR_REGULAR then 48#8 else 53#8].length from Nat.succ_pos 0)
  · refine List.ext_getElem rfl fun k left right => ?_
    have below : k < 6 := right
    rw [List.getElem_map,List.getElem_range,unsummed,
      put_string_outside (by decide) (by omega),put_string_outside (by decide) (by omega),
      put_outside (by omega)]
    have magic : k < (ustar ++ [0#8]).length := right
    exact put_inside magic
  · rw [unsummed,put_string_outside (by decide) (by omega),put_string_outside (by decide) (by omega)]
    rw [put_string_outside (by decide) (by omega),put_string_outside (by decide) (by omega)]
    exact ⟨put_inside (k := 0) (by decide),put_inside (k := 1) (by decide)⟩
  · rw [unsummed,put_string_outside (by decide) (by omega),put_string_outside (by decide) (by omega),
      put_outside (.inr (by decide)),put_string_outside (by decide) (by omega),
      put_outside (.inr (by rw [List.length_singleton]; decide)),put_string_outside (by decide) (by omega),
      put_string_outside (by decide) (by omega),put_string_outside (by decide) (by omega),put_string_outside (by decide) (by omega),
      put_string_outside (by decide) (by omega),put_string_outside (by decide) (by omega)]
    rfl

/-! ### Names -/

/-- The prefixes that are dropped. -/
def Antisocial (file_name : List Byte) : Prop :=
  file_name.take 1 = [47#8] ∨ file_name.take 2 = [46#8,47#8] ∨ file_name.take 3 = [46#8,46#8,47#8]

/-- A dropped prefix ends with a slash. -/
theorem Antisocial.slash (prefix_ : Antisocial file_name) : 47#8 ∈ file_name := by
  rcases prefix_ with same | same | same
  · exact List.mem_of_mem_take (by rw [same]; decide : 47#8 ∈ file_name.take 1)
  · exact List.mem_of_mem_take (by rw [same]; decide : 47#8 ∈ file_name.take 2)
  · exact List.mem_of_mem_take (by rw [same]; decide : 47#8 ∈ file_name.take 3)

/-- The name that the loop leaves is a suffix, without any of these prefixes. -/
theorem stripLoop_spec (enough : file_name.length ≤ n) :
    ¬ Antisocial (stripLoop n file_name) ∧ stripLoop n file_name <:+ file_name := by
  induction n generalizing file_name with
  | zero =>
    rw [List.length_eq_zero_iff.mp (Nat.le_zero.mp enough)]
    exact ⟨fun prefix_ => absurd prefix_.slash List.not_mem_nil,List.suffix_rfl⟩
  | succ n ih =>
    by_cases prefix_ : Antisocial file_name
    · have behind : (file_name.dropWhile (· ≠ 47#8)).drop 1 <:+ file_name :=
        (List.drop_suffix 1 _).trans (List.dropWhile_suffix _)
      have rest : file_name.dropWhile (· ≠ 47#8) ≠ [] := by
        intro all
        have stays := List.dropWhile_eq_nil_iff.mp all (47#8) prefix_.slash
        exact absurd stays (by decide)
      have shorter : ((file_name.dropWhile (· ≠ 47#8)).drop 1).length ≤ n := by
        have whole : (file_name.dropWhile (· ≠ 47#8)).length ≤ file_name.length := (List.dropWhile_suffix _).length_le
        have positive : 0 < (file_name.dropWhile (· ≠ 47#8)).length := List.length_pos_iff.mpr rest
        rw [List.length_drop]
        omega
      obtain ⟨stripped,suffix⟩ := ih shorter
      have step : stripLoop (n + 1) file_name = stripLoop n ((file_name.dropWhile (· ≠ 47#8)).drop 1) := if_pos prefix_
      rw [step]
      exact ⟨stripped,suffix.trans behind⟩
    · have step : stripLoop (n + 1) file_name = file_name := if_neg prefix_
      rw [step]
      exact ⟨prefix_,List.suffix_rfl⟩

theorem stripLoop_stays (plain : ¬ Antisocial file_name) : stripLoop n file_name = file_name := by
  cases n with
  | zero => rfl
  | succ n => exact if_neg plain

theorem strip_nonzero (nonzero : 0#8 ∉ file_name) : 0#8 ∉ strip_antisocial_prefixes file_name := by
  rw [strip_antisocial_prefixes]
  split
  · decide
  · exact fun member => nonzero ((stripLoop_spec (Nat.le_refl _)).2.mem member)

/-- Names that were stripped stay as they are. -/
theorem strip_idempotent (file_name : List Byte) :
    strip_antisocial_prefixes (strip_antisocial_prefixes file_name) = strip_antisocial_prefixes file_name := by
  obtain ⟨plain,-⟩ := @stripLoop_spec _ file_name (Nat.le_refl _)
  by_cases dot : stripLoop file_name.length file_name = [] ∨ stripLoop file_name.length file_name = [46#8,46#8]
  · have result : strip_antisocial_prefixes file_name = [46#8] := if_pos dot
    rw [result]
    rfl
  · have result : strip_antisocial_prefixes file_name = stripLoop file_name.length file_name := if_neg dot
    rw [result]
    refine (if_neg ?_).trans (stripLoop_stays plain)
    rw [stripLoop_stays plain]
    exact dot

/-- A header that is accepted is zeros, or it has a name and a size that is not negative. -/
theorem ustar_parse_header_ok {name : Option (List Byte)} {type : UstarType} {size : BitVec 32}
    (parsed : ustar_parse_header header = .ok (name,type,size)) :
    (name = none ∧ type = .USTAR_EOF) ∨
      header 99 = 0#8 ∧ name = some (strip_antisocial_prefixes (string header 0 100)) ∧ type ≠ .USTAR_EOF ∧ size.toNat < 2 ^ 31 := by
  rw [ustar_parse_header] at parsed
  split at parsed
  · cases parsed
    exact .inl ⟨rfl,rfl⟩
  -- The checks of the other fields, in the order in which they are made.
  split at parsed
  · cases parsed
  split at parsed
  · cases parsed
  split at parsed
  · cases parsed
  split at parsed
  · cases parsed
  split at parsed
  · cases parsed
  next long =>
  have ends : header 99 = 0#8 := Decidable.byContradiction fun more => long (.inl more)
  split at parsed
  · split at parsed
    · cases parsed
    split at parsed
    · cases parsed
    next small =>
    cases parsed
    rw [INT_MAX] at small
    exact .inr ⟨ends,rfl,by decide,by rw [BitVec.toNat_ofNat]; omega⟩
  split at parsed
  · cases parsed
    exact .inr ⟨ends,rfl,by decide,by decide⟩
  · cases parsed

/-- What is read back from a new header. -/
theorem ustar_round_trip {type : UstarType} {size : BitVec 32} (kind : type ≠ .USTAR_EOF)
    (plain : strip_antisocial_prefixes file_name = file_name) (nonzero : 0#8 ∉ file_name)
    (short : file_name.length ≤ 99) (nonnegative : size.toNat < 2 ^ 31) :
    ∃ h, ustar_make_header file_name type size header = some h ∧
      ustar_parse_header h = .ok (some file_name,type,if type = .USTAR_REGULAR then size else 0#32) := by
  obtain ⟨b,base⟩ : ∃ b, unsummed file_name type size header = b := ⟨_,rfl⟩
  have parts := unsummed_spec type size header nonzero short nonnegative
  rw [base] at parts
  have made : ustar_make_header file_name type size header =
      some (put_string b 148 8 (octal 7 (calculate_chksum b))) := by
    rw [ustar_make_header,plain,if_neg (fun bad => bad.elim kind fun long => absurd short (by omega)),← base]
    rfl
  obtain ⟨h,final⟩ : ∃ h, put_string b 148 8 (octal 7 (calculate_chksum b)) = h := ⟨_,rfl⟩
  refine ⟨h,by rw [made,final],?_⟩
  have outside : ∀ k, k < 148 ∨ 156 ≤ k → h k = b k := fun k out => by rw [← final,put_string_outside (by decide) out]
  have chksum : calculate_chksum h = calculate_chksum b := calculate_chksum_same fun k _ out => outside k out
  have bound := calculate_chksum_le b
  rw [USTAR_HEADER_SIZE] at bound
  have sum : parse_octal_field (fun k => h (148 + k)) 8 = some (calculate_chksum h) := by
    rw [chksum,← final]
    exact parse_octal_field_octal (by decide) (by omega) (by rw [ULONG_MAX]; omega) (by decide)
  have magic : (List.range 6).map (fun k => h (257 + k)) = ustar ++ [0#8] := by
    rw [← parts.magic]
    exact List.map_congr_left fun k _ => outside _ (.inr (by omega))
  have name : string h 0 100 = file_name := by
    rw [← parts.name,string,string]
    refine congrArg _ (List.map_congr_left fun k inside => outside _ (.inl ?_))
    have := List.mem_range.mp inside
    omega
  have size_ : parse_octal_field (fun k => h (124 + k)) 12 = some size.toNat := by
    rw [← parts.size]
    exact octalLoop_same _ _ 12 0 0 fun k below => outside _ (.inl (by omega))
  have full : ¬ is_all_zeros h USTAR_HEADER_SIZE = true := by
    rw [is_all_zeros_iff]
    intro all
    have zero := all 263 (by decide)
    rw [outside 263 (.inr (by decide)),parts.version.1] at zero
    cases zero
  rw [ustar_parse_header,if_neg full,if_neg (not_not_intro magic),
    outside 263 (.inr (by decide)),outside 264 (.inr (by decide)),parts.version.1,parts.version.2,
    if_neg (by decide),sum]
  simp only [ne_eq,not_true_eq_false,if_false,outside 99 (.inl (by decide)),outside 345 (.inr (by decide)),parts.last,
    parts.no_prefix,or_self,outside 156 (.inr (by decide)),parts.typeflag,size_,name,plain]
  cases type with
  | USTAR_REGULAR =>
    rw [if_pos rfl,if_pos rfl,if_pos rfl,if_neg (by rw [INT_MAX]; omega),BitVec.ofNat_toNat,BitVec.setWidth_eq]
  | USTAR_DIRECTORY =>
    rw [if_neg (by decide),if_pos (by decide),if_neg (by decide)]
  | USTAR_EOF => exact absurd rfl kind

/-- The header of a regular file or a directory is read as it was made, and a header is made unless the name
is too long. -/
theorem header_round_trip (file_name : List Byte) (type : UstarType) (size : BitVec 32) (header : Nat → Byte)
    (nonzero : 0#8 ∉ file_name) (kind : type = .USTAR_REGULAR ∨ type = .USTAR_DIRECTORY) (nonnegative : size.toNat < 2 ^ 31) :
    (∀ h, ustar_make_header file_name type size header = some h →
      ustar_parse_header h = .ok (some (strip_antisocial_prefixes file_name),type,if type = .USTAR_REGULAR then size else 0#32)) ∧
    (ustar_make_header file_name type size header = none ↔ 99 < (strip_antisocial_prefixes file_name).length) := by
  have not_end : type ≠ .USTAR_EOF := by rcases kind with rfl | rfl <;> decide
  have same : ustar_make_header (strip_antisocial_prefixes file_name) type size header =
      ustar_make_header file_name type size header := by rw [ustar_make_header,ustar_make_header,strip_idempotent]
  by_cases long : 99 < (strip_antisocial_prefixes file_name).length
  · have failed : ustar_make_header file_name type size header = none := by
      rw [ustar_make_header]
      exact if_pos (.inr long)
    rw [failed]
    exact ⟨fun h made => (by cases made),fun _ => long,fun _ => rfl⟩
  · obtain ⟨h,made,parsed⟩ := @ustar_round_trip header (strip_antisocial_prefixes file_name) type size not_end
      (strip_idempotent file_name) (strip_nonzero nonzero) (Nat.not_lt.mp long) nonnegative
    rw [same] at made
    rw [made]
    refine ⟨fun h' same_h => ?_,fun none_ => (by cases none_),fun too_long => absurd too_long long⟩
    cases same_h
    exact parsed

theorem header_round_trip_directory :
    (∀ h, ustar_make_header [47#8,200#8] .USTAR_DIRECTORY 5 (fun _ => 1) = some h →
      ustar_parse_header h = .ok (some (strip_antisocial_prefixes [47#8,200#8]),.USTAR_DIRECTORY,0#32)) ∧
    (ustar_make_header [47#8,200#8] .USTAR_DIRECTORY 5 (fun _ => 1) = none ↔
      99 < (strip_antisocial_prefixes [47#8,200#8]).length) :=
  header_round_trip [47#8,200#8] .USTAR_DIRECTORY 5 (fun _ => 1) (by decide) (.inr rfl) (by decide)
end

end Pintos.Ustar
