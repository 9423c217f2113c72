import Pintos.Bitmaps
import Mathlib.Data.BitVec

/-!
The formatting of `lib/stdio.c`: a format is the bytes from the position reached up to the
terminating null byte, and reading past these has no result. The arguments are the words of the
caller's stack from the next one on. The characters that go to `output` are a list.
-/
namespace Pintos.Printf
open Pintos.Bitmaps (Byte)
set_option linter.unusedSimpArgs false
set_option linter.style.nameCheck false

abbrev Word := BitVec 32
abbrev Args := Nat → Word
abbrev Memory := Word → Byte

def char (c : Char) : Byte := BitVec.ofNat 8 c.toNat

def chars (text : String) : List Byte := text.toList.map char

/-! ### Conversions -/

structure Flags where
  MINUS : Bool
  PLUS : Bool
  SPACE : Bool
  POUND : Bool
  ZERO : Bool
  GROUP : Bool
  deriving DecidableEq

def noFlags : Flags := ⟨false,false,false,false,false,false⟩

/-- The type of the argument. -/
inductive ArgType
  | CHAR
  | SHORT
  | INT
  | INTMAX
  | LONG
  | LONGLONG
  | PTRDIFFT
  | SIZET
  deriving DecidableEq

structure printf_conversion where
  flags : Flags
  width : Word
  precision : Word
  type : ArgType
  deriving DecidableEq

structure integer_base where
  base : Nat
  digits : List Byte
  x : Byte
  group : Nat

def base_d : integer_base := ⟨10,chars "0123456789",0,3⟩
def base_o : integer_base := ⟨8,chars "01234567",0,3⟩
def base_x : integer_base := ⟨16,chars "0123456789abcdef",char 'x',4⟩
def base_X : integer_base := ⟨16,chars "0123456789ABCDEF",char 'X',4⟩

def isdigit (ch : Byte) : Prop := 48 ≤ ch.toNat ∧ ch.toNat ≤ 57

instance : DecidablePred isdigit := fun ch => inferInstanceAs (Decidable (48 ≤ ch.toNat ∧ ch.toNat ≤ 57))

/-- `va_arg` takes a word and leaves those after it. -/
def next (args : Args) : Args := fun k => args (k + 1)

/-! ### Parsing -/

/-- The flags with that of a flag character added. -/
def flag (ch : Byte) (flags : Flags) : Option Flags :=
  if ch = char '-' then some { flags with MINUS := true }
  else if ch = char '+' then some { flags with PLUS := true }
  else if ch = char ' ' then some { flags with SPACE := true }
  else if ch = char '#' then some { flags with POUND := true }
  else if ch = char '0' then some { flags with ZERO := true }
  else if ch = 39#8 then some { flags with GROUP := true }
  else none

def parse_flags : List Byte → Flags → Option (Flags × List Byte)
  | [], _ => none
  | ch :: format, flags =>
    match flag ch flags with
    | some flags => parse_flags format flags
    | none => some (flags,ch :: format)

/-- `-` goes before `0`, and `+` before a space. -/
def resolve (flags : Flags) : Flags :=
  { flags with ZERO := flags.ZERO && !flags.MINUS, SPACE := flags.SPACE && !flags.PLUS }

def parse_digits : List Byte → Word → Option (Word × List Byte)
  | [], _ => none
  | ch :: format, n => if isdigit ch then parse_digits format (n * 10 + ch.signExtend 32 - 48) else some (n,ch :: format)

/-- A number in the format or, for `*`, the next argument. -/
def parse_number (format : List Byte) (args : Args) : Option (Word × List Byte × Args) :=
  match format with
  | [] => none
  | ch :: rest =>
    if ch = char '*' then some (args 0,rest,next args)
    else (parse_digits (ch :: rest) 0).map fun parsed => (parsed.1,parsed.2,args)

def parse_precision (format : List Byte) (args : Args) : Option (Word × List Byte × Args) :=
  match format with
  | [] => none
  | ch :: rest =>
    if ch = char '.' then
      (parse_number rest args).map fun parsed => (if parsed.1.slt 0 then -1 else parsed.1,parsed.2)
    else some (-1,ch :: rest,args)

/-- A letter that may stand twice. -/
def parse_double (ch : Byte) (once twice : ArgType) (format : List Byte) : Option (ArgType × List Byte) :=
  match format with
  | [] => none
  | second :: rest => if second = ch then some (twice,rest) else some (once,second :: rest)

def parse_type (format : List Byte) : Option (ArgType × List Byte) :=
  match format with
  | [] => none
  | ch :: rest =>
    if ch = char 'h' then parse_double (char 'h') .SHORT .CHAR rest
    else if ch = char 'j' then some (.INTMAX,rest)
    else if ch = char 'l' then parse_double (char 'l') .LONG .LONGLONG rest
    else if ch = char 't' then some (.PTRDIFFT,rest)
    else if ch = char 'z' then some (.SIZET,rest)
    else some (.INT,ch :: rest)

/-- The conversion, with the effects of a negative width and of a precision on the flags. -/
def conversion (flags : Flags) (width precision : Word) (type : ArgType) : printf_conversion where
  flags := { resolve flags with
    MINUS := flags.MINUS || width.slt 0
    ZERO := (resolve flags).ZERO && precision.slt 0 }
  width := if width.slt 0 then -width else width
  precision := precision
  type := type

/-- The format from the conversion character on, the conversion and the arguments left. -/
def parse_conversion (format : List Byte) (args : Args) : Option (List Byte × printf_conversion × Args) :=
  (parse_flags format noFlags).bind fun flagged =>
  (parse_number flagged.2 args).bind fun wide =>
  (parse_precision wide.2.1 wide.2.2).bind fun precise =>
  (parse_type precise.2.1).map fun typed =>
  (typed.2,conversion flagged.1 wide.1 precise.1 typed.1,precise.2.2)

/-! ### Integers -/

/-- `*cp++ = ch`, in a buffer of 64 bytes. -/
def push (ch : Byte) (buf : List Byte) : Option (List Byte) := if buf.length < 64 then some (buf ++ [ch]) else none

/-- The loop over the digits; a number of 64 bits has fewer than 65 of them. -/
def digitLoop (b : integer_base) (group : Bool) : Nat → Nat → Nat → List Byte → Option (List Byte)
  | 0, _, _, _ => none
  | fuel + 1, value, digit_cnt, buf =>
    if value > 0 then
      (if group ∧ digit_cnt > 0 ∧ digit_cnt % b.group = 0 then push (char ',') buf else some buf).bind fun buf =>
      (push (b.digits.getD (value % b.base) 0) buf).bind fun buf =>
      digitLoop b group fuel (value / b.base) (digit_cnt + 1) buf
    else some buf

/-- The loop that appends zeros up to the precision, in at most 64 turns. -/
def zeroLoop (precision : Word) : Nat → List Byte → Option (List Byte)
  | 0, _ => none
  | fuel + 1, buf =>
    if (BitVec.ofNat 32 buf.length).slt precision ∧ buf.length < 63 then (push (char '0') buf).bind (zeroLoop precision fuel)
    else some buf

/-- The sign character, or 0. -/
def signOf (is_signed negative : Bool) (flags : Flags) : Byte :=
  if is_signed then
    if flags.PLUS then if negative then char '-' else char '+'
    else if flags.SPACE then if negative then char '-' else char ' '
    else if negative then char '-' else 0
  else 0

/-- The digits in reverse, with separators and leading zeros. -/
def digitsOf (value : BitVec 64) (b : integer_base) (c : printf_conversion) : Option (List Byte) :=
  (digitLoop b c.flags.GROUP 65 value.toNat 0 []).bind fun buf =>
  (zeroLoop (if c.precision.slt 0 then 1 else c.precision) 65 buf).bind fun buf =>
  if c.flags.POUND ∧ b.base = 8 ∧ (buf = [] ∨ buf.getLast? ≠ some (char '0')) then push (char '0') buf else some buf

def output_dup (ch : Byte) (cnt : Word) : List Byte := List.replicate cnt.toNat ch

/-- The characters output, or none where the buffer is too small. -/
def format_integer (value : BitVec 64) (is_signed negative : Bool) (b : integer_base) (c : printf_conversion) :
    Option (List Byte) :=
  let sign := signOf is_signed negative c.flags
  let x := if c.flags.POUND ∧ value ≠ 0 then b.x else 0
  (digitsOf value b c).map fun buf =>
    let pad_cnt := c.width - BitVec.ofNat 32 buf.length - (if x ≠ 0 then 2 else 0) - (if sign ≠ 0 then 1 else 0)
    let pad_cnt := if pad_cnt.slt 0 then 0 else pad_cnt
    (if ¬ c.flags.MINUS ∧ ¬ c.flags.ZERO then output_dup (char ' ') pad_cnt else []) ++
    (if sign ≠ 0 then [sign] else []) ++ (if x ≠ 0 then [char '0',x] else []) ++
    (if c.flags.ZERO then output_dup (char '0') pad_cnt else []) ++ buf.reverse ++
    (if c.flags.MINUS then output_dup (char ' ') pad_cnt else [])

/-- The argument of a signed conversion, and the arguments left. -/
def signed_arg (type : ArgType) (args : Args) : BitVec 64 × Args :=
  match type with
  | .CHAR => (((args 0).setWidth 8).signExtend 64,next args)
  | .SHORT => (((args 0).setWidth 16).signExtend 64,next args)
  | .INT => ((args 0).signExtend 64,next args)
  | .INTMAX => ((args 1) ++ (args 0),next (next args))
  | .LONG => ((args 0).signExtend 64,next args)
  | .LONGLONG => ((args 1) ++ (args 0),next (next args))
  | .PTRDIFFT => ((args 0).signExtend 64,next args)
  | .SIZET =>
    let value := (args 0).setWidth 64
    (if 0x7fffffff#64 < value then value - 0xffffffff#64 - 1#64 else value,next args)

def unsigned_arg (type : ArgType) (args : Args) : BitVec 64 × Args :=
  match type with
  | .CHAR => (((args 0).setWidth 8).setWidth 64,next args)
  | .SHORT => (((args 0).setWidth 16).setWidth 64,next args)
  | .INT => ((args 0).setWidth 64,next args)
  | .INTMAX => ((args 1) ++ (args 0),next (next args))
  | .LONG => ((args 0).setWidth 64,next args)
  | .LONGLONG => ((args 1) ++ (args 0),next (next args))
  | .PTRDIFFT => ((args 0).signExtend 64 &&& 0xffffffff#64,next args)
  | .SIZET => ((args 0).setWidth 64,next args)

/-- The base of an unsigned conversion. -/
def unsigned_base (ch : Byte) : integer_base :=
  if ch = char 'o' then base_o else if ch = char 'u' then base_d else if ch = char 'x' then base_x else base_X

/-! ### Strings -/

/-- The loop of `strnlen`, with `left` characters to go. -/
def strnlen (string : Nat → Byte) : Nat → Nat → Nat
  | 0, length => length
  | left + 1, length => if string length = 0 then length else strnlen string left (length + 1)

def format_string (string : Nat → Byte) (length : Word) (c : printf_conversion) : List Byte :=
  (if length.slt c.width ∧ ¬ c.flags.MINUS then output_dup (char ' ') (c.width - length) else []) ++
  (List.range length.toInt.toNat).map string ++
  (if length.slt c.width ∧ c.flags.MINUS then output_dup (char ' ') (c.width - length) else [])

/-- What `%s` reads at a pointer. -/
def stringAt (memory : Memory) (s : Word) : Nat → Byte :=
  if s = 0 then fun k => (chars "(null)").getD k 0 else fun k => memory (s + BitVec.ofNat 32 k)

/-! ### Formats -/

/-- The conversion with the character `ch`: what is output, and the arguments left. A message is
formatted by the given function. -/
def convert (memory : Memory) (printf : List Byte → Args → Option (List Byte)) (ch : Byte) (c : printf_conversion)
    (args : Args) : Option (List Byte × Args) :=
  if ch = char 'd' ∨ ch = char 'i' then
    let value := (signed_arg c.type args).1
    (format_integer (if value.slt 0 then -value else value) true (value.slt 0) base_d c).map fun out =>
      (out,(signed_arg c.type args).2)
  else if ch = char 'o' ∨ ch = char 'u' ∨ ch = char 'x' ∨ ch = char 'X' then
    (format_integer (unsigned_arg c.type args).1 false false (unsigned_base ch) c).map fun out =>
      (out,(unsigned_arg c.type args).2)
  else if ch = char 'c' then
    let character := (args 0).setWidth 8
    some (format_string (fun _ => character) 1 c,next args)
  else if ch = char 's' then
    let string := stringAt memory (args 0)
    some (format_string string (BitVec.ofNat 32 (strnlen string c.precision.toNat 0)) c,next args)
  else if ch = char 'p' then
    (format_integer ((args 0).setWidth 64) false false base_x { c with flags := { noFlags with POUND := true } }).map
      fun out => (out,next args)
  else if ch = char 'f' ∨ ch = char 'e' ∨ ch = char 'E' ∨ ch = char 'g' ∨ ch = char 'G' ∨ ch = char 'n' then
    (printf (chars "<<no %%%c in kernel>>" ++ [0]) fun _ => ch.signExtend 32).map fun out => (out,args)
  else (printf (chars "<<no %%%c conversion>>" ++ [0]) fun _ => ch.signExtend 32).map fun out => (out,args)

/-- What is output from a conversion on, given what is output for the rest of the format. -/
def convert_rest (memory : Memory) (printf : List Byte → Args → Option (List Byte)) (format : List Byte) (args : Args) :
    Option (List Byte) :=
  (parse_conversion format args).bind fun parsed =>
  match parsed.1 with
  | [] => none
  | ch :: format =>
    (convert memory printf ch parsed.2.1 parsed.2.2).bind fun done => (printf format done.2).map (done.1 ++ ·)

/-- What is output behind a percent sign. -/
def percent (memory : Memory) (printf : List Byte → Args → Option (List Byte)) (format : List Byte) (args : Args) :
    Option (List Byte) :=
  match format with
  | [] => none
  | ch :: rest => if ch = char '%' then (printf rest args).map (char '%' :: ·) else convert_rest memory printf (ch :: rest) args

/-- What is output for a format. A run of too few rounds has no result. -/
def __vprintf (memory : Memory) : Nat → List Byte → Args → Option (List Byte)
  | 0, _, _ => none
  | fuel + 1, format, args =>
    match format with
    | [] => none
    | ch :: rest =>
      if ch = 0 then some []
      else if ch ≠ char '%' then (__vprintf memory fuel rest args).map (ch :: ·)
      else percent memory (__vprintf memory fuel) rest args

variable {memory : Memory} {printf : List Byte → Args → Option (List Byte)} {fuel : Nat} {ch first : Byte} {text rest : List Byte}
  {args args' : Args} {c : printf_conversion}

theorem vprintf_percent : __vprintf memory (fuel + 1) (char '%' :: text) args = percent memory (__vprintf memory fuel) text args := by
  rw [__vprintf,if_neg (by decide),if_neg (not_not_intro rfl)]

theorem vprintf_ordinary (nonzero : ch ≠ 0) (other : ch ≠ char '%') :
    __vprintf memory (fuel + 1) (ch :: rest) args = (__vprintf memory fuel rest args).map (ch :: ·) := by
  rw [__vprintf,if_neg nonzero,if_pos other]

theorem percent_cons (other : ch ≠ char '%') :
    percent memory printf (ch :: text) args = convert_rest memory printf (ch :: text) args := if_neg other

theorem vprintf_past : __vprintf memory fuel [] args = none := by
  cases fuel with
  | zero => rfl
  | succ fuel => rfl

/-- A format of one conversion. -/
theorem vprintf_single (other : first ≠ char '%')
    (parsed : parse_conversion (first :: text) args = some ([ch,0],c,args')) :
    __vprintf memory (fuel + 2) (char '%' :: first :: text) args =
      (convert memory (__vprintf memory (fuel + 1)) ch c args').map Prod.fst := by
  rw [vprintf_percent,percent_cons other,convert_rest,parsed,Option.bind_some]
  change ((convert memory (__vprintf memory (fuel + 1)) ch c args').bind fun done =>
    (__vprintf memory (fuel + 1) [0] done.2).map (done.1 ++ ·)) = _
  cases convert memory (__vprintf memory (fuel + 1)) ch c args' with
  | none => rfl
  | some done => exact congrArg some (List.append_nil done.1)

example : __vprintf (fun _ => 0) 40 (chars "%'+08d|%-5x|%#.3o" ++ [0]) (fun k => BitVec.ofNat 32 (1234 + k)) =
    some (chars "+001,234|4d3  |02324") := by decide +kernel

end Pintos.Printf
