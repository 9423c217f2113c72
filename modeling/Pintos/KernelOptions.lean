import Pintos.Random
import Pintos.Tokens
import Pintos.Decimals

/-!
The options of the kernel command line, as `parse_options` of `threads/init.c` takes them,
and the seed of the random numbers: the option `-rs` sets it inside of the loop, and the
clock after it. An option is cut in place by two calls of `strtok_r`; here it is cut as
a list of characters, and `split_option_spec` compares the two.
-/
namespace Pintos.KernelOptions
open Pintos.Random
open Pintos.Scans
open Pintos.Bitmaps (Byte)
open Pintos.Printf (char chars)
open Pintos.Decimals (atoi int)
set_option linter.unusedSimpArgs false

/-- What is compiled in: `FILESYS`, `VM` and `USERPROG`. -/
structure Kernel where
  filesys : Bool
  vm : Bool
  userprog : Bool

inductive shutdown_type
  | SHUTDOWN_NONE | SHUTDOWN_POWER_OFF | SHUTDOWN_REBOOT
deriving DecidableEq

/-- What the options set. -/
structure Options where
  how : shutdown_type
  format_filesys : Bool
  filesys_bdev_name : Option (List Byte)
  scratch_bdev_name : Option (List Byte)
  swap_bdev_name : Option (List Byte)
  thread_mlfqs : Bool
  user_page_limit : Word
  prng : Prng

/-- Why `parse_options` does not return. -/
inductive Stop
  | usage
  /-- `PANIC ("unknown option `%s' (use -h for help)", name)` -/
  | unknown_option (name : List Byte)
  /-- `ASSERT (s != NULL)` in `atoi` -/
  | atoi_assertion
  /-- The number is no `int`. -/
  | atoi_overflow

/-- The two calls of `strtok_r`: the name up to an equals sign, and the value behind it, if any. -/
def split_option (arg : List Byte) : List Byte × Option (List Byte) :=
  let value := (arg.dropWhile (· ≠ char '=')).tail
  (arg.takeWhile (· ≠ char '='),if value = [] then none else some value)

/-- `atoi (value)` -/
def number (value : Option (List Byte)) : Except Stop Int :=
  match value with
  | none => .error .atoi_assertion
  | some text =>
    match atoi (text ++ [0]) with
    | none => .error .atoi_overflow
    | some n => .ok n

/-- The body of the loop. -/
def parse_option (k : Kernel) (o : Options) (name : List Byte) (value : Option (List Byte)) : Except Stop Options :=
  if name = chars "-h" then .error .usage
  else if name = chars "-q" then .ok { o with how := .SHUTDOWN_POWER_OFF }
  else if name = chars "-r" then .ok { o with how := .SHUTDOWN_REBOOT }
  else if k.filesys ∧ name = chars "-f" then .ok { o with format_filesys := true }
  else if k.filesys ∧ name = chars "-filesys" then .ok { o with filesys_bdev_name := value }
  else if k.filesys ∧ name = chars "-scratch" then .ok { o with scratch_bdev_name := value }
  else if k.filesys ∧ k.vm ∧ name = chars "-swap" then .ok { o with swap_bdev_name := value }
  else if name = chars "-rs" then (number value).map fun n => { o with prng := random_init (BitVec.ofInt 32 n) }
  else if name = chars "-mlfqs" then .ok { o with thread_mlfqs := true }
  else if k.userprog ∧ name = chars "-ul" then (number value).map fun n => { o with user_page_limit := BitVec.ofInt 32 n }
  else .error (.unknown_option name)

/-- The loop, with the arguments that it leaves. -/
def optionLoop (k : Kernel) : List (List Byte) → Options → Except Stop (List (List Byte) × Options)
  | [], o => .ok ([],o)
  | arg :: argv, o =>
    if arg.head? = some (char '-') then
      (parse_option k o (split_option arg).1 (split_option arg).2).bind (optionLoop k argv)
    else .ok (arg :: argv,o)

/-- `clock` is what `rtc_get_time` returns. -/
def parse_options (k : Kernel) (argv : List (List Byte)) (clock : Word) (o : Options) : Except Stop (List (List Byte) × Options) :=
  (optionLoop k argv o).map fun r => (r.1,{ r.2 with prng := random_init clock })

/-! ### The clock -/

/-- The registers of the clock, each with two decimal digits. -/
structure Rtc where
  sec : Byte
  min : Byte
  hour : Byte
  mday : Byte
  mon : Byte
  year : Byte

def bcd_to_bin (x : Byte) : Int := (x &&& 0x0f).toNat + (x >>> 4).toNat * 10

def days_per_month : List Int := [31,28,31,30,31,30,31,31,30,31,30,31]

/-- `rtc_get_time`, once it has read the registers; there is no result if an `int`
    overflows or there is no such month. -/
def rtc_get_time (r : Rtc) : Option Word :=
  let mon := bcd_to_bin r.mon
  let year := (if bcd_to_bin r.year < 70 then bcd_to_bin r.year + 100 else bcd_to_bin r.year) - 70
  if mon > 12 then none
  else (int ((year * 365 + Int.tdiv (year - 1) 4) * 24 * 60 * 60)).map fun time =>
    BitVec.ofInt 32 (time + (days_per_month.take mon.toNat).sum * 24 * 60 * 60 +
      (if mon > 2 ∧ year % 4 = 0 then 24 * 60 * 60 else 0) + (bcd_to_bin r.mday - 1) * 24 * 60 * 60 +
      bcd_to_bin r.hour * 60 * 60 + bcd_to_bin r.min * 60 + bcd_to_bin r.sec)

/-! ### The seed -/

/-- The options include `-rs=SEED`. -/
def Seeded (argv : List (List Byte)) (SEED : Word) : Prop :=
  ∃ before text after n, argv = before ++ (chars "-rs=" ++ text) :: after ∧ (∀ arg ∈ before, arg.head? = some (char '-')) ∧
    text ≠ [] ∧ atoi (text ++ [0]) = some n ∧ SEED = BitVec.ofInt 32 n

/-- With any two clocks the bytes of `random_bytes` after `parse_options` are the same, and
    those of the seed. -/
def Fixed (k : Kernel) (argv : List (List Byte)) (o : Options) (SEED : Word) : Prop :=
  ∀ (r₁ r₂ : Rtc) (t₁ t₂ : Word), rtc_get_time r₁ = some t₁ → rtc_get_time r₂ = some t₂ →
    ∀ after₁ after₂, parse_options k argv t₁ o = .ok after₁ → parse_options k argv t₂ o = .ok after₂ →
      ∀ size, (random_bytes after₁.2.prng size).1 = (random_bytes after₂.2.prng size).1 ∧
        (random_bytes after₂.2.prng size).1 = (random_bytes (random_init SEED) size).1

variable {k : Kernel} {argv : List (List Byte)} {o : Options} {clock SEED : Word} {r : List (List Byte) × Options}

/-! ### Options as strings in memory -/

variable {d m : Strings.Mem} {equals empty p save b i : Nat} {arg text : List Byte}

theorem cut_at_equals (arg : List Byte) (b : Nat) (before : ∀ i, i < b → ∀ inside : i < arg.length, arg[i] ≠ char '=')
    (ends : ∀ c, arg[b]? = some c → c = char '=') :
    arg.takeWhile (· ≠ char '=') = arg.take b ∧ (arg.dropWhile (· ≠ char '=')).tail = arg.drop (b + 1) := by
  have letters : ∀ c ∈ arg.take b, decide (c ≠ char '=') = true := by
    intro c member
    obtain ⟨i,below,rfl⟩ := List.getElem_of_mem member
    rw [List.length_take] at below
    rw [List.getElem_take]
    exact decide_eq_true (before i (by omega) (by omega))
  have shape : arg = arg.take b ++ arg.drop b := (List.take_append_drop b arg).symm
  have behind : arg.drop (b + 1) = (arg.drop b).tail := by rw [List.tail_drop]
  have stop : (arg.drop b).takeWhile (· ≠ char '=') = [] ∧ (arg.drop b).dropWhile (· ≠ char '=') = arg.drop b := by
    rcases rest : arg.drop b with _ | ⟨c,tail⟩
    · exact ⟨rfl,rfl⟩
    · have first : arg[b]? = some c := by rw [← Nat.add_zero b,← List.getElem?_drop,rest]; rfl
      rw [ends c first]
      exact ⟨by simp,by simp⟩
  constructor
  · nth_rewrite 1 [shape]
    rw [List.takeWhile_append_of_pos letters,stop.1,List.append_nil]
  · nth_rewrite 1 [shape]
    rw [List.dropWhile_append_of_pos letters,stop.2,behind]

/-- The first call gives the name and the second one the value, or a null pointer. -/
theorem split_option_spec (set : CString d equals [char '=']) (none_ : CString d empty []) (string : CString m p arg)
    (short : arg.length < Strings.limit) (option : arg.head? = some (char '-')) :
    ∃ m' q, Tokens.strtok_r d equals m (some p) save = (some p,m',q) ∧ CString m' p (split_option arg).1 ∧
      match (split_option arg).2 with
      | none => (Tokens.strtok_r d empty m' none q).1 = none
      | some value => (Tokens.strtok_r d empty m' none q).1 = some q ∧ CString (Tokens.strtok_r d empty m' none q).2.1 q value := by
  have dash : arg[0]? = some (char '-') := by rw [← List.head?_eq_getElem?,option]
  have letter : ¬ Tokens.Separates [char '='] arg 0 := fun separated => absurd (separated _ dash) (by decide)
  rcases Tokens.strtok_r_cut (some p) save set (by decide) string short with ⟨all,_⟩ | ⟨a,b,cut⟩
  · exact absurd (all 0) letter
  · obtain rfl : a = 0 := Nat.eq_zero_of_not_pos fun positive => letter (cut.before 0 positive)
    have name_string := Tokens.cut_word_string cut string
    have value_string := Tokens.cut_rest_string cut string
    obtain ⟨name,value⟩ := cut_at_equals arg b
      (fun i below inside same => cut.inside i (Nat.zero_le i) below ((Tokens.separates_iff inside).mpr (by simp [same])))
      (fun c found => by simpa using cut.ends c found)
    refine ⟨_,_,Prod.ext cut.found rfl,?_,?_⟩
    · show CString _ p (arg.takeWhile _)
      rw [name]
      exact name_string
    · rw [split_option]
      simp only [value]
      have le := cut.le
      rcases Tokens.strtok_r_cut none _ none_ (by decide) value_string (by rw [List.length_drop]; omega) with
        ⟨all,_,ended⟩ | ⟨a',b',cut'⟩
      · have none : arg.drop (b + 1) = [] := List.eq_nil_iff_forall_not_mem.mpr fun c member => by
          obtain ⟨i,below,rfl⟩ := List.getElem_of_mem member
          exact absurd ((Tokens.separates_iff below).mp (all i)) List.not_mem_nil
        rw [if_pos none,ended]
      · have lt' := cut'.lt
        have le' := cut'.le
        have some_value : arg.drop (b + 1) ≠ [] := List.length_pos_iff.mp (by omega)
        -- Without delimiters the token is the whole string.
        have apart (i : Nat) (below : i < (arg.drop (b + 1)).length) : ¬ Tokens.Separates [] (arg.drop (b + 1)) i :=
          fun separated => absurd ((Tokens.separates_iff below).mp separated) List.not_mem_nil
        obtain rfl : a' = 0 := Nat.eq_zero_of_not_pos fun positive => apart 0 (by omega) (cut'.before 0 positive)
        obtain rfl : b' = (arg.drop (b + 1)).length := Nat.le_antisymm le' (Nat.le_of_not_lt fun short => apart b' short cut'.ends)
        have whole := Tokens.cut_word_string cut' value_string
        rw [Tokens.word,Nat.sub_zero,List.drop_zero,List.take_length] at whole
        rw [if_neg some_value]
        exact ⟨cut'.found,whole⟩

/-! ### What is left of the seed -/

theorem parse_option_seed (k : Kernel) (o : Options) (value : Option (List Byte)) :
    parse_option k o (chars "-rs") value = (number value).map fun n => { o with prng := random_init (BitVec.ofInt 32 n) } := by
  have other {b : Bool} {name : List Byte} (different : chars "-rs" ≠ name) : ¬ (b = true ∧ chars "-rs" = name) :=
    fun both => different both.2
  rw [parse_option,if_neg (by decide),if_neg (by decide),if_neg (by decide),if_neg (other (by decide)),
    if_neg (other (by decide)),if_neg (other (by decide)),if_neg (fun both => absurd both.2.2 (by decide)),if_pos rfl]

/-- The loop takes the seed. -/
theorem seed_option {n : Int} (some_text : text ≠ []) (number_ : atoi (text ++ [0]) = some n) (k : Kernel) (o : Options) :
    parse_option k o (split_option (chars "-rs=" ++ text)).1 (split_option (chars "-rs=" ++ text)).2 =
      .ok { o with prng := random_init (BitVec.ofInt 32 n) } := by
  have split : split_option (chars "-rs=" ++ text) = (chars "-rs",some text) := by
    obtain ⟨name,value⟩ := cut_at_equals (chars "-rs=" ++ text) 3 (by
      intro i below inside
      rw [List.getElem_append_left (show i < (chars "-rs=").length from Nat.lt_succ_of_lt below)]
      have letters : ∀ c ∈ (chars "-rs=").take 3, c ≠ char '=' := by decide
      exact letters _ (List.mem_take_iff_getElem.mpr ⟨i,by rw [show (chars "-rs=").length = 4 from rfl]; omega,rfl⟩)) (by
      rintro c found
      exact (Option.some.inj found).symm)
    rw [split_option]
    simp only [name,value]
    exact if_neg some_text ▸ rfl
  have taken : number (some text) = .ok n := by
    rw [number]
    simp only [number_]
  rw [split,parse_option_seed,taken]
  rfl

/-- Whatever the options, the clock is the seed at the end. -/
theorem parse_options_prng (ran : parse_options k argv clock o = .ok r) : r.2.prng = random_init clock := by
  rw [parse_options] at ran
  cases looped : optionLoop k argv o with
  | error stop =>
    rw [looped] at ran
    cases ran
  | ok left =>
    rw [looped] at ran
    cases ran
    rfl

theorem parse_options_returns (looped : optionLoop k argv o = .ok r) (clock : Word) :
    parse_options k argv clock o = .ok (r.1,{ r.2 with prng := random_init clock }) := by
  rw [parse_options,looped]
  rfl

/-- Two seconds of the first of January 1970. -/
def newYear : Rtc := ⟨0x00,0x00,0x00,0x01,0x01,0x70⟩
def aSecondLater : Rtc := { newYear with sec := 0x01 }

theorem newYear_time : rtc_get_time newYear = some 2678400 := by decide
theorem aSecondLater_time : rtc_get_time aSecondLater = some 2678401 := by decide

theorem not_fixed (looped : optionLoop k argv o = .ok r) (SEED : Word) : ¬ Fixed k argv o SEED := by
  intro fixed
  have same := (fixed newYear aSecondLater _ _ newYear_time aSecondLater_time _ _ (parse_options_returns looped _)
    (parse_options_returns looped _) 1).1
  exact streams_differ same

/-- The stream is that of the seed, at any two clocks, only when there is none: when
    `parse_options` does not return. -/
theorem seed_fixes_iff (k : Kernel) (argv : List (List Byte)) (o : Options) (SEED : Word) :
    Fixed k argv o SEED ↔ ∀ clock r, parse_options k argv clock o ≠ .ok r := by
  constructor
  · intro fixed clock r ran
    cases looped : optionLoop k argv o with
    | error stop =>
      rw [parse_options,looped] at ran
      cases ran
    | ok left => exact not_fixed looped SEED fixed
  · intro stops _ _ t₁ _ _ _ after₁ _ ran₁
    exact absurd ran₁ (stops t₁ after₁)

/-- `-rs=7` at two seconds. -/
theorem seed_not_fixed : ¬ ∀ k argv o SEED, Seeded argv SEED → Fixed k argv o SEED := by
  intro claim
  have seeded : Seeded [chars "-rs=7"] 7 := ⟨[],chars "7",[],7,by decide,fun _ member => absurd member List.not_mem_nil,by decide,
    by decide,by decide⟩
  have looped : optionLoop ⟨true,true,true⟩ [chars "-rs=7"] ⟨.SHUTDOWN_NONE,false,none,none,none,false,0,random_init 0⟩ =
      .ok ([],⟨.SHUTDOWN_NONE,false,none,none,none,false,0,random_init 7⟩) := rfl
  exact not_fixed looped 7 (claim _ _ _ _ seeded)

end Pintos.KernelOptions
