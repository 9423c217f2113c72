import Pintos.Strings
import Pintos.UserMemory
import Pintos.Stores
import Mathlib.Data.List.OfFn

/-!
The stack that `start_process` sets up for the arguments of a command line. Its
writes go to addresses below the `esp` that `setup_stack` gives it; `writes` keeps
them in order, each with the bytes it stores. Two copies of the command line are cut
into tokens: one to measure the arguments, one to write them.
-/
namespace Pintos.Arguments
open Pintos.UserMemory Pintos.Strings Pintos.Scans Pintos.Stores
open Pintos.Bitmaps (Byte byte_of word_of word_of_byte_of)
set_option linter.unusedSimpArgs false

abbrev Write := Addr × List Byte

/-- The bytes of a word, in the order of their addresses. -/
def word_bytes (w : BitVec 32) : List Byte := [byte_of w 0,byte_of w 1,byte_of w 2,byte_of w 3]
def delimiters : List Byte := [32]

/-- `memcpy` of a string with its zero. -/
def string_bytes (m : Mem) (s : Nat) : List Byte := (List.range (strlen m s + 1)).map fun i => m (s + i)

/-- The first loop: how long the arguments are, and how many. -/
def measure : Nat → Mem → Option Nat → Nat → BitVec 32 → BitVec 32 → Option (BitVec 32 × BitVec 32)
  | 0, _, _, _, _, _ => none
  | _ + 1, _, none, _, arg_length, arg_count => some (arg_length,arg_count)
  | n + 1, m, some token, temp_save_ptr, arg_length, arg_count =>
    let next := strtok_r delimiters m none temp_save_ptr
    measure n next.2.1 next.1 next.2.2 (arg_length + BitVec.ofNat 32 (strlen m token + 1)) (arg_count + 1)

/-- The second loop: the arguments and the pointers to them; it gives `temp_addr` back. -/
def push : Nat → Mem → Option Nat → Nat → Addr → Addr → List Write → Option (List Write × Addr)
  | 0, _, _, _, _, _, _ => none
  | _ + 1, _, none, _, _, temp_addr, writes => some (writes,temp_addr)
  | n + 1, m, some file_name, save_ptr, stack_top, temp_addr, writes =>
    let next := strtok_r delimiters m none save_ptr
    push n next.2.1 next.1 next.2.2 (stack_top + BitVec.ofNat 32 (strlen m file_name + 1)) (temp_addr + 4)
      (writes ++ [(stack_top,string_bytes m file_name),(temp_addr,word_bytes stack_top)])

structure Frame where
  writes : List Write
  esp : Addr

def word_align (arg_length : BitVec 32) : BitVec 32 := if arg_length % 4 ≠ 0 then 4 - arg_length % 4 else 0

/-- What `start_process` does after `load`, from its two copies of the command line in
    new blocks of memory on. -/
def start_process (file_name_ first_block second_block : Mem) (esp : Addr) : Option Frame := do
  let size := strlen file_name_ 0 + 1
  let (file_name,temp_file_name,save_ptr) := strtok_r delimiters (strlcpy first_block 0 file_name_ 0 size) (some 0) 0
  let (token,temp_file_name_,temp_save_ptr) := strtok_r delimiters (strlcpy second_block 0 file_name_ 0 size) (some 0) 0
  let (arg_length,arg_count) ← measure limit temp_file_name_ token temp_save_ptr 0 0
  let temp_addr := esp - arg_length
  let stack_top := temp_addr
  let temp_addr := temp_addr - (word_align arg_length + 4)
  let zeros : Write := (temp_addr,List.replicate (word_align arg_length + 4).toNat 0)
  let temp_addr := temp_addr - 4 * arg_count
  let argv0_addr := temp_addr
  let (writes,temp_addr) ← push limit temp_file_name file_name save_ptr stack_top temp_addr [zeros]
  let temp_addr := temp_addr - (4 * arg_count + 4)
  let argv : Write := (temp_addr,word_bytes argv0_addr)
  let temp_addr := temp_addr - 8
  some {
    writes := writes ++ [argv,(temp_addr + 4,word_bytes arg_count),(temp_addr,List.replicate 4 0)]
    esp := temp_addr }

/-! ### What is written -/

def measured : List (List Byte) → Nat
  | [] => 0
  | w :: rest => w.length + 1 + measured rest

/-- The writes of the second loop. -/
def pushes : List (List Byte) → Addr → Addr → List Write
  | [], _, _ => []
  | w :: rest, stack_top, temp_addr =>
    (stack_top,w ++ [0]) :: (temp_addr,word_bytes stack_top) :: pushes rest (stack_top + BitVec.ofNat 32 (w.length + 1))
    (temp_addr + 4)

/-- Rounded up to a multiple of 4. -/
def aligned (n : Nat) : Nat := (n + 3) / 4 * 4
/-- The bytes that the frame of these arguments takes. -/
def layout (args : List (List Byte)) : Nat := aligned (measured args) + 4 * args.length + 16

variable {m : Mem} {s save n : Nat} {text : List Byte} {args : List (List Byte)} {w : List Byte} {top arg : Addr}
  {writes : List Write}

theorem delimiters_clean : (0 : Byte) ∉ delimiters := by decide

theorem string_bytes_spec (string : CString m s w) (short : w.length < limit) : string_bytes m s = w ++ [0] := by
  obtain ⟨chars,ended⟩ := cstring_append.mp (show CString m s (w ++ []) by rwa [List.append_nil])
  rw [string_bytes,strlen_spec string short]
  refine List.ext_getElem (by simp) fun i below _ => ?_
  rw [List.getElem_map,List.getElem_range]
  rcases Nat.lt_or_ge i w.length with inside | last
  · rw [List.getElem_append_left inside]
    exact (chars i inside).1
  · have same : i = w.length := by
      rw [List.length_map,List.length_range] at below
      omega
    subst same
    rw [List.getElem_append_right (Nat.le_refl _)]
    rw [List.getElem_singleton]
    exact ended

/-- The text that the calls of `strtok_r` still have before them, and the token they
    gave last. -/
inductive Remains (m : Mem) : Option Nat → Nat → List (List Byte) → Nat → Prop
  | none (save : Nat) : Remains m none save [] 0
  | some {token save : Nat} {w rest : List Byte} (token_string : CString m token w) (rest_string : CString m save rest)
      (short : w.length + rest.length < limit) : Remains m (some token) save (w :: tokens delimiters rest) (rest.length + 1)

theorem remains_next (t : Option Nat) (save : Nat) (string : CString m (t.getD save) text) (short : text.length < limit) :
    ∃ k ≤ text.length, Remains (strtok_r delimiters m t save).2.1 (strtok_r delimiters m t save).1 (strtok_r delimiters m t save).2.2
      (tokens delimiters text) k := by
  rcases strtok_r_spec t save string short delimiters_clean with ⟨none,found⟩ | ⟨token,word,rest,spec⟩
  · rw [none,found]
    exact ⟨0,Nat.zero_le _,.none _⟩
  · have shorter := spec.shorter
    have some_word := List.length_pos_iff.mpr spec.nonempty
    rw [spec.found,spec.first]
    exact ⟨rest.length + 1,by omega,.some spec.token_string spec.rest_string (by omega)⟩

theorem measure_spec {t : Option Nat} {k : Nat} (remains : Remains m t save args k) (enough : k < n)
    (arg_length arg_count : BitVec 32) :
    measure n m t save arg_length arg_count =
      some (arg_length + BitVec.ofNat 32 (measured args),arg_count + BitVec.ofNat 32 args.length) := by
  induction n generalizing m t save args k arg_length arg_count with
  | zero => omega
  | succ n ih =>
    cases remains with
    | none save => simp [measure,measured]
    | some token_string rest_string short =>
      rename_i token w rest
      obtain ⟨j,less,later⟩ := remains_next none _ rest_string (by omega)
      have count : arg_count + 1 + BitVec.ofNat 32 (tokens delimiters rest).length =
          arg_count + BitVec.ofNat 32 ((tokens delimiters rest).length + 1) := by
        rw [BitVec.add_assoc,Nat.add_comm,BitVec.ofNat_add]
        rfl
      rw [measure,strlen_spec token_string (by omega),ih later (by omega),measured,List.length_cons,count,BitVec.add_assoc,
        ← BitVec.ofNat_add]

theorem push_spec {t : Option Nat} {k : Nat} (remains : Remains m t save args k) (enough : k < n) :
    push n m t save top arg writes = some (writes ++ pushes args top arg,arg + BitVec.ofNat 32 (4 * args.length)) := by
  induction n generalizing m t save args k top arg writes with
  | zero => omega
  | succ n ih =>
    cases remains with
    | none save => simp [push,pushes]
    | some token_string rest_string short =>
      rename_i token w rest
      obtain ⟨j,less,later⟩ := remains_next none _ rest_string (by omega)
      have count : arg + 4 + BitVec.ofNat 32 (4 * (tokens delimiters rest).length) =
          arg + BitVec.ofNat 32 (4 * ((tokens delimiters rest).length + 1)) := by
        rw [BitVec.add_assoc,Nat.mul_add,Nat.add_comm (4 * _),BitVec.ofNat_add]
        rfl
      rw [push,strlen_spec token_string (by omega),string_bytes_spec token_string (by omega),ih later (by omega),pushes,List.length_cons,
        count,List.append_assoc]
      rfl

/-- Where the frame of some arguments begins, below `esp`. -/
def start (esp : Addr) (args : List (List Byte)) : Addr := esp - BitVec.ofNat 32 (layout args)

/-- All writes, from the addresses that the pointers come to. -/
def frame (esp : Addr) (args : List (List Byte)) : Frame where
  writes :=
    (esp - BitVec.ofNat 32 (aligned (measured args)) - 4,List.replicate (aligned (measured args) - measured args + 4) 0) ::
      pushes args (esp - BitVec.ofNat 32 (measured args)) (start esp args + 12) ++
      [(start esp args + 8,word_bytes (start esp args + 12)),(start esp args + 4,word_bytes (BitVec.ofNat 32 args.length)),
        (start esp args,List.replicate 4 0)]
  esp := start esp args

theorem measured_split (p : Byte → Bool) (text : List Byte) : measured (text.splitOnP p) = text.length + 1 := by
  induction text with
  | nil => rfl
  | cons c text ih =>
    rw [List.splitOnP_cons_eq_if_modifyHead,List.length_cons]
    split
    · rw [measured,ih,List.length_nil]
      omega
    · obtain ⟨w,rest,shape⟩ := List.exists_cons_of_ne_nil (List.splitOnP_ne_nil p text)
      rw [shape,measured] at ih
      rw [shape,List.modifyHead_cons,measured,List.length_cons]
      omega

theorem measured_filter (p : List Byte → Bool) (list : List (List Byte)) : measured (list.filter p) ≤ measured list := by
  induction list with
  | nil => exact Nat.le_refl _
  | cons w rest ih =>
    rw [List.filter_cons,measured]
    split
    · rw [measured]
      omega
    · omega

theorem measured_tokens (text : List Byte) : measured (tokens delimiters text) ≤ text.length + 1 := by
  rw [← measured_split]
  exact measured_filter _ _

theorem tokens_measured (args : List (List Byte)) (some : ∀ w ∈ args, w ≠ []) : 2 * args.length ≤ measured args := by
  induction args with
  | nil => exact Nat.le_refl _
  | cons w rest ih =>
    have letter := List.length_pos_iff.mpr (some w List.mem_cons_self)
    have others := ih fun v member => some v (List.mem_cons_of_mem w member)
    rw [List.length_cons,measured]
    omega

/-- No command line of a page needs more than these bytes. -/
theorem layout_bound (short : text.length < 4096) : layout (tokens delimiters text) ≤ 12304 := by
  have all := measured_tokens text
  have each := tokens_measured (tokens delimiters text) fun w member => by simpa using (List.mem_filter.mp member).2
  rw [layout,aligned]
  omega

theorem word_align_spec {n : Nat} (small : n < 2 ^ 31) : word_align (BitVec.ofNat 32 n) = BitVec.ofNat 32 (aligned n - n) := by
  refine BitVec.eq_of_toNat_eq ?_
  have whole : (BitVec.ofNat 32 n).toNat = n := by
    rw [BitVec.toNat_ofNat]
    omega
  have rest : (BitVec.ofNat 32 n % 4).toNat = n % 4 := by
    rw [BitVec.toNat_umod,whole]
    rfl
  rw [word_align,aligned]
  split
  · next some => bv_omega
  · next none =>
    have zero : (BitVec.ofNat 32 n % 4).toNat = 0 := congrArg BitVec.toNat (not_not.mp none)
    bv_omega

theorem start_process_spec {file_name_ first_block second_block : Mem} {esp : Addr} (string : CString file_name_ 0 text)
    (tiny : text.length < limit) (bound : layout (tokens delimiters text) ≤ 12304) :
    start_process file_name_ first_block second_block esp = some (frame esp (tokens delimiters text)) := by
  have fits : text.length < strlen file_name_ 0 + 1 := by
    rw [strlen_spec string tiny]
    omega
  obtain ⟨i,less_i,first⟩ := remains_next (some 0) 0 (strlcpy_spec first_block 0 string tiny fits).1 tiny
  obtain ⟨j,less_j,second⟩ := remains_next (some 0) 0 (strlcpy_spec second_block 0 string tiny fits).1 tiny
  rw [layout] at bound
  have zero_add (x : BitVec 32) : 0 + x = x := BitVec.zero_add x
  obtain ⟨args,named⟩ : ∃ args, tokens delimiters text = args := ⟨_,rfl⟩
  rw [named] at first second bound
  have up : measured args ≤ aligned (measured args) := by
    rw [aligned]
    omega
  have align := word_align_spec (n := measured args) (by omega)
  have zeros_at : esp - BitVec.ofNat 32 (measured args) - (word_align (BitVec.ofNat 32 (measured args)) + 4) =
      esp - BitVec.ofNat 32 (aligned (measured args)) - 4 := by
    have sum : BitVec.ofNat 32 (aligned (measured args)) =
        BitVec.ofNat 32 (measured args) + BitVec.ofNat 32 (aligned (measured args) - measured args) := by
      rw [← BitVec.ofNat_add,Nat.add_sub_cancel' up]
    rw [align,sum]
    generalize BitVec.ofNat 32 (measured args) = x
    generalize BitVec.ofNat 32 (aligned (measured args) - measured args) = y
    clear * -
    bv_omega
  have zeros_count : (word_align (BitVec.ofNat 32 (measured args)) + 4).toNat = aligned (measured args) - measured args + 4 := by
    rw [align]
    bv_omega
  have argv_at : esp - BitVec.ofNat 32 (aligned (measured args)) - 4 - 4 * BitVec.ofNat 32 args.length = start esp args + 12 := by
    rw [start,layout]
    bv_omega
  have back : start esp args + 12 + BitVec.ofNat 32 (4 * args.length) - (4 * BitVec.ofNat 32 args.length + 4) = start esp args + 8 := by
    bv_omega
  have bottom (x : Addr) : x + 8 - 8 = x := by bv_omega
  rw [start_process]
  simp only [measure_spec second (by omega : j < limit),push_spec first (by omega : i < limit),Option.bind_eq_bind,Option.bind_some,
    zero_add,zeros_at,zeros_count,argv_at,back,bottom,named]
  rfl

/-! ### The calling frame -/

def read_word (stack : Addr → Byte) (a : Addr) : BitVec 32 := stack (a + 3) ++ stack (a + 2) ++ stack (a + 1) ++ stack a
/-- `argv[i]` -/
def pointer (stack : Addr → Byte) (esp : Addr) (i : Nat) : Addr := read_word stack (esp + 12 + BitVec.ofNat 32 (4 * i))
/-- The return address, `argc`, `argv`, the array and the strings: where each begins, and
    its bytes. -/
def regions (stack : Addr → Byte) (esp : Addr) (args : List (List Byte)) : List (Nat × Nat) :=
  [(esp.toNat,4),((esp + 4).toNat,4),((esp + 8).toNat,4),((esp + 12).toNat,4 * (args.length + 1))] ++
    List.ofFn fun i : Fin args.length => ((pointer stack esp i).toNat,args[i].length + 1)

/-- The frame of a C function that is called with `args`, inside the stack page. -/
structure CallingFrame (stack : Addr → Byte) (esp : Addr) (args : List (List Byte)) : Prop where
  page : PHYS_BASE.toNat - PGSIZE ≤ esp.toNat
  alignment : esp.toNat % 4 = 0
  return_address : read_word stack esp = 0
  argc : (read_word stack (esp + 4)).toNat = args.length
  argv : read_word stack (esp + 8) = esp + 12
  strings : ∀ i (h : i < args.length), Holds stack (pointer stack esp i) (args[i] ++ [0]) ∧
    PHYS_BASE.toNat - PGSIZE ≤ (pointer stack esp i).toNat ∧ (pointer stack esp i).toNat + args[i].length + 1 ≤ PHYS_BASE.toNat
  null : pointer stack esp args.length = 0
  apart : (regions stack esp args).Pairwise fun r q => r.1 + r.2 ≤ q.1 ∨ q.1 + q.2 ≤ r.1

variable {stack : Addr → Byte} {esp a : Addr} {x : BitVec 32}

theorem read_word_holds (holds : Holds stack a (word_bytes x)) : read_word stack a = x := by
  have b0 : stack (a + 0) = byte_of x 0 := holds 0 (show 0 < 4 by decide)
  have b1 : stack (a + 1) = byte_of x 1 := holds 1 (show 1 < 4 by decide)
  have b2 : stack (a + 2) = byte_of x 2 := holds 2 (show 2 < 4 by decide)
  have b3 : stack (a + 3) = byte_of x 3 := holds 3 (show 3 < 4 by decide)
  rw [show a + 0 = a from BitVec.add_zero a] at b0
  rw [read_word,b3,b2,b1,b0]
  exact word_of_byte_of x

theorem read_word_zero (holds : Holds stack a (List.replicate 4 0)) : read_word stack a = 0 := by
  refine read_word_holds (x := 0) ?_
  rwa [show word_bytes 0 = List.replicate 4 0 by decide]

/-- The pointers are in order and below the strings; the strings follow each other. -/
theorem pushes_apart (order : arg.toNat + 4 * args.length ≤ top.toNat) (small : top.toNat + measured args < 2 ^ 32) :
    (pushes args top arg).Pairwise Apart ∧ ∀ b ∈ pushes args top arg,
      (top.toNat ≤ b.1.toNat ∧ b.1.toNat + b.2.length ≤ top.toNat + measured args) ∨
      (arg.toNat ≤ b.1.toNat ∧ b.1.toNat + b.2.length ≤ arg.toNat + 4 * args.length) := by
  induction args generalizing top arg with
  | nil => exact ⟨List.Pairwise.nil,fun b member => by cases member⟩
  | cons w rest ih =>
    rw [List.length_cons] at order ⊢
    rw [measured] at small ⊢
    have top' : (top + BitVec.ofNat 32 (w.length + 1)).toNat = top.toNat + w.length + 1 := by bv_omega
    have arg' : (arg + 4).toNat = arg.toNat + 4 := by bv_omega
    obtain ⟨apart,bounds⟩ := @ih (top + BitVec.ofNat 32 (w.length + 1)) (arg + 4) (by omega) (by omega)
    have word : (word_bytes top).length = 4 := rfl
    have string : (w ++ [0]).length = w.length + 1 := by simp
    constructor
    · refine List.pairwise_cons.mpr ⟨fun b member => ?_,List.pairwise_cons.mpr ⟨fun b member => ?_,apart⟩⟩
      · rcases List.mem_cons.mp member with same | later
        · subst same
          exact .inr (by show arg.toNat + (word_bytes top).length ≤ top.toNat; omega)
        · rcases bounds b later with above | below
          · exact .inl (by show top.toNat + (w ++ [0]).length ≤ _; omega)
          · exact .inr (by show _ ≤ top.toNat; omega)
      · rcases bounds b member with above | below
        · exact .inl (by show arg.toNat + (word_bytes top).length ≤ _; omega)
        · exact .inl (by show arg.toNat + (word_bytes top).length ≤ _; omega)
    · intro b member
      rcases List.mem_cons.mp member with same | others
      · subst same
        exact .inl ⟨Nat.le_refl _,by show top.toNat + (w ++ [0]).length ≤ _; omega⟩
      · rcases List.mem_cons.mp others with same | later
        · subst same
          exact .inr ⟨Nat.le_refl _,by show arg.toNat + (word_bytes top).length ≤ _; omega⟩
        · rcases bounds b later with above | below
          · exact .inl ⟨by omega,by omega⟩
          · exact .inr ⟨by omega,by omega⟩

/-- The string of an argument, and the pointer to it. -/
theorem pushes_member (i : Nat) (below : i < args.length) (small : top.toNat + measured args < 2 ^ 32) :
    ∃ p : Addr, p.toNat = top.toNat + measured (args.take i) ∧ (p,args[i] ++ [0]) ∈ pushes args top arg ∧
      (arg + BitVec.ofNat 32 (4 * i),word_bytes p) ∈ pushes args top arg := by
  induction args generalizing top arg i with
  | nil => cases below
  | cons w rest ih =>
    rw [measured] at small
    cases i with
    | zero =>
      refine ⟨top,rfl,List.mem_cons_self,?_⟩
      rw [show arg + BitVec.ofNat 32 (4 * 0) = arg from BitVec.add_zero arg]
      exact List.mem_cons_of_mem _ List.mem_cons_self
    | succ i =>
      have top' : (top + BitVec.ofNat 32 (w.length + 1)).toNat = top.toNat + w.length + 1 := by bv_omega
      obtain ⟨p,at_,string,word⟩ := @ih (top + BitVec.ofNat 32 (w.length + 1)) (arg + 4) i (by simpa using below) (by omega)
      refine ⟨p,?_,List.mem_cons_of_mem _ (List.mem_cons_of_mem _ string),?_⟩
      · rw [at_,List.take_succ_cons,measured]
        omega
      · rw [show arg + BitVec.ofNat 32 (4 * (i + 1)) = arg + 4 + BitVec.ofNat 32 (4 * i) by bv_omega]
        exact List.mem_cons_of_mem _ (List.mem_cons_of_mem _ word)

theorem start_toNat (room : layout args ≤ esp.toNat) : (start esp args).toNat = esp.toNat - layout args := by
  rw [start]
  bv_omega

theorem aligned_le (n : Nat) : n ≤ aligned n ∧ aligned n ≤ n + 3 := by
  rw [aligned]
  omega

/-- No two writes of a frame have an address in common, and all are from its start to
    `esp`. -/
theorem frame_apart (room : layout args ≤ esp.toNat) : (frame esp args).writes.Pairwise Apart ∧
    ∀ b ∈ (frame esp args).writes, (start esp args).toNat ≤ b.1.toNat ∧ b.1.toNat + b.2.length ≤ esp.toNat := by
  have begin_ := start_toNat room
  have up := aligned_le (measured args)
  rw [layout] at room begin_
  have bound := esp.isLt
  have top : (esp - BitVec.ofNat 32 (measured args)).toNat = esp.toNat - measured args := by bv_omega
  have zeros : (esp - BitVec.ofNat 32 (aligned (measured args)) - 4).toNat = esp.toNat - aligned (measured args) - 4 := by
    bv_omega
  have low (k : Addr) (small : k.toNat ≤ 12) : (start esp args + k).toNat = (start esp args).toNat + k.toNat := by bv_omega
  have four := low 4 (by decide)
  have eight := low 8 (by decide)
  have twelve := low 12 (by decide)
  rw [show (4 : Addr).toNat = 4 from rfl] at four
  rw [show (8 : Addr).toNat = 8 from rfl] at eight
  rw [show (12 : Addr).toNat = 12 from rfl] at twelve
  obtain ⟨apart,bounds⟩ := @pushes_apart args (esp - BitVec.ofNat 32 (measured args)) (start esp args + 12)
    (by omega) (by omega)
  have word (x : BitVec 32) : (word_bytes x).length = 4 := rfl
  have bottom : ∀ c ∈ [(start esp args + 8,word_bytes (start esp args + 12)),(start esp args + 4,word_bytes (BitVec.ofNat 32 args.length)),
      (start esp args,List.replicate 4 0)], (start esp args).toNat ≤ c.1.toNat ∧
          c.1.toNat + c.2.length ≤ (start esp args).toNat + 12 := by
    intro c member
    simp only [List.mem_cons,List.not_mem_nil,or_false] at member
    rcases member with rfl | rfl | rfl
    · show _ ≤ (start esp args + 8).toNat ∧ (start esp args + 8).toNat + (word_bytes _).length ≤ _
      rw [word]
      omega
    · show _ ≤ (start esp args + 4).toNat ∧ (start esp args + 4).toNat + (word_bytes _).length ≤ _
      rw [word]
      omega
    · show _ ≤ (start esp args).toNat ∧ (start esp args).toNat + 4 ≤ _
      omega
  constructor
  · refine List.pairwise_cons.mpr ⟨fun b member => ?_,List.pairwise_append.mpr ⟨apart,?_,fun b member c last => ?_⟩⟩
    · rw [Apart,List.length_replicate,zeros]
      rcases List.mem_append.mp member with pushed | last
      · rcases bounds b pushed with above | below
        · exact .inl (by omega)
        · exact .inr (by omega)
      · have inside := bottom b last
        exact .inr (by omega)
    · simp only [List.pairwise_cons,List.mem_cons,List.not_mem_nil,or_false,forall_eq_or_imp,forall_eq,Apart,word,
        List.length_replicate,
        IsEmpty.forall_iff,implies_true,List.Pairwise.nil,and_true]
      omega
    · have inside := bottom c last
      rcases bounds b member with string | pointer
      · exact .inr (by omega)
      · exact .inr (by omega)
  · intro b member
    rcases List.mem_cons.mp member with rfl | others
    · rw [List.length_replicate,zeros]
      omega
    · rcases List.mem_append.mp others with pushed | last
      · rcases bounds b pushed with string | pointer
        · omega
        · omega
      · have inside := bottom b last
        omega

theorem take_measured (i : Nat) (below : i < args.length) :
    measured (args.take i) + args[i].length + 1 = measured (args.take (i + 1)) ∧
    measured (args.take (i + 1)) ≤ measured args := by
  induction args generalizing i with
  | nil => cases below
  | cons w rest ih =>
    cases i with
    | zero =>
      simp only [List.take_zero,List.take_succ_cons,measured,List.getElem_cons_zero]
      omega
    | succ i =>
      have later := ih i (by simpa using below)
      rw [List.take_succ_cons,List.take_succ_cons,measured,measured,measured,List.getElem_cons_succ]
      omega

theorem take_measured_mono {i j : Nat} (order : i ≤ j) : measured (args.take i) ≤ measured (args.take j) := by
  induction args generalizing i j with
  | nil => simp
  | cons w rest ih =>
    cases i with
    | zero => exact Nat.zero_le _
    | succ i =>
      cases j with
      | zero => omega
      | succ j =>
        rw [List.take_succ_cons,List.take_succ_cons,measured,measured]
        have rest := ih (show i ≤ j by omega)
        omega

/-- What the writes of a frame leave in memory. -/
theorem frame_spec (stack : Addr → Byte) (page : layout args ≤ PGSIZE) :
    CallingFrame (store stack (frame PHYS_BASE args).writes) (start PHYS_BASE args) args := by
  have base : PHYS_BASE.toNat = 0xc0000000 := rfl
  have size : PGSIZE = 4096 := rfl
  have room : layout args ≤ PHYS_BASE.toNat := by omega
  obtain ⟨apart,inside⟩ := frame_apart room
  have fit : ∀ b ∈ (frame PHYS_BASE args).writes, Fits b := by
    intro b member
    have high := (inside b member).2
    rw [Fits]
    omega
  have begin_ := start_toNat room
  have up := aligned_le (measured args)
  have held {b : Write} (member : b ∈ (frame PHYS_BASE args).writes) :
      Holds (store stack (frame PHYS_BASE args).writes) b.1 b.2 :=
    store_inside apart fit member
  have last {b : Write} (member : b ∈ [(start PHYS_BASE args + 8,word_bytes (start PHYS_BASE args + 12)),
      (start PHYS_BASE args + 4,word_bytes (BitVec.ofNat 32 args.length)),(start PHYS_BASE args,List.replicate 4 0)]) :=
    held (List.mem_cons_of_mem _ (List.mem_append_right _ member))
  have pushed {b : Write} (member : b ∈ pushes args (PHYS_BASE - BitVec.ofNat 32 (measured args)) (start PHYS_BASE args + 12)) :=
    held (List.mem_cons_of_mem _ (List.mem_append_left _ member))
  have top : (PHYS_BASE - BitVec.ofNat 32 (measured args)).toNat = PHYS_BASE.toNat - measured args := by
    rw [layout] at room
    bv_omega
  have small : (PHYS_BASE - BitVec.ofNat 32 (measured args)).toNat + measured args < 2 ^ 32 := by
    rw [layout] at room
    omega
  have pointers (i : Nat) (below : i < args.length) :
      (pointer (store stack (frame PHYS_BASE args).writes) (start PHYS_BASE args) i).toNat = PHYS_BASE.toNat - measured args + measured (args.take i) ∧
      Holds (store stack (frame PHYS_BASE args).writes) (pointer (store stack (frame PHYS_BASE args).writes) (start PHYS_BASE args) i) (args[i] ++ [0]) := by
    obtain ⟨p,at_,string,word⟩ := @pushes_member args _ (start PHYS_BASE args + 12) i below small
    rw [pointer,read_word_holds (pushed word),at_,top]
    exact ⟨rfl,pushed string⟩
  have above (i : Nat) (below : i < args.length) : measured (args.take i) + args[i].length + 1 ≤ measured args := by
    have sums := take_measured i below
    omega
  rw [layout] at page begin_
  have near (k : Addr) (tiny : k.toNat ≤ 12) : (start PHYS_BASE args + k).toNat = (start PHYS_BASE args).toNat + k.toNat :=
    by bv_omega
  have four : (start PHYS_BASE args + 4).toNat = (start PHYS_BASE args).toNat + 4 := near 4 (by decide)
  have eight : (start PHYS_BASE args + 8).toNat = (start PHYS_BASE args).toNat + 8 := near 8 (by decide)
  have twelve : (start PHYS_BASE args + 12).toNat = (start PHYS_BASE args).toNat + 12 := near 12 (by decide)
  constructor
  · omega
  · have multiple : aligned (measured args) % 4 = 0 := by
      rw [aligned]
      omega
    show (start PHYS_BASE args).toNat % 4 = 0
    omega
  · exact read_word_zero (last (b := (start PHYS_BASE args,List.replicate 4 0)) (by simp))
  · rw [read_word_holds (last (b := (start PHYS_BASE args + 4,word_bytes (BitVec.ofNat 32 args.length))) (by simp)),BitVec.toNat_ofNat]
    exact Nat.mod_eq_of_lt (by omega)
  · exact read_word_holds (last (b := (start PHYS_BASE args + 8,word_bytes (start PHYS_BASE args + 12))) (by simp))
  · intro i below
    obtain ⟨at_,string⟩ := pointers i below
    have inside := above i below
    refine ⟨string,?_,?_⟩
    · omega
    · omega
  · have zeros := held (b := (PHYS_BASE - BitVec.ofNat 32 (aligned (measured args)) - 4,
      List.replicate (aligned (measured args) - measured args + 4) 0)) List.mem_cons_self
    have here : start PHYS_BASE args + 12 + BitVec.ofNat 32 (4 * args.length) = PHYS_BASE - BitVec.ofNat 32 (aligned (measured args)) - 4 := by
      rw [start,layout]
      bv_omega
    rw [pointer,here]
    refine read_word_zero fun i below => ?_
    have inside := zeros i (by rw [List.length_replicate] at below ⊢; omega)
    rw [List.getElem_replicate] at inside ⊢
    exact inside
  · refine List.pairwise_append.mpr ⟨?_,?_,fun r fixed q string => ?_⟩
    · simp only [List.pairwise_cons,List.mem_cons,List.not_mem_nil,or_false,forall_eq_or_imp,forall_eq,IsEmpty.forall_iff,
        implies_true,
        List.Pairwise.nil,and_true]
      omega
    · refine List.pairwise_ofFn.mpr fun i j order => .inl ?_
      have sums := (take_measured i.val i.isLt).1
      have grows := @take_measured_mono args _ _ (show i.val + 1 ≤ j.val from order)
      show (pointer _ _ i.val).toNat + (args[i.val].length + 1) ≤ (pointer _ _ j.val).toNat
      rw [(pointers i.val i.isLt).1,(pointers j.val j.isLt).1]
      omega
    · obtain ⟨i,rfl⟩ := List.mem_ofFn.mp string
      refine .inl ?_
      show _ ≤ (pointer _ _ i.val).toNat
      rw [(pointers i.val i.isLt).1]
      simp only [List.mem_cons,List.not_mem_nil,or_false] at fixed
      rcases fixed with rfl | rfl | rfl | rfl
      · omega
      · omega
      · omega
      · omega

/-- For every command line whose frame fits in a page, `start_process` leaves the frame of
    a C function that is called with its tokens, whatever the stack page and the new
    blocks held before. -/
theorem argument_frame (text : List Byte) (file_name_ first_block second_block : Mem) (stack : Addr → Byte)
    (string : CString file_name_ 0 text) (short : text.length < limit) (fits : layout (tokens delimiters text) ≤ 4096) :
    ∃ f, start_process file_name_ first_block second_block PHYS_BASE = some f ∧
      CallingFrame (store stack f.writes) f.esp (tokens delimiters text) :=
  ⟨_,start_process_spec string short (by omega),frame_spec stack fits⟩

/-- `echo x yz` -/
theorem argument_frame_echo : ∃ f, start_process (fun i => [101,99,104,111,32,120,32,121,122].getD i 0) (fun _ => 1) (fun _ => 1) PHYS_BASE = some f ∧
    CallingFrame (store (fun _ => 0) f.writes) f.esp (tokens delimiters [101,99,104,111,32,120,32,121,122]) :=
  argument_frame [101,99,104,111,32,120,32,121,122] _ _ _ _ (by simp [CString]) (by decide) (by decide)

/-! ### Frames that do not fit -/

/-- An address that some write stores a byte at. -/
def Written (writes : List Write) (a : Addr) : Prop := ∃ b ∈ writes, (a - b.1).toNat < b.2.length

/-- The lowest address of a frame is written last. -/
theorem start_written (esp : Addr) (args : List (List Byte)) : Written (frame esp args).writes (start esp args) := by
  have last : (start esp args,List.replicate 4 0) ∈ (frame esp args).writes :=
    List.mem_cons_of_mem _ (List.mem_append_right _ (by simp))
  refine ⟨_,last,?_⟩
  rw [BitVec.sub_self]
  exact Nat.zero_lt_succ 3

/-- All writes are in the stack page exactly where the frame fits in it. -/
theorem frame_in_page_iff (text : List Byte) (file_name_ first_block second_block : Mem) (string : CString file_name_ 0 text)
    (short : text.length ≤ 4095) :
    ∃ f, start_process file_name_ first_block second_block PHYS_BASE = some f ∧
      ((∀ a, Written f.writes a → PHYS_BASE - 4096 ≤ a ∧ a < PHYS_BASE) ↔ layout (tokens delimiters text) ≤ 4096) := by
  have bound := layout_bound (show text.length < 4096 by omega)
  have base : PHYS_BASE.toNat = 0xc0000000 := rfl
  have room : layout (tokens delimiters text) ≤ PHYS_BASE.toNat := by omega
  refine ⟨_,start_process_spec string (by rw [limit]; omega) (by omega),?_⟩
  have begin_ := start_toNat room
  constructor
  · intro inside
    have low := (inside _ (start_written PHYS_BASE (tokens delimiters text))).1
    bv_omega
  · rintro fits a ⟨b,member,offset⟩
    obtain ⟨low,high⟩ := (frame_apart room).2 b member
    constructor
    · bv_omega
    · bv_omega

theorem frame_in_page_echo : ∃ f, start_process (fun i => [101,99,104,111,32,120].getD i 0) (fun _ => 1) (fun _ => 1) PHYS_BASE = some f ∧
    ((∀ a, Written f.writes a → PHYS_BASE - 4096 ≤ a ∧ a < PHYS_BASE) ↔
      layout (tokens delimiters [101,99,104,111,32,120]) ≤ 4096) :=
  frame_in_page_iff [101,99,104,111,32,120] _ _ _ (by simp [CString]) (by decide)

theorem tokens_repeat (n : Nat) : tokens delimiters (List.replicate n [97,32]).flatten = List.replicate n [97] := by
  induction n with
  | zero => rfl
  | succ n ih =>
    rw [List.replicate_succ,List.replicate_succ,List.flatten_cons,← ih]
    exact tokens_first (show ∀ c ∈ [97], c ∉ delimiters by decide) (by decide) (by decide)

theorem measured_repeat (n : Nat) : measured (List.replicate n [97]) = 2 * n := by
  induction n with
  | zero => rfl
  | succ n ih =>
    rw [List.replicate_succ,measured,ih,List.length_singleton]
    omega

theorem length_repeat (n : Nat) : (List.replicate n ([97,32] : List Byte)).flatten.length = 2 * n := by
  induction n with
  | zero => rfl
  | succ n ih =>
    rw [List.replicate_succ,List.flatten_cons,List.length_append,ih]
    exact (Nat.add_comm 2 (2 * n))

theorem cstring_getD {text : List Byte} (clean : 0 ∉ text) : CString (fun i => text.getD i 0) 0 text := by
  have whole : CString (fun i => text.getD i 0) 0 (text ++ []) := by
    refine cstring_append.mpr ⟨fun i below => ?_,?_⟩
    · rw [Nat.zero_add,List.getD_eq_getElem?_getD,List.getElem?_eq_getElem below,Option.getD_some]
      exact ⟨rfl,fun zero => clean (zero ▸ List.getElem_mem below)⟩
    · show text.getD (0 + text.length) 0 = 0
      rw [Nat.zero_add,List.getD_eq_getElem?_getD,List.getElem?_eq_none (Nat.le_refl _),Option.getD_none]
  rwa [List.append_nil] at whole

/-- 681 arguments of one letter, of 2 bytes each on the command line, need 6 bytes each
    on the stack. -/
theorem many_arguments_overflow : ∃ text : List Byte, ∃ f a, text.length ≤ 4095 ∧ 0 ∉ text ∧
    start_process (fun i => text.getD i 0) (fun _ => 0) (fun _ => 0) PHYS_BASE = some f ∧ Written f.writes a ∧
    a < PHYS_BASE - 4096 := by
  have clean : 0 ∉ (List.replicate 681 ([97,32] : List Byte)).flatten := by
    rw [List.mem_flatten]
    rintro ⟨l,member,zero⟩
    rw [List.eq_of_mem_replicate member] at zero
    exact absurd zero (by decide)
  have length := length_repeat 681
  have size : layout (tokens delimiters (List.replicate 681 [97,32]).flatten) = 4104 := by
    rw [tokens_repeat,layout,measured_repeat,List.length_replicate,aligned]
  refine ⟨(List.replicate 681 [97,32]).flatten,_,start PHYS_BASE (tokens delimiters (List.replicate 681 [97,32]).flatten),
    by omega,clean,
    start_process_spec (cstring_getD clean) (by rw [limit]; omega) (by omega),start_written _ _,?_⟩
  rw [start,size]
  decide

end Pintos.Arguments
