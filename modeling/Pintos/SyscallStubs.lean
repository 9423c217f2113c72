import Pintos.InterruptFrames
import Pintos.CheckedReads

/-!
`lib/user/syscall.c`: what a user program does to call the kernel, joined to what the
kernel does with it. A stub pushes its arguments, the last one first, and then the
number of the call, and interrupts itself. `syscall_handler` finds them where the
interrupt frame says that the stack of the program is; the result comes back in the
frame's `eax`.

`Call` are the functions of the library with their arguments. `asked` says for each of
them what the kernel is to do.
-/
namespace Pintos.SyscallStubs
open Pintos.Assembly Pintos.InterruptFrames Pintos.Traces
open Pintos.UserMemory (Mapped is_valid_addr_spec)
open Pintos.UserReads (Env Action Kernel Event Stop Nr fetch fetch_word catch_addr_error one_argument two_arguments three_arguments
  syscall_handler syscall_exec syscall_create syscall_remove syscall_open peek_mapped)

/-! ### The library -/

inductive Call
  | halt
  | exit (status : Word)
  | exec (file : Word)
  | wait (pid : Word)
  | create (file initial_size : Word)
  | remove (file : Word)
  | open_ (file : Word)
  | filesize (fd : Word)
  | read (fd buffer size : Word)
  | write (fd buffer size : Word)
  | seek (fd position : Word)
  | tell (fd : Word)
  | close (fd : Word)
  | mmap (fd addr : Word)
  | munmap (mapid : Word)
  | chdir (dir : Word)
  | mkdir (dir : Word)
  | readdir (fd name : Word)
  | isdir (fd : Word)
  | inumber (fd : Word)

/-- The position of the number in the enumeration of `lib/syscall-nr.h`, and the
    arguments in the order of the macro. -/
def Call.number : Call → Word
  | .halt => 0
  | .exit _ => 1
  | .exec _ => 2
  | .wait _ => 3
  | .create _ _ => 4
  | .remove _ => 5
  | .open_ _ => 6
  | .filesize _ => 7
  | .read _ _ _ => 8
  | .write _ _ _ => 9
  | .seek _ _ => 10
  | .tell _ => 11
  | .close _ => 12
  | .mmap _ _ => 13
  | .munmap _ => 14
  | .chdir _ => 15
  | .mkdir _ => 16
  | .readdir _ _ => 17
  | .isdir _ => 18
  | .inumber _ => 19

def Call.args : Call → List Word
  | .halt => []
  | .exit a | .exec a | .wait a | .remove a | .open_ a | .filesize a | .tell a | .close a | .munmap a | .chdir a
  | .mkdir a | .isdir a | .inumber a => [a]
  | .create a b | .seek a b | .mmap a b | .readdir a b => [a,b]
  | .read a b c | .write a b c => [a,b,c]

/-- `syscall0` to `syscall3` up to `int $0x30`. -/
def syscall (number : Word) (args : List Operand) : List Instr := (args.reverse ++ [Operand.imm number]).map .pushl

/-- The instruction after `int $0x30`. -/
def drop_arguments (n : Nat) : Instr := .addl (BitVec.ofNat 32 (4 * (n + 1))) .esp

/-- What a call asks of the kernel; the handler has no case for the calls of project 4
    and for `mmap` and `munmap`. -/
def asked (env : Env) : Call → Kernel Action
  | .halt => return .syscall_halt
  | .exit status => return .syscall_exit status
  | .exec file => do return .eax (← syscall_exec env file)
  | .wait pid => return .syscall_wait pid
  | .create file initial_size => do return .eax_bool (← syscall_create env file initial_size)
  | .remove file => do return .eax_bool (← syscall_remove env file)
  | .open_ file => do return .eax_bool (← syscall_open env file)
  | .filesize fd => return .syscall_filesize fd
  | .read fd buffer size => return .syscall_read fd buffer size
  | .write fd buffer size => return .syscall_write fd buffer size
  | .seek fd position => return .syscall_seek fd position
  | .tell fd => return .syscall_tell fd
  | .close fd => return .syscall_close fd
  | .mmap _ _ | .munmap _ | .chdir _ | .mkdir _ | .readdir _ _ | .isdir _ | .inumber _ => return .nothing

variable {c d : Cpu} {m : UserReads.Memory} {mem : Mem} {esp a x y z : Word} {ops args : List Operand} {α β : Type}

/-! ### The kernel's side -/

/-- The memory of the processor is what the page directory maps. -/
def Views (m : UserReads.Memory) (mem : Mem) : Prop := ∀ a, Mapped m.pd a → mem a = UserReads.byte m a

/-- The words from `a` on are in pages that the program has. -/
def Owned (m : UserReads.Memory) (a : Word) (n : Nat) : Prop := ∀ i < 4 * n, Mapped m.pd (a + BitVec.ofNat 32 i)

theorem result_bind {k : Kernel α} {f : α → Kernel β} {v : α} (ran : (k m).2 = .ok v) : ((k >>= f) m).2 = (f v m).2 := by
  rw [run_bind_ok (show k m = ((k m).1,.ok v) from Prod.ext rfl ran)]

theorem fetch_result (mapped : Mapped m.pd a) : (fetch a m).2 = .ok (UserReads.byte m a) := by
  simp only [fetch,peek_mapped mapped]

theorem fetch_word_result (view : Views m mem) (mapped : Owned m a 1) : (fetch_word a m).2 = .ok (load mem a) := by
  have here (j : Nat) (small : j < 4) := mapped j (by omega)
  have first := here 0 (by omega)
  rw [show a + BitVec.ofNat 32 0 = a from BitVec.add_zero a] at first
  have second : Mapped m.pd (a + 1) := here 1 (by omega)
  have third : Mapped m.pd (a + 2) := here 2 (by omega)
  have fourth : Mapped m.pd (a + 3) := here 3 (by omega)
  rw [load,view _ first,view _ second,view _ third,view _ fourth]
  exact (result_bind (fetch_result first)).trans ((result_bind (fetch_result second)).trans
    ((result_bind (fetch_result third)).trans (result_bind (fetch_result fourth))))

theorem catch_result (mapped : Mapped m.pd a) : (catch_addr_error a m).2 = .ok () := by
  have valid : (UserReads.is_valid_addr a m).2 = .ok true := congrArg Except.ok ((is_valid_addr_spec m.pd a).mpr mapped)
  rw [catch_addr_error,result_bind valid]
  rfl

theorem owned_word {n i : Nat} (owned : Owned m esp n) (below : i < n) : Owned m (esp + BitVec.ofNat 32 (4 * i)) 1 := by
  intro j small
  have there := owned (4 * i + j) (by omega)
  rwa [show esp + BitVec.ofNat 32 (4 * i + j) = esp + BitVec.ofNat 32 (4 * i) + BitVec.ofNat 32 j by bv_omega] at there

theorem owned_start (owned : Owned m a 1) : Mapped m.pd a := by
  have there := owned 0 (by omega)
  rwa [show a + BitVec.ofNat 32 0 = a from BitVec.add_zero a] at there

/-- A word on the program's stack, as the handler reads it. -/
theorem argument_result {l : List Word} {i : Nat} {w : Word} (view : Views m mem) (owned : Owned m esp l.length) (words : Words mem esp l)
    (found : l[i]? = some w) : (fetch_word (esp + BitVec.ofNat 32 (4 * i)) m).2 = .ok w ∧
      (catch_addr_error (esp + BitVec.ofNat 32 (4 * i)) m).2 = .ok () := by
  have below : i < l.length := (List.getElem?_eq_some_iff.mp found).1
  have word := owned_word owned below
  exact ⟨(fetch_word_result view word).trans (congrArg Except.ok (words_get words found)),catch_result (owned_start word)⟩

theorem one_argument_result {rest : Word → Kernel α} {n : Word} (view : Views m mem) (owned : Owned m esp 2)
    (words : Words mem esp [n,x]) : ((one_argument esp rest) m).2 = (rest x m).2 := by
  obtain ⟨word,checked⟩ := argument_result (i := 1) view owned words rfl
  exact (result_bind checked).trans (result_bind word)

theorem two_arguments_result {rest : Word → Word → Kernel α} {n : Word} (view : Views m mem) (owned : Owned m esp 3)
    (words : Words mem esp [n,x,y]) : ((two_arguments esp rest) m).2 = (rest x y m).2 := by
  have first := argument_result (i := 1) view owned words rfl
  obtain ⟨word,checked⟩ := argument_result (i := 2) view owned words rfl
  exact (result_bind checked).trans ((result_bind first.1).trans (result_bind word))

theorem three_arguments_result {rest : Word → Word → Word → Kernel α} {n : Word} (view : Views m mem) (owned : Owned m esp 4)
    (words : Words mem esp [n,x,y,z]) : ((three_arguments esp rest) m).2 = (rest x y z m).2 := by
  have first := argument_result (i := 1) view owned words rfl
  have second := argument_result (i := 2) view owned words rfl
  obtain ⟨word,checked⟩ := argument_result (i := 3) view owned words rfl
  exact (result_bind checked).trans ((result_bind first.1).trans ((result_bind second.1).trans (result_bind word)))

/-- The handler does what the call on the program's stack asks for. -/
theorem handler_decodes (env : Env) (call : Call) (view : Views m mem) (owned : Owned m esp (call.args.length + 1))
    (words : Words mem esp (call.number :: call.args)) : (syscall_handler env esp m).2 = (asked env call m).2 := by
  obtain ⟨number,checked⟩ := argument_result (i := 0) view owned words rfl
  rw [show esp + BitVec.ofNat 32 (4 * 0) = esp from BitVec.add_zero esp] at number checked
  refine (result_bind checked).trans ((result_bind number).trans ?_)
  cases call with
  | exit | exec | wait | remove | open_ | filesize | tell | close => exact one_argument_result view owned words
  | create | seek => exact two_arguments_result view owned words
  | read | write => exact three_arguments_result view owned words
  | _ => rfl

/-! ### The program's side -/

/-- An operand that means the same after `n` pushes: `"g"` allows a word in memory, which
    must not be found from the stack pointer. -/
def Steady (c : Cpu) (n : Nat) : Operand → Prop
  | .imm _ => True
  | .reg r => r ≠ .esp
  | .at p => p.base ≠ some .esp ∧ p.index ≠ some .esp ∧
    ∀ i < 4, 4 * n ≤ (c.reg .esp - 1 - (c.address p + BitVec.ofNat 32 i)).toNat

theorem push_address {p : Place} {w : Word} (base : p.base ≠ some .esp) (index : p.index ≠ some .esp) :
    (c.push w).address p = c.address p := by
  have same (o : Option Reg) (other : o ≠ some .esp) : o.elim 0 (c.push w).reg = o.elim 0 c.reg := by
    cases o with
    | none => rfl
    | some r => exact push_other fun here => other (congrArg some here)
  rw [Cpu.address,Cpu.address,same p.base base,same p.index index]

theorem steady_push {n : Nat} {op : Operand} {w : Word} (steady : Steady c (n + 1) op) :
    (c.push w).value op = c.value op ∧ Steady (c.push w) n op := by
  cases op with
  | imm v => exact ⟨rfl,trivial⟩
  | reg r => exact ⟨push_other steady,steady⟩
  | «at» p =>
    obtain ⟨base,index,apart⟩ := steady
    have place : (c.push w).address p = c.address p := push_address base index
    have byte (i : Nat) (small : i < 4) :
        (c.push w).mem (c.address p + BitVec.ofNat 32 i) = c.mem (c.address p + BitVec.ofNat 32 i) := by
      have far := apart i small
      exact store_byte (by bv_omega)
    constructor
    · have first := byte 0 (by omega)
      rw [show c.address p + BitVec.ofNat 32 0 = c.address p from BitVec.add_zero _] at first
      change load (c.push w).mem ((c.push w).address p) = load c.mem (c.address p)
      rw [place,load,load,first]
      exact congrArg₂ (fun x y => x ++ y ++ _) (congrArg₂ (· ++ ·) (byte 3 (by omega)) (byte 2 (by omega))) (byte 1 (by omega))
    · refine ⟨base,index,fun i small => ?_⟩
      have far := apart i small
      rw [place,push_esp]
      bv_omega

theorem run_pushl {n : Nat} (few : ops.length ≤ n) (steady : ∀ op ∈ ops, Steady c n op) :
    c.run (ops.map .pushl) = c.pushes (ops.map c.value) := by
  induction ops generalizing c n with
  | nil => rfl
  | cons op ops ih =>
    cases n with
    | zero => exact absurd few (by simp)
    | succ n =>
      have later (o : Operand) (member : o ∈ ops) := steady_push (w := c.value op) (steady o (List.mem_cons_of_mem _ member))
      have rest := ih (c := c.push (c.value op)) (Nat.le_of_succ_le_succ few) fun o member => (later o member).2
      rw [List.map_congr_left fun o member => (later o member).1] at rest
      exact rest

theorem syscall_pushes {number : Word} (steady : ∀ op ∈ ops, Steady c (ops.length + 1) op) :
    c.run (syscall number ops) = c.pushes ((ops.map c.value).reverse ++ [number]) := by
  have all : ∀ op ∈ ops.reverse ++ [Operand.imm number], Steady c (ops.length + 1) op := by
    intro op member
    rcases List.mem_append.mp member with argument | last
    · exact steady op (List.mem_reverse.mp argument)
    · exact List.mem_singleton.mp last ▸ trivial
  rw [syscall,run_pushl (by simp) all,List.map_append,List.map_reverse]
  rfl

theorem pushes_keeps (c : Cpu) (l : List Word) : (c.pushes l).seg = c.seg ∧ (c.pushes l).cs = c.cs ∧ (c.pushes l).ss = c.ss :=
  ⟨pushes_seg c l,(ss_pushes l).2,(ss_pushes l).1⟩

/-! ### A whole call -/

variable {u e : Cpu} {tss : Tss} {stub handler ret next : Word} {trap : Bool} {call : Call}

/-- The program's stack at the interrupt. -/
theorem syscall_stack (values : ops.map c.value = call.args) (steady : ∀ op ∈ ops, Steady c (ops.length + 1) op) :
    Stack (c.run (syscall call.number ops)) (call.number :: call.args) := by
  have few : call.args.length ≤ 3 := by cases call <;> simp [Call.args]
  have pushed := stack_pushes (l := call.args.reverse ++ [call.number]) (show Stack c [] from trivial) (by
    simp only [List.length_append,List.length_reverse,List.length_cons,List.length_nil]
    omega)
  rw [List.reverse_append,List.reverse_reverse,List.append_nil] at pushed
  rw [syscall_pushes steady,values]
  exact pushed

/-- The frame of the interrupt is away from what the program owns. -/
theorem owned_kept {l : List Word} {base : Word} (below : Below base 88 mem e.mem) (apart : UserMemory.PHYS_BASE.toNat + 88 ≤ base.toNat)
    (owned : Owned m a l.length) (words : Words mem a l) : Words e.mem a l := by
  refine words_below below (fun i inside => ?_) words
  have user := UserMemory.user_lt.mp (owned i inside).1
  have top : UserMemory.PHYS_BASE.toNat = 0xc0000000 := by decide
  have bound := base.isLt
  generalize a + BitVec.ofNat 32 i = x at user
  bv_omega

/-- A process with the page of `0x08048000`, where its bytes are those of `mem`. -/
def one_stack (mem : Mem) : UserReads.Memory where
  pd := UserMemory.one_table fun j => j == 0x48
  ram a := mem (0x08048000 + UserMemory.pg_ofs a)

theorem one_stack_page (mapped : Mapped (one_stack mem).pd a) :
    (UserMemory.pg_no a).toNat = 0x8048 ∧ UserMemory.lookup_page (one_stack mem).pd a = some 0x00200007 := by
  obtain ⟨-,pte,found,present⟩ := mapped
  have entry := found
  rw [UserMemory.lookup_page,Option.map_eq_some_iff] at found
  obtain ⟨pt,table,at_page⟩ := found
  obtain ⟨directory,only⟩ := Option.ite_none_right_eq_some.mp table
  have table_is := Option.some.inj only
  cases page : UserMemory.pt_no a == 0x48 with
  | false =>
    rw [← table_is] at at_page
    simp only [page] at at_page
    exact absurd (at_page ▸ rfl : pte &&& UserMemory.PTE_P = 0) present
  | true =>
    have number := congrArg BitVec.toNat (eq_of_beq page)
    have upper := congrArg BitVec.toNat directory
    rw [UserMemory.pt_no_pg_no,BitVec.toNat_and,show (0x3ff : BitVec 32).toNat = 2 ^ 10 - 1 from rfl,Nat.and_two_pow_sub_one_eq_mod,
      show (0x48 : BitVec 32).toNat = 0x48 from rfl] at number
    rw [UserMemory.pd_no_pg_no,BitVec.toNat_ushiftRight,Nat.shiftRight_eq_div_pow,show (0x20 : BitVec 32).toNat = 0x20 from rfl] at upper
    refine ⟨by omega,entry.trans (congrArg some ?_)⟩
    rw [← at_page,← table_is]
    simp only [page]
    rfl

theorem one_stack_views : Views (one_stack mem) mem := by
  intro a mapped
  obtain ⟨page,entry⟩ := one_stack_page mapped
  have user : UserMemory.is_user_vaddr a = true := decide_eq_true mapped.1
  have offset := UserMemory.and_pgmask a
  have small : (a &&& UserMemory.PGMASK).toNat < 4096 := by omega
  have frame : UserMemory.pg_ofs (0xc0200000 + UserMemory.pg_ofs a) = UserMemory.pg_ofs a := by
    refine BitVec.eq_of_toNat_eq ?_
    rw [UserMemory.pg_ofs,UserMemory.pg_ofs,UserMemory.and_pgmask]
    bv_omega
  have whole : 0x08048000 + UserMemory.pg_ofs a = a := by
    rw [UserMemory.pg_no_eq] at page
    rw [UserMemory.pg_ofs]
    bv_omega
  have found : UserReads.peek (one_stack mem) a = some (mem a) := by
    rw [UserReads.peek,user,if_pos rfl,entry]
    change some (mem (0x08048000 + UserMemory.pg_ofs (0xc0200000 + UserMemory.pg_ofs a))) = _
    rw [frame,whole]
  rw [UserReads.byte,found,Option.getD_some]

/-- A program that asks for the size of the file that is open as `%ebx`. -/
def asking : Cpu where
  reg r := if r = .esp then 0x08048100 else 5
  seg _ := 0x23
  cs := 0x1b
  ss := 0x23
  eip := 0x08048000
  eflags := 0x202
  mem _ := 0

/-- When it has interrupted itself. -/
def interrupted : Cpu := { asking.run (syscall 7 [.reg .ebx]) with eip := 0x08048010 }
def in_handler : Cpu := entry 0xc0021000 0xc0020030 0x30 (interrupt ⟨0xc0105000,0x10⟩ 0xc0020000 true none interrupted)

end Pintos.SyscallStubs
