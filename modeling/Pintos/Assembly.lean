import Pintos.Stores

/-!
Straight-line 32-bit x86 code: the instructions that save, restore and exchange
registers, on a memory of bytes. Operands stand in the assembler's order, the source
first.

`Words` says which words lie in memory from an address on. Where the stack pointer
points at known words, the rules `stack_push`, `stack_pop` and `stack_drop` say which
words it points at next; `words_store` keeps words that a store does not touch.
-/
namespace Pintos.Assembly

abbrev Addr := BitVec 32
abbrev Word := BitVec 32
abbrev Mem := Addr → BitVec 8

/-- The bytes of a word, the lowest first. -/
def bytes (w : Word) : List (BitVec 8) := [w.extractLsb' 0 8,w.extractLsb' 8 8,w.extractLsb' 16 8,w.extractLsb' 24 8]
def load (m : Mem) (a : Addr) : Word := m (a + 3) ++ m (a + 2) ++ m (a + 1) ++ m a
def store (m : Mem) (a : Addr) (w : Word) : Mem := Stores.put m (a,bytes w)

inductive Reg
  | eax | ecx | edx | ebx | esp | ebp | esi | edi
  deriving DecidableEq

inductive Seg
  | ds | es | fs | gs
  deriving DecidableEq

structure Cpu where
  reg : Reg → Word
  seg : Seg → BitVec 16
  cs : BitVec 16
  ss : BitVec 16
  eip : Word
  eflags : Word
  mem : Mem

/-- An address in memory: a constant, a base and an index. -/
structure Place where
  disp : Word
  base : Option Reg
  index : Option Reg

inductive Operand
  | imm (w : Word)
  | reg (r : Reg)
  | at (p : Place)

inductive Instr
  | pushl (src : Operand)
  | popl (dst : Reg)
  | push_seg (src : Seg)
  | pop_seg (dst : Seg)
  | movl (src : Operand) (dst : Reg)
  | movl_to (src : Reg) (dst : Place)
  | mov_seg (src : Reg) (dst : Seg)
  | leal (p : Place) (dst : Reg)
  | addl (imm : Word) (dst : Reg)
  | pushal
  | popal
  | cld

/-- `disp(%base)`. -/
def off (disp : Word) (base : Reg) : Place := ⟨disp,some base,none⟩

namespace Cpu

def set (c : Cpu) (r : Reg) (w : Word) : Cpu := { c with reg := fun x => if x = r then w else c.reg x }
def set_seg (c : Cpu) (s : Seg) (w : BitVec 16) : Cpu := { c with seg := fun x => if x = s then w else c.seg x }

def address (c : Cpu) (p : Place) : Addr := p.disp + p.base.elim 0 c.reg + p.index.elim 0 c.reg

def value (c : Cpu) : Operand → Word
  | .imm w => w
  | .reg r => c.reg r
  | .at p => load c.mem (c.address p)

/-- The word that the stack pointer points at. -/
def top (c : Cpu) : Word := load c.mem (c.reg .esp)
def push (c : Cpu) (w : Word) : Cpu := { c.set .esp (c.reg .esp - 4) with mem := store c.mem (c.reg .esp - 4) w }
def drop (c : Cpu) (n : Word) : Cpu := c.set .esp (c.reg .esp + n)
def pop (c : Cpu) (r : Reg) : Cpu := (c.drop 4).set r c.top

/-- `eflags` after an addition: carry, parity, adjust, zero, sign and overflow. -/
def add_flags (f a b : Word) : Word :=
  let sum := a + b
  let bit (n : Nat) (b : Bool) : Word := if b then 1 <<< n else 0
  (f &&& ~~~(0x8d5 : Word)) ||| bit 0 (sum < a) |||
    bit 2 (((List.range 8).filter fun i => sum.getLsbD i).length % 2 = 0) |||
    bit 4 ((a ^^^ b ^^^ sum).getLsbD 4) ||| bit 6 (sum = 0) ||| bit 7 sum.msb |||
    bit 11 (a.msb = b.msb && sum.msb != a.msb)

/-- The order in which `pushal` pushes the registers; `popal` skips the stack pointer. -/
def pushal (c : Cpu) : Cpu :=
  [Reg.eax,.ecx,.edx,.ebx,.esp,.ebp,.esi,.edi].foldl (fun d r => d.push (c.reg r)) c
def popal (c : Cpu) : Cpu :=
  [Reg.ebx,.edx,.ecx,.eax].foldl pop (([Reg.edi,.esi,.ebp].foldl pop c).drop 4)

/-- Several words, the first one pushed first. -/
def pushes (c : Cpu) (l : List Word) : Cpu := l.foldl push c

def exec (c : Cpu) : Instr → Cpu
  | .pushl src => c.push (c.value src)
  | .popl dst => c.pop dst
  | .push_seg src => c.push ((c.seg src).setWidth 32)
  | .pop_seg dst => (c.drop 4).set_seg dst (c.top.setWidth 16)
  | .movl src dst => c.set dst (c.value src)
  | .movl_to src dst => { c with mem := store c.mem (c.address dst) (c.reg src) }
  | .mov_seg src dst => c.set_seg dst ((c.reg src).setWidth 16)
  | .leal p dst => c.set dst (c.address p)
  | .addl imm dst => { c.set dst (c.reg dst + imm) with eflags := add_flags c.eflags (c.reg dst) imm }
  | .pushal => c.pushal
  | .popal => c.popal
  | .cld => { c with eflags := c.eflags &&& ~~~(0x400 : Word) }

def run (c : Cpu) (code : List Instr) : Cpu := code.foldl exec c

/-- `call` and `ret`. -/
def call (c : Cpu) (target ret : Word) : Cpu := { c.push ret with eip := target }
def ret (c : Cpu) : Cpu := { c.drop 4 with eip := c.top }

end Cpu

/-! ### Words in memory -/

/-- The words lie in memory from `a` on. -/
def Words (m : Mem) : Addr → List Word → Prop
  | _, [] => True
  | a, w :: l => load m a = w ∧ Words m (a + 4) l

/-- Two words of memory that share no byte. -/
def Clear (a b : Addr) : Prop := 4 ≤ (a - b).toNat ∧ 4 ≤ (b - a).toNat

/-- The word at `b` shares no byte with the `n` words from `a` on. -/
def Beyond (b : Addr) : Addr → Nat → Prop
  | _, 0 => True
  | a, n + 1 => Clear a b ∧ Beyond b (a + 4) n

variable {m : Mem} {a b : Addr} {w v : Word} {l rest : List Word} {n i : Nat}

theorem load_store_self : load (store m a w) a = w := by
  have at_offset (i : Nat) (small : i < 4) : store m a w (a + BitVec.ofNat 32 i) = w.extractLsb' (8 * i) 8 := by
    have index : (a + BitVec.ofNat 32 i - a).toNat = i := by
      rw [BitVec.add_comm,BitVec.add_sub_cancel,BitVec.toNat_ofNat]
      exact Nat.mod_eq_of_lt (by omega)
    simp only [store,Stores.put,index,bytes]
    rcases i with _ | _ | _ | _ | i <;> first | rfl | omega
  have first := at_offset 0 (by omega)
  rw [show a + BitVec.ofNat 32 0 = a from BitVec.add_zero a] at first
  have second := at_offset 1 (by omega)
  have third := at_offset 2 (by omega)
  have fourth := at_offset 3 (by omega)
  unfold load
  rw [show a + 1 = a + BitVec.ofNat 32 1 from rfl,show a + 2 = a + BitVec.ofNat 32 2 from rfl,
    show a + 3 = a + BitVec.ofNat 32 3 from rfl,first,second,third,fourth]
  apply BitVec.eq_of_getLsbD_eq
  intro i below
  simp only [BitVec.getLsbD_append,BitVec.getLsbD_extractLsb']
  grind

/-- A store changes the bytes of its word only. -/
theorem store_byte (far : 4 ≤ (a - b).toNat) : store m b w a = m a := Stores.put_outside far

theorem load_store_clear (clear : Clear a b) : load (store m b w) a = load m a := by
  have same (j : Word) (small : j.toNat < 4) : store m b w (a + j) = m (a + j) := by
    refine store_byte ?_
    unfold Clear at clear
    bv_omega
  unfold load
  rw [same 3 (by decide),same 2 (by decide),same 1 (by decide)]
  have here := same 0 (by decide)
  rw [show a + 0 = a from BitVec.add_zero a] at here
  rw [here]

theorem beyond_of_nat (bound : b.toNat + 4 ≤ 2 ^ 32) (fits : a.toNat + 4 * n ≤ 2 ^ 32)
    (apart : a.toNat + 4 * n ≤ b.toNat ∨ b.toNat + 4 ≤ a.toNat) : Beyond b a n := by
  induction n generalizing a with
  | zero => trivial
  | succ n ih =>
    constructor
    · unfold Clear
      bv_omega
    · rcases Nat.eq_zero_or_pos n with zero | positive
      · subst zero
        trivial
      · have next : (a + 4).toNat = a.toNat + 4 := by bv_omega
        exact ih (by omega) (by omega)

theorem beyond_below (room : 4 * (n + 1) ≤ 2 ^ 32) : Beyond (a - 4) a n := by
  suffices steps : ∀ k, 4 * (n + k + 1) ≤ 2 ^ 32 → Beyond (a - 4) (a + BitVec.ofNat 32 (4 * k)) n by
    have first := steps 0 (by omega)
    rwa [show a + BitVec.ofNat 32 (4 * 0) = a from BitVec.add_zero a] at first
  clear room
  induction n with
  | zero => intros; trivial
  | succ n ih =>
    intro k room
    have here : (a + BitVec.ofNat 32 (4 * k) - (a - 4)).toNat = 4 * k + 4 := by bv_omega
    have there : (a - 4 - (a + BitVec.ofNat 32 (4 * k))).toNat = 2 ^ 32 - (4 * k + 4) := by bv_omega
    constructor
    · unfold Clear
      omega
    · have next := ih (k + 1) (by omega)
      rwa [show a + BitVec.ofNat 32 (4 * (k + 1)) = a + BitVec.ofNat 32 (4 * k) + 4 by bv_omega] at next

theorem words_store (beyond : Beyond b a l.length) (words : Words m a l) : Words (store m b w) a l := by
  induction l generalizing a with
  | nil => trivial
  | cons v l ih => exact ⟨(load_store_clear beyond.1).trans words.1,ih beyond.2 words.2⟩

theorem words_get (words : Words m a l) (found : l[i]? = some w) : load m (a + BitVec.ofNat 32 (4 * i)) = w := by
  induction l generalizing a i with
  | nil => cases found
  | cons v l ih =>
    cases i with
    | zero =>
      cases Option.some.inj found
      rw [show a + BitVec.ofNat 32 (4 * 0) = a from BitVec.add_zero a]
      exact words.1
    | succ i =>
      have later := ih words.2 (i := i) (by simpa using found)
      rwa [show a + 4 + BitVec.ofNat 32 (4 * i) = a + BitVec.ofNat 32 (4 * (i + 1)) by bv_omega] at later

theorem words_append : Words m a (l ++ rest) ↔ Words m a l ∧ Words m (a + BitVec.ofNat 32 (4 * l.length)) rest := by
  induction l generalizing a with
  | nil =>
    rw [show a + BitVec.ofNat 32 (4 * [].length) = a from BitVec.add_zero a]
    exact ⟨fun words => ⟨trivial,words⟩,fun both => both.2⟩
  | cons v l ih =>
    have next : a + 4 + BitVec.ofNat 32 (4 * l.length) = a + BitVec.ofNat 32 (4 * (v :: l).length) := by
      rw [List.length_cons]
      bv_omega
    change load m a = v ∧ Words m (a + 4) (l ++ rest) ↔ _
    rw [ih,next]
    exact ⟨fun ⟨first,both⟩ => ⟨⟨first,both.1⟩,both.2⟩,fun both => ⟨both.1.1,both.1.2,both.2⟩⟩

/-- Words are a matter of their bytes. -/
theorem words_congr {m' : Mem} (same : ∀ i < 4 * l.length, m' (a + BitVec.ofNat 32 i) = m (a + BitVec.ofNat 32 i))
    (words : Words m a l) : Words m' a l := by
  induction l generalizing a with
  | nil => trivial
  | cons v l ih =>
    have at_offset (i : Nat) (small : i < 4) := same i (by rw [List.length_cons]; omega)
    have first := at_offset 0 (by omega)
    rw [show a + BitVec.ofNat 32 0 = a from BitVec.add_zero a] at first
    constructor
    · rw [← words.1]
      unfold load
      rw [show m' (a + 1) = m (a + 1) from at_offset 1 (by omega),show m' (a + 2) = m (a + 2) from at_offset 2 (by omega),
        show m' (a + 3) = m (a + 3) from at_offset 3 (by omega),first]
    · refine ih (fun i below => ?_) words.2
      have later := same (i + 4) (by rw [List.length_cons]; omega)
      rwa [show a + BitVec.ofNat 32 (i + 4) = a + 4 + BitVec.ofNat 32 i by bv_omega] at later

/-! ### The stack -/

/-- The words that the stack pointer points at. -/
def Stack (c : Cpu) (l : List Word) : Prop := Words c.mem (c.reg .esp) l

variable {c : Cpu} {r s : Reg}

@[simp] theorem set_other (other : s ≠ r) : (c.set r w).reg s = c.reg s := if_neg other
@[simp] theorem push_esp : (c.push w).reg .esp = c.reg .esp - 4 := rfl
@[simp] theorem push_mem : (c.push w).mem = store c.mem (c.reg .esp - 4) w := rfl

theorem push_other (other : s ≠ .esp) : (c.push w).reg s = c.reg s := if_neg other
theorem pop_esp (other : r ≠ .esp) : (c.pop r).reg .esp = c.reg .esp + 4 := if_neg other.symm

theorem stack_push (stack : Stack c l) (room : 4 * (l.length + 1) ≤ 2 ^ 32) : Stack (c.push w) (w :: l) := by
  refine ⟨load_store_self,?_⟩
  rw [push_esp,BitVec.sub_add_cancel]
  exact words_store (beyond_below room) stack

theorem stack_drop (stack : Stack c (w :: l)) : Stack (c.drop 4) l := stack.2

theorem stack_pop (other : r ≠ .esp) (stack : Stack c (w :: l)) : Stack (c.pop r) l := by
  unfold Stack
  rw [pop_esp other]
  exact stack.2

theorem stack_set (other : r ≠ .esp) (stack : Stack c l) : Stack (c.set r v) l := by
  unfold Stack
  rw [set_other other.symm]
  exact stack

/-- `disp(%esp)` is a word of the stack. -/
theorem stack_get (stack : Stack c l) (found : l[i]? = some w) :
    c.value (.at (off (BitVec.ofNat 32 (4 * i)) .esp)) = w := by
  have value := words_get stack found
  rw [BitVec.add_comm] at value
  simpa [Cpu.value,Cpu.address,off] using value

/-- A store to `disp(%esp)`, one word below the top. -/
theorem stack_put (stack : Stack c (w :: v :: l)) (room : 4 * (l.length + 2) ≤ 2 ^ 32) :
    Stack (c.exec (.movl_to r (off 4 .esp))) (w :: c.reg r :: l) := by
  have place : c.address (off 4 .esp) = c.reg .esp + 4 := by
    change 4 + c.reg .esp + 0 = c.reg .esp + 4
    bv_omega
  change Words (store c.mem (c.address (off 4 .esp)) (c.reg r)) (c.reg .esp) (w :: c.reg r :: l)
  rw [place]
  refine ⟨?_,load_store_self,?_⟩
  · rw [load_store_clear (by unfold Clear; bv_omega)]
    exact stack.1
  · have beyond := beyond_below (a := c.reg .esp + 4 + 4) (n := l.length) (by omega)
    rw [show c.reg .esp + 4 + 4 - 4 = c.reg .esp + 4 by bv_omega] at beyond
    exact words_store beyond stack.2.2

theorem pushes_esp : (c.pushes l).reg .esp = c.reg .esp - BitVec.ofNat 32 (4 * l.length) := by
  induction l generalizing c with
  | nil => exact (BitVec.sub_zero _).symm
  | cons w l ih =>
    rw [Cpu.pushes,List.foldl_cons,← Cpu.pushes,ih,push_esp,List.length_cons]
    bv_omega

theorem pushes_other (other : s ≠ .esp) : (c.pushes l).reg s = c.reg s := by
  induction l generalizing c with
  | nil => rfl
  | cons w l ih => exact ih.trans (push_other other)

theorem stack_pushes (stack : Stack c rest) (room : 4 * (l.length + rest.length) ≤ 2 ^ 32) :
    Stack (c.pushes l) (l.reverse ++ rest) := by
  induction l generalizing c rest with
  | nil => exact stack
  | cons w l ih =>
    rw [List.length_cons] at room
    rw [List.reverse_cons,List.append_assoc]
    have more : 4 * (l.length + (w :: rest).length) ≤ 2 ^ 32 := by
      rw [List.length_cons]
      omega
    have pushed : Stack (c.push w) (w :: rest) := stack_push stack (by omega)
    exact ih pushed more

/-- The memories differ at most in the `n` bytes below `a`. -/
def Below (a : Addr) (n : Nat) (m m' : Mem) : Prop := ∀ x : Addr, n ≤ (a - 1 - x).toNat → m' x = m x

theorem below_trans {m' m'' : Mem} {k : Nat} (first : Below a n m m') (later : Below a k m' m'') (le : n ≤ k) : Below a k m m'' :=
  fun x far => (later x far).trans (first x (by omega))

theorem below_mono {m' : Mem} {k : Nat} (below : Below a n m m') (le : n ≤ k) : Below a k m m' :=
  fun x far => below x (by omega)

theorem below_lower {m' : Mem} {k : Nat} (below : Below (a - BitVec.ofNat 32 k) n m m') (room : n + k ≤ 2 ^ 32) :
    Below a (n + k) m m' := by
  intro x far
  refine below x ?_
  bv_omega

theorem below_store {k : Nat} (room : 4 * (k + 1) ≤ 2 ^ 32) :
    Below a (4 * (k + 1)) m (store m (a - BitVec.ofNat 32 (4 * k) - 4) w) := by
  intro x far
  refine store_byte ?_
  bv_omega

theorem below_pushes (room : 4 * l.length ≤ 2 ^ 32) : Below (c.reg .esp) (4 * l.length) c.mem (c.pushes l).mem := by
  induction l using List.reverseRecOn with
  | nil => exact fun x _ => rfl
  | append_singleton l w ih =>
    rw [List.length_append,List.length_singleton] at room ⊢
    have whole : c.pushes (l ++ [w]) = (c.pushes l).push w := List.foldl_append
    rw [whole,push_mem,pushes_esp]
    exact below_trans (ih (by omega)) (below_store room) (by omega)

/-- Words that lie apart from the bytes that may differ. -/
theorem words_below {m' : Mem} (below : Below a n m m') (apart : ∀ i < 4 * l.length, n ≤ (a - 1 - (b + BitVec.ofNat 32 i)).toNat)
    (words : Words m b l) : Words m' b l :=
  words_congr (fun i inside => below _ (apart i inside)) words

end Pintos.Assembly
