import Pintos.Malloc
import Pintos.Strings

/-!
`process_execute` up to the return of `thread_create` and `free`: the copy of the
command line in a block of the kernel heap, the pointer that `strtok_r` leaves in
`fn_copy_`, and what becomes of it as the name of a thread and as the block to free.

The heap is the one of `malloc` and `free`. Between them other threads run, the new one
among them: they may allocate, free and write, but they do not free this block.
-/
namespace Pintos.CommandLines
open Pintos.Machines Pintos.Malloc Pintos.Strings Pintos.Scans
open Pintos.Bitmaps (Byte)
set_option linter.unusedSimpArgs false

/-- Steps of the heap, none of which frees the block `p`. -/
inductive Meanwhile (p : Nat) : Heap → Heap → Prop
  | refl (h : Heap) : Meanwhile p h h
  | next {h h' h'' : Heap} {event : Event} (before : Meanwhile p h h') (other : event ≠ .free (some p)) (step : machine.Step h' event h'') :
      Meanwhile p h h''

structure Env where
  /-- Whether `palloc_get_page` gives the page for `fn_copy`. -/
  page : Bool
  /-- The pages that `malloc` finds, if it asks for pages. -/
  answer : Option Nat
  /-- The `tid` of the new thread, if `thread_create` gets a page for it. -/
  thread : Option Nat
  meanwhile : Nat → Heap → Heap
  spares : ∀ p h, Meanwhile p h (meanwhile p h)
  /-- What `process_execute` returns after `sema_down`: the `tid` or an exit status. -/
  wait : Nat → Int

inductive Outcome
  | returned (tid : Int)
  /-- `ASSERT (dst != NULL)` of `strlcpy`. -/
  | strlcpy_dst
  /-- `ASSERT (name != NULL)` of `init_thread`. -/
  | init_thread_name
  /-- An assertion of `block_to_arena`, or one further on in `free`. -/
  | free_block
deriving DecidableEq

/-- A call, with the pointers it passes on when it gets that far: the name to
    `thread_create`, the block to `free` and the one that `malloc` returned. -/
structure Attempt where
  name : Option (Option Nat)
  freed : Option (Option Nat)
  block : Option (Option Nat)
  outcome : Outcome

def TID_ERROR : Int := -1
def delimiters : List Byte := [32]

/-- `thread_create`: the `tid` or null for `TID_ERROR`; none where `init_thread` fails its
    assertion. -/
def thread_create (env : Env) (name : Option Nat) : Option (Option Nat) :=
  match env.thread with
  | none => some none
  | some tid => if name = none then none else some (some tid)

def process_execute (env : Env) (h : Heap) (memory : Mem) (file_name : Nat) : Option Attempt :=
  if !env.page then some { name := none, freed := none, block := none, outcome := .returned TID_ERROR }
  else do
    let size := strlen memory file_name + 1
    let (block,h) ← malloc h (BitVec.ofNat 32 size) env.answer
    match block with
    | none => some { name := none, freed := none, block := some none, outcome := .strlcpy_dst }
    | some p =>
      let fn_copy_ := (strtok_r delimiters (strlcpy memory p memory file_name size) (some p) 0).1
      match thread_create env fn_copy_ with
      | none => some { name := some fn_copy_, freed := none, block := some block, outcome := .init_thread_name }
      | some tid =>
        match free (env.meanwhile p h) fn_copy_ with
        | none => some { name := some fn_copy_, freed := some fn_copy_, block := some block, outcome := .free_block }
        | some _ => some {
            name := some fn_copy_
            freed := some fn_copy_
            block := some block
            outcome := .returned (match tid with
              | none => TID_ERROR
              | some tid => env.wait tid) }

/-- `free` gets the block of `malloc`, the thread gets a name, none of their assertions
    fails, and a command line without a token gives -1. -/
structure Safe (text : List Byte) (attempt : Attempt) : Prop where
  freed : ∀ p, attempt.freed = some p → attempt.block = some p
  named : attempt.name ≠ some none
  asserts : attempt.outcome ≠ .init_thread_name ∧ attempt.outcome ≠ .free_block
  tokenless : tokens delimiters text = [] → attempt.outcome = .returned (-1)

/-- The string starts with a token, the page for `fn_copy` is not to be had, or `malloc`
    has no block and there is a token. -/
def Starts (env : Env) (h : Heap) (text : List Byte) : Prop :=
  env.page = false ∨ (∃ c tail, text = c :: tail ∧ c ∉ delimiters) ∨
    ((malloc h (BitVec.ofNat 32 (text.length + 1)) env.answer).map (·.1) = some none ∧ tokens delimiters text ≠ [])

variable {h h' : Heap} {p : Nat} {text : List Byte} {env : Env} {memory : Mem} {file_name : Nat}

/-- A block that is live and not freed stays live. -/
theorem meanwhile_live (run : Meanwhile p h h') (sane : ∃ xs, Sane h xs) (live : h.live p ≠ none) :
    (∃ xs, Sane h' xs) ∧ h'.live p ≠ none := by
  induction run with
  | refl => exact ⟨sane,live⟩
  | next before other step ih =>
    obtain ⟨⟨xs,sane⟩,live⟩ := ih
    rename_i h₁ h₂ event
    cases event with
    | malloc size answer result =>
      obtain ⟨ask,ran⟩ := step
      obtain ⟨result',_,xs',served,after,returned⟩ := malloc_spec sane ask
      rw [ran] at served
      obtain ⟨rfl,rfl⟩ := Prod.mk.inj (Option.some.inj served)
      refine ⟨⟨xs',after⟩,?_⟩
      cases result with
      | none =>
        have same : h₂ = h₁ := returned
        rwa [same]
      | some b =>
        have given : Given h₁ h₂ b size.toNat := returned
        have new : p ≠ b := by
          rintro rfl
          exact live given.fresh
        rwa [given.live,Function.update_of_ne new]
    | free q =>
      obtain ⟨freeable,ran⟩ := step
      cases q with
      | none =>
        cases ran
        exact ⟨⟨xs,sane⟩,live⟩
      | some q =>
        obtain ⟨n,alive⟩ := Option.ne_none_iff_exists'.mp (freeable q rfl)
        obtain ⟨_,xs',served,after,freed⟩ := free_spec sane alive
        rw [ran] at served
        cases served
        have distinct : p ≠ q := by
          rintro rfl
          exact other rfl
        exact ⟨⟨xs',after⟩,by rwa [freed.live,Function.update_of_ne distinct]⟩
    | write memory arena =>
      obtain ⟨spares,rfl⟩ := step
      exact ⟨⟨xs,inv_write sane.inv spares,sane.occupied⟩,live⟩

/-- What `strtok_r` leaves in `fn_copy_`: null without a token; the block itself exactly
    where the string starts with a token. -/
theorem first_token (string : CString memory file_name text) (short : text.length < limit) (p : Nat) :
    ((strtok_r delimiters (strlcpy memory p memory file_name (text.length + 1)) (some p) 0).1 = none ↔
      tokens delimiters text = []) ∧
    ((strtok_r delimiters (strlcpy memory p memory file_name (text.length + 1)) (some p) 0).1 = some p ↔
      ∃ c tail, text = c :: tail ∧ c ∉ delimiters) := by
  have copy := (strlcpy_spec memory p string short (Nat.lt_succ_self _)).1
  rcases strtok_r_spec (some p) 0 copy short (by decide : (0 : Byte) ∉ delimiters) with ⟨empty,found⟩ | ⟨token,word,rest,spec⟩
  · refine ⟨iff_of_true found empty,iff_of_false (by rw [found]; simp) ?_⟩
    rintro ⟨c,tail,shape,letter⟩
    rw [shape] at empty
    exact tokens_some letter empty
  · have start := spec.start
    rw [Option.getD_some] at start
    rw [spec.found,spec.first,Option.some.injEq]
    exact ⟨iff_of_false (by simp) (by simp),start⟩

/-- `process_execute` is safe for exactly the command lines of `Starts`: in any heap that
    the kernel can have, and whatever happens to the rest of it in between. -/
theorem process_execute_safe_iff (env : Env) (h : Heap) (memory : Mem) (file_name : Nat) (text : List Byte)
    (reach : Reaches machine Anything h) (string : CString memory file_name text) (short : text.length < 2 ^ 32 - 4096)
    (ask : Ask h (BitVec.ofNat 32 (text.length + 1)) env.answer) :
    ∃ attempt, process_execute env h memory file_name = some attempt ∧ (Safe text attempt ↔ Starts env h text) := by
  have tiny : text.length < limit := by
    rw [limit]
    omega
  rw [process_execute,Starts]
  cases page : env.page with
  | false => exact ⟨_,rfl,iff_of_true ⟨(fun _ none => by cases none),by simp,⟨by simp,by simp⟩,fun _ => rfl⟩ (.inl rfl)⟩
  | true =>
    obtain ⟨xs,sane⟩ := reaches_sane reach
    obtain ⟨block,h₁,xs',ran,after,returned⟩ := malloc_spec sane ask
    rw [if_neg (by simp),strlen_spec string tiny]
    simp only [ran,Option.bind_eq_bind,Option.bind_some,Option.map_some,Option.some.injEq]
    cases block with
    | none =>
      refine ⟨_,rfl,fun safe => .inr (.inr ⟨rfl,fun none => ?_⟩),?_⟩
      · cases safe.tokenless none
      · rintro (no_page | ⟨c,tail,shape,letter⟩ | ⟨_,some⟩)
        · cases no_page
        · exact ⟨(fun _ none => by cases none),by simp,⟨by simp,by simp⟩,fun none => absurd none (shape ▸ tokens_some letter)⟩
        · exact ⟨(fun _ none => by cases none),by simp,⟨by simp,by simp⟩,fun none => absurd none some⟩
    | some p =>
      obtain ⟨empty,first⟩ := first_token string tiny p
      have given : Given h h₁ p _ := returned
      have alive : h₁.live p ≠ none := by
        rw [given.live,Function.update_self]
        exact Option.some_ne_none _
      obtain ⟨⟨xs'',sane'⟩,live⟩ := meanwhile_live (env.spares p h₁) ⟨xs',after⟩ alive
      obtain ⟨n,live⟩ := Option.ne_none_iff_exists'.mp live
      obtain ⟨_,_,frees,_⟩ := free_spec sane' live
      obtain ⟨q,found⟩ : ∃ q, (strtok_r delimiters (strlcpy memory p memory file_name (text.length + 1)) (some p) 0).1 = q := ⟨_,rfl⟩
      rw [found] at empty first
      dsimp only
      rw [found]
      have starts : (true = false ∨ (∃ c tail, text = c :: tail ∧ c ∉ delimiters) ∨ (some p = none ∧ tokens delimiters text ≠ [])) ↔ q = some p := by
        rw [first]
        constructor
        · rintro (wrong | here | ⟨wrong,_⟩)
          · cases wrong
          · exact here
          · cases wrong
        · exact fun here => .inr (.inl here)
      rw [starts]
      by_cases same : q = some p
      · subst same
        have token : tokens delimiters text ≠ [] := fun none => by cases empty.mpr none
        cases thread : env.thread with
        | none =>
          simp only [thread_create,thread,frees]
          refine ⟨_,rfl,iff_of_true ⟨(fun _ given => by cases given; rfl),by simp,⟨by simp,by simp⟩,fun none => absurd none token⟩ trivial⟩
        | some tid =>
          simp only [thread_create,thread,frees,reduceCtorEq,if_false]
          refine ⟨_,rfl,iff_of_true ⟨(fun _ given => by cases given; rfl),by simp,⟨by simp,by simp⟩,fun none => absurd none token⟩ trivial⟩
      · have wrong_block : ∀ attempt : Attempt, attempt.freed = some q → attempt.block = some (some p) → ¬ Safe text attempt :=
          fun attempt freed block safe => same (by simpa [block,eq_comm] using safe.freed q freed)
        cases created : thread_create env q with
        | none =>
          refine ⟨_,rfl,iff_of_false (fun safe => safe.asserts.1 rfl) same⟩
        | some tid =>
          cases free (env.meanwhile p h₁) q with
          | none => exact ⟨_,rfl,iff_of_false (wrong_block _ rfl rfl) same⟩
          | some _ => exact ⟨_,rfl,iff_of_false (wrong_block _ rfl rfl) same⟩

/-- A machine with one free page for the heap, on which nothing else happens. -/
def quiet (page : Bool) : Env where
  page := page
  answer := some 1
  thread := some 3
  meanwhile _ h := h
  spares _ h := .refl h
  wait tid := tid

def boot : Heap := malloc_init (fun _ => { prev := none, next := none }) fun _ => { magic := 0, desc := none, free_cnt := 0 }

theorem process_execute_safe_ls : ∃ attempt, process_execute (quiet true) boot (fun i => [108,115].getD i 0) 0 = some attempt ∧
    (Safe [108,115] attempt ↔ Starts (quiet true) boot [108,115]) :=
  process_execute_safe_iff (quiet true) boot _ 0 [108,115] (.start ⟨_,_,rfl⟩) (by simp [CString]) (by decide)
    ⟨by decide,fun page same => by
      cases same
      exact ⟨Nat.le_refl 1,by decide,fun q held => absurd rfl held⟩⟩

/-- The empty command line gives a thread no name; one with a leading space frees an
    address inside the block. -/
theorem spaces_not_safe :
    (∃ attempt, process_execute (quiet true) boot (fun _ => 0) 0 = some attempt ∧ attempt.name = some none ∧
      attempt.outcome = .init_thread_name) ∧
    ∃ attempt, process_execute (quiet true) boot (fun i => [32,108,115].getD i 0) 0 = some attempt ∧
      attempt.block = some (some 4108) ∧ attempt.freed = some (some 4109) ∧ attempt.outcome = .free_block := by
  constructor
  · have ran : (process_execute (quiet true) boot (fun _ => 0) 0).any (fun a => a.name == some none && a.outcome == .init_thread_name) = true := by
      decide +kernel
    obtain ⟨attempt,result,facts⟩ := (Option.any_eq_true _ _).mp ran
    exact ⟨attempt,result,by simpa using facts⟩
  · have ran : (process_execute (quiet true) boot (fun i => [32,108,115].getD i 0) 0).any
        (fun a => a.block == some (some 4108) && (a.freed == some (some 4109) && a.outcome == .free_block)) = true := by
      decide +kernel
    obtain ⟨attempt,result,facts⟩ := (Option.any_eq_true _ _).mp ran
    exact ⟨attempt,result,by simpa using facts⟩

end Pintos.CommandLines
