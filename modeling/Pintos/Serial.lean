import Pintos.InterruptFifos

/-!
`devices/serial.c` and `devices/input.c`: two queues of `devices/intq.c`, and the
interrupt enable register that has to follow them. As in `InterruptFifos` a call is what
it does once its queue lets it go on.

What the line status register says is up to the device: the bytes that have `arrived`
are those for which it says `LSR_DR`, and `ready` is how often it says `LSR_THRE`
before it says no.
-/
namespace Pintos.Serial
open Pintos.Machines Pintos.Rings
open Pintos.Bitmaps (Byte)
open Pintos.InterruptQueues (Intq INTQ_BUFSIZE next intq_empty intq_full intq_init)
open Pintos.InterruptFifos (intq_putc intq_getc Beside beside_holds)

def IER_RECV : Byte := 0x01
def IER_XMIT : Byte := 0x02
def LCR_N81 : Byte := 0x03
def MCR_OUT2 : Byte := 0x08

inductive Mode
  | UNINIT | POLL | QUEUE
  deriving DecidableEq

inductive Level
  | OFF | ON
  deriving DecidableEq

/-- The static variables and the registers of the device; `sent` are the bytes that were
    written to `THR_REG`. -/
structure Port where
  mode : Mode
  txq : Intq
  buffer : Intq
  ier : Byte
  fcr : Byte
  lcr : Byte
  mcr : Byte
  divisor : BitVec 16
  sent : List Byte

/-! ### The code -/

/-- The assertion on `bps` holds for the one rate in use. -/
def set_serial (bps : Nat) (p : Port) : Port := { p with divisor := BitVec.ofNat 16 (1843200 / 16 / bps), lcr := LCR_N81 }

def input_full (p : Port) : Bool := intq_full p.buffer

def write_ier (p : Port) : Port :=
  { p with ier := (if intq_empty p.txq then 0 else IER_XMIT) ||| if input_full p then 0 else IER_RECV }

def putc_poll (byte : Byte) (p : Port) : Port := { p with sent := p.sent ++ [byte] }

/-- `outb (THR_REG, intq_getc (&txq))`, and `putc_poll` of the same byte. -/
def send_next (p : Port) : Port := putc_poll (intq_getc p.txq).1 { p with txq := (intq_getc p.txq).2 }

def init_poll (p : Port) : Port :=
  { set_serial 9600 { p with ier := 0, fcr := 0 } with mcr := MCR_OUT2, txq := intq_init p.txq, mode := .POLL }

/-- There is no result when the assertion on the mode fails. -/
def serial_init_queue (p : Port) : Option Port :=
  let p := if p.mode = .UNINIT then init_poll p else p
  if p.mode = .POLL then some (write_ier { p with mode := .QUEUE }) else none

/-- There is no result while `intq_putc` waits. -/
def serial_putc (old_level : Level) (byte : Byte) (p : Port) : Option Port :=
  if p.mode ≠ .QUEUE then some (putc_poll byte (if p.mode = .UNINIT then init_poll p else p))
  else
    -- With interrupts off it must not wait.
    let p := if old_level = .OFF ∧ intq_full p.txq = true then send_next p else p
    if intq_full p.txq then none else some (write_ier { p with txq := intq_putc p.txq byte })

def flush_from : Nat → Port → Port
  | 0, p => p
  | n + 1, p => if intq_empty p.txq then p else flush_from n (send_next p)

def serial_flush (p : Port) : Port := flush_from INTQ_BUFSIZE p

def serial_notify (p : Port) : Port := if p.mode = .QUEUE then write_ier p else p

/-- The callers have tested that the buffer is not full. -/
def input_putc (key : Byte) (p : Port) : Port := serial_notify { p with buffer := intq_putc p.buffer key }
def input_getc (p : Port) : Byte × Port := ((intq_getc p.buffer).1,serial_notify { p with buffer := (intq_getc p.buffer).2 })

/-- The end of `keyboard_interrupt`. -/
def keyboard_interrupt (c : Byte) (p : Port) : Port := if input_full p then p else input_putc c p

/-- The first loop of the handler, with the bytes that stay in the device. -/
def receive : List Byte → Port → Port × List Byte
  | [], p => (p,[])
  | byte :: arrived, p => if input_full p then (p,byte :: arrived) else receive arrived (input_putc byte p)

/-- The second one. -/
def transmit : Nat → Port → Port
  | 0, p => p
  | ready + 1, p => if intq_empty p.txq then p else transmit ready (send_next p)

def serial_interrupt (arrived : List Byte) (ready : Nat) (p : Port) : Port × List Byte :=
  (write_ier (transmit ready (receive arrived p).1),(receive arrived p).2)

/-! ### Runs -/

/-- A port with the bytes given to `serial_putc`, those that went into the input buffer
    and those that `input_getc` returned. -/
structure Run where
  port : Port
  given : List Byte
  typed : List Byte
  returned : List Byte

inductive Event
  | serial_init_queue
  | serial_putc (old_level : Level) (byte : Byte)
  | serial_flush
  | serial_interrupt (arrived : List Byte) (ready : Nat)
  | keyboard_interrupt (c : Byte)
  | input_getc
  /-- The lock of a queue and the threads that wait for it. -/
  | other

inductive Step (r : Run) : Event → Run → Prop
  | serial_init_queue {p : Port} (done : serial_init_queue r.port = some p) : Step r .serial_init_queue { r with port := p }
  | serial_putc {old_level : Level} {byte : Byte} {p : Port} (done : serial_putc old_level byte r.port = some p) :
      Step r (.serial_putc old_level byte) { r with port := p, given := r.given ++ [byte] }
  | serial_flush : Step r .serial_flush { r with port := serial_flush r.port }
  | serial_interrupt {arrived taken : List Byte} {ready : Nat} (registered : r.port.mode = .QUEUE)
      (split : arrived = taken ++ (serial_interrupt arrived ready r.port).2) :
      Step r (.serial_interrupt arrived ready) { r with port := (serial_interrupt arrived ready r.port).1, typed := r.typed ++ taken }
  | key {c : Byte} (room : input_full r.port = false) :
      Step r (.keyboard_interrupt c) { r with port := keyboard_interrupt c r.port, typed := r.typed ++ [c] }
  | dropped {c : Byte} (full : input_full r.port = true) :
      Step r (.keyboard_interrupt c) { r with port := keyboard_interrupt c r.port }
  | input_getc (some : intq_empty r.port.buffer = false) :
      Step r .input_getc { r with port := (input_getc r.port).2, returned := r.returned ++ [(input_getc r.port).1] }
  | other {txq buffer : Intq} (tx : Beside r.port.txq txq) (input : Beside r.port.buffer buffer) :
      Step r .other { r with port := { r.port with txq := txq, buffer := buffer } }

/-- The static variables are zero when the kernel starts. -/
def machine : Machine Run Event where
  Initial r := r.port.mode = .UNINIT ∧ (r.port.txq.head = 0 ∧ r.port.txq.tail = 0) ∧
    (r.port.buffer.head = 0 ∧ r.port.buffer.tail = 0) ∧ r.port.sent = [] ∧ r.given = [] ∧ r.typed = [] ∧ r.returned = []
  Step := Step

/-! ### The queues -/

variable {p p' : Port} {q : Intq} {r r' : Run} {e : Event} {out inn content : List Byte} {byte : Byte} {n : Nat}

abbrev Contains (q : Intq) (content : List Byte) : Prop := Holds INTQ_BUFSIZE q.buf q.head q.tail content

theorem contains_zero (zero : q.head = 0 ∧ q.tail = 0) : Contains q [] := by
  rw [Contains,zero.1,zero.2]
  exact holds_empty (by decide)

theorem contains_empty (contains : Contains q content) : intq_empty q = true ↔ content = [] := by
  rw [intq_empty,beq_iff_eq]
  exact empty_iff contains

theorem contains_full (contains : Contains q content) : intq_full q = true ↔ content.length + 1 = INTQ_BUFSIZE := by
  rw [intq_full,beq_iff_eq]
  exact full_iff contains

theorem contains_putc (contains : Contains q content) (room : intq_full q = false) (byte : Byte) :
    Contains (intq_putc q byte) (content ++ [byte]) := by
  rw [intq_full,beq_eq_false_iff_ne] at room
  exact holds_put contains room byte

theorem contains_getc (contains : Contains q (byte :: content)) : (intq_getc q).1 = byte ∧ Contains (intq_getc q).2 content := by
  have some : q.head ≠ q.tail := fun met => List.cons_ne_nil _ _ ((empty_iff contains).mp met)
  obtain ⟨rest,first,later⟩ := holds_get contains some
  cases first
  exact ⟨rfl,later⟩

/-- A port that has given `total` to the device or has it in its queue, in this order. -/
structure Sends (p : Port) (total out : List Byte) : Prop where
  queued : Contains p.txq out
  order : total = p.sent ++ out

variable {total : List Byte}

theorem sends_next (sends : Sends p total (byte :: out)) : Sends (send_next p) total out := by
  obtain ⟨first,rest⟩ := contains_getc sends.queued
  refine ⟨rest,?_⟩
  change total = (p.sent ++ [(intq_getc p.txq).1]) ++ out
  rw [first,sends.order,List.append_assoc]
  rfl

/-- The device takes the oldest bytes, as many as it is ready for. -/
theorem transmit_sends (sends : Sends p total out) : Sends (transmit n p) total (out.drop n) := by
  induction n generalizing p out with
  | zero => exact sends
  | succ n ih =>
    rw [transmit]
    cases out with
    | nil =>
      rw [if_pos ((contains_empty sends.queued).mpr rfl)]
      exact sends
    | cons byte out =>
      rw [if_neg fun none => List.cons_ne_nil _ _ ((contains_empty sends.queued).mp none)]
      exact ih (sends_next sends)

theorem flush_transmit : flush_from n p = transmit n p := by
  induction n generalizing p with
  | zero => rfl
  | succ n ih => rw [flush_from,transmit,ih]

theorem flush_sends (sends : Sends p total out) : Sends (serial_flush p) total [] := by
  have room := sends.queued.room
  have flushed := transmit_sends (n := INTQ_BUFSIZE) sends
  rwa [List.drop_eq_nil_of_le (by omega),← flush_transmit] at flushed

theorem transmit_keeps : (transmit n p).mode = p.mode ∧ (transmit n p).buffer = p.buffer ∧ (transmit n p).ier = p.ier := by
  induction n generalizing p with
  | zero => exact ⟨rfl,rfl,rfl⟩
  | succ n ih =>
    rw [transmit]
    split
    · exact ⟨rfl,rfl,rfl⟩
    · exact ih (p := send_next p)

theorem notify_keeps : (serial_notify p).mode = p.mode ∧ (serial_notify p).txq = p.txq ∧ (serial_notify p).buffer = p.buffer ∧
    (serial_notify p).sent = p.sent := by
  unfold serial_notify
  split <;> exact ⟨rfl,rfl,rfl,rfl⟩

/-- The first loop takes bytes as long as there is room for them. -/
theorem receive_spec (arrived : List Byte) (contains : Contains p.buffer inn) :
    ∃ taken, arrived = taken ++ (receive arrived p).2 ∧ Contains (receive arrived p).1.buffer (inn ++ taken) ∧
      (receive arrived p).1.mode = p.mode ∧ (receive arrived p).1.txq = p.txq ∧ (receive arrived p).1.sent = p.sent := by
  induction arrived generalizing p inn with
  | nil => exact ⟨[],rfl,by rwa [List.append_nil],rfl,rfl,rfl⟩
  | cons byte arrived ih =>
    rw [receive]
    cases full : input_full p with
    | true => exact ⟨[],rfl,by rwa [List.append_nil],rfl,rfl,rfl⟩
    | false =>
      obtain ⟨mode,txq,buffer,sent⟩ := notify_keeps (p := { p with buffer := intq_putc p.buffer byte })
      have more : Contains (input_putc byte p).buffer (inn ++ [byte]) := by
        rw [input_putc,buffer]
        exact contains_putc contains full byte
      obtain ⟨taken,split,held,mode',txq',sent'⟩ := ih more
      refine ⟨byte :: taken,congrArg (byte :: ·) split,?_,mode'.trans mode,txq'.trans txq,sent'.trans sent⟩
      rwa [List.append_assoc] at held

/-! ### The interrupt enable register -/

def Enabled (p : Port) (bit : Byte) : Prop := p.ier &&& bit ≠ 0

/-- The device will ask for the next byte when there is one, and it hands over what
    arrives exactly as long as there is room. -/
structure Armed (p : Port) : Prop where
  transmit : intq_empty p.txq = false → Enabled p IER_XMIT
  receive : Enabled p IER_RECV ↔ input_full p = false

theorem write_ier_armed (p : Port) : Armed (write_ier p) := by
  have transmit : intq_empty p.txq = false → Enabled (write_ier p) IER_XMIT := by
    intro some
    change ((if intq_empty p.txq then 0 else IER_XMIT) ||| if input_full p then 0 else IER_RECV) &&& IER_XMIT ≠ 0
    rw [some]
    cases input_full p <;> decide
  have receive : Enabled (write_ier p) IER_RECV ↔ input_full p = false := by
    change ((if intq_empty p.txq then 0 else IER_XMIT) ||| if input_full p then 0 else IER_RECV) &&& IER_RECV ≠ 0 ↔ _
    cases intq_empty p.txq <;> cases input_full p <;> decide
  exact ⟨transmit,receive⟩

theorem notify_armed (queue : p.mode = .QUEUE) : Armed (serial_notify p) := by
  rw [serial_notify,if_pos queue]
  exact write_ier_armed p

theorem armed_congr (tx : Beside p.txq p'.txq) (input : Beside p.buffer p'.buffer) (ier : p'.ier = p.ier) (armed : Armed p) :
    Armed p' := by
  have empty : intq_empty p'.txq = intq_empty p.txq := by rw [intq_empty,intq_empty,tx.head,tx.tail]
  have full : input_full p' = input_full p := by rw [input_full,input_full,intq_full,intq_full,input.head,input.tail]
  refine ⟨fun some => ?_,?_⟩
  · rw [Enabled,ier]
    exact armed.transmit (empty ▸ some)
  · rw [Enabled,ier,full]
    exact armed.receive

/-! ### Every step keeps the order -/

/-- With the bytes in the two queues. -/
structure Inv (r : Run) (out inn : List Byte) : Prop where
  sends : Sends r.port r.given out
  input : Contains r.port.buffer inn
  read : r.typed = r.returned ++ inn
  polled : r.port.mode ≠ .QUEUE → out = []
  armed : r.port.mode = .QUEUE → Armed r.port

theorem inv_init (initial : machine.Initial r) : Inv r [] [] := by
  obtain ⟨mode,txq,buffer,sent,given,typed,returned⟩ := initial
  exact ⟨⟨contains_zero txq,by rw [sent,given]; rfl⟩,contains_zero buffer,by rw [typed,returned]; rfl,fun _ => rfl,
    fun queue => absurd (mode.symm.trans queue) (by decide)⟩

/-- The start of `serial_putc` and of `serial_init_queue`. -/
theorem init_poll_sends (sends : Sends p total []) (before : p.mode ≠ .QUEUE) :
    Sends (if p.mode = .UNINIT then init_poll p else p) total [] ∧
      (if p.mode = .UNINIT then init_poll p else p).buffer = p.buffer ∧
      (if p.mode = .UNINIT then init_poll p else p).mode = .POLL := by
  cases mode : p.mode with
  | UNINIT => exact ⟨⟨contains_zero ⟨rfl,rfl⟩,sends.order⟩,rfl,rfl⟩
  | POLL => exact ⟨sends,rfl,mode⟩
  | QUEUE => exact absurd mode before

theorem serial_init_queue_spec (sends : Sends p total out) (polled : p.mode ≠ .QUEUE → out = [])
    (done : serial_init_queue p = some p') :
    Sends p' total [] ∧ p'.buffer = p.buffer ∧ p'.mode = .QUEUE ∧ Armed p' := by
  have before : p.mode ≠ .QUEUE := by
    intro queue
    simp [serial_init_queue,queue] at done
  rw [polled before] at sends
  obtain ⟨started,buffer,mode⟩ := init_poll_sends sends before
  rw [serial_init_queue,if_pos mode] at done
  cases done
  exact ⟨⟨started.queued,started.order⟩,buffer,rfl,write_ier_armed _⟩

/-- Before it queues a byte with interrupts off, `serial_putc` has made room. -/
theorem room_made (sends : Sends p total out) :
    ∃ out', Sends (if Level.OFF = .OFF ∧ intq_full p.txq = true then send_next p else p) total out' ∧
      intq_full (if Level.OFF = .OFF ∧ intq_full p.txq = true then send_next p else p).txq = false := by
  cases full : intq_full p.txq with
  | false => exact ⟨out,sends,full⟩
  | true =>
    have long := (contains_full sends.queued).mp full
    cases out with
    | nil => exact absurd long (by decide)
    | cons byte out =>
      have later := sends_next sends
      refine ⟨out,later,?_⟩
      rw [← Bool.not_eq_true]
      intro still
      have same := (contains_full later.queued).mp still
      rw [List.length_cons] at long
      omega

theorem serial_putc_spec {old_level : Level} (sends : Sends p total out) (polled : p.mode ≠ .QUEUE → out = [])
    (done : serial_putc old_level byte p = some p') :
    ∃ out', Sends p' (total ++ [byte]) out' ∧ p'.buffer = p.buffer ∧ (p'.mode ≠ .QUEUE → out' = []) ∧
      (p'.mode = .QUEUE → Armed p') := by
  rw [serial_putc] at done
  by_cases queue : p.mode = .QUEUE
  · rw [if_neg fun other => other queue] at done
    -- what is queued when there is room
    have queues {p₁ : Port} {out₁ : List Byte} (sends₁ : Sends p₁ total out₁) (buffer : p₁.buffer = p.buffer)
        (mode : p₁.mode = .QUEUE)
        (rest : (if intq_full p₁.txq then none else some (write_ier { p₁ with txq := intq_putc p₁.txq byte })) = some p') :
        ∃ out', Sends p' (total ++ [byte]) out' ∧ p'.buffer = p.buffer ∧ (p'.mode ≠ .QUEUE → out' = []) ∧
          (p'.mode = .QUEUE → Armed p') := by
      cases full : intq_full p₁.txq with
      | true =>
        rw [full] at rest
        cases rest
      | false =>
        rw [full] at rest
        cases rest
        refine ⟨out₁ ++ [byte],⟨contains_putc sends₁.queued full byte,?_⟩,buffer,fun other => absurd mode other,
          fun _ => write_ier_armed _⟩
        change total ++ [byte] = p₁.sent ++ (out₁ ++ [byte])
        rw [sends₁.order,List.append_assoc]
    by_cases polls : old_level = .OFF ∧ intq_full p.txq = true
    · simp only [if_pos polls] at done
      cases out with
      | nil => exact absurd ((contains_full sends.queued).mp polls.2) (by decide)
      | cons first out => exact queues (sends_next sends) rfl queue done
    · simp only [if_neg polls] at done
      exact queues sends rfl queue done
  · rw [if_pos queue] at done
    cases done
    rw [polled queue] at sends
    obtain ⟨started,buffer,mode⟩ := init_poll_sends sends queue
    refine ⟨[],⟨started.queued,?_⟩,buffer,fun _ => rfl,fun other => absurd (mode.symm.trans other) (by decide)⟩
    rw [started.order,List.append_nil]
    exact (List.append_nil _).symm

theorem inv_step (inv : Inv r out inn) (step : Step r e r') : ∃ out' inn', Inv r' out' inn' := by
  cases step with
  | serial_init_queue done =>
    obtain ⟨sends,buffer,mode,armed⟩ := serial_init_queue_spec inv.sends inv.polled done
    exact ⟨[],inn,sends,buffer ▸ inv.input,inv.read,fun _ => rfl,fun _ => armed⟩
  | serial_putc done =>
    obtain ⟨out',sends,buffer,polled,armed⟩ := serial_putc_spec inv.sends inv.polled done
    exact ⟨out',inn,sends,buffer ▸ inv.input,inv.read,polled,armed⟩
  | serial_flush =>
    have flushed := flush_sends inv.sends
    obtain ⟨mode,buffer,ier⟩ := transmit_keeps (n := INTQ_BUFSIZE) (p := r.port)
    rw [← flush_transmit,← serial_flush] at mode buffer ier
    refine ⟨[],inn,flushed,buffer ▸ inv.input,inv.read,fun _ => rfl,fun queue => ⟨fun some => ?_,?_⟩⟩
    · rw [(contains_empty flushed.queued).mpr rfl] at some
      cases some
    · change (serial_flush r.port).ier &&& IER_RECV ≠ 0 ↔ intq_full (serial_flush r.port).buffer = false
      rw [ier,buffer]
      exact (inv.armed (mode ▸ queue)).receive
  | @serial_interrupt arrived taken ready registered split =>
    obtain ⟨taken',split',held,mode,txq,sent⟩ := receive_spec arrived inv.input
    obtain rfl : taken = taken' := List.append_cancel_right (split.symm.trans split')
    have sends : Sends (receive arrived r.port).1 r.given out := ⟨txq ▸ inv.sends.queued,sent ▸ inv.sends.order⟩
    have later := transmit_sends (n := ready) sends
    obtain ⟨mode',buffer,-⟩ := transmit_keeps (n := ready) (p := (receive arrived r.port).1)
    refine ⟨out.drop ready,inn ++ taken,⟨later.queued,later.order⟩,?_,?_,fun other => ?_,fun _ => write_ier_armed _⟩
    · exact buffer ▸ held
    · rw [inv.read,List.append_assoc]
    · exact absurd (mode'.trans (mode.trans registered)) other
  | @key c room =>
    obtain ⟨mode,txq,buffer,sent⟩ := notify_keeps (p := { r.port with buffer := intq_putc r.port.buffer c })
    have whole : keyboard_interrupt c r.port = input_putc c r.port := if_neg (by rw [room]; decide)
    rw [whole]
    refine ⟨out,inn ++ [c],⟨?_,?_⟩,?_,?_,fun other => inv.polled (mode ▸ other),fun queue => notify_armed (mode ▸ queue)⟩
    · change Contains (input_putc c r.port).txq out
      rw [input_putc,txq]
      exact inv.sends.queued
    · change r.given = (input_putc c r.port).sent ++ out
      rw [input_putc,sent]
      exact inv.sends.order
    · change Contains (input_putc c r.port).buffer (inn ++ [c])
      rw [input_putc,buffer]
      exact contains_putc inv.input room c
    · rw [inv.read,List.append_assoc]
  | dropped full =>
    have whole : ∀ c, keyboard_interrupt c r.port = r.port := fun c => if_pos full
    rw [whole]
    exact ⟨out,inn,inv.sends,inv.input,inv.read,inv.polled,inv.armed⟩
  | input_getc some =>
    obtain ⟨mode,txq,buffer,sent⟩ := notify_keeps (p := { r.port with buffer := (intq_getc r.port.buffer).2 })
    cases inn with
    | nil =>
      rw [(contains_empty inv.input).mpr rfl] at some
      cases some
    | cons key inn =>
      obtain ⟨first,rest⟩ := contains_getc inv.input
      refine ⟨out,inn,⟨?_,?_⟩,?_,?_,fun other => inv.polled (mode ▸ other),fun queue => notify_armed (mode ▸ queue)⟩
      · change Contains (input_getc r.port).2.txq out
        rw [input_getc,txq]
        exact inv.sends.queued
      · change r.given = (input_getc r.port).2.sent ++ out
        rw [input_getc,sent]
        exact inv.sends.order
      · change Contains (input_getc r.port).2.buffer inn
        rw [input_getc,buffer]
        exact rest
      · change r.typed = (r.returned ++ [(intq_getc r.port.buffer).1]) ++ inn
        rw [inv.read,first,List.append_assoc]
        rfl
  | other tx input =>
    exact ⟨out,inn,⟨beside_holds tx inv.sends.queued,inv.sends.order⟩,beside_holds input inv.input,inv.read,inv.polled,
      fun queue => armed_congr (p := r.port) tx input rfl (inv.armed queue)⟩

theorem reaches_inv (reached : Reaches machine Anything r) : ∃ out inn, Inv r out inn :=
  reaches_invariant (fun r => ∃ out inn, Inv r out inn) (fun _ initial => ⟨[],[],inv_init initial⟩)
    (fun _ _ _ inv _ step => inv.elim fun _ inv => inv.elim fun _ inv => inv_step inv step) reached

/-- The static variables when the kernel starts. -/
def zeroed : Port where
  mode := .UNINIT
  txq := InterruptQueues.start.q
  buffer := InterruptQueues.start.q
  ier := 0
  fcr := 0
  lcr := 0
  mcr := 0
  divisor := 0
  sent := []

/-- Two bytes were given after the start of the queue, and the device took one. -/
theorem one_byte_sent : ∃ r, Reaches machine Anything r ∧ r.given = [97,98] ∧ r.port.sent = [97] := by
  have first : Reaches machine Anything _ := .next (e := .serial_init_queue)
    (.start (s := ⟨zeroed,[],[],[]⟩) ⟨rfl,⟨rfl,rfl⟩,⟨rfl,rfl⟩,rfl,rfl,rfl,rfl⟩) trivial (Step.serial_init_queue rfl)
  have second : Reaches machine Anything _ := .next (e := .serial_putc .ON 97) first trivial (Step.serial_putc rfl)
  have third : Reaches machine Anything _ := .next (e := .serial_putc .ON 98) second trivial (Step.serial_putc rfl)
  have fourth : Reaches machine Anything _ := .next (e := .serial_interrupt [] 1) third trivial
    (@Step.serial_interrupt _ [] [] 1 rfl rfl)
  exact ⟨_,fourth,rfl,rfl⟩

/-- From any reachable state: a byte given with interrupts off is taken without waiting,
    a flush leaves nothing behind, and an interrupt sends the oldest bytes, as many as
    the device is ready for. -/
theorem serial_sends (reached : Reaches machine Anything r) :
    (∀ byte, (serial_putc .OFF byte r.port).isSome) ∧ (serial_flush r.port).sent = r.given ∧
      ∃ out, r.given = r.port.sent ++ out ∧
        ∀ arrived ready, (serial_interrupt arrived ready r.port).1.sent = r.port.sent ++ out.take ready := by
  obtain ⟨out,inn,inv⟩ := reaches_inv reached
  refine ⟨fun byte => ?_,?_,out,inv.sends.order,fun arrived ready => ?_⟩
  · obtain ⟨out',-,room⟩ := room_made inv.sends
    rw [serial_putc]
    split
    · rfl
    · change (if intq_full (if Level.OFF = .OFF ∧ intq_full r.port.txq = true then send_next r.port else r.port).txq = true then none
        else some _).isSome = true
      rw [room]
      rfl
  · have flushed := (flush_sends inv.sends).order
    rw [List.append_nil] at flushed
    exact flushed.symm
  · obtain ⟨taken,-,-,-,txq,sent⟩ := receive_spec arrived inv.input
    have sends : Sends (receive arrived r.port).1 r.given out := ⟨txq ▸ inv.sends.queued,sent ▸ inv.sends.order⟩
    have later := (transmit_sends (n := ready) sends).order
    rw [inv.sends.order] at later
    refine List.append_cancel_right (later.symm.trans ?_)
    rw [List.append_assoc,List.take_append_drop]

theorem serial_sends_one_sent : ∃ r : Run, r.given = [97,98] ∧ (serial_flush r.port).sent = r.given := by
  obtain ⟨r,reached,given,-⟩ := one_byte_sent
  exact ⟨r,given,(serial_sends reached).2.1⟩

end Pintos.Serial
