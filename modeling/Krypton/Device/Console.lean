import Krypton.Kernel.State
import Krypton.Foundations.Runs

/-! # The console device

The console task serves the requests that tasks send it with `do_io`, one after
the other. Queues are taken as what `queue.c` makes of them: first in, first out,
with a bound on their length; a blocking operation is one that cannot yet be
taken. Tasks, the console and the keyboard take turns in any order.
-/

namespace Krypton

namespace Console

/-- A queue of messages, the oldest first. -/
structure Channel (α : Type) where
  max_slots : Nat
  msgs : List α

namespace Channel

variable {α : Type}

/-- A send, where there is a free slot. -/
def queue_send (queue : Channel α) (msg : α) : Option (Channel α) :=
  if queue.msgs.length < queue.max_slots then some { queue with msgs := queue.msgs ++ [msg] }
  else none

/-- A receive, where there is a message. -/
def queue_recv (queue : Channel α) : Option (α × Channel α) :=
  match queue.msgs with
  | [] => none
  | msg :: msgs => some (msg, { queue with msgs })

end Channel

/-- `enum GEN_DEVICE_COMMANDS` -/
inductive Command where
  | DC_OPEN
  | DC_CLOSE
  | DC_WRITE
  | DC_READ
  | DC_FLUSH
  deriving DecidableEq

/-- `iorq_t` -/
structure Iorq where
  io_response : Ptr32
  io_desc : Command
  io_sz : BitVec 32
  io_dptr : Ptr32
  deriving DecidableEq

/-- The rows of the scancode table; what is behind them is zero. -/
def kbdusRows : List Char :=
  ['\x00', '\x1b', '1', '2', '3', '4', '5', '6', '7', '8',
   '9', '0', '-', '=', '\x08',
   '\t',
   'q', 'w', 'e', 'r',
   't', 'y', 'u', 'i', 'o', 'p', '[', ']', '\n',
   '\x00',
   'a', 's', 'd', 'f', 'g', 'h', 'j', 'k', 'l', ';',
   '\x27', '\x60', '\x00',
   '\\', 'z', 'x', 'c', 'v', 'b', 'n',
   'm', ',', '.', '/', '\x00',
   '*',
   '\x00',
   ' ',
   '\x00',
   '\x00', '\x00', '\x00', '\x00', '\x00', '\x00', '\x00', '\x00', '\x00', '\x00',
   '\x00',
   '\x00', '\x00', '\x00', '\x00',
   '-',
   '\x00', '\x00', '\x00',
   '+']

/-- `kbdus[scancode]` -/
def kbdus (scancode : BitVec 32) : Char := kbdusRows.getD scancode.toNat '\x00'

def isprintable (c : Char) : Bool := c.toNat ≥ 32 ∧ c.toNat ≤ 126

/-- Where the console task stands: before a receive, a test or the reply. -/
inductive ConsolePc where
  | request
  | command (iorq : Iorq)
  | key (iorq : Iorq) (i : Nat)
  | reply (iorq : Iorq)
  deriving DecidableEq

/-- Where a task stands in `do_io`. -/
inductive ClientPc where
  | idle
  | create (req : Iorq)
  | send (req : Iorq)
  | recv (req : Iorq)
  | destroy (req : Iorq)
  deriving DecidableEq

/-- What the console does with requests and with the queues of their senders. -/
inductive Action where
  | dequeue (iorq : Iorq)
  | reply (queue : Ptr32)
  deriving DecidableEq

structure System (Client : Type) where
  console : ConsolePc
  iorq_queue : Channel Iorq
  keybd_queue : Channel (BitVec 32)
  /-- the queues that `do_io` has created and not destroyed; their messages carry no data -/
  response : Ptr32 → Option (Channel Unit)
  client : Client → ClientPc
  mem : Ptr32 → BitVec 8
  monitor : List Char
  /-- what the console has done so far -/
  history : List Action

inductive Event (Client : Type) where
  /-- the console goes on -/
  | console
  | key (scancode : BitVec 8)
  /-- a task calls `do_io(&keybd_device, req)` -/
  | do_io (a : Client) (req : Iorq)
  /-- it goes on; `queue` is what a `create_queue` returns -/
  | client (a : Client) (queue : Ptr32)

namespace System

variable {Client : Type}

/-- `monitor_put(c)` -/
def monitor_put (s : System Client) (c : Char) : System Client :=
  { s with monitor := s.monitor ++ [c] }

/-- `aux[i] = c` -/
def put (s : System Client) (iorq : Iorq) (i : Nat) (c : Char) : System Client :=
  { s with mem := Function.update s.mem (iorq.io_dptr + BitVec.ofNat 32 i) (.ofNat 8 c.toNat) }

/-- `memset(aux, 0, iorq.io_sz)` -/
def clear (s : System Client) (iorq : Iorq) : System Client :=
  { s with mem := fun p => if p - iorq.io_dptr < iorq.io_sz then 0 else s.mem p }

def goto (s : System Client) (console : ConsolePc) : System Client := { s with console }

/-- A character of the line that is read. -/
def edit (s : System Client) (iorq : Iorq) (i : Nat) (c : Char) : System Client :=
  if c = '\n' then ((s.monitor_put '\n').put iorq i '\x00').goto (.reply iorq)
  else if c = '\x08' ∧ i > 0 then
    ((s.put iorq i '\x00').monitor_put '\x08').goto (.key iorq (i - 1))
  else if c = '\x00' ∨ c = '\t' ∨ BitVec.ofNat 32 i = iorq.io_sz - 1 then s.goto (.key iorq i)
  else if isprintable c then ((s.put iorq i c).monitor_put c).goto (.key iorq (i + 1))
  else s.goto (.key iorq i)

/-- The loop of `console_device`. -/
def console_device (s : System Client) : Option (System Client) :=
  match s.console with
  | .request => do
      let (iorq, iorq_queue) ← s.iorq_queue.queue_recv
      return { s with
        iorq_queue
        console := .command iorq
        history := s.history ++ [.dequeue iorq] }
  | .command iorq =>
      if iorq.io_desc = .DC_READ then some ((s.clear iorq).goto (.key iorq 0))
      else some (s.goto .request)
  | .key iorq i => do
      let (scancode, keybd_queue) ← s.keybd_queue.queue_recv
      return { s with keybd_queue }.edit iorq i (kbdus scancode)
  | .reply iorq => do
      -- a non-blocking send to a full queue returns NULL, which the console does not look at
      match (← s.response iorq.io_response).queue_send () with
      | none => return s.goto .request
      | some queue =>
          return { s with
            response := Function.update s.response iorq.io_response (some queue)
            console := .request
            history := s.history ++ [.reply iorq.io_response] }

/-- `keypress_isr` drops the code of a released key, and a key if the queue is full. -/
def keypress_isr (s : System Client) (scancode : BitVec 8) : System Client :=
  if scancode &&& 0x80 = 0 then
    match s.keybd_queue.queue_send (scancode.setWidth 32) with
    | none => s
    | some keybd_queue => { s with keybd_queue }
  else s

def goClient [DecidableEq Client] (s : System Client) (a : Client) (pc : ClientPc) :
    System Client :=
  { s with client := Function.update s.client a pc }

/-- The statements of `do_io`. -/
def doIo [DecidableEq Client] (s : System Client) (a : Client) (queue : Ptr32) :
    Option (System Client) :=
  match s.client a with
  | .idle => none
  | .create req =>
      if (s.response queue).isSome then none
      else some ({ s with response := Function.update s.response queue (some ⟨1, []⟩) }.goClient a
        (.send { req with io_response := queue }))
  | .send req => do
      return { s with iorq_queue := ← s.iorq_queue.queue_send req }.goClient a (.recv req)
  | .recv req => do
      let (_, queue) ← (← s.response req.io_response).queue_recv
      return { s with response := Function.update s.response req.io_response (some queue) }.goClient
          a
        (.destroy req)
  | .destroy req =>
      some ({ s with response := Function.update s.response req.io_response none }.goClient a .idle)

def step [DecidableEq Client] (s : System Client) : Event Client → Option (System Client)
  | .console => s.console_device
  | .key scancode => some (s.keypress_isr scancode)
  | .do_io a req => if s.client a = .idle then some (s.goClient a (.create req)) else none
  | .client a queue => s.doIo a queue

/-- The console has created its two queues. -/
def start : System Client where
  console := .request
  iorq_queue := ⟨10, []⟩
  keybd_queue := ⟨1, []⟩
  response := fun _ => none
  client := fun _ => .idle
  mem := fun _ => 0
  monitor := []
  history := []

end System

/-- The request that the console is at work on. -/
def ConsolePc.current : ConsolePc → Option Iorq
  | .request => none
  | .command iorq | .key iorq _ | .reply iorq => some iorq

/-- Every request taken was answered once, on its own queue and before the next
    one was taken; the last may still be at work on. -/
def Answered {Client : Type} (s : System Client) : Prop :=
  ∃ done : List Iorq, s.history =
    done.flatMap (fun iorq => [.dequeue iorq, .reply iorq.io_response]) ++
      s.console.current.toList.map .dequeue

/-- The requests ask for a line. -/
def Reads {Client : Type} (_ : System Client) : Event Client → Prop
  | .do_io _ req => req.io_desc = .DC_READ
  | _ => True

end Console

end Krypton
