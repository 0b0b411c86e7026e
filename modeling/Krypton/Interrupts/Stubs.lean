import Mathlib.Data.BitVec
import Krypton.Foundations.WordStack

/-! # The interrupt stubs

The assembler code of `idt_s.asm`, and as much of the processor as it uses.
Every access is to a word of four bytes, and stack pointers move by four, so
the memory is one of words. Code is a list of instructions; a jump is followed
by the code at its target. Selectors are taken to be good ones for the level
that they are loaded at, and the descriptors are flat.
-/

namespace Krypton

inductive Reg where
  | eax | ecx | edx | ebx | esp | ebp | esi | edi
  deriving DecidableEq

inductive Seg where
  | cs | ds | es | fs | gs | ss
  deriving DecidableEq

/-- `eip` is where the code that was interrupted goes on. -/
@[ext] structure Processor where
  reg : Reg → BitVec 32
  seg : Seg → BitVec 16
  eip : BitVec 32
  eflags : BitVec 32
  memory : BitVec 32 → BitVec 32

/-- `registers_t` -/
@[ext] structure Registers where
  ds : BitVec 32
  edi : BitVec 32
  esi : BitVec 32
  ebp : BitVec 32
  useless_value : BitVec 32
  ebx : BitVec 32
  edx : BitVec 32
  ecx : BitVec 32
  eax : BitVec 32
  int_no : BitVec 32
  err_code : BitVec 32
  eip : BitVec 32
  cs : BitVec 32
  eflags : BitVec 32
  esp : BitVec 32
  ss : BitVec 32
  deriving DecidableEq

namespace Registers

/-- The fields in their order. -/
def words (r : Registers) : List (BitVec 32) :=
  [r.ds, r.edi, r.esi, r.ebp, r.useless_value, r.ebx, r.edx, r.ecx, r.eax, r.int_no, r.err_code,
    r.eip, r.cs, r.eflags, r.esp, r.ss]

/-- The structure that a pointer is to. -/
def load (memory : BitVec 32 → BitVec 32) (p : BitVec 32) : Registers where
  ds := memory p
  edi := memory (p + 4)
  esi := memory (p + 8)
  ebp := memory (p + 12)
  useless_value := memory (p + 16)
  ebx := memory (p + 20)
  edx := memory (p + 24)
  ecx := memory (p + 28)
  eax := memory (p + 32)
  int_no := memory (p + 36)
  err_code := memory (p + 40)
  eip := memory (p + 44)
  cs := memory (p + 48)
  eflags := memory (p + 52)
  esp := memory (p + 56)
  ss := memory (p + 60)

end Registers

inductive Instr where
  | cli
  | push (w : BitVec 32)
  | pushReg (r : Reg)
  | pushad
  | pushfd
  | pop (r : Reg)
  | popad
  | mov (r r' : Reg)
  /-- into the low half of a register -/
  | movLow (r : Reg) (w : BitVec 16)
  | movFrom (r : Reg) (s : Seg)
  /-- the low half of a register into a segment register -/
  | movTo (s : Seg) (r : Reg)
  | or (r : Reg) (w : BitVec 32)
  | addEsp (w : BitVec 32)
  /-- of a function that runs from its entry until it has returned -/
  | call (f : Processor → Processor)
  | ret
  | iretd

namespace Processor

def set (c : Processor) (r : Reg) (w : BitVec 32) : Processor :=
  { c with reg := Function.update c.reg r w }

def setSeg (c : Processor) (s : Seg) (w : BitVec 16) : Processor :=
  { c with seg := Function.update c.seg s w }

/-- The low half of a register. -/
def setLow (c : Processor) (r : Reg) (w : BitVec 16) : Processor :=
  c.set r ((c.reg r).extractLsb' 16 16 ++ w)

def push (c : Processor) (w : BitVec 32) : Processor :=
  { c with memory := Function.update c.memory (c.reg .esp - 4) w }.set .esp (c.reg .esp - 4)

def pop (c : Processor) : BitVec 32 × Processor :=
  (c.memory (c.reg .esp), c.set .esp (c.reg .esp + 4))

/-- The privilege level that a selector asks for. -/
def level (w : BitVec 16) : BitVec 2 := w.setWidth 2

def pushad (c : Processor) : Processor :=
  [Reg.eax, .ecx, .edx, .ebx, .esp, .ebp, .esi, .edi].foldl (fun c' r => c'.push (c.reg r)) c

/-- What was pushed of `esp` is passed over. -/
def popad (c : Processor) : Processor :=
  [Reg.edi, .esi, .ebp, .esp, .ebx, .edx, .ecx, .eax].foldl
    (fun c r => if r = .esp then c.pop.2 else c.pop.2.set r c.pop.1) c

/-- The stack pointer and its segment are loaded only for a level further out. -/
def iretd (c : Processor) : Processor :=
  let (eip, c) := c.pop
  let (cs, c) := c.pop
  let (eflags, c) := c.pop
  let outer := level (c.seg .cs) < level (cs.setWidth 16)
  let c := { c.setSeg .cs (cs.setWidth 16) with eip, eflags }
  if outer then
    let (esp, c) := c.pop
    let (ss, c) := c.pop
    (c.setSeg .ss (ss.setWidth 16)).set .esp esp
  else c

def step (c : Processor) : Instr → Processor
  | .cli => { c with eflags := c.eflags &&& ~~~0x200#32 }
  | .push w => c.push w
  | .pushReg r => c.push (c.reg r)
  | .pushad => c.pushad
  | .pushfd => c.push c.eflags
  | .pop r => c.pop.2.set r c.pop.1
  | .popad => c.popad
  | .mov r r' => c.set r (c.reg r')
  | .movLow r w => c.setLow r w
  | .movFrom r s => c.setLow r (c.seg s)
  | .movTo s r => c.setSeg s ((c.reg r).setWidth 16)
  | .or r w => c.set r (c.reg r ||| w)
  | .addEsp w => c.set .esp (c.reg .esp + w)
  | .call f => f (c.push c.eip)
  | .ret => { c.pop.2 with eip := c.pop.1 }
  | .iretd => c.iretd

def exec (c : Processor) (code : List Instr) : Processor := code.foldl step c

/-- The processor passes a gate of the interrupt table. From an outer level it takes the stack of
    the task state segment; for some exceptions it pushes an error code. Of a fault it pushes the
    flags with RF set: this bit is left out. -/
def interrupt (c : Processor) (ss0 : BitVec 16) (esp0 : BitVec 32) (error : Option (BitVec 32)) :
    Processor :=
  let outer := if level (c.seg .cs) ≠ 0 then [(c.seg .ss).setWidth 32, c.reg .esp] else []
  let entered := if level (c.seg .cs) ≠ 0 then (c.setSeg .ss ss0).set .esp esp0 else c
  let pushed :=
    (outer ++ [c.eflags, (c.seg .cs).setWidth 32, c.eip] ++ error.toList).foldl push entered
  { pushed.setSeg .cs 0x08 with eflags := c.eflags &&& ~~~0x34300#32 }

end Processor

/-! ## The code -/

namespace Stubs

open Instr Reg Seg

/-- The stubs that expect an error code below what they push. -/
def errcode (n : BitVec 32) : Bool := n ∈ [8, 10, 11, 12, 13, 14]

/-- `isr%1` -/
def isr (n : BitVec 32) : List Instr := if errcode n then [push n] else [push 0, push n]

/-- `irq%1` -/
def irq (n : BitVec 32) : List Instr := [cli, push 0, push n]

def dispatch : List Instr :=
  [pop ebx, movTo ds ebx, movTo es ebx, movTo fs ebx, movTo gs ebx, popad, addEsp 8, iretd]

/-- Up to the call. -/
def save : List Instr :=
  [pushad, movFrom eax ds, pushReg eax, movLow eax 0x10, movTo ds eax, movTo es eax, movTo fs eax,
    movTo gs eax, pushReg esp]

/-- `isr_common_stub` and `irq_common_stub`, which call different handlers -/
def common_stub (handler : Processor → Processor) : List Instr :=
  save ++ [call handler, addEsp 4] ++ dispatch

def enter_user_mode (user_mode : BitVec 32) : List Instr :=
  [movLow eax 0x23, movTo ds eax, movTo es eax, movTo fs eax, movTo gs eax, mov eax esp, push 0x23,
      pushReg eax,
      pushfd,
    pop ebx, or ebx 0x3200, pushReg ebx, push 0x1B, push user_mode, iretd, ret]

end Stubs

end Krypton
