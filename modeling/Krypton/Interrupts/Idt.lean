import Krypton.Cpu

/-! # The interrupt descriptor table

`init_idt` of `idt.c`, and what the processor makes of the entries. What it does
to the interrupt controllers is left out.
-/

namespace Krypton

/-- `idt_entry_t` -/
structure IdtEntry where
  base_lo : BitVec 16
  sel : BitVec 16
  always0 : BitVec 8
  flags : BitVec 8
  base_hi : BitVec 16
  deriving DecidableEq

structure Idt where
  idt_entries : Nat → IdtEntry
  /-- addresses of functions, or zero -/
  interrupt_handlers : Nat → BitVec 32
  /-- the `limit` and the `base` of `idt_ptr` -/
  idt_ptr : BitVec 16 × BitVec 32

namespace Idt

def idt_set_gate (t : Idt) (num : Nat) (base : BitVec 32) (sel : BitVec 16) (flags : BitVec 8) :
    Idt :=
  let entry : IdtEntry := {
    base_lo := (base &&& 0xFFFF#32).setWidth 16
    base_hi := (base >>> 16 &&& 0xFFFF#32).setWidth 16
    sel := sel
    always0 := 0
    flags := flags ||| 0x60 }
  { t with idt_entries := Function.update t.idt_entries num entry }

/-- The stub for every vector that has one, where `isr` and `irq` are the addresses of the stubs. -/
def stubs (isr irq : Nat → BitVec 32) : List (Nat × BitVec 32) :=
  ((List.range 32).map fun n => (n, isr n)) ++ ((List.range 16).map fun n => (32 + n, irq n)) ++
      [(255, isr 255)]

/-- The table before the gates are set. The last entry is not cleared. -/
def clear (t : Idt) (address : BitVec 32) : Idt :=
  let t := { t with interrupt_handlers := fun n =>
      if n < 256 then 0#32 else t.interrupt_handlers n }
  let t := { t with idt_ptr := (8#16 * 256#16 - 1#16, address) }
  { t with idt_entries := fun n => if n < 255 then ⟨0, 0, 0, 0, 0⟩ else t.idt_entries n }

def init_idt (t : Idt) (address : BitVec 32) (isr irq : Nat → BitVec 32) : Idt :=
  (stubs isr irq).foldl (fun t gate => t.idt_set_gate gate.1 gate.2 0x08 0x8E) (t.clear address)

end Idt

/-! ## What the processor reads -/

namespace IdtEntry

variable (e : IdtEntry)

/-- The eight bytes of the packed structure, the first one lowest. -/
def bytes : BitVec 64 := e.base_hi ++ e.flags ++ e.always0 ++ e.sel ++ e.base_lo

def offset : BitVec 32 := e.bytes.extractLsb' 48 16 ++ e.bytes.extractLsb' 0 16

def selector : BitVec 16 := e.bytes.extractLsb' 16 16

def present : Bool := e.bytes.getLsbD 47

/-- The outermost level that may call the gate. -/
def dpl : BitVec 2 := e.bytes.extractLsb' 45 2

/-- An interrupt gate of 32 bits. -/
def interrupt : Bool := e.bytes.extractLsb' 40 5 = 0b01110#5

/-- The gate leads to `base` in the code of the kernel, from every level. -/
structure Opens (base : BitVec 32) : Prop where
  offset : e.offset = base
  selector : e.selector = 0x08
  present : e.present
  dpl : e.dpl = 3
  interrupt : e.interrupt

theorem offset_eq : e.offset = e.base_hi ++ e.base_lo := by
  have high : e.bytes.extractLsb' 48 16 = e.base_hi := by
    apply BitVec.eq_of_getLsbD_eq
    intro i below
    simp only [bytes, BitVec.getLsbD_extractLsb', BitVec.getLsbD_append, below, decide_true,
        Bool.true_and]
    simp (disch := omega) only [if_neg]
    exact congrArg _ (by omega)
  have low : e.bytes.extractLsb' 0 16 = e.base_lo := by
    apply BitVec.eq_of_getLsbD_eq
    intro i below
    simp only [bytes, BitVec.getLsbD_extractLsb', BitVec.getLsbD_append, below, decide_true,
        Bool.true_and]
    simp (disch := omega) only [if_pos]
    exact congrArg _ (by omega)
  rw [offset, high, low]

theorem selector_eq : e.selector = e.sel := by
  apply BitVec.eq_of_getLsbD_eq
  intro i below
  simp only [selector, bytes, BitVec.getLsbD_extractLsb', BitVec.getLsbD_append, below, decide_true,
      Bool.true_and]
  simp (disch := omega) only [if_neg, if_pos]
  exact congrArg _ (by omega)

/-- The fifth byte is that of the flags. -/
theorem flags_eq {k n : Nat} (inside : k + n ≤ 8) :
    e.bytes.extractLsb' (40 + k) n = e.flags.extractLsb' k n := by
  apply BitVec.eq_of_getLsbD_eq
  intro i below
  simp only [bytes, BitVec.getLsbD_extractLsb', BitVec.getLsbD_append, below, decide_true,
      Bool.true_and]
  simp (disch := omega) only [if_neg, if_pos]
  exact congrArg _ (by omega)

theorem present_eq : e.present = e.flags.getLsbD 7 := by
  simp only [present, bytes, BitVec.getLsbD_append]
  rfl

theorem opens_of {base : BitVec 32} {e : IdtEntry} (flags : e.flags = 0xEE) (sel : e.sel = 0x08)
    (offset : e.offset = base) :
    e.Opens base where
  offset := offset
  selector := (e.selector_eq).trans sel
  present := by
    rw [present_eq, flags]
    decide
  dpl := by
    have bits : e.dpl = e.flags.extractLsb' 5 2 := flags_eq e (k := 5) (n := 2) (by decide)
    rw [bits, flags]
    decide
  interrupt := by
    have bits : e.bytes.extractLsb' 40 5 = e.flags.extractLsb' 0 5 :=
      flags_eq e (k := 0) (n := 5) (by decide)
    unfold interrupt
    rw [bits, flags]
    decide

end IdtEntry

namespace Idt

open IdtEntry

variable (t : Idt)

theorem set_gate_opens (num : Nat) (base : BitVec 32) :
    ((t.idt_set_gate num base 0x08 0x8E).idt_entries num).Opens base := by
  have low : (base &&& 0xFFFF#32).setWidth 16 = base.extractLsb' 0 16 :=
    extract_cut base 0 16 (by decide)
  have high : (base >>> 16 &&& 0xFFFF#32).setWidth 16 = base.extractLsb' 16 16 :=
    extract_cut base 16 16 (by decide)
  have entry : (t.idt_set_gate num base 0x08 0x8E).idt_entries num =
      ⟨base.extractLsb' 0 16, 0x08, 0, 0xEE, base.extractLsb' 16 16⟩ := by
    rw [← low, ← high]
    exact Function.update_self ..
  have whole : base.extractLsb' 16 16 ++ base.extractLsb' 0 16 = base.extractLsb' 0 32 :=
    BitVec.extractLsb'_append_extractLsb'_eq_extractLsb' rfl
  rw [entry]
  exact opens_of rfl rfl ((offset_eq _).trans (whole.trans BitVec.extractLsb'_eq_self))

theorem set_gate_other {num num' : Nat} (base : BitVec 32) (other : num' ≠ num) :
    (t.idt_set_gate num base 0x08 0x8E).idt_entries num' = t.idt_entries num' :=
      Function.update_of_ne other ..

theorem foldl_handlers (gates : List (Nat × BitVec 32)) :
    (gates.foldl (fun t gate => t.idt_set_gate gate.1 gate.2 0x08 0x8E) t).interrupt_handlers =
        t.interrupt_handlers ∧
      (gates.foldl (fun t gate => t.idt_set_gate gate.1 gate.2 0x08 0x8E) t).idt_ptr =
          t.idt_ptr := by
  induction gates generalizing t with
  | nil => exact ⟨rfl, rfl⟩
  | cons gate gates ih => exact ih (t.idt_set_gate gate.1 gate.2 0x08 0x8E)

/-- The gates that were set last count. -/
theorem foldl_other {gates : List (Nat × BitVec 32)} {v : Nat}
    (other : ∀ gate ∈ gates, v ≠ gate.1) :
    (gates.foldl (fun t gate => t.idt_set_gate gate.1 gate.2 0x08 0x8E) t).idt_entries v =
        t.idt_entries v := by
  induction gates generalizing t with
  | nil => rfl
  | cons gate gates ih =>
      rw [List.foldl_cons, ih _ fun gate mem => other gate (List.mem_cons_of_mem _ mem)]
      exact t.set_gate_other gate.2 (other gate List.mem_cons_self)

theorem foldl_opens {gates : List (Nat × BitVec 32)} (distinct : (gates.map Prod.fst).Nodup)
    {v : Nat}
    {base : BitVec 32}
    (mem : (v, base) ∈ gates) :
    ((gates.foldl (fun t gate => t.idt_set_gate gate.1 gate.2 0x08 0x8E) t).idt_entries v).Opens
        base := by
  induction gates generalizing t with
  | nil => cases mem
  | cons gate gates ih =>
      rw [List.map_cons, List.nodup_cons] at distinct
      rw [List.foldl_cons]
      cases mem with
      | head =>
          rw [foldl_other]
          · exact t.set_gate_opens v base
          · exact fun gate mem same => distinct.1 (List.mem_map.mpr ⟨gate, mem, same.symm⟩)
      | tail _ mem => exact ih _ distinct.2 mem

theorem mem_stubs {isr irq : Nat → BitVec 32} {v : Nat} {base : BitVec 32} :
    (v, base) ∈ stubs isr irq ↔
    (v < 32 ∨ v = 255) ∧ base = isr v ∨ (32 ≤ v ∧ v < 48) ∧ base = irq (v - 32) := by
  simp only [stubs, List.mem_append, List.mem_map, List.mem_range, Prod.mk.injEq,
      List.mem_singleton]
  constructor
  · rintro ((⟨n, small, rfl, rfl⟩ | ⟨n, small, rfl, rfl⟩) | ⟨rfl, rfl⟩)
    · exact .inl ⟨.inl small, rfl⟩
    · exact .inr ⟨⟨by omega, by omega⟩, by rw [Nat.add_sub_cancel_left]⟩
    · exact .inl ⟨.inr rfl, rfl⟩
  · rintro (⟨small | rfl, rfl⟩ | ⟨between, rfl⟩)
    · exact .inl (.inl ⟨v, small, rfl, rfl⟩)
    · exact .inr ⟨rfl, rfl⟩
    · exact .inl (.inr ⟨v - 32, by omega, by omega, rfl⟩)

theorem stubs_distinct (isr irq : Nat → BitVec 32) : ((stubs isr irq).map Prod.fst).Nodup := by
  have vectors :
      (stubs isr irq).map Prod.fst = List.range 32 ++ (List.range 16).map (32 + ·) ++ [255] := by
    simp [stubs, Function.comp_def]
  rw [vectors]
  decide

/-- Whatever was in the table, every exception and every interrupt request leads to its own stub, so
    does the system call, and all these gates are open to user code; the others are closed, and
    there is no handler. -/
theorem init_idt_gates (t : Idt) (address : BitVec 32) (isr irq : Nat → BitVec 32) (v : Nat)
    (vector : v < 256) :
    let t := t.init_idt address isr irq
    (v < 32 ∨ v = 255 → (t.idt_entries v).Opens (isr v)) ∧
        (32 ≤ v → v < 48 → (t.idt_entries v).Opens (irq (v - 32))) ∧
      (48 ≤ v → v < 255 → (t.idt_entries v).present = false) ∧ t.interrupt_handlers v = 0 ∧
      t.idt_ptr = (0x7FF, address) := by
  have distinct := stubs_distinct isr irq
  simp only [init_idt, (foldl_handlers (t.clear address) (stubs isr irq)).1,
    (foldl_handlers (t.clear address) (stubs isr irq)).2]
  refine ⟨fun trap => ?_, fun low high => ?_, fun low high => ?_, if_pos vector, rfl⟩
  · exact foldl_opens _ distinct (mem_stubs.mpr (.inl ⟨trap, rfl⟩))
  · exact foldl_opens _ distinct (mem_stubs.mpr (.inr ⟨⟨low, high⟩, rfl⟩))
  · have other : ∀ gate ∈ stubs isr irq, v ≠ gate.1 := by
      rintro ⟨n, base⟩ mem rfl
      have some := mem_stubs.mp mem
      omega
    have entry : (t.clear address).idt_entries v = ⟨0, 0, 0, 0, 0⟩ := if_pos high
    rw [foldl_other _ other, entry]
    decide

theorem init_idt_gates_syscall :
    let t := (⟨fun _ => ⟨1, 1, 1, 1, 1⟩, fun _ => 1, (0, 0)⟩ : Idt).init_idt 0xC0100000
        (fun n => .ofNat 32 n) (fun _ => 0)
    (255 < 32 ∨ 255 = 255 → (t.idt_entries 255).Opens 255) ∧
        (32 ≤ 255 → 255 < 48 → (t.idt_entries 255).Opens 0) ∧
      (48 ≤ 255 → 255 < 255 → (t.idt_entries 255).present = false) ∧ t.interrupt_handlers 255 = 0 ∧
      t.idt_ptr = (0x7FF, 0xC0100000) :=
  init_idt_gates ⟨fun _ => ⟨1, 1, 1, 1, 1⟩, fun _ => 1, (0, 0)⟩ 0xC0100000
      (fun n => .ofNat 32 n) (fun _ => 0) 255 (by decide)

end Idt

end Krypton
