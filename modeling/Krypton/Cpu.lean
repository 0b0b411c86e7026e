import Mathlib.Logic.Function.Basic
import Mathlib.Tactic.IntervalCases

/-! # The descriptor table

`gdt_install` of `cpu.c` with what it calls, and what the processor makes of the
entries.
-/

namespace Krypton

/-- `struct gdt_entry` -/
structure GdtEntry where
  limit_low : BitVec 16
  base_low : BitVec 16
  base_middle : BitVec 8
  access : BitVec 8
  granularity : BitVec 8
  base_high : BitVec 8
deriving DecidableEq

/-- `struct tss_entry_struct`, zero as `memset` leaves it -/
structure TssEntry where
  prev_tss : BitVec 32 := 0#32
  esp0 : BitVec 32 := 0#32
  ss0 : BitVec 32 := 0#32
  esp1 : BitVec 32 := 0#32
  ss1 : BitVec 32 := 0#32
  esp2 : BitVec 32 := 0#32
  ss2 : BitVec 32 := 0#32
  cr3 : BitVec 32 := 0#32
  eip : BitVec 32 := 0#32
  eflags : BitVec 32 := 0#32
  eax : BitVec 32 := 0#32
  ecx : BitVec 32 := 0#32
  edx : BitVec 32 := 0#32
  ebx : BitVec 32 := 0#32
  esp : BitVec 32 := 0#32
  ebp : BitVec 32 := 0#32
  esi : BitVec 32 := 0#32
  edi : BitVec 32 := 0#32
  es : BitVec 32 := 0#32
  cs : BitVec 32 := 0#32
  ss : BitVec 32 := 0#32
  ds : BitVec 32 := 0#32
  fs : BitVec 32 := 0#32
  gs : BitVec 32 := 0#32
  ldt : BitVec 32 := 0#32
  trap : BitVec 16 := 0#16
  iomap_base : BitVec 16 := 0#16

/-- `sizeof(tss_entry)`: the fields up to `ldt`, and the two half words -/
def TssEntry.size : BitVec 32 := 25#32 * 4#32 + 2#32 * 2#32

/-- `sizeof(struct gdt_entry)` -/
def GdtEntry.size : BitVec 32 := 8#32

structure GdtPtr where
  limit : BitVec 16
  base : BitVec 32

structure Cpu where
  gdt : Nat → GdtEntry
  gp : GdtPtr
  tss_entry : TssEntry

namespace Cpu

def gdt_set_gate (c : Cpu) (num : Nat) (base limit : BitVec 32) (access gran : BitVec 8) : Cpu :=
  let entry : GdtEntry := {
    base_low := (base &&& 0xFFFF#32).setWidth 16
    base_middle := (base >>> 16 &&& 0xFF#32).setWidth 8
    base_high := (base >>> 24 &&& 0xFF#32).setWidth 8
    limit_low := (limit &&& 0xFFFF#32).setWidth 16
    granularity := (limit >>> 16 &&& 0x0F#32).setWidth 8 ||| (gran &&& 0xF0#8)
    access := access }
  { c with gdt := Function.update c.gdt num entry }

/-- `address` is that of `tss_entry`. -/
def write_tss (c : Cpu) (address : BitVec 32) (num : Nat) (ss0 : BitVec 16) (esp0 : BitVec 32) :
    Cpu :=
  let base := address
  let limit := base + TssEntry.size
  let c := c.gdt_set_gate num base limit 0xE9 0x00
  { c with tss_entry := {
      ss0 := ss0.setWidth 32
      esp0 := esp0
      cs := 0x0b, ss := 0x13, ds := 0x13, es := 0x13, fs := 0x13, gs := 0x13 } }

/-- `gdt` is the address of the table. -/
def gdt_install (c : Cpu) (gdt address : BitVec 32) : Cpu :=
  let c := { c with gp := ⟨(GdtEntry.size * 6#32 - 1#32).setWidth 16, gdt⟩ }
  let c := c.gdt_set_gate 0 0 0 0 0
  let c := c.gdt_set_gate 1 0 0xFFFFFFFF 0x9A 0xCF
  let c := c.gdt_set_gate 2 0 0xFFFFFFFF 0x92 0xCF
  let c := c.gdt_set_gate 3 0 0xFFFFFFFF 0xFA 0xCF
  let c := c.gdt_set_gate 4 0 0xFFFFFFFF 0xF2 0xCF
  c.write_tss address 5 0x10 0x0

end Cpu

/-! ## What the processor reads -/

namespace GdtEntry

/-- The eight bytes of the packed structure, the first one lowest. -/
def bytes (e : GdtEntry) : BitVec 64 :=
  e.base_high ++ e.granularity ++ e.access ++ e.base_middle ++ e.base_low ++ e.limit_low

/-- The base of a segment is in bits 16 to 39 and 56 to 63. -/
def base (e : GdtEntry) : BitVec 32 := e.bytes.extractLsb' 56 8 ++ e.bytes.extractLsb' 16 24

/-- The limit is in bits 0 to 15 and 48 to 51. -/
def limit (e : GdtEntry) : BitVec 20 := e.bytes.extractLsb' 48 4 ++ e.bytes.extractLsb' 0 16

/-- Bit 55 tells whether the limit counts pages. -/
def pages (e : GdtEntry) : Bool := e.bytes.getLsbD 55

end GdtEntry

namespace GdtEntry

variable (e : GdtEntry)

theorem base_eq : e.base = e.base_high ++ (e.base_middle ++ e.base_low) := by
  have high : e.bytes.extractLsb' 56 8 = e.base_high := by
    apply BitVec.eq_of_getLsbD_eq
    intro i below
    simp only [bytes, BitVec.getLsbD_extractLsb', BitVec.getLsbD_append, below, decide_true,
        Bool.true_and]
    simp (disch := omega) only [if_neg]
    exact congrArg _ (by omega)
  have low : e.bytes.extractLsb' 16 24 = e.base_middle ++ e.base_low := by
    apply BitVec.eq_of_getLsbD_eq
    intro i below
    simp only [bytes, BitVec.getLsbD_extractLsb', BitVec.getLsbD_append, below, decide_true,
        Bool.true_and]
    by_cases word : i < 16
    · simp (disch := omega) only [if_neg, if_pos]
      exact congrArg _ (by omega)
    · simp (disch := omega) only [if_neg, if_pos]
      exact congrArg _ (by omega)
  rw [base, high, low]

theorem limit_eq : e.limit = e.granularity.extractLsb' 0 4 ++ e.limit_low := by
  have high : e.bytes.extractLsb' 48 4 = e.granularity.extractLsb' 0 4 := by
    apply BitVec.eq_of_getLsbD_eq
    intro i below
    simp only [bytes, BitVec.getLsbD_extractLsb', BitVec.getLsbD_append, below, decide_true,
        Bool.true_and]
    simp (disch := omega) only [if_neg, if_pos]
    exact congrArg _ (by omega)
  have low : e.bytes.extractLsb' 0 16 = e.limit_low := by
    apply BitVec.eq_of_getLsbD_eq
    intro i below
    simp only [bytes, BitVec.getLsbD_extractLsb', BitVec.getLsbD_append, below, decide_true,
        Bool.true_and]
    simp (disch := omega) only [if_pos]
    exact congrArg _ (by omega)
  rw [limit, high, low]

theorem pages_eq : e.pages = e.granularity.getLsbD 7 := by
  simp only [pages, bytes, BitVec.getLsbD_append]
  rfl

end GdtEntry

/-- A shift and a mask cut bits out of a word. -/
theorem extract_cut (x : BitVec 32) (n k : Nat) (short : k ≤ 32) :
    (x >>> n &&& BitVec.ofNat 32 (2 ^ k - 1)).setWidth k = x.extractLsb' n k := by
  have inside : 2 ^ k - 1 < 2 ^ 32 := by
    have power : 2 ^ k ≤ 2 ^ 32 := Nat.pow_le_pow_right (by decide) short
    have positive := Nat.two_pow_pos k
    omega
  apply BitVec.eq_of_toNat_eq
  rw [BitVec.toNat_setWidth, BitVec.toNat_and, BitVec.toNat_ushiftRight, BitVec.toNat_ofNat,
    Nat.mod_eq_of_lt inside, Nat.and_two_pow_sub_one_eq_mod, Nat.mod_mod, BitVec.extractLsb'_toNat]

namespace Cpu

/-! ## What an entry decodes to -/

section Gate

variable (c : Cpu) (num : Nat) (base limit : BitVec 32) (access gran : BitVec 8)

theorem set_gate_base : ((c.gdt_set_gate num base limit access gran).gdt num).base = base := by
  have low : (base &&& 0xFFFF#32).setWidth 16 = base.extractLsb' 0 16 :=
    extract_cut base 0 16 (by decide)
  have middle : (base >>> 16 &&& 0xFF#32).setWidth 8 = base.extractLsb' 16 8 :=
    extract_cut base 16 8 (by decide)
  have high : (base >>> 24 &&& 0xFF#32).setWidth 8 = base.extractLsb' 24 8 :=
    extract_cut base 24 8 (by decide)
  rw [GdtEntry.base_eq]
  simp only [gdt_set_gate, Function.update_self, low, middle, high]
  have first : base.extractLsb' 16 8 ++ base.extractLsb' 0 16 = base.extractLsb' 0 24 :=
    BitVec.extractLsb'_append_extractLsb'_eq_extractLsb' rfl
  have both : base.extractLsb' 24 8 ++ base.extractLsb' 0 24 = base.extractLsb' 0 32 :=
    BitVec.extractLsb'_append_extractLsb'_eq_extractLsb' rfl
  rw [first, both, BitVec.extractLsb'_eq_self]

/-- Four bits of the limit share a byte with the flags. -/
theorem set_gate_limit :
    ((c.gdt_set_gate num base limit access gran).gdt num).limit = limit.setWidth 20 := by
  have low : (limit &&& 0xFFFF#32).setWidth 16 = limit.extractLsb' 0 16 :=
    extract_cut limit 0 16 (by decide)
  have high : ((limit >>> 16 &&& 0x0F#32).setWidth 8 ||| (gran &&& 0xF0#8)).extractLsb' 0 4 =
      limit.extractLsb' 16 4 := by
    apply BitVec.eq_of_getLsbD_eq
    intro i below
    interval_cases i <;> simp
  have whole : limit.extractLsb' 16 4 ++ limit.extractLsb' 0 16 = limit.extractLsb' 0 20 :=
    BitVec.extractLsb'_append_extractLsb'_eq_extractLsb' rfl
  rw [GdtEntry.limit_eq]
  simp only [gdt_set_gate, Function.update_self, low, high, whole]
  exact (BitVec.setWidth_eq_extractLsb' (by decide)).symm

theorem set_gate_pages :
    ((c.gdt_set_gate num base limit access gran).gdt num).pages = gran.getLsbD 7 := by
  simp [GdtEntry.pages_eq, gdt_set_gate]

theorem set_gate_other {num' : Nat} (other : num' ≠ num) :
    (c.gdt_set_gate num base limit access gran).gdt num' = c.gdt num' :=
      Function.update_of_ne other ..

end Gate

/-! ## The segments -/

section Segments

variable (c : Cpu) (gdt address : BitVec 32) (ss0 : BitVec 16) (esp0 : BitVec 32)

/-- The four segments of the kernel and of user mode begin at 0 and have all pages. -/
theorem gdt_install_flat (num : Nat) (first : 1 ≤ num) (last : num ≤ 4) :
    ((c.gdt_install gdt address).gdt num).base = 0#32 ∧
      ((c.gdt_install gdt address).gdt num).limit = 0xFFFFF#20 ∧
      ((c.gdt_install gdt address).gdt num).pages := by
  have flat : ∃ access, (c.gdt_install gdt address).gdt num = ⟨0xFFFF, 0, 0, access, 0xCF, 0⟩ := by
    interval_cases num <;> exact ⟨_, rfl⟩
  obtain ⟨access, entry⟩ := flat
  simp only [entry, GdtEntry.base_eq, GdtEntry.limit_eq, GdtEntry.pages_eq]
  decide

/-- The entry is a segment of bytes that begins and ends where the task state does. -/
structure Covers (e : GdtEntry) (address : BitVec 32) : Prop where
  base : e.base = address
  bytes : e.pages = false
  limit : e.limit.toNat = TssEntry.size.toNat - 1

/-- The limit that is passed is the address behind the structure. -/
theorem write_tss_covers_iff :
    Covers ((c.write_tss address 5 ss0 esp0).gdt 5) address ↔
        address.toNat % 2 ^ 20 = 2 ^ 20 - 1 := by
  have base : ((c.write_tss address 5 ss0 esp0).gdt 5).base = address := set_gate_base ..
  have bytes : ((c.write_tss address 5 ss0 esp0).gdt 5).pages = false := set_gate_pages ..
  have limit :
      ((c.write_tss address 5 ss0 esp0).gdt 5).limit = (address + TssEntry.size).setWidth 20 :=
    set_gate_limit ..
  have size : TssEntry.size = 104#32 := rfl
  constructor
  · rintro ⟨-, -, covers⟩
    rw [limit, size] at covers
    bv_omega
  · intro last
    refine ⟨base, bytes, ?_⟩
    rw [limit, size]
    bv_omega

/-- The memory before the processor is set up. -/
def cleared : Cpu := ⟨fun _ => ⟨0, 0, 0, 0, 0, 0⟩, ⟨0, 0⟩, {}⟩

/-- The segment of a structure at 1 MiB ends one byte behind it. -/
theorem write_tss_overruns :
    ¬ ∀ (c : Cpu) (address : BitVec 32) (ss0 : BitVec 16) (esp0 : BitVec 32),
    Covers ((c.write_tss address 5 ss0 esp0).gdt 5) address := by
  intro all
  have covers := all cleared 0x100000 0x10 0x0
  have limit := covers.limit
  revert limit
  decide

end Segments

end Cpu

end Krypton
