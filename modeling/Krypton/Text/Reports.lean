import Krypton.Device.Monitor
import Krypton.Interrupts.Stubs
import Krypton.Text.Sequences

/-! # What the kernel reports

`kprintf`, `sprintf` and the functions that print the state of the kernel with
them. Every number that they print can be read back from the text.
-/

namespace Krypton

namespace Vsprintf

/-- The characters of a string literal. -/
def chars (s : String) : List (BitVec 8) := s.toList.map ascii

section Functions

variable (string : BitVec 32 → List (BitVec 8))

/-- `buf` has room for 1024 characters. What `%n` stores is left out. -/
def kprintf (m : Monitor) (fmt : List (BitVec 8)) (args : List (BitVec 32)) : Option Monitor := do
  let t ← vsprintf string fmt args
  if t.str.length < 1024 then return m.monitor_write t.str else none

/-- What is in a buffer of `size` characters. -/
def sprintf (size : Nat) (fmt : List (BitVec 8)) (args : List (BitVec 32)) :
    Option (List (BitVec 8)) := do
  let t ← vsprintf string fmt args
  if t.str.length < size then return t.str else none

def dump_registers (m : Monitor) (regs : Registers) : Option Monitor := do
  let m ← kprintf string m (chars "\nx86 register state dump\n") []
  let m ← kprintf string m (chars "CS: 0x%04X EIP: 0x%08X EFLAGS: 0x%08X\n")
      [regs.cs, regs.eip, regs.eflags]
  let m ← kprintf string m (chars "EAX: 0x%08X EBX: 0x%08X ECX: 0x%08X EDX: 0x%08X\n")
    [regs.eax, regs.ebx, regs.ecx, regs.edx]
  let m ← kprintf string m (chars "ESI: 0x%08X EDI: 0x%08X EBP: 0x%08X ESP: 0x%08X\n")
    [regs.esi, regs.edi, regs.ebp, regs.esp]
  kprintf string m (chars "DS: 0x%04X\n") [regs.ds]

/-- Up to the call of `panic`. -/
def page_fault (m : Monitor) (regs : Registers) (cr2 : BitVec 32) : Option Monitor := do
  let m ← kprintf string m (chars "\nPage fault at 0x%x, faulting address 0x%x\n") [regs.eip, cr2]
  let m ← kprintf string m (chars "CPU error code: %x\n") [regs.err_code]
  let m ← kprintf string m (chars "CS: 0x%4X EIP: 0x%8X EFLAGS: 0x%8X\n")
      [regs.cs, regs.eip, regs.eflags]
  let m ← kprintf string m (chars "EAX: 0x%8X EBX: 0x%8X ECX: 0x%8X EDX: 0x%8X\n")
    [regs.eax, regs.ebx, regs.ecx, regs.edx]
  let m ← kprintf string m (chars "ESI: 0x%8X EDI: 0x%8X EBP: 0x%8X ESP: 0x%8X\n")
    [regs.esi, regs.edi, regs.ebp, regs.esp]
  kprintf string m (chars "DS: 0x%4X\n") [regs.ds]

end Functions

/-! ## Reports of several lines -/

variable {string : BitVec 32 → List (BitVec 8)} {m : Monitor} {n : Nat}

theorem sprintf_some {size : Nat} {fmt : List (BitVec 8)} {args : List (BitVec 32)} {t : Text}
    (run : vsprintf string fmt args = some t) (fits : t.str.length < size) :
    sprintf string size fmt args = some t.str := by
  unfold sprintf
  rw [run]
  exact if_pos fits

theorem monitor_write_append {s : List (BitVec 8)} (plain : 0#8 ∉ s) (s' : List (BitVec 8))
    (m : Monitor) :
    m.monitor_write (s ++ s') = (m.monitor_write s).monitor_write s' := by
  induction s generalizing m with
  | nil => rfl
  | cons c s ih =>
      obtain ⟨here, rest⟩ := List.ne_and_not_mem_of_not_mem_cons plain
      have more : c ≠ 0 := Ne.symm here
      rw [List.cons_append, Monitor.monitor_write, Monitor.monitor_write, if_neg more, if_neg more,
          ih rest]

/-- One `kprintf` after the other. -/
def report (string : BitVec 32 → List (BitVec 8)) (m : Monitor)
    (lines : List (List (BitVec 8) × List (BitVec 32))) :
    Option Monitor :=
  lines.foldlM (fun m line => kprintf string m line.1 line.2) m

theorem report_cons {line : List (BitVec 8) × List (BitVec 32)}
    {lines : List (List (BitVec 8) × List (BitVec 32))} :
    report string m (line :: lines) = (kprintf string m line.1 line.2).bind fun m =>
        report string m lines :=
  List.foldlM_cons

/-- The whole format of a report, and all its numbers. -/
def whole (lines : List (List (BitVec 8) × List (BitVec 32))) : List (BitVec 8) :=
  lines.flatMap Prod.fst

def numbers (lines : List (List (BitVec 8) × List (BitVec 32))) : List (BitVec 32) :=
  lines.flatMap Prod.snd

theorem line_nil : Line [] 0 := ⟨nofun, trivial, rfl, rfl, nofun⟩

/-- The whole of a report is one line, and it is printed as if by one `kprintf`. -/
theorem report_prints (string : BitVec 32 → List (BitVec 8))
    {lines : List (List (BitVec 8) × List (BitVec 32))}
    (each : ∀ line ∈ lines, Line line.1 line.2.length ∧ room (pieces line.1) < 1024) (m : Monitor) :
    Line (whole lines) (numbers lines).length ∧
      ∃ u, vsprintf string (whole lines) (numbers lines) = some u ∧ u.args = [] ∧ 0#8 ∉ u.str ∧
        report string m lines = some (m.monitor_write u.str) := by
  induction lines generalizing m with
  | nil => exact ⟨line_nil, { args := [] }, rfl, rfl, nofun, rfl⟩
  | cons line lines ih =>
      obtain ⟨here, fits⟩ := each line List.mem_cons_self
      obtain ⟨t, first, taken, short, plain⟩ := here.prints string rfl
      have one : kprintf string m line.1 line.2 = some (m.monitor_write t.str) := by
        unfold kprintf
        rw [first]
        exact if_pos (Nat.lt_of_le_of_lt short fits)
      obtain ⟨rest, u, second, taken', plain', shown⟩ :=
        ih (fun l mem => each l (List.mem_cons_of_mem _ mem)) (m.monitor_write t.str)
      have total : (numbers (line :: lines)).length =
          line.2.length + (numbers lines).length := by simp [numbers]
      refine ⟨total ▸ here.append rest, u.framed t [], ?_, ?_, ?_, ?_⟩
      · exact vsprintf_join here.sound rest.sound (readable_plain here.readable)
            (readable_plain rest.readable)
            first taken
          second
      · exact (List.append_nil _).trans taken'
      · exact fun mem => (List.mem_append.mp mem).elim plain plain'
      · rw [report, List.foldlM_cons, one]
        refine Eq.trans shown ?_
        rw [← monitor_write_append plain]
        rfl

/-- The numbers of a report can be read from the text that it writes to the screen. -/
theorem report_reads (string : BitVec 32 → List (BitVec 8))
    {lines : List (List (BitVec 8) × List (BitVec 32))}
    (each : ∀ line ∈ lines, Line line.1 line.2.length ∧ room (pieces line.1) < 1024) (m : Monitor) :
    ∃ s, report string m lines = some (m.monitor_write s) ∧
        recover (pieces (whole lines)) s = numbers lines ∧
      0#8 ∉ s := by
  obtain ⟨line, u, run, taken, plain, shown⟩ := report_prints string each m
  have read := vsprintf_recover (sound_fits line.sound) line.readable run
  rw [taken, List.append_nil] at read
  exact ⟨u.str, shown, read, plain⟩

/-! ## The registers -/

/-- The format of `dump_registers`. -/
def dump_format : List (BitVec 8) :=
  chars "\nx86 register state dump\nCS: 0x%04X EIP: 0x%08X EFLAGS: 0x%08X\n" ++
    chars "EAX: 0x%08X EBX: 0x%08X ECX: 0x%08X EDX: 0x%08X\n" ++
    chars "ESI: 0x%08X EDI: 0x%08X EBP: 0x%08X ESP: 0x%08X\n" ++
    chars "DS: 0x%04X\n"

def page_fault_format : List (BitVec 8) :=
  chars "\nPage fault at 0x%x, faulting address 0x%x\n" ++
    chars "CPU error code: %x\nCS: 0x%4X EIP: 0x%8X EFLAGS: 0x%8X\n" ++
    chars "EAX: 0x%8X EBX: 0x%8X ECX: 0x%8X EDX: 0x%8X\n" ++
    chars "ESI: 0x%8X EDI: 0x%8X EBP: 0x%8X ESP: 0x%8X\n" ++
    chars "DS: 0x%4X\n"

/-- A dump can be read back. -/
theorem dump_registers_reads (string : BitVec 32 → List (BitVec 8)) (m : Monitor)
    (regs : Registers) :
    ∃ s, dump_registers string m regs = some (m.monitor_write s) ∧ 0#8 ∉ s ∧
        recover (pieces dump_format) s =
      [regs.cs, regs.eip, regs.eflags, regs.eax, regs.ebx, regs.ecx, regs.edx, regs.esi, regs.edi,
        regs.ebp, regs.esp, regs.ds] := by
  let lines : List (List (BitVec 8) × List (BitVec 32)) :=
    [(chars "\nx86 register state dump\n", []),
      (chars "CS: 0x%04X EIP: 0x%08X EFLAGS: 0x%08X\n", [regs.cs, regs.eip, regs.eflags]),
      (chars "EAX: 0x%08X EBX: 0x%08X ECX: 0x%08X EDX: 0x%08X\n",
          [regs.eax, regs.ebx, regs.ecx, regs.edx]),
      (chars "ESI: 0x%08X EDI: 0x%08X EBP: 0x%08X ESP: 0x%08X\n",
          [regs.esi, regs.edi, regs.ebp, regs.esp]),
      (chars "DS: 0x%04X\n", [regs.ds])]
  have each : ∀ line ∈ lines, Line line.1 line.2.length ∧ room (pieces line.1) < 1024 := by
    refine List.forall_mem_cons.mpr ⟨?_, List.forall_mem_cons.mpr ⟨?_, List.forall_mem_cons.mpr ⟨?_,
      List.forall_mem_cons.mpr ⟨?_, List.forall_mem_cons.mpr ⟨?_, nofun⟩⟩⟩⟩⟩
    all_goals
      simp only [List.length_cons, List.length_nil]
      decide +kernel
  obtain ⟨s, shown, read, plain⟩ := report_reads string each m
  have format : whole lines = dump_format := by
    simp only [whole, lines, List.flatMap_cons, List.flatMap_nil]
    decide +kernel
  have same : dump_registers string m regs = report string m lines := by
    simp only [report, lines, List.foldlM_cons, List.foldlM_nil, bind_pure]
    rfl
  rw [format] at read
  exact ⟨s, same.trans shown, plain, read⟩

/-- So can the report of a page fault. -/
theorem page_fault_reads (string : BitVec 32 → List (BitVec 8)) (m : Monitor) (regs : Registers)
    (cr2 : BitVec 32) :
    ∃ s, page_fault string m regs cr2 = some (m.monitor_write s) ∧ 0#8 ∉ s ∧
        recover (pieces page_fault_format) s =
      [regs.eip, cr2, regs.err_code, regs.cs, regs.eip, regs.eflags, regs.eax, regs.ebx, regs.ecx,
        regs.edx, regs.esi, regs.edi, regs.ebp, regs.esp, regs.ds] := by
  let lines : List (List (BitVec 8) × List (BitVec 32)) :=
    [(chars "\nPage fault at 0x%x, faulting address 0x%x\n", [regs.eip, cr2]),
      (chars "CPU error code: %x\n", [regs.err_code]),
      (chars "CS: 0x%4X EIP: 0x%8X EFLAGS: 0x%8X\n", [regs.cs, regs.eip, regs.eflags]),
      (chars "EAX: 0x%8X EBX: 0x%8X ECX: 0x%8X EDX: 0x%8X\n",
          [regs.eax, regs.ebx, regs.ecx, regs.edx]),
      (chars "ESI: 0x%8X EDI: 0x%8X EBP: 0x%8X ESP: 0x%8X\n",
          [regs.esi, regs.edi, regs.ebp, regs.esp]),
      (chars "DS: 0x%4X\n", [regs.ds])]
  have each : ∀ line ∈ lines, Line line.1 line.2.length ∧ room (pieces line.1) < 1024 := by
    refine List.forall_mem_cons.mpr ⟨?_, List.forall_mem_cons.mpr ⟨?_, List.forall_mem_cons.mpr ⟨?_,
      List.forall_mem_cons.mpr ⟨?_,
          List.forall_mem_cons.mpr ⟨?_, List.forall_mem_cons.mpr ⟨?_, nofun⟩⟩⟩⟩⟩⟩
    all_goals
      simp only [List.length_cons, List.length_nil]
      decide +kernel
  obtain ⟨s, shown, read, plain⟩ := report_reads string each m
  have format : whole lines = page_fault_format := by
    simp only [whole, lines, List.flatMap_cons, List.flatMap_nil]
    decide +kernel
  have same : page_fault string m regs cr2 = report string m lines := by
    simp only [report, lines, List.foldlM_cons, List.foldlM_nil, bind_pure]
    rfl
  rw [format] at read
  exact ⟨s, same.trans shown, plain, read⟩

end Vsprintf

end Krypton
