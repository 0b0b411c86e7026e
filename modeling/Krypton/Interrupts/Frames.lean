import Krypton.Interrupts.Stubs

/-! # Frames

Between the entry of an interrupt and its end the context of what was
interrupted is in a frame on the stack, as `registers_t` describes it. Whatever
a handler leaves in the frame is what the processor goes on with.
-/

namespace Krypton

open Processor

namespace Stubs

variable {c task : Processor} {memory : BitVec 32 → BitVec 32} {p sp n useless_value : BitVec 32}
  {ws stub : List (BitVec 32)} {ss0 : BitVec 16} {esp0 : BitVec 32} {error : Option (BitVec 32)}

/-! ## Structures in memory -/

theorem apart (k : Nat) (few : k ≤ 2 ^ 30) : WordStack.Apart (4 : BitVec 32) k := by
  intro i small j small' same
  have value (i : Nat) : i • (4 : BitVec 32) = BitVec.ofNat 32 (i * 4) := by
    rw [nsmul_eq_mul]
    apply BitVec.eq_of_toNat_eq
    simp [Nat.mul_mod]
  rw [value, value] at same
  bv_omega

theorem load_words (memory : BitVec 32 → BitVec 32) (p : BitVec 32) :
    (Registers.load memory p).words = WordStack.words 4 memory p 16 := by
  simp [Registers.words, Registers.load, WordStack.words, List.range_succ]

theorem words_injective : Function.Injective Registers.words := by
  intro r r' same
  simp only [Registers.words, List.cons.injEq, and_true] at same
  exact Registers.ext_iff.mpr same

/-- A structure on the stack, under whatever was pushed later. -/
theorem load_push {r : Registers} {k : Nat} (later : List (BitVec 32)) (count : ws.length + k = 16)
    (few : later.length ≤ 16) (pushed : ws.reverse ++ WordStack.words 4 memory sp k = r.words) :
    Registers.load (WordStack.push 4 memory sp (ws ++ later)) (sp - ws.length • 4) = r := by
  apply words_injective
  rw [load_words, ← count, WordStack.words_push_append _ _ _ later (apart _ (by omega)), pushed]

/-! ## The entry -/

theorem foldl_push (ws : List (BitVec 32)) (c : Processor) : ws.foldl push c =
    { c with memory := WordStack.push 4 c.memory (c.reg .esp) ws }.set .esp
    (c.reg .esp - ws.length • 4) := by
  induction ws generalizing c with
  | nil => simp [WordStack.push, Processor.set]
  | cons w ws ih =>
      have next : c.reg .esp - 4 - ws.length • 4 = c.reg .esp - (ws.length + 1) • 4 := by
        rw [succ_nsmul', sub_sub]
      have esp : (c.push w).reg .esp = c.reg .esp - 4 := rfl
      rw [List.foldl_cons, ih, esp, next]
      simp [push, Processor.set, WordStack.push]

/-- The stubs, with the error code that they expect and the number that they push. -/
inductive Entry : List Instr → Option (BitVec 32) → BitVec 32 → Prop where
  | isr (n : BitVec 32) (error : Option (BitVec 32)) (expected : error.isSome = errcode n) :
      Entry (isr n) error n
  | irq (n : BitVec 32) : Entry (irq n) none n

/-- An outer level is left for the stack of the kernel. -/
def outer (c : Processor) : Bool := level (c.seg .cs) ≠ 0

/-- Where the frame begins. -/
def top (c : Processor) (esp0 : BitVec 32) : BitVec 32 := if outer c then esp0 else c.reg .esp

/-- What the processor and the stub push. -/
def entered (c : Processor) (error : Option (BitVec 32)) (n : BitVec 32) : List (BitVec 32) :=
  (if outer c then [(c.seg .ss).setWidth 32, c.reg .esp] else []) ++
    [c.eflags, (c.seg .cs).setWidth 32, c.eip, error.getD 0, n]

/-- The processor in front of the common stub. -/
structure Enters (c : Processor) (esp0 : BitVec 32) (ss0 : BitVec 16) (ws : List (BitVec 32))
    (e : Processor) :
    Prop where
  memory : e.memory = WordStack.push 4 c.memory (top c esp0) ws
  esp : e.reg .esp = top c esp0 - ws.length • 4
  reg : ∀ r ≠ .esp, e.reg r = c.reg r
  cs : e.seg .cs = 0x08
  ss : e.seg .ss = if outer c then ss0 else c.seg .ss
  ds : e.seg .ds = c.seg .ds

theorem enters_interrupt (c : Processor) (ss0 : BitVec 16) (esp0 : BitVec 32)
    (error : Option (BitVec 32)) :
    Enters c esp0 ss0 ((if outer c then [(c.seg .ss).setWidth 32, c.reg .esp] else []) ++
      [c.eflags, (c.seg .cs).setWidth 32, c.eip] ++ error.toList) (c.interrupt ss0 esp0 error) := by
  unfold interrupt
  by_cases left : level (c.seg .cs) ≠ 0
  · have away : outer c = true := decide_eq_true left
    have start : top c esp0 = esp0 := if_pos away
    simp only [foldl_push, if_pos left, away, if_true]
    refine ⟨?_, ?_, fun r other => ?_, rfl, by rw [away]; rfl, rfl⟩
    · rw [start]
      rfl
    · rw [start]
      rfl
    · cases r <;> first | rfl | exact absurd rfl other
  · have stays : outer c = false := decide_eq_false left
    have start : top c esp0 = c.reg .esp := if_neg (by simp [stays])
    simp only [foldl_push, if_neg left, stays, Bool.false_eq_true, if_false]
    refine ⟨?_, ?_, fun r other => ?_, rfl, by rw [stays]; rfl, rfl⟩
    · rw [start]
      rfl
    · rw [start]
      rfl
    · cases r <;> first | rfl | exact absurd rfl other

theorem Enters.push {e : Processor} (enters : Enters c esp0 ss0 ws e) (w : BitVec 32) :
    Enters c esp0 ss0 (ws ++ [w]) (e.push w) where
  memory := by
    rw [WordStack.push_append, ← enters.memory, ← enters.esp]
    rfl
  esp := by
    have moved : (e.push w).reg .esp = e.reg .esp - 4 := rfl
    rw [moved, enters.esp, List.length_append, List.length_singleton, add_nsmul, one_nsmul, sub_sub]
  reg r other := by
    have same : (e.push w).reg r = e.reg r := Function.update_of_ne other _ _
    rw [same, enters.reg r other]
  cs := enters.cs
  ss := enters.ss
  ds := enters.ds

theorem enters_stub {stub : List Instr} (entry : Entry stub error n) (c : Processor)
    (ss0 : BitVec 16)
    (esp0 : BitVec 32) :
    Enters c esp0 ss0 (entered c error n) (exec (c.interrupt ss0 esp0 error) stub) := by
  have enters := enters_interrupt c ss0 esp0 error
  cases entry with
  | isr n error expected =>
      unfold Stubs.isr
      cases error with
      | none =>
          rw [← expected]
          have pushed := (enters.push 0).push n
          simp only [Option.toList_none, List.append_nil, List.append_assoc] at pushed
          exact pushed
      | some code =>
          rw [← expected]
          have pushed := enters.push n
          simp only [Option.toList_some, List.append_assoc] at pushed
          exact pushed
  | irq n =>
      have cleared : Enters c esp0 ss0 _ ((c.interrupt ss0 esp0 none).step .cli) :=
        ⟨enters.memory, enters.esp, enters.reg, enters.cs, enters.ss, enters.ds⟩
      have pushed := (cleared.push 0).push n
      simp only [Option.toList_none, List.append_nil, List.append_assoc] at pushed
      exact pushed

/-! ## The frame -/

/-- The frame that describes the context of `c`. The upper half of `ds` is what was in `eax`. -/
def frame (c : Processor) (esp0 : BitVec 32) (error : Option (BitVec 32)) (n : BitVec 32) :
    Registers where
  ds := (c.reg .eax).extractLsb' 16 16 ++ c.seg .ds
  edi := c.reg .edi
  esi := c.reg .esi
  ebp := c.reg .ebp
  useless_value := top c esp0 - (entered c error n).length • 4
  ebx := c.reg .ebx
  edx := c.reg .edx
  ecx := c.reg .ecx
  eax := c.reg .eax
  int_no := n
  err_code := error.getD 0
  eip := c.eip
  cs := (c.seg .cs).setWidth 32
  eflags := c.eflags
  esp := if outer c then c.reg .esp else c.memory (c.reg .esp)
  ss := if outer c then (c.seg .ss).setWidth 32 else c.memory (c.reg .esp + 4)

/-- The pointer that the handler is called with. -/
def pointer (c : Processor) (esp0 : BitVec 32) (error : Option (BitVec 32)) (n : BitVec 32) :
    BitVec 32 :=
  top c esp0 - ((entered c error n).length + 9) • 4

/-- What the argument of a C function points to at its first instruction. -/
def argument (c : Processor) : Registers :=
  Registers.load c.memory (c.memory (c.reg .esp + 4))

/-- The processor at the first instruction of the handler. -/
def called (c : Processor) (ss0 : BitVec 16) (esp0 : BitVec 32) (error : Option (BitVec 32))
    (stub : List Instr) :
    Processor :=
  let c := exec (c.interrupt ss0 esp0 error) (stub ++ save)
  c.push c.eip

/-- What `pushad` and the common stub push. -/
def saved (c : Processor) : List (BitVec 32) :=
  [c.reg .eax, c.reg .ecx, c.reg .edx, c.reg .ebx, c.reg .esp, c.reg .ebp, c.reg .esi, c.reg .edi,
    (c.reg .eax).extractLsb' 16 16 ++ c.seg .ds]

theorem save_memory (c : Processor) : (exec c save).memory =
    WordStack.push 4 c.memory (c.reg .esp) (saved c ++ [c.reg .esp - 36]) := by
  have pointer : c.reg .esp - 4 - 4 - 4 - 4 - 4 - 4 - 4 - 4 - 4 = c.reg .esp - 36 := by bv_omega
  rw [← pointer]
  rfl

theorem save_esp (c : Processor) : (exec c save).reg .esp = c.reg .esp - 40 := by
  have pushes : (exec c save).reg .esp = c.reg .esp - 4 - 4 - 4 - 4 - 4 - 4 - 4 - 4 - 4 - 4 := rfl
  rw [pushes]
  bv_omega

theorem saved_frame {e : Processor} (enters : Enters c esp0 ss0 (entered c error n) e) :
    (entered c error n ++ saved e).reverse ++ WordStack.words 4 c.memory (top c esp0)
        (if outer c then 0 else 2) =
      (frame c esp0 error n).words := by
  unfold saved
  rw [enters.reg .eax (by decide), enters.reg .ecx (by decide), enters.reg .edx (by decide),
    enters.reg .ebx (by decide),
    enters.reg .ebp (by decide), enters.reg .esi (by decide), enters.reg .edi (by decide),
        enters.ds, enters.esp]
  unfold frame Registers.words
  cases away : outer c with
  | true => simp [entered, away, WordStack.words]
  | false => simp [entered, away, WordStack.words, List.range_succ, top]

section Handler

variable {stub : List Instr} (entry : Entry stub error n) (c : Processor) (ss0 : BitVec 16)
    (esp0 : BitVec 32)

include entry

theorem called_spec : (called c ss0 esp0 error stub).reg .esp = pointer c esp0 error n - 8 ∧
    (called c ss0 esp0 error stub).seg .cs = 0x08 ∧
    (called c ss0 esp0 error stub).seg .ss = (if outer c then ss0 else c.seg .ss) ∧
    ∃ e, Enters c esp0 ss0 (entered c error n) e ∧ ∃ back, (called c ss0 esp0 error stub).memory =
      WordStack.push 4 c.memory (top c esp0)
          ((entered c error n ++ saved e) ++ [pointer c esp0 error n, back]) := by
  have enters := enters_stub entry c ss0 esp0
  have joined : exec (c.interrupt ss0 esp0 error) (stub ++ save) =
      exec (exec (c.interrupt ss0 esp0 error) stub) save :=
    List.foldl_append
  unfold called
  rw [joined]
  generalize exec (c.interrupt ss0 esp0 error) stub = e at enters
  have at_pointer : e.reg .esp - 36 = pointer c esp0 error n := by
    rw [enters.esp, pointer, add_nsmul, sub_sub]
    rfl
  refine ⟨?_, enters.cs, enters.ss, e, enters, (exec e save).eip, ?_⟩
  · have moved : ((exec e save).push (exec e save).eip).reg .esp = (exec e save).reg .esp - 4 := rfl
    rw [moved, save_esp, ← at_pointer]
    bv_omega
  · have pushed : ((exec e save).push (exec e save).eip).memory =
        WordStack.push 4 (exec e save).memory ((exec e save).reg .esp) [(exec e save).eip] := rfl
    have bottom : e.reg .esp - 40 = e.reg .esp - (saved e ++ [e.reg .esp - 36]).length • 4 := rfl
    rw [pushed, save_memory, save_esp, bottom, ← WordStack.push_append, enters.memory, enters.esp,
      ← WordStack.push_append, ← enters.esp, at_pointer]
    simp only [List.append_assoc, List.cons_append, List.nil_append]

theorem argument_eq :
    (called c ss0 esp0 error stub).memory ((called c ss0 esp0 error stub).reg .esp + 4) =
    pointer c esp0 error n := by
  obtain ⟨esp, -, -, e, enters, back, memory⟩ := called_spec entry c ss0 esp0
  have bottom :
      pointer c esp0 error n = top c esp0 - (entered c error n ++ saved e).length • 4 := by
    rw [List.length_append]
    rfl
  have here : pointer c esp0 error n - 8 + 4 = pointer c esp0 error n - 4 := by bv_omega
  have apart : pointer c esp0 error n - 4 ≠ pointer c esp0 error n - 4 - 4 := by bv_omega
  rw [esp, here, memory, WordStack.push_append, ← bottom, WordStack.push, WordStack.push,
    WordStack.push, Function.update_of_ne apart, Function.update_self]

theorem frame_eq : Registers.load (called c ss0 esp0 error stub).memory (pointer c esp0 error n) =
    frame c esp0 error n := by
  obtain ⟨-, -, -, e, enters, back, memory⟩ := called_spec entry c ss0 esp0
  have bottom :
      pointer c esp0 error n = top c esp0 - (entered c error n ++ saved e).length • 4 := by
    rw [List.length_append]
    rfl
  have count : (entered c error n ++ saved e).length + (if outer c then 0 else 2) = 16 := by
    unfold entered
    cases outer c <;> simp [saved]
  have load := load_push [pointer c esp0 error n, back] count (by simp) (saved_frame enters)
  rw [← memory, ← bottom] at load
  exact load

end Handler

/-- A task at the level of the user. -/
def sample (eip : BitVec 32) : Processor :=
  ⟨fun _ => 0x1234, fun s => if s = .cs then 0x1B else 0x23, eip, 0x202, fun _ => 0⟩

/-- The processor goes on with the context that a frame describes. -/
def resume (c : Processor) (p : BitVec 32) : Processor :=
  let r := Registers.load c.memory p
  let outer := level (c.seg .cs) < level (r.cs.setWidth 16)
  { c with
    eip := r.eip
    eflags := r.eflags
    reg := fun
      | .eax => r.eax
      | .ecx => r.ecx
      | .edx => r.edx
      | .ebx => r.ebx
      | .esp => if outer then r.esp else p + 56
      | .ebp => r.ebp
      | .esi => r.esi
      | .edi => r.edi
    seg := fun
      | .cs => r.cs.setWidth 16
      | .ss => if outer then r.ss.setWidth 16 else c.seg .ss
      | _ => r.ds.setWidth 16 }

/-- The part of the frame that the stub pops. -/
def restored (c : Processor) (p : BitVec 32) : Processor :=
  let r := Registers.load c.memory p
  { c with
    reg := fun
      | .eax => r.eax
      | .ecx => r.ecx
      | .edx => r.edx
      | .ebx => r.ebx
      | .esp => p + 44
      | .ebp => r.ebp
      | .esi => r.esi
      | .edi => r.edi
    seg := fun
      | .cs => c.seg .cs
      | .ss => c.seg .ss
      | _ => r.ds.setWidth 16 }

theorem add_words (p : BitVec 32) : p + 4 + 4 = p + 8 ∧ p + 8 + 4 = p + 12 ∧ p + 12 + 4 = p + 16 ∧
    p + 16 + 4 = p + 20 ∧
    p + 20 + 4 = p + 24 ∧ p + 24 + 4 = p + 28 ∧ p + 28 + 4 = p + 32 ∧ p + 32 + 4 = p + 36 ∧
        p + 36 + 8 = p + 44 ∧
    p + 44 + 4 = p + 48 ∧ p + 44 + 8 = p + 52 ∧ p + 44 + 12 = p + 56 ∧ p + 44 + 16 = p + 60 := by
  simp only [add_assoc]
  exact ⟨rfl, rfl, rfl, rfl, rfl, rfl, rfl, rfl, rfl, rfl, rfl, rfl, rfl⟩

theorem restored_eq (c : Processor) : exec c dispatch.dropLast = restored c (c.reg .esp) := by
  ext1
  · have popped : (exec c dispatch.dropLast).reg = fun
        | .eax => c.memory (c.reg .esp + 4 + 4 + 4 + 4 + 4 + 4 + 4 + 4)
        | .ecx => c.memory (c.reg .esp + 4 + 4 + 4 + 4 + 4 + 4 + 4)
        | .edx => c.memory (c.reg .esp + 4 + 4 + 4 + 4 + 4 + 4)
        | .ebx => c.memory (c.reg .esp + 4 + 4 + 4 + 4 + 4)
        | .esp => c.reg .esp + 4 + 4 + 4 + 4 + 4 + 4 + 4 + 4 + 4 + 8
        | .ebp => c.memory (c.reg .esp + 4 + 4 + 4)
        | .esi => c.memory (c.reg .esp + 4 + 4)
        | .edi => c.memory (c.reg .esp + 4) := by
      funext r
      cases r <;> rfl
    rw [popped]
    simp only [add_words (c.reg .esp)]
    rfl
  · funext s
    cases s <;> rfl
  all_goals rfl

theorem iretd_eq (c : Processor) : c.iretd =
    let outer := level (c.seg .cs) < level ((c.memory (c.reg .esp + 4)).setWidth 16)
    { c with
      eip := c.memory (c.reg .esp)
      eflags := c.memory (c.reg .esp + 8)
      reg := Function.update c.reg .esp
          (if outer then c.memory (c.reg .esp + 12) else c.reg .esp + 12)
      seg := Function.update
        (Function.update c.seg .cs ((c.memory (c.reg .esp + 4)).setWidth 16)) .ss
        (if outer then (c.memory (c.reg .esp + 16)).setWidth 16 else c.seg .ss) } := by
  have second : c.reg .esp + 8 = c.reg .esp + 4 + 4 := by bv_omega
  have third : c.reg .esp + 12 = c.reg .esp + 4 + 4 + 4 := by bv_omega
  have last : c.reg .esp + 16 = c.reg .esp + 4 + 4 + 4 + 4 := by bv_omega
  simp only [second, third, last]
  by_cases outer : level (c.seg .cs) < level ((c.memory (c.reg .esp + 4)).setWidth 16)
  · have taken : c.iretd = _ := if_pos outer
    rw [taken, if_pos outer, if_pos outer]
    ext1
    · funext r
      cases r <;> rfl
    · funext s
      cases s <;> rfl
    all_goals rfl
  · have taken : c.iretd = _ := if_neg outer
    rw [taken, if_neg outer, if_neg outer]
    ext1
    · funext r
      cases r <;> rfl
    · funext s
      cases s <;> rfl
    all_goals rfl

theorem dispatch_eq (c : Processor) : exec c dispatch = resume c (c.reg .esp) := by
  have split : exec c dispatch = (exec c dispatch.dropLast).iretd := rfl
  have above : (restored c (c.reg .esp)).reg .esp = c.reg .esp + 44 := rfl
  rw [split, restored_eq, iretd_eq, above]
  simp only [add_words (c.reg .esp)]
  ext1
  · funext r
    cases r <;> rfl
  · funext s
    cases s <;> rfl
  all_goals rfl

/-- A function keeps the stack, and the segments that it runs in. -/
structure Returns (f : Processor → Processor) : Prop where
  esp : ∀ c, (f c).reg .esp = c.reg .esp + 4
  cs : ∀ c, (f c).seg .cs = c.seg .cs
  ss : ∀ c, (f c).seg .ss = c.seg .ss

theorem stub_resumes {stub : List Instr} (entry : Entry stub error n) (c : Processor)
    (ss0 : BitVec 16)
    (esp0 : BitVec 32)
    {f : Processor → Processor} (returns : Returns f) :
    exec (c.interrupt ss0 esp0 error) (stub ++ common_stub f) =
      resume (f (called c ss0 esp0 error stub)) (pointer c esp0 error n) := by
  have joined : exec (c.interrupt ss0 esp0 error) (stub ++ common_stub f) =
      exec (exec (exec (c.interrupt ss0 esp0 error) (stub ++ save)) [.call f, .addEsp 4])
          dispatch := by
    unfold common_stub exec
    simp only [List.foldl_append]
  have back : exec (exec (c.interrupt ss0 esp0 error) (stub ++ save)) [.call f, .addEsp 4] =
      (f (called c ss0 esp0 error stub)).set .esp
          ((f (called c ss0 esp0 error stub)).reg .esp + 4) := rfl
  have esp : (f (called c ss0 esp0 error stub)).reg .esp + 4 = pointer c esp0 error n := by
    rw [returns.esp, (called_spec entry c ss0 esp0).1]
    bv_omega
  have here : ((f (called c ss0 esp0 error stub)).set .esp (pointer c esp0 error n)).reg .esp =
      pointer c esp0 error n := rfl
  rw [joined, back, esp, dispatch_eq, here]
  rfl

/-- The processor is back in a context, except for the data segments, which are all that of `ds`. -/
structure Resumes (task c : Processor) : Prop where
  reg : c.reg = task.reg
  eip : c.eip = task.eip
  eflags : c.eflags = task.eflags
  cs : c.seg .cs = task.seg .cs
  ss : c.seg .ss = task.seg .ss
  data : ∀ s, s ≠ .cs → s ≠ .ss → c.seg s = task.seg .ds

theorem low_append (high low : BitVec 16) : BitVec.setWidth 16 (high ++ low) = low :=
  BitVec.setWidth_append.trans (by simp)

theorem selector (w : BitVec 16) : (w.setWidth 32).setWidth 16 = w := by
  simp

/-- A frame of a context brings the processor back to it. -/
theorem resume_frame {esp0' : BitVec 32} {r : Processor} (kernel : r.seg .cs = 0x08)
    (left : Registers.load r.memory p = frame task esp0' error n)
    (inner : outer task = false → p + 56 = task.reg .esp ∧ r.seg .ss = task.seg .ss) :
    Resumes task (resume r p) := by
  have away : level (r.seg .cs) < level ((Registers.load r.memory p).cs.setWidth 16) ↔
      outer task := by
    have cs : (Registers.load r.memory p).cs.setWidth 16 = task.seg .cs := by
      rw [left]
      exact selector _
    have zero : level (0x08 : BitVec 16) = 0 := rfl
    rw [cs, kernel, zero, outer, decide_eq_true_iff]
    bv_omega
  have cs : (resume r p).seg .cs = (Registers.load r.memory p).cs.setWidth 16 := rfl
  have eip : (resume r p).eip = (Registers.load r.memory p).eip := rfl
  have eflags : (resume r p).eflags = (Registers.load r.memory p).eflags := rfl
  refine ⟨funext fun reg => ?_, ?_, ?_, ?_, ?_, fun s code stack => ?_⟩
  · cases reg with
    | esp =>
        have esp : (resume r p).reg .esp =
            if level (r.seg .cs) < level ((Registers.load r.memory p).cs.setWidth 16) then
            (Registers.load r.memory p).esp else p + 56 := rfl
        rw [esp, left]
        rw [left] at away
        cases level : outer task with
        | true =>
            rw [if_pos (away.mpr level)]
            exact if_pos level
        | false =>
            rw [if_neg (fun is => by simp [away.mp is] at level)]
            exact (inner level).1
    | _ =>
        unfold resume
        rw [left]
        rfl
  · rw [eip, left]
    rfl
  · rw [eflags, left]
    rfl
  · rw [cs, left]
    exact selector _
  · have ss : (resume r p).seg .ss = if level (r.seg .cs) < level
        ((Registers.load r.memory p).cs.setWidth 16) then
        (Registers.load r.memory p).ss.setWidth 16 else r.seg .ss := rfl
    rw [ss, left]
    rw [left] at away
    cases level : outer task with
    | true =>
        rw [if_pos (away.mpr level)]
        have ss : (frame task esp0' error n).ss = (task.seg .ss).setWidth 32 := if_pos level
        rw [ss]
        exact selector _
    | false =>
        rw [if_neg (fun is => by simp [away.mp is] at level)]
        exact (inner level).2
  · have ds : (resume r p).seg s = (Registers.load r.memory p).ds.setWidth 16 := by
      cases s <;> first | rfl | exact absurd rfl code | exact absurd rfl stack
    rw [ds, left]
    exact low_append _ _

section Handler

variable {stub stub' : List Instr} {n' esp0' : BitVec 32} {ss0' : BitVec 16}
    {error' : Option (BitVec 32)}
  {f : Processor → Processor} {user : Processor}

theorem pointer_inner (stays : outer c = false) : pointer c esp0 error n + 56 = c.reg .esp := by
  have start : top c esp0 = c.reg .esp := if_neg (by simp [stays])
  have count : (entered c error n).length + 9 = 14 := by simp [entered, stays]
  have bytes : (14 : Nat) • (4 : BitVec 32) = 56 := rfl
  rw [pointer, start, count, bytes]
  exact sub_add_cancel _ _

end Handler

/-! ## Leaving the kernel -/

/-- What the function pushes, with the flags twice in one place. -/
theorem enter_user_mode_memory (c : Processor) (user_mode : BitVec 32) :
    (exec c ((enter_user_mode user_mode).take 14)).memory =
      WordStack.push 4 (WordStack.push 4 c.memory (c.reg .esp) ([0x23, c.reg .esp] ++ [c.eflags]))
        (c.reg .esp - [(0x23 : BitVec 32), c.reg .esp].length • 4)
            [c.eflags ||| 0x3200, 0x1B, user_mode] := by
  have popped : c.reg .esp - 4 - 4 - 4 + 4 - 4 = c.reg .esp - 4 - 4 - 4 := by bv_omega
  have start :
      c.reg .esp - [(0x23 : BitVec 32), c.reg .esp].length • 4 = c.reg .esp - 4 - 4 - 4 + 4 := by
    have bytes : [(0x23 : BitVec 32), c.reg .esp].length • (4 : BitVec 32) = 8 := rfl
    rw [bytes]
    bv_omega
  have flags : (exec c ((enter_user_mode user_mode).take 14)).memory =
      WordStack.push 4 (WordStack.push 4 c.memory (c.reg .esp) ([0x23, c.reg .esp] ++ [c.eflags]))
        (c.reg .esp - 4 - 4 - 4 + 4)
        [(Function.update (WordStack.push 4 c.memory (c.reg .esp) [0x23, c.reg .esp])
            (c.reg .esp - 4 - 4 - 4)
            c.eflags)
          (c.reg .esp - 4 - 4 - 4) ||| 0x3200, 0x1B, user_mode] := rfl
  rw [flags, start, Function.update_self]

theorem enter_user_mode_esp (c : Processor) (user_mode : BitVec 32) :
    (exec c ((enter_user_mode user_mode).take 14)).reg .esp = c.reg .esp - 20 := by
  have moved : (exec c ((enter_user_mode user_mode).take 14)).reg .esp = c.reg .esp - 4 - 4 - 4 +
      4 - 4 - 4 - 4 := rfl
  rw [moved]
  bv_omega

theorem enter_user_mode_words (c : Processor) (user_mode : BitVec 32) :
    WordStack.words 4 (exec c ((enter_user_mode user_mode).take 14)).memory (c.reg .esp - 20) 5 =
      [user_mode, 0x1B, c.eflags ||| 0x3200, c.reg .esp, 0x23] := by
  have bottom : c.reg .esp - 20 = c.reg .esp - [(0x23 : BitVec 32), c.reg .esp].length • 4 -
      [c.eflags ||| 0x3200, 0x1B, user_mode].length • 4 := by
    have bytes : [(0x23 : BitVec 32), c.reg .esp].length • (4 : BitVec 32) = 8 := rfl
    have more : [c.eflags ||| 0x3200, 0x1B, user_mode].length • (4 : BitVec 32) = 12 := rfl
    rw [bytes, more]
    bv_omega
  have above :=
    WordStack.words_push_append (k := 0) c.memory (c.reg .esp) [0x23, c.reg .esp] [c.eflags]
    (apart 3 (by decide))
  have words := WordStack.words_push (k := 2)
    (WordStack.push 4 c.memory (c.reg .esp) ([0x23, c.reg .esp] ++ [c.eflags]))
    (c.reg .esp - [(0x23 : BitVec 32), c.reg .esp].length • 4)
        [c.eflags ||| 0x3200, 0x1B, user_mode]
    (apart 5 (by decide))
  rw [enter_user_mode_memory, bottom]
  refine words.trans ?_
  exact congrArg ([user_mode, 0x1B, c.eflags ||| 0x3200] ++ ·) above

theorem enter_user_mode_other (c : Processor) (user_mode a : BitVec 32)
    (other : ∀ i < 5, a ≠ c.reg .esp - (i + 1) • 4) :
    (exec c ((enter_user_mode user_mode).take 14)).memory a = c.memory a := by
  rw [enter_user_mode_memory, WordStack.push_other, WordStack.push_other]
  · exact fun i small => other i (Nat.lt_trans small (by simp))
  · intro i small
    rw [sub_sub, ← add_nsmul]
    have place : [(0x23 : BitVec 32), c.reg .esp].length + (i + 1) = i + 2 + 1 :=
      Nat.add_comm 2 (i + 1)
    rw [place]
    exact other (i + 2) (Nat.add_lt_add_right small 2)

/-- The code goes on behind the call, on the same stack, at the level of the user and with
    interrupts on. -/
theorem enter_user_mode_eq (kernel : level (c.seg .cs) = 0) (user_mode : BitVec 32) :
    let u := exec c (enter_user_mode user_mode)
    u.eip = c.memory (c.reg .esp) ∧ u.reg .esp = c.reg .esp + 4 ∧
      u.eflags = c.eflags ||| 0x3200 ∧ u.seg .cs = 0x1B ∧ (∀ s ≠ .cs, u.seg s = 0x23) ∧
      (∀ r, r = .ecx ∨ r = .edx ∨ r = .ebp ∨ r = .esi ∨ r = .edi → u.reg r = c.reg r) ∧
      ∀ a, (∀ i < 5, a ≠ c.reg .esp - (i + 1) • 4) → u.memory a = c.memory a := by
  have split : enter_user_mode user_mode = (enter_user_mode user_mode).take 14 ++ [.iretd, .ret] :=
    rfl
  have left : exec c (enter_user_mode user_mode) =
      exec (exec c ((enter_user_mode user_mode).take 14)) [.iretd, .ret] :=
    (congrArg (exec c) split).trans List.foldl_append
  have esp := enter_user_mode_esp c user_mode
  have words := enter_user_mode_words c user_mode
  have other := enter_user_mode_other c user_mode
  have code : (exec c ((enter_user_mode user_mode).take 14)).seg .cs = c.seg .cs := rfl
  have data (s : Seg) (code : s ≠ .cs) (stack : s ≠ .ss) :
      (exec c ((enter_user_mode user_mode).take 14)).seg s = 0x23 := by
    have loaded : (exec c ((enter_user_mode user_mode).take 14)).seg s =
        ((c.reg .eax).extractLsb' 16 16 ++ 0x23#16).setWidth 16 := by
      cases s <;> first | rfl | exact absurd rfl code | exact absurd rfl stack
    rw [loaded]
    exact low_append _ _
  have kept (r : Reg) (kept : r = .ecx ∨ r = .edx ∨ r = .ebp ∨ r = .esi ∨ r = .edi) :
      (exec c ((enter_user_mode user_mode).take 14)).reg r = c.reg r := by
    rcases kept with rfl | rfl | rfl | rfl | rfl <;> rfl
  rw [left]
  generalize exec c ((enter_user_mode user_mode).take 14) = e at esp words other code data kept
  have here : e.memory (c.reg .esp) = c.memory (c.reg .esp) := other _ fun i small same => by
    have wrapped := sub_eq_self.mp same.symm
    have equal := apart 6 (by decide) (i + 1) (by omega) 0 (by decide) (by rw [wrapped, zero_nsmul])
    omega
  simp only [WordStack.words, List.range_succ, List.range_zero, List.nil_append, List.cons_append,
    List.map_cons, List.map_nil, List.cons.injEq, and_true, zero_nsmul, add_zero] at words
  rw [← esp] at words
  obtain ⟨eip, cs, eflags, stack, ss⟩ := words
  have lower : level (e.seg .cs) < level ((0x1B : BitVec 32).setWidth 16) := by
    rw [code, kernel]
    decide
  have last : exec e [.iretd, .ret] = exec e.iretd [.ret] := rfl
  have iretd := iretd_eq e
  have eflags : e.memory (e.reg .esp + 8) = c.eflags ||| 0x3200 := eflags
  have stack : e.memory (e.reg .esp + 12) = c.reg .esp := stack
  have ss : e.memory (e.reg .esp + 16) = 0x23 := ss
  have cs : e.memory (e.reg .esp + 4) = 0x1B := cs
  simp only [eip, cs, eflags, stack, ss, if_pos lower] at iretd
  rw [last, iretd]
  refine ⟨here, rfl, rfl, rfl, fun s code => ?_, fun r some => ?_, other⟩
  · cases s with
    | cs => exact absurd rfl code
    | ss => rfl
    | _ => exact data _ (by decide) (by decide)
  · rcases some with rfl | rfl | rfl | rfl | rfl
    all_goals exact kept _ (by decide)

theorem enter_user_mode_eq_sample :
    let c := { sample 0 with seg := fun _ => 0x08 }
    let u := exec c (enter_user_mode 0x77)
    u.eip = c.memory (c.reg .esp) ∧ u.reg .esp = c.reg .esp + 4 ∧
      u.eflags = c.eflags ||| 0x3200 ∧ u.seg .cs = 0x1B ∧ (∀ s ≠ .cs, u.seg s = 0x23) ∧
      (∀ r, r = .ecx ∨ r = .edx ∨ r = .ebp ∨ r = .esi ∨ r = .edi → u.reg r = c.reg r) ∧
      ∀ a, (∀ i < 5, a ≠ c.reg .esp - (i + 1) • 4) → u.memory a = c.memory a :=
  enter_user_mode_eq (c := { sample 0 with seg := fun _ => 0x08 }) rfl 0x77

end Stubs

end Krypton
