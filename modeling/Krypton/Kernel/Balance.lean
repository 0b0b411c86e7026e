import Krypton.Kernel.Nesting

/-! # The balance of `forbid_counter`

Calls that run by themselves, without interrupts and without giving up the CPU.
A call that returns leaves the counter as it found it, except that a refused
non-blocking operation keeps the level that it has raised.
-/

namespace Krypton

namespace Balance

/-- The calls that are meant to leave the counter alone. -/
def Balanced : Call → Prop
  | .queueSend _ _ blocking | .queueRecv _ _ blocking => blocking = false
  | .createQueue .. | .destroyQueue _ | .registerDevice _ | .getDevice _ => True
  | _ => False

/-- The operation cannot go on: the queue is full, or empty. -/
def Refused (k : Kernel) : Call → Prop
  | .queueSend queue .. => ¬ (k.queue queue).free_slots > 0
  | .queueRecv queue .. => ¬ (k.queue queue).free_slots < (k.queue queue).max_slots
  | _ => False

/-- A system call that yields, or a task switch. -/
def yields : Frame → Bool
  | .switchTasks .. | .trap _ .yield _ => true
  | _ => false

/-- A statement of the call, with no yield and no task switch under way. -/
def Alone (m : Machine) (e : Event) : Prop :=
  match e with
  | .stmt _ => ∀ f ∈ m.kstack, yields f = false
  | _ => False

instance (m : Machine) : (e : Event) → Decidable (Alone m e)
  | .stmt _ => inferInstanceAs (Decidable (∀ f ∈ m.kstack, yields f = false))
  | .irq _ | .call _ | .compute _ | .store .. | .keybd _ => instDecidableFalse

/-- The call, made by the running task, returns the value and leaves the kernel so. -/
def Returns (m : Machine) (c : Call) (v : Value) (k : Kernel) : Prop :=
  ∃ m' f block, Runs.Reach Machine.step Alone (· = m.call c) m' ∧ m'.kstack = [] ∧
    m'.current = [f] ∧ exec block m'.k f = some (k, .ret v)

/-- The call kept the balance, and if refused did nothing. -/
def Clean (m : Machine) (c : Call) (v : Value) (k : Kernel) : Prop :=
  k.forbid_counter = m.k.forbid_counter ∧ (Refused m.k c → v = .ptr none ∧ k = m.k)

/-- Where a send or receive stands after its test. -/
@[grind] def tested : Frame → Bool
  | .queueSend pc _ => match pc with | .forbid | .full => false | _ => true
  | .queueRecv pc _ => match pc with | .forbid | .empty => false | _ => true
  | _ => true

/-- The frame of a call that was refused. -/
@[grind] def refused : Frame → Bool
  | .queueSend pc _ => match pc with | .mode => true | _ => false
  | .queueRecv pc _ => match pc with | .mode => true | _ => false
  | _ => false

/-- The levels that the frame has raised. -/
@[grind] def level (f : Frame) : Nat := (f.holds || refused f).toNat

/-- The frame belongs to the call. -/
@[grind] def own (c : Call) (f : Frame) : Bool :=
  match c, f with
  | .queueSend queue _ _, .queueSend pc s =>
      s.queue = queue && s.blocking = false &&
        match pc with | .wait | .reforbid | .refull => false | _ => true
  | .queueRecv queue _ _, .queueRecv pc r =>
      r.queue = queue && r.blocking = false &&
        match pc with | .wait | .reforbid | .reempty => false | _ => true
  | .createQueue .., .createQueue .. | .destroyQueue _, .destroyQueue .. => true
  | .registerDevice _, .registerDevice .. | .getDevice _, .getDevice .. => true
  | _, _ => false

/-- The next statement is the last one of a `permit()`. -/
def ends (k : Kernel) (f : Frame) : Bool := f.lowers || f.permits && k.forbid_counter ≤ 0

/-- The frame of a call goes on. -/
structure Continues (c : Call) (f : Frame) (k k' : Kernel) (f' : Frame) : Prop where
  mine : own c f'
  levels : level f' + (ends k f).toNat = level f + f.forbids.toNat
  past : tested f → tested f' ∧ refused f' = refused f
  test : tested f = false → tested f' → (refused f' ↔ Refused k c)
  before : tested f = false → tested f' = false → k'.queue = k.queue

/-- What becomes of the frame of a call. -/
def Continued (c : Call) (f : Frame) (k k' : Kernel) : Next → Prop
  | .goto f' => Continues c f k k' f'
  | .int f' call => Continues c f k k' f' ∧ call ≠ .yield
  | .call f' g =>
      Continues c f k k' f' ∧ (tested f ∧ refused f = false) ∧
        ∃ task sigs, g = .signal .test task sigs
  | .ret v =>
      tested f ∧ (f.forbids = false ∧ f.lowers = false) ∧ level f = (refused f).toNat ∧
        (refused f → v = .ptr none)
  | _ => False

variable {c : Call} {m m' : Machine} {f g : Frame} {fs rest : List Frame} {k k' : Kernel} {n : Next}
variable {v : Value} {block : Ptr32} {e : Event}

/-- A frame that has its test behind it keeps what the test said. -/
theorem Continues.behind (mine : own c g)
    (levels : level g + (ends k f).toNat = level f + f.forbids.toNat) (was : tested f)
    (now : tested g) (same : refused g = refused f) : Continues c f k k' g where
  mine := mine
  levels := levels
  past _ := ⟨now, same⟩
  test no := by simp [was] at no
  before no := by simp [was] at no

/-- The frame has its test before it. -/
theorem Continues.ahead (mine : own c g)
    (levels : level g + (ends k f).toNat = level f + f.forbids.toNat) (was : tested f = false)
    (now : tested g = false) (queue : k'.queue = k.queue) : Continues c f k k' g where
  mine := mine
  levels := levels
  past no := by simp [was] at no
  test _ no := by simp [now] at no
  before _ _ := queue

/-- The statement is the test. -/
theorem Continues.tests (mine : own c g)
    (levels : level g + (ends k f).toNat = level f + f.forbids.toNat) (was : tested f = false)
    (now : tested g) (told : refused g ↔ Refused k c) : Continues c f k k' g where
  mine := mine
  levels := levels
  past no := by simp [was] at no
  test _ _ := told
  before _ no := by simp [now] at no

theorem ends_later (positive : k.forbid_counter > 0) (test : f.lowers = false) :
    ends k f = false := by
  simp [ends, test, positive]

theorem ends_here (low : ¬ k.forbid_counter > 0) (permits : f.permits) : ends k f = true := by
  simpa [ends, permits] using .inr (Int.not_lt.mp low)

theorem send_continued {pc : SendPc} {s : Send} (run : execSend k s pc = some (k', n))
    (mine : own c (.queueSend pc s)) : Continued c (.queueSend pc s) k k' n := by
  cases c with
  | queueSend queue msg blocking =>
      obtain ⟨⟨rfl, sync⟩, -⟩ := by simpa [own] using mine
      cases pc with
      | forbid =>
          cases run
          exact .ahead mine rfl rfl rfl rfl
      | full =>
          simp only [execSend] at run
          split at run
          · next free =>
              cases run
              exact .tests mine rfl rfl rfl ⟨fun no => absurd no Bool.false_ne_true,
                  fun no => absurd free no⟩
          · next no =>
              cases run
              exact .tests mine rfl rfl rfl ⟨fun _ => no, fun _ => rfl⟩
      | alloc | allocData =>
          cases run
          exact ⟨.behind mine rfl rfl rfl rfl, by simp⟩
      | hasData | count =>
          simp only [execSend] at run
          split at run <;> cases run <;> exact .behind mine rfl rfl rfl rfl
      | copy | link =>
          obtain ⟨x, -, same⟩ := Option.bind_eq_some_iff.mp run
          cases same
          exact .behind mine rfl rfl rfl rfl
      | signal =>
          cases run
          exact ⟨.behind mine rfl rfl rfl rfl, ⟨rfl, rfl⟩, _, _, rfl⟩
      | permit =>
          cases run
          unfold Kernel.past
          split
          · exact .behind mine (by rw [ends_later ‹_› rfl]; rfl) rfl rfl rfl
          · exact .behind mine (by rw [ends_here ‹_› rfl]; rfl) rfl rfl rfl
      | ret =>
          cases run
          exact ⟨rfl, ⟨rfl, rfl⟩, rfl, fun no => absurd no Bool.false_ne_true⟩
      | mode =>
          simp only [execSend, sync] at run
          cases run
          exact ⟨rfl, ⟨rfl, rfl⟩, rfl, fun _ => rfl⟩
      | wait | reforbid | refull => simp [own] at mine
      | _ =>
          cases run
          exact .behind mine rfl rfl rfl rfl
  | _ => cases mine

theorem recv_continued {pc : RecvPc} {r : Recv} (run : execRecv k r pc = some (k', n))
    (mine : own c (.queueRecv pc r)) : Continued c (.queueRecv pc r) k k' n := by
  cases c with
  | queueRecv queue ptr blocking =>
      obtain ⟨⟨rfl, sync⟩, -⟩ := by simpa [own] using mine
      cases pc with
      | forbid =>
          cases run
          exact .ahead mine rfl rfl rfl rfl
      | empty =>
          simp only [execRecv] at run
          split at run
          · next some_ =>
              cases run
              exact .tests mine rfl rfl rfl ⟨fun no => absurd no Bool.false_ne_true,
                  fun no => absurd some_ no⟩
          · next no =>
              cases run
              exact .tests mine rfl rfl rfl ⟨fun _ => no, fun _ => rfl⟩
      | unlink =>
          simp only [execRecv] at run
          split at run <;> cases run
          exact .behind mine rfl rfl rfl rfl
      | copy =>
          simp only [execRecv] at run
          split at run
          · obtain ⟨p, -, same⟩ := Option.bind_eq_some_iff.mp run
            cases same
            exact .behind mine rfl rfl rfl rfl
          · cases run
            exact .behind mine rfl rfl rfl rfl
      | freeData =>
          obtain ⟨p, -, same⟩ := Option.bind_eq_some_iff.mp run
          cases same
          exact ⟨.behind mine rfl rfl rfl rfl, by simp⟩
      | freeMsg =>
          cases run
          exact ⟨.behind mine rfl rfl rfl rfl, by simp⟩
      | count =>
          simp only [execRecv] at run
          split at run <;> cases run <;> exact .behind mine rfl rfl rfl rfl
      | first | next =>
          obtain ⟨p, -, same⟩ := Option.bind_eq_some_iff.mp run
          cases same
          exact .behind mine rfl rfl rfl rfl
      | each =>
          simp only [execRecv] at run
          split at run <;> cases run
          · exact .behind mine rfl rfl rfl rfl
          · exact ⟨.behind mine rfl rfl rfl rfl, ⟨rfl, rfl⟩, _, _, rfl⟩
      | permit =>
          cases run
          unfold Kernel.past
          split
          · exact .behind mine (by rw [ends_later ‹_› rfl]; rfl) rfl rfl rfl
          · exact .behind mine (by rw [ends_here ‹_› rfl]; rfl) rfl rfl rfl
      | lower =>
          cases run
          exact .behind mine rfl rfl rfl rfl
      | ret =>
          cases run
          exact ⟨rfl, ⟨rfl, rfl⟩, rfl, fun no => absurd no Bool.false_ne_true⟩
      | mode =>
          simp only [execRecv, sync] at run
          cases run
          exact ⟨rfl, ⟨rfl, rfl⟩, rfl, fun _ => rfl⟩
      | wait | reforbid | reempty => simp [own] at mine
  | _ => cases mine

/-- A function that cannot be refused has its test behind it from the start. -/
theorem create_continued {pc : CreateQueuePc} {max_slots elem_sz : BitVec 32} {queue : Ptr32}
    (run : execCreateQueue k max_slots elem_sz queue pc = some (k', n))
    (mine : own c (.createQueue pc max_slots elem_sz queue)) :
    Continued c (.createQueue pc max_slots elem_sz queue) k k' n := by
  cases c with
  | createQueue =>
      cases pc with
      | alloc =>
          cases run
          exact ⟨.behind rfl rfl rfl rfl rfl, by simp⟩
      | permit =>
          cases run
          unfold Kernel.past
          split
          · exact .behind rfl (by rw [ends_later ‹_› rfl]; rfl) rfl rfl rfl
          · exact .behind rfl (by rw [ends_here ‹_› rfl]; rfl) rfl rfl rfl
      | ret =>
          cases run
          exact ⟨rfl, ⟨rfl, rfl⟩, rfl, fun no => absurd no Bool.false_ne_true⟩
      | _ =>
          cases run
          exact .behind rfl rfl rfl rfl rfl
  | _ => cases mine

theorem destroy_continued {pc : DestroyQueuePc} {queue : Ptr32}
    (run : execDestroyQueue k queue pc = some (k', n)) (mine : own c (.destroyQueue pc queue)) :
    Continued c (.destroyQueue pc queue) k k' n := by
  cases c with
  | destroyQueue =>
      cases pc with
      | free =>
          cases run
          exact ⟨.behind rfl rfl rfl rfl rfl, by simp⟩
      | permit =>
          cases run
          unfold Kernel.past
          split
          · exact .behind rfl (by rw [ends_later ‹_› rfl]; rfl) rfl rfl rfl
          · exact .behind rfl (by rw [ends_here ‹_› rfl]; rfl) rfl rfl rfl
      | ret =>
          cases run
          exact ⟨rfl, ⟨rfl, rfl⟩, rfl, fun no => absurd no Bool.false_ne_true⟩
      | _ =>
          cases run
          exact .behind rfl rfl rfl rfl rfl
  | _ => cases mine

theorem register_continued {pc : RegisterPc} {dev : Ptr32}
    (run : execRegister k dev pc = some (k', n)) (mine : own c (.registerDevice pc dev)) :
    Continued c (.registerDevice pc dev) k k' n := by
  cases c with
  | registerDevice =>
      cases pc with
      | link =>
          obtain ⟨devices, -, same⟩ := Option.bind_eq_some_iff.mp run
          cases same
          exact .behind rfl rfl rfl rfl rfl
      | permit =>
          cases run
          unfold Kernel.past
          split
          · exact .behind rfl (by rw [ends_later ‹_› rfl]; rfl) rfl rfl rfl
          · exact .behind rfl (by rw [ends_here ‹_› rfl]; rfl) rfl rfl rfl
      | ret =>
          cases run
          exact ⟨rfl, ⟨rfl, rfl⟩, rfl, fun no => absurd no Bool.false_ne_true⟩
      | _ =>
          cases run
          exact .behind rfl rfl rfl rfl rfl
  | _ => cases mine

theorem get_continued {pc : GetDevicePc} {dev_name : List (BitVec 8)} {aux : LinkStore.Ptr Ptr32 Unit}
    (run : execGetDevice k dev_name aux pc = some (k', n))
    (mine : own c (.getDevice pc dev_name aux)) :
    Continued c (.getDevice pc dev_name aux) k k' n := by
  cases c with
  | getDevice =>
      cases pc with
      | first =>
          obtain ⟨p, -, same⟩ := Option.bind_eq_some_iff.mp run
          cases same
          exact .behind rfl rfl rfl rfl rfl
      | each =>
          simp only [execGetDevice] at run
          split at run
          · cases run
            exact .behind rfl rfl rfl rfl rfl
          · split at run
            · cases run
              exact .behind rfl rfl rfl rfl rfl
            · obtain ⟨p, -, same⟩ := Option.bind_eq_some_iff.mp run
              cases same
              exact .behind rfl rfl rfl rfl rfl
          · cases run
      | permit =>
          cases run
          unfold Kernel.past
          split
          · exact .behind rfl (by rw [ends_later ‹_› rfl]; rfl) rfl rfl rfl
          · exact .behind rfl (by rw [ends_here ‹_› rfl]; rfl) rfl rfl rfl
      | ret =>
          cases run
          exact ⟨rfl, ⟨rfl, rfl⟩, rfl, fun no => absurd no Bool.false_ne_true⟩
      | _ =>
          cases run
          exact .behind rfl rfl rfl rfl rfl
  | _ => cases mine

theorem exec_continued (run : exec block k f = some (k', n)) (mine : own c f) :
    Continued c f k k' n := by
  cases f with
  | queueSend pc s => exact send_continued run mine
  | queueRecv pc r => exact recv_continued run mine
  | createQueue pc => exact create_continued run mine
  | destroyQueue pc => exact destroy_continued run mine
  | registerDevice pc => exact register_continued run mine
  | getDevice pc => exact get_continued run mine
  | _ => cases c <;> cases mine

/-- What the counter is while frames hold levels of it. -/
def Counted (entry : Int) (fs : List Frame) (forbid_counter : Int) : Prop :=
  if 0 ≤ entry then forbid_counter = entry + (fs.map level).sum
  else entry < forbid_counter ∧ (fs.head?.any Frame.lowers → 0 < forbid_counter) ∨
    forbid_counter = entry ∧ ∃ f, fs = [f] ∧ f.forbids

/-- The call made from `m₀` is under way. -/
structure Running (m₀ : Machine) (c : Call) (m : Machine) : Prop where
  regs : m.regs.stack = m₀.regs.stack
  kstack : m.kstack = [] ∨ ∃ pc call regs, m.kstack = [.trap pc call (.user regs)] ∧
    call ≠ .yield ∧ pc ≠ .yielded ∧ regs.stack = m₀.regs.stack
  frames : ∃ f, own c f ∧
      (if tested f then (refused f ↔ Refused m₀.k c) else m.k.queue = m₀.k.queue) ∧
    (m.current = [f] ∨ tested f ∧ (refused f = false ∧ f.lowers = false) ∧
      ∃ pc task sigs, m.current = [.signal pc task sigs, f])
  counted : Counted m₀.k.forbid_counter m.current m.k.forbid_counter

/-- Nobody has given up the CPU. -/
def Calm (m : Machine) : Prop := ∀ f ∈ m.kstack, yields f = false

variable {m₀ : Machine} {entry forbid_counter : Int}

/-- A frame in a `permit()` holds a level. -/
theorem permits_holds (f : Frame) : (f.permits ∨ f.lowers → level f = 1) ∧
    (f.permits ∨ f.lowers → f.forbids = false) ∧ (f.permits → f.lowers = false) := by
  cases f with
  | permit pc | wait pc | signal pc | delay pc | createTask pc | createQueue pc | destroyQueue pc
  | queueSend pc | queueRecv pc | registerDevice pc | getDevice pc =>
      cases pc <;> simp [Frame.permits, Frame.lowers, Frame.forbids, level, Frame.holds]
  | _ => simp [Frame.permits, Frame.lowers]

/-- A statement of a call or of its `signal` keeps the count. -/
theorem counted_step {fs' : List Frame} (h : Counted entry (f :: rest) k.forbid_counter)
    (plain : f.library)
    (levels : (fs'.map level).sum + (ends k f).toNat = ((f :: rest).map level).sum +
        f.forbids.toNat)
    (due : fs'.head?.any Frame.lowers → f.permits ∧ 0 < k.forbid_counter) :
    Counted entry fs' (f.counter k.forbid_counter) := by
  obtain ⟨held, apart, alone⟩ := permits_holds f
  rw [library_counter plain]
  unfold Counted at h ⊢
  by_cases sign : 0 ≤ entry
  · rw [if_pos sign] at h ⊢
    simp only [List.map_cons, List.sum_cons] at h levels
    have positive (middle : f.permits ∨ f.lowers) : ends k f = f.lowers := by
      have one := held middle
      have low : ¬ k.forbid_counter ≤ 0 := by omega
      simp [ends, low]
    have outside (no : ¬ (f.permits ∨ f.lowers)) : ends k f = f.lowers := by
      simp_all [ends]
    have last : ends k f = f.lowers := (em _).elim positive outside
    rw [last] at levels
    generalize (fs'.map level).sum = after at levels ⊢
    generalize (rest.map level).sum = below at h levels
    cases forbids : f.forbids <;> cases lowers : f.lowers <;> simp_all <;> omega
  · rw [if_neg sign] at h ⊢
    left
    obtain ⟨raised, low⟩ | ⟨same, g, only, forbids⟩ := h
    · constructor
      · cases forbids : f.forbids <;> cases lowers : f.lowers <;> simp_all <;> omega
      · intro head
        obtain ⟨permits, positive⟩ := due head
        simpa [apart (.inl permits), alone permits] using positive
    · cases only
      constructor
      · simp [forbids]
        omega
      · intro head
        simp [apart (.inl (due head).1)] at forbids

section Deliver

theorem own_deliver (v : Value) (f : Frame) : own c (f.deliver v) = own c f := by
  unfold Frame.deliver
  split <;> cases c <;> rfl

theorem tested_deliver (v : Value) (f : Frame) : tested (f.deliver v) = tested f := by
  unfold Frame.deliver
  split <;> rfl

theorem refused_deliver (v : Value) (f : Frame) : refused (f.deliver v) = refused f := by
  unfold Frame.deliver
  split <;> rfl

theorem level_deliver (v : Value) (f : Frame) : level (f.deliver v) = level f := by
  simp [level, refused_deliver]

theorem forbids_deliver (v : Value) (f : Frame) : (f.deliver v).forbids = f.forbids := by
  unfold Frame.deliver
  split <;> rfl

theorem counted_deliver (v : Value) (h : Counted entry fs forbid_counter) :
    Counted entry (fs.modifyHead (.deliver v)) forbid_counter := by
  unfold Counted at h ⊢
  cases fs with
  | nil => exact h
  | cons f rest =>
      split
      · simpa [*, level_deliver] using h
      · rw [if_neg ‹_›] at h
        refine h.imp (by simp) fun ⟨same, g, only, forbids⟩ => ⟨same, g.deliver v, ?_, ?_⟩
        · cases only
          rfl
        · rw [forbids_deliver]
          exact forbids

end Deliver

/-- A step of a system call. -/
theorem Running.trap (h : Running m₀ c m) (regs : m'.regs.stack = m₀.regs.stack)
    (kstack : m'.kstack = [] ∨ ∃ pc call regs, m'.kstack = [.trap pc call (.user regs)] ∧
      call ≠ .yield ∧ pc ≠ .yielded ∧ regs.stack = m₀.regs.stack)
    (current : m'.current = m.current ∨ ∃ v, m'.current = m.current.modifyHead (.deliver v))
    (queue : m'.k.queue = m.k.queue) (counter : m'.k.forbid_counter = m.k.forbid_counter) :
    Running m₀ c m' := by
  obtain ⟨-, -, ⟨f, mine, asked, frames⟩, counted⟩ := h
  cases current with
  | inl same =>
      exact ⟨regs, kstack, ⟨f, mine, by rwa [queue], by rwa [same]⟩, by rwa [same, counter]⟩
  | inr delivered =>
      obtain ⟨v, same⟩ := delivered
      have counted' := counted_deliver v counted
      rw [← same, ← counter] at counted'
      cases frames with
      | inl only =>
          rw [only] at same
          refine ⟨regs, kstack, ⟨f.deliver v, ?_, ?_, .inl same⟩, counted'⟩
          · rwa [own_deliver]
          · rwa [tested_deliver, refused_deliver, queue]
      | inr signal =>
          obtain ⟨past, go, pc, task, sigs, only⟩ := signal
          rw [only] at same
          have plain : (Frame.signal pc task sigs).deliver v = .signal pc task sigs := by
            obtain _ | _ | (_ | _) | _ := v <;> rfl
          rw [List.modifyHead_cons, plain] at same
          exact ⟨regs, kstack, ⟨f, mine, by rwa [queue], .inr ⟨past, go, pc, task, sigs, same⟩⟩,
            counted'⟩

theorem kernel_running (h : Running m₀ c m) (calm : Calm m') (stack : m.kstack = f :: rest)
    (run : exec block m.k f = some (k, n))
    (after : ({ m with k } : Machine).afterKernel rest n = some m') : Running m₀ c m' := by
  have regs := h.regs
  obtain empty | ⟨pc, call, r, only, other, pass, mine⟩ := h.kstack
  · simp [empty] at stack
  · rw [stack] at only
    cases only
    have next (pc' : TrapPc) (pass : pc' ≠ .yielded) :
        ∃ pc call₁ regs, [Frame.trap pc' call (.user r)] = [.trap pc call₁ (.user regs)] ∧
          call₁ ≠ .yield ∧ pc ≠ .yielded ∧ regs.stack = m₀.regs.stack :=
      ⟨pc', call, r, rfl, other, pass, mine⟩
    cases pc with
    | body =>
        cases call with
        | yield => exact absurd rfl other
        | kmalloc =>
            simp only [exec, execTrap] at run
            split at run
            · cases run
            · cases run
              cases after
              exact h.trap regs (.inr (next .cli (by simp)))
                (.inr ⟨_, Machine.setCurrent_current _ _⟩) rfl rfl
        | kfree ptr =>
            cases run
            cases after
            exact h.trap regs (.inr (next .cli (by simp))) (.inl rfl) rfl rfl
    | yielded => exact absurd rfl pass
    | sched =>
        cases sched_spec run with
        | inl goes =>
            obtain ⟨rfl, rfl⟩ := goes
            cases after
            exact h.trap regs (.inr (next .leave (by simp))) (.inl rfl) rfl rfl
        | inr switches =>
            obtain ⟨rfl, -⟩ := switches
            cases after
            simpa [yields] using calm _ List.mem_cons_self
    | iret =>
        cases run
        cases after
        have back : ({ m with k := { m.k with intr := r.intr }, kstack := [], regs := r } :
            Machine).current = m.current := by
          rw [Machine.current, Machine.current, mine, regs]
        exact h.trap mine (.inl rfl) (.inl back) rfl rfl
    | _ =>
        cases run
        cases after
        exact h.trap regs (.inr (next _ (by simp))) (.inl rfl) rfl rfl

/-- The frame of the call takes its place again. -/
theorem asked_step {f' : Frame}
    (asked : if tested f then (refused f ↔ Refused m₀.k c) else k.queue = m₀.k.queue)
    (on : Continues c f k k' f') :
    if tested f' then (refused f' ↔ Refused m₀.k c) else k'.queue = m₀.k.queue := by
  cases past : tested f with
  | true =>
      obtain ⟨past', same⟩ := on.past past
      rw [if_pos past] at asked
      rw [if_pos past', same]
      exact asked
  | false =>
      rw [if_neg (by simp [past])] at asked
      split
      · next past' =>
          rw [on.test past past']
          cases c <;> simp [Refused, asked]
      · next waits =>
          rw [on.before past (by simpa using waits)]
          exact asked

theorem own_library (h : own c f) : f.library := by
  cases f <;> first | rfl | (cases c <;> cases h)

/-- The frame of the call executes a statement. -/
theorem own_running (h : Running m₀ c m) (mine : own c f)
    (asked : if tested f then (refused f ↔ Refused m₀.k c) else m.k.queue = m₀.k.queue)
    (out : m.kstack = []) (stack : m.current = [f]) (run : exec block m.k f = some (k, n))
    (after : ({ m with k } : Machine).afterTask [] n = some m') : m'.inTask ∨ Running m₀ c m' := by
  have on := exec_continued run mine
  have plain := own_library mine
  have counted := h.counted
  have counter := (exec_effect run).counter
  have tested := (exec_effect run).tested
  rw [stack] at counted
  cases n with
  | goto f' =>
      cases after
      right
      refine ⟨h.regs, .inl out, ⟨f', on.mine, asked_step asked on, .inl (by simp)⟩, ?_⟩
      rw [Machine.setCurrent_current, Machine.setCurrent_k, counter]
      apply counted_step counted plain (by simpa using on.levels)
      intro due
      obtain ⟨-, permits, -, positive⟩ := tested f' List.mem_cons_self due
      exact ⟨permits, positive⟩
  | int f' call =>
      obtain ⟨on, other⟩ := on
      simp only [Machine.afterTask, Machine.enter, Machine.setCurrent_kstack, out] at after
      cases after
      right
      have current : (({ m with k } : Machine).setCurrent [f']).current = [f'] := by simp
      have asked' := asked_step asked on
      refine ⟨h.regs, .inr ⟨.enter, call, _, rfl, other, by simp, h.regs⟩,
        ⟨f', on.mine, asked', .inl current⟩, ?_⟩
      have levels :
          ([f'].map level).sum + (ends m.k f).toNat = ([f].map level).sum + f.forbids.toNat := by
        simpa using on.levels
      have counted' := counted_step counted plain levels fun due => by
        cases (tested f' List.mem_cons_self due).1
      rw [← counter, ← current] at counted'
      exact counted'
  | call f' g =>
      obtain ⟨on, ⟨past, go⟩, task, sigs, rfl⟩ := on
      cases after
      right
      have past' := on.past past
      have plain' : f'.lowers = false := by
        by_contra due
        cases (tested f' (by simp [Next.frames]) (by simpa using due)).1
      refine ⟨h.regs, .inl out, ⟨f', on.mine, asked_step asked on,
        .inr ⟨past'.1, ⟨past'.2.trans go, plain'⟩, .test, task, sigs, by simp⟩⟩, ?_⟩
      rw [Machine.setCurrent_current, Machine.setCurrent_k, counter]
      have none : level (.signal .test task sigs) = 0 := rfl
      exact counted_step counted plain (by simpa [none] using on.levels) fun due => by cases due
  | ret v =>
      cases after
      left
      exact ⟨out, by simp⟩
  | write f' b => cases after
  | iret regs => cases after

/-- The `signal` of a call executes a statement. -/
theorem signal_running {pc : SignalPc} {task sigs : BitVec 32} (h : Running m₀ c m) (mine : own c f)
    (asked : if tested f then (refused f ↔ Refused m₀.k c) else m.k.queue = m₀.k.queue)
    (past : tested f) (go : refused f = false ∧ f.lowers = false) (out : m.kstack = [])
    (stack : m.current = [.signal pc task sigs, f])
    (run : exec block m.k (.signal pc task sigs) = some (k, n))
    (after : ({ m with k } : Machine).afterTask [f] n = some m') (calm : Calm m') :
    Running m₀ c m' := by
  have counted := h.counted
  have counter := (exec_effect run).counter
  have due := (exec_effect run).tested
  rw [stack] at counted
  rw [if_pos past] at asked
  have goes (pc' : SignalPc) (same : n = .goto (.signal pc' task sigs))
      (levels : level (.signal pc' task sigs) + (ends m.k (.signal pc task sigs)).toNat =
        level (.signal pc task sigs) + (Frame.signal pc task sigs).forbids.toNat) :
      Running m₀ c m' := by
    subst same
    cases after
    refine ⟨h.regs, .inl out, ⟨f, mine, by rwa [if_pos past], .inr ⟨past, go, pc', task, sigs,
      by simp⟩⟩, ?_⟩
    rw [Machine.setCurrent_current, Machine.setCurrent_k, counter]
    apply counted_step counted rfl (by simp; omega)
    intro lowers
    obtain ⟨-, permits, -, positive⟩ := due _ List.mem_cons_self lowers
    exact ⟨permits, positive⟩
  have returns (v : Value) (levels : level (.signal pc task sigs) = 0)
      (plain : ends m.k (.signal pc task sigs) = false ∧
          (Frame.signal pc task sigs).forbids = false)
      (same : n = .ret v) : Running m₀ c m' := by
    subst same
    cases after
    refine ⟨h.regs, .inl out, ⟨f.deliver v, ?_, ?_, .inl (by simp)⟩, ?_⟩
    · rwa [own_deliver]
    · rwa [if_pos (by rwa [tested_deliver]), refused_deliver]
    · rw [Machine.setCurrent_current, Machine.setCurrent_k, counter]
      exact counted_step counted rfl (by simp [levels, plain, level_deliver])
        fun lowers => by simp [go.2] at lowers
  cases pc with
  | test =>
      simp only [exec, execSignal] at run
      split at run <;> cases run
      · exact goes .forbid rfl rfl
      · exact returns _ rfl ⟨rfl, rfl⟩ rfl
  | remove | enqueue =>
      obtain ⟨k₁, -, same⟩ := Option.bind_eq_some_iff.mp run
      cases same
      exact goes _ rfl rfl
  | priTest =>
      simp only [exec, execSignal] at run
      split at run <;> cases run
      · simp only [Machine.afterTask, Machine.enter, Machine.setCurrent_kstack, out] at after
        cases after
        simpa [yields] using calm _ List.mem_cons_self
      · exact goes .ret rfl rfl
  | permit =>
      cases run
      by_cases positive : m.k.forbid_counter > 0
      · exact goes .lower (by simp [Kernel.past, positive]) (by rw [ends_later positive rfl]; rfl)
      · exact goes .priTest (by simp [Kernel.past, positive]) (by rw [ends_here positive rfl]; rfl)
  | ret =>
      cases run
      exact returns _ rfl ⟨rfl, rfl⟩ rfl
  | _ =>
      cases run
      exact goes _ rfl rfl

theorem task_running (h : Running m₀ c m) (out : m.kstack = []) (stack : m.current = f :: rest)
    (run : exec block m.k f = some (k, n))
    (after : ({ m with k } : Machine).afterTask rest n = some m') (calm : Calm m') :
    m'.inTask ∨ Running m₀ c m' := by
  obtain ⟨g, mine, asked, frames⟩ := h.frames
  cases frames with
  | inl only =>
      rw [stack] at only
      cases only
      exact own_running h mine asked out stack run after
  | inr signal =>
      obtain ⟨past, go, pc, task, sigs, only⟩ := signal
      rw [stack] at only
      cases only
      exact .inr (signal_running h mine asked past go out stack run after calm)

theorem running_step (h : m.inTask ∨ Running m₀ c m)
    (step : m.step (.stmt block) = some m') (calm : Calm m') : m'.inTask ∨ Running m₀ c m' := by
  cases h with
  | inl done => simp [Machine.step, Machine.stmt, done.1, done.2] at step
  | inr running =>
      cases stepped_of_step step with
      | kernel stack run after => exact .inr (kernel_running running calm stack run after)
      | task out stack run after => exact task_running running out stack run after calm

theorem running_init (user : m₀.inTask) (balanced : Balanced c) : Running m₀ c (m₀.call c) := by
  have start (f : Frame) (mine : own c f) (forbids : f.forbids) (low : level f = 0)
      (asked : if tested f then (refused f ↔ Refused m₀.k c) else m₀.k.queue = m₀.k.queue) :
      Running m₀ c (m₀.setCurrent [f]) := by
    refine ⟨rfl, .inl user.1, ⟨f, mine, asked, .inl (by simp)⟩, ?_⟩
    rw [Machine.setCurrent_current]
    unfold Counted
    split
    · simp [low]
    · exact .inr ⟨rfl, f, rfl, forbids⟩
  cases c with
  | queueSend queue msg blocking =>
      cases balanced
      exact start _ (by simp [own]) rfl rfl rfl
  | queueRecv queue ptr blocking =>
      cases balanced
      exact start _ (by simp [own]) rfl rfl rfl
  | createQueue | destroyQueue | registerDevice | getDevice =>
      exact start _ rfl rfl rfl (by simp [tested, refused, Refused])
  | _ => cases balanced

theorem running_reached (user : m₀.inTask) (balanced : Balanced c)
    (reached : Runs.Reach Machine.step Alone (· = m₀.call c) m) :
    Calm m → m.inTask ∨ Running m₀ c m := by
  apply Runs.Reach.invariant (I := fun m => Calm m → m.inTask ∨ Running m₀ c m) _ _ reached
  · rintro m rfl -
    exact .inr (running_init user balanced)
  · intro m e m' h alone step calm
    cases e with
    | stmt block => exact running_step (h alone) step calm
    | _ => cases alone

/-- A call that returns is clean exactly if the counter was not negative and the
    operation was not refused. -/
theorem clean_iff (user : m.inTask) (balanced : Balanced c) (returned : Returns m c v k) :
    Clean m c v k ↔ 0 ≤ m.k.forbid_counter ∧ ¬ Refused m.k c := by
  obtain ⟨m', f, block, reached, out, stack, run⟩ := returned
  have calm : Calm m' := by simp [Calm, out]
  have running := (running_reached user balanced reached calm).resolve_left fun done => by
    simp [done.2] at stack
  obtain ⟨g, mine, asked, frames⟩ := running.frames
  have only : f = g := by
    cases frames with
    | inl only => simpa [stack] using only
    | inr signal =>
        obtain ⟨-, -, pc, task, sigs, only⟩ := signal
        simp [stack] at only
  subst only
  obtain ⟨past, ⟨forbids, permits⟩, held, null⟩ := exec_continued run mine
  have counter : k.forbid_counter = m'.k.forbid_counter := by
    rw [(exec_effect run).counter, library_counter (own_library mine)]
    simp [forbids, permits]
  rw [if_pos past] at asked
  have counted := running.counted
  rw [stack, ← counter] at counted
  unfold Counted at counted
  constructor
  · intro clean
    by_cases sign : 0 ≤ m.k.forbid_counter
    · rw [if_pos sign, clean.1] at counted
      refine ⟨sign, fun no => ?_⟩
      have leaks : refused f := asked.mpr no
      simp only [List.map_cons, List.map_nil, List.sum_cons, List.sum_nil, held, leaks,
        Bool.toNat_true] at counted
      omega
    · rw [if_neg sign, clean.1] at counted
      obtain raised | ⟨-, g, only, first⟩ := counted
      · omega
      · cases only
        simp [forbids] at first
  · rintro ⟨sign, go⟩
    have passed : refused f = false := by simpa [go] using asked
    rw [if_pos sign] at counted
    exact ⟨by simpa [held, passed] using counted, fun no => absurd no go⟩

/-- The kernel task with a queue of one slot at address 8. -/
def withQueue (free_slots : BitVec 32) : Machine :=
  let m := Machine.boot 4
  { m with k := { m.k with
      queue := fun _ => ⟨free_slots, 1, 1, 4⟩
      msgs := new_list (fun _ => .null) 8 } }

/-- What the call under way returns with its next statement. -/
def returning (m : Machine) : Option (Kernel × Value) :=
  match m.kstack, m.current with
  | [], [f] =>
      match exec 0 m.k f with
      | some (k, .ret v) => some (k, v)
      | _ => none
  | _, _ => none

theorem returns_of_reach (reached : Runs.Reach Machine.step Alone (· = m.call c) m')
    (h : returning m' = some (k, v)) : Returns m c v k := by
  unfold returning at h
  split at h
  · next f out stack =>
      split at h
      · next run =>
          cases h
          exact ⟨m', f, 0, reached, out, stack, run⟩
      · cases h
  · cases h

/-- A run by itself of a call on the queue ends in a return that passes a test. -/
theorem returns_of_run {p : Kernel × Value → Bool} (length : Nat)
    (meets : Runs.Meets Machine.step Alone (m.call c) (List.replicate length (.stmt 12)))
    (ends : (Runs.run Machine.step (m.call c) (List.replicate length (.stmt 12))).any
      fun m => (returning m).any p) : ∃ k v, Returns m c v k ∧ p (k, v) := by
  have start : Runs.Reach Machine.step Alone (· = m.call c) (m.call c) := .start rfl
  obtain ⟨m', -, reached, ends⟩ := start.exists_of_run meets ends
  obtain ⟨⟨k, v⟩, h, passes⟩ := (Option.any_eq_true _ _).mp ends
  exact ⟨k, v, returns_of_reach reached h, passes⟩

theorem refusal_leaks : ¬ ∀ m c v k, m.inTask → Balanced c → Returns m c v k → Clean m c v k := by
  intro clean
  have balanced : Balanced (.queueSend 8 none false) := rfl
  obtain ⟨k, v, returned, leaks⟩ := returns_of_run (m := withQueue 0)
    (c := .queueSend 8 none false) (p := fun r => r.1.forbid_counter = 1) 2 (by decide +kernel)
    (by decide +kernel)
  have clean := clean (withQueue 0) _ v k ⟨rfl, rfl⟩ balanced returned
  exact absurd (clean.1.symm.trans (of_decide_eq_true leaks)) (by decide)

theorem send_clean : ∃ k v, Clean (withQueue 1) (.queueSend 8 none false) v k := by
  have balanced : Balanced (.queueSend 8 none false) := rfl
  obtain ⟨k, v, returned, -⟩ := returns_of_run (m := withQueue 1)
    (c := .queueSend 8 none false) (p := fun _ => true) 18 (by decide +kernel) (by decide +kernel)
  have passes : ¬ Refused (withQueue 1).k (.queueSend 8 none false) := fun no => no (by decide)
  exact ⟨k, v, (clean_iff ⟨rfl, rfl⟩ balanced returned).mpr ⟨Int.le_refl 0, passes⟩⟩

end Balance

end Krypton
