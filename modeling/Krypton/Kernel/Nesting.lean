import Krypton.Kernel.Steps

/-! # Nested handlers

The handlers on the kernel stack. `k_reenter` counts those that have entered and
not left, and `switch_tasks` runs only for one that is counted alone; this holds
in every state, wherever interrupts arrive.
-/

namespace Krypton

section Delivery

@[simp, grind =] theorem deliver_fn (v : Value) (f : Frame) : (f.deliver v).fn = f.fn := by
  unfold Frame.deliver
  split <;> rfl

@[simp, grind =] theorem deliver_isEntry (v : Value) (f : Frame) :
    (f.deliver v).isEntry = f.isEntry := by
  simp [Frame.isEntry]

@[simp, grind =] theorem deliver_isSwitch (v : Value) (f : Frame) :
    (f.deliver v).isSwitch = f.isSwitch := by
  simp [Frame.isSwitch]

@[simp, grind =] theorem deliver_active (v : Value) (f : Frame) :
    (f.deliver v).active = f.active := by
  unfold Frame.deliver
  split <;> rfl

@[simp, grind =] theorem deliver_closed (v : Value) (f : Frame) :
    (f.deliver v).closed = f.closed := by
  unfold Frame.deliver
  split <;> rfl

@[simp, grind =] theorem deliver_leaving (v : Value) (f : Frame) :
    (f.deliver v).leaving = f.leaving := by
  unfold Frame.deliver
  split <;> rfl

@[simp, grind =] theorem deliver_untested (v : Value) (f : Frame) :
    (f.deliver v).untested = f.untested := by
  unfold Frame.deliver
  split <;> rfl

@[simp, grind =] theorem deliver_holds (v : Value) (f : Frame) : (f.deliver v).holds = f.holds := by
  unfold Frame.deliver
  split <;> rfl

@[simp, grind =] theorem deliver_lowers (v : Value) (f : Frame) :
    (f.deliver v).lowers = f.lowers := by
  unfold Frame.deliver
  split <;> rfl

theorem deliver_context (v : Value) (f : Frame) (h : ∀ c, v ≠ .context c) :
    (f.deliver v).context = f.context := by
  unfold Frame.deliver
  split <;> grind

@[simp, grind =] theorem wake_fn (f : Frame) : f.wake.fn = f.fn := by
  unfold Frame.wake
  split <;> rfl

@[simp, grind =] theorem wake_isEntry (f : Frame) : f.wake.isEntry = f.isEntry := by
  simp [Frame.isEntry]

@[simp, grind =] theorem wake_isSwitch (f : Frame) : f.wake.isSwitch = f.isSwitch := by
  simp [Frame.isSwitch]

@[simp, grind =] theorem wake_active (f : Frame) : f.wake.active = f.active := by
  unfold Frame.wake
  split <;> rfl

@[simp, grind =] theorem wake_closed (f : Frame) : f.wake.closed = f.closed := by
  unfold Frame.wake
  split <;> rfl

@[simp, grind =] theorem wake_leaving (f : Frame) : f.wake.leaving = f.leaving := by
  unfold Frame.wake
  split <;> rfl

@[simp, grind =] theorem wake_untested (f : Frame) : f.wake.untested = f.untested := by
  unfold Frame.wake
  split <;> rfl

@[simp, grind =] theorem wake_holds (f : Frame) : f.wake.holds = f.holds := by
  unfold Frame.wake
  split <;> rfl

@[simp, grind =] theorem wake_lowers (f : Frame) : f.wake.lowers = f.lowers := by
  unfold Frame.wake
  split <;> rfl

@[simp, grind =] theorem wake_context (f : Frame) : f.wake.context = f.context := by
  unfold Frame.wake
  split <;> rfl

theorem deliver_unacked (v : Value) (f : Frame) : (f.deliver v).unacked = f.unacked := by
  unfold Frame.deliver
  split <;> first | rfl | (next pc n _ => cases pc <;> rfl)

theorem wake_unacked (f : Frame) : f.wake.unacked = f.unacked := by
  unfold Frame.wake
  split <;> rfl

end Delivery

/-- The steps of the machine. -/
inductive Stepped (m : Machine) : Event → Machine → Prop where
  | kernel (stack : m.kstack = f :: rest) (run : exec block m.k f = some (k, n))
      (after : ({ m with k } : Machine).afterKernel rest n = some m') : Stepped m (.stmt block) m'
  | task (out : m.kstack = []) (stack : m.current = f :: rest)
      (run : exec block m.k f = some (k, n))
      (after : ({ m with k } : Machine).afterTask rest n = some m') : Stepped m (.stmt block) m'
  | irq (on : m.k.intr) (unmasked : ¬ m.masks n) : Stepped m (.irq n)
      (({ m with kstack := m.kstack.modifyHead .wake } : Machine).enter (.irq .enter n))
  | call (user : m.inTask) (c : Call) : Stepped m (.call c) (m.call c)
  | compute (user : m.inTask) (others : Nat) :
      Stepped m (.compute others) { m with regs := { m.regs with others } }
  | store (user : m.inTask) (dest : Ptr32 × Nat) (byte : BitVec 8) :
      Stepped m (.store dest byte) { m with k := m.k.store dest byte }
  | keybd (user : m.inTask) (queue : Ptr32) :
      Stepped m (.keybd queue) { m with k := { m.k with keybd_queue := queue } }

variable {m m' : Machine} {e : Event} {f : Frame} {fs rest : List Frame} {v : Value} {k k' : Kernel}
variable {n : Next} {block : Ptr32}

theorem stepped_of_step (h : m.step e = some m') : Stepped m e m' := by
  cases e with
  | stmt block =>
      simp only [Machine.step, Machine.stmt] at h
      split at h
      · obtain ⟨⟨k, n⟩, run, after⟩ := Option.bind_eq_some_iff.mp h
        exact .kernel ‹_› run after
      · obtain ⟨⟨k, n⟩, run, after⟩ := Option.bind_eq_some_iff.mp h
        exact .task ‹_› ‹_› run after
      · cases h
  | irq n =>
      simp only [Machine.step, Machine.irq] at h
      split at h
      · next open_ =>
          cases h
          exact .irq open_.1 open_.2
      · cases h
  | call c =>
      simp only [Machine.step] at h
      split at h
      · cases h
        exact .call ‹_› c
      · cases h
  | compute others =>
      simp only [Machine.step] at h
      split at h
      · cases h
        exact .compute ‹_› others
      · cases h
  | store dest byte =>
      simp only [Machine.step] at h
      split at h
      · cases h
        exact .store ‹_› dest byte
      · cases h
  | keybd queue =>
      simp only [Machine.step] at h
      split at h
      · cases h
        exact .keybd ‹_› queue
      · cases h

/-- What lies below each frame of the kernel stack. -/
def Shape : List Frame → Prop
  | [] => True
  | f :: rest =>
      (f.isSwitch → ∃ e fs, rest = e :: fs ∧ e.active ∧ fs.countP Frame.active = 0) ∧
      (∀ regs, f.context = some (.user regs) → rest.countP Frame.active = 0) ∧ Shape rest

/-- A change of the top frame that a count does not see. -/
theorem countP_modifyHead {p : Frame → Bool} {g : Frame → Frame} (same : ∀ f, p (g f) = p f)
    (fs : List Frame) : (fs.modifyHead g).countP p = fs.countP p := by
  cases fs <;> simp [List.countP_cons, same]

theorem Shape.wake (h : Shape fs) : Shape (fs.modifyHead .wake) := by
  cases fs with
  | nil => trivial
  | cons f fs => exact ⟨by simpa using h.1, by simpa using h.2.1, h.2.2⟩

/-- A value other than registers leaves the shape alone. -/
theorem Shape.deliver (h : Shape fs) (plain : ∀ c, v ≠ .context c) :
    Shape (fs.modifyHead (.deliver v)) := by
  cases fs with
  | nil => trivial
  | cons f fs =>
      refine ⟨by simpa using h.1, ?_, h.2.2⟩
      simpa [deliver_context v f plain] using h.2.1

/-- A frame that a task can have: neither a handler nor `switch_tasks`. -/
@[grind] def Frame.library (f : Frame) : Bool := !f.isEntry && !f.isSwitch

structure Nested (m : Machine) : Prop where
  library : ∀ t, ∀ f ∈ m.ustack t, f.library
  reenter : m.k.k_reenter + 1 = m.kstack.countP Frame.active
  shape : Shape m.kstack

/-- The CPU is in the code of a task, outside all handlers. -/
structure Outside (m : Machine) : Prop where
  kstack : m.kstack = []
  reenter : m.k.k_reenter = -1
  library : ∀ t, ∀ f ∈ m.ustack t, f.library

theorem Outside.nested (h : Outside m) : Nested m :=
  ⟨h.library, by simp [h.kstack, h.reenter], by simp [h.kstack, Shape]⟩

theorem boot_outside (kernel_task : Ptr32) : Outside (.boot kernel_task) :=
  ⟨rfl, rfl, fun _ _ none => nomatch none⟩

theorem library_counter (h : f.library) (forbid_counter : Int) :
    f.counter forbid_counter = if f.forbids then forbid_counter + 1 else
      if f.lowers then forbid_counter - 1 else forbid_counter := by
  cases f with
  | trap => cases h
  | _ => rfl

theorem enter_nested (h : Nested m) {f : Context → Frame}
    (fresh : ∀ c, (f c).isSwitch = false ∧ (f c).active = false ∧ (f c).context = some c) :
    Nested (m.enter f) := by
  obtain ⟨library, reenter, shape⟩ := h
  unfold Machine.enter
  split
  · next empty =>
      constructor
      · exact library
      · simpa [empty, fresh] using reenter
      · simp [Shape, fresh]
  · next fs _ =>
      constructor
      · exact library
      · simpa [fresh] using reenter
      · simp [Shape, fresh, shape]

/-- The handler that tests `sched_state` and gets a switch is the only active one. -/
theorem switch_alone (h : Nested m) (stack : m.kstack = f :: rest) (active : f.active)
    (low : m.k.k_reenter ≤ 0) : rest.countP Frame.active = 0 := by
  have reenter := h.reenter
  simp [stack, active] at reenter
  omega

theorem calls_plain {f g : Frame} (h : f.calls g) :
    g.active = false ∧ g.context = none ∧ g.isEntry = false := by
  cases f <;> cases g <;>
    simp_all [Frame.calls, Frame.active, Frame.context, Frame.isEntry, Frame.fn]

theorem plain_context (h : f.isEntry = false) : f.context = none := by
  cases f <;> simp_all [Frame.isEntry, Frame.fn, Frame.context]

theorem plain_active (h : f.isEntry = false) : f.active = false := by
  cases f <;> simp_all [Frame.isEntry, Frame.fn, Frame.active]

theorem active_entry (h : f.active) : f.isEntry := by
  cases entry : f.isEntry with
  | true => rfl
  | false => simp [plain_active entry] at h

theorem same_isEntry {f' : Frame} (same : f'.fn = f.fn) : f'.isEntry = f.isEntry := by
  simp only [Frame.isEntry, same]

theorem same_isSwitch {f' : Frame} (same : f'.fn = f.fn) : f'.isSwitch = f.isSwitch := by
  simp only [Frame.isSwitch, same]

theorem traps_plain (h : f.traps) : f.isEntry = false ∧ f.isSwitch = false := by
  cases f <;> simp_all [Frame.traps, Frame.isEntry, Frame.isSwitch, Frame.fn]

/-- A frame that makes a system call is neither a handler nor `switch_tasks`. -/
theorem int_plain {f' : Frame} {call : SysCall} (belongs : (Next.int f' call).From f) :
    f.isEntry = false ∧ f'.isEntry = false ∧ f'.isSwitch = false := by
  obtain ⟨same, traps⟩ := belongs
  obtain ⟨entry, switch⟩ := traps_plain traps
  exact ⟨entry, (same_isEntry same).trans entry, (same_isSwitch same).trans switch⟩

theorem entry_plain (h : f.isEntry) : f.isSwitch = false := by
  cases f <;> simp_all [Frame.isEntry, Frame.isSwitch, Frame.fn]

theorem tests_active (h : f.tests) : f.active := by
  cases f with
  | trap pc | irq pc => cases pc <;> simp_all [Frame.tests, Frame.active]
  | _ => cases h

theorem setCurrent_frames {P : Frame → Prop} (old : ∀ t, ∀ f ∈ m.ustack t, P f)
    (new : ∀ f ∈ fs, P f) : ∀ t, ∀ f ∈ (m.setCurrent fs).ustack t, P f := by
  intro t f mem
  by_cases here : t = m.regs.stack
  · subst here
    exact new f (by simpa [Machine.setCurrent] using mem)
  · exact old t f (by simpa [Machine.setCurrent, here] using mem)

theorem modifyHead_frames {P : Frame → Prop} {g : Frame → Frame} (keeps : ∀ f, P f → P (g f))
    (h : ∀ f ∈ fs, P f) : ∀ f ∈ fs.modifyHead g, P f := by
  cases fs with
  | nil => simp
  | cons f fs => simp_all

theorem library_deliver (f : Frame) (h : f.library) : (f.deliver v).library := by
  simpa [Frame.library] using h

theorem kernel_nested (h : Nested m) (stack : m.kstack = f :: rest)
    (run : exec block m.k f = some (k, n))
    (after : ({ m with k } : Machine).afterKernel rest n = some m') : Nested m' := by
  have eff := exec_effect run
  have alone := switch_alone h stack
  obtain ⟨library, reenter, shape⟩ := h
  have reenter' := eff.reenter
  have belongs := eff.next
  rw [stack] at reenter shape
  cases n with
  | goto f' =>
      cases after
      exact ⟨library, by grind, by grind [Shape], by grind [Shape], shape.2.2⟩
  | call f' g =>
      cases after
      have plain := calls_plain belongs.2.2.1
      refine ⟨library, by grind, ?_, ?_, ?_⟩
      · intro switch
        obtain ⟨tests, -, -, -, low⟩ := eff.switch f' g rfl switch
        have active := tests_active tests
        exact ⟨f', rest, rfl, belongs.2.2.2 (active_entry active), alone active low⟩
      · simp [plain.2.1]
      · exact ⟨by grind [Shape], by grind [Shape], shape.2.2⟩
  | int f' call =>
      cases after
      apply enter_nested
      · have outside := plain_context (int_plain belongs).2.1
        exact ⟨library, by grind, by grind [Shape], by simp [outside], shape.2.2⟩
      · intro c
        exact ⟨rfl, rfl, rfl⟩
  | write f' block =>
      cases rest with
      | nil =>
          cases after
          have delivered := modifyHead_frames (g := .deliver (.ptr (some block)))
            library_deliver (library m.regs.stack)
          refine ⟨setCurrent_frames library delivered, by grind, ?_, ?_, shape.2.2⟩
          · grind [Shape]
          · grind [Shape]
      | cons g rest =>
          cases after
          have plain : ∀ c, Value.ptr (some block) ≠ .context c := by simp
          have below := Shape.deliver shape.2.2 plain
          refine ⟨library, by grind, by grind [Shape], ?_, below⟩
          grind [Shape]
  | ret v =>
      cases after
      have plain := plain_active belongs.1
      refine ⟨library, ?_, ?_⟩
      · have same := countP_modifyHead (deliver_active v) rest
        grind
      · by_cases registers : ∃ c, v = .context c
        · obtain ⟨c, rfl⟩ := registers
          obtain ⟨e, fs, rfl, -, alone⟩ := shape.1 (belongs.2 _ rfl)
          exact ⟨by grind [Shape], fun _ _ => alone, shape.2.2.2.2⟩
        · exact Shape.deliver shape.2.2 (by grind)
  | iret regs =>
      cases regs with
      | user regs =>
          cases after
          have bottom := shape.2.1 regs belongs.1
          exact ⟨library, by grind, trivial⟩
      | kernel intr =>
          simp only [Machine.afterKernel, Machine.iret] at after
          split at after
          · cases after
          · cases after
            exact ⟨library, by grind, shape.2.2⟩

theorem calls_library {g : Frame} (plain : f.library) (h : f.calls g) : g.library := by
  cases f <;> cases g <;> simp_all [Frame.calls, Frame.library, Frame.isEntry, Frame.isSwitch,
      Frame.fn]

/-- A library function leaves frames of library functions. -/
theorem library_frames (plain : f.library) (run : exec block k f = some (k', n)) :
    ∀ g ∈ n.frames, g.library := by
  have belongs := (exec_effect run).next
  cases n with
  | call f' g =>
      have callee := calls_library plain belongs.2.2.1
      have same : f'.library := by
        simpa [Frame.library, Frame.isEntry, Frame.isSwitch, belongs.1] using plain
      simp [Next.frames, callee, same]
  | _ => grind

theorem library_reenter (plain : f.library) (run : exec block k f = some (k', n)) :
    k'.k_reenter = k.k_reenter := by
  have eff := (exec_effect run).reenter
  have idle : n.frames.countP Frame.active = 0 := by
    apply List.countP_eq_zero.mpr
    intro g mem
    have outside := plain_active (f := g) (by grind [library_frames plain run g mem])
    simp [outside]
  have outside := plain_active (f := f) (by grind)
  simp only [outside, idle, Bool.toInt_false] at eff
  omega

theorem task_nested (h : Nested m) (stack : m.current = f :: rest)
    (run : exec block m.k f = some (k, n))
    (after : ({ m with k } : Machine).afterTask rest n = some m') : Nested m' := by
  obtain ⟨library, reenter, shape⟩ := h
  have mine : ∀ g ∈ f :: rest, g.library := stack ▸ library m.regs.stack
  have first := mine f List.mem_cons_self
  have below := fun g mem => mine g (List.mem_cons_of_mem f mem)
  have reenter' : k.k_reenter + 1 = m.kstack.countP Frame.active :=
    library_reenter first run ▸ reenter
  have frames := library_frames first run
  cases n with
  | goto f' =>
      cases after
      have new : ∀ g ∈ f' :: rest, g.library := by grind
      exact ⟨setCurrent_frames library new, reenter', shape⟩
  | call f' g =>
      cases after
      have new : ∀ h ∈ g :: f' :: rest, h.library := by grind
      exact ⟨setCurrent_frames library new, reenter', shape⟩
  | int f' call =>
      cases after
      apply enter_nested
      · have new : ∀ g ∈ f' :: rest, g.library := by grind
        exact ⟨setCurrent_frames library new, reenter', shape⟩
      · intro c
        exact ⟨rfl, rfl, rfl⟩
  | write f' block => cases after
  | ret v =>
      cases after
      have new := modifyHead_frames (g := .deliver v) library_deliver below
      exact ⟨setCurrent_frames library new, reenter', shape⟩
  | iret regs => cases after

theorem call_nested (h : Nested m) (c : Call) : Nested (m.call c) := by
  have push (f : Frame) (plain : f.library) : Nested (m.setCurrent [f]) := by
    have new : ∀ g ∈ [f], g.library := by simpa using plain
    exact ⟨setCurrent_frames h.library new, h.reenter, h.shape⟩
  cases c with
  | forbid => exact ⟨h.library, h.reenter, h.shape⟩
  | yield => exact enter_nested h fun c => ⟨rfl, rfl, rfl⟩
  | _ => exact push _ rfl

/-- What holds of the handlers survives every step. -/
theorem nested_step (h : Nested m) (step : m.step e = some m') : Nested m' := by
  cases stepped_of_step step with
  | kernel stack run after => exact kernel_nested h stack run after
  | task out stack run after => exact task_nested h stack run after
  | irq on unmasked =>
      apply enter_nested
      · obtain ⟨library, reenter, shape⟩ := h
        have same := countP_modifyHead wake_active m.kstack
        exact ⟨library, by grind, shape.wake⟩
      · intro c
        exact ⟨rfl, rfl, rfl⟩
  | call user c => exact call_nested h c
  | compute user others => exact ⟨h.library, h.reenter, h.shape⟩
  | store user dest byte => exact ⟨h.library, h.reenter, h.shape⟩
  | keybd user queue => exact ⟨h.library, h.reenter, h.shape⟩

/-- What follows a statement changes nothing in the kernel but the interrupt flag. -/
theorem afterKernel_k (after : m.afterKernel rest n = some m') :
    ∃ intr, m'.k = { m.k with intr := intr } := by
  cases n with
  | write f b => cases rest <;> cases after <;> exact ⟨_, rfl⟩
  | iret regs =>
      cases regs with
      | user regs =>
          cases after
          exact ⟨_, rfl⟩
      | kernel intr =>
          simp only [Machine.afterKernel, Machine.iret] at after
          split at after
          · cases after
          · cases after
            exact ⟨_, rfl⟩
  | _ =>
      cases after
      exact ⟨_, rfl⟩

section Below

variable {P : Frame → Prop} {p : Frame → Bool}

/-- What holds of all frames on the kernel stack, when the frames put there satisfy it. -/
theorem kernel_frames (delivered : ∀ v f, (∀ c, v = .context c → n = .ret v) → P f →
    P (f.deliver v))
    (old : ∀ f ∈ rest, P f) (new : ∀ f ∈ n.frames, P f)
    (trapped : ∀ f' call intr, n = .int f' call → P (.trap .enter call (.kernel intr)))
    (after : m.afterKernel rest n = some m') : ∀ f ∈ m'.kstack, P f := by
  cases n with
  | goto f' | call f' g =>
      cases after
      simp only [Next.frames] at new
      grind
  | int f' call =>
      cases after
      have trap := trapped f' call m.k.intr rfl
      have first := new f' List.mem_cons_self
      simpa [Machine.enter] using ⟨trap, first, old⟩
  | write f' block =>
      have first := new f' List.mem_cons_self
      cases rest with
      | nil =>
          cases after
          simpa using first
      | cons g rest =>
          cases after
          have second := delivered (.ptr (some block)) g (by simp) (old g List.mem_cons_self)
          simpa using ⟨first, second, fun h mem => old h (List.mem_cons_of_mem g mem)⟩
  | ret v =>
      cases after
      exact modifyHead_frames (fun f => delivered v f fun c same => by rw [same]) old
  | iret regs =>
      cases regs with
      | user regs =>
          cases after
          simp
      | kernel intr =>
          simp only [Machine.afterKernel, Machine.iret] at after
          split at after
          · cases after
          · cases after
            exact old

/-- A count on the kernel stack, when a new trap is not counted. -/
theorem kernel_countP (delivered : ∀ v f, p (f.deliver v) = p f)
    (trapped : ∀ call c, p (.trap .enter call c) = false)
    (after : m.afterKernel rest n = some m') :
    m'.kstack.countP p ≤ n.frames.countP p + rest.countP p := by
  cases n with
  | goto f' | call f' g =>
      cases after
      simp [Next.frames, List.countP_cons]
      omega
  | int f' call =>
      cases after
      simp [Next.frames, List.countP_cons, Machine.enter, trapped]
      omega
  | write f' block =>
      cases rest <;> cases after <;> simp [Next.frames, List.countP_cons, delivered]
      omega
  | ret v =>
      cases after
      simp [Next.frames, countP_modifyHead (delivered v) rest]
  | iret regs =>
      cases regs with
      | user regs =>
          cases after
          simp
      | kernel intr =>
          simp only [Machine.afterKernel, Machine.iret] at after
          split at after
          · cases after
          · cases after
            simp [Next.frames]

/-- What holds of all frames below the top one, when the frames put there satisfy it. -/
theorem kernel_below (delivered : ∀ v f, P f → P (f.deliver v)) (old : ∀ f ∈ rest, P f)
    (called : ∀ f' g, n = .call f' g → P f') (trapped : ∀ f' c, n = .int f' c → P f')
    (after : m.afterKernel rest n = some m') : ∀ f ∈ m'.kstack.tail, P f := by
  cases n with
  | goto f' =>
      cases after
      exact old
  | call f' g =>
      cases after
      simpa using ⟨called f' g rfl, old⟩
  | int f' call =>
      cases after
      simpa [Machine.enter] using ⟨trapped f' call rfl, old⟩
  | write f' block =>
      cases rest with
      | nil =>
          cases after
          simp
      | cons g rest =>
          cases after
          have first := delivered (.ptr (some block)) g (old g List.mem_cons_self)
          simpa [first] using fun h mem => old h (List.mem_cons_of_mem g mem)
  | ret v =>
      cases after
      cases rest with
      | nil => simp
      | cons g rest => exact fun h mem => old h (List.mem_cons_of_mem g mem)
  | iret regs =>
      cases regs with
      | user regs =>
          cases after
          simp
      | kernel intr =>
          simp only [Machine.afterKernel, Machine.iret] at after
          split at after
          · cases after
          · cases after
            exact fun h mem => old h (List.mem_of_mem_tail mem)

/-- The frames that a statement of a task leaves on its stack. -/
def Next.leave (rest : List Frame) : Next → List Frame
  | .goto f | .int f _ | .write f _ => f :: rest
  | .call f callee => callee :: f :: rest
  | .ret v => rest.modifyHead (.deliver v)
  | .iret _ => rest

/-- What follows a statement of a task. -/
theorem afterTask_spec (out : m.kstack = [])
    (after : ({ m with k } : Machine).afterTask rest n = some m') :
    m'.ustack = Function.update m.ustack m.regs.stack (n.leave rest) ∧ m'.regs = m.regs ∧
      (∃ intr, m'.k = { k with intr := intr }) ∧
      (m'.kstack = [] ∨ ∃ call c, m'.kstack = [.trap .enter call c]) := by
  cases n with
  | int f' call =>
      cases after
      simp [Machine.enter, out, Machine.setCurrent, Next.leave]
  | write f' b => cases after
  | iret regs => cases after
  | _ =>
      cases after
      exact ⟨rfl, rfl, ⟨_, rfl⟩, .inl out⟩

/-- The statements of a task leave nothing below the top frame. -/
theorem task_below (out : m.kstack = [])
    (after : ({ m with k } : Machine).afterTask rest n = some m') :
    m'.kstack.tail = [] := by
  cases n <;> cases after <;> simp [Machine.enter, out]

theorem enter_below {f : Context → Frame} (all : ∀ g ∈ m.kstack, P g) :
    ∀ g ∈ (m.enter f).kstack.tail, P g := by
  unfold Machine.enter
  split
  · simp
  · next fs same => simpa using all

end Below

/-- Interrupts are off at the statements where they must be, and those are not left
    below other frames. -/
structure Masked (m : Machine) : Prop where
  off : ∀ f ∈ m.kstack.head?, f.closed → m.k.intr = false
  below : ∀ f ∈ m.kstack.tail, f.closed = false

theorem Outside.masked (h : Outside m) : Masked m :=
  ⟨by simp [h.kstack], by simp [h.kstack]⟩

theorem plain_closed {f' : Frame} {c : SysCall} (h : (Next.int f' c).From f) :
    f'.closed = false := by
  cases f <;> cases f' <;> simp_all [Next.From, Frame.fn, Frame.traps, Frame.closed]

/-- The frame on top of the kernel stack after a statement. -/
theorem kernel_top (run : exec block k f = some (k', n)) (off : f.closed → k.intr = false)
    (old : ∀ f ∈ rest, f.closed = false)
    (after : ({ m with k := k' } : Machine).afterKernel rest n = some m') :
    ∀ g ∈ m'.kstack.head?, g.closed → m'.k.intr = false := by
  have fresh := (exec_effect run).closed off
  cases n with
  | goto f' | call f' g =>
      cases after
      simp [Next.frames] at fresh
      grind
  | write f' block =>
      simp [Next.frames] at fresh
      cases rest <;> cases after <;> grind
  | int f' call =>
      cases after
      exact fun _ _ _ => rfl
  | ret v =>
      cases after
      cases rest with
      | nil => simp
      | cons g rest =>
          have first := old g List.mem_cons_self
          grind
  | iret regs =>
      cases regs with
      | user regs =>
          cases after
          intro g mem
          cases mem
      | kernel intr =>
          simp only [Machine.afterKernel, Machine.iret] at after
          split at after
          · cases after
          · cases after
            cases rest <;> grind

theorem enter_off (m : Machine) (f : Context → Frame) : (m.enter f).k.intr = false := by
  unfold Machine.enter
  split <;> rfl

theorem masked_enter (f : Context → Frame) (all : ∀ g ∈ m.kstack, g.closed = false) :
    Masked (m.enter f) :=
  ⟨fun _ _ _ => enter_off m f, enter_below all⟩

theorem task_top (out : m.kstack = [])
    (after : ({ m with k } : Machine).afterTask rest n = some m') :
    m'.kstack ≠ [] → m'.k.intr = false := by
  cases n <;> cases after <;> simp [Machine.enter, out]

theorem masked_step (h : Masked m) (step : m.step e = some m') : Masked m' := by
  cases stepped_of_step step with
  | kernel stack run after =>
      obtain ⟨off, below⟩ := h
      rw [stack] at off below
      refine ⟨kernel_top run (off _ rfl) below after, ?_⟩
      apply kernel_below (fun v f h => by simpa using h) below _ _ after
      · rintro f' g rfl
        have fresh := List.countP_eq_zero.mp (exec_effect run).opened
        simpa using fresh f' (by simp [Next.frames])
      · rintro f' c rfl
        exact plain_closed (exec_effect run).next
  | task out stack run after =>
      constructor
      · intro f mem _
        apply task_top out after
        grind
      · simp [task_below out after]
  | irq on unmasked =>
      apply masked_enter
      refine modifyHead_frames (P := fun f => f.closed = false) (by simp) ?_
      intro f mem
      have off := h.off
      have below := h.below
      cases fs : m.kstack with
      | nil => simp [fs] at mem
      | cons g rest =>
          rw [fs] at mem off below
          have first := off g rfl
          grind
  | call user c =>
      cases c with
      | yield => exact masked_enter _ (by simp [user.1])
      | _ => exact ⟨h.off, h.below⟩
  | compute user others => exact ⟨h.off, h.below⟩
  | store user dest byte => exact ⟨h.off, h.below⟩
  | keybd user queue => exact ⟨h.off, h.below⟩

end Krypton
