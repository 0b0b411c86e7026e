import Krypton.Kernel.Nesting
import Mathlib.Data.List.Chain

/-! # Entering the idle loop

`irq_handler` sends its end-of-interrupt after it has switched tasks. The idle
loop of that switch runs with the interrupt unacknowledged, unless a task is
ready whenever a hardware interrupt ends in a switch.
-/

namespace Krypton

open LinkStore

/-- At the `hlt`, every `irq_handler` on the kernel stack has sent its end-of-interrupt. -/
def Acked (m : Machine) : Prop :=
  ∀ cpu_context next_task rest, m.kstack = .switchTasks .hlt cpu_context next_task :: rest →
    ∀ f ∈ rest, f.unacked = none

/-- `schedule` leaves a task in `tasks_ready`. -/
def Kernel.serves (k : Kernel) : Bool :=
  let queued :=
    if (k.task k.running_task).ready then k.enqueueTask .tasks_ready k.running_task else some k
  queued.all fun k => get_head k.links .tasks_ready ≠ some .null

/-- A hardware interrupt that ends in a switch finds a task to switch to. -/
def Served (m : Machine) (e : Event) : Prop :=
  match e, m.kstack with
  | .stmt _, .irq .sched .. :: _ =>
      m.k.need → m.k.forbid_counter ≤ 0 → m.k.k_reenter ≤ 0 → m.k.serves
  | _, _ => True

/-- The statement is the test of `sched_state` in `irq_handler`. -/
def testing : Event → List Frame → Bool
  | .stmt _, .irq .sched .. :: _ => true
  | _, _ => false

theorem served_iff (m : Machine) (e : Event) :
    (testing e m.kstack → m.k.need → m.k.forbid_counter ≤ 0 → m.k.k_reenter ≤ 0 → m.k.serves) ↔
      Served m e := by
  unfold Served testing
  split <;> simp

instance (m : Machine) (e : Event) : Decidable (Served m e) :=
  decidable_of_iff _ (served_iff m e)

/-- The frame is `switch_tasks`, called by an unacknowledged `irq_handler`. -/
def Owes (f g : Frame) : Prop := f.isSwitch ∧ g.unacked.isSome

/-- Where the switch of an unacknowledged interrupt may stand. -/
def Dispatching (k : Kernel) : Frame → Prop
  | .switchTasks pc .. =>
      match pc with
      | .save | .test => get_head k.links .tasks_ready ≠ some .null
      | .enable | .hlt | .halted => False
      | .remove | .setRunning | .setRun | .restore => True
  | _ => True

structure Prompt (m : Machine) : Prop where
  nested : Nested m
  masked : Masked m
  top : ∀ f g rest, m.kstack = f :: g :: rest → Owes f g → m.k.intr = false ∧ Dispatching m.k f
  below : m.kstack.tail.IsChain fun f g => ¬ Owes f g

variable {m m' : Machine} {e : Event} {f g : Frame} {fs rest : List Frame} {k k' : Kernel}
variable {n : Next} {block : Ptr32}

theorem unacked_active (h : f.unacked.isSome) : f.active ∨ f.closed := by
  cases f with
  | irq pc => cases pc <;> simp_all [Frame.unacked, Frame.active, Frame.closed]
  | _ => cases h

/-- A chain is a matter of its top frame and of the rest. -/
theorem chain_modifyHead {R : Frame → Frame → Prop} {g : Frame → Frame}
    (same : ∀ f h, R f h → R (g f) h) (h : fs.IsChain R) : (fs.modifyHead g).IsChain R := by
  cases fs with
  | nil => exact h
  | cons f rest =>
      cases rest with
      | nil => exact .singleton _
      | cons h' rest =>
          rw [List.isChain_cons_cons] at h
          exact List.isChain_cons_cons.mpr ⟨same f h' h.1, h.2⟩

theorem owes_deliver (v : Value) (h : ¬ Owes f g) : ¬ Owes (f.deliver v) g := by
  simpa [Owes] using h

theorem owes_wake (h : ¬ Owes f g) : ¬ Owes f.wake g := by
  simpa [Owes] using h

theorem plain_owes (h : f.isSwitch = false) (g : Frame) : ¬ Owes f g := by
  simp [Owes, h]

/-- Below the top frame of a stack without owing switches there is none either. -/
theorem chain_pop {R : Frame → Frame → Prop} (h : fs.IsChain R) :
    (∀ f g rest, fs = f :: g :: rest → R f g) ∧ fs.tail.IsChain R := by
  cases fs with
  | nil => exact ⟨by simp, h⟩
  | cons f rest =>
      cases rest with
      | nil => exact ⟨by simp, .nil⟩
      | cons g rest =>
          rw [List.isChain_cons_cons] at h
          exact ⟨by grind, h.2⟩

theorem chain_push {R : Frame → Frame → Prop} (first : ∀ g, R f g) (h : rest.IsChain R) :
    (f :: rest).IsChain R :=
  List.isChain_cons.mpr ⟨fun g _ => first g, h⟩

theorem Prompt.acked (h : Prompt m) : Acked m := by
  intro cpu_context next_task rest stack f mem
  have shape := h.nested.shape
  rw [stack] at shape
  obtain ⟨g, fs, rfl, -, alone⟩ := shape.1 rfl
  cases mem with
  | head =>
      by_contra unacked
      have owes : Owes (.switchTasks .hlt cpu_context next_task) f :=
        ⟨rfl, Option.isSome_iff_ne_none.mpr unacked⟩
      exact (h.top _ _ _ stack owes).2
  | tail _ mem =>
      by_contra unacked
      have inner : f ∈ m.kstack.tail := by
        rw [stack]
        exact List.mem_cons_of_mem _ mem
      have closed := h.masked.below f inner
      have inactive := List.countP_eq_zero.mp alone f mem
      have raised := unacked_active (Option.isSome_iff_ne_none.mpr unacked)
      simp_all

/-- The switch of an unacknowledged interrupt goes on with interrupts off. -/
theorem dispatching_goto {f' : Frame} (run : exec block k f = some (k', .goto f'))
    (switch : f.isSwitch) (off : k.intr = false) (stands : Dispatching k f) :
    k'.intr = false ∧ Dispatching k' f' := by
  cases f with
  | switchTasks pc cpu_context next_task =>
      cases pc with
      | save =>
          cases run
          exact ⟨off, stands⟩
      | test =>
          simp only [exec, execSwitch] at run
          split at run
          · exact absurd ‹_› stands
          · cases run
            exact ⟨off, trivial⟩
          · cases run
      | remove =>
          obtain ⟨k₁, removed, same⟩ := Option.bind_eq_some_iff.mp run
          obtain ⟨links, -, same₁⟩ := Option.bind_eq_some_iff.mp removed
          cases same
          cases same₁
          exact ⟨off, trivial⟩
      | setRunning =>
          simp only [exec, execSwitch] at run
          split at run
          · split at run <;> cases run
            exact ⟨off, trivial⟩
          · cases run
            exact ⟨off, trivial⟩
      | setRun =>
          cases run
          exact ⟨off, trivial⟩
      | restore => grind [execSwitch]
      | enable | hlt | halted => cases stands
  | _ => cases switch

theorem calls_plain_caller (h : f.calls g) : f.isSwitch = false := by
  cases f with
  | switchTasks => cases h
  | _ => rfl

theorem schedule_serves (serves : k.serves) (h : k.schedule = some (k', true)) :
    k'.intr = k.intr ∧ get_head k'.links .tasks_ready ≠ some .null := by
  unfold Kernel.schedule at h
  split at h
  · cases h
  · unfold Kernel.serves at serves
    simp only at h
    split at h
    · next ready =>
        obtain ⟨k₁, queued, same⟩ := Option.bind_eq_some_iff.mp h
        obtain ⟨links, linked, same₁⟩ := Option.bind_eq_some_iff.mp queued
        cases same
        cases same₁
        have linked : enqueue k.pri (2 ^ 32) k.links .tasks_ready k.running_task = some links :=
          linked
        rw [if_pos ready] at serves
        simp only [Kernel.enqueueTask, linked, Option.all] at serves
        exact ⟨rfl, of_decide_eq_true serves⟩
    · next blocked =>
        cases h
        rw [if_neg blocked] at serves
        exact ⟨rfl, of_decide_eq_true serves⟩

/-- The test of `sched_state` calls `switch_tasks` with a task in `tasks_ready`. -/
theorem dispatching_call {f' g : Frame} (off : f.closed → k.intr = false)
    (served : ∀ n regs, f = .irq .sched n regs →
      k.need → k.forbid_counter ≤ 0 → k.k_reenter ≤ 0 → k.serves)
    (run : exec block k f = some (k', .call f' g)) (owes : Owes g f') :
    k'.intr = false ∧ Dispatching k' g := by
  obtain ⟨tests, -, need, low, outer⟩ := (exec_effect run).switch f' g rfl owes.1
  have same := (exec_effect run).next.1
  cases f with
  | irq pc n regs =>
      cases pc with
      | sched =>
          have serves := served n regs rfl need low outer
          simp only [exec, execIrq, execSched, need, if_true] at run
          obtain ⟨⟨k₁, switch⟩, scheduled, result⟩ := Option.bind_eq_some_iff.mp run
          cases switch with
          | false => cases result
          | true =>
              cases result
              obtain ⟨intr, ready⟩ := schedule_serves serves scheduled
              exact ⟨intr.trans (off rfl), ready⟩
      | _ => cases tests
  | trap pc => cases f' <;> first | cases owes.2 | cases same
  | _ => cases tests

theorem kernel_prompt (h : Prompt m) (served : Served m (.stmt block))
    (stack : m.kstack = f :: rest) (run : exec block m.k f = some (k, n))
    (after : ({ m with k } : Machine).afterKernel rest n = some m') :
    (∀ f g rest, m'.kstack = f :: g :: rest → Owes f g → m'.k.intr = false ∧ Dispatching m'.k f) ∧
      m'.kstack.tail.IsChain fun f g => ¬ Owes f g := by
  have belongs := (exec_effect run).next
  have below := h.below
  have top := h.top
  have popped := chain_pop below
  rw [stack, List.tail_cons] at below popped
  cases n with
  | goto f' =>
      cases after
      refine ⟨?_, below⟩
      rintro f₁ g fs same owes
      cases same
      have switch : f.isSwitch := (same_isSwitch belongs.1).symm.trans owes.1
      obtain ⟨off, stands⟩ := top f g fs stack ⟨switch, owes.2⟩
      exact dispatching_goto run switch off stands
  | call f' g =>
      cases after
      have plain : f'.isSwitch = false := by
        have caller := calls_plain_caller belongs.2.2.1
        exact (same_isSwitch belongs.1).trans caller
      refine ⟨?_, chain_push (plain_owes plain) below⟩
      rintro f₁ g₁ fs same owes
      cases same
      have off := h.masked.off f (by simp [stack])
      have served : ∀ n regs, f = .irq .sched n regs →
          m.k.need → m.k.forbid_counter ≤ 0 → m.k.k_reenter ≤ 0 → m.k.serves := by
        rintro n regs rfl
        simpa [Served, stack] using served
      exact dispatching_call off served run owes
  | int f' call =>
      cases after
      have plain := (int_plain belongs).2.2
      refine ⟨?_, chain_push (plain_owes plain) below⟩
      rintro f₁ g₁ fs same owes
      cases same
      cases owes.1
  | write f' b =>
      have plain : f'.isSwitch = false :=
        (same_isSwitch belongs.1).trans (entry_plain belongs.2.2)
      cases rest with
      | nil =>
          cases after
          exact ⟨by simp, .nil⟩
      | cons g rest =>
          cases after
          refine ⟨?_, chain_modifyHead (fun _ _ => owes_deliver _) below⟩
          rintro f₁ g₁ fs same owes
          cases same
          exact absurd owes (plain_owes plain _)
  | ret v =>
      cases after
      have popped := chain_pop (chain_modifyHead (fun _ _ => owes_deliver v) below)
      exact ⟨fun f₁ g₁ fs same owes => absurd owes (popped.1 f₁ g₁ fs same), popped.2⟩
  | iret regs =>
      cases regs with
      | user regs =>
          cases after
          exact ⟨by simp, .nil⟩
      | kernel intr =>
          simp only [Machine.afterKernel, Machine.iret] at after
          split at after
          · cases after
          · cases after
            exact ⟨fun f₁ g₁ fs same owes => absurd owes (popped.1 f₁ g₁ fs same), popped.2⟩

theorem enter_prompt {F : Context → Frame} (fresh : ∀ c, (F c).isSwitch = false)
    (all : m.kstack.IsChain fun f g => ¬ Owes f g) :
    (∀ f g rest, (m.enter F).kstack = f :: g :: rest → Owes f g →
      (m.enter F).k.intr = false ∧ Dispatching (m.enter F).k f) ∧
      (m.enter F).kstack.tail.IsChain fun f g => ¬ Owes f g := by
  unfold Machine.enter
  split
  · exact ⟨by simp, .nil⟩
  · refine ⟨?_, all⟩
    intro f g rest same owes
    obtain ⟨rfl, -⟩ := List.cons.inj same
    exact absurd owes (plain_owes (fresh _) g)

/-- With interrupts on, no switch owes an acknowledgement. -/
theorem Prompt.all (h : Prompt m) (on : m.k.intr) : m.kstack.IsChain fun f g => ¬ Owes f g := by
  have below := h.below
  cases stack : m.kstack with
  | nil => exact .nil
  | cons f rest =>
      rw [stack] at below
      refine List.isChain_cons.mpr ⟨?_, below⟩
      intro g mem owes
      cases rest with
      | nil => cases mem
      | cons g' rest =>
          cases mem
          have off := (h.top f g rest stack owes).1
          simp [on] at off

theorem prompt_step (h : Prompt m) (served : Served m e) (step : m.step e = some m') :
    Prompt m' := by
  suffices kept : (∀ f g rest, m'.kstack = f :: g :: rest → Owes f g →
      m'.k.intr = false ∧ Dispatching m'.k f) ∧ m'.kstack.tail.IsChain fun f g => ¬ Owes f g from
    ⟨nested_step h.nested step, masked_step h.masked step, kept.1, kept.2⟩
  have empty (m₁ : Machine) (out : m₁.kstack = []) :
      (∀ f g rest, m₁.kstack = f :: g :: rest → Owes f g →
        m₁.k.intr = false ∧ Dispatching m₁.k f) ∧
        m₁.kstack.tail.IsChain fun f g => ¬ Owes f g :=
    ⟨by simp [out], by simp [out]⟩
  cases stepped_of_step step with
  | kernel stack run after => exact kernel_prompt h served stack run after
  | task out stack run after =>
      cases ‹Next› with
      | int f' call =>
          cases after
          exact enter_prompt (fun _ => rfl) (by simp [out])
      | write f' b => cases after
      | iret regs => cases after
      | _ =>
          cases after
          exact empty _ out
  | irq on unmasked =>
      exact enter_prompt (fun _ => rfl) (chain_modifyHead (fun _ _ => owes_wake) (h.all on))
  | call user c =>
      cases c with
      | yield => exact enter_prompt (fun _ => rfl) (by simp [user.1])
      | _ => exact empty _ user.1
  | compute user others => exact empty _ user.1
  | store user dest byte => exact empty _ user.1
  | keybd user queue => exact empty _ user.1

theorem Outside.prompt (h : Outside m) : Prompt m :=
  ⟨h.nested, h.masked, by simp [h.kstack], by simp [h.kstack]⟩

/-- Where every hardware interrupt that ends in a switch finds a task ready, the idle
    loop is entered with all interrupts acknowledged. -/
theorem idles_acked (reached : Runs.Reach Machine.step Served Outside m) : Acked m :=
  (Runs.Reach.invariant (fun _ => Outside.prompt) (fun _ _ _ => prompt_step) reached).acked

/-- At the `hlt`, some `irq_handler` has not sent its end-of-interrupt. -/
def unackedHlt (m : Machine) : Bool :=
  match m.kstack with
  | .switchTasks .hlt .. :: rest => rest.any fun f => f.unacked.isSome
  | _ => false

/-- The kernel task waits, and the timer ticks before it yields. -/
def tickBeforeYield : List Event :=
  [.call (.wait 4 .tasks_wait)] ++ List.replicate 10 (.stmt 0) ++ [.irq .timer] ++
    List.replicate 16 (.stmt 0)

theorem idles_unacked : ¬ ∀ m, Runs.Reach Machine.step (fun _ _ => True) Outside m → Acked m := by
  intro acked
  have meets : Runs.Meets Machine.step (fun _ _ => True) (.boot 4) tickBeforeYield :=
    Runs.meets_true _ _
  obtain ⟨m, -, reached, idles⟩ := Runs.Reach.exists_of_run (p := unackedHlt)
    (.start (boot_outside 4)) meets (by decide +kernel)
  unfold unackedHlt at idles
  split at idles
  · next cpu_context next_task rest stack =>
      obtain ⟨f, mem, unacked⟩ := List.any_eq_true.mp idles
      simp [acked m reached _ _ _ stack f mem] at unacked
  · cases idles

/-- The kernel task waits and yields. -/
def yieldToIdle : List Event :=
  .call (.wait 4 .tasks_wait) :: List.replicate 20 (.stmt 0)

theorem idles_acked_yielding : ∃ m : Machine,
    Runs.run Machine.step (.boot 4) yieldToIdle = some m ∧
    m.kstack.head? = some (.switchTasks .hlt (.user ⟨4, true, 0⟩) 0) ∧ Acked m := by
  have meets : Runs.Meets Machine.step Served (.boot 4) yieldToIdle := by decide +kernel
  obtain ⟨m, run, reached, idles⟩ := Runs.Reach.exists_of_run
    (p := fun m => m.kstack.head? = some (.switchTasks .hlt (.user ⟨4, true, 0⟩) 0))
    (.start (boot_outside 4)) meets (by decide +kernel)
  exact ⟨m, run, of_decide_eq_true idles, idles_acked reached⟩

end Krypton
