import Krypton.Kernel.Nesting

/-! # Scheduling at the outermost entry

The runs in which handlers are interrupted inside their registered handlers and
in the idle loop. What an activation found in `k_reenter`, and whether a nested
one has asked for the scheduler, is recorded beside the machine.
-/

namespace Krypton

/-- The machine with the values of `k_reenter` that the activations on the kernel
    stack found, and the request of a nested activation for the scheduler. -/
structure Activations where
  m : Machine
  found : List Int
  raised : Bool

namespace Activations

def depth (fs : List Frame) : Nat := fs.countP Frame.isEntry

/-- The next statement on the kernel stack asks for the scheduler. -/
def asks (m : Machine) : Event → Bool
  | .stmt _ => m.kstack.head?.any Frame.needs
  | _ => false

def step (s : Activations) (e : Event) : Option Activations := do
  let m ← s.m.step e
  let before := depth s.m.kstack
  let after := depth m.kstack
  return {
    m
    found := if before < after then s.m.k.k_reenter :: s.found else s.found.drop (before - after)
    raised := after ≠ 0 ∧ (s.raised ∨ (1 < before ∧ asks s.m e)) }

/-- No interrupt arrives between `k_reenter--` and the `iret`, where the activation is over. -/
def Ok (s : Activations) : Event → Prop
  | .irq _ => s.m.kstack.head?.all (! Frame.leaving ·)
  | _ => True

/-- The CPU is in the code of a task, outside all handlers. -/
def Init (s : Activations) : Prop :=
  s.m.kstack = [] ∧ s.m.k.k_reenter = -1 ∧ (∀ t, ∀ f ∈ s.m.ustack t, f.library) ∧
    s.found = [] ∧ s.raised = false

structure Sound (s : Activations) : Prop where
  /-- `switch_tasks` runs for the only activation there is -/
  outermost : ∀ pc cpu_context next_task rest,
    s.m.kstack = .switchTasks pc cpu_context next_task :: rest → depth rest = 1
  counter : ∀ cpu_context next_task rest,
    s.m.kstack = .switchTasks .save cpu_context next_task :: rest → s.m.k.forbid_counter ≤ 0
  restored : ∀ f rest, s.m.kstack = f :: rest → f.leaving →
    s.found.head? = some s.m.k.k_reenter
  pending : ∀ f rest, s.m.kstack = f :: rest → f.tests → depth rest = 0 → s.raised → s.m.k.need

/-- The entry of `found` for each activation on the stack. -/
def foundOf : List Frame → List Int
  | [] => []
  | f :: rest =>
      if f.isEntry then (rest.countP Frame.active - 1 : Int) :: foundOf rest else foundOf rest

/-- The first activation. -/
def first : List Frame → Option Frame
  | [] => none
  | f :: rest => (first rest).or (if f.isEntry then some f else none)

/-- The frame is at the first statement of `switch_tasks`. -/
@[grind] def starts : Frame → Bool
  | .switchTasks .save .. => true
  | _ => false

/-- The request that the first activation will find. -/
def Pending (m : Machine) : Prop := ∀ f ∈ first m.kstack, f.untested → m.k.need

structure Inv (s : Activations) : Prop where
  nested : Nested s.m
  masked : Masked s.m
  staying : ∀ f ∈ s.m.kstack.tail, f.leaving = false
  found : s.found = foundOf s.m.kstack
  low : s.m.kstack.head?.any starts → s.m.k.forbid_counter ≤ 0
  outside : depth s.m.kstack = 0 → s.raised = false
  raised : s.raised → Pending s.m

variable {s t : Activations} {m m' : Machine} {f : Frame} {fs rest : List Frame} {k k' : Kernel}
variable {n : Next} {block : Ptr32} {e : Event}

section Depth

@[simp] theorem depth_nil : depth [] = 0 := rfl

@[simp] theorem depth_cons (f : Frame) (fs : List Frame) :
    depth (f :: fs) = depth fs + f.isEntry.toNat := by
  cases h : f.isEntry <;> simp [depth, h]

@[simp] theorem depth_deliver (v : Value) (fs : List Frame) :
    depth (fs.modifyHead (.deliver v)) = depth fs :=
  countP_modifyHead (deliver_isEntry v) fs

@[simp] theorem depth_wake (fs : List Frame) : depth (fs.modifyHead .wake) = depth fs :=
  countP_modifyHead wake_isEntry fs

theorem foundOf_modifyHead {g : Frame → Frame} (same : ∀ f, (g f).isEntry = f.isEntry)
    (fs : List Frame) : foundOf (fs.modifyHead g) = foundOf fs := by
  cases fs <;> simp [foundOf, same]

theorem foundOf_length (fs : List Frame) : (foundOf fs).length = depth fs := by
  induction fs with
  | nil => rfl
  | cons f fs ih =>
      cases h : f.isEntry <;> simp [foundOf, h, ih]

theorem first_none : first fs = none ↔ depth fs = 0 := by
  induction fs with
  | nil => simp [first]
  | cons f fs ih =>
      cases h : f.isEntry <;> simp [first, h, ih]

/-- The first activation, up to what a change of the top frame leaves alone. -/
theorem first_modifyHead {g : Frame → Frame} (entry : ∀ f, (g f).isEntry = f.isEntry)
    (same : ∀ f, (g f).untested = f.untested) :
    (first (fs.modifyHead g)).map Frame.untested = (first fs).map Frame.untested := by
  cases fs with
  | nil => rfl
  | cons f fs =>
      cases h : first fs <;> cases e : f.isEntry <;> simp [first, h, e, entry, same]

end Depth

/-- The record of what was found, brought forward by one step. -/
def refound (m m' : Machine) : List Int :=
  if depth m.kstack < depth m'.kstack then m.k.k_reenter :: foundOf m.kstack
  else (foundOf m.kstack).drop (depth m.kstack - depth m'.kstack)

theorem refound_same (d : depth m'.kstack = depth m.kstack)
    (same : foundOf m'.kstack = foundOf m.kstack) : refound m m' = foundOf m'.kstack := by
  simp [refound, d, same]

/-- A new activation finds the number of active ones below it. -/
theorem refound_enter (h : Nested m) {f : Context → Frame} (entry : ∀ c, (f c).isEntry)
    {m₀ : Machine} (same : foundOf m₀.kstack = foundOf m.kstack)
    (d : depth m₀.kstack = depth m.kstack)
    (active : m₀.kstack.countP Frame.active = m.kstack.countP Frame.active) :
    refound m (m₀.enter f) = foundOf (m₀.enter f).kstack := by
  have reenter := h.reenter
  have found : m.k.k_reenter = (m₀.kstack.countP Frame.active : Int) - 1 := by omega
  unfold Machine.enter
  split
  · next empty =>
      rw [empty] at d active same found
      simp [refound, foundOf, entry, ← d, ← same, found]
  · next fs _ =>
      simp [refound, foundOf, entry, ← d, ← same, found]

theorem entry_of_context {c : Context} (h : f.context = some c) : f.isEntry := by
  cases f <;> simp_all [Frame.context, Frame.isEntry, Frame.fn]

theorem kernel_found (h : Nested m) (stack : m.kstack = f :: rest)
    (run : exec block m.k f = some (k, n))
    (after : ({ m with k } : Machine).afterKernel rest n = some m') :
    refound m m' = foundOf m'.kstack := by
  have eff := exec_effect run
  have belongs := eff.next
  cases n with
  | goto f' =>
      cases after
      have same := same_isEntry belongs.1
      apply refound_same <;> simp [stack, foundOf, same]
  | call f' g =>
      cases after
      have same := same_isEntry belongs.1
      have callee := (calls_plain belongs.2.2.1).2.2
      apply refound_same <;> simp [stack, foundOf, same, callee]
  | int f' call =>
      cases after
      obtain ⟨plain, plain', -⟩ := int_plain belongs
      have idle := plain_active plain
      have idle' := plain_active plain'
      apply refound_enter h (fun _ => rfl) <;> simp [stack, foundOf, plain, plain', idle, idle']
  | write f' b =>
      have same := same_isEntry belongs.1
      cases rest with
      | nil =>
          cases after
          apply refound_same <;> simp [stack, foundOf, same]
      | cons g rest =>
          cases after
          have active := deliver_active (.ptr (some b)) g
          apply refound_same <;> simp [stack, foundOf, same, List.countP_cons]
  | ret v =>
      cases after
      have plain := belongs.1
      have same := foundOf_modifyHead (deliver_isEntry v) rest
      apply refound_same <;> simp [stack, foundOf, plain, same]
  | iret regs =>
      have entry := entry_of_context belongs.1
      cases regs with
      | user regs =>
          cases after
          simp [refound, stack, foundOf, entry, foundOf_length]
      | kernel intr =>
          simp only [Machine.afterKernel, Machine.iret] at after
          split at after
          · cases after
          · cases after
            simp [refound, stack, foundOf, entry]

theorem active_stays (h : f.isEntry → f.active) : f.leaving = false := by
  cases f with
  | trap pc | irq pc =>
      cases pc <;> simp_all [Frame.active, Frame.leaving, Frame.isEntry, Frame.fn]
  | _ => rfl

theorem staying_step (old : ∀ f ∈ s.m.kstack.tail, f.leaving = false) (ok : Ok s e)
    (step : s.m.step e = some m') : ∀ f ∈ m'.kstack.tail, f.leaving = false := by
  cases stepped_of_step step with
  | kernel stack run after =>
      have belongs := (exec_effect run).next
      rw [stack] at old
      apply kernel_below (fun v f h => by simpa using h) old _ _ after
      · rintro f' g rfl
        apply active_stays
        intro entry
        exact belongs.2.2.2 ((same_isEntry belongs.1).symm.trans entry)
      · rintro f' c rfl
        apply active_stays
        simp [(int_plain belongs).2.1]
  | task out stack run after => simp [task_below out after]
  | irq on unmasked =>
      apply enter_below
      refine modifyHead_frames (P := fun f => f.leaving = false) (by simp) ?_
      intro f mem
      cases fs : s.m.kstack with
      | nil => simp [fs] at mem
      | cons g rest =>
          rw [fs] at mem old
          have first : g.leaving = false := by simpa [Ok, fs] using ok
          grind
  | call user c =>
      cases c with
      | yield => simp [Machine.call, Machine.enter, user.1]
      | _ => exact old
  | compute user others => exact old
  | store user dest byte => exact old
  | keybd user queue => exact old

/-- Where handlers are left only by their `iret`, an active one without another
    active one below it is the first. -/
theorem depth_of_idle (masked : ∀ f ∈ fs, f.closed = false) (staying : ∀ f ∈ fs, f.leaving = false)
    (idle : fs.countP Frame.active = 0) : depth fs = 0 := by
  apply List.countP_eq_zero.mpr
  intro f mem
  have closed := masked f mem
  have leaving := staying f mem
  have inactive := List.countP_eq_zero.mp idle f mem
  cases f with
  | trap pc | irq pc => cases pc <;> simp_all [Frame.closed, Frame.leaving, Frame.active]
  | _ => simp [Frame.isEntry, Frame.fn]

/-- A request survives every statement other than the call of `switch_tasks`. -/
theorem need_kept (run : exec block k f = some (k', n))
    (plain : ∀ f' g, n = .call f' g → g.isSwitch = false) (need : k.need ∨ f.needs) : k'.need := by
  have eff := exec_effect run
  cases need with
  | inl need =>
      cases eff.kept plain with
      | inl same => simpa [Kernel.need, same] using need
      | inr need' => exact need'
  | inr asks => exact eff.need asks

theorem Pending.step (h : Pending m) (need : m.k.need → m'.k.need)
    (back : ∀ g ∈ first m'.kstack, g.untested → ∃ f ∈ first m.kstack, f.untested) :
    Pending m' := by
  intro g mem untested
  obtain ⟨f, first, untested'⟩ := back g mem untested
  exact need (h f first untested')

theorem first_back {f' : Frame} {fs' : List Frame} (same : f'.isEntry = f.isEntry)
    (less : f'.untested → f.untested)
    (below : (first fs').map Frame.untested = (first fs).map Frame.untested) :
    ∀ g ∈ first (f' :: fs'), g.untested → ∃ h ∈ first (f :: fs), h.untested := by
  cases new : first fs' <;> cases old : first fs <;> grind [first]

theorem map_back {fs' : List Frame}
    (same : (first fs').map Frame.untested = (first fs).map Frame.untested) :
    ∀ g ∈ first fs', g.untested → ∃ h ∈ first fs, h.untested := by
  cases new : first fs' <;> cases old : first fs <;> simp_all

/-- The first activation is untested before a statement if it is so afterwards. -/
theorem kernel_first (masked : Masked m)
    (staying : ∀ f ∈ m.kstack.tail, f.leaving = false) (stack : m.kstack = f :: rest)
    (run : exec block m.k f = some (k, n))
    (after : ({ m with k } : Machine).afterKernel rest n = some m')
    (inside : depth m.kstack ≠ 0) :
    ∀ g ∈ first m'.kstack, g.untested → ∃ f ∈ first m.kstack, f.untested := by
  have eff := exec_effect run
  have belongs := eff.next
  have fewer := eff.untested
  have below := masked.below
  rw [stack] at inside staying below ⊢
  have delivered (v : Value) : (first (rest.modifyHead (.deliver v))).map Frame.untested =
      (first rest).map Frame.untested :=
    first_modifyHead (deliver_isEntry v) (deliver_untested v)
  cases n with
  | goto f' =>
      cases after
      have same := same_isEntry belongs.1
      exact first_back same (by grind) rfl
  | call f' g =>
      cases after
      have same := same_isEntry belongs.1
      have callee := (calls_plain belongs.2.2.1).2.2
      have back : ∀ g ∈ first (f' :: rest), g.untested → ∃ h ∈ first (f :: rest), h.untested :=
        first_back same (by grind) rfl
      simpa [first, callee] using back
  | int f' call =>
      cases after
      have plain := (int_plain belongs).1
      cases old : first rest with
      | none => simp [first_none.mp old, plain] at inside
      | some h => simp [Machine.enter, first, old]
  | write f' b =>
      have same := same_isEntry belongs.1
      have back := first_back same (by grind) (delivered (.ptr (some b)))
      cases rest <;> cases after <;> exact back
  | ret v =>
      cases after
      have plain := belongs.1
      simpa [first, plain] using map_back (delivered v)
  | iret regs =>
      cases regs with
      | user regs =>
          cases after
          simp [first]
      | kernel intr =>
          simp only [Machine.afterKernel, Machine.iret] at after
          split at after
          · cases after
          · cases after
            intro g mem untested
            exact ⟨g, by simp [first, show first rest = some g from mem], untested⟩

theorem kernel_pending (nested : Nested m) (masked : Masked m)
    (staying : ∀ f ∈ m.kstack.tail, f.leaving = false) (stack : m.kstack = f :: rest)
    (run : exec block m.k f = some (k, n))
    (after : ({ m with k } : Machine).afterKernel rest n = some m')
    (inside : depth m.kstack ≠ 0) (old : Pending m ∨ f.needs) : Pending m' := by
  have eff := exec_effect run
  have need' : m'.k.need = k.need := by
    obtain ⟨intr, same⟩ := afterKernel_k after
    simp [same, Kernel.need]
  by_cases switch : ∃ f' g, n = .call f' g ∧ g.isSwitch
  · obtain ⟨f', g, rfl, switch⟩ := switch
    obtain ⟨tests, tested, -, -, low⟩ := eff.switch f' g rfl switch
    have idle := switch_alone nested stack (tests_active tests) low
    have below := masked.below
    rw [stack] at below staying
    have alone : first rest = none := first_none.mpr (depth_of_idle below staying idle)
    have callee := (calls_plain eff.next.2.2.1).2.2
    cases after
    intro h mem untested
    simp only [first, alone, callee] at mem
    grind
  · have kept := need_kept run (by simpa using switch)
    cases old with
    | inl pending =>
        have back := kernel_first masked staying stack run after inside
        exact pending.step (fun need => need' ▸ kept (.inl need)) back
    | inr asks => exact fun _ _ _ => need' ▸ kept (.inr asks)

theorem starts_closed (h : starts f) : f.closed ∧ f.isSwitch := by
  cases f with
  | switchTasks pc => cases pc <;> simp_all [starts, Frame.closed, Frame.isSwitch, Frame.fn]
  | _ => cases h

theorem not_restarted {f' : Frame} (run : exec block k f = some (k', .goto f')) :
    starts f' = false := by
  have same := (exec_effect run).next.1
  cases f with
  | switchTasks pc cpu_context next_task => cases pc <;> grind [execSwitch]
  | _ => cases f' <;> first | rfl | cases same

theorem starts_deliver (v : Value) (f : Frame) : starts (f.deliver v) = starts f := by
  unfold Frame.deliver
  split <;> rfl

theorem tests_counter (h : f.tests) (forbid_counter : Int) :
    f.counter forbid_counter = forbid_counter := by
  cases f with
  | trap pc | irq pc =>
      cases pc <;> simp_all [Frame.tests, Frame.counter, Frame.forbids, Frame.lowers]
  | _ => cases h

/-- `switch_tasks` is called with the counter at zero or below. -/
theorem save_low (below : ∀ g ∈ rest, g.closed = false) (run : exec block m.k f = some (k, n))
    (after : ({ m with k } : Machine).afterKernel rest n = some m')
    (top : m'.kstack.head?.any starts) : m'.k.forbid_counter ≤ 0 := by
  have eff := exec_effect run
  obtain ⟨intr, same⟩ := afterKernel_k after
  have inner (g : Frame) (mem : g ∈ rest) : starts g = false := by
    grind [starts_closed]
  rw [same]
  cases n with
  | goto f' =>
      have restart := not_restarted run
      cases after
      simp [restart] at top
  | call f' g =>
      cases after
      have switch := (starts_closed (by simpa using top)).2
      obtain ⟨tests, -, -, low, -⟩ := eff.switch f' g rfl switch
      have counter := eff.counter
      rw [tests_counter tests] at counter
      simpa [counter] using low
  | int f' call =>
      cases after
      simp [Machine.enter, starts] at top
  | write f' b =>
      have belongs := eff.next
      have entry : f'.isEntry := (same_isEntry belongs.1).trans belongs.2.2
      have other : starts f' = false := by
        cases f' <;> first | rfl | cases entry
      cases rest <;> cases after <;> simp [other] at top
  | ret v =>
      cases after
      cases rest with
      | nil => simp at top
      | cons g rest => simp [starts_deliver, inner g] at top
  | iret regs =>
      cases regs with
      | user regs =>
          cases after
          cases top
      | kernel intr =>
          simp only [Machine.afterKernel, Machine.iret] at after
          split at after
          · cases after
          · cases after
            cases rest with
            | nil => simp at top
            | cons g rest => simp [inner g] at top

theorem low_step (masked : Masked m) (old : m.kstack.head?.any starts → m.k.forbid_counter ≤ 0)
    (step : m.step e = some m') (top : m'.kstack.head?.any starts) : m'.k.forbid_counter ≤ 0 := by
  cases stepped_of_step step with
  | kernel stack run after =>
      have below := masked.below
      rw [stack] at below
      exact save_low below run after top
  | task out stack run after =>
      cases ‹Next› <;> cases after <;> simp [out, Machine.enter, starts] at top
  | irq on unmasked =>
      cases fs : m.kstack <;> simp [Machine.enter, fs, starts] at top
  | call user c =>
      cases c <;> simp [Machine.call, Machine.enter, user.1, starts] at top
  | compute user others => exact old top
  | store user dest byte => exact old top
  | keybd user queue => exact old top

theorem inv_init (start : Init s) : Inv s := by
  obtain ⟨empty, reenter, library, found, raised⟩ := start
  constructor
  · exact ⟨library, by simp [empty, reenter], by simp [empty, Shape]⟩
  · exact ⟨by simp [empty], by simp [empty]⟩
  · simp [empty]
  · simp [empty, found, foundOf]
  · simp [empty]
  · simp [raised]
  · simp [raised]

/-- The first activation stays the first when another one is entered. -/
theorem first_enter {f : Context → Frame} (inside : depth m.kstack ≠ 0) :
    first (m.enter f).kstack = first m.kstack := by
  cases old : first m.kstack with
  | none => exact absurd (first_none.mp old) inside
  | some g =>
      unfold Machine.enter
      split
      · simp_all
      · simp [first, old]

/-- Outside all handlers nothing is raised. -/
theorem quiet (h : Inv s) (out : s.m.kstack = []) :
    ¬ (s.raised ∨ (1 < depth s.m.kstack ∧ asks s.m e)) := by
  have low := h.outside
  simp_all

/-- A request of a nested activation waits for the first one. -/
theorem pending_step (h : Inv s) (step : s.m.step e = some m') (inside : depth m'.kstack ≠ 0)
    (raised : s.raised ∨ (1 < depth s.m.kstack ∧ asks s.m e)) : Pending m' := by
  cases stepped_of_step step with
  | kernel stack run after =>
      have inside : depth s.m.kstack ≠ 0 := by
        cases raised with
        | inl raised => exact fun none => by simp [h.outside none] at raised
        | inr deep => omega
      apply kernel_pending h.nested h.masked h.staying stack run after inside
      cases raised with
      | inl raised => exact .inl (h.raised raised)
      | inr deep => exact .inr (by simpa [asks, stack] using deep.2)
  | task out stack run after => exact absurd raised (quiet h out)
  | irq on unmasked =>
      have raised : s.raised := by simpa [asks] using raised
      have inside : depth s.m.kstack ≠ 0 := fun none => by simp [h.outside none] at raised
      have same : (first (s.m.kstack.modifyHead .wake)).map Frame.untested =
          (first s.m.kstack).map Frame.untested :=
        first_modifyHead wake_isEntry wake_untested
      apply (h.raised raised).step
      · unfold Machine.enter
        split <;> exact id
      · apply map_back
        rw [first_enter, same]
        simpa using inside
  | call user c => exact absurd raised (quiet h user.1)
  | compute user others => exact absurd raised (quiet h user.1)
  | store user dest byte => exact absurd raised (quiet h user.1)
  | keybd user queue => exact absurd raised (quiet h user.1)

theorem found_step (h : Inv s) (step : s.m.step e = some m') :
    refound s.m m' = foundOf m'.kstack := by
  cases stepped_of_step step with
  | kernel stack run after => exact kernel_found h.nested stack run after
  | task out stack run after =>
      cases ‹Next› with
      | int f' call =>
          cases after
          apply refound_enter h.nested (fun _ => rfl) <;> rfl
      | write f' b => cases after
      | iret regs => cases after
      | _ =>
          cases after
          apply refound_same <;> rfl
  | irq on unmasked =>
      apply refound_enter h.nested (fun _ => rfl)
      · exact foundOf_modifyHead wake_isEntry _
      · exact depth_wake _
      · exact countP_modifyHead wake_active _
  | call user c =>
      cases c with
      | yield => apply refound_enter h.nested (fun _ => rfl) <;> rfl
      | _ => apply refound_same <;> rfl
  | compute user others => apply refound_same <;> rfl
  | store user dest byte => apply refound_same <;> rfl
  | keybd user queue => apply refound_same <;> rfl

theorem inv_step (h : Inv s) (ok : Ok s e) (step : s.step e = some t) : Inv t := by
  obtain ⟨m, move, same⟩ := Option.bind_eq_some_iff.mp step
  cases same
  have found := found_step h move
  rw [refound, ← h.found] at found
  constructor
  · exact nested_step h.nested move
  · exact masked_step h.masked move
  · exact staying_step h.staying ok move
  · exact found
  · exact low_step h.masked h.low move
  · intro outside
    simp [outside]
  · intro raised
    simp only [decide_eq_true_eq] at raised
    exact pending_step h move raised.1 raised.2

theorem leaving_entry (h : f.leaving) : f.isEntry ∧ f.active = false := by
  cases f with
  | trap pc | irq pc => cases pc <;> simp_all [Frame.leaving, Frame.active, Frame.isEntry, Frame.fn]
  | _ => cases h

theorem tests_untested (h : f.tests) : f.isEntry ∧ f.untested := by
  cases f with
  | trap pc | irq pc => cases pc <;> simp_all [Frame.tests, Frame.untested, Frame.isEntry, Frame.fn]
  | _ => cases h

theorem Inv.sound (h : Inv s) : Sound s := by
  constructor
  · intro pc cpu_context next_task rest stack
    have shape := h.nested.shape
    have below := h.masked.below
    have staying := h.staying
    rw [stack] at shape below staying
    obtain ⟨f, fs, rfl, active, alone⟩ := shape.1 rfl
    have outer : depth fs = 0 := by
      apply depth_of_idle _ _ alone
      · exact fun g mem => below g (List.mem_cons_of_mem f mem)
      · exact fun g mem => staying g (List.mem_cons_of_mem f mem)
    have entry : f.isEntry := by
      by_contra plain
      simp [plain_active (f := f) (by simpa using plain)] at active
    simp [outer, entry]
  · intro cpu_context next_task rest stack
    have low := h.low
    rw [stack] at low
    exact low rfl
  · intro f rest stack leaving
    obtain ⟨entry, inactive⟩ := leaving_entry leaving
    have reenter := h.nested.reenter
    have found := h.found
    rw [stack] at reenter found
    simp [inactive] at reenter
    simp [found, foundOf, entry, ← reenter]
  · intro f rest stack tests outer raised
    obtain ⟨entry, untested⟩ := tests_untested tests
    apply h.raised raised f _ untested
    simp [stack, first, first_none.mpr outer, entry]

/-- `switch_tasks` runs for the only activation and with the counter at zero or below,
    the activations restore `k_reenter`, and no nested request is lost. -/
theorem schedules_outermost (reached : Runs.Reach step Ok Init s) : Sound s :=
  (Runs.Reach.invariant (fun _ => inv_init) (fun _ _ _ => inv_step) reached).sound

instance (s : Activations) (e : Event) : Decidable (Ok s e) :=
  match e with
  | .irq _ => inferInstanceAs (Decidable (_ = true))
  | .stmt _ | .call _ | .compute _ | .store .. | .keybd _ => isTrue trivial

/-- The kernel task waits; the timer interrupts its system call. -/
def waiting : List Event :=
  [.call (.wait 1 .tasks_wait)] ++ List.replicate 13 (.stmt 0) ++ [.irq .timer] ++
    List.replicate 22 (.stmt 0)

theorem boot_init : Init ⟨.boot 4, [], false⟩ :=
  ⟨rfl, rfl, (fun _ _ none => nomatch none), rfl, rfl⟩

theorem schedules_outermost_waiting : ∃ s : Activations,
    Runs.run step ⟨.boot 4, [], false⟩ waiting = some s ∧
    (s.raised ∧ s.m.kstack.head?.any starts) ∧ Sound s := by
  have meets : Runs.Meets step Ok ⟨.boot 4, [], false⟩ waiting := by decide +kernel
  obtain ⟨s, run, reached, ends⟩ := Runs.Reach.exists_of_run
    (p := fun s => s.raised ∧ s.m.kstack.head?.any starts) (.start boot_init) meets
    (by decide +kernel)
  exact ⟨s, run, by simpa using ends, schedules_outermost reached⟩

/-- Task 8 sleeps, and its tick arrives between the test and the decrement of a `permit()`.
    The yield clears the counter, which the decrement then takes below zero. -/
def interrupted : List Event :=
  [.call (.createTask 1)] ++ List.replicate 8 (.stmt 8) ++ List.replicate 14 (.stmt 12) ++
    [.call .yield] ++ List.replicate 14 (.stmt 0) ++
    [.call (.delay 1)] ++ List.replicate 30 (.stmt 0) ++
    [.call .forbid, .call .permit, .stmt 0, .irq .timer] ++ List.replicate 48 (.stmt 0) ++
    [.call (.delay 5)] ++ List.replicate 31 (.stmt 0) ++
    [.irq .timer] ++ List.replicate 15 (.stmt 0)

/-- `switch_tasks` is executed only with the counter at zero. -/
def AtZero (s : Activations) : Prop := s.m.kstack.head?.any starts → s.m.k.forbid_counter = 0

theorem schedules_below_zero :
    ¬ ∀ s, Runs.Reach step Ok (· = ⟨.boot 4, [], false⟩) s → AtZero s := by
  intro zero
  have start : Runs.Reach step Ok (· = ⟨.boot 4, [], false⟩) ⟨.boot 4, [], false⟩ := .start rfl
  have meets : Runs.Meets step Ok ⟨.boot 4, [], false⟩ interrupted := by decide +kernel
  obtain ⟨s, -, reached, ends⟩ := Runs.Reach.exists_of_run
    (p := fun s => s.m.kstack.head?.any starts ∧ s.m.k.forbid_counter = -1) start meets
    (by decide +kernel)
  obtain ⟨top, below⟩ := of_decide_eq_true ends
  have counter := zero s reached top
  omega

end Activations

end Krypton
