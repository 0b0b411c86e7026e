import Krypton.Kernel.Stack

/-! # Where the running task is

In runs in which no handler breaks into an operation the frames tell where
`running_task` is. With that every statement keeps the tasks in their places.
-/

namespace Krypton

open LinkStore

namespace Operations

variable {m m' : Machine} {e : Event} {f g : Frame} {fs rest : List Frame} {v : Value}
variable {k k' : Kernel} {n : Next} {block t : Ptr32} {w : Window}

/-- Up to the scheduler. -/
@[grind] def early : TrapPc → Bool
  | .leave | .iret => false
  | _ => true

/-- Where `running_task` is, as the frames tell. -/
inductive Fits (m : Machine) : Status → Prop where
  | task (out : m.kstack = []) (stays : ∀ f ∈ m.current.head?, f.leaves = false) : Fits m .free
  | leaves (out : m.kstack = []) (f : Frame) (head : m.current.head? = some f) (leaves : f.leaves) :
      Fits m .blocked
  | yields (pc : TrapPc) (r : Regs) (inside : m.kstack = [.trap pc .yield (.user r)])
      (before : early pc)
      (asked : pc = .yielded ∨ pc = .cli ∨ pc = .sched → m.k.need)
      (allowed : pc = .cli ∨ pc = .sched → m.k.forbid_counter = 0) : Fits m .blocked
  | handler (inside : m.kstack ≠ []) (plain : ∀ f ∈ m.kstack, f.isSwitch = false) : Fits m .free
  | switching (fs : List Frame) (pc : SwitchPc) (c : Context) (t : Ptr32) (e : Frame)
      (inside : m.kstack = fs ++ [.switchTasks pc c t, e]) (before : choosing pc)
      (idle : fs ≠ [] → pc = .test) (plain : ∀ f ∈ fs, f.isSwitch = false) : Fits m .out
  | switched (pc : SwitchPc) (c : Context) (t : Ptr32) (e : Frame)
      (inside : m.kstack = [.switchTasks pc c t, e]) (behind : choosing pc = false) : Fits m .free

/-- What a function has in its hands. -/
def hands (m : Machine) : Window :=
  match top m with
  | some f => f.window
  | none => .none

structure Inv (m : Machine) : Prop where
  nested : Nested m
  still : Still m
  placed : ∃ seqs s, Fits m s ∧ Placed m.k seqs s (hands m)

theorem placed_intr (intr : Bool) {seqs : TaskList → List Ptr32} {s : Status} {w : Window}
    (h : Placed k seqs s w) : Placed { k with intr := intr } seqs s w :=
  h.same rfl rfl rfl rfl (fun _ => rfl) rfl

theorem hands_calm (kernel : ∀ f ∈ m.kstack.head?, Calm f) (all : ∀ t, ∀ f ∈ m.ustack t, Calm f) :
    hands m = .none := by
  unfold hands top
  cases stack : m.kstack with
  | nil =>
      cases first : m.current.head? with
      | none => rfl
      | some f =>
          have calm := all _ f (List.mem_of_mem_head? first)
          exact calm.window
  | cons f fs =>
      rw [stack] at kernel
      exact (kernel f rfl).window

/-- The frames after a statement on the kernel stack. -/
theorem kernel_hands (still : ∀ f ∈ rest, Calm f) (all : ∀ t, ∀ f ∈ m.ustack t, Calm f)
    (run : exec block k f = some (k', n)) (after : m.afterKernel rest n = some m') :
    hands m' = n.window := by
  have all' := kernel_ustack (m := m) (fun v f => calm_deliver v) all after
  cases n with
  | goto f' | call f' g =>
      cases after
      rfl
  | int f' c =>
      cases after
      simp [hands, top, Machine.enter, Frame.window, Next.window]
  | write f' b =>
      obtain ⟨fn, -, entry⟩ := (exec_effect run).next
      have window : f'.window = .none := by
        rw [← same_isEntry fn] at entry
        cases f' <;> first | rfl | cases entry
      cases rest <;> cases after <;> simp [hands, top, window, Next.window]
  | ret v =>
      cases after
      refine hands_calm (fun g mem => ?_) all'
      exact modifyHead_frames (P := Calm) (fun f => calm_deliver v) still g
          (List.mem_of_mem_head? mem)
  | iret regs =>
      cases regs with
      | user regs =>
          cases after
          exact hands_calm (by simp) all'
      | kernel intr =>
          simp only [Machine.afterKernel, Machine.iret] at after
          split at after <;> cases after
          exact hands_calm (fun g mem => still g (List.mem_of_mem_head? mem)) all'

/-- What runs above `switch_tasks`, while the CPU is halted. -/
theorem above_switch {pc : SwitchPc} {c : Context} {e : Frame} (shape : Shape m.kstack)
    (stack : m.kstack = f :: (fs ++ [.switchTasks pc c t, e])) (active : e.active)
    (plain : ∀ g ∈ f :: fs, g.isSwitch = false) (run : exec block m.k f = some (k, n))
    (callee : ∀ f' g, n = .call f' g → g.isSwitch = false)
    (after : ({ m with k } : Machine).afterKernel (fs ++ [.switchTasks pc c t, e]) n = some m') :
    ∃ fs', m'.kstack = fs' ++ [.switchTasks pc c t, e] ∧ ∀ g ∈ fs', g.isSwitch = false := by
  have belongs := (exec_effect run).next
  have first := plain f List.mem_cons_self
  have others : ∀ g ∈ fs, g.isSwitch = false := fun g mem => plain g (List.mem_cons_of_mem f mem)
  have same : ∀ f' : Frame, f'.fn = f.fn → ∀ g ∈ f' :: fs, g.isSwitch = false := by
    intro f' fn g mem
    cases mem with
    | head => exact (same_isSwitch fn).trans first
    | tail _ mem => exact others g mem
  cases n with
  | goto f' =>
      cases after
      exact ⟨f' :: fs, rfl, same f' belongs.1⟩
  | call f' g =>
      cases after
      refine ⟨g :: f' :: fs, rfl, fun h mem => ?_⟩
      cases mem with
      | head => exact callee f' g rfl
      | tail _ mem => exact same f' belongs.1 h mem
  | int f' call =>
      cases after
      refine ⟨.trap .enter call (.kernel k.intr) :: f' :: fs, rfl, fun h mem => ?_⟩
      cases mem with
      | head => rfl
      | tail _ mem => exact same f' belongs.1 h mem
  | write f' b =>
      cases fs with
      | nil =>
          cases after
          exact ⟨[f'], by simp [deliver_switch], same f' belongs.1⟩
      | cons g gs =>
          cases after
          refine ⟨f' :: g.deliver (.ptr (some b)) :: gs, rfl, fun h mem => ?_⟩
          have old := same f' belongs.1
          simp only [List.mem_cons] at mem old
          rcases mem with rfl | rfl | mem
          · exact old _ (.inl rfl)
          · simpa using old g (.inr (.inl rfl))
          · exact old h (.inr (.inr mem))
  | ret v =>
      cases fs with
      | nil =>
          cases after
          exact ⟨[], by simp [deliver_switch], by simp⟩
      | cons g gs =>
          cases after
          refine ⟨g.deliver v :: gs, rfl, fun h mem => ?_⟩
          cases mem with
          | head => simpa using others g List.mem_cons_self
          | tail _ mem => exact others h (List.mem_cons_of_mem g mem)
  | iret regs =>
      cases regs with
      | user regs =>
          rw [stack] at shape
          have none := List.countP_eq_zero.mp (shape.2.1 regs belongs.1) e (by simp)
          exact absurd active none
      | kernel intr =>
          simp only [Machine.afterKernel, Machine.iret] at after
          split at after <;> cases after
          exact ⟨fs, rfl, others⟩

theorem plain_chooses (plain : f.isSwitch = false) : chooses f = false := by
  cases f <;> first | rfl | cases plain

theorem plain_aside (plain : ∀ f ∈ m.kstack, f.isSwitch = false) : aside m = false := by
  unfold aside
  simpa using fun f mem => plain_chooses (plain f mem)

/-- `switch_tasks` makes the task that it has chosen the running one. -/
theorem setRunning_spec {c : Context}
    (run : exec block k (.switchTasks .setRunning c t) = some (k', n)) :
    k' = { k with running_task := t } ∧ n = .goto (.switchTasks .setRun c t) := by
  simp only [exec, execSwitch] at run
  split at run
  · split at run <;> cases run
    exact ⟨rfl, rfl⟩
  · cases run
    exact ⟨rfl, rfl⟩

/-- The place of the running task after a statement on the kernel stack. -/
def Located (m : Machine) : Prop := ∃ seqs s, Fits m s ∧ Placed m.k seqs s (hands m)

/-- A handler that calls `switch_tasks` is alone on the kernel stack. -/
theorem switch_only (h : Inv m) (stack : m.kstack = f :: rest) (active : f.active)
    (low : m.k.k_reenter ≤ 0) : rest = [] := by
  have none := List.countP_eq_zero.mp (switch_alone h.nested stack active low)
  have rooted := h.still.rooted
  have below := h.still.below
  rw [stack] at rooted below
  cases last : rest.getLast? with
  | none => exact List.getLast?_eq_none_iff.mp last
  | some e =>
      have mem : e ∈ rest := List.mem_of_getLast? last
      have entry : e.isEntry := by
        refine rooted e ?_
        cases rest with
        | nil => cases mem
        | cons g gs => simpa using last
      exact absurd ((below e mem).entry entry) (none e mem)

theorem plain_displaces (inside : inKernel f) (plain : f.isSwitch = false) :
    f.displaces = f.tests := by
  cases f with
  | switchTasks => cases plain
  | trap pc | irq pc => cases pc <;> rfl
  | wait => cases inside
  | _ => rfl

section Kernel

variable {seqs : TaskList → List Ptr32} {s : Status}
variable (h : Inv m) (stack : m.kstack = f :: rest) (run : exec block m.k f = some (k, n))
  (after : ({ m with k } : Machine).afterKernel rest n = some m')
include h stack run after

/-- The state after the statement, when it is known where `running_task` is. -/
theorem kernel_next (fits : Fits m' s) (placed : Placed k seqs s n.window) : Located m' := by
  obtain ⟨-, still, -⟩ := h
  have below := still.below
  rw [stack] at below
  have all := still.tasks stack
  obtain ⟨intr, same⟩ := afterKernel_k after
  refine ⟨seqs, s, fits, ?_⟩
  rw [same, kernel_hands (m := { m with k }) below all run after]
  exact placed_intr _ placed

theorem tests_next (placed : Placed m.k seqs s f.window) (tests : f.tests)
    (held : s ≠ .out ∨ 0 < m.k.k_reenter) (stays : ∀ f', n = .goto f' → k = m.k → Fits m' s) :
    Located m' := by
  have window : f.window = .none := by
    cases f <;> first | rfl | cases tests
  rw [window] at placed
  rcases tests_placed placed tests held run with ⟨f', rfl, rfl⟩ | ⟨f', c, seqs', rfl, placed'⟩
  · have same : (Next.goto f').window = .none := by
      have fn := (exec_effect run).next.1
      cases f' <;> cases f <;> first | rfl | (simp [Frame.fn] at fn; done) | cases tests
    rw [← same] at placed
    exact kernel_next h stack run after (stays f' rfl rfl) placed
  · obtain ⟨-, -, -, -, low⟩ := (exec_effect run).switch f' _ rfl rfl
    obtain rfl := switch_only h stack (tests_active tests) low
    refine kernel_next h stack run after ?_ placed'
    cases after
    exact .switching [] .save c 0 f' rfl rfl nofun (by simp)

/-- A statement that calls no scheduler leaves `running_task` where it is. -/
theorem plain_next (placed : Placed m.k seqs s f.window) (orderly : Orderly (aside m) m.k f)
    (resigned : aside m → s = .out) (tests : f.tests = false)
    (chosen : f.displaces = f.tests) (held : s ≠ .blocked) (stays : Fits m' s) : Located m' := by
  have inside := h.still.kernel f (by simp [stack])
  obtain ⟨seqs', placed'⟩ := exec_placed placed orderly resigned (chosen.trans tests)
    (fun wait => absurd wait (inKernel_wait inside)) (fun _ => held) run
  exact kernel_next h stack run after stays placed'

/-- A handler above no `switch_tasks`. -/
theorem handler_next (orderly : Orderly (aside m) m.k f)
    (plain : ∀ f ∈ m.kstack, f.isSwitch = false)
    (placed : Placed m.k seqs .free f.window) : Located m' := by
  rw [stack] at plain
  have first := plain f List.mem_cons_self
  have below : ∀ g ∈ rest, g.isSwitch = false := fun g mem => plain g (List.mem_cons_of_mem f mem)
  have fits (callee : ∀ f' g, n = .call f' g → g.isSwitch = false) : Fits m' .free := by
    have belongs := (exec_effect run).next
    have frames : ∀ g ∈ m'.kstack, g.isSwitch = false := by
      refine kernel_frames (P := fun g => g.isSwitch = false) (fun v g _ => by simp) below
          (fun g mem => ?_)
        (fun _ _ _ _ => rfl) after
      cases n with
      | goto f' | int f' c | write f' b =>
          cases List.mem_singleton.mp mem
          exact (same_isSwitch belongs.1).trans first
      | call f' g =>
          simp only [Next.frames, List.mem_cons, List.not_mem_nil, or_false] at mem
          rcases mem with rfl | rfl
          · exact callee _ _ rfl
          · exact (same_isSwitch belongs.1).trans first
      | ret v | iret regs => cases mem
    by_cases out : m'.kstack = []
    · refine .task out fun g mem => ?_
      have all := kernel_ustack (m := { m with k }) (fun v f => calm_deliver v)
          (h.still.tasks stack) after
      exact (all _ g (List.mem_of_mem_head? mem)).leaves
    · exact .handler out frames
  cases tests : f.tests with
  | true =>
      refine tests_next h stack run after placed tests (.inl nofun) ?_
      rintro f' rfl rfl
      exact fits fun _ _ same => by cases same
  | false =>
      have inside := h.still.kernel f (by simp [stack])
      refine plain_next h stack run after placed orderly ?_ tests
          (plain_displaces inside first) nofun
        (fits ?_)
      · exact fun out => absurd out (by simp [plain_aside (stack ▸ plain)])
      · rintro f' g rfl
        cases switch : g.isSwitch with
        | false => rfl
        | true =>
            have asked := ((exec_effect run).switch f' g rfl switch).1
            rw [tests] at asked
            cases asked

/-- The system call with which `wait` ends always gets its switch. -/
theorem yields_next (orderly : Orderly (aside m) m.k f) {pc : TrapPc} {r : Regs}
    (top : f = .trap pc .yield (.user r))
    (alone : rest = []) (before : early pc)
    (asked : pc = .yielded ∨ pc = .cli ∨ pc = .sched → m.k.need)
    (allowed : pc = .cli ∨ pc = .sched → m.k.forbid_counter = 0)
    (placed : Placed m.k seqs .blocked f.window) : Located m' := by
  have reenter := h.nested.reenter
  subst top alone
  have goes (pc' : TrapPc) (before : early pc') (goto : n = .goto (.trap pc' .yield (.user r)))
      (asked : pc' = .yielded ∨ pc' = .cli ∨ pc' = .sched → k.need)
      (allowed : pc' = .cli ∨ pc' = .sched → k.forbid_counter = 0)
      (placed : Placed k seqs .blocked .none) : Located m' := by
    subst goto
    refine kernel_next h stack run after ?_ placed
    cases after
    exact .yields pc' r rfl before asked allowed
  cases pc with
  | enter =>
      cases run
      exact goes .sti rfl rfl (by simp) (by simp) (placed.same rfl rfl rfl rfl (fun _ => rfl) rfl)
  | sti =>
      cases run
      exact goes .body rfl rfl (by simp) (by simp) (placed.same rfl rfl rfl rfl (fun _ => rfl) rfl)
  | body =>
      cases run
      exact goes .yielded rfl rfl (fun _ => setNeed_need m.k) (by simp)
        (placed.same rfl rfl rfl rfl (fun _ => rfl) rfl)
  | yielded =>
      cases run
      exact goes .cli rfl rfl (fun _ => asked (.inl rfl)) (fun _ => rfl)
        (placed.same rfl rfl rfl rfl (fun _ => rfl) rfl)
  | cli =>
      cases run
      exact goes .sched rfl rfl (fun _ => asked (.inr (.inl rfl))) (fun _ => allowed (.inl rfl))
        (placed.same rfl rfl rfl rfl (fun _ => rfl) rfl)
  | sched =>
      refine tests_next h stack run after placed rfl (.inl nofun) ?_
      -- The counters let the scheduler through.
      rintro f' rfl -
      have need := asked (.inr (.inr rfl))
      have open_ := allowed (.inr rfl)
      have low : m.k.k_reenter = 0 := by
        simp [stack, Frame.active] at reenter
        omega
      have inside : ¬ (m.k.forbid_counter > 0 ∨ m.k.k_reenter > 0) := by omega
      simp only [exec, execTrap, execSched, need, if_true, Kernel.schedule, if_neg inside] at run
      obtain ⟨⟨k₁, switch⟩, scheduled, same⟩ := Option.bind_eq_some_iff.mp run
      split at scheduled
      · obtain ⟨k₂, -, both⟩ := Option.bind_eq_some_iff.mp scheduled
        cases both
        cases same
      · cases scheduled
        cases same
  | leave | iret => cases before

/-- `switch_tasks` chooses a task. -/
theorem switch_next {pc : SwitchPc} {c : Context} {t : Ptr32} {e : Frame}
    (top : f = .switchTasks pc c t)
    (base : rest = [e]) (before : choosing pc) (orderly : Orderly (aside m) m.k f)
    (placed : Placed m.k seqs .out f.window) : Located m' := by
  subst top base
  have goes (pc' : SwitchPc) (t' : Ptr32) (before : choosing pc')
      (goto : n = .goto (.switchTasks pc' c t')) :
      Fits m' .out := by
    subst goto
    cases after
    exact .switching [] pc' c t' e rfl before (by simp) (by simp)
  have next (stays : Fits m' .out) (chosen : (Frame.switchTasks pc c t).displaces = false) :
      Located m' :=
    plain_next h stack run after placed orderly (fun _ => rfl) rfl chosen nofun stays
  cases pc with
  | save =>
      refine next (goes .test t rfl ?_) rfl
      cases run
      rfl
  | test =>
      have ends : ∃ pc' t', choosing pc' ∧ n = .goto (.switchTasks pc' c t') := by
        simp only [exec, execSwitch] at run
        split at run <;> cases run
        · exact ⟨.enable, t, rfl, rfl⟩
        · exact ⟨.remove, _, rfl, rfl⟩
      obtain ⟨pc', t', before', goto⟩ := ends
      exact next (goes pc' t' before' goto) rfl
  | enable =>
      refine next (goes .hlt t rfl ?_) rfl
      cases run
      rfl
  | hlt =>
      refine next (goes .halted t rfl ?_) rfl
      cases run
      rfl
  | halted => cases run
  | remove =>
      refine next (goes .setRunning t rfl ?_) rfl
      obtain ⟨k₁, -, same⟩ := Option.bind_eq_some_iff.mp run
      cases same
      rfl
  | setRunning =>
      obtain ⟨rfl, rfl⟩ := setRunning_spec run
      have stays : Fits m' .free := by
        cases after
        exact .switched .setRun c t e rfl rfl
      exact kernel_next h stack run after stays placed.dispatched
  | setRun | restore => cases before

/-- `switch_tasks` restores the task it has chosen. -/
theorem switched_next {pc : SwitchPc} {c : Context} {t : Ptr32} {e : Frame}
    (top : f = .switchTasks pc c t)
    (base : rest = [e]) (behind : choosing pc = false) (orderly : Orderly (aside m) m.k f)
    (placed : Placed m.k seqs .free f.window) : Located m' := by
  have entry : e.isEntry := h.still.rooted e (by simp [stack, base])
  subst top base
  have resigned : aside m → Status.free = .out := by
    have plain : chooses e = false := plain_chooses (entry_plain entry)
    have first : chooses (.switchTasks pc c t) = false := behind
    simp [aside, stack, first, plain]
  have next (stays : Fits m' .free) (chosen : (Frame.switchTasks pc c t).displaces = false) :
      Located m' :=
    plain_next h stack run after placed orderly resigned rfl chosen nofun stays
  cases pc with
  | setRun =>
      refine next ?_ rfl
      cases run
      cases after
      exact .switched .restore c t e rfl rfl
  | restore =>
      refine next ?_ rfl
      cases run
      cases after
      refine .handler (by simp) ?_
      simpa using entry_plain entry
  | _ => cases behind

/-- A handler while the CPU is halted: it does not get a switch. -/
theorem idle_next {pc : SwitchPc} {c : Context} {t : Ptr32} {e : Frame}
    (base : rest = fs ++ [.switchTasks pc c t, e]) (idle : pc = .test)
    (plain : ∀ g ∈ f :: fs, g.isSwitch = false)
    (orderly : Orderly (aside m) m.k f) (placed : Placed m.k seqs .out f.window) : Located m' := by
  have inside := h.still.kernel f (by simp [stack])
  have shape := h.nested.shape
  have active : e.active := by
    have below := h.still.below e (by simp [stack, base])
    refine below.entry (h.still.rooted e ?_)
    simp [stack, base, List.getLast?_cons, List.getLast?_append]
  subst base
  have fits (callee : ∀ f' g, n = .call f' g → g.isSwitch = false) : Fits m' .out := by
    obtain ⟨fs', inside, plain'⟩ := above_switch shape stack active plain run callee after
    subst idle
    exact .switching fs' .test c t e inside rfl (fun _ => rfl) plain'
  have first := plain f List.mem_cons_self
  cases tests : f.tests with
  | true =>
      have reenter := h.nested.reenter
      have mine := tests_active tests
      have inner : 0 < m.k.k_reenter := by
        simp only [stack, List.countP_cons, List.countP_append, mine, active, if_true] at reenter
        omega
      refine tests_next h stack run after placed tests (.inr inner) ?_
      rintro f' rfl -
      exact fits fun _ _ same => by cases same
  | false =>
      refine plain_next h stack run after placed orderly (fun _ => rfl) tests
        (plain_displaces inside first) nofun (fits ?_)
      rintro f' g rfl
      cases switch : g.isSwitch with
      | false => rfl
      | true =>
          have asked := ((exec_effect run).switch f' g rfl switch).1
          rw [tests] at asked
          cases asked

theorem kernel_located (orderly : Orderly (aside m) m.k f) : Located m' := by
  obtain ⟨seqs, s, fits, placed⟩ := h.placed
  have hands : hands m = f.window := by
    rw [Operations.hands, top, stack]
  rw [hands] at placed
  cases fits with
  | task out | leaves out =>
      rw [stack] at out
      cases out
  | yields pc r inside before asked allowed =>
      obtain ⟨rfl, rfl⟩ := List.cons.inj (stack.symm.trans inside)
      exact yields_next h stack run after orderly rfl rfl before asked allowed placed
  | handler inside plain => exact handler_next h stack run after orderly plain placed
  | switching fs pc c t e inside before idle plain =>
      cases fs with
      | nil =>
          obtain ⟨rfl, rfl⟩ := List.cons.inj (stack.symm.trans inside)
          exact switch_next h stack run after rfl rfl before orderly placed
      | cons g gs =>
          obtain ⟨rfl, base⟩ := List.cons.inj (stack.symm.trans inside)
          exact idle_next h stack run after base (idle (List.cons_ne_nil _ gs)) plain orderly placed
  | switched pc c t e inside behind =>
      obtain ⟨rfl, rfl⟩ := List.cons.inj (stack.symm.trans inside)
      exact switched_next h stack run after rfl rfl behind orderly placed

end Kernel

/-! ## The other events -/

section Task

variable {seqs : TaskList → List Ptr32} {s : Status}
variable (h : Inv m) (out : m.kstack = []) (stack : m.current = f :: rest)

/-- A task stays in its own code or that of the kernel. -/
theorem located_task (out : m'.kstack = []) (stays : ∀ g ∈ m'.current.head?, g.leaves = false)
    (window : ∀ g ∈ m'.current.head?, g.window = w) (empty : m'.current = [] → w = .none)
    (placed : Placed m'.k seqs .free w) : Located m' := by
  have hands : hands m' = w := by
    unfold Operations.hands top
    rw [out]
    cases current : m'.current with
    | nil => exact (empty current).symm
    | cons g gs => exact window g (by simp [current])
  exact ⟨seqs, .free, .task out stays, hands.symm ▸ placed⟩

include h out stack

theorem under_calm : ∀ g ∈ rest, Calm g := by
  intro g mem
  refine h.still.behind m.regs.stack g ?_
  rw [behind, if_pos ⟨out, rfl⟩, stack]
  exact mem

theorem free_located (run : exec block m.k f = some (k, n))
    (after : ({ m with k } : Machine).afterTask rest n = some m') (stays : f.leaves = false)
    (still : f.displaces = false) (placed : Placed k seqs .free n.window) : Located m' := by
  have under := under_calm h out stack
  cases n with
  | goto f' =>
      cases after
      refine located_task out ?_ ?_ ?_ placed
      · simp only [Machine.setCurrent_current, List.head?_cons, Option.mem_def, Option.some.injEq]
        rintro g rfl
        cases leaves : f'.leaves with
        | false => rfl
        | true =>
            rcases goto_leaves run leaves with old | old
            · rw [stays] at old
              cases old
            · rw [still] at old
              cases old
      · simp [Next.window]
      · simp
  | call f' g =>
      cases after
      obtain ⟨window, leaves⟩ := callee_fresh run
      refine located_task out ?_ ?_ ?_ placed
      · simpa using leaves
      · simp [Next.window]
      · simp
  | int f' c =>
      cases after
      refine ⟨seqs, .free, .handler ?_ ?_, ?_⟩
      · simp [Machine.enter, out]
      · simp [Machine.enter, out, Frame.isSwitch, Frame.fn]
      · have hands : hands (Machine.enter (({ m with k } : Machine).setCurrent (f' :: rest))
            (.trap .enter c)) =
            .none := by
          simp [hands, top, Machine.enter, out, Frame.window]
        rw [hands]
        have same := placed_intr false placed
        simpa [Machine.enter, out, Next.window] using same
  | write f' b => cases after
  | ret v =>
      cases after
      have calm : ∀ g ∈ (rest.modifyHead (.deliver v)).head?, Calm g := by
        intro g mem
        exact modifyHead_frames (P := Calm) (fun f => calm_deliver v) under g
            (List.mem_of_mem_head? mem)
      refine located_task out ?_ ?_ (fun _ => rfl) placed
      · simpa using fun g mem => (calm g mem).leaves
      · simpa using fun g mem => (calm g mem).window
  | iret regs => cases after

omit h in
theorem leaving_located (run : exec block m.k f = some (k, n))
    (after : ({ m with k } : Machine).afterTask rest n = some m') (leaves : f.leaves)
    (placed : Placed m.k seqs .blocked f.window) : Located m' := by
  have goes (pc : WaitPc) (sigs : BitVec 32) (list : TaskList)
      (ahead : (Frame.wait pc sigs list).leaves)
      (goto : n = .goto (.wait pc sigs list)) (placed : Placed k seqs .blocked .none) :
      Located m' := by
    subst goto
    cases after
    refine ⟨seqs, .blocked, .leaves out (.wait pc sigs list) (by simp) ahead, ?_⟩
    have window : (Frame.wait pc sigs list).window = .none := by
      cases pc <;> first | rfl | cases ahead
    simpa [hands, top, out, window] using placed
  cases f with
  | wait pc sigs list =>
      cases pc with
      | unlock =>
          cases run
          exact goes .permit sigs list rfl rfl (placed.same rfl rfl rfl rfl (fun _ => rfl) rfl)
      | permit =>
          cases run
          by_cases positive : m.k.forbid_counter > 0
          · exact goes .lower sigs list rfl (by simp [Kernel.past, positive]) placed
          · exact goes .yield sigs list rfl (by simp [Kernel.past, positive]) placed
      | lower =>
          cases run
          exact goes .yield sigs list rfl rfl (placed.same rfl rfl rfl rfl (fun _ => rfl) rfl)
      | yield =>
          cases run
          cases after
          refine ⟨seqs, .blocked, .yields .enter { m.regs with intr := m.k.intr } ?_ rfl (by simp)
              (by simp), ?_⟩
          · simp [Machine.enter, out]
          · have same := placed_intr false placed
            simpa [Machine.enter, out, hands, top, Frame.window] using same
      | _ => cases leaves
  | _ => cases leaves

theorem task_located (orderly : Orderly (aside m) m.k f) (run : exec block m.k f = some (k, n))
    (after : ({ m with k } : Machine).afterTask rest n = some m') : Located m' := by
  obtain ⟨seqs, s, fits, placed⟩ := h.placed
  have window : hands m = f.window := by
    simp [hands, top, out, stack]
  have mine : f.library := h.nested.library m.regs.stack f (by
    have current : m.ustack m.regs.stack = f :: rest := stack
    simp [current])
  rw [window] at placed
  cases fits with
  | task _ stays =>
      have stays := stays f (by simp [stack])
      cases still : f.displaces with
      | false =>
          obtain ⟨seqs', placed'⟩ := exec_placed placed orderly
            (fun out' => by simp [aside, out] at out') still (fun _ => rfl) (fun _ => by simp) run
          exact free_located h out stack run after stays still placed'
      | true =>
          cases f with
          | wait pc sigs list =>
              cases pc with
              | enqueue =>
                  obtain ⟨used, waits⟩ := orderly rfl
                  obtain ⟨k₁, entered, same⟩ := Option.bind_eq_some_iff.mp run
                  cases same
                  cases after
                  have blocked := placed.blocked used waits entered
                  refine ⟨put m.k seqs list m.k.running_task, .blocked,
                    .leaves out (.wait .unlock sigs list) (by simp) rfl, ?_⟩
                  simpa [hands, top, out, Frame.window] using blocked
              | _ => cases still
          | trap | irq | switchTasks => cases mine
          | _ => cases still
  | leaves _ g head leaves =>
      have same : f = g := by simpa [stack] using head
      exact leaving_located out stack run after (same ▸ leaves) placed
  | yields pc r inside | switched pc c t e inside =>
      rw [out] at inside
      cases inside
  | handler inside => exact absurd out inside
  | switching fs pc c t e inside =>
      rw [out] at inside
      simp at inside

end Task

/-- The code of a task has nothing in its hands. -/
theorem Inv.user (h : Inv m) (user : m.inTask) : ∃ seqs, Placed m.k seqs .free .none := by
  obtain ⟨seqs, s, fits, placed⟩ := h.placed
  have window : hands m = .none := by
    simp [hands, top, user.1, user.2]
  rw [window] at placed
  cases fits with
  | task out stays => exact ⟨seqs, placed⟩
  | leaves out f head => simp [user.2] at head
  | yields pc r inside | switched pc c t e inside =>
      rw [user.1] at inside
      cases inside
  | handler inside => exact absurd user.1 inside
  | switching fs pc c t e inside =>
      rw [user.1] at inside
      simp at inside

/-- A task goes on in its own code. -/
theorem user_located {seqs : TaskList → List Ptr32} (user : m'.inTask)
    (placed : Placed m'.k seqs .free .none) : Located m' :=
  located_task user.1 (by simp [user.2]) (by simp [user.2]) (fun _ => rfl) placed

theorem call_located (h : Inv m) (user : m.inTask) (c : Call) : Located (m.call c) := by
  obtain ⟨seqs, placed⟩ := h.user user
  have push (f : Frame) (window : f.window = .none) (stays : f.leaves = false) :
      Located (m.setCurrent [f]) := by
    refine located_task (w := .none) user.1 ?_ ?_ (fun _ => rfl) placed
    · simpa using stays
    · simpa using window
  cases c with
  | forbid => exact user_located user (placed.same rfl rfl rfl rfl (fun _ => rfl) rfl)
  | yield =>
      refine ⟨seqs, .free, .handler ?_ ?_, ?_⟩
      · simp [Machine.call, Machine.enter, user.1]
      · simp [Machine.call, Machine.enter, user.1, Frame.isSwitch, Frame.fn]
      · have same := placed_intr false placed
        simpa [Machine.call, Machine.enter, user.1, hands, top, Frame.window] using same
  | _ => exact push _ rfl rfl

theorem halted_switch (h : halted f) : f.isSwitch = true := by
  cases f <;> first | rfl | cases h

theorem irq_located (h : Inv m) (free : m.inTask ∨ m.kstack.head?.any halted) (i : Irq) :
    Located (({ m with kstack := m.kstack.modifyHead .wake } : Machine).enter (.irq .enter i)) := by
  rcases free with user | halt
  · obtain ⟨seqs, placed⟩ := h.user user
    refine ⟨seqs, .free, .handler ?_ ?_, ?_⟩
    · simp [Machine.enter, user.1]
    · simp [Machine.enter, user.1, Frame.isSwitch, Frame.fn]
    · have same := placed_intr false placed
      simpa [Machine.enter, user.1, hands, top, Frame.window] using same
  · obtain ⟨seqs, s, fits, placed⟩ := h.placed
    cases fits with
    | switching fs pc c t e inside before idle plain =>
        cases fs with
        | nil =>
            have stop : pc = .halted := by
              rw [inside] at halt
              cases pc <;> first | rfl | cases halt
            subst stop
            have window : hands m = .none := by
              simp [hands, top, inside, Frame.window]
            rw [window] at placed
            refine ⟨seqs, .out, .switching [.irq .enter i (.kernel m.k.intr)] .test c t e ?_ rfl
                (fun _ => rfl) ?_, ?_⟩
            · simp [Machine.enter, inside, Frame.wake]
            · simp [Frame.isSwitch, Frame.fn]
            · have same := placed_intr false placed
              simpa [Machine.enter, inside, hands, top, Frame.window] using same
        | cons g gs =>
            have first := plain g List.mem_cons_self
            simp only [inside, List.cons_append, List.head?_cons, Option.any_some] at halt
            rw [halted_switch halt] at first
            cases first
    | task out | leaves out => simp [out] at halt
    | yields pc r inside => simp [inside, halted] at halt
    | handler inside plain =>
        cases stack : m.kstack with
        | nil => exact absurd stack inside
        | cons g gs =>
            have first := plain g (by simp [stack])
            simp only [stack, List.head?_cons, Option.any_some] at halt
            rw [halted_switch halt] at first
            cases first
    | switched pc c t e inside behind =>
        rw [inside] at halt
        cases pc with
        | setRun | restore => simp [halted] at halt
        | _ => cases behind

theorem inv_step (h : Inv m) (ok : Ok m e) (step : m.step e = some m') : Inv m' := by
  refine ⟨nested_step h.nested step, still_step h.still ok step, ?_⟩
  cases stepped_of_step step with
  | kernel stack run after =>
      refine kernel_located h stack run after (ok _ ?_)
      simp [top, stack]
  | task out stack run after =>
      refine task_located h out stack (ok _ ?_) run after
      simp [top, out, stack]
  | irq on unmasked => exact irq_located h ok _
  | call user c => exact call_located h user c
  | compute user others =>
      obtain ⟨seqs, placed⟩ := h.user user
      exact user_located user placed
  | store user dest byte =>
      obtain ⟨seqs, placed⟩ := h.user user
      exact user_located user (placed.same rfl rfl rfl rfl (fun _ => rfl) rfl)
  | keybd user queue =>
      obtain ⟨seqs, placed⟩ := h.user user
      exact user_located user (placed.same rfl rfl rfl rfl (fun _ => rfl) rfl)

theorem boot_placed (kernel_task : Ptr32) :
    Placed (Machine.boot kernel_task).k (fun _ => []) .free .none := by
  have none : Lists (fun _ => .null) (fun _ : TaskList => False) fun _ => ([] : List Ptr32) :=
    ⟨by simp, fun _ _ => rfl, fun _ _ _ => List.disjoint_nil_left _⟩
  have ready := new_list_spec (l := TaskList.tasks_ready) none id
  have both := new_list_spec (l := TaskList.tasks_wait) ready (by simp)
  have used : (Machine.boot kernel_task).k.Used = fun l => (False ∨ l = .tasks_ready) ∨
      l = .tasks_wait := by
    funext l
    cases l <;> simp [Kernel.Used, Machine.boot]
  refine ⟨used ▸ both, by simp, by simp [Machine.boot], .nil, fun t there => ?_, by simp,
      ⟨by simp, by simp, ?_⟩, trivial⟩
  · exact .inr (.inr ⟨rfl, of_decide_eq_true there⟩)
  · refine iff_of_true ?_ (by simp)
    simp [Machine.boot, ready_bit, TS_READY, TS_RUN]

theorem boot_inv (kernel_task : Ptr32) : Inv (.boot kernel_task) := by
  refine ⟨(boot_outside kernel_task).nested, ?_, ?_⟩
  · exact ⟨by simp [Machine.boot], by simp [Machine.boot], by simp [Machine.boot],
      fun t f mem => by simp [behind, Machine.current, Machine.boot] at mem⟩
  · exact user_located ⟨rfl, rfl⟩ (boot_placed kernel_task)

end Operations

end Krypton
