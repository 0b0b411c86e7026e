import Krypton.Kernel.Balance
import Krypton.Kernel.Blocks

/-! # The memory of the queues

A task creates queues, sends and receives without blocking, and destroys the
queues again. Between its calls every live block is a queue, a queued message or
the data of one, as long as no queue is destroyed with messages in it:
`destroy_queue` frees the queue alone.
-/

namespace Krypton

open LinkStore

namespace Leaks

/-- The calls on queues that never block; the queue must exist. -/
def QueueCall (k : Kernel) : Call → Prop
  | .createQueue .. => True
  | .destroyQueue queue => k.queues queue = true
  | .queueSend queue _ blocking | .queueRecv queue _ blocking =>
      k.queues queue = true ∧ blocking = false
  | _ => False

/-- A task that makes such calls, by itself. -/
def Ok (m : Machine) : Event → Prop
  | .call c => QueueCall m.k c
  | .stmt _ | .compute _ | .store .. => True
  | _ => False

/-- A queue is destroyed only when all its slots are free. -/
def Emptied (m : Machine) : Event → Prop
  | .call (.destroyQueue queue) => m.k.queues queue = true ∧
      (m.k.queue queue).free_slots = (m.k.queue queue).max_slots
  | e => Ok m e

/-- The live blocks are one for each queue, one for each queued message and one
    more for each that has data. -/
def Accounted (k : Kernel) : Prop :=
  ∃ g use, Books k g use ∧
    ∀ b u, use b = some u → u = .queue ∨ (∃ q, u = .message q) ∨ ∃ m, u = .data m

/-- No block outlives the queues. -/
def NoLeak (k : Kernel) : Prop :=
  Accounted k ∧ ((∀ q, k.queues q = false) → ∀ b, k.live b = false)

variable {m m' : Machine} {f : Frame} {fs rest : List Frame} {k k' : Kernel} {n : Next}
variable {g : Ptr32 → List Ptr32} {use : Ptr32 → Option Use} {block : Ptr32} {e : Event} {c : Call}

/-- A system call has not yet taken or freed its block. -/
def early : TrapPc → Bool
  | .enter | .sti | .body => true
  | _ => false

/-- Where the CPU is: between two calls, in one, or in a system call of one. -/
inductive Place (m : Machine) (g : Ptr32 → List Ptr32) (use : Ptr32 → Option Use) : Prop where
  | outside (out : m.kstack = []) (user : m.current = []) (holds : Holds use [])
      (slots : Slots m.k g fun _ => 0)
  | call (out : m.kstack = []) (f : Frame) (c : Call) (mine : Balance.own c f)
      (stack : m.current = [f] ∨ ∃ task sigs, m.current = [.signal .test task sigs, f])
      (here : Local m.k use f) (slots : Slots m.k g f.due)
  | trap (pc : TrapPc) (call : SysCall) (r : Regs) (f : Frame) (c : Call) (mine : Balance.own c f)
      (inside : m.kstack = [.trap pc call (.user r)]) (back : r.stack = m.regs.stack)
      (other : call ≠ .yield) (stack : m.current = [f])
      (here : if early pc then Pending m.k use call f else Local m.k use f)
      (slots : Slots m.k g f.due)

/-- No task waits, the scheduler is not asked for, and all blocks are the queues'. -/
structure Inv (m : Machine) : Prop where
  waiting : ∀ t, (m.k.task t).sigs_waiting = 0
  asked : m.k.sched_state = 0
  place : ∃ g use, Books m.k g use ∧ Kept (fun _ => none) use ∧ Place m g use

theorem own_retasks (mine : Balance.own c f) : f.retasks = false := by
  cases f with
  | createQueue | destroyQueue | queueSend | queueRecv | registerDevice | getDevice => rfl
  | _ => cases c <;> cases mine

/-- The queue functions leave the scheduler alone. -/
theorem local_sched (here : Local k use f) (run : exec block k f = some (k', n)) :
    k'.sched_state = k.sched_state := by
  cases f with
  | createQueue pc =>
      cases pc <;> cases run <;> rfl
  | destroyQueue pc =>
      cases pc <;> cases run <;> rfl
  | queueSend pc s =>
      cases pc with
      | copy | link =>
          obtain ⟨x, -, same⟩ := Option.bind_eq_some_iff.mp run
          cases same
          rfl
      | full | hasData | count | mode | refull =>
          simp only [exec, execSend] at run
          split at run <;> cases run <;> rfl
      | _ =>
          cases run
          rfl
  | queueRecv pc r =>
      cases pc with
      | freeData | first | next =>
          obtain ⟨x, -, same⟩ := Option.bind_eq_some_iff.mp run
          cases same
          rfl
      | copy =>
          simp only [exec, execRecv] at run
          split at run
          · obtain ⟨x, -, same⟩ := Option.bind_eq_some_iff.mp run
            cases same
            rfl
          · cases run
            rfl
      | empty | unlink | count | each | mode | reempty =>
          simp only [exec, execRecv] at run
          split at run <;> cases run <;> rfl
      | _ =>
          cases run
          rfl
  | _ => cases here

/-- The books go on with what a statement of the call has made of them. -/
theorem Kept.trans {use' : Ptr32 → Option Use} (h : Kept (fun _ => none) use) (h' : Kept use use') :
    Kept (fun _ => none) use' :=
  fun b u other => (h' b u other).trans (h b u other)

theorem own_step (h : Inv m) (books : Books m.k g use) (kept : Kept (fun _ => none) use)
    (mine : Balance.own c f) (here : Local m.k use f) (slots : Slots m.k g f.due)
    (out : m.kstack = []) (run : exec block m.k f = some (k, n))
    (after : ({ m with k } : Machine).afterTask [] n = some m') : Inv m' := by
  have on := Balance.exec_continued run mine
  obtain ⟨use', books', kept', onward⟩ := exec_booked books slots here run
  have task := (exec_effect run).task (own_retasks mine)
  have asked := (local_sched here run).trans h.asked
  have waiting : ∀ t, (k.task t).sigs_waiting = 0 := by rw [task]; exact h.waiting
  have kept'' := Kept.trans kept kept'
  cases n with
  | goto f' =>
      cases after
      refine ⟨waiting, asked, _, use', books', kept'', ?_⟩
      exact .call out f' c on.mine (.inl (by simp)) onward.1 onward.2
  | int f' call =>
      simp only [Machine.afterTask, Machine.enter, Machine.setCurrent_kstack, out] at after
      cases after
      refine ⟨waiting, asked, _, use', books'.frame rfl rfl rfl rfl, kept'', ?_⟩
      have current : (({ m with k } : Machine).setCurrent [f']).current = [f'] := by simp
      exact .trap .enter call _ f' c on.1.mine rfl rfl on.2 current onward.1 onward.2
  | call f' g =>
      obtain ⟨on, -, task, sigs, rfl⟩ := on
      cases after
      refine ⟨waiting, asked, _, use', books', kept'', ?_⟩
      exact .call out f' c on.mine (.inr ⟨task, sigs, by simp⟩) onward.1 onward.2
  | ret v =>
      cases after
      refine ⟨waiting, asked, _, use', books', kept'', ?_⟩
      exact .outside out (by simp) onward.1 onward.2
  | write f' b => cases after
  | iret regs => cases after

/-- Nobody waits, so a `signal` does nothing. -/
theorem signal_step {task sigs : BitVec 32} (h : Inv m) (books : Books m.k g use)
    (kept : Kept (fun _ => none) use) (mine : Balance.own c f) (here : Local m.k use f)
    (slots : Slots m.k g f.due) (out : m.kstack = [])
    (run : exec block m.k (.signal .test task sigs) = some (k, n))
    (after : ({ m with k } : Machine).afterTask [f] n = some m') : Inv m' := by
  have none : ¬ (sigs ≠ 0 ∧ (m.k.task task).sigs_waiting &&& sigs ≠ 0) := by
    simp [h.waiting]
  simp only [exec, execSignal, if_neg none] at run
  cases run
  cases after
  refine ⟨h.waiting, h.asked, g, use, books, kept, ?_⟩
  exact .call out f c mine (.inl (Machine.setCurrent_current _ _)) here slots

theorem trap_step {pc : TrapPc} {call : SysCall} {r : Regs} (h : Inv m) (books : Books m.k g use)
    (kept : Kept (fun _ => none) use) (mine : Balance.own c f) (back : r.stack = m.regs.stack)
    (other : call ≠ .yield) (stack : m.current = [f])
    (here : if early pc then Pending m.k use call f else Local m.k use f)
    (slots : Slots m.k g f.due)
    (run : exec block m.k (.trap pc call (.user r)) = some (k, n))
    (after : ({ m with k } : Machine).afterKernel [] n = some m') : Inv m' := by
  cases pc with
  | body =>
      cases call with
      | yield => exact absurd rfl other
      | kmalloc =>
          simp only [exec, execTrap] at run
          split at run
          · cases run
          · next free =>
              cases run
              cases after
              have unused : m.k.live block = false := by
                cases live : m.k.live block
                · rfl
                · exact absurd (.inl live) free
              obtain ⟨use', books', kept', here'⟩ := malloc_booked books unused here
              refine ⟨h.waiting, h.asked, g, use', books', Kept.trans kept kept', ?_⟩
              have due : (f.deliver (.ptr (some block))).due = f.due := by
                unfold Frame.deliver
                split <;> rfl
              refine .trap .cli .kmalloc r (f.deliver (.ptr (some block))) c ?_ rfl back
                  (by simp) ?_
                here' (by rw [due]; exact slots)
              · rwa [Balance.own_deliver]
              · rw [Machine.setCurrent_current]
                have same : ({ m
                    with k := { m.k with live := Function.update m.k.live block true } } :
                  Machine).current = [f] := stack
                rw [same]
                rfl
      | kfree ptr =>
          cases run
          cases after
          obtain ⟨use', books', kept', here'⟩ := free_booked books here
          exact ⟨h.waiting, h.asked, g, use', books', Kept.trans kept kept',
            .trap .cli (.kfree ptr) r f c mine rfl back (by simp) stack here' slots⟩
  | yielded =>
      cases run
      cases after
      exact ⟨h.waiting, h.asked, g, use, books.frame rfl rfl rfl rfl, kept,
        .trap .cli call r f c mine rfl back other stack here slots⟩
  | sched =>
      have calm : m.k.need = false := by simp [Kernel.need, h.asked]
      simp only [exec, execTrap, execSched, calm] at run
      cases run
      cases after
      exact ⟨h.waiting, h.asked, g, use, books.frame rfl rfl rfl rfl, kept,
        .trap .leave call r f c mine rfl back other stack here slots⟩
  | iret =>
      cases run
      cases after
      refine ⟨h.waiting, h.asked, g, use, books.frame rfl rfl rfl rfl, kept, ?_⟩
      have same : ({ m with k := { m.k with intr := r.intr }, kstack := [], regs := r } :
          Machine).current = m.current := by
        rw [Machine.current, Machine.current, back]
      exact .call rfl f c mine (.inl (same.trans stack)) here slots
  | _ =>
      cases run
      cases after
      exact ⟨h.waiting, h.asked, g, use, books.frame rfl rfl rfl rfl, kept,
        .trap _ call r f c mine rfl back other stack here slots⟩

theorem call_step (h : Inv m) (user : m.inTask) (ok : Emptied m (.call c)) : Inv (m.call c) := by
  obtain ⟨g, use, books, kept, place⟩ := h.place
  cases place with
  | call out f _ _ stack =>
      have none := user.2
      rcases stack with only | ⟨task, sigs, only⟩ <;> simp [only] at none
  | trap pc call r f _ _ inside =>
      have out := user.1
      simp [inside] at out
  | outside out empty holds slots =>
      have start (f : Frame) (mine : Balance.own c f) (here : Local m.k use f)
          (due : f.due = fun _ => 0) : Inv (m.setCurrent [f]) :=
        ⟨h.waiting, h.asked, g, use, books, kept,
          .call out f c mine (.inl (by simp)) here (by rw [due]; exact slots)⟩
      cases c with
      | createQueue max_slots elem_sz => exact start _ rfl holds rfl
      | destroyQueue queue => exact start _ rfl ⟨ok.1, ok.2, holds⟩ rfl
      | queueSend queue msg blocking =>
          obtain ⟨used, rfl⟩ := ok
          exact start _ (by simp [Balance.own]) ⟨used, holds⟩ rfl
      | queueRecv queue ptr blocking =>
          obtain ⟨used, rfl⟩ := ok
          exact start _ (by simp [Balance.own]) ⟨used, holds⟩ rfl
      | _ => cases ok

theorem inv_step (h : Inv m) (ok : Emptied m e) (step : m.step e = some m') : Inv m' := by
  obtain ⟨g, use, books, kept, place⟩ := h.place
  cases stepped_of_step step with
  | kernel inside run after =>
      cases place with
      | outside out => simp [out] at inside
      | call out => simp [out] at inside
      | trap pc call r f c mine only back other stack here slots =>
          rw [only] at inside
          cases inside
          exact trap_step h books kept mine back other stack here slots run after
  | task out stack run after =>
      cases place with
      | outside _ user => simp [user] at stack
      | trap pc call r f c mine inside => simp [inside] at out
      | call _ f c mine frames here slots =>
          rcases frames with only | ⟨task, sigs, only⟩
          · rw [only] at stack
            cases stack
            exact own_step h books kept mine here slots out run after
          · rw [only] at stack
            cases stack
            exact signal_step h books kept mine here slots out run after
  | irq => cases ok
  | call user c => exact call_step h user ok
  | compute user others =>
      cases place with
      | outside out empty holds slots =>
          exact ⟨h.waiting, h.asked, g, use, books, kept, .outside out empty holds slots⟩
      | call out f c mine frames =>
          have none := user.2
          rcases frames with only | ⟨task, sigs, only⟩ <;> simp [only] at none
      | trap pc call r f _ _ inside =>
          have out := user.1
          simp [inside] at out
  | store user dest byte =>
      cases place with
      | outside out empty holds slots =>
          exact ⟨h.waiting, h.asked, g, use, books.frame rfl rfl rfl rfl, kept,
            .outside out empty holds slots⟩
      | call out f c mine frames =>
          have none := user.2
          rcases frames with only | ⟨task, sigs, only⟩ <;> simp [only] at none
      | trap pc call r f _ _ inside =>
          have out := user.1
          simp [inside] at out
  | keybd => cases ok

theorem boot_inv (kernel_task : Ptr32) : Inv (.boot kernel_task) := by
  have books : Books (Machine.boot kernel_task).k (fun _ => []) fun _ => none := by
    constructor
    · exact ⟨nofun, fun _ _ => rfl, fun _ _ _ => List.disjoint_nil_left _⟩
    · exact fun _ => rfl
    · intro q
      constructor <;> rintro ⟨⟩
    · intro q m
      constructor <;> rintro ⟨⟩
    · intro m b
      constructor
      · rintro ⟨⟩
      · rintro ⟨⟨⟩, -⟩
  refine ⟨fun _ => rfl, rfl, _, _, books, .refl _, .outside rfl rfl ⟨List.nodup_nil, ?_⟩ nofun⟩
  intro b
  constructor <;> rintro ⟨⟩

theorem accounted (h : Inv m) (user : m.inTask) : NoLeak m.k := by
  obtain ⟨g, use, books, kept, place⟩ := h.place
  cases place with
  | call out f _ _ stack =>
      have none := user.2
      rcases stack with only | ⟨task, sigs, only⟩ <;> simp [only] at none
  | trap pc call r f _ _ inside =>
      have out := user.1
      simp [inside] at out
  | outside out empty holds slots =>
      constructor
      · refine ⟨g, use, books, fun b u same => ?_⟩
        cases u with
        | queue => exact .inl rfl
        | message q => exact .inr (.inl ⟨q, rfl⟩)
        | data m => exact .inr (.inr ⟨m, rfl⟩)
        | held => cases (holds.2 b).mp same
        | task creator => cases (kept b _ rfl).mp same
        | stack => cases (kept b _ rfl).mp same
      · intro none b
        have idle : ∀ q m, use m ≠ some (.message q) := by
          intro q m queued
          have mem := (books.message q m).mpr queued
          rw [books.lists.unused q (by simp [none])] at mem
          cases mem
        rw [books.live]
        cases same : use b with
        | none => rfl
        | some u =>
            cases u with
            | queue =>
                have used := (books.queue b).mpr same
                rw [none] at used
                cases used
            | message q => exact absurd same (idle q b)
            | data m =>
                obtain ⟨-, q, queued⟩ := (books.data m b).mp same
                exact absurd queued (idle q m)
            | held => cases (holds.2 b).mp same
            | task creator => cases (kept b _ rfl).mp same
            | stack => cases (kept b _ rfl).mp same

/-- The queues leak nothing when none is destroyed with messages in it. -/
theorem emptied_no_leak {kernel_task : Ptr32}
    (reached : Runs.Reach Machine.step Emptied (· = .boot kernel_task) m) (user : m.inTask) :
    NoLeak m.k := by
  refine accounted (Runs.Reach.invariant (I := Inv) ?_ (fun _ _ _ => inv_step) reached) user
  rintro m rfl
  exact boot_inv kernel_task

/-- A queue of one slot is created and gets a message. -/
def sent : List Event :=
  [.call (.createQueue 1 4)] ++ List.replicate 13 (.stmt 8) ++ [.call (.queueSend 8 none false)] ++
    List.replicate 19 (.stmt 12)

/-- It is destroyed at once. -/
def destroyed : List Event := sent ++ [.call (.destroyQueue 8)] ++ List.replicate 13 (.stmt 0)

instance (k : Kernel) : (c : Call) → Decidable (QueueCall k c)
  | .createQueue .. => instDecidableTrue
  | .destroyQueue queue => inferInstanceAs (Decidable (k.queues queue = true))
  | .queueSend .. | .queueRecv .. => instDecidableAnd
  | .forbid | .permit | .yield | .wait .. | .signal .. | .delay _ => instDecidableFalse
  | .createTask _ | .registerDevice _ | .getDevice _ => instDecidableFalse

instance (m : Machine) : (e : Event) → Decidable (Ok m e)
  | .call c => inferInstanceAs (Decidable (QueueCall m.k c))
  | .stmt _ | .compute _ | .store .. => instDecidableTrue
  | .irq _ | .keybd _ => instDecidableFalse

/-- The message is still live. -/
def leaked (m : Machine) : Bool := m.inTask ∧ m.k.live 12

theorem destroyed_queues : (Runs.run Machine.step (.boot 4) destroyed).map (·.k.queues) =
    some (Function.update (Function.update (fun _ => false) 8 true) 8 false) := by
  rfl

theorem destroy_leaks : ¬ ∀ kernel_task m, Runs.Reach Machine.step Ok (· = .boot kernel_task) m →
    m.inTask → NoLeak m.k := by
  intro safe
  have meets : Runs.Meets Machine.step Ok (.boot 4) destroyed := by decide +kernel
  have leaks : (Runs.run Machine.step (.boot 4) destroyed).any leaked := by decide +kernel
  obtain ⟨m, run, queues⟩ := Option.map_eq_some_iff.mp destroyed_queues
  rw [run] at leaks
  obtain ⟨user, live⟩ := of_decide_eq_true leaks
  have gone : ∀ q, m.k.queues q = false := by
    intro q
    rw [queues]
    by_cases here : q = 8#32
    · simp [here]
    · simp [here]
  have freed := (safe 4 m (.of_run (.start rfl) meets run) user).2 gone 12
  rw [live] at freed
  cases freed

instance (m : Machine) : (e : Event) → Decidable (Emptied m e)
  | .call (.destroyQueue _) => instDecidableAnd
  | .call (.createQueue ..) | .stmt _ | .compute _ | .store .. => instDecidableTrue
  | .call (.queueSend ..) | .call (.queueRecv ..) => instDecidableAnd
  | .call .forbid | .call .permit | .call .yield | .call (.wait ..) | .call (.signal ..) =>
      instDecidableFalse
  | .call (.delay _) | .call (.createTask _) | .call (.registerDevice _) => instDecidableFalse
  | .call (.getDevice _) | .irq _ | .keybd _ => instDecidableFalse

/-- A queue is created, carries a message with four bytes of data, and is destroyed. -/
def exchanged : List Event :=
  [.call (.createQueue 1 4)] ++ List.replicate 13 (.stmt 8) ++
    [.call (.queueSend 8 (some (256, 0)) false)] ++ List.replicate 11 (.stmt 12) ++
    List.replicate 18 (.stmt 16) ++
    [.call (.queueRecv 8 (some (260, 0)) false)] ++ List.replicate 26 (.stmt 0) ++
    [.call (.destroyQueue 8)] ++ List.replicate 13 (.stmt 0)

theorem emptied_no_leak_exchanged :
    ∃ m, Runs.run Machine.step (.boot 4) exchanged = some m ∧ m.inTask ∧ NoLeak m.k := by
  have meets : Runs.Meets Machine.step Emptied (.boot 4) exchanged := by decide +kernel
  have start : Runs.Reach Machine.step Emptied (· = .boot 4) (.boot 4) := .start rfl
  have ends : (Runs.run Machine.step (.boot 4) exchanged).any (·.inTask) := by decide +kernel
  obtain ⟨m, ran, user⟩ := (Option.any_eq_true _ _).mp ends
  have user := of_decide_eq_true user
  exact ⟨m, ran, user, emptied_no_leak (start.of_run meets ran) user⟩

end Leaks

end Krypton
