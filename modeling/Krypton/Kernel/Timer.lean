import Krypton.Kernel.Handlers

/-! # The timer

`timer_callback` walks along `tasks_wait` and signals the tasks whose delay is
over. A task that was signalled is in `tasks_ready` by then, and its next
pointer leads on there.
-/

namespace Krypton

open LinkStore

namespace Timer

/-- The task waits for its delay. -/
def Sleeps (k : Kernel) (t : Ptr32) : Prop := (k.task t).sigs_waiting &&& TB_DELAY ≠ 0

/-- This is the last tick of its delay. -/
def Expires (k : Kernel) (t : Ptr32) : Prop := Sleeps k t ∧ (k.task t).task_delay = 1

instance (k : Kernel) (t : Ptr32) : Decidable (Sleeps k t) := instDecidableNot

instance (k : Kernel) (t : Ptr32) : Decidable (Expires k t) := instDecidableAnd

def counted (t : Task) : Task := { t with task_delay := t.task_delay - 1 }

/-- What `signal` makes of the task. -/
def woken (t : Task) : Task :=
  { t with
    flags := t.flags ||| TS_READY
    sigs_waiting := t.sigs_waiting &&& ~~~TB_DELAY
    sigs_recvd := t.sigs_recvd ||| TB_DELAY }

variable {k k' : Kernel} {used : TaskList → Prop} {seqs : TaskList → List Ptr32}
variable {l : TaskList} {e : Ptr32} {xs ys : List Ptr32} {f : Frame} {fs : List Frame}

/-- A `yield` inside a handler only asks for the scheduler, and ends the critical section. -/
theorem yield_leads (level : 0 ≤ k.k_reenter) (intr : Bool) (f : Frame) (fs : List Frame) : ∃ k',
    Leads (k, .trap .enter .yield (.kernel intr) :: f :: fs) (k', f :: fs) ∧
      k'.task = k.task ∧ k'.links = k.links ∧ k'.k_reenter = k.k_reenter := by
  let k₁ : Kernel :=
    { k.setNeed with k_reenter := k.k_reenter + 1, forbid_counter := 0, intr := false }
  have first : Leads (k, .trap .enter .yield (.kernel intr) :: f :: fs)
      (k₁, .trap .sched .yield (.kernel intr) :: f :: fs) := ⟨5, by decide, rfl⟩
  have need : k₁.need = true := setNeed_need k
  have inside : k₁.forbid_counter > 0 ∨ k₁.k_reenter > 0 := .inr (Int.lt_add_one_of_le level)
  have none : k₁.schedule = some (k₁, false) := if_pos inside
  have second : Leads (k₁, .trap .sched .yield (.kernel intr) :: f :: fs)
      (k₁, .trap .leave .yield (.kernel intr) :: f :: fs) := by
    refine .step ?_
    simp only [advance, exec, execTrap, execSched, need, none]
    rfl
  have last : Leads (k₁, .trap .leave .yield (.kernel intr) :: f :: fs)
      ({ k₁ with k_reenter := k₁.k_reenter - 1, intr }, f :: fs) := ⟨2, by decide, rfl⟩
  exact ⟨_, first.trans (second.trans last), rfl, rfl, Int.add_sub_cancel ..⟩

/-- The state after the signal, of which the lists are `seqs`. -/
structure Signalled (k k' : Kernel) (e : Ptr32) (used : TaskList → Prop)
    (seqs : TaskList → List Ptr32) : Prop where
  task : k'.task = Function.update k.task e (woken (k.task e))
  lists : Lists k'.links used seqs
  level : k'.k_reenter = k.k_reenter

/-- The lists after the task `e` was moved to `tasks_ready`. -/
def moved (k : Kernel) (seqs : TaskList → List Ptr32) (l : TaskList) (e : Ptr32)
    (rest : List Ptr32) :
    TaskList → List Ptr32 :=
  let seqs := Function.update seqs l rest
  Function.update seqs .tasks_ready (insertPri k.pri e (seqs .tasks_ready))

theorem moved_ready {rest : List Ptr32} : moved k seqs l e rest .tasks_ready =
    insertPri k.pri e (Function.update seqs l rest .tasks_ready) := by
  rw [moved, Function.update_self]

theorem setTask_task (t : Ptr32) (g : Task → Task) :
    (k.setTask t g).task = Function.update k.task t (g (k.task t)) := rfl

/-- A store to a task that keeps its priority keeps the order. -/
theorem pri_kept {t : Task} (task : k'.task = Function.update k.task e t) (pri : t.pri = k.pri e) :
    k'.pri = k.pri := by
  funext u
  rw [Kernel.pri, task]
  by_cases same : u = e
  · rw [same, Function.update_self, pri]
  · rw [Function.update_of_ne same]
    rfl

theorem signal_leads (lists : Lists k.links used seqs) (ready : used .tasks_ready)
    (cut : seqs l = xs ++ e :: ys) (sleeps : Sleeps k e) (level : 0 ≤ k.k_reenter)
    (fs : List Frame) :
    ∃ k', Leads (k, .signal .test e TB_DELAY :: fs)
        (k', fs.modifyHead (.deliver (.word TB_DELAY))) ∧
      Signalled k k' e used (moved k seqs l e (xs ++ ys)) := by
  have test : advance k (.signal .test e TB_DELAY) fs =
      some (k, .signal .forbid e TB_DELAY :: fs) := by
    have sigs : TB_DELAY ≠ 0 ∧ (k.task e).sigs_waiting &&& TB_DELAY ≠ 0 := ⟨by decide, sleeps⟩
    simp only [advance, exec, execSignal, if_pos sigs]
    rfl
  let k₁ : Kernel :=
    ((k.forbid.setTask e fun t => { t with flags := t.flags ||| TS_READY }).setTask e
    fun t => { t with sigs_waiting := t.sigs_waiting &&& ~~~TB_DELAY }).setTask e
    fun t => { t with sigs_recvd := t.sigs_recvd ||| TB_DELAY }
  have flags : Leads (k, .signal .forbid e TB_DELAY :: fs) (k₁, .signal .remove e TB_DELAY :: fs) :=
    ⟨4, by decide, rfl⟩
  have task : k₁.task = Function.update k.task e (woken (k.task e)) := by
    simp [k₁, Kernel.setTask, Kernel.forbid, woken]
  have pri : k₁.pri = k.pri := pri_kept task rfl
  obtain ⟨s₁, removed, lists₁⟩ := remove_spec xs ys lists cut
  have fresh := lists.fresh_of_cut cut
  obtain ⟨s₂, entered, lists₂⟩ := enqueue_spec k.pri lists₁ ready fresh
    (ptrs_length (lists₁.each _ ready).nodup)
  let k₂ : Kernel := { k₁ with links := s₁ }
  let k₃ : Kernel := { k₁ with links := s₂ }
  have remove :
      Leads (k₁, .signal .remove e TB_DELAY :: fs) (k₂, .signal .enqueue e TB_DELAY :: fs) := by
    have links : k₁.links = k.links := rfl
    refine .step ?_
    simp only [advance, exec, execSignal, Kernel.removeTask, links, removed]
    rfl
  have enqueue :
      Leads (k₂, .signal .enqueue e TB_DELAY :: fs) (k₃, .signal .permit e TB_DELAY :: fs) := by
    have pri₂ : k₂.pri = k.pri := pri
    have links : k₂.links = s₁ := rfl
    refine .step ?_
    simp only [advance, exec, execSignal, Kernel.enqueueTask, pri₂, links, entered]
    rfl
  have before :
      Leads (k, .signal .test e TB_DELAY :: fs) (k₃.permit, .signal .priTest e TB_DELAY :: fs) :=
    (Leads.step test).trans (flags.trans (remove.trans (enqueue.trans
      (.permit (fun pc => .signal pc e TB_DELAY) .lower .priTest rfl rfl))))
  have task₃ : k₃.task = Function.update k.task e (woken (k.task e)) := task
  by_cases higher : k₃.permit.pri k₃.permit.running_task ≤ k₃.permit.pri e
  · have int :
        Leads (k₃.permit, .signal .priTest e TB_DELAY :: fs) ({ k₃.permit with intr := false },
        .trap .enter .yield (.kernel k₃.permit.intr) :: .signal .ret e TB_DELAY :: fs) := by
      refine .step ?_
      simp only [advance, exec, execSignal, if_pos higher]
      rfl
    obtain ⟨k', yields, same, links, level'⟩ := yield_leads (k := { k₃.permit with intr := false })
      level k₃.permit.intr (.signal .ret e TB_DELAY) fs
    refine ⟨k', before.trans (int.trans (yields.trans (.step rfl))), same.trans task₃, ?_, level'⟩
    rw [links]
    exact lists₂
  · have skip : Leads (k₃.permit, .signal .priTest e TB_DELAY :: fs)
        (k₃.permit, .signal .ret e TB_DELAY :: fs) := by
      refine .step ?_
      simp only [advance, exec, execSignal, if_neg higher]
      rfl
    exact ⟨_, before.trans (skip.trans (.step rfl)), task₃, lists₂, rfl⟩

/-! ## One task of the walk -/

/-- The walk has come to the task `t`, or to its end. -/
def walking (t : Option Ptr32) : List Frame := [.timerCallback .each (orNull t)]

/-- What the walk makes of a task whose delay goes on. -/
def aged (t : Task) : Task := if t.sigs_waiting &&& TB_DELAY ≠ 0 then counted t else t

theorem next_leads (lists : Lists k.links used seqs) (cut : seqs l = xs ++ e :: ys) :
    Leads (k, [.timerCallback .next (.node e)]) (k, walking ys.head?) := by
  have list := lists.each l (lists.live_of_mem (n := e) (by simp [cut]))
  rw [cut] at list
  have next := get_next_eq list
  refine .step ?_
  simp only [advance, exec, execTimer, next]
  rfl

theorem end_leads : Leads (k, walking none) (k.setNeed, []) := ⟨2, by decide, rfl⟩

/-- `--task_delay <= 0`, without a sign. -/
theorem delay_over {t : Task} : (counted t).task_delay ≤ 0 ↔ t.task_delay = 1 := by
  unfold counted
  constructor <;> intro h <;> bv_omega

theorem aged_leads (lists : Lists k.links used seqs) (cut : seqs l = xs ++ e :: ys)
    (stays : ¬ Expires k e) :
    Leads (k, walking (some e)) (k.setTask e aged, walking ys.head?) := by
  have each : Leads (k, walking (some e)) (k, [.timerCallback .delayed (.node e)]) := .step rfl
  by_cases sleeps : Sleeps k e
  · have test :
        Leads (k, [.timerCallback .delayed (.node e)]) (k, [.timerCallback .count (.node e)]) := by
      refine .step ?_
      simp only [advance, exec, execTimer, if_pos (show _ ≠ _ from sleeps)]
      rfl
    have same : k.setTask e counted = k.setTask e aged := by
      simp only [Kernel.setTask, aged, if_pos (show _ ≠ _ from sleeps)]
    have goes : ¬ ((k.setTask e counted).task e).task_delay ≤ 0 := by
      rw [Kernel.setTask_self]
      exact fun last => stays ⟨sleeps, delay_over.mp last⟩
    have expired : Leads (k.setTask e counted, [.timerCallback .expired (.node e)])
        (k.setTask e counted, [.timerCallback .next (.node e)]) := by
      refine .step ?_
      simp only [advance, exec, execTimer, if_neg goes]
      rfl
    have on := next_leads (k := k.setTask e counted) lists cut
    exact each.trans (test.trans ((Leads.step rfl).trans (expired.trans (same ▸ on))))
  · have test :
        Leads (k, [.timerCallback .delayed (.node e)]) (k, [.timerCallback .next (.node e)]) := by
      refine .step ?_
      simp only [advance, exec, execTimer, if_neg (show ¬ _ ≠ _ from sleeps)]
      rfl
    have same : k = k.setTask e aged := by
      simp only [Kernel.setTask, aged, if_neg (show ¬ _ ≠ _ from sleeps), Function.update_eq_self]
    have on := each.trans (test.trans (next_leads lists cut))
    exact same ▸ on

/-- The walk goes on behind the task in `tasks_ready`. -/
theorem expired_leads (lists : Lists k.links used seqs) (ready : used .tasks_ready)
    (cut : seqs l = xs ++ e :: ys) (expires : Expires k e) (level : 0 ≤ k.k_reenter) :
    ∃ k', Leads (k, walking (some e)) (k', walking
        (((Function.update seqs l (xs ++ ys)) .tasks_ready).dropWhile (k.pri e ≤ k.pri ·)).head?) ∧
      k'.task = Function.update k.task e (woken (counted (k.task e))) ∧
      Lists k'.links used (moved k seqs l e (xs ++ ys)) ∧ k'.k_reenter = k.k_reenter := by
  obtain ⟨sleeps, last⟩ := expires
  let k₁ : Kernel := { k.setTask e counted with intr := false }
  have first : Leads (k, walking (some e)) (k, [.timerCallback .delayed (.node e)]) := .step rfl
  have test : Leads (k, [.timerCallback .delayed (.node e)])
      (k, [.timerCallback .count (.node e)]) := by
    refine .step ?_
    simp only [advance, exec, execTimer, if_pos (show _ ≠ _ from sleeps)]
    rfl
  have expired : Leads (k.setTask e counted, [.timerCallback .expired (.node e)])
      (k.setTask e counted, [.timerCallback .cli (.node e)]) := by
    have zero : ((k.setTask e counted).task e).task_delay ≤ 0 := by
      rw [Kernel.setTask_self]
      exact delay_over.mpr last
    refine .step ?_
    simp only [advance, exec, execTimer, if_pos zero]
    rfl
  have call : Leads (k.setTask e counted, [.timerCallback .cli (.node e)])
      (k₁, [.signal .test e TB_DELAY, .timerCallback .sti (.node e)]) := ⟨2, by decide, rfl⟩
  have sleeps₁ : Sleeps k₁ e := by
    unfold Sleeps
    have task : k₁.task e = counted (k.task e) := Function.update_self ..
    rw [task]
    exact sleeps
  have pri : k₁.pri = k.pri := pri_kept (setTask_task e counted) rfl
  obtain ⟨k₂, signals, task, lists₂, level₂⟩ :=
    signal_leads (k := k₁) lists ready cut sleeps₁ level [.timerCallback .sti (.node e)]
  have order : moved k₁ seqs l e (xs ++ ys) = moved k seqs l e (xs ++ ys) := by
    unfold moved
    rw [pri]
  rw [order] at lists₂
  let k₃ : Kernel := { k₂ with intr := true }
  have sti : Leads (k₂, [.timerCallback .sti (.node e)]) (k₃, [.timerCallback .next (.node e)]) :=
    .step rfl
  have next := next_leads (k := k₃) lists₂ moved_ready
  refine ⟨k₃, first.trans (test.trans ((Leads.step rfl).trans (expired.trans (call.trans
    (signals.trans (sti.trans next)))))), ?_, lists₂, level₂⟩
  have task₃ : k₃.task = k₂.task := rfl
  have once : k₁.task e = counted (k.task e) := Function.update_self ..
  have others : k₁.task = Function.update k.task e (counted (k.task e)) := rfl
  rw [task₃, task, once, others, Function.update_idem]

/-! ## The walk along a list -/

/-- The walk has passed the tasks `ts`, none of which expired. -/
def agedAll (k : Kernel) (ts : List Ptr32) : Kernel := ts.foldl (fun k t => k.setTask t aged) k

theorem agedAll_task (ts : List Ptr32) (nodup : ts.Nodup) (u : Ptr32) :
    (agedAll k ts).task u = if u ∈ ts then aged (k.task u) else k.task u := by
  induction ts generalizing k with
  | nil => rfl
  | cons t ts ih =>
      obtain ⟨new, nodup⟩ := List.nodup_cons.mp nodup
      have rest := ih (k := k.setTask t aged) nodup
      unfold agedAll at rest ⊢
      rw [List.foldl_cons, rest]
      by_cases here : u = t
      · rw [here, if_neg new, if_pos List.mem_cons_self, Kernel.setTask_self]
      · rw [Kernel.setTask_other k aged here]
        simp [here]

theorem agedAll_frame (ts : List Ptr32) : (agedAll k ts).links = k.links ∧
    (agedAll k ts).k_reenter = k.k_reenter ∧ (agedAll k ts).pri = k.pri := by
  induction ts generalizing k with
  | nil => exact ⟨rfl, rfl, rfl⟩
  | cons t ts ih =>
      obtain ⟨links, level, pri⟩ := ih (k := k.setTask t aged)
      have same : (k.setTask t aged).pri = k.pri := by
        refine pri_kept (setTask_task t aged) ?_
        unfold aged
        split <;> rfl
      exact ⟨links, level, pri.trans same⟩

theorem aged_walk (k' : Kernel) (xs pre zs : List Ptr32) (lists : Lists k.links used seqs)
    (cut : seqs l = xs ++ (pre ++ zs)) (stay : ∀ t ∈ pre, ¬ Expires k t) :
    Completes (k, walking (pre ++ zs).head?) k' ↔
        Completes (agedAll k pre, walking zs.head?) k' := by
  induction pre generalizing k xs with
  | nil => rfl
  | cons t pre ih =>
      have here : seqs l = xs ++ t :: (pre ++ zs) := cut
      have step := aged_leads lists here (stay t List.mem_cons_self)
      have nodup := (lists.each l (lists.live_of_mem (n := t) (by simp [here]))).nodup
      rw [here] at nodup
      have new := (List.nodup_cons.mp (List.nodup_middle.mp nodup)).1
      have stay' : ∀ u ∈ pre, ¬ Expires (k.setTask t aged) u := by
        intro u mem
        have other : u ≠ t := by
          rintro rfl
          exact new (by simp [mem])
        unfold Expires Sleeps
        rw [Kernel.setTask_other k aged other]
        exact stay u (List.mem_cons_of_mem t mem)
      exact step.completes_iff.trans
          (ih (xs ++ [t]) (k := k.setTask t aged) lists (by simp [here]) stay')

/-! ## What the walk does behind a task that it signalled -/

/-- How many more ticks the delay takes. -/
def left (t : Task) : Nat := (t.task_delay - 1).toNat

/-- The task has been counted since it was `t₀`, or waits no longer. -/
def Worn (t₀ t : Task) : Prop := t.sigs_waiting &&& TB_DELAY ≠ 0 → left t < left t₀

theorem left_counted {t : Task} (more : t.task_delay ≠ 1) : left (counted t) < left t := by
  unfold left counted
  bv_omega

theorem worn_woken (t₀ t : Task) : Worn t₀ (woken t) := by
  intro waits
  refine absurd ?_ waits
  unfold woken
  rw [BitVec.and_assoc, BitVec.and_comm (~~~TB_DELAY), BitVec.and_not_self]
  exact BitVec.and_zero

theorem worn_aged {t₀ t : Task} (more : t.sigs_waiting &&& TB_DELAY ≠ 0 → t.task_delay ≠ 1)
    (worn : Worn t₀ t ∨ t₀ = t) : Worn t₀ (aged t) := by
  unfold aged
  split
  · rename_i sleeps
    intro _
    have less := left_counted (more sleeps)
    cases worn with
    | inl worn => exact Nat.lt_trans less (worn sleeps)
    | inr same => exact same ▸ less
  · rename_i awake
    exact fun sleeps => absurd sleeps awake

/-- From a task of `tasks_ready` on, the walk stays there and only counts down. -/
theorem ready_walk (n : Nat) (lists : Lists k.links used seqs) (ready : used .tasks_ready)
    (cut : seqs .tasks_ready = xs ++ ys) (level : 0 ≤ k.k_reenter)
    (run : advances n (k, walking ys.head?) = some (k', [])) :
    (∀ u, u ∉ seqs .tasks_ready → k'.task u = k.task u) ∧
      ∀ u t₀, Worn t₀ (k.task u) → Worn t₀ (k'.task u) := by
  induction n using Nat.strong_induction_on generalizing k seqs xs ys with
  | h n ih =>
      cases ys with
      | nil =>
          obtain ⟨j, -, rest⟩ := end_leads.remaining run
          cases completes_nil.mp ⟨j, rest⟩
          exact ⟨fun _ _ => rfl, fun _ _ => id⟩
      | cons t ys =>
          by_cases expires : Expires k t
          · obtain ⟨k₁, leads, task, lists₁, level₁⟩ := expired_leads lists ready cut expires level
            obtain ⟨j, less, rest⟩ := leads.remaining run
            rw [Function.update_self] at rest
            have cut₁ : moved k seqs .tasks_ready t (xs ++ ys) .tasks_ready =
                ((xs ++ ys).takeWhile (k.pri t ≤ k.pri ·) ++ [t]) ++
                  (xs ++ ys).dropWhile (k.pri t ≤ k.pri ·) := by
              simp [moved_ready, insertPri]
            have level₂ : 0 ≤ k₁.k_reenter := level₁ ▸ level
            obtain ⟨frame, worn⟩ := ih j less lists₁ cut₁ level₂ rest
            refine ⟨fun u out => ?_, fun u t₀ old => worn u t₀ ?_⟩
            · have other : u ≠ t := by
                rintro rfl
                exact out (by simp [cut])
              have out₁ : u ∉ moved k seqs .tasks_ready t (xs ++ ys) .tasks_ready := by
                rw [moved_ready, mem_insertPri, Function.update_self]
                rw [cut] at out
                simp only [List.mem_append, List.mem_cons] at out ⊢
                tauto
              rw [frame u out₁, task, Function.update_of_ne other]
            · rw [task]
              by_cases here : u = t
              · rw [here, Function.update_self]
                exact worn_woken t₀ (counted (k.task t))
              · rw [Function.update_of_ne here]
                exact old
          · have leads := aged_leads lists cut expires
            obtain ⟨j, less, rest⟩ := leads.remaining run
            have cut₁ : seqs .tasks_ready = (xs ++ [t]) ++ ys := by simp [cut]
            obtain ⟨frame, worn⟩ := ih j less (k := k.setTask t aged) lists cut₁ level rest
            refine ⟨fun u out => ?_, fun u t₀ old => worn u t₀ ?_⟩
            · have other : u ≠ t := by
                rintro rfl
                exact out (by simp [cut])
              rw [frame u out, Kernel.setTask_other k aged other]
            · by_cases here : u = t
              · rw [here, Kernel.setTask_self]
                exact worn_aged (fun sleeps last => expires ⟨sleeps, last⟩) (.inl (here ▸ old))
              · rw [Kernel.setTask_other k aged here]
                exact old

/-- A task of `tasks_ready` that the walk comes to is counted, or waits no longer. -/
theorem ready_visits (lists : Lists k.links used seqs) (ready : used .tasks_ready)
    (cut : seqs .tasks_ready = xs ++ e :: ys) (level : 0 ≤ k.k_reenter)
    (completes : Completes (k, walking (some e)) k') : Worn (k.task e) (k'.task e) := by
  by_cases expires : Expires k e
  · obtain ⟨k₁, leads, task, lists₁, level₁⟩ := expired_leads lists ready cut expires level
    obtain ⟨n, run⟩ := leads.completes_iff.mp completes
    rw [Function.update_self] at run
    have cut₁ : moved k seqs .tasks_ready e (xs ++ ys) .tasks_ready =
        ((xs ++ ys).takeWhile (k.pri e ≤ k.pri ·) ++ [e]) ++
          (xs ++ ys).dropWhile (k.pri e ≤ k.pri ·) := by
      simp [moved_ready, insertPri]
    refine (ready_walk n lists₁ ready cut₁ (level₁ ▸ level) run).2 e _ ?_
    rw [task, Function.update_self]
    exact worn_woken _ _
  · obtain ⟨n, run⟩ := (aged_leads lists cut expires).completes_iff.mp completes
    have cut₁ : seqs .tasks_ready = (xs ++ [e]) ++ ys := by simp [cut]
    refine (ready_walk n (k := k.setTask e aged) lists ready cut₁ level run).2 e _ ?_
    rw [Kernel.setTask_self]
    exact worn_aged (fun sleeps last => expires ⟨sleeps, last⟩) (.inr rfl)

/-! ## The tick -/

/-- The tick is counted and the first task of `tasks_wait` looked up before the lock is tested. -/
theorem tick_leads (lists : Lists k.links used seqs) (waiting : used .tasks_wait) :
    Leads (k, [.timerCallback .tick .null]) ({ k with system_tick := k.system_tick + 1 },
      [.timerCallback .lock (orNull (seqs .tasks_wait).head?)]) := by
  have head := get_head_eq (lists.each .tasks_wait waiting)
  let k₁ : Kernel := { k with system_tick := k.system_tick + 1 }
  have first : Leads (k, [.timerCallback .tick .null]) (k₁, [.timerCallback .first .null]) :=
    .step rfl
  have second : Leads (k₁, [.timerCallback .first .null])
      (k₁, [.timerCallback .lock (orNull (seqs .tasks_wait).head?)]) := by
    have links : k₁.links = k.links := rfl
    refine .step ?_
    simp only [advance, exec, execTimer, links, head]
    rfl
  exact first.trans second

theorem tick_completes (lists : Lists k.links used seqs) (waiting : used .tasks_wait)
    (unlocked : k.wait_lock = 0) :
    Completes (k, [.timerCallback .tick .null]) k' ↔ Completes
      ({ k with system_tick := k.system_tick + 1 }, walking (seqs .tasks_wait).head?) k' := by
  let k₁ : Kernel := { k with system_tick := k.system_tick + 1 }
  have last : Leads (k₁, [.timerCallback .lock (orNull (seqs .tasks_wait).head?)])
      (k₁, walking (seqs .tasks_wait).head?) := by
    have lock : k₁.wait_lock = 0 := unlocked
    refine .step ?_
    simp only [advance, exec, execTimer, if_pos lock]
    rfl
  exact ((tick_leads lists waiting).trans last).completes_iff

/-- The tick that led from `k` to `k'` served every sleeper of `tasks_wait`, and no other task. -/
structure Served (k k' : Kernel) (used : TaskList → Prop) (seqs : TaskList → List Ptr32) :
    Prop where
  counts : ∀ t ∈ seqs .tasks_wait, Sleeps k t → (k'.task t).task_delay = (k.task t).task_delay - 1
  /-- of the others in `tasks_wait` only the delay was counted -/
  stays : ∀ t ∈ seqs .tasks_wait, ¬ Expires k t → k'.task t = aged (k.task t)
  untouched : ∀ t ∈ seqs .tasks_ready, k'.task t = k.task t
  lists : ∃ ready, Lists k'.links used (Function.update
      (Function.update seqs .tasks_wait ((seqs .tasks_wait).filter (¬ Expires k ·))) .tasks_ready
          ready) ∧
    ready.Perm ((seqs .tasks_wait).filter (Expires k ·) ++ seqs .tasks_ready) ∧
    (seqs .tasks_ready).Sublist ready

/-- No task waits for its delay behind the first one that expires: neither in
    `tasks_wait`, nor in `tasks_ready` behind the place that it gets there. -/
def AllBefore (k : Kernel) (wait ready : List Ptr32) : Prop :=
  match wait.dropWhile (¬ Expires k ·) with
  | [] => True
  | e :: post =>
      (∀ t ∈ post, ¬ Sleeps k t) ∧ ∀ t ∈ ready.dropWhile (k.pri e ≤ k.pri ·), ¬ Sleeps k t

theorem aged_sleeps (sleeps : Sleeps k e) : aged (k.task e) = counted (k.task e) := if_pos sleeps

theorem aged_awake (awake : ¬ Sleeps k e) : aged (k.task e) = k.task e := if_neg awake

theorem agedAll_awake (ts : List Ptr32) (awake : ∀ t ∈ ts, ¬ Sleeps k t) : agedAll k ts = k := by
  induction ts with
  | nil => rfl
  | cons t ts ih =>
      have same : k.setTask t aged = k := by
        simp only [Kernel.setTask, aged_awake (awake t List.mem_cons_self), Function.update_eq_self]
      have rest := ih fun u mem => awake u (List.mem_cons_of_mem t mem)
      unfold agedAll at rest ⊢
      rw [List.foldl_cons, same, rest]

theorem end_completes : Completes (k, walking none) k' ↔ k' = k.setNeed :=
  end_leads.completes_iff.trans completes_nil

/-- The walk has woken its first task, `e`; it came past the tasks `pre`. -/
structure Woke (k k' : Kernel) (pre : List Ptr32) (e : Ptr32) (used : TaskList → Prop)
    (seqs : TaskList → List Ptr32) : Prop where
  before : ∀ u ∈ pre, k'.task u = aged (k.task u)
  here : k'.task e = woken (counted (k.task e))
  others : ∀ u, u ∉ pre → u ≠ e → k'.task u = k.task u
  lists : Lists k'.links used seqs
  level : 0 ≤ k'.k_reenter

theorem first_wakes {pre post : List Ptr32} (lists : Lists k.links used seqs)
    (ready : used .tasks_ready)
    (cut : seqs .tasks_wait = pre ++ e :: post) (stay : ∀ t ∈ pre, ¬ Expires k t)
    (expires : Expires k e) (level : 0 ≤ k.k_reenter) : ∃ k₁,
    Woke k k₁ pre e used (moved k seqs .tasks_wait e (pre ++ post)) ∧
      ∀ k', Completes (k, walking (seqs .tasks_wait).head?) k' ↔
        Completes (k₁, walking ((seqs .tasks_ready).dropWhile (k.pri e ≤ k.pri ·)).head?) k' := by
  have mem : e ∈ seqs .tasks_wait := by simp [cut]
  have nodup := (lists.each _ (lists.live_of_mem mem)).nodup
  rw [cut] at nodup
  have new : e ∉ pre := fun mem =>
    (List.nodup_cons.mp (List.nodup_middle.mp nodup)).1 (List.mem_append_left _ mem)
  have distinct : pre.Nodup := nodup.of_append_left
  let k₀ := agedAll k pre
  obtain ⟨links, level₀, pri⟩ := agedAll_frame (k := k) pre
  have lists₀ : Lists k₀.links used seqs := links.symm ▸ lists
  have expires₀ : Expires k₀ e := by
    unfold Expires Sleeps
    rw [agedAll_task pre distinct, if_neg new]
    exact expires
  obtain ⟨k₁, leads, task, lists₁, level₁⟩ :=
    expired_leads lists₀ ready cut expires₀ (level₀.symm ▸ level)
  rw [Function.update_of_ne (by decide), pri] at leads
  have order :
      moved k₀ seqs .tasks_wait e (pre ++ post) = moved k seqs .tasks_wait e (pre ++ post) := by
    unfold moved
    rw [pri]
  refine ⟨k₁, ⟨fun u mem => ?_, ?_, fun u out other => ?_, order ▸ lists₁, ?_⟩, fun k' => ?_⟩
  · have other : u ≠ e := fun same => new (same ▸ mem)
    rw [task, Function.update_of_ne other, agedAll_task pre distinct, if_pos mem]
  · rw [task, Function.update_self, agedAll_task pre distinct, if_neg new]
  · rw [task, Function.update_of_ne other, agedAll_task pre distinct, if_neg out]
  · rw [level₁, level₀]
    exact level
  · rw [cut]
    exact (aged_walk k' [] pre (e :: post) lists cut stay).trans leads.completes_iff

/-- Where nothing expires, the walk comes to the end of `tasks_wait`. -/
theorem none_served (lists : Lists k.links used seqs) (waiting : used .tasks_wait)
    (stay : ∀ t ∈ seqs .tasks_wait, ¬ Expires k t) :
    ∃ k', Completes (k, walking (seqs .tasks_wait).head?) k' ∧ Served k k' used seqs := by
  have nodup := (lists.each _ waiting).nodup
  have cut : seqs .tasks_wait = [] ++ (seqs .tasks_wait ++ []) := by simp
  have walk :=
    aged_walk (agedAll k (seqs .tasks_wait)).setNeed [] (seqs .tasks_wait) [] lists cut stay
  rw [List.append_nil] at walk
  have task := agedAll_task (k := k) (seqs .tasks_wait) nodup
  refine ⟨_, walk.mpr (end_completes.mpr rfl),
      ⟨fun t mem sleeps => ?_, fun t mem _ => ?_, fun t mem => ?_, ?_⟩⟩
  · have here := ((task t).trans (if_pos mem)).trans (aged_sleeps sleeps)
    exact congrArg Task.task_delay here
  · exact (task t).trans (if_pos mem)
  · have other : t ∉ seqs .tasks_wait := fun there => lists.apart _ _ (by decide) mem there
    exact (task t).trans (if_neg other)
  · have all : (seqs .tasks_wait).filter (¬ Expires k ·) = seqs .tasks_wait := by
      simpa [List.filter_eq_self] using stay
    have none : (seqs .tasks_wait).filter (Expires k ·) = [] := by
      simpa [List.filter_eq_nil_iff] using stay
    refine ⟨seqs .tasks_ready, ?_, by rw [none]; rfl, List.Sublist.refl _⟩
    rw [all, Function.update_eq_self, Function.update_eq_self]
    exact (agedAll_frame (k := k) (seqs .tasks_wait)).1.symm ▸ lists

section First

variable {pre post : List Ptr32}

theorem moved_cut : moved k seqs .tasks_wait e (pre ++ post) .tasks_ready =
    ((seqs .tasks_ready).takeWhile (k.pri e ≤ k.pri ·) ++ [e]) ++
      (seqs .tasks_ready).dropWhile (k.pri e ≤ k.pri ·) := by
  simp [moved_ready, insertPri]

variable (lists : Lists k.links used seqs) (ready : used .tasks_ready)
  (cut : seqs .tasks_wait = pre ++ e :: post) (stay : ∀ t ∈ pre, ¬ Expires k t)
  (expires : Expires k e) (level : 0 ≤ k.k_reenter)

section
include lists cut

theorem apart_ready {t : Ptr32} (mem : t ∈ seqs .tasks_ready) : t ∉ pre ∧ t ≠ e := by
  have out : t ∉ seqs .tasks_wait := fun there => lists.apart _ _ (by decide) mem there
  rw [cut] at out
  simp only [List.mem_append, List.mem_cons, not_or] at out
  exact ⟨out.1, out.2.1⟩

theorem apart_post {t : Ptr32} (mem : t ∈ post) : t ∉ pre ∧ t ≠ e := by
  have used_wait : used .tasks_wait := lists.live_of_mem (n := e) (by simp [cut])
  have nodup := (lists.each _ used_wait).nodup
  rw [cut, List.nodup_append] at nodup
  obtain ⟨-, tail, others⟩ := nodup
  refine ⟨fun there => others t there t (List.mem_cons_of_mem e mem) rfl, ?_⟩
  rintro rfl
  exact (List.nodup_cons.mp tail).1 mem

end

theorem filter_stays (post_stays : ∀ t ∈ post, ¬ Expires k t) (stay : ∀ t ∈ pre, ¬ Expires k t)
    (expires : Expires k e) : (pre ++ e :: post).filter (¬ Expires k ·) = pre ++ post ∧
      (pre ++ e :: post).filter (Expires k ·) = [e] := by
  have all : pre.filter (¬ Expires k ·) = pre := by simpa [List.filter_eq_self] using stay
  have none : pre.filter (Expires k ·) = [] := by simpa [List.filter_eq_nil_iff] using stay
  have all' : post.filter (¬ Expires k ·) = post := by simpa [List.filter_eq_self] using post_stays
  have none' : post.filter (Expires k ·) = [] := by simpa [List.filter_eq_nil_iff] using post_stays
  constructor
  · rw [List.filter_append, List.filter_cons_of_neg (by simpa using expires), all, all']
  · rw [List.filter_append, List.filter_cons_of_pos (by simpa using expires), none, none',
        List.nil_append]

include lists ready cut stay expires level

theorem first_served (after : ∀ t ∈ post, ¬ Sleeps k t)
    (behind : ∀ t ∈ (seqs .tasks_ready).dropWhile (k.pri e ≤ k.pri ·), ¬ Sleeps k t) :
    ∃ k', Completes (k, walking (seqs .tasks_wait).head?) k' ∧ Served k k' used seqs := by
  obtain ⟨k₁, woke, walk⟩ := first_wakes lists ready cut stay expires level
  have same : ∀ t ∈ seqs .tasks_ready, k₁.task t = k.task t := by
    intro t mem
    obtain ⟨before, other⟩ := apart_ready lists cut mem
    exact woke.others t before other
  let rest := (seqs .tasks_ready).dropWhile (k.pri e ≤ k.pri ·)
  have awake : ∀ t ∈ rest, ¬ Sleeps k₁ t := by
    intro t mem
    unfold Sleeps
    rw [same t (List.dropWhile_subset _ mem)]
    exact behind t mem
  have cut₁ : moved k seqs .tasks_wait e (pre ++ post) .tasks_ready =
      ((seqs .tasks_ready).takeWhile (k.pri e ≤ k.pri ·) ++ [e]) ++ (rest ++ []) := by
    rw [moved_cut, List.append_nil]
  have along := aged_walk k₁.setNeed _ rest [] woke.lists cut₁ fun t mem expires =>
      awake t mem expires.1
  rw [agedAll_awake rest awake, List.append_nil] at along
  refine ⟨k₁.setNeed, (walk _).mpr (along.mpr (end_completes.mpr rfl)), ?_⟩
  have task : k₁.setNeed.task = k₁.task := rfl
  obtain ⟨stays, goes⟩ := filter_stays (fun t mem last => after t mem last.1) stay expires
  refine ⟨fun t mem sleeps => ?_, fun t mem goes_on => ?_, same,
      insertPri k.pri e (seqs .tasks_ready), ?_, ?_, ?_⟩
  · rw [cut, List.mem_append, List.mem_cons] at mem
    rw [task]
    rcases mem with before | rfl | behind
    · rw [woke.before t before, aged_sleeps sleeps]
      rfl
    · rw [woke.here]
      rfl
    · exact absurd sleeps (after t behind)
  · rw [cut, List.mem_append, List.mem_cons] at mem
    rw [task]
    rcases mem with before | rfl | behind
    · exact woke.before t before
    · exact absurd expires goes_on
    · obtain ⟨before, other⟩ := apart_post lists cut behind
      rw [woke.others t before other, aged_awake (after t behind)]
  · have order : moved k seqs .tasks_wait e (pre ++ post) = Function.update
        (Function.update seqs .tasks_wait ((seqs .tasks_wait).filter (¬ Expires k ·))) .tasks_ready
        (insertPri k.pri e (seqs .tasks_ready)) := by
      rw [moved, Function.update_of_ne (by decide), cut, stays]
    exact order ▸ woke.lists
  · rw [cut, goes, insertPri]
    have split :=
      List.takeWhile_append_dropWhile (p := (k.pri e ≤ k.pri ·)) (l := seqs .tasks_ready)
    conv_rhs => rw [← split]
    exact List.perm_middle
  · have split :=
      List.takeWhile_append_dropWhile (p := (k.pri e ≤ k.pri ·)) (l := seqs .tasks_ready)
    conv_lhs => rw [← split]
    exact (List.sublist_cons_self e _).append_left _

theorem first_misses {k' : Kernel} (completes : Completes (k, walking (seqs .tasks_wait).head?) k')
    (served : Served k k' used seqs) : (∀ t ∈ post, ¬ Sleeps k t) ∧
      ∀ t ∈ (seqs .tasks_ready).dropWhile (k.pri e ≤ k.pri ·), ¬ Sleeps k t := by
  obtain ⟨k₁, woke, walk⟩ := first_wakes lists ready cut stay expires level
  have rest := (walk k').mp completes
  constructor
  · intro t mem sleeps
    obtain ⟨before, other⟩ := apart_post lists cut mem
    have wait : t ∈ seqs .tasks_wait := by simp [cut, mem]
    have out : t ∉ moved k seqs .tasks_wait e (pre ++ post) .tasks_ready := by
      rw [moved_ready, mem_insertPri, Function.update_of_ne (by decide)]
      exact not_or.mpr ⟨other, fun there => lists.apart _ _ (by decide) wait there⟩
    obtain ⟨n, run⟩ := rest
    have frame := (ready_walk n woke.lists ready moved_cut woke.level run).1 t out
    have counts := served.counts t wait sleeps
    rw [frame, woke.others t before other] at counts
    bv_omega
  · let list := (seqs .tasks_ready).dropWhile (k.pri e ≤ k.pri ·)
    cases sleeper : list.find? (Sleeps k ·) with
    | none => simpa using List.find?_eq_none.mp sleeper
    | some t =>
        -- The walk comes to the first sleeper there.
        obtain ⟨sleeps, as, bs, split, awake⟩ := List.find?_eq_some_iff_append.mp sleeper
        have sleeps : Sleeps k t := of_decide_eq_true sleeps
        have mem : ∀ u ∈ as ++ t :: bs, u ∈ seqs .tasks_ready := fun u mem =>
          List.dropWhile_subset _ (show u ∈ list from split ▸ mem)
        have same : ∀ u ∈ as ++ t :: bs, k₁.task u = k.task u := by
          intro u there
          obtain ⟨before, other⟩ := apart_ready lists cut (mem u there)
          exact woke.others u before other
        have here := mem t (by simp)
        have awake : ∀ u ∈ as, ¬ Sleeps k₁ u := by
          intro u there
          have quiet : ¬ Sleeps k u := by simpa using awake u there
          unfold Sleeps
          rw [same u (List.mem_append_left _ there)]
          exact quiet
        have cut₁ : moved k seqs .tasks_wait e (pre ++ post) .tasks_ready =
            ((seqs .tasks_ready).takeWhile (k.pri e ≤ k.pri ·) ++ [e]) ++ (as ++ t :: bs) := by
          rw [moved_cut, ← split]
        have along := aged_walk k' _ as (t :: bs) woke.lists cut₁ fun u mem last =>
            awake u mem last.1
        rw [agedAll_awake as awake, ← split] at along
        have visited := ready_visits woke.lists ready (cut₁.trans (List.append_assoc _ as _).symm)
          woke.level (along.mp rest)
        rw [same t (by simp), served.untouched t here] at visited
        exact absurd (visited sleeps) (Nat.lt_irrefl _)

end First

/-- The walk serves every sleeper where none is behind the first that expires. -/
theorem walk_serves_iff (lists : Lists k.links used seqs) (ready : used .tasks_ready)
    (waiting : used .tasks_wait) (level : 0 ≤ k.k_reenter) :
    (∃ k', Completes (k, walking (seqs .tasks_wait).head?) k' ∧ Served k k' used seqs) ↔
      AllBefore k (seqs .tasks_wait) (seqs .tasks_ready) := by
  have split := List.takeWhile_append_dropWhile (p := (¬ Expires k ·)) (l := seqs .tasks_wait)
  have stay : ∀ t ∈ (seqs .tasks_wait).takeWhile (¬ Expires k ·), ¬ Expires k t := by
    intro t mem
    have quiet := List.mem_takeWhile_imp mem
    exact of_decide_eq_true quiet
  rw [AllBefore]
  cases first : (seqs .tasks_wait).dropWhile (¬ Expires k ·) with
  | nil =>
      rw [first, List.append_nil] at split
      exact iff_of_true (none_served lists waiting (split ▸ stay)) trivial
  | cons e post =>
      rw [first] at split
      have expires : Expires k e := by
        have last := List.head?_dropWhile_not (¬ Expires k ·) (seqs .tasks_wait)
        rw [first] at last
        simpa using last
      constructor
      · intro ⟨k', completes, served⟩
        exact first_misses lists ready split.symm stay expires level completes served
      · intro ⟨after, behind⟩
        exact first_served lists ready split.symm stay expires level after behind

theorem tick_walk (lists : Lists k.links used seqs) (waiting : used .tasks_wait)
    (unlocked : k.wait_lock = 0) :
    (∃ k', Completes (k, [.timerCallback .tick .null]) k' ∧ Served k k' used seqs) ↔
      let k₁ : Kernel := { k with system_tick := k.system_tick + 1 }
      ∃ k', Completes (k₁, walking (seqs .tasks_wait).head?) k' ∧ Served k₁ k' used seqs := by
  refine exists_congr fun k' => and_congr (tick_completes lists waiting unlocked) ⟨fun s => ?_,
      fun s => ?_⟩
  · exact ⟨s.counts, s.stays, s.untouched, s.lists⟩
  · exact ⟨s.counts, s.stays, s.untouched, s.lists⟩

/-! ## On the machine -/

/-- The PIC holds every interrupt back until the timer's is acknowledged. -/
theorem timer_masks {m : Machine} (timer : ∃ f ∈ m.kstack, f.unacked = some .timer) (n : Irq) :
    m.irq n = none := by
  obtain ⟨f, mem, unacked⟩ := timer
  have masks : m.masks n := by
    simp only [Machine.masks, List.any_eq_true]
    exact ⟨f, mem, by simp [unacked, Irq.line]⟩
  simp [Machine.irq, masks]

/-- What `timer_callback` does by itself it does on the machine. -/
theorem tick_runs (m : Machine) (rest : List Frame)
    (top : m.kstack = .timerCallback .tick .null :: rest)
    (lists : Lists m.k.links used seqs) (ready : used .tasks_ready) (waiting : used .tasks_wait)
    (unlocked : m.k.wait_lock = 0) (level : 0 ≤ m.k.k_reenter)
    (before : AllBefore m.k (seqs .tasks_wait) (seqs .tasks_ready)) : ∃ n v k',
      Runs.run Machine.step m (List.replicate n (.stmt 0)) =
        some { m with k := k', kstack := rest.modifyHead (.deliver v) } ∧
            Served m.k k' used seqs := by
  have walk := (walk_serves_iff (k := { m.k with system_tick := m.k.system_tick + 1 }) lists ready
    waiting level).mpr before
  obtain ⟨k', completes, served⟩ := (tick_walk lists waiting unlocked).mpr walk
  obtain ⟨n, v, run⟩ := completes_run m rest (List.cons_ne_nil _ _) completes
  have same : ({ m with k := m.k, kstack := [.timerCallback .tick .null] ++ rest } : Machine) =
      m := by
    rw [List.singleton_append, ← top]
  exact ⟨n, v, k', same ▸ run, served⟩

/-- One tick, inside the handler of its interrupt, serves every sleeper and no other
    task: where none waits for its delay behind the first one that expires. -/
theorem timer_serves_iff (k : Kernel) (used : TaskList → Prop) (seqs : TaskList → List Ptr32)
    (lists : Lists k.links used seqs) (ready : used .tasks_ready) (waiting : used .tasks_wait)
    (unlocked : k.wait_lock = 0) (level : 0 ≤ k.k_reenter) :
    (∃ k', Completes (k, [.timerCallback .tick .null]) k' ∧ Served k k' used seqs) ↔
      AllBefore k (seqs .tasks_wait) (seqs .tasks_ready) := by
  have walk :=
    walk_serves_iff (k := { k with system_tick := k.system_tick + 1 }) lists ready waiting level
  exact (tick_walk lists waiting unlocked).trans walk

/-- The kernel in the handler of the timer, with two tasks that `delay` has put in
    `tasks_wait`. -/
def sleeping (first second : BitVec 32) : Kernel :=
  let s := (Machine.boot 4).k
  { s with
    links := ((enqueue (fun _ => 1) 2 s.links .tasks_wait 8).bind
      fun links => enqueue (fun _ => 1) 2 links .tasks_wait 16).getD s.links
    task := fun t => if t = 4 then s.task 4
      else ⟨1, .user ⟨t, true, 0⟩, 0, TB_DELAY, 0, if t = 8 then first else second⟩
    k_reenter := 0 }

def sleepers : TaskList → List Ptr32
  | .tasks_wait => [8, 16]
  | _ => []

def kernelLists (l : TaskList) : Prop := l = .tasks_ready ∨ l = .tasks_wait

theorem sleeping_lists (first second : BitVec 32) :
    Lists (sleeping first second).links kernelLists sleepers := by
  constructor
  · rintro l (rfl | rfl)
    · show IsList (sleeping 0 0).links .tasks_ready []
      decide +kernel
    · show IsList (sleeping 0 0).links .tasks_wait [8, 16]
      decide +kernel
  · intro l unused
    cases l with
    | tasks_wait => exact absurd (.inr rfl) unused
    | tasks_ready => rfl
    | waiters queue => rfl
  · intro l k other
    cases l with
    | tasks_wait =>
        cases k with
        | tasks_wait => exact absurd rfl other
        | tasks_ready => exact List.disjoint_nil_right _
        | waiters queue => exact List.disjoint_nil_right _
    | tasks_ready => exact List.disjoint_nil_left _
    | waiters queue => exact List.disjoint_nil_left _

theorem timer_serves_two : ∃ k', Completes (sleeping 2 1, [.timerCallback .tick .null]) k' ∧
    Served (sleeping 2 1) k' kernelLists sleepers := by
  have before : AllBefore (sleeping 2 1) [8, 16] [] := ⟨nofun, nofun⟩
  exact (timer_serves_iff (sleeping 2 1) kernelLists sleepers (sleeping_lists 2 1)
    (.inl rfl) (.inr rfl) rfl (Int.le_refl 0)).mpr before

/-- Of two delays that end with the same tick, the second one is not counted. -/
theorem timer_misses_second : ¬ ∀ k used seqs, Lists k.links used seqs → used .tasks_ready →
    used .tasks_wait → k.wait_lock = 0 → 0 ≤ k.k_reenter →
    (∀ t ∈ seqs .tasks_wait, Sleeps k t → 1 ≤ (k.task t).task_delay) →
    ∃ k', Completes (k, [.timerCallback .tick .null]) k' ∧ Served k k' used seqs := by
  intro serves
  have lists := sleeping_lists 1 1
  have delays : ∀ t ∈ sleepers .tasks_wait, Sleeps (sleeping 1 1) t →
      1 ≤ ((sleeping 1 1).task t).task_delay := by
    intro t mem _
    have one : ((sleeping 1 1).task t).task_delay = 1 := by
      simp only [sleepers, List.mem_cons, List.not_mem_nil, or_false] at mem
      rcases mem with rfl | rfl <;> rfl
    rw [one]
    exact BitVec.le_refl 1
  have two := serves (sleeping 1 1) kernelLists sleepers lists (.inl rfl) (.inr rfl) rfl
    (Int.le_refl 0) delays
  have walk := (tick_walk (k := sleeping 1 1) lists (.inr rfl) rfl).mp two
  let k : Kernel := { sleeping 1 1 with system_tick := (sleeping 1 1).system_tick + 1 }
  have before : AllBefore k [8, 16] [] :=
    (walk_serves_iff (k := k) lists (.inl rfl) (.inr rfl) (Int.le_refl 0)).mp walk
  have task : k.task = (sleeping 1 1).task := rfl
  have first : Expires k 8 := by
    unfold Expires Sleeps
    rw [task]
    decide
  have second : Sleeps k 16 := by
    unfold Sleeps
    rw [task]
    decide
  rw [AllBefore, List.dropWhile_cons_of_neg (by simpa using first)] at before
  exact before.1 16 (List.mem_singleton.mpr rfl) second

end Timer

end Krypton
