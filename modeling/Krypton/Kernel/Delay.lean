import Krypton.Kernel.Timer

/-! # The length of a delay

A task that calls `delay` is counted down by the ticks of the timer. Between two
ticks the others go on; they leave the task and its delay alone.
-/

namespace Krypton

open LinkStore

namespace Timer

variable {k k' : Kernel} {t : Ptr32} {d n : BitVec 32} {before after : Nat → Kernel}

/-- The task is in `tasks_wait` with the delay `d`, and no other task sleeps. -/
structure Asleep (k : Kernel) (t : Ptr32) (d : BitVec 32) : Prop where
  sleeps : Sleeps k t
  delay : (k.task t).task_delay = d
  lists : ∃ used seqs, Lists k.links used seqs ∧ used .tasks_ready ∧ used .tasks_wait ∧
    t ∈ seqs .tasks_wait ∧ ∀ l, ∀ u ∈ seqs l, u ≠ t → ¬ Sleeps k u

/-- The task has been signalled, and is in `tasks_ready`. -/
structure Awake (k : Kernel) (t : Ptr32) : Prop where
  awake : ¬ Sleeps k t
  lists : ∃ used seqs, Lists k.links used seqs ∧ t ∈ seqs .tasks_ready

/-- The task was put into `tasks_wait` with the delay `n`, in the state `after 0`. The handler of
    the tick `i` leads from `before i` to `after i`. -/
structure Delayed (t : Ptr32) (n : BitVec 32) (before after : Nat → Kernel) : Prop where
  linked : Asleep (after 0) t n
  between : ∀ i d, Asleep (after i) t d → Asleep (before (i + 1)) t d
  level : ∀ i < max n.toNat 1, 0 ≤ (before (i + 1)).k_reenter
  tick : ∀ i < max n.toNat 1,
      Completes (before (i + 1), [.timerCallback .tick .null]) (after (i + 1))

/-- The tick `i`, and no earlier one, moves the task to `tasks_ready`. -/
structure WakesAt (after : Nat → Kernel) (t : Ptr32) (i : Nat) : Prop where
  earlier : ∀ j < i, ∃ d, Asleep (after j) t d
  now : Awake (after i) t

/-! ## `delay` -/

/-- The task that calls `delay` is asleep as soon as it is in the list. -/
theorem delay_links {used : TaskList → Prop} {seqs : TaskList → List Ptr32}
    (lists : Lists k.links used seqs)
    (ready : used .tasks_ready) (waiting : used .tasks_wait) (fresh : ∀ l, k.running_task ∉ seqs l)
    (awake : ∀ l, ∀ u ∈ seqs l, ¬ Sleeps k u) (n : BitVec 32) (fs : List Frame) : ∃ k',
    Leads (k, .delay .forbid n :: fs)
        (k', .wait .unlock TB_DELAY .tasks_wait :: .delay .ret n :: fs) ∧
      Asleep k' k.running_task n := by
  let t := k.running_task
  let k₀ : Kernel := k.forbid.setTask t fun t => { t with task_delay := n }
  let k₁ : Kernel := { (((k₀.permit.forbid.setTask t
    fun t => { t with sigs_waiting := t.sigs_waiting ||| TB_DELAY }).setTask t
    fun t => { t with sigs_recvd := 0 }).setTask t
    fun t => { t with flags := t.flags &&& ~~~TS_READY }) with wait_lock := k.wait_lock + 1 }
  have first : Leads (k, .delay .forbid n :: fs)
      (k₁, .wait .enqueue TB_DELAY .tasks_wait :: .delay .ret n :: fs) := by
    have sets : Leads (k, .delay .forbid n :: fs) (k₀, .delay .permit n :: fs) :=
      ⟨2, by decide, rfl⟩
    have permits : Leads (k₀, .delay .permit n :: fs) (k₀.permit, .delay .wait n :: fs) :=
      .permit (.delay · n) .lower .wait rfl rfl
    exact (sets.trans permits).trans ⟨7, by decide, rfl⟩
  obtain ⟨s, entered, lists'⟩ :=
    enqueue_spec k₁.pri lists waiting fresh (ptrs_length (lists.each _ waiting).nodup)
  let k₂ : Kernel := { k₁ with links := s }
  have second : Leads (k₁, .wait .enqueue TB_DELAY .tasks_wait :: .delay .ret n :: fs)
      (k₂, .wait .unlock TB_DELAY .tasks_wait :: .delay .ret n :: fs) := by
    have links : k₁.links = k.links := rfl
    have running : k₁.running_task = k.running_task := rfl
    refine .step ?_
    simp only [advance, exec, execWait, Kernel.enqueueTask, links, running, entered]
    rfl
  have here : (k₂.task t).sigs_waiting = (k.task t).sigs_waiting ||| TB_DELAY ∧
      (k₂.task t).task_delay = n := by
    simp [k₂, k₁, k₀, t, Kernel.setTask, Kernel.forbid, Kernel.permit]
  have there : ∀ u, u ≠ t → k₂.task u = k.task u := by
    intro u other
    simp [k₂, k₁, k₀, Kernel.setTask, Kernel.forbid, Kernel.permit, other]
  refine ⟨k₂, first.trans second, ?_, here.2, used, _, lists', ready, waiting, ?_,
      fun l u mem other => ?_⟩
  · unfold Sleeps
    have absorbs : ((k.task t).sigs_waiting ||| TB_DELAY) &&& TB_DELAY = TB_DELAY := by
      ext i
      simp only [BitVec.getElem_and, BitVec.getElem_or]
      cases TB_DELAY[i] <;> simp
    rw [here.1, absorbs]
    decide
  · rw [Function.update_self, mem_insertPri]
    exact .inl rfl
  · unfold Sleeps
    rw [there u other]
    by_cases list : l = .tasks_wait
    · rw [list, Function.update_self, mem_insertPri] at mem
      exact awake _ u (mem.resolve_left other)
    · rw [Function.update_of_ne list] at mem
      exact awake l u mem

/-! ## One tick -/

/-- While a task links itself, a tick counts nothing. -/
theorem locked_tick (asleep : Asleep k t d) (locked : k.wait_lock ≠ 0)
    (tick : Completes (k, [.timerCallback .tick .null]) k') : Asleep k' t d := by
  obtain ⟨used, seqs, lists, ready, waiting, mem, others⟩ := asleep.lists
  let k₁ : Kernel := { k with system_tick := k.system_tick + 1 }
  have skip : Leads (k₁, [.timerCallback .lock (orNull (seqs .tasks_wait).head?)])
      (k₁.setNeed, []) := by
    have lock : ¬ k₁.wait_lock = 0 := locked
    have need : Leads (k₁, [.timerCallback .need (orNull (seqs .tasks_wait).head?)])
        (k₁.setNeed, []) := .step rfl
    refine .trans (.step ?_) need
    simp only [advance, exec, execTimer, if_neg lock]
    rfl
  cases completes_nil.mp (((tick_leads lists waiting).trans skip).completes_iff.mp tick)
  exact ⟨asleep.sleeps, asleep.delay, used, seqs, lists, ready, waiting, mem, others⟩

/-- A tick before the last one counts the delay down, without a sign. -/
theorem counting_tick (asleep : Asleep k t d) (unlocked : k.wait_lock = 0) (more : d ≠ 1)
    (tick : Completes (k, [.timerCallback .tick .null]) k') : Asleep k' t (d - 1) := by
  obtain ⟨used, seqs, lists, ready, waiting, mem, others⟩ := asleep.lists
  let k₁ : Kernel := { k with system_tick := k.system_tick + 1 }
  have walk := (tick_completes lists waiting unlocked).mp tick
  have stay : ∀ u ∈ seqs .tasks_wait, ¬ Expires k₁ u := by
    rintro u there ⟨sleeps, last⟩
    by_cases same : u = t
    · subst same
      exact more (asleep.delay.symm.trans last)
    · exact others _ u there same sleeps
  have cut : seqs .tasks_wait = [] ++ (seqs .tasks_wait ++ []) := by simp
  have along := aged_walk (k := k₁) k' [] (seqs .tasks_wait) [] lists cut stay
  rw [List.append_nil] at along
  cases end_completes.mp (along.mp walk)
  have task : ∀ u, (agedAll k₁ (seqs .tasks_wait)).setNeed.task u =
      if u ∈ seqs .tasks_wait then aged (k.task u) else k.task u :=
    agedAll_task (k := k₁) (seqs .tasks_wait) (lists.each _ waiting).nodup
  have here : (agedAll k₁ (seqs .tasks_wait)).setNeed.task t = counted (k.task t) :=
    (task t).trans ((if_pos mem).trans (aged_sleeps asleep.sleeps))
  refine ⟨?_, ?_, used, seqs, ?_, ready, waiting, mem, fun l u there other => ?_⟩
  · unfold Sleeps
    rw [here]
    exact asleep.sleeps
  · rw [here, ← asleep.delay]
    rfl
  · exact (agedAll_frame (k := k₁) (seqs .tasks_wait)).1.symm ▸ lists
  · have awake := others l u there other
    unfold Sleeps
    rw [task u, aged_awake awake, ite_self]
    exact awake

/-- The last tick of a delay wakes the task. -/
theorem last_tick (asleep : Asleep k t 1) (unlocked : k.wait_lock = 0) (level : 0 ≤ k.k_reenter)
    (tick : Completes (k, [.timerCallback .tick .null]) k') : Awake k' t := by
  obtain ⟨used, seqs, lists, ready, waiting, mem, others⟩ := asleep.lists
  let k₁ : Kernel := { k with system_tick := k.system_tick + 1 }
  have walk := (tick_completes lists waiting unlocked).mp tick
  obtain ⟨pre, post, cut⟩ := List.append_of_mem mem
  have nodup := (lists.each _ waiting).nodup
  rw [cut] at nodup
  have new : t ∉ pre := fun mem =>
    (List.nodup_cons.mp (List.nodup_middle.mp nodup)).1 (List.mem_append_left _ mem)
  have stay : ∀ u ∈ pre, ¬ Expires k₁ u := fun u there last =>
    others .tasks_wait u (by simp [cut, there]) (fun same => new (same ▸ there)) last.1
  obtain ⟨k₂, woke, rest⟩ :=
    first_wakes (k := k₁) lists ready cut stay ⟨asleep.sleeps, asleep.delay⟩ level
  -- nobody sleeps in `tasks_ready`, so that the walk passes what is left of it
  let behind := (seqs .tasks_ready).dropWhile (k₁.pri t ≤ k₁.pri ·)
  have quiet : ∀ u ∈ behind, ¬ Sleeps k₂ u := by
    intro u there
    have mem := List.dropWhile_subset _ there
    obtain ⟨before, other⟩ := apart_ready lists cut mem
    unfold Sleeps
    rw [woke.others u before other]
    exact others _ u mem other
  have along := aged_walk k' _ behind [] woke.lists (by rw [moved_cut, List.append_nil])
    fun u there last => quiet u there last.1
  rw [agedAll_awake behind quiet, List.append_nil] at along
  cases end_completes.mp (along.mp ((rest k').mp walk))
  refine ⟨?_, used, _, woke.lists, ?_⟩
  · intro sleeps
    have none : woken (counted (k.task t)) = k₂.task t := woke.here.symm
    exact Nat.lt_irrefl _ (worn_woken (counted (k.task t)) (counted (k.task t)) (none ▸ sleeps))
  · rw [moved_ready, mem_insertPri]
    exact .inl rfl

/-- The handler of a tick comes to its end. -/
theorem tick_exists (asleep : Asleep k t d) (unlocked : k.wait_lock = 0) (level : 0 ≤ k.k_reenter) :
    ∃ k', Completes (k, [.timerCallback .tick .null]) k' := by
  obtain ⟨used, seqs, lists, ready, waiting, mem, others⟩ := asleep.lists
  let k₁ : Kernel := { k with system_tick := k.system_tick + 1 }
  have before : AllBefore k₁ (seqs .tasks_wait) (seqs .tasks_ready) := by
    have split := List.takeWhile_append_dropWhile (p := (¬ Expires k₁ ·)) (l := seqs .tasks_wait)
    have nodup := (lists.each _ waiting).nodup
    rw [AllBefore]
    cases first : (seqs .tasks_wait).dropWhile (¬ Expires k₁ ·) with
    | nil => trivial
    | cons e post =>
        have last := List.head?_dropWhile_not (¬ Expires k₁ ·) (seqs .tasks_wait)
        rw [first] at split last
        rw [← split] at nodup
        have expires : Expires k₁ e := by simpa using last
        have inside : ∀ u ∈ e :: post, u ∈ seqs .tasks_wait := fun u there =>
          split ▸ List.mem_append_right _ there
        have same : e = t := by
          by_contra other
          exact others _ e (inside e List.mem_cons_self) other expires.1
        have new : e ∉ post := (List.nodup_cons.mp nodup.of_append_right).1
        refine ⟨fun u there => ?_, fun u there => ?_⟩
        · refine others _ u (inside u (List.mem_cons_of_mem e there)) ?_
          rintro rfl
          exact new (same ▸ there)
        · have there := List.dropWhile_subset _ there
          refine others _ u there ?_
          rintro rfl
          exact lists.apart _ _ (by decide) there mem
  obtain ⟨k', completes, -⟩ := (walk_serves_iff (k := k₁) lists ready waiting level).mpr before
  exact ⟨k', (tick_completes lists waiting unlocked).mpr completes⟩

/-! ## All ticks of a delay -/

/-- How many of the first `i` ticks found the lock taken. -/
def skipped (before : Nat → Kernel) (i : Nat) : Nat :=
  (List.range i).countP fun j => (before (j + 1)).wait_lock ≠ 0

theorem skipped_succ (before : Nat → Kernel) (i : Nat) :
    skipped before (i + 1) =
      skipped before i + if (before (i + 1)).wait_lock = 0 then 0 else 1 := by
  rw [skipped, List.range_succ, List.countP_append, List.countP_singleton, ← skipped]
  by_cases unlocked : (before (i + 1)).wait_lock = 0 <;> simp [unlocked]

theorem skipped_le (before : Nat → Kernel) (i : Nat) : skipped before i ≤ i := by
  rw [skipped]
  exact (List.countP_le_length).trans (List.length_range).le

theorem skipped_zero {i : Nat} : skipped before i = 0 ↔
    ∀ j < i, (before (j + 1)).wait_lock = 0 := by
  simp [skipped, List.countP_eq_zero]

/-- What is left of the delay after `i` ticks. -/
theorem asleep_after (h : Delayed t n before after) {i : Nat} (bound : i ≤ n.toNat)
    (more : i < n.toNat ∨ 0 < skipped before i) :
    Asleep (after i) t (.ofNat 32 (n.toNat - i + skipped before i)) := by
  induction i with
  | zero => simpa [skipped] using h.linked
  | succ i ih =>
      have earlier := h.between i _ (ih (Nat.le_of_succ_le bound) (.inl bound))
      have tick := h.tick i (by omega)
      have few := skipped_le before i
      have wide := n.isLt
      rw [skipped_succ] at more ⊢
      by_cases unlocked : (before (i + 1)).wait_lock = 0
      · rw [if_pos unlocked] at more ⊢
        have others : BitVec.ofNat 32 (n.toNat - i + skipped before i) ≠ 1 := by bv_omega
        have counted := counting_tick earlier unlocked others tick
        have one : BitVec.ofNat 32 (n.toNat - i + skipped before i) - 1 =
            BitVec.ofNat 32 (n.toNat - (i + 1) + (skipped before i + 0)) := by bv_omega
        exact one ▸ counted
      · rw [if_neg unlocked]
        have same : n.toNat - i + skipped before i =
            n.toNat - (i + 1) + (skipped before i + 1) := by omega
        exact same ▸ locked_tick earlier unlocked tick

/-- A delay of no ticks is counted on from 0. -/
theorem asleep_none (h : Delayed t n before after) (none : n = 0) : ∃ d, Asleep (after 1) t d := by
  subst none
  have first := h.between 0 _ h.linked
  have tick := h.tick 0 (by decide)
  by_cases unlocked : (before 1).wait_lock = 0
  · exact ⟨_, counting_tick first unlocked (by decide) tick⟩
  · exact ⟨_, locked_tick first unlocked tick⟩

/-- A task wakes with the tick that its delay names, unless that is 0 or a tick on the way found
    the list locked. -/
theorem wakes_iff (t : Ptr32) (n : BitVec 32) (before after : Nat → Kernel)
    (h : Delayed t n before after) :
    WakesAt after t (max n.toNat 1) ↔ n ≠ 0 ∧ ∀ i < n.toNat, (before (i + 1)).wait_lock = 0 := by
  have exclusive : ∀ {k d}, Asleep k t d → ¬ Awake k t :=
    fun asleep awake => awake.awake asleep.sleeps
  constructor
  · intro wakes
    have some : n ≠ 0 := by
      rintro rfl
      obtain ⟨d, asleep⟩ := asleep_none h rfl
      exact exclusive asleep wakes.now
    have last : max n.toNat 1 = n.toNat := by
      have positive : n.toNat ≠ 0 := fun zero => some (BitVec.eq_of_toNat_eq zero)
      omega
    refine ⟨some, skipped_zero.mp (Nat.eq_zero_of_not_pos fun locked => ?_)⟩
    exact exclusive (asleep_after h (Nat.le_refl _) (.inr locked)) (last ▸ wakes.now)
  · rintro ⟨some, unlocked⟩
    obtain ⟨i, length⟩ : ∃ i, n.toNat = i + 1 :=
      Nat.exists_eq_succ_of_ne_zero fun zero => some (BitVec.eq_of_toNat_eq zero)
    have last : max n.toNat 1 = i + 1 := by omega
    rw [last]
    constructor
    · intro j early
      exact ⟨_, asleep_after h (by omega) (.inl (by omega))⟩
    · have none : skipped before i = 0 := skipped_zero.mpr fun j early => unlocked j (by omega)
      have earlier := h.between i _ (asleep_after h (by omega) (.inl (by omega)))
      have one : n.toNat - i + skipped before i = 1 := by
        rw [none]
        omega
      rw [one] at earlier
      exact last_tick earlier (unlocked i (by omega)) (h.level i (by omega)) (h.tick i (by omega))

/-- Two tasks wait, of which only the first sleeps. -/
def dozing (ticks : BitVec 32) : Kernel :=
  (sleeping ticks 0).setTask 16 fun t => { t with sigs_waiting := 2 }

theorem dozing_asleep (ticks : BitVec 32) : Asleep (dozing ticks) 8 ticks := by
  have first : ((dozing ticks).task 8).sigs_waiting = TB_DELAY := rfl
  have second : ((dozing ticks).task 16).sigs_waiting = 2 := rfl
  refine ⟨?_, rfl, kernelLists, sleepers, sleeping_lists ticks 0, .inl rfl, .inr rfl, by decide,
    fun l u mem other => ?_⟩
  · unfold Sleeps
    rw [first]
    decide
  cases l with
  | tasks_wait =>
      simp only [sleepers, List.mem_cons, List.not_mem_nil, or_false] at mem
      cases mem.resolve_left other
      unfold Sleeps
      rw [second]
      decide
  | tasks_ready => cases mem
  | waiters queue => cases mem

/-- A run of ticks with nothing between them. -/
theorem delayed_of_ticks (linked : Asleep (after 0) t n)
    (level : ∀ i < max n.toNat 1, 0 ≤ (after i).k_reenter)
    (tick : ∀ i < max n.toNat 1, Completes (after i, [.timerCallback .tick .null])
        (after (i + 1))) :
    Delayed t n (fun i => after (i - 1)) after where
  linked := linked
  between _ _ asleep := asleep
  level := level
  tick := tick

/-- The first of two ticks, which wakes nobody. -/
theorem dozing_tick : ∃ k', Completes (dozing 2, [.timerCallback .tick .null]) k' ∧
    k'.wait_lock = 0 ∧ 0 ≤ k'.k_reenter := by
  have run : (advances 13 (dozing 2, [.timerCallback .tick .null])).any (fun d =>
      d.2.isEmpty && d.1.wait_lock == 0 && decide (0 ≤ d.1.k_reenter)) = true := by decide +kernel
  obtain ⟨⟨k', fs⟩, run, ends⟩ := (Option.any_eq_true _ _).mp run
  simp only [Bool.and_eq_true, List.isEmpty_iff, beq_iff_eq, decide_eq_true_eq] at ends
  obtain ⟨⟨rfl, unlocked⟩, level⟩ := ends
  exact ⟨k', ⟨_, run⟩, unlocked, level⟩

theorem wakes_second : ∃ before after, after 0 = dozing 2 ∧ Delayed 8 2 before after ∧
    WakesAt after 8 2 := by
  obtain ⟨k₁, first, unlocked, level⟩ := dozing_tick
  have asleep := counting_tick (dozing_asleep 2) rfl (by decide) first
  obtain ⟨k₂, second⟩ := tick_exists asleep unlocked level
  let after : Nat → Kernel
    | 0 => dozing 2
    | 1 => k₁
    | _ => k₂
  have two {i : Nat} (early : i < 2) : i = 0 ∨ i = 1 := by omega
  have delayed : Delayed 8 2 (fun i => after (i - 1)) after := by
    refine delayed_of_ticks (dozing_asleep 2) (fun i early => ?_) (fun i early => ?_)
    · obtain rfl | rfl := two early
      · exact Int.le_refl 0
      · exact level
    · obtain rfl | rfl := two early
      · exact first
      · exact second
  refine ⟨_, after, rfl, delayed, (wakes_iff 8 2 _ _ delayed).mpr ⟨by decide, fun i early => ?_⟩⟩
  obtain rfl | rfl := two early
  · rfl
  · exact unlocked

/-- A task that delays itself for 0 ticks does not wake with the first one. -/
theorem wakes_none : ¬ ∀ t n before after, Delayed t n before after →
    WakesAt after t (max n.toNat 1) := by
  intro all
  obtain ⟨k', tick⟩ := tick_exists (dozing_asleep 0) rfl (Int.le_refl 0)
  let after : Nat → Kernel
    | 0 => dozing 0
    | _ => k'
  have delayed : Delayed 8 0 (fun i => after (i - 1)) after := by
    refine delayed_of_ticks (dozing_asleep 0) (fun i early => ?_) (fun i early => ?_)
    · cases Nat.lt_one_iff.mp early
      exact Int.le_refl 0
    · cases Nat.lt_one_iff.mp early
      exact tick
  exact ((wakes_iff 8 0 _ _ delayed).mp (all _ _ _ _ delayed)).1 rfl

end Timer

end Krypton
