import Krypton.Kernel.Queues

/-! # The blocks of the queues

Every block that `kmalloc` has handed out serves one purpose: it is a queue, a
queued message, the data of one, or it is held by the call under way. Each of
the queue operations moves blocks between these, one statement at a time.
-/

namespace Krypton

open LinkStore

/-- What a block is for. -/
inductive Use where
  | queue
  | message (queue : Ptr32)
  | data (msg : Ptr32)
  /-- it is a local variable's of the call under way -/
  | held
  /-- it is none of a queue's: a task or a stack -/
  | task (creator : Option Ptr32)
  | stack
  deriving DecidableEq

/-- The block is not a queue's. -/
def Plain (u : Option Use) : Prop :=
  u ≠ some .queue ∧ (∀ q, u ≠ some (.message q)) ∧ ∀ m, u ≠ some (.data m)

/-- The queues, their messages `g` and the data of these are blocks, each one
    for one purpose, and nothing else is live. -/
structure Books (k : Kernel) (g : Ptr32 → List Ptr32) (use : Ptr32 → Option Use) : Prop where
  lists : Lists k.msgs (fun q => k.queues q = true) g
  live : ∀ b, k.live b = (use b).isSome
  queue : ∀ q, k.queues q = true ↔ use q = some .queue
  message : ∀ q m, m ∈ g q ↔ use m = some (.message q)
  data : ∀ m b, use b = some (.data m) ↔ k.data_ptr m = some b ∧ ∃ q, use m = some (.message q)

variable {k k' : Kernel} {g : Ptr32 → List Ptr32} {use : Ptr32 → Option Use} {q m b : Ptr32}
variable {u : Option Use}

namespace Books

/-- The books speak of nothing else in the kernel. -/
theorem frame (h : Books k g use) (msgs : k'.msgs = k.msgs) (live : k'.live = k.live)
    (queues : k'.queues = k.queues) (data_ptr : k'.data_ptr = k.data_ptr) : Books k' g use := by
  constructor
  · rw [msgs, queues]
    exact h.lists
  · rw [live]
    exact h.live
  · rw [queues]
    exact h.queue
  · exact h.message
  · rw [data_ptr]
    exact h.data

/-- A block that is no queue's is allocated, freed or changes hands. -/
theorem retag (h : Books k g use) (old : Plain (use b)) (new : Plain u) :
    Books { k with live := Function.update k.live b u.isSome } g (Function.update use b u) := by
  obtain ⟨oldQueue, oldMessage, oldData⟩ := old
  obtain ⟨newQueue, newMessage, newData⟩ := new
  constructor
  · exact h.lists
  · intro b'
    by_cases here : b' = b
    · subst here
      simp
    · simpa [here] using h.live b'
  · intro q
    by_cases here : q = b
    · subst here
      simp [newQueue, h.queue, oldQueue]
    · simpa [here] using h.queue q
  · intro q m
    by_cases here : m = b
    · subst here
      simp [newMessage, h.message, oldMessage]
    · simpa [here] using h.message q m
  · intro m b'
    have old := h.data m b'
    by_cases ours : m = b
    · subst ours
      have none : use b' ≠ some (.data m) := fun mine => by
        obtain ⟨-, q, queued⟩ := old.mp mine
        exact oldMessage q queued
      by_cases here : b' = m
      · subst here
        simp [newData, newMessage]
      · simp [here, none, newMessage]
    · by_cases here : b' = b
      · subst here
        have none : ¬ (k.data_ptr m = some b' ∧ ∃ q, use m = some (.message q)) :=
          fun mine => oldData m (old.mpr mine)
        simpa [ours, newData] using none
      · simpa [ours, here] using old

/-- A message that is not queued is given other data. -/
theorem point (h : Books k g use) (old : Plain (use m)) (p : Option Ptr32) :
    Books { k with data_ptr := Function.update k.data_ptr m p } g use := by
  constructor
  · exact h.lists
  · exact h.live
  · exact h.queue
  · exact h.message
  · intro m' b
    by_cases ours : m' = m
    · subst ours
      have none : ¬ ∃ q, use m' = some (.message q) := fun ⟨q, queued⟩ => old.2.1 q queued
      simp [h.data, none]
    · simpa [ours] using h.data m' b

/-- A message is linked with its data. -/
theorem link (h : Books k g use) (used : k.queues q = true) (mine : use m = some .held)
    (own : ∀ d, k.data_ptr m = some d → d ≠ m ∧ use d = some .held) :
    ∃ msgs, add_head k.msgs q m = some msgs ∧
      Books { k with msgs } (Function.update g q (m :: g q))
        (fun b => if b = m then some (.message q) else
          if k.data_ptr m = some b then some (.data m) else use b) := by
  have fresh : ∀ q', m ∉ g q' := by
    intro q' mem
    have queued := (h.message q' m).mp mem
    rw [mine] at queued
    cases queued
  obtain ⟨msgs, run, lists⟩ := add_head_spec h.lists used fresh
  refine ⟨msgs, run, ?_⟩
  constructor
  · exact lists
  · intro b
    have live := h.live b
    by_cases here : b = m
    · simp_all
    · by_cases ours : k.data_ptr m = some b
      · simp_all
      · simpa [here, ours] using live
  · intro q'
    have queue := h.queue q'
    by_cases here : q' = m
    · simp_all
    · by_cases ours : k.data_ptr m = some q'
      · simp_all
      · simpa [here, ours] using queue
  · intro q' m'
    have message := h.message q' m'
    by_cases here : m' = m
    · subst here
      by_cases there : q' = q
      · simp [there]
      · simp [there, fresh, Ne.symm there]
    · have same : m' ∈ Function.update g q (m :: g q) q' ↔ m' ∈ g q' := by
        by_cases there : q' = q
        · subst there
          simp [here]
        · simp [there]
      rw [same, message]
      by_cases ours : k.data_ptr m = some m'
      · simp [here, ours, (own m' ours).2]
      · simp [here, ours]
  · intro m' b
    have data := h.data m' b
    by_cases here : m' = m
    · subst here
      by_cases self : b = m'
      · subst self
        have none : k.data_ptr b ≠ some b := fun ptr => (own b ptr).1 rfl
        simp [none]
      · by_cases ours : k.data_ptr m' = some b
        · simp [self, ours]
        · have none : use b ≠ some (.data m') := fun mine => ours (data.mp mine).1
          simp [self, ours, none]
    · have queued : (∃ q', (if m' = m then some (Use.message q) else
          if k.data_ptr m = some m' then some (.data m) else use m') = some (.message q')) ↔
          ∃ q', use m' = some (.message q') := by
        by_cases ours : k.data_ptr m = some m'
        · simp [here, ours, (own m' ours).2]
        · simp [here, ours]
      rw [queued, ← data]
      by_cases self : b = m
      · simp [self, mine]
      · by_cases ours : k.data_ptr m = some b
        · simp [self, ours, (own b ours).2, Ne.symm here]
        · simp [self, ours]

/-- The oldest message is unlinked with its data. -/
theorem unlink {xs : List Ptr32} (h : Books k g use) (split : g q = xs ++ [m]) :
    ∃ msgs, remove_tail k.msgs q = some (.node m, msgs) ∧
      Books { k with msgs } (Function.update g q xs)
        (fun b => if b = m ∨ k.data_ptr m = some b then some .held else use b) := by
  obtain ⟨msgs, run, lists⟩ := remove_tail_spec h.lists split
  have queued : use m = some (.message q) := (h.message q m).mp (by simp [split])
  have nodup := (h.lists.each q (h.lists.live_of_mem (n := m) (by simp [split]))).nodup
  rw [split] at nodup
  have gone : m ∉ xs := fun mem => by
    have apart := List.disjoint_of_nodup_append nodup
    exact apart mem List.mem_cons_self
  have ours : ∀ d, k.data_ptr m = some d → use d = some (.data m) := fun d ptr =>
    (h.data m d).mpr ⟨ptr, q, queued⟩
  refine ⟨msgs, run, ?_⟩
  constructor
  · exact lists
  · intro b
    have live := h.live b
    by_cases here : b = m
    · simp_all
    · by_cases data : k.data_ptr m = some b
      · simp_all
      · simpa [here, data] using live
  · intro q'
    have queue := h.queue q'
    by_cases here : q' = m
    · simp_all
    · by_cases data : k.data_ptr m = some q'
      · simp_all
      · simpa [here, data] using queue
  · intro q' m'
    have message := h.message q' m'
    by_cases here : m' = m
    · subst here
      have none : m' ∉ Function.update g q xs q' := by
        by_cases there : q' = q
        · subst there
          simpa using gone
        · rw [Function.update_of_ne there, message, queued]
          simp [Ne.symm there]
      simp [none]
    · have same : m' ∈ Function.update g q xs q' ↔ m' ∈ g q' := by
        by_cases there : q' = q
        · subst there
          simp [split, here]
        · simp [there]
      rw [same, message]
      by_cases data : k.data_ptr m = some m'
      · simp [data, ours m' data]
      · simp [here, data]
  · intro m' b
    have data := h.data m' b
    by_cases here : m' = m
    · subst here
      by_cases own : b = m' ∨ k.data_ptr m' = some b
      · simp [own]
      · have none : use b ≠ some (.data m') := fun mine => own (.inr (data.mp mine).1)
        simp [own, none]
    · have same : (∃ q', (if m' = m ∨ k.data_ptr m = some m' then some Use.held else use m') =
          some (.message q')) ↔ ∃ q', use m' = some (.message q') := by
        by_cases data : k.data_ptr m = some m'
        · simp [data, ours m' data]
        · simp [here, data]
      rw [same, ← data]
      by_cases own : b = m ∨ k.data_ptr m = some b
      · rw [if_pos own]
        have other : use b ≠ some (.data m') := by
          rcases own with rfl | ptr
          · simp [queued]
          · simp [ours b ptr, Ne.symm here]
        simp [other]
      · rw [if_neg own]

/-- A block becomes a queue. -/
theorem opened (h : Books k g use) (mine : Plain (use q)) (held : use q ≠ none)
    (msgs : k'.msgs = new_list (k.clearQueue q).msgs q) (live : k'.live = k.live)
    (queues : k'.queues = Function.update k.queues q true) (data_ptr : k'.data_ptr = k.data_ptr) :
    Books k' g (Function.update use q (some .queue)) := by
  have unused : ¬ k.queues q = true := fun used => mine.1 ((h.queue q).mp used)
  constructor
  · have lists := h.lists.opened (t := k'.msgs) unused (by simp [msgs, new_list])
      (by simp [msgs, new_list]) (by simp [msgs, new_list]) ?_
    · have same : (fun q' => k.queues q' = true ∨ q' = q) = fun q' => k'.queues q' = true := by
        funext q'
        by_cases here : q' = q
        · simp [queues, here]
        · simp [queues, here]
      rwa [same] at lists
    · intro w head tail tailPrev
      simp [msgs, new_list, Kernel.clearQueue, head, tail, tailPrev]
  · intro b
    rw [live]
    by_cases here : b = q
    · subst here
      simpa [h.live] using Option.isSome_iff_ne_none.mpr held
    · simpa [here] using h.live b
  · intro q'
    by_cases here : q' = q
    · simp [queues, here]
    · simpa [queues, here] using h.queue q'
  · intro q' m
    by_cases here : m = q
    · subst here
      simp [h.message, mine.2.1]
    · simpa [here] using h.message q' m
  · intro m b
    rw [data_ptr]
    have data := h.data m b
    have same : (∃ q', Function.update use q (some .queue) m = some (.message q')) ↔
        ∃ q', use m = some (.message q') := by
      by_cases here : m = q
      · subst here
        simp [mine.2.1]
      · simp [here]
    rw [same, ← data]
    by_cases here : b = q
    · subst here
      simp [mine.2.2]
    · simp [here]

/-- A queue without messages becomes a block again. -/
theorem closed (h : Books k g use) (used : k.queues q = true) (empty : g q = [])
    (msgs : k'.msgs = (k.clearQueue q).msgs) (live : k'.live = k.live)
    (queues : k'.queues = Function.update k.queues q false) (data_ptr : k'.data_ptr = k.data_ptr) :
    Books k' g (Function.update use q (some .held)) := by
  have mine := (h.queue q).mp used
  constructor
  · have lists := h.lists.closed (t := k'.msgs) empty ?_
    · have same : (fun q' => k.queues q' = true ∧ q' ≠ q) = fun q' => k'.queues q' = true := by
        funext q'
        by_cases here : q' = q
        · simp [queues, here]
        · simp [queues, here]
      rwa [same] at lists
    · intro w head tail tailPrev
      simp [msgs, Kernel.clearQueue, head, tail, tailPrev]
  · intro b
    rw [live]
    by_cases here : b = q
    · subst here
      simp [h.live, mine]
    · simpa [here] using h.live b
  · intro q'
    by_cases here : q' = q
    · simp [queues, here]
    · simpa [queues, here] using h.queue q'
  · intro q' m
    by_cases here : m = q
    · subst here
      simp [h.message, mine]
    · simpa [here] using h.message q' m
  · intro m b
    rw [data_ptr]
    have data := h.data m b
    have same : (∃ q', Function.update use q (some .held) m = some (.message q')) ↔
        ∃ q', use m = some (.message q') := by
      by_cases here : m = q
      · subst here
        simp [mine]
      · simp [here]
    rw [same, ← data]
    by_cases here : b = q
    · subst here
      simp [mine]
    · simp [here]

end Books

/-- The blocks that the call under way holds. -/
def Holds (use : Ptr32 → Option Use) (bs : List Ptr32) : Prop :=
  bs.Nodup ∧ ∀ b, use b = some .held ↔ b ∈ bs

/-- By how many messages the list of a queue is ahead of its counter. -/
def Frame.due : Frame → Ptr32 → Int
  | .queueSend .count s, q => if q = s.queue then 1 else 0
  | .queueRecv .copy r, q | .queueRecv .freeData r, q | .queueRecv .freeMsg r, q
  | .queueRecv .count r, q => if q = r.queue then -1 else 0
  | _, _ => 0

/-- The counter of every queue agrees with its list. -/
def Slots (k : Kernel) (g : Ptr32 → List Ptr32) (due : Ptr32 → Int) : Prop :=
  ∀ q, k.queues q = true →
    ((k.queue q).free_slots.toNat : Int) + (g q).length = (k.queue q).max_slots.toNat + due q

/-- What the call under way knows before its next statement. -/
def Local (k : Kernel) (use : Ptr32 → Option Use) : Frame → Prop
  | .createQueue pc _ _ new_queue =>
      match pc with
      | .init => Holds use [new_queue]
      | _ => Holds use []
  | .destroyQueue pc queue =>
      match pc with
      | .forbid | .clear =>
          k.queues queue = true ∧ (k.queue queue).free_slots = (k.queue queue).max_slots ∧
              Holds use []
      | .free => Holds use [queue]
      | _ => Holds use []
  | .queueSend pc s => k.queues s.queue = true ∧
      match pc with
      | .alloc => 0 < (k.queue s.queue).free_slots ∧ Holds use []
      | .clear | .allocData => 0 < (k.queue s.queue).free_slots ∧ Holds use [s.new_msg]
      | .hasData =>
          0 < (k.queue s.queue).free_slots ∧ k.data_ptr s.new_msg = none ∧ Holds use [s.new_msg]
      | .setData => 0 < (k.queue s.queue).free_slots ∧ Holds use [s.new_msg, s.data]
      | .copy => 0 < (k.queue s.queue).free_slots ∧ k.data_ptr s.new_msg = some s.data ∧
          Holds use [s.new_msg, s.data]
      | .link => 0 < (k.queue s.queue).free_slots ∧
          Holds use (s.new_msg :: (k.data_ptr s.new_msg).toList)
      | .count => 0 < (k.queue s.queue).free_slots ∧ Holds use []
      | _ => Holds use []
  | .queueRecv pc r => k.queues r.queue = true ∧
      match pc with
      | .unlink => (k.queue r.queue).free_slots < (k.queue r.queue).max_slots ∧ Holds use []
      | .copy | .freeData => Holds use (r.msg :: (k.data_ptr r.msg).toList)
      | .freeMsg => Holds use [r.msg]
      | _ => Holds use []
  | _ => False

/-- What it knows while a system call of its has not taken or freed the block. -/
def Pending (k : Kernel) (use : Ptr32 → Option Use) : SysCall → Frame → Prop
  | .kmalloc, .createQueue .init .. => Holds use []
  | .kmalloc, .queueSend .clear s =>
      k.queues s.queue = true ∧ 0 < (k.queue s.queue).free_slots ∧ Holds use []
  | .kmalloc, .queueSend .setData s =>
      k.queues s.queue = true ∧ 0 < (k.queue s.queue).free_slots ∧ Holds use [s.new_msg]
  | .kfree ptr, .queueRecv .freeMsg r => k.queues r.queue = true ∧ Holds use [ptr, r.msg]
  | .kfree ptr, .queueRecv .count r => k.queues r.queue = true ∧ Holds use [ptr]
  | .kfree ptr, .destroyQueue .permit _ => Holds use [ptr]
  | _, _ => False

theorem Holds.plain (h : Holds use bs) (mem : b ∈ bs) : Plain (use b) := by
  rw [(h.2 b).mpr mem]
  exact ⟨nofun, nofun, nofun⟩

/-- One more block is held. -/
theorem Holds.take {bs : List Ptr32} (h : Holds use bs) (free : use b = none) :
    Holds (Function.update use b (some .held)) (b :: bs) := by
  have fresh : b ∉ bs := fun mem => by
    rw [← h.2 b, free] at mem
    cases mem
  refine ⟨List.nodup_cons.mpr ⟨fresh, h.1⟩, fun b' => ?_⟩
  by_cases here : b' = b
  · simp [here]
  · simp [here, h.2]

/-- A block that was held is not any more. -/
theorem Holds.drop {bs : List Ptr32} (h : Holds use (b :: bs)) (new : u ≠ some .held) :
    Holds (Function.update use b u) bs := by
  obtain ⟨nodup, held⟩ := h
  rw [List.nodup_cons] at nodup
  refine ⟨nodup.2, fun b' => ?_⟩
  by_cases here : b' = b
  · subst here
    simp [new, nodup.1]
  · simp [here, held]

theorem Holds.swap {b b' : Ptr32} {bs : List Ptr32} (h : Holds use (b :: b' :: bs)) :
    Holds use (b' :: b :: bs) :=
  ⟨(List.Perm.swap b b' bs).nodup_iff.mpr h.1, fun x => by simpa [or_left_comm] using h.2 x⟩

/-- The block belongs to a task. -/
def Use.other : Use → Bool
  | .task _ | .stack => true
  | _ => false

/-- The blocks of the tasks stay theirs. -/
def Kept (use use' : Ptr32 → Option Use) : Prop :=
  ∀ b u, u.other → (use' b = some u ↔ use b = some u)

theorem Kept.refl (use : Ptr32 → Option Use) : Kept use use := fun _ _ _ => Iff.rfl

theorem Kept.update (old : ∀ v, v.other → use b ≠ some v) (new : ∀ v, v.other → u ≠ some v) :
    Kept use (Function.update use b u) := by
  intro b' v other
  by_cases here : b' = b
  · subst here
    simp [old v other, new v other]
  · simp [here]

/-- Blocks change their use that belong to no task, before and after. -/
theorem Kept.of_changed {use' : Ptr32 → Option Use}
    (h : ∀ b, use' b = use b ∨
      ∃ u v, use b = some u ∧ use' b = some v ∧ u.other = false ∧ v.other = false) :
    Kept use use' := by
  intro b u other
  cases h b with
  | inl same => rw [same]
  | inr changed =>
      obtain ⟨v, w, was, is, own, own'⟩ := changed
      have old : use b ≠ some u := fun same => by simp_all
      have new : use' b ≠ some u := fun same => by simp_all
      simp [old, new]

/-- A counter is brought up to date. -/
theorem Slots.counted {due : Ptr32 → Int} (slots : Slots k g due) (queue : Ptr32)
    (f : BitVec 32 → BitVec 32) (others : ∀ q, q ≠ queue → due q = 0)
    (here : ((k.queue queue).free_slots.toNat : Int) + (g queue).length =
        (k.queue queue).max_slots.toNat + due queue →
      ((f (k.queue queue).free_slots).toNat : Int) = (k.queue queue).free_slots.toNat - due queue) :
    Slots (k.setQueue queue fun q => { q with free_slots := f q.free_slots }) g fun _ => 0 := by
  intro q used
  have count := slots q used
  by_cases this : q = queue
  · subst this
    have value := here count
    simp [Kernel.setQueue]
    omega
  · simpa [Kernel.setQueue, this, others q this] using count

/-- A list gets ahead of its counter, or falls behind it. -/
theorem Slots.relisted {due due' : Ptr32 → Int} {queue : Ptr32} {xs : List Ptr32}
    (slots : Slots k g due) (queue' : k'.queue = k.queue) (queues' : k'.queues = k.queues)
    (others : ∀ q, q ≠ queue → due' q = due q)
    (here : (xs.length : Int) - due' queue = (g queue).length - due queue) :
    Slots k' (Function.update g queue xs) due' := by
  intro q used
  rw [queues'] at used
  have count := slots q used
  rw [queue']
  by_cases this : q = queue
  · subst this
    simp
    omega
  · simpa [this, others q this] using count

/-- The lists of messages after the next statement of the frame. -/
def Frame.relist (f : Frame) (g : Ptr32 → List Ptr32) : Ptr32 → List Ptr32 :=
  match f with
  | .queueSend .link s => Function.update g s.queue (s.new_msg :: g s.queue)
  | .queueRecv .unlink r => Function.update g r.queue (g r.queue).dropLast
  | _ => g

/-- What is known after a statement of a call. -/
def Onward (k : Kernel) (g : Ptr32 → List Ptr32) (use : Ptr32 → Option Use) : Next → Prop
  | .goto f | .call f _ => Local k use f ∧ Slots k g f.due
  | .int f call => Pending k use call f ∧ Slots k g f.due
  | .ret _ => Holds use [] ∧ Slots k g fun _ => 0
  | _ => False

/-- The statement keeps the books. -/
def Booked (k' : Kernel) (g' : Ptr32 → List Ptr32) (use : Ptr32 → Option Use) (n : Next) : Prop :=
  ∃ use', Books k' g' use' ∧ Kept use use' ∧ Onward k' g' use' n

section Statements

variable {n : Next} {block : Ptr32}

theorem create_booked {pc : CreateQueuePc} {max_slots elem_sz new_queue : BitVec 32}
    (h : Books k g use) (slots : Slots k g fun _ => 0)
    (here : Local k use (.createQueue pc max_slots elem_sz new_queue))
    (run : execCreateQueue k max_slots elem_sz new_queue pc = some (k', n)) :
    Booked k' g use n := by
  cases pc with
  | init =>
      cases run
      have mine : use new_queue = some .held := (here.2 _).mpr List.mem_cons_self
      have plain := here.plain List.mem_cons_self
      have fresh : g new_queue = [] := h.lists.unused new_queue fun used => by
        rw [(h.queue new_queue).mp used] at mine
        cases mine
      refine ⟨_, h.opened plain (by simp [mine]) rfl rfl rfl rfl, ?_, here.drop nofun, ?_⟩
      · refine Kept.update ?_ ?_
        · rintro v other same
          rw [mine] at same
          cases same
          cases other
        · rintro v other same
          cases same
          cases other
      · intro q used
        by_cases this : q = new_queue
        · subst this
          simp [Kernel.setQueue, fresh, Frame.due]
        · have old : k.queues q = true := by
            simpa [Kernel.setQueue, Kernel.clearQueue, this] using used
          simpa [Kernel.setQueue, Kernel.clearQueue, this, Frame.due] using slots q old
  | permit =>
      cases run
      unfold Kernel.past
      split <;> exact ⟨use, h, .refl use, here, slots⟩
  | _ =>
      cases run
      exact ⟨use, h.frame rfl rfl rfl rfl, .refl use, here, slots⟩

theorem destroy_booked {pc : DestroyQueuePc} {queue : Ptr32}
    (h : Books k g use) (slots : Slots k g fun _ => 0) (here : Local k use (.destroyQueue pc queue))
    (run : execDestroyQueue k queue pc = some (k', n)) : Booked k' g use n := by
  cases pc with
  | clear =>
      cases run
      obtain ⟨used, idle, none⟩ := here
      have empty : g queue = [] := by
        have count := slots queue used
        simp only [idle, Int.add_zero] at count
        exact List.eq_nil_of_length_eq_zero (by omega)
      have mine := (h.queue queue).mp used
      refine ⟨_, h.closed used empty rfl rfl rfl rfl, ?_, ?_, ?_⟩
      · refine Kept.update ?_ ?_
        · rintro v other same
          rw [mine] at same
          cases same
          cases other
        · rintro v other same
          cases same
          cases other
      · refine ⟨List.nodup_singleton _, fun b => ?_⟩
        by_cases this : b = queue
        · simp [this]
        · simp [this, none.2]
      · intro q used
        by_cases this : q = queue
        · simp [this] at used
        · have old : k.queues q = true := by simpa [this] using used
          simpa [Kernel.clearQueue, this, Frame.due] using slots q old
  | permit =>
      cases run
      unfold Kernel.past
      split <;> exact ⟨use, h, .refl use, here, slots⟩
  | _ =>
      cases run
      exact ⟨use, h.frame rfl rfl rfl rfl, .refl use, here, slots⟩

/-- `queue_send` links its message. -/
theorem link_booked {s : Send} (h : Books k g use) (slots : Slots k g (Frame.queueSend .link s).due)
    (here : Local k use (.queueSend .link s)) (run : execSend k s .link = some (k', n)) :
    Booked k' ((Frame.queueSend .link s).relist g) use n := by
  obtain ⟨used, free, nodup, held⟩ := here
  obtain ⟨msgs, add, same⟩ := Option.bind_eq_some_iff.mp run
  cases same
  have mine : use s.new_msg = some .held := (held _).mpr List.mem_cons_self
  have data : ∀ d, k.data_ptr s.new_msg = some d → d ≠ s.new_msg ∧ use d = some .held := by
    intro d ptr
    rw [ptr] at nodup held
    refine ⟨?_, (held d).mpr (by simp)⟩
    rintro rfl
    simp at nodup
  obtain ⟨msgs', add', books⟩ := h.link used mine data
  rw [add] at add'
  cases add'
  refine ⟨_, books, .of_changed ?_, ⟨used, free, List.nodup_nil, ?_⟩, slots.relisted rfl rfl ?_ ?_⟩
  · intro b
    by_cases this : b = s.new_msg
    · exact .inr ⟨.held, .message s.queue, this ▸ mine, by simp [this], rfl, rfl⟩
    · by_cases ptr : k.data_ptr s.new_msg = some b
      · exact .inr ⟨.held, .data s.new_msg, (data b ptr).2, by simp [this, ptr], rfl, rfl⟩
      · exact .inl (by simp [this, ptr])
  · intro b
    by_cases this : b = s.new_msg
    · simp [this]
    · by_cases ptr : k.data_ptr s.new_msg = some b
      · simp [this, ptr]
      · simp [this, ptr, held]
  · intro q other
    simp [Frame.due, other]
  · simp [Frame.due]

/-- `queue_send` counts its message. -/
theorem send_count_booked {s : Send} (h : Books k g use)
    (slots : Slots k g (Frame.queueSend .count s).due) (here : Local k use (.queueSend .count s))
    (run : execSend k s .count = some (k', n)) : Booked k' g use n := by
  obtain ⟨used, positive, none⟩ := here
  have books :
      Books (k.setQueue s.queue fun q => { q with free_slots := q.free_slots - 1 }) g use :=
    h.frame rfl rfl rfl rfl
  have slots' : Slots (k.setQueue s.queue fun q => { q with free_slots := q.free_slots - 1 }) g
      fun _ => 0 := by
    apply slots.counted s.queue (· - 1) (fun q other => by simp [Frame.due, other])
    intro _
    have free : 0 < (k.queue s.queue).free_slots.toNat := by simpa [BitVec.lt_def] using positive
    have less : ((k.queue s.queue).free_slots - 1).toNat =
        (k.queue s.queue).free_slots.toNat - 1 :=
      BitVec.toNat_sub_of_le (by rw [BitVec.le_def]; exact free)
    simp [Frame.due]
    omega
  simp only [execSend] at run
  split at run <;> cases run <;> exact ⟨use, books, .refl use, ⟨used, none⟩, slots'⟩

theorem send_booked {pc : SendPc} {s : Send} (h : Books k g use)
    (slots : Slots k g (Frame.queueSend pc s).due) (here : Local k use (.queueSend pc s))
    (run : execSend k s pc = some (k', n)) :
    Booked k' ((Frame.queueSend pc s).relist g) use n := by
  obtain ⟨used, here⟩ := here
  cases pc with
  | full =>
      simp only [execSend] at run
      split at run <;> cases run
      · next free => exact ⟨use, h, .refl use, ⟨used, free, here⟩, slots⟩
      · exact ⟨use, h, .refl use, ⟨used, here⟩, slots⟩
  | refull =>
      simp only [execSend] at run
      split at run <;> cases run
      · exact ⟨use, h, .refl use, ⟨used, here⟩, slots⟩
      · next free =>
          exact ⟨use, h, .refl use, ⟨used, by simpa [BitVec.pos_iff_ne_zero] using free, here⟩,
              slots⟩
  | mode =>
      simp only [execSend] at run
      split at run <;> cases run
      · exact ⟨use, h, .refl use, ⟨used, here⟩, slots⟩
      · exact ⟨use, h, .refl use, here, slots⟩
  | ret =>
      cases run
      exact ⟨use, h, .refl use, here, slots⟩
  | alloc =>
      cases run
      exact ⟨use, h, .refl use, ⟨used, here⟩, slots⟩
  | clear =>
      cases run
      have plain := here.2.plain List.mem_cons_self
      refine ⟨use, h.point plain none, .refl use, ⟨used, here.1, ?_, here.2⟩, slots⟩
      exact Function.update_self ..
  | hasData =>
      simp only [execSend] at run
      split at run <;> cases run
      · exact ⟨use, h, .refl use, ⟨used, here.1, here.2.2⟩, slots⟩
      · exact ⟨use, h, .refl use, ⟨used, here.1, by simpa [here.2.1] using here.2.2⟩, slots⟩
  | allocData =>
      cases run
      exact ⟨use, h, .refl use, ⟨used, here⟩, slots⟩
  | setData =>
      cases run
      have plain := here.2.plain List.mem_cons_self
      refine ⟨use, h.point plain (some s.data), .refl use, ⟨used, here.1, ?_, here.2⟩, slots⟩
      exact Function.update_self ..
  | copy =>
      obtain ⟨msg, -, same⟩ := Option.bind_eq_some_iff.mp run
      cases same
      refine ⟨use, h.frame rfl rfl rfl rfl, .refl use, ⟨used, here.1, ?_⟩, slots⟩
      have ptr : (k.copy (s.data, 0) msg (k.queue s.queue).elem_sz.toNat).data_ptr s.new_msg =
          some s.data := here.2.1
      rw [ptr]
      exact here.2.2
  | link => exact link_booked h slots ⟨used, here⟩ run
  | count => exact send_count_booked h slots ⟨used, here⟩ run
  | permit =>
      cases run
      unfold Kernel.past
      split <;> exact ⟨use, h, .refl use, ⟨used, here⟩, slots⟩
  | _ =>
      cases run
      exact ⟨use, h.frame rfl rfl rfl rfl, .refl use, ⟨used, here⟩, slots⟩

/-- `queue_recv` unlinks the oldest message. -/
theorem unlink_booked {r : Recv} (h : Books k g use)
    (slots : Slots k g (Frame.queueRecv .unlink r).due) (here : Local k use (.queueRecv .unlink r))
    (run : execRecv k r .unlink = some (k', n)) :
    Booked k' ((Frame.queueRecv .unlink r).relist g) use n := by
  obtain ⟨used, less, -, none⟩ := here
  obtain ⟨xs, m, split⟩ : ∃ xs m, g r.queue = xs ++ [m] := by
    rcases List.eq_nil_or_concat' (g r.queue) with empty | some_
    · have count := slots r.queue used
      rw [BitVec.lt_def] at less
      simp [empty, Frame.due] at count
      omega
    · exact some_
  obtain ⟨msgs, unlinks, books⟩ := h.unlink split
  simp only [execRecv, unlinks] at run
  cases run
  have less' : Frame.relist (.queueRecv .unlink r) g = Function.update g r.queue xs := by
    simp [Frame.relist, split]
  have queued : use m = some (.message r.queue) := (h.message r.queue m).mp (by simp [split])
  have ours : ∀ d, k.data_ptr m = some d → use d = some (.data m) := fun d ptr =>
    (h.data m d).mpr ⟨ptr, _, queued⟩
  rw [less']
  refine ⟨_, books, .of_changed ?_, ⟨used, ?_, ?_⟩, slots.relisted rfl rfl ?_ ?_⟩
  · intro b
    by_cases here : b = m
    · exact .inr ⟨.message r.queue, .held, here ▸ queued, by simp [here], rfl, rfl⟩
    · by_cases ptr : k.data_ptr m = some b
      · exact .inr ⟨.data m, .held, ours b ptr, by simp [ptr], rfl, rfl⟩
      · exact .inl (by simp [here, ptr])
  · cases ptr : k.data_ptr m with
    | none => exact List.nodup_singleton m
    | some d =>
        have apart : m ≠ d := fun same => by
          have data := ours d ptr
          rw [← same, queued] at data
          cases data
        simpa using apart
  · intro b
    by_cases here : b = m
    · simp [here]
    · by_cases ptr : k.data_ptr m = some b
      · simp [ptr]
      · simp [here, ptr, none]
  · intro q other
    simp [Frame.due, other]
  · simp [split, Frame.due]

/-- `queue_recv` counts the message that it has taken. -/
theorem recv_count_booked {r : Recv} (h : Books k g use)
    (slots : Slots k g (Frame.queueRecv .count r).due) (here : Local k use (.queueRecv .count r))
    (run : execRecv k r .count = some (k', n)) : Booked k' g use n := by
  obtain ⟨used, none⟩ := here
  have books :
      Books (k.setQueue r.queue fun q => { q with free_slots := q.free_slots + 1 }) g use :=
    h.frame rfl rfl rfl rfl
  have slots' : Slots (k.setQueue r.queue fun q => { q with free_slots := q.free_slots + 1 }) g
      fun _ => 0 := by
    apply slots.counted r.queue (· + 1) (fun q other => by simp [Frame.due, other])
    intro count
    have bound := (k.queue r.queue).max_slots.isLt
    simp [Frame.due, BitVec.toNat_add] at count ⊢
    omega
  simp only [execRecv] at run
  split at run <;> cases run <;> exact ⟨use, books, .refl use, ⟨used, none⟩, slots'⟩

theorem recv_booked {pc : RecvPc} {r : Recv} (h : Books k g use)
    (slots : Slots k g (Frame.queueRecv pc r).due) (here : Local k use (.queueRecv pc r))
    (run : execRecv k r pc = some (k', n)) :
    Booked k' ((Frame.queueRecv pc r).relist g) use n := by
  obtain ⟨used, here⟩ := here
  cases pc with
  | empty =>
      simp only [execRecv] at run
      split at run <;> cases run
      · next some_ => exact ⟨use, h, .refl use, ⟨used, some_, here⟩, slots⟩
      · exact ⟨use, h, .refl use, ⟨used, here⟩, slots⟩
  | reempty =>
      simp only [execRecv] at run
      split at run <;> cases run
      · exact ⟨use, h, .refl use, ⟨used, here⟩, slots⟩
      · next some_ =>
          have count := slots r.queue used
          have less : (k.queue r.queue).free_slots < (k.queue r.queue).max_slots := by
            have ne : (k.queue r.queue).free_slots.toNat ≠ (k.queue r.queue).max_slots.toNat :=
              fun same => some_ (BitVec.eq_of_toNat_eq same)
            rw [BitVec.lt_def]
            simp only [Frame.due, Int.add_zero] at count
            omega
          exact ⟨use, h, .refl use, ⟨used, less, here⟩, slots⟩
  | mode =>
      simp only [execRecv] at run
      split at run <;> cases run
      · exact ⟨use, h, .refl use, ⟨used, here⟩, slots⟩
      · exact ⟨use, h, .refl use, here, slots⟩
  | ret =>
      cases run
      exact ⟨use, h, .refl use, here, slots⟩
  | unlink => exact unlink_booked h slots ⟨used, here⟩ run
  | copy =>
      simp only [execRecv] at run
      split at run
      · obtain ⟨ptr, -, same⟩ := Option.bind_eq_some_iff.mp run
        cases same
        exact ⟨use, h.frame rfl rfl rfl rfl, .refl use, ⟨used, here⟩, slots⟩
      · next none =>
          cases run
          exact ⟨use, h, .refl use, ⟨used, by simpa [none] using here⟩, slots⟩
  | freeData =>
      obtain ⟨data, ptr, same⟩ := Option.bind_eq_some_iff.mp run
      cases same
      rw [ptr] at here
      exact ⟨use, h, .refl use, ⟨used, here.swap⟩, slots⟩
  | freeMsg =>
      cases run
      exact ⟨use, h, .refl use, ⟨used, here⟩, slots⟩
  | count => exact recv_count_booked h slots ⟨used, here⟩ run
  | permit =>
      cases run
      unfold Kernel.past
      split <;> exact ⟨use, h, .refl use, ⟨used, here⟩, slots⟩
  | first | next =>
      obtain ⟨aux, -, same⟩ := Option.bind_eq_some_iff.mp run
      cases same
      exact ⟨use, h, .refl use, ⟨used, here⟩, slots⟩
  | each =>
      simp only [execRecv] at run
      split at run <;> cases run
      · exact ⟨use, h, .refl use, ⟨used, here⟩, slots⟩
      · exact ⟨use, h, .refl use, ⟨used, here⟩, slots⟩
  | _ =>
      cases run
      exact ⟨use, h.frame rfl rfl rfl rfl, .refl use, ⟨used, here⟩, slots⟩

/-- The statements of the queue functions keep the books. -/
theorem exec_booked {f : Frame} (h : Books k g use) (slots : Slots k g f.due) (here : Local k use f)
    (run : exec block k f = some (k', n)) : Booked k' (f.relist g) use n := by
  cases f with
  | createQueue pc max_slots elem_sz new_queue => exact create_booked h slots here run
  | destroyQueue pc queue => exact destroy_booked h slots here run
  | queueSend pc s => exact send_booked h slots here run
  | queueRecv pc r => exact recv_booked h slots here run
  | _ => cases here

/-- `kmalloc` gives its block to the call. -/
theorem malloc_booked {f : Frame} (h : Books k g use) (free : k.live b = false)
    (waits : Pending k use .kmalloc f) :
    ∃ use', Books { k with live := Function.update k.live b true } g use' ∧ Kept use use' ∧
      Local { k with live := Function.update k.live b true } use' (f.deliver (.ptr (some b))) := by
  have unused : use b = none := by simpa [h.live] using free
  have books := h.retag (b := b) (u := some .held) (by rw [unused]; exact ⟨nofun, nofun, nofun⟩)
    ⟨nofun, nofun, nofun⟩
  refine ⟨_, books, Kept.update (by simp [unused]) ?_, ?_⟩
  · rintro v other ⟨⟩
    cases other
  · cases f with
    | createQueue pc =>
        cases pc with
        | init => exact Holds.take waits unused
        | _ => cases waits
    | queueSend pc s =>
        cases pc with
        | clear => exact ⟨waits.1, waits.2.1, waits.2.2.take unused⟩
        | setData => exact ⟨waits.1, waits.2.1, (waits.2.2.take unused).swap⟩
        | _ => cases waits
    | _ => cases waits

/-- `kfree` takes it back. -/
theorem free_booked {f : Frame} (h : Books k g use) (waits : Pending k use (.kfree b) f) :
    ∃ use', Books { k with live := Function.update k.live b false } g use' ∧ Kept use use' ∧
      Local { k with live := Function.update k.live b false } use' f := by
  have drop {bs : List Ptr32} (mine : Holds use (b :: bs)) :
      ∃ use', Books { k with live := Function.update k.live b false } g use' ∧ Kept use use' ∧
        Holds use' bs := by
    have held : use b = some .held := (mine.2 b).mpr List.mem_cons_self
    refine ⟨_, h.retag (u := none) (mine.plain List.mem_cons_self) ⟨nofun, nofun, nofun⟩,
      Kept.update ?_ nofun, mine.drop nofun⟩
    rintro v other same
    rw [held] at same
    cases same
    cases other
  cases f with
  | queueRecv pc r =>
      cases pc with
      | freeMsg | count =>
          obtain ⟨use', books, kept, holds⟩ := drop waits.2
          exact ⟨use', books, kept, waits.1, holds⟩
      | _ => cases waits
  | destroyQueue pc queue =>
      cases pc with
      | permit => exact drop waits
      | _ => cases waits
  | _ => cases waits

end Statements

end Krypton
