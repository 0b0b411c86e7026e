import Krypton.Heap.Backing
import Krypton.Heap.Safety
import Mathlib.Logic.Relation

/-! # Re-entrancy of `_kmalloc`

An outer call of `_kmalloc` reads the free list and `k_heap_end` with interrupts
enabled, one read of memory at a time, up to its first `cli`. Between two reads
handlers may execute complete calls. The outer call then trusts what it read:
the chunk it tested is still free and large enough, or the heap still ends where
it did, and with the last free chunk.

A read of a chunk whose page has been unmapped meanwhile is a page fault in the
code. Here it goes on with the header as it was.
-/

namespace Krypton

open LinkStore Tiling

/-- Where the outer call is, with its local variables `chunk` and `heap_end_addr`. -/
inductive OuterPc where
  /-- before `list->head` in the test of `get_head` -/
  | entry
  /-- before `list->head->next` -/
  | headTest (p : Ptr Nat Unit)
  /-- before `return_node = list->head` -/
  | headRead
  /-- before `heap_end_addr = k_heap_end` -/
  | readEnd (chunk : Ptr Nat Unit)
  /-- before `while(chunk)`, the size being rounded up -/
  | loop (chunk : Ptr Nat Unit) (heap_end_addr : Nat)
  | magicTest (chunk heap_end_addr : Nat)
  | sizeTest (chunk heap_end_addr : Nat)
  /-- before `node->next != NULL` in `get_next` -/
  | nextTest (chunk heap_end_addr : Nat)
  /-- before `node->next` in `node->next->next != NULL` -/
  | nextLoad (chunk heap_end_addr : Nat)
  | nextNextTest (chunk : Nat) (p : Ptr Nat Unit) (heap_end_addr : Nat)
  /-- before `return_node = node->next` -/
  | nextRead (chunk heap_end_addr : Nat)
  /-- before the `cli` that follows the search -/
  | found (chunk heap_end_addr : Nat)
  | exhausted (heap_end_addr : Nat)
  | returned (ptr : Nat)
  deriving DecidableEq

/-- The heap with its pages, the blocks live in it and the outer call. -/
structure NestedRun where
  memory : Memory
  live : List (Nat × Nat)
  outer : OuterPc

inductive NestedEvent where
  /-- the outer call goes on -/
  | outer
  /-- a handler executes a complete call -/
  | nested (call : HeapCall)

namespace NestedRun

/-- The next read of the outer call of `_kmalloc(alloc_sz)`; from its first `cli`
    on it runs to its end. -/
def advance (alloc_sz : Nat) (m : Memory) : OuterPc → Option (OuterPc × Memory)
  | .entry => some (.headTest (m.heap.links (.head ())), m)
  | .headTest p => do
      if (← readNext m.heap.links p) = .null then return (.readEnd .null, m)
      else return (.headRead, m)
  | .headRead => some (.readEnd (m.heap.links (.head ())), m)
  | .readEnd chunk => some (.loop chunk m.heap.k_heap_end, m)
  | .loop .null heap_end_addr => some (.exhausted heap_end_addr, m)
  | .loop (.node chunk) heap_end_addr => some (.magicTest chunk heap_end_addr, m)
  | .loop _ _ => none
  | .magicTest chunk heap_end_addr =>
      if m.heap.magic chunk ≠ CHUNK_MAGIC then none else some (.sizeTest chunk heap_end_addr, m)
  | .sizeTest chunk heap_end_addr =>
      if m.heap.size chunk < align alloc_sz * 2 % 2 ^ 32 then
        some (.nextTest chunk heap_end_addr, m)
      else some (.found chunk heap_end_addr, m)
  | .nextTest chunk heap_end_addr =>
      if m.heap.links (.next chunk) = .null then some (.loop .null heap_end_addr, m)
      else some (.nextLoad chunk heap_end_addr, m)
  | .nextLoad chunk heap_end_addr =>
      some (.nextNextTest chunk (m.heap.links (.next chunk)) heap_end_addr, m)
  | .nextNextTest chunk p heap_end_addr => do
      if (← readNext m.heap.links p) = .null then return (.loop .null heap_end_addr, m)
      else return (.nextRead chunk heap_end_addr, m)
  | .nextRead chunk heap_end_addr =>
      some (.loop (m.heap.links (.next chunk)) heap_end_addr, m)
  | .found chunk _ => do
      let (ptr, m) ← m.take (align alloc_sz) chunk
      return (.returned ptr, m)
  | .exhausted heap_end_addr => do
      let (ptr, m) ← (← m.grow heap_end_addr)._kmalloc stepBound (align alloc_sz)
      return (.returned ptr, m)
  | .returned _ => none

/-- The outer call has not returned. -/
def running : OuterPc → Bool
  | .returned _ => false
  | _ => true

/-- A complete call, or a store of a user into his own block. -/
def call (s : NestedRun) : HeapCall → Option NestedRun
  | .kmalloc alloc_sz => do
      guard (1 ≤ alloc_sz ∧ alloc_sz ≤ 2 ^ 30)
      let (ptr, memory) ← s.memory._kmalloc stepBound alloc_sz
      let chunk := sub32 ptr sizeofChunk
      return { s with memory, live := (chunk, memory.heap.size chunk) :: s.live }
  | .kfree ptr => do
      let block ← s.live.find? fun b => b.1 + 16 = ptr
      return { s with memory := ← s.memory._kfree ptr, live := s.live.erase block }
  | .store cell word => do
      guard (∃ b ∈ s.live, b.1 + 16 ≤ cell ∧ cell + 16 ≤ b.1 + 16 + b.2)
      return { s with memory := { s.memory with heap := s.memory.heap.store cell word } }

def step (alloc_sz : Nat) (s : NestedRun) : NestedEvent → Option NestedRun
  | .outer => do
      let (outer, memory) ← advance alloc_sz s.memory s.outer
      return { s with outer, memory }
  | .nested call => do
      guard (running s.outer)
      s.call call

def toHeapRun (s : NestedRun) : HeapRun := ⟨s.memory.heap, s.live⟩

/-- Any well-formed heap, all of whose chunks in use are live. -/
def Init (s : NestedRun) : Prop := s.toHeapRun.Tiled ∧ s.outer = .entry

/-- What the state before an event must be like. Only the two steps with which
    the outer call uses what it read say more than for calls one by one. -/
def Ok (alloc_sz : Nat) (s : NestedRun) : NestedEvent → Prop
  | .nested call => s.toHeapRun.Ok call
  | .outer =>
      let h := s.memory.heap
      match s.outer with
      | .found chunk _ => h.OnFreeList chunk ∧ align alloc_sz * 2 ≤ h.size chunk
      | .exhausted heap_end_addr => heap_end_addr = h.k_heap_end ∧
          ((∃ c, h.OnFreeList c ∧ c + 16 + h.size c = h.k_heap_end ∧ h.k_heap_end +
            PAGE_SIZE * (1 + Heap.pages (align alloc_sz * 2 - (h.size c + PAGE_SIZE))) < 2 ^ 32) ∨
          (∀ c, ¬ h.OnFreeList c) ∧ h.k_heap_end +
            PAGE_SIZE * (1 + Heap.pages (align alloc_sz * 2 - (PAGE_SIZE - 16))) < 2 ^ 32)
      | _ => True

/-- The block that the outer call returned, its header included, is apart from
    every live block. -/
def Fresh (alloc_sz : Nat) (s : NestedRun) : Prop :=
  ∀ ptr, s.outer = .returned ptr → ∀ b ∈ s.live,
    ptr + alloc_sz ≤ b.1 ∨ b.1 + 16 + b.2 + 16 ≤ ptr

/-- While the outer call is running the heap is tiled. -/
def Interrupted (s : NestedRun) : Prop := running s.outer → s.toHeapRun.Tiled

variable {alloc_sz : Nat} {s t : NestedRun}

/-! ## The call without interruption -/

/-- The outer call goes on alone. -/
def Alone (alloc_sz : Nat) : NestedRun → NestedRun → Prop :=
  Relation.ReflTransGen fun s t => step alloc_sz s .outer = some t

theorem Alone.first {u : NestedRun} (h : step alloc_sz s .outer = some t)
    (rest : Alone alloc_sz t u) :
    Alone alloc_sz s u := .head h rest

/-- The reads of `get_next` end with the pointer that `get_next` returns. -/
theorem alone_get_next {chunk e : Nat} {p : Ptr Nat Unit}
    (next : get_next s.memory.heap.links (.node chunk) = some p) :
    Alone alloc_sz { s with outer := .nextTest chunk e } { s with outer := .loop p e } := by
  simp only [get_next, reduceCtorEq, if_false, readNext_node, Option.bind_eq_bind,
    Option.bind_some] at next
  by_cases null : s.memory.heap.links (.next chunk) = .null
  · rw [if_pos null] at next
    cases next
    exact .single (by simp [step, advance, null])
  · rw [if_neg null] at next
    obtain ⟨q, read, last⟩ := Option.bind_eq_some_iff.mp next
    refine Alone.first (t := { s with outer := .nextLoad chunk e })
        (by simp [step, advance, null]) ?_
    refine Alone.first
      (t := { s with outer := .nextNextTest chunk (s.memory.heap.links (.next chunk)) e }) rfl ?_
    by_cases final : q = .null
    · rw [if_pos final] at last
      cases last
      exact .single (by simp [step, advance, read, final])
    · rw [if_neg final] at last
      cases last
      exact Alone.first (t := { s with outer := .nextRead chunk e })
        (by simp [step, advance, read, final]) (.single rfl)

/-- The loop ends where the search of `_kmalloc` does. -/
theorem alone_fit {e : Nat} {fuel : Nat} {p : Ptr Nat Unit} {r : Option Nat}
    (search : s.memory.heap.fit (align alloc_sz) fuel p = some r) :
    Alone alloc_sz { s with outer := .loop p e }
      { s with outer := r.elim (.exhausted e) fun chunk => .found chunk e } := by
  induction fuel generalizing p with
  | zero =>
      cases p <;> cases search
      exact .single rfl
  | succ fuel ih =>
      cases p with
      | null =>
          cases search
          exact .single rfl
      | node chunk =>
          refine Alone.first (t := { s with outer := .magicTest chunk e }) rfl ?_
          simp only [Heap.fit] at search
          split at search
          · cases search
          next magic =>
            have magic := not_not.mp magic
            refine Alone.first (t := { s with outer := .sizeTest chunk e })
              (by simp [step, advance, magic]) ?_
            split at search
            next small =>
              obtain ⟨next, read, search⟩ := Option.bind_eq_some_iff.mp search
              refine Alone.first (t := { s with outer := .nextTest chunk e })
                (by simp only [step, advance, if_pos small]; rfl) ?_
              exact (alone_get_next read).trans (ih search)
            next fits =>
              cases search
              exact .single (by simp only [step, advance, if_neg fits]; rfl)
      | head l => cases search
      | tail l => cases search

/-- Without interruption the outer call is `_kmalloc`. -/
theorem alone_kmalloc {m' : Memory} {ptr : Nat} (outer : s.outer = .entry)
    (call : s.memory._kmalloc (stepBound + 1) alloc_sz = some (ptr, m')) :
    Alone alloc_sz s { s with memory := m', outer := .returned ptr } := by
  simp only [Memory._kmalloc, Option.bind_eq_bind] at call
  obtain ⟨chunk, head, call⟩ := Option.bind_eq_some_iff.mp call
  obtain ⟨r, search, call⟩ := Option.bind_eq_some_iff.mp call
  have entry : s = { s with outer := .entry } := by rw [← outer]
  have reads : Alone alloc_sz s { s with outer := .loop chunk s.memory.heap.k_heap_end } := by
    rw [entry]
    refine Alone.first (t := { s with outer := .headTest (s.memory.heap.links (.head ())) }) rfl ?_
    obtain ⟨p, read, chosen⟩ := Option.bind_eq_some_iff.mp head
    by_cases null : p = .null
    · rw [if_pos null] at chosen
      cases chosen
      exact Alone.first (t := { s with outer := .readEnd .null })
        (by simp [step, advance, read, null]) (.single rfl)
    · rw [if_neg null] at chosen
      cases chosen
      refine Alone.first (t := { s with outer := .headRead })
        (by simp [step, advance, read, null]) ?_
      exact Alone.first (t := { s with outer := .readEnd (s.memory.heap.links (.head ())) }) rfl
        (.single rfl)
  refine reads.trans ((alone_fit search).trans ?_)
  cases r with
  | some chunk => exact .single (by simp [step, advance, call])
  | none =>
      obtain ⟨m₁, grown, call⟩ := Option.bind_eq_some_iff.mp call
      exact .single (by simp [step, advance, grown, call])

/-! ## The block is fresh -/

/-- A read changes nothing. -/
theorem advance_reads {m m' : Memory} {pc pc' : OuterPc}
    (step : advance alloc_sz m pc = some (pc', m')) (on : running pc') : m' = m := by
  have same : ∀ {q : OuterPc}, some (q, m) = some (pc', m') → m' = m := by
    intro q eq
    cases eq
    rfl
  cases pc with
  | entry | headRead | readEnd chunk | nextLoad chunk e | nextRead chunk e => exact same step
  | headTest p | nextNextTest chunk p e =>
      obtain ⟨next, -, step⟩ := Option.bind_eq_some_iff.mp step
      split at step <;> exact same step
  | loop chunk e =>
      cases chunk with
      | null => exact same step
      | node chunk => exact same step
      | head l => cases step
      | tail l => cases step
  | magicTest chunk e =>
      simp only [advance] at step
      split at step
      · cases step
      · exact same step
  | sizeTest chunk e | nextTest chunk e =>
      simp only [advance] at step
      split at step <;> exact same step
  | found chunk e =>
      obtain ⟨⟨ptr, m₁⟩, -, step⟩ := Option.bind_eq_some_iff.mp step
      cases step
      cases on
  | exhausted e =>
      obtain ⟨m₁, -, step⟩ := Option.bind_eq_some_iff.mp step
      obtain ⟨⟨ptr, m₂⟩, -, step⟩ := Option.bind_eq_some_iff.mp step
      cases step
      cases on
  | returned ptr => cases step

/-- The outer call returns from its two last steps only. -/
theorem advance_returns {m m' : Memory} {pc : OuterPc} {ptr : Nat}
    (step : advance alloc_sz m pc = some (.returned ptr, m')) :
    (∃ chunk e, pc = .found chunk e ∧
      m.heap.take (align alloc_sz) chunk = some (ptr, m'.heap)) ∨
    ∃ e h₁, pc = .exhausted e ∧ m.heap.grow e = some h₁ ∧
      h₁._kmalloc stepBound (align alloc_sz) = some (ptr, m'.heap) := by
  cases pc with
  | found chunk e =>
      obtain ⟨⟨ptr, m₁⟩, taken, step⟩ := Option.bind_eq_some_iff.mp step
      cases step
      obtain ⟨h', heap, rfl⟩ := Memory.take_cases taken
      exact .inl ⟨chunk, e, rfl, heap⟩
  | exhausted e =>
      obtain ⟨m₁, grown, step⟩ := Option.bind_eq_some_iff.mp step
      obtain ⟨⟨ptr, m₂⟩, called, step⟩ := Option.bind_eq_some_iff.mp step
      cases step
      exact .inr ⟨e, m₁.heap, rfl, Memory.grow_heap grown, Memory.kmalloc_heap called⟩
  | loop chunk e => cases chunk <;> cases step
  | headTest p | nextNextTest chunk p e =>
      obtain ⟨next, -, step⟩ := Option.bind_eq_some_iff.mp step
      split at step <;> cases step
  | magicTest chunk e | sizeTest chunk e | nextTest chunk e =>
      simp only [advance] at step
      split at step <;> cases step
  | entry | headRead | readEnd chunk | nextLoad chunk e | nextRead chunk e | returned ptr =>
      cases step

/-- A nested call is one on the heap without its pages. -/
theorem call_heap {e : HeapCall} (called : s.call e = some t) :
    s.toHeapRun.step e = some t.toHeapRun ∧ t.outer = s.outer := by
  cases e with
  | kmalloc n =>
      obtain ⟨⟨⟩, range, called⟩ := Option.bind_eq_some_iff.mp called
      obtain ⟨⟨ptr, m⟩, allocated, called⟩ := Option.bind_eq_some_iff.mp called
      cases called
      have heap := Memory.kmalloc_heap allocated
      refine ⟨Option.bind_eq_some_iff.mpr ⟨(), range, ?_⟩, rfl⟩
      exact Option.bind_eq_some_iff.mpr ⟨(ptr, m.heap), heap, rfl⟩
  | kfree ptr =>
      obtain ⟨block, found, called⟩ := Option.bind_eq_some_iff.mp called
      obtain ⟨m, freed, called⟩ := Option.bind_eq_some_iff.mp called
      cases called
      have heap := Memory.kfree_heap freed
      refine ⟨Option.bind_eq_some_iff.mpr ⟨block, found, ?_⟩, rfl⟩
      exact Option.bind_eq_some_iff.mpr ⟨m.heap, heap, rfl⟩
  | store cell word =>
      obtain ⟨⟨⟩, own, called⟩ := Option.bind_eq_some_iff.mp called
      cases called
      exact ⟨Option.bind_eq_some_iff.mpr ⟨(), own, rfl⟩, rfl⟩

/-- The block of an allocation on the tiled heap is apart from the live ones. -/
theorem fresh_of_allocated {cs : List Chunk} {result : Option (Nat × Heap)} {h' : Heap} {ptr : Nat}
    (done : Heap.Allocated cs (align alloc_sz) result) (returned : result = some (ptr, h'))
    (outer : s.outer = .returned ptr) (enough : alloc_sz ≤ align alloc_sz)
    (same : s.live.Perm (lives cs)) : Fresh alloc_sz s := by
  obtain ⟨chunk, size, h₁, cs', allocated, rep, large, used⟩ := done
  cases returned.symm.trans allocated
  intro ptr' outer' b mem
  cases outer.symm.trans outer'
  have distinct := used.nodup_iff.mp (rep.tiles.lives_nodup (by decide))
  have old := same.mem_iff.mp mem
  have apart := rep.tiles.trichotomy (mem_lives.mp (used.mem_iff.mpr List.mem_cons_self))
    (mem_lives.mp (used.mem_iff.mpr (List.mem_cons_of_mem _ old)))
  rcases apart with clash | before | behind
  · simp only [Chunk.mk.injEq, and_true] at clash
    have : b = (chunk, size) := Prod.ext clash.1.symm clash.2.symm
    exact absurd (this ▸ old) (List.nodup_cons.mp distinct).1
  · exact .inl (by simp only [Chunk.stop] at before; omega)
  · exact .inr (by simp only [Chunk.stop] at behind; omega)

/-- The outer call takes a chunk that is free and large enough, or grows a heap
    whose last free chunk ends at the heap end. -/
theorem outer_returns {m' : Memory} {ptr : Nat} (pos : 1 ≤ alloc_sz) (small : alloc_sz ≤ 2 ^ 30)
    (inv : Interrupted s) (ok : Ok alloc_sz s .outer)
    (step : advance alloc_sz s.memory s.outer = some (.returned ptr, m')) :
    ∃ cs result, s.live.Perm (lives cs) ∧ Heap.Allocated cs (align alloc_sz) result ∧
      result = some (ptr, m'.heap) := by
  obtain ⟨-, least, most, stable⟩ := align_bounds pos small
  unfold Interrupted at inv
  unfold Ok at ok
  cases advance_returns step with
  | inl found =>
      obtain ⟨chunk, e, outer, taken⟩ := found
      rw [outer] at inv ok
      obtain ⟨cs, rep, same⟩ := inv rfl
      have rep : s.memory.heap.Rep cs := rep
      obtain ⟨x, mem, free, rfl⟩ := rep.onFreeList.mp ok.1
      have wide : align alloc_sz * 2 ≤ s.memory.heap.size x.addr := ok.2
      rw [rep.size x mem] at wide
      obtain ⟨pre, post, rfl⟩ := List.append_of_mem mem
      exact ⟨_, _, same, Heap.take_allocated rep free least wide, taken⟩
  | inr grows =>
      obtain ⟨e, h₁, outer, grown, called⟩ := grows
      rw [outer] at inv ok
      obtain ⟨cs, rep, same⟩ := inv rfl
      have rep : s.memory.heap.Rep cs := rep
      obtain ⟨current, ok⟩ := ok
      cases ok with
      | inl last =>
          obtain ⟨c, on, stop, room⟩ := last
          obtain ⟨t, mem, free, rfl⟩ := rep.onFreeList.mp on
          rw [rep.size t mem] at stop room
          obtain ⟨pre, post, rfl⟩ := List.append_of_mem mem
          have final := rep.last stop
          subst final
          have page : PAGE_SIZE * (1 + Heap.pages (align alloc_sz * 2 - (t.size + PAGE_SIZE))) =
              PAGE_SIZE * Heap.pages (align alloc_sz * 2 - (t.size + PAGE_SIZE)) + PAGE_SIZE := by
            rw [Nat.add_comm 1, Nat.mul_succ]
          obtain ⟨h₂, grown', higher, rep'⟩ := Heap.grow_last rep free e (by omega)
          obtain rfl : h₁ = h₂ := Option.some_inj.mp (grown.symm.trans grown')
          have enough := Heap.le_pages (align alloc_sz * 2 - (t.size + PAGE_SIZE))
          have done := Heap.kmalloc_last (Heap.pages (align alloc_sz * 2 - (t.size + PAGE_SIZE)))
            rep' free stable stable least (by omega) (by simp only; omega) (by omega)
            (Heap.short_growth room)
          refine ⟨_, _, same, done.after ?_, called⟩
          simp [free]
      | inr empty =>
          obtain ⟨none, room⟩ := empty
          have none : frees cs = [] := List.eq_nil_iff_forall_not_mem.mpr fun a mem =>
            none a ((Heap.onFreeList_iff rep.list).mpr mem)
          have page : PAGE_SIZE * (1 + Heap.pages (align alloc_sz * 2 - (PAGE_SIZE - 16))) =
              PAGE_SIZE * Heap.pages (align alloc_sz * 2 - (PAGE_SIZE - 16)) + PAGE_SIZE := by
            rw [Nat.add_comm 1, Nat.mul_succ]
          obtain ⟨h₂, grown', higher, rep'⟩ := Heap.grow_new rep none (by omega)
          rw [current] at grown
          obtain rfl : h₁ = h₂ := Option.some_inj.mp (grown.symm.trans grown')
          have enough := Heap.le_pages (align alloc_sz * 2 - (PAGE_SIZE - 16))
          have done := Heap.kmalloc_last (Heap.pages (align alloc_sz * 2 - (PAGE_SIZE - 16)))
            rep' rfl stable stable least (by omega) (by simp only; omega) (by omega)
            (Heap.short_growth room)
          refine ⟨_, _, same, done.after ?_, called⟩
          simp

/-- What every event preserves: the heap stays tiled until the outer call
    returns, and the block it returns is fresh. -/
theorem step_kept (range : 17 ≤ alloc_sz ∧ alloc_sz ≤ 2 ^ 30) {e : NestedEvent}
    (inv : Interrupted s) (ok : Ok alloc_sz s e) (h : step alloc_sz s e = some t) :
    Interrupted t ∧ Fresh alloc_sz t := by
  cases e with
  | nested call =>
      obtain ⟨⟨⟩, on, called⟩ := Option.bind_eq_some_iff.mp h
      have on : running s.outer := by
        by_contra off
        rw [guard, if_neg off] at on
        cases on
      obtain ⟨called, outer⟩ := call_heap called
      refine ⟨fun _ => HeapRun.tiled_step (inv on) ok called, fun ptr returned => ?_⟩
      rw [← outer, returned] at on
      cases on
  | outer =>
      obtain ⟨⟨pc, m'⟩, advanced, e⟩ := Option.bind_eq_some_iff.mp h
      cases e
      cases on : running pc with
      | true =>
          obtain rfl := advance_reads advanced on
          have before : running s.outer = true := by
            cases outer : s.outer with
            | returned ptr =>
                rw [outer] at advanced
                cases advanced
            | _ => rfl
          refine ⟨fun _ => inv before, fun ptr returned => ?_⟩
          rw [show pc = .returned ptr from returned] at on
          cases on
      | false =>
          cases pc with
          | returned ptr =>
              obtain ⟨cs, result, same, done, returned⟩ :=
                outer_returns (by omega) range.2 inv ok advanced
              refine ⟨fun going => (by cases going), ?_⟩
              exact fresh_of_allocated done returned rfl (align_bounds (by omega) range.2).1 same
          | _ => cases on

/-- In every run whose events meet their side condition, the block that the outer
    call returns is apart from all live blocks. -/
theorem outer_block_fresh (range : 17 ≤ alloc_sz ∧ alloc_sz ≤ 2 ^ 30)
    (reached : Runs.Reach (step alloc_sz) (Ok alloc_sz) Init s) : Fresh alloc_sz s := by
  have both : Interrupted s ∧ Fresh alloc_sz s := by
    refine Runs.Reach.invariant ?_ (fun _ _ _ inv ok h => step_kept range inv.1 ok h) reached
    intro u start
    refine ⟨fun _ => start.1, fun ptr returned => ?_⟩
    rw [start.2] at returned
    cases returned
  exact both.2

/-- The outer call starts on the heap of `kheap_init`. -/
def boot : NestedRun := ⟨Memory.ready Memory.few, [], .entry⟩

theorem boot_init : Init boot := ⟨⟨[], Heap.kheap_init_rep _, .nil⟩, rfl⟩

/-- A handler makes the heap grow after the outer call has read an empty list. -/
def interrupted : List NestedEvent :=
  [.outer, .nested (.kmalloc 32), .outer, .outer, .outer, .outer]

theorem first_block_fresh : ∃ t, Runs.run (step 32) boot interrupted = some t ∧
    t.outer = .returned (HEAP_START + 64) ∧ t.live = [(HEAP_START, 32)] ∧ Fresh 32 t := by
  have none : ∀ c, ¬ boot.memory.heap.OnFreeList c := fun c on =>
    List.not_mem_nil ((Heap.onFreeList_iff (Heap.kheap_init_rep _).list).mp on)
  let read : NestedRun := { boot with outer := .headTest (.tail ()) }
  have head : boot.memory.heap.links (.head ()) = .tail () := by decide +kernel
  have start : boot.outer = .entry := rfl
  have entry : step 32 boot .outer = some read := by
    simp [step, advance, head, start, read]
  have ends : (step 32 read (.nested (.kmalloc 32))).any fun u =>
      decide (u.outer = .headTest (.tail ()) ∧
        readNext u.memory.heap.links (.tail ()) = some .null ∧
        get_head u.memory.heap.links () = some (.node (HEAP_START + 48)) ∧
        u.memory.heap.size (HEAP_START + 48) = 4032 ∧
        u.memory.heap.k_heap_end = HEAP_START + 4096 ∧
        (step 32 { u with outer := .exhausted (HEAP_START + 4096) } .outer).map (fun t =>
          (t.outer, t.live)) = some (.returned (HEAP_START + 64), [(HEAP_START, 32)])) := by
    decide +kernel
  obtain ⟨u, nested, ends⟩ := (Option.any_eq_true _ _).mp ends
  obtain ⟨outer, null, first, size, heap_end, last⟩ := of_decide_eq_true ends
  obtain ⟨t, last, e⟩ := Option.map_eq_some_iff.mp last
  obtain ⟨returned, live⟩ := Prod.mk.inj e
  have headTest : step 32 u .outer = some { u with outer := .readEnd .null } := by
    simp [step, advance, outer, null]
  have readEnd : step 32 { u with outer := .readEnd .null } .outer =
      some { u with outer := .loop .null (HEAP_START + 4096) } := by
    simp [step, advance, heap_end]
  have loop : step 32 { u with outer := .loop .null (HEAP_START + 4096) } .outer =
      some { u with outer := .exhausted (HEAP_START + 4096) } := rfl
  have grows : Ok 32 read (.nested (.kmalloc 32)) := .inr (.inr ⟨none, by decide +kernel⟩)
  have goes : Ok 32 u .outer := by simp [Ok, outer]
  have still : Ok 32 { u with outer := .exhausted (HEAP_START + 4096) } .outer := by
    refine ⟨heap_end.symm, .inl ⟨HEAP_START + 48, .first first, ?_⟩⟩
    simp only [size, heap_end]
    decide +kernel
  have begins : Ok 32 boot .outer := by simp [Ok, start]
  have reads : Ok 32 { u with outer := .readEnd .null } .outer := trivial
  have leaves : Ok 32 { u with outer := .loop .null (HEAP_START + 4096) } .outer := trivial
  have meets : Runs.Meets (step 32) (Ok 32) boot interrupted := by
    simp [Runs.Meets, interrupted, entry, nested, headTest, readEnd, loop, begins, grows, goes,
      reads, leaves, still]
  have run : Runs.run (step 32) boot interrupted = some t := by
    rw [interrupted, Runs.run_cons entry, Runs.run_cons nested, Runs.run_cons headTest,
      Runs.run_cons readEnd, Runs.run_cons loop, Runs.run_cons last, Runs.run]
  exact ⟨t, run, returned, live,
      outer_block_fresh (by decide) (.of_run (.start boot_init) meets run)⟩

/-- Between the size test and the first `cli` of the outer call a handler takes
    the chunk that passed the test. -/
def race : List NestedEvent :=
  .nested (.kmalloc 32) :: (List.replicate 7 .outer ++ [.nested (.kmalloc 32), .outer])

/-- The outer call returns the block that the handler's call has returned. -/
theorem chunk_taken_twice : ∃ t, Runs.run (step 32) boot race = some t ∧
    (∃ b ∈ t.live, t.outer = .returned (b.1 + 16)) ∧ ¬ Fresh 32 t := by
  have ends : (Runs.run (step 32) boot race).map (fun t => (t.outer, t.live)) =
      some (.returned (HEAP_START + 64), [(HEAP_START + 48, 32), (HEAP_START, 32)]) := by
    decide +kernel
  obtain ⟨t, run, e⟩ := Option.map_eq_some_iff.mp ends
  obtain ⟨outer, live⟩ := Prod.mk.inj e
  have mem : (HEAP_START + 48, 32) ∈ t.live := live ▸ by simp
  refine ⟨t, run, ⟨_, mem, outer⟩, fun fresh => ?_⟩
  have apart := fresh _ outer _ mem
  omega

end NestedRun

end Krypton
