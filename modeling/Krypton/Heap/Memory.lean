import Krypton.Heap.Splits
import Krypton.Mm.Paging

/-! # The heap and its page frames

`_kmalloc` and `_kfree` with what they do to page frames: growth enters a new
frame at `k_heap_end`, trimming takes the frame of the last page back, and the
header of a new chunk is stored where a page is mapped or not at all. The heap
itself is that of `kmalloc.c` without frames, as the projections say.

The headers are no words of the frames: those of a page that is mapped a second
time stay, where the code would find what is in its new frame.
-/

namespace Krypton

open LinkStore

structure Memory where
  heap : Heap
  paging : Paging
  /-- the highest and the lowest `k_heap_end` there has been -/
  highest : Nat
  lowest : Nat

namespace Memory

def withHeap (m : Memory) (heap : Heap) : Memory :=
  { m with heap, highest := max m.highest heap.k_heap_end, lowest := min m.lowest heap.k_heap_end }

/-- One turn of the `while` loop at the end of `merge_heap`. -/
def cutPage (m : Memory) (tail : Nat) : Option Memory := do
  let heap := m.heap.setSize tail (m.heap.size tail - PAGE_SIZE)
  let heap := { heap with k_heap_end := sub32 heap.k_heap_end PAGE_SIZE }
  let free_addr ← m.paging.get_physaddr heap.k_heap_end
  let paging ← m.paging.mm_unmap heap.k_heap_end
  let pages ← paging.pages.pa_free free_addr
  return { m with paging := { paging with pages } }.withHeap heap

def trim (tail : Nat) : (fuel : Nat) → Memory → Option Memory
  | 0, _ => none
  | fuel + 1, m =>
      if m.heap.size tail > PAGE_SIZE then (m.cutPage tail).bind (trim tail fuel) else some m

def trimTail (m : Memory) : Option Memory := do
  match ← get_tail m.heap.links () with
  | .null => return m
  | .node tail => trim tail stepBound m
  | _ => none

def merge_heap : (fuel : Nat) → Ptr Nat Unit → Memory → Option Memory
  | _, .null, m => some m
  | fuel + 1, .node aux, m => do
      let h := m.heap
      if h.magic aux ≠ CHUNK_MAGIC then none
      let aux_next ← get_next h.links (.node aux)
      if (← addrOf aux_next) = add32 (add32 aux (h.size aux)) sizeofChunk then
        let .node next := aux_next | none
        let h := h.setSize aux (add32 (h.size aux) (add32 (h.size next) sizeofChunk))
        let h := { h with links := ← remove h.links (.node next) }
        trimTail (← merge_heap fuel (.node aux) { m with heap := h })
      else
        trimTail (← merge_heap fuel (← get_next h.links (.node aux)) m)
  | _, _, _ => none

def _kfree (m : Memory) (ptr : Nat) : Option Memory := do
  let chunk := sub32 ptr sizeofChunk
  if m.heap.magic chunk ≠ CHUNK_MAGIC then none
  let heap ← m.heap.insert_chunk chunk
  merge_heap stepBound (← get_head heap.links ()) { m with heap }

/-- `_kmalloc` from the `cli` after the search failed to the recursive call. -/
def grow (m : Memory) (heap_end_addr : Nat) : Option Memory := do
  let (frame, pages) ← m.paging.pages.pa_alloc
  let (_, paging) ← { m.paging with pages }.mm_map frame heap_end_addr (PAGE_WRITE ||| PAGE_USER)
  -- without a free chunk, one is made of the new page
  guard (get_tail m.heap.links () = some .null → (paging.walk heap_end_addr).isSome)
  return { m with paging }.withHeap (← m.heap.grow heap_end_addr)

/-- `_kmalloc` from the `cli` after a chunk was found to the return. -/
def take (m : Memory) (alloc_sz chunk : Nat) : Option (Nat × Memory) := do
  let new_chunk := add32 (add32 chunk sizeofChunk) alloc_sz
  guard (alloc_sz < sub32 (m.heap.size chunk) sizeofChunk → (m.paging.walk new_chunk).isSome)
  let (ptr, heap) ← m.heap.take alloc_sz chunk
  return (ptr, { m with heap })

def _kmalloc : (fuel : Nat) → (m : Memory) → (alloc_sz : Nat) → Option (Nat × Memory)
  | 0, _, _ => none
  | fuel + 1, m, alloc_sz => do
      let chunk ← get_head m.heap.links ()
      let heap_end_addr := m.heap.k_heap_end
      let alloc_sz := align alloc_sz
      match ← m.heap.fit alloc_sz stepBound chunk with
      | some chunk => m.take alloc_sz chunk
      | none => _kmalloc fuel (← m.grow heap_end_addr) alloc_sz

/-! ## Without the page frames -/

section Projections

variable {m m' : Memory} {fuel tail : Nat}

theorem cutPage_heap (run : m.cutPage tail = some m') :
    m'.heap = { m.heap.setSize tail (m.heap.size tail - PAGE_SIZE) with
      k_heap_end := sub32 m.heap.k_heap_end PAGE_SIZE } := by
  unfold cutPage at run
  obtain ⟨_, -, run⟩ := Option.bind_eq_some_iff.mp run
  obtain ⟨_, -, run⟩ := Option.bind_eq_some_iff.mp run
  obtain ⟨_, -, run⟩ := Option.bind_eq_some_iff.mp run
  cases run
  rfl

theorem trim_heap (run : trim tail fuel m = some m') :
    Heap.trim tail fuel m.heap = some m'.heap := by
  induction fuel generalizing m with
  | zero => cases run
  | succ fuel ih =>
      unfold trim at run
      split at run
      · rename_i large
        obtain ⟨m₁, cut, rest⟩ := Option.bind_eq_some_iff.mp run
        have onward := ih rest
        rw [cutPage_heap cut] at onward
        rw [Heap.trim, if_pos large]
        exact onward
      · rename_i small
        cases run
        rw [Heap.trim, if_neg small]

theorem trimTail_heap (run : trimTail m = some m') : Heap.trimTail m.heap = some m'.heap := by
  unfold trimTail at run
  obtain ⟨last, tail, run⟩ := Option.bind_eq_some_iff.mp run
  unfold Heap.trimTail
  rw [tail]
  cases last with
  | null =>
      cases run
      rfl
  | node t => exact trim_heap run
  | _ => cases run

theorem merge_heap_heap {q : Ptr Nat Unit} (run : merge_heap fuel q m = some m') :
    Heap.merge_heap fuel q m.heap = some m'.heap := by
  induction fuel generalizing m m' q with
  | zero =>
      cases q with
      | null =>
          cases run
          rfl
      | _ => cases run
  | succ fuel ih =>
      cases q with
      | null =>
          cases run
          rfl
      | node aux =>
          simp only [merge_heap] at run
          split at run
          · cases run
          · rename_i magic
            obtain ⟨next, get, run⟩ := Option.bind_eq_some_iff.mp run
            obtain ⟨addr, at_, run⟩ := Option.bind_eq_some_iff.mp run
            simp only [Heap.merge_heap, if_neg magic, get, at_, Option.bind_eq_bind,
              Option.bind_some]
            split at run
            · rename_i adjacent
              rw [if_pos adjacent]
              cases next with
              | node z =>
                  obtain ⟨t, removed, run⟩ := Option.bind_eq_some_iff.mp run
                  obtain ⟨m₁, merged, trimmed⟩ := Option.bind_eq_some_iff.mp run
                  have inner := ih merged
                  dsimp only at inner ⊢
                  rw [removed, Option.bind_some, inner]
                  exact trimTail_heap trimmed
              | _ => cases run
            · rename_i apart
              rw [if_neg apart]
              obtain ⟨q, get', run⟩ := Option.bind_eq_some_iff.mp run
              obtain ⟨m₁, merged, trimmed⟩ := Option.bind_eq_some_iff.mp run
              rw [get] at get'
              cases get'
              rw [ih merged]
              exact trimTail_heap trimmed
      | _ => cases run

theorem kfree_heap {ptr : Nat} (run : m._kfree ptr = some m') :
    m.heap._kfree ptr = some m'.heap := by
  unfold _kfree at run
  simp only at run
  split at run
  · cases run
  · rename_i magic
    obtain ⟨heap, inserted, run⟩ := Option.bind_eq_some_iff.mp run
    obtain ⟨first, head, run⟩ := Option.bind_eq_some_iff.mp run
    have merged := merge_heap_heap run
    simp only [Heap._kfree, if_neg magic, inserted, head, Option.bind_eq_bind, Option.bind_some]
    exact merged

theorem grow_cases {heap_end_addr : Nat} (run : m.grow heap_end_addr = some m') :
    ∃ frame pages r paging heap, m.paging.pages.pa_alloc = some (frame, pages) ∧
      { m.paging with pages }.mm_map frame heap_end_addr (PAGE_WRITE ||| PAGE_USER) =
        some (r, paging) ∧
      m.heap.grow heap_end_addr = some heap ∧ m' = { m with paging }.withHeap heap := by
  unfold grow at run
  obtain ⟨⟨frame, pages⟩, alloc, run⟩ := Option.bind_eq_some_iff.mp run
  obtain ⟨⟨r, paging⟩, mapped, run⟩ := Option.bind_eq_some_iff.mp run
  obtain ⟨_, -, run⟩ := Option.bind_eq_some_iff.mp run
  obtain ⟨heap, grown, run⟩ := Option.bind_eq_some_iff.mp run
  cases run
  exact ⟨frame, pages, r, paging, heap, alloc, mapped, grown, rfl⟩

theorem grow_heap {heap_end_addr : Nat} (run : m.grow heap_end_addr = some m') :
    m.heap.grow heap_end_addr = some m'.heap := by
  obtain ⟨_, _, _, _, _, -, -, grown, rfl⟩ := grow_cases run
  exact grown

/-- Growth where the new page is mapped in the end. -/
theorem grow_mapped {e frame r : Nat} {pages : PageMap} {paging : Paging} {heap : Heap}
    (alloc : m.paging.pages.pa_alloc = some (frame, pages))
    (mapped : { m.paging with pages }.mm_map frame e (PAGE_WRITE ||| PAGE_USER) = some (r, paging))
    (there : (paging.walk e).isSome) (grown : m.heap.grow e = some heap) :
    m.grow e = some ({ m with paging }.withHeap heap) := by
  have stores : guard (get_tail m.heap.links () = some .null → (paging.walk e).isSome) = some () :=
    if_pos fun _ => there
  simp only [grow, alloc, mapped, stores, grown, Option.bind_eq_bind, Option.bind_some]
  rfl

/-- Where the header of the rest has a page, a chunk is taken as on the heap alone. -/
theorem take_mapped {a chunk ptr : Nat} {heap : Heap}
    (taken : m.heap.take a chunk = some (ptr, heap))
    (there : a < sub32 (m.heap.size chunk) sizeofChunk →
      (m.paging.walk (add32 (add32 chunk sizeofChunk) a)).isSome) :
    m.take a chunk = some (ptr, { m with heap }) := by
  have stores : guard (a < sub32 (m.heap.size chunk) sizeofChunk →
      (m.paging.walk (add32 (add32 chunk sizeofChunk) a)).isSome) = some () := if_pos there
  simp only [take, stores, taken, Option.bind_eq_bind, Option.bind_some]
  rfl

theorem take_cases {a chunk ptr : Nat} (run : m.take a chunk = some (ptr, m')) :
    ∃ heap, m.heap.take a chunk = some (ptr, heap) ∧ m' = { m with heap } := by
  unfold take at run
  obtain ⟨_, -, run⟩ := Option.bind_eq_some_iff.mp run
  obtain ⟨⟨p, heap⟩, taken, run⟩ := Option.bind_eq_some_iff.mp run
  cases run
  exact ⟨heap, taken, rfl⟩

theorem kmalloc_heap {n ptr : Nat} (run : m._kmalloc fuel n = some (ptr, m')) :
    m.heap._kmalloc fuel n = some (ptr, m'.heap) := by
  induction fuel generalizing m n with
  | zero => cases run
  | succ fuel ih =>
      rw [_kmalloc] at run
      obtain ⟨first, head, run⟩ := Option.bind_eq_some_iff.mp run
      obtain ⟨found, search, run⟩ := Option.bind_eq_some_iff.mp run
      simp only [Heap._kmalloc, head, search, Option.bind_eq_bind, Option.bind_some]
      cases found with
      | some chunk =>
          obtain ⟨heap, taken, rfl⟩ := take_cases run
          exact taken
      | none =>
          obtain ⟨m₁, grown, again⟩ := Option.bind_eq_some_iff.mp run
          rw [grow_heap grown]
          exact ih again

end Projections

end Memory

end Krypton
