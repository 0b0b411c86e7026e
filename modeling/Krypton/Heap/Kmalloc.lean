import Krypton.List

/-! # The kernel heap of `kmalloc.c`

A chunk is known by the address of its header: two link words, a size and a
magic number. Chunk addresses are multiples of 16, so two headers are the same
or apart, and the memory of all headers is one store of link words and two
arrays. Addresses and sizes are `uint32_t`. `none` stands for `panic`, for a
NULL dereference and for a loop that does not end.

The physical pages behind the heap (`mm_map`, `pa_alloc`, `mm_unmap`,
`pa_free`) are taken never to run out and play no part here, and every store to
a header is taken to find its page mapped. `Memory` has the pages.
-/

namespace Krypton

open LinkStore

def CHUNK_MAGIC : Nat := 0xABADBABE
def HEAP_START : Nat := 0xC0400000
def PAGE_SIZE : Nat := 4096

/-- `sizeof(chunk_t)` -/
def sizeofChunk : Nat := 16

/-- The chunk headers, the list `k_heap_start` and `k_heap_end`. -/
structure Heap where
  links : Store Nat Unit
  size : Nat → Nat
  magic : Nat → Nat
  k_heap_end : Nat

/-- `uint32_t` sum. -/
@[irreducible] def add32 (a b : Nat) : Nat := (a + b) % 2 ^ 32

/-- `uint32_t` difference. -/
@[irreducible] def sub32 (a b : Nat) : Nat := (a + 2 ^ 32 - b) % 2 ^ 32

/-- More steps than a loop over chunks or pages of a 32-bit heap can take. -/
@[irreducible] def stepBound : Nat := 2 ^ 32

/-- `(uint32_t) p`; the list functions never return a sentinel of a proper list. -/
def addrOf : Ptr Nat Unit → Option Nat
  | .null => some 0
  | .node a => some a
  | _ => none

/-- Allocation sizes are rounded up to a multiple of 16. -/
def align (alloc_sz : Nat) : Nat :=
  if alloc_sz &&& 0xF ≠ 0 then add32 alloc_sz 0x10 &&& 0xFFFFFFF0 else alloc_sz

namespace Heap

def setSize (h : Heap) (chunk size : Nat) : Heap :=
  { h with size := Function.update h.size chunk size }

def setMagic (h : Heap) (chunk magic : Nat) : Heap :=
  { h with magic := Function.update h.magic chunk magic }

@[simp] theorem setSize_links (h : Heap) (chunk size : Nat) :
    (h.setSize chunk size).links = h.links := rfl

def kheap_init (h : Heap) : Heap :=
  { h with links := new_list h.links (), k_heap_end := HEAP_START }

/-- The loop of `insert_chunk`: the first chunk that is not below `chunk`. -/
def insertSearch (s : Store Nat Unit) (chunk : Nat) :
    (fuel : Nat) → Ptr Nat Unit → Option (Ptr Nat Unit)
  | _, .null => some .null
  | fuel + 1, .node aux =>
      if aux < chunk then do insertSearch s chunk fuel (← get_next s (.node aux))
      else some (.node aux)
  | _, _ => none

def insert_chunk (h : Heap) (chunk : Nat) : Option Heap := do
  match ← insertSearch h.links chunk stepBound (← get_head h.links ()) with
  | .null => return { h with links := ← add_tail h.links () chunk }
  | aux =>
      let s := set h.links (.next chunk) aux
      let s := set s (.prev chunk) (← readPrev s aux)
      let s ← writePrev s aux (.node chunk)
      return { h with links := ← writeNext s (s (.prev chunk)) (.node chunk) }

/-- The `while` loop at the end of `merge_heap`, for a tail that is not NULL. -/
def trim (tail : Nat) : (fuel : Nat) → Heap → Option Heap
  | 0, _ => none
  | fuel + 1, h =>
      if h.size tail > PAGE_SIZE then
        let h := h.setSize tail (h.size tail - PAGE_SIZE)
        trim tail fuel { h with k_heap_end := sub32 h.k_heap_end PAGE_SIZE }
      else some h

def trimTail (h : Heap) : Option Heap := do
  match ← get_tail h.links () with
  | .null => return h
  | .node tail => trim tail stepBound h
  | _ => none

def merge_heap : (fuel : Nat) → Ptr Nat Unit → Heap → Option Heap
  | _, .null, h => some h
  | fuel + 1, .node aux, h => do
      if h.magic aux ≠ CHUNK_MAGIC then none
      let aux_next ← get_next h.links (.node aux)
      if (← addrOf aux_next) = add32 (add32 aux (h.size aux)) sizeofChunk then
        let .node next := aux_next | none
        let h := h.setSize aux (add32 (h.size aux) (add32 (h.size next) sizeofChunk))
        let h := { h with links := ← remove h.links (.node next) }
        trimTail (← merge_heap fuel (.node aux) h)
      else
        trimTail (← merge_heap fuel (← get_next h.links (.node aux)) h)
  | _, _, _ => none

def _kfree (h : Heap) (ptr : Nat) : Option Heap := do
  let chunk := sub32 ptr sizeofChunk
  if h.magic chunk ≠ CHUNK_MAGIC then none
  let h ← h.insert_chunk chunk
  merge_heap stepBound (← get_head h.links ()) h

/-- The `while(chunk)` loop of `_kmalloc` up to the chunk that fits widely. -/
def fit (h : Heap) (alloc_sz : Nat) : (fuel : Nat) → Ptr Nat Unit → Option (Option Nat)
  | _, .null => some none
  | fuel + 1, .node chunk => do
      if h.magic chunk ≠ CHUNK_MAGIC then none
      if h.size chunk < alloc_sz * 2 % 2 ^ 32 then
        fit h alloc_sz fuel (← get_next h.links (.node chunk))
      else return some chunk
  | _, _ => none

/-- The rest of a chunk becomes a new chunk. -/
def split (h : Heap) (chunk alloc_sz : Nat) : Option Heap := do
  let new_chunk := add32 (add32 chunk sizeofChunk) alloc_sz
  let h := h.setSize new_chunk (sub32 (sub32 (h.size chunk) alloc_sz) sizeofChunk)
  let h := h.setMagic new_chunk CHUNK_MAGIC
  let h ← h.insert_chunk new_chunk
  return h.setSize chunk alloc_sz

/-- The test and the resize that both branches of `_kmalloc` end with. -/
def resize (h : Heap) (chunk alloc_sz : Nat) : Option Heap :=
  if alloc_sz ≥ sub32 (h.size chunk) sizeofChunk then some h else h.split chunk alloc_sz

/-- `_kmalloc` from the `cli` after a chunk was found to the return. -/
def take (h : Heap) (alloc_sz chunk : Nat) : Option (Nat × Heap) := do
  let next ← get_next h.links (.node chunk)
  let h ← match next with
    | .null => h.resize chunk alloc_sz
    | .node next_chunk =>
        if h.magic next_chunk ≠ CHUNK_MAGIC then none else h.resize chunk alloc_sz
    | _ => none
  return (add32 chunk sizeofChunk, { h with links := ← remove h.links (.node chunk) })

/-- `_kmalloc` from the `cli` after the search failed to the recursive call. -/
def grow (h : Heap) (heap_end_addr : Nat) : Option Heap := do
  let h := { h with k_heap_end := add32 h.k_heap_end PAGE_SIZE }
  match ← get_tail h.links () with
  | .null =>
      let h := h.setSize heap_end_addr (sub32 (sub32 h.k_heap_end heap_end_addr) sizeofChunk)
      let h := h.setMagic heap_end_addr CHUNK_MAGIC
      return { h with links := ← add_tail h.links () heap_end_addr }
  | .node new_chunk => return h.setSize new_chunk (add32 (h.size new_chunk) PAGE_SIZE)
  | _ => none

def _kmalloc : (fuel : Nat) → (h : Heap) → (alloc_sz : Nat) → Option (Nat × Heap)
  | 0, _, _ => none
  | fuel + 1, h, alloc_sz => do
      let chunk ← get_head h.links ()
      let heap_end_addr := h.k_heap_end
      let alloc_sz := align alloc_sz
      match ← h.fit alloc_sz stepBound chunk with
      | some chunk => h.take alloc_sz chunk
      | none => _kmalloc fuel (← h.grow heap_end_addr) alloc_sz

end Heap

end Krypton
