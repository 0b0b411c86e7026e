import Krypton.Foundations.Runs
import Krypton.Heap.Allocation
import Krypton.Heap.Release

/-! # Heap safety over whole runs

A run starts from `kheap_init` and executes calls of `_kmalloc`, of `_kfree` on
live blocks, and stores of its users into their own blocks. Growth and trimming
take the last free chunk to end at `k_heap_end`; `HeapRun.Ok` says where that is
so. Along runs of such calls the heap stays tiled by the live blocks and the
chunks of the free list.
-/

namespace Krypton

open LinkStore Tiling

/-- The chunks that a walk from `get_head` with `get_next` passes. -/
inductive Heap.OnFreeList (h : Heap) : Nat → Prop
  | first : get_head h.links () = some (.node c) → OnFreeList h c
  | next : OnFreeList h c → get_next h.links (.node c) = some (.node d) → OnFreeList h d

/-- A word of the 16 bytes at an address, as a chunk header would name it. -/
inductive HeaderWord where
  | next (p : Ptr Nat Unit)
  | prev (p : Ptr Nat Unit)
  | size (n : Nat)
  | magic (n : Nat)

/-- A store into one word of the 16 bytes at `cell`. -/
def Heap.store (h : Heap) (cell : Nat) : HeaderWord → Heap
  | .next p => { h with links := set h.links (.next cell) p }
  | .prev p => { h with links := set h.links (.prev cell) p }
  | .size n => h.setSize cell n
  | .magic n => h.setMagic cell n

/-- The heap and the blocks in use, each as its chunk and the size of its data. -/
structure HeapRun where
  heap : Heap
  live : List (Nat × Nat)

inductive HeapCall where
  | kmalloc (alloc_sz : Nat)
  | kfree (ptr : Nat)
  | store (cell : Nat) (word : HeaderWord)

namespace HeapRun

def Init (s : HeapRun) : Prop := ∃ h : Heap, s = ⟨h.kheap_init, []⟩

def step (s : HeapRun) : HeapCall → Option HeapRun
  | .kmalloc alloc_sz => do
      guard (1 ≤ alloc_sz ∧ alloc_sz ≤ 2 ^ 30)
      let (ptr, heap) ← s.heap._kmalloc stepBound alloc_sz
      let chunk := sub32 ptr sizeofChunk
      return ⟨heap, (chunk, heap.size chunk) :: s.live⟩
  | .kfree ptr => do
      let block ← s.live.find? fun b => b.1 + 16 = ptr
      return ⟨← s.heap._kfree ptr, s.live.erase block⟩
  | .store cell word => do
      guard (∃ b ∈ s.live, b.1 + 16 ≤ cell ∧ cell + 16 ≤ b.1 + 16 + b.2)
      return { s with heap := s.heap.store cell word }

/-- The live blocks, headers included, are apart, apart from the free chunks and
    inside the heap. -/
structure Safe (s : HeapRun) : Prop where
  apart : s.live.Pairwise fun b d => b.1 + 16 + b.2 ≤ d.1 ∨ d.1 + 16 + d.2 ≤ b.1
  free : ∀ b ∈ s.live, ∀ c, s.heap.OnFreeList c →
    b.1 + 16 + b.2 ≤ c ∨ c + 16 + s.heap.size c ≤ b.1
  inside : ∀ b ∈ s.live, HEAP_START ≤ b.1 ∧ b.1 + 16 + b.2 ≤ s.heap.k_heap_end

end HeapRun

namespace Heap

/-- A chunk fits, or growth extends a free chunk at the heap end or starts with
    an empty free list, and does not pass the end of the address space. -/
def KmallocOk (h : Heap) (alloc_sz : Nat) : Prop :=
  (∃ c, h.OnFreeList c ∧ align alloc_sz * 2 ≤ h.size c) ∨
  (∃ c, h.OnFreeList c ∧ c + 16 + h.size c = h.k_heap_end ∧
    h.k_heap_end + PAGE_SIZE * pages (align alloc_sz * 2 - h.size c) < 2 ^ 32) ∨
  (∀ c, ¬ h.OnFreeList c) ∧
    h.k_heap_end + PAGE_SIZE * (1 + pages (align alloc_sz * 2 - (PAGE_SIZE - 16))) < 2 ^ 32

/-- With `chunk` among the free chunks, one of them ends at the heap end, or the
    run of adjacent ones that ends behind all of them is no larger than a page. -/
def KfreeOk (h : Heap) (chunk : Nat) : Prop :=
  let free := fun d => h.OnFreeList d ∨ d = chunk
  let stopOf := fun d => d + 16 + h.size d
  (∃ d, free d ∧ stopOf d = h.k_heap_end) ∨
    ∀ c e, Extent free stopOf c e → (∀ d, free d → d < e) → e ≤ c + 16 + PAGE_SIZE

end Heap

/-- What the state before a call must be like. -/
def HeapRun.Ok (s : HeapRun) : HeapCall → Prop
  | .kmalloc alloc_sz => s.heap.KmallocOk alloc_sz
  | .kfree ptr => s.heap.KfreeOk (sub32 ptr sizeofChunk)
  | .store _ _ => True

namespace Heap

section FreeList

variable {h : Heap} {xs : List Nat} {a : Nat}

theorem onFreeList_iff (list : IsList h.links () xs) : h.OnFreeList a ↔ a ∈ xs := by
  constructor
  · intro on
    induction on with
    | first head =>
        rw [get_head_eq list, Option.some_inj] at head
        cases xs with
        | nil => cases head
        | cons x xs =>
            cases head
            exact List.mem_cons_self
    | next _ next ih =>
        obtain ⟨ys, zs, rfl⟩ := List.append_of_mem ih
        rw [get_next_eq list, Option.some_inj] at next
        cases zs with
        | nil => cases next
        | cons z zs =>
            cases next
            simp
  · intro mem
    obtain ⟨ys, zs, rfl⟩ := List.append_of_mem mem
    clear mem
    induction ys using List.reverseRecOn generalizing a zs with
    | nil => exact .first (by simp [get_head_eq list])
    | append_singleton ys y ih =>
        rw [List.append_assoc, List.singleton_append] at list
        refine .next (ih _ list) ?_
        simp [get_next_eq list]

theorem Rep.onFreeList {cs : List Chunk} (rep : h.Rep cs) :
    h.OnFreeList a ↔ ∃ c ∈ cs, c.free ∧ c.addr = a :=
  (onFreeList_iff rep.list).trans mem_frees

end FreeList

/-! ## One call -/

section Calls

variable {h : Heap} {cs pre post : List Chunk}

theorem stepBound_eq : stepBound = 2 ^ 32 := by
  unfold stepBound
  rfl

theorem kmalloc_spec (rep : h.Rep cs) {n : Nat} (pos : 1 ≤ n) (small : n ≤ 2 ^ 30)
    (ok : h.KmallocOk n) : Allocated cs (align n) (_kmalloc stepBound h n) := by
  obtain ⟨-, least, most, stable⟩ := align_bounds pos small
  rw [stepBound_eq]
  cases ok with
  | inl fits =>
      obtain ⟨c, on, wide⟩ := fits
      obtain ⟨x, mem, free, rfl⟩ := rep.onFreeList.mp on
      rw [rep.size x mem] at wide
      exact kmalloc_fits rep rfl least (by omega) ⟨x, mem, free, wide⟩ (2 ^ 32 - 1)
  | inr grows =>
      cases grows with
      | inl last =>
          obtain ⟨c, on, stop, room⟩ := last
          obtain ⟨t, mem, free, rfl⟩ := rep.onFreeList.mp on
          rw [rep.size t mem] at stop room
          obtain ⟨pre, post, rfl⟩ := List.append_of_mem mem
          have final := rep.last stop
          subst final
          have enough := le_pages (align n * 2 - t.size)
          refine kmalloc_last (pages (align n * 2 - t.size)) rep free rfl stable least ?_ ?_ room ?_
          · omega
          · omega
          · unfold PAGE_SIZE at room
            omega
      | inr empty =>
          obtain ⟨none, room⟩ := empty
          have none : frees cs = [] := List.eq_nil_iff_forall_not_mem.mpr fun a mem =>
            none a ((onFreeList_iff rep.list).mpr mem)
          refine kmalloc_empty rep none rfl stable least (by omega) room ?_
          unfold PAGE_SIZE at room ⊢
          omega

/-- The free chunks once `chunk` is one of them. -/
theorem freed_members {chunk size : Nat} (rep : h.Rep (pre ++ ⟨chunk, size, false⟩ :: post))
    (a : Nat) : h.OnFreeList a ∨ a = chunk ↔
      ∃ d ∈ pre ++ ⟨chunk, size, true⟩ :: post, d.free ∧ d.addr = a := by
  rw [rep.onFreeList]
  constructor
  · intro member
    cases member with
    | inl old =>
        obtain ⟨d, mem, free, e⟩ := old
        have other : d ≠ ⟨chunk, size, false⟩ := by
          rintro rfl
          cases free
        exact ⟨d, by simp [other] at mem ⊢; tauto, free, e⟩
    | inr new => exact ⟨⟨chunk, size, true⟩, by simp, rfl, new.symm⟩
  · intro ⟨d, mem, free, e⟩
    by_cases new : d = ⟨chunk, size, true⟩
    · exact .inr (by rw [← e, new])
    · exact .inl ⟨d, by simp [new] at mem ⊢; tauto, free, e⟩

/-- A chunk in use and a free one in its place tile the heap alike. -/
theorem freed_tiles {chunk size : Nat} (rep : h.Rep (pre ++ ⟨chunk, size, false⟩ :: post)) :
    Tiles 16 HEAP_START (pre ++ ⟨chunk, size, true⟩ :: post) h.k_heap_end := by
  obtain ⟨mid, before, after⟩ := tiles_append.mp rep.tiles
  exact tiles_append.mpr ⟨mid, before, after⟩

theorem freed_stop {chunk size : Nat} (rep : h.Rep (pre ++ ⟨chunk, size, false⟩ :: post))
    {d : Chunk} (mem : d ∈ pre ++ ⟨chunk, size, true⟩ :: post) :
    d.addr + 16 + h.size d.addr = d.stop 16 := by
  unfold Chunk.stop
  by_cases new : d = ⟨chunk, size, true⟩
  · subst new
    rw [rep.size ⟨chunk, size, false⟩ (by simp)]
  · rw [rep.size d (by simp [new] at mem ⊢; tauto)]

/-- The side condition of a `_kfree`, told from the tiling. -/
theorem releasable_of_ok {chunk size : Nat} (rep : h.Rep (pre ++ ⟨chunk, size, false⟩ :: post))
    (ok : h.KfreeOk chunk) : Releasable h.k_heap_end (pre ++ ⟨chunk, size, true⟩ :: post) := by
  intro ms z zs cut free live pre' t post' cut' tf last
  have members := freed_members rep
  have tiles := freed_tiles rep
  have stops := fun d => freed_stop rep (d := d)
  rw [cut] at members tiles stops
  -- the coalesced chunks, of which `t` is the last free one
  obtain ⟨mid, before, behind⟩ := tiles_append.mp tiles
  have whole : Tiles 16 HEAP_START (pre' ++ t :: post') h.k_heap_end :=
    cut' ▸ tiles_append.mpr ⟨mid, before, coalesceFrom_tiles behind⟩
  have notFront : ∀ {d : Chunk}, d.free → d ∈ ms → False := by
    intro d df mem
    rw [live d mem] at df
    cases df
  have final : ∀ d ∈ ms ++ z :: zs, d.free → d.stop 16 ≤ t.stop 16 := by
    intro d mem df
    have mem := (List.mem_append.mp mem).resolve_left (notFront df)
    obtain ⟨u, uz, uf, -, above⟩ := coalesceFrom_covers behind mem df
    exact Nat.le_trans above
      (whole.last_free_stop last (cut' ▸ List.mem_append_right ms uz) uf)
  cases ok with
  | inl touches =>
      obtain ⟨a, member, stop⟩ := touches
      obtain ⟨d, mem, df, rfl⟩ := (members a).mp member
      have reach := final d mem df
      have inside := (whole.bounds (show t ∈ pre' ++ t :: post' by simp)).2
      have stop : d.stop 16 = h.k_heap_end := (stops d mem).symm.trans stop
      exact .inr (by omega)
  | inr short =>
      have inZ : t ∈ coalesceFrom 16 z zs :=
        (List.mem_append.mp (cut' ▸ by simp : t ∈ ms ++ coalesceFrom 16 z zs)).resolve_left
          (notFront tf)
      have start : z.free → Extent (fun d => h.OnFreeList d ∨ d = chunk)
          (fun d => d + 16 + h.size d) z.addr (z.stop 16) := fun _ =>
        stops z (by simp) ▸ .one ((members _).mpr ⟨z, by simp, free, rfl⟩)
      have extent := coalesceFrom_extent behind start
        (fun d mem df => ⟨(members _).mpr ⟨d, by simp [mem], df, rfl⟩, stops d (by simp [mem])⟩)
        t inZ tf
      have bound := short _ _ extent fun a member => by
        obtain ⟨d, mem, df, rfl⟩ := (members a).mp member
        have := final d mem df
        unfold Chunk.stop at this ⊢
        omega
      unfold Chunk.stop at bound
      exact .inl (by omega)

theorem kheap_init_rep (h : Heap) : h.kheap_init.Rep [] where
  tiles := rfl
  list := by
    have none : Lists h.links (fun _ : Unit => False) fun _ => ([] : List Nat) :=
      ⟨fun _ no => no.elim, fun _ _ => rfl, fun _ _ _ => List.disjoint_nil_left _⟩
    exact (new_list_spec none id).each () (.inr rfl)
  size := by simp
  magic := by simp
  bounded := show HEAP_START < 2 ^ 32 by decide

/-- A store inside a chunk in use touches no header. -/
theorem store_spec {b : Nat × Nat} {cell : Nat} {word : HeaderWord} (rep : h.Rep cs)
    (mem : b ∈ lives cs) (low : b.1 + 16 ≤ cell) (high : cell + 16 ≤ b.1 + 16 + b.2) :
    (h.store cell word).Rep cs := by
  obtain ⟨pre, post, rfl⟩ := List.append_of_mem (mem_lives.mp mem)
  have away : ∀ c ∈ pre ++ ⟨b.1, b.2, false⟩ :: post, c.addr ≠ cell := by
    intro c hc
    by_cases same : c = ⟨b.1, b.2, false⟩
    · rw [same]
      simp only
      omega
    · have apart := rep.others (c := c) (by simp [same] at hc ⊢; tauto)
      simp only at apart
      omega
  have free : ∀ a ∈ frees (pre ++ ⟨b.1, b.2, false⟩ :: post), a ≠ cell := by
    intro a ha
    obtain ⟨c, hc, -, rfl⟩ := mem_frees.mp ha
    exact away c hc
  have links : ∀ {w : Word Nat Unit} (p : Ptr Nat Unit), w = .next cell ∨ w = .prev cell →
      IsList (set h.links w p) () (frees (pre ++ ⟨b.1, b.2, false⟩ :: post)) := by
    intro w p hw
    refine rep.list.frame fun v own => set_other _ _ ?_
    rintro rfl
    cases hw with
    | inl e => subst e; exact free cell own rfl
    | inr e => subst e; exact free cell own rfl
  cases word with
  | next p => exact ⟨rep.tiles, links p (.inl rfl), rep.size, rep.magic, rep.bounded⟩
  | prev p => exact ⟨rep.tiles, links p (.inr rfl), rep.size, rep.magic, rep.bounded⟩
  | size n =>
      refine ⟨rep.tiles, rep.list, fun c hc => ?_, rep.magic, rep.bounded⟩
      exact (Function.update_of_ne (away c hc) ..).trans (rep.size c hc)
  | magic n =>
      refine ⟨rep.tiles, rep.list, rep.size, fun c hc => ?_, rep.bounded⟩
      exact (Function.update_of_ne (away c hc) ..).trans (rep.magic c hc)

end Calls

end Heap

/-! ## Runs -/

namespace HeapRun

variable {s t : HeapRun}

/-- The heap is tiled by the live blocks and the free chunks. -/
def Tiled (s : HeapRun) : Prop := ∃ cs, s.heap.Rep cs ∧ s.live.Perm (lives cs)

theorem Tiled.safe (tiled : s.Tiled) : s.Safe := by
  obtain ⟨cs, rep, same⟩ := tiled
  have inside : ∀ b ∈ s.live, (⟨b.1, b.2, false⟩ : Chunk) ∈ cs := fun b mem =>
    mem_lives.mp (same.mem_iff.mp mem)
  refine ⟨?_, ?_, fun b mem => rep.stop_le (inside b mem)⟩
  · have apart : (lives cs).Pairwise fun b d => b.1 + 16 + b.2 ≤ d.1 ∨ d.1 + 16 + d.2 ≤ b.1 := by
      unfold lives
      rw [List.pairwise_map]
      exact (rep.tiles.apart.filter _).imp fun before => .inl before
    exact same.symm.pairwise apart fun order => Or.symm order
  · intro b mem a on
    obtain ⟨c, hc, free, rfl⟩ := rep.onFreeList.mp on
    rw [rep.size c hc]
    rcases rep.tiles.trichotomy (inside b mem) hc with same | before | behind
    · rw [← same] at free
      cases free
    · exact .inl before
    · exact .inr behind

theorem tiled_kmalloc {n : Nat} (tiled : s.Tiled) (ok : s.Ok (.kmalloc n))
    (h : s.step (.kmalloc n) = some t) : t.Tiled := by
  obtain ⟨cs, rep, same⟩ := tiled
  simp only [step, Option.bind_eq_bind, Option.bind_eq_some_iff, guard] at h
  obtain ⟨_, range, ⟨ptr, heap⟩, call, e⟩ := h
  split at range
  next bounds =>
    obtain ⟨chunk, size, h', cs', result, rep', -, used⟩ :=
      Heap.kmalloc_spec rep bounds.1 bounds.2 ok
    rw [call, Option.some_inj, Prod.mk.injEq] at result
    obtain ⟨rfl, rfl⟩ := result
    cases e
    have mem : (⟨chunk, size, false⟩ : Chunk) ∈ cs' :=
      mem_lives.mp (used.mem_iff.mpr List.mem_cons_self)
    have stop := rep'.stop_le mem
    have bounded := rep'.bounded
    have back : sub32 (chunk + 16) sizeofChunk = chunk :=
      sub32_sizeofChunk (by simp only at stop; omega)
    refine ⟨cs', rep', ?_⟩
    rw [back, rep'.size _ mem]
    exact (same.cons _).trans used.symm
  next => cases range

theorem tiled_kfree {ptr : Nat} (tiled : s.Tiled) (ok : s.Ok (.kfree ptr))
    (h : s.step (.kfree ptr) = some t) : t.Tiled := by
  obtain ⟨cs, rep, same⟩ := tiled
  simp only [step, Option.bind_eq_bind, Option.bind_eq_some_iff] at h
  obtain ⟨⟨chunk, size⟩, found, heap, call, e⟩ := h
  cases e
  have mem := List.mem_of_find?_eq_some found
  have here : chunk + 16 = ptr := by simpa using List.find?_some found
  subst here
  obtain ⟨pre, post, rfl⟩ := List.append_of_mem (mem_lives.mp (same.mem_iff.mp mem))
  have stop := rep.stop_le (x := ⟨chunk, size, false⟩) (by simp)
  have bounded := rep.bounded
  have back : sub32 (chunk + 16) sizeofChunk = chunk :=
    sub32_sizeofChunk (by simp only at stop; omega)
  have ok : s.heap.KfreeOk (sub32 (chunk + 16) sizeofChunk) := ok
  rw [back] at ok
  obtain ⟨h', cs', result, rep', used⟩ := Heap.kfree_spec rep (Heap.releasable_of_ok rep ok)
  obtain rfl : heap = h' := Option.some_inj.mp (call.symm.trans result)
  refine ⟨cs', rep', ?_⟩
  rw [used]
  have middle : s.live.Perm ((chunk, size) :: (lives pre ++ lives post)) := by
    refine same.trans ?_
    simp
  simpa using middle.erase (chunk, size)

theorem tiled_store {cell : Nat} {word : HeaderWord} (tiled : s.Tiled)
    (h : s.step (.store cell word) = some t) : t.Tiled := by
  obtain ⟨cs, rep, same⟩ := tiled
  simp only [step, Option.bind_eq_bind, Option.bind_eq_some_iff, guard] at h
  obtain ⟨_, range, e⟩ := h
  split at range
  next own =>
    cases e
    obtain ⟨b, mem, low, high⟩ := own
    exact ⟨cs, Heap.store_spec rep (same.mem_iff.mp mem) low high, same⟩
  next => cases range

theorem tiled_step {e : HeapCall} (tiled : s.Tiled) (ok : s.Ok e) (h : s.step e = some t) :
    t.Tiled := by
  cases e with
  | kmalloc n => exact tiled_kmalloc tiled ok h
  | kfree ptr => exact tiled_kfree tiled ok h
  | store cell word => exact tiled_store tiled h

/-- Every run whose calls meet their side condition is safe in every state. -/
theorem runs_safe (reached : Runs.Reach step Ok Init s) : s.Safe := by
  refine Tiled.safe (Runs.Reach.invariant ?_ (fun _ _ _ => tiled_step) reached)
  intro _ start
  obtain ⟨h, rfl⟩ := start
  exact ⟨[], h.kheap_init_rep, .nil⟩

/-- `kheap_init` in cleared memory. -/
def boot : HeapRun := ⟨Heap.kheap_init ⟨fun _ => .null, fun _ => 0, fun _ => 0, 0⟩, []⟩

theorem boot_init : Init boot := ⟨_, rfl⟩

theorem first_call_safe : ∃ t, boot.step (.kmalloc 2032) = some t ∧ t.Safe := by
  obtain ⟨t, call⟩ : ∃ t, boot.step (.kmalloc 2032) = some t :=
    Option.isSome_iff_exists.mp (by decide +kernel)
  have ok : boot.Ok (.kmalloc 2032) := by
    refine .inr (.inr ⟨fun c on => ?_, by decide +kernel⟩)
    exact List.not_mem_nil ((Heap.onFreeList_iff (Heap.kheap_init_rep _).list).mp on)
  exact ⟨t, call, runs_safe (.next (.start boot_init) ok call)⟩

/-- The chunks that halve the first page, the last of which is taken whole; then
    the first block is freed and a larger one allocated. -/
def fill : List HeapCall :=
  [.kmalloc 2032, .kmalloc 1008, .kmalloc 496, .kmalloc 240, .kmalloc 112, .kmalloc 32,
   .kmalloc 16, .kmalloc 16, .kfree (HEAP_START + 16), .kmalloc 2000]

/-- The page goes to the free chunk at the bottom of the heap, although live
    blocks lie between it and the heap end. -/
theorem growth_overlaps : ∃ t, Runs.run step boot fill = some t ∧ ¬ t.Safe := by
  have ends : (Runs.run step boot fill).map (fun t =>
      (get_head t.heap.links (), t.heap.size (HEAP_START + 2016),
        decide ((HEAP_START + 2048, 1008) ∈ t.live))) =
      some (some (.node (HEAP_START + 2016)), 4112, true) := by decide +kernel
  obtain ⟨t, run, e⟩ := Option.map_eq_some_iff.mp ends
  simp only [Prod.mk.injEq, decide_eq_true_eq] at e
  refine ⟨t, run, fun safe => ?_⟩
  have apart := safe.free _ e.2.2 _ (.first e.1)
  rw [e.2.1] at apart
  omega

end HeapRun

end Krypton
