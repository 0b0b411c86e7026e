import Krypton.Heap.Memory
import Krypton.Mm.Frames

/-! # The frames behind the heap

Every page of the heap has a frame of its own, and a frame is a free one, a page
of the heap or a page table. Growth and trimming keep this whatever the chunks
look like, as long as `k_heap_end` does not fall below `HEAP_START`.
-/

namespace Krypton

open LinkStore

namespace Memory

open Paging

/-- The bytes of the frames that the page allocator manages: more is never mapped. -/
def HEAP_ROOM : Nat := 0xF00000

structure Backed (m : Memory) : Prop where
  kept : m.paging.Kept
  whole : m.heap.k_heap_end % PAGE_SIZE = 0
  low : HEAP_START ≤ m.heap.k_heap_end
  high : m.heap.k_heap_end ≤ m.highest
  room : m.highest ≤ HEAP_START + HEAP_ROOM
  mapped : ∀ v, HEAP_START ≤ v → v < m.heap.k_heap_end →
    ∃ f, m.paging.walk v = some f ∧ m.paging.Owned f
  distinct : ∀ v w, HEAP_START ≤ v → v < m.heap.k_heap_end → HEAP_START ≤ w →
    w < m.heap.k_heap_end → m.paging.walk v = m.paging.walk w → v / PAGE_SIZE = w / PAGE_SIZE
  unmapped : ∀ v, m.heap.k_heap_end ≤ v → v < HEAP_START + HEAP_ROOM → m.paging.walk v = none

/-- Free frames, pages of the heap and page tables. -/
def total (m : Memory) : Nat := m.paging.frameCount + (m.heap.k_heap_end - HEAP_START) / PAGE_SIZE

section Pages

variable {v w : Nat}

theorem dir_of_heap (low : HEAP_START ≤ v) (high : v < HEAP_START + HEAP_ROOM) :
    769 ≤ v >>> 22 ∧ v >>> 22 < 1023 := by
  unfold HEAP_START at low high
  unfold HEAP_ROOM at high
  rw [Nat.shiftRight_eq_div_pow]
  omega

/-- No page of the heap has a twin in the low table. -/
theorem not_shared (low : HEAP_START ≤ v) (high : v < HEAP_START + HEAP_ROOM)
    (other : w / PAGE_SIZE ≠ v / PAGE_SIZE) : ¬ Shared v w := by
  have above := (dir_of_heap low high).1
  rintro (same | ⟨twin, -⟩)
  · rw [Nat.shiftRight_eq_div_pow, Nat.shiftRight_eq_div_pow] at same
    exact other same
  · unfold Twin at twin
    omega

theorem walk_page {s : Paging} (same : w / PAGE_SIZE = v / PAGE_SIZE) : s.walk w = s.walk v := by
  have page : w >>> 12 = v >>> 12 := by
    rw [Nat.shiftRight_eq_div_pow, Nat.shiftRight_eq_div_pow]
    exact same
  have dir : w >>> 22 = v >>> 22 := by
    rw [Nat.shiftRight_eq_div_pow, Nat.shiftRight_eq_div_pow] at *
    unfold PAGE_SIZE at same
    omega
  unfold walk
  rw [page, dir]

end Pages

section Steps

variable {m m' : Memory} {n tail : Nat}

/-- While a frame is free, the heap has not used all the room. -/
theorem Backed.space (backed : m.Backed) {f : Nat} (free : f ∈ m.paging.pages.freePages) :
    m.heap.k_heap_end + PAGE_SIZE ≤ HEAP_START + HEAP_ROOM := by
  have low := backed.low
  have whole := backed.whole
  -- one frame for each page, and `f` is none of them
  let frame : Nat → Nat := fun j => (m.paging.walk (HEAP_START + PAGE_SIZE * j)).getD 0
  let count := (m.heap.k_heap_end - HEAP_START) / PAGE_SIZE
  have inside (j : Nat) (hj : j < count) : HEAP_START + PAGE_SIZE * j < m.heap.k_heap_end := by
    unfold count PAGE_SIZE at *
    omega
  have into : ∀ j ∈ Finset.range count, frame j ∈ (Finset.range 3840).erase f := by
    intro j mem
    obtain ⟨g, walk, owned⟩ :=
      backed.mapped _ (Nat.le_add_right ..) (inside j (Finset.mem_range.mp mem))
    have here : frame j = g := by
      unfold frame
      rw [walk, Option.getD_some]
    rw [here, Finset.mem_erase, Finset.mem_range]
    refine ⟨?_, owned.inside⟩
    rintro rfl
    exact owned.used free
  have injective : ∀ i ∈ Finset.range count, ∀ j ∈ Finset.range count, frame i = frame j →
      i = j := by
    intro i hi j hj same
    have hi := inside i (Finset.mem_range.mp hi)
    have hj := inside j (Finset.mem_range.mp hj)
    obtain ⟨g, walk, -⟩ := backed.mapped _ (Nat.le_add_right ..) hi
    obtain ⟨g', walk', -⟩ := backed.mapped _ (Nat.le_add_right ..) hj
    have page := backed.distinct _ _ (Nat.le_add_right ..) hi (Nat.le_add_right ..) hj (by
      unfold frame at same
      rw [walk, walk', Option.getD_some, Option.getD_some] at same
      rw [walk, walk', same])
    unfold PAGE_SIZE at page
    omega
  have few := Finset.card_le_card_of_injOn frame into fun i hi j hj => injective i hi j hj
  rw [Finset.card_range, Finset.card_erase_of_mem
    (Finset.mem_range.mpr (PageMap.mem_freePages.mp free).1), Finset.card_range] at few
  unfold count at few
  unfold HEAP_START PAGE_SIZE HEAP_ROOM at *
  omega

theorem grow_end {h h' : Heap} {a : Nat} (run : h.grow a = some h') :
    h'.k_heap_end = add32 h.k_heap_end PAGE_SIZE := by
  unfold Heap.grow at run
  obtain ⟨last, -, run⟩ := Option.bind_eq_some_iff.mp run
  cases last with
  | null =>
      obtain ⟨t, -, run⟩ := Option.bind_eq_some_iff.mp run
      cases run
      rfl
  | node t =>
      cases run
      rfl
  | _ => cases run

/-- The pages that both heaps have are mapped as before. -/
def Keeps (m m' : Memory) : Prop := ∀ v, HEAP_START ≤ v → v < m.heap.k_heap_end →
  v < m'.heap.k_heap_end → m'.paging.walk v = m.paging.walk v

/-- The heap grew by the page at its old end, to which the frame `f` was given. -/
structure Grown (m m' : Memory) (f : Nat) : Prop where
  given : Given m.paging m'.paging m.heap.k_heap_end f
  space : m.heap.k_heap_end + PAGE_SIZE ≤ HEAP_START + HEAP_ROOM
  heap_end : m'.heap.k_heap_end = m.heap.k_heap_end + PAGE_SIZE
  highest : m'.highest = max m.highest (m.heap.k_heap_end + PAGE_SIZE)

theorem grow_given (backed : m.Backed) (run : m.grow m.heap.k_heap_end = some m') :
    ∃ f, Grown m m' f := by
  have low := backed.low
  have room := Nat.le_trans backed.high backed.room
  obtain ⟨addr, pages, r, paging, heap, alloc, mapped, grown, rfl⟩ := grow_cases run
  obtain ⟨f, free, -⟩ := PageMap.pa_alloc_taken backed.kept.counted alloc
  have space := backed.space free
  have higher : add32 m.heap.k_heap_end PAGE_SIZE = m.heap.k_heap_end + PAGE_SIZE := by
    refine add32_eq (Nat.lt_of_le_of_lt space ?_)
    decide
  have heap_end := (grow_end grown).trans higher
  have below := (dir_of_heap low (by unfold PAGE_SIZE at space; omega)).2
  obtain ⟨f, given⟩ := map_new backed.kept below alloc mapped
  exact ⟨f, given, space, heap_end, congrArg (max m.highest) heap_end⟩

theorem Grown.backed {f : Nat} (backed : m.Backed) (grown : Grown m m' f) :
    m'.Backed ∧ m'.total = m.total := by
  obtain ⟨given, space, heap_end, highest⟩ := grown
  have low := backed.low
  have whole := backed.whole
  have room := backed.room
  have low' : HEAP_START ≤ m'.heap.k_heap_end := by omega
  have old_page {v : Nat} (high : v < m.heap.k_heap_end) :
      v / PAGE_SIZE ≠ m.heap.k_heap_end / PAGE_SIZE := by
    unfold PAGE_SIZE at *
    omega
  have inside : m.heap.k_heap_end < HEAP_START + HEAP_ROOM := by
    unfold PAGE_SIZE at space
    omega
  have elsewhere {v : Nat} (hlow : HEAP_START ≤ v) (high : v < HEAP_START + HEAP_ROOM)
      (other : v / PAGE_SIZE ≠ m.heap.k_heap_end / PAGE_SIZE) :
      m'.paging.walk v = m.paging.walk v :=
    given.walk v (dir_of_heap hlow high).2 (not_shared low inside other)
  have new_page {v : Nat} (here : v / PAGE_SIZE = m.heap.k_heap_end / PAGE_SIZE) :
      m'.paging.walk v = some f := (walk_page here).trans given.here
  -- a page of the grown heap is an old one or the new one
  have cases {v : Nat} (high : v < m'.heap.k_heap_end) :
      v < m.heap.k_heap_end ∨ v / PAGE_SIZE = m.heap.k_heap_end / PAGE_SIZE := by
    unfold PAGE_SIZE at *
    omega
  have owned {v : Nat} (hlow : HEAP_START ≤ v) (high : v < m.heap.k_heap_end) :
      ∃ g, m'.paging.walk v = some g ∧ m.paging.Owned g := by
    rw [elsewhere hlow (by omega) (old_page high)]
    exact backed.mapped v hlow high
  have new {v : Nat} (hlow : HEAP_START ≤ v) (high : v < m.heap.k_heap_end) :
      m'.paging.walk v ≠ some f := by
    obtain ⟨g, walk, old⟩ := owned hlow high
    rw [walk]
    intro same
    cases same
    exact old.used given.free
  refine ⟨⟨given.kept, ?_, low', ?_, ?_, ?_, ?_, ?_⟩, ?_⟩
  · rw [heap_end]
    unfold PAGE_SIZE at *
    omega
  · rw [heap_end, highest]
    exact Nat.le_max_right ..
  · rw [highest]
    exact Nat.max_le.mpr ⟨room, space⟩
  · intro v hlow high
    cases cases high with
    | inl old =>
        obtain ⟨g, walk, old⟩ := owned hlow old
        exact ⟨g, walk, given.others g old⟩
    | inr here => exact ⟨f, new_page here, given.owned⟩
  · intro v w hv hv' hw hw' same
    cases cases hv' with
    | inl old =>
        cases cases hw' with
        | inl old' =>
            rw [elsewhere hv (by omega) (old_page old), elsewhere hw (by omega) (old_page old')]
                at same
            exact backed.distinct v w hv old hw old' same
        | inr here => exact absurd (same.trans (new_page here)) (new hv old)
    | inr here =>
        cases cases hw' with
        | inl old' => exact absurd (same.symm.trans (new_page here)) (new hw old')
        | inr here' => exact here.trans here'.symm
  · intro v above high
    rw [heap_end] at above
    rw [elsewhere (by omega) high (by unfold PAGE_SIZE at *; omega)]
    exact backed.unmapped v (by omega) high
  · have count := given.count
    unfold total
    rw [heap_end, ← count]
    unfold PAGE_SIZE at *
    omega

/-- The heap lost its last page, whose frame `f` is free again. -/
structure Shrunk (m m' : Memory) (f : Nat) : Prop where
  mapped : m.paging.walk (m.heap.k_heap_end - PAGE_SIZE) = some f
  returned : Returned m.paging m'.paging (m.heap.k_heap_end - PAGE_SIZE) f
  heap_end : m'.heap.k_heap_end = m.heap.k_heap_end - PAGE_SIZE
  highest : m'.highest = m.highest
  lowest : m'.lowest = min m.lowest (m.heap.k_heap_end - PAGE_SIZE)

theorem Backed.heap_end_lt (backed : m.Backed) : m.heap.k_heap_end < 2 ^ 32 := by
  have room := Nat.le_trans backed.high backed.room
  exact Nat.lt_of_le_of_lt room (by decide)

theorem cutPage_shrunk (tail : Nat) (backed : m.Backed)
    (more : HEAP_START + PAGE_SIZE ≤ m.heap.k_heap_end) :
    ∃ m' f, m.cutPage tail = some m' ∧ Shrunk m m' f := by
  have whole := backed.whole
  have room := Nat.le_trans backed.high backed.room
  have high := backed.high
  have lower : sub32 m.heap.k_heap_end PAGE_SIZE = m.heap.k_heap_end - PAGE_SIZE :=
    sub32_eq (by omega) backed.heap_end_lt
  have low : HEAP_START ≤ m.heap.k_heap_end - PAGE_SIZE := by omega
  have inside : m.heap.k_heap_end - PAGE_SIZE < m.heap.k_heap_end := by
    unfold PAGE_SIZE at *
    omega
  obtain ⟨f, mapped, owned⟩ := backed.mapped _ low inside
  obtain ⟨u, pages, addr, unmapped, freed, returned⟩ := unmap_free backed.kept
    (dir_of_heap low (by omega)).2 (by unfold PAGE_SIZE at *; omega) mapped owned
  have same : (m.heap.setSize tail (m.heap.size tail - PAGE_SIZE)).k_heap_end = m.heap.k_heap_end :=
    rfl
  have unchanged : max m.highest (m.heap.k_heap_end - PAGE_SIZE) = m.highest :=
    Nat.max_eq_left (by omega)
  refine ⟨{ m with paging := { u with pages } }.withHeap
    { m.heap.setSize tail (m.heap.size tail - PAGE_SIZE) with
      k_heap_end := m.heap.k_heap_end - PAGE_SIZE }, f, ?_, mapped, returned, ?_, unchanged, ?_⟩
  · unfold cutPage
    simp only [same, lower, addr, unmapped, freed, Option.bind_eq_bind, Option.bind_some]
    rfl
  · rfl
  · rfl

theorem Shrunk.elsewhere {f v : Nat} (backed : m.Backed)
    (more : HEAP_START + PAGE_SIZE ≤ m.heap.k_heap_end) (shrunk : Shrunk m m' f)
    (hlow : HEAP_START ≤ v) (hv : v < HEAP_START + HEAP_ROOM)
    (other : v / PAGE_SIZE ≠ (m.heap.k_heap_end - PAGE_SIZE) / PAGE_SIZE) :
    m'.paging.walk v = m.paging.walk v := by
  have room := Nat.le_trans backed.high backed.room
  refine shrunk.returned.walk v (dir_of_heap hlow hv).2 (not_shared ?_ ?_ other)
  · omega
  · have pos : 0 < HEAP_START + PAGE_SIZE := by decide
    exact Nat.lt_of_lt_of_le (Nat.sub_lt (Nat.lt_of_lt_of_le pos more) (by decide)) room

theorem Shrunk.keeps {f : Nat} (backed : m.Backed)
    (more : HEAP_START + PAGE_SIZE ≤ m.heap.k_heap_end) (shrunk : Shrunk m m' f) : Keeps m m' := by
  have whole := backed.whole
  have room := Nat.le_trans backed.high backed.room
  have heap_end := shrunk.heap_end
  intro v hlow hv hv'
  refine shrunk.elsewhere backed more hlow (Nat.lt_of_lt_of_le hv room) ?_
  unfold PAGE_SIZE at *
  omega

theorem Shrunk.backed {f : Nat} (backed : m.Backed)
    (more : HEAP_START + PAGE_SIZE ≤ m.heap.k_heap_end) (shrunk : Shrunk m m' f) :
    m'.Backed ∧ m'.total = m.total := by
  have keeps := shrunk.keeps backed more
  have elsewhere := fun v => shrunk.elsewhere (v := v) backed more
  obtain ⟨mapped, returned, heap_end, highest, -⟩ := shrunk
  have whole := backed.whole
  have room := Nat.le_trans backed.high backed.room
  have high := backed.high
  have low : HEAP_START ≤ m.heap.k_heap_end - PAGE_SIZE := by omega
  have last : m.heap.k_heap_end - PAGE_SIZE < m.heap.k_heap_end := by
    unfold PAGE_SIZE at *
    omega
  refine ⟨⟨returned.kept, ?_, ?_, ?_, ?_, ?_, ?_, ?_⟩, ?_⟩
  · rw [heap_end]
    unfold PAGE_SIZE at *
    omega
  · rw [heap_end]
    exact low
  · rw [heap_end, highest]
    omega
  · rw [highest]
    exact backed.room
  · intro v hlow hv
    have old : v < m.heap.k_heap_end := by omega
    obtain ⟨g, walk, owned⟩ := backed.mapped v hlow old
    refine ⟨g, (keeps v hlow old hv).trans walk, returned.others g ?_ owned⟩
    rintro rfl
    have page := backed.distinct v _ hlow old low last (walk.trans mapped.symm)
    unfold PAGE_SIZE at *
    omega
  · intro v w hv hv' hw hw' same
    have old : v < m.heap.k_heap_end := by omega
    have old' : w < m.heap.k_heap_end := by omega
    rw [keeps v hv old hv', keeps w hw old' hw'] at same
    exact backed.distinct v w hv old hw old' same
  · intro v above hv
    rw [heap_end] at above
    by_cases here : v / PAGE_SIZE = (m.heap.k_heap_end - PAGE_SIZE) / PAGE_SIZE
    · exact (walk_page here).trans returned.here
    · rw [elsewhere v (by omega) hv here]
      refine backed.unmapped v ?_ hv
      unfold PAGE_SIZE at *
      omega
  · have count := returned.count
    unfold total
    rw [heap_end, count]
    unfold PAGE_SIZE at *
    omega

/-! ## Calls -/

/-- While `k_heap_end` has not fallen below `HEAP_START`, the heap is backed and
    `n` frames are accounted for. -/
def Accounts (n : Nat) (m : Memory) : Prop := HEAP_START ≤ m.lowest → m.Backed ∧ m.total = n

/-- The chunks play no part. -/
theorem Accounts.congr (accounts : m.Accounts n) (paging : m'.paging = m.paging)
    (heap_end : m'.heap.k_heap_end = m.heap.k_heap_end) (highest : m'.highest = m.highest)
    (lowest : m'.lowest = m.lowest) : m'.Accounts n := by
  intro low
  rw [lowest] at low
  obtain ⟨⟨kept, whole, start, high, room, mapped, distinct, unmapped⟩, total⟩ := accounts low
  unfold Memory.total at total ⊢
  rw [← heap_end] at whole start high mapped distinct unmapped total
  rw [← highest] at high room
  rw [← paging] at kept mapped distinct unmapped total
  exact ⟨⟨kept, whole, start, high, room, mapped, distinct, unmapped⟩, total⟩

theorem grow_accounts (accounts : m.Accounts n) (run : m.grow m.heap.k_heap_end = some m') :
    m'.Accounts n := by
  intro low
  have lowest : m'.lowest ≤ m.lowest := by
    obtain ⟨_, _, _, _, _, -, -, -, rfl⟩ := grow_cases run
    exact Nat.min_le_left ..
  obtain ⟨backed, total⟩ := accounts (Nat.le_trans low lowest)
  obtain ⟨f, grown⟩ := grow_given backed run
  obtain ⟨backed', same⟩ := grown.backed backed
  exact ⟨backed', same.trans total⟩

theorem cutPage_accounts (accounts : m.Accounts n) (run : m.cutPage tail = some m') :
    m'.Accounts n := by
  intro low
  have lowest : m'.lowest = min m.lowest (sub32 m.heap.k_heap_end PAGE_SIZE) := by
    unfold cutPage at run
    obtain ⟨_, -, run⟩ := Option.bind_eq_some_iff.mp run
    obtain ⟨_, -, run⟩ := Option.bind_eq_some_iff.mp run
    obtain ⟨_, -, run⟩ := Option.bind_eq_some_iff.mp run
    cases run
    rfl
  rw [lowest] at low
  obtain ⟨backed, total⟩ := accounts (Nat.le_trans low (Nat.min_le_left ..))
  have more : HEAP_START + PAGE_SIZE ≤ m.heap.k_heap_end := by
    have start := backed.low
    have above := Nat.le_trans low (Nat.min_le_right ..)
    rw [sub32_eq (Nat.le_trans (by decide) start) backed.heap_end_lt] at above
    unfold HEAP_START at *
    omega
  obtain ⟨m₁, f, cut, shrunk⟩ := cutPage_shrunk tail backed more
  obtain rfl := Option.some_inj.mp (cut.symm.trans run)
  obtain ⟨backed', same⟩ := shrunk.backed backed more
  exact ⟨backed', same.trans total⟩

theorem trim_accounts {fuel : Nat} (accounts : m.Accounts n) (run : trim tail fuel m = some m') :
    m'.Accounts n := by
  induction fuel generalizing m with
  | zero => cases run
  | succ fuel ih =>
      unfold trim at run
      split at run
      · obtain ⟨m₁, cut, rest⟩ := Option.bind_eq_some_iff.mp run
        exact ih (cutPage_accounts accounts cut) rest
      · cases run
        exact accounts

theorem trimTail_accounts (accounts : m.Accounts n) (run : trimTail m = some m') :
    m'.Accounts n := by
  unfold trimTail at run
  obtain ⟨last, -, run⟩ := Option.bind_eq_some_iff.mp run
  cases last with
  | null =>
      cases run
      exact accounts
  | node t => exact trim_accounts accounts run
  | _ => cases run

theorem merge_heap_accounts {fuel : Nat} {q : Ptr Nat Unit} (accounts : m.Accounts n)
    (run : merge_heap fuel q m = some m') : m'.Accounts n := by
  induction fuel generalizing m m' q with
  | zero =>
      cases q with
      | null =>
          cases run
          exact accounts
      | _ => cases run
  | succ fuel ih =>
      cases q with
      | null =>
          cases run
          exact accounts
      | node aux =>
          simp only [merge_heap] at run
          split at run
          · cases run
          · obtain ⟨next, -, run⟩ := Option.bind_eq_some_iff.mp run
            obtain ⟨addr, -, run⟩ := Option.bind_eq_some_iff.mp run
            split at run
            · cases next with
              | node z =>
                  obtain ⟨t, -, run⟩ := Option.bind_eq_some_iff.mp run
                  obtain ⟨m₁, merged, trimmed⟩ := Option.bind_eq_some_iff.mp run
                  have joined : Accounts n { m with heap := { m.heap.setSize aux (add32
                      (m.heap.size aux) (add32 (m.heap.size z) sizeofChunk)) with links := t } } :=
                    accounts.congr rfl rfl rfl rfl
                  exact trimTail_accounts (ih joined merged) trimmed
              | _ => cases run
            · obtain ⟨_, -, run⟩ := Option.bind_eq_some_iff.mp run
              obtain ⟨m₁, merged, trimmed⟩ := Option.bind_eq_some_iff.mp run
              exact trimTail_accounts (ih accounts merged) trimmed
      | _ => cases run

theorem kfree_accounts {ptr : Nat} (accounts : m.Accounts n) (run : m._kfree ptr = some m') :
    m'.Accounts n := by
  unfold _kfree at run
  simp only at run
  split at run
  · cases run
  · obtain ⟨heap, inserted, run⟩ := Option.bind_eq_some_iff.mp run
    obtain ⟨first, -, run⟩ := Option.bind_eq_some_iff.mp run
    obtain ⟨-, heap_end⟩ := Heap.insert_chunk_size inserted
    have listed : Accounts n { m with heap } := accounts.congr rfl heap_end rfl rfl
    exact merge_heap_accounts listed run

theorem kmalloc_accounts {fuel a ptr : Nat} (accounts : m.Accounts n)
    (run : m._kmalloc fuel a = some (ptr, m')) : m'.Accounts n := by
  induction fuel generalizing m a with
  | zero => cases run
  | succ fuel ih =>
      rw [_kmalloc] at run
      obtain ⟨first, -, run⟩ := Option.bind_eq_some_iff.mp run
      obtain ⟨found, -, run⟩ := Option.bind_eq_some_iff.mp run
      cases found with
      | some chunk =>
          obtain ⟨heap, taken, rfl⟩ := take_cases run
          exact accounts.congr rfl (Heap.take_end taken) rfl rfl
      | none =>
          obtain ⟨m₁, grown, again⟩ := Option.bind_eq_some_iff.mp run
          exact ih (grow_accounts accounts grown) again

end Steps

/-! ## Runs -/

inductive MemoryCall where
  | kmalloc (alloc_sz : Nat)
  | kfree (ptr : Nat)

def step (m : Memory) : MemoryCall → Option Memory
  | .kmalloc alloc_sz => (m._kmalloc stepBound alloc_sz).map Prod.snd
  | .kfree ptr => m._kfree ptr

/-- An empty heap none of whose pages is mapped. -/
structure Start (m : Memory) : Prop where
  heap : ∃ h : Heap, m.heap = h.kheap_init
  highest : m.highest = HEAP_START
  lowest : m.lowest = HEAP_START
  unmapped : ∀ v, HEAP_START ≤ v → v < HEAP_START + HEAP_ROOM → m.paging.walk v = none

/-- The frames in the state `m` of a run from `m₀`. The tables that were created are
    those of `m` that `m₀` does not have. -/
structure Accounted (m₀ m : Memory) : Prop where
  mapped : ∀ v, HEAP_START ≤ v → v < m.heap.k_heap_end →
    ∃ f, m.paging.walk v = some f ∧ f < 3840 ∧ f ∉ m.paging.pages.freePages
  distinct : ∀ v w, HEAP_START ≤ v → v < m.heap.k_heap_end → HEAP_START ≤ w →
    w < m.heap.k_heap_end → m.paging.walk v = m.paging.walk w → v / PAGE_SIZE = w / PAGE_SIZE
  unmapped : ∀ v, m.heap.k_heap_end ≤ v → v < m.highest → m.paging.walk v = none
  total : m.paging.pages.LowRamFreeCount.toNat + (m.heap.k_heap_end - HEAP_START) / PAGE_SIZE +
    m.paging.tables.card = m₀.paging.pages.LowRamFreeCount.toNat + m₀.paging.tables.card

theorem Start.backed {m : Memory} (start : m.Start) (kept : m.paging.Kept) : m.Backed := by
  obtain ⟨⟨h, init⟩, highest, -, unmapped⟩ := start
  have heap_end : m.heap.k_heap_end = HEAP_START := congrArg Heap.k_heap_end init
  refine ⟨kept, ?_, ?_, ?_, ?_, ?_, ?_, ?_⟩
  · rw [heap_end]
    rfl
  · rw [heap_end]
  · rw [heap_end, highest]
  · rw [highest]
    exact Nat.le_add_right ..
  · rw [heap_end]
    intro v low high
    exact absurd high (Nat.not_lt.mpr low)
  · rw [heap_end]
    intro v w low high
    exact absurd high (Nat.not_lt.mpr low)
  · rw [heap_end]
    exact unmapped

theorem step_accounts {m m' : Memory} {n : Nat} {e : MemoryCall} (accounts : m.Accounts n)
    (run : m.step e = some m') : m'.Accounts n := by
  cases e with
  | kmalloc alloc_sz =>
      obtain ⟨⟨ptr, m₁⟩, called, same⟩ := Option.map_eq_some_iff.mp run
      cases same
      exact kmalloc_accounts accounts called
  | kfree ptr => exact kfree_accounts accounts run

/-- Where page 0 and the frames of the tables are used ones, no frame is lost or
    mapped twice in any run that keeps `k_heap_end` at or above `HEAP_START`. -/
theorem runs_accounted {m₀ m : Memory} (start : m₀.Start) (kept : m₀.paging.Kept)
    (reached : Runs.Reach step (fun _ _ => True) (· = m₀) m) (low : HEAP_START ≤ m.lowest) :
    Accounted m₀ m := by
  have accounts : m.Accounts m₀.total := by
    refine reached.invariant ?_ fun _ _ _ accounts _ run => step_accounts accounts run
    rintro _ rfl _
    exact ⟨start.backed kept, rfl⟩
  obtain ⟨backed, total⟩ := accounts low
  refine ⟨fun v hlow high => ?_, backed.distinct, fun v above high => ?_, ?_⟩
  · obtain ⟨f, walk, owned⟩ := backed.mapped v hlow high
    exact ⟨f, walk, owned.inside, owned.used⟩
  · exact backed.unmapped v above (Nat.lt_of_lt_of_le high backed.room)
  · obtain ⟨h, init⟩ := start.heap
    have heap_end : m₀.heap.k_heap_end = HEAP_START := congrArg Heap.k_heap_end init
    unfold Memory.total frameCount at total
    rw [heap_end, Nat.sub_self, Nat.zero_div, Nat.add_zero] at total
    rw [backed.kept.counted, kept.counted]
    omega

/-! ## An empty heap -/

/-- `kheap_init` in cleared memory, with the directory in frame 2, the low table in frame 3
    and an empty table for the heap in frame 4. -/
def ready (pages : PageMap) : Memory where
  heap := Heap.kheap_init ⟨fun _ => .null, fun _ => 0, fun _ => 0, 0⟩
  paging := (init_paging (fun _ _ => 0) pages 2 3).withEntry 769 (4 <<< 12 ||| 0x7) pages
  highest := HEAP_START
  lowest := HEAP_START

section Ready

variable {pages : PageMap} {f i : Nat}

theorem init_fresh (other : f ≠ 2) (other' : f ≠ 3) :
    (init_paging (fun _ _ => 0) pages 2 3).Fresh f := by
  intro i below
  rw [init_paging_pde _ _ (by decide) below]
  split
  · rw [(boot_entry 2).2]
    exact fun _ => other.symm
  · split
    · rw [(boot_entry 3).2]
      exact fun _ => other'.symm
    · exact nofun

theorem ready_tables : (ready pages).paging.Tables := by
  refine Tables.add (init_paging_tables _ _ (by decide)) (by decide) ?_
  rw [(boot_entry 4).2]
  exact init_fresh (by decide) (by decide)

theorem ready_fresh (other : 4 < f) : (ready pages).paging.Fresh f := by
  intro i below
  by_cases new : i = 769
  · subst new
    have entry : (ready pages).paging.pde 769 = 4 <<< 12 ||| 0x7 := withEntry_pde
    rw [entry, (boot_entry 4).2]
    exact fun _ => Nat.ne_of_lt other
  · have entry : (ready pages).paging.pde i = _ := withEntry_other new
    rw [entry]
    exact init_fresh (by omega) (by omega) i below

/-- Nothing is mapped where the tables are empty. -/
theorem unmapped_of_empty {s : Paging} (empty : ∀ i, 769 ≤ i → i < 1023 → present (s.pde i) →
    ∀ j, s.frames (frameOf (s.pde i)) j = 0) (v : Nat) (low : HEAP_START ≤ v)
    (high : v < HEAP_START + HEAP_ROOM) : s.walk v = none := by
  obtain ⟨above, below⟩ := dir_of_heap low high
  by_cases there : present (s.pde (v >>> 22))
  · exact walk_unmapped (empty _ above below there _)
  · exact walk_absent there

/-- The directory entries of the heap. -/
theorem ready_pde (above : 769 ≤ i) (below : i < 1023) :
    (ready pages).paging.pde i = if i = 769 then 4 <<< 12 ||| 0x7 else 0 := by
  by_cases new : i = 769
  · subst new
    exact withEntry_pde
  · have entry : (ready pages).paging.pde i = _ := withEntry_other new
    rw [entry, init_paging_pde _ _ (by decide) (by omega), if_neg (by omega), if_neg (by omega),
      if_neg new]

/-- The table of the heap is empty. -/
theorem ready_word (pages : PageMap) (j : Nat) : (ready pages).paging.frames 4 j = 0 := by
  have other : 4 ≠ 2 := by decide
  have init := init_paging_frame (fun _ _ => 0) pages other (show 4 ≠ 3 by decide)
  have frame : (ready pages).paging.frames 4 = (init_paging (fun _ _ => 0) pages 2 3).frames 4 :=
    withEntry_frame other
  rw [frame]
  exact congrFun init j

theorem ready_start : (ready pages).Start := by
  refine ⟨⟨_, rfl⟩, rfl, rfl, unmapped_of_empty fun i above below => ?_⟩
  rw [ready_pde above below]
  split
  · rw [(boot_entry 4).2]
    exact fun _ => ready_word pages
  · exact nofun

end Ready

/-- Frames 5 to 12 are free. -/
def few : PageMap := ⟨fun i => if i = 0 then 0x1FE0#32 else 0#32, 8⟩

theorem few_kept : (ready few).paging.Kept := by
  have pages : few.freePages = {5, 6, 7, 8, 9, 10, 11, 12} := by decide +kernel
  have pages : (ready few).paging.pages.freePages = {5, 6, 7, 8, 9, 10, 11, 12} := pages
  have counted : few.Counted := by
    rw [PageMap.Counted]
    decide +kernel
  refine ⟨ready_tables, counted, ?_, fun f mem => ready_fresh ?_⟩
  · rw [pages]
    decide
  · rw [pages] at mem
    simp only [Finset.mem_insert, Finset.mem_singleton] at mem
    omega

theorem runs_accounted_few :
    ∃ m, Runs.run step (ready few) [.kmalloc 5000, .kfree (HEAP_START + 16)] = some m ∧
    Accounted (ready few) m := by
  have ends : (Runs.run step (ready few) [.kmalloc 5000, .kfree (HEAP_START + 16)]).map
      (fun m => decide (HEAP_START ≤ m.lowest)) = some true := by decide +kernel
  obtain ⟨m, run, low⟩ := Option.map_eq_some_iff.mp ends
  have start : Runs.Reach step (fun _ _ => True) (· = ready few) (ready few) := .start rfl
  exact ⟨m, run, runs_accounted ready_start few_kept
    (start.of_run (Runs.meets_true _ _) run) (of_decide_eq_true low)⟩

end Memory

end Krypton
