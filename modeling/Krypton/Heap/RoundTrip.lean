import Krypton.Heap.Trimming

/-! # Allocating and freeing again

`_kmalloc` carves its block out of the first wide chunk, after adding pages to
the last chunk where there is none. `_kfree` joins the halves again, and what is
then more than a page at the end of the heap is what was added.
-/

namespace Krypton

open LinkStore Tiling

namespace Heap

variable {pre post : List Chunk} {t x : Chunk} {a : Nat}

/-- The block that was carved out of a chunk gives the chunk again when it is freed. -/
theorem carve_freed (isolated : Isolated (pre ++ x :: post)) (free : x.free) :
    ∃ size rest, carve a x ++ post = ⟨x.addr, size, false⟩ :: rest ∧
      coalesceAll 16 (pre ++ ⟨x.addr, size, true⟩ :: rest) = pre ++ x :: post := by
  have same : (⟨x.addr, x.size, true⟩ : Chunk) = x := by rw [← free]
  unfold carve
  split
  · refine ⟨x.size, post, rfl, ?_⟩
    rw [same]
    exact coalesceAll_of_isolated isolated
  · rename_i room
    refine ⟨a, ⟨x.addr + 16 + a, x.size - a - 16, true⟩ :: post, rfl, ?_⟩
    have joined : Chunk.join 16 ⟨x.addr, a, true⟩ ⟨x.addr + 16 + a, x.size - a - 16, true⟩ = x := by
      have sizes : a + (x.size - a - 16 + 16) = x.size := by omega
      simp only [Chunk.join, sizes, same]
    rw [coalesceAll_halves rfl rfl, joined]
    exact coalesceAll_of_isolated isolated

theorem isolated_resize (isolated : Isolated (pre ++ [t])) (size : Nat) :
    Isolated (pre ++ [{ t with size }]) := by
  unfold Isolated at isolated ⊢
  rw [List.isChain_append] at isolated ⊢
  obtain ⟨before, -, link⟩ := isolated
  refine ⟨before, .singleton _, fun c hc d hd => ?_⟩
  cases hd
  exact link c hc t rfl

end Heap

namespace Memory

open Heap Paging

variable {m m₁ m' : Memory} {cs pre post : List Chunk} {t : Chunk} {a n fuel k : Nat}

/-! ## Growth -/

/-- Pages were added at the end of the heap. The frames that are no longer free are theirs,
    and those of new tables. -/
structure Extended (m m' : Memory) : Prop where
  keeps : Keeps m m'
  longer : m.heap.k_heap_end ≤ m'.heap.k_heap_end
  entries : ∀ i, present (m.paging.pde i) → m'.paging.pde i = m.paging.pde i
  frames : ∀ f, f ∈ m.paging.pages.freePages ↔ f ∈ m'.paging.pages.freePages ∨
    (∃ v, m.heap.k_heap_end ≤ v ∧ v < m'.heap.k_heap_end ∧ m'.paging.walk v = some f) ∨
    NewTable m.paging m'.paging f

theorem Extended.refl (m : Memory) : Extended m m where
  keeps _ _ _ _ := rfl
  longer := Nat.le_refl _
  entries _ _ := rfl
  frames f := by
    constructor
    · exact .inl
    · rintro (old | ⟨v, above, below, -⟩ | ⟨i, -, absent, there, -⟩)
      · exact old
      · omega
      · exact absurd there absent

theorem Extended.trans (first : Extended m m₁) (second : Extended m₁ m')
    (low : HEAP_START ≤ m.heap.k_heap_end) : Extended m m' where
  keeps v hlow hv _ := by
    have longer := first.longer
    have longer' := second.longer
    exact (second.keeps v hlow (by omega) (by omega)).trans (first.keeps v hlow hv (by omega))
  longer := Nat.le_trans first.longer second.longer
  entries i there := by
    have same := first.entries i there
    exact (second.entries i (same ▸ there)).trans same
  frames f := by
    have longer := first.longer
    have longer' := second.longer
    have pages : (∃ v, m.heap.k_heap_end ≤ v ∧ v < m'.heap.k_heap_end ∧
          m'.paging.walk v = some f) ↔
        (∃ v, m₁.heap.k_heap_end ≤ v ∧ v < m'.heap.k_heap_end ∧ m'.paging.walk v = some f) ∨
        ∃ v, m.heap.k_heap_end ≤ v ∧ v < m₁.heap.k_heap_end ∧ m₁.paging.walk v = some f := by
      have same {v : Nat} (above : m.heap.k_heap_end ≤ v) (below : v < m₁.heap.k_heap_end) :
          m'.paging.walk v = m₁.paging.walk v := second.keeps v (by omega) below (by omega)
      constructor
      · rintro ⟨v, above, below, walk⟩
        cases Nat.lt_or_ge v m₁.heap.k_heap_end with
        | inl inside => exact .inr ⟨v, above, inside, (same above inside).symm.trans walk⟩
        | inr behind => exact .inl ⟨v, behind, below, walk⟩
      · rintro (⟨v, above, below, walk⟩ | ⟨v, above, below, walk⟩)
        · exact ⟨v, by omega, below, walk⟩
        · exact ⟨v, above, by omega, (same above below).trans walk⟩
    have tables : NewTable m.paging m'.paging f ↔
        NewTable m₁.paging m'.paging f ∨ NewTable m.paging m₁.paging f := by
      constructor
      · rintro ⟨i, below, absent, there, names⟩
        by_cases between : present (m₁.paging.pde i)
        · have same := second.entries i between
          exact .inr ⟨i, below, absent, between, same ▸ names⟩
        · exact .inl ⟨i, below, between, there, names⟩
      · rintro (⟨i, below, absent, there, names⟩ | ⟨i, below, absent, there, names⟩)
        · refine ⟨i, below, fun old => absent ?_, there, names⟩
          rw [first.entries i old]
          exact old
        · have same := second.entries i there
          exact ⟨i, below, absent, same ▸ there, same ▸ names⟩
    rw [first.frames, second.frames, pages, tables, or_assoc, or_or_or_comm]

theorem Grown.extended {f : Nat} (backed : m.Backed) (grown : Grown m m' f) : Extended m m' := by
  obtain ⟨given, space, heap_end, -⟩ := grown
  have low := backed.low
  have whole := backed.whole
  have inside : m.heap.k_heap_end < HEAP_START + HEAP_ROOM := by
    unfold PAGE_SIZE at space
    omega
  refine ⟨fun v hlow hv _ => ?_, by omega, given.entries, fun g => ?_⟩
  · refine given.walk v (dir_of_heap hlow (by omega)).2 (not_shared low inside ?_)
    unfold PAGE_SIZE at *
    omega
  · rw [given.frames, heap_end]
    refine or_congr_right (or_congr_left ⟨fun same => ⟨_, Nat.le_refl _, ?_, same ▸ given.here⟩,
        ?_⟩)
    · unfold PAGE_SIZE
      omega
    · rintro ⟨v, above, below, walk⟩
      have page : v / PAGE_SIZE = m.heap.k_heap_end / PAGE_SIZE := by
        unfold PAGE_SIZE at *
        omega
      rw [walk_page page, given.here] at walk
      cases walk
      rfl

/-- The directory entries without a table among those of the next `k` pages. -/
def newTables (m : Memory) (k : Nat) : Finset Nat :=
  ((Finset.range k).image fun j => (m.heap.k_heap_end + PAGE_SIZE * j) >>> 22).filter
    fun i => ¬ present (m.paging.pde i)

/-- There are free frames for `k` pages and the tables they need. -/
def Enough (m : Memory) (k : Nat) : Prop :=
  k + (m.newTables k).card ≤ m.paging.pages.LowRamFreeCount.toNat

instance (m : Memory) (k : Nat) : Decidable (m.Enough k) := Nat.decLe ..

theorem mem_newTables {i : Nat} : i ∈ m.newTables k ↔
    (∃ j < k, (m.heap.k_heap_end + PAGE_SIZE * j) >>> 22 = i) ∧ ¬ present (m.paging.pde i) := by
  simp [newTables]

/-- One page later, its table is there. -/
theorem Grown.newTables {f : Nat} (grown : Grown m m' f) :
    m'.newTables k = (m.newTables (k + 1)).erase (m.heap.k_heap_end >>> 22) := by
  obtain ⟨given, -, heap_end, -⟩ := grown
  have shift (p : Nat) : m'.heap.k_heap_end + PAGE_SIZE * p =
      m.heap.k_heap_end + PAGE_SIZE * (p + 1) := by
    rw [heap_end, Nat.mul_succ, Nat.add_assoc, Nat.add_comm PAGE_SIZE]
  ext j
  rw [Finset.mem_erase, mem_newTables, mem_newTables]
  constructor
  · rintro ⟨⟨p, below, page⟩, absent⟩
    have other : j ≠ m.heap.k_heap_end >>> 22 := by
      rintro rfl
      exact absent given.there
    rw [shift] at page
    exact ⟨other, ⟨p + 1, Nat.succ_lt_succ below, page⟩, given.tables j other ▸ absent⟩
  · rintro ⟨other, ⟨p, below, page⟩, absent⟩
    cases p with
    | zero => exact absurd page.symm other
    | succ p =>
        rw [← shift] at page
        exact ⟨⟨p, Nat.lt_of_succ_lt_succ below, page⟩, (given.tables j other).symm ▸ absent⟩

/-- One page and, if there is none, one table later. -/
theorem Grown.enough_iff {f : Nat} (backed : m.Backed) (backed' : m'.Backed)
    (grown : Grown m m' f) : m'.Enough k ↔ m.Enough (k + 1) := by
  have fewer : (m'.newTables k).card = _ := congrArg Finset.card grown.newTables
  obtain ⟨given, space, -, -⟩ := grown
  have dir := dir_of_heap backed.low (by unfold PAGE_SIZE at space; omega)
  let i := m.heap.k_heap_end >>> 22
  have count := given.count
  unfold Enough
  rw [backed.kept.counted, backed'.kept.counted, fewer]
  unfold frameCount at count
  by_cases there : present (m.paging.pde i)
  · have same : m'.paging.tables = m.paging.tables := by
      ext j
      rw [mem_tables, mem_tables]
      by_cases here : j = i
      · rw [here, given.entries i there]
      · rw [given.tables j here]
    rw [Finset.erase_eq_of_notMem fun mem => (mem_newTables.mp mem).2 there]
    rw [same] at count
    omega
  · have more : m'.paging.tables = insert i m.paging.tables := by
      ext j
      rw [Finset.mem_insert, mem_tables, mem_tables]
      by_cases here : j = i
      · have new : present (m'.paging.pde i) := given.there
        simp [here, new, show i < 1024 by omega]
      · simp [here, given.tables j here]
    have member : i ∈ m.newTables (k + 1) := mem_newTables.mpr ⟨⟨0, by omega, rfl⟩, there⟩
    have pos := Finset.card_pos.mpr ⟨i, member⟩
    rw [Finset.card_erase_of_mem member]
    rw [more, Finset.card_insert_of_notMem fun mem => there (mem_tables.mp mem).2] at count
    omega

/-- While there are frames for more pages, there is room for them. -/
theorem Enough.space (enough : m.Enough (k + 1)) (backed : m.Backed) :
    m.heap.k_heap_end + PAGE_SIZE ≤ HEAP_START + HEAP_ROOM := by
  have counted : m.paging.pages.LowRamFreeCount.toNat = m.paging.pages.freePages.card :=
    backed.kept.counted
  unfold Enough at enough
  obtain ⟨f, some_free⟩ := Finset.card_pos.mp (show 0 < m.paging.pages.freePages.card by omega)
  exact backed.space some_free

theorem Enough.room (enough : m.Enough (k + 1)) (backed : m.Backed) :
    m.heap.k_heap_end + PAGE_SIZE < 2 ^ 32 :=
  Nat.lt_of_le_of_lt (enough.space backed) (by decide)

/-- With enough frames the heap grows as it does where frames play no part. -/
theorem grow_enough {h' : Heap} (backed : m.Backed) (enough : m.Enough (k + 1))
    (grown : m.heap.grow m.heap.k_heap_end = some h') :
    ∃ m' f, m.grow m.heap.k_heap_end = some m' ∧ Grown m m' f ∧ m'.Backed ∧ m'.Enough k ∧
      m'.heap = h' := by
  have counted : k + 1 + (m.newTables (k + 1)).card ≤ m.paging.pages.freePages.card := by
    rw [← backed.kept.counted]
    exact enough
  have space := enough.space backed
  have below := (dir_of_heap backed.low (by unfold PAGE_SIZE at space; omega)).2
  have frames : (if present (m.paging.pde (m.heap.k_heap_end >>> 22)) then 1 else 2) ≤
      m.paging.pages.freePages.card := by
    split
    · omega
    · rename_i absent
      have member : m.heap.k_heap_end >>> 22 ∈ m.newTables (k + 1) :=
        mem_newTables.mpr ⟨⟨0, by omega, rfl⟩, absent⟩
      have pos := Finset.card_pos.mpr ⟨_, member⟩
      omega
  obtain ⟨addr, pages, r, s, alloc, mapped⟩ := map_new_runs
    (PAGE_WRITE ||| PAGE_USER) backed.kept below frames
  obtain ⟨g, page⟩ := map_new backed.kept below alloc mapped
  have run : m.grow m.heap.k_heap_end = some ({ m with paging := s }.withHeap h') :=
    grow_mapped alloc mapped (page.here ▸ rfl) grown
  obtain ⟨f, given⟩ := grow_given backed run
  have backed' := (given.backed backed).1
  exact ⟨_, f, run, given, backed', (given.enough_iff backed backed').mpr enough, rfl⟩

/-- With enough frames the last chunk grows by a page. -/
theorem grow_runs (rep : m.heap.Rep (pre ++ [t])) (free : t.free) (backed : m.Backed)
    (enough : m.Enough (k + 1)) : ∃ m' f, m.grow m.heap.k_heap_end = some m' ∧ Grown m m' f ∧
      m'.Backed ∧ m'.Enough k ∧ m'.heap.Rep (pre ++ [{ t with size := t.size + PAGE_SIZE }]) := by
  obtain ⟨h', grown, -, rep'⟩ := grow_last rep free m.heap.k_heap_end (enough.room backed)
  obtain ⟨m', f, run, given, backed', enough', same⟩ := grow_enough backed enough grown
  exact ⟨m', f, run, given, backed', enough', same ▸ rep'⟩

/-! ## The two calls -/

/-- One activation of `_kmalloc`. -/
theorem kmalloc_step (rep : m.heap.Rep cs) (aligned : align n = a) (small : a * 2 < 2 ^ 32)
    (fuel : Nat) : m._kmalloc (fuel + 1) n = match cs.find? fun c => c.free && a * 2 ≤ c.size with
      | some c => m.take a c.addr
      | none => (m.grow m.heap.k_heap_end).bind fun m' => m'._kmalloc fuel a := by
  have found := fit_spec rep small [] cs rfl (Nat.le_of_lt rep.length_lt)
  have head := get_head_eq rep.list
  simp only [_kmalloc, head, aligned, found, Option.bind_eq_bind, Option.bind_some]
  cases cs.find? fun c => c.free && a * 2 ≤ c.size <;> rfl

/-- Where every page of the heap is mapped, so is the header of a rest. -/
theorem take_inside
    (mapped : ∀ v, HEAP_START ≤ v → v < m.heap.k_heap_end → (m.paging.walk v).isSome)
    (rep : m.heap.Rep cs) {x : Chunk} (mem : x ∈ cs) (wide : 16 ≤ x.size) {ptr : Nat} {h' : Heap}
    (taken : m.heap.take a x.addr = some (ptr, h')) :
    m.take a x.addr = some (ptr, { m with heap := h' }) := by
  have stop := rep.stop_le mem
  have bounded := rep.bounded
  refine take_mapped taken fun room => ?_
  have rest : sub32 (m.heap.size x.addr) sizeofChunk = x.size - 16 := by
    rw [rep.size x mem, sizeofChunk, sub32_eq (by omega) (by omega)]
  rw [rest] at room
  have new : add32 (add32 x.addr sizeofChunk) a = x.addr + 16 + a := by
    rw [add32_sizeofChunk (by omega), add32_eq (by omega)]
  rw [new]
  exact mapped _ (by omega) (by omega)

theorem Backed.present (backed : m.Backed) {v : Nat} (low : HEAP_START ≤ v)
    (high : v < m.heap.k_heap_end) : (m.paging.walk v).isSome := by
  obtain ⟨f, walk, -⟩ := backed.mapped v low high
  rw [walk]
  rfl

/-- The block of a `_kmalloc` is carved out of the chunk `x`, `g` pages later. -/
structure Carved (m m₁ : Memory) (pre : List Chunk) (t : Chunk) (a : Nat) (h' : Heap) (g : Nat)
    (x : Chunk) (front back : List Chunk) : Prop where
  extended : Extended m m₁
  backed : m₁.Backed
  heap_end : h'.k_heap_end = m.heap.k_heap_end + PAGE_SIZE * g
  same : h'.k_heap_end = m₁.heap.k_heap_end
  chunks : pre ++ [{ t with size := t.size + PAGE_SIZE * g }] = front ++ x :: back
  free : x.free
  rep : h'.Rep (front ++ (carve a x ++ back))

theorem kmalloc_fits_carves (rep : m.heap.Rep (pre ++ [t])) (backed : m.Backed)
    (aligned : align n = a) (pos : 16 ≤ a) (small : a * 2 < 2 ^ 32)
    (fits : ∃ c ∈ pre ++ [t], c.free ∧ a * 2 ≤ c.size) (fuel : Nat) :
    ∃ h' x front back, Carved m m pre t a h' 0 x front back ∧
      m._kmalloc (fuel + 1) n = some (x.addr + 16, { m with heap := h' }) := by
  have step := kmalloc_step rep aligned small fuel
  cases first : (pre ++ [t]).find? fun c => c.free && a * 2 ≤ c.size with
  | none =>
      obtain ⟨c, mem, free, wide⟩ := fits
      have missed := List.find?_eq_none.mp first c mem
      simp [free, wide] at missed
  | some x =>
      have chosen := List.find?_some first
      simp only [Bool.and_eq_true, decide_eq_true_eq] at chosen
      obtain ⟨front, back, cut⟩ := List.append_of_mem (List.mem_of_find?_eq_some first)
      obtain ⟨h', taken, rep'⟩ := take_spec (cut ▸ rep) chosen.1 pos chosen.2
      refine ⟨h', x, front, back, ⟨.refl m, backed, take_end taken, take_end taken, cut, chosen.1,
          rep'⟩, ?_⟩
      rw [step, first]
      exact take_inside (fun _ => backed.present) rep (List.mem_of_find?_eq_some first)
          (by omega) taken

/-- A chunk fits, or there are frames for the `k` pages that the last chunk lacks. The
    induction is on the pages still to come. -/
theorem kmalloc_carves (k : Nat) (rep : m.heap.Rep (pre ++ [t])) (free : t.free)
    (backed : m.Backed) (aligned : align n = a) (stable : align a = a) (pos : 16 ≤ a)
    (small : a * 2 < 2 ^ 32) (steps : k < fuel)
    (enough : (∃ c ∈ pre ++ [t], c.free ∧ a * 2 ≤ c.size) ∨
      a * 2 ≤ t.size + PAGE_SIZE * k ∧ m.Enough k) :
    ∃ m₁ h' g x front back, Carved m m₁ pre t a h' g x front back ∧
      m._kmalloc fuel n = some (x.addr + 16, { m₁ with heap := h' }) := by
  obtain ⟨fuel, rfl⟩ : ∃ k, fuel = k + 1 := ⟨fuel - 1, by omega⟩
  induction k generalizing m t n fuel with
  | zero =>
      have fits : ∃ c ∈ pre ++ [t], c.free ∧ a * 2 ≤ c.size := by
        cases enough with
        | inl fits => exact fits
        | inr last => exact ⟨t, by simp, free, last.1⟩
      obtain ⟨h', x, front, back, carved, run⟩ :=
        kmalloc_fits_carves rep backed aligned pos small fits fuel
      exact ⟨m, h', 0, x, front, back, carved, run⟩
  | succ k ih =>
      by_cases fits : ∃ c ∈ pre ++ [t], c.free ∧ a * 2 ≤ c.size
      · obtain ⟨h', x, front, back, carved, run⟩ :=
          kmalloc_fits_carves rep backed aligned pos small fits fuel
        exact ⟨m, h', 0, x, front, back, carved, run⟩
      · obtain ⟨wide, frames⟩ := enough.resolve_left fits
        obtain ⟨m₁, f, grown, given, backed₁, enough₁, rep₁⟩ := grow_runs rep free backed frames
        obtain ⟨fuel, rfl⟩ : ∃ k, fuel = k + 1 := ⟨fuel - 1, by omega⟩
        have page : PAGE_SIZE * (k + 1) = PAGE_SIZE + PAGE_SIZE * k := by
          rw [Nat.mul_succ, Nat.add_comm]
        obtain ⟨m₂, h', g, x, front, back, carved, run⟩ := ih rep₁ free backed₁ stable
          (.inr ⟨by simp only; omega, enough₁⟩) fuel (by omega)
        refine ⟨m₂, h', g + 1, x, front, back, ?_, ?_⟩
        · have pages : PAGE_SIZE * (g + 1) = PAGE_SIZE + PAGE_SIZE * g := by
            rw [Nat.mul_succ, Nat.add_comm]
          have heap_end := carved.heap_end
          have chunks := carved.chunks
          rw [given.heap_end] at heap_end
          rw [Nat.add_assoc] at heap_end chunks
          exact { carved with
            extended := (given.extended backed).trans carved.extended backed.low
            heap_end := by rw [pages, heap_end]
            chunks := by rw [pages, chunks] }
        · rw [kmalloc_step rep aligned small]
          have none : (pre ++ [t]).find? (fun c => c.free && a * 2 ≤ c.size) = none := by
            rw [List.find?_eq_none]
            push Not at fits
            intro c mem
            simpa using fits c mem
          simp only [none, grown, Option.bind_some, run]

/-- The heap is as before, and all that is missing of the free frames is new tables. -/
structure Restored (m m' : Memory) (cs : List Chunk) : Prop where
  chunks : m'.heap.Rep cs
  heap_end : m'.heap.k_heap_end = m.heap.k_heap_end
  frames : ∀ f, f ∈ m'.paging.pages.freePages ↔
    f ∈ m.paging.pages.freePages ∧ ¬ NewTable m.paging m'.paging f

/-- What was added is cut off again. -/
theorem surplus_added (small : t.size ≤ PAGE_SIZE) (pos : 0 < t.size) (g : Nat) :
    surplus (t.size + PAGE_SIZE * g) = g := by
  unfold surplus PAGE_SIZE at *
  omega

theorem Carved.restored {h' : Heap} {g : Nat} {x : Chunk} {front back : List Chunk}
    (carved : Carved m m₁ pre t a h' g x front back) (isolated : Isolated (pre ++ [t]))
    (free : t.free) (pos : 0 < t.size) (small : t.size ≤ PAGE_SIZE) :
    ∃ m', { m₁ with heap := h' }._kfree (x.addr + 16) = some m' ∧ Restored m m' (pre ++ [t]) := by
  have grown : Isolated (front ++ x :: back) := carved.chunks ▸ isolated_resize isolated _
  obtain ⟨size, rest, block, whole⟩ := carve_freed (a := a) grown carved.free
  have rep := carved.rep
  rw [block] at rep
  obtain ⟨h₁, ms, z, zs, cut, zf, live, rep₁, same, run⟩ :=
    kfree_trims (m := { m₁ with heap := h' }) rep
  rw [← coalesceAll_front live, ← cut, whole, ← carved.chunks] at rep₁
  obtain ⟨m', trimmed, backed', contracted⟩ := trimTail_kept (m := { m₁ with heap := h₁ }) rep₁
    (carved.backed.with_heap (same.trans carved.same))
  -- the last chunk is cut by the pages that were added
  have heap : m'.heap = h₁.cut t.addr g := by
    have result := trimTail_heap trimmed
    rw [trimTail_eq rep₁ free (by simp), surplus_added small pos] at result
    exact (Option.some_inj.mp result).symm
  have last := cut_rep rep₁ free (k := g) (by simp only; omega)
  simp only [Nat.add_sub_cancel] at last
  have heap_end : m'.heap.k_heap_end = m.heap.k_heap_end := by
    have lower : (h₁.cut t.addr g).k_heap_end = h₁.k_heap_end - PAGE_SIZE * g := rfl
    have before := carved.heap_end
    rw [heap, lower, same]
    simp only
    omega
  refine ⟨m', run.trans trimmed, heap ▸ last, heap_end, fun f => ?_⟩
  have entries (i : Nat) : m'.paging.pde i = m₁.paging.pde i := contracted.entries i
  have tables : NewTable m.paging m'.paging f ↔ NewTable m.paging m₁.paging f := by
    unfold NewTable
    simp only [entries]
  have away : f ∈ m'.paging.pages.freePages → ¬ NewTable m.paging m'.paging f := by
    rintro mem ⟨i, below, -, there, names⟩
    exact backed'.kept.fresh f mem i below there names
  have returned := contracted.frames f
  rw [heap_end] at returned
  have upper : h₁.k_heap_end = m₁.heap.k_heap_end := same.trans carved.same
  simp only [upper] at returned
  rw [carved.extended.frames, ← or_assoc, ← returned, ← tables]
  exact ⟨fun mem => ⟨.inl mem, away mem⟩, fun ⟨either, old⟩ => either.resolve_right old⟩

/-- Freeing the block that was allocated last undoes the allocation, whatever chunk it was
    carved from and however many pages were added for it. -/
theorem kmalloc_kfree (rep : m.heap.Rep (pre ++ [t])) (backed : m.Backed)
    (isolated : Isolated (pre ++ [t])) (free : t.free) (size : 16 ≤ t.size ∧ t.size ≤ PAGE_SIZE)
    (range : 1 ≤ n ∧ n ≤ 2 ^ 30)
    (enough : (∃ c ∈ pre ++ [t], c.free ∧ align n * 2 ≤ c.size) ∨
      m.Enough (Heap.pages (align n * 2 - t.size))) :
    ∃ ptr m₁ m', m._kmalloc stepBound n = some (ptr, m₁) ∧ m₁._kfree ptr = some m' ∧
      Restored m m' (pre ++ [t]) := by
  obtain ⟨-, least, most, stable⟩ := align_bounds range.1 range.2
  obtain ⟨k, steps, wide⟩ : ∃ k < stepBound, (∃ c ∈ pre ++ [t], c.free ∧ align n * 2 ≤ c.size) ∨
      align n * 2 ≤ t.size + PAGE_SIZE * k ∧ m.Enough k := by
    cases enough with
    | inl fits =>
        refine ⟨0, ?_, .inl fits⟩
        unfold stepBound
        decide
    | inr frames =>
        refine ⟨_, ?_, .inr ⟨?_, frames⟩⟩
        · unfold Enough at frames
          have count := m.paging.pages.LowRamFreeCount.isLt
          unfold stepBound
          omega
        · have lacking := le_pages (align n * 2 - t.size)
          omega
  obtain ⟨m₁, h', g, x, front, back, carved, run⟩ := kmalloc_carves k rep free backed rfl stable
    least (by omega) steps wide
  obtain ⟨m', freed, restored⟩ := carved.restored isolated free (by omega) size.2
  exact ⟨_, _, m', run, freed, restored⟩

/-- On the heap of one free page, a block that takes two more. -/
theorem kmalloc_kfree_grown : ∃ m ptr m₁ m', (ready few).grow HEAP_START = some m ∧
    m._kmalloc stepBound 5000 = some (ptr, m₁) ∧ m₁._kfree ptr = some m' ∧
    Restored m m' [⟨HEAP_START, 4080, true⟩] := by
  have ends : ((ready few).grow HEAP_START).map (fun m => decide (m.Enough 2)) = some true := by
    decide +kernel
  obtain ⟨m, grown, enough⟩ := Option.map_eq_some_iff.mp ends
  have empty : (ready few).heap.Rep [] := kheap_init_rep _
  obtain ⟨h', page, -, rep⟩ := grow_new empty rfl (by decide)
  have heap := grow_heap grown
  have start : (ready few).heap.grow HEAP_START = some h' := page
  rw [start] at heap
  cases heap
  have backed := ready_start.backed few_kept
  obtain ⟨f, given⟩ := grow_given backed grown
  have chunk : m.heap.Rep ([] ++ [⟨HEAP_START, 4080, true⟩]) := rep
  have backed₁ := (given.backed backed).1
  have size : 16 ≤ 4080 ∧ 4080 ≤ PAGE_SIZE := by decide
  have range : 1 ≤ 5000 ∧ 5000 ≤ 2 ^ 30 := by decide
  have two : Heap.pages (align 5000 * 2 - 4080) = 2 := by decide +kernel
  have frames : m.Enough (Heap.pages (align 5000 * 2 - 4080)) := by
    rw [two]
    exact of_decide_eq_true enough
  obtain ⟨ptr, m₁, m', run, freed, restored⟩ :=
    kmalloc_kfree chunk backed₁ (.singleton _) rfl size range (.inr frames)
  exact ⟨m, ptr, m₁, m', grown, run, freed, restored⟩

end Memory

end Krypton
