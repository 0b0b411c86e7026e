import Krypton.Heap.Growth

/-! # Running out of frames

A request that needs more frames than there are makes `_kmalloc` add one page
after another until `pa_alloc` panics. No activation returns NULL, and the pages
that were added stay.
-/

namespace Krypton

open LinkStore Tiling

namespace Heap

/-- The free list is `pre ++ [t]`, and `t` stays too small for `a` bytes while `k` pages are
    added to it. Where `t` ends plays no part. -/
structure Narrow (h : Heap) (pre : List Nat) (t a k : Nat) : Prop where
  list : IsList h.links () (pre ++ [t])
  length : pre.length < stepBound
  magic : ∀ x ∈ pre ++ [t], h.magic x = CHUNK_MAGIC
  others : ∀ x ∈ pre, h.size x < a * 2
  last : h.size t + PAGE_SIZE * k < a * 2

variable {h : Heap} {cs : List Chunk} {pre : List Nat} {c : Chunk} {t a k : Nat}

/-- The search passes a list of small chunks. -/
theorem fit_none (small : a * 2 < 2 ^ 32) (xs ys : List Nat) (list : IsList h.links () (xs ++ ys))
    (magic : ∀ y ∈ ys, h.magic y = CHUNK_MAGIC) (narrow : ∀ y ∈ ys, h.size y < a * 2) {fuel : Nat}
    (enough : ys.length ≤ fuel) : h.fit a fuel (orNull ys.head?) = some none := by
  induction ys generalizing xs fuel with
  | nil => cases fuel <;> rfl
  | cons y ys ih =>
      obtain ⟨fuel, rfl⟩ : ∃ k, fuel = k + 1 := ⟨fuel - 1, by simp at enough; omega⟩
      have next := get_next_eq list
      have first := magic y List.mem_cons_self
      have less : h.size y < a * 2 % 2 ^ 32 := by
        rw [Nat.mod_eq_of_lt small]
        exact narrow y List.mem_cons_self
      have rest := ih (xs ++ [y]) (by simpa using list)
        (fun z mem => magic z (List.mem_cons_of_mem y mem))
        (fun z mem => narrow z (List.mem_cons_of_mem y mem)) (Nat.le_of_succ_le_succ enough)
      simp only [List.head?_cons, orNull_some, fit]
      rw [if_neg (not_not.mpr first), if_pos less, next]
      exact rest

theorem Narrow.sizes (narrow : Narrow h pre t a k) : ∀ x ∈ pre ++ [t], h.size x < a * 2 := by
  intro x mem
  cases List.mem_append.mp mem with
  | inl mem => exact narrow.others x mem
  | inr mem =>
      cases List.mem_singleton.mp mem
      exact Nat.lt_of_le_of_lt (Nat.le_add_right _ _) narrow.last

/-- Growth adds a page to the last chunk of the free list. -/
theorem Narrow.grow_eq (narrow : Narrow h pre t a k) (e : Nat) :
    h.grow e = some { h with
      k_heap_end := add32 h.k_heap_end PAGE_SIZE
      size := Function.update h.size t (add32 (h.size t) PAGE_SIZE) } := by
  have tail := get_tail_eq narrow.list
  rw [List.getLast?_concat] at tail
  simp [grow, tail, setSize]

theorem Narrow.grow (narrow : Narrow h pre t a (k + 1)) (small : a * 2 < 2 ^ 32) {e : Nat}
    {h' : Heap}
    (grown : h.grow e = some h') : Narrow h' pre t a k := by
  rw [narrow.grow_eq] at grown
  cases grown
  obtain ⟨list, length, magic, others, last⟩ := narrow
  rw [Nat.mul_succ] at last
  have sum : add32 (h.size t) PAGE_SIZE = h.size t + PAGE_SIZE := add32_eq (by omega)
  have apart (x : Nat) (mem : x ∈ pre) : x ≠ t := by
    rintro rfl
    have distinct := List.nodup_append.mp list.nodup
    exact distinct.2.2 x mem x List.mem_cons_self rfl
  refine ⟨list, length, magic, fun x mem => ?_, ?_⟩
  · simp only [Function.update_of_ne (apart x mem)]
    exact others x mem
  · simp only [Function.update_self, sum]
    omega

/-- The free list of a heap whose last free chunk is `c`. -/
theorem Rep.narrow (rep : h.Rep cs) {cs' : List Chunk} (cut : cs.filter (·.free) = cs' ++ [c])
    (full : ∀ d ∈ cs, d.free → d.size < a * 2) (last : c.size + PAGE_SIZE * k < a * 2) :
    Narrow h (cs'.map (·.addr)) c.addr a k := by
  have addrs : frees cs = cs'.map (·.addr) ++ [c.addr] := by
    rw [frees, cut, List.map_append, List.map_singleton]
  have listed (x : Nat) (mem : x ∈ cs'.map (·.addr) ++ [c.addr]) :
      ∃ d ∈ cs, d.free ∧ d.addr = x := mem_frees.mp (addrs ▸ mem)
  have inside : c ∈ cs.filter (·.free) := cut ▸ by simp
  refine ⟨addrs ▸ rep.list, ?_, fun x mem => ?_, fun x mem => ?_, ?_⟩
  · have shorter := List.length_filter_le (·.free) cs
    have bound := rep.length_lt
    rw [cut, List.length_append, List.length_singleton] at shorter
    rw [List.length_map]
    omega
  · obtain ⟨d, there, -, rfl⟩ := listed x mem
    exact rep.magic d there
  · obtain ⟨d, there, free, rfl⟩ := listed x (List.mem_append_left _ mem)
    rw [rep.size d there]
    exact full d there free
  · rw [rep.size c (List.mem_of_mem_filter inside)]
    exact last

end Heap

namespace Memory

open Heap Paging

variable {m m₁ m' : Memory} {cs : List Chunk} {pre : List Nat} {t a n fuel k : Nat}

/-- What the activations of `_kmalloc` do before a chunk fits. -/
def growths : Nat → Memory → Option Memory
  | 0, m => some m
  | j + 1, m => (m.grow m.heap.k_heap_end).bind (growths j)

/-- The next growth calls `pa_alloc` where no frame is free, for the page or for its table. -/
def OutOfFrames (m : Memory) : Prop :=
  m.paging.pages.LowRamFreeCount = 0 ∨
    ¬ present (m.paging.pde (m.heap.k_heap_end >>> 22)) ∧
      ∃ frame pages, m.paging.pages.pa_alloc = some (frame, pages) ∧ pages.LowRamFreeCount = 0

/-- The call returns NULL, and heap, page mappings and free frames are as before. -/
def Refused (m : Memory) (cs : List Chunk) (n : Nat) : Prop :=
  ∃ fuel m', m._kmalloc fuel n = some (0, m') ∧ m'.heap.Rep cs ∧
    m'.heap.k_heap_end = m.heap.k_heap_end ∧ m'.paging.walk = m.paging.walk ∧
    m'.paging.pages = m.paging.pages

/-- No chunk fits `a` bytes: the heap has to grow, which the list of chunks allows. -/
structure Hungry (m : Memory) (a : Nat) : Prop where
  grows : ∃ h', m.heap.grow m.heap.k_heap_end = some h'
  step : ∀ n, align n = a → ∀ fuel, m._kmalloc (fuel + 1) n =
    (m.grow m.heap.k_heap_end).bind fun m' => m'._kmalloc fuel a

/-- After at most `k` pages `pa_alloc` panics, and so the call never returns. -/
structure Exhausted (m : Memory) (a k : Nat) : Prop where
  panics : ∃ j ≤ k, ∃ m₁, growths j m = some m₁ ∧ m₁.OutOfFrames
  fails : ∀ n, align n = a → ∀ fuel, m._kmalloc fuel n = none

theorem hungry_narrow (narrow : Narrow m.heap pre t a k) (small : a * 2 < 2 ^ 32) : m.Hungry a := by
  refine ⟨⟨_, narrow.grow_eq _⟩, fun n aligned fuel => ?_⟩
  have length : (pre ++ [t]).length ≤ stepBound := by
    rw [List.length_append]
    exact narrow.length
  have found : m.heap.fit a stepBound (orNull (pre ++ [t]).head?) = some none :=
    fit_none small [] _ narrow.list narrow.magic narrow.sizes length
  have head := get_head_eq narrow.list
  simp only [_kmalloc, head, aligned, found, Option.bind_eq_bind, Option.bind_some]

/-- A growth that does not return ran out of frames. -/
theorem outOfFrames (hungry : m.Hungry a) (backed : m.Backed)
    (failed : m.grow m.heap.k_heap_end = none) : m.OutOfFrames := by
  by_contra more
  obtain ⟨one, two⟩ := not_or.mp more
  obtain ⟨h', grows⟩ := hungry.grows
  have counted : m.paging.pages.Counted := backed.kept.counted
  obtain ⟨p, free, -, alloc⟩ := PageMap.pa_alloc_spec counted one
  have space := backed.space free
  have below := (dir_of_heap backed.low (by unfold PAGE_SIZE at space; omega)).2
  have frames : (if present (m.paging.pde (m.heap.k_heap_end >>> 22)) then 1 else 2) ≤
      m.paging.pages.freePages.card := by
    split
    · exact Finset.card_pos.mpr ⟨p, free⟩
    · rename_i absent
      have more : m.paging.pages.LowRamFreeCount ≠ 1 := fun last =>
        two ⟨absent, _, _, alloc, by rw [last]; rfl⟩
      have first := mt (BitVec.eq_of_toNat_eq (y := 0)) one
      have second := mt (BitVec.eq_of_toNat_eq (y := 1)) more
      rw [← counted]
      change _ ≠ 0 at first
      change _ ≠ 1 at second
      omega
  obtain ⟨addr, pages, r, s, alloc, mapped⟩ := map_new_runs
    (PAGE_WRITE ||| PAGE_USER) backed.kept below frames
  obtain ⟨g, page⟩ := map_new backed.kept below alloc mapped
  rw [grow_mapped alloc mapped (page.here ▸ rfl) grows] at failed
  cases failed

/-- One activation: out of frames, or one page more. -/
theorem Exhausted.of_step (hungry : m.Hungry a) (backed : m.Backed) (stable : align a = a)
    (next : ∀ m', m.grow m.heap.k_heap_end = some m' → ∃ j < k, m'.Exhausted a j) :
    m.Exhausted a k := by
  cases grown : m.grow m.heap.k_heap_end with
  | none =>
      refine ⟨⟨0, Nat.zero_le k, m, rfl, outOfFrames hungry backed grown⟩, fun n aligned fuel => ?_⟩
      cases fuel with
      | zero => rfl
      | succ fuel => rw [hungry.step n aligned, grown, Option.bind_none]
  | some m' =>
      obtain ⟨j, less, ⟨i, le, m₁, more, out⟩, fails⟩ := next m' grown
      refine ⟨⟨i + 1, by omega, m₁, ?_, out⟩, fun n aligned fuel => ?_⟩
      · rw [growths, grown, Option.bind_some]
        exact more
      · cases fuel with
        | zero => rfl
        | succ fuel =>
            rw [hungry.step n aligned, grown, Option.bind_some]
            exact fails a stable fuel

/-- The frames run out before the chunk is wide enough. The induction is on the pages that it
    would need. -/
theorem narrow_exhausted (narrow : Narrow m.heap pre t a k) (small : a * 2 < 2 ^ 32)
    (stable : align a = a) (backed : m.Backed) (lacking : ¬ m.Enough (k + 1)) :
    m.Exhausted a k := by
  induction k generalizing m with
  | zero =>
      refine .of_step (hungry_narrow narrow small) backed stable fun m' grown => ?_
      obtain ⟨f, given⟩ := grow_given backed grown
      have enough : m'.Enough 0 := by simp [Enough, newTables]
      exact absurd ((given.enough_iff backed (given.backed backed).1).mp enough) lacking
  | succ k ih =>
      refine .of_step (hungry_narrow narrow small) backed stable fun m' grown => ?_
      obtain ⟨f, given⟩ := grow_given backed grown
      have backed' := (given.backed backed).1
      refine ⟨k, Nat.lt_succ_self k, ih (narrow.grow small (grow_heap grown)) backed' fun enough =>
          ?_⟩
      exact lacking ((given.enough_iff backed backed').mp enough)

/-- Where there is no free chunk, the first page becomes one. -/
theorem empty_exhausted (rep : m.heap.Rep cs) (empty : cs.filter (·.free) = [])
    (small : a * 2 < 2 ^ 32) (stable : align a = a) (backed : m.Backed)
    (last : ∀ j < k, PAGE_SIZE * (j + 1) - 16 < a * 2) (lacking : ¬ m.Enough (k + 1)) :
    m.Exhausted a k := by
  have frees : frees cs = [] := List.map_eq_nil_iff.mpr empty
  have full (c : Chunk) (mem : c ∈ cs) (free : c.free) : c.size < a * 2 := by
    have listed := List.mem_filter.mpr ⟨mem, free⟩
    rw [empty] at listed
    cases listed
  have high := backed.high
  have most := backed.room
  have room : m.heap.k_heap_end + PAGE_SIZE < 2 ^ 32 := by
    unfold HEAP_START HEAP_ROOM at most
    unfold PAGE_SIZE
    omega
  obtain ⟨h', page, -, rep'⟩ := grow_new rep frees room
  have hungry : m.Hungry a := ⟨⟨h', page⟩, fun n aligned => kmalloc_full rep aligned small full⟩
  refine .of_step hungry backed stable fun m' grown => ?_
  obtain ⟨f, given⟩ := grow_given backed grown
  have backed' := (given.backed backed).1
  have lacking' : ¬ m'.Enough k := fun enough =>
    lacking ((given.enough_iff backed backed').mp enough)
  have heap := grow_heap grown
  rw [page] at heap
  cases heap
  cases k with
  | zero =>
      have enough : m'.Enough 0 := by simp [Enough, newTables]
      exact absurd enough lacking'
  | succ k =>
      have short := last k (Nat.lt_succ_self k)
      unfold PAGE_SIZE at short
      let page : Chunk := ⟨m.heap.k_heap_end, PAGE_SIZE - 16, true⟩
      have cut : (cs ++ [page]).filter (·.free) = [] ++ [page] := by simp [empty, page]
      have last' : PAGE_SIZE - 16 + PAGE_SIZE * k < a * 2 := by
        unfold PAGE_SIZE
        omega
      have narrow := rep'.narrow (a := a) cut (fun c mem free => ?_) last'
      · exact ⟨k, Nat.lt_succ_self k, narrow_exhausted narrow small stable backed' lacking'⟩
      · cases List.mem_append.mp mem with
        | inl mem => exact full c mem free
        | inr mem =>
            cases List.mem_singleton.mp mem
            exact Nat.lt_of_le_of_lt (Nat.le_add_right ..) last'

/-- Where memory runs out, the call does not return at all, with NULL or without. -/
theorem kmalloc_never_refuses (formed : m.heap.WellFormed cs) (backed : m.Backed)
    (range : 1 ≤ n ∧ n ≤ 2 ^ 30) (rounded : a = (n + 15) / 16 * 16)
    (full : ∀ c ∈ cs, c.free → c.size < 2 * a) (least : IsLeast (Suffices cs a) k)
    (lacking : ¬ m.Enough k) :
    ¬ m.Refused cs n ∧ m.Exhausted a (k - 1) := by
  obtain ⟨-, pos, most, stable⟩ := align_bounds range.1 range.2
  have aligned := (align_eq n range.2).trans rounded.symm
  rw [aligned] at pos most stable
  obtain ⟨⟨one, wide⟩, minimal⟩ := least
  obtain ⟨k, rfl⟩ : ∃ j, k = j + 1 := ⟨k - 1, by omega⟩
  have short (j : Nat) (first : 1 ≤ j) (less : j < k + 1) : grownSize cs j < a * 2 := by
    by_contra wide
    exact Nat.not_le_of_lt less (minimal ⟨first, by omega⟩)
  have narrow (c : Chunk) (mem : c ∈ cs) (free : c.free) : c.size < a * 2 := by
    have less := full c mem free
    omega
  have exhausted : m.Exhausted a k := by
    cases List.eq_nil_or_concat' (cs.filter (·.free)) with
    | inl empty =>
        refine empty_exhausted formed.rep empty (by omega) stable backed (fun j less => ?_) lacking
        have less := short (j + 1) (by omega) (by omega)
        simpa [grownSize, empty, sizeofChunk] using less
    | inr some_free =>
        obtain ⟨cs', c, cut⟩ := some_free
        have mem : c ∈ cs.filter (·.free) := cut ▸ by simp
        refine narrow_exhausted (formed.rep.narrow cut narrow ?_) (by omega) stable backed lacking
        cases k with
        | zero => exact narrow c (List.mem_of_mem_filter mem) (List.of_mem_filter mem)
        | succ k =>
            have less := short (k + 1) (by omega) (by omega)
            simpa [grownSize, cut] using less
  refine ⟨?_, exhausted⟩
  rintro ⟨fuel, m', run, -⟩
  rw [exhausted.fails n aligned fuel] at run
  cases run

/-- Eight pages give a chunk of just less than twice the size. -/
theorem nine_needed : IsLeast (Suffices [] 16384) 9 := by
  refine ⟨⟨by decide, by decide⟩, fun j enough => ?_⟩
  have wide : 2 * 16384 ≤ PAGE_SIZE * j - sizeofChunk := enough.2
  unfold PAGE_SIZE sizeofChunk at wide
  omega

theorem kmalloc_never_refuses_few :
    ¬ (ready few).Refused [] 16384 ∧ (ready few).Exhausted 16384 8 := by
  have formed : (ready few).heap.WellFormed [] := ⟨kheap_init_rep _, by simp [Whole]⟩
  have range : 1 ≤ 16384 ∧ 16384 ≤ 2 ^ 30 := by decide
  have lacking : ¬ (ready few).Enough 9 := by decide +kernel
  exact kmalloc_never_refuses formed (ready_start.backed few_kept) range rfl
      (by simp) nine_needed lacking

/-- With eight free frames, a request that takes nine pages. -/
theorem kmalloc_panics : (ready few).heap.WellFormed [] ∧ (ready few).Backed ∧
    IsLeast (Suffices [] 16384) 9 ∧ (ready few).paging.pages.LowRamFreeCount = 8 ∧
    ¬ (ready few).Refused [] 16384 := by
  have rep : (ready few).heap.Rep [] := kheap_init_rep _
  have backed := ready_start.backed few_kept
  refine ⟨⟨rep, by simp [Whole]⟩, backed, nine_needed, rfl, ?_⟩
  have exhausted := empty_exhausted (a := 16384) (k := 8) rep rfl (by decide) (by decide)
    backed (by decide) (by decide +kernel)
  rintro ⟨fuel, m', run, -⟩
  rw [exhausted.fails 16384 (by decide) fuel] at run
  cases run

end Memory

end Krypton
