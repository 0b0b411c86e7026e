import Krypton.Heap.FirstFit
import Krypton.Heap.RoundTrip
import Mathlib.Order.Bounds.Defs

/-! # How far the heap grows

A request that no free chunk has twice the room for makes the last free chunk
grow, one page in each activation of `_kmalloc`, until it is wide enough. The
frames decide whether it gets that far.
-/

namespace Krypton

open LinkStore Tiling

namespace Memory

open Heap Paging

variable {m m₁ m' : Memory} {cs pre post : List Chunk} {t : Chunk} {a n fuel k : Nat}

/-- The size of the last free chunk once `k` pages were added. Where there is no free chunk,
    the first page becomes one. -/
def grownSize (cs : List Chunk) (k : Nat) : Nat :=
  match (cs.filter (·.free)).getLast? with
  | some t => t.size + PAGE_SIZE * k
  | none => PAGE_SIZE * k - sizeofChunk

/-- The numbers of pages that are enough for `a` bytes. -/
def Suffices (cs : List Chunk) (a : Nat) : Set Nat := {k | 1 ≤ k ∧ 2 * a ≤ grownSize cs k}

/-- Growth by `k` pages gave a block of at least `a` bytes. -/
structure GrownBy (m m' : Memory) (cs : List Chunk) (a k ptr : Nat) : Prop where
  heap_end : m'.heap.k_heap_end = m.heap.k_heap_end + PAGE_SIZE * k
  mapped : ∀ v, m.heap.k_heap_end ≤ v → v < m'.heap.k_heap_end →
    m.paging.walk v = none ∧ ∃ f ∈ m.paging.pages.freePages, m'.paging.walk v = some f
  keeps : Keeps m m'
  backed : m'.Backed
  block : ∃ cs' chunk size, ptr = chunk + 16 ∧ a ≤ size ∧ m'.heap.WellFormed cs' ∧
    (lives cs').Perm ((chunk, size) :: lives cs) ∧
    ∀ b ∈ lives cs, b.1 + 16 + b.2 ≤ chunk ∨ chunk + 16 + size ≤ b.1

/-! ## One activation -/

/-- Where no chunk fits widely, the heap grows and the call starts again. -/
theorem kmalloc_full (rep : m.heap.Rep cs) (aligned : align n = a) (small : a * 2 < 2 ^ 32)
    (full : ∀ c ∈ cs, c.free → c.size < a * 2) (fuel : Nat) :
    m._kmalloc (fuel + 1) n = (m.grow m.heap.k_heap_end).bind fun m' => m'._kmalloc fuel a := by
  have none : cs.find? (fun c => c.free && a * 2 ≤ c.size) = none := by
    rw [List.find?_eq_none]
    intro c mem
    simpa using full c mem
  rw [kmalloc_step rep aligned small, none]

/-- Where only the last chunk fits, it is taken. -/
theorem kmalloc_last_fits (rep : m.heap.Rep (pre ++ [t])) (free : t.free) (backed : m.Backed)
    (aligned : align n = a) (pos : 16 ≤ a) (small : a * 2 < 2 ^ 32)
    (others : ∀ c ∈ pre, c.free → c.size < a * 2) (wide : a * 2 ≤ t.size) (fuel : Nat) :
    ∃ h', Carved m m pre t a h' 0 t pre [] ∧
      m._kmalloc (fuel + 1) n = some (t.addr + 16, { m with heap := h' }) := by
  have before : pre.find? (fun c => c.free && a * 2 ≤ c.size) = none := by
    rw [List.find?_eq_none]
    intro c mem
    simpa using others c mem
  have found : (pre ++ [t]).find? (fun c => c.free && a * 2 ≤ c.size) = some t := by
    simp [List.find?_append, before, free, wide]
  obtain ⟨h', taken, rep'⟩ := take_spec rep free pos wide
  refine ⟨h', ⟨.refl m, backed, take_end taken, take_end taken, rfl, free, rep'⟩, ?_⟩
  rw [kmalloc_step rep aligned small, found]
  exact take_inside (fun _ => backed.present) rep (by simp) (by omega) taken

/-- The last chunk grows by just the `k` pages that it lacks. The induction is on them. -/
theorem kmalloc_last_grows (k : Nat) (rep : m.heap.Rep (pre ++ [t])) (free : t.free)
    (backed : m.Backed) (aligned : align n = a) (stable : align a = a) (pos : 16 ≤ a)
    (small : a * 2 < 2 ^ 32) (others : ∀ c ∈ pre, c.free → c.size < a * 2)
    (short : ∀ j < k, t.size + PAGE_SIZE * j < a * 2) (wide : a * 2 ≤ t.size + PAGE_SIZE * k)
    (steps : k < fuel) (enough : m.Enough k) :
    ∃ m₁ h', Carved m m₁ pre t a h' k { t with size := t.size + PAGE_SIZE * k } pre [] ∧
      m._kmalloc fuel n = some (t.addr + 16, { m₁ with heap := h' }) := by
  obtain ⟨fuel, rfl⟩ : ∃ j, fuel = j + 1 := ⟨fuel - 1, by omega⟩
  induction k generalizing m t n fuel with
  | zero =>
      obtain ⟨h', carved, run⟩ :=
        kmalloc_last_fits rep free backed aligned pos small others wide fuel
      exact ⟨m, h', carved, run⟩
  | succ k ih =>
      have narrow : ∀ c ∈ pre ++ [t], c.free → c.size < a * 2 := by
        intro c mem free
        cases List.mem_append.mp mem with
        | inl mem => exact others c mem free
        | inr mem =>
            cases List.mem_singleton.mp mem
            exact short 0 (Nat.succ_pos k)
      have page (j : Nat) : PAGE_SIZE * (j + 1) = PAGE_SIZE + PAGE_SIZE * j := by
        rw [Nat.mul_succ, Nat.add_comm]
      obtain ⟨m₁, f, grown, given, backed₁, enough₁, rep₁⟩ := grow_runs rep free backed enough
      obtain ⟨fuel, rfl⟩ : ∃ j, fuel = j + 1 := ⟨fuel - 1, by omega⟩
      have short₁ (j : Nat) (less : j < k) : t.size + PAGE_SIZE + PAGE_SIZE * j < a * 2 := by
        have before := short (j + 1) (Nat.succ_lt_succ less)
        rwa [page, ← Nat.add_assoc] at before
      have wide₁ : a * 2 ≤ t.size + PAGE_SIZE + PAGE_SIZE * k := by
        rwa [page, ← Nat.add_assoc] at wide
      obtain ⟨m₂, h', carved, run⟩ := ih rep₁ free backed₁ stable short₁ wide₁ enough₁ fuel
        (Nat.lt_of_succ_lt_succ steps)
      have heap_end := carved.heap_end
      rw [given.heap_end, Nat.add_assoc, ← page] at heap_end
      have sum : t.size + PAGE_SIZE + PAGE_SIZE * k = t.size + PAGE_SIZE * (k + 1) := by
        rw [page, Nat.add_assoc]
      simp only [sum] at carved
      refine ⟨m₂, h', ⟨(given.extended backed).trans carved.extended backed.low, carved.backed,
        heap_end, carved.same, rfl, free, carved.rep⟩, ?_⟩
      rw [kmalloc_full rep aligned small narrow, grown, Option.bind_some]
      exact run

/-! ## All of them -/

theorem whole_append {x : Chunk} (whole : Whole cs) (pos : 0 < x.size) (size : x.size % 16 = 0) :
    Whole (cs ++ [x]) := by
  intro c mem
  cases List.mem_append.mp mem with
  | inl mem => exact whole c mem
  | inr mem =>
      cases List.mem_singleton.mp mem
      exact ⟨pos, size⟩

/-- The block is carved out of the last chunk, which ends with the pages that were added. -/
theorem grown_by {h' : Heap} {x : Chunk} (backed : m.Backed) (extended : Extended m m₁)
    (backed₁ : m₁.Backed) (same : h'.k_heap_end = m₁.heap.k_heap_end)
    (heap_end : h'.k_heap_end = m.heap.k_heap_end + PAGE_SIZE * k) (free : x.free)
    (rep : h'.Rep (pre ++ (carve a x ++ []))) (pos : 16 ≤ a) (aligned : a % 16 = 0)
    (wide : a * 2 ≤ x.size) (whole : Whole (pre ++ [x])) (live : lives cs = lives pre) :
    GrownBy m { m₁ with heap := h' } cs a k (x.addr + 16) := by
  have last := whole x (by simp)
  obtain ⟨used, fresh⟩ := carve_used last.2 pos aligned (Nat.mul_comm a 2 ▸ wide)
  obtain ⟨size, fits, perm⟩ := @carve_lives pre [] x a free wide
  have old : lives (pre ++ x :: []) = lives cs := by
    rw [lives_append, lives_cons_free free, lives_nil, List.append_nil, live]
  rw [old] at perm
  refine ⟨heap_end, fun v above below => ?_, ?_, backed₁.with_heap same,
    pre ++ (carve a x ++ []), x.addr, size, rfl, fits, ⟨rep, whole.replace fresh⟩, perm,
        fun b mem => ?_⟩
  · simp only [same] at below
    have room := backed₁.room
    have high := backed₁.high
    have low := backed.low
    obtain ⟨f, walk, -⟩ := backed₁.mapped v (Nat.le_trans low above) below
    refine ⟨backed.unmapped v above (by omega), f, ?_, walk⟩
    exact (extended.frames f).mpr (.inr (.inl ⟨v, above, below, walk⟩))
  · intro v low below below'
    simp only [same] at below'
    exact extended.keeps v low below below'
  · have mine : (x.addr, size) ∈ lives (pre ++ (carve a x ++ [])) :=
      perm.mem_iff.mpr List.mem_cons_self
    have other : b ∈ lives (pre ++ (carve a x ++ [])) :=
      perm.mem_iff.mpr (List.mem_cons_of_mem _ mem)
    have distinct := perm.nodup_iff.mp (rep.tiles.lives_nodup (by decide))
    cases rep.tiles.trichotomy (mem_lives.mp other) (mem_lives.mp mine) with
    | inl same =>
        have equal : b = (x.addr, size) := by
          cases b
          cases same
          rfl
        exact absurd (equal ▸ mem) (List.nodup_cons.mp distinct).1
    | inr apart => exact apart

theorem kmalloc_grows_least (formed : m.heap.WellFormed cs) (backed : m.Backed)
    (range : 1 ≤ n ∧ n ≤ 2 ^ 30) (rounded : a = (n + 15) / 16 * 16)
    (full : ∀ c ∈ cs, c.free → c.size < 2 * a)
    (ends : (∃ c ∈ cs, c.free ∧ c.stop 16 = m.heap.k_heap_end) ∨ frees cs = [])
    (least : IsLeast (Suffices cs a) k) (enough : m.Enough k) :
    ∃ ptr m', m._kmalloc stepBound n = some (ptr, m') ∧ GrownBy m m' cs a k ptr := by
  obtain ⟨rep, whole⟩ := formed
  obtain ⟨-, pos, most, stable⟩ := align_bounds range.1 range.2
  have aligned := (align_eq n range.2).trans rounded.symm
  rw [aligned] at pos most stable
  have size : a % 16 = 0 := by omega
  have steps : k < stepBound := by
    have count := m.paging.pages.LowRamFreeCount.isLt
    unfold Enough at enough
    unfold stepBound
    omega
  obtain ⟨⟨one, wide⟩, minimal⟩ := least
  have short (j : Nat) (first : 1 ≤ j) (less : j < k) : grownSize cs j < a * 2 := by
    by_contra wide
    exact Nat.not_le_of_lt less (minimal ⟨first, by omega⟩)
  cases ends with
  | inl last =>
      obtain ⟨t, mem, free, stop⟩ := last
      obtain ⟨pre, post, rfl⟩ := List.append_of_mem mem
      cases rep.last stop
      have grown (j : Nat) : grownSize (pre ++ [t]) j = t.size + PAGE_SIZE * j := by
        simp [grownSize, free]
      have narrow (c : Chunk) (mem : c ∈ pre ++ [t]) (free : c.free) : c.size < a * 2 := by
        have less := full c mem free
        omega
      obtain ⟨m₁, h', carved, run⟩ := kmalloc_last_grows k rep free backed aligned stable pos
        (by omega) (fun c mem => narrow c (List.mem_append_left _ mem)) (fun j less => by
          cases Nat.eq_zero_or_pos j with
          | inl zero => exact zero ▸ narrow t mem free
          | inr first => exact grown j ▸ short j first less)
        (by rw [← grown]; omega) steps enough
      have added : (t.size + PAGE_SIZE * k) % 16 = 0 := by
        have old := (whole t (by simp)).2
        unfold PAGE_SIZE
        omega
      have more : a * 2 ≤ t.size + PAGE_SIZE * k := by
        rw [← grown]
        omega
      exact ⟨_, _, run, grown_by (x := { t with size := t.size + PAGE_SIZE * k }) backed
        carved.extended carved.backed carved.same carved.heap_end free carved.rep pos size more
        (whole_append (fun c mem => whole c (List.mem_append_left _ mem))
            (by simp only; omega) added)
        (by simp [free])⟩
  | inr empty =>
      have grown (j : Nat) : grownSize cs j = PAGE_SIZE * j - 16 := by
        have none : (cs.filter (·.free)) = [] := List.map_eq_nil_iff.mp empty
        simp [grownSize, none, sizeofChunk]
      obtain ⟨k, rfl⟩ : ∃ j, k = j + 1 := ⟨k - 1, by omega⟩
      have live (c : Chunk) (mem : c ∈ cs) : ¬ c.free := fun free => by
        have listed := mem_frees.mpr ⟨c, mem, free, rfl⟩
        rw [empty] at listed
        cases listed
      -- the first page becomes the chunk that the others extend
      obtain ⟨h₁, page, -, rep₁⟩ := grow_new rep empty (enough.room backed)
      obtain ⟨m₁, f, taken, given, backed₁, enough₁, same₁⟩ := grow_enough backed enough page
      rw [← same₁] at rep₁
      obtain ⟨fuel, bound⟩ : ∃ j, stepBound = j + 1 := ⟨stepBound - 1, by omega⟩
      have sum (j : Nat) : PAGE_SIZE - 16 + PAGE_SIZE * j = grownSize cs (j + 1) := by
        rw [grown]
        unfold PAGE_SIZE
        omega
      obtain ⟨m₂, h', carved, run⟩ := kmalloc_last_grows k rep₁ rfl backed₁ stable stable pos
        (by omega) (fun c mem free => absurd free (live c mem))
        (fun j less => sum j ▸ short (j + 1) (by omega) (by omega)) (by simp only [sum]; omega)
        (show k < fuel by omega) enough₁
      have heap_end : h'.k_heap_end = m.heap.k_heap_end + PAGE_SIZE * (k + 1) := by
        rw [carved.heap_end, given.heap_end, Nat.mul_succ, Nat.add_comm (PAGE_SIZE * k),
            Nat.add_assoc]
      refine ⟨_, _, ?_, grown_by backed ((given.extended backed).trans carved.extended backed.low)
        carved.backed carved.same heap_end rfl carved.rep pos size (by simp only [sum]; omega)
        ?_ rfl⟩
      · rw [bound, kmalloc_full rep aligned (by omega) (fun c mem free => absurd free (live c mem)),
          taken, Option.bind_some]
        exact run
      · refine whole_append whole (by simp only [sum]; omega) ?_
        unfold PAGE_SIZE
        simp only
        omega

theorem kmalloc_grows_least_three : ∃ ptr m', (ready few)._kmalloc stepBound 5000 = some (ptr, m') ∧
    GrownBy (ready few) m' [] 5008 3 ptr := by
  have formed : (ready few).heap.WellFormed [] := ⟨kheap_init_rep _, by simp [Whole]⟩
  have least : IsLeast (Suffices [] 5008) 3 := by
    refine ⟨⟨by decide, by decide⟩, fun j enough => ?_⟩
    have wide : 2 * 5008 ≤ PAGE_SIZE * j - sizeofChunk := enough.2
    unfold PAGE_SIZE sizeofChunk at wide
    omega
  exact kmalloc_grows_least formed (ready_start.backed few_kept) (by decide) rfl (by simp)
      (.inr rfl)
    least (by decide +kernel)

end Memory

end Krypton
