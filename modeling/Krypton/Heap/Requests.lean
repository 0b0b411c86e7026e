import Krypton.Heap.Safety
import Krypton.Mm.PageAllocator

/-! # Which chunk a request gets

What `_kmalloc` compares with the size of a chunk is twice the rounded request,
in 32 bits. Nothing is assumed here about where the chunks lie: growth may have
extended a chunk over others.
-/

namespace Krypton

open LinkStore Tiling

namespace Heap

section Choice

variable {h h' : Heap} {fs : List Nat} {n a c p most fuel : Nat}

/-- `alloc_sz * 2` -/
def wanted (a : Nat) : Nat := a * 2 % 2 ^ 32

/-- The free list is in order, and its chunks are no larger than `most`. -/
structure Listed (h : Heap) (fs : List Nat) (most : Nat) : Prop where
  list : IsList h.links () fs
  low : ∀ a ∈ fs, a < 2 ^ 32
  size : ∀ a ∈ fs, h.size a ≤ most
  heap_end : h.k_heap_end < 2 ^ 32

theorem Listed.mono {more : Nat} (listed : h.Listed fs most) (le : most ≤ more) :
    h.Listed fs more :=
  ⟨listed.list, listed.low, fun a mem => Nat.le_trans (listed.size a mem) le, listed.heap_end⟩

theorem fit_found {q : Ptr Nat Unit} (run : h.fit a fuel q = some (some c)) :
    wanted a ≤ h.size c := by
  induction fuel generalizing q with
  | zero => cases q <;> cases run
  | succ fuel ih =>
      cases q with
      | node chunk =>
          simp only [fit] at run
          split at run
          · cases run
          · split at run
            · obtain ⟨next, -, rest⟩ := Option.bind_eq_some_iff.mp run
              exact ih rest
            · rename_i wide
              cases run
              exact Nat.le_of_not_lt wide
      | null => cases run
      | _ => cases run

theorem fit_mem (pre ys : List Nat) (list : IsList h.links () (pre ++ ys))
    (run : h.fit a fuel (orNull ys.head?) = some (some c)) : c ∈ ys := by
  induction ys generalizing pre fuel with
  | nil => cases fuel <;> cases run
  | cons y ys ih =>
      cases fuel with
      | zero => cases run
      | succ fuel =>
          simp only [List.head?_cons, orNull_some, fit] at run
          split at run
          · cases run
          · split at run
            · rw [get_next_eq list] at run
              exact .tail _ (ih (pre ++ [y]) (by simpa using list) run)
            · cases run
              exact .head _

/-- A request that wraps to nothing gets the first chunk. -/
theorem fit_first {r : Option Nat} (zero : wanted a = 0) (run : h.fit a fuel (.node c) = some r) :
    r = some c := by
  cases fuel with
  | zero => cases run
  | succ fuel =>
      simp only [fit] at run
      split at run
      · cases run
      · split at run
        · rename_i less
          rw [show a * 2 % 2 ^ 32 = 0 from zero] at less
          cases less
        · cases run
          rfl

/-- One activation of `_kmalloc`. -/
theorem kmalloc_cases (run : _kmalloc (fuel + 1) h n = some (p, h')) :
    ∃ first found, get_head h.links () = some first ∧
      h.fit (align n) stepBound first = some found ∧
      match found with
      | some c => h.take (align n) c = some (p, h')
      | none =>
          ∃ h₁, h.grow h.k_heap_end = some h₁ ∧ _kmalloc fuel h₁ (align n) = some (p, h') := by
  rw [_kmalloc] at run
  obtain ⟨first, head, run⟩ := Option.bind_eq_some_iff.mp run
  obtain ⟨found, search, run⟩ := Option.bind_eq_some_iff.mp run
  refine ⟨first, found, head, search, ?_⟩
  cases found with
  | some c => exact run
  | none => exact Option.bind_eq_some_iff.mp run

theorem take_resize (run : h.take a c = some (p, h')) :
    ∃ h₁, h.resize c a = some h₁ ∧ p = add32 c sizeofChunk ∧ h'.size = h₁.size ∧
      h'.k_heap_end = h₁.k_heap_end := by
  have rest {h₁ : Heap} (run : ((remove h₁.links (.node c)).bind fun t =>
      some (add32 c sizeofChunk, { h₁ with links := t })) = some (p, h')) :
      p = add32 c sizeofChunk ∧ h'.size = h₁.size ∧ h'.k_heap_end = h₁.k_heap_end := by
    obtain ⟨t, -, same⟩ := Option.bind_eq_some_iff.mp run
    cases same
    exact ⟨rfl, rfl, rfl⟩
  unfold take at run
  obtain ⟨next, -, run⟩ := Option.bind_eq_some_iff.mp run
  cases next with
  | null =>
      obtain ⟨h₁, resized, run⟩ := Option.bind_eq_some_iff.mp run
      exact ⟨h₁, resized, rest run⟩
  | node n =>
      dsimp only at run
      split at run
      · cases run
      · obtain ⟨h₁, resized, run⟩ := Option.bind_eq_some_iff.mp run
        exact ⟨h₁, resized, rest run⟩
  | _ => cases run

/-- The block is the chunk that was found, and its size is the request if it was split. -/
theorem take_size (low : c < 2 ^ 32) (run : h.take a c = some (p, h')) :
    sub32 p sizeofChunk = c ∧
      h'.size c = if a ≥ sub32 (h.size c) sizeofChunk then h.size c else a := by
  obtain ⟨h₁, resized, rfl, size, -⟩ := take_resize run
  constructor
  · unfold sub32 add32 sizeofChunk
    omega
  · rw [size]
    unfold resize at resized
    split at resized
    · rename_i whole
      cases resized
      rw [if_pos whole]
    · rename_i part
      rw [if_neg part]
      unfold split at resized
      obtain ⟨h₂, -, resized⟩ := Option.bind_eq_some_iff.mp resized
      cases resized
      simp [setSize]

/-- The tail of the list grows by a page, or a page becomes the first chunk. -/
theorem grow_listed (listed : h.Listed fs most) (run : h.grow h.k_heap_end = some h') :
    (fs = [] ∧ h'.Listed [h.k_heap_end] 4080 ∧ h'.size h.k_heap_end = 4080) ∨
      (fs ≠ [] ∧ h'.Listed fs (most + PAGE_SIZE)) := by
  have heap_end : add32 h.k_heap_end PAGE_SIZE < 2 ^ 32 := by
    unfold add32
    exact Nat.mod_lt _ (Nat.two_pow_pos 32)
  unfold grow at run
  cases List.eq_nil_or_concat' fs with
  | inl empty =>
      subst empty
      obtain ⟨t, added, list⟩ := add_tail_list (n := h.k_heap_end) listed.list List.not_mem_nil
      have page : sub32 (sub32 (add32 h.k_heap_end PAGE_SIZE) h.k_heap_end) sizeofChunk = 4080 := by
        have low := listed.heap_end
        unfold sub32 add32 PAGE_SIZE sizeofChunk
        omega
      simp only [get_tail_eq listed.list, Option.bind_eq_bind, Option.bind_some,
        List.getLast?_nil, orNull_none, setMagic, setSize, added, page] at run
      cases run
      have size : Function.update h.size h.k_heap_end 4080 h.k_heap_end = 4080 :=
        Function.update_self ..
      exact .inl ⟨rfl, ⟨list, by simpa using listed.heap_end, by simp, heap_end⟩, size⟩
  | inr tail =>
      obtain ⟨xs, x, rfl⟩ := tail
      simp only [get_tail_eq listed.list, Option.bind_eq_bind, Option.bind_some,
        List.getLast?_append, List.getLast?_singleton, Option.some_or, orNull_some] at run
      cases run
      refine .inr ⟨by simp, listed.list, listed.low, fun a mem => ?_, heap_end⟩
      have old := listed.size a mem
      by_cases last : a = x
      · subst last
        have less : add32 (h.size a) PAGE_SIZE ≤ h.size a + PAGE_SIZE := by
          unfold add32
          exact Nat.mod_le _ _
        simp only [setSize, Function.update_self]
        omega
      · simp only [setSize, Function.update_of_ne last]
        omega

/-- The call takes a listed chunk that passes the test, at a heap that has grown by
    less than one page for each activation. -/
theorem kmalloc_takes (listed : h.Listed fs most) (page : 4080 ≤ most)
    (run : _kmalloc fuel h n = some (p, h')) (stable : align (align n) = align n) :
    ∃ (h₁ : Heap) (c : Nat) (fs₁ : List Nat), h₁.Listed fs₁ (most + PAGE_SIZE * (fuel - 1)) ∧
        c ∈ fs₁ ∧
      wanted (align n) ≤ h₁.size c ∧ h₁.take (align n) c = some (p, h') := by
  induction fuel generalizing h fs n most with
  | zero => cases run
  | succ fuel ih =>
      obtain ⟨first, found, head, search, rest⟩ := kmalloc_cases run
      rw [get_head_eq listed.list, Option.some_inj] at head
      subst head
      cases found with
      | some c =>
          exact ⟨h, c, fs, listed.mono (Nat.le_add_right ..), fit_mem [] fs listed.list search,
            fit_found search, rest⟩
      | none =>
          obtain ⟨h₁, grown, again⟩ := rest
          cases fuel with
          | zero => cases again
          | succ fuel =>
              obtain ⟨fs₁, listed₁⟩ : ∃ fs₁, h₁.Listed fs₁ (most + PAGE_SIZE) := by
                cases grow_listed listed grown with
                | inl new => exact ⟨_, new.2.1.mono (Nat.le_add_right_of_le page)⟩
                | inr longer => exact ⟨fs, longer.2⟩
              have onward := ih listed₁ (Nat.le_add_right_of_le page) again (by rw [stable, stable])
              rw [stable] at onward
              have total : most + PAGE_SIZE + PAGE_SIZE * (fuel + 1 - 1) =
                  most + PAGE_SIZE * (fuel + 1 + 1 - 1) := by
                simp only [Nat.add_sub_cancel, Nat.mul_succ]
                omega
              rwa [total] at onward

/-- Where the test is always passed, the first chunk is taken, or the first page. -/
theorem kmalloc_first (listed : h.Listed fs most) (run : _kmalloc fuel h n = some (p, h'))
    (stable : align (align n) = align n) (zero : wanted (align n) = 0) :
    ∃ h₁ c, h₁.take (align n) c = some (p, h') ∧ c < 2 ^ 32 ∧
      (h₁ = h ∧ c ∈ fs ∧ get_head h.links () = some (.node c) ∨
        get_head h.links () = some .null ∧ h₁.size c = 4080) := by
  cases fuel with
  | zero => cases run
  | succ fuel =>
      obtain ⟨first, found, head, search, rest⟩ := kmalloc_cases run
      rw [get_head_eq listed.list, Option.some_inj] at head
      subst head
      cases fs with
      | cons c fs =>
          cases fit_first zero search
          exact ⟨h, c, rest, listed.low c (.head _), .inl ⟨rfl, .head _, get_head_eq listed.list⟩⟩
      | nil =>
          cases found with
          | some c => cases fit_mem [] [] listed.list search
          | none =>
              obtain ⟨h₁, grown, again⟩ := rest
              cases grow_listed listed grown with
              | inr longer => exact absurd rfl longer.1
              | inl new =>
                  cases fuel with
                  | zero => cases again
                  | succ fuel =>
                      obtain ⟨first, found, head, search, rest⟩ := kmalloc_cases again
                      rw [get_head_eq new.2.1.list, Option.some_inj] at head
                      subst head
                      rw [stable] at search rest
                      cases fit_first zero search
                      exact ⟨h₁, _, rest, listed.heap_end, .inr ⟨get_head_eq listed.list, new.2.2⟩⟩

end Choice

/-! ## The size of a block -/

theorem align_mod {n : Nat} (range : n < 2 ^ 32) : align n = (n + 15) / 16 * 16 % 2 ^ 32 := by
  have low : n &&& 0xF = n % 16 := Nat.and_two_pow_sub_one_eq_mod n 4
  unfold align
  rw [low]
  split
  next ragged =>
    have wrapped : add32 n 0x10 < 2 ^ 32 := by
      unfold add32
      exact Nat.mod_lt _ (Nat.two_pow_pos 32)
    rw [and_align _ wrapped]
    unfold add32
    omega
  next whole => omega

theorem align_stable {n : Nat} (range : n < 2 ^ 32) : align (align n) = align n := by
  have first := align_mod range
  have second := align_mod (n := align n) (by omega)
  omega

theorem Rep.listed {h : Heap} {cs : List Chunk} (rep : h.Rep cs) :
    h.Listed (frees cs) (2 ^ 32 - HEAP_START) := by
  have bounded := rep.bounded
  refine ⟨rep.list, fun a mem => ?_, fun a mem => ?_, bounded⟩
  · obtain ⟨c, inside, -, rfl⟩ := mem_frees.mp mem
    have stop := rep.stop_le inside
    omega
  · obtain ⟨c, inside, -, rfl⟩ := mem_frees.mp mem
    have stop := rep.stop_le inside
    rw [rep.size c inside]
    omega

/-- Rounded and doubled the request is still a 32-bit number, or it is just not and the
    first chunk on the list is smaller than a header. -/
def Honoured (h : Heap) (n : Nat) : Prop :=
  n ≤ 2 ^ 31 - 16 ∨
    n ≤ 2 ^ 31 ∧ ∃ c, get_head h.links () = some (.node c) ∧ h.size c < sizeofChunk

/-- What the size field of the first chunk becomes if its size passes every test. -/
theorem first_size_iff {n size : Nat} (range : n < 2 ^ 32) (wraps : ¬ n ≤ 2 ^ 31 - 16)
    (zero : wanted (align n) = 0) (most : size ≤ 2 ^ 30) :
    (n ≤ if align n ≥ sub32 size sizeofChunk then size else align n) ↔
      n ≤ 2 ^ 31 ∧ size < sizeofChunk := by
  have rounded := align_mod range
  unfold wanted at zero
  unfold sub32 sizeofChunk
  split <;> omega

/-- A call that returns honours the size of the request if and only if it does not wrap.
    It can grow the heap by the pages there are. -/
theorem kmalloc_honoured_iff {h h' : Heap} {cs : List Chunk} (rep : h.Rep cs) {n p pages : Nat}
    (range : n < 2 ^ 32) (memory : pages ≤ PM_LOW_PAGE_COUNT * 32)
    (run : _kmalloc (pages + 1) h n = some (p, h')) :
    n ≤ h'.size (sub32 p sizeofChunk) ↔ h.Honoured n := by
  have few : PAGE_SIZE * (pages + 1 - 1) ≤ 15728640 := by
    have all : PAGE_SIZE * pages ≤ PAGE_SIZE * (PM_LOW_PAGE_COUNT * 32) :=
      Nat.mul_le_mul_left _ memory
    exact all
  have rounded := align_mod range
  have stable := align_stable range
  have start : HEAP_START = 0xC0400000 := rfl
  unfold Honoured
  by_cases small : n ≤ 2 ^ 31 - 16
  · refine iff_of_true ?_ (.inl small)
    obtain ⟨h₁, c, fs, listed, mem, fits, taken⟩ := kmalloc_takes rep.listed (by decide) run stable
    obtain ⟨here, size⟩ := take_size (listed.low c mem) taken
    rw [here, size]
    unfold wanted at fits
    split <;> omega
  · by_cases zero : wanted (align n) = 0
    · obtain ⟨h₁, c, taken, low, first⟩ := kmalloc_first rep.listed run stable zero
      obtain ⟨here, size⟩ := take_size low taken
      rw [here, size]
      cases first with
      | inl kept =>
          obtain ⟨rfl, mem, head⟩ := kept
          have most := rep.listed.size c mem
          have only : (∃ d, get_head h₁.links () = some (.node d) ∧ h₁.size d < sizeofChunk) ↔
              h₁.size c < sizeofChunk := by
            rw [head]
            simp
          rw [only, first_size_iff range small zero (Nat.le_trans most (by decide))]
          exact (or_iff_right small).symm
      | inr page =>
          obtain ⟨head, page⟩ := page
          rw [page, head, first_size_iff range small zero (by decide)]
          simpa [sizeofChunk] using small
    · obtain ⟨h₁, c, fs, listed, mem, fits, taken⟩ :=
        kmalloc_takes rep.listed (by decide) run stable
      obtain ⟨here, size⟩ := take_size (listed.low c mem) taken
      have most := listed.size c mem
      refine iff_of_false ?_ ?_
      · rw [here, size]
        unfold wanted at fits zero
        unfold sub32 sizeofChunk
        split <;> omega
      · unfold wanted at zero
        omega

/-- The block that a call on the empty heap returns, and the size it has. -/
theorem kmalloc_empty_returns (n size : Nat)
    (ends : (_kmalloc 2 (kheap_init ⟨fun _ => .null, fun _ => 0, fun _ => 0, 0⟩) n).map
      (fun r => r.2.size (sub32 r.1 sizeofChunk)) = some size) :
    ∃ p h', _kmalloc 2 (kheap_init ⟨fun _ => .null, fun _ => 0, fun _ => 0, 0⟩) n = some (p, h') ∧
      h'.size (sub32 p sizeofChunk) = size := by
  obtain ⟨⟨p, h'⟩, run, same⟩ := Option.map_eq_some_iff.mp ends
  exact ⟨p, h', run, same⟩

theorem kmalloc_honoured_small :
    ∃ p h', _kmalloc 2 (kheap_init ⟨fun _ => .null, fun _ => 0, fun _ => 0, 0⟩) 100 = some (p, h') ∧
      100 ≤ h'.size (sub32 p sizeofChunk) := by
  obtain ⟨p, h', run, -⟩ := kmalloc_empty_returns 100 112 (by decide +kernel)
  have memory : 1 ≤ PM_LOW_PAGE_COUNT * 32 := by decide
  exact ⟨p, h', run, (kmalloc_honoured_iff (kheap_init_rep _) (by decide) memory
    run).mpr (.inl (by decide))⟩

/-- Twice 2 GiB is nothing in 32 bits. -/
theorem kmalloc_wraps :
    ∃ p h', _kmalloc 2 (kheap_init ⟨fun _ => .null, fun _ => 0, fun _ => 0, 0⟩) 0x80000000 =
      some (p, h') ∧ ¬ 0x80000000 ≤ h'.size (sub32 p sizeofChunk) := by
  obtain ⟨p, h', run, size⟩ := kmalloc_empty_returns 0x80000000 4080
    (by decide +kernel)
  exact ⟨p, h', run, by rw [size]; decide⟩

end Heap

end Krypton
