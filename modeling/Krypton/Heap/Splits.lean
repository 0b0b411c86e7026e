import Krypton.Heap.Requests

/-! # The arithmetic of a split

A chunk is split if the request is smaller than what the chunk has beyond a
header, computed in 32 bits. A request for nothing also splits a chunk that is
smaller than a header, and such chunks come from requests for nothing.
-/

namespace Krypton

open LinkStore Tiling

namespace Heap

/-- The call takes the chunk `c` off the heap `h₁` for the rounded request `a`. -/
inductive Takes : Heap → Nat → Heap → Nat → Nat → Prop
  | found : get_head h.links () = some first → h.fit (align n) stepBound first = some (some c) →
      Takes h n h c (align n)
  | grown : get_head h.links () = some first → h.fit (align n) stepBound first = some none →
      h.grow h.k_heap_end = some h' → Takes h' (align n) h₁ c a → Takes h n h₁ c a

/-- The test of `_kmalloc` for the branch that splits. -/
def Splits (size a : Nat) : Prop := ¬ a ≥ sub32 size sizeofChunk

/-- The part that is cut off is as large as the numbers say. -/
structure Exact (size a : Nat) : Prop where
  room : a + sizeofChunk ≤ size
  rest : sub32 (sub32 size a) sizeofChunk = size - a - sizeofChunk

def SplitsExactly (h : Heap) (n : Nat) : Prop :=
  ∀ h₁ c a, Takes h n h₁ c a → Splits (h₁.size c) a → Exact (h₁.size c) a

/-- The size fields and `k_heap_end` hold 32-bit numbers. -/
structure Sized (h : Heap) : Prop where
  size : ∀ a, h.size a < 2 ^ 32
  heap_end : h.k_heap_end < 2 ^ 32

section Sizes

variable {h h' : Heap} {c a n p : Nat}

theorem Sized.set (sized : h.Sized) {size : Nat} (low : size < 2 ^ 32)
    (same : h'.size = Function.update h.size c size) (heap_end : h'.k_heap_end < 2 ^ 32) :
    h'.Sized := by
  refine ⟨fun d => ?_, heap_end⟩
  rw [same]
  by_cases here : d = c
  · subst here
    rwa [Function.update_self]
  · rw [Function.update_of_ne here]
    exact sized.size d

theorem sub32_lt (a b : Nat) : sub32 a b < 2 ^ 32 := by
  unfold sub32
  exact Nat.mod_lt _ (Nat.two_pow_pos 32)

theorem add32_lt (a b : Nat) : add32 a b < 2 ^ 32 := by
  unfold add32
  exact Nat.mod_lt _ (Nat.two_pow_pos 32)

theorem insert_chunk_size (run : h.insert_chunk c = some h') :
    h'.size = h.size ∧ h'.k_heap_end = h.k_heap_end := by
  unfold insert_chunk at run
  obtain ⟨first, -, run⟩ := Option.bind_eq_some_iff.mp run
  obtain ⟨aux, -, run⟩ := Option.bind_eq_some_iff.mp run
  cases aux with
  | null =>
      obtain ⟨t, -, run⟩ := Option.bind_eq_some_iff.mp run
      cases run
      exact ⟨rfl, rfl⟩
  | _ =>
      obtain ⟨_, -, run⟩ := Option.bind_eq_some_iff.mp run
      obtain ⟨_, -, run⟩ := Option.bind_eq_some_iff.mp run
      obtain ⟨_, -, run⟩ := Option.bind_eq_some_iff.mp run
      cases run
      exact ⟨rfl, rfl⟩

theorem take_end (run : h.take a c = some (p, h')) : h'.k_heap_end = h.k_heap_end := by
  obtain ⟨h₁, resized, -, -, heap_end⟩ := take_resize run
  rw [heap_end]
  unfold resize at resized
  split at resized
  · cases resized
    rfl
  · unfold split at resized
    obtain ⟨h₂, inserted, same⟩ := Option.bind_eq_some_iff.mp resized
    cases same
    exact (insert_chunk_size inserted).2

theorem trim_sized {tail fuel : Nat} (sized : h.Sized) (run : trim tail fuel h = some h') :
    h'.Sized := by
  induction fuel generalizing h with
  | zero => cases run
  | succ fuel ih =>
      unfold trim at run
      split at run
      · have low : h.size tail - PAGE_SIZE < 2 ^ 32 :=
          Nat.lt_of_le_of_lt (Nat.sub_le ..) (sized.size tail)
        dsimp only at run
        exact ih (sized.set (c := tail) low rfl (sub32_lt _ _)) run
      · cases run
        exact sized

theorem trimTail_sized (sized : h.Sized) (run : trimTail h = some h') : h'.Sized := by
  unfold trimTail at run
  obtain ⟨tail, -, run⟩ := Option.bind_eq_some_iff.mp run
  cases tail with
  | null =>
      cases run
      exact sized
  | node t => exact trim_sized sized run
  | _ => cases run

theorem merge_heap_sized {fuel : Nat} {q : Ptr Nat Unit} (sized : h.Sized)
    (run : merge_heap fuel q h = some h') : h'.Sized := by
  induction fuel generalizing h h' q with
  | zero =>
      cases q with
      | null =>
          cases run
          exact sized
      | _ => cases run
  | succ fuel ih =>
      cases q with
      | null =>
          cases run
          exact sized
      | node aux =>
          simp only [merge_heap] at run
          split at run
          · cases run
          · obtain ⟨next, -, run⟩ := Option.bind_eq_some_iff.mp run
            obtain ⟨addr, -, run⟩ := Option.bind_eq_some_iff.mp run
            split at run
            · cases next with
              | node z =>
                  obtain ⟨t, -, run⟩ := Option.bind_eq_some_iff.mp run
                  obtain ⟨h₁, merged, trimmed⟩ := Option.bind_eq_some_iff.mp run
                  exact trimTail_sized
                    (ih (sized.set (c := aux) (add32_lt _ _) rfl (by exact sized.heap_end)) merged)
                        trimmed
              | _ => cases run
            · obtain ⟨_, -, run⟩ := Option.bind_eq_some_iff.mp run
              obtain ⟨h₁, merged, trimmed⟩ := Option.bind_eq_some_iff.mp run
              exact trimTail_sized (ih sized merged) trimmed
      | _ => cases run

theorem kfree_sized (sized : h.Sized) (run : h._kfree p = some h') : h'.Sized := by
  unfold _kfree at run
  simp only at run
  split at run
  · cases run
  · obtain ⟨h₁, inserted, run⟩ := Option.bind_eq_some_iff.mp run
    obtain ⟨first, -, run⟩ := Option.bind_eq_some_iff.mp run
    obtain ⟨size, heap_end⟩ := insert_chunk_size inserted
    exact merge_heap_sized (h := h₁) ⟨size ▸ sized.size, heap_end ▸ sized.heap_end⟩ run

theorem take_sized (sized : h.Sized) (low : a < 2 ^ 32) (run : h.take a c = some (p, h')) :
    h'.Sized := by
  obtain ⟨h₁, resized, -, size, heap_end⟩ := take_resize run
  suffices h₁.Sized from ⟨size ▸ this.size, heap_end ▸ this.heap_end⟩
  unfold resize at resized
  split at resized
  · cases resized
    exact sized
  · unfold split at resized
    obtain ⟨h₂, inserted, resized⟩ := Option.bind_eq_some_iff.mp resized
    cases resized
    obtain ⟨cut, same⟩ := insert_chunk_size inserted
    have heap_end : h₂.k_heap_end < 2 ^ 32 := lt_of_eq_of_lt same sized.heap_end
    exact (sized.set (sub32_lt _ _) cut heap_end).set low rfl heap_end

theorem grow_sized (sized : h.Sized) (run : h.grow c = some h') : h'.Sized := by
  unfold grow at run
  obtain ⟨tail, -, run⟩ := Option.bind_eq_some_iff.mp run
  cases tail with
  | null =>
      obtain ⟨t, -, run⟩ := Option.bind_eq_some_iff.mp run
      cases run
      exact sized.set (sub32_lt _ _) rfl (add32_lt _ _)
  | node t =>
      cases run
      exact sized.set (add32_lt _ _) rfl (add32_lt _ _)
  | _ => cases run

theorem align_lt (low : n < 2 ^ 32) : align n < 2 ^ 32 := by
  have rounded := align_mod low
  omega

theorem kmalloc_sized {fuel : Nat} (sized : h.Sized) (low : n < 2 ^ 32)
    (run : _kmalloc fuel h n = some (p, h')) : h'.Sized := by
  induction fuel generalizing h n with
  | zero => cases run
  | succ fuel ih =>
      obtain ⟨first, found, -, -, rest⟩ := kmalloc_cases run
      cases found with
      | some c => exact take_sized sized (align_lt low) rest
      | none =>
          obtain ⟨h₁, grown, again⟩ := rest
          exact ih (grow_sized sized grown) (align_lt low) again

theorem takes_sized {h₁ : Heap} (sized : h.Sized) (takes : Takes h n h₁ c a) : h₁.Sized := by
  induction takes with
  | found => exact sized
  | grown _ _ grown _ ih => exact ih (grow_sized sized grown)

theorem takes_fits {h₁ : Heap} (takes : Takes h n h₁ c a) (low : n < 2 ^ 32) :
    a = align n ∧ wanted a ≤ h₁.size c := by
  induction takes with
  | found _ search => exact ⟨rfl, fit_found search⟩
  | grown _ _ _ _ ih =>
      obtain ⟨same, fits⟩ := ih (align_lt low)
      exact ⟨same.trans (align_stable low), fits⟩

/-- Twice the request is room enough for the request and a header. -/
theorem splits_exactly_pos (sized : h.Sized) (pos : 1 ≤ n) (small : n ≤ 2 ^ 30) :
    h.SplitsExactly n := by
  intro h₁ c a takes _
  obtain ⟨rfl, fits⟩ := takes_fits takes (by omega)
  obtain ⟨-, least, most, -⟩ := align_bounds pos small
  have low := (takes_sized sized takes).size c
  unfold wanted at fits
  constructor
  · unfold sizeofChunk
    omega
  · unfold sizeofChunk
    rw [sub32_eq (a := h₁.size c) (by omega) low, sub32_eq (by omega) (by omega)]

/-- The first chunk on the free list, if any, is at least as large as a header. -/
structure FirstWide (h : Heap) : Prop where
  wide : ∀ c, get_head h.links () = some (.node c) → sizeofChunk ≤ h.size c
  empty : get_head h.links () = some .null → IsList h.links () []

theorem exact_zero {size : Nat} (low : size < 2 ^ 32) (wide : sizeofChunk ≤ size) :
    Exact size 0 := by
  refine ⟨by omega, ?_⟩
  rw [sub32_eq (a := size) (Nat.zero_le _) low, sub32_eq (by omega) (by omega)]

/-- A request for nothing takes the first chunk. -/
theorem takes_zero {h₁ : Heap} {first : Nat} (head : get_head h.links () = some (.node first))
    (takes : Takes h 0 h₁ c a) : h₁ = h ∧ c = first ∧ a = 0 := by
  cases takes with
  | found head' search =>
      obtain rfl := Option.some_inj.mp (head.symm.trans head')
      exact ⟨rfl, Option.some_inj.mp (fit_first rfl search), rfl⟩
  | grown head' search =>
      obtain rfl := Option.some_inj.mp (head.symm.trans head')
      cases fit_first rfl search

theorem takes_search {h₁ : Heap} (takes : Takes h n h₁ c a) :
    ∃ first found, get_head h.links () = some first ∧
      h.fit (align n) stepBound first = some found ∧
      (found = none → ∃ h', h.grow h.k_heap_end = some h' ∧ Takes h' (align n) h₁ c a) := by
  cases takes with
  | found head search => exact ⟨_, _, head, search, nofun⟩
  | grown head search grown takes => exact ⟨_, _, head, search, fun _ => ⟨_, grown, takes⟩⟩

theorem splits_exactly_zero (sized : h.Sized) (wide : h.FirstWide) : h.SplitsExactly 0 := by
  intro h₁ c a takes _
  obtain ⟨first, found, head, search, more⟩ := takes_search takes
  cases first with
  | node first =>
      obtain ⟨rfl, rfl, rfl⟩ := takes_zero head takes
      exact exact_zero (sized.size c) (wide.wide c head)
  | null =>
      have none : found = none := by
        obtain ⟨fuel, hf⟩ : ∃ k, stepBound = k + 1 := ⟨stepBound - 1, by unfold stepBound; rfl⟩
        rw [hf] at search
        exact (Option.some_inj.mp search).symm
      obtain ⟨h', grown, takes⟩ := more none
      have empty : h.Listed [] 0 := ⟨wide.empty head, by simp, by simp, sized.heap_end⟩
      cases grow_listed empty grown with
      | inl page =>
          -- the page is the first chunk now
          obtain ⟨rfl, rfl, rfl⟩ := takes_zero (get_head_eq page.2.1.list) takes
          rw [page.2.2]
          exact exact_zero (by decide) (by decide)
      | inr longer => exact absurd rfl longer.1
  | _ =>
      obtain ⟨fuel, hf⟩ : ∃ k, stepBound = k + 1 := ⟨stepBound - 1, by unfold stepBound; rfl⟩
      rw [hf] at search
      cases search

/-- A request for nothing splits a first chunk that is smaller than a header. -/
theorem not_splitsExactly_zero (head : get_head h.links () = some (.node c))
    (magic : h.magic c = CHUNK_MAGIC) (small : h.size c < sizeofChunk) :
    ¬ h.SplitsExactly 0 := by
  intro exact_
  have found : h.fit (align 0) stepBound (.node c) = some (some c) := by
    obtain ⟨fuel, hf⟩ : ∃ k, stepBound = k + 1 := ⟨stepBound - 1, by unfold stepBound; rfl⟩
    have zero : align 0 = 0 := rfl
    rw [hf, zero]
    simp [fit, magic]
  have splits : Splits (h.size c) (align 0) := by
    have zero : align 0 = 0 := rfl
    unfold Splits sub32
    rw [zero]
    unfold sizeofChunk at *
    omega
  have room := (exact_ h c _ (.found head found) splits).room
  omega

end Sizes

end Heap

/-! ## Runs with requests for nothing -/

namespace HeapRun

variable {s t : HeapRun}

/-- The calls, where a request may be for nothing. -/
def call (s : HeapRun) : HeapCall → Option HeapRun
  | .kmalloc alloc_sz => do
      guard (alloc_sz ≤ 2 ^ 30)
      let (ptr, heap) ← s.heap._kmalloc stepBound alloc_sz
      let chunk := sub32 ptr sizeofChunk
      return ⟨heap, (chunk, heap.size chunk) :: s.live⟩
  | .kfree ptr => do
      let block ← s.live.find? fun b => b.1 + 16 = ptr
      return ⟨← s.heap._kfree ptr, s.live.erase block⟩
  | .store _ _ => none

/-- The words of the memory are 32 bits wide. -/
def Start (s : HeapRun) : Prop := ∃ h : Heap, (∀ a, h.size a < 2 ^ 32) ∧ s = ⟨h.kheap_init, []⟩

def SplitOk (s : HeapRun) : HeapCall → Prop
  | .kmalloc alloc_sz => alloc_sz = 0 → s.heap.FirstWide
  | _ => True

theorem call_sized {e : HeapCall} (sized : s.heap.Sized) (step : s.call e = some t) :
    t.heap.Sized := by
  cases e with
  | kmalloc n =>
      simp only [call, Option.bind_eq_bind, Option.bind_eq_some_iff] at step
      obtain ⟨_, range, ⟨ptr, heap⟩, run, same⟩ := step
      cases same
      have small : n ≤ 2 ^ 30 := by
        simp only [guard] at range
        split at range
        · assumption
        · cases range
      exact Heap.kmalloc_sized sized (by omega) run
  | kfree ptr =>
      simp only [call, Option.bind_eq_bind, Option.bind_eq_some_iff] at step
      obtain ⟨_, -, heap, run, same⟩ := step
      cases same
      exact Heap.kfree_sized sized run
  | store => cases step

/-- Whatever the calls before, no split underflows if a request for nothing finds a chunk
    that is wide enough. -/
theorem splits_exact (reached : Runs.Reach call (fun _ _ => True) Start s) {n : Nat}
    (small : n ≤ 2 ^ 30)
    (ok : s.SplitOk (.kmalloc n)) : s.heap.SplitsExactly n := by
  have sized : s.heap.Sized := by
    refine reached.invariant (I := fun s => s.heap.Sized) ?_
      fun _ _ _ sized _ step => call_sized sized step
    rintro _ ⟨h, low, rfl⟩
    have heap_end : HEAP_START < 2 ^ 32 := by decide
    exact ⟨low, heap_end⟩
  by_cases zero : n = 0
  · subst zero
    exact Heap.splits_exactly_zero sized (ok rfl)
  · exact Heap.splits_exactly_pos sized (Nat.pos_of_ne_zero zero) small

theorem boot_start : Start boot := ⟨_, fun _ => Nat.two_pow_pos 32, rfl⟩

theorem splits_exact_after_zero :
    ∃ t, boot.call (.kmalloc 0) = some t ∧ t.heap.SplitsExactly 16 := by
  have returns : (boot.call (.kmalloc 0)).isSome := by decide +kernel
  obtain ⟨t, step⟩ := Option.isSome_iff_exists.mp returns
  have start : Runs.Reach call (fun _ _ => True) Start boot := .start boot_start
  have reached := start.next trivial step
  exact ⟨t, step, splits_exact reached (by decide) nofun⟩

/-- A block of nothing is freed in front of a block in use, and asked for again. -/
theorem zero_split_underflows :
    ∃ t, Runs.run call boot [.kmalloc 0, .kmalloc 16, .kfree (HEAP_START + 16)] = some t ∧
      ¬ t.heap.SplitsExactly 0 := by
  have ends : (Runs.run call boot [.kmalloc 0, .kmalloc 16, .kfree (HEAP_START + 16)]).map
      (fun t => (get_head t.heap.links (), t.heap.magic HEAP_START, t.heap.size HEAP_START)) =
      some (some (.node HEAP_START), CHUNK_MAGIC, 0) := by decide +kernel
  obtain ⟨t, run, same⟩ := Option.map_eq_some_iff.mp ends
  simp only [Prod.mk.injEq] at same
  obtain ⟨head, magic, size⟩ := same
  exact ⟨t, run, Heap.not_splitsExactly_zero head magic (by rw [size]; decide)⟩

end HeapRun

end Krypton
