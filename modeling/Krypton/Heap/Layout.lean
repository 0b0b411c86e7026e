import Krypton.Foundations.Tiling
import Krypton.Heap.Kmalloc

/-! # The heap as a tiling

`Heap.Rep` says that the headers in memory describe a list of chunks that tiles
the heap, and that the free list threads the free ones in the order of their
addresses. Each function of `kmalloc.c` is described here by what it does to
that list of chunks.
-/

namespace Krypton

open LinkStore Tiling

/-- The memory `h` holds the chunks `cs`. -/
structure Heap.Rep (h : Heap) (cs : List Chunk) : Prop where
  tiles : Tiles 16 HEAP_START cs h.k_heap_end
  list : IsList h.links () (frees cs)
  size : ∀ c ∈ cs, h.size c.addr = c.size
  magic : ∀ c ∈ cs, h.magic c.addr = CHUNK_MAGIC
  bounded : h.k_heap_end < 2 ^ 32

/-! ## Arithmetic -/

theorem add32_eq {a b : Nat} (h : a + b < 2 ^ 32) : add32 a b = a + b := by
  unfold add32
  exact Nat.mod_eq_of_lt h

/-- The address behind the header of a chunk. -/
theorem add32_sizeofChunk {a : Nat} (h : a + 16 < 2 ^ 32) : add32 a sizeofChunk = a + 16 := by
  unfold sizeofChunk
  exact add32_eq h

theorem sub32_eq {a b : Nat} (h : b ≤ a) (lt : a < 2 ^ 32) : sub32 a b = a - b := by
  unfold sub32
  omega

/-- The chunk of a block, told from the block. -/
theorem sub32_sizeofChunk {a : Nat} (h : a + 16 < 2 ^ 32) : sub32 (a + 16) sizeofChunk = a := by
  unfold sizeofChunk
  rw [sub32_eq (by omega) h, Nat.add_sub_cancel]

/-- Masking with `~0xF` drops the four low bits. -/
theorem and_align (n : Nat) (lt : n < 2 ^ 32) : n &&& 0xFFFFFFF0 = n / 16 * 16 := by
  have mask : 0xFFFFFFF0 = (2 ^ 28 - 1) <<< 4 := rfl
  have cut : n / 16 * 16 = n >>> 4 <<< 4 := by rw [Nat.shiftLeft_eq, Nat.shiftRight_eq_div_pow]
  rw [mask, cut]
  apply Nat.eq_of_testBit_eq
  intro i
  simp only [Nat.testBit_and, Nat.testBit_shiftLeft, Nat.testBit_shiftRight,
      Nat.testBit_two_pow_sub_one]
  by_cases low : 4 ≤ i
  · by_cases high : i - 4 < 28
    · simp [low, high]
    · have : n.testBit i = false :=
        Nat.testBit_lt_two_pow (Nat.lt_of_lt_of_le lt (Nat.pow_le_pow_right (by decide) (by omega)))
      simp [low, this]
  · simp [low]

theorem align_eq (n : Nat) (lt : n ≤ 2 ^ 30) : align n = (n + 15) / 16 * 16 := by
  have low : n &&& 0xF = n % 16 := Nat.and_two_pow_sub_one_eq_mod n 4
  unfold align
  rw [low]
  split
  next ragged =>
    rw [add32_eq (by omega), and_align _ (by omega)]
    omega
  next whole => omega

theorem align_bounds {n : Nat} (pos : 1 ≤ n) (lt : n ≤ 2 ^ 30) :
    n ≤ align n ∧ 16 ≤ align n ∧ align n ≤ 2 ^ 30 ∧ align (align n) = align n := by
  have first := align_eq n lt
  have second := align_eq (align n) (by omega)
  omega

/-! ## The list functions on the one list of the heap -/

section FreeList

variable {s : Store Nat Unit} {xs ys : List Nat} {n : Nat}

theorem family_of_list (h : IsList s () xs) :
    Lists s (fun _ : Unit => True) fun _ => xs where
  each _ _ := h
  unused _ dead := absurd trivial dead
  apart _ _ ne := absurd rfl ne

theorem add_tail_list (h : IsList s () xs) (fresh : n ∉ xs) :
    ∃ t, add_tail s () n = some t ∧ IsList t () (xs ++ [n]) := by
  obtain ⟨t, ht, lists⟩ := add_tail_spec (family_of_list h) trivial fun _ => fresh
  exact ⟨t, ht, by simpa using lists.each () trivial⟩

theorem remove_list (xs ys : List Nat) (h : IsList s () (xs ++ n :: ys)) :
    ∃ t, remove s (.node n) = some t ∧ IsList t () (xs ++ ys) := by
  obtain ⟨t, ht, lists⟩ := remove_spec (l := ()) xs ys (family_of_list h) rfl
  exact ⟨t, ht, by simpa using lists.each () trivial⟩

namespace Heap

/-- The loop of `insert_chunk` walks over the chunks below the new one. -/
theorem insertSearch_eq (pre xs ys : List Nat) (h : IsList s () (pre ++ (xs ++ ys)))
    (below : ∀ x ∈ xs, x < n) (above : ∀ y ∈ ys, n < y) {fuel : Nat} (enough : xs.length < fuel) :
    insertSearch s n fuel (orNull (xs ++ ys).head?) = some (orNull ys.head?) := by
  induction xs generalizing pre fuel with
  | nil =>
      cases ys with
      | nil => cases fuel <;> rfl
      | cons y ys =>
          obtain ⟨fuel, rfl⟩ : ∃ k, fuel = k + 1 := ⟨fuel - 1, by omega⟩
          have := above y List.mem_cons_self
          simp [insertSearch, show ¬ y < n by omega]
  | cons x xs ih =>
      obtain ⟨fuel, rfl⟩ : ∃ k, fuel = k + 1 := ⟨fuel - 1, by omega⟩
      have next : get_next s (.node x) = _ := get_next_eq h
      have enough : xs.length < fuel := by simpa using enough
      have rest := ih (pre ++ [x]) (by simpa using h)
        (fun z mem => below z (List.mem_cons_of_mem _ mem)) enough
      simpa [insertSearch, below x List.mem_cons_self, next] using rest

/-- `insert_chunk` puts a chunk in the place of its address. -/
theorem insert_chunk_spec (xs ys : List Nat) (h : Heap) (list : IsList h.links () (xs ++ ys))
    (below : ∀ x ∈ xs, x < n) (above : ∀ y ∈ ys, n < y) (enough : xs.length < stepBound) :
    ∃ t, h.insert_chunk n = some { h with links := t } ∧ IsList t () (xs ++ n :: ys) := by
  have found := insertSearch_eq [] xs ys list below above enough
  have fresh : n ∉ xs ++ ys := by
    intro mem
    rcases List.mem_append.mp mem with mem | mem
    · exact Nat.lt_irrefl _ (below n mem)
    · exact Nat.lt_irrefl _ (above n mem)
  cases ys with
  | nil =>
      obtain ⟨t, ht, list'⟩ := add_tail_list list fresh
      refine ⟨t, ?_, by simpa using list'⟩
      simp only [List.append_nil] at found list
      simp [insert_chunk, get_head_eq list, found, ht]
  | cons y ys =>
      have prev : h.links (.prev y) = lastPtr () xs := by simpa using (list.linked _ _).2
      have differs : y ≠ n := by rintro rfl; simp at fresh
      obtain ⟨w, hw, noNext, noPrev, -⟩ := last_word () xs
      have noNext := noNext n fun hx => fresh (List.mem_append_left _ hx)
      refine ⟨set (set (set (set h.links (.next n) (.node y)) (.prev n) (lastPtr () xs))
        (.prev y) (.node n)) w (.node n), ?_, ?_⟩
      · simp only [insert_chunk, get_head_eq list, found, Option.bind_eq_bind, Option.bind_some,
          List.head?_cons, orNull_some]
        simp [prev, differs.symm, writeNext, hw]
      · refine list.insert fresh (.of_words hw rfl ?_ ?_ ?_ ?_ ?_)
        · simp
        · simp [(noPrev y).symm]
        · simp [noNext.symm]
        · simp [(noPrev n).symm, differs.symm]
        · intro u h1 h2 h3 h4
          simp [h1, h2, h3, h4]

end Heap

end FreeList

namespace Heap

/-! ## What a represented heap looks like -/

section Rep

variable {h : Heap} {cs pre post : List Chunk} {x : Chunk}

theorem Rep.length_lt (rep : h.Rep cs) : cs.length < stepBound := by
  have := rep.tiles.le
  have := rep.bounded
  unfold stepBound
  omega

theorem Rep.stop_le (rep : h.Rep cs) (mem : x ∈ cs) :
    HEAP_START ≤ x.addr ∧ x.addr + 16 + x.size ≤ h.k_heap_end :=
  rep.tiles.bounds mem

theorem Rep.before (rep : h.Rep (pre ++ x :: post)) {c : Chunk} (mem : c ∈ pre) :
    c.addr + 16 + c.size ≤ x.addr :=
  (List.pairwise_append.mp rep.tiles.apart).2.2 c mem x List.mem_cons_self

theorem Rep.behind (rep : h.Rep (pre ++ x :: post)) {c : Chunk} (mem : c ∈ post) :
    x.addr + 16 + x.size ≤ c.addr :=
  (List.pairwise_cons.mp (List.pairwise_append.mp rep.tiles.apart).2.1).1 c mem

/-- The other chunks keep clear of the bytes of `x`. -/
theorem Rep.others (rep : h.Rep (pre ++ x :: post)) {c : Chunk} (mem : c ∈ pre ++ post) :
    c.addr + 16 + c.size ≤ x.addr ∨ x.addr + 16 + x.size ≤ c.addr :=
  (List.mem_append.mp mem).imp rep.before rep.behind

theorem Rep.frees_before (rep : h.Rep (pre ++ x :: post)) : ∀ a ∈ frees pre, a < x.addr := by
  intro a mem
  obtain ⟨c, hc, -, rfl⟩ := mem_frees.mp mem
  have := rep.before hc
  omega

theorem Rep.frees_behind (rep : h.Rep (pre ++ x :: post)) :
    ∀ a ∈ frees post, x.addr + 16 + x.size ≤ a := by
  intro a mem
  obtain ⟨c, hc, -, rfl⟩ := mem_frees.mp mem
  exact rep.behind hc

/-- A chunk in the list was replaced by others; the headers of the rest are as before. -/
theorem Rep.replace {h' : Heap} {new : List Chunk} (rep : h.Rep (pre ++ x :: post))
    (tiles : Tiles 16 HEAP_START (pre ++ (new ++ post)) h'.k_heap_end)
    (list : IsList h'.links () (frees (pre ++ (new ++ post))))
    (fresh : ∀ c ∈ new, h'.size c.addr = c.size ∧ h'.magic c.addr = CHUNK_MAGIC)
    (frame : ∀ c ∈ pre ++ post, h'.size c.addr = h.size c.addr ∧ h'.magic c.addr = h.magic c.addr)
    (bounded : h'.k_heap_end < 2 ^ 32) : h'.Rep (pre ++ (new ++ post)) := by
  have old : ∀ c ∈ pre ++ (new ++ post),
      h'.size c.addr = c.size ∧ h'.magic c.addr = CHUNK_MAGIC := by
    intro c mem
    by_cases new : c ∈ new
    · exact fresh c new
    · have mem : c ∈ pre ++ post := by simp at mem ⊢; tauto
      have mem' : c ∈ pre ++ x :: post := by simp at mem ⊢; tauto
      obtain ⟨size, magic⟩ := frame c mem
      exact ⟨size.trans (rep.size c mem'), magic.trans (rep.magic c mem')⟩
  exact ⟨tiles, list, fun c mem => (old c mem).1, fun c mem => (old c mem).2, bounded⟩

/-- Nothing lies behind a chunk that ends at the heap end. -/
theorem Rep.last (rep : h.Rep (pre ++ x :: post))
    (stop : x.addr + 16 + x.size = h.k_heap_end) : post = [] := by
  cases post with
  | nil => rfl
  | cons d post =>
      have after := rep.stop_le (x := d) (by simp)
      have apart := rep.behind (c := d) (by simp)
      omega

/-- The free list ends with the last free chunk. -/
theorem get_tail_rep (rep : h.Rep cs) :
    get_tail h.links () = some (orNull (frees cs).getLast?) := get_tail_eq rep.list

end Rep

end Heap

end Krypton
