import Krypton.Heap.Safety

/-! # What a `_kfree` leaves

On any tiled heap, also one with free chunks side by side, `_kfree` ends and the
free list is then coalesced. It covers what it covered before and the freed
chunk, but for the pages cut off the end of the last free chunk.
-/

namespace Krypton

open LinkStore Tiling

namespace Heap

/-- The byte at `b` belongs to a chunk of the free list. -/
def Free (h : Heap) (b : Nat) : Prop :=
  ∃ a, h.OnFreeList a ∧ a ≤ b ∧ b < a + 16 + h.size a

/-- The heap `h'` is what `h` becomes when the chunk is freed. -/
structure Coalesced (h h' : Heap) (chunk : Nat) : Prop where
  increasing : ∀ a b, h'.OnFreeList a → get_next h'.links (.node a) = some (.node b) → a < b
  apart : ∀ a b, h'.OnFreeList a → get_next h'.links (.node a) = some (.node b) →
    a + 16 + h'.size a ≠ b
  covers : ∃ tail k, get_tail h'.links () = some (.node tail) ∧ h'.size tail ≤ PAGE_SIZE ∧
    (∀ b, h'.Free b → b < tail + 16 + h'.size tail) ∧
    ∀ b, h.Free b ∨ chunk ≤ b ∧ b < chunk + 16 + h.size chunk ↔
      h'.Free b ∨
        tail + 16 + h'.size tail ≤ b ∧ b < tail + 16 + h'.size tail + PAGE_SIZE * k

section Freed

variable {h : Heap} {cs pre ms post : List Chunk} {c d t : Chunk}

theorem Rep.free_iff (rep : h.Rep cs) {b : Nat} : h.Free b ↔ Covered 16 cs b := by
  constructor
  · rintro ⟨a, on, lower, upper⟩
    obtain ⟨c, mem, free, rfl⟩ := rep.onFreeList.mp on
    rw [rep.size c mem] at upper
    exact ⟨c, mem, free, lower, upper⟩
  · rintro ⟨c, mem, free, lower, upper⟩
    refine ⟨c.addr, rep.onFreeList.mpr ⟨c, mem, free, rfl⟩, lower, ?_⟩
    rw [rep.size c mem]
    exact upper

/-- A free chunk and the next one on the list, among the chunks. -/
theorem Rep.next_free (rep : h.Rep cs) {a b : Nat} (on : h.OnFreeList a)
    (next : get_next h.links (.node a) = some (.node b)) :
    ∃ pre c ms d post, cs = pre ++ c :: ms ++ d :: post ∧ c.free ∧ d.free ∧
      (∀ m ∈ ms, m.free = false) ∧ c.addr = a ∧ d.addr = b := by
  obtain ⟨c, mem, free, rfl⟩ := rep.onFreeList.mp on
  obtain ⟨pre, rest, rfl⟩ := List.append_of_mem mem
  have list := rep.list
  rw [frees_append, frees_cons_free free] at list
  rw [get_next_eq list, Option.some_inj] at next
  obtain ⟨ms, live, behind⟩ := first_free rest
  cases behind with
  | inl e =>
      rw [e, frees_of_live live] at next
      cases next
  | inr found =>
      obtain ⟨d, post, free', rfl⟩ := found
      refine ⟨pre, c, ms, d, post, by simp, free, free', live, rfl, ?_⟩
      rw [frees_append, frees_of_live live, List.nil_append, frees_cons_free free'] at next
      cases next
      rfl

/-- There is a chunk in use between two chunks that follow each other on the list. -/
theorem Rep.next_stop (rep : h.Rep (pre ++ c :: ms ++ d :: post))
    (isolated : Isolated (pre ++ c :: ms ++ d :: post)) (free : c.free) (free' : d.free) :
    c.stop 16 < d.addr := by
  cases ms with
  | nil =>
      have cut : pre ++ c :: [] ++ d :: post = pre ++ c :: d :: post := by simp
      exact absurd ⟨free, free'⟩ (List.isChain_iff_forall_rel_of_append_cons_cons.mp isolated cut)
  | cons m ms =>
      have before := Rep.before (x := d) (c := m) rep (by simp)
      have cut : pre ++ c :: m :: ms ++ d :: post = pre ++ c :: (m :: ms ++ d :: post) := by simp
      have behind := (cut ▸ rep).behind (c := m) (by simp)
      unfold Chunk.stop
      omega

/-- The free list walks on as before when the last free chunk `t` is cut. -/
theorem cut_next {k a b : Nat} (rep : h.Rep (pre ++ t :: post)) (free : t.free)
    (last : ∀ d ∈ post, d.free = false) (isolated : Isolated (pre ++ t :: post))
    (on : (h.cut t.addr k).OnFreeList a)
    (next : get_next (h.cut t.addr k).links (.node a) = some (.node b)) :
    a + 16 + (h.cut t.addr k).size a < b := by
  have on' : h.OnFreeList a :=
    (onFreeList_iff rep.list).mpr ((onFreeList_iff (h := h.cut t.addr k) rep.list).mp on)
  obtain ⟨pre', c, ms, d, post', cut, cf, df, -, rfl, rfl⟩ := rep.next_free on' next
  have final := rep.tiles.last_free_stop last (d := d) (cut ▸ by simp) df
  have memt : t ∈ pre ++ t :: post := by simp
  have mem : c ∈ pre ++ t :: post := cut ▸ by simp
  have apart : c.stop 16 < d.addr := (cut ▸ rep).next_stop (cut ▸ isolated) cf df
  have other : c.addr ≠ t.addr := by
    intro same
    have both := rep.tiles.addr_inj (by decide) mem memt same
    subst both
    unfold Chunk.stop at final apart
    omega
  have size : (h.cut t.addr k).size c.addr = c.size := by
    simp [Heap.cut, setSize, other, rep.size c mem]
  rw [size]
  exact apart

/-- The bytes of the cut pages were free. -/
theorem cut_free {k b : Nat} (rep : h.Rep (pre ++ t :: post)) (free : t.free)
    (enough : PAGE_SIZE * k ≤ t.size) :
    h.Free b ↔ (h.cut t.addr k).Free b ∨
      t.addr + 16 + (h.cut t.addr k).size t.addr ≤ b ∧
        b < t.addr + 16 + (h.cut t.addr k).size t.addr + PAGE_SIZE * k := by
  have mem : t ∈ pre ++ t :: post := by simp
  have size := rep.size t mem
  have less := h.cut_size t.addr k
  have same {a : Nat} : (h.cut t.addr k).OnFreeList a ↔ h.OnFreeList a :=
    (onFreeList_iff (h := h.cut t.addr k) rep.list).trans (onFreeList_iff rep.list).symm
  have others {a : Nat} (other : a ≠ t.addr) : (h.cut t.addr k).size a = h.size a := by
    simp [Heap.cut, setSize, other]
  constructor
  · rintro ⟨a, on, lower, upper⟩
    by_cases here : a = t.addr
    · subst here
      by_cases kept : b < t.addr + 16 + (h.cut t.addr k).size t.addr
      · exact .inl ⟨t.addr, same.mpr on, lower, kept⟩
      · exact .inr ⟨Nat.le_of_not_lt kept, by omega⟩
    · exact .inl ⟨a, same.mpr on, lower, others here ▸ upper⟩
  · rintro (⟨a, on, lower, upper⟩ | ⟨lower, upper⟩)
    · refine ⟨a, same.mp on, lower, ?_⟩
      by_cases here : a = t.addr
      · subst here
        omega
      · rwa [others here] at upper
    · exact ⟨t.addr, rep.onFreeList.mpr ⟨t, mem, free, rfl⟩, by omega, by omega⟩

/-- What remains of the last free chunk is the end of the free bytes. -/
theorem cut_end {k b : Nat} (rep : h.Rep (pre ++ t :: post))
    (last : ∀ d ∈ post, d.free = false) (within : (h.cut t.addr k).Free b) :
    b < t.addr + 16 + (h.cut t.addr k).size t.addr := by
  obtain ⟨a, on, lower, upper⟩ := within
  have on' : h.OnFreeList a :=
    (onFreeList_iff rep.list).mpr ((onFreeList_iff (h := h.cut t.addr k) rep.list).mp on)
  obtain ⟨c, mem, free, rfl⟩ := rep.onFreeList.mp on'
  by_cases here : c.addr = t.addr
  · rwa [here] at upper
  · have size : (h.cut t.addr k).size c.addr = c.size := by
      simp [Heap.cut, setSize, here, rep.size c mem]
    have final := rep.tiles.last_free_stop last mem free
    have apart := rep.others (x := t) (c := c) (by
      have other : c ≠ t := fun same => here (same ▸ rfl)
      simp [other] at mem ⊢
      tauto)
    unfold Chunk.stop at final
    omega

/-- On any tiled heap freeing a block ends, and coalesces the free list. -/
theorem kfree_coalesced (rep : h.Rep cs) {chunk size : Nat} (mem : (chunk, size) ∈ lives cs) :
    ∃ h', h._kfree (chunk + 16) = some h' ∧ Coalesced h h' chunk := by
  obtain ⟨pre, post, rfl⟩ := List.append_of_mem (mem_lives.mp mem)
  obtain ⟨h₁, ms, z, zs, cut, free, live, rep₁, -, run⟩ := kfree_eq rep
  have isolated : Isolated (ms ++ coalesceFrom 16 z zs) := coalesceFrom_isolated.append live
  -- coalescing does not change which bytes are free
  have covered (b : Nat) : h.Free b ∨ chunk ≤ b ∧ b < chunk + 16 + h.size chunk ↔ h₁.Free b := by
    have freed : h.Free b ∨ chunk ≤ b ∧ b < chunk + 16 + h.size chunk ↔
        Covered 16 (pre ++ ⟨chunk, size, true⟩ :: post) b := by
      have here : h.size chunk = size := rep.size ⟨chunk, size, false⟩ (by simp)
      rw [rep.free_iff, here, covered_append, covered_append, covered_cons, covered_cons]
      simp only [Bool.false_eq_true, false_and, false_or, true_and, Chunk.stop]
      tauto
    have tiles := freed_tiles rep
    rw [cut] at tiles freed
    obtain ⟨mid, -, behind⟩ := tiles_append.mp tiles
    rw [freed, rep₁.free_iff, covered_append, covered_append, coalesceFrom_covered behind]
  cases last_free (ms ++ coalesceFrom 16 z zs) with
  | inl none =>
      have some_free := coalesceFrom_first 16 zs free
      rw [frees_append, List.append_eq_nil_iff] at none
      rw [none.2] at some_free
      cases some_free
  | inr found =>
      obtain ⟨pre', t, post', split, tf, last⟩ := found
      rw [split] at rep₁ isolated
      obtain ⟨enough, small⟩ := surplus_le t.size
      have tail : get_tail (h₁.cut t.addr (surplus t.size)).links () = some (.node t.addr) := by
        have tail := get_tail_rep rep₁
        rwa [frees_last tf last] at tail
      have less := h₁.cut_size t.addr (surplus t.size)
      rw [rep₁.size t (by simp)] at less
      refine ⟨_, run.trans (trimTail_eq rep₁ tf last), ?_, ?_, t.addr, surplus t.size, tail, ?_, ?_,
          ?_⟩
      · intro a b on next
        have apart := cut_next rep₁ tf last isolated on next
        omega
      · intro a b on next
        exact Nat.ne_of_lt (cut_next rep₁ tf last isolated on next)
      · rw [less]
        exact small
      · intro b
        exact cut_end rep₁ last
      · intro b
        exact (covered b).trans (cut_free rep₁ tf enough)

/-- Two free chunks side by side, and a block in use behind them. -/
def pair : List Chunk :=
  [⟨0xC0400000, 16, true⟩, ⟨0xC0400020, 16, true⟩, ⟨0xC0400040, 4016, false⟩]

theorem pair_rep : ∃ h : Heap, h.Rep pair := by
  obtain ⟨s, -, one⟩ := add_tail_list (n := 0xC0400000)
    (kheap_init_rep ⟨fun _ => .null, fun _ => 0, fun _ => 0, 0⟩).list (List.not_mem_nil)
  obtain ⟨t, -, two⟩ := add_tail_list (n := 0xC0400020) one (by decide)
  have below : 0xC0401000 < 2 ^ 32 := by decide
  refine ⟨⟨t, fun a => if a = 0xC0400040 then 4016 else 16, fun _ => CHUNK_MAGIC, 0xC0401000⟩,
    ⟨rfl, rfl, rfl, rfl⟩, two, ?_, fun _ _ => rfl, below⟩
  intro c mem
  simp only [pair, List.mem_cons, List.not_mem_nil, or_false] at mem
  obtain rfl | rfl | rfl := mem <;> rfl

theorem kfree_coalesced_pair :
    ∃ h h' : Heap, h.Rep pair ∧ h._kfree 0xC0400050 = some h' ∧ Coalesced h h' 0xC0400040 := by
  obtain ⟨h, rep⟩ := pair_rep
  have mem : (0xC0400040, 4016) ∈ lives pair := by decide
  obtain ⟨h', run, coalesced⟩ := kfree_coalesced rep mem
  exact ⟨h, h', rep, run, coalesced⟩

end Freed

end Heap

end Krypton
