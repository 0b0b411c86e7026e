import Krypton.Heap.Splits

/-! # First fit

Where some free chunk has twice the room of a request, `_kmalloc` takes the
first such chunk and changes no other, and the heap stays a tiling by chunks of
whole multiples of 16 bytes.
-/

namespace Krypton

open LinkStore Tiling

namespace Heap

/-- Sizes are positive multiples of 16. -/
def Whole (cs : List Chunk) : Prop := ∀ c ∈ cs, 0 < c.size ∧ c.size % 16 = 0

/-- `h` holds the chunks `cs`, all of them of whole size. -/
structure WellFormed (h : Heap) (cs : List Chunk) : Prop where
  rep : h.Rep cs
  whole : Whole cs

/-- The chunks `new` are the chunk `x` with a block of `a` bytes in use at its front. -/
def FrontUsed (x : Chunk) (a : Nat) (new : List Chunk) : Prop :=
  new = [⟨x.addr, x.size, false⟩] ∨ ∃ rest, 16 ≤ rest ∧ x.size = a + 16 + rest ∧
    new = [⟨x.addr, a, false⟩, ⟨x.addr + 16 + a, rest, true⟩]

/-- The first chunk of `cs` with room for twice `a` bytes was taken, and no other was changed. -/
structure FirstFit (h : Heap) (cs : List Chunk) (a ptr : Nat) (h' : Heap) (pre : List Chunk)
    (x : Chunk) (new post : List Chunk) : Prop where
  chunks : cs = pre ++ x :: post
  free : x.free
  room : 2 * a ≤ x.size
  first : ∀ c ∈ cs, c.free → 2 * a ≤ c.size → x.addr ≤ c.addr
  block : ptr = x.addr + 16
  aligned : ptr % 16 = 0
  used : FrontUsed x a new
  heap : h'.WellFormed (pre ++ (new ++ post))
  heap_end : h'.k_heap_end = h.k_heap_end
  bytes : bytes true (pre ++ (new ++ post)) + bytes false (pre ++ (new ++ post)) +
    16 * (pre ++ (new ++ post)).length = bytes true cs + bytes false cs + 16 * cs.length

section Aligned

variable {h : Heap} {cs pre post : List Chunk} {x : Chunk} {a lo hi n fuel : Nat}

theorem whole_aligned (tiles : Tiles 16 lo cs hi) (whole : Whole cs) (start : lo % 16 = 0) :
    ∀ c ∈ cs, c.addr % 16 = 0 := by
  induction cs generalizing lo with
  | nil => simp
  | cons c cs ih =>
      obtain ⟨rfl, rest⟩ := tiles
      have size := (whole c List.mem_cons_self).2
      have next : c.stop 16 % 16 = 0 := by
        unfold Chunk.stop
        omega
      have others := ih rest (fun d mem => whole d (List.mem_cons_of_mem c mem)) next
      intro d mem
      cases List.mem_cons.mp mem with
      | inl same => exact same ▸ start
      | inr mem => exact others d mem

theorem Whole.replace {new : List Chunk} (whole : Whole (pre ++ x :: post)) (fresh : Whole new) :
    Whole (pre ++ (new ++ post)) := by
  intro c mem
  cases List.mem_append.mp mem with
  | inl mem => exact whole c (List.mem_append_left _ mem)
  | inr mem =>
      cases List.mem_append.mp mem with
      | inl mem => exact fresh c mem
      | inr mem => exact whole c (List.mem_append_right _ (List.mem_cons_of_mem x mem))

/-- The block of `a` bytes is the front of the chunk, the rest is no smaller than 16 bytes. -/
theorem carve_used (size : x.size % 16 = 0) (pos : 16 ≤ a) (aligned : a % 16 = 0)
    (room : 2 * a ≤ x.size) : FrontUsed x a (carve a x) ∧ Whole (carve a x) := by
  unfold carve
  split
  · refine ⟨.inl rfl, fun c mem => ?_⟩
    cases List.mem_singleton.mp mem
    exact ⟨Nat.lt_of_lt_of_le (by omega) room, size⟩
  · refine ⟨.inr ⟨x.size - a - 16, by omega, by omega, rfl⟩, fun c mem => ?_⟩
    cases mem with
    | head => exact ⟨Nat.lt_of_lt_of_le (by decide) pos, aligned⟩
    | tail _ mem =>
        cases List.mem_singleton.mp mem
        exact ⟨by simp only; omega, by simp only; omega⟩

/-- A wide chunk is smaller than the address space behind `HEAP_START`. -/
theorem Rep.size_lt (rep : h.Rep cs) (mem : x ∈ cs) : x.size < 2 ^ 30 := by
  have stop := rep.stop_le mem
  have bounded := rep.bounded
  unfold HEAP_START at stop
  omega

theorem kmalloc_first_fit (formed : h.WellFormed cs) (range : 1 ≤ n ∧ n < 2 ^ 31 - 16)
    (fits : ∃ c ∈ cs, c.free ∧ 2 * ((n + 15) / 16 * 16) ≤ c.size) (more : 0 < fuel) :
    ∃ ptr h' pre x new post, h._kmalloc fuel n = some (ptr, h') ∧
      FirstFit h cs ((n + 15) / 16 * 16) ptr h' pre x new post := by
  obtain ⟨rep, whole⟩ := formed
  obtain ⟨c, mem, free, wide⟩ := fits
  have small := rep.size_lt mem
  have aligned := align_eq n (by omega)
  obtain ⟨fuel, rfl⟩ : ∃ k, fuel = k + 1 := ⟨fuel - 1, by omega⟩
  obtain ⟨a, rounded⟩ : ∃ a, a = (n + 15) / 16 * 16 := ⟨_, rfl⟩
  rw [← rounded] at wide aligned ⊢
  have step := kmalloc_step rep aligned (by omega) fuel
  cases found : cs.find? fun c => c.free && a * 2 ≤ c.size with
  | none =>
      have missed := List.find?_eq_none.mp found c mem
      simp [free, Nat.mul_comm a 2, wide] at missed
  | some x =>
      obtain ⟨chosen, pre, post, cut, before⟩ := List.find?_eq_some_iff_append.mp found
      simp only [Bool.and_eq_true, decide_eq_true_eq] at chosen
      subst cut
      have inside : x ∈ pre ++ x :: post := by simp
      have least : 16 ≤ a ∧ a % 16 = 0 := by omega
      obtain ⟨h', taken, rep'⟩ := take_spec rep chosen.1 least.1 chosen.2
      have room : 2 * a ≤ x.size := by omega
      obtain ⟨used, new⟩ := carve_used (whole x inside).2 least.1 least.2 room
      have heap_end := take_end taken
      refine ⟨_, h', pre, x, carve a x, post, step.trans ?_, rfl, chosen.1, room, ?_, rfl, ?_, used,
        ⟨rep', whole.replace new⟩, heap_end, ?_⟩
      · rw [found]
        exact taken
      · intro d mem free wide
        cases List.mem_append.mp mem with
        | inl mem =>
            have small := before d mem
            simp [free, Nat.mul_comm a 2, wide] at small
        | inr mem =>
            cases List.mem_cons.mp mem with
            | inl same => exact Nat.le_of_eq (congrArg Chunk.addr same.symm)
            | inr mem =>
                have apart := rep.behind mem
                omega
      · have start := whole_aligned rep.tiles whole rfl x inside
        omega
      · have total := rep.tiles.bytes
        have total' := rep'.tiles.bytes
        rw [heap_end] at total'
        omega

/-- The heap of one free page. -/
theorem one_page : ∃ h : Heap, h.WellFormed [⟨HEAP_START, 4080, true⟩] := by
  have empty : (Heap.kheap_init ⟨fun _ => .null, fun _ => 0, fun _ => 0, 0⟩).Rep [] :=
    kheap_init_rep _
  obtain ⟨h, -, -, rep⟩ := grow_new empty rfl (by decide)
  refine ⟨h, rep, fun c mem => ?_⟩
  cases List.mem_singleton.mp mem
  decide

theorem kmalloc_first_fit_page : ∃ h ptr h' pre x new post,
    h.WellFormed [⟨HEAP_START, 4080, true⟩] ∧ h._kmalloc 1 100 = some (ptr, h') ∧
      FirstFit h [⟨HEAP_START, 4080, true⟩] 112 ptr h' pre x new post := by
  obtain ⟨h, formed⟩ := one_page
  have more : 0 < 1 := Nat.one_pos
  obtain ⟨ptr, h', pre, x, new, post, run, fits⟩ := kmalloc_first_fit (n := 100) formed
    (by decide) ⟨_, List.mem_cons_self, rfl, by decide⟩ more
  exact ⟨h, ptr, h', pre, x, new, post, formed, run, fits⟩

end Aligned

end Heap

end Krypton
