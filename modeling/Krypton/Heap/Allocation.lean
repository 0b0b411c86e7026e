import Krypton.Heap.Layout

/-! # Allocation on the tiling

The search, the carving of a chunk and the growth of the heap by a page, and
from them `_kmalloc`: where a chunk fits widely, or the last chunk of the heap
is free and the address space suffices, one more chunk is in use and the others
are as before.
-/

namespace Krypton

open LinkStore Tiling

namespace Heap

/-- What a chunk becomes when `a` bytes of it are allocated. -/
def carve (a : Nat) (x : Chunk) : List Chunk :=
  if x.size ≤ a + 16 then [{ x with free := false }]
  else [⟨x.addr, a, false⟩, ⟨x.addr + 16 + a, x.size - a - 16, true⟩]

section Allocation

variable {h : Heap} {cs pre post : List Chunk} {x : Chunk}

/-- The search finds the first free chunk of twice the size. -/
theorem fit_spec (rep : h.Rep cs) {a : Nat} (small : a * 2 < 2 ^ 32) (xs ys : List Chunk)
    (cut : cs = xs ++ ys) {fuel : Nat} (enough : ys.length ≤ fuel) :
    h.fit a fuel (orNull (frees ys).head?) =
      some ((ys.find? fun c => c.free && a * 2 ≤ c.size).map (·.addr)) := by
  induction ys generalizing xs fuel with
  | nil => cases fuel <;> rfl
  | cons y ys ih =>
      obtain ⟨fuel, rfl⟩ : ∃ k, fuel = k + 1 := ⟨fuel - 1, by simp at enough; omega⟩
      have enough : ys.length ≤ fuel := by simpa using enough
      have mem : y ∈ cs := cut ▸ by simp
      have rest := ih (xs ++ [y]) (by simpa using cut) enough
      cases hy : y.free with
      | false =>
          rw [frees_cons_live hy, ih (xs ++ [y]) (by simpa using cut) (Nat.le_succ_of_le enough),
            List.find?_cons_of_neg (by simp [hy])]
      | true =>
          have next := rep.list
          rw [cut, frees_append, frees_cons_free hy] at next
          have next := get_next_eq next
          have wide : a * 2 % 4294967296 = a * 2 := Nat.mod_eq_of_lt small
          by_cases fits : a * 2 ≤ y.size
          · rw [List.find?_cons_of_pos (by simp [hy, fits])]
            simp [hy, fit, rep.magic y mem, rep.size y mem, wide, Nat.not_lt.mpr fits]
          · rw [List.find?_cons_of_neg (by simp [fits])]
            simp [hy, fit, rep.magic y mem, rep.size y mem, wide, Nat.lt_of_not_le fits, next,
              rest]

/-- The new chunk is linked behind the one it was cut from, which keeps the rest. -/
theorem split_spec (rep : h.Rep (pre ++ x :: post)) (free : x.free) {a : Nat}
    (room : a + 16 < x.size) :
    ∃ t, h.split x.addr a = some
        { links := t, k_heap_end := h.k_heap_end
          size := Function.update
              (Function.update h.size (x.addr + 16 + a) (x.size - a - 16)) x.addr a
          magic := Function.update h.magic (x.addr + 16 + a) CHUNK_MAGIC } ∧
      IsList t () (frees pre ++ x.addr :: (x.addr + 16 + a) :: frees post) := by
  have mem : x ∈ pre ++ x :: post := by simp
  have stop := rep.stop_le mem
  have bounded := rep.bounded
  have ptr : add32 x.addr sizeofChunk = x.addr + 16 := add32_sizeofChunk (by omega)
  have new : add32 (add32 x.addr sizeofChunk) a = x.addr + 16 + a := by
    rw [ptr, add32_eq (by omega)]
  have left : sub32 (h.size x.addr) a = x.size - a := by
    rw [rep.size x mem, sub32_eq (by omega) (by omega)]
  have rest : sub32 (sub32 (h.size x.addr) a) sizeofChunk = x.size - a - 16 := by
    rw [left, sizeofChunk, sub32_eq (by omega) (by omega)]
  have list := rep.list
  have below := rep.frees_before
  have above := rep.frees_behind
  have count := frees_length_le pre
  have short : (frees pre ++ [x.addr]).length < stepBound := by
    have := rep.length_lt
    simp only [List.length_append, List.length_cons, List.length_nil] at this ⊢
    omega
  rw [frees_append, frees_cons_free free, List.append_cons] at list
  obtain ⟨t, ht, list'⟩ := insert_chunk_spec (n := x.addr + 16 + a) (frees pre ++ [x.addr])
    (frees post)
    ((h.setSize (x.addr + 16 + a) (x.size - a - 16)).setMagic (x.addr + 16 + a) CHUNK_MAGIC) list
    (by
      intro y hy
      rcases List.mem_append.mp hy with hy | hy
      · have := below y hy
        omega
      · have := List.mem_singleton.mp hy
        omega)
    (by
      intro y hy
      have := above y hy
      omega)
    short
  refine ⟨t, ?_, by simpa using list'⟩
  simp only [split, new, rest, ht, Option.bind_eq_bind, Option.bind_some]
  rfl

theorem carve_tiles {a lo : Nat} (h : Tiles 16 lo (x :: post) hi) :
    Tiles 16 lo (carve a x ++ post) hi := by
  obtain ⟨rfl, rest⟩ := h
  unfold carve
  split
  · exact ⟨rfl, rest⟩
  next room =>
    have stop : Chunk.stop 16 ⟨x.addr + 16 + a, x.size - a - 16, true⟩ = x.stop 16 := by
      unfold Chunk.stop
      simp only
      omega
    refine ⟨rfl, rfl, ?_⟩
    rw [stop]
    exact rest

/-- Both branches of the source do the same once the next free chunk is checked. -/
theorem take_eq {chunk a : Nat} {next : Option Nat}
    (read : get_next h.links (.node chunk) = some (orNull next))
    (checked : ∀ n, next = some n → h.magic n = CHUNK_MAGIC) :
    h.take a chunk = (h.resize chunk a).bind fun h' => (remove h'.links (.node chunk)).bind fun t =>
      some (add32 chunk sizeofChunk, { h' with links := t }) := by
  unfold take
  rw [read]
  generalize h.resize chunk a = resized
  cases next with
  | none => cases resized <;> simp
  | some n => simp [checked n rfl]

/-- Taking a chunk that fits widely carves the block out of it. -/
theorem take_spec (rep : h.Rep (pre ++ x :: post)) (free : x.free) {a : Nat} (pos : 16 ≤ a)
    (fits : a * 2 ≤ x.size) :
    ∃ h', h.take a x.addr = some (x.addr + 16, h') ∧ h'.Rep (pre ++ (carve a x ++ post)) := by
  have mem : x ∈ pre ++ x :: post := by simp
  have stop := rep.stop_le mem
  have bounded := rep.bounded
  have ptr : add32 x.addr sizeofChunk = x.addr + 16 := add32_sizeofChunk (by omega)
  have room : sub32 (h.size x.addr) sizeofChunk = x.size - 16 := by
    rw [rep.size x mem, sizeofChunk, sub32_eq (by omega) (by omega)]
  have list := rep.list
  rw [frees_append, frees_cons_free free] at list
  have next := get_next_eq list
  have tiles' : Tiles 16 HEAP_START (pre ++ (carve a x ++ post)) h.k_heap_end := by
    obtain ⟨mid, before, after⟩ := tiles_append.mp rep.tiles
    exact tiles_append.mpr ⟨mid, before, carve_tiles after⟩
  have checked : ∀ n, (frees post).head? = some n → h.magic n = CHUNK_MAGIC := by
    intro n first
    obtain ⟨c, hc, -, rfl⟩ := mem_frees.mp (List.mem_of_mem_head? first)
    exact rep.magic c (by simp [hc])
  rw [take_eq next checked, ptr, resize, room]
  by_cases whole : x.size ≤ a + 16
  · obtain ⟨t, ht, list'⟩ := remove_list _ _ list
    refine ⟨{ h with links := t }, by simp [show x.size - 16 ≤ a by omega, ht], ?_⟩
    have carved : carve a x = [{ x with free := false }] := if_pos whole
    rw [carved] at tiles' ⊢
    refine rep.replace tiles' (by simpa using list') ?_ (fun _ _ => ⟨rfl, rfl⟩) bounded
    simp [rep.size x mem, rep.magic x mem]
  · obtain ⟨t, ht, list'⟩ := split_spec rep free (Nat.lt_of_not_le whole)
    obtain ⟨u, hu, list''⟩ := remove_list _ _ list'
    refine ⟨{ links := u, k_heap_end := h.k_heap_end
              size := Function.update (Function.update h.size (x.addr + 16 + a) (x.size - a - 16))
                x.addr a
              magic := Function.update h.magic (x.addr + 16 + a) CHUNK_MAGIC },
      by simp [show ¬ x.size - 16 ≤ a by omega, ht, hu], ?_⟩
    have carved : carve a x =
        [⟨x.addr, a, false⟩, ⟨x.addr + 16 + a, x.size - a - 16, true⟩] := if_neg whole
    rw [carved] at tiles' ⊢
    refine rep.replace tiles' (by simpa using list'') ?_ ?_ bounded
    · have behind : x.addr + 16 + a ≠ x.addr := by omega
      simp [rep.magic x mem, behind, behind.symm]
    · intro c hc
      have apart := rep.others hc
      have away : c.addr ≠ x.addr ∧ c.addr ≠ x.addr + 16 + a := by omega
      simp [away]

/-- Growing an empty free list makes a chunk of the new page. -/
theorem grow_new (rep : h.Rep cs) (empty : frees cs = [])
    (room : h.k_heap_end + PAGE_SIZE < 2 ^ 32) :
    ∃ h', h.grow h.k_heap_end = some h' ∧ h'.k_heap_end = h.k_heap_end + PAGE_SIZE ∧
      h'.Rep (cs ++ [⟨h.k_heap_end, PAGE_SIZE - 16, true⟩]) := by
  have list := rep.list
  rw [empty] at list
  obtain ⟨t, ht, list'⟩ := add_tail_list (n := h.k_heap_end) list (by simp)
  have higher : add32 h.k_heap_end PAGE_SIZE = h.k_heap_end + PAGE_SIZE := add32_eq room
  have page : sub32 (h.k_heap_end + PAGE_SIZE) h.k_heap_end = PAGE_SIZE := by
    rw [sub32_eq (by omega) room, Nat.add_sub_cancel_left]
  have rest : sub32 PAGE_SIZE sizeofChunk = PAGE_SIZE - 16 := sub32_eq (by decide) (by decide)
  have below : ∀ c ∈ cs, c.addr ≠ h.k_heap_end := fun c mem => by
    have := rep.stop_le mem
    omega
  refine ⟨{ links := t, k_heap_end := h.k_heap_end + PAGE_SIZE
            size := Function.update h.size h.k_heap_end (PAGE_SIZE - 16)
            magic := Function.update h.magic h.k_heap_end CHUNK_MAGIC }, ?_, rfl, ?_⟩
  · have tail := get_tail_rep rep
    rw [empty] at tail
    simp [grow, tail, setSize, setMagic, higher, page, rest, ht]
  · refine ⟨?_, by simpa [empty] using list', ?_, ?_, room⟩
    · refine tiles_append.mpr ⟨_, rep.tiles, rfl, ?_⟩
      simp [Tiles, Chunk.stop, PAGE_SIZE]
    · intro c mem
      rcases List.mem_append.mp mem with mem | mem
      · simp [below c mem, rep.size c mem]
      · simp [List.mem_singleton.mp mem]
    · intro c mem
      rcases List.mem_append.mp mem with mem | mem
      · simp [below c mem, rep.magic c mem]
      · simp [List.mem_singleton.mp mem]

/-- Growing a free chunk that ends at the heap end extends it by the new page. -/
theorem grow_last {t : Chunk} (rep : h.Rep (pre ++ [t])) (free : t.free) (heap_end_addr : Nat)
    (room : h.k_heap_end + PAGE_SIZE < 2 ^ 32) :
    ∃ h', h.grow heap_end_addr = some h' ∧ h'.k_heap_end = h.k_heap_end + PAGE_SIZE ∧
      h'.Rep (pre ++ [{ t with size := t.size + PAGE_SIZE }]) := by
  have mem : t ∈ pre ++ [t] := by simp
  have stop := rep.stop_le mem
  have tail : get_tail h.links () = some (.node t.addr) := by
    rw [get_tail_rep rep, frees_append, frees_cons_free free]
    simp
  have higher : add32 h.k_heap_end PAGE_SIZE = h.k_heap_end + PAGE_SIZE := add32_eq room
  have larger : add32 (h.size t.addr) PAGE_SIZE = t.size + PAGE_SIZE := by
    rw [rep.size t mem, add32_eq (by omega)]
  obtain ⟨mid, before, rfl, hstop⟩ := tiles_append.mp rep.tiles
  refine ⟨{ h with k_heap_end := h.k_heap_end + PAGE_SIZE
                   size := Function.update h.size t.addr (t.size + PAGE_SIZE) }, ?_, rfl, ?_⟩
  · simp [grow, tail, higher, larger, setSize]
  · have tiles' : Tiles 16 HEAP_START (pre ++ ([{ t with size := t.size + PAGE_SIZE }] ++ []))
        (h.k_heap_end + PAGE_SIZE) := by
      refine tiles_append.mpr ⟨_, before, rfl, ?_⟩
      simp [Tiles, Chunk.stop] at hstop ⊢
      omega
    have others : ∀ c ∈ pre ++ [], c.addr ≠ t.addr := by
      intro c hc
      have apart := rep.others hc
      omega
    have list := rep.list
    rw [frees_append, frees_cons_free free] at list
    have rep' : Rep { h with k_heap_end := h.k_heap_end + PAGE_SIZE
                             size := Function.update h.size t.addr (t.size + PAGE_SIZE) }
        (pre ++ ([{ t with size := t.size + PAGE_SIZE }] ++ [])) :=
      rep.replace tiles' (by simpa [free] using list) (by simp [rep.magic t mem])
        (fun c hc => by simp [others c hc]) room
    simpa using rep'

/-! ## `_kmalloc` -/

/-- The block carved from a chunk joins the chunks in use. -/
theorem carve_lives {a : Nat} (free : x.free) (fits : a * 2 ≤ x.size) :
    ∃ size, a ≤ size ∧
      (lives (pre ++ (carve a x ++ post))).Perm ((x.addr, size) :: lives (pre ++ x :: post)) := by
  have others : lives (pre ++ x :: post) = lives pre ++ lives post := by simp [free]
  rw [others]
  by_cases whole : x.size ≤ a + 16
  · refine ⟨x.size, by omega, ?_⟩
    have carved : lives (pre ++ (carve a x ++ post)) =
        lives pre ++ (x.addr, x.size) :: lives post := by simp [carve, whole]
    rw [carved]
    exact List.perm_middle
  · refine ⟨a, Nat.le_refl a, ?_⟩
    have carved : lives (pre ++ (carve a x ++ post)) =
        lives pre ++ (x.addr, a) :: lives post := by simp [carve, whole]
    rw [carved]
    exact List.perm_middle

/-- A call on the chunks `cs` that returned a block of at least `a` bytes: the
    chunk before it is in use and all other chunks in use are as before. -/
def Allocated (cs : List Chunk) (a : Nat) (result : Option (Nat × Heap)) : Prop :=
  ∃ chunk size h' cs', result = some (chunk + 16, h') ∧ h'.Rep cs' ∧ a ≤ size ∧
    (lives cs').Perm ((chunk, size) :: lives cs)

/-- A step that leaves the chunks in use alone comes before an allocation. -/
theorem Allocated.after {cs cs' : List Chunk} {a : Nat} {result : Option (Nat × Heap)}
    (same : lives cs' = lives cs) (done : Allocated cs' a result) : Allocated cs a result := by
  unfold Allocated at done ⊢
  rwa [← same]

theorem take_allocated (rep : h.Rep (pre ++ x :: post)) (free : x.free) {a : Nat} (pos : 16 ≤ a)
    (fits : a * 2 ≤ x.size) : Allocated (pre ++ x :: post) a (h.take a x.addr) := by
  obtain ⟨h', ht, rep'⟩ := take_spec rep free pos fits
  obtain ⟨size, enough, used⟩ := carve_lives free fits
  exact ⟨x.addr, size, h', _, ht, rep', enough, used⟩

/-- One activation of `_kmalloc`. -/
theorem kmalloc_step (rep : h.Rep cs) {n a : Nat} (aligned : align n = a)
    (small : a * 2 < 2 ^ 32) (fuel : Nat) :
    _kmalloc (fuel + 1) h n = match cs.find? fun c => c.free && a * 2 ≤ c.size with
      | some c => h.take a c.addr
      | none => (h.grow h.k_heap_end).bind fun h' => _kmalloc fuel h' a := by
  have found := fit_spec rep small [] cs rfl (Nat.le_of_lt rep.length_lt)
  have head := get_head_eq rep.list
  simp only [_kmalloc, head, aligned, found, Option.bind_eq_bind, Option.bind_some]
  cases cs.find? fun c => c.free && a * 2 ≤ c.size <;> rfl

/-- Where some chunk fits widely, no recursion is needed. -/
theorem kmalloc_fits (rep : h.Rep cs) {n a : Nat} (aligned : align n = a) (pos : 16 ≤ a)
    (small : a * 2 < 2 ^ 32) (fits : ∃ c ∈ cs, c.free ∧ a * 2 ≤ c.size) (fuel : Nat) :
    Allocated cs a (_kmalloc (fuel + 1) h n) := by
  rw [kmalloc_step rep aligned small]
  cases first : cs.find? fun c => c.free && a * 2 ≤ c.size with
  | none =>
      obtain ⟨c, mem, free, wide⟩ := fits
      have := List.find?_eq_none.mp first c mem
      simp [free, wide] at this
  | some c =>
      have chosen := List.find?_some first
      simp only [Bool.and_eq_true, decide_eq_true_eq] at chosen
      obtain ⟨pre, post, rfl⟩ := List.append_of_mem (List.mem_of_find?_eq_some first)
      exact take_allocated rep chosen.1 pos chosen.2

/-- Where no chunk fits widely, the heap grows and the call starts again. -/
theorem kmalloc_grows (rep : h.Rep cs) {n a : Nat} (aligned : align n = a)
    (small : a * 2 < 2 ^ 32) (full : ∀ c ∈ cs, c.free → c.size < a * 2) (fuel : Nat) :
    _kmalloc (fuel + 1) h n = (h.grow h.k_heap_end).bind fun h' => _kmalloc fuel h' a := by
  have none : cs.find? (fun c => c.free && a * 2 ≤ c.size) = none := by
    rw [List.find?_eq_none]
    intro c mem
    simpa using full c mem
  rw [kmalloc_step rep aligned small, none]

/-- The pages that `missing` bytes take. -/
def pages (missing : Nat) : Nat := (missing + (PAGE_SIZE - 1)) / PAGE_SIZE

theorem le_pages (missing : Nat) : missing ≤ PAGE_SIZE * pages missing := by
  unfold pages PAGE_SIZE
  omega

/-- Growth within the address space takes few steps. -/
theorem short_growth {n : Nat} {end_addr : Nat} (room : end_addr + PAGE_SIZE * (1 + n) < 2 ^ 32) :
    n < stepBound := by
  unfold PAGE_SIZE at room
  unfold stepBound
  omega

/-- With the last chunk free, each recursion adds a page to it. The induction is
    on the pages still to come. -/
theorem kmalloc_last {t : Chunk} (k : Nat) (rep : h.Rep (pre ++ [t])) (free : t.free) {n a : Nat}
    (aligned : align n = a) (stable : align a = a) (pos : 16 ≤ a) (small : a * 2 < 2 ^ 32)
    (enough : a * 2 ≤ t.size + PAGE_SIZE * k) (room : h.k_heap_end + PAGE_SIZE * k < 2 ^ 32)
    {fuel : Nat} (steps : k < fuel) : Allocated (pre ++ [t]) a (_kmalloc fuel h n) := by
  induction k generalizing h t n fuel with
  | zero =>
      obtain ⟨fuel, rfl⟩ : ∃ m, fuel = m + 1 := ⟨fuel - 1, by omega⟩
      exact kmalloc_fits rep aligned pos small ⟨t, by simp, free, by simpa using enough⟩ fuel
  | succ k ih =>
      obtain ⟨fuel, rfl⟩ : ∃ m, fuel = m + 1 := ⟨fuel - 1, by omega⟩
      have page : PAGE_SIZE * (k + 1) = PAGE_SIZE * k + PAGE_SIZE := Nat.mul_succ _ _
      by_cases fits : ∃ c ∈ pre ++ [t], c.free ∧ a * 2 ≤ c.size
      · exact kmalloc_fits rep aligned pos small fits fuel
      · push Not at fits
        obtain ⟨h', grown, higher, rep'⟩ := grow_last rep free h.k_heap_end (by omega)
        rw [kmalloc_grows rep aligned small fits, grown, Option.bind_some]
        refine Allocated.after ?_ (ih rep' free stable ?_ ?_ ?_)
        · simp [free]
        · simp only
          omega
        · omega
        · omega

/-- With no chunk free, the first page becomes a chunk of its own. -/
theorem kmalloc_empty (rep : h.Rep cs) (empty : frees cs = []) {n a : Nat}
    (aligned : align n = a) (stable : align a = a) (pos : 16 ≤ a) (small : a * 2 < 2 ^ 32)
    (room : h.k_heap_end + PAGE_SIZE * (1 + pages (a * 2 - (PAGE_SIZE - 16))) < 2 ^ 32) {fuel : Nat}
    (steps : 1 + pages (a * 2 - (PAGE_SIZE - 16)) < fuel) :
    Allocated cs a (_kmalloc fuel h n) := by
  obtain ⟨fuel, rfl⟩ : ∃ m, fuel = m + 1 := ⟨fuel - 1, by omega⟩
  have full : ∀ c ∈ cs, c.free → c.size < a * 2 := by
    intro c mem free
    have : c.addr ∈ frees cs := mem_frees.mpr ⟨c, mem, free, rfl⟩
    rw [empty] at this
    cases this
  have page : PAGE_SIZE * (1 + pages (a * 2 - (PAGE_SIZE - 16))) =
      PAGE_SIZE * pages (a * 2 - (PAGE_SIZE - 16)) + PAGE_SIZE := by
    rw [Nat.add_comm 1, Nat.mul_succ]
  obtain ⟨h', grown, higher, rep'⟩ := grow_new rep empty (by omega)
  rw [kmalloc_grows rep aligned small full, grown, Option.bind_some]
  refine Allocated.after ?_ (kmalloc_last (pages (a * 2 - (PAGE_SIZE - 16))) rep' rfl stable stable
    pos small ?_ ?_ ?_)
  · simp
  · have := le_pages (a * 2 - (PAGE_SIZE - 16))
    simp only
    omega
  · omega
  · omega

end Allocation

end Heap

end Krypton
