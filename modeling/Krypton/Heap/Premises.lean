import Krypton.Heap.Growth

/-! # What the accounting of frames rests on

Page 0 is used, the directory names itself, no two of its entries name one table
and no frame of a table is free. Without any one of these there are runs that
leave pages of the heap without a frame of their own.
-/

namespace Krypton

open LinkStore Tiling

namespace Paging

/-- The end of the two directory entries from which the heap grows. -/
def FOLD_END : Nat := HEAP_START + 0x800000

/-- The directory entries for the first 8 MiB of the heap name one table, in the frame `f`,
    and `n` frames are free. -/
structure Folded (s : Paging) (f n : Nat) : Prop where
  recursive : s.Recursive
  entries : ∀ i, i = 769 ∨ i = 770 → present (s.pde i) ∧ frameOf (s.pde i) = f
  apart : s.cr3 ≠ f
  counted : s.pages.Counted
  null : 0 ∉ s.pages.freePages
  enough : n ≤ s.pages.freePages.card

variable {s t : Paging} {f n v w p flags : Nat}

theorem dir_of_fold (low : HEAP_START ≤ v) (high : v < FOLD_END) :
    v >>> 22 = 769 ∨ v >>> 22 = 770 := by
  unfold FOLD_END HEAP_START at *
  rw [Nat.shiftRight_eq_div_pow]
  omega

theorem Folded.walk (folded : s.Folded f n) (low : HEAP_START ≤ v) (high : v < FOLD_END) :
    s.walk v =
      if present (s.frames f ((v >>> 12) &&& 0x03FF)) then
        some (frameOf (s.frames f ((v >>> 12) &&& 0x03FF))) else none := by
  obtain ⟨there, names⟩ := folded.entries _ (dir_of_fold low high)
  unfold pde at there names
  unfold Paging.walk
  simp only [there, names, if_true]

theorem Folded.mapped_iff (folded : s.Folded f n) (low : HEAP_START ≤ v) (high : v < FOLD_END) :
    (s.walk v).isSome ↔ present (s.frames f ((v >>> 12) &&& 0x03FF)) := by
  rw [folded.walk low high]
  split <;> simp [*]

/-- The pages that are 4 MiB apart are one. -/
theorem Folded.walk_twice (folded : s.Folded f n) :
    s.walk (HEAP_START + 0x400000) = s.walk HEAP_START := by
  rw [folded.walk (by decide) (by decide), folded.walk (Nat.le_refl _) (by decide)]
  rfl

/-- Mapping a page leaves no page without a frame. -/
theorem Folded.mm_map (folded : t.Folded f n) (low : HEAP_START ≤ v) (high : v < FOLD_END)
    (nonzero : p ≠ 0) (entered : s.enter (v >>> 22) flags = some t) :
    ∃ u, s.mm_map (p * 4096) v flags = some (v, u) ∧ u.Folded f n ∧ (u.walk v).isSome ∧
      ∀ w, HEAP_START ≤ w → w < FOLD_END → (t.walk w).isSome → (u.walk w).isSome := by
  have dir := dir_of_fold low high
  obtain ⟨there, names⟩ := folded.entries _ dir
  obtain ⟨new, -⟩ := entry_spec flags (Nat.mul_mod_left p 4096)
  have mapped := mm_map_entered (Nat.mul_ne_zero nonzero (Nat.succ_ne_zero 4095)) entered
    folded.recursive (show v >>> 22 < 1024 by omega) there
  rw [names] at mapped
  let u : Paging := { t with
    frames := set t.frames f ((v >>> 12) &&& 0x03FF)
      (p * 4096 ||| (flags &&& 0xFFF) ||| 0x01) }
  have entries (i : Nat) : u.pde i = t.pde i := congrFun (set_frame folded.apart) i
  have folded' : u.Folded f n := by
    refine ⟨?_, fun i hi => ?_, folded.apart, folded.counted, folded.null, folded.enough⟩
    · unfold Recursive
      rw [entries]
      exact folded.recursive
    · rw [entries]
      exact folded.entries i hi
  have slot : u.frames f ((v >>> 12) &&& 0x03FF) = p * 4096 ||| (flags &&& 0xFFF) ||| 0x01 :=
    set_self ..
  refine ⟨u, mapped, folded', (folded'.mapped_iff low high).mpr (slot.symm ▸ new),
    fun w hw hw' old => (folded'.mapped_iff hw hw').mpr ?_⟩
  by_cases here : (w >>> 12) &&& 0x03FF = (v >>> 12) &&& 0x03FF
  · rw [here, slot]
    exact new
  · have word : u.frames f ((w >>> 12) &&& 0x03FF) = t.frames f ((w >>> 12) &&& 0x03FF) :=
      set_word here
    rw [word]
    exact (folded.mapped_iff hw hw').mp old

/-- Where the frame for a new table is the one of the next table, the two tables are one. -/
theorem folded_of_enter {pages : PageMap} (flags : Nat) (h : s.Recursive)
    (absent : ¬ present (s.pde 769))
    (next : present (s.pde 770) ∧ frameOf (s.pde 770) = f) (other : s.cr3 ≠ f)
    (alloc : s.pages.pa_alloc = some (f * 4096, pages)) (counted : pages.Counted)
    (null : 0 ∉ pages.freePages) (enough : n ≤ pages.freePages.card) :
    ∃ t, s.enter 769 flags = some t ∧ t.Folded f n := by
  have frame : f * 4096 / 4096 = f := Nat.mul_div_cancel f (Nat.succ_pos 4095)
  have apart : s.cr3 ≠ f * 4096 / 4096 := frame.symm ▸ other
  obtain ⟨there, names⟩ := entry_spec flags (Nat.mul_mod_left f 4096)
  have entry : (s.withTable 769 (f * 4096) flags pages).pde 769 = _ := withTable_pde apart
  have same {i : Nat} (old : i ≠ 769) : (s.withTable 769 (f * 4096) flags pages).pde i = s.pde i :=
    withTable_others apart old
  refine ⟨_, enter_new h (by decide) absent alloc apart, ?_, fun i hi => ?_, other, counted, null,
    enough⟩
  · unfold Recursive
    rw [same (by decide)]
    exact h
  · cases hi with
    | inl new =>
        rw [new, entry]
        exact ⟨there, names.trans frame⟩
    | inr old =>
        rw [old, same (by decide)]
        exact next

end Paging

namespace Memory

open Heap Paging

/-- From an empty heap, with the free frames counted, a run leads to frames that are not
    accounted for. -/
def Unaccounted (m₀ : Memory) : Prop :=
  m₀.Start ∧ m₀.paging.pages.Counted ∧ ∃ m, Runs.Reach step (fun _ _ => True) (· = m₀) m ∧
    HEAP_START ≤ m.lowest ∧ ¬ Accounted m₀ m

/-! ## One table for two directory entries -/

/-- The heap grows in pages that are mapped, with `n` frames left for more. -/
structure Grows (m : Memory) (f n : Nat) : Prop where
  folded : m.paging.Folded f n
  whole : m.heap.k_heap_end % PAGE_SIZE = 0
  low : HEAP_START ≤ m.heap.k_heap_end
  lowest : HEAP_START ≤ m.lowest
  mapped : ∀ v, HEAP_START ≤ v → v < m.heap.k_heap_end → (m.paging.walk v).isSome

section Grows

variable {m m₁ : Memory} {h' : Heap} {pre cs : List Chunk} {c : Chunk} {a f fuel k n p v : Nat}

/-- With the table entered, the frame that `pa_alloc` gave is mapped at the heap end. -/
theorem Grows.entered {s : Paging} {pages : PageMap}
    (alloc : m.paging.pages.pa_alloc = some (p * 4096, pages)) (nonzero : p ≠ 0)
    (enter : { m.paging with pages }.enter (m.heap.k_heap_end >>> 22) (PAGE_WRITE ||| PAGE_USER) =
      some s)
    (grows : Grows { m with paging := s } f n) (space : m.heap.k_heap_end + PAGE_SIZE ≤ FOLD_END)
    (grown : m.heap.grow m.heap.k_heap_end = some h') :
    ∃ m', m.grow m.heap.k_heap_end = some m' ∧ m'.heap = h' ∧ Grows m' f n := by
  obtain ⟨folded, whole, low, lowest, old⟩ := grows
  have inside : m.heap.k_heap_end < FOLD_END := by
    unfold PAGE_SIZE at space
    omega
  have higher : h'.k_heap_end = m.heap.k_heap_end + PAGE_SIZE :=
    (grow_end grown).trans (add32_eq (Nat.lt_of_le_of_lt space (by decide)))
  obtain ⟨u, mapped, folded', new, kept⟩ := folded.mm_map low inside nonzero enter
  have low' : HEAP_START ≤ h'.k_heap_end := by
    rw [higher]
    exact Nat.le_add_right_of_le low
  refine ⟨_, grow_mapped alloc mapped new grown, rfl, folded', ?_, low',
    Nat.le_min.mpr ⟨lowest, low'⟩, fun v hv hv' => ?_⟩
  · have page : h'.k_heap_end % PAGE_SIZE = 0 := by
      rw [higher, Nat.add_mod_right]
      exact whole
    exact page
  · have below : v < m.heap.k_heap_end + PAGE_SIZE := higher ▸ hv'
    have whole : m.heap.k_heap_end % PAGE_SIZE = 0 := whole
    by_cases before : v < m.heap.k_heap_end
    · exact kept v hv (by omega) (old v hv before)
    · have page : u.walk v = u.walk m.heap.k_heap_end := walk_page (by
        unfold PAGE_SIZE at *
        omega)
      have there : (u.walk v).isSome := page ▸ new
      exact there

theorem grows_of_empty (folded : m.paging.Folded f n)
    (heap_end : m.heap.k_heap_end = HEAP_START) (lowest : m.lowest = HEAP_START) : Grows m f n := by
  refine ⟨folded, ?_, Nat.le_of_eq heap_end.symm, Nat.le_of_eq lowest.symm, fun v low high => ?_⟩
  · rw [heap_end]
    decide
  · rw [heap_end] at high
    exact absurd high (Nat.not_lt.mpr low)

/-- The first page of the heap, the table of which takes the frame of the next table. -/
theorem grows_first {pages pages' : PageMap} (heap_end : m.heap.k_heap_end = HEAP_START)
    (lowest : m.lowest = HEAP_START) (h : m.paging.Recursive)
    (absent : ¬ present (m.paging.pde 769))
    (next : present (m.paging.pde 770) ∧ frameOf (m.paging.pde 770) = f) (other : m.paging.cr3 ≠ f)
    (alloc : m.paging.pages.pa_alloc = some (p * 4096, pages)) (nonzero : p ≠ 0)
    (alloc' : pages.pa_alloc = some (f * 4096, pages')) (counted : pages'.Counted)
    (null : 0 ∉ pages'.freePages) (enough : n ≤ pages'.freePages.card)
    (grown : m.heap.grow m.heap.k_heap_end = some h') :
    ∃ m', m.grow m.heap.k_heap_end = some m' ∧ m'.heap = h' ∧ Grows m' f n := by
  have dir : m.heap.k_heap_end >>> 22 = 769 := by
    rw [heap_end]
    rfl
  obtain ⟨t, entered, folded⟩ := folded_of_enter (s := { m.paging with pages })
    (PAGE_WRITE ||| PAGE_USER) h absent next other alloc' counted null enough
  rw [← dir] at entered
  have grows : Grows { m with paging := t } f n := grows_of_empty folded heap_end lowest
  exact Grows.entered alloc nonzero entered grows (by rw [heap_end]; decide) grown

/-- While frames are free, the heap grows as it does where frames play no part. -/
theorem Grows.grow (grows : Grows m f (n + 1)) (space : m.heap.k_heap_end + PAGE_SIZE ≤ FOLD_END)
    (grown : m.heap.grow m.heap.k_heap_end = some h') :
    ∃ m', m.grow m.heap.k_heap_end = some m' ∧ m'.heap = h' ∧ Grows m' f n := by
  obtain ⟨folded, whole, low, lowest, mapped⟩ := grows
  have enough := folded.enough
  obtain ⟨p, free, pages, alloc, taken, counted⟩ :=
    PageMap.pa_alloc_free folded.counted (Nat.lt_of_lt_of_le n.succ_pos enough)
  have nonzero : p ≠ 0 := by
    rintro rfl
    exact folded.null free
  have given : Paging.Folded { m.paging with pages } f n := by
    refine ⟨folded.recursive, folded.entries, folded.apart, counted, ?_, ?_⟩
    · rw [taken]
      exact fun mem => folded.null (Finset.mem_of_mem_erase mem)
    · rw [taken, Finset.card_erase_of_mem free]
      omega
  have inside : m.heap.k_heap_end < FOLD_END := by
    unfold PAGE_SIZE at space
    omega
  have dir := dir_of_fold low inside
  exact entered alloc nonzero (enter_old given.recursive (by omega) (given.entries _ dir).1)
    ⟨given, whole, low, lowest, mapped⟩ space grown

theorem Grows.with_heap (grows : Grows m f n) (same : h'.k_heap_end = m.heap.k_heap_end) :
    Grows { m with heap := h' } f n := by
  obtain ⟨folded, whole, low, lowest, mapped⟩ := grows
  rw [← same] at whole low mapped
  exact ⟨folded, whole, low, lowest, mapped⟩

/-- The last chunk grows by the pages that it lacks, and the block is carved out of it. The
    induction is on these pages. -/
theorem Grows.kmalloc (k : Nat) (rep : m.heap.Rep (pre ++ [c])) (free : c.free)
    (grows : Grows m f (n + k)) (space : m.heap.k_heap_end + PAGE_SIZE * k ≤ FOLD_END)
    (stable : align a = a) (pos : 16 ≤ a) (small : a * 2 < 2 ^ 32)
    (others : ∀ d ∈ pre, d.free → d.size < a * 2)
    (short : ∀ j < k, c.size + PAGE_SIZE * j < a * 2) (wide : a * 2 ≤ c.size + PAGE_SIZE * k)
    (steps : k < fuel) :
    ∃ m', m._kmalloc fuel a = some (c.addr + 16, m') ∧ Grows m' f n ∧
      m'.heap.k_heap_end = m.heap.k_heap_end + PAGE_SIZE * k ∧
      m'.heap.Rep (pre ++ (carve a { c with size := c.size + PAGE_SIZE * k } ++ [])) := by
  obtain ⟨fuel, rfl⟩ : ∃ j, fuel = j + 1 := ⟨fuel - 1, by omega⟩
  induction k generalizing m c fuel with
  | zero =>
      have before : pre.find? (fun d => d.free && a * 2 ≤ d.size) = none := by
        rw [List.find?_eq_none]
        intro d mem
        simpa using others d mem
      have found : (pre ++ [c]).find? (fun d => d.free && a * 2 ≤ d.size) = some c := by
        simp only [Nat.mul_zero, Nat.add_zero] at wide
        simp [List.find?_append, before, free, wide]
      obtain ⟨h', taken, rep'⟩ := take_spec rep free pos wide
      refine ⟨{ m with heap := h' }, ?_, ?_, take_end taken, rep'⟩
      · rw [kmalloc_step rep stable small, found]
        exact take_inside grows.mapped rep (by simp) (by omega) taken
      · exact grows.with_heap (take_end taken)
  | succ k ih =>
      have narrow : ∀ d ∈ pre ++ [c], d.free → d.size < a * 2 := by
        intro d mem free
        cases List.mem_append.mp mem with
        | inl mem => exact others d mem free
        | inr mem =>
            cases List.mem_singleton.mp mem
            exact short 0 (Nat.succ_pos k)
      have page (j : Nat) : PAGE_SIZE * (j + 1) = PAGE_SIZE + PAGE_SIZE * j := by
        rw [Nat.mul_succ, Nat.add_comm]
      rw [page] at space
      have next : m.heap.k_heap_end + PAGE_SIZE ≤ FOLD_END := by omega
      have room : m.heap.k_heap_end + PAGE_SIZE < 2 ^ 32 := Nat.lt_of_le_of_lt next (by decide)
      obtain ⟨h', grown, higher, rep'⟩ := grow_last rep free m.heap.k_heap_end room
      obtain ⟨m₁, run, same, grows₁⟩ := grows.grow next grown
      rw [← same] at higher rep'
      obtain ⟨fuel, rfl⟩ : ∃ j, fuel = j + 1 := ⟨fuel - 1, by omega⟩
      have sum (j : Nat) : c.size + PAGE_SIZE + PAGE_SIZE * j = c.size + PAGE_SIZE * (j + 1) := by
        rw [page, Nat.add_assoc]
      have short₁ (j : Nat) (less : j < k) : c.size + PAGE_SIZE + PAGE_SIZE * j < a * 2 := by
        rw [sum]
        exact short (j + 1) (Nat.succ_lt_succ less)
      have wide₁ : a * 2 ≤ c.size + PAGE_SIZE + PAGE_SIZE * k := by
        rw [sum]
        exact wide
      obtain ⟨m', rest, grows', heap_end, carved⟩ :=
        ih rep' free grows₁ (by omega) short₁ wide₁ fuel
        (Nat.lt_of_succ_lt_succ steps)
      simp only [sum] at carved
      refine ⟨m', ?_, grows', ?_, carved⟩
      · rw [kmalloc_full rep stable small narrow, run, Option.bind_some]
        exact rest
      · rw [heap_end, higher, page, Nat.add_assoc]

/-- The heap grows over both directory entries while its chunks stay where they are mapped: the
    first block fills the first page. -/
theorem Grows.unaccounted {m₀ : Memory} (empty : m₀.heap.Rep [])
    (first : m₀.grow m₀.heap.k_heap_end = some m)
    (rep : m.heap.Rep ([] ++ [⟨HEAP_START, PAGE_SIZE - 16, true⟩]))
    (heap_end : m.heap.k_heap_end = HEAP_START + PAGE_SIZE) (grows : Grows m f 1024) :
    ∃ m', Runs.Reach step (fun _ _ => True) (· = m₀) m' ∧ HEAP_START ≤ m'.lowest ∧
      ¬ Accounted m₀ m' := by
  obtain ⟨fuel, bound⟩ : ∃ j, stepBound = j + 1025 := ⟨2 ^ 32 - 1025, by unfold stepBound; rfl⟩
  obtain ⟨m₁, call, grows₁, end₁, rep₁⟩ := Grows.kmalloc (a := 4080) (n := 1023) 1 rep rfl grows
    (by rw [heap_end]; decide) (by decide) (by decide) (by decide) nofun
    (fun j less => by simp [Nat.lt_one_iff.mp less, PAGE_SIZE]) (by decide)
    (show 1 < fuel + 1024 by omega)
  have halves : [] ++ (carve 4080 ⟨HEAP_START, PAGE_SIZE - 16 + PAGE_SIZE * 1, true⟩ ++ []) =
      [⟨HEAP_START, 4080, false⟩] ++ [⟨HEAP_START + 4096, 4080, true⟩] := rfl
  rw [halves] at rep₁
  rw [heap_end] at end₁
  obtain ⟨m₂, call', grows₂, end₂, -⟩ := Grows.kmalloc (a := 2097136) (n := 0) 1023 rep₁ rfl
    grows₁ (by rw [end₁]; decide) (by decide) (by decide) (by decide) (by simp)
    (fun j less => by simp only [PAGE_SIZE]; omega) (by decide) (show 1023 < stepBound by omega)
  have last : HEAP_START + 0x400000 < m₂.heap.k_heap_end := by
    rw [end₂, end₁]
    decide
  have full := kmalloc_full (m := m₀) empty (n := 4080) (a := 4080) (by decide) (by decide) nofun
    (fuel + 1024)
  rw [first, Option.bind_some, call, ← bound] at full
  have start : Runs.Reach step (fun _ _ => True) (· = m₀) m₀ := .start rfl
  have one : m₀.step (.kmalloc 4080) = some m₁ := congrArg (Option.map Prod.snd) full
  have two : m₁.step (.kmalloc 2097136) = some m₂ := congrArg (Option.map Prod.snd) call'
  refine ⟨m₂, (start.next trivial one).next trivial two, grows₂.lowest, fun accounted => ?_⟩
  have page := accounted.distinct _ _ (by decide) last (Nat.le_refl _)
    (Nat.lt_of_le_of_lt (by decide) last) grows₂.folded.walk_twice
  revert page
  decide

end Grows

/-! ## Four states -/

theorem unmapped_unaccounted {m₀ : Memory} (start : m₀.Start) (counted : m₀.paging.pages.Counted)
    (calls : List MemoryCall) (ends : (Runs.run step m₀ calls).any fun m =>
      decide (HEAP_START ≤ m.lowest ∧ HEAP_START < m.heap.k_heap_end ∧
        m.paging.walk HEAP_START = none)) : Unaccounted m₀ := by
  obtain ⟨m, run, ends⟩ := (Option.any_eq_true _ _).mp ends
  obtain ⟨low, more, absent⟩ := of_decide_eq_true ends
  have first : Runs.Reach step (fun _ _ => True) (· = m₀) m₀ := .start rfl
  refine ⟨start, counted, m, first.of_run (Runs.meets_true _ _) run, low, fun accounted => ?_⟩
  obtain ⟨f, walk, -⟩ := accounted.mapped HEAP_START (Nat.le_refl _) more
  rw [absent] at walk
  cases walk

/-- `kheap_init` where the magic number of a chunk lies in the window of the low table. -/
def forged : Heap :=
  Heap.kheap_init
    ⟨fun _ => .null, fun _ => 0, fun a => if a = 0xC0200000 then CHUNK_MAGIC else 0, 0⟩

/-- With such a chunk freed, growth makes no header in the new page. -/
def forgery : List MemoryCall := [.kfree (0xC0200000 + 16), .kmalloc 16]

/-- Page 0 is the only free one. -/
def pageZero : PageMap := ⟨fun i => if i = 0 then 1#32 else 0#32, 1⟩

def zeroFree : Memory := { ready pageZero with heap := forged }

theorem zeroFree_unaccounted : Unaccounted zeroFree := by
  refine unmapped_unaccounted ⟨⟨_, rfl⟩, rfl, rfl, ready_start.unmapped⟩ ?_ forgery
      (by decide +kernel)
  rw [PageMap.Counted]
  decide +kernel

/-- The last directory entry names another directory, with a table of its own for the heap. -/
def detached : Memory where
  heap := forged
  paging := { (ready few).paging with
    frames := Paging.set (Paging.set (Paging.set (ready few).paging.frames
      2 1023 (20 <<< 12 ||| 0x7)) 20 1023 (20 <<< 12 ||| 0x7)) 20 769 (21 <<< 12 ||| 0x7) }
  highest := HEAP_START
  lowest := HEAP_START

theorem detached_unaccounted : Unaccounted detached := by
  have other {f : Nat} (apart : f ≠ 20) : detached.paging.frames f =
      Paging.set (ready few).paging.frames 2 1023 (20 <<< 12 ||| 0x7) f :=
    (set_frame apart).trans (set_frame apart)
  have entry (i : Nat) (below : i < 1023) : detached.paging.pde i = (ready few).paging.pde i :=
    (congrFun (other (by decide)) i).trans (set_word (Nat.ne_of_lt below))
  have table (j : Nat) : detached.paging.frames 4 j = 0 :=
    (congrFun (other (by decide)) j).trans
        ((congrFun (set_frame (by decide)) j).trans (ready_word few j))
  have empty : ∀ i, 769 ≤ i → i < 1023 → present (detached.paging.pde i) →
      ∀ j, detached.paging.frames (frameOf (detached.paging.pde i)) j = 0 := by
    intro i above below
    rw [entry i below, ready_pde above below]
    split
    · rw [(boot_entry 4).2]
      exact fun _ => table
    · exact nofun
  exact unmapped_unaccounted ⟨⟨_, rfl⟩, rfl, rfl, unmapped_of_empty empty⟩ few_kept.counted forgery
    (by decide +kernel)

/-- Frames 5 to 1087 are free. -/
def many : PageMap :=
  ⟨fun i => if i = 0 then 0xFFFFFFE0#32 else if i < 34 then 0xFFFFFFFF#32 else 0#32, 1083⟩

theorem many_counted : many.Counted := by
  rw [PageMap.Counted]
  decide +kernel

theorem many_null : 0 ∉ many.freePages := fun mem =>
  absurd (PageMap.mem_freePages.mp mem).2 (by decide)

theorem many_card : many.freePages.card = 1083 := many_counted.symm

/-- The first page of an empty heap, and from there on the run of `Grows.unaccounted`. -/
theorem unaccounted_of_first {m₀ : Memory} {f : Nat} (start : m₀.Start)
    (counted : m₀.paging.pages.Counted)
    (first : ∀ h', m₀.heap.grow m₀.heap.k_heap_end = some h' →
      ∃ m, m₀.grow m₀.heap.k_heap_end = some m ∧ m.heap = h' ∧ Grows m f 1024) :
    Unaccounted m₀ := by
  obtain ⟨h, init⟩ := start.heap
  have empty : m₀.heap.Rep [] := init ▸ kheap_init_rep h
  have low : m₀.heap.k_heap_end = HEAP_START := congrArg Heap.k_heap_end init
  obtain ⟨h', grown, heap_end, rep⟩ := grow_new empty rfl (by rw [low]; decide)
  obtain ⟨m, run, same, grows⟩ := first h' grown
  rw [low] at heap_end rep
  exact ⟨start, counted, grows.unaccounted empty run (same ▸ rep) (same ▸ heap_end)⟩

/-- The directory entries 769 and 770 name the table in frame 4. -/
def shared : Memory :=
  { ready many with paging := (ready many).paging.withEntry 770 (4 <<< 12 ||| 0x7) many }

theorem shared_pde {i : Nat} (above : 769 ≤ i) (below : i < 1023) :
    shared.paging.pde i = if i = 769 ∨ i = 770 then 4 <<< 12 ||| 0x7 else 0 := by
  by_cases new : i = 770
  · subst new
    exact withEntry_pde
  · have entry : shared.paging.pde i = _ := withEntry_other new
    rw [entry, ready_pde above below]
    simp [new]

theorem shared_unaccounted : Unaccounted shared := by
  have table (j : Nat) : shared.paging.frames 4 j = 0 :=
    (congrFun (withEntry_frame (by decide)) j).trans (ready_word many j)
  have start : shared.Start := by
    refine ⟨⟨_, rfl⟩, rfl, rfl, unmapped_of_empty fun i above below => ?_⟩
    rw [shared_pde above below]
    split
    · rw [(boot_entry 4).2]
      exact fun _ => table
    · exact nofun
  have last : shared.paging.pde 1023 = (ready many).paging.pde 1023 := withEntry_other (by decide)
  have cr3 : shared.paging.cr3 = 2 := rfl
  have folded : shared.paging.Folded 4 1025 := by
    have enough : 1025 ≤ many.freePages.card := by
      rw [many_card]
      decide
    refine ⟨?_, fun i hi => ?_, by decide, many_counted, many_null, enough⟩
    · have self : (ready many).paging.Recursive := ready_tables.recursive
      unfold Recursive at self ⊢
      rw [last, cr3]
      exact self
    · rw [shared_pde (by omega) (by omega), if_pos hi]
      exact boot_entry 4
  have grows := grows_of_empty folded rfl rfl
  exact unaccounted_of_first start many_counted fun h' grown => grows.grow (by decide) grown

/-- Frame 6, with the table of the directory entry 770, is free. The first page of the heap
    takes frame 5, and its table takes frame 6. -/
def reused : Memory :=
  { ready many with
    paging := (init_paging (fun _ _ => 0) many 2 3).withEntry 770 (6 <<< 12 ||| 0x7) many }

theorem reused_pde {i : Nat} (above : 769 ≤ i) (below : i < 1023) :
    reused.paging.pde i = if i = 770 then 6 <<< 12 ||| 0x7 else 0 := by
  by_cases new : i = 770
  · subst new
    exact withEntry_pde
  · have entry : reused.paging.pde i = _ := withEntry_other new
    rw [entry, init_paging_pde _ _ (by decide) (by omega), if_neg (by omega), if_neg (by omega),
      if_neg new]

theorem reused_unaccounted : Unaccounted reused := by
  have table (j : Nat) : reused.paging.frames 6 j = 0 :=
    (congrFun (withEntry_frame (by decide)) j).trans
      (congrFun (init_paging_frame _ _ (by decide) (by decide)) j)
  have start : reused.Start := by
    refine ⟨⟨_, rfl⟩, rfl, rfl, unmapped_of_empty fun i above below => ?_⟩
    rw [reused_pde above below]
    split
    · rw [(boot_entry 6).2]
      exact fun _ => table
    · exact nofun
  have recursive : reused.paging.Recursive := by
    have last : reused.paging.pde 1023 = _ := withEntry_other (by decide)
    unfold Recursive
    rw [last]
    exact (init_paging_tables _ _ (by decide)).recursive
  have absent : ¬ present (reused.paging.pde 769) := by
    rw [reused_pde (by decide) (by decide)]
    decide
  refine unaccounted_of_first (f := 6) start many_counted fun h' grown => ?_
  obtain ⟨p, free, pages, alloc, taken, counted⟩ :=
    PageMap.pa_alloc_free many_counted (by rw [many_card]; decide)
  have fewer : pages.freePages.card = 1082 := by
    rw [taken, Finset.card_erase_of_mem free, many_card]
  obtain ⟨q, free', pages', alloc', taken', counted'⟩ :=
    PageMap.pa_alloc_free counted (by rw [fewer]; decide)
  have fewer' : pages'.freePages.card = 1081 := by
    rw [taken', Finset.card_erase_of_mem free', fewer]
  have second : (many.pa_alloc.bind fun r => r.2.pa_alloc).map Prod.fst = some (6 * 4096) := by
    decide +kernel
  rw [alloc, Option.bind_some, alloc', Option.map_some, Option.some_inj] at second
  obtain rfl : q = 6 := Nat.eq_of_mul_eq_mul_right (by decide) second
  have nonzero : p ≠ 0 := by
    rintro rfl
    exact many_null free
  have null : 0 ∉ pages'.freePages := by
    rw [taken', taken]
    exact fun mem => many_null (Finset.mem_of_mem_erase (Finset.mem_of_mem_erase mem))
  have next : present (reused.paging.pde 770) ∧ frameOf (reused.paging.pde 770) = 6 := by
    rw [reused_pde (by decide) (by decide)]
    exact boot_entry 6
  have cr3 : reused.paging.cr3 ≠ 6 := by
    have dir : reused.paging.cr3 = 2 := rfl
    rw [dir]
    decide
  have enough : 1024 ≤ pages'.freePages.card := by
    rw [fewer']
    decide
  exact grows_first rfl rfl recursive absent next cr3 alloc nonzero alloc' counted' null enough
      grown

/-- Each of the four states has all that the accounting rests on but one. -/
theorem frames_unaccounted : Unaccounted zeroFree ∧ Unaccounted detached ∧ Unaccounted shared ∧
    Unaccounted reused :=
  ⟨zeroFree_unaccounted, detached_unaccounted, shared_unaccounted, reused_unaccounted⟩

end Memory

end Krypton
