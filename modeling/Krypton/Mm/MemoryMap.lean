import Krypton.Mm.PageAllocator

/-! # The memory map in `mm_init`

`mm_init` clears the bitfield, frees the pages of every type-1 entry of the
multiboot memory map and then locks page 0 and the kernel's own pages. The map
is the list of the entries that the walk over it visits. The 64-bit base and
length of an entry come in halves, of which the page loop reads the low ones.
-/

namespace Krypton

/-- `mmap_entry_t`, without the size that only leads to the next entry. -/
structure MmapEntry where
  base_addr_low : BitVec 32
  base_addr_high : BitVec 32
  length_low : BitVec 32
  length_high : BitVec 32
  type : BitVec 32

namespace MmapEntry

/-- The 64-bit base address. -/
def base (e : MmapEntry) : Nat := e.base_addr_high.toNat * 2 ^ 32 + e.base_addr_low.toNat

/-- The 64-bit length. -/
def length (e : MmapEntry) : Nat := e.length_high.toNat * 2 ^ 32 + e.length_low.toNat

/-- `me->base_addr_low + me->length_low`, as the loop computes it. -/
def stop (e : MmapEntry) : Nat := (e.base_addr_low + e.length_low).toNat

end MmapEntry

/-- The most pages a loop over the memory below 15 MiB can visit, and one. -/
def pageLoopBound : Nat := 3841

/-- `for (j = ..; j < stop; j += 0x1000)`; `j` cannot wrap before the `break`. -/
def freeRange (stop : Nat) : (fuel j : Nat) → PageMap → Option PageMap
  | 0, _, _ => none
  | fuel + 1, j, m =>
      if j < stop then
        if j ≥ 0xF00000 then some m
        else do freeRange stop fuel (j + 0x1000) (← m.pa_free j)
      else some m

def mapEntry (m : PageMap) (me : MmapEntry) : Option PageMap :=
  if me.type = 1 then freeRange me.stop pageLoopBound me.base_addr_low.toNat m else some m

/-- `for(i = 0x100000; i < kernel_end; i += 0x1000) set_page_bit(i)` -/
def lockKernel (kernel_end : Nat) : (fuel i : Nat) → PageMap → Option PageMap
  | 0, _, _ => none
  | fuel + 1, i, m =>
      if i < kernel_end then do lockKernel kernel_end fuel (i + 0x1000) (← m.set_page_bit i)
      else some m

def mm_init (mmap : List MmapEntry) (kernel_end : Nat) : Option PageMap := do
  let m := { LowRamBitF := fun _ => 0#32, LowRamFreeCount := 0#32 }
  let m ← mmap.foldlM mapEntry m
  let m ← m.set_page_bit 0x0
  lockKernel kernel_end pageLoopBound 0x100000 m

namespace MmapEntry

/-- The page loop over an entry calls `pa_free(j)`. -/
def Visits (e : MmapEntry) (j : Nat) : Prop :=
  e.type = 1 ∧ ∃ k, j = e.base_addr_low.toNat + 0x1000 * k ∧ j < e.stop ∧ j < 0xF00000

end MmapEntry

theorem PageMap.isFree_pa_free {m m' : PageMap} {paddr : Nat} (inside : paddr < 0xF00000)
    (h : m.pa_free paddr = some m') (p : Nat) :
    m'.isFree p ↔ m.isFree p ∨ p = paddr / 4096 := by
  rw [pa_free_spec m inside, Option.some_inj] at h
  cases free : m.isFree (paddr / 4096) with
  | true =>
      rw [free, if_pos rfl] at h
      subst h
      exact ⟨.inl, fun h => h.elim id fun e => e ▸ free⟩
  | false =>
      rw [free, if_neg (by simp)] at h
      rw [← h, isFree_setBit]
      by_cases same : p = paddr / 4096 <;> simp [same]

/-- The page loop ends and frees the page of every address it visits. -/
theorem freeRange_spec (stop fuel j : Nat) (m : PageMap) (enough : 0xF01000 ≤ j + 0x1000 * fuel)
    (pos : 0 < fuel) :
    ∃ m', freeRange stop fuel j m = some m' ∧ ∀ p, m'.isFree p ↔ m.isFree p ∨
      ∃ k, j + 0x1000 * k < stop ∧ j + 0x1000 * k < 0xF00000 ∧ p = (j + 0x1000 * k) / 4096 := by
  induction fuel generalizing j m with
  | zero => omega
  | succ fuel ih =>
      by_cases more : j < stop
      · by_cases high : j ≥ 0xF00000
        · refine ⟨m, by simp [freeRange, more, high], fun p => ⟨.inl, ?_⟩⟩
          rintro (free | ⟨k, -, low, -⟩)
          · exact free
          · omega
        · have inside : j < 0xF00000 := Nat.lt_of_not_le high
          obtain ⟨m₁, hm₁⟩ : ∃ m₁, m.pa_free j = some m₁ := ⟨_, m.pa_free_spec inside⟩
          have freed := PageMap.isFree_pa_free inside hm₁
          obtain ⟨m', hm', visited⟩ := ih (j + 0x1000) m₁ (by omega) (by omega)
          refine ⟨m', by simp [freeRange, more, inside, hm₁, hm'], fun p => ?_⟩
          rw [visited, freed, or_assoc]
          refine or_congr_right ⟨?_, ?_⟩
          · rintro (rfl | ⟨k, h, h', e⟩)
            · exact ⟨0, by simpa using more, by simpa using inside, by simp⟩
            · exact ⟨k + 1, by omega, by omega, by omega⟩
          · rintro ⟨k, h, h', e⟩
            cases k with
            | zero => exact .inl (by simpa using e)
            | succ k => exact .inr ⟨k, by omega, by omega, by omega⟩
      · refine ⟨m, by simp [freeRange, more], fun p => ⟨.inl, ?_⟩⟩
        rintro (free | ⟨k, low, -, -⟩)
        · exact free
        · omega

/-- One entry frees the pages of the addresses it visits. -/
theorem mapEntry_spec (m : PageMap) (e : MmapEntry) :
    ∃ m', mapEntry m e = some m' ∧
      ∀ p, m'.isFree p ↔ m.isFree p ∨ ∃ j, e.Visits j ∧ p = j / 4096 := by
  by_cases usable : e.type = 1
  · obtain ⟨m', hm', visited⟩ :=
      freeRange_spec e.stop pageLoopBound e.base_addr_low.toNat m (by simp [pageLoopBound])
        (by simp [pageLoopBound])
    refine ⟨m', by simp only [mapEntry, if_pos usable, hm'], fun p => (visited p).trans ?_⟩
    refine or_congr_right ⟨?_, ?_⟩
    · rintro ⟨k, h, h', rfl⟩
      exact ⟨_, ⟨usable, k, rfl, h, h'⟩, rfl⟩
    · rintro ⟨j, ⟨-, k, rfl, h, h'⟩, rfl⟩
      exact ⟨k, h, h', rfl⟩
  · refine ⟨m, by simp only [mapEntry, if_neg usable], fun p => ⟨.inl, ?_⟩⟩
    rintro (free | ⟨j, ⟨h, -⟩, -⟩)
    · exact free
    · exact absurd h usable

theorem mapEntries_spec (mmap : List MmapEntry) (m : PageMap) :
    ∃ m', mmap.foldlM mapEntry m = some m' ∧
      ∀ p, m'.isFree p ↔ m.isFree p ∨ ∃ e ∈ mmap, ∃ j, e.Visits j ∧ p = j / 4096 := by
  induction mmap generalizing m with
  | nil => exact ⟨m, rfl, by simp⟩
  | cons e rest ih =>
      obtain ⟨m₁, h₁, visited⟩ := mapEntry_spec m e
      obtain ⟨m', h', others⟩ := ih m₁
      refine ⟨m', by simp [List.foldlM_cons, h₁, h'], fun p => ?_⟩
      rw [others, visited, or_assoc]
      simp only [List.mem_cons, exists_eq_or_imp]

/-- Locking a page clears its bit, whatever it was. -/
theorem PageMap.isFree_set_page_bit {m m' : PageMap} {paddr : Nat} (inside : paddr < 0xF00000)
    (h : m.set_page_bit paddr = some m') (p : Nat) :
    m'.isFree p ↔ m.isFree p ∧ p ≠ paddr / 4096 := by
  rw [set_page_bit_eq m inside, Option.some_inj] at h
  rw [← h, isFree_setBit]
  by_cases same : p = paddr / 4096 <;> simp [same]

theorem lockKernel_spec {kernel_end : Nat} (low : kernel_end < 0xF00000) (fuel i : Nat)
    (m : PageMap)
    (enough : 0xF01000 ≤ i + 0x1000 * fuel) (pos : 0 < fuel) (aligned : i % 4096 = 0) :
    ∃ m', lockKernel kernel_end fuel i m = some m' ∧
      ∀ p, m'.isFree p ↔ m.isFree p ∧ ¬ (i ≤ p * 4096 ∧ p * 4096 < kernel_end) := by
  induction fuel generalizing i m with
  | zero => omega
  | succ fuel ih =>
      by_cases more : i < kernel_end
      · obtain ⟨m₁, hm₁⟩ : ∃ m₁, m.set_page_bit i = some m₁ :=
          ⟨_, m.set_page_bit_eq (by omega)⟩
        have locked := PageMap.isFree_set_page_bit (by omega) hm₁
        obtain ⟨m', hm', others⟩ := ih (i + 0x1000) m₁ (by omega) (by omega) (by omega)
        refine ⟨m', by simp [lockKernel, more, hm₁, hm'], fun p => ?_⟩
        rw [others, locked, and_assoc]
        refine and_congr_right fun _ => ?_
        omega
      · refine ⟨m, by simp [lockKernel, more], fun p => ⟨fun h => ⟨h, by omega⟩, And.left⟩⟩

/-- Page 0 and the pages of the kernel. -/
def Reserved (kernel_end p : Nat) : Prop :=
  p = 0 ∨ 0x100000 ≤ p * 4096 ∧ p * 4096 < kernel_end

/-- Exactly the pages of visited addresses are free, the reserved ones apart. -/
theorem mm_init_isFree (mmap : List MmapEntry) {kernel_end : Nat} (low : kernel_end < 0xF00000) :
    ∃ m, mm_init mmap kernel_end = some m ∧ ∀ p, m.isFree p ↔
      (∃ e ∈ mmap, ∃ j, e.Visits j ∧ p = j / 4096) ∧ ¬ Reserved kernel_end p := by
  obtain ⟨m₁, h₁, visited⟩ := mapEntries_spec mmap ⟨fun _ => 0#32, 0#32⟩
  obtain ⟨m₂, h₂⟩ : ∃ m₂, m₁.set_page_bit 0x0 = some m₂ := ⟨_, m₁.set_page_bit_eq (by omega)⟩
  have first := PageMap.isFree_set_page_bit (by omega) h₂
  obtain ⟨m₃, h₃, locked⟩ := lockKernel_spec low pageLoopBound 0x100000 m₂
    (by simp [pageLoopBound]) (by simp [pageLoopBound]) rfl
  refine ⟨m₃, by simp [mm_init, h₁, h₂, h₃], fun p => ?_⟩
  have blank : (PageMap.mk (fun _ => 0#32) 0#32).isFree p = false := by simp [PageMap.isFree]
  rw [locked, first, visited, and_assoc, Reserved, not_or]
  simp only [blank, Bool.false_eq_true, false_or, Nat.zero_div, ne_eq]

/-! ## Soundness of the free pages -/

/-- The byte at `b` is in the 64-bit range of a type-1 entry. -/
def Usable (mmap : List MmapEntry) (b : Nat) : Prop :=
  ∃ e ∈ mmap, e.type = 1 ∧ e.base ≤ b ∧ b < e.base + e.length

def PageUsable (mmap : List MmapEntry) (p : Nat) : Prop :=
  ∀ b, p * 4096 ≤ b → b < p * 4096 + 4096 → Usable mmap b

/-- Every free page is usable memory, is not page 0 and holds no byte of the kernel. -/
def MapSound (mmap : List MmapEntry) (kernel_end : Nat) (m : PageMap) : Prop :=
  ∀ p, m.isFree p → PageUsable mmap p ∧ p ≠ 0 ∧
    ∀ b, p * 4096 ≤ b → b < p * 4096 + 4096 → ¬ (0x100000 ≤ b ∧ b < kernel_end)

/-- The first and the last page visited for an entry below 4 GiB, and every page
    visited for an entry above it, are reserved or usable throughout. -/
def EdgesUsable (mmap : List MmapEntry) (kernel_end : Nat) : Prop :=
  ∀ e ∈ mmap, ∀ j, e.Visits j →
    (e.base_addr_high = 0 → j = e.base_addr_low.toNat ∨ ¬ e.Visits (j + 0x1000)) →
    Reserved kernel_end (j / 4096) ∨ PageUsable mmap (j / 4096)

/-- A page between the first and the last one visited for a low entry lies in its range. -/
theorem interior_usable {mmap : List MmapEntry} {e : MmapEntry} (mem : e ∈ mmap) {j : Nat}
    (visit : e.Visits j) (lower : e.base_addr_high = 0) (notFirst : j ≠ e.base_addr_low.toNat)
    (notLast : e.Visits (j + 0x1000)) : PageUsable mmap (j / 4096) := by
  obtain ⟨usable, k, rfl, -, -⟩ := visit
  obtain ⟨-, -, -, below, -⟩ := notLast
  intro b hb hb'
  have base : e.base = e.base_addr_low.toNat := by simp [MmapEntry.base, lower]
  -- a visit past the base means that the sum of the low halves did not wrap
  have stop : e.stop ≤ e.base_addr_low.toNat + e.length_low.toNat := by
    rw [MmapEntry.stop, BitVec.toNat_add]
    exact Nat.mod_le _ _
  have length : e.length_low.toNat ≤ e.length := Nat.le_add_left _ _
  have positive : k ≠ 0 := by rintro rfl; simp at notFirst
  exact ⟨e, mem, usable, by omega, by omega⟩

/-- The free pages are sound exactly when the edges of the type-1 entries are. -/
theorem mm_init_sound_iff (mmap : List MmapEntry) (kernel_end : Nat) (low : kernel_end < 0xF00000) :
    (∃ m, mm_init mmap kernel_end = some m ∧ MapSound mmap kernel_end m) ↔
      EdgesUsable mmap kernel_end := by
  obtain ⟨m, run, free⟩ := mm_init_isFree mmap low
  constructor
  · rintro ⟨m', run', sound⟩ e mem j visit -
    obtain rfl : m = m' := Option.some_inj.mp (run.symm.trans run')
    by_cases reserved : Reserved kernel_end (j / 4096)
    · exact .inl reserved
    · exact .inr (sound _ ((free _).mpr ⟨⟨e, mem, j, visit, rfl⟩, reserved⟩)).1
  · intro edges
    refine ⟨m, run, fun p hp => ?_⟩
    obtain ⟨⟨e, mem, j, visit, rfl⟩, open'⟩ := (free p).mp hp
    refine ⟨?_, fun zero => open' (.inl zero), fun b hb hb' kernel => open' (.inr ?_)⟩
    · by_cases edge : e.base_addr_high = 0 → j = e.base_addr_low.toNat ∨ ¬ e.Visits (j + 0x1000)
      · exact (edges e mem j visit edge).resolve_left open'
      · push Not at edge
        exact interior_usable mem visit edge.1 edge.2.1 edge.2.2
    · omega

/-- Page-aligned entries below 4 GiB have usable edges. -/
theorem edgesUsable_of_aligned {mmap : List MmapEntry} {kernel_end : Nat}
    (aligned : ∀ e ∈ mmap, e.type = 1 → e.base_addr_high = 0 ∧
      e.base_addr_low.toNat % 4096 = 0 ∧ e.length_low.toNat % 4096 = 0) :
    EdgesUsable mmap kernel_end := by
  intro e mem j visit _
  obtain ⟨usable, k, rfl, below, -⟩ := visit
  obtain ⟨lower, base_aligned, length_aligned⟩ := aligned e mem usable
  have base : e.base = e.base_addr_low.toNat := by simp [MmapEntry.base, lower]
  have stop : e.stop ≤ e.base_addr_low.toNat + e.length_low.toNat := by
    rw [MmapEntry.stop, BitVec.toNat_add]
    exact Nat.mod_le _ _
  have length : e.length_low.toNat ≤ e.length := Nat.le_add_left _ _
  exact .inr fun b hb hb' => ⟨e, mem, usable, by omega, by omega⟩

/-- Memory below 640 KiB and from 1 MiB to 8 MiB, in whole pages. -/
def alignedMap : List MmapEntry :=
  [⟨0, 0, 0x9F000, 0, 1⟩, ⟨0x9F000, 0, 0x1000, 0, 2⟩, ⟨0x100000, 0, 0x700000, 0, 1⟩]

theorem mm_init_sound_aligned :
    ∃ m, mm_init alignedMap 0x200000 = some m ∧ MapSound alignedMap 0x200000 m :=
  (mm_init_sound_iff alignedMap 0x200000 (by decide)).mpr
    (edgesUsable_of_aligned (by simp [alignedMap]))

/-- The same with the 639 KiB that a PC with an extended BIOS data area reports. -/
def ebdaMap : List MmapEntry :=
  [⟨0, 0, 0x9FC00, 0, 1⟩, ⟨0x9FC00, 0, 0x400, 0, 2⟩, ⟨0x100000, 0, 0x700000, 0, 1⟩]

/-- The ranges of the entries do not overlap. -/
def SeparateRanges (mmap : List MmapEntry) : Prop :=
  mmap.Pairwise fun e f => e.base + e.length ≤ f.base

/-- The loop runs to the end of the last page, of which the top 1 KiB is reserved. -/
theorem mm_init_frees_ebda :
    SeparateRanges ebdaMap ∧
      ∃ m, mm_init ebdaMap 0x200000 = some m ∧ ¬ MapSound ebdaMap 0x200000 m := by
  refine ⟨by simp [SeparateRanges, ebdaMap, MmapEntry.base, MmapEntry.length], ?_⟩
  obtain ⟨m, run, free⟩ := mm_init_isFree ebdaMap (show 0x200000 < 0xF00000 by decide)
  refine ⟨m, run, fun sound => ?_⟩
  have visit : (MmapEntry.mk 0 0 0x9FC00 0 1).Visits 0x9F000 :=
    ⟨rfl, 0x9F, by decide, by decide, by decide⟩
  have freed : m.isFree 0x9F := (free 0x9F).mpr
    ⟨⟨_, by simp [ebdaMap], _, visit, by decide⟩, by simp [Reserved]⟩
  obtain ⟨e, mem, usable, lower, upper⟩ := (sound 0x9F freed).1 0x9FC00 (by decide) (by decide)
  simp only [ebdaMap, List.mem_cons, List.not_mem_nil, or_false] at mem
  obtain rfl | rfl | rfl := mem
  · simp [MmapEntry.base, MmapEntry.length] at upper
  · exact absurd usable (by decide)
  · simp [MmapEntry.base] at lower

end Krypton
