import Krypton.Mm.MemoryMap

/-! # The counter after `mm_init`

`pa_free` counts a page only if its bit changes. `set_page_bit` counts every page
that it locks, also one that was not free; the counter is then too low.
-/

namespace Krypton

namespace PageMap

variable {m m' : PageMap} {n : Nat}

/-- The counter is `n` less than the number of 1 bits, in 32 bits. -/
def Behind (m : PageMap) (n : Nat) : Prop :=
  (m.LowRamFreeCount.toNat + n) % 2 ^ 32 = m.freePages.card

theorem card_freePages_le (m : PageMap) : m.freePages.card ≤ 3840 := by
  simpa [freePages, PM_LOW_PAGE_COUNT] using
    Finset.card_filter_le (Finset.range (PM_LOW_PAGE_COUNT * 32)) (fun p => m.isFree p)

theorem Counted.behind (h : m.Counted) : m.Behind 0 := by
  rw [Behind, ← h]
  exact Nat.mod_eq_of_lt m.LowRamFreeCount.isLt

theorem Behind.counted_iff (h : m.Behind n) (few : n < 2 ^ 32) : m.Counted ↔ n = 0 := by
  have bits := m.card_freePages_le
  have count := m.LowRamFreeCount.isLt
  rw [Behind] at h
  rw [Counted]
  omega

/-- The counter falls behind by a page that is locked but was not free. -/
theorem Behind.set_page_bit (h : m.Behind n) {paddr : Nat} (inside : paddr < 0xF00000)
    (run : m.set_page_bit paddr = some m') :
    m'.Behind (n + if m.isFree (paddr / 4096) then 0 else 1) := by
  rw [set_page_bit_eq m inside, Option.some_inj] at run
  subst run
  have count := m.LowRamFreeCount.isLt
  have less : (m.LowRamFreeCount - 1).toNat = (2 ^ 32 - 1 + m.LowRamFreeCount.toNat) % 2 ^ 32 := by
    simp [BitVec.toNat_sub]
  rw [Behind] at h
  rw [Behind, freePages_clear, less]
  cases free : m.isFree (paddr / 4096) with
  | true =>
      have mem : paddr / 4096 ∈ m.freePages := mem_freePages.mpr ⟨by omega, free⟩
      have some := Finset.card_pos.mpr ⟨_, mem⟩
      rw [Finset.card_erase_of_mem mem, if_pos rfl]
      omega
  | false =>
      have absent : paddr / 4096 ∉ m.freePages := fun mem => by
        simp [mem_freePages, free] at mem
      rw [Finset.erase_eq_of_notMem absent, if_neg Bool.false_ne_true]
      omega

end PageMap

/-- After the map the counter is exact. -/
theorem freeRange_counted {stop fuel j : Nat} {m m' : PageMap} (counted : m.Counted)
    (run : freeRange stop fuel j m = some m') : m'.Counted := by
  induction fuel generalizing j m with
  | zero => cases run
  | succ fuel ih =>
      rw [freeRange] at run
      split at run
      · split at run
        · cases run
          exact counted
        · rename_i low
          obtain ⟨m₁, freed, rest⟩ := Option.bind_eq_some_iff.mp run
          have managed : PageMap.Managed m (.free j) := Nat.lt_of_not_le low
          exact ih (PageMap.counted_call counted managed freed) rest
      · cases run
        exact counted

theorem mapEntries_counted {mmap : List MmapEntry} {m m' : PageMap} (counted : m.Counted)
    (run : mmap.foldlM mapEntry m = some m') : m'.Counted := by
  induction mmap generalizing m with
  | nil =>
      cases run
      exact counted
  | cons e rest ih =>
      obtain ⟨m₁, first, others⟩ := Option.bind_eq_some_iff.mp run
      refine ih ?_ others
      rw [mapEntry] at first
      split at first
      · exact freeRange_counted counted first
      · cases first
        exact counted

/-- The counter falls behind by the pages of the kernel that were not free. -/
theorem lockKernel_behind {kernel_end : Nat} (low : kernel_end < 0xF00000) {fuel i n : Nat}
    {m m' : PageMap} (aligned : i % 4096 = 0) (behind : m.Behind n)
    (run : lockKernel kernel_end fuel i m = some m') :
    ∃ k ≤ fuel, m'.Behind (n + k) ∧
      (k = 0 ↔ ∀ p, i ≤ p * 4096 → p * 4096 < kernel_end → m.isFree p) := by
  induction fuel generalizing i n m with
  | zero => cases run
  | succ fuel ih =>
      rw [lockKernel] at run
      split at run
      · rename_i more
        obtain ⟨m₁, locked, rest⟩ := Option.bind_eq_some_iff.mp run
        have inside : i < 0xF00000 := by omega
        have free := PageMap.isFree_set_page_bit inside locked
        obtain ⟨k, few, behind', others⟩ := ih (by omega) (behind.set_page_bit inside locked) rest
        have page : i / 4096 * 4096 = i := by omega
        cases here : m.isFree (i / 4096) with
        | true =>
            rw [here] at behind'
            refine ⟨k, Nat.le_succ_of_le few, behind', others.trans ⟨?_, ?_⟩⟩
            · intro free' p from_ below
              by_cases first : p = i / 4096
              · exact first ▸ here
              · exact ((free p).mp (free' p (by omega) below)).1
            · intro free' p from_ below
              exact (free p).mpr ⟨free' p (by omega) below, by omega⟩
        | false =>
            rw [here, if_neg Bool.false_ne_true, Nat.add_assoc, Nat.add_comm 1] at behind'
            refine ⟨k + 1, Nat.succ_le_succ few, behind', fun no => absurd no (Nat.succ_ne_zero k),
              fun free' => ?_⟩
            have first := free' (i / 4096) (by omega) (by omega)
            rw [here] at first
            cases first
      · cases run
        refine ⟨0, Nat.zero_le _, behind, fun _ p from_ below => ?_, fun _ => rfl⟩
        omega

/-- The memory map lists page 0 and the pages of the kernel. -/
def ReservedListed (mmap : List MmapEntry) (kernel_end : Nat) : Prop :=
  ∀ p, Reserved kernel_end p → ∃ e ∈ mmap, ∃ j, e.Visits j ∧ p = j / 4096

theorem mm_init_behind (mmap : List MmapEntry) {kernel_end : Nat} (low : kernel_end < 0xF00000) :
    ∃ m n, mm_init mmap kernel_end = some m ∧ m.Behind n ∧ n < 2 ^ 32 ∧
      (n = 0 ↔ ReservedListed mmap kernel_end) := by
  have blank : (PageMap.mk (fun _ => 0#32) 0#32).Counted := by
    simp [PageMap.Counted, PageMap.freePages, PageMap.isFree]
  obtain ⟨m₁, h₁, visited⟩ := mapEntries_spec mmap ⟨fun _ => 0#32, 0#32⟩
  have none_free (p : Nat) : (PageMap.mk (fun _ => 0#32) 0#32).isFree p = false := by
    simp [PageMap.isFree]
  simp only [none_free, Bool.false_eq_true, false_or] at visited
  have counted := mapEntries_counted blank h₁
  obtain ⟨m₂, h₂⟩ : ∃ m₂, m₁.set_page_bit 0x0 = some m₂ := ⟨_, m₁.set_page_bit_eq (by omega)⟩
  have first := PageMap.isFree_set_page_bit (by omega) h₂
  have behind := counted.behind.set_page_bit (by omega) h₂
  obtain ⟨m₃, h₃, -⟩ := lockKernel_spec low pageLoopBound 0x100000 m₂
    (by simp [pageLoopBound]) (by simp [pageLoopBound]) rfl
  obtain ⟨k, few, behind', others⟩ := lockKernel_behind low rfl behind h₃
  have bound : k ≤ 3841 := few
  refine ⟨m₃, _, by simp [mm_init, h₁, h₂, h₃], behind', by split <;> omega, ?_⟩
  have listed : ReservedListed mmap kernel_end ↔ ∀ p, Reserved kernel_end p → m₁.isFree p :=
    forall₂_congr fun p _ => (visited p).symm
  rw [listed]
  constructor
  · intro zero p reserved
    cases reserved with
    | inl bda =>
        by_contra used
        rw [bda] at used
        rw [if_neg used] at zero
        omega
    | inr kernel => exact ((first p).mp (others.mp (by omega) p kernel.1 kernel.2)).1
  · intro free
    have bda : m₁.isFree (0x0 / 4096) = true := free 0 (.inl rfl)
    rw [bda, others.mpr]
    · rfl
    · intro p from_ below
      exact (first p).mpr ⟨free p (.inr ⟨from_, below⟩), by omega⟩

/-- The counter is exact, and from then on `pa_alloc` finds a page if the counter is not 0. -/
def CountExact (m : PageMap) : Prop :=
  m.Counted ∧ ∀ m', Runs.Reach PageMap.call PageMap.Managed (· = m) m' →
    m'.LowRamFreeCount ≠ 0 → m'.pa_alloc.isSome

theorem PageMap.Counted.exact_ {m : PageMap} (counted : m.Counted) : CountExact m := by
  refine ⟨counted, fun m' reached some => ?_⟩
  have counted' : m'.Counted :=
    reached.invariant (fun _ same => same ▸ counted)
      fun _ _ _ counted managed run => counted_call counted managed run
  obtain ⟨p, -, -, run⟩ := pa_alloc_spec counted' some
  rw [run]
  rfl

/-- The counter is exact if and only if every page that is locked was listed. -/
theorem mm_init_counted_iff (mmap : List MmapEntry) (kernel_end : Nat)
    (low : kernel_end < 0xF00000) :
    (∃ m, mm_init mmap kernel_end = some m ∧ CountExact m) ↔ ReservedListed mmap kernel_end := by
  obtain ⟨m, n, run, behind, few, zero⟩ := mm_init_behind mmap low
  rw [← zero, ← behind.counted_iff few]
  constructor
  · rintro ⟨m', run', exact_⟩
    obtain rfl : m = m' := Option.some_inj.mp (run.symm.trans run')
    exact exact_.1
  · intro counted
    exact ⟨m, run, counted.exact_⟩

theorem mm_init_counted_aligned :
    ∃ m, mm_init alignedMap 0x200000 = some m ∧ CountExact m := by
  refine (mm_init_counted_iff alignedMap 0x200000 (by decide)).mpr fun p reserved => ?_
  cases reserved with
  | inl bda => exact ⟨_, .head _, 0, ⟨rfl, 0, rfl, by decide, by decide⟩, bda⟩
  | inr kernel =>
      have stop : (MmapEntry.mk 0x100000 0 0x700000 0 1).stop = 0x800000 := rfl
      refine ⟨_, .tail _ (.tail _ (.head _)), p * 4096, ⟨rfl, p - 256, ?_, ?_, ?_⟩, ?_⟩
      · simp
        omega
      · omega
      · omega
      · omega

/-- Usable memory from 4 KiB on: page 0 is not listed. -/
def upperMap : List MmapEntry :=
  [⟨0x1000, 0, 0x9E000, 0, 1⟩, ⟨0x100000, 0, 0x700000, 0, 1⟩]

theorem mm_init_miscounts :
    ∃ m, mm_init upperMap 0x200000 = some m ∧ ¬ CountExact m := by
  obtain ⟨m, n, run, behind, few, zero⟩ :=
    mm_init_behind upperMap (show 0x200000 < 0xF00000 by decide)
  refine ⟨m, run, fun exact_ => ?_⟩
  obtain ⟨e, mem, j, ⟨-, k, start, -⟩, page⟩ :=
    zero.mp ((behind.counted_iff few).mp exact_.1) 0 (.inl rfl)
  simp only [upperMap, List.mem_cons, List.not_mem_nil, or_false] at mem
  obtain rfl | rfl := mem
  · simp at start
    omega
  · simp at start
    omega

end Krypton
