import Krypton.Foundations.Runs
import Mathlib.Data.Finset.Card
import Mathlib.Data.Finset.Max
import Mathlib.Data.Finset.Range
import Mathlib.Logic.Function.Basic

/-! # The low-memory page allocator of `mm.c`

`LowRamBitF` has one bit for each of the 3840 page frames below 15 MiB, 1 for a
free frame. The bit helpers and the two searches of `pa_alloc` are taken from
the source; `none` stands for `panic`, for an access outside the bitfield and
for a search that does not end.

The allocator is a set of free pages: `freePages` reads it off the bitfield, and
each call is compared with removing the least element or adding an element.
-/

namespace Krypton

def PM_LOW_PAGE_COUNT : Nat := 120

/-- The globals of the allocator. -/
structure PageMap where
  LowRamBitF : Nat → BitVec 32
  LowRamFreeCount : BitVec 32

namespace PageMap

/-- `LowRamBitF[i]`, for an index inside the array. -/
def word (m : PageMap) (i : Nat) : Option (BitVec 32) :=
  if i < PM_LOW_PAGE_COUNT then some (m.LowRamBitF i) else none

def set_page_bit (m : PageMap) (paddr : Nat) : Option PageMap := do
  let page_no := paddr >>> 12
  let bf_idx := page_no >>> 5
  let bit_mask := 1#32 <<< (page_no &&& 0x1F)
  let w ← m.word bf_idx
  return { LowRamBitF := Function.update m.LowRamBitF bf_idx (w &&& ~~~bit_mask)
           LowRamFreeCount := m.LowRamFreeCount - 1 }

def tst_page_bit (m : PageMap) (paddr : Nat) : Option (BitVec 32) := do
  let page_no := paddr >>> 12
  let bf_idx := page_no >>> 5
  let bit_mask := 1#32 <<< (page_no &&& 0x1F)
  return (← m.word bf_idx) &&& bit_mask

def clr_page_bit (m : PageMap) (paddr : Nat) : Option PageMap := do
  let page_no := paddr >>> 12
  let bf_idx := page_no >>> 5
  let bit_mask := 1#32 <<< (page_no &&& 0x1F)
  let w ← m.word bf_idx
  return { LowRamBitF := Function.update m.LowRamBitF bf_idx (w ||| bit_mask)
           LowRamFreeCount := m.LowRamFreeCount + 1 }

/-- `while( LowRamBitF[idx] == 0 ) idx++`, with `left` words of the array ahead. -/
def skipZones (m : PageMap) : (left idx : Nat) → Option Nat
  | 0, _ => none
  | left + 1, idx => do
      if (← m.word idx) = 0#32 then skipZones m left (idx + 1) else return idx

/-- `while( (LowRamBitF[idx] & bitmask) == 0 )`; once the mask has been shifted
    out, with no shift `left`, the loop would not end. -/
def findBit (w : BitVec 32) : (left : Nat) → (bitmask : BitVec 32) → (bit_no : Nat) → Option Nat
  | 0, _, _ => none
  | left + 1, bitmask, bit_no =>
      if w &&& bitmask = 0#32 then findBit w left (bitmask <<< 1) (bit_no + 1) else some bit_no

def pa_alloc (m : PageMap) : Option (Nat × PageMap) := do
  if m.LowRamFreeCount ≤ 0 then none
  let idx ← m.skipZones PM_LOW_PAGE_COUNT 0
  let bit_no ← findBit (← m.word idx) 32 1 0
  let paddr := (idx * 32 + bit_no) <<< 12
  return (paddr, ← m.set_page_bit paddr)

def pa_free (m : PageMap) (paddr : Nat) : Option PageMap := do
  if (← m.tst_page_bit paddr) = 0#32 then m.clr_page_bit paddr else return m

/-! ## Pages and bits -/

/-- The bit of page number `p` is 1. -/
def isFree (m : PageMap) (p : Nat) : Bool := (m.LowRamBitF (p / 32)).getLsbD (p % 32)

/-- The page numbers whose bit is 1: one element for each 1 bit of `LowRamBitF`. -/
def freePages (m : PageMap) : Finset Nat :=
  (Finset.range (PM_LOW_PAGE_COUNT * 32)).filter fun p => m.isFree p

/-- `LowRamFreeCount` is the number of 1 bits in `LowRamBitF`. -/
def Counted (m : PageMap) : Prop := m.LowRamFreeCount.toNat = m.freePages.card

theorem mem_freePages {m : PageMap} {p : Nat} : p ∈ m.freePages ↔ p < 3840 ∧ m.isFree p := by
  simp [freePages, PM_LOW_PAGE_COUNT]

/-- The bit of the page holding `paddr`, cleared or set. -/
def setBit (m : PageMap) (p : Nat) (b : Bool) : Nat → BitVec 32 :=
  let mask := 1#32 <<< (p % 32)
  let w := m.LowRamBitF (p / 32)
  Function.update m.LowRamBitF (p / 32) (if b then w ||| mask else w &&& ~~~mask)

private theorem split_paddr (paddr : Nat) :
    (paddr >>> 12) >>> 5 = paddr / 4096 / 32 ∧ (paddr >>> 12) &&& 0x1F = paddr / 4096 % 32 := by
  constructor
  · simp [Nat.shiftRight_eq_div_pow]
  · rw [Nat.shiftRight_eq_div_pow]
    exact Nat.and_two_pow_sub_one_eq_mod _ 5

private theorem word_eq (m : PageMap) {p : Nat} (h : p < 3840) :
    m.word (p / 32) = some (m.LowRamBitF (p / 32)) := by
  rw [word, if_pos (by simp only [PM_LOW_PAGE_COUNT]; omega)]

section Helpers

variable (m : PageMap) {paddr : Nat} (inside : paddr < 0xF00000)

include inside

theorem set_page_bit_eq : m.set_page_bit paddr =
    some ⟨m.setBit (paddr / 4096) false, m.LowRamFreeCount - 1⟩ := by
  simp [set_page_bit, split_paddr, word_eq m (show paddr / 4096 < 3840 by omega), setBit]

theorem clr_page_bit_eq : m.clr_page_bit paddr =
    some ⟨m.setBit (paddr / 4096) true, m.LowRamFreeCount + 1⟩ := by
  simp [clr_page_bit, split_paddr, word_eq m (show paddr / 4096 < 3840 by omega), setBit]

theorem tst_page_bit_eq : ∃ w, m.tst_page_bit paddr = some w ∧
    (w = 0#32 ↔ m.isFree (paddr / 4096) = false) := by
  refine ⟨m.LowRamBitF (paddr / 4096 / 32) &&& 1#32 <<< (paddr / 4096 % 32), ?_, ?_⟩
  · simp [tst_page_bit, split_paddr, word_eq m (show paddr / 4096 < 3840 by omega)]
  · rw [← BitVec.twoPow_eq, BitVec.and_twoPow, isFree]
    cases (m.LowRamBitF (paddr / 4096 / 32)).getLsbD (paddr / 4096 % 32) with
    | false => simp
    | true =>
        have nonzero : BitVec.twoPow 32 (paddr / 4096 % 32) ≠ 0 := by
          intro h
          have := congrArg (BitVec.getLsbD · (paddr / 4096 % 32)) h
          simp [show paddr / 4096 % 32 < 32 by omega] at this
        simpa using nonzero

end Helpers

/-- Writing the bit of one page leaves every other page's bit alone. -/
theorem isFree_setBit (m : PageMap) (c : BitVec 32) (p q : Nat) (b : Bool) :
    (PageMap.mk (m.setBit p b) c).isFree q = if q = p then b else m.isFree q := by
  simp only [isFree, setBit]
  by_cases word : q / 32 = p / 32
  · rw [word, Function.update_self]
    by_cases same : q = p
    · subst same
      cases b <;> simp [show q % 32 < 32 by omega]
    · have bits : q % 32 ≠ p % 32 := by omega
      cases b <;> simp [same, show q % 32 < 32 by omega] <;> omega
  · rw [Function.update_of_ne word, if_neg (by rintro rfl; exact word rfl)]

theorem freePages_clear (m : PageMap) (c : BitVec 32) (p : Nat) :
    (PageMap.mk (m.setBit p false) c).freePages = m.freePages.erase p := by
  ext q
  rw [Finset.mem_erase, mem_freePages, mem_freePages, isFree_setBit]
  by_cases same : q = p <;> simp [same]

theorem freePages_set (m : PageMap) (c : BitVec 32) {p : Nat} (h : p < 3840) :
    (PageMap.mk (m.setBit p true) c).freePages = insert p m.freePages := by
  ext q
  rw [Finset.mem_insert, mem_freePages, mem_freePages, isFree_setBit]
  by_cases same : q = p <;> simp [same, h]

/-! ## The two searches -/

/-- The word search stops at the first word with a 1 bit, if there is one ahead. -/
theorem skipZones_spec (m : PageMap) (left idx : Nat) (total : left + idx = 120)
    (some_free : ∃ i, idx ≤ i ∧ i < 120 ∧ m.LowRamBitF i ≠ 0#32) :
    ∃ i, m.skipZones left idx = some i ∧ i < 120 ∧ m.LowRamBitF i ≠ 0#32 ∧
      ∀ j, idx ≤ j → j < i → m.LowRamBitF j = 0#32 := by
  induction left generalizing idx with
  | zero =>
      obtain ⟨i, hi, hi', -⟩ := some_free
      omega
  | succ left ih =>
      have here : m.word idx = some (m.LowRamBitF idx) := by
        rw [word, if_pos (by simp only [PM_LOW_PAGE_COUNT]; omega)]
      by_cases zero : m.LowRamBitF idx = 0#32
      · obtain ⟨i, hi, hi', busy⟩ := some_free
        have ahead : i ≠ idx := by rintro rfl; exact busy zero
        obtain ⟨k, hk, inside, found, before⟩ := ih (idx + 1) (by omega) ⟨i, by omega, hi', busy⟩
        refine ⟨k, by simp [skipZones, here, zero, hk], inside, found, fun j hj hjk => ?_⟩
        by_cases first : j = idx
        · exact first ▸ zero
        · exact before j (by omega) hjk
      · exact ⟨idx, by simp [skipZones, here, zero], by omega, zero, fun j h h' => by omega⟩

/-- The bit search stops at the first 1 bit, if there is one ahead. -/
theorem findBit_spec (w : BitVec 32) (left bit_no : Nat) (total : left + bit_no = 32)
    (some_bit : ∃ b, bit_no ≤ b ∧ b < 32 ∧ w.getLsbD b) :
    ∃ b, findBit w left (1#32 <<< bit_no) bit_no = some b ∧ b < 32 ∧ w.getLsbD b ∧
      ∀ j, bit_no ≤ j → j < b → w.getLsbD j = false := by
  induction left generalizing bit_no with
  | zero =>
      obtain ⟨b, hb, hb', -⟩ := some_bit
      omega
  | succ left ih =>
      have shift : (1#32 <<< bit_no) <<< 1 = 1#32 <<< (bit_no + 1) := by
        rw [BitVec.shiftLeft_add]
      have test : w &&& 1#32 <<< bit_no = 0#32 ↔ w.getLsbD bit_no = false := by
        rw [← BitVec.twoPow_eq, BitVec.and_twoPow]
        cases h : w.getLsbD bit_no with
        | false => simp
        | true =>
            simp only [if_true, Bool.true_eq_false, iff_false]
            intro h
            have := congrArg (BitVec.getLsbD · bit_no) h
            simp [show bit_no < 32 by omega] at this
      cases here : w.getLsbD bit_no with
      | false =>
          obtain ⟨b, hb, hb', one⟩ := some_bit
          have ahead : b ≠ bit_no := by rintro rfl; simp [here] at one
          obtain ⟨k, hk, inside, found, before⟩ :=
            ih (bit_no + 1) (by omega) ⟨b, by omega, hb', one⟩
          refine ⟨k, ?_, inside, found, fun j hj hjk => ?_⟩
          · rw [findBit, if_pos (test.mpr here), shift, hk]
          · by_cases first : j = bit_no
            · exact first ▸ here
            · exact before j (by omega) hjk
      | true =>
          refine ⟨bit_no, ?_, by omega, here, fun j h h' => by omega⟩
          rw [findBit, if_neg (by rw [test, here]; simp)]

/-- The lowest free page is found, and nothing else is touched. -/
theorem pa_alloc_spec {m : PageMap} (counted : m.Counted) (pos : m.LowRamFreeCount ≠ 0#32) :
    ∃ p, p ∈ m.freePages ∧ (∀ q ∈ m.freePages, p ≤ q) ∧
      m.pa_alloc = some (p * 4096, ⟨m.setBit p false, m.LowRamFreeCount - 1⟩) := by
  have nonempty : m.freePages.Nonempty := by
    rw [← Finset.card_pos, ← counted]
    exact Nat.pos_of_ne_zero fun h => pos (BitVec.eq_of_toNat_eq (by simpa using h))
  have bits : ∀ p, m.isFree p → m.LowRamBitF (p / 32) ≠ 0#32 := by
    intro p hp zero
    simp [isFree, zero] at hp
  obtain ⟨q, hq⟩ := nonempty
  obtain ⟨hq, free⟩ := mem_freePages.mp hq
  obtain ⟨i, hi, inside, busy, before⟩ :=
    m.skipZones_spec 120 0 rfl ⟨q / 32, by omega, by omega, bits q free⟩
  obtain ⟨b, hb, inside', one, before'⟩ := findBit_spec (m.LowRamBitF i) 32 0 rfl (by
    by_contra none
    push Not at none
    refine busy (BitVec.eq_of_getLsbD_eq fun j hj => ?_)
    simpa using none j (by omega) hj)
  have page : (i * 32 + b) / 32 = i ∧ (i * 32 + b) % 32 = b := by omega
  refine ⟨i * 32 + b, ?_, ?_, ?_⟩
  · exact mem_freePages.mpr ⟨by omega, by rw [isFree, page.1, page.2]; exact one⟩
  · intro r hr
    obtain ⟨-, hr⟩ := mem_freePages.mp hr
    by_contra lower
    rcases Nat.lt_or_ge (r / 32) i with h | h
    · exact bits r hr (before _ (Nat.zero_le _) h)
    · have word : r / 32 = i := by omega
      have := before' (r % 32) (Nat.zero_le _) (by omega)
      rw [isFree, word, this] at hr
      cases hr
  · have addr : (i * 32 + b) <<< 12 = (i * 32 + b) * 4096 := by rw [Nat.shiftLeft_eq]
    have read : m.word i = some (m.LowRamBitF i) := by
      rw [word, if_pos (by simpa [PM_LOW_PAGE_COUNT] using inside)]
    have write := m.set_page_bit_eq (show (i * 32 + b) * 4096 < 0xF00000 by omega)
    rw [Nat.mul_div_cancel _ (Nat.succ_pos 4095)] at write
    have hi' : m.skipZones PM_LOW_PAGE_COUNT 0 = some i := hi
    have hb' : findBit (m.LowRamBitF i) 32 1#32 0 = some b := hb
    simp [pa_alloc, pos, hi', read, hb', addr, write]

/-- Freeing an address adds its page, and the counter follows. -/
theorem pa_free_spec (m : PageMap) {paddr : Nat} (inside : paddr < 0xF00000) :
    m.pa_free paddr = some (if m.isFree (paddr / 4096) then m
      else ⟨m.setBit (paddr / 4096) true, m.LowRamFreeCount + 1⟩) := by
  obtain ⟨w, hw, zero⟩ := m.tst_page_bit_eq inside
  cases h : m.isFree (paddr / 4096) with
  | false => simp [pa_free, hw, zero.mpr h, clr_page_bit_eq m inside]
  | true =>
      have : w ≠ 0#32 := fun e => by simp [zero.mp e] at h
      simp [pa_free, hw, this]

/-! ## Runs of the allocator -/

inductive PageCall where
  | alloc
  | free (paddr : Nat)

def call (m : PageMap) : PageCall → Option PageMap
  | .alloc => m.pa_alloc.map Prod.snd
  | .free paddr => m.pa_free paddr

/-- A freed address lies below 15 MiB. -/
def Managed : PageMap → PageCall → Prop
  | _, .alloc => True
  | _, .free paddr => paddr < 0xF00000

/-- Two bitfields with the same free pages are equal. -/
theorem ext_isFree {m m' : PageMap} (bits : ∀ p, m.isFree p = m'.isFree p)
    (count : m.LowRamFreeCount = m'.LowRamFreeCount) : m = m' := by
  obtain ⟨f, c⟩ := m
  obtain ⟨f', c'⟩ := m'
  obtain rfl : c = c' := count
  congr 1
  funext i
  refine BitVec.eq_of_getLsbD_eq fun j hj => ?_
  have := bits (i * 32 + j)
  rwa [isFree, isFree, show (i * 32 + j) / 32 = i by omega,
    show (i * 32 + j) % 32 = j by omega] at this

/-- A counter that counts a set with an element in it can be decremented. -/
private theorem counted_clear {m : PageMap} (counted : m.Counted) {p : Nat}
    (free : p ∈ m.freePages) :
    (PageMap.mk (m.setBit p false) (m.LowRamFreeCount - 1)).Counted := by
  have pos := Finset.card_pos.mpr ⟨p, free⟩
  rw [Counted, freePages_clear, Finset.card_erase_of_mem free, ← counted]
  rw [← counted] at pos
  show (m.LowRamFreeCount - 1).toNat = _
  bv_omega

private theorem counted_set {m : PageMap} (counted : m.Counted) {p : Nat} (inside : p < 3840)
    (used : m.isFree p = false) :
    (PageMap.mk (m.setBit p true) (m.LowRamFreeCount + 1)).Counted := by
  have fresh : p ∉ m.freePages := fun h => by simp [mem_freePages, used] at h
  have few : m.freePages.card ≤ 3840 := by
    simpa [freePages, PM_LOW_PAGE_COUNT] using
      Finset.card_filter_le (Finset.range (PM_LOW_PAGE_COUNT * 32)) (fun p => m.isFree p)
  rw [Counted, freePages_set m _ inside, Finset.card_insert_of_notMem fresh, ← counted]
  rw [← counted] at few
  show (m.LowRamFreeCount + 1).toNat = _
  bv_omega

/-- One call keeps the counter equal to the number of 1 bits. -/
theorem counted_call {m m' : PageMap} {c : PageCall} (counted : m.Counted) (managed : Managed m c)
    (h : m.call c = some m') : m'.Counted := by
  cases c with
  | alloc =>
      by_cases empty : m.LowRamFreeCount = 0#32
      · simp [call, pa_alloc, empty] at h
      · obtain ⟨p, free, -, run⟩ := pa_alloc_spec counted empty
        simp only [call, run, Option.map_some, Option.some_inj] at h
        exact h ▸ counted_clear counted free
  | free paddr =>
      have inside : paddr < 0xF00000 := managed
      rw [call, pa_free_spec m inside, Option.some_inj] at h
      cases free : m.isFree (paddr / 4096) with
      | true => rwa [← h, free, if_pos rfl]
      | false =>
          rw [← h, free, if_neg (by simp)]
          exact counted_set counted (by omega) free

/-- What `pa_alloc` did, told from the set of free pages. -/
theorem pa_alloc_taken {m m' : PageMap} {paddr : Nat} (counted : m.Counted)
    (run : m.pa_alloc = some (paddr, m')) :
    ∃ p ∈ m.freePages, paddr = p * 4096 ∧ m'.freePages = m.freePages.erase p ∧ m'.Counted := by
  by_cases empty : m.LowRamFreeCount = 0#32
  · simp [pa_alloc, empty] at run
  · obtain ⟨p, free, -, taken⟩ := pa_alloc_spec counted empty
    rw [taken] at run
    cases run
    exact ⟨p, free, rfl, m.freePages_clear _ p, counted_clear counted free⟩

/-- While a page is free, `pa_alloc` gives one. -/
theorem pa_alloc_free {m : PageMap} (counted : m.Counted) (some_free : 0 < m.freePages.card) :
    ∃ p ∈ m.freePages, ∃ m', m.pa_alloc = some (p * 4096, m') ∧
      m'.freePages = m.freePages.erase p ∧ m'.Counted := by
  have pos : m.LowRamFreeCount ≠ 0#32 := by
    intro empty
    rw [← counted, empty] at some_free
    exact Nat.lt_irrefl 0 some_free
  obtain ⟨p, free, -, run⟩ := pa_alloc_spec counted pos
  exact ⟨p, free, _, run, m.freePages_clear _ p, counted_clear counted free⟩

/-- `pa_free` of a used page makes it free. -/
theorem pa_free_given {m : PageMap} {p : Nat} (counted : m.Counted) (inside : p < 3840)
    (used : p ∉ m.freePages) :
    ∃ m', m.pa_free (p * 4096) = some m' ∧ m'.freePages = insert p m.freePages ∧ m'.Counted := by
  have busy : m.isFree p = false := by
    simpa [mem_freePages, inside] using used
  have freed := pa_free_spec m (show p * 4096 < 0xF00000 by omega)
  rw [Nat.mul_div_cancel _ (Nat.succ_pos 4095), busy, if_neg Bool.false_ne_true] at freed
  exact ⟨_, freed, m.freePages_set _ inside, counted_set counted inside busy⟩

/-- A used page stays used until an address within it is freed. -/
theorem used_call {m m' : PageMap} {c : PageCall} {p : Nat} (counted : m.Counted)
    (used : p ∉ m.freePages) (managed : Managed m c)
    (kept : ∀ paddr, c = .free paddr → paddr / 4096 ≠ p) (h : m.call c = some m') :
    p ∉ m'.freePages := by
  cases c with
  | alloc =>
      by_cases empty : m.LowRamFreeCount = 0#32
      · simp [call, pa_alloc, empty] at h
      · obtain ⟨q, -, -, run⟩ := pa_alloc_spec counted empty
        simp only [call, run, Option.map_some, Option.some_inj] at h
        rw [← h, freePages_clear]
        exact fun mem => used (Finset.mem_of_mem_erase mem)
  | free paddr =>
      have inside : paddr < 0xF00000 := managed
      rw [call, pa_free_spec m inside, Option.some_inj] at h
      split at h
      · exact h ▸ used
      · rw [← h, freePages_set _ _ (by omega), Finset.mem_insert, not_or]
        exact ⟨(kept paddr rfl).symm, used⟩

/-- What the allocator guarantees in the states of a run. -/
structure Sound (m : PageMap) : Prop where
  counted : m.Counted
  /-- The lowest free page is handed out, only its bit changes, and freeing it undoes the call. -/
  alloc : 0 < m.LowRamFreeCount.toNat → ∃ paddr m', m.pa_alloc = some (paddr, m') ∧
    paddr % 4096 = 0 ∧ paddr / 4096 ∈ m.freePages ∧ (∀ p ∈ m.freePages, paddr / 4096 ≤ p) ∧
    (∀ p, m'.isFree p = (m.isFree p && p != paddr / 4096)) ∧ m'.pa_free paddr = some m
  free : ∀ paddr < 0xF00000, ∃ m', m.pa_free paddr = some m' ∧ (m.isFree (paddr / 4096) → m' = m)
  /-- A page is not handed out again before an address within it was freed. -/
  once : ∀ paddr m₁ m₂ paddr' m₃, m.pa_alloc = some (paddr, m₁) →
    Runs.Reach call (fun m c => Managed m c ∧ ∀ a, c = .free a → a / 4096 ≠ paddr / 4096)
      (· = m₁) m₂ →
    m₂.pa_alloc = some (paddr', m₃) → paddr' ≠ paddr

private theorem sound_of_counted {m : PageMap} (counted : m.Counted) : m.Sound where
  counted := counted
  alloc pos := by
    obtain ⟨p, free, least, run⟩ := pa_alloc_spec counted (by rintro h; simp [h] at pos)
    have page : p * 4096 / 4096 = p := Nat.mul_div_cancel _ (Nat.succ_pos 4095)
    obtain ⟨inside, bit⟩ := mem_freePages.mp free
    refine ⟨p * 4096, _, run, by omega, by rwa [page], by rwa [page], fun q => ?_, ?_⟩
    · rw [isFree_setBit, page]
      by_cases same : q = p <;> simp [same]
    · rw [pa_free_spec _ (by omega), page, isFree_setBit, if_pos rfl, if_neg (by simp),
        Option.some_inj]
      refine ext_isFree (fun q => ?_) (BitVec.sub_add_cancel _ _)
      rw [isFree_setBit, isFree_setBit]
      by_cases same : q = p <;> simp [same, bit]
  free paddr inside := by
    refine ⟨_, pa_free_spec m inside, fun free => if_pos free⟩
  once paddr m₁ m₂ paddr' m₃ first between second := by
    have pos : m.LowRamFreeCount ≠ 0#32 := by
      intro empty
      simp [pa_alloc, empty] at first
    obtain ⟨p, free, -, run⟩ := pa_alloc_spec counted pos
    rw [run, Option.some_inj, Prod.mk.injEq] at first
    obtain ⟨rfl, rfl⟩ := first
    rw [Nat.mul_div_cancel _ (Nat.succ_pos 4095)] at between
    obtain ⟨counted₂, used⟩ : m₂.Counted ∧ p ∉ m₂.freePages := by
      refine between.invariant (I := fun s => s.Counted ∧ p ∉ s.freePages) ?_
        fun s c t ⟨hc, hu⟩ ⟨hm, hk⟩ step => ⟨counted_call hc hm step, used_call hc hu hm hk step⟩
      rintro s rfl
      exact ⟨counted_clear counted free, by simp [freePages_clear]⟩
    by_cases empty : m₂.LowRamFreeCount = 0#32
    · simp [pa_alloc, empty] at second
    · obtain ⟨q, free', -, run'⟩ := pa_alloc_spec counted₂ empty
      rw [run', Option.some_inj, Prod.mk.injEq] at second
      rintro rfl
      have same : q = p := by omega
      exact used (same ▸ free')

/-- Over any history of calls the counter is exact and the allocator behaves as a
    set of pages from which the least is taken. -/
theorem allocator_sound {m₀ m : PageMap} (counted : m₀.Counted)
    (reached : Runs.Reach call Managed (· = m₀) m) : m.Sound := by
  refine sound_of_counted (reached.invariant ?_ fun s c t hc hm step => counted_call hc hm step)
  rintro s rfl
  exact counted

/-- The run that frees frame 1 of an empty bitfield. -/
theorem allocator_sound_after_free :
    ∃ m, (PageMap.mk (fun _ => 0) 0).pa_free 0x1000 = some m ∧ m.Sound := by
  have empty : (PageMap.mk (fun _ => 0) 0).Counted := by
    simp [Counted, freePages, isFree]
  have step := pa_free_spec (PageMap.mk (fun _ => 0) 0) (show 0x1000 < 0xF00000 by omega)
  have managed : Managed (PageMap.mk (fun _ => 0) 0) (.free 0x1000) := by
    show 0x1000 < 0xF00000
    omega
  exact ⟨_, step, allocator_sound empty (.next (.start rfl) managed step)⟩

end PageMap

end Krypton
