import Krypton.Mm.Frames

/-! # The page functions and the hardware walk

`mm_map`, `get_physaddr` and `mm_unmap` reach the tables through the last
directory entry, which names the directory. What they enter and find there is
what the processor's walk finds.
-/

namespace Krypton

namespace Paging

variable {s t : Paging} {p v w word flags : Nat}

/-- The physical address that a virtual address is translated to. -/
def physical (s : Paging) (va : Nat) : Option Nat :=
  (s.walk va).map fun frame => frame <<< 12 + (va &&& 0xFFF)

/-- The kernel's look-up is the hardware walk. -/
def Agrees (s : Paging) : Prop :=
  ∀ u < 0xFFC00000, s.get_physaddr u = some ((s.physical u).getD 0)

/-- Where the directory entry of `v` names the directory, the entry of `v` in it is neither
    that one nor the last one. -/
def Apart (s : Paging) (v : Nat) : Prop :=
  present (s.pde (v >>> 22)) → frameOf (s.pde (v >>> 22)) = s.cr3 →
    (v >>> 12) &&& 0x03FF ≠ v >>> 22 ∧ (v >>> 12) &&& 0x03FF ≠ 1023

/-- There is a table for `v`, or `pa_alloc` gives a frame for it that is not in use. -/
def HasTable (s : Paging) (v : Nat) : Prop :=
  present (s.pde (v >>> 22)) ∨
    ∃ table pages, s.pages.pa_alloc = some (table, pages) ∧ s.Fresh (table / 4096)

theorem agrees (h : s.Recursive) : s.Agrees := by
  intro u below
  rw [get_physaddr_eq h (dir_lt below), physical]
  cases s.walk u <;> rfl

/-- The addresses of one page differ in the offset only. -/
theorem offset_eq {off : Nat} (page : v % 4096 = 0) (inside : off < 4096) :
    (v + off) >>> 12 = v >>> 12 ∧ (v + off) >>> 22 = v >>> 22 ∧ (v + off) &&& 0xFFF = off := by
  have mask : (v + off) &&& 0xFFF = (v + off) % 4096 := Nat.and_two_pow_sub_one_eq_mod _ 12
  rw [mask]
  simp only [Nat.shiftRight_eq_div_pow]
  omega

/-! ## One store -/

/-- The entry of `v` was written to its table. -/
def withWord (s : Paging) (v word : Nat) : Paging :=
  { s with frames := set s.frames (frameOf (s.pde (v >>> 22))) ((v >>> 12) &&& 0x03FF) word }

theorem withWord_pde (apart : s.Apart v) (there : present (s.pde (v >>> 22))) {i : Nat}
    (kept : i = v >>> 22 ∨ i = 1023) : (s.withWord v word).pde i = s.pde i := by
  refine set_other ?_
  rintro ⟨dir, index⟩
  obtain ⟨own, last⟩ := apart there dir.symm
  cases kept with
  | inl same => exact own (index.symm.trans same)
  | inr same => exact last (index.symm.trans same)

theorem withWord_recursive (word : Nat) (h : s.Recursive) (apart : s.Apart v)
    (there : present (s.pde (v >>> 22))) :
    (s.withWord v word).Recursive := by
  unfold Recursive
  rw [withWord_pde apart there (.inr rfl)]
  exact h

theorem withWord_walk (apart : s.Apart v) (there : present (s.pde (v >>> 22)))
    (dir : w >>> 22 = v >>> 22) (page : w >>> 12 = v >>> 12) :
    (s.withWord v word).walk w = if present word then some (frameOf word) else none := by
  have entry : (s.withWord v word).frames (s.withWord v word).cr3 (v >>> 22) = s.pde (v >>> 22) :=
    withWord_pde apart there (.inl rfl)
  have written :
      (s.withWord v word).frames (frameOf (s.pde (v >>> 22))) ((v >>> 12) &&& 0x03FF) = word :=
    set_self ..
  simp only [walk, dir, page, entry, there, written, if_true]

theorem write_entry (word : Nat) (h : s.Recursive) (below : v >>> 22 < 1023)
    (there : present (s.pde (v >>> 22))) :
    s.write (pt (v >>> 22) ((v >>> 12) &&& 0x03FF)) word = some (s.withWord v word) := by
  rw [h.write_pt word (Nat.lt_succ_of_lt below) (index_lt _), if_pos there]
  rfl

/-! ## The calls -/

/-- The state in which `mm_map` writes the entry of `v`. -/
structure Prepared (s s₁ : Paging) (v flags : Nat) : Prop where
  run : s.enter (v >>> 22) flags = some s₁
  recursive : s₁.Recursive
  there : present (s₁.pde (v >>> 22))
  apart : s₁.Apart v
  empty : ¬ present (s.pde (v >>> 22)) → frameOf (s₁.pde (v >>> 22)) ≠ s₁.cr3 ∧
    ∀ j < 1024, s₁.frames (frameOf (s₁.pde (v >>> 22))) j = 0

theorem prepared (h : s.Recursive) (below : v >>> 22 < 1023) (apart : s.Apart v)
    (table : s.HasTable v)
    (flags : Nat) : ∃ s₁, Prepared s s₁ v flags := by
  by_cases there : present (s.pde (v >>> 22))
  · exact ⟨s, enter_old h (Nat.lt_succ_of_lt below) there, h, there, apart, absurd there⟩
  · obtain ⟨table, pages, alloc, fresh⟩ := table.resolve_left there
    have other := fresh.apart h
    obtain ⟨there', names⟩ := entry_spec flags (pa_alloc_aligned alloc)
    have entry : (s.withTable (v >>> 22) table flags pages).pde (v >>> 22) = _ :=
      withTable_pde other
    have elsewhere :
        frameOf ((s.withTable (v >>> 22) table flags pages).pde (v >>> 22)) ≠ s.cr3 := by
      rw [entry, names]
      exact other.symm
    refine ⟨_, enter_new h below there alloc other, ?_, entry ▸ there',
      fun _ same => absurd same elsewhere, fun _ => ⟨elsewhere, fun j less => ?_⟩⟩
    · unfold Recursive
      rw [withTable_others other (by omega)]
      exact h
    · rw [entry, names]
      exact withTable_word less

theorem mm_map_eq {s₁ : Paging} (prep : Prepared s s₁ v flags) (phys : p ≠ 0)
    (below : v >>> 22 < 1023) :
    s.mm_map p v flags = some (v, s₁.withWord v (p ||| (flags &&& 0xFFF) ||| 0x01)) := by
  have write := write_entry (p ||| (flags &&& 0xFFF) ||| 0x01) prep.recursive below prep.there
  unfold mm_map
  simp only [if_neg phys, prep.run, write, Option.bind_eq_bind, Option.bind_some]
  rfl

/-- The page `v` is translated to the page `p`, by the processor and by `get_physaddr`. -/
structure MappedTo (s t : Paging) (p v : Nat) : Prop where
  walk : ∀ off < 4096, t.physical (v + off) = some (p + off)
  lookup : ∀ off < 4096, t.get_physaddr (v + off) = some (p + off)
  alone : ¬ present (s.pde (v >>> 22)) →
    ∀ w, w >>> 22 = v >>> 22 → w >>> 12 ≠ v >>> 12 → t.walk w = none
  agrees : t.Agrees

structure Unmapped (t : Paging) (v : Nat) : Prop where
  walk : ∀ off < 4096, t.physical (v + off) = none
  lookup : ∀ off < 4096, t.get_physaddr (v + off) = some 0
  agrees : t.Agrees

theorem offset_lt {off : Nat} (page : v % 4096 = 0) (below : v < 0xFFC00000) (inside : off < 4096) :
    v + off < 0xFFC00000 := by omega

/-- The other pages of a new table. -/
theorem withWord_alone {s₁ : Paging} (prep : Prepared s s₁ v flags)
    (absent : ¬ present (s.pde (v >>> 22))) (dir : w >>> 22 = v >>> 22)
    (other : w >>> 12 ≠ v >>> 12) :
    (s₁.withWord v word).walk w = none := by
  have entry : (s₁.withWord v word).pde (v >>> 22) = s₁.pde (v >>> 22) :=
    withWord_pde prep.apart prep.there (.inl rfl)
  have index : (w >>> 12) &&& 0x03FF ≠ (v >>> 12) &&& 0x03FF := fun same => other (page_eq dir same)
  refine walk_unmapped ?_
  rw [dir, entry]
  exact (set_word index).trans ((prep.empty absent).2 _ (index_lt _))

theorem mapped_to {s₁ : Paging} (prep : Prepared s s₁ v flags) (aligned : p % 4096 = 0)
    (page : v % 4096 = 0) (below : v < 0xFFC00000) :
    MappedTo s (s₁.withWord v (p ||| (flags &&& 0xFFF) ||| 0x01)) p v := by
  obtain ⟨there, names⟩ := entry_spec flags aligned
  have agree := agrees (withWord_recursive (p ||| (flags &&& 0xFFF) ||| 0x01) prep.recursive
    prep.apart prep.there)
  have walk (off : Nat) (inside : off < 4096) :
      (s₁.withWord v (p ||| (flags &&& 0xFFF) ||| 0x01)).physical (v + off) = some (p + off) := by
    obtain ⟨low, dir, rest⟩ := offset_eq page inside
    have whole : p / 4096 * 2 ^ 12 = p := by omega
    rw [physical, withWord_walk prep.apart prep.there dir low, if_pos there, names, Option.map_some,
      rest, Nat.shiftLeft_eq, whole]
  refine ⟨walk, fun off inside => ?_,
      fun absent w dir other => withWord_alone prep absent dir other, agree⟩
  rw [agree _ (offset_lt page below inside), walk off inside]
  rfl

theorem unmapped (h : s.Recursive) (apart : s.Apart v) (there : present (s.pde (v >>> 22)))
    (page : v % 4096 = 0) (below : v < 0xFFC00000) : Unmapped (s.withWord v 0) v := by
  have agree := agrees (withWord_recursive 0 h apart there)
  have walk (off : Nat) (inside : off < 4096) : (s.withWord v 0).physical (v + off) = none := by
    obtain ⟨low, dir, -⟩ := offset_eq page inside
    rw [physical, withWord_walk apart there dir low]
    rfl
  refine ⟨walk, fun off inside => ?_, agree⟩
  rw [agree _ (offset_lt page below inside), walk off inside]
  rfl

theorem map_lookup_unmap (self : s.Recursive) (phys : p ≠ 0 ∧ p % 4096 = 0) (page : v % 4096 = 0)
    (below : v < 0xFFC00000) (apart : s.Apart v) (table : s.HasTable v) :
    s.Agrees ∧ ∃ t t', s.mm_map p v flags = some (v, t) ∧ MappedTo s t p v ∧
      t.mm_unmap v = some t' ∧ Unmapped t' v := by
  obtain ⟨s₁, prep⟩ := prepared self (dir_lt below) apart table flags
  have map := mm_map_eq prep phys.1 (dir_lt below)
  have mapped := mapped_to prep phys.2 page below
  obtain ⟨word, written⟩ : ∃ word, p ||| (flags &&& 0xFFF) ||| 0x01 = word := ⟨_, rfl⟩
  rw [written] at map mapped
  have entry : (s₁.withWord v word).pde (v >>> 22) = s₁.pde (v >>> 22) :=
    withWord_pde prep.apart prep.there (.inl rfl)
  have self₁ := withWord_recursive word prep.recursive prep.apart prep.there
  have there : present ((s₁.withWord v word).pde (v >>> 22)) := entry ▸ prep.there
  have apart₁ : (s₁.withWord v word).Apart v := by
    intro _ names
    rw [entry] at names
    exact prep.apart prep.there names
  exact ⟨agrees self, _, _, map, mapped, write_entry 0 self₁ (dir_lt below) there,
    unmapped self₁ apart₁ there page below⟩

/-- The directory in frame 2, where the entries of `named` name it. Frame 5 is free. -/
def directory (named : List Nat) : Paging where
  frames f i := if f = 2 ∧ i ∈ named then 2 <<< 12 ||| 0x7 else 0
  cr3 := 2
  pages := ⟨fun i => if i = 0 then 0x20#32 else 0#32, 1⟩

theorem directory_pde (named : List Nat) (i : Nat) :
    (directory named).pde i = if i ∈ named then 2 <<< 12 ||| 0x7 else 0 := by
  simp [directory, pde]

theorem directory_recursive {named : List Nat} (last : 1023 ∈ named) :
    (directory named).Recursive := by
  unfold Recursive
  rw [directory_pde, if_pos last]
  exact boot_entry 2

theorem directory_fresh (named : List Nat) {f : Nat} (other : f ≠ 2) :
    (directory named).Fresh f := by
  intro i _ there names
  rw [directory_pde] at there names
  by_cases entered : i ∈ named
  · rw [if_pos entered] at names
    exact other (names.symm.trans (boot_entry 2).2)
  · rw [if_neg entered] at there
    cases there

/-- The free frame serves for a table. -/
theorem directory_table : (directory [1023]).HasTable 0x800000 := by
  have given : (directory [1023]).pages.pa_alloc.map Prod.fst = some 0x5000 := by decide +kernel
  obtain ⟨⟨table, pages⟩, alloc, rfl⟩ := Option.map_eq_some_iff.mp given
  exact .inr ⟨_, pages, alloc, directory_fresh _ (by decide)⟩

theorem map_lookup_unmap_new :
    ∃ t t', (directory [1023]).mm_map 0x9000 0x800000 0x6 = some (0x800000, t) ∧
    MappedTo (directory [1023]) t 0x9000 0x800000 ∧ t.mm_unmap 0x800000 = some t' ∧
    Unmapped t' 0x800000 := by
  have self := directory_recursive (List.mem_singleton_self 1023)
  have absent : ¬ present ((directory [1023]).pde (0x800000 >>> 22)) := by decide
  exact (map_lookup_unmap self (by decide) (by decide) (by decide)
    (fun there => absurd there absent) directory_table).2

/-- Where entry 5 names the directory too, the page with both indices 5 replaces that entry. -/
theorem map_replaces_table : (directory [5, 1023]).Recursive ∧
    (directory [5, 1023]).HasTable 0x1405000 ∧
    ¬ ∃ t, (directory [5, 1023]).mm_map 0x9000 0x1405000 0x6 = some (0x1405000, t) ∧
      MappedTo (directory [5, 1023]) t 0x9000 0x1405000 := by
  refine ⟨directory_recursive (by decide), .inl (by decide), ?_⟩
  rintro ⟨t, run, mapped⟩
  have nowhere : ((directory [5, 1023]).mm_map 0x9000 0x1405000 0x6).map
      (fun r => r.2.physical 0x1405000) = some none := by decide +kernel
  have here := mapped.walk 0 (by decide)
  rw [run, Option.map_some] at nowhere
  cases here.symm.trans (Option.some_inj.mp nowhere)

/-! ## Unmapping -/

/-- `mm_unmap` ends without a page fault, `v` is unmapped then, and doing it again changes
    nothing. -/
def Unmaps (s : Paging) (v : Nat) : Prop :=
  ∃ t, s.mm_unmap v = some t ∧ t.walk v = none ∧ t.mm_unmap v = some t

theorem withWord_again (dir : (s.withWord v 0).pde (v >>> 22) = s.pde (v >>> 22)) :
    (s.withWord v 0).withWord v 0 = s.withWord v 0 := by
  unfold withWord at dir ⊢
  rw [dir]
  simp [set]

/-- Where the store of 0 hits an entry that the next one needs, that one faults. -/
theorem unmap_again_faults (self : s.Recursive) (below : v >>> 22 < 1023)
    (names : frameOf (s.pde (v >>> 22)) = s.cr3)
    (hit : (v >>> 12) &&& 0x03FF = v >>> 22 ∨ (v >>> 12) &&& 0x03FF = 1023) :
    (s.withWord v 0).mm_unmap v = none := by
  have zero : (s.withWord v 0).pde ((v >>> 12) &&& 0x03FF) = 0 := by
    unfold withWord pde at *
    rw [names]
    exact set_self ..
  cases hit with
  | inl own =>
      rw [own] at zero
      have last : (s.withWord v 0).pde 1023 = s.pde 1023 := by
        refine set_other ?_
        rintro ⟨-, same⟩
        omega
      have self' : (s.withWord v 0).Recursive := by
        unfold Recursive
        rw [last]
        exact self
      unfold mm_unmap
      rw [self'.write_pt 0 (Nat.lt_succ_of_lt below) (index_lt _), zero]
      rfl
  | inr last =>
      rw [last] at zero
      have dir := (pt_index (Nat.lt_succ_of_lt below) (index_lt (v >>> 12))).1
      have absent : (s.withWord v 0).walk (pt (v >>> 22) ((v >>> 12) &&& 0x03FF)) = none := by
        refine walk_absent ?_
        rw [dir, zero]
        decide
      simp only [mm_unmap, write, absent, Option.bind_eq_bind, Option.bind_none]

theorem unmaps_iff (self : s.Recursive) (below : v < 0xFFC00000) :
    s.Unmaps v ↔ present (s.pde (v >>> 22)) ∧ s.Apart v := by
  have dir := dir_lt below
  constructor
  · rintro ⟨t, first, -, second⟩
    by_cases there : present (s.pde (v >>> 22))
    · cases (write_entry 0 self dir there).symm.trans first
      refine ⟨there, fun _ names => ?_⟩
      by_contra hit
      rw [unmap_again_faults self dir names (by omega)] at second
      cases second
    · unfold mm_unmap at first
      rw [self.write_pt 0 (Nat.lt_succ_of_lt dir) (index_lt _), if_neg there] at first
      cases first
  · rintro ⟨there, apart⟩
    have entry : (s.withWord v 0).pde (v >>> 22) = s.pde (v >>> 22) :=
      withWord_pde apart there (.inl rfl)
    have again := write_entry 0 (withWord_recursive 0 self apart there) dir (entry.symm ▸ there)
    rw [withWord_again entry] at again
    exact ⟨_, write_entry 0 self dir there, withWord_walk apart there rfl rfl, again⟩

/-- The directory with an empty table in frame 4 for the entry 2. -/
def tabled : Paging := (directory [1023]).withEntry 2 (4 <<< 12 ||| 0x7) ⟨fun _ => 0, 0⟩

/-- A page is mapped and unmapped again. -/
theorem unmaps_twice : ∃ s, tabled.mm_map 0x9000 0x800000 0x6 = some (0x800000, s) ∧
    s.walk 0x800000 = some 9 ∧ s.Unmaps 0x800000 := by
  have ends : (tabled.mm_map 0x9000 0x800000 0x6).any fun r => decide (r.1 = 0x800000 ∧
      r.2.walk 0x800000 = some 9 ∧ present (r.2.pde 1023) ∧ frameOf (r.2.pde 1023) = r.2.cr3 ∧
      present (r.2.pde 2) ∧ frameOf (r.2.pde 2) ≠ r.2.cr3) := by decide +kernel
  obtain ⟨⟨v, s⟩, map, ends⟩ := (Option.any_eq_true _ _).mp ends
  obtain ⟨rfl, mapped, last, self, there, other⟩ := of_decide_eq_true ends
  have apart : s.Apart 0x800000 := fun _ names => absurd names other
  exact ⟨s, map, mapped, (unmaps_iff ⟨last, self⟩ (by decide)).mpr ⟨there, apart⟩⟩

/-- Where there is no page table, the store faults. -/
theorem unmap_faults : ¬ ∀ s : Paging, s.Recursive → ∀ v < 0xFFC00000, s.Unmaps v := by
  intro unmaps
  obtain ⟨t, run, -⟩ :=
    unmaps _ (directory_recursive (List.mem_singleton_self 1023)) 0x800000 (by decide)
  have none : ((directory [1023]).mm_unmap 0x800000).isNone := by decide +kernel
  rw [run] at none
  cases none

end Paging

end Krypton
