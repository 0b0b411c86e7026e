import Krypton.Mm.Paging

/-! # Page frames in use

The page allocator and the page tables together: the frames of the directory
and of the tables are used ones, a page is mapped to a frame that the allocator
gave, and the frame of an unmapped page goes back to it.
-/

namespace Krypton

namespace Paging

variable {s t : Paging} {f g i v : Nat}

/-- The page tables that there are. -/
def tables (s : Paging) : Finset Nat := (Finset.range 1024).filter fun i => present (s.pde i)

/-- The allocator counts its free frames, and none of them is page 0 or a table. -/
structure Kept (s : Paging) : Prop where
  tables : s.Tables
  counted : s.pages.Counted
  null : 0 ∉ s.pages.freePages
  fresh : ∀ f ∈ s.pages.freePages, s.Fresh f

/-- A frame of the allocator that is used, but not by a table. -/
structure Owned (s : Paging) (f : Nat) : Prop where
  inside : f < 3840
  nonzero : f ≠ 0
  used : f ∉ s.pages.freePages
  fresh : s.Fresh f

/-- Free frames, and tables: mapping turns one into the other. -/
def frameCount (s : Paging) : Nat := s.pages.freePages.card + s.tables.card

/-- A table of `t` that is not one of `s` is in the frame. -/
def NewTable (s t : Paging) (f : Nat) : Prop :=
  ∃ i < 1024, ¬ present (s.pde i) ∧ present (t.pde i) ∧ frameOf (t.pde i) = f

theorem mem_tables : i ∈ s.tables ↔ i < 1024 ∧ present (s.pde i) := by
  simp [tables]

theorem Kept.owned (h : s.Kept) (free : f ∈ s.pages.freePages) {pages : PageMap}
    (taken : pages.freePages = s.pages.freePages.erase f) : Owned { s with pages } f where
  inside := (PageMap.mem_freePages.mp free).1
  nonzero := by
    rintro rfl
    exact h.null free
  used := by
    rw [taken]
    exact Finset.notMem_erase f _
  fresh := h.fresh f free

theorem Kept.taken (h : s.Kept) {pages : PageMap}
    (taken : pages.freePages = s.pages.freePages.erase f) (counted : pages.Counted) :
    Kept { s with pages } where
  tables := h.tables.same rfl rfl
  counted := counted
  null := by
    rw [taken]
    exact fun mem => h.null (Finset.mem_of_mem_erase mem)
  fresh g mem := by
    rw [taken] at mem
    exact h.fresh g (Finset.mem_of_mem_erase mem)

/-- What becomes of the frames when a table is entered, unless it was there. -/
structure TableKept (s t : Paging) : Prop where
  kept : t.Kept
  owned : ∀ g, s.Owned g → t.Owned g
  entries : ∀ i, present (s.pde i) → t.pde i = s.pde i
  frames : ∀ g, g ∈ s.pages.freePages ↔ g ∈ t.pages.freePages ∨ NewTable s t g
  count : t.frameCount = s.frameCount

theorem TableKept.refl (h : s.Kept) : TableKept s s where
  kept := h
  owned _ := id
  entries _ _ := rfl
  frames g := by
    constructor
    · exact .inl
    · rintro (old | ⟨_, -, absent, there, -⟩)
      · exact old
      · exact absurd there absent
  count := rfl

theorem enter_kept (h : s.Kept) (below : i < 1023) {flags : Nat} (run : s.enter i flags = some t) :
    Entered s t i ∧ TableKept s t := by
  have fresh : ∀ table pages, ¬ present (s.pde i) → s.pages.pa_alloc = some (table, pages) →
      s.Fresh (table / 4096) := by
    intro table pages _ alloc
    obtain ⟨p, free, rfl, -⟩ := PageMap.pa_alloc_taken h.counted alloc
    rw [Nat.mul_div_cancel _ (Nat.succ_pos 4095)]
    exact h.fresh p free
  have entered := enter_spec h.tables below fresh run
  refine ⟨entered, ?_⟩
  cases entered.pages with
  | inl same =>
      obtain ⟨-, rfl⟩ := same
      exact .refl h
  | inr new =>
      obtain ⟨absent, table, alloc, names⟩ := new
      obtain ⟨p, free, rfl, taken, counted⟩ := PageMap.pa_alloc_taken h.counted alloc
      rw [Nat.mul_div_cancel _ (Nat.succ_pos 4095)] at names
      -- the entry for the new table names `p`, the others are as before
      have entry {g : Nat} (apart : g ≠ p) (old : s.Fresh g) : t.Fresh g := by
        intro j hj there
        by_cases here : j = i
        · rw [here, names]
          exact apart.symm
        · rw [entered.others j here] at there ⊢
          exact old j hj there
      refine ⟨⟨entered.tables, counted, ?_, fun g mem => ?_⟩, fun g owned => ?_, fun j there => ?_,
        fun g => ?_, ?_⟩
      · rw [taken]
        exact fun mem => h.null (Finset.mem_of_mem_erase mem)
      · rw [taken] at mem
        exact entry (Finset.ne_of_mem_erase mem) (h.fresh g (Finset.mem_of_mem_erase mem))
      · refine ⟨owned.inside, owned.nonzero, ?_, entry ?_ owned.fresh⟩
        · rw [taken]
          exact fun mem => owned.used (Finset.mem_of_mem_erase mem)
        · rintro rfl
          exact owned.used free
      · refine entered.others j ?_
        rintro rfl
        exact absent there
      · rw [taken, Finset.mem_erase]
        constructor
        · intro old
          by_cases new : g = p
          · exact .inr ⟨i, Nat.lt_succ_of_lt below, absent, entered.there, names.trans new.symm⟩
          · exact .inl ⟨new, old⟩
        · rintro (⟨-, old⟩ | ⟨j, -, absent', there, rfl⟩)
          · exact old
          · by_cases here : j = i
            · rw [here, names]
              exact free
            · rw [entered.others j here] at there
              exact absurd there absent'
      · have more : t.tables = insert i s.tables := by
          ext j
          rw [Finset.mem_insert, mem_tables, mem_tables]
          by_cases here : j = i
          · simp [here, entered.there, Nat.lt_succ_of_lt below]
          · simp [here, entered.others j here]
        have new : i ∉ s.tables := fun mem => absent (mem_tables.mp mem).2
        have pos := Finset.card_pos.mpr ⟨p, free⟩
        unfold frameCount
        rw [more, taken, Finset.card_insert_of_notMem new, Finset.card_erase_of_mem free]
        omega

/-- The frame `f` was given to the page at `v`. -/
structure Given (s t : Paging) (v f : Nat) : Prop where
  free : f ∈ s.pages.freePages
  kept : t.Kept
  owned : t.Owned f
  others : ∀ g, s.Owned g → t.Owned g
  here : t.walk v = some f
  walk : ∀ w, w >>> 22 < 1023 → ¬ Shared v w → t.walk w = s.walk w
  there : present (t.pde (v >>> 22))
  tables : ∀ i ≠ v >>> 22, t.pde i = s.pde i
  entries : ∀ i, present (s.pde i) → t.pde i = s.pde i
  frames : ∀ g, g ∈ s.pages.freePages ↔ g ∈ t.pages.freePages ∨ g = f ∨ NewTable s t g
  count : t.frameCount + 1 = s.frameCount

/-- What `pa_alloc` and `mm_map` of the page that it gave do together. -/
theorem map_new (h : s.Kept) (below : v >>> 22 < 1023) {addr flags r : Nat} {pages : PageMap}
    (alloc : s.pages.pa_alloc = some (addr, pages))
    (run : { s with pages }.mm_map addr v flags = some (r, t)) : ∃ f, Given s t v f := by
  obtain ⟨f, free, rfl, taken, counted⟩ := PageMap.pa_alloc_taken h.counted alloc
  have owned := h.owned free taken
  have kept := h.taken taken counted
  unfold mm_map at run
  simp only [if_neg (Nat.mul_ne_zero owned.nonzero (Nat.succ_ne_zero 4095))] at run
  obtain ⟨s₁, entered, run⟩ := Option.bind_eq_some_iff.mp run
  obtain ⟨t', stores, same⟩ := Option.bind_eq_some_iff.mp run
  cases same
  obtain ⟨enter, kept₁, owned₁, entries₁, frames₁, count₁⟩ := enter_kept kept below entered
  have stored := stored kept₁.tables below stores
  have fresh {g : Nat} (old : s₁.Fresh g) : t.Fresh g := by
    intro j hj
    rw [stored.entries]
    exact old j hj
  have stay {g : Nat} (old : s₁.Owned g) : t.Owned g :=
    ⟨old.inside, old.nonzero, stored.pages.symm ▸ old.used, fresh old.fresh⟩
  refine ⟨f, free, ⟨stored.tables, ?_, ?_, fun g mem => ?_⟩, stay (owned₁ f owned), fun g old => ?_,
    ?_, fun w hw apart => ?_, ?_, fun i other => (stored.entries i).trans (enter.others i other),
    fun i there => (stored.entries i).trans (entries₁ i there), fun g => ?_, ?_⟩
  · rw [stored.pages]
    exact kept₁.counted
  · rw [stored.pages]
    exact kept₁.null
  · rw [stored.pages] at mem
    exact fresh (kept₁.fresh g mem)
  · refine stay (owned₁ g ⟨old.inside, old.nonzero, ?_, old.fresh⟩)
    rw [taken]
    exact fun mem => old.used (Finset.mem_of_mem_erase mem)
  · obtain ⟨there, names⟩ := entry_spec flags (Nat.mul_mod_left f 4096)
    rw [stored.walk, if_pos there, names, Nat.mul_div_cancel _ (Nat.succ_pos 4095)]
  · exact (stored.others w hw apart).trans (enter.walk w hw)
  · rw [stored.entries]
    exact enter.there
  · have new : NewTable s t g ↔ NewTable { s with pages } s₁ g := by
      unfold NewTable
      simp only [stored.entries]
      rfl
    rw [new, stored.pages, or_left_comm, ← frames₁, taken, Finset.mem_erase]
    by_cases here : g = f
    · simp [here, free]
    · simp [here]
  · have same : t.tables = s₁.tables := by
      unfold tables
      simp only [stored.entries]
    have pos := Finset.card_pos.mpr ⟨f, free⟩
    have before : frameCount { s with pages } + 1 = s.frameCount := by
      have tables : tables { s with pages } = s.tables := rfl
      unfold frameCount
      rw [tables, taken, Finset.card_erase_of_mem free]
      omega
    rw [← before, ← count₁]
    unfold frameCount
    rw [same, stored.pages]

theorem enter_runs (flags : Nat) (h : s.Kept) (below : i < 1023)
    (enough : present (s.pde i) ∨ 0 < s.pages.freePages.card) : ∃ t, s.enter i flags = some t := by
  by_cases there : present (s.pde i)
  · exact ⟨s, enter_old h.tables.recursive (Nat.lt_succ_of_lt below) there⟩
  · obtain ⟨p, free, pages, alloc, -⟩ := PageMap.pa_alloc_free h.counted (enough.resolve_left there)
    have fresh := h.fresh p free
    refine ⟨_, enter_new h.tables.recursive below there alloc ?_⟩
    rw [Nat.mul_div_cancel _ (Nat.succ_pos 4095)]
    exact fresh.apart h.tables.recursive

/-- With its table entered, a page is mapped by one store. -/
theorem mm_map_entered {addr flags : Nat} (nonzero : addr ≠ 0)
    (entered : s.enter (v >>> 22) flags = some t) (h : t.Recursive) (below : v >>> 22 < 1024)
    (there : present (t.pde (v >>> 22))) :
    s.mm_map addr v flags = some (v, { t with
      frames := set t.frames (frameOf (t.pde (v >>> 22))) ((v >>> 12) &&& 0x03FF)
        (addr ||| (flags &&& 0xFFF) ||| 0x01) }) := by
  have word := h.write_pt (addr ||| (flags &&& 0xFFF) ||| 0x01) below (index_lt (v >>> 12))
  rw [if_pos there] at word
  unfold mm_map
  simp only [if_neg nonzero, entered, word, Option.bind_eq_bind, Option.bind_some]
  rfl

/-- One free frame is enough for a page, two if there is no table for it yet. -/
theorem map_new_runs (flags : Nat) (h : s.Kept) (below : v >>> 22 < 1023)
    (enough : (if present (s.pde (v >>> 22)) then 1 else 2) ≤ s.pages.freePages.card) :
    ∃ addr pages r t, s.pages.pa_alloc = some (addr, pages) ∧
      mm_map { s with pages } addr v flags = some (r, t) := by
  obtain ⟨f, free, pages, alloc, taken, counted⟩ :=
    PageMap.pa_alloc_free h.counted (by split at enough <;> omega)
  have kept := h.taken taken counted
  have enough' : present (pde { s with pages } (v >>> 22)) ∨ 0 < pages.freePages.card := by
    split at enough
    · rename_i there
      exact .inl there
    · rw [taken, Finset.card_erase_of_mem free]
      exact .inr (by omega)
  obtain ⟨s₁, entered⟩ := enter_runs flags kept below enough'
  obtain ⟨enter, kept₁, -⟩ := enter_kept kept below entered
  exact ⟨_, pages, v, _, alloc, mm_map_entered
    (Nat.mul_ne_zero (h.owned free taken).nonzero (Nat.succ_ne_zero 4095)) entered
    kept₁.tables.recursive (Nat.lt_succ_of_lt below) enter.there⟩

/-- What `get_physaddr` finds. -/
theorem get_physaddr_eq (h : s.Recursive) (below : v >>> 22 < 1023) :
    s.get_physaddr v = some (match s.walk v with
      | some f => f <<< 12 + (v &&& 0xFFF)
      | none => 0) := by
  have entry := h.read_pd (Nat.lt_succ_of_lt below)
  unfold get_physaddr walk
  simp only [entry, Option.bind_eq_bind, Option.bind_some]
  unfold pde
  cases there : present (s.frames s.cr3 (v >>> 22)) with
  | false => simp
  | true =>
      have word := h.read_pt (Nat.lt_succ_of_lt below) (index_lt (v >>> 12)) there
      unfold pde at word
      simp only [word, not_true, if_false, Option.bind_some, if_true]
      cases present (s.frames (frameOf (s.frames s.cr3 (v >>> 22))) ((v >>> 12) &&& 0x03FF)) <;> rfl

/-- The page at `v` gave its frame `f` back. -/
structure Returned (s t : Paging) (v f : Nat) : Prop where
  kept : t.Kept
  free : t.pages.freePages = insert f s.pages.freePages
  others : ∀ g ≠ f, s.Owned g → t.Owned g
  here : t.walk v = none
  walk : ∀ w, w >>> 22 < 1023 → ¬ Shared v w → t.walk w = s.walk w
  entries : ∀ i, t.pde i = s.pde i
  count : t.frameCount = s.frameCount + 1

/-- What `get_physaddr`, `mm_unmap` and `pa_free` of the page found do together. -/
theorem unmap_free (h : s.Kept) (below : v >>> 22 < 1023) (aligned : v % 4096 = 0)
    (mapped : s.walk v = some f) (owned : s.Owned f) :
    ∃ u pages, s.get_physaddr v = some (f * 4096) ∧ s.mm_unmap v = some u ∧
      u.pages.pa_free (f * 4096) = some pages ∧ Returned s { u with pages } v f := by
  have addr : s.get_physaddr v = some (f * 4096) := by
    have offset : v &&& 0xFFF = 0 := (Nat.and_two_pow_sub_one_eq_mod v 12).trans aligned
    rw [get_physaddr_eq h.tables.recursive below, mapped, offset]
    exact congrArg some (Nat.shiftLeft_eq f 12)
  have there : present (s.pde (v >>> 22)) := by
    by_contra absent
    rw [walk_absent absent] at mapped
    cases mapped
  obtain ⟨u, unmapped⟩ : ∃ u, s.mm_unmap v = some u := by
    refine ⟨_, (h.tables.recursive.write_pt 0 (Nat.lt_succ_of_lt below) (index_lt _)).trans
        (if_pos there)⟩
  have stored := mm_unmap_spec h.tables below unmapped
  obtain ⟨pages, freed, free, counted⟩ :=
    PageMap.pa_free_given h.counted owned.inside owned.used
  have fresh {g : Nat} (old : s.Fresh g) : Fresh { u with pages } g := by
    intro j hj
    have entry : pde { u with pages } j = s.pde j := stored.entries j
    rw [entry]
    exact old j hj
  refine ⟨u, pages, addr, unmapped, stored.pages ▸ freed,
    ⟨stored.tables.same rfl rfl, counted, ?_, ?_⟩,
    free, fun g apart old => ?_, stored.walk, stored.others, stored.entries, ?_⟩
  · rw [free, Finset.mem_insert, not_or]
    exact ⟨owned.nonzero.symm, h.null⟩
  · intro g mem
    rw [free] at mem
    cases Finset.mem_insert.mp mem with
    | inl same => exact fresh (same ▸ owned.fresh)
    | inr old => exact fresh (h.fresh g old)
  · refine ⟨old.inside, old.nonzero, ?_, fresh old.fresh⟩
    rw [free, Finset.mem_insert, not_or]
    exact ⟨apart, old.used⟩
  · have same : tables { u with pages } = s.tables := by
      have entries (i : Nat) : pde { u with pages } i = s.pde i := stored.entries i
      unfold tables
      simp only [entries]
    unfold frameCount
    rw [same, free, Finset.card_insert_of_notMem owned.used]
    omega

end Paging

end Krypton
