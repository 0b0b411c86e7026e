import Krypton.Mm.Permissions

/-! # Cloning the directory

`clone_actual_directory` maps the new directory at a window of its own, and then
every new table at the same window. What it stores to the directory after that
goes to the table that is mapped there, so the new directory keeps the entries
of the old one.
-/

namespace Krypton

namespace Paging

def PM_DIR_CLONE_ADDR : Nat := 0xFE000000
def PAGE_MASK : Nat := 0xFFFFF000

/-- `memcpy(dest, src, 4096)`, which copies a word in four stores. -/
def memcpy (s : Paging) (dest src : Nat) : Option Paging :=
  (List.range 1024).foldlM (fun s k => do s.write (dest + 4 * k) (← s.read (src + 4 * k))) s

/-- The body of the loop over the page tables; `pt` is the address of one. -/
def cloneTable (dest_pd : Nat) (s : Paging) (i : Nat) : Option Paging := do
  let pt := pt i 0
  if pt ≠ 0 then
    let (dest_pt_physical, pages) ← s.pages.pa_alloc
    let (_, s) ← mm_map { s with pages } dest_pt_physical PM_DIR_CLONE_ADDR PAGE_WRITE
    let s ← s.memcpy PM_DIR_CLONE_ADDR (pt &&& PAGE_MASK)
    s.write (dest_pd + 4 * i) ((pt &&& 0x7) ||| dest_pt_physical)
  else return s

def clone_actual_directory (s : Paging) : Option (Nat × Paging) := do
  let source_pd := pd 0
  let (dest_pd_physical, pages) ← s.pages.pa_alloc
  let (dest_pd, s) ← mm_map { s with pages } dest_pd_physical PM_DIR_CLONE_ADDR PAGE_WRITE
  let s ← s.memcpy PM_DIR_CLONE_ADDR source_pd
  let s ← (List.range 1024).foldlM (cloneTable dest_pd) s
  return (dest_pd_physical, s)

/-- The same memory under the directory at a physical address. -/
def under (s : Paging) (dir : Nat) : Paging := { s with cr3 := dir / 4096 }

/-- The copy translates the addresses below the window as the source does, with the same
    permissions, through tables in frames of their own. -/
structure ClonedTo (s t : Paging) (dir : Nat) : Prop where
  walk : ∀ v < PM_DIR_CLONE_ADDR, (t.under dir).walk v = s.walk v
  perms : ∀ v < PM_DIR_CLONE_ADDR, (s.walk v).isSome → (t.under dir).effective v = s.effective v
  tables : ∀ i < PM_DIR_CLONE_ADDR >>> 22, present ((t.under dir).pde i) →
    ∀ j < 1024, present (s.pde j) → frameOf ((t.under dir).pde i) ≠ frameOf (s.pde j)

def Clones (s : Paging) : Prop :=
  ∃ dir t, s.clone_actual_directory = some (dir, t) ∧ ClonedTo s t dir

/-- The allocator counts its free frames, and none of them is page 0 or entered. -/
structure Spare (s : Paging) : Prop where
  counted : s.pages.Counted
  null : 0 ∉ s.pages.freePages
  fresh : ∀ f ∈ s.pages.freePages, s.Fresh f

variable {s s₁ t : Paging} {f g i n : Nat}

/-! ## The window -/

/-- Nothing but the frame `f` was written. -/
structure Written (s t : Paging) (f : Nat) : Prop where
  cr3 : t.cr3 = s.cr3
  pages : t.pages = s.pages
  frames : ∀ g ≠ f, t.frames g = s.frames g

theorem Written.refl (s : Paging) (f : Nat) : Written s s f := ⟨rfl, rfl, fun _ _ => rfl⟩

theorem Written.trans {u : Paging} (h : Written s t f) (h' : Written t u f) : Written s u f :=
  ⟨h'.cr3.trans h.cr3, h'.pages.trans h.pages,
      fun g other => (h'.frames g other).trans (h.frames g other)⟩

theorem Written.pde (h : Written s t f) (dir : f ≠ s.cr3) (i : Nat) : t.pde i = s.pde i := by
  unfold Paging.pde
  rw [h.cr3, h.frames _ dir.symm]

theorem Written.recursive (h : Written s t f) (dir : f ≠ s.cr3) (self : s.Recursive) :
    t.Recursive := by
  unfold Recursive
  rw [h.pde dir, h.cr3]
  exact self

theorem Written.spare (h : Written s t f) (dir : f ≠ s.cr3) (spare : s.Spare) : t.Spare := by
  obtain ⟨counted, null, fresh⟩ := spare
  refine ⟨h.pages ▸ counted, h.pages ▸ null, fun g free i below => ?_⟩
  rw [h.pages] at free
  rw [h.pde dir]
  exact fresh g free i below

/-- The frame `f` is mapped at the window, by a table in another one. -/
structure Window (s : Paging) (f : Nat) : Prop where
  there : present (s.pde 1016)
  shown : present (s.frames (frameOf (s.pde 1016)) 0) ∧
      frameOf (s.frames (frameOf (s.pde 1016)) 0) = f
  dir : f ≠ s.cr3
  table : f ≠ frameOf (s.pde 1016)

theorem Window.kept (h : Window s f) (written : Written s t f) : Window t f := by
  have same := written.pde h.dir 1016
  refine ⟨same ▸ h.there, ?_, written.cr3 ▸ h.dir, same ▸ h.table⟩
  rw [same, written.frames _ h.table.symm]
  exact h.shown

theorem window_index (below : n < 1024) : (PM_DIR_CLONE_ADDR + 4 * n) >>> 22 = 1016 ∧
    ((PM_DIR_CLONE_ADDR + 4 * n) >>> 12) &&& 0x03FF = 0 ∧
        ((PM_DIR_CLONE_ADDR + 4 * n) >>> 2) &&& 0x03FF = n := by
  have mask (n : Nat) : n &&& 0x03FF = n % 1024 := Nat.and_two_pow_sub_one_eq_mod n 10
  simp only [mask, Nat.shiftRight_eq_div_pow, PM_DIR_CLONE_ADDR]
  omega

theorem Window.write (h : Window s f) (word : Nat) (below : n < 1024) :
    s.write (PM_DIR_CLONE_ADDR + 4 * n) word = some { s with frames := set s.frames f n word } := by
  obtain ⟨dir, table, index⟩ := window_index below
  have there := h.there
  have shown := h.shown
  unfold Paging.pde at there shown
  simp only [Paging.write, walk, dir, table, index, there, shown, if_true, Option.bind_eq_bind,
      Option.bind_some]
  rfl

theorem written_set (s : Paging) (f n word : Nat) :
    Written s { s with frames := set s.frames f n word } f :=
  ⟨rfl, rfl, fun _ other => set_frame other⟩

theorem Window.written {word : Nat} (h : Window s f) (below : n < 1024)
    (run : s.write (PM_DIR_CLONE_ADDR + 4 * n) word = some t) :
    Written s t f ∧ t.frames f n = word ∧
      ∀ k ≠ n, t.frames f k = s.frames f k := by
  rw [h.write word below] at run
  cases run
  exact ⟨written_set s f n word, set_self .., fun k other => set_word other⟩

/-- Each word was read in a state in which no other frame is different. -/
theorem Window.copied {src : Nat} (h : Window s f) (most : n ≤ 1024)
    (run : (List.range n).foldlM
        (fun s k => do s.write (PM_DIR_CLONE_ADDR + 4 * k) (← s.read (src + 4 * k))) s =
      some t) :
    Written s t f ∧ ∀ k < n, ∃ s', Written s s' f ∧
        s'.read (src + 4 * k) = some (t.frames f k) := by
  induction n generalizing t with
  | zero =>
      cases run
      exact ⟨.refl s f, nofun⟩
  | succ n ih =>
      rw [List.range_succ, List.foldlM_append] at run
      obtain ⟨u, before, last⟩ := Option.bind_eq_some_iff.mp run
      obtain ⟨u', step, same⟩ := Option.bind_eq_some_iff.mp last
      cases same
      obtain ⟨word, read, write⟩ := Option.bind_eq_some_iff.mp step
      obtain ⟨old, words⟩ := ih (Nat.le_of_succ_le most) before
      obtain ⟨new, stored, kept⟩ := (h.kept old).written most write
      refine ⟨old.trans new, fun k below => ?_⟩
      by_cases here : k = n
      · subst here
        exact ⟨u, old, by rw [read, stored]⟩
      · obtain ⟨s', until_, same⟩ := words k (by omega)
        exact ⟨s', until_, by rw [same, kept k here]⟩

/-! ## Mapping at the window -/

/-- The table for the window is there, entered by `mm_map` if need be. -/
structure Readied (s s₁ : Paging) : Prop where
  cr3 : s₁.cr3 = s.cr3
  recursive : s₁.Recursive
  spare : s₁.Spare
  there : present (s₁.pde 1016)
  old : present (s.pde 1016) → s₁ = s
  free : ∀ g ∈ s₁.pages.freePages, g ∈ s.pages.freePages
  entries : ∀ j ≠ 1016, s₁.pde j = s.pde j
  frames : ∀ g ∉ s.pages.freePages, g ≠ s.cr3 → s₁.frames g = s.frames g
  table : ∀ g, g ∉ s.pages.freePages → s.Fresh g → frameOf (s₁.pde 1016) ≠ g

theorem Spare.dir (h : s.Spare) (self : s.Recursive) : s.cr3 ∉ s.pages.freePages := by
  intro free
  exact h.fresh s.cr3 free 1023 (by decide) self.1 self.2

theorem enter_readied (self : s.Recursive) (spare : s.Spare) {flags : Nat}
    (run : s.enter 1016 flags = some s₁) : Readied s s₁ := by
  by_cases there : present (s.pde 1016)
  · rw [enter_old self (by decide) there] at run
    cases run
    exact ⟨rfl, self, spare, there, fun _ => rfl, fun _ => id, fun _ _ => rfl, fun _ _ _ => rfl,
      fun g _ fresh => fresh 1016 (by decide) there⟩
  · cases alloc : s.pages.pa_alloc with
    | none =>
        unfold enter at run
        rw [self.read_pd (by decide), Option.bind_eq_bind, Option.bind_some, if_neg there, alloc]
            at run
        cases run
    | some given =>
        obtain ⟨addr, pages⟩ := given
        obtain ⟨p, free, rfl, taken, counted⟩ := PageMap.pa_alloc_taken spare.counted alloc
        have frame : p * 4096 / 4096 = p := Nat.mul_div_cancel p (Nat.succ_pos 4095)
        have dir : s.cr3 ≠ p := by
          rintro same
          exact spare.dir self (same ▸ free)
        have other : s.cr3 ≠ p * 4096 / 4096 := frame.symm ▸ dir
        rw [enter_new self (by decide) there alloc other] at run
        cases run
        obtain ⟨there', names⟩ := entry_spec flags (Nat.mul_mod_left p 4096)
        rw [frame] at names
        have new : (s.withTable 1016 (p * 4096) flags pages).pde 1016 = _ := withTable_pde other
        have entries : ∀ j ≠ 1016, (s.withTable 1016 (p * 4096) flags pages).pde j = s.pde j :=
          fun j apart => withTable_others other apart
        refine ⟨rfl, ?_, ⟨counted, ?_, fun g mem j below => ?_⟩, new ▸ there',
          fun old => absurd old there,
          fun g mem => ?_, entries, fun g used dir' => ?_, fun g used _ => ?_⟩
        · unfold Recursive
          rw [entries 1023 (by decide)]
          exact self
        · rw [show (s.withTable 1016 (p * 4096) flags pages).pages = pages from rfl, taken]
          exact fun mem => spare.null (Finset.mem_of_mem_erase mem)
        · rw [show (s.withTable 1016 (p * 4096) flags pages).pages = pages from rfl, taken] at mem
          by_cases here : j = 1016
          · rw [here, new, names]
            exact fun _ => (Finset.ne_of_mem_erase mem).symm
          · rw [entries j here]
            exact spare.fresh g (Finset.mem_of_mem_erase mem) j below
        · rw [show (s.withTable 1016 (p * 4096) flags pages).pages = pages from rfl, taken] at mem
          exact Finset.mem_of_mem_erase mem
        · refine withTable_frame dir' ?_
          rintro rfl
          exact used (frame.symm ▸ free)
        · rw [new, names]
          rintro rfl
          exact used free

/-- After `mm_map` the window shows a frame that was free. -/
structure Shows (s t : Paging) (f : Nat) : Prop where
  cr3 : t.cr3 = s.cr3
  recursive : t.Recursive
  spare : t.Spare
  window : Window t f
  free : ∀ g ∈ t.pages.freePages, g ∈ s.pages.freePages ∧ g ≠ f
  first : t.pde 1 = s.pde 1
  old : present (s.pde 1016) → t.pde 1016 = s.pde 1016
  words : ∀ g ∉ s.pages.freePages, g ≠ s.cr3 → g ≠ frameOf (t.pde 1016) →
      t.frames g 1 = s.frames g 1

theorem withWord_entry (s : Paging) (word : Nat) (i : Nat) :
    (s.withWord PM_DIR_CLONE_ADDR word).pde i = s.pde i ∨
      i = 0 ∧ (s.withWord PM_DIR_CLONE_ADDR word).pde i = word := by
  by_cases here : i = 0 ∧ s.cr3 = frameOf (s.pde 1016)
  · obtain ⟨rfl, dir⟩ := here
    refine .inr ⟨rfl, ?_⟩
    change set s.frames (frameOf (s.pde 1016)) 0 word s.cr3 0 = word
    rw [dir]
    exact set_self ..
  · refine .inl (set_other ?_)
    rintro ⟨dir, index⟩
    exact here ⟨index, dir⟩

theorem Readied.shows (h : Readied s s₁) (used : f ∉ s.pages.freePages) (fresh : s.Fresh f)
    (dir : f ≠ s.cr3)
    {word : Nat} (there : present word) (names : frameOf word = f) :
    Shows s (s₁.withWord PM_DIR_CLONE_ADDR word) f := by
  have apart : s₁.Apart PM_DIR_CLONE_ADDR := fun _ _ => by decide
  have kept : (s₁.withWord PM_DIR_CLONE_ADDR word).pde 1016 = s₁.pde 1016 :=
    withWord_pde apart h.there (.inl rfl)
  have table := h.table f used fresh
  have spare : (s₁.withWord PM_DIR_CLONE_ADDR word).Spare := by
    refine ⟨h.spare.counted, h.spare.null, fun g free i below => ?_⟩
    cases withWord_entry s₁ word i with
    | inl same =>
        rw [same]
        exact h.spare.fresh g free i below
    | inr new =>
        rw [new.2, names]
        rintro - rfl
        exact used (h.free f free)
  refine ⟨h.cr3, withWord_recursive word h.recursive apart h.there, spare,
    ⟨kept ▸ h.there, ?_, ?_, ?_⟩,
    fun g free => ⟨h.free g free, ?_⟩, ?_, fun old => ?_, fun g kept' other apart' => ?_⟩
  · have written : (s₁.withWord PM_DIR_CLONE_ADDR word).frames (frameOf (s₁.pde 1016)) 0 = word :=
      set_self ..
    rw [kept, written]
    exact ⟨there, names⟩
  · exact h.cr3 ▸ dir
  · rw [kept]
    exact table.symm
  · rintro rfl
    exact used (h.free g free)
  · cases withWord_entry s₁ word 1 with
    | inl same => exact same.trans (h.entries 1 (by decide))
    | inr new => cases new.1
  · rw [kept, h.old old]
  · rw [kept] at apart'
    have same : (s₁.withWord PM_DIR_CLONE_ADDR word).frames g = s₁.frames g := set_frame apart'
    rw [same, h.frames g kept' other]

/-- `pa_alloc` and `mm_map`, as both the new directory and the new tables get them. -/
theorem map_shows (self : s.Recursive) (spare : s.Spare) {addr r : Nat} {pages : PageMap}
    (alloc : s.pages.pa_alloc = some (addr, pages))
    (run : mm_map { s with pages } addr PM_DIR_CLONE_ADDR PAGE_WRITE = some (r, t)) :
    ∃ f ∈ s.pages.freePages, addr = f * 4096 ∧ r = PM_DIR_CLONE_ADDR ∧ Shows { s with pages } t f ∧
      f ∉ pages.freePages ∧ ∀ g ∈ pages.freePages, g ∈ s.pages.freePages := by
  obtain ⟨f, free, rfl, taken, counted⟩ := PageMap.pa_alloc_taken spare.counted alloc
  have fewer : ∀ g ∈ pages.freePages, g ∈ s.pages.freePages := by
    intro g mem
    rw [taken] at mem
    exact Finset.mem_of_mem_erase mem
  have used : f ∉ pages.freePages := by
    rw [taken]
    exact Finset.notMem_erase f _
  have spare' : Spare { s with pages } :=
    ⟨counted, fun mem => spare.null (fewer 0 mem), fun g mem => spare.fresh g (fewer g mem)⟩
  have nonzero : f * 4096 ≠ 0 := by
    rintro zero
    obtain rfl : f = 0 := by omega
    exact spare.null free
  have dir : f ≠ s.cr3 := by
    rintro rfl
    exact spare.dir self free
  obtain ⟨there, names⟩ := entry_spec PAGE_WRITE (Nat.mul_mod_left f 4096)
  rw [Nat.mul_div_cancel f (Nat.succ_pos 4095)] at names
  simp only [mm_map, if_neg nonzero] at run
  obtain ⟨s₁, entered, run⟩ := Option.bind_eq_some_iff.mp run
  obtain ⟨t', write, same⟩ := Option.bind_eq_some_iff.mp run
  cases same
  have readied := enter_readied (s := { s with pages }) self spare' entered
  cases (write_entry _ readied.recursive (by decide) readied.there).symm.trans write
  exact ⟨f, free, rfl, rfl, readied.shows used (spare.fresh f free) dir there names, used, fewer⟩

/-! ## The copy -/

/-- Both directories have the same first entry, the new one in the frame `f`. -/
structure Sharing (s : Paging) (f entry : Nat) : Prop where
  recursive : s.Recursive
  spare : s.Spare
  used : f ∉ s.pages.freePages
  dir : f ≠ s.cr3
  window : present (s.pde 1016) ∧ f ≠ frameOf (s.pde 1016)
  source : s.pde 1 = entry
  copy : s.frames f 1 = entry

theorem Sharing.written (h : Sharing s f i) (window : Window s g) (other : g ≠ f)
    (written : Written s t g) :
    Sharing t f i where
  recursive := written.recursive window.dir h.recursive
  spare := written.spare window.dir h.spare
  used := written.pages ▸ h.used
  dir := written.cr3 ▸ h.dir
  window := by
    rw [written.pde window.dir]
    exact h.window
  source := (written.pde window.dir 1).trans h.source
  copy := (congrFun (written.frames f other.symm) 1).trans h.copy

/-- A new table leaves both directories as they are. -/
theorem cloneTable_sharing {entry : Nat} (h : Sharing s f entry) (below : i < 1024)
    (run : cloneTable PM_DIR_CLONE_ADDR s i = some t) :
    Sharing t f entry ∧ (i = 1 → present entry) := by
  have nonzero : pt i 0 ≠ 0 := by simp [pt]
  simp only [cloneTable, if_pos nonzero] at run
  obtain ⟨⟨addr, pages⟩, alloc, run⟩ := Option.bind_eq_some_iff.mp run
  obtain ⟨⟨r, s₁⟩, map, run⟩ := Option.bind_eq_some_iff.mp run
  obtain ⟨s₂, copy, store⟩ := Option.bind_eq_some_iff.mp run
  obtain ⟨g, free, rfl, -, shows, used, fewer⟩ := map_shows h.recursive h.spare alloc map
  have other : g ≠ f := by
    rintro rfl
    exact h.used free
  have kept : f ∉ pages.freePages := fun mem => h.used (fewer f mem)
  have table : s₁.pde 1016 = s.pde 1016 := shows.old h.window.1
  have sharing : Sharing s₁ f entry := by
    refine ⟨shows.recursive, shows.spare, fun mem => kept (shows.free f mem).1, ?_,
      table ▸ h.window, shows.first.trans h.source, ?_⟩
    · rw [shows.cr3]
      exact h.dir
    · exact (shows.words f kept h.dir (table ▸ h.window.2)).trans h.copy
  unfold memcpy at copy
  obtain ⟨copied, words⟩ := shows.window.copied (Nat.le_refl _) copy
  obtain ⟨stored, -⟩ := (shows.window.kept copied).written below store
  refine ⟨sharing.written shows.window other (copied.trans stored), ?_⟩
  rintro rfl
  -- the first word of the table was read, so the table is there
  obtain ⟨s', until_, read⟩ := words 0 (by decide)
  by_contra absent
  have self := until_.recursive shows.window.dir shows.recursive
  have same : s'.pde 1 = entry := (until_.pde shows.window.dir 1).trans sharing.source
  have addr : (pt 1 0 &&& PAGE_MASK) + 4 * 0 = pt 1 0 := by decide
  rw [addr, Paging.read, self.walk_pt (by decide) (by decide), same, if_neg absent] at read
  cases read

theorem clone_loop {entry : Nat} (is : List Nat) (below : ∀ i ∈ is, i < 1024)
    (h : Sharing s f entry)
    (run : is.foldlM (cloneTable PM_DIR_CLONE_ADDR) s = some t) :
    Sharing t f entry ∧ (1 ∈ is → present entry) := by
  induction is generalizing s with
  | nil =>
      cases run
      exact ⟨h, nofun⟩
  | cons i is ih =>
      obtain ⟨s₁, first, rest⟩ := Option.bind_eq_some_iff.mp run
      obtain ⟨sharing, there⟩ := cloneTable_sharing h (below i List.mem_cons_self) first
      obtain ⟨ends, there'⟩ := ih (fun j mem => below j (List.mem_cons_of_mem i mem)) sharing rest
      refine ⟨ends, fun mem => ?_⟩
      cases mem with
      | head => exact there rfl
      | tail _ mem => exact there' mem

/-- When the copy is done, the first table is one that both directories name. -/
theorem clone_shares {dir : Nat} (self : s.Recursive) (spare : s.Spare)
    (run : s.clone_actual_directory = some (dir, t)) :
    present (s.pde 1) ∧ (t.under dir).pde 1 = s.pde 1 := by
  obtain ⟨⟨addr, pages⟩, alloc, run⟩ := Option.bind_eq_some_iff.mp run
  obtain ⟨⟨r, s₁⟩, map, run⟩ := Option.bind_eq_some_iff.mp run
  obtain ⟨s₂, copy, run⟩ := Option.bind_eq_some_iff.mp run
  obtain ⟨s₃, loop, same⟩ := Option.bind_eq_some_iff.mp run
  cases same
  obtain ⟨f, free, rfl, rfl, shows, used, fewer⟩ := map_shows self spare alloc map
  unfold memcpy at copy
  obtain ⟨copied, words⟩ := shows.window.copied (Nat.le_refl _) copy
  have kept : f ∉ s₁.pages.freePages := fun mem => (shows.free f mem).2 rfl
  obtain ⟨s', until_, read⟩ := words 1 (by decide)
  have word : s₂.frames f 1 = s.pde 1 := by
    have entry := (until_.recursive shows.window.dir shows.recursive).read_pd (i := 1) (by decide)
    rw [until_.pde shows.window.dir, shows.first] at entry
    exact Option.some_inj.mp (read.symm.trans entry)
  have table := copied.pde shows.window.dir 1016
  have sharing : Sharing s₂ f (s.pde 1) := by
    refine ⟨copied.recursive shows.window.dir shows.recursive,
      copied.spare shows.window.dir shows.spare,
      copied.pages ▸ kept, copied.cr3 ▸ shows.window.dir, ?_, ?_, word⟩
    · rw [table]
      exact ⟨shows.window.there, shows.window.table⟩
    · exact (copied.pde shows.window.dir 1).trans shows.first
  obtain ⟨ends, there⟩ := clone_loop _ (fun i mem => List.mem_range.mp mem) sharing loop
  refine ⟨there (List.mem_range.mpr (by decide)), ?_⟩
  have frame : f * 4096 / 4096 = f := Nat.mul_div_cancel f (Nat.succ_pos 4095)
  change t.frames (f * 4096 / 4096) 1 = s.pde 1
  rw [frame]
  exact ends.copy

/-- Every table is read, present or not, and no new one is entered in the new directory. -/
theorem clone_never (self : s.Recursive) (spare : s.Spare) : ¬ s.Clones := by
  rintro ⟨dir, t, run, cloned⟩
  obtain ⟨there, same⟩ := clone_shares self spare run
  exact cloned.tables 1 (by decide) (same ▸ there) 1 (by decide) there (congrArg frameOf same)

/-- The directory in frame 2 names itself only, and 29 frames are free. -/
def roomy : Paging :=
  { directory [1023] with pages := ⟨fun i => if i = 0 then 0xFFFFFFF8#32 else 0#32, 29⟩ }

theorem roomy_recursive : roomy.Recursive := directory_recursive (List.mem_singleton_self 1023)

theorem roomy_spare : roomy.Spare where
  counted := by
    unfold PageMap.Counted
    decide +kernel
  null := by decide +kernel
  fresh f free := by
    have high : f ≠ 2 := by
      rintro rfl
      exact absurd free (by decide +kernel)
    exact directory_fresh [1023] high

theorem clone_never_roomy : ¬ roomy.Clones := clone_never roomy_recursive roomy_spare

/-- The table of entry 0 is read without a look at the entry. -/
theorem clone_faults : ¬ ∀ s : Paging, s.Recursive → s.Spare →
    s.tables.card + 2 ≤ s.pages.freePages.card →
    s.Clones := by
  intro clones
  have enough : roomy.tables.card + 2 ≤ roomy.pages.freePages.card := by decide +kernel
  obtain ⟨dir, t, run, -⟩ := clones roomy roomy_recursive roomy_spare enough
  have there := (clone_shares roomy_recursive roomy_spare run).1
  exact absurd there (by decide +kernel)

end Paging

end Krypton
