import Krypton.Mm.PageAllocator

/-! # Paging

The page directory and the page tables of `mm.c`, as words of physical page
frames, and the processor's walk through them. The last directory entry names
the directory itself, so that `pd` and `pt` are virtual addresses at which the
walk finds the directory and the tables; a page fault is `none`. Every walk
reads the tables anew: there is no TLB.
-/

namespace Krypton

def PAGE_WRITE : Nat := 0x2
def PAGE_USER : Nat := 0x4

structure Paging where
  /-- the words of each page frame -/
  frames : Nat → Nat → Nat
  /-- the frame of the page directory -/
  cr3 : Nat
  pages : PageMap

namespace Paging

/-- A store to physical memory. -/
def set (frames : Nat → Nat → Nat) (frame i word : Nat) : Nat → Nat → Nat :=
  Function.update frames frame (Function.update (frames frame) i word)

/-- The present bit of an entry. -/
def present (entry : Nat) : Bool := entry &&& 0x01 ≠ 0

/-- The page frame of an entry. -/
def frameOf (entry : Nat) : Nat := entry >>> 12

/-- The page frame that a virtual address is translated to. -/
def walk (s : Paging) (va : Nat) : Option Nat :=
  let pde := s.frames s.cr3 (va >>> 22)
  if present pde then
    let pte := s.frames (frameOf pde) ((va >>> 12) &&& 0x03FF)
    if present pte then some (frameOf pte) else none
  else none

def read (s : Paging) (va : Nat) : Option Nat := do
  return s.frames (← s.walk va) ((va >>> 2) &&& 0x03FF)

def write (s : Paging) (va word : Nat) : Option Paging := do
  return { s with frames := set s.frames (← s.walk va) ((va >>> 2) &&& 0x03FF) word }

/-- `pd[pdindex]` -/
def pd (pdindex : Nat) : Nat := 0xFFFFF000 + 4 * pdindex

/-- `pt[ptindex]`, of the table of a directory entry -/
def pt (pdindex ptindex : Nat) : Nat := 0xFFC00000 + 4 * (0x400 * pdindex) + 4 * ptindex

/-- `memset(pt, 0, 4096)` -/
def zero (s : Paging) (pdindex : Nat) : Option Paging :=
  (List.range 1024).foldlM (fun s k => s.write (pt pdindex k) 0) s

/-- If the page table isn't present, add one. -/
def enter (s : Paging) (pdindex flags : Nat) : Option Paging := do
  if present (← s.read (pd pdindex)) then return s
  let (table, pages) ← s.pages.pa_alloc
  let s ← { s with pages }.write (pd pdindex) (table ||| (flags &&& 0xFFF) ||| 0x01)
  s.zero pdindex

def mm_map (s : Paging) (physaddr virtualaddr flags : Nat) : Option (Nat × Paging) := do
  let pdindex := virtualaddr >>> 22
  let ptindex := (virtualaddr >>> 12) &&& 0x03FF
  if physaddr = 0 then return (0, s)
  let s ← s.enter pdindex flags
  return (virtualaddr, ← s.write (pt pdindex ptindex) (physaddr ||| (flags &&& 0xFFF) ||| 0x01))

def mm_unmap (s : Paging) (virtualaddr : Nat) : Option Paging :=
  let pdindex := virtualaddr >>> 22
  let ptindex := (virtualaddr >>> 12) &&& 0x03FF
  s.write (pt pdindex ptindex) 0

def get_physaddr (s : Paging) (virtualaddr : Nat) : Option Nat := do
  let pdindex := virtualaddr >>> 22
  let ptindex := (virtualaddr >>> 12) &&& 0x03FF
  if ¬ present (← s.read (pd pdindex)) then return 0
  let entry ← s.read (pt pdindex ptindex)
  if ¬ present entry then return 0
  return frameOf entry <<< 12 + (virtualaddr &&& 0xFFF)

/-- `kernelpagedir` and `lowpagetable` are page frames by themselves. The low table is
    entered at 0 and at 3 GiB. -/
def init_paging (frames : Nat → Nat → Nat) (pages : PageMap) (kernelpagedir lowpagetable : Nat) :
    Paging :=
  let frames := (List.range 1024).foldl (fun frames k =>
    set (set frames lowpagetable k ((k * 4096) ||| 0x7)) kernelpagedir k 0) frames
  let frames := set frames kernelpagedir 0 (lowpagetable <<< 12 ||| 0x7)
  let frames := set frames kernelpagedir 768 (lowpagetable <<< 12 ||| 0x7)
  let frames := set frames kernelpagedir 1023 (kernelpagedir <<< 12 ||| 0x7)
  { frames, cr3 := kernelpagedir, pages }

/-! ## Words -/

section Words

variable {frames : Nat → Nat → Nat} {f g i j word : Nat}

theorem set_self (frames : Nat → Nat → Nat) (f i word : Nat) : set frames f i word f i = word := by
  simp [set]

theorem set_frame (h : g ≠ f) : set frames f i word g = frames g := by
  simp [set, h]

theorem set_word (h : j ≠ i) : set frames f i word f j = frames f j := by
  simp [set, h]

theorem set_other (h : ¬ (g = f ∧ j = i)) : set frames f i word g j = frames g j := by
  by_cases same : g = f
  · subst same
    exact set_word fun there => h ⟨rfl, there⟩
  · rw [set_frame same]

theorem index_lt (n : Nat) : n &&& 0x03FF < 1024 :=
  lt_of_eq_of_lt (Nat.and_two_pow_sub_one_eq_mod n 10) (Nat.mod_lt _ (by decide))

/-- An entry that the code makes up is present and names the frame. -/
theorem entry_spec {addr : Nat} (flags : Nat) (aligned : addr % 4096 = 0) :
    present (addr ||| (flags &&& 0xFFF) ||| 0x01) ∧
      frameOf (addr ||| (flags &&& 0xFFF) ||| 0x01) = addr / 4096 := by
  have low : (flags &&& 0xFFF) < 2 ^ 12 :=
    lt_of_eq_of_lt (Nat.and_two_pow_sub_one_eq_mod flags 12) (Nat.mod_lt _ (by decide))
  have bits : (flags &&& 0xFFF) ||| 0x01 < 2 ^ 12 := Nat.or_lt_two_pow low (by decide)
  have odd : ((flags &&& 0xFFF) ||| 0x01) % 2 = 1 := Nat.or_mod_two_eq_one.mpr (.inr rfl)
  have sum : addr ||| (flags &&& 0xFFF) ||| 0x01 =
      2 ^ 12 * (addr / 4096) + ((flags &&& 0xFFF) ||| 0x01) := by
    rw [Nat.two_pow_add_eq_or_of_lt bits, ← Nat.or_assoc]
    congr 2
    omega
  rw [present, frameOf, Nat.and_one_is_mod, Nat.shiftRight_eq_div_pow, sum]
  constructor
  · simp only [ne_eq, decide_not, Bool.not_eq_true', decide_eq_false_iff_not]
    omega
  · omega

/-- Where the walk ends for the address of an entry. -/
theorem pt_index (hi : i < 1024) (hj : j < 1024) :
    pt i j >>> 22 = 1023 ∧ (pt i j >>> 12) &&& 0x03FF = i ∧ (pt i j >>> 2) &&& 0x03FF = j := by
  have mask (n : Nat) : n &&& 0x03FF = n % 1024 := Nat.and_two_pow_sub_one_eq_mod n 10
  simp only [mask, Nat.shiftRight_eq_div_pow, pt]
  omega

theorem pd_eq (i : Nat) : pd i = pt 1023 i := by
  unfold pd pt
  omega

end Words

/-! ## The tables -/

variable {s t : Paging} {i j word : Nat}

/-- A directory entry. -/
def pde (s : Paging) (i : Nat) : Nat := s.frames s.cr3 i

/-- The last directory entry names the directory. -/
def Recursive (s : Paging) : Prop := present (s.pde 1023) ∧ frameOf (s.pde 1023) = s.cr3

namespace Recursive

/-- The walk for the address of an entry ends at the table. -/
theorem walk_pt (h : s.Recursive) (hi : i < 1024) (hj : j < 1024) :
    s.walk (pt i j) = if present (s.pde i) then some (frameOf (s.pde i)) else none := by
  obtain ⟨dir, tab, -⟩ := pt_index hi hj
  obtain ⟨there, names⟩ := h
  unfold pde at there names
  simp only [walk, dir, tab, there, names, if_true]
  rfl

theorem read_pd (h : s.Recursive) (hi : i < 1024) : s.read (pd i) = some (s.pde i) := by
  rw [read, pd_eq, h.walk_pt (by decide) hi, if_pos h.1, h.2, (pt_index (by decide) hi).2.2]
  rfl

theorem read_pt (h : s.Recursive) (hi : i < 1024) (hj : j < 1024) (there : present (s.pde i)) :
    s.read (pt i j) = some (s.frames (frameOf (s.pde i)) j) := by
  rw [read, h.walk_pt hi hj, if_pos there, (pt_index hi hj).2.2]
  rfl

theorem write_pd (h : s.Recursive) (word : Nat) (hi : i < 1024) :
    s.write (pd i) word = some { s with frames := set s.frames s.cr3 i word } := by
  rw [write, pd_eq, h.walk_pt (by decide) hi, if_pos h.1, h.2, (pt_index (by decide) hi).2.2]
  rfl

theorem write_pt (h : s.Recursive) (word : Nat) (hi : i < 1024) (hj : j < 1024) :
    s.write (pt i j) word =
      if present (s.pde i) then
        some { s with frames := set s.frames (frameOf (s.pde i)) j word }
      else none := by
  rw [write, h.walk_pt hi hj, (pt_index hi hj).2.2]
  split <;> rfl

end Recursive

/-- The directory entries that share the low page table. -/
def Twin (i j : Nat) : Prop := i = 0 ∧ j = 768 ∨ i = 768 ∧ j = 0

/-- The last entry names the directory, and no two others name one table but the twins. -/
structure Tables (s : Paging) : Prop where
  self : present (s.pde 1023) ∧ frameOf (s.pde 1023) = s.cr3
  apart : ∀ i < 1023, present (s.pde i) → frameOf (s.pde i) ≠ s.cr3
  distinct : ∀ i < 1023, ∀ j < 1023, present (s.pde i) → present (s.pde j) →
    frameOf (s.pde i) = frameOf (s.pde j) → i = j ∨ Twin i j

/-- A page frame that no directory entry names. -/
def Fresh (s : Paging) (frame : Nat) : Prop :=
  ∀ i < 1024, present (s.pde i) → frameOf (s.pde i) ≠ frame

namespace Tables

theorem recursive (h : s.Tables) : s.Recursive := h.self

/-- Stores to tables leave the directory as it is. -/
theorem same (h : s.Tables) (cr3 : t.cr3 = s.cr3) (dir : t.frames t.cr3 = s.frames s.cr3) :
    t.Tables := by
  have entries (i : Nat) : t.pde i = s.pde i := congrFun dir i
  refine ⟨?_, ?_, ?_⟩
  · rw [entries, cr3]
    exact h.self
  · intro i below
    rw [entries, cr3]
    exact h.apart i below
  · intro i hi j hj
    rw [entries, entries]
    exact h.distinct i hi j hj

end Tables

/-! ## A new table -/

/-- The first `k` words of a table are zero. -/
def cleared (s : Paging) (frame k : Nat) : Paging :=
  { s with frames := Function.update s.frames frame fun j => if j < k then 0 else s.frames frame j }

theorem cleared_frame {frame k g : Nat} (h : g ≠ frame) :
    (s.cleared frame k).frames g = s.frames g := by
  simp [cleared, h]

theorem cleared_self {frame k : Nat} :
    (s.cleared frame k).frames frame = fun j => if j < k then 0 else s.frames frame j := by
  simp [cleared]

theorem cleared_zero (s : Paging) (frame : Nat) : s.cleared frame 0 = s := by
  simp [cleared]

theorem cleared_succ (s : Paging) (frame k : Nat) :
    { s.cleared frame k with frames := set (s.cleared frame k).frames frame k 0 } =
      s.cleared frame (k + 1) := by
  have words : Function.update (fun j => if j < k then 0 else s.frames frame j) k 0 =
      fun j => if j < k + 1 then 0 else s.frames frame j := by
    funext j
    by_cases here : j = k
    · simp [here]
    · have between : j < k ↔ j < k + 1 := by omega
      simp [here, between]
  simp only [cleared, set, Function.update_self, Function.update_idem, words]

theorem Tables.cleared (h : s.Tables) {frame : Nat} (other : s.cr3 ≠ frame) (k : Nat) :
    (s.cleared frame k).Tables :=
  h.same rfl (cleared_frame other)

theorem Recursive.cleared (h : s.Recursive) {frame : Nat} (other : s.cr3 ≠ frame) (k : Nat) :
    (s.cleared frame k).Recursive := by
  have entry : (s.cleared frame k).pde 1023 = s.pde 1023 := congrFun (cleared_frame other) 1023
  unfold Recursive
  rw [entry]
  exact h

theorem Recursive.zero (h : s.Recursive) (hi : i < 1024) (there : present (s.pde i))
    (other : s.cr3 ≠ frameOf (s.pde i)) : s.zero i = some (s.cleared (frameOf (s.pde i)) 1024) := by
  have loop (k : Nat) (most : k ≤ 1024) :
      (List.range k).foldlM (fun s j => s.write (pt i j) 0) s =
        some (s.cleared (frameOf (s.pde i)) k) := by
    induction k with
    | zero => exact congrArg some (cleared_zero s _).symm
    | succ k ih =>
        have entry : (s.cleared (frameOf (s.pde i)) k).pde i = s.pde i :=
          congrFun (cleared_frame other) i
        have word := (h.cleared other k).write_pt 0 hi (show k < 1024 from most)
        rw [entry, if_pos there, cleared_succ] at word
        simp [List.range_succ, ih (Nat.le_of_succ_le most), word]
  exact loop 1024 (Nat.le_refl _)

theorem Tables.zero (h : s.Tables) (hi : i < 1023) (there : present (s.pde i)) :
    s.zero i = some (s.cleared (frameOf (s.pde i)) 1024) :=
  h.recursive.zero (Nat.lt_succ_of_lt hi) there (h.apart i hi there).symm

/-- The directory with the entry for a table that the page allocator gave. -/
def withEntry (s : Paging) (i entry : Nat) (pages : PageMap) : Paging :=
  { s with frames := set s.frames s.cr3 i entry, pages }

section Entry

variable {entry : Nat} {pages : PageMap}

@[simp] theorem withEntry_pde : (s.withEntry i entry pages).pde i = entry := set_self ..

theorem withEntry_other (other : j ≠ i) : (s.withEntry i entry pages).pde j = s.pde j :=
  set_word other

theorem withEntry_frame {f : Nat} (other : f ≠ s.cr3) :
    (s.withEntry i entry pages).frames f = s.frames f := set_frame other

/-- An entry for a fresh table joins the directory. -/
theorem Tables.add (h : s.Tables) (hi : i < 1023) (fresh : s.Fresh (frameOf entry)) :
    (s.withEntry i entry pages).Tables := by
  constructor
  · rw [withEntry_other (by omega)]
    exact h.self
  · intro j hj
    by_cases new : j = i
    · rw [new, withEntry_pde]
      intro _ names
      exact fresh 1023 (by decide) h.self.1 (h.self.2.trans names.symm)
    · rw [withEntry_other new]
      exact h.apart j hj
  · intro j hj k hk
    by_cases new : j = i
    · by_cases new' : k = i
      · exact fun _ _ _ => .inl (new.trans new'.symm)
      · rw [new, withEntry_pde, withEntry_other new']
        intro _ there names
        exact absurd names.symm (fresh k (by omega) there)
    · by_cases new' : k = i
      · rw [new', withEntry_pde, withEntry_other new]
        intro there _ names
        exact absurd names (fresh j (by omega) there)
      · rw [withEntry_other new, withEntry_other new']
        exact h.distinct j hj k hk

end Entry

/-- The walk reads one directory entry and one table entry. -/
theorem walk_congr {w : Nat} (entry : t.pde (w >>> 22) = s.pde (w >>> 22))
    (word : present (s.pde (w >>> 22)) →
      t.frames (frameOf (s.pde (w >>> 22))) ((w >>> 12) &&& 0x03FF) =
        s.frames (frameOf (s.pde (w >>> 22))) ((w >>> 12) &&& 0x03FF)) : t.walk w = s.walk w := by
  unfold walk
  unfold pde at entry word
  rw [entry]
  cases there : present (s.frames s.cr3 (w >>> 22)) with
  | true => simp only [word there]
  | false => simp [there]

theorem walk_absent {w : Nat} (absent : ¬ present (s.pde (w >>> 22))) : s.walk w = none :=
  if_neg absent

theorem walk_unmapped {w : Nat}
    (word : s.frames (frameOf (s.pde (w >>> 22))) ((w >>> 12) &&& 0x03FF) = 0) :
    s.walk w = none := by
  unfold walk
  unfold pde at word
  simp [word, present]

theorem pa_alloc_aligned {m m' : PageMap} {paddr : Nat} (run : m.pa_alloc = some (paddr, m')) :
    paddr % 4096 = 0 := by
  unfold PageMap.pa_alloc at run
  split at run
  · cases run
  · obtain ⟨idx, -, run⟩ := Option.bind_eq_some_iff.mp run
    obtain ⟨w, -, run⟩ := Option.bind_eq_some_iff.mp run
    obtain ⟨bit_no, -, run⟩ := Option.bind_eq_some_iff.mp run
    obtain ⟨m₁, -, run⟩ := Option.bind_eq_some_iff.mp run
    cases run
    rw [Nat.shiftLeft_eq]
    exact Nat.mul_mod_left _ 4096

structure Entered (s t : Paging) (i : Nat) : Prop where
  tables : t.Tables
  there : present (t.pde i)
  walk : ∀ w, w >>> 22 < 1023 → t.walk w = s.walk w
  others : ∀ j ≠ i, t.pde j = s.pde j
  pages : present (s.pde i) ∧ t = s ∨
    ¬ present (s.pde i) ∧ ∃ table, s.pages.pa_alloc = some (table, t.pages) ∧
      frameOf (t.pde i) = table / 4096

/-- The paging with a new table in which nothing is entered yet. -/
def withTable (s : Paging) (i table flags : Nat) (pages : PageMap) : Paging :=
  (s.withEntry i (table ||| (flags &&& 0xFFF) ||| 0x01) pages).cleared (table / 4096) 1024

section NewTable

variable {table flags : Nat} {pages : PageMap}

theorem withTable_pde (other : s.cr3 ≠ table / 4096) :
    (s.withTable i table flags pages).pde i = table ||| (flags &&& 0xFFF) ||| 0x01 :=
  (congrFun (cleared_frame other) i).trans withEntry_pde

theorem withTable_others (other : s.cr3 ≠ table / 4096) (apart : j ≠ i) :
    (s.withTable i table flags pages).pde j = s.pde j :=
  (congrFun (cleared_frame other) j).trans (withEntry_other apart)

theorem withTable_frame {g : Nat} (dir : g ≠ s.cr3) (apart : g ≠ table / 4096) :
    (s.withTable i table flags pages).frames g = s.frames g :=
  (cleared_frame apart).trans (withEntry_frame dir)

theorem withTable_word (below : j < 1024) :
    (s.withTable i table flags pages).frames (table / 4096) j = 0 := by
  rw [withTable, cleared_self]
  exact if_pos below

theorem Fresh.apart (fresh : s.Fresh j) (h : s.Recursive) : s.cr3 ≠ j := fun same =>
  fresh 1023 (by decide) h.1 (h.2.trans same)

theorem enter_old (h : s.Recursive) (hi : i < 1024) (there : present (s.pde i)) :
    s.enter i flags = some s := by
  unfold enter
  rw [h.read_pd hi, Option.bind_eq_bind, Option.bind_some, if_pos there]
  rfl

theorem enter_new (h : s.Recursive) (hi : i < 1023) (absent : ¬ present (s.pde i))
    (alloc : s.pages.pa_alloc = some (table, pages)) (other : s.cr3 ≠ table / 4096) :
    s.enter i flags = some (s.withTable i table flags pages) := by
  obtain ⟨there, names⟩ := entry_spec flags (pa_alloc_aligned alloc)
  have taken : Recursive { s with pages } := h
  have write := taken.write_pd (table ||| (flags &&& 0xFFF) ||| 0x01) (Nat.lt_succ_of_lt hi)
  have entry : (s.withEntry i (table ||| (flags &&& 0xFFF) ||| 0x01) pages).pde i = _ :=
    withEntry_pde
  have last : (s.withEntry i (table ||| (flags &&& 0xFFF) ||| 0x01) pages).Recursive := by
    unfold Recursive
    rw [withEntry_other (by omega)]
    exact h
  have zero := last.zero (Nat.lt_succ_of_lt hi) (by rw [entry]; exact there)
    (by rw [entry, names]; exact other)
  rw [entry, names] at zero
  unfold enter
  rw [h.read_pd (Nat.lt_succ_of_lt hi)]
  simp only [Option.bind_eq_bind, Option.bind_some, if_neg absent, alloc, write]
  exact zero

end NewTable

/-- The new table translates nothing yet. -/
theorem entered_new (h : s.Tables) (hi : i < 1023) (absent : ¬ present (s.pde i))
    {table : Nat} {pages : PageMap} (alloc : s.pages.pa_alloc = some (table, pages)) (flags : Nat)
    (fresh : s.Fresh (table / 4096)) : Entered s (s.withTable i table flags pages) i := by
  obtain ⟨there, names⟩ := entry_spec flags (pa_alloc_aligned alloc)
  have other := fresh.apart h.recursive
  have entry : (s.withTable i table flags pages).pde i = _ := withTable_pde other
  refine ⟨(h.add hi (names.symm ▸ fresh)).cleared other 1024, entry ▸ there, fun w hw => ?_,
    fun j new => withTable_others other new, .inr ⟨absent, table, alloc, entry ▸ names⟩⟩
  by_cases here : w >>> 22 = i
  · rw [walk_absent (s := s) (here ▸ absent)]
    refine walk_unmapped ?_
    rw [here, entry, names]
    exact withTable_word (index_lt _)
  · refine walk_congr (withTable_others other here) fun there' => ?_
    exact congrFun (withTable_frame (h.apart _ hw there') (fresh _ (by omega) there')) _

/-- A table that was not there was taken from the page allocator. -/
theorem enter_alloc {flags : Nat} (h : s.Recursive) (hi : i < 1023) (absent : ¬ present (s.pde i))
    (run : s.enter i flags = some t) : ∃ table pages, s.pages.pa_alloc = some (table, pages) := by
  unfold enter at run
  rw [h.read_pd (Nat.lt_succ_of_lt hi), Option.bind_eq_bind, Option.bind_some, if_neg absent] at run
  obtain ⟨⟨table, pages⟩, alloc, -⟩ := Option.bind_eq_some_iff.mp run
  exact ⟨table, pages, alloc⟩

theorem enter_spec (h : s.Tables) (hi : i < 1023) {flags : Nat}
    (fresh : ∀ table pages, ¬ present (s.pde i) → s.pages.pa_alloc = some (table, pages) →
      s.Fresh (table / 4096)) (run : s.enter i flags = some t) : Entered s t i := by
  by_cases there : present (s.pde i)
  · rw [enter_old h.recursive (Nat.lt_succ_of_lt hi) there] at run
    cases run
    exact ⟨h, there, fun _ _ => rfl, fun _ _ => rfl, .inl ⟨there, rfl⟩⟩
  · obtain ⟨table, pages, alloc⟩ := enter_alloc h.recursive hi there run
    have fresh := fresh table pages there alloc
    rw [enter_new h.recursive hi there alloc (fresh.apart h.recursive)] at run
    cases run
    exact entered_new h hi there alloc flags fresh

/-! ## The calls -/

/-- Two pages that one table entry translates: the same page, or the same place in both
    windows of the low table. -/
def Shared (v w : Nat) : Prop :=
  w >>> 12 = v >>> 12 ∨
    Twin (w >>> 22) (v >>> 22) ∧ (w >>> 12) &&& 0x03FF = (v >>> 12) &&& 0x03FF

/-- A page is its directory index and its table index. -/
theorem page_eq {v w : Nat} (dir : w >>> 22 = v >>> 22)
    (tab : (w >>> 12) &&& 0x03FF = (v >>> 12) &&& 0x03FF) : w >>> 12 = v >>> 12 := by
  have mask (n : Nat) : n &&& 0x03FF = n % 1024 := Nat.and_two_pow_sub_one_eq_mod n 10
  simp only [mask, Nat.shiftRight_eq_div_pow] at *
  omega

/-- The entry of `v` was written. -/
structure Stored (s t : Paging) (v word : Nat) : Prop where
  there : present (s.pde (v >>> 22))
  tables : t.Tables
  pages : t.pages = s.pages
  entries : ∀ i, t.pde i = s.pde i
  walk : t.walk v = if present word then some (frameOf word) else none
  others : ∀ w, w >>> 22 < 1023 → ¬ Shared v w → t.walk w = s.walk w

theorem stored (h : s.Tables) {v : Nat} (below : v >>> 22 < 1023)
    (run : s.write (pt (v >>> 22) ((v >>> 12) &&& 0x03FF)) word = some t) : Stored s t v word := by
  rw [h.recursive.write_pt word (Nat.lt_succ_of_lt below) (index_lt _)] at run
  split at run
  · rename_i there
    obtain rfl := Option.some_inj.mp run
    have other : s.cr3 ≠ frameOf (s.pde (v >>> 22)) := (h.apart _ below there).symm
    have dir : set s.frames (frameOf (s.pde (v >>> 22))) ((v >>> 12) &&& 0x03FF) word s.cr3 =
        s.frames s.cr3 := set_frame other
    refine ⟨there, h.same rfl dir, rfl, congrFun dir, ?_, fun w hw apart => ?_⟩
    · unfold walk
      unfold pde at there
      simp only [dir, there, if_true]
      rw [pde, set_self]
    · refine walk_congr (congrFun dir _) fun there' => set_other ?_
      rintro ⟨table, index⟩
      refine apart ?_
      cases h.distinct _ hw _ below there' there table with
      | inl dir => exact .inl (page_eq dir index)
      | inr twin => exact .inr ⟨twin, index⟩
  · cases run

/-- What `mm_map` does, for a frame that is not NULL: a table if there is none, and the entry. -/
theorem mm_map_spec (h : s.Tables) {p v flags r : Nat} (phys : p ≠ 0) (below : v >>> 22 < 1023)
    (fresh : ∀ table pages, ¬ present (s.pde (v >>> 22)) →
      s.pages.pa_alloc = some (table, pages) → s.Fresh (table / 4096))
    (run : s.mm_map p v flags = some (r, t)) :
    r = v ∧ ∃ s₁, Entered s s₁ (v >>> 22) ∧
      Stored s₁ t v (p ||| (flags &&& 0xFFF) ||| 0x01) := by
  unfold mm_map at run
  simp only [if_neg phys] at run
  obtain ⟨s₁, entered, run⟩ := Option.bind_eq_some_iff.mp run
  obtain ⟨t', stores, same⟩ := Option.bind_eq_some_iff.mp run
  cases same
  have enter := enter_spec h below fresh entered
  exact ⟨rfl, s₁, enter, stored enter.tables below stores⟩

theorem mm_unmap_spec (h : s.Tables) {v : Nat} (below : v >>> 22 < 1023)
    (run : s.mm_unmap v = some t) : Stored s t v 0 :=
  stored h below run

/-! ## Isolation -/

inductive MapCall where
  | map (physaddr virtualaddr flags : Nat)
  | unmap (virtualaddr : Nat)

def MapCall.virtualaddr : MapCall → Nat
  | .map _ v _ | .unmap v => v

def step (s : Paging) : MapCall → Option Paging
  | .map p v flags => (s.mm_map p v flags).map Prod.snd
  | .unmap v => s.mm_unmap v

/-- The address is below the tables, the frame is not NULL, and the page allocator gives
    no frame that is a table. -/
def Ok (s : Paging) : MapCall → Prop
  | .map p v _ => p ≠ 0 ∧ v < 0xFFC00000 ∧
      ∀ table pages, s.pages.pa_alloc = some (table, pages) → s.Fresh (table / 4096)
  | .unmap v => v < 0xFFC00000

theorem dir_lt {v : Nat} (below : v < 0xFFC00000) : v >>> 22 < 1023 := by
  rw [Nat.shiftRight_eq_div_pow]
  omega

theorem step_isolated {e : MapCall} (h : s.Tables) (ok : Ok s e) (run : s.step e = some t) :
    t.Tables ∧ ∀ w < 0xFFC00000, ¬ Shared e.virtualaddr w → t.walk w = s.walk w := by
  cases e with
  | map p v flags =>
      obtain ⟨phys, below, fresh⟩ := ok
      obtain ⟨⟨r, t'⟩, mapped, same⟩ := Option.map_eq_some_iff.mp run
      cases same
      obtain ⟨-, s₁, entered, stored⟩ := mm_map_spec h phys (dir_lt below)
        (fun table pages _ => fresh table pages) mapped
      exact ⟨stored.tables, fun w hw apart =>
        (stored.others w (dir_lt hw) apart).trans (entered.walk w (dir_lt hw))⟩
  | unmap v =>
      have stored := mm_unmap_spec h (dir_lt ok) run
      exact ⟨stored.tables, fun w hw apart => stored.others w (dir_lt hw) apart⟩

theorem boot_entry (frame : Nat) :
    present (frame <<< 12 ||| 0x7) ∧ frameOf (frame <<< 12 ||| 0x7) = frame := by
  have sum : frame <<< 12 ||| 0x7 = 2 ^ 12 * frame + 7 := by
    rw [Nat.two_pow_add_eq_or_of_lt (by decide), Nat.shiftLeft_eq, Nat.mul_comm]
  rw [present, frameOf, Nat.and_one_is_mod, Nat.shiftRight_eq_div_pow, sum]
  constructor
  · simp only [ne_eq, decide_not, Bool.not_eq_true', decide_eq_false_iff_not]
    omega
  · omega

/-- The loop of `init_paging` clears the directory. -/
theorem init_loop (frames : Nat → Nat → Nat) {dir low : Nat} (apart : dir ≠ low) (k j : Nat)
    (below : j < k) :
    (List.range k).foldl (fun frames k =>
      set (set frames low k ((k * 4096) ||| 0x7)) dir k 0) frames dir j = 0 := by
  induction k with
  | zero => cases below
  | succ k ih =>
      rw [List.range_succ, List.foldl_append, List.foldl_cons, List.foldl_nil]
      by_cases last : j = k
      · rw [last, set_self]
      · rw [set_word last, set_frame apart]
        exact ih (by omega)

theorem init_paging_pde (frames : Nat → Nat → Nat) (pages : PageMap) {dir low : Nat}
    (apart : dir ≠ low) {i : Nat} (below : i < 1024) :
    (init_paging frames pages dir low).pde i =
      if i = 1023 then dir <<< 12 ||| 0x7
      else if i = 768 ∨ i = 0 then low <<< 12 ||| 0x7
      else 0 := by
  unfold init_paging pde
  dsimp only
  by_cases last : i = 1023
  · rw [last, set_self, if_pos rfl]
  · rw [set_word last, if_neg last]
    by_cases upper : i = 768
    · rw [upper, set_self, if_pos (.inl rfl)]
    · rw [set_word upper]
      by_cases lower : i = 0
      · rw [lower, set_self, if_pos (.inr rfl)]
      · rw [set_word lower, if_neg (by omega)]
        exact init_loop frames apart 1024 i below

/-- Frames that are not one of the two tables are left alone. -/
theorem init_paging_frame (frames : Nat → Nat → Nat) (pages : PageMap) {dir low f : Nat}
    (apart : f ≠ dir) (apart' : f ≠ low) :
    (init_paging frames pages dir low).frames f = frames f := by
  have loop (k : Nat) : (List.range k).foldl (fun frames k =>
      set (set frames low k ((k * 4096) ||| 0x7)) dir k 0) frames f = frames f := by
    induction k with
    | zero => rfl
    | succ k ih =>
        rw [List.range_succ, List.foldl_append, List.foldl_cons, List.foldl_nil, set_frame apart,
          set_frame apart', ih]
  unfold init_paging
  dsimp only
  rw [set_frame apart, set_frame apart, set_frame apart]
  exact loop 1024

theorem init_paging_tables (frames : Nat → Nat → Nat) (pages : PageMap) {dir low : Nat}
    (apart : dir ≠ low) : (init_paging frames pages dir low).Tables := by
  have entry {i : Nat} (below : i < 1023)
      (there : present ((init_paging frames pages dir low).pde i)) :
      (i = 768 ∨ i = 0) ∧ frameOf ((init_paging frames pages dir low).pde i) = low := by
    rw [init_paging_pde frames pages apart (Nat.lt_succ_of_lt below), if_neg (by omega)] at there ⊢
    by_cases window : i = 768 ∨ i = 0
    · rw [if_pos window]
      exact ⟨window, (boot_entry low).2⟩
    · rw [if_neg window] at there
      cases there
  constructor
  · rw [init_paging_pde frames pages apart (by decide), if_pos rfl]
    exact boot_entry dir
  · intro i below there names
    exact apart (names.symm.trans (entry below there).2)
  · intro i hi j hj there there' _
    have windows := (entry hi there).1
    have windows' := (entry hj there').1
    unfold Twin
    omega

/-- One call translates no other page anew but the one in the other window of the low table. -/
theorem mapping_isolated (frames : Nat → Nat → Nat) (pages : PageMap) {dir low : Nat}
    (apart : dir ≠ low)
    (reached : Runs.Reach step Ok (· = init_paging frames pages dir low) s) {e : MapCall}
    (ok : Ok s e) (run : s.step e = some t) :
    ∀ w < 0xFFC00000, ¬ Shared e.virtualaddr w → t.walk w = s.walk w := by
  have tables : s.Tables :=
    reached.invariant (fun _ same => same ▸ init_paging_tables frames pages apart)
      fun _ _ _ h ok run => (step_isolated h ok run).1
  exact (step_isolated tables ok run).2

/-- The state that `init_paging` sets up with the directory in frame 2 and the low table in
    frame 3. -/
def booted : Paging := init_paging (fun _ _ => 0) ⟨fun _ => 0, 0⟩ 2 3

/-- A page stays mapped when another one is unmapped. -/
theorem mapping_isolated_unmap : ∃ s t, booted.step (.map 0x9000 0x5000 0x6) = some s ∧
    s.step (.unmap 0x1000) = some t ∧ s.walk 0x5000 = some 9 ∧ t.walk 0x5000 = s.walk 0x5000 := by
  have ends : (booted.step (.map 0x9000 0x5000 0x6)).any fun s =>
      decide ((s.step (.unmap 0x1000)).isSome ∧ s.walk 0x5000 = some 9) := by decide +kernel
  obtain ⟨s, map, ends⟩ := (Option.any_eq_true _ _).mp ends
  obtain ⟨returns, mapped⟩ := of_decide_eq_true ends
  obtain ⟨t, unmap⟩ := Option.isSome_iff_exists.mp returns
  have start : Runs.Reach step Ok (· = booted) booted := .start rfl
  have admitted : Ok booted (.map 0x9000 0x5000 0x6) := ⟨by decide, by decide, nofun⟩
  have below : Ok s (.unmap 0x1000) := show 0x1000 < 0xFFC00000 by decide
  refine ⟨s, t, map, unmap, mapped, mapping_isolated (fun _ _ => 0) ⟨fun _ => 0, 0⟩ (by decide)
    (start.next admitted map) below unmap 0x5000 (by decide) ?_⟩
  unfold Shared Twin MapCall.virtualaddr
  decide

/-- The same page frame is taken from page 0 and from the page at 3 GiB. -/
theorem unmap_takes_both :
    ∃ t, booted.step (.unmap 0) = some t ∧ t.walk 0xC0000000 ≠ booted.walk 0xC0000000 := by
  have ends : (booted.step (.unmap 0)).map (fun t => t.walk 0xC0000000) = some none := by
    decide +kernel
  have before : booted.walk 0xC0000000 = some 0 := by decide +kernel
  obtain ⟨t, run, after⟩ := Option.map_eq_some_iff.mp ends
  refine ⟨t, run, ?_⟩
  rw [after, before]
  exact nofun

end Paging

end Krypton
