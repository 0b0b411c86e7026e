import Krypton.Mm.Walks

/-! # Permissions

A page may be written, or used from user space, where both its directory entry
and its table entry say so. `mm_map` stores its flags to the table entry; to the
directory entry only when it makes the table.
-/

namespace Krypton

namespace Paging

/-- The arguments of an `mm_map` call. -/
structure Mapping where
  physaddr : Nat
  virtualaddr : Nat
  flags : Nat

namespace Mapping

/-- The permissions that the call asks for. -/
def asked (c : Mapping) : Nat := c.flags &&& (PAGE_WRITE ||| PAGE_USER)

def Aligned (c : Mapping) : Prop :=
  c.physaddr % 4096 = 0 ∧ c.virtualaddr % 4096 = 0 ∧ c.virtualaddr < 0xFFC00000

end Mapping

/-- The permissions that a page table entry, or a directory entry, gives. -/
def perms (entry : Nat) : Nat := entry &&& (PAGE_WRITE ||| PAGE_USER)

/-- The table entry of an address. -/
def pte (s : Paging) (v : Nat) : Nat :=
  s.frames (frameOf (s.pde (v >>> 22))) ((v >>> 12) &&& 0x03FF)

/-- The permissions of the page at `v`: none where it has no table. -/
def effective (s : Paging) (v : Nat) : Nat :=
  if present (s.pde (v >>> 22)) then perms (s.pde (v >>> 22)) &&& perms (s.pte v) else 0

def mapped (s : Paging) (c : Mapping) : Option Paging :=
  (s.mm_map c.physaddr c.virtualaddr c.flags).map Prod.snd

/-- What the first call in the region of a directory entry asked for. -/
def firstAsked (cs : List Mapping) (i : Nat) : Option Nat :=
  (cs.find? fun c => c.physaddr ≠ 0 && c.virtualaddr >>> 22 = i).map Mapping.asked

/-- What the last call for a page asked for. -/
def lastAsked (cs : List Mapping) (page : Nat) : Option Nat :=
  (cs.reverse.find? fun c => c.physaddr ≠ 0 && c.virtualaddr >>> 12 = page).map Mapping.asked

/-- The permissions that the calls `cs` leave the page at `v` with. -/
def permitted (cs : List Mapping) (v : Nat) : Nat :=
  (firstAsked cs (v >>> 22)).getD 0 &&& (lastAsked cs (v >>> 12)).getD 0

/-- Nothing but the directory itself is entered, and its frame is not a free one. -/
structure OnlySelf (s : Paging) : Prop where
  recursive : s.Recursive
  others : ∀ i < 1023, ¬ present (s.pde i)
  counted : s.pages.Counted
  used : s.cr3 ∉ s.pages.freePages

/-- The first call in the region had the permissions that `c` asks for; a call for NULL maps
    nothing, and has what the page has already. -/
def Granted (cs : List Mapping) (c : Mapping) : Prop :=
  if c.physaddr = 0 then permitted cs c.virtualaddr = c.asked
  else ∀ first, firstAsked cs (c.virtualaddr >>> 22) = some first → c.asked &&& first = c.asked

variable {s s₁ t : Paging} {cs : List Mapping} {c : Mapping} {v w i j word table flags : Nat}

/-! ## Entries -/

theorem perms_entry {addr : Nat} (flags : Nat) (aligned : addr % 4096 = 0) :
    perms (addr ||| (flags &&& 0xFFF) ||| 0x01) = flags &&& (PAGE_WRITE ||| PAGE_USER) := by
  have low : addr &&& 7 = addr % 8 := Nat.and_two_pow_sub_one_eq_mod addr 3
  have none : addr &&& 6 = 0 := by
    have mask : 6 = 7 &&& 6 := rfl
    rw [mask, ← Nat.and_assoc, low, show addr % 8 = 0 by omega, Nat.zero_and]
  have rest : flags &&& 0xFFF &&& 6 = flags &&& 6 := Nat.and_assoc flags 0xFFF 6
  have flag : PAGE_WRITE ||| PAGE_USER = 6 := rfl
  rw [perms, flag, Nat.and_or_distrib_right, Nat.and_or_distrib_right, none, rest]
  simp

/-- The directory and the tables are in frames of their own, none of them free. -/
structure Own (s : Paging) : Prop where
  recursive : s.Recursive
  apart : ∀ i < 1023, present (s.pde i) → frameOf (s.pde i) ≠ s.cr3
  distinct : ∀ i < 1023, ∀ j < 1023, present (s.pde i) → present (s.pde j) →
    frameOf (s.pde i) = frameOf (s.pde j) → i = j
  counted : s.pages.Counted
  fresh : ∀ f ∈ s.pages.freePages, s.Fresh f

/-- A table for entry `i` is there, an empty one if it is new. The rest is as before. -/
structure Opened (s s₁ : Paging) (i flags : Nat) : Prop where
  own : Own s₁
  there : present (s₁.pde i)
  others : ∀ j, present (s.pde j) ∨ j ≠ i → s₁.pde j = s.pde j
  words : ∀ w, w >>> 22 < 1023 → present (s.pde (w >>> 22)) → s₁.pte w = s.pte w
  perms : ¬ present (s.pde i) → perms (s₁.pde i) = flags &&& (PAGE_WRITE ||| PAGE_USER)
  empty : ¬ present (s.pde i) → ∀ w, w >>> 22 = i → s₁.pte w = 0

theorem Own.refl_opened (own : Own s) (there : present (s.pde i)) : Opened s s i flags where
  own := own
  there := there
  others _ _ := rfl
  words _ _ _ := rfl
  perms absent := absurd there absent
  empty absent := absurd there absent

theorem opened_own (own : Own s) (below : i < 1023) {pages : PageMap} {f : Nat}
    (free : f ∈ s.pages.freePages) (taken : pages.freePages = s.pages.freePages.erase f)
    (counted : pages.Counted) (flags : Nat) : Own (s.withTable i (f * 4096) flags pages) := by
  have frame : f * 4096 / 4096 = f := Nat.mul_div_cancel _ (Nat.succ_pos 4095)
  have fresh := own.fresh f free
  have other : s.cr3 ≠ f * 4096 / 4096 := frame.symm ▸ fresh.apart own.recursive
  obtain ⟨there, names⟩ := entry_spec flags (Nat.mul_mod_left f 4096)
  have entry : (s.withTable i (f * 4096) flags pages).pde i = _ := withTable_pde other
  have named : frameOf ((s.withTable i (f * 4096) flags pages).pde i) = f := by
    rw [entry, names, frame]
  have old {j : Nat} (apart : j ≠ i) : (s.withTable i (f * 4096) flags pages).pde j = s.pde j :=
    withTable_others other apart
  refine ⟨?_, fun j hj there => ?_, fun j hj k hk => ?_, counted, fun g mem j hj there => ?_⟩
  · unfold Recursive
    rw [old (by omega)]
    exact own.recursive
  · by_cases new : j = i
    · rw [new, named]
      exact (frame ▸ other).symm
    · rw [old new] at there ⊢
      exact own.apart j hj there
  · by_cases new : j = i
    · by_cases new' : k = i
      · exact fun _ _ _ => new.trans new'.symm
      · rw [new, named, old new']
        exact fun _ there same => absurd same.symm (fresh k (by omega) there)
    · by_cases new' : k = i
      · rw [new', named, old new]
        exact fun there _ same => absurd same (fresh j (by omega) there)
      · rw [old new, old new']
        exact own.distinct j hj k hk
  · have mem : g ∈ pages.freePages := mem
    rw [taken] at mem
    by_cases new : j = i
    · rw [new, named]
      exact (Finset.ne_of_mem_erase mem).symm
    · rw [old new] at there ⊢
      exact own.fresh g (Finset.mem_of_mem_erase mem) j hj there

theorem enter_opened (own : Own s) (below : i < 1023) (run : s.enter i flags = some s₁) :
    Opened s s₁ i flags := by
  by_cases there : present (s.pde i)
  · rw [enter_old own.recursive (Nat.lt_succ_of_lt below) there] at run
    cases run
    exact own.refl_opened there
  · obtain ⟨table, pages, alloc⟩ := enter_alloc own.recursive below there run
    obtain ⟨f, free, rfl, taken, counted⟩ := PageMap.pa_alloc_taken own.counted alloc
    have frame : f * 4096 / 4096 = f := Nat.mul_div_cancel _ (Nat.succ_pos 4095)
    have fresh := own.fresh f free
    have other : s.cr3 ≠ f * 4096 / 4096 := frame.symm ▸ fresh.apart own.recursive
    rw [enter_new own.recursive below there alloc other] at run
    cases run
    obtain ⟨there', names⟩ := entry_spec flags (Nat.mul_mod_left f 4096)
    have entry : (s.withTable i (f * 4096) flags pages).pde i = _ := withTable_pde other
    have old {j : Nat} (apart : j ≠ i) : (s.withTable i (f * 4096) flags pages).pde j = s.pde j :=
      withTable_others other apart
    refine ⟨opened_own own below free taken counted flags, entry ▸ there', fun j kept => old ?_,
      fun w hw here => ?_, fun _ => ?_, fun _ w dir => ?_⟩
    · rintro rfl
      exact kept.elim there fun apart => apart rfl
    · have apart : w >>> 22 ≠ i := by
        rintro rfl
        exact there here
      have named := fresh (w >>> 22) (by omega) here
      rw [pte, old apart, withTable_frame (own.apart _ hw here) (frame.symm ▸ named)]
      rfl
    · rw [entry]
      exact perms_entry flags (Nat.mul_mod_left f 4096)
    · rw [pte, dir, entry, names]
      exact withTable_word (index_lt _)

/-! ## One call -/

/-- What a call that maps does. -/
structure Mapped (s t : Paging) (c : Mapping) : Prop where
  own : Own t
  there : present (t.pde (c.virtualaddr >>> 22))
  others : ∀ j, present (s.pde j) ∨ j ≠ c.virtualaddr >>> 22 → t.pde j = s.pde j
  perms : ¬ present (s.pde (c.virtualaddr >>> 22)) → perms (t.pde (c.virtualaddr >>> 22)) = c.asked
  page : ∀ w, w >>> 12 = c.virtualaddr >>> 12 → Paging.perms (t.pte w) = c.asked
  words : ∀ w, w >>> 22 < 1023 → w >>> 12 ≠ c.virtualaddr >>> 12 →
    present (s.pde (w >>> 22)) → t.pte w = s.pte w
  empty : ¬ present (s.pde (c.virtualaddr >>> 22)) → ∀ w, w >>> 22 = c.virtualaddr >>> 22 →
    w >>> 12 ≠ c.virtualaddr >>> 12 → t.pte w = 0

/-- The directory index of an address is told from its page. -/
theorem page_dir (page : w >>> 12 = v >>> 12) : w >>> 22 = v >>> 22 := by
  have split (n : Nat) : n >>> 22 = n >>> 12 >>> 10 := by rw [← Nat.shiftRight_add]
  rw [split, split, page]

/-- Another page is in another table, or has another place in this one. -/
theorem withWord_pte (own : Own s) (below : v >>> 22 < 1023) (there : present (s.pde (v >>> 22)))
    (hw : w >>> 22 < 1023) (here : present (s.pde (w >>> 22))) (other : w >>> 12 ≠ v >>> 12) :
    (s.withWord v word).frames (frameOf (s.pde (w >>> 22))) ((w >>> 12) &&& 0x03FF) = s.pte w := by
  refine set_other ?_
  rintro ⟨table, index⟩
  exact other (page_eq (own.distinct _ hw _ below here there table) index)

theorem withWord_own (word : Nat) (own : Own s) (below : v >>> 22 < 1023)
    (there : present (s.pde (v >>> 22))) :
    Own (s.withWord v word) ∧ ∀ i, (s.withWord v word).pde i = s.pde i := by
  have dir : (s.withWord v word).frames s.cr3 = s.frames s.cr3 :=
    set_frame (own.apart _ below there).symm
  have entries (i : Nat) : (s.withWord v word).pde i = s.pde i := congrFun dir i
  refine ⟨⟨?_, ?_, ?_, own.counted, ?_⟩, entries⟩
  · unfold Recursive
    rw [entries]
    exact own.recursive
  · intro i hi
    rw [entries]
    exact own.apart i hi
  · intro i hi j hj
    rw [entries, entries]
    exact own.distinct i hi j hj
  · intro f mem i hi
    rw [entries]
    exact own.fresh f mem i hi

theorem mapped_spec (own : Own s) (aligned : c.Aligned) (phys : c.physaddr ≠ 0)
    (run : s.mapped c = some t) : Mapped s t c := by
  obtain ⟨whole, page, below⟩ := aligned
  have dir := dir_lt below
  obtain ⟨⟨r, t'⟩, call, rfl⟩ := Option.map_eq_some_iff.mp run
  unfold mm_map at call
  simp only [if_neg phys] at call
  obtain ⟨s₁, entered, call⟩ := Option.bind_eq_some_iff.mp call
  obtain ⟨t', stores, same⟩ := Option.bind_eq_some_iff.mp call
  cases same
  have opened := enter_opened own dir entered
  rw [write_entry _ opened.own.recursive dir opened.there] at stores
  cases stores
  have written := perms_entry c.flags whole
  generalize c.physaddr ||| (c.flags &&& 0xFFF) ||| 0x01 = word at written ⊢
  obtain ⟨own', entries⟩ := withWord_own word opened.own dir opened.there
  have words {w : Nat} (hw : w >>> 22 < 1023) (other : w >>> 12 ≠ c.virtualaddr >>> 12)
      (here : present (s₁.pde (w >>> 22))) : (s₁.withWord c.virtualaddr word).pte w = s₁.pte w := by
    rw [pte, entries]
    exact withWord_pte opened.own dir opened.there hw here other
  refine ⟨own', entries _ ▸ opened.there, fun j kept => (entries j).trans (opened.others j kept),
    fun absent => entries _ ▸ opened.perms absent, fun w same => ?_, fun w hw other here => ?_,
    fun absent w same other => ?_⟩
  · have dir_eq := page_dir same
    have entry : (s₁.withWord c.virtualaddr word).frames (frameOf (s₁.pde (c.virtualaddr >>> 22)))
        ((c.virtualaddr >>> 12) &&& 0x03FF) = word := set_self ..
    rw [pte, entries, dir_eq, same, entry]
    exact written
  · have kept := opened.others (w >>> 22) (.inl here)
    exact (words hw other (kept ▸ here)).trans (opened.words w hw here)
  · exact (words (same ▸ dir) other (same ▸ opened.there)).trans (opened.empty absent w same)

theorem mapped_null (null : c.physaddr = 0) (run : s.mapped c = some t) : t = s := by
  have none : s.mm_map c.physaddr c.virtualaddr c.flags = some (0, s) := by
    unfold mm_map
    simp only [null, if_true]
    rfl
  rw [mapped, none] at run
  exact (Option.some_inj.mp run).symm

/-! ## All calls -/

/-- The state after the calls `cs`. -/
structure Traced (s : Paging) (cs : List Mapping) : Prop where
  own : Own s
  region : ∀ i < 1023, firstAsked cs i = if present (s.pde i) then some (perms (s.pde i)) else none
  words : ∀ w, w >>> 22 < 1023 → present (s.pde (w >>> 22)) →
    perms (s.pte w) = (lastAsked cs (w >>> 12)).getD 0

theorem OnlySelf.traced (only : OnlySelf s) : Traced s [] where
  own := {
    recursive := only.recursive
    apart := fun i below there => absurd there (only.others i below)
    distinct := fun i below _ _ there => absurd there (only.others i below)
    counted := only.counted
    fresh := fun f mem i below there names => by
      have last : i = 1023 := by
        by_contra other
        exact only.others i (by omega) there
      rw [last, only.recursive.2] at names
      exact only.used (names.symm ▸ mem) }
  region i below := (if_neg (only.others i below)).symm
  words w below there := absurd there (only.others _ below)

theorem firstAsked_append (cs ds : List Mapping) (i : Nat) :
    firstAsked (cs ++ ds) i = (firstAsked cs i).or (firstAsked ds i) := by
  unfold firstAsked
  rw [List.find?_append, Option.map_or]

theorem lastAsked_append (cs ds : List Mapping) (page : Nat) :
    lastAsked (cs ++ ds) page = (lastAsked ds page).or (lastAsked cs page) := by
  unfold lastAsked
  rw [List.reverse_append, List.find?_append, Option.map_or]

theorem firstAsked_single (phys : c.physaddr ≠ 0) (i : Nat) :
    firstAsked [c] i = if c.virtualaddr >>> 22 = i then some c.asked else none := by
  by_cases here : c.virtualaddr >>> 22 = i <;> simp [firstAsked, here, phys]

theorem lastAsked_single (phys : c.physaddr ≠ 0) (page : Nat) :
    lastAsked [c] page = if c.virtualaddr >>> 12 = page then some c.asked else none := by
  by_cases here : c.virtualaddr >>> 12 = page <;> simp [lastAsked, here, phys]

/-- A call for NULL does not count. -/
theorem asked_null (null : c.physaddr = 0) (i : Nat) :
    firstAsked [c] i = none ∧ lastAsked [c] i = none := by
  simp [firstAsked, lastAsked, null]

theorem lastAsked_others {cs : List Mapping} {page : Nat}
    (others : ∀ d ∈ cs, d.virtualaddr >>> 12 ≠ page) : lastAsked cs page = none := by
  unfold lastAsked
  rw [Option.map_eq_none_iff, List.find?_eq_none]
  intro d mem
  have other := others d (List.mem_reverse.mp mem)
  simp [other]

/-- A page of a region that no call mapped is not mapped. -/
theorem lastAsked_none (region : firstAsked cs (w >>> 22) = none) :
    lastAsked cs (w >>> 12) = none := by
  unfold firstAsked at region
  unfold lastAsked
  rw [Option.map_eq_none_iff, List.find?_eq_none] at region ⊢
  intro d mem
  have outside := region d (List.mem_reverse.mp mem)
  simp only [Bool.and_eq_true, decide_eq_true_eq, not_and] at outside ⊢
  exact fun phys page => outside phys (page_dir page)

/-- The permissions after a run are those that the calls say. -/
theorem Traced.effective (traced : Traced s cs) (below : v >>> 22 < 1023) :
    s.effective v = permitted cs v := by
  unfold Paging.effective permitted
  rw [traced.region _ below]
  by_cases there : present (s.pde (v >>> 22))
  · rw [if_pos there, if_pos there, Option.getD_some, traced.words v below there]
  · rw [if_neg there, if_neg there, Option.getD_none, Nat.zero_and]

theorem Traced.step (traced : Traced s cs) (aligned : c.Aligned) (run : s.mapped c = some t) :
    Traced t (cs ++ [c]) := by
  by_cases null : c.physaddr = 0
  · rw [mapped_null null run]
    refine ⟨traced.own, fun i below => ?_, fun w below there => ?_⟩
    · rw [firstAsked_append, (asked_null null i).1, Option.or_none, traced.region i below]
    · rw [lastAsked_append, (asked_null null _).2, Option.none_or, traced.words w below there]
  · have spec := mapped_spec traced.own aligned null run
    refine ⟨spec.own, fun i below => ?_, fun w below there => ?_⟩
    · rw [firstAsked_append, firstAsked_single null, traced.region i below]
      by_cases old : present (s.pde i)
      · rw [spec.others i (.inl old), if_pos old]
        rfl
      · rw [if_neg old, Option.none_or]
        by_cases here : c.virtualaddr >>> 22 = i
        · subst here
          rw [if_pos rfl, if_pos spec.there, spec.perms old]
        · rw [if_neg here, spec.others i (.inr (Ne.symm here)), if_neg old]
    · rw [lastAsked_append, lastAsked_single null]
      by_cases page : c.virtualaddr >>> 12 = w >>> 12
      · rw [if_pos page, Option.some_or, Option.getD_some, spec.page w page.symm]
      · rw [if_neg page, Option.none_or]
        by_cases old : present (s.pde (w >>> 22))
        · rw [spec.words w below (Ne.symm page) old, traced.words w below old]
        · have region := traced.region _ below
          rw [if_neg old] at region
          have here : w >>> 22 = c.virtualaddr >>> 22 := by
            by_contra other
            rw [spec.others _ (.inr other)] at there
            exact old there
          rw [spec.empty (here ▸ old) w here (Ne.symm page), lastAsked_none region]
          rfl

theorem Traced.run {ds : List Mapping} (traced : Traced s cs) (aligned : ∀ d ∈ ds, d.Aligned)
    (run : Runs.run mapped s ds = some t) : Traced t (cs ++ ds) := by
  induction ds generalizing s cs with
  | nil =>
      cases run
      exact (List.append_nil cs).symm ▸ traced
  | cons d ds ih =>
      obtain ⟨s₁, first, rest⟩ := Option.bind_eq_some_iff.mp run
      have one := traced.step (aligned d List.mem_cons_self) first
      have all := ih one (fun e mem => aligned e (List.mem_cons_of_mem d mem)) rest
      rwa [List.append_assoc] at all

/-- Later calls on other pages do not change what the calls permit. -/
theorem permitted_later {before after : List Mapping} (phys : c.physaddr ≠ 0)
    (others : ∀ d ∈ after, d.virtualaddr >>> 12 ≠ c.virtualaddr >>> 12) :
    permitted (before ++ [c] ++ after) c.virtualaddr =
      (firstAsked before (c.virtualaddr >>> 22)).getD c.asked &&& c.asked := by
  unfold permitted
  rw [lastAsked_append, lastAsked_others others, Option.none_or, lastAsked_append,
    lastAsked_single phys, if_pos rfl, Option.some_or, firstAsked_append, firstAsked_append,
    firstAsked_single phys, if_pos rfl]
  cases firstAsked before (c.virtualaddr >>> 22) <;> rfl

theorem permitted_later_null {before after : List Mapping} (null : c.physaddr = 0)
    (others : ∀ d ∈ after, d.virtualaddr >>> 12 ≠ c.virtualaddr >>> 12) :
    permitted (before ++ [c] ++ after) c.virtualaddr = permitted before c.virtualaddr := by
  unfold permitted
  rw [lastAsked_append, lastAsked_others others, Option.none_or, lastAsked_append,
    (asked_null null _).2, Option.none_or, firstAsked_append, firstAsked_append,
    (asked_null null _).1, Option.or_none]
  cases region : firstAsked before (c.virtualaddr >>> 22) with
  | none => rw [lastAsked_none region, Option.getD_none, Nat.and_zero, Nat.and_zero]
  | some first => rfl

theorem permissions_iff {before after : List Mapping} (only : OnlySelf s)
    (aligned : ∀ d ∈ before ++ [c] ++ after, d.Aligned)
    (others : ∀ d ∈ after, d.virtualaddr >>> 12 ≠ c.virtualaddr >>> 12)
    (run : Runs.run mapped s (before ++ [c] ++ after) = some t) :
    t.effective c.virtualaddr = c.asked ↔ Granted before c := by
  have below : c.virtualaddr >>> 22 < 1023 := dir_lt (aligned c (by simp)).2.2
  have traced : Traced t (before ++ [c] ++ after) := only.traced.run aligned run
  rw [traced.effective below, Granted]
  by_cases null : c.physaddr = 0
  · rw [if_pos null, permitted_later_null null others]
  · rw [if_neg null, permitted_later null others]
    cases firstAsked before (c.virtualaddr >>> 22) with
    | none => simp
    | some first => simp [Nat.and_comm]

/-! ## Runs in one region -/

theorem mapped_runs (own : Own s) (aligned : c.Aligned) (phys : c.physaddr ≠ 0)
    (table : s.HasTable c.virtualaddr) : ∃ t, s.mapped c = some t := by
  have below := dir_lt aligned.2.2
  have apart : s.Apart c.virtualaddr := fun there names => absurd names (own.apart _ below there)
  obtain ⟨s₁, prep⟩ := prepared own.recursive below apart table c.flags
  exact ⟨_, congrArg (Option.map Prod.snd) (mm_map_eq prep phys below)⟩

/-- After the first call of a region there is a table for the others. -/
theorem region_runs (ds : List Mapping) (own : Own s) (table : s.HasTable v)
    (all : ∀ d ∈ ds, d.Aligned ∧ d.physaddr ≠ 0 ∧ d.virtualaddr >>> 22 = v >>> 22) :
    ∃ t, Runs.run mapped s ds = some t := by
  induction ds generalizing s with
  | nil => exact ⟨s, rfl⟩
  | cons d ds ih =>
      obtain ⟨aligned, phys, region⟩ := all d List.mem_cons_self
      have table : s.HasTable d.virtualaddr := by
        unfold HasTable
        rw [region]
        exact table
      obtain ⟨s₁, first⟩ := mapped_runs own aligned phys table
      have spec := mapped_spec own aligned phys first
      obtain ⟨t, rest⟩ := ih spec.own (.inl (region ▸ spec.there))
        fun e mem => all e (List.mem_cons_of_mem d mem)
      exact ⟨t, Option.bind_eq_some_iff.mpr ⟨s₁, first, rest⟩⟩

theorem directory_only : OnlySelf (directory [1023]) where
  recursive := directory_recursive (List.mem_singleton_self 1023)
  others i below := by
    have other : i ∉ [1023] := by simp [Nat.ne_of_lt below]
    rw [directory_pde, if_neg other]
    decide
  counted := by
    rw [PageMap.Counted]
    decide +kernel
  used := by decide +kernel

/-- A page that may be read only, in a region that all may write. -/
theorem permissions_iff_narrower : ∃ t, Runs.run mapped (directory [1023])
      ([⟨0x9000, 0x800000, 0x6⟩] ++ [⟨0xA000, 0x801000, 0x4⟩] ++ [⟨0xB000, 0x802000, 0x0⟩]) =
        some t ∧
    t.effective 0x801000 = 0x4 := by
  have only := directory_only
  obtain ⟨t, run⟩ := region_runs (v := 0x800000)
    ([⟨0x9000, 0x800000, 0x6⟩] ++ [⟨0xA000, 0x801000, 0x4⟩] ++ [⟨0xB000, 0x802000, 0x0⟩])
    only.traced.own directory_table (by simp [Mapping.Aligned])
  have granted : Granted [⟨0x9000, 0x800000, 0x6⟩] ⟨0xA000, 0x801000, 0x4⟩ := by
    simp [Granted, firstAsked, Mapping.asked, PAGE_WRITE, PAGE_USER]
  exact ⟨t, run, (permissions_iff only (by simp [Mapping.Aligned]) (by simp) run).mpr granted⟩

/-- Where the first page of the region may be written by the kernel only, so may the second. -/
theorem permissions_of_first : OnlySelf (directory [1023]) ∧ ∃ t, Runs.run mapped (directory [1023])
      [⟨0x9000, 0x800000, 0x2⟩, ⟨0xA000, 0x801000, 0x6⟩] = some t ∧ t.effective 0x801000 ≠ 0x6 := by
  have only := directory_only
  obtain ⟨t, run⟩ := region_runs (v := 0x800000)
    [⟨0x9000, 0x800000, 0x2⟩, ⟨0xA000, 0x801000, 0x6⟩] only.traced.own directory_table
    (by simp [Mapping.Aligned])
  have traced := only.traced.run (by simp [Mapping.Aligned]) run
  refine ⟨only, t, run, ?_⟩
  rw [traced.effective (by decide)]
  decide

end Paging

end Krypton
