import Krypton.Heap.Backing
import Krypton.Heap.Coalescing

/-! # What a `_kfree` takes from the other blocks

The trimming loop cuts pages off the end of the heap, whichever chunk the last
free one is. Where it is not the last chunk of the heap, the chunks behind it
lose their pages.
-/

namespace Krypton

open LinkStore Tiling

namespace Heap

variable {h : Heap} {pre post : List Chunk} {chunk size : Nat}

/-- The side condition of a `_kfree`, told from the free list. -/
theorem ok_of_trimmable (rep : h.Rep (pre ++ ⟨chunk, size, false⟩ :: post)) {ms zs : List Chunk}
    {z : Chunk} (cut : pre ++ ⟨chunk, size, true⟩ :: post = ms ++ z :: zs) (free : z.free)
    (live : ∀ m ∈ ms, m.free = false)
    (trimmable : Trimmable h.k_heap_end (ms ++ coalesceFrom 16 z zs)) : h.KfreeOk chunk := by
  have members := freed_members rep
  have tiles := freed_tiles rep
  have stops := fun d => freed_stop rep (d := d)
  rw [cut] at members tiles stops
  obtain ⟨mid, before, behind⟩ := tiles_append.mp tiles
  have whole : Tiles 16 HEAP_START (ms ++ coalesceFrom 16 z zs) h.k_heap_end :=
    tiles_append.mpr ⟨mid, before, coalesceFrom_tiles behind⟩
  have isolated : Isolated (ms ++ coalesceFrom 16 z zs) := coalesceFrom_isolated.append live
  have covered (b : Nat) : Covered 16 (ms ++ z :: zs) b ↔
      Covered 16 (ms ++ coalesceFrom 16 z zs) b := by
    rw [covered_append, covered_append, coalesceFrom_covered behind]
  -- `t` is the last free chunk once the chunks are coalesced
  cases last_free (ms ++ coalesceFrom 16 z zs) with
  | inl none =>
      have some_free := coalesceFrom_first 16 zs free
      rw [frees_append, List.append_eq_nil_iff] at none
      rw [none.2] at some_free
      cases some_free
  | inr found =>
      obtain ⟨pre', t, post', split, tf, last⟩ := found
      have mem : t ∈ ms ++ coalesceFrom 16 z zs := split ▸ by simp
      obtain ⟨d, hd, df, lower, upper⟩ := (covered (t.stop 16 - 1)).mpr
        ⟨t, mem, tf, by unfold Chunk.stop; omega, by unfold Chunk.stop; omega⟩
      cases trimmable pre' t post' split tf last with
      | inr stop =>
          have inside := (tiles.bounds hd).2
          refine .inl ⟨d.addr, (members _).mpr ⟨d, hd, df, rfl⟩, (stops d hd).trans ?_⟩
          omega
      | inl small =>
          refine .inr fun c e extent beyond => ?_
          have ends := extent.spans 16 (ms ++ z :: zs) fun a member => by
            obtain ⟨x, hx, xf, rfl⟩ := (members a).mp member
            exact ⟨x, hx, xf, rfl, stops x hx⟩
          obtain ⟨bytes, x, hx, xf, rfl⟩ := ends
          -- the extent ends where `t` does
          have ahead := beyond d.addr ((members _).mpr ⟨d, hd, df, rfl⟩)
          have reach : t.stop 16 ≤ x.stop 16 := by
            cases tiles.trichotomy hd hx with
            | inl same =>
                subst same
                omega
            | inr apart =>
                unfold Chunk.stop at *
                omega
          cases Nat.lt_or_ge c t.addr with
          | inr start =>
              have final : x.stop 16 ≤ t.stop 16 := by
                obtain ⟨u, hu, uf, -, above⟩ := (covered (x.stop 16 - 1)).mp
                  ⟨x, hx, xf, by unfold Chunk.stop; omega, by unfold Chunk.stop; omega⟩
                have most := (split ▸ whole).last_free_stop last (split ▸ hu) uf
                omega
              unfold Chunk.stop at final
              unfold Chunk.stop
              omega
          | inl start =>
              -- a free chunk would end where `t` starts
              obtain ⟨u, hu, uf, under, above⟩ := (covered (t.addr - 1)).mp
                (bytes _ (by omega) (by unfold Chunk.stop at reach ⊢; omega))
              refine absurd ?_ (isolated.gap (by decide) whole hu mem uf tf)
              cases whole.trichotomy hu mem with
              | inl same =>
                  subst same
                  omega
              | inr apart =>
                  unfold Chunk.stop at *
                  omega

/-- Where the last free chunk is cut although others lie behind it, the last of them
    loses pages. -/
theorem trimmable_of_inside {h₁ h' : Heap} {cs : List Chunk} (rep : h₁.Rep cs)
    (same : h₁.k_heap_end = h.k_heap_end)
    (run : trimTail h₁ = some h')
    (inside : ∀ b ∈ lives cs, b.1 + 16 + b.2 ≤ h'.k_heap_end) : Trimmable h.k_heap_end cs := by
  rintro pre t post rfl tf last
  cases List.eq_nil_or_concat' post with
  | inl none =>
      subst none
      rw [← same]
      exact .inr (Tiles.last_stop pre rep.tiles)
  | inr some =>
      obtain ⟨init, d, rfl⟩ := some
      refine .inl (Nat.le_of_not_lt fun large => ?_)
      have trimmed := trimTail_eq rep tf last
      obtain rfl := Option.some_inj.mp (trimmed.symm.trans run)
      have used := last d (by simp)
      have stop : d.stop 16 = h₁.k_heap_end :=
        Tiles.last_stop (pre ++ t :: init) (by simpa using rep.tiles)
      have member : (d.addr, d.size) ∈ lives (pre ++ t :: (init ++ [d])) := by
        rw [mem_lives, ← used]
        simp
      have below := inside _ member
      have more := surplus_large large
      have within := rep.stop_le (x := d) (by simp)
      have lower : (h₁.cut t.addr (surplus t.size)).k_heap_end =
          h₁.k_heap_end - PAGE_SIZE * surplus t.size := rfl
      unfold Chunk.stop at stop
      rw [lower, more] at below
      unfold PAGE_SIZE at below
      simp only at below
      omega

end Heap

namespace Memory

open Heap

variable {m m' : Memory} {cs pre post : List Chunk} {chunk size fuel tail : Nat}

/-! ## `_kfree` with its page frames -/

theorem trimTail_again (m : Memory) : (trimTail m).bind trimTail = trimTail m := by
  unfold trimTail
  cases last : get_tail m.heap.links () with
  | none => rfl
  | some p =>
      cases p with
      | node t =>
          simp only [Option.bind_eq_bind, Option.bind_some]
          cases run : trim t stepBound m with
          | none => rfl
          | some m' =>
              obtain ⟨links, small⟩ := trim_done (trim_heap run)
              obtain ⟨fuel, hf⟩ : ∃ k, stepBound = k + 1 :=
                ⟨stepBound - 1, by unfold stepBound; rfl⟩
              simp [links, last, hf, trim, Nat.not_lt.mpr small]
      | null => simp [last]
      | _ => rfl

/-- The outer activations find nothing to trim. -/
theorem merge_heap_eq (fuel aux : Nat) (m : Memory) : merge_heap fuel (.node aux) m =
    (coalesce fuel (.node aux) m.heap).bind fun heap => trimTail { m with heap } := by
  induction fuel generalizing aux m with
  | zero => rfl
  | succ fuel ih =>
      have inner (p : Ptr Nat Unit) (m : Memory) : (merge_heap fuel p m).bind trimTail =
          (coalesce fuel p m.heap).bind fun heap => trimTail { m with heap } := by
        cases p with
        | node aux => rw [ih, Option.bind_assoc, funext fun heap => trimTail_again { m with heap }]
        | null => cases fuel <;> rfl
        | _ => cases fuel <;> rfl
      unfold merge_heap coalesce
      by_cases magic : m.heap.magic aux ≠ CHUNK_MAGIC
      · simp [magic]
      · cases next : get_next m.heap.links (.node aux) with
        | none => simp [magic, next]
        | some p =>
            cases addr : addrOf p with
            | none => simp [magic, next, addr]
            | some a =>
                by_cases adjacent : a = add32 (add32 aux (m.heap.size aux)) sizeofChunk
                · cases p with
                  | node z =>
                      cases removed : remove m.heap.links (.node z) with
                      | none => simp [magic, next, addr, adjacent, removed]
                      | some t => simp [magic, next, addr, adjacent, removed, inner]
                  | _ => simp [magic, next, addr, adjacent]
                · simp [magic, next, addr, adjacent, inner]

/-- Pages were cut off the end of the heap, and their frames are free. -/
structure Contracted (m m' : Memory) : Prop where
  keeps : Keeps m m'
  shorter : m'.heap.k_heap_end ≤ m.heap.k_heap_end
  entries : ∀ i, m'.paging.pde i = m.paging.pde i
  frames : ∀ f, f ∈ m'.paging.pages.freePages ↔ f ∈ m.paging.pages.freePages ∨
    ∃ v, m'.heap.k_heap_end ≤ v ∧ v < m.heap.k_heap_end ∧ m.paging.walk v = some f

theorem Contracted.refl (m : Memory) : Contracted m m where
  keeps _ _ _ _ := rfl
  shorter := Nat.le_refl _
  entries _ := rfl
  frames f := by
    constructor
    · exact .inl
    · rintro (old | ⟨v, above, below, -⟩)
      · exact old
      · omega

theorem Contracted.trans {m₁ : Memory} (first : Contracted m m₁) (second : Contracted m₁ m')
    (low : HEAP_START ≤ m'.heap.k_heap_end) : Contracted m m' where
  keeps v hlow _ hv' := by
    have shorter := second.shorter
    have shorter' := first.shorter
    have between : v < m₁.heap.k_heap_end := by omega
    exact (second.keeps v hlow between hv').trans (first.keeps v hlow (by omega) between)
  shorter := Nat.le_trans second.shorter first.shorter
  entries i := (second.entries i).trans (first.entries i)
  frames f := by
    have shorter := second.shorter
    have shorter' := first.shorter
    have same {v : Nat} (above : m'.heap.k_heap_end ≤ v) (below : v < m₁.heap.k_heap_end) :
        m₁.paging.walk v = m.paging.walk v := first.keeps v (by omega) (by omega) below
    rw [second.frames, first.frames]
    constructor
    · rintro ((old | ⟨v, above, below, walk⟩) | ⟨v, above, below, walk⟩)
      · exact .inl old
      · exact .inr ⟨v, by omega, below, walk⟩
      · exact .inr ⟨v, above, by omega, (same above below).symm.trans walk⟩
    · rintro (old | ⟨v, above, below, walk⟩)
      · exact .inl (.inl old)
      · cases Nat.lt_or_ge v m₁.heap.k_heap_end with
        | inl inside => exact .inr ⟨v, above, inside, (same above inside).trans walk⟩
        | inr behind => exact .inl (.inr ⟨v, behind, below, walk⟩)

theorem Shrunk.contracted {f : Nat} (backed : m.Backed)
    (more : HEAP_START + PAGE_SIZE ≤ m.heap.k_heap_end) (shrunk : Shrunk m m' f) :
    Contracted m m' := by
  have keeps := shrunk.keeps backed more
  obtain ⟨mapped, returned, heap_end, -, -⟩ := shrunk
  have whole := backed.whole
  refine ⟨keeps, by omega, returned.entries, fun g => ?_⟩
  rw [returned.free, Finset.mem_insert, or_comm, heap_end]
  refine or_congr_right ⟨fun same => ⟨_, Nat.le_refl _, ?_, same ▸ mapped⟩, ?_⟩
  · unfold PAGE_SIZE at *
    omega
  · rintro ⟨v, above, below, walk⟩
    have page : v / PAGE_SIZE = (m.heap.k_heap_end - PAGE_SIZE) / PAGE_SIZE := by
      unfold PAGE_SIZE at *
      omega
    rw [walk_page page, mapped] at walk
    cases walk
    rfl

/-- The loop cuts off pages of the heap, and no others. -/
theorem trim_kept (backed : m.Backed) (enough : m.heap.size tail < fuel)
    (room : HEAP_START + PAGE_SIZE * surplus (m.heap.size tail) ≤ m.heap.k_heap_end) :
    ∃ m', trim tail fuel m = some m' ∧ m'.Backed ∧ Contracted m m' := by
  induction fuel generalizing m with
  | zero => omega
  | succ fuel ih =>
      by_cases large : m.heap.size tail > PAGE_SIZE
      · rw [surplus_large large, Nat.mul_succ] at room
        have more : HEAP_START + PAGE_SIZE ≤ m.heap.k_heap_end := by omega
        obtain ⟨m₁, f, cut, shrunk⟩ := cutPage_shrunk tail backed more
        have heap_end := shrunk.heap_end
        have less : m₁.heap.size tail = m.heap.size tail - PAGE_SIZE := by
          rw [cutPage_heap cut]
          exact Function.update_self ..
        obtain ⟨m', trimmed, backed', rest⟩ := ih (shrunk.backed backed more).1
          (by rw [less]; unfold PAGE_SIZE at *; omega) (by rw [less, heap_end]; omega)
        refine ⟨m', ?_, backed', (shrunk.contracted backed more).trans rest backed'.low⟩
        rw [trim, if_pos large, cut]
        exact trimmed
      · refine ⟨m, ?_, backed, .refl m⟩
        rw [trim, if_neg large]

theorem trimTail_kept (rep : m.heap.Rep cs) (backed : m.Backed) :
    ∃ m', trimTail m = some m' ∧ m'.Backed ∧ Contracted m m' := by
  cases last_free cs with
  | inl none =>
      refine ⟨m, ?_, backed, .refl m⟩
      have last := get_tail_rep rep
      rw [none] at last
      simp [trimTail, last]
  | inr found =>
      obtain ⟨pre, t, post, rfl, tf, last⟩ := found
      have tail := get_tail_rep rep
      rw [frees_last tf last, orNull_some] at tail
      have size := rep.size t (by simp)
      have stop := rep.stop_le (x := t) (by simp)
      have bounded := rep.bounded
      have short : m.heap.size t.addr < stepBound := by
        unfold stepBound
        omega
      have most := (surplus_le t.size).1
      obtain ⟨m', trimmed, backed', contracted⟩ := trim_kept backed short (by rw [size]; omega)
      refine ⟨m', ?_, backed', contracted⟩
      simp [trimTail, tail, trimmed]

theorem Backed.with_heap (backed : m.Backed) {heap : Heap}
    (same : heap.k_heap_end = m.heap.k_heap_end) : Backed { m with heap } := by
  obtain ⟨kept, whole, start, high, room, mapped, distinct, unmapped⟩ := backed
  rw [← same] at whole start high mapped distinct unmapped
  exact ⟨kept, whole, start, high, room, mapped, distinct, unmapped⟩

/-- `_kfree` joins the chunks, and then cuts the last free one with its pages. -/
theorem kfree_trims (rep : m.heap.Rep (pre ++ ⟨chunk, size, false⟩ :: post)) :
    ∃ h₁ ms z zs, pre ++ ⟨chunk, size, true⟩ :: post = ms ++ z :: zs ∧ z.free ∧
      (∀ m ∈ ms, m.free = false) ∧ h₁.Rep (ms ++ coalesceFrom 16 z zs) ∧
      h₁.k_heap_end = m.heap.k_heap_end ∧
      m._kfree (chunk + 16) = trimTail { m with heap := h₁ } := by
  obtain ⟨back, magic⟩ := rep.block
  obtain ⟨h₀, h₁, ms, z, zs, inserted, head, merged, cut, free, live, rep₁, same⟩ := freed_spec rep
  refine ⟨h₁, ms, z, zs, cut, free, live, rep₁, same, ?_⟩
  simp [_kfree, back, magic, inserted, head, merge_heap_eq, merged]

/-- Freeing a block in use ends, and takes nothing but pages off the end of the heap. -/
theorem kfree_kept (rep : m.heap.Rep (pre ++ ⟨chunk, size, false⟩ :: post)) (backed : m.Backed) :
    ∃ m', m._kfree (chunk + 16) = some m' ∧ m'.Backed ∧ Keeps m m' := by
  obtain ⟨h₁, ms, z, zs, -, -, -, rep₁, same, run⟩ := kfree_trims rep
  obtain ⟨m', trimmed, backed', contracted⟩ := trimTail_kept (m := { m with heap := h₁ }) rep₁
    (backed.with_heap same)
  exact ⟨m', run.trans trimmed, backed', fun v hlow hv => contracted.keeps v hlow (same ▸ hv)⟩

theorem kmalloc_backed {a ptr : Nat} (backed : m.Backed)
    (run : m._kmalloc fuel a = some (ptr, m')) :
    m'.Backed := by
  induction fuel generalizing m a with
  | zero => cases run
  | succ fuel ih =>
      rw [_kmalloc] at run
      obtain ⟨first, -, run⟩ := Option.bind_eq_some_iff.mp run
      obtain ⟨found, -, run⟩ := Option.bind_eq_some_iff.mp run
      cases found with
      | some chunk =>
          obtain ⟨heap, taken, rfl⟩ := take_cases run
          exact backed.with_heap (take_end taken)
      | none =>
          obtain ⟨m₁, grown, again⟩ := Option.bind_eq_some_iff.mp run
          obtain ⟨f, given⟩ := grow_given backed grown
          exact ih (given.backed backed).1 again

/-- The heap is tiled, and only blocks in use are freed. -/
def Formed (m : Memory) (e : MemoryCall) : Prop :=
  ∃ cs, m.heap.Rep cs ∧ ∀ ptr, e = .kfree ptr → ∃ b ∈ lives cs, ptr = b.1 + 16

theorem formed_backed {m₀ : Memory} (start : m₀.Start) (kept : m₀.paging.Kept)
    (reached : Runs.Reach step Formed (· = m₀) m) : m.Backed := by
  refine reached.invariant ?_ fun s e t backed formed run => ?_
  · rintro _ rfl
    exact start.backed kept
  · cases e with
    | kmalloc alloc_sz =>
        obtain ⟨⟨ptr, m₁⟩, called, same⟩ := Option.map_eq_some_iff.mp run
        cases same
        exact kmalloc_backed backed called
    | kfree ptr =>
        obtain ⟨cs, rep, blocks⟩ := formed
        obtain ⟨b, mem, rfl⟩ := blocks ptr rfl
        obtain ⟨pre, post, rfl⟩ := List.append_of_mem (mem_lives.mp mem)
        obtain ⟨m', freed, backed', -⟩ := kfree_kept rep backed
        obtain rfl := Option.some_inj.mp (freed.symm.trans run)
        exact backed'

/-- The block lies below the new `k_heap_end`, and each of its bytes is where it was, in a
    frame that is not free. -/
structure Undisturbed (m m' : Memory) (b : Nat × Nat) : Prop where
  inside : b.1 + 16 + b.2 ≤ m'.heap.k_heap_end
  pages : ∀ v, b.1 ≤ v → v < b.1 + 16 + b.2 → ∃ f, m.paging.walk v = some f ∧
    m'.paging.walk v = some f ∧ f ∉ m'.paging.pages.freePages

/-- A block that lies below the new heap end is undisturbed. -/
theorem undisturbed {b : Nat × Nat} (keeps : Keeps m m') (backed' : m'.Backed)
    (low : HEAP_START ≤ b.1) (high : b.1 + 16 + b.2 ≤ m.heap.k_heap_end)
    (inside : b.1 + 16 + b.2 ≤ m'.heap.k_heap_end) : Undisturbed m m' b := by
  refine ⟨inside, fun v lower upper => ?_⟩
  obtain ⟨f, walk, owned⟩ := backed'.mapped v (by omega) (by omega)
  exact ⟨f, (keeps v (by omega) (by omega) (by omega)).symm.trans walk, walk, owned.used⟩

/-- A `_kfree` leaves the other blocks alone exactly if a free chunk is then at the heap end
    or the last run of free chunks is no larger than a page. -/
theorem kfree_undisturbed {m₀ : Memory} (start : m₀.Start) (kept : m₀.paging.Kept)
    (reached : Runs.Reach step Formed (· = m₀) m) (rep : m.heap.Rep cs)
    (mem : (chunk, size) ∈ lives cs) :
    ∃ m', m._kfree (chunk + 16) = some m' ∧
      ((∀ b ∈ lives cs, b ≠ (chunk, size) → Undisturbed m m' b) ↔ m.heap.KfreeOk chunk) := by
  have backed := formed_backed start kept reached
  have distinct := rep.tiles.lives_nodup (by decide)
  obtain ⟨pre, post, rfl⟩ := List.append_of_mem (mem_lives.mp mem)
  have others {b : Nat × Nat} : b ∈ lives (pre ++ ⟨chunk, size, false⟩ :: post) ∧
      b ≠ (chunk, size) ↔
      b ∈ lives pre ++ lives post := by
    rw [lives_append, lives_cons_live rfl, List.nodup_middle, List.nodup_cons] at distinct
    rw [lives_append, lives_cons_live rfl]
    simp only [List.mem_append, List.mem_cons]
    constructor
    · tauto
    · intro mem
      refine ⟨by tauto, ?_⟩
      rintro rfl
      exact distinct.1 (List.mem_append.mpr mem)
  obtain ⟨m', freed, backed', keeps⟩ := kfree_kept rep backed
  refine ⟨m', freed, fun undisturbed => ?_, fun ok b member other => ?_⟩
  · obtain ⟨h₁, ms, z, zs, cut, free, live, rep₁, same, run⟩ := kfree_eq rep
    refine ok_of_trimmable rep cut free live ?_
    refine trimmable_of_inside rep₁ same (run.symm.trans (kfree_heap freed)) fun b member => ?_
    have kept : lives (ms ++ coalesceFrom 16 z zs) = lives pre ++ lives post := by
      rw [lives_append, coalesceFrom_lives, ← lives_append, ← cut]
      simp
    rw [kept] at member
    obtain ⟨member, other⟩ := others.mpr member
    exact (undisturbed b member other).inside
  · obtain ⟨h', cs', run, rep', used⟩ := kfree_spec rep (releasable_of_ok rep ok)
    obtain rfl := Option.some_inj.mp (run.symm.trans (kfree_heap freed))
    have stop := rep.stop_le (mem_lives.mp member)
    have stop' := rep'.stop_le (mem_lives.mp (used ▸ others.mp ⟨member, other⟩))
    exact Memory.undisturbed keeps backed' stop.1 stop.2 stop'.2

/-! ## A block behind the freed one -/

/-- The first free chunk is wide enough, or there is none and the address space suffices. -/
def ample (m : Memory) (alloc_sz : Nat) : Bool :=
  match get_head m.heap.links () with
  | some (.node c) => align alloc_sz * 2 ≤ m.heap.size c
  | some .null => m.heap.k_heap_end +
      PAGE_SIZE * (1 + Heap.pages (align alloc_sz * 2 - (PAGE_SIZE - 16))) < 2 ^ 32
  | _ => false

def Plain (m : Memory) : MemoryCall → Prop
  | .kmalloc alloc_sz => (1 ≤ alloc_sz ∧ alloc_sz ≤ 2 ^ 30) ∧ m.ample alloc_sz
  | .kfree _ => False

instance (m : Memory) : (e : MemoryCall) → Decidable (Plain m e)
  | .kmalloc alloc_sz =>
      inferInstanceAs (Decidable ((1 ≤ alloc_sz ∧ alloc_sz ≤ 2 ^ 30) ∧ m.ample alloc_sz))
  | .kfree _ => inferInstanceAs (Decidable False)

theorem plain_rep {e : MemoryCall} (rep : m.heap.Rep cs) (plain : Plain m e)
    (run : m.step e = some m') : ∃ cs', m'.heap.Rep cs' := by
  cases e with
  | kfree ptr => cases plain
  | kmalloc n =>
      obtain ⟨⟨pos, small⟩, room⟩ := plain
      obtain ⟨⟨ptr, m₁⟩, called, same⟩ := Option.map_eq_some_iff.mp run
      cases same
      have ok : m.heap.KmallocOk n := by
        have head := get_head_eq rep.list
        unfold ample at room
        rw [head] at room
        cases first : (frees cs).head? with
        | some c =>
            rw [first] at room head
            exact .inl ⟨c, .first head, of_decide_eq_true room⟩
        | none =>
            rw [first] at room
            refine .inr (.inr ⟨fun c on => ?_, of_decide_eq_true room⟩)
            have member := (onFreeList_iff rep.list).mp on
            rw [List.head?_eq_none_iff.mp first] at member
            cases member
      obtain ⟨chunk, size, h', cs', result, rep', -⟩ := kmalloc_spec rep pos small ok
      have result' := kmalloc_heap called
      rw [result] at result'
      cases result'
      exact ⟨cs', rep'⟩

theorem plain_formed (reached : Runs.Reach step Plain (· = ready few) m) :
    Runs.Reach step Formed (· = ready few) m ∧ ∃ cs, m.heap.Rep cs := by
  induction reached with
  | start here =>
      subst here
      exact ⟨.start rfl, [], kheap_init_rep _⟩
  | next _ plain run ih =>
      obtain ⟨reached, cs, rep⟩ := ih
      refine ⟨reached.next ⟨cs, rep, ?_⟩ run, plain_rep rep plain run⟩
      rintro ptr rfl
      cases plain

/-- Blocks that leave no chunk free, the first of them larger than a page. -/
def packed : List MemoryCall :=
  [.kmalloc 5000, .kmalloc 3616, .kmalloc 1808, .kmalloc 896, .kmalloc 432, .kmalloc 208,
   .kmalloc 96, .kmalloc 48, .kmalloc 16]

theorem packed_rep : ∃ m cs, Runs.run step (ready few) packed = some m ∧
    Runs.Reach step Formed (· = ready few) m ∧ m.heap.Rep cs ∧ (HEAP_START, 5008) ∈ lives cs ∧
    ∃ b ∈ lives cs, b ≠ (HEAP_START, 5008) ∧ b.1 + 16 + b.2 = HEAP_START + 12288 := by
  have ends : (Runs.run step (ready few) packed).map (fun m =>
      (get_head m.heap.links (), m.heap.size HEAP_START, m.heap.k_heap_end)) =
      some (.some .null, 5008, HEAP_START + 12288) := by decide +kernel
  have meets : Runs.Meets step Plain (ready few) packed := by decide +kernel
  obtain ⟨m, run, e⟩ := Option.map_eq_some_iff.mp ends
  simp only [Prod.mk.injEq] at e
  obtain ⟨head, first, heap_end⟩ := e
  have start : Runs.Reach step Plain (· = ready few) (ready few) := .start rfl
  obtain ⟨reached, cs, rep⟩ := plain_formed (start.of_run meets run)
  -- no chunk is free
  have live : ∀ c ∈ cs, c.free = false := by
    rw [get_head_eq rep.list] at head
    cases list : frees cs with
    | cons a as =>
        rw [list] at head
        cases head
    | nil =>
        intro c mem
        by_contra free
        have member : c.addr ∈ frees cs := mem_frees.mpr ⟨c, mem, by simpa using free, rfl⟩
        rw [list] at member
        cases member
  have tiles := rep.tiles
  rw [heap_end] at tiles
  cases cs with
  | nil =>
      have empty : HEAP_START = HEAP_START + 12288 := tiles
      omega
  | cons c rest =>
      have addr : c.addr = HEAP_START := tiles.1
      have size : c.size = 5008 := by
        rw [← rep.size c (by simp), addr, first]
      have member {d : Chunk} (mem : d ∈ c :: rest) : (d.addr, d.size) ∈ lives (c :: rest) := by
        rw [mem_lives, ← live d mem]
        exact mem
      refine ⟨m, c :: rest, run, reached, rep, addr ▸ size ▸ member (by simp), ?_⟩
      obtain none | ⟨init, d, some⟩ := List.eq_nil_or_concat' rest
      · subst none
        have stop : c.stop 16 = HEAP_START + 12288 := tiles.2
        unfold Chunk.stop at stop
        omega
      · subst some
        have stop : d.stop 16 = HEAP_START + 12288 := Tiles.last_stop (c :: init) tiles
        refine ⟨_, member (d := d) (by simp), fun same => ?_, stop⟩
        simp only [Prod.mk.injEq] at same
        unfold Chunk.stop at stop
        omega

theorem kfree_undisturbed_packed : ∃ m m' cs, Runs.run step (ready few) packed = some m ∧
    m._kfree (HEAP_START + 16) = some m' ∧
    ((∀ b ∈ lives cs, b ≠ (HEAP_START, 5008) → Undisturbed m m' b) ↔
        m.heap.KfreeOk HEAP_START) := by
  obtain ⟨m, cs, run, reached, rep, mem, -⟩ := packed_rep
  obtain ⟨m', freed, iff⟩ := kfree_undisturbed ready_start few_kept reached rep mem
  exact ⟨m, m', cs, run, freed, iff⟩

/-- Freeing the first block cuts a page off the end of the heap, where another block is. -/
theorem kfree_disturbs : ∃ m m' cs, Runs.Reach step Formed (· = ready few) m ∧ m.heap.Rep cs ∧
    (HEAP_START, 5008) ∈ lives cs ∧ m._kfree (HEAP_START + 16) = some m' ∧
    ∃ b ∈ lives cs, b ≠ (HEAP_START, 5008) ∧ ¬ Undisturbed m m' b := by
  have ends : ((Runs.run step (ready few) packed).bind fun m => m._kfree (HEAP_START + 16)).map
      (fun m => m.heap.k_heap_end) = some (HEAP_START + 8192) := by decide +kernel
  obtain ⟨m, cs, run, reached, rep, mem, b, member, other, stop⟩ := packed_rep
  rw [run, Option.bind_some] at ends
  obtain ⟨m', freed, heap_end⟩ := Option.map_eq_some_iff.mp ends
  refine ⟨m, m', cs, reached, rep, mem, freed, b, member, other, fun undisturbed => ?_⟩
  have inside := undisturbed.inside
  omega

end Memory

end Krypton
