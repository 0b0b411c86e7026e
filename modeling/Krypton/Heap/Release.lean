import Krypton.Heap.Layout

/-! # Freeing on the tiling

`_kfree` links the chunk, `merge_heap` joins adjacent free chunks from the head
of the list on and every activation of it ends by trimming the last free chunk.
The first activation to trim leaves nothing for the others, so a `_kfree` is one
walk that joins chunks and one cut. The cut keeps the tiling where the last free
chunk is no larger than a page or is the last chunk of the heap.
-/

namespace Krypton

open LinkStore Tiling

namespace Heap

section Release

variable {h : Heap} {cs pre post : List Chunk} {x : Chunk}

/-- What `P` says of the last free chunk, if any. -/
def LastFree (P : Chunk → Prop) (cs : List Chunk) : Prop :=
  ∀ pre t post, cs = pre ++ t :: post → t.free → (∀ d ∈ post, d.free = false) → P t

/-- Trimming down to `hi` cuts off nothing but the end of a free chunk. -/
def Trimmable (hi : Nat) : List Chunk → Prop :=
  LastFree fun t => t.size ≤ PAGE_SIZE ∨ t.stop 16 = hi

theorem last_free (cs : List Chunk) : frees cs = [] ∨
    ∃ pre t post, cs = pre ++ t :: post ∧ t.free ∧ ∀ d ∈ post, d.free = false := by
  induction cs with
  | nil => exact .inl rfl
  | cons c cs ih =>
      cases ih with
      | inr found =>
          obtain ⟨pre, t, post, e, last⟩ := found
          exact .inr ⟨c :: pre, t, post, by rw [e, List.cons_append], last⟩
      | inl none =>
          cases hc : c.free with
          | false => exact .inl (by rw [frees_cons_live hc, none])
          | true =>
              refine .inr ⟨[], c, cs, rfl, hc, fun d mem => ?_⟩
              by_contra free
              have : d.addr ∈ frees cs := mem_frees.mpr ⟨d, mem, by simpa using free, rfl⟩
              rw [none] at this
              cases this

theorem frees_last (free : x.free) (last : ∀ d ∈ post, d.free = false) :
    (frees (pre ++ x :: post)).getLast? = some x.addr := by
  simp [free, frees_of_live last]

/-- The heap without the last `k` pages of it and of the chunk `tail`. -/
def cut (h : Heap) (tail k : Nat) : Heap :=
  { h.setSize tail (h.size tail - PAGE_SIZE * k) with k_heap_end := h.k_heap_end - PAGE_SIZE * k }

/-- The pages that are cut off a chunk, so that one at most is left. -/
def surplus (size : Nat) : Nat := (size - 1) / PAGE_SIZE

theorem surplus_le (size : Nat) :
    PAGE_SIZE * surplus size ≤ size ∧ size - PAGE_SIZE * surplus size ≤ PAGE_SIZE := by
  unfold surplus PAGE_SIZE
  omega

theorem surplus_small {size : Nat} (small : size ≤ PAGE_SIZE) : surplus size = 0 := by
  unfold surplus PAGE_SIZE at *
  omega

theorem surplus_large {size : Nat} (large : size > PAGE_SIZE) :
    surplus size = surplus (size - PAGE_SIZE) + 1 := by
  unfold surplus PAGE_SIZE at *
  omega

@[simp] theorem cut_zero (h : Heap) (tail : Nat) : h.cut tail 0 = h := by
  simp [cut, setSize]

theorem cut_cut (h : Heap) (tail j k : Nat) : (h.cut tail j).cut tail k = h.cut tail (j + k) := by
  simp [cut, setSize, Nat.mul_add, Nat.sub_sub]

theorem cut_size (h : Heap) (tail k : Nat) :
    (h.cut tail k).size tail = h.size tail - PAGE_SIZE * k := by
  simp [cut, setSize]

/-- The loop cuts whole pages off the chunk until it has no more than one. -/
theorem trim_eq {tail fuel : Nat} (enough : h.size tail < fuel)
    (inside : h.size tail ≤ h.k_heap_end) (bounded : h.k_heap_end < 2 ^ 32) :
    trim tail fuel h = some (h.cut tail (surplus (h.size tail))) := by
  induction fuel generalizing h with
  | zero => omega
  | succ fuel ih =>
      have page : 0 < PAGE_SIZE := by decide
      by_cases large : h.size tail > PAGE_SIZE
      · have lower : sub32 h.k_heap_end PAGE_SIZE = h.k_heap_end - PAGE_SIZE * 1 := by
          rw [sub32_eq (by omega) bounded, Nat.mul_one]
        have size := h.cut_size tail 1
        have heap_end : (h.cut tail 1).k_heap_end = h.k_heap_end - PAGE_SIZE * 1 := rfl
        have onward : trim tail (fuel + 1) h = trim tail fuel (h.cut tail 1) := by
          rw [trim, if_pos large, cut, ← lower, Nat.mul_one]
          rfl
        rw [onward, ih (by omega) (by omega) (by omega), cut_cut, size, Nat.mul_one,
          surplus_large large, Nat.add_comm]
      · rw [trim, if_neg large, surplus_small (Nat.le_of_not_lt large), cut_zero]

/-- Trimming cuts the last free chunk. -/
theorem trimTail_eq {t : Chunk} (rep : h.Rep (pre ++ t :: post)) (free : t.free)
    (last : ∀ d ∈ post, d.free = false) :
    trimTail h = some (h.cut t.addr (surplus t.size)) := by
  have tail := get_tail_rep rep
  rw [frees_last free last] at tail
  have size := rep.size t (by simp)
  have stop := rep.stop_le (x := t) (by simp)
  have bounded := rep.bounded
  have short : h.size t.addr < stepBound := by
    unfold stepBound
    omega
  have trimmed := trim_eq short (by omega) bounded
  rw [size] at trimmed
  simpa [trimTail, tail] using trimmed

theorem trimTail_none (rep : h.Rep cs) (none_free : frees cs = []) : trimTail h = some h := by
  have tail := get_tail_rep rep
  rw [none_free] at tail
  simp [trimTail, tail]

/-- The last chunk of the heap is cut. -/
theorem cut_rep {t : Chunk} (rep : h.Rep (pre ++ [t])) (free : t.free) {k : Nat}
    (enough : PAGE_SIZE * k ≤ t.size) :
    (h.cut t.addr k).Rep (pre ++ [{ t with size := t.size - PAGE_SIZE * k }]) := by
  have mem : t ∈ pre ++ [t] := by simp
  have size := rep.size t mem
  have bounded := rep.bounded
  obtain ⟨mid, before, rfl, hstop⟩ := tiles_append.mp rep.tiles
  have tiles' : Tiles 16 HEAP_START (pre ++ ([{ t with size := t.size - PAGE_SIZE * k }] ++ []))
      (h.k_heap_end - PAGE_SIZE * k) := by
    refine tiles_append.mpr ⟨_, before, rfl, ?_⟩
    simp [Tiles, Chunk.stop] at hstop ⊢
    omega
  have others : ∀ c ∈ pre ++ [], c.addr ≠ t.addr := by
    intro c hc
    have apart := rep.others hc
    omega
  have list := rep.list
  rw [frees_append, frees_cons_free free] at list
  have rep' : (h.cut t.addr k).Rep
      (pre ++ ([{ t with size := t.size - PAGE_SIZE * k }] ++ [])) := by
    refine rep.replace tiles' (by simpa [free, cut] using list) ?_ ?_ ?_
    · simp [cut, setSize, rep.magic t mem, size]
    · intro c hc
      simp [cut, setSize, others c hc]
    · simp only [cut]
      omega
  simpa using rep'

theorem trimTail_spec (rep : h.Rep cs) (ok : Trimmable h.k_heap_end cs) :
    ∃ h' cs', trimTail h = some h' ∧ h'.Rep cs' ∧ lives cs' = lives cs := by
  cases last_free cs with
  | inl none => exact ⟨h, cs, trimTail_none rep none, rep, rfl⟩
  | inr found =>
      obtain ⟨pre, t, post, rfl, free, last⟩ := found
      have trimmed := trimTail_eq rep free last
      cases ok pre t post rfl free last with
      | inl small =>
          rw [surplus_small small, cut_zero] at trimmed
          exact ⟨h, _, trimmed, rep, rfl⟩
      | inr stop =>
          obtain rfl := rep.last stop
          exact ⟨_, _, trimmed, cut_rep rep free (surplus_le t.size).1, by simp [free]⟩

/-- Joining a free chunk with the free chunk behind it. -/
theorem join_spec {z : Chunk} (rep : h.Rep (pre ++ x :: z :: post)) (free : x.free)
    (free' : z.free) :
    ∃ t, remove h.links (.node z.addr) = some t ∧
      Rep { h.setSize x.addr (x.size + (z.size + 16)) with links := t }
        (pre ++ x.join 16 z :: post) := by
  have list := rep.list
  rw [frees_append, frees_cons_free free, frees_cons_free free', List.append_cons] at list
  obtain ⟨t, ht, list'⟩ := remove_list _ _ list
  obtain ⟨mid, before, after⟩ := tiles_append.mp rep.tiles
  have joined : (x.join 16 z).free := free
  refine ⟨t, ht, tiles_append.mpr ⟨mid, before, after.join⟩, ?_, ?_, ?_, rep.bounded⟩
  · rw [frees_append, frees_cons_free joined]
    simpa using list'
  · intro c mem
    by_cases same : c = x.join 16 z
    · simp [same, setSize, Chunk.join]
    · have mem : c ∈ pre ++ z :: post := by simp [same] at mem ⊢; tauto
      have apart := rep.others mem
      have away : c.addr ≠ x.addr := by omega
      simpa [setSize, away] using rep.size c (by simp at mem ⊢; tauto)
  · intro c mem
    by_cases same : c = x.join 16 z
    · subst same
      exact rep.magic x (by simp)
    · exact rep.magic c (by simp [same] at mem ⊢; tauto)

/-- What the activations of `merge_heap` do before the first one trims. -/
def coalesce : (fuel : Nat) → Ptr Nat Unit → Heap → Option Heap
  | _, .null, h => some h
  | fuel + 1, .node aux, h => do
      if h.magic aux ≠ CHUNK_MAGIC then none
      let aux_next ← get_next h.links (.node aux)
      if (← addrOf aux_next) = add32 (add32 aux (h.size aux)) sizeofChunk then
        let .node next := aux_next | none
        let h := h.setSize aux (add32 (h.size aux) (add32 (h.size next) sizeofChunk))
        coalesce fuel (.node aux) { h with links := ← remove h.links (.node next) }
      else coalesce fuel (← get_next h.links (.node aux)) h
  | _, _, _ => none

theorem trim_done {tail fuel : Nat} {h' : Heap} (run : trim tail fuel h = some h') :
    h'.links = h.links ∧ h'.size tail ≤ PAGE_SIZE := by
  induction fuel generalizing h with
  | zero => cases run
  | succ fuel ih =>
      unfold trim at run
      split at run
      · have rest := ih run
        exact rest
      · cases run
        exact ⟨rfl, by omega⟩

theorem trimTail_again (h : Heap) : (trimTail h).bind trimTail = trimTail h := by
  unfold trimTail
  cases tail : get_tail h.links () with
  | none => rfl
  | some p =>
      cases p with
      | node t =>
          simp only [Option.bind_eq_bind, Option.bind_some]
          cases run : trim t stepBound h with
          | none => rfl
          | some h' =>
              obtain ⟨links, small⟩ := trim_done run
              obtain ⟨fuel, hf⟩ : ∃ k, stepBound = k + 1 :=
                ⟨stepBound - 1, by unfold stepBound; rfl⟩
              simp [links, tail, hf, trim, Nat.not_lt.mpr small]
      | null => simp [tail]
      | _ => rfl

/-- The outer activations find nothing to trim. -/
theorem merge_heap_eq (fuel aux : Nat) (h : Heap) :
    merge_heap fuel (.node aux) h = (coalesce fuel (.node aux) h).bind trimTail := by
  induction fuel generalizing aux h with
  | zero => rfl
  | succ fuel ih =>
      have inner (p : Ptr Nat Unit) (h : Heap) :
          (merge_heap fuel p h).bind trimTail = (coalesce fuel p h).bind trimTail := by
        cases p with
        | node aux => rw [ih, Option.bind_assoc, funext trimTail_again]
        | null => cases fuel <;> rfl
        | _ => cases fuel <;> rfl
      unfold merge_heap coalesce
      by_cases magic : h.magic aux ≠ CHUNK_MAGIC
      · simp [magic]
      · cases next : get_next h.links (.node aux) with
        | none => simp [magic]
        | some p =>
            cases addr : addrOf p with
            | none => simp [magic, addr]
            | some a =>
                by_cases adjacent : a = add32 (add32 aux (h.size aux)) sizeofChunk
                · cases p with
                  | node z =>
                      cases removed : remove h.links (.node z) with
                      | none => simp [magic, addr, adjacent, removed]
                      | some t => simp [magic, addr, adjacent, removed, inner]
                  | _ => simp [magic, addr, adjacent]
                · simp [magic, addr, adjacent, inner]

/-- The walk from the free chunk `x` joins every two free chunks that follow each other. -/
theorem coalesce_spec (rest : List Chunk) (rep : h.Rep (pre ++ x :: rest)) (free : x.free)
    {fuel : Nat} (enough : rest.length < fuel) :
    ∃ h', coalesce fuel (.node x.addr) h = some h' ∧ h'.Rep (pre ++ coalesceFrom 16 x rest) ∧
      h'.k_heap_end = h.k_heap_end := by
  induction fuel generalizing h pre x rest with
  | zero => omega
  | succ fuel ih =>
      have mem : x ∈ pre ++ x :: rest := by simp
      have stop := rep.stop_le mem
      have bounded := rep.bounded
      have magic := rep.magic x mem
      have size := rep.size x mem
      have list := rep.list
      rw [frees_append, frees_cons_free free] at list
      have next := get_next_eq list
      have inner : add32 x.addr x.size = x.addr + x.size := add32_eq (by omega)
      have end_addr : add32 (add32 x.addr (h.size x.addr)) sizeofChunk = x.addr + x.size + 16 := by
        rw [size, inner, add32_sizeofChunk (by omega)]
      have heap_low : 0 < HEAP_START := by decide
      obtain ⟨ms, live, behind⟩ := first_free rest
      cases behind with
      | inl e =>
          -- `x` is the last free chunk
          subst e
          rw [coalesceFrom_all_live live]
          rw [frees_of_live live, List.head?_nil, orNull_none] at next
          refine ⟨h, ?_, rep, rfl⟩
          have apart : ¬ 0 = x.addr + x.size + 16 := by omega
          cases fuel <;> simp [coalesce, magic, next, addrOf, end_addr]
      | inr found =>
          obtain ⟨z, zs, free', e⟩ := found
          subst e
          have onward : get_next h.links (.node x.addr) = some (.node z.addr) := by
            simpa [frees_of_live live, free'] using next
          have shorter : zs.length < fuel := by
            simp only [List.length_append, List.length_cons] at enough
            omega
          cases ms with
          | nil =>
              obtain ⟨t, ht, joined⟩ := join_spec rep free free'
              have adjacent : z.addr = x.addr + x.size + 16 := by
                obtain ⟨mid, -, -, next, -⟩ := tiles_append.mp rep.tiles
                unfold Chunk.stop at next
                omega
              have zstop := rep.stop_le (x := z) (by simp)
              have zsize := rep.size z (by simp)
              have grown : add32 (h.size x.addr) (add32 (h.size z.addr) sizeofChunk) =
                  x.size + (z.size + 16) := by
                rw [size, zsize, add32_sizeofChunk (by omega), add32_eq (by omega)]
              rw [List.nil_append, coalesceFrom, if_pos ⟨free, free'⟩]
              obtain ⟨h', merged, rep', same⟩ := ih zs joined free shorter
              refine ⟨h', ?_, rep', same⟩
              rw [Chunk.join_addr] at merged
              simp [coalesce, magic, onward, addrOf, end_addr, ← adjacent, grown, ht, merged]
          | cons m ms =>
              -- chunks in use end the run of `x`
              have apart : z.addr ≠ x.addr + x.size + 16 := by
                have first := rep.behind (c := m) (by simp)
                have cut : pre ++ x :: (m :: ms ++ z :: zs) = (pre ++ x :: m :: ms) ++ z :: zs := by
                  simp
                have second := (cut ▸ rep).before (c := m) (by simp)
                omega
              have cut : pre ++ x :: (m :: ms ++ z :: zs) = (pre ++ x :: m :: ms) ++ z :: zs := by
                simp
              obtain ⟨h', merged, rep', same⟩ := ih zs (cut ▸ rep) free' shorter
              refine ⟨h', ?_, ?_, same⟩
              · simp [coalesce, magic, onward, addrOf, end_addr, apart, merged]
              · rw [coalesceFrom_live (by simp) live]
                simpa using rep'

/-! ## `_kfree` -/

/-- A free chunk starts the coalescing of the chunks `cs`, which ends trimmable. -/
def Releasable (hi : Nat) (cs : List Chunk) : Prop :=
  ∀ ms z zs, cs = ms ++ z :: zs → z.free → (∀ m ∈ ms, m.free = false) →
    Trimmable hi (ms ++ coalesceFrom 16 z zs)

/-- A freed chunk joins the free ones, and the walk of `merge_heap` starts at the first of them. -/
theorem freed_spec {chunk size : Nat} (rep : h.Rep (pre ++ ⟨chunk, size, false⟩ :: post)) :
    ∃ h₀ h₁ ms z zs, h.insert_chunk chunk = some h₀ ∧ get_head h₀.links () = some (.node z.addr) ∧
      coalesce stepBound (.node z.addr) h₀ = some h₁ ∧
      pre ++ ⟨chunk, size, true⟩ :: post = ms ++ z :: zs ∧ z.free ∧
      (∀ m ∈ ms, m.free = false) ∧ h₁.Rep (ms ++ coalesceFrom 16 z zs) ∧
      h₁.k_heap_end = h.k_heap_end := by
  have mem : ⟨chunk, size, false⟩ ∈ pre ++ ⟨chunk, size, false⟩ :: post := by simp
  have magic : h.magic chunk = CHUNK_MAGIC := rep.magic _ mem
  have bounded := rep.bounded
  have list := rep.list
  rw [frees_append, frees_cons_live rfl] at list
  have short : (frees pre).length < stepBound := by
    have total := rep.length_lt
    have count := frees_length_le pre
    simp only [List.length_append] at total
    omega
  have below : ∀ a ∈ frees pre, a < chunk := rep.frees_before
  have above : ∀ a ∈ frees post, chunk < a := fun a mem => by
    have : chunk + 16 + size ≤ a := rep.frees_behind a mem
    omega
  obtain ⟨t, inserted, list'⟩ := insert_chunk_spec _ _ h list below above short
  -- the chunk has joined the free ones
  have rep' : Rep { h with links := t } (pre ++ ([⟨chunk, size, true⟩] ++ post)) := by
    refine rep.replace ?_ (by simpa using list') ?_ (fun _ _ => ⟨rfl, rfl⟩) bounded
    · obtain ⟨mid, before, after⟩ := tiles_append.mp rep.tiles
      exact tiles_append.mpr ⟨mid, before, after⟩
    · have same : h.size chunk = size := rep.size _ mem
      simp [magic, same]
  rw [List.singleton_append] at rep'
  obtain ⟨ms, live, behind⟩ := first_free (pre ++ ⟨chunk, size, true⟩ :: post)
  cases behind with
  | inl all =>
      have : (⟨chunk, size, true⟩ : Chunk).free = false := live _ (all ▸ by simp)
      cases this
  | inr found =>
      obtain ⟨z, zs, free, cut⟩ := found
      have head := get_head_eq rep'.list
      rw [cut, frees_append, frees_of_live live, List.nil_append, frees_cons_free free,
        List.head?_cons, orNull_some] at head
      have count := rep'.length_lt
      rw [cut] at rep' count
      have enough : zs.length < stepBound := by
        simp only [List.length_append, List.length_cons] at count
        omega
      obtain ⟨h₁, merged, rep₁, same⟩ := coalesce_spec zs rep' free enough
      exact ⟨_, h₁, ms, z, zs, inserted, head, merged, cut, free, live, rep₁, same⟩

/-- The chunk of a block in use, as `_kfree` finds it. -/
theorem Rep.block {chunk size : Nat} (rep : h.Rep (pre ++ ⟨chunk, size, false⟩ :: post)) :
    sub32 (chunk + 16) sizeofChunk = chunk ∧ h.magic chunk = CHUNK_MAGIC := by
  have mem : ⟨chunk, size, false⟩ ∈ pre ++ ⟨chunk, size, false⟩ :: post := by simp
  have stop : HEAP_START ≤ chunk ∧ chunk + 16 + size ≤ h.k_heap_end := rep.stop_le mem
  have bounded := rep.bounded
  exact ⟨sub32_sizeofChunk (by omega), rep.magic _ mem⟩

/-- `_kfree` joins the chunks from the first free one on, and cuts the last free one. -/
theorem kfree_eq {chunk size : Nat} (rep : h.Rep (pre ++ ⟨chunk, size, false⟩ :: post)) :
    ∃ h₁ ms z zs, pre ++ ⟨chunk, size, true⟩ :: post = ms ++ z :: zs ∧ z.free ∧
      (∀ m ∈ ms, m.free = false) ∧ h₁.Rep (ms ++ coalesceFrom 16 z zs) ∧
      h₁.k_heap_end = h.k_heap_end ∧ h._kfree (chunk + 16) = trimTail h₁ := by
  obtain ⟨back, magic⟩ := rep.block
  obtain ⟨h₀, h₁, ms, z, zs, inserted, head, merged, cut, free, live, rep₁, same⟩ := freed_spec rep
  refine ⟨h₁, ms, z, zs, cut, free, live, rep₁, same, ?_⟩
  simp [_kfree, back, magic, inserted, head, merge_heap_eq, merged]

/-- Freeing a chunk whose release is trimmable takes it out of use and changes
    no other chunk in use. -/
theorem kfree_spec {chunk size : Nat} (rep : h.Rep (pre ++ ⟨chunk, size, false⟩ :: post))
    (ok : Releasable h.k_heap_end (pre ++ ⟨chunk, size, true⟩ :: post)) :
    ∃ h' cs', h._kfree (chunk + 16) = some h' ∧ h'.Rep cs' ∧
      lives cs' = lives pre ++ lives post := by
  obtain ⟨h₁, ms, z, zs, cut, free, live, rep₁, same, run⟩ := kfree_eq rep
  have used : lives (ms ++ coalesceFrom 16 z zs) = lives pre ++ lives post := by
    rw [lives_append, coalesceFrom_lives, ← lives_append, ← cut]
    simp
  have trimmable := ok ms z zs cut free live
  rw [← same] at trimmable
  obtain ⟨h', cs', trimmed, rep', kept⟩ := trimTail_spec rep₁ trimmable
  exact ⟨h', cs', run.trans trimmed, rep', kept.trans used⟩

end Release

end Heap

end Krypton
