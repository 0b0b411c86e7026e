import Mathlib.Data.List.Basic
import Mathlib.Data.List.Chain
import Mathlib.Data.List.Perm.Basic
import Mathlib.Algebra.GroupWithZero.Nat
import Mathlib.Logic.Basic

/-! # Chunks that tile an address range

A chunk is a header of `hdr` bytes and the `size` bytes behind it, and is free
or in use. `Tiles` says that a list of chunks covers a range of addresses
without gap or overlap. `coalesceFrom` joins adjacent free chunks; an `Extent`
is a run of them, told from their addresses alone.
-/

namespace Tiling

structure Chunk where
  addr : Nat
  size : Nat
  free : Bool
  deriving DecidableEq, Repr

/-- The first address behind a chunk. -/
def Chunk.stop (hdr : Nat) (c : Chunk) : Nat := c.addr + hdr + c.size

/-- The chunks follow each other from `lo` to `hi`. -/
def Tiles (hdr : Nat) : (lo : Nat) → List Chunk → (hi : Nat) → Prop
  | lo, [], hi => lo = hi
  | lo, c :: cs, hi => c.addr = lo ∧ Tiles hdr (c.stop hdr) cs hi

/-- The addresses of the free chunks. -/
def frees (cs : List Chunk) : List Nat := (cs.filter (·.free)).map (·.addr)

/-- The chunks in use, with their sizes. -/
def lives (cs : List Chunk) : List (Nat × Nat) :=
  (cs.filter (!·.free)).map fun c => (c.addr, c.size)

/-- The bytes of the chunks that are free, or not, without their headers. -/
def bytes (free : Bool) (cs : List Chunk) : Nat := ((cs.filter (·.free = free)).map (·.size)).sum

/-- The byte at `b` belongs to a free chunk. -/
def Covered (hdr : Nat) (cs : List Chunk) (b : Nat) : Prop :=
  ∃ c ∈ cs, c.free ∧ c.addr ≤ b ∧ b < c.stop hdr

/-- No free chunk follows another. -/
def Isolated (cs : List Chunk) : Prop := cs.IsChain fun c d => ¬ (c.free ∧ d.free)

section Parts

variable {c : Chunk} {cs ds : List Chunk}

@[simp] theorem frees_nil : frees [] = [] := rfl
@[simp] theorem lives_nil : lives [] = [] := rfl

@[simp] theorem frees_append : frees (cs ++ ds) = frees cs ++ frees ds := by simp [frees]
@[simp] theorem lives_append : lives (cs ++ ds) = lives cs ++ lives ds := by simp [lives]

@[simp] theorem frees_cons_free (h : c.free) : frees (c :: cs) = c.addr :: frees cs := by
  simp [frees, h]

@[simp] theorem frees_cons_live (h : c.free = false) : frees (c :: cs) = frees cs := by
  simp [frees, h]

@[simp] theorem lives_cons_free (h : c.free) : lives (c :: cs) = lives cs := by
  simp [lives, h]

@[simp] theorem lives_cons_live (h : c.free = false) :
    lives (c :: cs) = (c.addr, c.size) :: lives cs := by
  simp [lives, h]

theorem mem_frees {a : Nat} : a ∈ frees cs ↔ ∃ c ∈ cs, c.free ∧ c.addr = a := by
  simp [frees, and_assoc]

theorem mem_lives {b : Nat × Nat} : b ∈ lives cs ↔ ⟨b.1, b.2, false⟩ ∈ cs := by
  simp only [lives, List.mem_map, List.mem_filter]
  constructor
  · intro ⟨c, ⟨mem, live⟩, e⟩
    subst e
    cases c with
    | mk addr size free =>
        simp only [Bool.not_eq_true'] at live
        exact live ▸ mem
  · intro mem
    exact ⟨_, ⟨mem, rfl⟩, rfl⟩

theorem Isolated.append (live : ∀ c ∈ cs, c.free = false) (h : Isolated ds) :
    Isolated (cs ++ ds) := by
  induction cs with
  | nil => exact h
  | cons c cs ih =>
      refine List.isChain_cons.mpr ⟨fun d _ both => ?_, ih fun c mem => live c (.tail _ mem)⟩
      rw [live c (.head _)] at both
      cases both.1

theorem covered_append {hdr b : Nat} :
    Covered hdr (cs ++ ds) b ↔ Covered hdr cs b ∨ Covered hdr ds b := by
  simp [Covered, or_and_right, exists_or]

theorem covered_cons {hdr b : Nat} : Covered hdr (c :: cs) b ↔
    (c.free ∧ c.addr ≤ b ∧ b < c.stop hdr) ∨ Covered hdr cs b := by
  simp [Covered]

theorem frees_length_le (cs : List Chunk) : (frees cs).length ≤ cs.length := by
  rw [frees, List.length_map]
  exact List.length_filter_le ..

/-- A list of chunks is a run of chunks in use, then nothing or a free chunk. -/
theorem first_free (cs : List Chunk) : ∃ ms, (∀ m ∈ ms, m.free = false) ∧
    (cs = ms ∨ ∃ z zs, z.free ∧ cs = ms ++ z :: zs) := by
  induction cs with
  | nil => exact ⟨[], by simp, .inl rfl⟩
  | cons c cs ih =>
      cases hc : c.free with
      | true => exact ⟨[], by simp, .inr ⟨c, cs, hc, rfl⟩⟩
      | false =>
          obtain ⟨ms, live, rest⟩ := ih
          refine ⟨c :: ms, by simpa [hc] using live, ?_⟩
          cases rest with
          | inl e => exact .inl (e ▸ rfl)
          | inr found =>
              obtain ⟨z, zs, free, e⟩ := found
              exact .inr ⟨z, zs, free, e ▸ rfl⟩

theorem frees_of_live (h : ∀ c ∈ cs, c.free = false) : frees cs = [] := by
  simpa [frees, List.filter_eq_nil_iff] using h

end Parts

section Geometry

variable {hdr lo mid hi : Nat} {c d : Chunk} {cs ds : List Chunk}

theorem tiles_append : Tiles hdr lo (cs ++ ds) hi ↔
    ∃ mid, Tiles hdr lo cs mid ∧ Tiles hdr mid ds hi := by
  induction cs generalizing lo with
  | nil => simp [Tiles]
  | cons c cs ih => simp [Tiles, ih, and_assoc]

theorem Tiles.le (h : Tiles hdr lo cs hi) : lo + hdr * cs.length ≤ hi := by
  induction cs generalizing lo with
  | nil => exact Nat.le_of_eq h
  | cons c cs ih =>
      obtain ⟨rfl, rest⟩ := h
      have := ih rest
      rw [Chunk.stop] at this
      rw [List.length_cons, Nat.mul_succ]
      omega

/-- Free bytes, bytes in use and headers are all there is. -/
theorem Tiles.bytes (h : Tiles hdr lo cs hi) :
    lo + (bytes true cs + bytes false cs + hdr * cs.length) = hi := by
  induction cs generalizing lo with
  | nil => exact h
  | cons c cs ih =>
      obtain ⟨rfl, rest⟩ := h
      have more := ih rest
      have heads : hdr * (cs.length + 1) = hdr * cs.length + hdr := Nat.mul_succ ..
      unfold Chunk.stop at more
      cases free : c.free <;> simp [Tiling.bytes, free, heads] at more ⊢ <;> omega

theorem Tiles.bounds (h : Tiles hdr lo cs hi) (mem : c ∈ cs) : lo ≤ c.addr ∧ c.stop hdr ≤ hi := by
  obtain ⟨xs, ys, rfl⟩ := List.append_of_mem mem
  obtain ⟨mid, before, rfl, after⟩ := tiles_append.mp h
  have := before.le
  have := after.le
  omega

theorem Tiles.last_stop (cs : List Chunk) (h : Tiles hdr lo (cs ++ [c]) hi) : c.stop hdr = hi := by
  obtain ⟨mid, -, -, stop⟩ := tiles_append.mp h
  exact stop

/-- Chunks do not overlap, and stand in the order of their addresses. -/
theorem Tiles.apart (h : Tiles hdr lo cs hi) : cs.Pairwise fun c d => c.stop hdr ≤ d.addr := by
  induction cs generalizing lo with
  | nil => exact .nil
  | cons c cs ih =>
      obtain ⟨rfl, rest⟩ := h
      exact .cons (fun d mem => (rest.bounds mem).1) (ih rest)

/-- Two chunks are the same or one lies behind the other. -/
theorem Tiles.trichotomy (h : Tiles hdr lo cs hi) (hc : c ∈ cs) (hd : d ∈ cs) :
    c = d ∨ c.stop hdr ≤ d.addr ∨ d.stop hdr ≤ c.addr := by
  obtain ⟨xs, ys, rfl⟩ := List.append_of_mem hc
  have apart := List.pairwise_append.mp h.apart
  rcases List.mem_append.mp hd with front | back
  · exact .inr (.inr (apart.2.2 d front c (by simp)))
  · rcases List.mem_cons.mp back with rfl | back
    · exact .inl rfl
    · exact .inr (.inl ((List.pairwise_cons.mp apart.2.1).1 d back))

theorem Tiles.addr_inj (pos : 0 < hdr) (h : Tiles hdr lo cs hi) (hc : c ∈ cs) (hd : d ∈ cs)
    (same : c.addr = d.addr) : c = d := by
  rcases h.trichotomy hc hd with e | e | e
  · exact e
  · rw [Chunk.stop] at e; omega
  · rw [Chunk.stop] at e; omega

/-- A chunk in use, or more, lies between two free chunks. -/
theorem Isolated.gap (isolated : Isolated cs) (pos : 0 < hdr) (h : Tiles hdr lo cs hi) (hc : c ∈ cs)
    (hd : d ∈ cs) (cf : c.free) (df : d.free) : c.stop hdr ≠ d.addr := by
  intro next
  obtain ⟨xs, ys, rfl⟩ := List.append_of_mem hc
  obtain ⟨mid, -, rfl, after⟩ := tiles_append.mp h
  cases ys with
  | nil =>
      have inside := (h.bounds hd).2
      have last : c.stop hdr = hi := after
      unfold Chunk.stop at *
      omega
  | cons y ys =>
      have same : y = d := h.addr_inj pos (by simp) hd (after.1.trans next)
      exact List.isChain_iff_forall_rel_of_append_cons_cons.mp isolated rfl ⟨cf, same ▸ df⟩

/-- The last free chunk ends behind every free chunk. -/
theorem Tiles.last_free_stop (h : Tiles hdr lo (cs ++ c :: ds) hi)
    (last : ∀ d ∈ ds, d.free = false) (mem : d ∈ cs ++ c :: ds) (free : d.free) :
    d.stop hdr ≤ c.stop hdr := by
  have apart := List.pairwise_append.mp h.apart
  rcases List.mem_append.mp mem with front | back
  · have := apart.2.2 d front c List.mem_cons_self
    unfold Chunk.stop at this ⊢
    omega
  · rcases List.mem_cons.mp back with rfl | back
    · exact Nat.le_refl _
    · rw [last d back] at free
      cases free

/-- The chunks in use are listed once. -/
theorem Tiles.lives_nodup (pos : 0 < hdr) (h : Tiles hdr lo cs hi) : (lives cs).Nodup := by
  have distinct : cs.Pairwise fun c d => (c.addr, c.size) ≠ (d.addr, d.size) :=
    h.apart.imp fun {c d} before same => by
      have := congrArg Prod.fst same
      rw [Chunk.stop] at before
      simp only at this
      omega
  rw [lives, List.Nodup, List.pairwise_map]
  exact distinct.filter _

end Geometry

/-! ## Coalescing -/

/-- The chunk that swallowed the one behind it, header included. -/
def Chunk.join (hdr : Nat) (x y : Chunk) : Chunk := { x with size := x.size + (y.size + hdr) }

/-- `x` and the chunks behind it, with adjacent free chunks joined. -/
def coalesceFrom (hdr : Nat) (x : Chunk) : List Chunk → List Chunk
  | [] => [x]
  | y :: ys =>
      if x.free ∧ y.free then coalesceFrom hdr (x.join hdr y) ys else x :: coalesceFrom hdr y ys

/-- From `c` on, chunks of `F` follow each other without a gap up to `e`. -/
inductive Extent (F : Nat → Prop) (stopOf : Nat → Nat) (c : Nat) : Nat → Prop
  | one : F c → Extent F stopOf c (stopOf c)
  | more : Extent F stopOf c e → F e → Extent F stopOf c (stopOf e)

section Coalesce

variable {hdr lo hi : Nat} {x y : Chunk} {ys : List Chunk}

@[simp] theorem Chunk.join_addr : (x.join hdr y).addr = x.addr := rfl
@[simp] theorem Chunk.join_free : (x.join hdr y).free = x.free := rfl

theorem Chunk.join_stop (next : y.addr = x.stop hdr) : (x.join hdr y).stop hdr = y.stop hdr := by
  unfold Chunk.stop at next ⊢
  rw [next]
  simp only [Chunk.join]
  omega

theorem Tiles.join (h : Tiles hdr lo (x :: y :: ys) hi) : Tiles hdr lo (x.join hdr y :: ys) hi := by
  obtain ⟨first, next, rest⟩ := h
  refine ⟨first, ?_⟩
  rw [Chunk.join_stop next]
  exact rest

theorem coalesceFrom_tiles (h : Tiles hdr lo (x :: ys) hi) :
    Tiles hdr lo (coalesceFrom hdr x ys) hi := by
  induction ys generalizing lo x with
  | nil => exact h
  | cons y ys ih =>
      unfold coalesceFrom
      split
      · exact ih h.join
      · exact ⟨h.1, ih h.2⟩

theorem coalesceFrom_lives : lives (coalesceFrom hdr x ys) = lives (x :: ys) := by
  induction ys generalizing x with
  | nil => rfl
  | cons y ys ih =>
      unfold coalesceFrom
      split
      next both =>
        have joined : (x.join hdr y).free := both.1
        rw [ih, lives_cons_free joined, lives_cons_free both.1, lives_cons_free both.2]
      next =>
        rw [← List.singleton_append, lives_append, ih, ← lives_append, List.singleton_append]

theorem coalesceFrom_head (hdr : Nat) (x : Chunk) (ys : List Chunk) :
    ∃ zs size, coalesceFrom hdr x ys = { x with size := size } :: zs := by
  induction ys generalizing x with
  | nil => exact ⟨[], x.size, rfl⟩
  | cons y ys ih =>
      unfold coalesceFrom
      split
      · exact ih (x := x.join hdr y)
      · exact ⟨_, x.size, rfl⟩

theorem coalesceFrom_first (hdr : Nat) (ys : List Chunk) (free : x.free) :
    x.addr ∈ frees (coalesceFrom hdr x ys) := by
  obtain ⟨zs, size, e⟩ := coalesceFrom_head hdr x ys
  simp [e, free]

theorem coalesceFrom_isolated : Isolated (coalesceFrom hdr x ys) := by
  induction ys generalizing x with
  | nil => exact .singleton x
  | cons y ys ih =>
      unfold coalesceFrom
      split
      next => exact ih
      next apart =>
        have rest := ih (x := y)
        obtain ⟨zs, size, e⟩ := coalesceFrom_head hdr y ys
        rw [e] at rest ⊢
        exact .cons_cons apart rest

/-- Every free chunk lies within a free chunk of the result. -/
theorem coalesceFrom_covers (h : Tiles hdr lo (x :: ys) hi) {d : Chunk} (mem : d ∈ x :: ys)
    (free : d.free) :
    ∃ t ∈ coalesceFrom hdr x ys, t.free ∧ t.addr ≤ d.addr ∧ d.stop hdr ≤ t.stop hdr := by
  induction ys generalizing lo x d with
  | nil => exact ⟨d, by simpa [coalesceFrom] using mem, free, Nat.le_refl _, Nat.le_refl _⟩
  | cons y ys ih =>
      unfold coalesceFrom
      split
      next both =>
        -- the joined chunk covers both of its parts
        obtain ⟨d', mem', free', below, above⟩ : ∃ d' ∈ x.join hdr y :: ys, d'.free ∧
            d'.addr ≤ d.addr ∧ d.stop hdr ≤ d'.stop hdr := by
          obtain ⟨-, next, -⟩ := h
          have stop := Chunk.join_stop next
          unfold Chunk.stop at next stop ⊢
          rcases List.mem_cons.mp mem with rfl | mem
          · exact ⟨_, List.mem_cons_self, free, Nat.le_refl _, by omega⟩
          · rcases List.mem_cons.mp mem with rfl | mem
            · exact ⟨_, List.mem_cons_self, both.1, by simp; omega, Nat.le_of_eq stop.symm⟩
            · exact ⟨d, List.mem_cons_of_mem _ mem, free, Nat.le_refl _, Nat.le_refl _⟩
        obtain ⟨t, ht, tf, below', above'⟩ := ih h.join mem' free'
        exact ⟨t, ht, tf, Nat.le_trans below' below, Nat.le_trans above above'⟩
      next =>
        rcases List.mem_cons.mp mem with rfl | mem
        · exact ⟨d, List.mem_cons_self, free, Nat.le_refl _, Nat.le_refl _⟩
        · obtain ⟨t, ht, rest⟩ := ih h.2 mem free
          exact ⟨t, List.mem_cons_of_mem _ ht, rest⟩

/-- Coalescing does not change which bytes are free. -/
theorem coalesceFrom_covered (h : Tiles hdr lo (x :: ys) hi) {b : Nat} :
    Covered hdr (coalesceFrom hdr x ys) b ↔ Covered hdr (x :: ys) b := by
  induction ys generalizing lo x with
  | nil => rfl
  | cons y ys ih =>
      unfold coalesceFrom
      split
      next both =>
        have whole := h.join
        obtain ⟨-, next, -⟩ := h
        have stop := Chunk.join_stop next
        rw [ih whole, covered_cons, covered_cons, covered_cons, ← or_assoc]
        refine or_congr_left ?_
        have joined : (x.join hdr y).free := both.1
        simp only [joined, both.1, both.2, true_and, Chunk.join_addr, stop]
        unfold Chunk.stop at next ⊢
        omega
      next => rw [covered_cons, ih h.2, covered_cons (c := x)]

/-- A free chunk of the result is an extent of free chunks. -/
theorem coalesceFrom_extent {F : Nat → Prop} {stopOf : Nat → Nat} (h : Tiles hdr lo (x :: ys) hi)
    (start : x.free → Extent F stopOf x.addr (x.stop hdr))
    (frees : ∀ d ∈ ys, d.free → F d.addr ∧ stopOf d.addr = d.stop hdr) :
    ∀ t ∈ coalesceFrom hdr x ys, t.free → Extent F stopOf t.addr (t.stop hdr) := by
  induction ys generalizing lo x with
  | nil => simpa [coalesceFrom] using start
  | cons y ys ih =>
      have behind := fun d mem => frees d (List.mem_cons_of_mem _ mem)
      unfold coalesceFrom
      split
      next both =>
        refine ih h.join (fun _ => ?_) behind
        obtain ⟨member, stop⟩ := frees y List.mem_cons_self both.2
        rw [Chunk.join_stop h.2.1, Chunk.join_addr, ← stop]
        exact .more (h.2.1 ▸ start both.1) member
      next =>
        intro t mem
        rcases List.mem_cons.mp mem with rfl | mem
        · exact start
        · refine ih h.2 (fun yf => ?_) behind t mem
          obtain ⟨member, stop⟩ := frees y List.mem_cons_self yf
          exact stop ▸ .one member

/-- An extent of free chunks covers its bytes, and ends where one of them does. -/
theorem Extent.spans {F : Nat → Prop} {stopOf : Nat → Nat} {c e : Nat}
    (extent : Extent F stopOf c e) (hdr : Nat) (cs : List Chunk)
    (chunks : ∀ a, F a → ∃ d ∈ cs, d.free ∧ d.addr = a ∧ stopOf a = d.stop hdr) :
    (∀ b, c ≤ b → b < e → Covered hdr cs b) ∧ ∃ d ∈ cs, d.free ∧ d.stop hdr = e := by
  induction extent with
  | one start =>
      obtain ⟨d, mem, free, addr, stop⟩ := chunks _ start
      exact ⟨fun b lower upper => ⟨d, mem, free, by omega, by omega⟩, d, mem, free, stop.symm⟩
  | @more e _ next ih =>
      obtain ⟨d, mem, free, addr, stop⟩ := chunks e next
      refine ⟨fun b lower upper => ?_, d, mem, free, stop.symm⟩
      cases Nat.lt_or_ge b e with
      | inl before => exact ih.1 b lower before
      | inr behind => exact ⟨d, mem, free, by omega, by omega⟩

/-- Chunks in use end a run of free ones. -/
theorem coalesceFrom_live {ms zs : List Chunk} {z : Chunk} (hms : ms ≠ [])
    (live : ∀ m ∈ ms, m.free = false) :
    coalesceFrom hdr x (ms ++ z :: zs) = x :: ms ++ coalesceFrom hdr z zs := by
  induction ms generalizing x with
  | nil => exact absurd rfl hms
  | cons m ms ih =>
      have hm := live m List.mem_cons_self
      rw [List.cons_append, coalesceFrom, if_neg (by simp [hm])]
      cases ms with
      | nil => simp [coalesceFrom, hm]
      | cons m' ms =>
          rw [ih (by simp) fun n mem => live n (List.mem_cons_of_mem _ mem)]
          rfl

/-- Where no two free chunks are adjacent, there is nothing to join. -/
theorem coalesceFrom_of_isolated (isolated : Isolated (x :: ys)) :
    coalesceFrom hdr x ys = x :: ys := by
  induction ys generalizing x with
  | nil => rfl
  | cons y ys ih =>
      obtain ⟨apart, rest⟩ := List.isChain_cons_cons.mp isolated
      rw [coalesceFrom, if_neg apart, ih rest]

/-- Two adjacent free chunks are as good as one. -/
theorem coalesceFrom_halves {u v : Chunk} (uf : u.free) (vf : v.free) (pre post : List Chunk) :
    coalesceFrom hdr x (pre ++ u :: v :: post) = coalesceFrom hdr x
        (pre ++ u.join hdr v :: post) := by
  have joined : (u.join hdr v).free := uf
  induction pre generalizing x with
  | nil =>
      have sizes : (x.join hdr u).join hdr v = x.join hdr (u.join hdr v) := by
        simp only [Chunk.join, Chunk.mk.injEq, true_and, and_true]
        omega
      by_cases free : x.free
      · have first : (x.join hdr u).free := free
        simp only [List.nil_append, coalesceFrom, free, uf, vf, joined, first, and_self, if_true,
            sizes]
      · simp only [List.nil_append, coalesceFrom, free, uf, vf, and_self, if_true, false_and,
          Bool.false_eq_true, if_false]
  | cons p ps ih =>
      simp only [List.cons_append, coalesceFrom]
      split
      · exact ih
      · rw [ih]

/-- Chunks in use at the front stay as they are. -/
theorem coalesceFrom_front {ms zs : List Chunk} {z : Chunk} (live : ∀ m ∈ x :: ms, m.free = false) :
    coalesceFrom hdr x (ms ++ z :: zs) = x :: ms ++ coalesceFrom hdr z zs := by
  have used := live x List.mem_cons_self
  cases ms with
  | nil => simp [coalesceFrom, used]
  | cons m ms => exact coalesceFrom_live (by simp) fun c mem => live c (List.mem_cons_of_mem _ mem)

/-- The chunks with all adjacent free ones joined. -/
def coalesceAll (hdr : Nat) : List Chunk → List Chunk
  | [] => []
  | x :: ys => coalesceFrom hdr x ys

theorem coalesceAll_front {ms zs : List Chunk} {z : Chunk} (live : ∀ m ∈ ms, m.free = false) :
    coalesceAll hdr (ms ++ z :: zs) = ms ++ coalesceFrom hdr z zs := by
  cases ms with
  | nil => rfl
  | cons m ms => exact coalesceFrom_front live

theorem coalesceAll_of_isolated {cs : List Chunk} (isolated : Isolated cs) :
    coalesceAll hdr cs = cs := by
  cases cs with
  | nil => rfl
  | cons c cs => exact coalesceFrom_of_isolated isolated

theorem coalesceAll_halves {u v : Chunk} (uf : u.free) (vf : v.free) (pre post : List Chunk) :
    coalesceAll hdr (pre ++ u :: v :: post) = coalesceAll hdr (pre ++ u.join hdr v :: post) := by
  cases pre with
  | nil => simp [coalesceAll, coalesceFrom, uf, vf]
  | cons p pre => exact coalesceFrom_halves uf vf pre post

theorem coalesceFrom_all_live {ms : List Chunk} (live : ∀ m ∈ ms, m.free = false) :
    coalesceFrom hdr x ms = x :: ms := by
  induction ms generalizing x with
  | nil => rfl
  | cons m ms ih =>
      have hm := live m List.mem_cons_self
      rw [coalesceFrom, if_neg (by simp [hm]), ih fun n mem => live n (List.mem_cons_of_mem _ mem)]

end Coalesce

end Tiling
