import Krypton.Heap.Safety
import Krypton.Text.Reports

/-! # The listing of the heap

`kheap_traverse` of `kmalloc.c`.
-/

namespace Krypton

open LinkStore Tiling Vsprintf

namespace Heap

variable (string : BitVec 32 → List (BitVec 8)) (h : Heap)

def listing : List (BitVec 8) := chars "%3d   0x%08X %8d     0x%08X. \n"

/-- `while(chunk)`, with enough fuel for the chunks of the list. -/
def traverse : (fuel : Nat) → Ptr Nat Unit → BitVec 32 → Monitor → Option Monitor
  | _, .null, _, m => some m
  | fuel + 1, .node chunk, i, m => do
      let m ← kprintf string m listing [i, .ofNat 32 chunk, .ofNat 32 (h.size chunk),
          .ofNat 32 (h.magic chunk)]
      traverse fuel (← get_next h.links (.node chunk)) (i + 1) m
  | _, _, _, _ => none

def kheap_traverse (m : Monitor) : Option Monitor := do
  match ← get_head h.links () with
  | .null => kprintf string m (chars "Heap is empty!\n\n") []
  | chunk =>
      let m ← kprintf string m (chars "\n---- Kernel Heap Traversal ---- \n") []
      let m ← kprintf string m (chars " No     ADDR         SIZE     MAGIC \n") []
      h.traverse string stepBound chunk 1 m

variable {string h} {cs : List Chunk} {xs ys : List Nat} {i : Nat}

/-- The lines of the loop, and the numbers in them. -/
def entries (h : Heap) : Nat → List Nat → List (List (BitVec 8) × List (BitVec 32))
  | _, [] => []
  | i, chunk :: xs =>
      (listing, [.ofNat 32 i, .ofNat 32 chunk, .ofNat 32 (h.size chunk),
          .ofNat 32 (h.magic chunk)]) ::
          entries h (i + 1) xs

theorem traverse_eq (list : IsList h.links () (xs ++ ys)) (fuel : Nat) (enough : ys.length ≤ fuel)
    (m : Monitor) :
    h.traverse string fuel (orNull ys.head?) (.ofNat 32 i) m = report string m
        (h.entries i ys) := by
  induction ys generalizing xs fuel i m with
  | nil => cases fuel <;> rfl
  | cons chunk ys ih =>
      obtain ⟨fuel, rfl⟩ : ∃ k, fuel = k + 1 := ⟨fuel - 1, by simp at enough; omega⟩
      have next := get_next_eq list
      have split : xs ++ chunk :: ys = xs ++ [chunk] ++ ys := by simp
      rw [split] at list
      have number : BitVec.ofNat 32 i + 1 = BitVec.ofNat 32 (i + 1) := (BitVec.ofNat_add i 1).symm
      have step : h.traverse string (fuel + 1) (.node chunk) (.ofNat 32 i) m = (do
          let m ← kprintf string m listing
            [.ofNat 32 i, .ofNat 32 chunk, .ofNat 32 (h.size chunk), .ofNat 32 (h.magic chunk)]
          h.traverse string fuel (← get_next h.links (.node chunk)) (.ofNat 32 i + 1) m) := rfl
      have start : h.traverse string (fuel + 1) (orNull (chunk :: ys).head?) (.ofNat 32 i) m =
          h.traverse string (fuel + 1) (.node chunk) (.ofNat 32 i) m := rfl
      rw [start, step, entries, report, List.foldlM_cons, next]
      refine congrArg (Option.bind _) (funext fun m => ?_)
      rw [number]
      exact ih list fuel (Nat.le_of_succ_le_succ enough) m

/-- The format of a listing of `n` chunks. -/
def kheap_format (n : Nat) : List (BitVec 8) :=
  chars "\n---- Kernel Heap Traversal ---- \n" ++ (chars " No     ADDR         SIZE     MAGIC \n" ++
    (List.replicate n listing).flatten)

/-- The numbers of the chunks in a listing, the first one of which is the `i`th. -/
def table : Nat → List Chunk → List (BitVec 32)
  | _, [] => []
  | i, c :: cs =>
      [.ofNat 32 i, .ofNat 32 c.addr, .ofNat 32 c.size, .ofNat 32 CHUNK_MAGIC] ++ table (i + 1) cs

theorem entries_line : ∀ line ∈ h.entries i xs, Line line.1 line.2.length ∧
    room (pieces line.1) < 1024 := by
  have good : Line listing 4 ∧ room (pieces listing) < 1024 := by decide +kernel
  induction xs generalizing i with
  | nil => nofun
  | cons x xs ih => exact List.forall_mem_cons.mpr ⟨good, ih⟩

theorem entries_whole : whole (h.entries i xs) = (List.replicate xs.length listing).flatten := by
  induction xs generalizing i with
  | nil => rfl
  | cons x xs ih =>
      rw [entries, whole, List.flatMap_cons, List.length_cons, List.replicate_succ,
          List.flatten_cons, ← ih]
      rfl

theorem entries_numbers (size : ∀ c ∈ cs, h.size c.addr = c.size)
    (magic : ∀ c ∈ cs, h.magic c.addr = CHUNK_MAGIC) :
    numbers (h.entries i (cs.map (·.addr))) = table i cs := by
  induction cs generalizing i with
  | nil => rfl
  | cons c cs ih =>
      have rest := ih (i := i + 1) (fun c mem => size c (List.mem_cons_of_mem _ mem))
        (fun c mem => magic c (List.mem_cons_of_mem _ mem))
      rw [table, ← rest, List.map_cons, entries, size c List.mem_cons_self,
          magic c List.mem_cons_self]
      rfl

theorem kheap_traverse_some {x : Nat} {m : Monitor} (head : get_head h.links () = some (.node x)) :
    kheap_traverse string h m = (kprintf string m (chars "\n---- Kernel Heap Traversal ---- \n")
        []).bind fun m =>
      (kprintf string m (chars " No     ADDR         SIZE     MAGIC \n") []).bind fun m =>
        h.traverse string stepBound (.node x) 1 m := by
  simp only [kheap_traverse, head, Option.bind_eq_bind, Option.bind_some]

/-- The listing of a heap shows its free chunks in the order of their addresses, numbered from one,
    each with its address, its size and an intact magic number. -/
theorem kheap_traverse_reads (string : BitVec 32 → List (BitVec 8)) (rep : h.Rep cs)
    (free : frees cs ≠ [])
    (m : Monitor) :
    ∃ s, kheap_traverse string h m = some (m.monitor_write s) ∧ 0#8 ∉ s ∧
      recover (pieces (kheap_format (frees cs).length)) s = table 1 (cs.filter (·.free)) := by
  let lines := (chars "\n---- Kernel Heap Traversal ---- \n", []) ::
    (chars " No     ADDR         SIZE     MAGIC \n", []) :: h.entries 1 (frees cs)
  have each : ∀ line ∈ lines, Line line.1 line.2.length ∧ room (pieces line.1) < 1024 := by
    refine List.forall_mem_cons.mpr ⟨?_, List.forall_mem_cons.mpr ⟨?_, entries_line⟩⟩
    · decide +kernel
    · decide +kernel
  obtain ⟨s, shown, read, plain⟩ := report_reads string each m
  have short : (frees cs).length ≤ stepBound := by
    have all := rep.length_lt
    have some : (frees cs).length ≤ cs.length := by
      rw [frees, List.length_map]
      exact List.length_filter_le ..
    omega
  have loop (m : Monitor) : h.traverse string stepBound (orNull (frees cs).head?) 1 m =
      report string m (h.entries 1 (frees cs)) :=
    traverse_eq (i := 1) (show IsList h.links () ([] ++ frees cs) from rep.list) stepBound short m
  obtain ⟨x, xs, first⟩ := List.exists_cons_of_ne_nil free
  have head : get_head h.links () = some (.node x) := by
    rw [get_head_eq rep.list, first]
    rfl
  have start : orNull (frees cs).head? = (.node x : Ptr Nat Unit) := by
    rw [first]
    rfl
  rw [start] at loop
  have same : kheap_traverse string h m = report string m lines := by
    rw [kheap_traverse_some head]
    simp only [lines, report_cons, loop]
  have format : whole lines = kheap_format (frees cs).length := by
    rw [kheap_format, ← entries_whole (h := h) (i := 1)]
    simp only [whole, lines, List.flatMap_cons]
  rw [format] at read
  refine ⟨s, same.trans shown, plain, read.trans ?_⟩
  exact entries_numbers (fun c mem => rep.size c (List.mem_of_mem_filter mem))
    (fun c mem => rep.magic c (List.mem_of_mem_filter mem))

/-- The listing of the heap whose first page was just added. -/
theorem kheap_traverse_reads_page :
    ∃ h, (kheap_init ⟨fun _ => .null, fun _ => 0, fun _ => 0, 0⟩).grow HEAP_START = some h ∧
    ∃ s, kheap_traverse (fun _ => []) h ⟨fun _ => 0, 0, 0, 0, [], 0⟩ =
        some (Monitor.monitor_write ⟨fun _ => 0, 0, 0, 0, [], 0⟩ s) ∧
      0#8 ∉ s ∧ recover (pieces (kheap_format 1)) s = table 1 [⟨HEAP_START, 4080, true⟩] := by
  obtain ⟨h, page, -, rep⟩ :=
    grow_new (kheap_init_rep ⟨fun _ => .null, fun _ => 0, fun _ => 0, 0⟩) rfl (by decide)
  have listed : h.Rep [⟨HEAP_START, 4080, true⟩] := rep
  exact ⟨h, page, kheap_traverse_reads (fun _ => []) listed (by decide) _⟩

end Heap

end Krypton
