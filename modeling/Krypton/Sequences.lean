import Krypton.List

/-! # Linked lists as sequences

Any number of lists, on which the functions of `list.c` are called in any order.
Each call does to its list what it says of a plain sequence, returns what that
gives, and leaves the other lists and the data of all nodes alone.
-/

namespace Krypton

open LinkStore

variable {ν κ : Type} [DecidableEq ν] [DecidableEq κ]

/-- The memory of nodes and headers: the links, and the other fields of a node. -/
structure ListMemory (ν κ : Type) where
  links : Store ν κ
  type : ν → BitVec 32
  pri : ν → Int
  name : ν → List (BitVec 8)

inductive ListCall (ν κ : Type) where
  | new_list (list : κ)
  | add_head (list : κ) (node : ν)
  | add_tail (list : κ) (node : ν)
  | enqueue (list : κ) (node : ν)
  | remove (node : ν)
  | remove_head (list : κ)

/-- A call and the pointer it returns, NULL for a function that returns none. -/
def ListMemory.call (fuel : Nat) (m : ListMemory ν κ) :
    ListCall ν κ → Option (Ptr ν κ × ListMemory ν κ)
  | .new_list list => some (.null, { m with links := new_list m.links list })
  | .add_head list node => do return (.null, { m with links := ← add_head m.links list node })
  | .add_tail list node => do return (.null, { m with links := ← add_tail m.links list node })
  | .enqueue list node => do
      return (.null, { m with links := ← enqueue m.pri fuel m.links list node })
  | .remove node => do return (.null, { m with links := ← remove m.links (.node node) })
  | .remove_head list => do
      let (node, links) ← remove_head m.links list
      return (node, { m with links })

/-- The calls of a program, with what they return. -/
def ListMemory.run (fuel : Nat) : ListMemory ν κ → List (ListCall ν κ) →
    Option (List (Ptr ν κ) × ListMemory ν κ)
  | m, [] => some ([], m)
  | m, c :: cs => do
      let (p, m) ← m.call fuel c
      let (ps, m) ← m.run fuel cs
      return (p :: ps, m)

/-- Sequences of nodes, one for each header in use. -/
structure Sequences (ν κ : Type) where
  used : κ → Prop
  seq : κ → List ν

namespace Sequences

/-- What a call does to the sequences, and the node it returns. -/
def call (pri : ν → Int) (a : Sequences ν κ) : ListCall ν κ → Option ν × Sequences ν κ
  | .new_list list => (none, { a with used := fun k => a.used k ∨ k = list })
  | .add_head list node =>
      (none, { a with seq := Function.update a.seq list (node :: a.seq list) })
  | .add_tail list node =>
      (none, { a with seq := Function.update a.seq list (a.seq list ++ [node]) })
  | .enqueue list node =>
      (none, { a with seq := Function.update a.seq list (insertPri pri node (a.seq list)) })
  | .remove node => (none, { a with seq := fun k => (a.seq k).erase node })
  | .remove_head list =>
      ((a.seq list).head?, { a with seq := Function.update a.seq list (a.seq list).tail })

def run (pri : ν → Int) : Sequences ν κ → List (ListCall ν κ) → List (Option ν) × Sequences ν κ
  | a, [] => ([], a)
  | a, c :: cs =>
      ((a.call pri c).1 :: ((a.call pri c).2.run pri cs).1, ((a.call pri c).2.run pri cs).2)

/-- No header is in use. -/
def none : Sequences ν κ := ⟨fun _ => False, fun _ => []⟩

/-- A header is initialised once, and used after that; a node is linked while it is
    in no list, and unlinked while it is in one. -/
def Admits (a : Sequences ν κ) : ListCall ν κ → Prop
  | .new_list list => ¬ a.used list
  | .add_head list node | .add_tail list node | .enqueue list node =>
      a.used list ∧ ∀ k, node ∉ a.seq k
  | .remove node => ∃ k, node ∈ a.seq k
  | .remove_head list => a.used list

def AdmitsAll (pri : ν → Int) : Sequences ν κ → List (ListCall ν κ) → Prop
  | _, [] => True
  | a, c :: cs => a.Admits c ∧ (a.call pri c).2.AdmitsAll pri cs

end Sequences

/-- The lists in memory are the sequences. -/
def ListMemory.Rep (m : ListMemory ν κ) (a : Sequences ν κ) : Prop := Lists m.links a.used a.seq

variable {m : ListMemory ν κ} {a : Sequences ν κ} {c : ListCall ν κ} {fuel : Nat}

/-- One call does what it says of the sequences. -/
theorem call_refines (h : m.Rep a) (ok : a.Admits c) (enough : ∀ k, (a.seq k).length ≤ fuel) :
    ∃ links, m.call fuel c = some (orNull (a.call m.pri c).1, { m with links }) ∧
      ListMemory.Rep { m with links } (a.call m.pri c).2 := by
  cases c with
  | new_list list => exact ⟨_, rfl, new_list_spec h ok⟩
  | add_head list node =>
      obtain ⟨links, run, lists⟩ := add_head_spec h ok.1 ok.2
      exact ⟨links, by simp [ListMemory.call, run, Sequences.call], lists⟩
  | add_tail list node =>
      obtain ⟨links, run, lists⟩ := add_tail_spec h ok.1 ok.2
      exact ⟨links, by simp [ListMemory.call, run, Sequences.call], lists⟩
  | enqueue list node =>
      obtain ⟨links, run, lists⟩ := enqueue_spec m.pri h ok.1 ok.2 (enough list)
      exact ⟨links, by simp [ListMemory.call, run, Sequences.call], lists⟩
  | remove node =>
      obtain ⟨k, mem⟩ := ok
      obtain ⟨xs, ys, split⟩ := List.append_of_mem mem
      obtain ⟨links, run, lists⟩ := remove_spec xs ys h split
      refine ⟨links, by simp [ListMemory.call, run, Sequences.call], ?_⟩
      have erased : Lists links a.used fun j => (a.seq j).erase node := by
        rw [h.erase_cut split]
        exact lists
      exact erased
  | remove_head list =>
      cases split : a.seq list with
      | nil =>
          have run := remove_head_empty h ok split
          refine ⟨m.links, by simp [ListMemory.call, run, Sequences.call, split], ?_⟩
          have same : Lists m.links a.used (Function.update a.seq list (a.seq list).tail) := by
            have idle : (a.seq list).tail = a.seq list := by simp [split]
            rw [idle, Function.update_eq_self]
            exact h
          exact same
      | cons n ys =>
          obtain ⟨links, run, lists⟩ := remove_head_spec h split
          refine ⟨links, by simp [ListMemory.call, run, Sequences.call, split], ?_⟩
          have shorter : Lists links a.used (Function.update a.seq list (a.seq list).tail) := by
            rw [split]
            exact lists
          exact shorter

/-- A call makes no sequence longer than by one. -/
theorem call_length (k : κ) (pri : ν → Int) :
    (((a.call pri c).2).seq k).length ≤ (a.seq k).length + 1 := by
  have grows (list : κ) (xs : List ν) (le : xs.length ≤ (a.seq list).length + 1) :
      (Function.update a.seq list xs k).length ≤ (a.seq k).length + 1 := by
    by_cases here : k = list
    · subst here
      simpa using le
    · simp [here]
  cases c with
  | new_list list => exact Nat.le_succ _
  | add_head list node => exact grows list _ (by simp)
  | add_tail list node => exact grows list _ (by simp)
  | enqueue list node =>
      apply grows list
      have split := List.takeWhile_append_dropWhile (p := (pri node ≤ pri ·)) (l := a.seq list)
      have count := congrArg List.length split
      simp only [List.length_append] at count
      simp only [insertPri, List.length_append, List.length_cons]
      omega
  | remove node =>
      have shorter : ((a.seq k).erase node).length ≤ (a.seq k).length := List.length_erase_le
      exact Nat.le_succ_of_le shorter
  | remove_head list => exact grows list _ (by simp; omega)

theorem run_refines (cs : List (ListCall ν κ)) (h : m.Rep a) (ok : a.AdmitsAll m.pri cs)
    (enough : ∀ k, (a.seq k).length + cs.length ≤ fuel) :
    ∃ links, m.run fuel cs = some ((a.run m.pri cs).1.map orNull, { m with links }) ∧
      ListMemory.Rep { m with links } (a.run m.pri cs).2 := by
  induction cs generalizing m a with
  | nil => exact ⟨m.links, rfl, h⟩
  | cons c cs ih =>
      have short (k : κ) : (a.seq k).length ≤ fuel := Nat.le_trans (Nat.le_add_right ..) (enough k)
      obtain ⟨links, call, rep⟩ := call_refines h ok.1 short
      have enough' (k : κ) : ((a.call m.pri c).2.seq k).length + cs.length ≤ fuel := by
        have grows := call_length (a := a) (c := c) k m.pri
        have total := enough k
        simp only [List.length_cons] at total
        omega
      obtain ⟨links', run, rep'⟩ := ih rep ok.2 enough'
      exact ⟨links', by simp [ListMemory.run, call, run, Sequences.run], rep'⟩

/-- From memory without lists, the functions refine the operations on sequences. -/
theorem lists_refine (m : ListMemory ν κ) (cs : List (ListCall ν κ))
    (ok : Sequences.none.AdmitsAll m.pri cs) (enough : cs.length ≤ fuel) :
    ∃ m', m.run fuel cs = some ((Sequences.none.run m.pri cs).1.map orNull, m') ∧
      m'.Rep (Sequences.none.run m.pri cs).2 ∧
      m'.type = m.type ∧ m'.pri = m.pri ∧ m'.name = m.name := by
  have empty : m.Rep Sequences.none :=
    ⟨fun _ no => no.elim, fun _ _ => rfl, fun _ _ _ => List.disjoint_nil_left _⟩
  obtain ⟨links, run, rep⟩ :=
    run_refines cs empty ok fun k => by simpa [Sequences.none] using enough
  exact ⟨_, run, rep, rfl, rfl, rfl⟩

/-- Nodes of priority one and two are enqueued, and the first is removed. -/
theorem lists_refine_two : ∃ m' : ListMemory Nat Unit,
    (⟨fun _ => .null, fun _ => 0, fun n => n, fun _ => []⟩ : ListMemory Nat Unit).run 4
      [.new_list (), .enqueue () 1, .enqueue () 2, .remove_head ()] =
        some ([.null, .null, .null, .node 2], m') ∧
      m'.Rep ⟨fun _ => True, fun _ => [1]⟩ := by
  let m : ListMemory Nat Unit := ⟨fun _ => .null, fun _ => 0, fun n => n, fun _ => []⟩
  have ok : Sequences.none.AdmitsAll m.pri
      [.new_list (), .enqueue () 1, .enqueue () 2, .remove_head ()] := by
    refine ⟨id, ⟨.inr rfl, by simp [Sequences.none, Sequences.call]⟩, ⟨.inr rfl, ?_⟩, .inr rfl,
        trivial⟩
    simp [Sequences.none, Sequences.call, insertPri]
  obtain ⟨m', run, rep, same⟩ := lists_refine m _ ok (Nat.le_refl 4)
  refine ⟨m', run, ?_⟩
  have used : ((Sequences.none : Sequences Nat Unit).run m.pri
      [.new_list (), .enqueue () 1, .enqueue () 2, .remove_head ()]).2 =
      ⟨fun _ => True, fun _ => [1]⟩ := by
    simp [Sequences.none, Sequences.run, Sequences.call, insertPri, m]
    rfl
  rwa [used] at rep

end Krypton
