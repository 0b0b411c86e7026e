import Krypton.Ends

/-! # Lists in order of priority

`enqueue` puts a node behind all that are not of lower priority, so that nodes
of one priority stay in the order in which they came.
-/

namespace Krypton

open LinkStore

variable {ν κ : Type} [DecidableEq ν] [DecidableEq κ]
variable {s : Store ν κ} {l : κ} {xs ys zs : List ν} {n : ν}

namespace Priorities

variable (pri : ν → Int)

/-- No node has a lower one before it. -/
def Ordered (xs : List ν) : Prop := xs.Pairwise fun a b => pri b ≤ pri a

/-- `ys` is `xs` in order of priority, with the nodes of each priority in the order that they
    have in `xs`. -/
structure StableSort (xs ys : List ν) : Prop where
  perm : ys.Perm xs
  ordered : Ordered pri ys
  ties : ∀ p, ys.filter (pri · = p) = xs.filter (pri · = p)

variable {pri}

omit [DecidableEq ν] in
/-- A node that comes last in a tie is the last of its priority. -/
theorem stableSort_snoc (h : StableSort pri xs ys) :
    StableSort pri (xs ++ [n]) (insertPri pri n ys) := by
  have split := List.takeWhile_append_dropWhile (p := (pri n ≤ pri ·)) (l := ys)
  refine ⟨?_, insertPri_ordered pri h.ordered, fun p => ?_⟩
  · have moved : (insertPri pri n ys).Perm (n :: ys) := by
      rw [insertPri]
      exact List.perm_middle.trans (by rw [split])
    exact moved.trans ((h.perm.cons n).trans (List.perm_append_singleton n xs).symm)
  · rw [insertPri, List.filter_append, List.filter_append, ← h.ties p]
    conv_rhs => rw [← split, List.filter_append]
    by_cases tie : pri n = p
    · have behind : (ys.dropWhile (pri n ≤ pri ·)).filter (pri · = p) = [] := by
        refine List.filter_eq_nil_iff.mpr fun m mem => ?_
        have lower := dropWhile_lower pri h.ordered m mem
        simp only [decide_eq_true_eq]
        omega
      simp [tie ▸ behind, tie]
    · simp [tie]

theorem enqueue_list (pri : ν → Int) (h : IsList s l xs) (fresh : n ∉ xs) {fuel : Nat}
    (enough : xs.length ≤ fuel) :
    ∃ t, enqueue pri fuel s l n = some t ∧ IsList t l (insertPri pri n xs) := by
  have here : Function.update (fun _ => []) l xs l = xs := Function.update_self ..
  have nowhere : ∀ k, n ∉ Function.update (fun _ => []) l xs k := by
    intro k
    by_cases same : k = l
    · rwa [same, here]
    · rw [Function.update_of_ne same]
      exact List.not_mem_nil
  have within : (Function.update (fun _ => []) l xs l).length ≤ fuel := by rwa [here]
  obtain ⟨t, run, lists⟩ := enqueue_spec pri (.of_list h) rfl nowhere within
  have inserted := lists.each l rfl
  rw [Function.update_self, here] at inserted
  exact ⟨t, run, inserted⟩

/-- `enqueue` one after the other. -/
theorem enqueue_all {ns : List ν} (h : IsList s l ys) (sorted : StableSort pri xs ys)
    (fresh : (xs ++ ns).Nodup) {fuel : Nat} (enough : (xs ++ ns).length ≤ fuel) :
    ∃ t zs, ns.foldlM (fun s n => enqueue pri fuel s l n) s = some t ∧ IsList t l zs ∧
      StableSort pri (xs ++ ns) zs := by
  induction ns generalizing s xs ys with
  | nil => exact ⟨s, ys, rfl, h, by simpa using sorted⟩
  | cons n ns ih =>
      have all : xs ++ n :: ns = xs ++ [n] ++ ns := by simp
      have size := sorted.perm.length_eq
      have new : n ∉ ys := by
        intro mem
        exact List.disjoint_of_nodup_append fresh (sorted.perm.mem_iff.mp mem) List.mem_cons_self
      have room : ys.length ≤ fuel := by
        rw [List.length_append] at enough
        omega
      obtain ⟨t, run, list⟩ := enqueue_list pri h new room
      rw [all] at fresh enough
      obtain ⟨u, zs, rest, list', sorted'⟩ := ih list (stableSort_snoc sorted) fresh enough
      exact ⟨u, zs, by simp [List.foldlM_cons, run, rest], list', all ▸ sorted'⟩

/-- A list in order of priority gets a node behind all that are not lower, and any nodes, one
    after the other, sort it. From the empty list on, that is the stable sort of the nodes. -/
theorem enqueue_sorts (pri : ν → Int) (h : IsList s l xs) (ordered : Ordered pri xs) :
    (∀ n fuel, n ∉ xs → xs.length ≤ fuel → ∃ t ys zs, enqueue pri fuel s l n = some t ∧
      xs = ys ++ zs ∧ IsList t l (ys ++ n :: zs) ∧ Ordered pri (ys ++ n :: zs) ∧
      (∀ y ∈ ys, pri n ≤ pri y) ∧ ∀ z ∈ zs, pri z < pri n) ∧
    ∀ ns fuel, (xs ++ ns).Nodup → (xs ++ ns).length ≤ fuel →
      ∃ t ys, ns.foldlM (fun s n => enqueue pri fuel s l n) s = some t ∧ IsList t l ys ∧
        StableSort pri (xs ++ ns) ys := by
  constructor
  · intro n fuel fresh enough
    obtain ⟨t, run, list⟩ := enqueue_list pri h fresh enough
    have split := List.takeWhile_append_dropWhile (p := (pri n ≤ pri ·)) (l := xs)
    exact ⟨t, _, _, run, split.symm, list, insertPri_ordered pri ordered, takeWhile_higher pri,
      dropWhile_lower pri ordered⟩
  · intro ns fuel fresh enough
    exact enqueue_all h ⟨.refl xs, ordered, fun _ => rfl⟩ fresh enough

/-- Lower numbers have the higher priority. -/
def lowerFirst (n : Nat) : Int := -n

theorem enqueue_sorts_two : ∃ t ys,
    [9, 6].foldlM (fun s n => enqueue lowerFirst 4 s () n) twoNodes = some t ∧ IsList t () ys ∧
      StableSort lowerFirst [7, 8, 9, 6] ys := by
  have list : IsList twoNodes () [7, 8] := by decide
  have ordered : Ordered lowerFirst [7, 8] := by simp [Ordered, lowerFirst]
  exact (enqueue_sorts lowerFirst list ordered).2 [9, 6] 4 (by decide) (by decide)

end Priorities

end Krypton
