import Krypton.List

/-! # The two ends of a list

What `list.c` has for the back of a list next to what it has for the front: the
removal of the last node, and the way from the last node to the first.
-/

namespace Krypton

open LinkStore

variable {ν κ : Type} [DecidableEq ν] [DecidableEq κ]
variable {s : Store ν κ} {l : κ} {xs ys : List ν} {n m : ν}

/-! ## `remove_tail` -/

/-- `remove_tail` takes the last node off, if there is one. -/
def TakesTail (s : Store ν κ) (l : κ) (xs : List ν) : Prop :=
  match xs.getLast? with
  | none => remove_tail s l = some (.null, s)
  | some n => ∃ t, remove_tail s l = some (.node n, t) ∧ IsList t l xs.dropLast

/-- The pointer `tailPrev` of an empty list is its front sentinel, not NULL, and the previous
    word of that is. -/
theorem remove_tail_empty (h : IsList s l []) : remove_tail s l = none := by
  have last : s (.tailPrev l) = .head l := tailPrev_eq h
  have ends := h.ends
  simp [remove_tail, remove, last, ends, writeNext, Ptr.nextWord]

theorem remove_tail_last (h : IsList s l (xs ++ [n])) :
    ∃ t, remove_tail s l = some (.node n, t) ∧ IsList t l xs := by
  have cut : Function.update (fun _ => []) l (xs ++ [n]) l = xs ++ [n] := Function.update_self ..
  obtain ⟨t, taken, lists⟩ := remove_tail_spec (.of_list h) cut
  have rest := lists.each l rfl
  rw [Function.update_self] at rest
  exact ⟨t, taken, rest⟩

/-- The guard of `remove_tail` never stops it. -/
theorem remove_tail_iff (h : IsList s l xs) : TakesTail s l xs ↔ xs ≠ [] := by
  cases List.eq_nil_or_concat' xs with
  | inl empty =>
      subst empty
      have fault := remove_tail_empty h
      simp [TakesTail, fault]
  | inr more =>
      obtain ⟨ys, n, rfl⟩ := more
      have taken := remove_tail_last h
      simpa [TakesTail] using taken

/-- The memory of a list without nodes. -/
def emptyList : Store Nat Unit := new_list (fun _ => .null) ()

/-- The memory of a list with the node 7. -/
def oneNode : Store Nat Unit := fun w =>
  match w with
  | .head _ | .tailPrev _ => .node 7
  | .next _ => .tail ()
  | .prev _ => .head ()
  | .tail _ => .null

theorem remove_tail_iff_one : TakesTail oneNode () [7] := by
  have list : IsList oneNode () [7] := by decide
  exact (remove_tail_iff list).mpr (List.cons_ne_nil 7 [])

theorem remove_tail_faults : IsList emptyList () [] ∧ ¬ TakesTail emptyList () [] := by
  have empty : IsList emptyList () [] := by decide
  exact ⟨empty, fun takes => (remove_tail_iff empty).mp takes rfl⟩

/-! ## Both ways through a list -/

/-- The calls return the nodes in turn, and then NULL. -/
def Visits (next : Ptr ν κ → Option (Ptr ν κ)) : Option (Ptr ν κ) → List ν → Prop
  | p, [] => p = some .null
  | p, n :: ns => p = some (.node n) ∧ Visits next (next (.node n)) ns

/-- Forward and backward the same nodes are visited, and `get_prev` undoes `get_next`. -/
structure WaysAgree (s : Store ν κ) (l : κ) (xs : List ν) : Prop where
  forward : Visits (get_next s) (get_head s l) xs
  backward : Visits (get_prev s) (get_tail s l) xs.reverse
  inverse : ∀ n ∈ xs, ∀ m, get_next s (.node n) = some (.node m) →
    get_prev s (.node m) = some (.node n)

theorem visits_next (xs : List ν) (h : IsList s l (xs ++ ys)) :
    Visits (get_next s) (some (orNull ys.head?)) ys := by
  induction ys generalizing xs with
  | nil => rfl
  | cons y ys ih =>
      have rest : IsList s l ((xs ++ [y]) ++ ys) := by simpa using h
      refine ⟨rfl, ?_⟩
      rw [get_next_eq h]
      exact ih _ rest

theorem visits_forward (h : IsList s l xs) : Visits (get_next s) (get_head s l) xs := by
  rw [get_head_eq h]
  exact visits_next [] h

/-- The first node has none before it. -/
theorem get_prev_first (h : IsList s l (n :: ys)) : get_prev s (.node n) = some .null := by
  have prev : s (.prev n) = .head l := by
    simpa using (IsList.linked [] (n :: ys) h).2
  simp [get_prev, prev, h.ends]

/-- Behind the first node `get_prev` goes forward: what it returns is the next word. -/
theorem get_prev_next (h : IsList s l (xs ++ m :: n :: ys)) :
    get_prev s (.node n) = some (firstPtr l ys) := by
  have prev : s (.prev n) = .node m := by
    have cut : IsList s l ((xs ++ [m]) ++ n :: ys) := by simpa using h
    simpa using (cut.linked _ _).2
  have next : s (.next n) = firstPtr l ys := by
    have cut : IsList s l ((xs ++ [m, n]) ++ ys) := by simpa using h
    have last : lastPtr l (xs ++ [m, n]) = .node n := by simp [lastPtr]
    have link := (cut.linked _ _).1
    rw [last] at link
    simpa using link
  have before : s (.prev m) ≠ .null := by
    have link : s (.prev m) = lastPtr l xs := by simpa using (h.linked _ _).2
    rw [link]
    cases lastPtr_cases l xs with
    | inl first => simp [first.1]
    | inr last =>
        obtain ⟨x, -, here⟩ := last
        simp [here]
  simp [get_prev, prev, next, before]

/-- Where the list has two nodes, the way back leaves the list at the last one. -/
theorem not_backward (h : IsList s l (xs ++ [m, n])) :
    ¬ Visits (get_prev s) (get_tail s l) (xs ++ [m, n]).reverse := by
  have tail : get_tail s l = some (.node n) := by simp [get_tail_eq h]
  have prev := get_prev_next h
  simp [Visits, tail, prev]

theorem ways_agree_iff (h : IsList s l xs) : WaysAgree s l xs ↔ xs.length ≤ 1 := by
  constructor
  · intro agree
    cases List.eq_nil_or_concat' xs with
    | inl empty => simp [empty]
    | inr more =>
        obtain ⟨ys, n, rfl⟩ := more
        cases List.eq_nil_or_concat' ys with
        | inl empty => simp [empty]
        | inr more =>
            obtain ⟨zs, m, rfl⟩ := more
            have cut : zs ++ [m] ++ [n] = zs ++ [m, n] := by simp
            rw [cut] at h agree
            exact absurd agree.backward (not_backward h)
  · intro short
    refine ⟨visits_forward h, ?_, ?_⟩
    · rw [get_tail_eq h]
      match xs with
      | [] => rfl
      | [n] => exact ⟨rfl, get_prev_first h⟩
    · intro n mem m next
      match xs with
      | [k] =>
          cases List.mem_singleton.mp mem
          have cut : IsList s l ([] ++ n :: []) := h
          have last : get_next s (.node n) = some .null := get_next_eq cut
          rw [last] at next
          cases next

theorem ways_agree_one : WaysAgree oneNode () [7] := by
  have list : IsList oneNode () [7] := by decide
  exact (ways_agree_iff list).mpr (Nat.le_refl 1)

/-- The memory of a list with the nodes 7 and 8. -/
def twoNodes : Store Nat Unit := fun w =>
  match w with
  | .head _ => .node 7
  | .tailPrev _ => .node 8
  | .next n => if n = 7 then .node 8 else .tail ()
  | .prev n => if n = 7 then .head () else .node 7
  | .tail _ => .null

/-- From the last of two nodes the way back leads to the sentinel behind it. -/
theorem ways_disagree : IsList twoNodes () [7, 8] ∧ ¬ WaysAgree twoNodes () [7, 8] := by
  have list : IsList twoNodes () [7, 8] := by decide
  refine ⟨list, fun agree => ?_⟩
  have short := (ways_agree_iff list).mp agree
  exact absurd short (by decide)

end Krypton
