import Krypton.Foundations.LinkStore
import Mathlib.Algebra.GroupWithZero.Nat
import Mathlib.Data.List.TakeWhile

/-! # The linked lists of `list.c`

Every function works on link words, one C assignment after the other; `none` is
a NULL pointer dereference, or a walk that does not end. The lemmas say what
each function does to a family of well-formed lists.
-/

namespace Krypton

open LinkStore

variable {ν κ : Type} [DecidableEq ν] [DecidableEq κ]

def new_list (s : Store ν κ) (list : κ) : Store ν κ :=
  let s := set s (.head list) (.tail list)
  let s := set s (.tail list) .null
  set s (.tailPrev list) (.head list)

def add_head (s : Store ν κ) (list : κ) (node : ν) : Option (Store ν κ) := do
  let s := set s (.next node) (s (.head list))
  let s := set s (.prev node) (.head list)
  let s ← writePrev s (s (.head list)) (.node node)
  return set s (.head list) (.node node)

def add_tail (s : Store ν κ) (list : κ) (node : ν) : Option (Store ν κ) := do
  let s := set s (.next node) (.tail list)
  let s := set s (.prev node) (s (.tailPrev list))
  let s ← writeNext s (s (.tailPrev list)) (.node node)
  return set s (.tailPrev list) (.node node)

def remove_head (s : Store ν κ) (list : κ) : Option (Ptr ν κ × Store ν κ) := do
  let node ← readNext s (s (.head list))
  if node = .null then return (node, s)
  let s ← writePrev s node (.head list)
  let node := s (.head list)
  return (node, set s (.head list) (← readNext s node))

def remove (s : Store ν κ) (node : Ptr ν κ) : Option (Store ν κ) := do
  let s ← writeNext s (← readPrev s node) (← readNext s node)
  writePrev s (← readNext s node) (← readPrev s node)

def remove_tail (s : Store ν κ) (list : κ) : Option (Ptr ν κ × Store ν κ) := do
  let node := s (.tailPrev list)
  if node = .null then return (node, s)
  return (node, ← remove s node)

/-- `node->next`, or NULL where that is the sentinel behind the last node. -/
def get_next (s : Store ν κ) (node : Ptr ν κ) : Option (Ptr ν κ) := do
  if node = .null then return .null
  let next ← readNext s node
  if next = .null then return .null
  return if (← readNext s next) = .null then .null else next

def get_prev (s : Store ν κ) (node : Ptr ν κ) : Option (Ptr ν κ) := do
  if node = .null then return .null
  let prev ← readPrev s node
  if prev = .null then return .null
  if (← readPrev s prev) = .null then return .null
  readNext s node

def get_head (s : Store ν κ) (list : κ) : Option (Ptr ν κ) := do
  return if (← readNext s (s (.head list))) = .null then .null else s (.head list)

def get_tail (s : Store ν κ) (list : κ) : Option (Ptr ν κ) := do
  return if (← readNext s (s (.head list))) = .null then .null else s (.tailPrev list)

/-- The `pri` field behind a pointer; a sentinel has none. -/
def priOf (pri : ν → Int) : Ptr ν κ → Option Int
  | .node n => some (pri n)
  | _ => none

/-- The `for` loop of `enqueue`: the first node of lower priority, or NULL.
    A walk of more than `fuel` nodes is taken never to end. -/
def enqueueSearch (pri : ν → Int) (s : Store ν κ) (node : ν) : Nat → Ptr ν κ → Option (Ptr ν κ)
  | _, .null => some .null
  | 0, _ => none
  | fuel + 1, next => do
      if pri node > (← priOf pri next) then return next
      enqueueSearch pri s node fuel (← get_next s next)

def enqueue (pri : ν → Int) (fuel : Nat) (s : Store ν κ) (list : κ) (node : ν) :
    Option (Store ν κ) := do
  match ← enqueueSearch pri s node fuel (← get_head s list) with
  | .null => add_tail s list node
  | next =>
      let s := set s (.next node) next
      let s := set s (.prev node) (← readPrev s next)
      let s ← writeNext s (← readPrev s next) (.node node)
      writePrev s next (.node node)

/-- The pointer that stands for an optional node in C. -/
def orNull (n : Option ν) : Ptr ν κ := n.elim .null .node

section Traversal

variable {s : Store ν κ} {l : κ} {xs ys : List ν}

omit [DecidableEq ν] [DecidableEq κ] in
@[simp] theorem orNull_none : orNull (none : Option ν) = (.null : Ptr ν κ) := rfl

omit [DecidableEq ν] [DecidableEq κ] in
@[simp] theorem orNull_some (n : ν) : orNull (some n) = (.node n : Ptr ν κ) := rfl

omit [DecidableEq ν] [DecidableEq κ] in
/-- Only the back sentinel of a list has a NULL next word. -/
theorem firstPtr_next (xs ys : List ν) (h : IsList s l (xs ++ ys)) :
    ∃ p, readNext s (firstPtr l ys) = some p ∧ (p = .null ↔ ys = []) := by
  cases ys with
  | nil => exact ⟨_, rfl, by simp [h.ends]⟩
  | cons y ys =>
      have hy := IsList.linked (xs ++ [y]) ys (by simpa using h)
      refine ⟨firstPtr l ys, by simpa using hy.1, ?_⟩
      cases ys <;> simp [firstPtr]

omit [DecidableEq ν] [DecidableEq κ] in
theorem head_eq (h : IsList s l xs) : s (.head l) = firstPtr l xs := by
  simpa using (IsList.linked [] xs h).1

omit [DecidableEq ν] [DecidableEq κ] in
theorem tailPrev_eq (h : IsList s l xs) : s (.tailPrev l) = lastPtr l xs := by
  simpa using (IsList.linked xs [] (by simpa using h)).2

theorem get_head_eq (h : IsList s l xs) : get_head s l = some (orNull xs.head?) := by
  obtain ⟨p, hp, empty⟩ := firstPtr_next [] xs h
  cases xs with
  | nil => simp [get_head, head_eq h, h.ends]
  | cons x xs => simp [get_head, head_eq h, show s (.next x) ≠ .null by simp_all]

theorem get_next_eq {x : ν} (h : IsList s l (xs ++ x :: ys)) :
    get_next s (.node x) = some (orNull ys.head?) := by
  have split : xs ++ x :: ys = (xs ++ [x]) ++ ys := by simp
  rw [split] at h
  have hn : s (.next x) = firstPtr l ys := by simpa using (h.linked _ _).1
  obtain ⟨p, hp, empty⟩ := firstPtr_next _ _ h
  cases ys with
  | nil => simp [get_next, hn, h.ends]
  | cons y ys =>
      have busy : s (.next y) ≠ .null := by
        rw [firstPtr_cons, readNext_node, Option.some_inj] at hp
        simp [hp, empty]
      simp [get_next, hn, busy]

theorem get_tail_eq (h : IsList s l xs) : get_tail s l = some (orNull xs.getLast?) := by
  obtain ⟨p, hp, empty⟩ := firstPtr_next [] xs h
  rcases List.eq_nil_or_concat' xs with rfl | ⟨ys, y, rfl⟩
  · simp [get_tail, head_eq h, h.ends]
  · simp [get_tail, head_eq h, tailPrev_eq h, hp, show p ≠ .null by simp [empty]]

end Traversal

section Edits

variable {s : Store ν κ} {live : κ → Prop} {f : κ → List ν} {l : κ} {n : ν}

theorem new_list_spec (h : Lists s live f) (dead : ¬ live l) :
    Lists (new_list s l) (fun k => live k ∨ k = l) f := by
  refine h.opened dead ?_ ?_ ?_ ?_
  · simp [new_list]
  · simp [new_list]
  · simp [new_list]
  · intro w hh ht hp
    simp [new_list, hh, ht, hp]

theorem add_tail_spec (h : Lists s live f) (used : live l) (fresh : ∀ k, n ∉ f k) :
    ∃ t, add_tail s l n = some t ∧ Lists t live (Function.update f l (f l ++ [n])) := by
  have last := tailPrev_eq (h.each l used)
  obtain ⟨w, hw, noNext, noPrev, noEnd⟩ := last_word l (f l)
  have noNext := noNext n (fresh l)
  refine ⟨set (set (set (set s (.next n) (.tail l)) (.prev n) (lastPtr l (f l))) w (.node n))
    (.tailPrev l) (.node n), ?_, ?_⟩
  · simp [add_tail, last, writeNext, hw]
  · refine h.insert (f l) [] used (by simp) fresh ?_
    refine .of_words hw rfl ?_ ?_ ?_ ?_ ?_
    · simp [(noEnd l).2]
    · simp
    · simp [noNext.symm]
    · simp [(noPrev n).symm]
    · intro u h1 h2 h3 h4
      simp [h1, h2, h3, h4]

theorem add_head_spec (h : Lists s live f) (used : live l) (fresh : ∀ k, n ∉ f k) :
    ∃ t, add_head s l n = some t ∧ Lists t live (Function.update f l (n :: f l)) := by
  have first := head_eq (h.each l used)
  obtain ⟨w, hw, noPrev, noNext, noEnd⟩ := first_word l (f l)
  have noPrev := noPrev n (fresh l)
  refine ⟨set (set (set (set s (.next n) (firstPtr l (f l))) (.prev n) (.head l)) w (.node n))
    (.head l) (.node n), ?_, ?_⟩
  · simp [add_head, first, writePrev, hw]
  · refine h.insert [] (f l) used (by simp) fresh ?_
    refine .of_words rfl hw ?_ ?_ ?_ ?_ ?_
    · simp
    · simp [(noEnd l).2]
    · simp [(noNext n).symm]
    · simp [noPrev.symm]
    · intro u h1 h2 h3 h4
      simp [h1, h2, h3, h4]

theorem remove_spec (xs ys : List ν) (h : Lists s live f) (split : f l = xs ++ n :: ys) :
    ∃ t, remove s (.node n) = some t ∧ Lists t live (Function.update f l (xs ++ ys)) := by
  have list := h.each l (h.live_of_mem (n := n) (by simp [split]))
  rw [split] at list
  have prev : s (.prev n) = lastPtr l xs := by simpa using (list.linked _ _).2
  have next : s (.next n) = firstPtr l ys := by
    simpa using (IsList.linked (xs ++ [n]) ys (by simpa using list)).1
  obtain ⟨w, hw, noNext, noPrev, -⟩ := last_word l xs
  obtain ⟨v, hv, noPrev', noNext', -⟩ := first_word l ys
  have distinct := List.nodup_cons.mp (List.nodup_middle.mp list.nodup)
  have noNext := noNext n fun hx => distinct.1 (List.mem_append_left _ hx)
  have noPrev' := noPrev' n fun hy => distinct.1 (List.mem_append_right _ hy)
  refine ⟨set (set s w (firstPtr l ys)) v (lastPtr l xs), ?_, ?_⟩
  · simp [remove, prev, next, writeNext, writePrev, hw, hv, noNext.symm, (noPrev n).symm]
  · have apart : w ≠ v := by
      rintro rfl
      rcases lastPtr_cases l xs with ⟨e, -⟩ | ⟨x, -, e⟩ <;> rw [e] at hw <;>
        rcases firstPtr_cases l ys with ⟨e', -⟩ | ⟨y, -, e'⟩ <;> rw [e'] at hv <;>
        cases hw <;> cases hv
    refine h.delete xs ys split ⟨⟨?_, ?_⟩, ?_⟩
    · simp [readNext, hw, apart]
    · simp [readPrev, hv]
    · intro u hu hu'
      have : u ≠ w := by rintro rfl; exact hu hw
      have : u ≠ v := by rintro rfl; exact hu' hv
      simp [*]

theorem remove_head_empty (h : Lists s live f) (used : live l) (empty : f l = []) :
    remove_head s l = some (.null, s) := by
  have list := h.each l used
  rw [empty] at list
  simp [remove_head, head_eq list, list.ends]

theorem remove_head_spec {ys : List ν} (h : Lists s live f) (split : f l = n :: ys) :
    ∃ t, remove_head s l = some (.node n, t) ∧ Lists t live (Function.update f l ys) := by
  have list := h.each l (h.live_of_mem (n := n) (by simp [split]))
  rw [split] at list
  have first : s (.head l) = .node n := head_eq list
  have next : s (.next n) = firstPtr l ys := by
    simpa [lastPtr] using (IsList.linked [n] ys (by simpa using list)).1
  have busy : firstPtr l ys ≠ .null := by cases ys <;> simp [firstPtr]
  obtain ⟨v, hv, noPrev, noNext, noEnd⟩ := first_word l ys
  have apart : v ≠ .head l := (noEnd l).2
  refine ⟨set (set s v (.head l)) (.head l) (firstPtr l ys), ?_, ?_⟩
  · simp [remove_head, first, next, busy, writePrev, hv, apart.symm, (noNext n).symm]
  · have lists := h.delete (t := set (set s v (.head l)) (.head l) (firstPtr l ys)) [] ys
      (by simpa using split) ⟨⟨?_, ?_⟩, ?_⟩
    · simpa using lists
    · simp [lastPtr]
    · simp [readPrev, hv, apart, lastPtr]
    · intro u hu hu'
      have : u ≠ .head l := by
        rintro rfl
        exact hu rfl
      have : u ≠ v := by
        rintro rfl
        exact hu' hv
      simp [*]

theorem remove_tail_spec {xs : List ν} (h : Lists s live f) (split : f l = xs ++ [n]) :
    ∃ t, remove_tail s l = some (.node n, t) ∧ Lists t live (Function.update f l xs) := by
  have last := tailPrev_eq (h.each l (h.live_of_mem (n := n) (by simp [split])))
  obtain ⟨t, ht, lists⟩ := remove_spec xs [] h split
  refine ⟨t, ?_, by simpa using lists⟩
  simp [remove_tail, last, split, ht]

end Edits

section Enqueue

variable (pri : ν → Int)

/-- The sequence with `n` put before the first element of lower priority. -/
def insertPri (n : ν) (xs : List ν) : List ν :=
  xs.takeWhile (pri n ≤ pri ·) ++ n :: xs.dropWhile (pri n ≤ pri ·)

variable {s : Store ν κ} {live : κ → Prop} {f : κ → List ν} {l : κ} {n : ν}

/-- The loop of `enqueue` stops at the first node of lower priority. -/
theorem enqueueSearch_eq (xs ys : List ν) (h : IsList s l (xs ++ ys)) {fuel : Nat}
    (enough : ys.length ≤ fuel) :
    enqueueSearch pri s n fuel (orNull ys.head?) =
      some (orNull (ys.dropWhile (pri n ≤ pri ·)).head?) := by
  induction ys generalizing xs fuel with
  | nil => cases fuel <;> rfl
  | cons y ys ih =>
      obtain ⟨fuel, rfl⟩ : ∃ k, fuel = k + 1 := ⟨fuel - 1, by simp at enough; omega⟩
      have rest : IsList s l ((xs ++ [y]) ++ ys) := by simpa using h
      by_cases lower : pri n > pri y
      · simp [enqueueSearch, priOf, lower, Int.not_le.mpr lower]
      · have keep := Int.not_lt.mp lower
        simp only [List.head?_cons, orNull_some, enqueueSearch, priOf, Option.bind_eq_bind,
          Option.bind_some, if_neg lower, get_next_eq h, List.dropWhile_cons,
          decide_eq_true keep, if_true]
        exact ih (xs ++ [y]) rest (by simpa using enough)

theorem enqueue_spec (h : Lists s live f) (used : live l) (fresh : ∀ k, n ∉ f k) {fuel : Nat}
    (enough : (f l).length ≤ fuel) :
    ∃ t, enqueue pri fuel s l n = some t ∧
      Lists t live (Function.update f l (insertPri pri n (f l))) := by
  have list := h.each l used
  have found := enqueueSearch_eq pri (n := n) [] (f l) list enough
  cases rest : (f l).dropWhile (pri n ≤ pri ·) with
  | nil =>
      have all : (f l).takeWhile (pri n ≤ pri ·) = f l := by
        simpa [rest] using List.takeWhile_append_dropWhile (p := (pri n ≤ pri ·)) (l := f l)
      obtain ⟨t, ht, lists⟩ := add_tail_spec h used fresh
      refine ⟨t, ?_, by rw [insertPri, rest, all]; exact lists⟩
      simp [enqueue, get_head_eq list, found, rest, ht]
  | cons y ys =>
      have split : f l = (f l).takeWhile (pri n ≤ pri ·) ++ y :: ys := by
        rw [← rest, List.takeWhile_append_dropWhile]
      rw [insertPri, rest]
      generalize (f l).takeWhile (pri n ≤ pri ·) = xs at split
      have fresh' : n ∉ xs ++ y :: ys := split ▸ fresh l
      have cut : IsList s l (xs ++ y :: ys) := split ▸ list
      have prev : s (.prev y) = lastPtr l xs := by simpa using (cut.linked _ _).2
      have differs : y ≠ n := by rintro rfl; simp at fresh'
      obtain ⟨w, hw, noNext, noPrev, -⟩ := last_word l xs
      have noNext := noNext n fun hx => fresh' (List.mem_append_left _ hx)
      refine ⟨set (set (set (set s (.next n) (.node y)) (.prev n) (lastPtr l xs)) w (.node n))
        (.prev y) (.node n), ?_, ?_⟩
      · simp [enqueue, get_head_eq list, found, rest, prev, differs, writeNext, hw]
      · refine h.insert xs (y :: ys) used split fresh (.of_words hw rfl ?_ ?_ ?_ ?_ ?_)
        · simp [noPrev y]
        · simp
        · simp [noNext.symm]
        · simp [(noPrev n).symm, differs.symm]
        · intro u h1 h2 h3 h4
          simp [h1, h2, h3, h4]

omit [DecidableEq ν] in
@[simp] theorem mem_insertPri {m n : ν} {xs : List ν} :
    m ∈ insertPri pri n xs ↔ m = n ∨ m ∈ xs := by
  have split := List.takeWhile_append_dropWhile (p := (pri n ≤ pri ·)) (l := xs)
  conv_rhs => rw [← split]
  simp only [insertPri, List.mem_append, List.mem_cons]
  tauto

omit [DecidableEq ν] in
theorem takeWhile_higher {n : ν} {xs : List ν} : ∀ a ∈ xs.takeWhile (pri n ≤ pri ·),
    pri n ≤ pri a := by
  intro a mem
  have kept := List.mem_takeWhile_imp mem
  exact of_decide_eq_true kept

omit [DecidableEq ν] in
/-- In a list in order of priority no node behind the first lower one is higher. -/
theorem dropWhile_lower {n : ν} {xs : List ν} (h : xs.Pairwise fun a b => pri b ≤ pri a) :
    ∀ b ∈ xs.dropWhile (pri n ≤ pri ·), pri b < pri n := by
  have split := List.takeWhile_append_dropWhile (p := (pri n ≤ pri ·)) (l := xs)
  rw [← split, List.pairwise_append] at h
  obtain ⟨-, back, -⟩ := h
  cases rest : xs.dropWhile (pri n ≤ pri ·) with
  | nil => simp
  | cons b bs =>
      have first := List.head?_dropWhile_not (pri n ≤ pri ·) xs
      rw [rest] at back first
      have less : pri b < pri n := by
        simp only [List.head?_cons, decide_eq_false_iff_not] at first
        omega
      intro c mem
      cases mem with
      | head => exact less
      | tail _ mem => exact Int.lt_of_le_of_lt ((List.pairwise_cons.mp back).1 c mem) less

omit [DecidableEq ν] in
/-- A node put into a list in order of priority keeps it in order. -/
theorem insertPri_ordered {n : ν} {xs : List ν} (h : xs.Pairwise fun a b => pri b ≤ pri a) :
    (insertPri pri n xs).Pairwise fun a b => pri b ≤ pri a := by
  have split := List.takeWhile_append_dropWhile (p := (pri n ≤ pri ·)) (l := xs)
  have lower := dropWhile_lower pri (n := n) h
  rw [← split, List.pairwise_append] at h
  obtain ⟨front, back, across⟩ := h
  refine List.pairwise_append.mpr ⟨front, List.pairwise_cons.mpr ⟨?_, back⟩, fun a hi b mem => ?_⟩
  · intro b mem
    exact Int.le_of_lt (lower b mem)
  · cases mem with
    | head => exact takeWhile_higher pri a hi
    | tail _ mem => exact across a hi b mem

end Enqueue

end Krypton
