import Mathlib.Data.List.Lex

/-! # Strings

`strcmp` of `common.c`. A string is the list of its characters, without the
terminating null; what is read behind them is that null.
-/

namespace Krypton

namespace Common

/-- `*str` -/
def char (str : List (BitVec 8)) : BitVec 8 := str.headD 0#8

/-- The loop of `strcmp`: the comparison that ends it has advanced both pointers. -/
def skip : List (BitVec 8) → List (BitVec 8) → List (BitVec 8) × List (BitVec 8)
  | c :: str1, d :: str2 =>
      if c ≠ 0#8 ∧ d ≠ 0#8 then
        if c = d then skip str1 str2 else (str1, str2)
      else (c :: str1, d :: str2)
  | str1, str2 => (str1, str2)

def strcmp (str1 str2 : List (BitVec 8)) : Int :=
  let (str1, str2) := skip str1 str2
  if char str1 = 0#8 ∧ char str2 = 0#8 then 0
  else if char str1 = 0#8 then -1
  else 1

/-- The order of strings by the values of their characters, which are signed. -/
def Before (a b : List (BitVec 8)) : Prop := a.map BitVec.toInt < b.map BitVec.toInt

instance (a b : List (BitVec 8)) : Decidable (Before a b) :=
  inferInstanceAs (Decidable (a.map BitVec.toInt < b.map BitVec.toInt))

/-- `strcmp` tells how the strings compare. -/
structure Compares (a b : List (BitVec 8)) : Prop where
  equal : strcmp a b = 0 ↔ a = b
  before : Before a b → strcmp a b = -1
  after : Before b a → strcmp a b = 1
  opposite : strcmp a b = -strcmp b a

/-- Where the strings first differ, if they do before one of them ends, the lesser character
    is the last one and the greater is not. -/
def Ends : List (BitVec 8) → List (BitVec 8) → Prop
  | c :: a, d :: b =>
      if c = d then Ends a b
      else if c.toInt < d.toInt then a = [] ∧ b ≠ []
      else b = [] ∧ a ≠ []
  | _, _ => True

variable {a b : List (BitVec 8)} {c d : BitVec 8}

theorem strcmp_cons (nonzero : c ≠ 0#8) : strcmp (c :: a) (c :: b) = strcmp a b := by
  simp [strcmp, skip, nonzero]

theorem before_cons : Before (c :: a) (c :: b) ↔ Before a b := by
  simp [Before]

theorem before_differ (differ : c ≠ d) : Before (c :: a) (d :: b) ↔ c.toInt < d.toInt := by
  have apart : c.toInt ≠ d.toInt := fun same => differ (BitVec.eq_of_toInt_eq same)
  simp [Before, List.cons_lt_cons_iff, apart]

/-- At the first difference what follows it decides. -/
theorem strcmp_differ (nonzero : c ≠ 0#8) (nonzero' : d ≠ 0#8) (differ : c ≠ d) (ha : 0#8 ∉ a)
    (hb : 0#8 ∉ b) :
    strcmp (c :: a) (d :: b) = if a = [] then if b = [] then 0 else -1 else 1 := by
  have empty : ∀ {s : List (BitVec 8)}, 0#8 ∉ s → (char s = 0#8 ↔ s = []) := by
    intro s hs
    cases s with
    | nil => simp [char]
    | cons e s =>
        have other : e ≠ 0#8 := fun same => hs (same ▸ List.mem_cons_self)
        simp [char, other]
  simp only [strcmp, skip, nonzero, nonzero', differ, ne_eq, not_false_eq_true, and_self, if_true,
    if_false, empty ha, empty hb]
  by_cases first : a = [] <;> by_cases second : b = [] <;> simp [first, second]

theorem compares_cons (nonzero : c ≠ 0#8) : Compares (c :: a) (c :: b) ↔ Compares a b := by
  have same {x y : List (BitVec 8)} : strcmp (c :: x) (c :: y) = strcmp x y := strcmp_cons nonzero
  constructor
  · rintro ⟨equal, before, after, opposite⟩
    rw [same] at equal before after opposite
    rw [same] at opposite
    exact ⟨equal.trans (by simp), fun h => before (before_cons.mpr h),
        fun h => after (before_cons.mpr h), opposite⟩
  · rintro ⟨equal, before, after, opposite⟩
    refine ⟨?_, fun h => ?_, fun h => ?_, ?_⟩
    · rw [same, equal]
      simp
    · exact same.trans (before (before_cons.mp h))
    · exact same.trans (after (before_cons.mp h))
    · rw [same, same]
      exact opposite

theorem Compares.symm (h : Compares a b) : Compares b a := by
  obtain ⟨equal, before, after, opposite⟩ := h
  have flipped : strcmp b a = -strcmp a b := by omega
  refine ⟨?_, fun first => ?_, fun first => ?_, flipped⟩
  · rw [flipped, eq_comm (a := b), ← equal]
    omega
  · rw [flipped, after first]
  · rw [flipped, before first]
    rfl

/-- The end of a string is told from anything that goes on. -/
theorem compares_nil (hb : 0#8 ∉ b) : Compares [] b := by
  cases b with
  | nil => exact ⟨by decide, by decide, by decide, by decide⟩
  | cons d b =>
      have other : d ≠ 0#8 := fun same => hb (same ▸ List.mem_cons_self)
      have low : strcmp [] (d :: b) = -1 := by simp [strcmp, skip, char, other]
      have high : strcmp (d :: b) [] = 1 := by simp [strcmp, skip, char, other]
      refine ⟨by simp [low], fun _ => low, fun before => ?_, by rw [low, high]⟩
      simp [Before] at before

theorem compares_differ (nonzero : c ≠ 0#8) (nonzero' : d ≠ 0#8) (lower : c.toInt < d.toInt)
    (ha : 0#8 ∉ a)
    (hb : 0#8 ∉ b) : Compares (c :: a) (d :: b) ↔ a = [] ∧ b ≠ [] := by
  have differ : c ≠ d := by
    rintro rfl
    exact Int.lt_irrefl _ lower
  have forth := strcmp_differ nonzero nonzero' differ ha hb
  have back := strcmp_differ nonzero' nonzero differ.symm hb ha
  have first : Before (c :: a) (d :: b) := (before_differ differ).mpr lower
  constructor
  · intro h
    have low := h.before first
    rw [forth] at low
    by_cases empty : a = [] <;> by_cases empty' : b = [] <;> simp [empty, empty'] at low ⊢
  · rintro ⟨rfl, some⟩
    simp only [if_true, if_neg some] at forth back
    refine ⟨?_, fun _ => forth, fun after => ?_, by rw [forth, back]⟩
    · rw [forth]
      simp [differ]
    · rw [before_differ differ.symm] at after
      omega

theorem compares_iff (ha : 0#8 ∉ a) (hb : 0#8 ∉ b) : Compares a b ↔ Ends a b := by
  induction a generalizing b with
  | nil => exact iff_of_true (compares_nil hb) trivial
  | cons c a ih =>
      cases b with
      | nil => exact iff_of_true (compares_nil ha).symm trivial
      | cons d b =>
          simp only [List.mem_cons, not_or] at ha hb
          by_cases same : c = d
          · subst same
            rw [compares_cons (Ne.symm ha.1), ih ha.2 hb.2, Ends, if_pos rfl]
          · rw [Ends, if_neg same]
            have apart : c.toInt ≠ d.toInt := fun eq => same (BitVec.eq_of_toInt_eq eq)
            split
            · rename_i lower
              exact compares_differ (Ne.symm ha.1) (Ne.symm hb.1) lower ha.2 hb.2
            · have higher : d.toInt < c.toInt := by omega
              rw [← compares_differ (Ne.symm hb.1) (Ne.symm ha.1) higher hb.2 ha.2]
              exact ⟨.symm, .symm⟩

/-- "ab" and "abc" -/
theorem compares_prefix : Compares [97#8, 98#8] [97#8, 98#8, 99#8] :=
  (compares_iff (by decide) (by decide)).mpr (by simp [Ends])

/-- "ab" and "ac" are taken for equal. -/
theorem strcmp_confuses : ¬ ∀ a b : List (BitVec 8), 0#8 ∉ a → 0#8 ∉ b → Compares a b := by
  intro compares
  have told := (compares [97#8, 98#8] [97#8, 99#8] (by decide) (by decide)).equal.mp (by decide)
  exact absurd told (by decide)

end Common

end Krypton
