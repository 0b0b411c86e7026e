import Mathlib.Algebra.Group.Basic
import Mathlib.Logic.Function.Basic

/-! # Stacks of words in a memory

A memory gives the word at every address; addresses are a group, so that they
may wrap around. A stack grows downwards by one word for every push. What is
pushed is read upwards from the last word on.
-/

namespace WordStack

variable {Address Word : Type*} [AddCommGroup Address]

/-- `n` words from `p` on. -/
def words (word : Address) (memory : Address → Word) (p : Address) (n : Nat) : List Word :=
  (List.range n).map fun i => memory (p + i • word)

/-- So many words do not overlap. -/
def Apart (word : Address) (n : Nat) : Prop := ∀ i < n, ∀ j < n, i • word = j • word → i = j

variable {word : Address} {memory : Address → Word} {p : Address} {n k : Nat}

theorem words_succ : words word memory p (n + 1) = memory p :: words word memory (p + word) n := by
  have next (i : Nat) : p + (i + 1) • word = p + word + i • word := by
    rw [succ_nsmul', add_assoc]
  simp [words, List.range_succ_eq_map, List.map_map, Function.comp_def, next]

theorem words_congr {memory' : Address → Word}
    (same : ∀ i < n, memory' (p + i • word) = memory (p + i • word)) :
    words word memory' p n = words word memory p n :=
  List.map_congr_left fun i mem => same i (List.mem_range.mp mem)

theorem Apart.mono (apart : Apart word n) (less : k ≤ n) : Apart word k :=
  fun i small j small' => apart i (Nat.lt_of_lt_of_le small less) j (Nat.lt_of_lt_of_le small' less)

variable [DecidableEq Address]

/-- What pushing one word after the other leaves in memory. -/
def push (word : Address) (memory : Address → Word) (sp : Address) : List Word → Address → Word
  | [] => memory
  | w :: ws => push word (Function.update memory (sp - word) w) (sp - word) ws

variable {sp : Address} {ws : List Word}

theorem push_append (ws' : List Word) : push word memory sp (ws ++ ws') =
    push word (push word memory sp ws) (sp - ws.length • word) ws' := by
  induction ws generalizing memory sp with
  | nil => simp [push]
  | cons w ws ih =>
      have next : sp - word - ws.length • word = sp - (ws.length + 1) • word := by
        rw [succ_nsmul', sub_sub]
      rw [List.cons_append, push, push, ih, List.length_cons, next]

/-- A word that is not pushed over. -/
theorem push_other {a : Address} (other : ∀ i < ws.length, a ≠ sp - (i + 1) • word) :
    push word memory sp ws a =
    memory a := by
  induction ws generalizing memory sp with
  | nil => rfl
  | cons w ws ih =>
      have first := other 0 (Nat.zero_lt_succ _)
      rw [Nat.zero_add, one_nsmul] at first
      rw [push, ih, Function.update_of_ne first]
      intro i small same
      refine other (i + 1) (Nat.succ_lt_succ small) (same.trans ?_)
      rw [succ_nsmul' word (i + 1), sub_sub]

/-- The words on a stack: those that were pushed, the last one first, and those that were there
    before. -/
theorem words_push (memory : Address → Word) (sp : Address) (ws : List Word)
    (apart : Apart word (ws.length + k)) :
    words word (push word memory sp ws) (sp - ws.length • word) (ws.length + k) = ws.reverse ++
        words word memory sp k := by
  induction ws generalizing memory sp k with
  | nil => simp [push]
  | cons w ws ih =>
      have count : (w :: ws).length + k = ws.length + (k + 1) := by
        rw [List.length_cons]
        omega
      have bottom : sp - (w :: ws).length • word = sp - word - ws.length • word := by
        rw [List.length_cons, succ_nsmul', sub_sub]
      have above :
          words word (Function.update memory (sp - word) w) sp k = words word memory sp k := by
        refine words_congr fun i small => Function.update_of_ne (fun same => ?_) _ _
        have wrapped : (i + 1) • word = 0 • word := by
          rw [succ_nsmul, zero_nsmul]
          have moved : sp + i • word + word = sp := eq_sub_iff_add_eq.mp same
          rw [add_assoc] at moved
          exact add_eq_left.mp moved
        have equal := apart (i + 1) (by rw [count]; omega) 0 (by rw [count]; omega) wrapped
        omega
      rw [count] at apart ⊢
      rw [push, bottom, ih _ _ apart, words_succ, Function.update_self, sub_add_cancel, above,
        List.reverse_cons, List.append_assoc]
      rfl

/-- Whatever is pushed further, the words above it stay. -/
theorem words_push_append (memory : Address → Word) (sp : Address) (ws ws' : List Word)
    (apart : Apart word (ws'.length + (ws.length + k))) :
    words word (push word memory sp (ws ++ ws')) (sp - ws.length • word) (ws.length + k) =
      ws.reverse ++ words word memory sp k := by
  rw [← words_push memory sp ws (apart.mono (by omega)), push_append]
  refine words_congr fun i small => push_other fun j below same => ?_
  have wrapped : (i + (j + 1)) • word = 0 • word := by
    rw [add_nsmul, zero_nsmul]
    have moved := eq_sub_iff_add_eq.mp same
    rw [add_assoc] at moved
    exact add_eq_left.mp moved
  have equal := apart (i + (j + 1)) (by omega) 0 (by omega) wrapped
  omega

end WordStack
