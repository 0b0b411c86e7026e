import Mathlib.Data.Nat.Digits.Lemmas
import Krypton.Device.Monitor

/-! # Printed numbers

`monitor_write_hex` and `monitor_write_dec` of `monitor.c`. They do nothing but
send characters to `monitor_put`, and each is the list of what it sends.
-/

namespace Krypton

namespace Numbers

/-- What `monitor_write` sends: all before the null byte. -/
def monitor_write (s : List (BitVec 8)) : List (BitVec 8) := s.takeWhile (· ≠ 0#8)

/-- The loop of `monitor_write_hex` over the last `k` nibbles. -/
def nibbles (n : BitVec 32) (noZeroes : Bool) : Nat → List (BitVec 8)
  | 0 => []
  | k + 1 =>
      let tmp := n >>> (4 * k) &&& 0xF#32
      if tmp = 0#32 ∧ noZeroes then nibbles n noZeroes k
      else if tmp ≥ 0xA#32 then (tmp - 0xA#32 + 0x61#32).setWidth 8 :: nibbles n false k
      else (tmp + 0x30#32).setWidth 8 :: nibbles n false k

def monitor_write_hex (n : BitVec 32) : List (BitVec 8) :=
  monitor_write [0x30#8, 0x78#8, 0#8] ++ nibbles n true 8

/-- `while (acc > 0)`, with the buffer and the index that it leaves -/
def digits (c : Nat → BitVec 8) (i : Nat) (acc : BitVec 32) : (Nat → BitVec 8) × Nat :=
  if acc > 0#32 then
    digits (Function.update c i ((0x30#32 + acc % 10#32).setWidth 8)) (i + 1) (acc / 10#32)
  else (c, i)
termination_by acc.toNat
decreasing_by
  have positive : 0 < acc.toNat := by bv_omega
  simp only [BitVec.toNat_udiv]
  exact Nat.div_lt_self positive (by decide)

/-- `while (i >= 0)`: the argument is one more than `i`. -/
def backwards (c c2 : Nat → BitVec 8) (j : Nat) : Nat → Nat → BitVec 8
  | 0 => c2
  | i + 1 => backwards c (Function.update c2 i (c j)) (j + 1) i

/-- `c` and `c2` are what the two buffers hold before they are written. -/
def monitor_write_dec (c c2 : Nat → BitVec 8) (n : BitVec 32) : List (BitVec 8) :=
  if n = 0#32 then [0x30#8]
  else
    let (c, i) := digits c 0 n
    let c := Function.update c i 0#8
    let c2 := Function.update c2 i 0#8
    monitor_write ((List.range 32).map (backwards c c2 0 i))

/-! ## Positional notation -/

/-- The character of a digit. -/
def symbol (d : Nat) : BitVec 8 :=
  if d < 10 then .ofNat 8 (0x30 + d) else .ofNat 8 (0x61 + (d - 10))

/-- The digits of `n`, the first one first, with no zero in front of them. -/
structure Numeral (base : Nat) (ds : List Nat) (n : Nat) : Prop where
  nonempty : ds ≠ []
  below : ∀ d ∈ ds, d < base
  leading : ds.head? = some 0 → ds = [0]
  value : Nat.ofDigits base ds.reverse = n

/-- The characters are a numeral for `n`. -/
def Shows (base : Nat) (cs : List (BitVec 8)) (n : Nat) : Prop :=
  ∃ ds, cs = ds.map symbol ∧ Numeral base ds n

/-- The number can be read back from what either function prints. -/
structure Prints (c c2 : Nat → BitVec 8) (n : BitVec 32) : Prop where
  dec : Shows 10 (monitor_write_dec c c2 n) n.toNat
  hex : ∃ cs, monitor_write_hex n = 0x30#8 :: 0x78#8 :: cs ∧ Shows 16 cs n.toNat

/-! ## The hexadecimal digits -/

section Hex

variable {n : BitVec 32} {k : Nat}

/-- The nibble above the last `k`. -/
def nibble (n : BitVec 32) (k : Nat) : Nat := n.toNat / 16 ^ k % 16

theorem nibble_lt : nibble n k < 16 := Nat.mod_lt _ (by decide)

theorem toNat_nibble : (n >>> (4 * k) &&& 0xF#32).toNat = nibble n k := by
  have mask : (0xF#32).toNat = 2 ^ 4 - 1 := rfl
  rw [BitVec.toNat_and, BitVec.toNat_ushiftRight, mask, Nat.and_two_pow_sub_one_eq_mod,
    Nat.shiftRight_eq_div_pow, Nat.pow_mul]
  rfl

/-- The digits that the loop sends. -/
def nibbleDigits (n : BitVec 32) (noZeroes : Bool) : Nat → List Nat
  | 0 => []
  | k + 1 =>
      if nibble n k = 0 ∧ noZeroes then nibbleDigits n noZeroes k
      else nibble n k :: nibbleDigits n false k

theorem nibbles_eq (noZeroes : Bool) :
    nibbles n noZeroes k = (nibbleDigits n noZeroes k).map symbol := by
  induction k generalizing noZeroes with
  | zero => rfl
  | succ k ih =>
      have tmp := toNat_nibble (n := n) (k := k)
      have zero : n >>> (4 * k) &&& 0xF#32 = 0#32 ↔ nibble n k = 0 := by
        rw [← tmp]
        bv_omega
      have small := nibble_lt (n := n) (k := k)
      simp only [nibbles, nibbleDigits, zero]
      split
      · exact ih noZeroes
      · rw [List.map_cons, ← ih false]
        split
        · next high =>
            refine congrArg (· :: _) ?_
            rw [symbol, if_neg (by bv_omega)]
            bv_omega
        · next low =>
            refine congrArg (· :: _) ?_
            rw [symbol, if_pos (by bv_omega)]
            bv_omega

theorem nibbleDigits_length : (nibbleDigits n false k).length = k := by
  induction k with
  | zero => rfl
  | succ k ih => simp [nibbleDigits, ih]

theorem nibbleDigits_below (noZeroes : Bool) : ∀ d ∈ nibbleDigits n noZeroes k, d < 16 := by
  induction k generalizing noZeroes with
  | zero => nofun
  | succ k ih =>
      rw [nibbleDigits]
      split
      · exact ih noZeroes
      · exact List.forall_mem_cons.mpr ⟨nibble_lt, ih false⟩

/-- The zeros that are left out do not count. -/
theorem nibbleDigits_value (noZeroes : Bool) :
    Nat.ofDigits 16 (nibbleDigits n noZeroes k).reverse = n.toNat % 16 ^ k := by
  induction k generalizing noZeroes with
  | zero => simp [nibbleDigits, Nat.mod_one]
  | succ k ih =>
      have next : n.toNat % 16 ^ (k + 1) = n.toNat % 16 ^ k + 16 ^ k * nibble n k :=
        Nat.mod_pow_succ
      rw [nibbleDigits]
      split
      · next skipped => rw [ih noZeroes, next, skipped.1, Nat.mul_zero, Nat.add_zero]
      · rw [List.reverse_cons, Nat.ofDigits_append, ih false, List.length_reverse,
          nibbleDigits_length, Nat.ofDigits_singleton, next]

theorem nibbleDigits_head : (nibbleDigits n true k).head? ≠ some 0 := by
  induction k with
  | zero => nofun
  | succ k ih =>
      rw [nibbleDigits]
      split
      · exact ih
      · next other => simpa using other

theorem hex_numeral (other : n ≠ 0#32) : Numeral 16 (nibbleDigits n true 8) n.toNat := by
  have whole : n.toNat % 16 ^ 8 = n.toNat := Nat.mod_eq_of_lt n.isLt
  have value := (nibbleDigits_value (n := n) (k := 8) true).trans whole
  refine ⟨fun empty => other ?_, nibbleDigits_below true,
      fun first => absurd first nibbleDigits_head, value⟩
  rw [empty] at value
  exact BitVec.eq_of_toNat_eq value.symm

end Hex

/-! ## The decimal digits -/

section Dec

variable {c c2 : Nat → BitVec 8} {i j : Nat} {acc : BitVec 32}

/-- The digits stand in the buffer from `i` on, the last one first. -/
theorem digits_spec (c : Nat → BitVec 8) (i : Nat) (acc : BitVec 32) :
    (digits c i acc).2 = i + (Nat.digits 10 acc.toNat).length ∧
    (∀ k, (below : k < (Nat.digits 10 acc.toNat).length) →
      (digits c i acc).1 (i + k) = symbol (Nat.digits 10 acc.toNat)[k]) ∧
    ∀ k < i, (digits c i acc).1 k = c k := by
  fun_induction digits c i acc with
  | case1 c i acc more ih =>
      have positive : 0 < acc.toNat := by bv_omega
      have quotient : (acc / 10#32).toNat = acc.toNat / 10 := by simp
      obtain ⟨length, written, kept⟩ := ih
      rw [quotient] at length written
      have split := Nat.digits_def' (b := 10) (by decide) positive
      refine ⟨?_, fun k below => ?_, fun k before => ?_⟩
      · rw [length, split, List.length_cons]
        omega
      · cases k with
        | zero =>
            have rest : (acc % 10#32).toNat = acc.toNat % 10 := by simp
            refine (kept i (Nat.lt_succ_self i)).trans ?_
            rw [Function.update_self]
            simp only [split, List.getElem_cons_zero]
            have digit : acc.toNat % 10 < 10 := Nat.mod_lt _ (by decide)
            rw [symbol, if_pos digit, ← rest]
            rw [← rest] at digit
            generalize acc % 10#32 = d at digit ⊢
            bv_omega
        | succ k =>
            simp only [split, List.length_cons, Nat.add_lt_add_iff_right] at below
            have there := written k below
            simp only [split, List.getElem_cons_succ]
            rw [← there, Nat.add_right_comm, Nat.add_assoc]
      · rw [kept k (by omega), Function.update_of_ne (by omega)]
  | case2 c i acc done =>
      have zero : acc.toNat = 0 := by bv_omega
      refine ⟨?_, fun k below => ?_, fun _ _ => rfl⟩
      · simp [zero]
      · simp [zero] at below

theorem backwards_spec (k : Nat) :
    backwards c c2 j i k = if k < i then c (j + (i - 1 - k)) else c2 k := by
  induction i generalizing c2 j with
  | zero => rfl
  | succ i ih =>
      rw [backwards, ih]
      by_cases before : k < i
      · have place : j + 1 + (i - 1 - k) = j + (i + 1 - 1 - k) := by omega
        rw [if_pos before, if_pos (Nat.lt_succ_of_lt before), place]
      · rw [if_neg before]
        by_cases here : k = i
        · subst here
          rw [Function.update_self, if_pos (Nat.lt_succ_self k)]
          simp
        · rw [Function.update_of_ne here, if_neg (by omega)]

/-- The digits of a word leave room for the null byte. -/
theorem digits_length_lt (acc : BitVec 32) : (Nat.digits 10 acc.toNat).length < 32 := by
  have roomy : acc.toNat < 10 ^ 10 := Nat.lt_trans acc.isLt (by decide)
  have short := (Nat.digits_length_le_iff (b := 10) (k := 10) (by decide) acc.toNat).mpr roomy
  omega

theorem symbol_ne {d : Nat} (digit : d < 16) : symbol d ≠ 0#8 := by
  unfold symbol
  split <;> bv_omega

theorem dec_numeral {n : BitVec 32} (other : n ≠ 0#32) :
    Numeral 10 (Nat.digits 10 n.toNat).reverse n.toNat := by
  have positive : n.toNat ≠ 0 := fun zero => other (BitVec.eq_of_toNat_eq zero)
  have nonempty := Nat.digits_ne_nil_iff_ne_zero (b := 10).mpr positive
  refine ⟨?_, ?_, fun first => ?_, ?_⟩
  · rwa [ne_eq, List.reverse_eq_nil_iff]
  · intro d mem
    exact Nat.digits_lt_base (by decide) (List.mem_reverse.mp mem)
  · rw [List.head?_reverse, List.getLast?_eq_some_getLast nonempty] at first
    exact absurd (Option.some.inj first) (Nat.getLast_digit_ne_zero 10 positive)
  · rw [List.reverse_reverse, Nat.ofDigits_digits]

/-- The string ends at the null byte. -/
theorem monitor_write_map {f : Nat → BitVec 8} {k size : Nat} (short : k < size)
    (before : ∀ j < k, f j ≠ 0#8) (null : f k = 0#8) :
    monitor_write ((List.range size).map f) = (List.range k).map f := by
  obtain ⟨rest, rfl⟩ := Nat.exists_eq_add_of_lt short
  have sent : ∀ c ∈ (List.range k).map f, decide (c ≠ 0#8) = true := by simpa using before
  rw [Nat.add_assoc, List.range_add, List.map_append, monitor_write,
    List.takeWhile_append_of_pos sent,
    List.range_succ_eq_map, List.map_cons, List.map_cons, Nat.add_zero,
    List.takeWhile_cons_of_neg (by simpa using null), List.append_nil]

/-- The second buffer holds the digits the right way round. -/
theorem monitor_write_backwards {ds : List Nat} (short : ds.length < 32) (below : ∀ d ∈ ds, d < 16)
    (written : ∀ k, (inside : k < ds.length) → c k = symbol ds[k]) :
    monitor_write ((List.range 32).map (backwards (Function.update c ds.length 0#8)
      (Function.update c2 ds.length 0#8) 0 ds.length)) = ds.reverse.map symbol := by
  have mirrored : ∀ k, (inside : k < ds.length) → backwards (Function.update c ds.length 0#8)
      (Function.update c2 ds.length 0#8) 0 ds.length k = symbol
          (ds.get ⟨ds.length - 1 - k, by omega⟩) := by
    intro k inside
    have other : 0 + (ds.length - 1 - k) < ds.length := by omega
    rw [backwards_spec, if_pos inside, Function.update_of_ne (Nat.ne_of_lt other), written _ other]
    simp only [Nat.zero_add, List.get_eq_getElem]
  rw [monitor_write_map short]
  · apply List.ext_getElem
    · simp
    · intro k inside _
      have inside : k < ds.length := by simpa using inside
      simp [mirrored k inside]
  · intro k inside
    rw [mirrored k inside]
    exact symbol_ne (below _ (List.getElem_mem _))
  · rw [backwards_spec, if_neg (Nat.lt_irrefl _), Function.update_self]

theorem monitor_write_dec_eq {n : BitVec 32} (other : n ≠ 0#32) :
    monitor_write_dec c c2 n = (Nat.digits 10 n.toNat).reverse.map symbol := by
  obtain ⟨length, written, -⟩ := digits_spec c 0 n
  rw [Nat.zero_add] at length
  simp only [Nat.zero_add] at written
  have below : ∀ d ∈ Nat.digits 10 n.toNat, d < 16 := by
    intro d mem
    have digit := Nat.digits_lt_base (b := 10) (by decide) mem
    omega
  rw [monitor_write_dec, if_neg other]
  simp only [length]
  exact monitor_write_backwards (digits_length_lt n) below written

end Dec

/-! ## What is printed can be read back -/

theorem prints_iff (c c2 : Nat → BitVec 8) (n : BitVec 32) : Prints c c2 n ↔ n ≠ 0#32 := by
  constructor
  · rintro ⟨-, cs, sent, ds, rfl, numeral⟩ rfl
    have none : monitor_write_hex 0#32 = [0x30#8, 0x78#8] := by decide
    rw [none] at sent
    have empty : ds.map symbol = [] := by simpa using sent.symm
    exact numeral.nonempty (List.map_eq_nil_iff.mp empty)
  · intro other
    exact ⟨⟨_, monitor_write_dec_eq other, dec_numeral other⟩, _, rfl, _, nibbles_eq true,
        hex_numeral other⟩

/-- After `0x` there is no digit for zero. -/
theorem zero_unprinted : ¬ ∀ (c c2 : Nat → BitVec 8) (n : BitVec 32), Prints c c2 n := by
  intro all
  obtain ⟨cs, sent, ds, rfl, numeral⟩ := (all (fun _ => 0#8) (fun _ => 0#8) 0#32).hex
  have none : monitor_write_hex 0#32 = [0x30#8, 0x78#8] := by decide
  rw [none] at sent
  have empty : ds.map symbol = [] := by simpa using sent.symm
  exact numeral.nonempty (List.map_eq_nil_iff.mp empty)

end Numbers

end Krypton
