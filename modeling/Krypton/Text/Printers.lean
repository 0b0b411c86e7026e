import Krypton.Device.Numbers
import Krypton.Text.Reports

/-! # Two ways to print a number

`monitor_write_dec` and `monitor_write_hex` print what `vsprintf` prints for
`%u` and `%x`, except that the hexadecimal digit of zero is left out.
-/

namespace Krypton

namespace Vsprintf

variable {string : BitVec 32 → List (BitVec 8)} {f : Flags} {num : BitVec 32}
    {base n width precision : Nat}

theorem symbol_lower {d : Nat} (digit : d < 16) : Numbers.symbol d = lower.getD d 0#8 := by
  have all : ∀ d < 16, Numbers.symbol d = lower.getD d 0#8 := by decide
  exact all d digit

theorem symbol_upper {d : Nat} (digit : d < 10) : Numbers.symbol d = upper.getD d 0#8 := by
  have all : ∀ d < 10, Numbers.symbol d = upper.getD d 0#8 := by decide
  exact all d digit

/-- The digits of a number are the only numeral for it. -/
theorem numeral_unique {ds : List Nat} (two : 2 ≤ base) (other : n ≠ 0)
    (numeral : Numbers.Numeral base ds n) :
    ds = (Nat.digits base n).reverse := by
  have last (nonempty : ds.reverse ≠ []) : ds.reverse.getLast nonempty ≠ 0 := by
    intro zero
    rw [List.getLast_reverse] at zero
    have first : ds.head? = some 0 := by
      rw [← zero]
      exact List.head?_eq_some_head ..
    have alone := numeral.leading first
    have value := numeral.value
    rw [alone] at value
    exact other value.symm
  have digits := Nat.digits_ofDigits base two ds.reverse
      (fun d mem => numeral.below d (List.mem_reverse.mp mem)) last
  rw [numeral.value] at digits
  rw [digits, List.reverse_reverse]

/-- Without flags, a width and a precision there are only digits. -/
theorem integer_bare (sign : f.sign = false) (plus : f.plus = false) (space : f.space = false)
    (special : f.special = false) :
    integer f base 0 0 num = (digitsOf f base num.toNat).reverse := by
  have none : signOf f num = [] := by simp [signOf, sign, plus, space]
  have mark : markOf f base = [] := if_neg (by simp [special])
  have value : magnitude f num = num.toNat := if_neg (by simp [sign])
  unfold integer justify numeral
  rw [none, mark, value]
  simp

theorem decimal_prints (string : BitVec 32 → List (BitVec 8)) (num : BitVec 32) :
    vsprintf string (chars "%u") [num] =
      some { str := (digitsOf {} 10 num.toNat).reverse, args := [] } := by
  have sound : ∀ p ∈ pieces (chars "%u"), p.Sound := by decide +kernel
  have ps : pieces (chars "%u") =
      [.directive ⟨[], [], none, none, some (ascii 'u')⟩] := by decide +kernel
  have field (t : Text) :=
    (field_layout string (t := t) (d := ⟨[], [], none, none, some (ascii 'u')⟩)
    (l := ({}, 10, 0)) rfl).2.2
  have bare : integer {} 10 0 0 num = (digitsOf {} 10 num.toNat).reverse :=
    integer_bare rfl rfl rfl rfl
  rw [vsprintf_exec (sound_fits sound), ps]
  simp [List.foldlM_cons, Piece.exec, field, Text.va_arg, Text.put, bare]

theorem hexadecimal_prints (string : BitVec 32 → List (BitVec 8)) (num : BitVec 32) :
    vsprintf string (chars "0x%x") [num] =
      some
        { str := ascii '0' :: ascii 'x' :: (digitsOf { small := true } 16 num.toNat).reverse
          args := [] } := by
  have sound : ∀ p ∈ pieces (chars "0x%x"), p.Sound := by decide +kernel
  have ps : pieces (chars "0x%x") =
      [.literal (ascii '0'), .literal (ascii 'x'), .directive ⟨[], [], none, none,
          some (ascii 'x')⟩] :=
          by decide +kernel
  have field (t : Text) :=
    (field_layout string (t := t) (d := ⟨[], [], none, none, some (ascii 'x')⟩)
    (l := ({ small := true }, 16, 0)) rfl).2.2
  have bare : integer { small := true } 16 0 0 num =
      (digitsOf { small := true } 16 num.toNat).reverse :=
    integer_bare rfl rfl rfl rfl
  rw [vsprintf_exec (sound_fits sound), ps]
  simp [List.foldlM_cons, Piece.exec, field, Text.va_arg, Text.put, bare]

/-- The decimal printers agree on every number, and the hexadecimal ones on every number
    but zero. -/
theorem printers_agree (string : BitVec 32 → List (BitVec 8)) (c c2 : Nat → BitVec 8)
    (num : BitVec 32) :
    vsprintf string (chars "%u") [num] =
        some { str := Numbers.monitor_write_dec c c2 num, args := [] } ∧
      (vsprintf string (chars "0x%x") [num] =
          some { str := Numbers.monitor_write_hex num, args := [] } ↔
        num ≠ 0) := by
  rw [decimal_prints, hexadecimal_prints]
  by_cases zero : num = 0
  · subst zero
    have dec : Numbers.monitor_write_dec c c2 0 = [ascii '0'] := rfl
    have hex : Numbers.monitor_write_hex 0 = [ascii '0', ascii 'x'] := by decide
    rw [dec, hex]
    exact ⟨rfl, by simp [digitsOf]⟩
  · have other : num.toNat ≠ 0 := fun same => zero (BitVec.eq_of_toNat_eq same)
    have dec : Numbers.monitor_write_dec c c2 num = (digitsOf {} 10 num.toNat).reverse := by
      rw [Numbers.monitor_write_dec_eq zero, digitsOf, if_neg other, ← List.map_reverse]
      refine List.map_congr_left fun d mem => symbol_upper ?_
      exact Nat.digits_lt_base (by decide) (List.mem_reverse.mp mem)
    have hex : Numbers.monitor_write_hex num =
        ascii '0' :: ascii 'x' :: (digitsOf { small := true } 16 num.toNat).reverse := by
      have sent : Numbers.monitor_write_hex num = ascii '0' :: ascii 'x' ::
          Numbers.nibbles num true 8 := rfl
      rw [sent, Numbers.nibbles_eq, numeral_unique (by decide) other (Numbers.hex_numeral zero),
          digitsOf,
          if_neg other,
        ← List.map_reverse]
      refine congrArg (_ :: _ :: ·) (List.map_congr_left fun d mem => symbol_lower ?_)
      exact Nat.digits_lt_base (by decide) (List.mem_reverse.mp mem)
    rw [dec, hex]
    exact ⟨rfl, fun _ => zero, fun _ => rfl⟩

end Vsprintf

end Krypton
