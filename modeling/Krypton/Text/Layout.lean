import Mathlib.Data.List.GetD
import Krypton.Text.Vsprintf

/-! # The layout of a number

What `number` prints, as a manual would say it: a sign, a mark of the base and
at least so many digits, put to one end of a field.
-/

namespace Krypton

namespace Vsprintf

/-- The characters in front of a number. -/
def signOf (f : Flags) (num : BitVec 32) : List (BitVec 8) :=
  if f.sign ∧ num.toInt < 0 then [ascii '-']
  else if f.plus then [ascii '+'] else if f.space then [ascii ' '] else []

def magnitude (f : Flags) (num : BitVec 32) : Nat := if f.sign then num.toInt.natAbs else num.toNat

def symbols (f : Flags) : List (BitVec 8) := if f.small then lower else upper

/-- The mark of the base. -/
def markOf (f : Flags) (base : Nat) : List (BitVec 8) :=
  if f.special then
    if base = 8 then [ascii '0'] else if base = 16 then [ascii '0', (symbols f).getD 33 0#8] else []
  else []

/-- The digits of a number, the last one first. -/
def digitsOf (f : Flags) (base n : Nat) : List (BitVec 8) :=
  if n = 0 then [ascii '0'] else (Nat.digits base n).map fun d => (symbols f).getD d 0#8

/-- At least `precision` digits. -/
def numeral (f : Flags) (base precision n : Nat) : List (BitVec 8) :=
  .replicate (precision - (digitsOf f base n).length) (ascii '0') ++ (digitsOf f base n).reverse

/-- A field of at least `width` characters: what it is filled up with stands in front of it, behind
    it or, where it is zeros, between its two parts. -/
def justify (f : Flags) (width : Nat) (front body : List (BitVec 8)) : List (BitVec 8) :=
  let missing := width - (front.length + body.length)
  if f.left then front ++ body ++ .replicate missing (ascii ' ')
  else if f.zeropad then front ++ .replicate missing (ascii '0') ++ body
  else .replicate missing (ascii ' ') ++ front ++ body

def integer (f : Flags) (base width precision : Nat) (num : BitVec 32) : List (BitVec 8) :=
  justify f width (signOf f num ++ markOf f base) (numeral f base precision (magnitude f num))

variable {f : Flags} {num : BitVec 32} {base width precision n : Nat} {size : Int} {c : BitVec 8}

theorem int_eq {x : Int} (low : -2 ^ 31 ≤ x) (high : x < 2 ^ 31) : int x = x :=
  Int.bmod_eq_of_le (by omega) (by omega)

theorem magnitude_negative (negative : num.toInt < 0) : (-num).toNat = num.toInt.natAbs := by
  have small := num.isLt
  rw [BitVec.toInt_eq_toNat_cond] at negative ⊢
  rw [BitVec.toNat_neg]
  split at negative <;> omega

theorem digitsOf_length (two : 2 ≤ base) (small : n < 2 ^ 32) : 1 ≤ (digitsOf f base n).length ∧
    (digitsOf f base n).length ≤ 32 := by
  unfold digitsOf
  split
  · simp
  · next positive =>
      have bound : n < base ^ 32 := Nat.lt_of_lt_of_le small (Nat.pow_le_pow_left two 32)
      have short := (Nat.digits_length_le_iff (b := base) (k := 32) two n).mpr bound
      have some := Nat.digits_ne_nil_iff_ne_zero (b := base).mpr positive
      rw [List.length_map]
      exact ⟨List.length_pos_iff.mpr some, short⟩

/-- `do_div` stores the digits, where there is room for them. -/
theorem do_div_eq {digits : List (BitVec 8)} (two : 2 ≤ base) (most : base ≤ 36) (room : Nat)
    (roomy : (Nat.digits base num.toNat).length ≤ room) :
    do_div digits base room num = some ((Nat.digits base num.toNat).map fun d =>
        digits.getD d 0#8) := by
  induction room generalizing num with
  | zero =>
      have empty := List.length_eq_zero_iff.mp (Nat.le_zero.mp roomy)
      have zero : num = 0 := BitVec.eq_of_toNat_eq (Nat.digits_eq_nil_iff_eq_zero.mp empty)
      rw [empty, do_div, if_pos zero, List.map_nil]
  | succ room ih =>
      rw [do_div]
      split
      · next zero => simp [zero]
      · next other =>
          have positive : 0 < num.toNat :=
            Nat.pos_of_ne_zero fun zero => other (BitVec.eq_of_toNat_eq zero)
          have quotient : (num / BitVec.ofNat 32 base).toNat = num.toNat / base := by
            rw [BitVec.toNat_udiv, BitVec.toNat_ofNat, Nat.mod_eq_of_lt (by omega)]
          have split := Nat.digits_def' two positive
          have rest : (Nat.digits base (num / BitVec.ofNat 32 base).toNat).length ≤ room := by
            rw [split, List.length_cons] at roomy
            rw [quotient]
            omega
          rw [ih rest, split, quotient]
          rfl

theorem tmp_eq (two : 2 ≤ base) (most : base ≤ 36) :
    (if num = 0 then some [ascii '0'] else do_div (symbols f) base 36 num) =
      some (digitsOf f base num.toNat) := by
  unfold digitsOf
  by_cases zero : num = 0
  · simp [zero]
  · have other : num.toNat ≠ 0 := fun same => zero (BitVec.eq_of_toNat_eq same)
    have short := (digitsOf_length (f := f) two num.isLt).2
    rw [digitsOf, if_neg other, List.length_map] at short
    rw [if_neg zero, if_neg other, do_div_eq two most 36 (by omega)]

/-- Nothing is stored any more. -/
theorem countdown_none (none : size ≤ 0) : (countdown c size).1 = [] := by
  rw [countdown, Int.toNat_of_nonpos none]
  rfl

theorem countdown_size (low : -2 ^ 31 < size) : (countdown c size).2 = min size 0 - 1 :=
  int_eq (by omega) (by omega)

/-- The loops that fill up the field run where the flags say. -/
theorem fill_eq {front body : List (BitVec 8)} (low : -2 ^ 31 + 1 < size)
    (missing : size.toNat = width - (front.length + body.length)) :
    let (before, size) := if f.zeropad ∨ f.left then ([], size) else countdown (ascii ' ') size
    let (filled, size) :=
      if f.left then ([], size) else countdown (if f.zeropad then ascii '0' else ascii ' ') size
    before ++ front ++ filled ++ body ++ (countdown (ascii ' ') size).1 =
        justify f width front body := by
  have first (c : BitVec 8) : (countdown c size).2 ≤ 0 := by
    rw [countdown_size (by omega)]
    omega
  have second (c d : BitVec 8) : (countdown c (countdown d size).2).2 ≤ 0 := by
    rw [countdown_size (c := d) (by omega), countdown_size (by omega)]
    omega
  unfold justify
  rw [← missing]
  cases left : f.left with
  | true => simp [countdown]
  | false =>
      cases zeropad : f.zeropad with
      | true =>
          have behind := countdown_none (c := ascii ' ') (first (ascii '0'))
          simp [behind]
          simp [countdown]
      | false =>
          have filled := countdown_none (c := ascii ' ') (first (ascii ' '))
          have behind := countdown_none (c := ascii ' ') (second (ascii ' ') (ascii ' '))
          simp [filled, behind]
          simp [countdown]

/-- The word that is divided. -/
def unsignedOf (f : Flags) (num : BitVec 32) : BitVec 32 :=
  if f.sign ∧ num.toInt < 0 then -num else num

theorem unsignedOf_toNat : (unsignedOf f num).toNat = magnitude f num := by
  unfold unsignedOf magnitude
  by_cases negative : f.sign ∧ num.toInt < 0
  · rw [if_pos negative, if_pos negative.1, magnitude_negative negative.2]
  · rw [if_neg negative]
    split
    · next sign =>
        have positive : 0 ≤ num.toInt := by
          by_contra below
          exact negative ⟨sign, by omega⟩
        rw [BitVec.toInt_eq_toNat_cond] at positive ⊢
        split at positive <;> omega
    · rfl

/-- Where the left end is asked for, zeros are not. -/
def cleared (f : Flags) : Flags := if f.left then { f with zeropad := false } else f

theorem justify_cleared {front body : List (BitVec 8)} :
    justify (cleared f) width front body = justify f width front body := by
  unfold justify cleared
  cases left : f.left <;> simp [left]

theorem markOf_length : (markOf f base).length =
    if f.special then if base = 16 then 2 else if base = 8 then 1 else 0 else 0 := by
  unfold markOf
  split
  · by_cases eight : base = 8
    · simp [eight]
    · by_cases sixteen : base = 16 <;> simp [eight, sixteen]
  · rfl

theorem storeNumber_eq {tmp sign : List (BitVec 8)} {field_width precision : Int} (base : Nat)
    (short : sign.length ≤ 1)
    (digits : tmp.length ≤ 32) (wide : -1 ≤ field_width) (width_lt : field_width < 2 ^ 31)
    (precise : -1 ≤ precision)
    (precision_lt : precision < 2 ^ 31 - 5) :
    storeNumber (symbols f) tmp sign base field_width precision f =
      justify f field_width.toNat (sign ++ markOf f base)
        (.replicate (precision.toNat - tmp.length) (ascii '0') ++ tmp.reverse) := by
  have signed :
      (if sign ≠ [] then int (field_width - 1) else field_width) = field_width - sign.length := by
    cases sign with
    | nil => simp
    | cons c cs =>
        have alone : cs = [] := by simpa using short
        rw [alone, if_pos (by simp), int_eq (by omega) (by omega)]
        rfl
  have marked : (if f.special then
      if base = 16 then int (field_width - sign.length - 2)
        else if base = 8 then int (field_width - sign.length - 1)
        else field_width - sign.length
      else field_width - sign.length) = field_width - sign.length - (markOf f base).length := by
    rw [markOf_length]
    have two := int_eq (x := field_width - sign.length - 2) (by omega) (by omega)
    have one := int_eq (x := field_width - sign.length - 1) (by omega) (by omega)
    rw [two, one]
    repeat' split
    all_goals simp
  have most : (markOf f base).length ≤ 2 := by
    rw [markOf_length]
    repeat' split
    all_goals omega
  have least : (if (tmp.length : Int) > precision then (tmp.length : Int) else precision) =
      max (tmp.length : Int) precision := by
    split <;> omega
  have size := int_eq
      (x := field_width - sign.length - (markOf f base).length - max (tmp.length : Int) precision)
    (by omega) (by omega)
  have zeros : (countdown (ascii '0') (max (tmp.length : Int) precision - tmp.length)).1 =
      List.replicate (precision.toNat - tmp.length) (ascii '0') := by
    have count : (max (tmp.length : Int) precision - tmp.length).toNat =
        precision.toNat - tmp.length := by omega
    rw [countdown, count]
  have missing : (field_width - sign.length - (markOf f base).length -
      max (tmp.length : Int) precision).toNat =
      field_width.toNat - ((sign ++ markOf f base).length +
        (List.replicate (precision.toNat - tmp.length) (ascii '0') ++ tmp.reverse).length) := by
    simp only [List.length_append, List.length_replicate, List.length_reverse]
    omega
  have fill := fill_eq (f := f) (by omega) missing
  have mark : (if f.special then
      if base = 8 then [ascii '0']
        else if base = 16 then [ascii '0', (symbols f).getD 33 0#8] else []
      else []) = markOf f base := rfl
  simp only [storeNumber, signed, marked, least, size, zeros, mark]
  simpa only [List.append_assoc] using fill

/-- `number` prints the layout that the flags, the width and the precision ask for. -/
theorem number_eq (num : BitVec 32) {field_width precision : Int} (two : 2 ≤ base)
    (most : base ≤ 36)
    (wide : -1 ≤ field_width)
    (width_lt : field_width < 2 ^ 31) (precise : -1 ≤ precision)
    (precision_lt : precision < 2 ^ 31 - 5) :
    number num base field_width precision f =
      some (integer f base field_width.toNat precision.toNat num) := by
  have out : ¬ (base < 2 ∨ base > 36) := by omega
  have signed : takeSign num (cleared f) = (signOf f num, unsignedOf f num) := by
    have fields : (cleared f).sign = f.sign ∧ (cleared f).plus = f.plus ∧
        (cleared f).space = f.space := by
      unfold cleared
      split <;> exact ⟨rfl, rfl, rfl⟩
    unfold takeSign signOf unsignedOf
    rw [fields.1, fields.2.1, fields.2.2]
    split <;> rfl
  have tmp : (if unsignedOf f num = 0 then some [ascii '0'] else do_div (symbols f) base 36
      (unsignedOf f num)) =
      some (digitsOf f base (magnitude f num)) := by
    rw [tmp_eq two most, unsignedOf_toNat]
  have small : magnitude f num < 2 ^ 32 := unsignedOf_toNat (f := f) ▸ (unsignedOf f num).isLt
  have sign_length : (signOf f num).length ≤ 1 := by
    unfold signOf
    repeat' split
    all_goals simp
  have digits_length := (digitsOf_length (f := f) two small).2
  have store := storeNumber_eq (f := cleared f) base sign_length digits_length wide width_lt precise
      precision_lt
  have digits : symbols (cleared f) = symbols f := by
    unfold symbols cleared
    split <;> rfl
  have mark : markOf (cleared f) base = markOf f base := by
    unfold markOf
    rw [digits]
    unfold cleared
    split <;> rfl
  rw [justify_cleared, mark, digits] at store
  unfold number
  rw [if_neg out, ← cleared, ← symbols, signed]
  simp only [tmp, Option.map_some, store]
  rfl

/-! ## Reading a number back -/

/-- What is not a digit or a mark of the base. -/
def dressing (c : BitVec 8) : Bool := c = ascii ' ' ∨ c = ascii '+' ∨ c = ascii '-'

/-- The number in a field. -/
def read (f : Flags) (base : Nat) (cs : List (BitVec 8)) : Int :=
  let digits := (cs.filter (! dressing ·)).drop (markOf f base).length
  let n := Nat.ofDigits base (digits.reverse.map (symbols f).idxOf)
  if ascii '-' ∈ cs then -n else n

theorem symbol_value {d : Nat} (digit : d < 36) :
    (symbols f).idxOf ((symbols f).getD d 0#8) = d := by
  have all : ∀ d < 36, lower.idxOf (lower.getD d 0#8) = d ∧
      upper.idxOf (upper.getD d 0#8) = d := by decide
  unfold symbols
  split
  · exact (all d digit).1
  · exact (all d digit).2

theorem symbol_plain (d : Nat) : dressing ((symbols f).getD d 0#8) = false := by
  have all : ∀ d < 36, dressing (lower.getD d 0#8) = false ∧
      dressing (upper.getD d 0#8) = false := by decide
  unfold symbols
  by_cases digit : d < 36
  · split
    · exact (all d digit).1
    · exact (all d digit).2
  · have lengths : lower.length = 36 ∧ upper.length = 36 := by decide
    split
    · rw [List.getD_eq_default _ _ (by omega)]
      rfl
    · rw [List.getD_eq_default _ _ (by omega)]
      rfl

theorem digitsOf_plain : ∀ c ∈ digitsOf f base n, dressing c = false := by
  intro c mem
  unfold digitsOf at mem
  split at mem
  · cases List.mem_singleton.mp mem
    rfl
  · obtain ⟨d, -, rfl⟩ := List.mem_map.mp mem
    exact symbol_plain d

theorem markOf_plain : ∀ c ∈ markOf f base, dressing c = false := by
  have zero : dressing (ascii '0') = false := rfl
  have x := symbol_plain (f := f) 33
  unfold markOf
  split
  · split
    · simp [zero]
    · split
      · simp only [List.mem_cons, List.not_mem_nil, or_false, forall_eq_or_imp, forall_eq]
        exact ⟨zero, x⟩
      · simp
  · simp

theorem signOf_dressed : ∀ c ∈ signOf f num, dressing c := by
  intro c mem
  unfold signOf at mem
  repeat' split at mem
  all_goals simp at mem
  all_goals
    subst mem
    rfl

theorem filter_dressed {cs : List (BitVec 8)} (all : ∀ c ∈ cs, dressing c) :
    cs.filter (! dressing ·) = [] := by
  refine List.filter_eq_nil_iff.mpr fun c mem => ?_
  simp [all c mem]

theorem filter_plain {cs : List (BitVec 8)} (all : ∀ c ∈ cs, dressing c = false) :
    cs.filter (! dressing ·) = cs := by
  refine List.filter_eq_self.mpr fun c mem => ?_
  simp [all c mem]

/-- Without its dressing a field is the mark, some zeros and the digits. -/
theorem integer_plain (f : Flags) (base width precision : Nat) (num : BitVec 32) :
    ∃ zeros, (integer f base width precision num).filter (! dressing ·) =
      markOf f base ++ .replicate zeros (ascii '0') ++
        (digitsOf f base (magnitude f num)).reverse := by
  have sign : (signOf f num).filter (! dressing ·) = [] := filter_dressed signOf_dressed
  have mark : (markOf f base).filter (! dressing ·) = markOf f base := filter_plain markOf_plain
  have spaces (n : Nat) : (List.replicate n (ascii ' ')).filter (! dressing ·) = [] :=
    filter_dressed fun c mem => List.eq_of_mem_replicate mem ▸ rfl
  have zeros (n : Nat) :
      (List.replicate n (ascii '0')).filter (! dressing ·) = .replicate n (ascii '0') :=
    filter_plain fun c mem => List.eq_of_mem_replicate mem ▸ rfl
  have digits : (digitsOf f base (magnitude f num)).reverse.filter (! dressing ·) = _ :=
    filter_plain fun c mem => digitsOf_plain c (List.mem_reverse.mp mem)
  let padding := precision - (digitsOf f base (magnitude f num)).length
  let missing := width - ((signOf f num ++ markOf f base).length +
      (numeral f base precision (magnitude f num)).length)
  unfold integer justify numeral
  split
  · refine ⟨padding, ?_⟩
    simp only [List.filter_append, sign, mark, zeros, digits, spaces, List.nil_append,
        List.append_nil,
        List.append_assoc]
    rfl
  · split
    · refine ⟨missing + padding, ?_⟩
      simp only [List.filter_append, sign, mark, zeros, digits, List.nil_append, List.append_assoc,
        ← List.replicate_append_replicate]
      rfl
    · refine ⟨padding, ?_⟩
      simp only [List.filter_append, sign, mark, zeros, digits, spaces, List.nil_append,
          List.append_assoc]
      rfl

theorem minus_iff (f : Flags) (base width precision : Nat) (num : BitVec 32) :
    ascii '-' ∈ integer f base width precision num ↔ f.sign ∧ num.toInt < 0 := by
  have mark : ascii '-' ∉ markOf f base := fun mem => absurd (markOf_plain _ mem) (by decide)
  have digits : ascii '-' ∉ digitsOf f base (magnitude f num) :=
    fun mem => absurd (digitsOf_plain _ mem) (by decide)
  have fill (c : BitVec 8) (n : Nat) (other : c ≠ ascii '-') : ascii '-' ∉ List.replicate n c :=
    fun mem => other (List.eq_of_mem_replicate mem).symm
  have spaces (n : Nat) := fill (ascii ' ') n (by decide)
  have zeros (n : Nat) := fill (ascii '0') n (by decide)
  have sign : ascii '-' ∈ signOf f num ↔ f.sign ∧ num.toInt < 0 := by
    unfold signOf
    split
    · next negative => simp [negative]
    · next positive =>
        simp only [positive, iff_false]
        repeat' split
        all_goals decide
  unfold integer justify numeral
  repeat' split
  all_goals simp only [List.mem_append, List.mem_reverse, mark, digits, spaces, zeros, or_false,
      false_or, sign]

theorem digitsOf_value (two : 2 ≤ base) (most : base ≤ 36) :
    Nat.ofDigits base ((digitsOf f base n).map (symbols f).idxOf) = n := by
  unfold digitsOf
  split
  · next zero =>
      have none : (symbols f).idxOf (ascii '0') = 0 :=
        symbol_value (f := f) (d := 0) (by decide) ▸ by
        unfold symbols
        split <;> rfl
      simp [none, zero]
  · rw [List.map_map]
    have same : (Nat.digits base n).map
        ((symbols f).idxOf ∘ fun d => (symbols f).getD d 0#8) = Nat.digits base n := by
      refine (List.map_congr_left fun d mem => ?_).trans (List.map_id _)
      have below : d < base := Nat.digits_lt_base two mem
      exact symbol_value (Nat.lt_of_lt_of_le below most)
    rw [same, Nat.ofDigits_digits]

/-- Every number can be read back from its field. -/
theorem read_integer (width precision : Nat) (two : 2 ≤ base) (most : base ≤ 36) (num : BitVec 32) :
    read f base (integer f base width precision num) = if f.sign then num.toInt else num.toNat := by
  obtain ⟨zeros, plain⟩ := integer_plain f base width precision num
  have zero : (symbols f).idxOf (ascii '0') = 0 := by
    unfold symbols
    split <;> rfl
  unfold read
  simp only [plain, minus_iff, List.append_assoc, List.drop_left, List.reverse_append,
    List.reverse_reverse, List.reverse_replicate, List.map_append, List.map_replicate, zero,
    Nat.ofDigits_append_replicate_zero, digitsOf_value two most]
  unfold magnitude
  split
  · next negative =>
      rw [if_pos negative.1, if_pos negative.1]
      omega
  · next other =>
      split
      · next sign =>
          have positive : ¬ num.toInt < 0 := fun below => other ⟨sign, below⟩
          omega
      · rfl

theorem integer_length_le (f : Flags) (base width precision : Nat) (num : BitVec 32) :
    width ≤ (integer f base width precision num).length := by
  unfold integer justify
  repeat' split
  all_goals
    simp only [List.length_append, List.length_replicate]
    omega

/-- Whatever the flags, what `number` prints has the layout that they, the width and the precision
    ask for, fills the field and can be read back. The width and the precision are those that
    `vsprintf` passes, -1 for none, up to where the sums of `number` would overflow. -/
theorem number_reads (f : Flags) (num : BitVec 32) {base : Nat} {field_width precision : Int}
    (two : 2 ≤ base)
    (most : base ≤ 36)
    (wide : -1 ≤ field_width) (width_lt : field_width < 2 ^ 31) (precise : -1 ≤ precision)
        (precision_lt : precision < 2 ^ 31 - 5) :
    ∃ s, number num base field_width precision f = some s ∧
        s = integer f base field_width.toNat precision.toNat num ∧
      field_width ≤ s.length ∧ read f base s = if f.sign then num.toInt else num.toNat := by
  have filled := integer_length_le f base field_width.toNat precision.toNat num
  exact ⟨_, number_eq num two most wide width_lt precise precision_lt, rfl, by omega,
    read_integer field_width.toNat precision.toNat two most num⟩

theorem number_reads_negative : ∃ s, number (-7) 10 6 3 { sign := true } = some s ∧
    s = integer { sign := true } 10 6 3 (-7) ∧ 6 ≤ (s.length : Int) ∧
        read { sign := true } 10 s = -7 :=
  number_reads { sign := true } (-7) (by decide) (by decide) (by decide) (by decide) (by decide)
      (by decide)

end Vsprintf

end Krypton
