import Krypton.Text.Meaning

/-! # Reading printed numbers back

Where a format prints numbers only, and something that is no part of a number
follows each of them, the arguments can be read off the text.
-/

namespace Krypton

namespace Vsprintf

/-- What a number may show. -/
def numeric (c : BitVec 8) : Bool := c ∈ lower ++ upper ++ [ascii '+', ascii '-']

namespace Directive

variable (d : Directive)

/-- The flags, the base and the width of a directive that prints a number. -/
def layout : Option (Flags × Nat × Nat) :=
  let width := decimal d.width
  if d.conversion = some (ascii 'o') then some (d.mask, 8, width)
  else if d.conversion = some (ascii 'p') then
    some (if d.width = [] then ({ d.mask with zeropad := true }, 16, 8) else (d.mask, 16, width))
  else if d.conversion = some (ascii 'x') then some ({ d.mask with small := true }, 16, width)
  else if d.conversion = some (ascii 'X') then some (d.mask, 16, width)
  else if d.conversion = some (ascii 'd') ∨ d.conversion = some (ascii 'i') then
    some ({ d.mask with sign := true }, 10, width)
  else if d.conversion = some (ascii 'u') then some (d.mask, 10, width)
  else if d.conversion = some (ascii 'b') then some (d.mask, 2, width)
  else none

end Directive

/-- The text goes on with something that no number shows. -/
def stops : List Piece → Bool
  | [] => true
  | .literal c :: _ => ! numeric c
  | .directive _ :: _ => false

/-- Numbers that stand to the right of their fields, each with a stop behind it. -/
def Readable : List Piece → Prop
  | [] => True
  | .literal _ :: ps => Readable ps
  | .directive d :: ps => (∃ l ∈ d.layout, l.1.left = false) ∧ stops ps ∧ Readable ps

/-- The arguments that a text shows. -/
def recover : List Piece → List (BitVec 8) → List (BitVec 32)
  | [], _ => []
  | .literal _ :: ps, cs => recover ps cs.tail
  | .directive d :: ps, cs =>
      let cs := cs.dropWhile (· = ascii ' ')
      (d.layout.elim 0 fun (f, base, _) => .ofInt 32 (read f base (cs.takeWhile numeric))) ::
        recover ps (cs.dropWhile numeric)

variable {f : Flags} {num : BitVec 32} {base width precision n : Nat}
    {string : BitVec 32 → List (BitVec 8)}
  {t : Text} {d : Directive}

/-! ## The characters of a number -/

theorem symbol_numeric {d : Nat} (digit : d < 36) : numeric ((symbols f).getD d 0#8) := by
  have all : ∀ d < 36, numeric (lower.getD d 0#8) ∧ numeric (upper.getD d 0#8) := by decide
  unfold symbols
  split
  · exact (all d digit).1
  · exact (all d digit).2

theorem digitsOf_numeric (two : 2 ≤ base) (most : base ≤ 36) : ∀ c ∈ digitsOf f base n,
    numeric c := by
  intro c mem
  unfold digitsOf at mem
  split at mem
  · cases List.mem_singleton.mp mem
    rfl
  · obtain ⟨d, digit, rfl⟩ := List.mem_map.mp mem
    have below : d < base := Nat.digits_lt_base two digit
    exact symbol_numeric (Nat.lt_of_lt_of_le below most)

theorem markOf_numeric : ∀ c ∈ markOf f base, numeric c := by
  have zero : numeric (ascii '0') := rfl
  have x := symbol_numeric (f := f) (d := 33) (by decide)
  unfold markOf
  split
  · split
    · simp [zero]
    · split
      · simp only [List.mem_cons, List.not_mem_nil, or_false, forall_eq_or_imp, forall_eq]
        exact ⟨zero, x⟩
      · simp
  · simp

/-- Spaces, and then the sign. -/
theorem signOf_shape (f : Flags) (num : BitVec 32) :
    ∃ k sign, signOf f num = .replicate k (ascii ' ') ++ sign ∧ ∀ c ∈ sign, numeric c := by
  have minus : numeric (ascii '-') := rfl
  have plus : numeric (ascii '+') := rfl
  unfold signOf
  split
  · exact ⟨0, [ascii '-'], rfl, by simp [minus]⟩
  · split
    · exact ⟨0, [ascii '+'], rfl, by simp [plus]⟩
    · split
      · exact ⟨1, [], rfl, by simp⟩
      · exact ⟨0, [], rfl, by simp⟩

theorem numeral_numeric (two : 2 ≤ base) (most : base ≤ 36) : ∀ c ∈ numeral f base precision n,
    numeric c := by
  intro c mem
  rcases List.mem_append.mp mem with zero | digit
  · exact List.eq_of_mem_replicate zero ▸ rfl
  · exact digitsOf_numeric two most c (List.mem_reverse.mp digit)

theorem numeral_nonempty (two : 2 ≤ base) (small : n < 2 ^ 32) :
    numeral f base precision n ≠ [] := by
  have some := (digitsOf_length (f := f) two small).1
  intro empty
  have none := congrArg List.length empty
  simp only [numeral, List.length_append, List.length_reverse, List.length_nil] at none
  omega

theorem magnitude_lt (f : Flags) (num : BitVec 32) : magnitude f num < 2 ^ 32 :=
  unsignedOf_toNat (f := f) ▸ (unsignedOf f num).isLt

/-- A number at the right end of its field. -/
theorem integer_shape (width precision : Nat) (num : BitVec 32) (two : 2 ≤ base) (most : base ≤ 36)
    (right : f.left = false) :
    ∃ k core, integer f base width precision num = .replicate k (ascii ' ') ++ core ∧ core ≠ [] ∧
      ∀ c ∈ core, numeric c := by
  obtain ⟨k, sign, signed, numeric_sign⟩ := signOf_shape f num
  have digits : ∀ c ∈ numeral f base precision (magnitude f num), numeric c :=
    numeral_numeric two most
  have some : numeral f base precision (magnitude f num) ≠ [] :=
    numeral_nonempty two (magnitude_lt f num)
  unfold integer justify
  rw [right, if_neg Bool.false_ne_true, signed]
  generalize width - _ = missing
  split
  · refine ⟨k, sign ++ markOf f base ++ .replicate missing (ascii '0') ++
        numeral f base precision (magnitude f num),
      by simp only [List.append_assoc], by simp [some], ?_⟩
    intro c mem
    simp only [List.mem_append] at mem
    rcases mem with ((mem | mem) | mem) | mem
    · exact numeric_sign c mem
    · exact markOf_numeric c mem
    · exact List.eq_of_mem_replicate mem ▸ rfl
    · exact digits c mem
  · refine ⟨missing + k, sign ++ markOf f base ++ numeral f base precision (magnitude f num),
      by simp only [← List.replicate_append_replicate, List.append_assoc], by simp [some], ?_⟩
    intro c mem
    simp only [List.mem_append] at mem
    rcases mem with (mem | mem) | mem
    · exact numeric_sign c mem
    · exact markOf_numeric c mem
    · exact digits c mem

/-- Spaces in front of a number do not count. -/
theorem read_spaces (k : Nat) (cs : List (BitVec 8)) :
    read f base (.replicate k (ascii ' ') ++ cs) = read f base cs := by
  have spaces : (List.replicate k (ascii ' ')).filter (! dressing ·) = [] :=
    filter_dressed fun c mem => List.eq_of_mem_replicate mem ▸ rfl
  have minus : ascii '-' ∉ List.replicate k (ascii ' ') :=
    fun mem => absurd (List.eq_of_mem_replicate mem) (by decide)
  simp only [read, List.filter_append, spaces, List.nil_append, List.mem_append, minus, false_or]

/-- A field is told apart from what follows it. -/
theorem field_split (width precision : Nat) (num : BitVec 32) {rest : List (BitVec 8)}
    (two : 2 ≤ base)
    (most : base ≤ 36) (right : f.left = false)
    (stop : ∀ c, rest.head? = some c → ! numeric c) :
    let cs := (integer f base width precision num ++ rest).dropWhile (· = ascii ' ')
    BitVec.ofInt 32 (read f base (cs.takeWhile numeric)) = num ∧ cs.dropWhile numeric = rest := by
  obtain ⟨k, core, shape, some, all⟩ := integer_shape width precision num two most right
  have value := read_integer width precision (f := f) two most num
  rw [shape, read_spaces] at value
  have dropped :
      (integer f base width precision num ++ rest).dropWhile (· = ascii ' ') = core ++ rest := by
    rw [shape, List.append_assoc, List.dropWhile_append_of_pos
        (fun c mem => by simp [List.eq_of_mem_replicate mem])]
    cases core with
    | nil => exact absurd rfl some
    | cons c core =>
        have first := all c List.mem_cons_self
        have other : c ≠ ascii ' ' := by
          rintro rfl
          exact absurd first (by decide)
        simp [other]
  have none : rest.takeWhile numeric = [] ∧ rest.dropWhile numeric = rest := by
    cases rest with
    | nil => exact ⟨rfl, rfl⟩
    | cons c rest =>
        have here : numeric c = false := by simpa using stop c rfl
        simp [here]
  simp only [dropped, List.takeWhile_append_of_pos all, List.dropWhile_append_of_pos all, none,
      List.append_nil,
      value,
    and_true]
  split
  · exact BitVec.ofInt_toInt
  · simp

/-! ## Directives and formats -/

theorem field_layout (string : BitVec 32 → List (BitVec 8)) {l : Flags × Nat × Nat}
    (layout : l ∈ d.layout) :
    2 ≤ l.2.1 ∧ l.2.1 ≤ 36 ∧
    d.exec string t = t.va_arg.map fun (arg, t) =>
        t.put (integer l.1 l.2.1 l.2.2 (d.precision.elim 0 decimal) arg) := by
  unfold Directive.layout at layout
  split at layout
  · next conversion =>
      cases layout
      exact ⟨by simp, by simp, exec_field conversion (by decide)⟩
  split at layout
  · next conversion =>
      have field (arg : BitVec 32) : d.field string (ascii 'p') arg =
          if d.width = [] then integer { d.mask with zeropad := true } 16 8
              (d.precision.elim 0 decimal) arg
          else integer d.mask 16 (decimal d.width) (d.precision.elim 0 decimal) arg := rfl
      rw [exec_field conversion (by decide)]
      simp only [field]
      cases layout
      split
      · exact ⟨by simp, by simp, rfl⟩
      · exact ⟨by simp, by simp, rfl⟩
  split at layout
  · next conversion =>
      cases layout
      exact ⟨by simp, by simp, exec_field conversion (by decide)⟩
  split at layout
  · next conversion =>
      cases layout
      exact ⟨by simp, by simp, exec_field conversion (by decide)⟩
  split at layout
  · next conversion =>
      cases layout
      rcases conversion with conversion | conversion
      · exact ⟨by simp, by simp, exec_field conversion (by decide)⟩
      · exact ⟨by simp, by simp, exec_field conversion (by decide)⟩
  split at layout
  · next conversion =>
      cases layout
      exact ⟨by simp, by simp, exec_field conversion (by decide)⟩
  split at layout
  · next conversion =>
      cases layout
      exact ⟨by simp, by simp, exec_field conversion (by decide)⟩
  · cases layout

/-- What is printed shows the arguments that it took. -/
theorem exec_recover (ps : List Piece) (readable : Readable ps) {u : Text}
    (run : ps.foldlM (Piece.exec string) t = some u) :
    ∃ s, u.str = t.str ++ s ∧ recover ps s ++ u.args = t.args ∧
      (stops ps → ∀ c, s.head? = some c → ! numeric c) := by
  induction ps generalizing t with
  | nil =>
      cases run
      exact ⟨[], by simp, rfl, fun _ => nofun⟩
  | cons p ps ih =>
      rw [List.foldlM_cons] at run
      obtain ⟨v, one, rest⟩ := Option.bind_eq_some_iff.mp run
      cases p with
      | literal c =>
          cases one
          obtain ⟨s, str, args, -⟩ := ih readable rest
          refine ⟨c :: s, ?_, args, ?_⟩
          · rw [str]
            simp [Text.put]
          · intro stop c' head
            cases head
            exact stop
      | directive d =>
          obtain ⟨⟨l, layout, right⟩, stop, readable⟩ := readable
          obtain ⟨two, most, exec⟩ := field_layout string (t := t) layout
          have one : d.exec string t = some v := one
          rw [exec] at one
          obtain ⟨⟨arg, taken⟩, took, put⟩ := Option.map_eq_some_iff.mp one
          subst put
          obtain ⟨s, str, args, head⟩ := ih readable rest
          obtain ⟨value, left⟩ :=
            field_split l.2.2 (d.precision.elim 0 decimal) arg two most right (head stop)
          have taking : t.str = taken.str ∧ t.args = arg :: taken.args := by
            unfold Text.va_arg at took
            split at took
            · cases took
            · next arg' args given =>
                cases took
                exact ⟨rfl, given⟩
          refine ⟨integer l.1 l.2.1 l.2.2 (d.precision.elim 0 decimal) arg ++ s, ?_, ?_, ?_⟩
          · rw [str, taking.1]
            simp [Text.put]
          · rw [taking.2, recover, Option.mem_def.mp layout, Option.elim_some]
            simp only [left, List.cons_append, args]
            rw [value]
            rfl
          · intro none
            cases none

/-- The arguments can be read off the text. -/
theorem vsprintf_recover {fmt : List (BitVec 8)} {args : List (BitVec 32)} {u : Text}
    (fits : ∀ d, .directive d ∈ pieces fmt → d.Fits) (readable : Readable (pieces fmt))
    (run : vsprintf string fmt args = some u) : recover (pieces fmt) u.str ++ u.args = args := by
  rw [vsprintf_exec fits] at run
  obtain ⟨s, str, args, -⟩ := exec_recover _ readable run
  have whole : u.str = s := str
  rw [whole]
  exact args

end Vsprintf

end Krypton
