import Krypton.Text.Layout

/-! # The language of formats

A format is a sequence of characters and directives. `vsprintf` reads it once
from left to right; here it is read first and then carried out.
-/

namespace Krypton

namespace Vsprintf

open Common (char)

/-- What stands between a percent sign and the end of the directive, as it is written. -/
structure Directive where
  flags : List (BitVec 8)
  width : List (BitVec 8)
  precision : Option (List (BitVec 8))
  qualifier : Option (BitVec 8)
  /-- none at the end of the format -/
  conversion : Option (BitVec 8)
  deriving DecidableEq

inductive Piece where
  | literal (c : BitVec 8)
  | directive (d : Directive)
  deriving DecidableEq

/-! ## Reading -/

def is_flag (c : BitVec 8) : Bool :=
  c = ascii '-' ∨ c = ascii '+' ∨ c = ascii ' ' ∨ c = ascii '#' ∨ c = ascii '0'

def is_qualifier (c : BitVec 8) : Bool := c = ascii 'h' ∨ c = ascii 'l' ∨ c = ascii 'L'

/-- The precision and what follows it. -/
def scanPrecision (fmt : List (BitVec 8)) : Option (List (BitVec 8)) × List (BitVec 8) :=
  if char fmt = ascii '.' then
      (some (fmt.tail.takeWhile is_digit), fmt.tail.dropWhile is_digit) else (none, fmt)

def scanQualifier (fmt : List (BitVec 8)) : Option (BitVec 8) × List (BitVec 8) :=
  if is_qualifier (char fmt) then (some (char fmt), fmt.tail) else (none, fmt)

/-- The directive behind a percent sign, and what follows it. -/
def scan (fmt : List (BitVec 8)) : Directive × List (BitVec 8) :=
  let flags := fmt.takeWhile is_flag
  let fmt := fmt.dropWhile is_flag
  let width := fmt.takeWhile is_digit
  let (precision, fmt) := scanPrecision (fmt.dropWhile is_digit)
  let (qualifier, fmt) := scanQualifier fmt
  (⟨flags, width, precision, qualifier, fmt.head?⟩, fmt.tail)

def piecesFrom : Nat → List (BitVec 8) → List Piece
  | 0, _ | _, [] => []
  | fuel + 1, c :: fmt =>
      if c ≠ ascii '%' then .literal c :: piecesFrom fuel fmt
      else .directive (scan fmt).1 :: piecesFrom fuel (scan fmt).2

def pieces (fmt : List (BitVec 8)) : List Piece := piecesFrom fmt.length fmt

/-! ## Writing -/

def Directive.text (d : Directive) : List (BitVec 8) :=
  ascii '%' :: (d.flags ++ d.width ++ d.precision.elim [] (ascii '.' :: ·) ++ d.qualifier.toList ++
      d.conversion.toList)

def Piece.text : Piece → List (BitVec 8)
  | literal c => [c]
  | directive d => d.text

/-! ## Carrying out -/

/-- One flag after the other is set. -/
def setFlag (f : Flags) (c : BitVec 8) : Flags :=
  if c = ascii '-' then { f with left := true }
  else if c = ascii '+' then { f with plus := true }
  else if c = ascii ' ' then { f with space := true }
  else if c = ascii '#' then { f with special := true }
  else { f with zeropad := true }

/-- The number that digits stand for. -/
def decimal (ds : List (BitVec 8)) : Nat := ds.foldl (fun n c => n * 10 + (c.toNat - 0x30)) 0

namespace Directive

variable (d : Directive)

/-- What the loops that read the directive leave in the variables. -/
def values : Conversion where
  flags := d.flags.foldl setFlag {}
  field_width := if d.width = [] then -1 else int (decimal d.width)
  precision := d.precision.elim (-1) fun ds => max 0 (int (decimal ds))

/-- An asterisk where a number may stand takes an argument, but ends the directive. -/
def asks : Bool :=
  d.conversion = some (ascii '*') ∧ d.qualifier = none ∧
      (d.width = [] ∧ d.precision = none ∨ d.precision = some [])

def run (string : BitVec 32 → List (BitVec 8)) (t : Text) : Option Text :=
  match d.conversion with
  | none => some (t.put [ascii '%'])
  | some c =>
      if d.asks then t.va_arg.bind fun (_, t) => some (t.put [ascii '%', c])
      else convert string d.values c t

end Directive

def Piece.run (string : BitVec 32 → List (BitVec 8)) (t : Text) : Piece → Option Text
  | literal c => some (t.put [c])
  | directive d => d.run string t

variable {string : BitVec 32 → List (BitVec 8)} {fmt rest : List (BitVec 8)} {t : Text} {f : Flags}
    {c : BitVec 8}

/-! ## The loops that read -/

theorem process_flags_eq : process_flags f fmt = ((fmt.takeWhile is_flag).foldl setFlag f,
    fmt.dropWhile is_flag) := by
  induction fmt generalizing f with
  | nil => rfl
  | cons c fmt ih =>
      rw [process_flags]
      by_cases flag : is_flag c
      · rw [List.takeWhile_cons_of_pos flag, List.dropWhile_cons_of_pos flag, List.foldl_cons]
        have cases := of_decide_eq_true flag
        unfold setFlag
        repeat' split
        all_goals first | exact ih | simp_all
      · rw [List.takeWhile_cons_of_neg flag, List.dropWhile_cons_of_neg flag, List.foldl_nil]
        have none : ¬ (c = ascii '-' ∨ c = ascii '+' ∨ c = ascii ' ' ∨ c = ascii '#' ∨
            c = ascii '0') := by
          simpa [is_flag] using flag
        simp only [not_or] at none
        simp only [none, if_false]

theorem digit_toInt (digit : is_digit c) :
    c.toInt - (ascii '0').toInt = (c.toNat - 0x30 : Nat) := by
  obtain ⟨low, high⟩ := of_decide_eq_true digit
  have zero : (ascii '0').toInt = 0x30 := rfl
  have nine : (ascii '9').toInt = 0x39 := rfl
  have small := c.isLt
  rw [zero] at low ⊢
  rw [nine] at high
  rw [BitVec.toInt_eq_toNat_cond] at low high ⊢
  split at low <;> omega

theorem int_fold (x y : Int) : int (int x * 10 + y) = int (x * 10 + y) := by
  unfold int
  rw [← Int.bmod_add_bmod, Int.bmod_mul_bmod, Int.bmod_add_bmod]

theorem skip_atoi_eq (n : Nat) : skip_atoi (int n) fmt =
    (int ((fmt.takeWhile is_digit).foldl (fun n c => n * 10 + (c.toNat - 0x30)) n : Nat),
        fmt.dropWhile is_digit) := by
  induction fmt generalizing n with
  | nil => rfl
  | cons c fmt ih =>
      rw [skip_atoi]
      by_cases digit : is_digit c
      · rw [if_pos digit, List.takeWhile_cons_of_pos digit, List.dropWhile_cons_of_pos digit,
            List.foldl_cons, ← ih]
        have step : int n * 10 + c.toInt - (ascii '0').toInt =
            int n * 10 + (c.toNat - 0x30 : Nat) := by
          rw [← digit_toInt digit]
          omega
        have total :
            ((n * 10 + (c.toNat - 0x30) : Nat) : Int) = n * 10 + (c.toNat - 0x30 : Nat) := by omega
        rw [step, int_fold, total]
      · rw [if_neg digit, List.takeWhile_cons_of_neg digit, List.dropWhile_cons_of_neg digit,
            List.foldl_nil]

theorem skip_atoi_zero :
    skip_atoi 0 fmt = (int (decimal (fmt.takeWhile is_digit)), fmt.dropWhile is_digit) :=
  skip_atoi_eq 0

theorem takeWhile_nil {p : BitVec 8 → Bool} (null : p 0#8 = false) :
    fmt.takeWhile p = [] ↔ p (char fmt) = false := by
  cases fmt with
  | nil => simp [char, null]
  | cons c fmt => cases here : p c <;> simp [char, here]

theorem dropWhile_self {p : BitVec 8 → Bool} (none : fmt.takeWhile p = []) :
    fmt.dropWhile p = fmt := by
  have split := List.takeWhile_append_dropWhile (p := p) (l := fmt)
  rwa [none, List.nil_append] at split

theorem digit_null : is_digit 0#8 = false := rfl

/-- Whether an asterisk stands where a width may. -/
def starred (fmt : List (BitVec 8)) : Bool := char fmt = ascii '*'

theorem get_field_width_eq (fmt : List (BitVec 8)) (t : Text) :
    get_field_width ⟨f, -1, -1⟩ fmt t =
      if fmt.takeWhile is_digit = [] ∧ starred fmt then
        t.va_arg.bind fun (arg, t) =>
          some (if arg.toInt < 0 then ⟨{ f with left := true }, int (-arg.toInt), -1⟩
            else ⟨f, arg.toInt, -1⟩, fmt, t)
      else
        some (⟨f, if fmt.takeWhile is_digit = [] then -1
            else int (decimal (fmt.takeWhile is_digit)), -1⟩,
          fmt.dropWhile is_digit, t) := by
  unfold get_field_width
  cases digit : is_digit (char fmt) with
  | true =>
      have some : fmt.takeWhile is_digit ≠ [] := by
        rw [ne_eq, takeWhile_nil digit_null, digit]
        simp
      simp [some, skip_atoi_zero]
  | false =>
      have none := (takeWhile_nil digit_null).mpr digit
      have same := dropWhile_self none
      by_cases star : char fmt = ascii '*'
      · simp [none, star, starred]
        refine congrArg (Option.bind _) (funext fun arg => ?_)
        split <;> rfl
      · simp [none, star, starred, same]

theorem plain_digit (digit : is_digit (char fmt)) : starred fmt = false := by
  refine decide_eq_false fun star => ?_
  rw [star] at digit
  exact absurd digit (by decide)

theorem read_precision_eq : read_precision fmt t =
    if starred fmt then t.va_arg.bind fun (arg, t) => some (arg.toInt, fmt, t)
    else some (if fmt.takeWhile is_digit = [] then -1 else int (decimal (fmt.takeWhile is_digit)),
      fmt.dropWhile is_digit, t) := by
  unfold read_precision
  cases digit : is_digit (char fmt) with
  | true =>
      have some : fmt.takeWhile is_digit ≠ [] := by
        rw [ne_eq, takeWhile_nil digit_null, digit]
        simp
      simp [plain_digit digit, some, skip_atoi_zero]
  | false =>
      have none := (takeWhile_nil digit_null).mpr digit
      have same := dropWhile_self none
      by_cases star : char fmt = ascii '*'
      · simp only [star, starred]
        rfl
      · simp [star, starred, none, same]

/-- A precision that is not there, or below zero. -/
theorem max_int (ds : List (BitVec 8)) :
    (if (if ds = [] then -1 else int (decimal ds)) < 0 then 0
      else if ds = [] then -1 else int (decimal ds)) =
      max 0 (int (decimal ds)) := by
  by_cases empty : ds = []
  · rw [empty]
    rfl
  · rw [if_neg empty]
    omega

theorem get_precision_eq {v : Conversion} (unset : v.precision = -1) : get_precision v fmt t =
    if char fmt = ascii '.' ∧ starred fmt.tail then
      t.va_arg.bind fun (arg, t) => some ({ v with precision := max 0 arg.toInt }, fmt.tail, t)
    else
      some ({ v with
        precision := (scanPrecision fmt).1.elim (-1) fun ds => max 0 (int (decimal ds)) },
        (scanPrecision fmt).2, t) := by
  unfold get_precision scanPrecision
  by_cases dot : char fmt = ascii '.'
  · rw [if_pos dot, if_pos dot, read_precision_eq]
    cases star : starred fmt.tail with
    | true =>
        rw [if_pos rfl, if_pos ⟨dot, rfl⟩, Option.bind_eq_bind, Option.bind_assoc]
        refine congrArg (Option.bind _) (funext fun ⟨arg, t⟩ => ?_)
        have least : (if arg.toInt < 0 then 0 else arg.toInt) = max 0 arg.toInt := by omega
        dsimp only [Option.bind_some]
        rw [least]
        rfl
    | false =>
        have plain : ¬ (char fmt = ascii '.' ∧ false = true) := by simp
        rw [if_neg Bool.false_ne_true, if_neg plain, Option.elim_some, ← max_int]
        rfl
  · simp [dot, ← unset]

theorem get_qualifier_eq : get_qualifier fmt = (scanQualifier fmt).2 := by
  unfold get_qualifier scanQualifier is_qualifier
  by_cases qualifier : char fmt = ascii 'h' ∨ char fmt = ascii 'l' ∨ char fmt = ascii 'L' <;>
    simp [qualifier]

theorem starred_cons (star : starred fmt) : fmt = ascii '*' :: fmt.tail := by
  cases fmt with
  | nil => cases star
  | cons c fmt => exact congrArg (· :: fmt) (of_decide_eq_true star)

/-- What follows the precision. -/
theorem finish_eq {v : Conversion} : (match get_qualifier fmt with
      | [] => some (([] : List (BitVec 8)), t.put [ascii '%'])
      | c :: fmt => do return (fmt, ← convert string v c t)) =
    ((match (scanQualifier fmt).2.head? with
      | none => some (t.put [ascii '%'])
      | some c => convert string v c t).map ((scanQualifier fmt).2.tail, ·)) := by
  rw [get_qualifier_eq]
  cases (scanQualifier fmt).2 with
  | nil => rfl
  | cons c fmt =>
      simp only [List.head?_cons, List.tail_cons]
      cases convert string v c t <;> rfl

/-- The directive behind the flags. -/
def scanFields (flags fmt : List (BitVec 8)) : Directive × List (BitVec 8) :=
  let rest := scanQualifier (scanPrecision (fmt.dropWhile is_digit)).2
  (⟨flags, fmt.takeWhile is_digit, (scanPrecision (fmt.dropWhile is_digit)).1, rest.1,
      rest.2.head?⟩, rest.2.tail)

theorem scanFields_width {flags s : List (BitVec 8)} :
    scanFields flags (ascii '*' :: s) = (⟨flags, [], none, none, some (ascii '*')⟩, s) := rfl

theorem scanFields_precision {flags s : List (BitVec 8)}
    (dot : fmt.dropWhile is_digit = ascii '.' :: ascii '*' :: s) :
    scanFields flags fmt = (⟨flags, fmt.takeWhile is_digit, some [], none, some (ascii '*')⟩,
        s) := by
  unfold scanFields
  rw [dot]
  rfl

theorem scanQualifier_none (none : (scanQualifier fmt).1 = none) : (scanQualifier fmt).2 = fmt := by
  unfold scanQualifier at none ⊢
  split at none
  · cases none
  · rename_i plain
    rw [if_neg plain]

theorem starred_head (first : fmt.head? = some (ascii '*')) : starred fmt := by
  cases fmt with
  | nil => cases first
  | cons c fmt => exact decide_eq_true (Option.some.inj first)

/-- Where a directive asks for an argument that it does not use. -/
theorem scanFields_asks {flags : List (BitVec 8)} (asks : (scanFields flags fmt).1.asks) :
    fmt.takeWhile is_digit = [] ∧ starred fmt ∨
      char (fmt.dropWhile is_digit) = ascii '.' ∧ starred (fmt.dropWhile is_digit).tail := by
  obtain ⟨conversion, plain, asks⟩ := of_decide_eq_true asks
  have same := scanQualifier_none plain
  have first : (scanQualifier (scanPrecision (fmt.dropWhile is_digit)).2).2.head? =
      some (ascii '*') := conversion
  rw [same] at first
  have star := starred_head first
  unfold scanPrecision at star
  by_cases dot : char (fmt.dropWhile is_digit) = ascii '.'
  · rw [if_pos dot] at star
    have empty : (fmt.dropWhile is_digit).tail.takeWhile is_digit = [] := by
      rcases asks with ⟨-, none⟩ | given
      · simp [scanFields, scanPrecision, dot] at none
      · simpa [scanFields, scanPrecision, dot] using given
    rw [dropWhile_self empty] at star
    exact .inr ⟨dot, star⟩
  · rw [if_neg dot] at star
    rcases asks with ⟨empty, -⟩ | given
    · have empty : fmt.takeWhile is_digit = [] := empty
      rw [dropWhile_self empty] at star
      exact .inl ⟨empty, star⟩
    · simp [scanFields, scanPrecision, dot] at given

theorem run_asks {d : Directive} (star : d.conversion = some (ascii '*')) (asks : d.asks) :
    d.run string t = t.va_arg.bind fun (_, t) => some (t.put [ascii '%', ascii '*']) := by
  unfold Directive.run
  rw [star]
  exact if_pos asks

theorem directive_eq :
    directive string fmt t = ((scan fmt).1.run string t).map ((scan fmt).2, ·) := by
  have fields : scan fmt = scanFields (fmt.takeWhile is_flag) (fmt.dropWhile is_flag) := rfl
  rw [fields]
  unfold directive
  rw [process_flags_eq]
  simp only [get_field_width_eq]
  generalize fmt.takeWhile is_flag = flags
  generalize fmt.dropWhile is_flag = fmt
  by_cases width : fmt.takeWhile is_digit = [] ∧ starred fmt
  · rw [if_pos width, starred_cons width.2, scanFields_width, run_asks rfl rfl]
    cases t.va_arg <;> rfl
  · rw [if_neg width]
    simp only [Option.bind_eq_bind, Option.bind_some]
    rw [get_precision_eq rfl]
    by_cases precision : char (fmt.dropWhile is_digit) = ascii '.' ∧
        starred (fmt.dropWhile is_digit).tail
    · have dot : fmt.dropWhile is_digit = ascii '.' :: ascii '*' ::
          (fmt.dropWhile is_digit).tail.tail := by
        rw [← starred_cons precision.2]
        cases rest : fmt.dropWhile is_digit with
        | nil =>
            rw [rest] at precision
            cases precision.1
        | cons c s =>
            rw [rest] at precision
            exact congrArg (· :: s) precision.1
      rw [if_pos precision, scanFields_precision dot, starred_cons precision.2,
          run_asks rfl (by simp [Directive.asks])]
      cases t.va_arg <;> rfl
    · have asks : (scanFields flags fmt).1.asks = false := by
        rw [← Bool.not_eq_true]
        exact fun asks => (scanFields_asks asks).elim width precision
      rw [if_neg precision, Option.bind_some]
      refine (finish_eq (v := (scanFields flags fmt).1.values)).trans (congrArg (Option.map _) ?_)
      unfold Directive.run
      rw [asks]
      rfl

/-! ## Formats and pieces -/

theorem scanPrecision_text (fmt : List (BitVec 8)) :
    (scanPrecision fmt).1.elim [] (ascii '.' :: ·) ++ (scanPrecision fmt).2 = fmt := by
  unfold scanPrecision
  split
  · next dot =>
      cases fmt with
      | nil => cases dot
      | cons c fmt =>
          have same : c = ascii '.' := dot
          simp [same]
  · rfl

theorem scanQualifier_text (fmt : List (BitVec 8)) :
    (scanQualifier fmt).1.toList ++ (scanQualifier fmt).2 = fmt := by
  unfold scanQualifier
  split
  · next qualifier =>
      cases fmt with
      | nil => cases qualifier
      | cons c fmt => rfl
  · rfl

theorem head_text (fmt : List (BitVec 8)) : fmt.head?.toList ++ fmt.tail = fmt := by
  cases fmt <;> rfl

/-- What is read is what was written. -/
theorem scan_text (fmt : List (BitVec 8)) :
    (scan fmt).1.text ++ (scan fmt).2 = ascii '%' :: fmt := by
  have conversion :=
    head_text (scanQualifier (scanPrecision ((fmt.dropWhile is_flag).dropWhile is_digit)).2).2
  have qualifier :=
    scanQualifier_text (scanPrecision ((fmt.dropWhile is_flag).dropWhile is_digit)).2
  have precision := scanPrecision_text ((fmt.dropWhile is_flag).dropWhile is_digit)
  have width := List.takeWhile_append_dropWhile (p := is_digit) (l := fmt.dropWhile is_flag)
  have flags := List.takeWhile_append_dropWhile (p := is_flag) (l := fmt)
  simp only [scan, Directive.text, List.cons_append, List.append_assoc]
  rw [conversion, qualifier, precision, width, flags]

theorem scan_length (fmt : List (BitVec 8)) : (scan fmt).2.length ≤ fmt.length := by
  have lengths := congrArg List.length (scan_text fmt)
  simp only [Directive.text, List.cons_append, List.length_cons, List.length_append] at lengths
  omega

theorem format_eq (fuel : Nat) (enough : fmt.length ≤ fuel) :
    format string fuel fmt t = (piecesFrom fuel fmt).foldlM (Piece.run string) t := by
  induction fuel generalizing fmt t with
  | zero =>
      obtain rfl := List.length_eq_zero_iff.mp (Nat.le_zero.mp enough)
      rfl
  | succ fuel ih =>
      cases fmt with
      | nil => rfl
      | cons c fmt =>
          have rest : fmt.length ≤ fuel := Nat.le_of_succ_le_succ enough
          rw [format, piecesFrom]
          split
          · rw [ih rest]
            rfl
          · rw [directive_eq, List.foldlM_cons]
            have shorter := Nat.le_trans (scan_length fmt) rest
            have one : Piece.run string t (.directive (scan fmt).1) = (scan fmt).1.run string t :=
              rfl
            rw [one]
            cases (scan fmt).1.run string t with
            | none => rfl
            | some t => exact ih shorter

/-- `vsprintf` carries out the pieces of the format, one after the other. -/
theorem vsprintf_eq (args : List (BitVec 32)) :
    vsprintf string fmt args = (pieces fmt).foldlM (Piece.run string) { args } :=
  format_eq fmt.length (Nat.le_refl _)

theorem piecesFrom_text (fuel : Nat) (enough : fmt.length ≤ fuel) :
    (piecesFrom fuel fmt).flatMap Piece.text =
    fmt := by
  induction fuel generalizing fmt with
  | zero =>
      obtain rfl := List.length_eq_zero_iff.mp (Nat.le_zero.mp enough)
      rfl
  | succ fuel ih =>
      cases fmt with
      | nil => rfl
      | cons c fmt =>
          have rest : fmt.length ≤ fuel := Nat.le_of_succ_le_succ enough
          rw [piecesFrom]
          split
          · rw [List.flatMap_cons, ih rest]
            rfl
          · next percent =>
              have same : c = ascii '%' := not_not.mp percent
              rw [List.flatMap_cons, ih (Nat.le_trans (scan_length fmt) rest), same]
              exact scan_text fmt

theorem piecesFrom_fuel (fuel more : Nat) (enough : fmt.length ≤ fuel) (less : fuel ≤ more) :
    piecesFrom more fmt = piecesFrom fuel fmt := by
  induction fuel generalizing fmt more with
  | zero =>
      obtain rfl := List.length_eq_zero_iff.mp (Nat.le_zero.mp enough)
      cases more <;> rfl
  | succ fuel ih =>
      obtain ⟨more, rfl⟩ := Nat.exists_eq_add_of_lt less
      cases fmt with
      | nil => rfl
      | cons c fmt =>
          have rest : fmt.length ≤ fuel := Nat.le_of_succ_le_succ enough
          simp only [piecesFrom]
          rw [ih _ rest (by omega), ih _ (Nat.le_trans (scan_length fmt) rest) (by omega)]

/-- The format does not end within a directive. -/
def Complete (fmt : List (BitVec 8)) : Prop := ∀ d, .directive d ∈ pieces fmt → d.conversion ≠ none

section Append

variable {g : List (BitVec 8)}

theorem span_append {p : BitVec 8 → Bool} (some : fmt.dropWhile p ≠ []) :
    (fmt ++ g).takeWhile p = fmt.takeWhile p ∧ (fmt ++ g).dropWhile p = fmt.dropWhile p ++ g := by
  induction fmt with
  | nil => exact absurd rfl some
  | cons c fmt ih =>
      cases here : p c with
      | true =>
          rw [List.dropWhile_cons_of_pos here] at some
          obtain ⟨taken, dropped⟩ := ih some
          simp [here, taken, dropped]
      | false => simp [here]

theorem char_append (some : fmt ≠ []) : char (fmt ++ g) = char fmt ∧
    (fmt ++ g).tail = fmt.tail ++ g := by
  cases fmt with
  | nil => exact absurd rfl some
  | cons c fmt => exact ⟨rfl, rfl⟩

theorem scanPrecision_append (some : (scanPrecision fmt).2 ≠ []) :
    scanPrecision (fmt ++ g) = ((scanPrecision fmt).1, (scanPrecision fmt).2 ++ g) := by
  have nonempty : fmt ≠ [] := by
    rintro rfl
    exact some rfl
  obtain ⟨first, rest⟩ := char_append (g := g) nonempty
  unfold scanPrecision at some ⊢
  rw [first, rest]
  split
  · next dot =>
      rw [if_pos dot] at some
      obtain ⟨taken, dropped⟩ := span_append (g := g) some
      rw [taken, dropped]
  · rfl

theorem scanQualifier_append (some : (scanQualifier fmt).2 ≠ []) :
    scanQualifier (fmt ++ g) = ((scanQualifier fmt).1, (scanQualifier fmt).2 ++ g) := by
  have nonempty : fmt ≠ [] := by
    rintro rfl
    exact some rfl
  obtain ⟨first, rest⟩ := char_append (g := g) nonempty
  unfold scanQualifier
  rw [first, rest]
  split <;> rfl

/-- A directive that is complete is read in the same way, whatever follows. -/
theorem scan_append (complete : (scan fmt).1.conversion ≠ none) :
    scan (fmt ++ g) = ((scan fmt).1, (scan fmt).2 ++ g) := by
  have conversion :
      (scanQualifier (scanPrecision ((fmt.dropWhile is_flag).dropWhile is_digit)).2).2 ≠ [] := by
    intro empty
    exact complete (List.head?_eq_none_iff.mpr empty)
  have qualifier : (scanPrecision ((fmt.dropWhile is_flag).dropWhile is_digit)).2 ≠ [] := by
    intro empty
    rw [empty] at conversion
    exact conversion rfl
  have precision : (fmt.dropWhile is_flag).dropWhile is_digit ≠ [] := by
    intro empty
    rw [empty] at qualifier
    exact qualifier rfl
  have width : fmt.dropWhile is_flag ≠ [] := by
    intro empty
    rw [empty] at precision
    exact precision rfl
  obtain ⟨flags, rest⟩ := span_append (g := g) width
  obtain ⟨digits, rest'⟩ := span_append (g := g) precision
  have head : ((scanQualifier (scanPrecision ((fmt.dropWhile is_flag).dropWhile is_digit)).2).2 ++
      g).head? =
      (scanQualifier (scanPrecision ((fmt.dropWhile is_flag).dropWhile is_digit)).2).2.head? :=
    List.head?_append_of_ne_nil _ conversion
  unfold scan
  simp only [flags, rest, digits, rest', scanPrecision_append qualifier,
    scanQualifier_append conversion, head, List.tail_append_of_ne_nil conversion]

theorem piecesFrom_append (fuel : Nat) (enough : fmt.length ≤ fuel)
    (complete : ∀ d, .directive d ∈ piecesFrom fuel fmt → d.conversion ≠ none) :
    piecesFrom (fuel + g.length) (fmt ++ g) = piecesFrom fuel fmt ++ pieces g := by
  induction fuel generalizing fmt with
  | zero =>
      obtain rfl := List.length_eq_zero_iff.mp (Nat.le_zero.mp enough)
      rw [Nat.zero_add]
      rfl
  | succ fuel ih =>
      cases fmt with
      | nil => exact piecesFrom_fuel g.length _ (Nat.le_refl _) (by omega)
      | cons c fmt =>
          have rest : fmt.length ≤ fuel := Nat.le_of_succ_le_succ enough
          rw [piecesFrom] at complete
          rw [Nat.succ_add, List.cons_append, piecesFrom, piecesFrom]
          split
          · next plain =>
              rw [if_pos plain] at complete
              rw [ih rest fun d mem => complete d (List.mem_cons_of_mem _ mem)]
              rfl
          · next percent =>
              rw [if_neg percent] at complete
              rw [scan_append (complete _ List.mem_cons_self),
                  ih (Nat.le_trans (scan_length fmt) rest)
                fun d mem => complete d (List.mem_cons_of_mem _ mem)]
              rfl

theorem pieces_append (complete : Complete fmt) : pieces (fmt ++ g) = pieces fmt ++ pieces g := by
  rw [pieces, List.length_append]
  exact piecesFrom_append fmt.length (Nat.le_refl _) complete

end Append

end Vsprintf

end Krypton
