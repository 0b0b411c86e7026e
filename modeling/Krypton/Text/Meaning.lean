import Krypton.Text.Directives

/-! # What a format means

Where no number in a format is too large for an `int`, every directive prints a
field: the text of its argument, cut to the precision and put to one end of the
width. A number can be read back from its field.
-/

namespace Krypton

namespace Vsprintf

open Common (char)

namespace Directive

variable (d : Directive)

def mask : Flags := d.flags.foldl setFlag {}

/-- Fields are printed for these. -/
def fields : List (BitVec 8) :=
  [ascii 'c', ascii 's', ascii 'o', ascii 'p', ascii 'x', ascii 'X', ascii 'd', ascii 'i',
      ascii 'u', ascii 'b']

/-- The field for an argument. -/
def field (string : BitVec 32 → List (BitVec 8)) (c : BitVec 8) (arg : BitVec 32) :
    List (BitVec 8) :=
  let width := decimal d.width
  let precision := d.precision.elim 0 decimal
  let put := justify { left := d.mask.left } width []
  if c = ascii 'c' then put [arg.setWidth 8]
  else if c = ascii 's' then
    put (d.precision.elim (string arg) fun ds => (string arg).take (decimal ds))
  else if c = ascii 'o' then integer d.mask 8 width precision arg
  else if c = ascii 'p' then
    if d.width = [] then integer { d.mask with zeropad := true } 16 8 precision arg
    else integer d.mask 16 width precision arg
  else if c = ascii 'x' then integer { d.mask with small := true } 16 width precision arg
  else if c = ascii 'X' then integer d.mask 16 width precision arg
  else if c = ascii 'u' then integer d.mask 10 width precision arg
  else if c = ascii 'b' then integer d.mask 2 width precision arg
  else integer { d.mask with sign := true } 10 width precision arg

/-- What the directive does. -/
def exec (string : BitVec 32 → List (BitVec 8)) (t : Text) : Option Text :=
  match d.conversion with
  | none => some (t.put [ascii '%'])
  | some c =>
      if c ∈ fields then t.va_arg.map fun (arg, t) => t.put (d.field string c arg)
      else if c = ascii 'n' then
        t.va_arg.map fun (ip, t) => { t with stored := (ip, .ofNat 32 t.str.length) :: t.stored }
      else if d.asks then t.va_arg.map fun (_, t) => t.put [ascii '%', c]
      else some (t.put (if c ≠ ascii '%' then [ascii '%', c] else [c]))

/-- The width and the precision leave room for an `int`. -/
structure Fits : Prop where
  width : decimal d.width < 2 ^ 31
  precision : ∀ ds ∈ d.precision, decimal ds < 2 ^ 31 - 5

end Directive

def Piece.exec (string : BitVec 32 → List (BitVec 8)) (t : Text) : Piece → Option Text
  | literal c => some (t.put [c])
  | directive d => d.exec string t

variable {string : BitVec 32 → List (BitVec 8)} {fmt : List (BitVec 8)} {t : Text} {d : Directive}
    {v : Conversion}

section Fields

variable (fits : d.Fits)

include fits

theorem values_width :
    d.values.field_width = if d.width = [] then -1 else (decimal d.width : Int) := by
  have width := fits.width
  have same : int (decimal d.width) = decimal d.width := int_eq (by omega) (by omega)
  rw [Directive.values, same]

theorem values_precision : d.values.precision = d.precision.elim (-1) fun ds =>
    (decimal ds : Int) := by
  have precision := fits.precision
  have read : d.values.precision = d.precision.elim (-1) fun ds => max 0 (int (decimal ds)) := rfl
  rw [read]
  cases given : d.precision with
  | none => rw [Option.elim_none, Option.elim_none]
  | some ds =>
      have small := precision ds given
      have same : int (decimal ds) = decimal ds := int_eq (by omega) (by omega)
      rw [Option.elim_some, Option.elim_some, same]
      omega

theorem width_toNat : d.values.field_width.toNat = decimal d.width := by
  rw [values_width fits]
  split
  · next empty => simp [empty, decimal]
  · simp

theorem precision_toNat : d.values.precision.toNat = d.precision.elim 0 decimal := by
  rw [values_precision fits]
  cases d.precision <;> simp

/-- Any flags and any width may take the place of those that were read. -/
theorem putNumber_eq {base : Nat} (two : 2 ≤ base) (most : base ≤ 36)
    (precise : v.precision = d.values.precision)
    (wide : -1 ≤ v.field_width) (narrow : v.field_width < 2 ^ 31) : putNumber v base t =
      t.va_arg.map fun (arg, t) => t.put
          (integer v.flags base v.field_width.toNat (d.precision.elim 0 decimal) arg) := by
  have least : -1 ≤ v.precision ∧ v.precision < 2 ^ 31 - 5 := by
    have precision := fits.precision
    rw [precise, values_precision fits]
    cases given : d.precision with
    | none => simp
    | some ds =>
        have small := precision ds given
        simp only [Option.elim_some]
        omega
  unfold putNumber
  cases t.va_arg with
  | none => rfl
  | some arg =>
      have number := number_eq arg.1 (f := v.flags) two most wide narrow least.1 least.2
      rw [precise, precision_toNat fits, ← precise] at number
      simp [number]

end Fields

section Puts

variable (wide : -1 ≤ v.field_width) (narrow : v.field_width < 2 ^ 31)

include wide narrow

theorem putChar_eq : putChar v t = t.va_arg.map fun (arg, t) =>
    t.put (justify { left := v.flags.left } v.field_width.toNat [] [arg.setWidth 8]) := by
  have first : int (v.field_width - 1) = v.field_width - 1 := int_eq (by omega) (by omega)
  have second : int (min (v.field_width - 1) 0 - 1) = min (v.field_width - 1) 0 - 1 :=
    int_eq (by omega) (by omega)
  have count : (v.field_width - 1).toNat = v.field_width.toNat - 1 := by omega
  have none : (min (v.field_width - 1) 0 - 1).toNat = 0 := by omega
  unfold putChar countdownFirst
  cases t.va_arg with
  | none => rfl
  | some arg =>
      cases left : v.flags.left with
      | true => simp [justify, first, count]
      | false => simp [justify, first, second, count, none]

theorem putString_eq (string : BitVec 32 → List (BitVec 8)) :
    putString string v t = t.va_arg.map fun (arg, t) =>
    t.put (justify { left := v.flags.left } v.field_width.toNat []
      (if v.precision < 0 then string arg else (string arg).take v.precision.toNat)) := by
  unfold putString
  cases t.va_arg with
  | none => rfl
  | some arg =>
      obtain ⟨arg, t⟩ := arg
      obtain ⟨body, cut⟩ : ∃ body, body = if v.precision < 0 then string arg else
          (string arg).take v.precision.toNat :=
        ⟨_, rfl⟩
      have len : (if v.precision < 0 then ((string arg).length : Int)
          else if (string arg).length > v.precision then v.precision else (string arg).length) =
              body.length := by
        rw [cut]
        by_cases all : v.precision < 0
        · rw [if_pos all, if_pos all]
        · rw [if_neg all, if_neg all, List.length_take]
          split <;> omega
      have taken : (string arg).take body.length = body := by
        rw [cut]
        split
        · exact List.take_length
        · rw [List.length_take, List.take_eq_take_min (i := v.precision.toNat)]
      have after : int (min v.field_width body.length - 1) = min v.field_width body.length - 1 :=
        int_eq (by omega) (by omega)
      have none : (min v.field_width body.length - 1 - body.length).toNat = 0 := by omega
      have missing :
          (v.field_width - body.length).toNat = v.field_width.toNat - body.length := by omega
      simp only [Option.bind_eq_bind, Option.bind_some, Option.map_some, ← cut]
      simp only [len, countdownTo, Int.toNat_natCast, taken]
      cases left : v.flags.left with
      | true => simp [justify, missing]
      | false => simp [justify, missing, after, none]

end Puts

section Run

variable {c : BitVec 8} (fits : d.Fits)

theorem run_convert (conversion : d.conversion = some c) (other : c ≠ ascii '*') :
    d.run string t = convert string d.values c t := by
  have asks : d.asks = false := by
    refine decide_eq_false fun asks => ?_
    rw [conversion] at asks
    exact other (Option.some.inj asks.1)
  unfold Directive.run
  rw [conversion]
  simp [asks]

theorem convert_other (field : c ∉ Directive.fields) (stores : c ≠ ascii 'n') :
    convert string v c t = some (t.put (if c ≠ ascii '%' then [ascii '%', c] else [c])) := by
  simp only [Directive.fields, List.mem_cons, List.not_mem_nil, or_false, not_or] at field
  unfold convert
  simp only [field, stores, if_false, or_self]

theorem convert_stores : convert string v (ascii 'n') t =
    t.va_arg.map fun (ip, t) => { t with stored := (ip, .ofNat 32 t.str.length) :: t.stored } := by
  have store : convert string v (ascii 'n') t =
      t.va_arg.bind fun (ip, t) =>
          some { t with stored := (ip, .ofNat 32 t.str.length) :: t.stored } := rfl
  rw [store]
  cases t.va_arg <;> rfl

theorem exec_field (conversion : d.conversion = some c) (field : c ∈ Directive.fields) :
    d.exec string t = t.va_arg.map fun (arg, t) => t.put (d.field string c arg) := by
  unfold Directive.exec
  rw [conversion]
  exact if_pos field

include fits

theorem values_narrow : -1 ≤ d.values.field_width ∧ d.values.field_width < 2 ^ 31 := by
  have width := fits.width
  rw [values_width fits]
  split <;> omega

theorem number_run {base : Nat} {flags : Flags} (two : 2 ≤ base) (most : base ≤ 36) :
    putNumber { d.values with flags } base t = t.va_arg.map fun (arg, t) =>
      t.put (integer flags base (decimal d.width) (d.precision.elim 0 decimal) arg) := by
  obtain ⟨wide, narrow⟩ := values_narrow fits
  rw [putNumber_eq fits (v := { d.values with flags }) two most rfl wide narrow]
  simp only [width_toNat fits]

theorem string_cut (s : List (BitVec 8)) :
    (if d.values.precision < 0 then s else s.take d.values.precision.toNat) =
        d.precision.elim s fun ds => s.take (decimal ds) := by
  rw [values_precision fits]
  cases d.precision with
  | none => rfl
  | some ds =>
      have least : ¬ ((decimal ds : Int) < 0) := by omega
      rw [Option.elim_some, Option.elim_some, if_neg least, Int.toNat_natCast]

/-- Without a width, an address has eight digits. -/
theorem pointer_run : convert string d.values (ascii 'p') t =
    t.va_arg.map fun (arg, t) => t.put (d.field string (ascii 'p') arg) := by
  have put : convert string d.values (ascii 'p') t =
      putNumber (if d.values.field_width = -1 then
        { d.values with field_width := 8, flags := { d.mask with zeropad := true } }
        else d.values) 16 t := rfl
  have field (arg : BitVec 32) : d.field string (ascii 'p') arg =
      if d.width = [] then integer { d.mask with zeropad := true } 16 8
          (d.precision.elim 0 decimal) arg
      else integer d.mask 16 (decimal d.width) (d.precision.elim 0 decimal) arg := rfl
  have unset : d.values.field_width = -1 ↔ d.width = [] := by
    rw [values_width fits]
    split
    · next empty => simp [empty]
    · next given =>
        simp only [given, iff_false]
        omega
  rw [put]
  simp only [field]
  by_cases empty : d.width = []
  · rw [if_pos (unset.mpr empty)]
    simp only [if_pos empty]
    exact putNumber_eq fits
        (v := { d.values with field_width := 8, flags := { d.mask with zeropad := true } })
      (by decide) (by decide) rfl (by simp) (by simp)
  · rw [if_neg (mt unset.mp empty)]
    simp only [if_neg empty]
    exact number_run fits (by decide) (by decide)

/-- Every directive that asks for a field prints it. -/
theorem field_run (field : c ∈ Directive.fields) :
    convert string d.values c t = t.va_arg.map fun (arg, t) => t.put (d.field string c arg) := by
  obtain ⟨wide, narrow⟩ := values_narrow fits
  have cases : c = ascii 'c' ∨ c = ascii 's' ∨ c = ascii 'o' ∨ c = ascii 'p' ∨ c = ascii 'x' ∨
      c = ascii 'X' ∨
      c = ascii 'd' ∨ c = ascii 'i' ∨ c = ascii 'u' ∨ c = ascii 'b' := by
    simpa [Directive.fields] using field
  rcases cases with rfl | rfl | rfl | rfl | rfl | rfl | rfl | rfl | rfl | rfl
  · have put := putChar_eq (t := t) wide narrow
    rw [width_toNat fits] at put
    exact put
  · have put := putString_eq (t := t) wide narrow string
    rw [width_toNat fits] at put
    simp only [string_cut fits] at put
    exact put
  · exact number_run fits (by decide) (by decide)
  · exact pointer_run fits
  · exact number_run fits (by decide) (by decide)
  · exact number_run fits (by decide) (by decide)
  · exact number_run fits (by decide) (by decide)
  · exact number_run fits (by decide) (by decide)
  · exact number_run fits (by decide) (by decide)
  · exact number_run fits (by decide) (by decide)

theorem directive_run : d.run string t = d.exec string t := by
  cases conversion : d.conversion with
  | none =>
      unfold Directive.run Directive.exec
      rw [conversion]
  | some c =>
      by_cases field : c ∈ Directive.fields
      · have other : c ≠ ascii '*' := by
          rintro rfl
          exact absurd field (by decide)
        rw [run_convert conversion other, exec_field conversion field, field_run fits field]
      · unfold Directive.run Directive.exec
        simp only [conversion, if_neg field]
        by_cases stores : c = ascii 'n'
        · have asks : d.asks = false := by
            refine decide_eq_false fun asks => ?_
            rw [conversion, stores] at asks
            exact absurd (Option.some.inj asks.1) (by decide)
          rw [asks, stores, if_neg Bool.false_ne_true, if_pos rfl, convert_stores]
        · rw [if_neg stores, convert_other field stores]
          split
          · cases t.va_arg <;> rfl
          · rfl

end Run

/-- A format prints the fields of its directives, and everything else as it is. -/
theorem vsprintf_exec (fits : ∀ d, .directive d ∈ pieces fmt → d.Fits) (args : List (BitVec 32)) :
    vsprintf string fmt args = (pieces fmt).foldlM (Piece.exec string) { args } := by
  have same (ps : List Piece) (t : Text) (fits : ∀ d, .directive d ∈ ps → d.Fits) :
      ps.foldlM (Piece.run string) t = ps.foldlM (Piece.exec string) t := by
    induction ps generalizing t with
    | nil => rfl
    | cons p ps ih =>
        have one : p.run string t = p.exec string t := by
          cases p with
          | literal c => rfl
          | directive d => exact directive_run (fits d List.mem_cons_self)
        rw [List.foldlM_cons, List.foldlM_cons]
        have run : Piece.run string t p = Piece.exec string t p := one
        rw [run]
        refine congrArg (Option.bind _) (funext fun t => ?_)
        exact ih t fun d mem => fits d (List.mem_cons_of_mem _ mem)
  rw [vsprintf_eq, same _ _ fits]

end Vsprintf

end Krypton
