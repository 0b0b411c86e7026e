import Mathlib.Data.Nat.Digits.Lemmas
import Krypton.Common

/-! # Formatted text

`number` and `vsprintf` of `vsprintf.c`. What is stored from `buf` on is the
list of the characters, without the terminating null. The arguments are the
words that `va_arg` takes from the stack.
-/

namespace Krypton

namespace Vsprintf

open Common (char)

def ascii (c : Char) : BitVec 8 := .ofNat 8 c.toNat

/-- Characters are looked up in lists. -/
scoped instance bytes_lawful : LawfulBEq (BitVec 8) := inferInstance

def is_digit (c : BitVec 8) : Bool := (ascii '0').toInt ≤ c.toInt ∧ c.toInt ≤ (ascii '9').toInt

/-- The value of an `int` after an operation that may overflow. -/
def int (x : Int) : Int := x.bmod 0x100000000

def skip_atoi (i : Int) : List (BitVec 8) → Int × List (BitVec 8)
  | c :: s =>
      if is_digit c then skip_atoi (int (i * 10 + c.toInt - (ascii '0').toInt)) s else (i, c :: s)
  | [] => (i, [])

/-- The bits of `flags`. -/
structure Flags where
  zeropad : Bool := false
  sign : Bool := false
  plus : Bool := false
  space : Bool := false
  left : Bool := false
  special : Bool := false
  small : Bool := false
  deriving DecidableEq

def upper : List (BitVec 8) := "0123456789ABCDEFGHIJKLMNOPQRSTUVWXYZ".toList.map ascii

def lower : List (BitVec 8) := "0123456789abcdefghijklmnopqrstuvwxyz".toList.map ascii

/-- `while (size-- > 0) *str++ = c`: the characters, and what is left in `size` -/
def countdown (c : BitVec 8) (size : Int) : List (BitVec 8) × Int :=
  (.replicate size.toNat c, int (min size 0 - 1))

/-- The loop around `do_div`, with room for so many characters in `tmp`. -/
def do_div (digits : List (BitVec 8)) (base : Nat) : Nat → BitVec 32 → Option (List (BitVec 8))
  | room, num =>
      if num = 0 then some []
      else match room with
        | 0 => none
        | room + 1 => do
            return digits.getD (num.toNat % base) 0#8 ::
                (← do_div digits base room (num / .ofNat 32 base))

/-- What `number` stores, once it has the digits. -/
def storeNumber (digits tmp sign : List (BitVec 8)) (base : Nat) (size precision : Int)
    (type : Flags) :
    List (BitVec 8) :=
  let c := if type.zeropad then ascii '0' else ascii ' '
  let size := if sign ≠ [] then int (size - 1) else size
  let size :=
    if type.special then
      if base = 16 then int (size - 2) else if base = 8 then int (size - 1) else size
    else size
  let i : Int := tmp.length
  let precision := if i > precision then i else precision
  let size := int (size - precision)
  let (before, size) := if type.zeropad ∨ type.left then ([], size) else countdown (ascii ' ') size
  let special :=
    if type.special then
      if base = 8 then [ascii '0'] else if base = 16 then [ascii '0', digits.getD 33 0#8] else []
    else []
  let (filled, size) := if type.left then ([], size) else countdown c size
  let zeros := (countdown (ascii '0') (precision - i)).1
  let behind := (countdown (ascii ' ') size).1
  before ++ sign ++ special ++ filled ++ zeros ++ tmp.reverse ++ behind

/-- The sign, and what is divided. -/
def takeSign (num : BitVec 32) (type : Flags) : List (BitVec 8) × BitVec 32 :=
  if type.sign ∧ num.toInt < 0 then ([ascii '-'], -num)
  else (if type.plus then [ascii '+'] else if type.space then [ascii ' '] else [], num)

def number (num : BitVec 32) (base : Nat) (size precision : Int) (type : Flags) :
    Option (List (BitVec 8)) :=
  let digits := if type.small then lower else upper
  let type := if type.left then { type with zeropad := false } else type
  if base < 2 ∨ base > 36 then none
  else
    let (sign, num) := takeSign num type
    let tmp := if num = 0 then some [ascii '0'] else do_div digits base 36 num
    tmp.map fun tmp => storeNumber digits tmp sign base size precision type

/-- What has been stored, the arguments that are left, and the stores of `%n`, the last one first.
    -/
structure Text where
  str : List (BitVec 8) := []
  args : List (BitVec 32)
  stored : List (BitVec 32 × BitVec 32) := []

def Text.put (t : Text) (s : List (BitVec 8)) : Text := { t with str := t.str ++ s }

/-- An argument that was not passed is not defined. -/
def Text.va_arg (t : Text) : Option (BitVec 32 × Text) :=
  match t.args with
  | [] => none
  | arg :: args => some (arg, { t with args })

/-- `repeat:` -/
def process_flags (flags : Flags) : List (BitVec 8) → Flags × List (BitVec 8)
  | [] => (flags, [])
  | c :: fmt =>
      if c = ascii '-' then process_flags { flags with left := true } fmt
      else if c = ascii '+' then process_flags { flags with plus := true } fmt
      else if c = ascii ' ' then process_flags { flags with space := true } fmt
      else if c = ascii '#' then process_flags { flags with special := true } fmt
      else if c = ascii '0' then process_flags { flags with zeropad := true } fmt
      else (flags, c :: fmt)

/-- The variables of one conversion. -/
structure Conversion where
  flags : Flags
  field_width : Int := -1
  precision : Int := -1

/-- An asterisk is not skipped. -/
def get_field_width (v : Conversion) (fmt : List (BitVec 8)) (t : Text) :
    Option (Conversion × List (BitVec 8) × Text) :=
  if is_digit (char fmt) then
    let (field_width, fmt) := skip_atoi 0 fmt
    some ({ v with field_width }, fmt, t)
  else if char fmt = ascii '*' then do
    let (arg, t) ← t.va_arg
    if arg.toInt < 0 then
      return ({ v with field_width := int (-arg.toInt), flags := { v.flags with left := true } },
          fmt, t)
    else return ({ v with field_width := arg.toInt }, fmt, t)
  else some (v, fmt, t)

/-- What follows the dot. -/
def read_precision (fmt : List (BitVec 8)) (t : Text) : Option (Int × List (BitVec 8) × Text) :=
  if is_digit (char fmt) then
    let (precision, fmt) := skip_atoi 0 fmt
    some (precision, fmt, t)
  else if char fmt = ascii '*' then do
    let (arg, t) ← t.va_arg
    return (arg.toInt, fmt, t)
  else some (-1, fmt, t)

def get_precision (v : Conversion) (fmt : List (BitVec 8)) (t : Text) :
    Option (Conversion × List (BitVec 8) × Text) :=
  if char fmt = ascii '.' then do
    let (precision, fmt, t) ← read_precision fmt.tail t
    return ({ v with precision := if precision < 0 then 0 else precision }, fmt, t)
  else some (v, fmt, t)

def get_qualifier (fmt : List (BitVec 8)) : List (BitVec 8) :=
  if char fmt = ascii 'h' ∨ char fmt = ascii 'l' ∨ char fmt = ascii 'L' then fmt.tail else fmt

/-- `while (--field_width > 0) *str++ = ' '` -/
def countdownFirst (field_width : Int) : List (BitVec 8) × Int :=
  (.replicate (int (field_width - 1)).toNat (ascii ' '), min (int (field_width - 1)) 0)

/-- `while (len < field_width--) *str++ = ' '` -/
def countdownTo (len field_width : Int) : List (BitVec 8) × Int :=
  (.replicate (field_width - len).toNat (ascii ' '), int (min field_width len - 1))

def putChar (v : Conversion) (t : Text) : Option Text := do
  let (before, field_width) :=
    if v.flags.left then ([], v.field_width) else countdownFirst v.field_width
  let (arg, t) ← t.va_arg
  return t.put (before ++ [arg.setWidth 8] ++ (countdownFirst field_width).1)

/-- `string` gives the string at an address. -/
def putString (string : BitVec 32 → List (BitVec 8)) (v : Conversion) (t : Text) : Option Text := do
  let (s, t) ← t.va_arg
  let len : Int := (string s).length
  let len := if v.precision < 0 then len else if len > v.precision then v.precision else len
  let (before, field_width) :=
    if v.flags.left then ([], v.field_width) else countdownTo len v.field_width
  return t.put (before ++ (string s).take len.toNat ++ (countdownTo len field_width).1)

def putNumber (v : Conversion) (base : Nat) (t : Text) : Option Text := do
  let (arg, t) ← t.va_arg
  return t.put (← number arg base v.field_width v.precision v.flags)

/-- `switch (*fmt)` -/
def convert (string : BitVec 32 → List (BitVec 8)) (v : Conversion) (c : BitVec 8) (t : Text) :
    Option Text :=
  if c = ascii 'c' then putChar v t
  else if c = ascii 's' then putString string v t
  else if c = ascii 'o' then putNumber v 8 t
  else if c = ascii 'p' then
    putNumber (if v.field_width = -1 then
        { v with field_width := 8, flags := { v.flags with zeropad := true } }
        else v) 16 t
  else if c = ascii 'x' then putNumber { v with flags := { v.flags with small := true } } 16 t
  else if c = ascii 'X' then putNumber v 16 t
  else if c = ascii 'd' ∨
      c = ascii 'i' then putNumber { v with flags := { v.flags with sign := true } } 10 t
  else if c = ascii 'u' then putNumber v 10 t
  else if c = ascii 'b' then putNumber v 2 t
  else if c = ascii 'n' then do
    let (ip, t) ← t.va_arg
    return { t with stored := (ip, .ofNat 32 t.str.length) :: t.stored }
  else some (t.put (if c ≠ ascii '%' then [ascii '%', c] else [c]))

/-- What follows a percent sign, and what is left of the format. -/
def directive (string : BitVec 32 → List (BitVec 8)) (fmt : List (BitVec 8)) (t : Text) :
    Option (List (BitVec 8) × Text) := do
  let (flags, fmt) := process_flags {} fmt
  let (v, fmt, t) ← get_field_width { flags } fmt t
  let (v, fmt, t) ← get_precision v fmt t
  match get_qualifier fmt with
  | [] => some ([], t.put [ascii '%'])
  | c :: fmt => do return (fmt, ← convert string v c t)

/-- The loop of `vsprintf`, with enough fuel for the characters of the format. -/
def format (string : BitVec 32 → List (BitVec 8)) : Nat → List (BitVec 8) → Text → Option Text
  | _, [], t => some t
  | 0, _ :: _, _ => none
  | fuel + 1, c :: fmt, t =>
      if c ≠ ascii '%' then format string fuel fmt (t.put [c])
      else do
        let (fmt, t) ← directive string fmt t
        format string fuel fmt t

def vsprintf (string : BitVec 32 → List (BitVec 8)) (fmt : List (BitVec 8))
    (args : List (BitVec 32)) :
    Option Text :=
  format string fmt.length fmt { args }

end Vsprintf

end Krypton
