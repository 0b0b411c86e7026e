import Krypton.Text.Reports

/-! # The status row

`timer_task` of `kernel_main.c`, which shows the time and the free memory in the
last row of the screen, and `monitor_writexy`.
-/

namespace Krypton

open Vsprintf

namespace Monitor

/-- The loop of `monitor_writexy`. A character is extended with its sign. -/
def writeCells (colour : BitVec 16) (m : Monitor) (x y : Nat) : List (BitVec 8) → Monitor
  | [] => m
  | c :: txt =>
      if c = 0 then m else (m.store (x + 80 * y) (c.signExtend 16 ||| colour)).writeCells colour
          (x + 1) y txt

def monitor_writexy (m : Monitor) (x y : Nat) (txt : List (BitVec 8))
    (backColour foreColour : BitVec 8) : Monitor :=
  let attributeByte := backColour <<< 4 ||| foreColour &&& 0x0F
  m.writeCells (attributeByte.setWidth 16 <<< 8) x y txt

end Monitor

/-- The variables of `timer_task`. -/
structure Clock where
  hours : BitVec 32 := 0#32
  mins : BitVec 32 := 0#32
  seconds : BitVec 32 := 0#32

namespace Clock

def time_format : List (BitVec 8) := chars "%d:%02d:%02d"

def ram_format : List (BitVec 8) := chars "%8d kB RAM free"

variable (string : BitVec 32 → List (BitVec 8))

/-- The time goes on by a second. -/
def tick (c : Clock) : Clock :=
  let c := { c with seconds := c.seconds + 1 }
  let c := if c.seconds = 60 then { c with seconds := 0, mins := c.mins + 1 } else c
  if c.mins = 60 then { c with mins := 0, hours := c.hours + 1 } else c

/-- What is done between two calls of `delay`, with the counters of free pages as they are then. -/
def iteration (s : Monitor × Clock) (count : BitVec 32 × BitVec 32) : Option (Monitor × Clock) := do
  let timebuf ← sprintf string 30 time_format [s.2.hours, s.2.mins, s.2.seconds]
  let rambuf ← sprintf string 30 ram_format [count.1 * 4 + count.2 * 4]
  let m := s.1.monitor_writexy 70 24 timebuf 7 0
  return (m.monitor_writexy 5 24 rambuf 7 0, s.2.tick)

/-- As many iterations as there are counters. -/
def timer_task (m : Monitor) (counts : List (BitVec 32 × BitVec 32)) : Option (Monitor × Clock) :=
  counts.foldlM (iteration string) (m.monitor_writexy 0 24 (.replicate 80 (ascii ' ')) 7 0, {})

variable {string}

/-! ## The screen -/

/-- A text in the colours of the status row. -/
def Shown (m : Monitor) (x : Nat) (s : List (BitVec 8)) : Prop :=
  ∀ i (h : i < s.length), m.video_memory (x + 80 * 24 + i) = s[i].signExtend 16 ||| 0x7000

section Screen

variable {m : Monitor} {x : Nat} {s : List (BitVec 8)}

theorem writexy_eq (m : Monitor) (x : Nat) (s : List (BitVec 8)) :
    m.monitor_writexy x 24 s 7 0 = m.writeCells 0x7000 x 24 s := rfl

theorem writeCells_other {colour : BitVec 16} (s : List (BitVec 8)) (m : Monitor) {j : Nat}
    (other : j < x + 80 * 24 ∨ x + 80 * 24 + s.length ≤ j) :
    (Monitor.writeCells colour m x 24 s).video_memory j = m.video_memory j := by
  induction s generalizing x m with
  | nil => rfl
  | cons c s ih =>
      rw [List.length_cons] at other
      rw [Monitor.writeCells]
      split
      · rfl
      · rw [ih _ (by omega), Monitor.store]
        exact Function.update_of_ne (by omega) _ _

theorem writeCells_drawn {colour : BitVec 16} (s : List (BitVec 8)) (m : Monitor) :
    Monitor.Drawn m (Monitor.writeCells colour m x 24 s) := by
  induction s generalizing x m with
  | nil => exact ⟨rfl, rfl, rfl⟩
  | cons c s ih =>
      rw [Monitor.writeCells]
      split
      · exact ⟨rfl, rfl, rfl⟩
      · exact (Monitor.store_drawn ..).trans (ih _)

theorem writeCells_shown (s : List (BitVec 8)) (plain : 0#8 ∉ s) (m : Monitor) :
    Shown (Monitor.writeCells 0x7000 m x 24 s) x s := by
  induction s generalizing x m with
  | nil => exact fun i h => absurd h (Nat.not_lt_zero i)
  | cons c s ih =>
      obtain ⟨here, rest⟩ := List.ne_and_not_mem_of_not_mem_cons plain
      have more : c ≠ 0 := Ne.symm here
      intro i h
      rw [Monitor.writeCells, if_neg more]
      cases i with
      | zero =>
          rw [writeCells_other _ _ (.inl (by omega)), Monitor.store, Nat.add_zero,
              List.getElem_cons_zero]
          dsimp only
          rw [Function.update_self]
      | succ i =>
          have next : x + 80 * 24 + (i + 1) = x + 1 + 80 * 24 + i := by omega
          rw [next]
          exact ih rest _ i (Nat.lt_of_succ_lt_succ h)

end Screen

/-! ## The texts -/

/-- The time after so many seconds. -/
def after (n : Nat) : Clock := ⟨.ofNat 32 (n / 3600), .ofNat 32 (n / 60 % 60), .ofNat 32 (n % 60)⟩

theorem tick_after (n : Nat) : (after n).tick = after (n + 1) := by
  have next (k : Nat) : BitVec.ofNat 32 k + 1 = BitVec.ofNat 32 (k + 1) :=
    (BitVec.ofNat_add k 1).symm
  have full (k : Nat) (small : k < 60) : BitVec.ofNat 32 (k + 1) = 60 ↔ k = 59 := by bv_omega
  have second := full (n % 60) (Nat.mod_lt _ (by decide))
  have minute := full (n / 60 % 60) (Nat.mod_lt _ (by decide))
  have running : BitVec.ofNat 32 (n / 60 % 60) ≠ 60 := by bv_omega
  unfold after tick
  simp only [next]
  by_cases last : n % 60 = 59
  · have seconds : (n + 1) % 60 = 0 := by omega
    have mins : (n + 1) / 60 % 60 = if n / 60 % 60 = 59 then 0 else n / 60 % 60 +
        1 := by split <;> omega
    have hours :
        (n + 1) / 3600 = if n / 60 % 60 = 59 then n / 3600 + 1 else n / 3600 := by split <;> omega
    simp only [if_pos (second.mpr last), seconds, mins, hours]
    by_cases whole : n / 60 % 60 = 59
    · simp only [if_pos (minute.mpr whole), if_pos whole, next]
      rfl
    · simp only [if_neg (mt minute.mp whole), if_neg whole]
      rfl
  · have seconds : (n + 1) % 60 = n % 60 + 1 := by omega
    have mins : (n + 1) / 60 % 60 = n / 60 % 60 := by omega
    have hours : (n + 1) / 3600 = n / 3600 := by omega
    simp only [if_neg (mt second.mp last), if_neg running, seconds, mins, hours]

section Texts

variable {f : Flags} {num : BitVec 32} {n k base width : Nat}

theorem digitsOf_short (two : 2 ≤ base) (some : 1 ≤ k) (small : n < base ^ k) :
    (digitsOf f base n).length ≤ k := by
  unfold digitsOf
  split
  · exact some
  · rw [List.length_map]
    exact (Nat.digits_length_le_iff two n).mpr small

theorem integer_short (width : Nat) (two : 2 ≤ base) (some : 1 ≤ k)
    (small : magnitude f num < base ^ k)
    (mark : f.special = false) :
    (integer f base width 0 num).length ≤ max width ((signOf f num).length + k) := by
  have digits := digitsOf_short (f := f) two some small
  have none : markOf f base = [] := if_neg (by simp [mark])
  unfold integer justify numeral
  rw [none]
  repeat' split
  all_goals
    simp only [List.length_append, List.length_replicate, List.length_reverse, List.length_nil]
    omega

/-- A signed number that is not below zero. -/
theorem positive_short (width : Nat) (sign : f.sign)
    (bare : f.plus = false ∧ f.space = false ∧ f.special = false)
    (some : 1 ≤ k)
    (small : n < 10 ^ k) (most : n < 2 ^ 31) :
    (integer f 10 width 0 (.ofNat 32 n)).length ≤ max width k := by
  have value : (BitVec.ofNat 32 n).toInt = n := by
    rw [BitVec.toInt_eq_toNat_cond, BitVec.toNat_ofNat]
    omega
  have none : signOf f (.ofNat 32 n) = [] := by
    unfold signOf
    rw [value, bare.1, bare.2.1, if_neg (by omega)]
    rfl
  have same : magnitude f (.ofNat 32 n) = n := by
    unfold magnitude
    rw [if_pos sign, value]
    rfl
  have digits : magnitude f (.ofNat 32 n) < 10 ^ k := by rwa [same]
  have short := integer_short width (f := f) (by decide) some digits bare.2.2
  rwa [none, List.length_nil, Nat.zero_add] at short

end Texts

/-- The time as it is shown. -/
def timeText (c : Clock) : List (BitVec 8) :=
  integer { sign := true } 10 0 0 c.hours ++ ascii ':' ::
      (integer { sign := true, zeropad := true } 10 2 0 c.mins ++
    ascii ':' :: integer { sign := true, zeropad := true } 10 2 0 c.seconds)

def ramText (n : BitVec 32) : List (BitVec 8) :=
  integer { sign := true } 10 8 0 n ++ chars " kB RAM free"

theorem time_prints (string : BitVec 32 → List (BitVec 8)) (hours mins seconds : BitVec 32) :
    vsprintf string time_format [hours, mins, seconds] =
      some { str := timeText ⟨hours, mins, seconds⟩, args := [] } := by
  have sound : ∀ p ∈ pieces time_format, p.Sound := by decide +kernel
  have ps : pieces time_format = [.directive ⟨[], [], none, none, some (ascii 'd')⟩,
      .literal (ascii ':'),
      .directive ⟨[ascii '0'], [ascii '2'], none, none, some (ascii 'd')⟩, .literal (ascii ':'),
      .directive ⟨[ascii '0'], [ascii '2'], none, none, some (ascii 'd')⟩] := by decide +kernel
  have first (t : Text) :=
    (field_layout string (t := t) (d := ⟨[], [], none, none, some (ascii 'd')⟩)
    (l := ({ sign := true }, 10, 0)) rfl).2.2
  have other (t : Text) :=
    (field_layout string (t := t) (d := ⟨[ascii '0'], [ascii '2'], none, none,
      some (ascii 'd')⟩)
    (l := ({ sign := true, zeropad := true }, 10, 2)) rfl).2.2
  rw [vsprintf_exec (sound_fits sound), ps]
  simp [List.foldlM_cons, Piece.exec, first, other, Text.va_arg, Text.put, timeText]

theorem ram_prints (string : BitVec 32 → List (BitVec 8)) (n : BitVec 32) :
    vsprintf string ram_format [n] = some { str := ramText n, args := [] } := by
  have sound : ∀ p ∈ pieces ram_format, p.Sound := by decide +kernel
  have ps : pieces ram_format = .directive ⟨[], [ascii '8'], none, none, some (ascii 'd')⟩ ::
      (chars " kB RAM free").map .literal := by decide +kernel
  have first (t : Text) :=
    (field_layout string (t := t) (d := ⟨[], [ascii '8'], none, none, some (ascii 'd')⟩)
    (l := ({ sign := true }, 10, 8)) rfl).2.2
  have literals (s : List (BitVec 8)) (t : Text) :
      (s.map Piece.literal).foldlM (Piece.exec string) t =
      some (t.put s) := by
    induction s generalizing t with
    | nil => simp [Text.put]
    | cons c s ih =>
        rw [List.map_cons, List.foldlM_cons]
        exact (ih (t.put [c])).trans (by simp [Text.put])
  rw [vsprintf_exec (sound_fits sound), ps]
  simp [List.foldlM_cons, Piece.exec, first, literals, Text.va_arg, Text.put, ramText]

theorem integer_plain_text {f : Flags} {base width precision : Nat} {num : BitVec 32}
    (two : 2 ≤ base)
    (most : base ≤ 36)
    (right : f.left = false) : 0#8 ∉ integer f base width precision num := by
  obtain ⟨k, core, shape, -, all⟩ := integer_shape width precision num two most right
  rw [shape]
  intro mem
  rcases List.mem_append.mp mem with space | digit
  · exact absurd (List.eq_of_mem_replicate space) (by decide)
  · exact absurd (all _ digit) (by decide)

theorem timeText_plain (c : Clock) : 0#8 ∉ timeText c := by
  have number {f : Flags} (right : f.left = false) (width : Nat) (n : BitVec 32) :
      0#8 ∉ integer f 10 width 0 n :=
    integer_plain_text (by decide) (by decide) right
  have colon : 0#8 ≠ ascii ':' := by decide
  simp [timeText, number, colon]

theorem ramText_plain (n : BitVec 32) : 0#8 ∉ ramText n := by
  have number : 0#8 ∉ integer { sign := true } 10 8 0 n :=
    integer_plain_text (by decide) (by decide) rfl
  have rest : 0#8 ∉ chars " kB RAM free" := by decide
  simp [ramText, number, rest]

/-- Below ten thousand hours the time ends in the last column. -/
theorem timeText_short {n : Nat} (short : n < 36000000) : (timeText (after n)).length ≤ 10 := by
  have hours := positive_short 0 (f := { sign := true }) (n := n / 3600) (k := 4) rfl ⟨rfl, rfl,
      rfl⟩ (by decide)
    (by omega) (by omega)
  have pair (n : Nat) (small : n < 60) :=
    positive_short 2 (f := { sign := true, zeropad := true }) (n := n) (k := 2) rfl ⟨rfl, rfl,
        rfl⟩ (by decide)
      (by omega) (by omega)
  have mins := pair (n / 60 % 60) (Nat.mod_lt _ (by decide))
  have seconds := pair (n % 60) (Nat.mod_lt _ (by decide))
  simp only [timeText, after, List.length_append, List.length_cons]
  omega

theorem ramText_short (n : BitVec 32) : (ramText n).length ≤ 23 := by
  have small := magnitude_lt { sign := true } n
  have sign : (signOf { sign := true } n).length ≤ 1 := by
    unfold signOf
    repeat' split
    all_goals simp
  have number : (integer { sign := true } 10 8 0 n).length ≤ max 8
      ((signOf { sign := true } n).length + 10) :=
    integer_short 8 (by decide) (by decide) (Nat.lt_trans small (by decide)) rfl
  have rest : (chars " kB RAM free").length = 12 := by decide
  rw [ramText, List.length_append, rest]
  omega

/-- The screen after one more iteration. -/
def next (m : Monitor) (n : Nat) (count : BitVec 32 × BitVec 32) : Monitor :=
  (m.monitor_writexy 70 24 (timeText (after n)) 7 0).monitor_writexy 5 24
      (ramText (count.1 * 4 + count.2 * 4)) 7 0

theorem iteration_eq (string : BitVec 32 → List (BitVec 8)) {n : Nat} (short : n < 36000000)
    (m : Monitor)
    (count : BitVec 32 × BitVec 32) :
    iteration string (m, after n) count = some (next m n count, after (n + 1)) := by
  have time := sprintf_some (time_prints string (after n).hours (after n).mins (after n).seconds)
    (Nat.lt_of_le_of_lt (timeText_short short) (by decide : 10 < 30))
  have ram := sprintf_some (ram_prints string (count.1 * 4 + count.2 * 4))
    (Nat.lt_of_le_of_lt (ramText_short _) (by decide : 23 < 30))
  unfold iteration next
  simp only [time, ram, tick_after, Option.bind_eq_bind, Option.bind_some, Option.pure_def]

/-! ## Runs -/

/-- The last row of the screen is written to, and nothing else is. -/
structure InRow (m m' : Monitor) : Prop where
  drawn : Monitor.Drawn m m'
  others : ∀ j, j < 80 * 24 ∨ 80 * 25 ≤ j → m'.video_memory j = m.video_memory j

theorem InRow.trans {m m' m'' : Monitor} (h : InRow m m') (h' : InRow m' m'') : InRow m m'' :=
  ⟨h.drawn.trans h'.drawn, fun j other => (h'.others j other).trans (h.others j other)⟩

theorem writexy_inRow {x : Nat} {s : List (BitVec 8)} (short : x + s.length ≤ 80) (m : Monitor) :
    InRow m (m.monitor_writexy x 24 s 7 0) := by
  rw [writexy_eq]
  refine ⟨writeCells_drawn s m, fun j other => writeCells_other s m ?_⟩
  omega

/-- What the row shows after `n` iterations, of which the last one saw `count`. -/
structure Shows (m : Monitor) (n : Nat) (count : BitVec 32 × BitVec 32) : Prop where
  time : Shown m 70 (timeText (after n))
  ram : Shown m 5 (ramText (count.1 * 4 + count.2 * 4))

theorem next_shows {n : Nat} (short : n < 36000000) (m : Monitor) (count : BitVec 32 × BitVec 32) :
    InRow m (next m n count) ∧ Shows (next m n count) n count := by
  have time := timeText_short short
  have ram := ramText_short (count.1 * 4 + count.2 * 4)
  unfold next
  refine ⟨(writexy_inRow (by omega) m).trans (writexy_inRow (by omega) _), ?_, ?_⟩
  · rw [writexy_eq, writexy_eq]
    intro i h
    rw [writeCells_other _ _ (.inr (by omega))]
    exact writeCells_shown _ (timeText_plain _) m i h
  · rw [writexy_eq]
    exact writeCells_shown _ (ramText_plain _) _

theorem iterations (string : BitVec 32 → List (BitVec 8)) (counts : List (BitVec 32 × BitVec 32))
    (n : Nat)
    (short : n + counts.length ≤ 36000000) (m : Monitor) :
    ∃ m', counts.foldlM (iteration string) (m, after n) = some (m', after (n + counts.length)) ∧
        InRow m m' ∧
      ∀ count ∈ counts.getLast?, Shows m' (n + counts.length - 1) count := by
  induction counts generalizing n m with
  | nil => exact ⟨m, rfl, ⟨⟨rfl, rfl, rfl⟩, fun _ _ => rfl⟩, nofun⟩
  | cons count counts ih =>
      rw [List.length_cons] at short ⊢
      obtain ⟨inside, shows⟩ := next_shows (n := n) (by omega) m count
      obtain ⟨m', run, inside', shows'⟩ := ih (n + 1) (by omega) (next m n count)
      have total : n + 1 + counts.length = n + (counts.length + 1) := by omega
      rw [total] at run shows'
      refine ⟨m', ?_, inside.trans inside', fun last mem => ?_⟩
      · rw [List.foldlM_cons, iteration_eq string (by omega), Option.bind_eq_bind, Option.bind_some]
        exact run
      · cases counts with
        | nil =>
            rw [List.foldlM_nil] at run
            obtain ⟨rfl, -⟩ := Prod.mk.inj (Option.some.inj run)
            obtain rfl := Option.some.inj mem
            rw [List.length_nil, Nat.zero_add, Nat.add_sub_cancel]
            exact shows
        | cons next counts =>
            rw [List.getLast?_cons_cons] at mem
            exact shows' last mem

/-- For ten thousand hours the task never writes behind a buffer or outside the last row, it counts
    the seconds, and the row shows the time and the memory of the last iteration. -/
theorem timer_task_shows (string : BitVec 32 → List (BitVec 8)) (m : Monitor)
    (counts : List (BitVec 32 × BitVec 32))
    (short : counts.length ≤ 36000000) :
    ∃ m', timer_task string m counts = some (m', after counts.length) ∧ InRow m m' ∧
      ∀ count ∈ counts.getLast?, ∃ time ram, Shown m' 70 time ∧ Shown m' 5 ram ∧
        recover (pieces time_format) time = [.ofNat 32 ((counts.length - 1) / 3600),
          .ofNat 32 ((counts.length - 1) / 60 % 60), .ofNat 32 ((counts.length - 1) % 60)] ∧
        recover (pieces ram_format) ram = [count.1 * 4 + count.2 * 4] := by
  obtain ⟨m', run, inside, shows⟩ := iterations string counts 0 (by omega)
    (m.monitor_writexy 0 24 (.replicate 80 (ascii ' ')) 7 0)
  rw [Nat.zero_add] at run shows
  have cleared : InRow m (m.monitor_writexy 0 24 (.replicate 80 (ascii ' ')) 7 0) :=
    writexy_inRow (by rw [List.length_replicate]) m
  refine ⟨m', run, cleared.trans inside, fun count last => ?_⟩
  have shown := shows count last
  have sound : ∀ p ∈ pieces time_format, p.Sound := by decide +kernel
  have sound' : ∀ p ∈ pieces ram_format, p.Sound := by decide +kernel
  refine ⟨_, _, shown.time, shown.ram, ?_, ?_⟩
  · have read := vsprintf_recover (sound_fits sound) (by decide +kernel)
      (time_prints string (.ofNat 32 ((counts.length - 1) / 3600))
          (.ofNat 32 ((counts.length - 1) / 60 % 60))
        (.ofNat 32 ((counts.length - 1) % 60)))
    rw [List.append_nil] at read
    exact read
  · have read := vsprintf_recover (sound_fits sound') (by decide +kernel)
        (ram_prints string (count.1 * 4 + count.2 * 4))
    rw [List.append_nil] at read
    exact read

/-- The first iteration of the second minute, with the memory of three pages left. -/
theorem timer_task_shows_minute : ∃ m',
    timer_task (fun _ => []) ⟨fun _ => 0, 0, 0, 0, [], 0⟩ (.replicate 61 (1, 2)) =
      some (m', after 61) ∧ InRow ⟨fun _ => 0, 0, 0, 0, [], 0⟩ m' ∧
    ∃ time ram, Shown m' 70 time ∧ Shown m' 5 ram ∧
      recover (pieces time_format) time = [0, 1, 0] ∧ recover (pieces ram_format) ram = [12] := by
  obtain ⟨m', run, inside, shows⟩ := timer_task_shows (fun _ => []) ⟨fun _ => 0, 0, 0, 0, [], 0⟩
    (.replicate 61 (1, 2)) (by decide)
  exact ⟨m', run, inside, shows (1, 2) rfl⟩

end Clock

end Krypton
