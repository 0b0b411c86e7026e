import Mathlib.Logic.Function.Basic
import Mathlib.Data.List.Basic

/-! # The monitor

The text screen of `monitor.c`: 25 rows of 80 cells, of which the last is a
status row. What the functions do to the text window is said of the place of a
cell in row-major order.
-/

namespace Krypton

/-- The screen and the cursor. -/
structure Monitor where
  video_memory : Nat → BitVec 16
  cursor_x : Nat
  cursor_y : Nat
  /-- the position that the VGA cursor registers hold -/
  position : BitVec 16
  /-- the cells that were stored to, the last one first -/
  stores : List Nat
  /-- how many rows have been scrolled off the screen -/
  scrolled : Nat

namespace Monitor

/-- `video_memory[i] = w` -/
def store (m : Monitor) (i : Nat) (w : BitVec 16) : Monitor :=
  { m with video_memory := Function.update m.video_memory i w, stores := i :: m.stores }

def update_cursor (m : Monitor) (row col : Nat) : Monitor :=
  { m with position := .ofNat 16 (row * 80 + col) }

/-- A space in the colours of `scroll`, which are not those of `monitor_put`. -/
def blank : BitVec 16 := 0x0F20

/-- The rows move up by one, cell after cell. -/
def shift (m : Monitor) (n : Nat) : Monitor :=
  (List.range n).foldl (fun m i => m.store i (m.video_memory (80 + i))) m

def fill (m : Monitor) (first n : Nat) (w : BitVec 16) : Monitor :=
  (List.range' first n).foldl (fun m i => m.store i w) m

def scroll (m : Monitor) : Monitor :=
  let m := if m.cursor_y ≥ 24 then
      { ((m.shift (80 * 23)).fill (80 * 23) 80 blank) with
        cursor_y := 23, scrolled := m.scrolled + 1 }
    else m
  m.update_cursor m.cursor_y m.cursor_x

def colours : BitVec 16 := 0x0700

/-- The cursor and the screen before `monitor_put` checks for the end of a line. -/
def put (m : Monitor) (c : BitVec 8) : Monitor :=
  if c = 0x08 then
    let m := if m.cursor_x ≠ 0 then { m with cursor_x := m.cursor_x - 1 }
      else if m.cursor_y ≠ 0 then { m with cursor_x := 79, cursor_y := m.cursor_y - 1 }
      else m
    m.store (m.cursor_x + 80 * m.cursor_y) (0x20 ||| colours)
  else if c = 0x09 then { m with cursor_x := (m.cursor_x + 8) / 8 * 8 }
  else if c = 0x0D then { m with cursor_x := 0 }
  else if c = 0x0A then { m with cursor_x := 0, cursor_y := m.cursor_y + 1 }
  else if c.toInt ≥ 0x20 then
    let m := m.store (m.cursor_x + 80 * m.cursor_y) (c.setWidth 16 ||| colours)
    { m with cursor_x := m.cursor_x + 1 }
  else m

/-- A new line at the end of a row. -/
def wrap (m : Monitor) : Monitor :=
  if m.cursor_x ≥ 80 then { m with cursor_x := 0, cursor_y := m.cursor_y + 1 } else m

def monitor_put (m : Monitor) (c : BitVec 8) : Monitor :=
  let m := (m.put c).wrap.scroll
  m.update_cursor m.cursor_y m.cursor_x

/-- The list holds the bytes that follow `c` in memory, as far as the null byte. -/
def monitor_write (m : Monitor) : List (BitVec 8) → Monitor
  | [] => m
  | c :: s => if c = 0 then m else (m.monitor_put c).monitor_write s

def monitor_clear (m : Monitor) : Monitor :=
  let m := m.fill 0 (80 * 25) 0
  { m with cursor_x := 0, cursor_y := 0 }.update_cursor 0 0

/-- `low` and `high` are read back from the VGA cursor registers; their places are
    exchanged. -/
def monitor_init (m : Monitor) (low high : BitVec 8) : Monitor :=
  let position := low.setWidth 16 <<< 8 ||| high.setWidth 16
  { m with cursor_y := position.toNat / 80 + 1, cursor_x := 0 }.scroll

/-! ## The loops -/

section Loops

variable (m : Monitor)

/-- Only cells and stores change. -/
structure Drawn (m m' : Monitor) : Prop where
  cursor_x : m'.cursor_x = m.cursor_x
  cursor_y : m'.cursor_y = m.cursor_y
  scrolled : m'.scrolled = m.scrolled

theorem Drawn.trans {m m' m'' : Monitor} (h : Drawn m m') (h' : Drawn m' m'') : Drawn m m'' :=
  ⟨h'.cursor_x.trans h.cursor_x, h'.cursor_y.trans h.cursor_y, h'.scrolled.trans h.scrolled⟩

theorem store_drawn (i : Nat) (w : BitVec 16) : Drawn m (m.store i w) := ⟨rfl, rfl, rfl⟩

theorem fill_succ (first n : Nat) (w : BitVec 16) :
    m.fill first (n + 1) w = (m.fill first n w).store (first + n) w := by
  simp [fill, List.range'_concat]

theorem fill_drawn (first n : Nat) (w : BitVec 16) : Drawn m (m.fill first n w) := by
  induction n with
  | zero => exact ⟨rfl, rfl, rfl⟩
  | succ n ih =>
      rw [fill_succ]
      exact ih.trans (store_drawn ..)

theorem fill_cell (first n : Nat) (w : BitVec 16) (j : Nat) :
    (m.fill first n w).video_memory j =
      if first ≤ j ∧ j < first + n then w else m.video_memory j := by
  induction n with
  | zero =>
      rw [if_neg (by omega)]
      rfl
  | succ n ih =>
      rw [fill_succ, store]
      by_cases here : j = first + n
      · subst here
        simp
      · have between : first ≤ j ∧ j < first + n ↔ first ≤ j ∧ j < first + (n + 1) := by omega
        simp [here, ih, between]

theorem fill_stores (first n : Nat) (w : BitVec 16) :
    ∃ new, (m.fill first n w).stores = new ++ m.stores ∧ ∀ i ∈ new, i < first + n := by
  induction n with
  | zero => exact ⟨[], rfl, nofun⟩
  | succ n ih =>
      obtain ⟨new, stores, below⟩ := ih
      refine ⟨(first + n) :: new, by simp [fill_succ, store, stores], ?_⟩
      intro i mem
      cases mem with
      | head => omega
      | tail _ mem =>
          have old := below i mem
          omega

theorem shift_succ (n : Nat) :
    m.shift (n + 1) = (m.shift n).store n ((m.shift n).video_memory (80 + n)) := by
  simp [shift, List.range_succ]

theorem shift_drawn (n : Nat) : Drawn m (m.shift n) := by
  induction n with
  | zero => exact ⟨rfl, rfl, rfl⟩
  | succ n ih =>
      rw [shift_succ]
      exact ih.trans (store_drawn ..)

/-- The loop reads ahead of what it has stored. -/
theorem shift_cell (n j : Nat) :
    (m.shift n).video_memory j =
      if j < n then m.video_memory (80 + j) else m.video_memory j := by
  induction n generalizing j with
  | zero => rfl
  | succ n ih =>
      rw [shift_succ, store]
      by_cases here : j = n
      · have ahead : ¬ 80 + n < n := by omega
        simp [here, ih, ahead]
      · have between : j < n ↔ j < n + 1 := by omega
        simp [here, ih, between]

theorem shift_stores (n : Nat) :
    ∃ new, (m.shift n).stores = new ++ m.stores ∧ ∀ i ∈ new, i < n := by
  induction n with
  | zero => exact ⟨[], rfl, nofun⟩
  | succ n ih =>
      obtain ⟨new, stores, below⟩ := ih
      refine ⟨n :: new, by simp [shift_succ, store, stores], ?_⟩
      intro i mem
      cases mem with
      | head => omega
      | tail _ mem => exact Nat.lt_succ_of_lt (below i mem)

end Loops

/-! ## What the functions do -/

section Specs

variable {m m' : Monitor}

/-- A cell of the window once the rows have moved up. -/
def scrolledCell (cell : Nat → BitVec 16) (j : Nat) : BitVec 16 :=
  if j < 80 * 23 then cell (80 + j) else if j < 80 * 24 then blank else cell j

theorem scroll_low (h : m.cursor_y < 24) : m.scroll = m.update_cursor m.cursor_y m.cursor_x := by
  simp [scroll, Nat.not_le.mpr h]

theorem scroll_high (h : 24 ≤ m.cursor_y) :
    m.scroll.cursor_x = m.cursor_x ∧ m.scroll.cursor_y = 23 ∧
      m.scroll.scrolled = m.scrolled + 1 ∧
      m.scroll.video_memory = scrolledCell m.video_memory := by
  have drawn := (shift_drawn m (80 * 23)).trans (fill_drawn _ (80 * 23) 80 blank)
  refine ⟨?_, ?_, ?_, ?_⟩
  · simp [scroll, h, update_cursor, drawn.cursor_x]
  · simp [scroll, h, update_cursor]
  · simp [scroll, h, update_cursor]
  · funext j
    simp only [scroll, ge_iff_le, h, if_true, update_cursor, fill_cell, shift_cell, scrolledCell]
    by_cases low : j < 80 * 23
    · simp [low, show ¬ 80 * 23 ≤ j by omega]
    · by_cases last : j < 80 * 24
      · simp [low, last, show 80 * 23 ≤ j by omega]
      · simp [low, last]

/-- The new stores are in the text window, and the status row stays as it is. -/
structure Inside (m m' : Monitor) : Prop where
  stores : ∃ new, m'.stores = new ++ m.stores ∧ ∀ i ∈ new, i < 80 * 24
  status : ∀ j, 80 * 24 ≤ j → m'.video_memory j = m.video_memory j

theorem Inside.refl (m : Monitor) : Inside m m := ⟨⟨[], rfl, nofun⟩, fun _ _ => rfl⟩

theorem Inside.trans {m'' : Monitor} (h : Inside m m') (h' : Inside m' m'') : Inside m m'' := by
  constructor
  · obtain ⟨new, stores, below⟩ := h.stores
    obtain ⟨new', stores', below'⟩ := h'.stores
    refine ⟨new' ++ new, by simp [stores, stores'], fun i mem => ?_⟩
    cases List.mem_append.mp mem with
    | inl here => exact below' i here
    | inr here => exact below i here
  · intro j last
    exact (h'.status j last).trans (h.status j last)

/-- The cursor does not matter. -/
theorem Inside.same {m₁ m₂ : Monitor} (h : Inside m m₁) (cells : m₂.video_memory = m₁.video_memory)
    (stores : m₂.stores = m₁.stores) : Inside m m₂ := by
  constructor
  · rw [stores]
    exact h.stores
  · rw [cells]
    exact h.status

theorem store_inside {i : Nat} (w : BitVec 16) (h : i < 80 * 24) : Inside m (m.store i w) := by
  constructor
  · exact ⟨[i], rfl, by simpa using h⟩
  · intro j last
    exact Function.update_of_ne (by omega) ..

theorem scroll_inside (m : Monitor) : Inside m m.scroll := by
  by_cases high : 24 ≤ m.cursor_y
  · have moved : Inside m (m.shift (80 * 23)) := by
      constructor
      · obtain ⟨new, stores, below⟩ := shift_stores m (80 * 23)
        exact ⟨new, stores, fun i mem => Nat.lt_of_lt_of_le (below i mem) (by decide)⟩
      · intro j last
        rw [shift_cell, if_neg (by omega)]
    have filled : Inside (m.shift (80 * 23)) ((m.shift (80 * 23)).fill (80 * 23) 80 blank) := by
      constructor
      · exact fill_stores _ (80 * 23) 80 blank
      · intro j last
        rw [fill_cell, if_neg (by omega)]
    refine (moved.trans filled).same ?_ ?_
    · simp [scroll, high, update_cursor]
    · simp [scroll, high, update_cursor]
  · rw [scroll_low (Nat.lt_of_not_le high)]
    exact (Inside.refl m).same rfl rfl

/-- The cell where the cursor is. -/
def place (m : Monitor) : Nat := m.cursor_x + 80 * m.cursor_y

/-- The cursor is in the text window. -/
def InRange (m : Monitor) : Prop := m.cursor_x < 80 ∧ m.cursor_y < 24

theorem InRange.place_lt (h : m.InRange) : m.place < 80 * 24 := by
  obtain ⟨x, y⟩ := h
  unfold place
  omega

theorem put_inside (h : m.InRange) (c : BitVec 8) : Inside m (m.put c) := by
  have here : ∀ w, Inside m (m.store (m.cursor_x + 80 * m.cursor_y) w) :=
    fun w => store_inside w h.place_lt
  obtain ⟨x, y⟩ := h
  unfold put
  split
  · -- the cursor steps back, over the start of a row if it has to
    split
    · have back : m.cursor_x - 1 + 80 * m.cursor_y < 80 * 24 := by omega
      exact (store_inside _ back).same rfl rfl
    · split
      · have back : 79 + 80 * (m.cursor_y - 1) < 80 * 24 := by omega
        exact (store_inside _ back).same rfl rfl
      · exact here _
  · split
    · exact (Inside.refl m).same rfl rfl
    · split
      · exact (Inside.refl m).same rfl rfl
      · split
        · exact (Inside.refl m).same rfl rfl
        · split
          · exact (here _).same rfl rfl
          · exact .refl m

theorem wrap_cursor_x_lt (m : Monitor) : m.wrap.cursor_x < 80 := by
  unfold wrap
  split
  · exact Nat.zero_lt_succ 79
  · omega

theorem wrap_inside (m : Monitor) : Inside m m.wrap := by
  unfold wrap
  split
  · exact (Inside.refl m).same rfl rfl
  · exact .refl m

/-- The cursor leaves the window only over the start of the row below it. -/
theorem put_cursor (h : m.InRange) (c : BitVec 8) :
    (m.put c).cursor_x ≤ 80 ∧ (m.put c).cursor_y ≤ 24 ∧
      ((m.put c).cursor_y = 24 → (m.put c).cursor_x = 0) := by
  obtain ⟨x, y⟩ := h
  unfold put
  split
  · split
    · simp only [store]
      omega
    · split
      · simp only [store]
        omega
      · simp only [store]
        omega
  · split
    · simp only
      omega
    · split
      · simp only
        omega
      · split
        · exact ⟨Nat.zero_le 80, y, fun _ => rfl⟩
        · split
          · simp only [store]
            omega
          · omega

theorem wrap_cursor (h : m.InRange) (c : BitVec 8) :
    (m.put c).wrap.cursor_y ≤ 24 ∧
      ((m.put c).wrap.cursor_y = 24 → (m.put c).wrap.cursor_x = 0) := by
  obtain ⟨-, y, last⟩ := put_cursor h c
  unfold wrap
  split
  · refine ⟨?_, fun _ => rfl⟩
    simp only
    omega
  · exact ⟨y, last⟩

theorem scroll_cursor_x (m : Monitor) : m.scroll.cursor_x = m.cursor_x := by
  by_cases high : 24 ≤ m.cursor_y
  · exact (scroll_high high).1
  · rw [scroll_low (Nat.lt_of_not_le high)]
    rfl

theorem scroll_cursor_y_lt (m : Monitor) : m.scroll.cursor_y < 24 := by
  by_cases high : 24 ≤ m.cursor_y
  · rw [(scroll_high high).2.1]
    decide
  · rw [scroll_low (Nat.lt_of_not_le high)]
    exact Nat.lt_of_not_le high

theorem monitor_put_inRange (m : Monitor) (c : BitVec 8) : (m.monitor_put c).InRange := by
  constructor
  · have x := scroll_cursor_x (m.put c).wrap
    exact lt_of_eq_of_lt x (wrap_cursor_x_lt (m.put c))
  · exact scroll_cursor_y_lt (m.put c).wrap

theorem monitor_put_inside (h : m.InRange) (c : BitVec 8) : Inside m (m.monitor_put c) :=
  (((put_inside h c).trans (wrap_inside _)).trans (scroll_inside _)).same rfl rfl

end Specs

end Monitor

end Krypton
