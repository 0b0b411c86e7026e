import Krypton.Device.Monitor

/-! # The terminal in its window

The cursor stays in the text window and nothing but `monitor_clear` stores to the
status row. What `monitor_write` leaves in the window are the last rows of a
screen of any height on which nothing scrolls.
-/

namespace Krypton

namespace Monitor

/-! ## Calls -/

inductive Call where
  | init (low high : BitVec 8)
  | clear
  | put (c : BitVec 8)

def call (m : Monitor) : Call → Monitor
  | .init low high => m.monitor_init low high
  | .clear => m.monitor_clear
  | .put c => m.monitor_put c

def calls (m : Monitor) (cs : List Call) : Monitor := cs.foldl call m

/-- The monitor as the kernel is loaded: the screen and the cursor registers are as
    they were left. -/
def loaded (video_memory : Nat → BitVec 16) (position : BitVec 16) : Monitor where
  video_memory := video_memory
  cursor_x := 0
  cursor_y := 0
  position := position
  stores := []
  scrolled := 0

variable {m : Monitor}

theorem call_inRange (m : Monitor) (call : Call) : (m.call call).InRange := by
  cases call with
  | init low high =>
      constructor
      · exact lt_of_eq_of_lt (scroll_cursor_x _) (Nat.zero_lt_succ 79)
      · exact scroll_cursor_y_lt _
  | clear => exact ⟨Nat.zero_lt_succ 79, Nat.zero_lt_succ 23⟩
  | put c => exact monitor_put_inRange m c

theorem calls_inRange (h : m.InRange) (cs : List Call) : (m.calls cs).InRange := by
  induction cs generalizing m with
  | nil => exact h
  | cons call cs ih => exact ih (call_inRange m call)

theorem call_inside (h : m.InRange) {call : Call} (other : call ≠ .clear) :
    Inside m (m.call call) := by
  cases call with
  | init low high =>
      have moved : Inside m { m with
          cursor_x := 0
          cursor_y := (low.setWidth 16 <<< 8 ||| high.setWidth 16).toNat / 80 + 1 } :=
        (Inside.refl m).same rfl rfl
      exact moved.trans (scroll_inside _)
  | clear => exact absurd rfl other
  | put c => exact monitor_put_inside h c

/-- The cursor is in the window after any calls, and a further call stores to nothing
    but the window unless it clears the screen. -/
theorem calls_in_window (video_memory : Nat → BitVec 16) (position : BitVec 16)
    (cs : List Call) :
    ((loaded video_memory position).calls cs).InRange ∧
      ∀ call, call ≠ .clear →
        Inside ((loaded video_memory position).calls cs)
          (((loaded video_memory position).calls cs).call call) := by
  have range : ((loaded video_memory position).calls cs).InRange :=
    calls_inRange ⟨Nat.zero_lt_succ 79, Nat.zero_lt_succ 23⟩ cs
  exact ⟨range, fun _ other => call_inside range other⟩

theorem calls_in_window_put :
    Inside ((loaded (fun _ => 0) 0).calls [.init 0xFF 0xFF, .put 0x09])
      (((loaded (fun _ => 0) 0).calls [.init 0xFF 0xFF, .put 0x09]).call (.put 0x08)) :=
  (calls_in_window (fun _ => 0) 0 [.init 0xFF 0xFF, .put 0x09]).2 (.put 0x08) nofun

/-! ## The reference screen -/

/-- A screen without an end, and the lowest row that the cursor has reached. -/
structure Screen where
  cell : Nat → Nat → BitVec 16
  x : Nat
  y : Nat
  lowest : Nat

namespace Screen

/-- The window of the monitor and blank rows below it. -/
def ofWindow (m : Monitor) : Screen where
  cell row col := if row < 24 then m.video_memory (col + 80 * row) else blank
  x := m.cursor_x
  y := m.cursor_y
  lowest := 23

def draw (s : Screen) (c : BitVec 8) : Screen :=
  if c = 0x09 then { s with x := (s.x + 8) / 8 * 8 }
  else if c = 0x0D then { s with x := 0 }
  else if c = 0x0A then { s with x := 0, y := s.y + 1 }
  else
    { s with
      cell := fun row col =>
        if row = s.y ∧ col = s.x then c.setWidth 16 ||| colours else s.cell row col
      x := s.x + 1 }

def wrap (s : Screen) : Screen :=
  if s.x ≥ 80 then { s with x := 0, y := s.y + 1 } else s

def put (s : Screen) (c : BitVec 8) : Screen :=
  let s := (s.draw c).wrap
  { s with lowest := max s.lowest s.y }

theorem draw_lowest (s : Screen) (c : BitVec 8) : (s.draw c).lowest = s.lowest := by
  unfold draw
  split_ifs <;> rfl

theorem put_lowest (s : Screen) (c : BitVec 8) :
    (s.put c).lowest = max s.lowest (s.draw c).wrap.y := by
  have wrapped : (s.draw c).wrap.lowest = (s.draw c).lowest := by
    unfold wrap
    split <;> rfl
  rw [put, wrapped, draw_lowest]

def write (s : Screen) (text : List (BitVec 8)) : Screen := text.foldl put s

/-- The first of the last 24 rows. -/
def top (s : Screen) : Nat := s.lowest - 23

end Screen

/-- A printable character, or one that moves the cursor forward. -/
def Text (c : BitVec 8) : Prop := c.toInt ≥ 0x20 ∨ c = 0x0A ∨ c = 0x0D ∨ c = 0x09

instance : DecidablePred Text := fun c =>
  inferInstanceAs (Decidable (c.toInt ≥ 0x20 ∨ c = 0x0A ∨ c = 0x0D ∨ c = 0x09))

/-- The rows of the screen from `top` on are those of the window, and blank below it. -/
structure Shows (scrolled top : Nat) (s : Screen) (m : Monitor) : Prop where
  x : s.x = m.cursor_x
  y : s.y = top + m.cursor_y
  scrolled : m.scrolled = scrolled + top
  cell : ∀ row < 24, ∀ col < 80, m.video_memory (col + 80 * row) = s.cell (top + row) col
  below : ∀ row ≥ top + 24, ∀ col < 80, s.cell row col = blank

section Refinement

variable {scrolled top : Nat} {s : Screen} {c : BitVec 8}

theorem put_shows (h : Shows scrolled top s m) (range : m.InRange) (text : Text c) :
    Shows scrolled top (s.draw c) (m.put c) := by
  have forward : c ≠ 0x08 := by
    rintro rfl
    revert text
    decide
  unfold Screen.draw put
  rw [if_neg forward]
  split
  · exact ⟨by rw [h.x], h.y, h.scrolled, h.cell, h.below⟩
  · split
    · exact ⟨rfl, h.y, h.scrolled, h.cell, h.below⟩
    · split
      · exact ⟨rfl, congrArg (· + 1) h.y, h.scrolled, h.cell, h.below⟩
      · rename_i tab cr lf
        have printable : c.toInt ≥ 0x20 := by
          rcases text with printable | rfl | rfl | rfl
          · exact printable
          · exact absurd rfl lf
          · exact absurd rfl cr
          · exact absurd rfl tab
        rw [if_pos printable]
        obtain ⟨x, y⟩ := range
        refine ⟨congrArg (· + 1) h.x, h.y, h.scrolled, fun row inside col inRow => ?_,
          fun row below col inRow => ?_⟩
        · by_cases here : row = m.cursor_y ∧ col = m.cursor_x
          · obtain ⟨rfl, rfl⟩ := here
            simp [store, h.x, h.y]
          · have elsewhere : col + 80 * row ≠ m.cursor_x + 80 * m.cursor_y := by omega
            have other : ¬ (top + row = s.y ∧ col = s.x) := by
              rw [h.x, h.y]
              omega
            simp only [store, Function.update_of_ne elsewhere, if_neg other]
            exact h.cell row inside col inRow
        · have other : ¬ (row = s.y ∧ col = s.x) := by
            rw [h.y]
            omega
          simp only [if_neg other]
          exact h.below row below col inRow

theorem wrap_shows (h : Shows scrolled top s m) : Shows scrolled top s.wrap m.wrap := by
  unfold Screen.wrap wrap
  rw [h.x]
  split
  · exact ⟨rfl, congrArg (· + 1) h.y, h.scrolled, h.cell, h.below⟩
  · exact h

theorem scroll_shows (h : Shows scrolled top s m) (y : m.cursor_y ≤ 24) :
    Shows scrolled (max (top + 23) s.y - 23) s m.scroll := by
  have row := h.y
  by_cases high : 24 ≤ m.cursor_y
  · obtain ⟨x', y', scrolled', cells⟩ := scroll_high high
    rw [show max (top + 23) s.y - 23 = top + 1 by omega]
    refine ⟨h.x.trans x'.symm, by omega, by rw [scrolled', h.scrolled, Nat.add_assoc],
      fun row inside col inRow => ?_, fun row below => h.below row (by omega)⟩
    rw [cells, scrolledCell]
    by_cases last : row = 23
    · rw [if_neg (by omega), if_pos (by omega), h.below _ (by omega) col inRow]
    · rw [if_pos (by omega), show 80 + (col + 80 * row) = col + 80 * (row + 1) by omega,
        h.cell (row + 1) (by omega) col inRow, show top + (row + 1) = top + 1 + row by omega]
  · rw [scroll_low (Nat.lt_of_not_le high), show max (top + 23) s.y - 23 = top by omega]
    exact ⟨h.x, h.y, h.scrolled, h.cell, h.below⟩

theorem monitor_put_shows (h : Shows scrolled s.top s m) (range : m.InRange)
    (lowest : 23 ≤ s.lowest) (text : Text c) :
    Shows scrolled (s.put c).top (s.put c) (m.monitor_put c) := by
  have drawn := wrap_shows (put_shows h range text)
  have shown := scroll_shows drawn (wrap_cursor range c).1
  have same : max (s.top + 23) (s.draw c).wrap.y - 23 = (s.put c).top := by
    have kept : s.top + 23 = s.lowest := Nat.sub_add_cancel lowest
    rw [kept, Screen.top, s.put_lowest c]
  rw [same] at shown
  exact ⟨shown.x, shown.y, shown.scrolled, shown.cell, shown.below⟩

theorem monitor_write_shows (text : List (BitVec 8)) (plain : ∀ c ∈ text, Text c)
    (h : Shows scrolled s.top s m) (range : m.InRange) (lowest : 23 ≤ s.lowest) :
    Shows scrolled (s.write text).top (s.write text) (m.monitor_write text) := by
  induction text generalizing s m with
  | nil => exact h
  | cons c text ih =>
      have here : Text c := plain c (.head _)
      have more : c ≠ 0 := by
        rintro rfl
        revert here
        decide
      rw [monitor_write, if_neg more]
      exact ih (fun c mem => plain c (.tail _ mem)) (monitor_put_shows h range lowest here)
        (monitor_put_inRange m c)
        (s.put_lowest c ▸ Nat.le_trans lowest (Nat.le_max_left ..))

end Refinement

/-- After a text the window shows the last 24 rows of the screen on which the text was
    written without scrolling, and the cursor is as many rows up as have been scrolled. -/
theorem monitor_write_window (m : Monitor) (range : m.InRange) (text : List (BitVec 8))
    (plain : ∀ c ∈ text, Text c) :
    Shows m.scrolled ((Screen.ofWindow m).write text).top ((Screen.ofWindow m).write text)
      (m.monitor_write text) := by
  have start : Shows m.scrolled (Screen.ofWindow m).top (Screen.ofWindow m) m := by
    refine ⟨rfl, (Nat.zero_add _).symm, rfl, fun row inside col _ => ?_,
      fun row below col _ => ?_⟩
    · simp [Screen.ofWindow, Screen.top, inside]
    · simp only [Screen.ofWindow, Screen.top] at below ⊢
      rw [if_neg (by omega)]
  exact monitor_write_shows text plain start range (Nat.le_refl 23)

/-- Two rows of a text that ends in a newline at the bottom of the window. -/
theorem monitor_write_window_line :
    Shows 0 ((Screen.ofWindow { loaded (fun _ => 0) 0 with cursor_y := 23 }).write [0x41, 0x0A]).top
      ((Screen.ofWindow { loaded (fun _ => 0) 0 with cursor_y := 23 }).write [0x41, 0x0A])
      (monitor_write { loaded (fun _ => 0) 0 with cursor_y := 23 } [0x41, 0x0A]) :=
  monitor_write_window { loaded (fun _ => 0) 0 with cursor_y := 23 }
    ⟨Nat.zero_lt_succ 79, Nat.lt_succ_self 23⟩ [0x41, 0x0A] (by decide)

end Monitor

end Krypton
