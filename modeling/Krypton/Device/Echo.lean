import Krypton.Device.Console
import Krypton.Device.Monitor

/-! # The echo of the line

While the console reads a line it keeps the line in memory and echoes it on the
screen. In row-major order the screen holds the line right before the cursor:
a row end is no break there, and scrolling moves the line and the cursor alike.
-/

namespace Krypton

namespace Monitor

variable {m : Monitor} {c : BitVec 8}

/-- The rows of the window have moved up, and the cursor with them. -/
structure Moved (rows : Nat) (m m' : Monitor) : Prop where
  place : m'.place + 80 * rows = m.place
  scrolled : m'.scrolled = m.scrolled + rows
  bottom : rows = 0 ∨ 80 * 23 ≤ m'.place
  cell : ∀ j < m'.place, m'.video_memory j = m.video_memory (j + 80 * rows)

/-- The end of a row is the start of the next. -/
theorem wrap_place (h : m.cursor_x ≤ 80) : m.wrap.place = m.place := by
  unfold wrap place
  split
  · simp only
    omega
  · rfl

theorem wrap_kept (m : Monitor) :
    m.wrap.scrolled = m.scrolled ∧ m.wrap.video_memory = m.video_memory := by
  unfold wrap
  split <;> exact ⟨rfl, rfl⟩

theorem scroll_moved (y : m.cursor_y ≤ 24) (last : m.cursor_y = 24 → m.cursor_x = 0) :
    ∃ rows, Moved rows m m.scroll := by
  by_cases high : 24 ≤ m.cursor_y
  · obtain ⟨x', y', scrolled, cells⟩ := scroll_high high
    have x := last (Nat.le_antisymm y high)
    have place : m.scroll.place = 80 * 23 := by rw [Monitor.place, x', y', x, Nat.zero_add]
    refine ⟨1, ?_, scrolled, .inr (Nat.le_of_eq place.symm), fun j before => ?_⟩
    · rw [place, Monitor.place]
      omega
    · rw [cells, scrolledCell, if_pos (place ▸ before), Nat.add_comm, Nat.mul_one]
  · rw [scroll_low (Nat.lt_of_not_le high)]
    exact ⟨0, rfl, rfl, .inl rfl, fun _ _ => rfl⟩

theorem monitor_put_moved (h : m.InRange) (c : BitVec 8) :
    ∃ rows, Moved rows (m.put c) (m.monitor_put c) := by
  obtain ⟨y, last⟩ := wrap_cursor h c
  obtain ⟨rows, moved⟩ := scroll_moved y last
  have place := wrap_place (put_cursor h c).1
  obtain ⟨scrolled, cells⟩ := wrap_kept (m.put c)
  exact ⟨rows, moved.place.trans place, moved.scrolled.trans (congrArg (· + rows) scrolled),
    moved.bottom, cells ▸ moved.cell⟩

/-- Backspace leaves a space behind; it steps back over the start of a row. -/
theorem put_backspace (before : 0 < m.place) :
    (m.put 0x08).place = m.place - 1 ∧ (m.put 0x08).scrolled = m.scrolled ∧
      (m.put 0x08).video_memory =
        Function.update m.video_memory (m.place - 1) (0x20 ||| colours) := by
  rw [put, if_pos rfl]
  by_cases x : m.cursor_x ≠ 0
  · have back : m.cursor_x - 1 + 80 * m.cursor_y = m.place - 1 := by
      rw [place]
      omega
    rw [if_pos x]
    exact ⟨back, rfl, congrArg (Function.update m.video_memory · _) back⟩
  · rw [place] at before
    have y : m.cursor_y ≠ 0 := by omega
    have back : 79 + 80 * (m.cursor_y - 1) = m.place - 1 := by
      rw [place]
      omega
    rw [if_neg x, if_pos y]
    exact ⟨back, rfl, congrArg (Function.update m.video_memory · _) back⟩

theorem put_printable (printable : c.toInt ≥ 0x20) :
    (m.put c).place = m.place + 1 ∧ (m.put c).scrolled = m.scrolled ∧
      (m.put c).video_memory =
        Function.update m.video_memory m.place (c.setWidth 16 ||| colours) := by
  have other {d : BitVec 8} (control : d.toInt < 0x20) : c ≠ d := by
    rintro rfl
    omega
  rw [put, if_neg (other (by decide)), if_neg (other (by decide)), if_neg (other (by decide)),
    if_neg (other (by decide)), if_pos printable]
  exact ⟨Nat.add_right_comm .., rfl, rfl⟩

end Monitor

namespace Console

open Monitor

variable {m₀ m : Monitor} {mem : Ptr32 → BitVec 8} {iorq : Iorq} {i : Nat}

/-- The characters that the console has written. -/
def screen (m : Monitor) (out : List Char) : Monitor :=
  out.foldl (fun m c => m.monitor_put (.ofNat 8 c.toNat)) m

/-- `aux[j]` -/
def Iorq.at (iorq : Iorq) (j : Nat) : Ptr32 := iorq.io_dptr + BitVec.ofNat 32 j

/-- The line is shown before the cursor, and began where the cursor was on `m₀`. -/
structure Echoes (m₀ m : Monitor) (mem : Ptr32 → BitVec 8) (iorq : Iorq) (i : Nat) : Prop where
  range : m.InRange
  inside : i ≤ m.place
  cell : ∀ j < i, m.video_memory (m.place - i + j) = (mem (iorq.at j)).setWidth 16 ||| colours
  scrolled : m₀.scrolled ≤ m.scrolled
  origin : m.place - i + 80 * (m.scrolled - m₀.scrolled) = m₀.place

/-- What is drawn after the line's first character is moved with it. -/
theorem Echoes.monitor_put (h : Echoes m₀ m mem iorq i) {c : BitVec 8} {n : Nat}
    {mem' : Ptr32 → BitVec 8} (place : (m.put c).place = m.place - i + n) (short : n ≤ 80 * 23)
    (scrolled : (m.put c).scrolled = m.scrolled)
    (cell : ∀ j < n, (m.put c).video_memory (m.place - i + j) =
      (mem' (iorq.at j)).setWidth 16 ||| colours) :
    Echoes m₀ (m.monitor_put c) mem' iorq n := by
  obtain ⟨rows, moved⟩ := monitor_put_moved h.range c
  have place' := moved.place
  have scrolled' := moved.scrolled
  have inside : n ≤ (m.monitor_put c).place := by
    cases moved.bottom with
    | inl still => omega
    | inr bottom => exact Nat.le_trans short bottom
  refine ⟨monitor_put_inRange m c, inside, fun j before => ?_, ?_, ?_⟩
  · rw [moved.cell _ (by omega), ← cell j before]
    congr 1
    omega
  · have old := h.scrolled
    omega
  · have old := h.scrolled
    have origin := h.origin
    omega

theorem Iorq.at_ne {j : Nat} (before : j < i) (bound : i < 2 ^ 32) : iorq.at j ≠ iorq.at i := by
  intro same
  have offsets := congrArg BitVec.toNat ((BitVec.add_right_inj iorq.io_dptr).mp same)
  rw [BitVec.toNat_ofNat, BitVec.toNat_ofNat, Nat.mod_eq_of_lt (by omega),
    Nat.mod_eq_of_lt bound] at offsets
  omega

/-- The last character goes; what precedes it stays. -/
theorem Echoes.backspace (h : Echoes m₀ m mem iorq i) (some : 0 < i) (short : i ≤ 80 * 23)
    (c : BitVec 8) :
    Echoes m₀ (m.monitor_put 0x08) (Function.update mem (iorq.at i) c) iorq (i - 1) := by
  have inside := h.inside
  obtain ⟨place, scrolled, cells⟩ := put_backspace (m := m) (by omega)
  refine h.monitor_put (by omega) (by omega) scrolled fun j before => ?_
  have kept : iorq.at j ≠ iorq.at i := Iorq.at_ne (by omega) (by omega)
  rw [cells, Function.update_of_ne (by omega), h.cell j (by omega), Function.update_of_ne kept]

theorem Echoes.printable (h : Echoes m₀ m mem iorq i) (short : i + 1 ≤ 80 * 23) {c : BitVec 8}
    (printable : c.toInt ≥ 0x20) :
    Echoes m₀ (m.monitor_put c) (Function.update mem (iorq.at i) c) iorq (i + 1) := by
  have inside := h.inside
  obtain ⟨place, scrolled, cells⟩ := put_printable (m := m) printable
  refine h.monitor_put (by omega) short scrolled fun j before => ?_
  by_cases new : j = i
  · subst new
    rw [cells, Nat.sub_add_cancel inside, Function.update_self, Function.update_self]
  · have kept : iorq.at j ≠ iorq.at i := Iorq.at_ne (by omega) (by omega)
    rw [cells, Function.update_of_ne (by omega), h.cell j (by omega), Function.update_of_ne kept]

theorem screen_append (m : Monitor) (out : List Char) (c : Char) :
    screen m (out ++ [c]) = (screen m out).monitor_put (.ofNat 8 c.toNat) := by
  rw [screen, List.foldl_append]
  rfl

theorem isprintable_toInt {c : Char} (h : isprintable c) :
    (BitVec.ofNat 8 c.toNat).toInt ≥ 0x20 := by
  simp only [isprintable, ge_iff_le, decide_eq_true_eq] at h
  rw [BitVec.toInt_eq_toNat_of_lt (by rw [BitVec.toNat_ofNat]; omega), BitVec.toNat_ofNat]
  omega

section Loop

variable {Client : Type} {s t : System Client} {c : Char}

/-- The console is in the loop, and the line fits the screen. -/
structure Reading (m₀ m : Monitor) (iorq : Iorq) (s : System Client) (i : Nat) : Prop where
  console : s.console = .key iorq i
  room : i < iorq.io_sz.toNat
  echoes : Echoes m₀ (screen m s.monitor) s.mem iorq i

theorem edit_reading (room : i < iorq.io_sz.toNat) (size : iorq.io_sz.toNat ≤ 80 * 23)
    (h : Echoes m₀ (screen m s.monitor) s.mem iorq i) (line : c ≠ '\n') :
    ∃ i', Reading m₀ m iorq (s.edit iorq i c) i' := by
  have inside := h.inside
  have wide : i < 2 ^ 32 := by omega
  unfold System.edit
  rw [if_neg line]
  split
  · rename_i back
    obtain ⟨rfl, some⟩ := back
    have next := h.backspace some (by omega) 0
    rw [show (0x08 : BitVec 8) = .ofNat 8 '\x08'.toNat from rfl, ← screen_append] at next
    exact ⟨i - 1, rfl, by omega, next⟩
  · split
    · exact ⟨i, rfl, room, h⟩
    · split
      · rename_i skipped printable
        have last : i + 1 < iorq.io_sz.toNat := by
          have free : BitVec.ofNat 32 i ≠ iorq.io_sz - 1 :=
            fun full => skipped (.inr (.inr full))
          bv_omega
        have next := h.printable (by omega) (isprintable_toInt printable)
        rw [← screen_append] at next
        exact ⟨i + 1, rfl, last, next⟩
      · exact ⟨i, rfl, room, h⟩

/-- A key that the console takes is not Enter. -/
def BeforeEnter (s : System Client) : Event Client → Prop
  | .console => ∀ scancode ∈ s.keybd_queue.msgs.head?, kbdus scancode ≠ '\n'
  | _ => True

/-- The statements of `do_io` leave the console's line and the screen alone. -/
theorem doIo_frame [DecidableEq Client] {a : Client} {queue : Ptr32}
    (step : s.doIo a queue = some t) :
    t.console = s.console ∧ t.mem = s.mem ∧ t.monitor = s.monitor := by
  unfold System.doIo at step
  cases pc : s.client a with
  | idle => simp [pc] at step
  | create req =>
      simp only [pc] at step
      split at step <;> cases step
      exact ⟨rfl, rfl, rfl⟩
  | send req =>
      rw [pc] at step
      obtain ⟨_, -, same⟩ := Option.bind_eq_some_iff.mp step
      cases same
      exact ⟨rfl, rfl, rfl⟩
  | recv req =>
      rw [pc] at step
      obtain ⟨_, -, step⟩ := Option.bind_eq_some_iff.mp step
      obtain ⟨_, -, same⟩ := Option.bind_eq_some_iff.mp step
      cases same
      exact ⟨rfl, rfl, rfl⟩
  | destroy req =>
      simp only [pc] at step
      cases step
      exact ⟨rfl, rfl, rfl⟩

theorem step_reading [DecidableEq Client] {e : Event Client}
    (size : iorq.io_sz.toNat ≤ 80 * 23) (h : Reading m₀ m iorq s i) (before : BeforeEnter s e)
    (step : s.step e = some t) : ∃ i', Reading m₀ m iorq t i' := by
  have same (s' : System Client) (console : s'.console = s.console) (mem : s'.mem = s.mem)
      (monitor : s'.monitor = s.monitor) : Reading m₀ m iorq s' i := by
    refine ⟨console.trans h.console, h.room, ?_⟩
    rw [mem, monitor]
    exact h.echoes
  cases e with
  | console =>
      simp only [System.step, System.console_device, h.console] at step
      obtain ⟨⟨scancode, keybd_queue⟩, recv, rest⟩ := Option.bind_eq_some_iff.mp step
      cases rest
      have line : kbdus scancode ≠ '\n' := by
        unfold Channel.queue_recv at recv
        cases msgs : s.keybd_queue.msgs with
        | nil => simp [msgs] at recv
        | cons msg msgs' =>
            simp only [msgs, Option.some.injEq, Prod.mk.injEq] at recv
            exact before scancode (by simp [msgs, recv.1])
      exact edit_reading (s := { s with keybd_queue }) h.room size h.echoes line
  | key scancode =>
      cases step
      refine ⟨i, ?_⟩
      unfold System.keypress_isr
      split
      · split
        · exact h
        · exact same _ rfl rfl rfl
      · exact h
  | do_io a req =>
      simp only [System.step] at step
      split at step
      · cases step
        exact ⟨i, same _ rfl rfl rfl⟩
      · cases step
  | client a queue =>
      obtain ⟨console, mem, monitor⟩ := doIo_frame step
      exact ⟨i, same t console mem monitor⟩

/-- At every point of the loop the cells before the cursor show the line, and it began
    where the cursor was, a row further up for each row that was scrolled. -/
theorem echo [DecidableEq Client] (m : Monitor) (s t : System Client) (iorq : Iorq)
    (console : s.console = .key iorq 0) (range : (screen m s.monitor).InRange)
    (size : 1 ≤ iorq.io_sz.toNat)
    (room : (screen m s.monitor).cursor_x + iorq.io_sz.toNat ≤ 80 * 23)
    (reached : Runs.Reach System.step BeforeEnter (· = s) t) :
    ∃ i, t.console = .key iorq i ∧
      Echoes (screen m s.monitor) (screen m t.monitor) t.mem iorq i := by
  have start : ∃ i, Reading (screen m s.monitor) m iorq s i :=
    ⟨0, console, size, range, Nat.zero_le _, nofun, Nat.le_refl _, by simp⟩
  obtain ⟨i, reading⟩ :=
    reached.invariant (I := fun t => ∃ i, Reading (screen m s.monitor) m iorq t i)
    (fun _ same => same ▸ start)
    fun _ _ _ ⟨_, reading⟩ before step => step_reading (by omega) reading before step
  exact ⟨i, reading.console, reading.echoes⟩

/-- A request for four bytes, with the last column of the last row to start from. -/
def corner : System Unit :=
  { System.start with
    console := .key ⟨0, .DC_READ, 4, 0x500⟩ 0
    keybd_queue := ⟨1, [30]⟩ }

theorem echo_corner :
    ∃ (t : System Unit) (i : Nat), t.monitor = ['a'] ∧ t.console = .key ⟨0, .DC_READ, 4, 0x500⟩ i ∧
      Echoes (screen ⟨fun _ => 0, 79, 23, 0, [], 0⟩ corner.monitor)
        (screen ⟨fun _ => 0, 79, 23, 0, [], 0⟩ t.monitor) t.mem ⟨0, .DC_READ, 4, 0x500⟩ i := by
  have start : Runs.Reach System.step BeforeEnter (· = corner) corner := .start rfl
  have line : BeforeEnter corner .console := by
    intro scancode mem
    cases mem
    decide
  have range : (screen ⟨fun _ => 0, 79, 23, 0, [], 0⟩ corner.monitor).InRange :=
    ⟨Nat.lt_succ_self 79, Nat.lt_succ_self 23⟩
  have typed := start.next line rfl
  obtain ⟨i, shown⟩ := echo ⟨fun _ => 0, 79, 23, 0, [], 0⟩ corner _ ⟨0, .DC_READ, 4, 0x500⟩ rfl
    range (by decide) (by decide) typed
  exact ⟨_, i, rfl, shown⟩

end Loop

end Console

end Krypton
