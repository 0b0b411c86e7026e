import Mathlib.Tactic.IntervalCases
import Krypton.Device.Echo

/-! # The line that is read

What the keys of a `DC_READ` request leave in its buffer, and where the console
stores. Between two keys the other tasks and the keyboard may go on.
-/

namespace Krypton

namespace Console

variable {Client : Type} {iorq : Iorq} {i : Nat} {c : Char}

/-! ## Stores -/

/-- The index and the value of what `edit` stores. -/
def stored (iorq : Iorq) (i : Nat) (c : Char) : Option (Nat × Char) :=
  if c = '\n' then some (i, '\x00')
  else if c = '\x08' ∧ i > 0 then some (i, '\x00')
  else if c = '\x00' ∨ c = '\t' ∨ BitVec.ofNat 32 i = iorq.io_sz - 1 then none
  else if isprintable c then some (i, c)
  else none

theorem stored_index {j : Nat} {d : Char} (h : stored iorq i c = some (j, d)) : j = i := by
  unfold stored at h
  split_ifs at h <;> cases h <;> rfl

/-- The console serves `iorq` from the test of its command on. It has taken the scancodes and
    stored to the indices, those that `memset` clears first. -/
inductive Loop [DecidableEq Client] (iorq : Iorq) (s : System Client) :
    List (BitVec 32) → List Nat → System Client → Prop where
  | clear {t} : s.console = .command iorq → iorq.io_desc = .DC_READ → s.step .console = some t →
      Loop iorq s [] (List.range iorq.io_sz.toNat) t
  | key {keys stores t u i scancode msgs} : Loop iorq s keys stores t → t.console = .key iorq i →
      t.keybd_queue.msgs = scancode :: msgs → t.step .console = some u →
      Loop iorq s (keys ++ [scancode])
        (stores ++ ((stored iorq i (kbdus scancode)).map Prod.fst).toList) u
  | other {keys stores t u e} : Loop iorq s keys stores t → e ≠ .console → t.step e = some u →
      Loop iorq s keys stores u

section Steps

variable [DecidableEq Client] {s t : System Client}

/-- Nothing but the console changes where it stands and what it has stored. -/
theorem other_frame {e : Event Client} (other : e ≠ .console) (step : s.step e = some t) :
    t.console = s.console ∧ t.mem = s.mem := by
  cases e with
  | console => exact absurd rfl other
  | key scancode =>
      cases step
      unfold System.keypress_isr
      split
      · split <;> exact ⟨rfl, rfl⟩
      · exact ⟨rfl, rfl⟩
  | do_io a req =>
      simp only [System.step] at step
      split at step
      · cases step
        exact ⟨rfl, rfl⟩
      · cases step
  | client a queue =>
      obtain ⟨console, mem, -⟩ := doIo_frame step
      exact ⟨console, mem⟩

theorem clear_eq (command : s.console = .command iorq) (reads : iorq.io_desc = .DC_READ) :
    s.step .console = some ((s.clear iorq).goto (.key iorq 0)) := by
  simp [System.step, System.console_device, command, reads]

theorem key_eq {scancode : BitVec 32} {msgs : List (BitVec 32)} (console : s.console = .key iorq i)
    (next : s.keybd_queue.msgs = scancode :: msgs) :
    s.step .console =
      some ({ s with keybd_queue := { s.keybd_queue with msgs } }.edit iorq i
          (kbdus scancode)) := by
  simp [System.step, System.console_device, console, Channel.queue_recv, next]

end Steps

/-! ## Bounds -/

section Bounds

/-- Below the limit the test for a full buffer keeps the index there. -/
theorem edit_index {s : System Client} {i' : Nat} (inside : i < iorq.io_sz.toNat)
    (console : (s.edit iorq i c).console = .key iorq i') : i' < iorq.io_sz.toNat := by
  unfold System.edit at console
  split at console
  · cases console
  · split at console
    · cases console
      omega
    · split at console
      · cases console
        exact inside
      · split at console
        · next skipped _ =>
            cases console
            have free : BitVec.ofNat 32 i ≠ iorq.io_sz - 1 := fun full => skipped (.inr (.inr full))
            bv_omega
        · cases console
          exact inside

variable [DecidableEq Client] {s t : System Client} {keys : List (BitVec 32)} {stores : List Nat}

/-- Every store is in the buffer, and so is the index. -/
theorem loop_inside (positive : 0 < iorq.io_sz.toNat) (loop : Loop iorq s keys stores t) :
    (∀ j ∈ stores, j < iorq.io_sz.toNat) ∧ ∀ i, t.console = .key iorq i → i < iorq.io_sz.toNat := by
  induction loop with
  | clear command reads step =>
      rw [clear_eq command reads] at step
      cases step
      refine ⟨fun j mem => List.mem_range.mp mem, fun i console => ?_⟩
      cases console
      exact positive
  | key _ console next step ih =>
      obtain ⟨inside, index⟩ := ih
      rw [key_eq console next] at step
      cases step
      have below := index _ console
      refine ⟨fun j mem => ?_, fun i' console' => edit_index below console'⟩
      cases List.mem_append.mp mem with
      | inl old => exact inside j old
      | inr new =>
          obtain ⟨⟨j', d⟩, write, rfl⟩ := Option.map_eq_some_iff.mp (Option.mem_toList.mp new)
          exact stored_index write ▸ below
  | other _ other step ih =>
      obtain ⟨console, -⟩ := other_frame other step
      exact ⟨ih.1, fun i here => ih.2 i (console ▸ here)⟩

/-- A key that is pressed while no other waits is the next that the console takes. -/
theorem loop_press (loop : Loop iorq s keys stores t) (console : t.console = .key iorq i)
    (queue : t.keybd_queue = ⟨1, []⟩) (scancode : BitVec 32) (code : scancode.toNat < 128) :
    ∃ u, Loop iorq s (keys ++ [scancode])
        (stores ++ ((stored iorq i (kbdus scancode)).map Prod.fst).toList) u ∧
      u.console = (t.edit iorq i (kbdus scancode)).console ∧ u.keybd_queue = ⟨1, []⟩ := by
  have same : (scancode.setWidth 8).setWidth 32 = scancode := by bv_omega
  have pressed : scancode.setWidth 8 &&& 0x80#8 = 0 := by
    have top : (scancode.setWidth 8).getLsbD 7 = false := by
      rw [← BitVec.testBit_toNat]
      exact Nat.testBit_lt_two_pow (by simpa using Nat.mod_lt_of_lt code)
    have bit : 0x80#8 = BitVec.twoPow 8 7 := rfl
    rw [bit, BitVec.and_twoPow, top]
    rfl
  have typed :
      t.step (.key (scancode.setWidth 8)) = some { t with keybd_queue := ⟨1, [scancode]⟩ } := by
    simp [System.step, System.keypress_isr, pressed, Channel.queue_send, queue, same]
  have here : ({ t with keybd_queue := ⟨1, [scancode]⟩ } : System Client).console = .key iorq i :=
    console
  refine ⟨_, (loop.other (e := .key _) (by simp) typed).key here rfl (key_eq here rfl), ?_, ?_⟩
  · unfold System.edit
    split_ifs <;> rfl
  · unfold System.edit
    split_ifs <;> rfl

end Bounds

/-! ## The line -/

section Line

/-- What a key does to a line that fits `size` bytes with the null byte behind it. -/
def press (size : Nat) (line : List Char) (c : Char) : List Char :=
  if c = '\x08' then line.dropLast
  else if isprintable c ∧ line.length < size - 1 then line ++ [c]
  else line

/-- The line of the keys, from the first to the last. -/
def typed (size : Nat) (keys : List (BitVec 32)) : List Char :=
  keys.foldl (fun line scancode => press size line (kbdus scancode)) []

/-- The bytes of a line. -/
def bytes (line : List Char) : List (BitVec 8) := line.map fun c => .ofNat 8 c.toNat

/-- The first `n` bytes of the buffer. -/
def buffer (mem : Ptr32 → BitVec 8) (iorq : Iorq) (n : Nat) : List (BitVec 8) :=
  (List.range n).map fun j => mem (iorq.at j)

variable {mem : Ptr32 → BitVec 8} {line : List Char}

theorem buffer_succ (n : Nat) :
    buffer mem iorq (n + 1) = buffer mem iorq n ++ [mem (iorq.at n)] := by
  simp [buffer, List.range_succ]

/-- A store behind them changes none of them. -/
theorem buffer_update {n : Nat} (behind : n ≤ i) (wide : i < 2 ^ 32) (b : BitVec 8) :
    buffer (Function.update mem (iorq.at i) b) iorq n = buffer mem iorq n := by
  refine List.map_congr_left fun j mem => ?_
  have before := List.mem_range.mp mem
  exact Function.update_of_ne (Iorq.at_ne (by omega) wide) ..

/-- The console waits for a key of the line. -/
structure Editing (iorq : Iorq) (line : List Char) (s : System Client) : Prop where
  console : s.console = .key iorq line.length
  room : line.length < iorq.io_sz.toNat
  buffer : buffer s.mem iorq line.length = bytes line

theorem Editing.stay {s : System Client} (h : Editing iorq line s) :
    Editing iorq line (s.goto (.key iorq line.length)) := ⟨rfl, h.room, h.buffer⟩

/-- The deleted character stays in the buffer, behind the line. -/
theorem Editing.delete {s : System Client} {last : Char} (h : Editing iorq (line ++ [last]) s)
    (b : Char) :
    Editing iorq line (((s.put iorq (line ++ [last]).length b).monitor_put '\x08').goto
      (.key iorq line.length)) := by
  have room := h.room
  have written := h.buffer
  rw [List.length_append, List.length_singleton] at room
  rw [bytes, List.map_append, List.length_append, List.length_singleton, buffer_succ] at written
  refine ⟨rfl, by omega, ?_⟩
  rw [List.length_append, List.length_singleton]
  exact (buffer_update (Nat.le_succ _) (by omega) _).trans (List.append_inj_left' written rfl)

theorem Editing.append {s : System Client} (h : Editing iorq line s)
    (free : line.length + 1 < iorq.io_sz.toNat) :
    Editing iorq (line ++ [c])
        (((s.put iorq line.length c).monitor_put c).goto (.key iorq (line.length + 1))) := by
  refine ⟨by simp [System.goto], by simpa using free, ?_⟩
  rw [List.length_append, List.length_singleton, buffer_succ, bytes, List.map_append, ← bytes,
      ← h.buffer]
  refine congrArg₂ (· ++ ·) (buffer_update (Nat.le_refl _) (by omega) _) ?_
  exact congrArg (fun b => [b]) (Function.update_self ..)

theorem edit_line {s : System Client} (h : Editing iorq line s) (other : c ≠ '\n') :
    Editing iorq (press iorq.io_sz.toNat line c) (s.edit iorq line.length c) := by
  have room := h.room
  unfold System.edit
  rw [if_neg other]
  by_cases back : c = '\x08'
  · have control : ¬ isprintable c := by
      rw [back]
      decide
    rw [press, if_pos back]
    cases List.eq_nil_or_concat' line with
    | inl empty =>
        subst empty
        rw [if_neg (by simp), if_neg control, ite_self]
        exact h.stay
    | inr more =>
        obtain ⟨front, last, rfl⟩ := more
        rw [if_pos ⟨back, by simp⟩, List.dropLast_concat]
        have length : (front ++ [last]).length - 1 = front.length := by simp
        rw [length]
        exact h.delete '\x00'
  · have kept : ¬ (c = '\x08' ∧ line.length > 0) := fun both => back both.1
    rw [press, if_neg back, if_neg kept]
    by_cases fits : isprintable c ∧ line.length < iorq.io_sz.toNat - 1
    · -- a printable character is neither null nor a tab, and the buffer is not full
      have appended : ¬ (c = '\x00' ∨ c = '\t' ∨ BitVec.ofNat 32 line.length = iorq.io_sz - 1) := by
        rintro (null | tab | full)
        · exact absurd fits.1 (null ▸ by decide)
        · exact absurd fits.1 (tab ▸ by decide)
        · bv_omega
      rw [if_neg appended, if_pos fits.1, if_pos fits]
      exact h.append (by omega)
    · rw [if_neg fits]
      by_cases skipped : c = '\x00' ∨ c = '\t' ∨ BitVec.ofNat 32 line.length = iorq.io_sz - 1
      · rw [if_pos skipped]
        exact h.stay
      · have free : BitVec.ofNat 32 line.length ≠ iorq.io_sz - 1 :=
          fun full => skipped (.inr (.inr full))
        have control : ¬ isprintable c := fun printable => fits ⟨printable, by bv_omega⟩
        rw [if_neg skipped, if_neg control]
        exact h.stay

theorem edit_enter {s : System Client} (h : Editing iorq line s) :
    (s.edit iorq line.length '\n').console = .reply iorq ∧
      buffer (s.edit iorq line.length '\n').mem iorq (line.length + 1) = bytes line ++ [0#8] := by
  have room := h.room
  refine ⟨rfl, ?_⟩
  rw [buffer_succ, ← h.buffer]
  refine congrArg₂ (· ++ ·) (buffer_update (Nat.le_refl _) (by omega) _) ?_
  exact congrArg (fun b => [b]) (Function.update_self ..)

variable [DecidableEq Client] {s t : System Client} {keys : List (BitVec 32)} {stores : List Nat}

/-- The keys before Enter. -/
theorem loop_editing (positive : 0 < iorq.io_sz.toNat) (loop : Loop iorq s keys stores t)
    (line : ∀ scancode ∈ keys, kbdus scancode ≠ '\n') :
    Editing iorq (typed iorq.io_sz.toNat keys) t := by
  induction loop with
  | clear command reads step =>
      rw [clear_eq command reads] at step
      cases step
      exact ⟨rfl, positive, rfl⟩
  | @key keys stores t u i scancode msgs _ console next step ih =>
      have editing := ih fun k mem => line k (List.mem_append_left _ mem)
      have here : i = (typed iorq.io_sz.toNat keys).length := by
        have both := console.symm.trans editing.console
        simpa using both
      rw [key_eq console next] at step
      cases step
      rw [typed, List.foldl_append, here]
      have waiting : Editing iorq (typed iorq.io_sz.toNat keys)
          { t with keybd_queue := { t.keybd_queue with msgs } } :=
            ⟨editing.console, editing.room, editing.buffer⟩
      exact edit_line waiting (line scancode (by simp))
  | other _ other step ih =>
      have editing := ih line
      obtain ⟨console, mem⟩ := other_frame other step
      exact ⟨console.trans editing.console, editing.room, mem ▸ editing.buffer⟩

/-- Any keys can be typed. -/
theorem loop_exists (command : s.console = .command iorq) (reads : iorq.io_desc = .DC_READ)
    (queue : s.keybd_queue = ⟨1, []⟩) (positive : 0 < iorq.io_sz.toNat)
    (codes : ∀ scancode ∈ keys, scancode.toNat < 128)
    (line : ∀ scancode ∈ keys, kbdus scancode ≠ '\n') :
    ∃ stores t, Loop iorq s keys stores t ∧ t.keybd_queue = ⟨1, []⟩ := by
  induction keys using List.reverseRecOn with
  | nil => exact ⟨_, _, .clear command reads (clear_eq command reads), queue⟩
  | append_singleton keys scancode ih =>
      have line' : ∀ k ∈ keys, kbdus k ≠ '\n' := fun k mem => line k (List.mem_append_left _ mem)
      obtain ⟨stores, t, loop, empty⟩ :=
        ih (fun k mem => codes k (List.mem_append_left _ mem)) line'
      have editing := loop_editing positive loop line'
      obtain ⟨u, more, -, empty'⟩ :=
        loop_press loop editing.console empty scancode (codes scancode (by simp))
      exact ⟨_, u, more, empty'⟩

/-- The console is about to serve a request. -/
def serving (Client : Type) (iorq : Iorq) : System Client :=
  { System.start with console := .command iorq }

/-- The keys up to the first Enter leave the line in the buffer, with the null byte behind it. -/
theorem reads_line (s : System Client) (iorq : Iorq) (command : s.console = .command iorq)
    (reads : iorq.io_desc = .DC_READ) (positive : 1 ≤ iorq.io_sz.toNat)
    (int : iorq.io_sz.toNat < 2 ^ 31)
    (keys : List (BitVec 32)) (enter : BitVec 32)
    (codes : ∀ scancode ∈ keys ++ [enter], scancode.toNat < 128)
    (first : ∀ scancode ∈ keys, kbdus scancode ≠ '\n') (last : kbdus enter = '\n') :
    (s.keybd_queue = ⟨1, []⟩ → ∃ stores t, Loop iorq s (keys ++ [enter]) stores t) ∧
    ∀ stores t, Loop iorq s (keys ++ [enter]) stores t →
      t.console = .reply iorq ∧
        buffer t.mem iorq ((typed iorq.io_sz.toNat keys).length + 1) =
          bytes (typed iorq.io_sz.toNat keys) ++ [0#8] ∧
        ∀ j ∈ stores, j < iorq.io_sz.toNat ∧ j < 2 ^ 31 := by
  constructor
  · intro queue
    have codes' : ∀ scancode ∈ keys, scancode.toNat < 128 :=
      fun k mem => codes k (List.mem_append_left _ mem)
    obtain ⟨stores, t, loop, empty⟩ := loop_exists command reads queue positive codes' first
    obtain ⟨u, more, -, -⟩ :=
      loop_press loop (loop_editing positive loop first).console empty enter (codes enter (by simp))
    exact ⟨_, u, more⟩
  · intro stores t loop
    have ended : t.console = .reply iorq ∧
        buffer t.mem iorq ((typed iorq.io_sz.toNat keys).length + 1) =
          bytes (typed iorq.io_sz.toNat keys) ++ [0#8] := by
      generalize all : keys ++ [enter] = taken at loop
      induction loop with
      | clear => simp at all
      | @key keys' stores t u i scancode msgs before console next step ih =>
          obtain ⟨rfl, same⟩ := List.append_inj' all rfl
          cases same
          have editing := loop_editing positive before first
          have here : i = (typed iorq.io_sz.toNat keys).length := by
            have both := console.symm.trans editing.console
            simpa using both
          rw [key_eq console next, last, here] at step
          cases step
          have waiting : Editing iorq (typed iorq.io_sz.toNat keys)
              { t with keybd_queue := { t.keybd_queue with msgs } } :=
                ⟨editing.console, editing.room, editing.buffer⟩
          exact edit_enter waiting
      | other _ other step ih =>
          obtain ⟨console, mem⟩ := other_frame other step
          rw [console, mem]
          exact ih all
    have inside := (loop_inside positive loop).1
    exact ⟨ended.1, ended.2, fun j mem => ⟨inside j mem, Nat.lt_trans (inside j mem) int⟩⟩

/-- The keys `a`, Backspace, `b` and Enter, in a buffer of two bytes. -/
theorem reads_line_two : ∃ (t : System Unit) (stores : List Nat),
    Loop ⟨0, .DC_READ, 2, 0x500⟩ (serving Unit ⟨0, .DC_READ, 2, 0x500⟩) [30, 14, 48, 28] stores t ∧
      buffer t.mem ⟨0, .DC_READ, 2, 0x500⟩ 2 = [0x62, 0] := by
  have codes : ∀ scancode ∈ [30#32, 14#32, 48#32, 28#32], scancode.toNat < 128 := by simp
  have first : ∀ scancode ∈ [30#32, 14#32, 48#32],
      kbdus scancode ≠ '\n' := by simp [kbdus, kbdusRows]
  have last : kbdus 28#32 = '\n' := by decide
  have line : typed (2#32).toNat [30#32, 14#32, 48#32] = ['b'] := by decide +kernel
  obtain ⟨exist, leave⟩ :=
    reads_line (serving Unit ⟨0, .DC_READ, 2, 0x500⟩) ⟨0, .DC_READ, 2, 0x500⟩ rfl rfl
    (by decide) (by decide) [30#32, 14#32, 48#32] 28#32 codes first last
  obtain ⟨stores, t, loop⟩ := exist rfl
  have written := (leave stores t loop).2.1
  simp only [BitVec.ofNat_eq_ofNat] at written
  rw [line] at written
  exact ⟨t, stores, loop, written⟩

end Line

/-! ## Any size -/

/-- No store is outside the buffer, and the index is an `int`. -/
def InBounds (Client : Type) [DecidableEq Client] (iorq : Iorq) : Prop :=
  ∀ (s t : System Client) (keys : List (BitVec 32)) (stores : List Nat), Loop iorq s keys stores t →
    (∀ j ∈ stores, j < iorq.io_sz.toNat) ∧ ∀ i, t.console = .key iorq i → i < 2 ^ 31

section Any

variable [DecidableEq Client]

/-- The key `a` fills the buffer but for the last byte. -/
theorem loop_fills (Client : Type) [DecidableEq Client] (reads : iorq.io_desc = .DC_READ)
    (positive : 0 < iorq.io_sz.toNat) (n : Nat)
    (room : n < iorq.io_sz.toNat) :
    ∃ keys stores t, Loop iorq (serving Client iorq) keys stores t ∧ t.console = .key iorq n ∧
      t.keybd_queue = ⟨1, []⟩ := by
  induction n with
  | zero => exact ⟨_, _, _, .clear rfl reads (clear_eq rfl reads), rfl, rfl⟩
  | succ n ih =>
      obtain ⟨keys, stores, t, loop, console, queue⟩ := ih (Nat.lt_of_succ_lt room)
      obtain ⟨u, more, console', queue'⟩ := loop_press loop console queue 30#32 (by decide)
      have letter : kbdus 30#32 = 'a' := by decide
      have free : BitVec.ofNat 32 n ≠ iorq.io_sz - 1 := by bv_omega
      refine ⟨_, _, u, more, console'.trans ?_, queue'⟩
      rw [letter, System.edit, if_neg (by decide), if_neg (by simp), if_neg (by simpa using free),
        if_pos (by decide)]
      rfl

/-- A buffer without room gets the null byte all the same, and beyond 2 GiB the index overflows. -/
theorem inBounds_iff (io_response io_dptr : Ptr32) (io_sz : BitVec 32) :
    InBounds Client ⟨io_response, .DC_READ, io_sz, io_dptr⟩ ↔ 0 < io_sz.toNat ∧
        io_sz.toNat ≤ 2 ^ 31 := by
  constructor
  · intro bounds
    have positive : 0 < io_sz.toNat := by
      have clear : Loop ⟨io_response, .DC_READ, io_sz, io_dptr⟩ (serving Client _) _ _ _ :=
        .clear rfl rfl (clear_eq rfl rfl)
      obtain ⟨u, enter, -, -⟩ := loop_press clear rfl rfl 28#32 (by decide)
      have line : kbdus 28#32 = '\n' := by decide
      exact (bounds _ _ _ _ enter).1 0 (List.mem_append_right _ (by simp [stored, line]))
    refine ⟨positive, Nat.le_of_not_lt fun large => ?_⟩
    have request : (⟨io_response, .DC_READ, io_sz, io_dptr⟩ : Iorq).io_desc = .DC_READ := rfl
    obtain ⟨keys, stores, t, loop, console, -⟩ :=
      loop_fills Client request positive (2 ^ 31) large
    exact absurd ((bounds _ t keys stores loop).2 _ console) (Nat.lt_irrefl _)
  · rintro ⟨positive, int⟩ s t keys stores loop
    obtain ⟨inside, index⟩ := loop_inside positive loop
    exact ⟨inside, fun i console => Nat.lt_of_lt_of_le (index i console) int⟩

/-- A request for no bytes stores the null byte behind Enter. -/
theorem inBounds_none : ¬ ∀ io_sz : BitVec 32, InBounds Unit ⟨0, .DC_READ, io_sz, 0x500⟩ := by
  intro all
  have empty := (inBounds_iff 0 0x500 0#32).mp (all 0#32)
  exact absurd empty.1 (by decide)

end Any

end Console

end Krypton
