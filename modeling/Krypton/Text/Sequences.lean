import Krypton.Text.Readback

/-! # One text after another

Printing with one format and then with another one prints what the two formats,
put together, print at once. Reports of any number of lines are read back in
this way.
-/

namespace Krypton

namespace Vsprintf

variable {f : Flags} {num : BitVec 32} {base width precision n : Nat}
    {string : BitVec 32 → List (BitVec 8)}
  {t u : Text} {d : Directive} {ps qs : List Piece} {fmt g : List (BitVec 8)}
  {args : List (BitVec 32)}

/-! ## What was there before -/

/-- A text with another one in front of it, and arguments behind its own. -/
def Text.framed (t before : Text) (more : List (BitVec 32)) : Text where
  str := before.str ++ t.str
  args := t.args ++ more
  stored := t.stored ++ before.stored

/-- Where no count of characters is stored. -/
def Piece.Plain : Piece → Prop
  | literal _ => True
  | directive d => d.conversion ≠ some (ascii 'n')

instance : (p : Piece) → Decidable p.Plain
  | .literal _ => inferInstanceAs (Decidable True)
  | .directive d => inferInstanceAs (Decidable (d.conversion ≠ some (ascii 'n')))

theorem va_arg_framed {arg : BitVec 32} (before : Text) (more : List (BitVec 32))
    (took : t.va_arg = some (arg, u)) :
    (t.framed before more).va_arg = some (arg, u.framed before more) := by
  obtain ⟨s, args, stored⟩ := t
  cases args with
  | nil => cases took
  | cons a args =>
      cases took
      rfl

theorem put_framed (before : Text) (s : List (BitVec 8)) (more : List (BitVec 32)) :
    (t.framed before more).put s = (t.put s).framed before more := by
  simp [Text.framed, Text.put]

theorem map_framed {k : BitVec 32 → List (BitVec 8)} (before : Text) (more : List (BitVec 32))
    (run : (t.va_arg.map fun (arg, t) => t.put (k arg)) = some u) :
    ((t.framed before more).va_arg.map fun (arg, t) => t.put (k arg)) =
      some (u.framed before more) := by
  obtain ⟨⟨arg, v⟩, took, rfl⟩ := Option.map_eq_some_iff.mp run
  rw [va_arg_framed before more took, Option.map_some]
  exact congrArg some (put_framed ..)

theorem piece_framed {p : Piece} (plain : p.Plain) (before : Text) (more : List (BitVec 32))
    (run : p.exec string t = some u) :
    p.exec string (t.framed before more) = some (u.framed before more) := by
  cases p with
  | literal c =>
      cases run
      exact congrArg some (put_framed before [c] more)
  | directive d =>
      have run : d.exec string t = some u := run
      have goal : Piece.exec string (t.framed before more) (.directive d) =
          d.exec string (t.framed before more) := rfl
      rw [goal]
      unfold Directive.exec at run ⊢
      cases conversion : d.conversion with
      | none =>
          rw [conversion] at run
          cases run
          exact congrArg some (put_framed ..)
      | some c =>
          have other : c ≠ ascii 'n' := fun same => plain (same ▸ conversion)
          simp only [conversion, if_neg other] at run ⊢
          by_cases field : c ∈ Directive.fields
          · rw [if_pos field] at run ⊢
            exact map_framed before more run
          · rw [if_neg field] at run ⊢
            split at run
            · next asks =>
                rw [if_pos asks]
                exact map_framed (k := fun _ => [ascii '%', c]) before more run
            · next asks =>
                rw [if_neg asks]
                cases run
                exact congrArg some (put_framed ..)

theorem exec_framed (plain : ∀ p ∈ ps, p.Plain) (before : Text) (more : List (BitVec 32))
    (run : ps.foldlM (Piece.exec string) t = some u) :
    ps.foldlM (Piece.exec string) (t.framed before more) = some (u.framed before more) := by
  induction ps generalizing t with
  | nil =>
      cases run
      rfl
  | cons p ps ih =>
      rw [List.foldlM_cons] at run ⊢
      obtain ⟨v, one, rest⟩ := Option.bind_eq_some_iff.mp run
      have here := piece_framed (plain p List.mem_cons_self) before more one
      exact Option.bind_eq_some_iff.mpr ⟨_, here,
          ih (fun q mem => plain q (List.mem_cons_of_mem _ mem)) rest⟩

/-! ## Formats put together -/

/-- No directive is left open, and the numbers in it fit. -/
def Piece.Sound : Piece → Prop
  | literal _ => True
  | directive d =>
      d.conversion ≠ none ∧ decimal d.width < 2 ^ 31 ∧ ∀ ds ∈ d.precision, decimal ds < 2 ^ 31 - 5

instance : (p : Piece) → Decidable p.Sound
  | .literal _ => inferInstanceAs (Decidable True)
  | .directive d => inferInstanceAs (Decidable (d.conversion ≠ none ∧ decimal d.width < 2 ^ 31 ∧
      ∀ ds ∈ d.precision, decimal ds < 2 ^ 31 - 5))

theorem sound_fits (sound : ∀ p ∈ ps, p.Sound) : ∀ d, .directive d ∈ ps → d.Fits :=
  fun _ mem => ⟨(sound _ mem).2.1, (sound _ mem).2.2⟩

theorem sound_complete (sound : ∀ p ∈ pieces fmt, p.Sound) : Complete fmt :=
  fun _ mem => (sound _ mem).1

/-- Reading a format loses nothing, and what is read is carried out piece by piece. -/
theorem vsprintf_prints (string : BitVec 32 → List (BitVec 8))
    (fits : ∀ d, .directive d ∈ pieces fmt → d.Fits)
    (args : List (BitVec 32)) : (pieces fmt).flatMap Piece.text = fmt ∧
      vsprintf string fmt args = (pieces fmt).foldlM (Piece.exec string) { args } :=
  ⟨piecesFrom_text fmt.length (Nat.le_refl _), vsprintf_exec fits args⟩

/-- `%5d|` and a number -/
theorem vsprintf_prints_five :
    ([.directive ⟨[], [ascii '5'], none, none, some (ascii 'd')⟩, .literal (ascii '|')] :
      List Piece).flatMap Piece.text = [ascii '%', ascii '5', ascii 'd', ascii '|'] ∧
    vsprintf (fun _ => []) [ascii '%', ascii '5', ascii 'd', ascii '|'] [42#32] =
      some
        { str := [ascii ' ', ascii ' ', ascii ' ', ascii '4', ascii '2', ascii '|']
          args := [] } :=
  @vsprintf_prints [ascii '%', ascii '5', ascii 'd', ascii '|'] (fun _ => [])
      (sound_fits (by decide)) [42#32]

/-- Behind a format that leaves no directive open, another one is carried out as if it stood alone.
    -/
theorem vsprintf_append (string : BitVec 32 → List (BitVec 8)) (complete : Complete fmt)
    (g : List (BitVec 8))
    (args : List (BitVec 32)) : vsprintf string (fmt ++ g) args =
        (vsprintf string fmt args).bind (format string g.length g) := by
  have rest (t : Text) : format string g.length g t = (pieces g).foldlM (Piece.run string) t :=
    format_eq g.length (Nat.le_refl _)
  rw [vsprintf_eq, vsprintf_eq, pieces_append complete, List.foldlM_append]
  exact congrArg (Option.bind _) (funext fun t => (rest t).symm)

theorem vsprintf_append_two :
    vsprintf (fun _ => []) ([ascii '%', ascii 'd'] ++ [ascii '%', ascii 'd']) [1#32, 2#32] =
    (vsprintf (fun _ => []) [ascii '%', ascii 'd'] [1#32, 2#32]).bind
        (format (fun _ => []) 2 [ascii '%', ascii 'd']) :=
  vsprintf_append (fun _ => []) (sound_complete (by decide)) [ascii '%', ascii 'd'] [1#32, 2#32]

/-- The two texts, one after the other, where the first format takes all its arguments. -/
theorem vsprintf_join {more : List (BitVec 32)} (sound : ∀ p ∈ pieces fmt, p.Sound)
    (sound' : ∀ p ∈ pieces g, p.Sound)
    (plain : ∀ p ∈ pieces fmt, p.Plain) (plain' : ∀ p ∈ pieces g, p.Plain)
    (first : vsprintf string fmt args = some t) (all : t.args = [])
    (second : vsprintf string g more = some u) :
    vsprintf string (fmt ++ g) (args ++ more) = some (u.framed t []) := by
  have both : pieces (fmt ++ g) = pieces fmt ++ pieces g := pieces_append (sound_complete sound)
  have sound_both : ∀ p ∈ pieces (fmt ++ g), p.Sound := by
    rw [both]
    exact fun p mem => (List.mem_append.mp mem).elim (sound p) (sound' p)
  rw [vsprintf_exec (sound_fits sound)] at first
  rw [vsprintf_exec (sound_fits sound')] at second
  rw [vsprintf_exec (sound_fits sound_both), both, List.foldlM_append]
  have start : Text.framed { args } { args } more = { args := args ++ more } := rfl
  have before := exec_framed plain { args } more first
  have after := exec_framed plain' t [] second
  have middle : Text.framed t { args } more = Text.framed { args := more } t [] := by
    obtain ⟨s, left, stored⟩ := t
    cases all
    simp [Text.framed]
  rw [start, middle] at before
  exact Option.bind_eq_some_iff.mpr ⟨_, before, after⟩

/-! ## Lines of numbers -/

/-- How many arguments numbers take. -/
def fields : List Piece → Nat
  | [] => 0
  | .literal _ :: ps => fields ps
  | .directive _ :: ps => fields ps + 1

/-- Room for what a piece prints. -/
def Piece.room : Piece → Nat
  | literal _ => 1
  | directive d => d.layout.elim 0 fun l => max l.2.2 (3 + max (d.precision.elim 0 decimal) 32)

def room (ps : List Piece) : Nat := (ps.map Piece.room).sum

def Piece.isLiteral : Piece → Bool
  | literal _ => true
  | directive _ => false

instance : (ps : List Piece) → Decidable (Readable ps)
  | [] => inferInstanceAs (Decidable True)
  | .literal _ :: ps => instDecidableReadable ps
  | .directive d :: ps =>
      have := instDecidableReadable ps
      inferInstanceAs (Decidable ((∃ l ∈ d.layout, l.1.left = false) ∧ stops ps ∧ Readable ps))

/-- A line of `n` numbers, with something behind the last one. -/
structure Line (fmt : List (BitVec 8)) (n : Nat) : Prop where
  sound : ∀ p ∈ pieces fmt, p.Sound
  readable : Readable (pieces fmt)
  closed : (pieces fmt).getLast?.all Piece.isLiteral
  count : fields (pieces fmt) = n
  text : 0#8 ∉ fmt

instance (fmt : List (BitVec 8)) (n : Nat) : Decidable (Line fmt n) :=
  decidable_of_iff ((∀ p ∈ pieces fmt, p.Sound) ∧ Readable (pieces fmt) ∧
      (pieces fmt).getLast?.all Piece.isLiteral ∧
      fields (pieces fmt) = n ∧ 0#8 ∉ fmt)
    ⟨fun ⟨sound, readable, closed, count, text⟩ => ⟨sound, readable, closed, count, text⟩,
      fun line => ⟨line.sound, line.readable, line.closed, line.count, line.text⟩⟩

theorem integer_length (two : 2 ≤ base) : (integer f base width precision num).length ≤
    max width (3 + max precision 32) := by
  have digits := (digitsOf_length (f := f) two (magnitude_lt f num)).2
  have sign : (signOf f num).length ≤ 1 := by
    unfold signOf
    repeat' split
    all_goals simp
  have mark : (markOf f base).length ≤ 2 := by
    rw [markOf_length]
    repeat' split
    all_goals omega
  unfold integer justify numeral
  repeat' split
  all_goals
    simp only [List.length_append, List.length_replicate, List.length_reverse]
    omega

theorem readable_plain (readable : Readable ps) : ∀ p ∈ ps, p.Plain := by
  induction ps with
  | nil => nofun
  | cons p ps ih =>
      cases p with
      | literal c => exact List.forall_mem_cons.mpr ⟨trivial, ih readable⟩
      | directive d =>
          obtain ⟨⟨l, layout, -⟩, -, readable⟩ := readable
          refine List.forall_mem_cons.mpr ⟨fun stores => ?_, ih readable⟩
          unfold Directive.layout at layout
          rw [stores] at layout
          revert layout
          simp [ascii]

/-- Enough arguments are taken, and there is room for what is printed. -/
theorem exec_line (string : BitVec 32 → List (BitVec 8)) (readable : Readable ps)
    (enough : fields ps ≤ t.args.length) :
    ∃ u s, ps.foldlM (Piece.exec string) t = some u ∧ u.str = t.str ++ s ∧
        u.args = t.args.drop (fields ps) ∧
      s.length ≤ room ps ∧ ∀ c ∈ s, .literal c ∈ ps ∨ numeric c ∨ c = ascii ' ' := by
  induction ps generalizing t with
  | nil => exact ⟨t, [], rfl, by simp, rfl, Nat.zero_le _, nofun⟩
  | cons p ps ih =>
      cases p with
      | literal c =>
          obtain ⟨u, s, run, str, args, length, chars⟩ := ih (t := t.put [c]) readable enough
          refine ⟨u, c :: s, run, ?_, args, ?_, ?_⟩
          · rw [str]
            simp [Text.put]
          · have rooms : room (.literal c :: ps) = 1 + room ps := by simp [room, Piece.room]
            rw [List.length_cons, rooms]
            omega
          · refine List.forall_mem_cons.mpr ⟨.inl List.mem_cons_self, fun c mem => ?_⟩
            exact (chars c mem).imp_left (List.mem_cons_of_mem _)
      | directive d =>
          obtain ⟨⟨l, layout, right⟩, -, readable⟩ := readable
          obtain ⟨two, most, exec⟩ := field_layout string (t := t) layout
          obtain ⟨str, args, stored⟩ := t
          cases args with
          | nil => exact absurd enough (Nat.not_succ_le_zero _)
          | cons arg args =>
              have took : Text.va_arg ⟨str, arg :: args,
                  stored⟩ = some (arg, ⟨str, args, stored⟩) := rfl
              let number := integer l.1 l.2.1 l.2.2 (d.precision.elim 0 decimal) arg
              rw [took, Option.map_some] at exec
              obtain ⟨u, s, run, text, left, length, chars⟩ :=
                ih (t := Text.put ⟨str, args, stored⟩ number) readable
                    (Nat.le_of_succ_le_succ enough)
              have fits : number.length ≤ max l.2.2 (3 + max (d.precision.elim 0 decimal) 32) :=
                integer_length two
              refine ⟨u, number ++ s, ?_, ?_, left, ?_, ?_⟩
              · rw [List.foldlM_cons]
                exact Option.bind_eq_some_iff.mpr ⟨_, exec, run⟩
              · rw [text]
                simp [Text.put]
              · have rooms : room (.directive d :: ps) = d.layout.elim 0
                    (fun l => max l.2.2 (3 + max (d.precision.elim 0 decimal) 32)) + room ps := by
                        simp [room, Piece.room]
                rw [rooms, Option.mem_def.mp layout, Option.elim_some, List.length_append]
                omega
              · obtain ⟨k, core, shape, -, all⟩ :=
                  integer_shape l.2.2 (d.precision.elim 0 decimal) arg two most right
                intro c mem
                rcases List.mem_append.mp mem with mem | mem
                · have mem : c ∈ List.replicate k (ascii ' ') ++ core := shape ▸ mem
                  rcases List.mem_append.mp mem with space | digit
                  · exact .inr (.inr (List.eq_of_mem_replicate space))
                  · exact .inr (.inl (all c digit))
                · exact (chars c mem).imp_left (List.mem_cons_of_mem _)

theorem literal_text {c : BitVec 8} (mem : .literal c ∈ pieces fmt) : c ∈ fmt := by
  have whole : (pieces fmt).flatMap Piece.text = fmt := piecesFrom_text fmt.length (Nat.le_refl _)
  rw [← whole]
  exact List.mem_flatMap.mpr ⟨_, mem, List.mem_singleton_self c⟩

theorem readable_append (readable : Readable ps) (closed : ps.getLast?.all Piece.isLiteral)
    (readable' : Readable qs) :
    Readable (ps ++ qs) := by
  induction ps with
  | nil => exact readable'
  | cons p ps ih =>
      cases ps with
      | nil =>
          cases p with
          | literal c => exact readable'
          | directive d => cases closed
      | cons q ps =>
          rw [List.getLast?_cons_cons] at closed
          cases p with
          | literal c => exact ih readable closed
          | directive d =>
              obtain ⟨number, stop, readable⟩ := readable
              exact ⟨number, by cases q <;> exact stop, ih readable closed⟩

theorem fields_append : fields (ps ++ qs) = fields ps + fields qs := by
  induction ps with
  | nil => exact (Nat.zero_add _).symm
  | cons p ps ih =>
      cases p with
      | literal c => exact ih
      | directive d =>
          rw [List.cons_append, fields, fields, ih]
          omega

theorem Line.append {n' : Nat} (line : Line fmt n) (line' : Line g n') :
    Line (fmt ++ g) (n + n') := by
  have both : pieces (fmt ++ g) = pieces fmt ++ pieces g :=
    pieces_append (sound_complete line.sound)
  refine ⟨?_, ?_, ?_, ?_, ?_⟩
  · rw [both]
    exact fun p mem => (List.mem_append.mp mem).elim (line.sound p) (line'.sound p)
  · rw [both]
    exact readable_append line.readable line.closed line'.readable
  · rw [both, List.getLast?_append]
    have closed := line'.closed
    cases last : (pieces g).getLast? with
    | none => exact line.closed
    | some p =>
        rw [last] at closed
        exact closed
  · rw [both, fields_append, line.count, line'.count]
  · exact fun mem => (List.mem_append.mp mem).elim line.text line'.text

/-- A line is printed whole, and has no null in it. -/
theorem Line.prints (string : BitVec 32 → List (BitVec 8)) (line : Line fmt n)
    (given : args.length = n) :
    ∃ u, vsprintf string fmt args = some u ∧ u.args = [] ∧ u.str.length ≤ room (pieces fmt) ∧
        0#8 ∉ u.str := by
  obtain ⟨u, s, run, str, left, length, chars⟩ := exec_line string (t := { args }) line.readable
    (Nat.le_of_eq (line.count.trans given.symm))
  have whole : u.str = s := str
  refine ⟨u, (vsprintf_exec (sound_fits line.sound) args).trans run, ?_, whole ▸ length,
      fun null => ?_⟩
  · rw [left, line.count, ← given]
    exact List.drop_length
  · rcases chars _ (whole ▸ null) with literal | digit | space
    · exact line.text (literal_text literal)
    · exact absurd digit (by decide)
    · exact absurd space (by decide)

end Vsprintf

end Krypton
