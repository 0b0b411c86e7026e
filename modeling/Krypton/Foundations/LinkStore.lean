import Mathlib.Data.List.Chain
import Mathlib.Data.List.Nodup
import Mathlib.Logic.Function.Basic

/-! # Doubly linked lists with overlaid sentinels

A list header is three consecutive words `head`, `tail`, `tailPrev`, read as two
overlapping sentinel nodes: the front sentinel has `head` as its next word and
`tail` as its previous word, the back sentinel has `tail` and `tailPrev`. The
shared word `tail` is NULL in every proper list, so following `next` past the
last node and `prev` past the first one both end there.

The store is a memory of link words. `IsList` says that a header represents a
sequence of nodes, `Spliced` and `Bypassed` describe the two edits, and `Lists`
is a family of headers with disjoint sequences.
-/

namespace LinkStore

variable {ν κ : Type*}

/-- NULL, a node, or one of the two sentinels of a header. -/
inductive Ptr (ν κ : Type*) where
  | null
  | node (n : ν)
  | head (l : κ)
  | tail (l : κ)
  deriving DecidableEq, Repr

/-- A link word of a node or of a header. -/
inductive Word (ν κ : Type*) where
  | next (n : ν)
  | prev (n : ν)
  | head (l : κ)
  | tail (l : κ)
  | tailPrev (l : κ)
  deriving DecidableEq, Repr

/-- The memory of all link words. -/
abbrev Store (ν κ : Type*) := Word ν κ → Ptr ν κ

namespace Ptr

/-- Where `p->next` lies; NULL has no such word. -/
def nextWord : Ptr ν κ → Option (Word ν κ)
  | null => none
  | node n => some (.next n)
  | head l => some (.head l)
  | tail l => some (.tail l)

/-- Where `p->prev` lies; the front sentinel's is the shared word `tail`. -/
def prevWord : Ptr ν κ → Option (Word ν κ)
  | null => none
  | node n => some (.prev n)
  | head l => some (.tail l)
  | tail l => some (.tailPrev l)

end Ptr

def readNext (s : Store ν κ) (p : Ptr ν κ) : Option (Ptr ν κ) := p.nextWord.map s

def readPrev (s : Store ν κ) (p : Ptr ν κ) : Option (Ptr ν κ) := p.prevWord.map s

section Reads

variable (s : Store ν κ) (n : ν) (l : κ)

@[simp] theorem readNext_null : readNext s .null = none := rfl
@[simp] theorem readNext_node : readNext s (.node n) = some (s (.next n)) := rfl
@[simp] theorem readNext_head : readNext s (.head l) = some (s (.head l)) := rfl
@[simp] theorem readNext_tail : readNext s (.tail l) = some (s (.tail l)) := rfl
@[simp] theorem readPrev_null : readPrev s .null = none := rfl
@[simp] theorem readPrev_node : readPrev s (.node n) = some (s (.prev n)) := rfl
@[simp] theorem readPrev_head : readPrev s (.head l) = some (s (.tail l)) := rfl
@[simp] theorem readPrev_tail : readPrev s (.tail l) = some (s (.tailPrev l)) := rfl

end Reads

section Writes

variable [DecidableEq ν] [DecidableEq κ]

/-- `*w = p`. -/
def set (s : Store ν κ) (w : Word ν κ) (p : Ptr ν κ) : Store ν κ := Function.update s w p

@[simp] theorem set_same (s : Store ν κ) (w : Word ν κ) (p : Ptr ν κ) : set s w p w = p :=
  Function.update_self ..

@[simp] theorem set_other (s : Store ν κ) {w v : Word ν κ} (p : Ptr ν κ) (h : v ≠ w) :
    set s w p v = s v :=
  Function.update_of_ne h ..

/-- `p->next = q`, a fault when `p` is NULL. -/
def writeNext (s : Store ν κ) (p q : Ptr ν κ) : Option (Store ν κ) :=
  p.nextWord.map fun w => set s w q

/-- `p->prev = q`, a fault when `p` is NULL. -/
def writePrev (s : Store ν κ) (p q : Ptr ν κ) : Option (Store ν κ) :=
  p.prevWord.map fun w => set s w q

end Writes

section WriteSpecs

variable [DecidableEq ν] [DecidableEq κ] (s : Store ν κ) (q : Ptr ν κ) (n : ν) (l : κ)

@[simp] theorem writeNext_node : writeNext s (.node n) q = some (set s (.next n) q) := rfl
@[simp] theorem writeNext_head : writeNext s (.head l) q = some (set s (.head l) q) := rfl
@[simp] theorem writePrev_node : writePrev s (.node n) q = some (set s (.prev n) q) := rfl
@[simp] theorem writePrev_tail : writePrev s (.tail l) q = some (set s (.tailPrev l) q) := rfl

end WriteSpecs

/-- `p` and `q` are neighbours: `p->next = q` and `q->prev = p`. -/
def Linked (s : Store ν κ) (p q : Ptr ν κ) : Prop :=
  readNext s p = some q ∧ readPrev s q = some p

/-- A chain of neighbours reads the next words of all its members but the last
    and the previous words of all but the first. -/
theorem chain_congr {s t : Store ν κ} {ps : List (Ptr ν κ)}
    (nexts : ∀ p ∈ ps.dropLast, readNext t p = readNext s p)
    (prevs : ∀ p ∈ ps.tail, readPrev t p = readPrev s p)
    (chain : ps.IsChain (Linked s)) : ps.IsChain (Linked t) := by
  induction ps with
  | nil => exact .nil
  | cons p rest ih =>
      cases rest with
      | nil => exact .singleton p
      | cons q rest =>
          obtain ⟨⟨hn, hp⟩, chain⟩ := List.isChain_cons_cons.mp chain
          refine List.isChain_cons_cons.mpr ⟨⟨?_, ?_⟩, ih ?_ ?_ chain⟩
          · rw [nexts p (by simp), hn]
          · rw [prevs q (by simp), hp]
          · intro x hx
            exact nexts x (by simp [hx])
          · intro x hx
            exact prevs x (List.mem_cons_of_mem _ hx)

/-- The pointer to the last of the nodes `xs` that follow the front sentinel. -/
def lastPtr (l : κ) (xs : List ν) : Ptr ν κ := (xs.getLast?).elim (.head l) .node

/-- The pointer to the first of the nodes `ys` that precede the back sentinel. -/
def firstPtr (l : κ) (ys : List ν) : Ptr ν κ := (ys.head?).elim (.tail l) .node

@[simp] theorem lastPtr_nil (l : κ) : lastPtr l ([] : List ν) = .head l := rfl
@[simp] theorem lastPtr_append_one (l : κ) (xs : List ν) (x : ν) :
    lastPtr l (xs ++ [x]) = .node x := by simp [lastPtr]
@[simp] theorem firstPtr_nil (l : κ) : firstPtr l ([] : List ν) = .tail l := rfl
@[simp] theorem firstPtr_cons (l : κ) (y : ν) (ys : List ν) : firstPtr l (y :: ys) = .node y := rfl

theorem lastPtr_cases (l : κ) (xs : List ν) :
    lastPtr l xs = .head l ∧ xs = [] ∨ ∃ x ∈ xs, lastPtr l xs = .node x := by
  rcases List.eq_nil_or_concat' xs with rfl | ⟨ys, x, rfl⟩
  · exact .inl ⟨rfl, rfl⟩
  · exact .inr ⟨x, by simp, by simp⟩

theorem firstPtr_cases (l : κ) (ys : List ν) :
    firstPtr l ys = .tail l ∧ ys = [] ∨ ∃ y ∈ ys, firstPtr l ys = .node y := by
  cases ys with
  | nil => exact .inl ⟨rfl, rfl⟩
  | cons y ys => exact .inr ⟨y, by simp, rfl⟩

/-- The next word where a list ends is a next word of the list. -/
theorem last_word (l : κ) (xs : List ν) : ∃ w, (lastPtr l xs).nextWord = some w ∧
    (∀ n ∉ xs, w ≠ .next n) ∧ (∀ n, w ≠ .prev n) ∧ ∀ k, w ≠ .tail k ∧ w ≠ .tailPrev k := by
  rcases lastPtr_cases l xs with ⟨h, -⟩ | ⟨x, hx, h⟩ <;> rw [h]
  · exact ⟨_, rfl, by simp, by simp, by simp⟩
  · refine ⟨_, rfl, ?_, by simp, by simp⟩
    rintro n fresh ⟨⟩
    exact fresh hx

/-- The previous word where a list starts is a previous word of the list. -/
theorem first_word (l : κ) (ys : List ν) : ∃ w, (firstPtr l ys).prevWord = some w ∧
    (∀ n ∉ ys, w ≠ .prev n) ∧ (∀ n, w ≠ .next n) ∧ ∀ k, w ≠ .tail k ∧ w ≠ .head k := by
  rcases firstPtr_cases l ys with ⟨h, -⟩ | ⟨y, hy, h⟩ <;> rw [h]
  · exact ⟨_, rfl, by simp, by simp, by simp⟩
  · refine ⟨_, rfl, ?_, by simp, by simp⟩
    rintro n fresh ⟨⟩
    exact fresh hy

/-- The header `l` represents the sequence `xs`. -/
structure IsList (s : Store ν κ) (l : κ) (xs : List ν) : Prop where
  chain : (Ptr.head l :: (xs.map Ptr.node ++ [Ptr.tail l])).IsChain (Linked s)
  ends : s (.tail l) = .null
  nodup : xs.Nodup

instance [DecidableEq ν] [DecidableEq κ] (s : Store ν κ) (l : κ) (xs : List ν) :
    Decidable (IsList s l xs) :=
  have : ∀ p q, Decidable (Linked s p q) := fun _ _ => instDecidableAnd
  decidable_of_iff
    ((Ptr.head l :: (xs.map Ptr.node ++ [Ptr.tail l])).IsChain (Linked s) ∧ s (.tail l) = .null ∧
      xs.Nodup)
    ⟨fun ⟨chain, ends, nodup⟩ => ⟨chain, ends, nodup⟩, fun ⟨chain, ends, nodup⟩ =>
      ⟨chain, ends, nodup⟩⟩

/-- The sentinel-led front part of a list. -/
private def Front (s : Store ν κ) (l : κ) (xs : List ν) : Prop :=
  (Ptr.head l :: xs.map Ptr.node).IsChain (Linked s)

/-- The sentinel-ended back part of a list. -/
private def Back (s : Store ν κ) (l : κ) (ys : List ν) : Prop :=
  (ys.map Ptr.node ++ [Ptr.tail l]).IsChain (Linked s)

private theorem front_last (l : κ) (xs : List ν) :
    (Ptr.head l :: xs.map Ptr.node).getLast? = some (lastPtr l xs) := by
  rcases List.eq_nil_or_concat' xs with rfl | ⟨ys, x, rfl⟩
  · rfl
  · rw [List.getLast?_cons]
    simp

private theorem back_first (l : κ) (ys : List ν) :
    (ys.map Ptr.node ++ [Ptr.tail l]).head? = some (firstPtr l ys) := by
  cases ys <;> rfl

/-- A list is cut anywhere into a front part, a back part and the link between them. -/
private theorem chain_cut {s : Store ν κ} {l : κ} {xs ys : List ν} :
    (Ptr.head l :: ((xs ++ ys).map Ptr.node ++ [Ptr.tail l])).IsChain (Linked s) ↔
      Front s l xs ∧ Linked s (lastPtr l xs) (firstPtr l ys) ∧ Back s l ys := by
  have split : Ptr.head l :: ((xs ++ ys).map Ptr.node ++ [Ptr.tail l]) =
      (Ptr.head l :: xs.map Ptr.node) ++ (ys.map Ptr.node ++ [Ptr.tail l]) := by simp
  rw [split, List.isChain_append, front_last, back_first]
  simp only [Option.mem_some_iff, forall_eq']
  exact ⟨fun ⟨a, b, c⟩ => ⟨a, c, b⟩, fun ⟨a, c, b⟩ => ⟨a, b, c⟩⟩

/-- Neighbours in the middle of a list. -/
theorem IsList.linked {s : Store ν κ} {l : κ} (xs ys : List ν) (h : IsList s l (xs ++ ys)) :
    Linked s (lastPtr l xs) (firstPtr l ys) :=
  (chain_cut.mp h.chain).2.1

/-- A header represents one sequence only. -/
theorem IsList.inj {s : Store ν κ} {l : κ} {xs ys : List ν} (h : IsList s l xs)
    (h' : IsList s l ys) : xs = ys := by
  have walk : ∀ (p : Ptr ν κ) (xs ys : List ν),
      (p :: (xs.map Ptr.node ++ [Ptr.tail l])).IsChain (Linked s) →
      (p :: (ys.map Ptr.node ++ [Ptr.tail l])).IsChain (Linked s) → xs = ys := by
    intro p xs
    induction xs generalizing p with
    | nil =>
        intro ys first second
        cases ys with
        | nil => rfl
        | cons y ys =>
            have ends := (List.isChain_cons_cons.mp first).1.1
            rw [(List.isChain_cons_cons.mp second).1.1] at ends
            cases ends
    | cons x xs ih =>
        intro ys first second
        obtain ⟨link, first⟩ := List.isChain_cons_cons.mp first
        cases ys with
        | nil =>
            have ends := (List.isChain_cons_cons.mp second).1.1
            rw [link.1] at ends
            cases ends
        | cons y ys =>
            obtain ⟨link', second⟩ := List.isChain_cons_cons.mp second
            have same := link'.1
            rw [link.1] at same
            cases same
            rw [ih (.node x) ys first second]
  exact walk _ xs ys h.chain h'.chain

/-- The words a list consists of: its header and the link words of its nodes. -/
def Owns (l : κ) (xs : List ν) : Word ν κ → Prop
  | .next n | .prev n => n ∈ xs
  | .head k | .tail k | .tailPrev k => k = l

/-- A list survives every change to words that are not its own. -/
theorem IsList.frame {s t : Store ν κ} {l : κ} {xs : List ν} (h : IsList s l xs)
    (same : ∀ w, Owns l xs w → t w = s w) : IsList t l xs where
  chain := by
    refine chain_congr ?_ ?_ h.chain
    · intro p hp
      have : p = .head l ∨ ∃ x ∈ xs, p = .node x := by
        rw [← List.cons_append, List.dropLast_concat] at hp
        simpa [eq_comm] using hp
      rcases this with rfl | ⟨x, hx, rfl⟩
      · simp [same (.head l) rfl]
      · simp [same (.next x) hx]
    · intro p hp
      have : (∃ x ∈ xs, p = .node x) ∨ p = .tail l := by
        simpa [eq_comm] using hp
      rcases this with ⟨x, hx, rfl⟩ | rfl
      · simp [same (.prev x) hx]
      · simp [same (.tailPrev l) rfl]
  ends := (same (.tail l) rfl).trans h.ends
  nodup := h.nodup

/-- From `s` to `t` the node `n` was put between the neighbours `p` and `q`,
    and no other word changed. -/
structure Spliced (s t : Store ν κ) (p : Ptr ν κ) (n : ν) (q : Ptr ν κ) : Prop where
  before : Linked t p (.node n)
  after : Linked t (.node n) q
  frame : ∀ w, w ≠ .next n → w ≠ .prev n → p.nextWord ≠ some w → q.prevWord ≠ some w → t w = s w

/-- A splice given by the words it writes. -/
theorem Spliced.of_words {s t : Store ν κ} {p q : Ptr ν κ} {n : ν} {w v : Word ν κ}
    (hp : p.nextWord = some w) (hq : q.prevWord = some v)
    (toNode : t w = .node n) (fromNode : t v = .node n) (next : t (.next n) = q)
    (prev : t (.prev n) = p)
    (frame : ∀ u, u ≠ .next n → u ≠ .prev n → u ≠ w → u ≠ v → t u = s u) : Spliced s t p n q where
  before := ⟨by simp [readNext, hp, toNode], by simp [prev]⟩
  after := ⟨by simp [next], by simp [readPrev, hq, fromNode]⟩
  frame u h1 h2 h3 h4 := frame u h1 h2 (by rintro rfl; exact h3 hp) (by rintro rfl; exact h4 hq)

/-- From `s` to `t` the neighbours `p` and `q` were joined, and no other word changed. -/
structure Bypassed (s t : Store ν κ) (p q : Ptr ν κ) : Prop where
  joined : Linked t p q
  frame : ∀ w, p.nextWord ≠ some w → q.prevWord ≠ some w → t w = s w

section Cuts

variable {s t : Store ν κ} {l : κ} {xs ys : List ν}

/-- The words of the front part of a list. -/
private def FrontOwns (l : κ) (xs : List ν) : Word ν κ → Prop
  | .next n | .prev n => n ∈ xs
  | .head k => k = l
  | .tail _ | .tailPrev _ => False

/-- The words of the back part of a list. -/
private def BackOwns (l : κ) (ys : List ν) : Word ν κ → Prop
  | .next n | .prev n => n ∈ ys
  | .tailPrev k => k = l
  | .tail _ | .head _ => False

/-- The front part reads every word of its own but the last next word. -/
private theorem front_congr (front : Front s l xs) (nodup : xs.Nodup)
    (same : ∀ w, FrontOwns l xs w → (lastPtr l xs).nextWord ≠ some w → t w = s w) :
    Front t l xs := by
  refine chain_congr ?_ ?_ front
  · intro p hp
    rcases List.eq_nil_or_concat' xs with rfl | ⟨zs, z, rfl⟩
    · simp at hp
    · have place : p = .head l ∨ ∃ x ∈ zs, p = .node x := by
        rw [List.map_append, ← List.cons_append, List.map_singleton, List.dropLast_concat] at hp
        simpa [eq_comm] using hp
      rcases place with rfl | ⟨x, hx, rfl⟩
      · simp [same (.head l) rfl (by simp [Ptr.nextWord])]
      · have differs : z ≠ x := by
          rintro rfl
          exact (List.nodup_append.mp nodup).2.2 _ hx _ (by simp) rfl
        simp [same (.next x) (by simp [FrontOwns, hx]) (by simpa [Ptr.nextWord] using differs)]
  · intro p hp
    obtain ⟨x, hx, rfl⟩ : ∃ x ∈ xs, Ptr.node x = p := by simpa using hp
    have noPrev : (lastPtr l xs).nextWord ≠ some (.prev x) := by
      rcases lastPtr_cases l xs with ⟨h, -⟩ | ⟨z, -, h⟩ <;> simp [h, Ptr.nextWord]
    simp [same (.prev x) hx noPrev]

/-- The back part reads every word of its own but the first previous word. -/
private theorem back_congr (back : Back s l ys) (nodup : ys.Nodup)
    (same : ∀ w, BackOwns l ys w → (firstPtr l ys).prevWord ≠ some w → t w = s w) :
    Back t l ys := by
  refine chain_congr ?_ ?_ back
  · intro p hp
    obtain ⟨y, hy, rfl⟩ : ∃ y ∈ ys, Ptr.node y = p := by simpa using hp
    have noNext : (firstPtr l ys).prevWord ≠ some (.next y) := by
      rcases firstPtr_cases l ys with ⟨h, -⟩ | ⟨z, -, h⟩ <;> simp [h, Ptr.prevWord]
    simp [same (.next y) hy noNext]
  · intro p hp
    cases ys with
    | nil => simp at hp
    | cons z zs =>
        have place : (∃ y ∈ zs, p = .node y) ∨ p = .tail l := by simpa [eq_comm] using hp
        rcases place with ⟨y, hy, rfl⟩ | rfl
        · have differs : z ≠ y := by
            rintro rfl
            simp [hy] at nodup
          simp [same (.prev y) (by simp [BackOwns, hy]) (by simpa [Ptr.prevWord] using differs)]
        · simp [same (.tailPrev l) rfl (by simp [Ptr.prevWord])]

/-- The front part does not contain the previous word after its end. -/
private theorem front_apart (apart : xs.Disjoint ys) {w : Word ν κ} (own : FrontOwns l xs w) :
    (firstPtr l ys).prevWord ≠ some w := by
  rcases firstPtr_cases l ys with ⟨h, -⟩ | ⟨y, hy, h⟩ <;> rw [h] <;> rintro ⟨⟩
  · exact own
  · exact apart own hy

/-- The back part does not contain the next word before its start. -/
private theorem back_apart (apart : xs.Disjoint ys) {w : Word ν κ} (own : BackOwns l ys w) :
    (lastPtr l xs).nextWord ≠ some w := by
  rcases lastPtr_cases l xs with ⟨h, -⟩ | ⟨x, hx, h⟩ <;> rw [h] <;> rintro ⟨⟩
  · exact own
  · exact apart hx own

private theorem seam_not_tail (l : κ) (xs ys : List ν) :
    (lastPtr l xs).nextWord ≠ some (.tail l) ∧ (firstPtr l ys).prevWord ≠ some (.tail l) := by
  constructor
  · rcases lastPtr_cases l xs with ⟨h, -⟩ | ⟨x, -, h⟩ <;> simp [h, Ptr.nextWord]
  · rcases firstPtr_cases l ys with ⟨h, -⟩ | ⟨y, -, h⟩ <;> simp [h, Ptr.prevWord]

/-- Splicing a new node into a list inserts it in the sequence. -/
theorem IsList.insert {n : ν} (h : IsList s l (xs ++ ys)) (fresh : n ∉ xs ++ ys)
    (edit : Spliced s t (lastPtr l xs) n (firstPtr l ys)) : IsList t l (xs ++ n :: ys) := by
  obtain ⟨front, -, back⟩ := chain_cut.mp h.chain
  obtain ⟨distinct, distinct', apart⟩ := List.nodup_append'.mp h.nodup
  have front' : Front t l xs := by
    refine front_congr front distinct fun w own hp => ?_
    refine edit.frame w ?_ ?_ hp (front_apart apart own) <;> rintro rfl <;>
      exact fresh (List.mem_append_left _ own)
  have back' : Back t l ys := by
    refine back_congr back distinct' fun w own hq => ?_
    refine edit.frame w ?_ ?_ (back_apart apart own) hq <;> rintro rfl <;>
      exact fresh (List.mem_append_right _ own)
  refine ⟨chain_cut.mpr ⟨front', edit.before, ?_⟩, ?_, ?_⟩
  · refine List.isChain_cons.mpr ⟨fun y hy => ?_, back'⟩
    have first : y = firstPtr l ys := by
      simpa [eq_comm] using (back_first l ys).symm.trans hy
    exact first ▸ edit.after
  · rw [edit.frame _ (by simp) (by simp) (seam_not_tail l xs ys).1 (seam_not_tail l xs ys).2,
        h.ends]
  · exact List.nodup_middle.mpr (List.nodup_cons.mpr ⟨fresh, h.nodup⟩)

/-- Joining the neighbours of a node deletes it from the sequence. -/
theorem IsList.delete {n : ν} (h : IsList s l (xs ++ n :: ys))
    (edit : Bypassed s t (lastPtr l xs) (firstPtr l ys)) : IsList t l (xs ++ ys) := by
  obtain ⟨-, distinct⟩ := List.nodup_cons.mp (List.nodup_middle.mp h.nodup)
  obtain ⟨distinctX, distinctY, apart⟩ := List.nodup_append'.mp distinct
  -- the old list is cut on both sides of the deleted node
  obtain ⟨front, -, -⟩ := chain_cut.mp h.chain
  have cut : (Ptr.head l :: (((xs ++ [n]) ++ ys).map Ptr.node ++ [Ptr.tail l])).IsChain
      (Linked s) := by
    simpa using h.chain
  obtain ⟨-, -, back⟩ := chain_cut.mp cut
  have front' : Front t l xs := front_congr front distinctX fun w own hp =>
    edit.frame w hp (front_apart apart own)
  have back' : Back t l ys := back_congr back distinctY fun w own hq =>
    edit.frame w (back_apart apart own) hq
  refine ⟨chain_cut.mpr ⟨front', edit.joined, back'⟩, ?_, distinct⟩
  rw [edit.frame _ (seam_not_tail l xs ys).1 (seam_not_tail l xs ys).2, h.ends]

end Cuts

/-- A family of headers, of which those in `live` are in use, represents the
    family `f` of sequences: no node is in two lists or twice in one. -/
structure Lists (s : Store ν κ) (live : κ → Prop) (f : κ → List ν) : Prop where
  each : ∀ l, live l → IsList s l (f l)
  unused : ∀ l, ¬ live l → f l = []
  apart : ∀ l k, l ≠ k → (f l).Disjoint (f k)

namespace Lists

variable {s t : Store ν κ} {live : κ → Prop} {f : κ → List ν}

/-- A list that holds a node is in use. -/
theorem live_of_mem (h : Lists s live f) {l : κ} {n : ν} (mem : n ∈ f l) : live l := by
  by_contra dead
  simp [h.unused l dead] at mem

/-- A node has at most one list. -/
theorem unique (h : Lists s live f) {l k : κ} {n : ν} (hl : n ∈ f l) (hk : n ∈ f k) : l = k := by
  by_contra ne
  exact h.apart l k ne hl hk

variable [DecidableEq κ]

/-- A list by itself is a family of lists. -/
theorem of_list {l : κ} {xs : List ν} (h : IsList s l xs) :
    Lists s (· = l) (Function.update (fun _ => []) l xs) where
  each k same := by
    cases same
    rw [Function.update_self]
    exact h
  unused k other := Function.update_of_ne other ..
  apart i k other := by
    by_cases first : i = l
    · have second : k ≠ l := fun same => other (first.trans same.symm)
      rw [Function.update_of_ne second]
      exact List.disjoint_nil_right _
    · rw [Function.update_of_ne first]
      exact List.disjoint_nil_left _

/-- A node that is cut out of its list is in no list. -/
theorem fresh_of_cut {l : κ} {n : ν} {xs ys : List ν} (h : Lists s live f)
    (cut : f l = xs ++ n :: ys) :
    ∀ k, n ∉ Function.update f l (xs ++ ys) k := by
  have mem : n ∈ f l := by simp [cut]
  intro k there
  by_cases same : k = l
  · subst same
    rw [Function.update_self] at there
    have distinct := (h.each k (h.live_of_mem mem)).nodup
    rw [cut] at distinct
    exact (List.nodup_cons.mp (List.nodup_middle.mp distinct)).1 there
  · rw [Function.update_of_ne same] at there
    exact same (h.unique there mem)

/-- Cutting a node out of its list is deleting it from all lists. -/
theorem erase_cut [DecidableEq ν] {l : κ} {n : ν} {xs ys : List ν} (h : Lists s live f)
    (cut : f l = xs ++ n :: ys) : (fun k => (f k).erase n) = Function.update f l (xs ++ ys) := by
  have mem : n ∈ f l := by simp [cut]
  have nodup := (h.each l (h.live_of_mem mem)).nodup
  rw [cut] at nodup
  have front : n ∉ xs := fun here => (List.disjoint_of_nodup_append nodup) here List.mem_cons_self
  funext k
  by_cases this : k = l
  · subst this
    simp [cut, List.erase_append_right _ front]
  · rw [Function.update_of_ne this]
    exact List.erase_of_not_mem fun here => this (h.unique here mem)

/-- Splicing an unlinked node into one list leaves the others alone. -/
theorem insert {l : κ} {n : ν} (xs ys : List ν) (h : Lists s live f) (used : live l)
    (split : f l = xs ++ ys) (fresh : ∀ k, n ∉ f k)
    (edit : Spliced s t (lastPtr l xs) n (firstPtr l ys)) :
    Lists t live (Function.update f l (xs ++ n :: ys)) where
  each k hk := by
    by_cases e : k = l
    · subst e
      rw [Function.update_self]
      exact (split ▸ h.each k hk).insert (split ▸ fresh k) edit
    · rw [Function.update_of_ne e]
      refine (h.each k hk).frame fun w own => ?_
      have ne : ∀ x ∈ xs ++ ys, x ∉ f k := fun x hx hk' => h.apart l k (Ne.symm e) (split ▸ hx) hk'
      refine edit.frame w ?_ ?_ ?_ ?_
      · rintro rfl; exact fresh k own
      · rintro rfl; exact fresh k own
      · rcases lastPtr_cases l xs with ⟨hp, -⟩ | ⟨x, hx, hp⟩ <;> rw [hp] <;> rintro ⟨⟩
        · exact e own.symm
        · exact ne x (List.mem_append_left _ hx) own
      · rcases firstPtr_cases l ys with ⟨hq, -⟩ | ⟨y, hy, hq⟩ <;> rw [hq] <;> rintro ⟨⟩
        · exact e own.symm
        · exact ne y (List.mem_append_right _ hy) own
  unused k dead := by
    by_cases e : k = l
    · exact absurd (e ▸ used) dead
    · rw [Function.update_of_ne e, h.unused k dead]
  apart k j ne := by
    have grows : ∀ k x, x ∈ Function.update f l (xs ++ n :: ys) k → x ∈ f k ∨ k = l ∧ x = n := by
      intro k x hx
      by_cases e : k = l
      · subst e
        rw [Function.update_self] at hx
        have : x ∈ xs ++ ys ∨ x = n := by simp at hx ⊢; tauto
        exact this.imp (split ▸ ·) (⟨rfl, ·⟩)
      · exact .inl (by rwa [Function.update_of_ne e] at hx)
    intro x hk hj
    rcases grows k x hk with old | ⟨rfl, rfl⟩ <;> rcases grows j x hj with old' | ⟨rfl, new⟩
    · exact h.apart k j ne old old'
    · exact fresh k (new ▸ old)
    · exact fresh j old'
    · exact ne rfl

/-- Unlinking a node from its list leaves the others alone. -/
theorem delete {l : κ} {n : ν} (xs ys : List ν) (h : Lists s live f)
    (split : f l = xs ++ n :: ys) (edit : Bypassed s t (lastPtr l xs) (firstPtr l ys)) :
    Lists t live (Function.update f l (xs ++ ys)) where
  each k hk := by
    by_cases e : k = l
    · subst e
      rw [Function.update_self]
      exact (split ▸ h.each k hk).delete edit
    · rw [Function.update_of_ne e]
      refine (h.each k hk).frame fun w own => ?_
      have ne : ∀ x ∈ xs ++ ys, x ∉ f k := fun x hx hk' =>
        h.apart l k (Ne.symm e) (by rw [split]; simp at hx ⊢; tauto) hk'
      refine edit.frame w ?_ ?_
      · rcases lastPtr_cases l xs with ⟨hp, -⟩ | ⟨x, hx, hp⟩ <;> rw [hp] <;> rintro ⟨⟩
        · exact e own.symm
        · exact ne x (List.mem_append_left _ hx) own
      · rcases firstPtr_cases l ys with ⟨hq, -⟩ | ⟨y, hy, hq⟩ <;> rw [hq] <;> rintro ⟨⟩
        · exact e own.symm
        · exact ne y (List.mem_append_right _ hy) own
  unused k dead := by
    by_cases e : k = l
    · exact absurd (e ▸ h.live_of_mem (l := l) (n := n) (by simp [split])) dead
    · rw [Function.update_of_ne e, h.unused k dead]
  apart k j ne := by
    have shrinks : ∀ k x, x ∈ Function.update f l (xs ++ ys) k → x ∈ f k := by
      intro k x hx
      by_cases e : k = l
      · subst e
        rw [Function.update_self] at hx
        rw [split]
        simp at hx ⊢
        tauto
      · rwa [Function.update_of_ne e] at hx
    exact fun x hk hj => h.apart k j ne (shrinks k x hk) (shrinks j x hj)

/-- A header that is emptied while out of use joins the family. -/
theorem opened (h : Lists s live f) {l : κ} (dead : ¬ live l)
    (head : t (.head l) = .tail l) (tail : t (.tail l) = .null)
    (tailPrev : t (.tailPrev l) = .head l)
    (frame : ∀ w, w ≠ .head l → w ≠ .tail l → w ≠ .tailPrev l → t w = s w) :
    Lists t (fun k => live k ∨ k = l) f where
  each k hk := by
    by_cases e : k = l
    · subst e
      rw [h.unused k dead]
      exact ⟨by simp [Linked, head, tailPrev], tail, List.nodup_nil⟩
    · refine (h.each k (hk.resolve_right e)).frame fun w own => frame w ?_ ?_ ?_ <;> rintro rfl <;>
        exact e own.symm
  unused k hk := h.unused k fun hl => hk (.inl hl)
  apart := h.apart

/-- An empty header leaves the family, whatever becomes of its words. -/
theorem closed (h : Lists s live f) {l : κ} (empty : f l = [])
    (frame : ∀ w, w ≠ .head l → w ≠ .tail l → w ≠ .tailPrev l → t w = s w) :
    Lists t (fun k => live k ∧ k ≠ l) f where
  each k hk := by
    refine (h.each k hk.1).frame fun w own => frame w ?_ ?_ ?_ <;> rintro rfl <;>
      exact hk.2 own.symm
  unused k hk := by
    by_cases e : k = l
    · rw [e, empty]
    · exact h.unused k fun hl => hk ⟨hl, e⟩
  apart := h.apart

end Lists

end LinkStore
