import Krypton.Kernel.Handlers

/-! # Registered devices

`register_device_node` puts a device at the head of `device_list`, also one that
is linked there already. Then its next pointer closes a ring, and what was
behind it is not seen any more.
-/

namespace Krypton

open LinkStore

/-- The frames return `v` with their last statement, and leave the state `k'`. -/
def Gives (c : Kernel × List Frame) (k' : Kernel) (v : Value) : Prop :=
  ∃ n k g, advances n c = some (k, [g]) ∧ exec 0 k g = some (k', .ret v)

section Gives

variable {c : Kernel × List Frame} {k k' k₁ : Kernel} {f g : Frame} {fs : List Frame} {v w : Value}
    {n : Nat}

/-- After the last statement there are no frames. -/
theorem advances_returned (ret : exec 0 k g = some (k₁, .ret w))
    (run : advances (n + 1) (k, [g]) = some (k', fs)) :
    fs = [] := by
  have returned : advance k g [] = some (k₁, []) := by
    simp only [advance, ret, Option.bind_eq_bind, Option.bind_some]
    rfl
  rw [advances, returned, Option.bind_some] at run
  cases n with
  | zero =>
      cases run
      rfl
  | succ n => cases run

theorem Leads.gives_iff (leads : Leads c (k, f :: fs)) : Gives c k' v ↔
    Gives (k, f :: fs) k' v := by
  obtain ⟨m, -, leads⟩ := leads
  constructor
  · rintro ⟨n, k₁, g, run, ret⟩
    cases Nat.lt_or_ge n m with
    | inl less =>
        obtain ⟨j, rfl⟩ : ∃ j, m = n + (j + 1) := ⟨m - n - 1, by omega⟩
        rw [advances_add, run, Option.bind_some] at leads
        cases advances_returned ret leads
    | inr most =>
        obtain ⟨j, rfl⟩ : ∃ j, n = m + j := ⟨n - m, by omega⟩
        rw [advances_add, leads, Option.bind_some] at run
        exact ⟨j, k₁, g, run, ret⟩
  · rintro ⟨n, k₁, g, run, ret⟩
    refine ⟨m + n, k₁, g, ?_, ret⟩
    rw [advances_add, leads, Option.bind_some, run]

theorem gives_ret (ret : exec 0 k g = some (k₁, .ret w)) : Gives (k, [g]) k' v ↔
    k' = k₁ ∧ v = w := by
  constructor
  · rintro ⟨n, k₂, h, run, ret'⟩
    cases n with
    | zero =>
        cases run
        rw [ret] at ret'
        cases ret'
        exact ⟨rfl, rfl⟩
    | succ n => cases advances_returned ret run
  · rintro ⟨rfl, rfl⟩
    exact ⟨0, k, g, rfl, ret⟩

end Gives

namespace Registry

/-- The devices were registered one after the other. -/
inductive Registered : Kernel → List Ptr32 → Kernel → Prop where
  | none (k : Kernel) : Registered k [] k
  | register {k k₁ k' : Kernel} {dev : Ptr32} {devs : List Ptr32} (before : Registered k devs k₁)
      (call : Gives (k₁, [.registerDevice .forbid dev]) k' .none) : Registered k (devs ++ [dev]) k'

/-- `get_device(name)` returns the device that was registered last under the name, of those
    that were, the last one first; and leaves the list as it is. -/
def LooksUp (k : Kernel) (devs : List Ptr32) (name : List (BitVec 8)) : Prop :=
  ∃ k', Gives (k, [.getDevice .forbid name .null]) k'
      (.ptr (devs.find? fun dev => k.dev_name dev = name)) ∧
    k'.devices = k.devices

/-- `strcmp` takes the device for the one that is looked for. -/
def Taken (k : Kernel) (name : List (BitVec 8)) (dev : Ptr32) : Prop :=
  Common.strcmp name (k.dev_name dev) = 0

instance (k : Kernel) (name : List (BitVec 8)) (dev : Ptr32) : Decidable (Taken k name dev) :=
  inferInstanceAs (Decidable (_ = _))

/-- The devices that can be reached from the head, of those registered, the last one first. -/
def visible : List Ptr32 → List Ptr32
  | [] => []
  | dev :: devs => dev :: (visible devs).takeWhile (· ≠ dev)

/-- The first device that is taken has the name; or none is, and none was registered twice. -/
def Told (k : Kernel) (devs : List Ptr32) (name : List (BitVec 8)) : Prop :=
  match (visible devs).find? (Taken k name ·) with
  | some dev => k.dev_name dev = name
  | none => devs.Nodup

instance (k : Kernel) (devs : List Ptr32) (name : List (BitVec 8)) : Decidable (Told k devs name) :=
  match h : (visible devs).find? (Taken k name ·) with
  | some dev => decidable_of_iff (k.dev_name dev = name) (by simp [Told, h])
  | none => decidable_of_iff devs.Nodup (by simp [Told, h])

variable {devs : List Ptr32} {d x : Ptr32} {s : Store Ptr32 Unit}

theorem visible_front (devs : List Ptr32) : visible devs <+: devs := by
  induction devs with
  | nil => exact List.prefix_rfl
  | cons dev devs ih =>
      refine List.cons_prefix_cons.mpr ⟨rfl, ?_⟩
      exact (List.takeWhile_prefix _).trans ih

theorem visible_nodup (devs : List Ptr32) : (visible devs).Nodup := by
  induction devs with
  | nil => exact List.nodup_nil
  | cons dev devs ih =>
      refine List.nodup_cons.mpr ⟨fun mem => ?_, ih.sublist (List.takeWhile_sublist _)⟩
      simpa using List.mem_takeWhile_imp mem

theorem visible_all (distinct : devs.Nodup) : visible devs = devs := by
  induction devs with
  | nil => rfl
  | cons dev devs ih =>
      obtain ⟨fresh, distinct⟩ := List.nodup_cons.mp distinct
      rw [visible, ih distinct]
      congr 1
      refine List.takeWhile_eq_self_iff.mpr fun x mem => ?_
      have other : x ≠ dev := fun same => fresh (same ▸ mem)
      simpa using other

theorem visible_nil : visible devs = [] ↔ devs = [] := by
  cases devs <;> simp [visible]

/-- The list after the devices were registered: the last one that can be reached is followed by
    the sentinel, or by one that was passed before. -/
structure Chain (s : Store Ptr32 Unit) (devs : List Ptr32) : Prop where
  head : s (.head ()) = firstPtr () (visible devs)
  tail : s (.tail ()) = .null
  links : (visible devs).IsChain fun x y => s (.next x) = .node y
  last : ∀ x ∈ (visible devs).getLast?,
    if devs.Nodup then s (.next x) = .tail () else ∃ y ∈ visible devs, s (.next x) = .node y

theorem add_head_words (devs : List Ptr32) (head : s (.head ()) = firstPtr () devs) (d : Ptr32) :
    ∃ t, add_head s () d = some t ∧ t (.head ()) = .node d ∧ t (.tail ()) = s (.tail ()) ∧
      t (.next d) = firstPtr () devs ∧ ∀ x ≠ d, t (.next x) = s (.next x) := by
  obtain ⟨w, prev, -, next, ends⟩ := first_word () devs
  refine ⟨set (set (set (set s (.next d) (firstPtr () devs)) (.prev d) (.head ())) w (.node d))
      (.head ()) (.node d),
    ?_, ?_, ?_, ?_, fun x other => ?_⟩
  · simp [add_head, head, writePrev, prev]
  · simp
  · simp [(ends ()).1.symm]
  · simp [(next d).symm]
  · simp [(next x).symm, other]

theorem chain_empty (list : IsList s () []) : Chain s [] :=
  ⟨head_eq list, list.ends, .nil, nofun⟩

theorem visible_new (fresh : d ∉ visible devs) : visible (d :: devs) = d :: visible devs := by
  rw [visible]
  congr 1
  refine List.takeWhile_eq_self_iff.mpr fun x mem => ?_
  have other : x ≠ d := fun same => fresh (same ▸ mem)
  simpa using other

theorem visible_again {xs ys : List Ptr32} (cut : visible devs = xs ++ d :: ys) :
    visible (d :: devs) = d :: xs ∧ d ∉ xs := by
  have distinct := visible_nodup devs
  rw [cut, List.nodup_middle, List.nodup_cons] at distinct
  have fresh : d ∉ xs := fun mem => distinct.1 (List.mem_append_left ys mem)
  refine ⟨?_, fresh⟩
  have all : ∀ x ∈ xs, decide (x ≠ d) = true := by
    intro x mem
    have other : x ≠ d := fun same => fresh (same ▸ mem)
    simpa using other
  rw [visible, cut, List.takeWhile_append_of_pos all, List.takeWhile_cons_of_neg (by simp),
      List.append_nil]

/-- One more device is followed by the one that was the first. -/
theorem Chain.register (h : Chain s devs) (d : Ptr32) : ∃ t, add_head s () d = some t ∧
    Chain t (d :: devs) := by
  obtain ⟨t, run, head, tail, first, others⟩ := add_head_words (visible devs) h.head d
  have kept {xs : List Ptr32} (fresh : d ∉ xs)
      (chain : xs.IsChain fun x y => s (.next x) = .node y) :
      xs.IsChain fun x y => t (.next x) = .node y := by
    refine chain.imp_of_mem_imp fun x y mem _ next => ?_
    have other : x ≠ d := fun same => fresh (same ▸ mem)
    exact (others x other).trans next
  by_cases mem : d ∈ visible devs
  · obtain ⟨xs, ys, cut⟩ := List.append_of_mem mem
    obtain ⟨vis, fresh⟩ := visible_again cut
    have again : ¬ (d :: devs).Nodup := fun distinct =>
      (List.nodup_cons.mp distinct).1 ((visible_front devs).subset mem)
    have links := h.links
    rw [cut] at first links
    refine ⟨t, run, ?_, tail.trans h.tail, ?_, fun x last => ?_⟩
    · rw [head, vis]
      rfl
    · rw [vis]
      refine .cons (kept fresh links.left_of_append) fun y next => ?_
      cases xs with
      | nil => cases next
      | cons z zs =>
          cases next
          exact first
    · rw [if_neg again, vis]
      rw [vis] at last
      refine ⟨d, List.mem_cons_self, ?_⟩
      rcases List.eq_nil_or_concat' xs with rfl | ⟨zs, z, rfl⟩
      · cases last
        exact first
      · have same : x = z := by simpa [eq_comm, List.getLast?_cons] using last
        subst same
        have other : x ≠ d := fun same => fresh (by simp [same])
        rw [others x other]
        exact (List.isChain_append.mp links).2.2 x (by simp) d rfl
  · have vis := visible_new mem
    refine ⟨t, run, ?_, tail.trans h.tail, ?_, fun x last => ?_⟩
    · rw [head, vis]
      rfl
    · rw [vis]
      refine .cons (kept mem h.links) fun y next => ?_
      cases list : visible devs with
      | nil => simp [list] at next
      | cons z zs =>
          rw [list] at next first
          cases next
          exact first
    · rw [vis] at last ⊢
      cases list : visible devs with
      | nil =>
          rw [list] at last first
          cases last
          rw [visible_nil.mp list, if_pos (List.nodup_singleton d)]
          exact first
      | cons z zs =>
          have old : x ∈ (visible devs).getLast? := by
            rw [list] at last ⊢
            simpa using last
          have other : x ≠ d := fun same => mem (same ▸ List.mem_of_getLast? old)
          have ends := h.last x old
          rw [others x other]
          by_cases distinct : devs.Nodup
          · have fresh : d ∉ devs := visible_all distinct ▸ mem
            rw [if_pos distinct] at ends
            rw [if_pos (List.nodup_cons.mpr ⟨fresh, distinct⟩)]
            exact ends
          · rw [if_neg distinct] at ends
            rw [if_neg fun all => distinct (List.nodup_cons.mp all).2]
            obtain ⟨y, seen, next⟩ := ends
            exact ⟨y, List.mem_cons_of_mem d (list ▸ seen), next⟩

/-! ## The search -/

section Search

variable {k k' : Kernel} {name : List (BitVec 8)} {xs ys : List Ptr32} {v : Value}

/-- A device that can be reached is followed by another one, or is the first that was registered. -/
theorem Chain.next (h : Chain s devs) (cut : visible devs = xs ++ x :: ys) :
    s (.next x) = firstPtr () ys ∧ (ys = [] → devs.Nodup) ∨
      (ys = [] ∧ ¬ devs.Nodup) ∧ ∃ y ∈ visible devs, s (.next x) = .node y := by
  cases ys with
  | nil =>
      have ends := h.last x (by simp [cut])
      by_cases distinct : devs.Nodup
      · rw [if_pos distinct] at ends
        exact .inl ⟨ends, fun _ => distinct⟩
      · rw [if_neg distinct] at ends
        exact .inr ⟨⟨rfl, distinct⟩, ends⟩
  | cons y ys =>
      have links := h.links
      rw [cut] at links
      exact .inl ⟨(List.isChain_append_cons_cons.mp links).2.1, nofun⟩

theorem Chain.live (h : Chain s devs) (mem : x ∈ visible devs) : s (.next x) ≠ .null := by
  obtain ⟨xs, ys, cut⟩ := List.append_of_mem mem
  rcases h.next cut with ⟨next, -⟩ | ⟨-, y, -, next⟩
  · rw [next]
    cases ys <;> simp
  · rw [next]
    nofun

theorem Chain.get_next (h : Chain s devs) {y : Ptr32} (seen : y ∈ visible devs)
    (next : s (.next x) = .node y) : get_next s (.node x) = some (.node y) := by
  simp [Krypton.get_next, next, h.live seen]

theorem Chain.get_next_last (h : Chain s devs) (next : s (.next x) = .tail ()) :
    Krypton.get_next s (.node x) = some .null := by
  simp [Krypton.get_next, next, h.tail]

theorem Chain.get_head (h : Chain s devs) : get_head s () = some (orNull (visible devs).head?) := by
  cases list : visible devs with
  | nil => simp [Krypton.get_head, h.head, list, h.tail]
  | cons x xs =>
      have live := h.live (x := x) (by simp [list])
      simp [Krypton.get_head, h.head, list, live]

theorem each_taken (taken : Taken k name d) : Leads (k, [.getDevice .each name (.node d)])
    (k, [.getDevice .permit name (.node d)]) := by
  refine .step ?_
  have test : Common.strcmp name (k.dev_name d) = 0 := taken
  simp only [advance, exec, execGetDevice, if_pos test]
  rfl

theorem each_next {p : Ptr Ptr32 Unit} (other : ¬ Taken k name d)
    (next : Krypton.get_next k.devices (.node d) = some p) :
    advance k (.getDevice .each name (.node d)) [] = some (k, [.getDevice .each name p]) := by
  have test : ¬ Common.strcmp name (k.dev_name d) = 0 := other
  simp only [advance, exec, execGetDevice, if_neg test, next]
  rfl

/-- The walk from a device that can be reached. -/
theorem walk (h : Chain k.devices devs) (cut : visible devs = xs ++ x :: ys) :
    (∀ d ∈ (x :: ys).find? (Taken k name ·), Leads (k, [.getDevice .each name (.node x)])
      (k, [.getDevice .permit name (.node d)])) ∧
    ((x :: ys).find? (Taken k name ·) = none → devs.Nodup →
        Leads (k, [.getDevice .each name (.node x)])
      (k, [.getDevice .permit name .null])) := by
  have mem : x ∈ visible devs := by simp [cut]
  by_cases taken : Taken k name x
  · rw [List.find?_cons_of_pos (by simpa using taken)]
    refine ⟨fun d same => ?_, nofun⟩
    cases same
    exact each_taken taken
  · rw [List.find?_cons_of_neg (by simpa using taken)]
    induction ys generalizing xs x with
    | nil =>
        refine ⟨nofun, fun _ distinct => ?_⟩
        rcases h.next cut with ⟨next, -⟩ | ⟨⟨-, twice⟩, -⟩
        · have first := Leads.step (each_next taken (h.get_next_last next))
          exact first.trans (.step rfl)
        · exact absurd distinct twice
    | cons y ys ih =>
        have cut' : visible devs = (xs ++ [x]) ++ y :: ys := by simp [cut]
        have seen : y ∈ visible devs := by simp [cut]
        rcases h.next cut with ⟨next, -⟩ | ⟨⟨none, -⟩, -⟩
        · have first := Leads.step (each_next taken (h.get_next seen next))
          by_cases taken' : Taken k name y
          · rw [List.find?_cons_of_pos (by simpa using taken')]
            refine ⟨fun d same => ?_, nofun⟩
            cases same
            exact first.trans (each_taken taken')
          · rw [List.find?_cons_of_neg (by simpa using taken')]
            obtain ⟨found, missed⟩ := ih cut' seen taken'
            exact ⟨fun d here => first.trans (found d here),
                fun none distinct => first.trans (missed none distinct)⟩
        · cases none

/-- In a ring of devices none of which is taken the search goes on for ever. -/
theorem walk_ring (h : Chain k.devices devs) (twice : ¬ devs.Nodup)
    (none : ∀ x ∈ visible devs, ¬ Taken k name x)
    (mem : x ∈ visible devs) (n : Nat) : ∃ y ∈ visible devs,
    advances n (k, [.getDevice .each name (.node x)]) =
      some (k, [.getDevice .each name (.node y)]) := by
  induction n generalizing x with
  | zero => exact ⟨x, mem, rfl⟩
  | succ n ih =>
      obtain ⟨xs, ys, cut⟩ := List.append_of_mem mem
      obtain ⟨y, seen, next⟩ : ∃ y ∈ visible devs, k.devices (.next x) = .node y := by
        rcases h.next cut with ⟨next, all⟩ | ⟨-, next⟩
        · cases ys with
          | nil => exact absurd (all rfl) twice
          | cons y ys => exact ⟨y, by simp [cut], next⟩
        · exact next
      obtain ⟨z, seen', rest⟩ := ih seen
      refine ⟨z, seen', ?_⟩
      rw [advances, each_next (none x mem) (h.get_next seen next), Option.bind_some, rest]

theorem permit_gives {p : Ptr Ptr32 Unit} : Gives (k, [.getDevice .permit name p]) k' v ↔
    k' = k.permit ∧ v = .ptr (match p with | .node d => some d | _ => none) := by
  have permit : Leads (k, [.getDevice .permit name p]) (k.permit, [.getDevice .ret name p]) :=
    .permit (fun pc => .getDevice pc name p) .lower .ret rfl rfl
  exact permit.gives_iff.trans (gives_ret rfl)

/-- What `get_device` returns, if it returns. -/
theorem search_iff (h : Chain k.devices devs) {found : Option Ptr32} :
    Gives (k, [.getDevice .forbid name .null]) k' (.ptr found) ↔
      k' = k.forbid.permit ∧ (visible devs).find? (Taken k name ·) = found ∧
          (found = none → devs.Nodup) := by
  have chain : Chain k.forbid.devices devs := h
  have first : Leads (k, [.getDevice .forbid name .null])
      (k.forbid, [.getDevice .first name .null]) := .step rfl
  have head : Leads (k.forbid, [.getDevice .first name .null])
      (k.forbid, [.getDevice .each name (orNull (visible devs).head?)]) := by
    refine .step ?_
    simp only [advance, exec, execGetDevice, chain.get_head]
    rfl
  rw [(first.trans head).gives_iff]
  cases list : visible devs with
  | nil =>
      have last : Leads (k.forbid, [.getDevice .each name .null])
          (k.forbid, [.getDevice .permit name .null]) := .step rfl
      rw [List.head?_nil, orNull_none, last.gives_iff, permit_gives, visible_nil.mp list]
      simp [eq_comm]
  | cons x xs =>
      have cut : visible devs = [] ++ x :: xs := list
      have chain' : Chain k.forbid.devices devs := chain
      obtain ⟨hit, missed⟩ := walk (k := k.forbid) chain' cut
      rw [List.head?_cons, orNull_some]
      cases search : (x :: xs).find? (Taken k name ·) with
      | some d =>
          rw [(hit d search).gives_iff, permit_gives]
          constructor
          · rintro ⟨rfl, same⟩
            cases same
            exact ⟨rfl, rfl, nofun⟩
          · rintro ⟨rfl, rfl, -⟩
            exact ⟨rfl, rfl⟩
      | none =>
          by_cases distinct : devs.Nodup
          · rw [(missed search distinct).gives_iff, permit_gives]
            simp [distinct, eq_comm]
          · constructor
            · rintro ⟨n, k₁, g, run, ret⟩
              have none : ∀ y ∈ visible devs, ¬ Taken k.forbid name y := by
                intro y mem
                rw [list] at mem
                have other := List.find?_eq_none.mp search y mem
                rwa [decide_eq_true_eq] at other
              obtain ⟨y, -, on⟩ := walk_ring (x := x) chain distinct none (by simp [list]) n
              rw [on] at run
              cases run
              simp only [exec, execGetDevice] at ret
              split at ret
              · cases ret
              · obtain ⟨p, -, same⟩ := Option.bind_eq_some_iff.mp ret
                cases same
            · rintro ⟨-, rfl, all⟩
              exact absurd (all rfl) distinct

theorem strcmp_self (name : List (BitVec 8)) : Common.strcmp name name = 0 := by
  induction name with
  | nil => rfl
  | cons c name ih =>
      by_cases zero : c = 0#8
      · simp [Common.strcmp, Common.skip, Common.char, zero]
      · rwa [Common.strcmp_cons zero]

theorem looksUp_told (h : Chain k.devices devs) : LooksUp k devs name ↔ Told k devs name := by
  obtain ⟨rest, front⟩ := visible_front devs
  have own : ∀ d, k.dev_name d = name → Taken k name d := by
    rintro d rfl
    exact strcmp_self _
  constructor
  · rintro ⟨k', gives, -⟩
    obtain ⟨-, search, all⟩ := (search_iff h).mp gives
    unfold Told
    rw [search]
    split
    · rename_i d found
      simpa using List.find?_some found
    · rename_i none
      exact all none
  · intro told
    refine ⟨_, (search_iff h).mpr ⟨rfl, ?_⟩, rfl⟩
    unfold Told at told
    split at told
    · rename_i d found
      obtain ⟨-, xs, ys, cut, before⟩ := List.find?_eq_some_iff_append.mp found
      have first : devs.find? (fun dev => k.dev_name dev = name) = some d := by
        refine List.find?_eq_some_iff_append.mpr ⟨decide_eq_true told, xs, ys ++ rest, ?_,
            fun x mem => ?_⟩
        · rw [← front, cut, List.append_assoc, List.cons_append]
        · have other : ¬ Taken k name x := by simpa using before x mem
          simpa using fun same => other (own x same)
      rw [first]
      exact ⟨found, nofun⟩
    · rename_i missed
      rw [visible_all told] at missed ⊢
      have none : devs.find? (fun dev => k.dev_name dev = name) = none := by
        refine List.find?_eq_none.mpr fun x mem => ?_
        have other : ¬ Taken k name x := by simpa using List.find?_eq_none.mp missed x mem
        simpa using fun same => other (own x same)
      rw [none]
      exact ⟨missed, fun _ => told⟩

end Search

section Run

variable {k k' : Kernel} {ds : List Ptr32} {name : List (BitVec 8)}

/-- Every call returns, with one more device in the list. -/
theorem register_gives (h : Chain k.devices devs) (d : Ptr32) : ∃ k',
    (∀ k₁, Gives (k, [.registerDevice .forbid d]) k₁ .none ↔ k₁ = k') ∧
        Chain k'.devices (d :: devs) ∧
      k'.dev_name = k.dev_name := by
  obtain ⟨t, link, chain⟩ := h.register d
  have first : Leads (k, [.registerDevice .forbid d]) (k.forbid, [.registerDevice .link d]) :=
    .step rfl
  have second : Leads (k.forbid, [.registerDevice .link d])
      ({ k.forbid with devices := t }, [.registerDevice .permit d]) := by
    have same : add_head k.forbid.devices () d = some t := link
    refine .step ?_
    simp only [advance, exec, execRegister, same]
    rfl
  have third : Leads ({ k.forbid with devices := t }, [.registerDevice .permit d])
      (({ k.forbid with devices := t } : Kernel).permit, [.registerDevice .ret d]) :=
    .permit (fun pc => .registerDevice pc d) .lower .ret rfl rfl
  refine ⟨({ k.forbid with devices := t } : Kernel).permit, fun k₁ => ?_, chain, rfl⟩
  rw [(first.trans (second.trans third)).gives_iff, gives_ret rfl]
  exact and_iff_left rfl

theorem registered_chain (empty : IsList k.devices () []) (reg : Registered k ds k') :
    Chain k'.devices ds.reverse ∧ k'.dev_name = k.dev_name := by
  induction reg with
  | none => exact ⟨chain_empty empty, rfl⟩
  | register before call ih =>
      obtain ⟨chain, names⟩ := ih
      obtain ⟨k₂, gives, chain', names'⟩ := register_gives chain _
      obtain rfl := (gives _).mp call
      rw [List.reverse_append, List.reverse_singleton, List.singleton_append]
      exact ⟨chain', names'.trans names⟩

/-- Any devices can be registered. -/
theorem registers (empty : IsList k.devices () []) (ds : List Ptr32) :
    ∃ k', Registered k ds k' := by
  induction ds using List.reverseRecOn with
  | nil => exact ⟨k, .none k⟩
  | append_singleton ds d ih =>
      obtain ⟨k₁, before⟩ := ih
      obtain ⟨k', gives, -⟩ := register_gives (registered_chain empty before).1 d
      exact ⟨k', .register before ((gives k').mpr rfl)⟩

theorem get_device_iff (empty : IsList k.devices () []) (reg : Registered k ds k') :
    LooksUp k' ds.reverse name ↔ Told k' ds.reverse name :=
  looksUp_told (registered_chain empty reg).1

theorem told_names (names : k'.dev_name = k.dev_name) : Told k' devs name ↔ Told k devs name := by
  have taken : ∀ d, Taken k' name d ↔ Taken k name d := by
    intro d
    rw [Taken, names]
    rfl
  simp only [Told, taken, names]

/-- Device 8 is named "ab", and every other one "ac". -/
def named : Kernel :=
  { (Machine.boot 4).k with dev_name := fun d => if d = 8 then [97#8, 98#8] else [97#8, 99#8] }

theorem named_empty : IsList named.devices () [] := by decide

theorem get_device_latest : ∃ k', Registered named [12, 8] k' ∧
    LooksUp k' [8, 12] [97#8, 98#8] := by
  obtain ⟨k', reg⟩ := registers named_empty [12, 8]
  have names := (registered_chain named_empty reg).2
  exact ⟨k', reg, (get_device_iff named_empty reg).mpr ((told_names names).mpr (by decide))⟩

/-- The device registered after it is taken for the one looked for. -/
theorem get_device_confuses : ¬ ∀ k ds k' name, IsList k.devices () [] → (∀ d, 0#8 ∉ k.dev_name d) →
    0#8 ∉ name →
    ds.Nodup → Registered k ds k' → LooksUp k' ds.reverse name := by
  intro looksUp
  obtain ⟨k', reg⟩ := registers named_empty [8, 12]
  obtain ⟨chain, names⟩ := registered_chain named_empty reg
  have proper : ∀ d, 0#8 ∉ named.dev_name d := by
    intro d
    unfold named
    simp only
    split <;> decide
  have found := looksUp named [8, 12] k' [97#8, 98#8] named_empty proper (by decide) (by decide) reg
  exact absurd ((told_names names).mp ((looksUp_told chain).mp found)) (by decide)

end Run

end Registry

end Krypton
