import Krypton.Device.Console
import Mathlib.Data.List.Nodup

/-! # The answers of the console

A request waits for its answer on a queue of its own that nobody else uses, so
there is always room for the answer. Where every request is a `DC_READ` the
console answers each before it takes the next one; it does not answer the others.
-/

namespace Krypton

namespace Console

variable {Client : Type} {s t : System Client} {r : Iorq} {a b : Client}

/-- The queue that a task has created in `do_io`. -/
def ClientPc.queue : ClientPc → Option Ptr32
  | .send req | .recv req | .destroy req => some req.io_response
  | .idle | .create _ => none

/-- The request that a task has not sent yet. -/
def ClientPc.unsent : ClientPc → Option Iorq
  | .create req | .send req => some req
  | _ => none

/-- The requests that have been sent and not been answered. -/
def outstanding (s : System Client) : List Iorq := s.console.current.toList ++ s.iorq_queue.msgs

/-- The sender of the request waits at its own empty queue. -/
def Waiting (s : System Client) (r : Iorq) : Prop :=
  s.response r.io_response = some ⟨1, []⟩ ∧ ∃ a, s.client a = .recv r

structure Inv (s : System Client) : Prop where
  answered : Answered s
  reads : ∀ r ∈ outstanding s, r.io_desc = .DC_READ
  unsent : ∀ a r, (s.client a).unsent = some r → r.io_desc = .DC_READ
  waiting : ∀ r ∈ outstanding s, Waiting s r
  distinct : ((outstanding s).map Iorq.io_response).Nodup
  sends : ∀ a r, s.client a = .send r → s.response r.io_response = some ⟨1, []⟩
  own : ∀ a b q, (s.client a).queue = some q → (s.client b).queue = some q → a = b
  created : ∀ a q, (s.client a).queue = some q → (s.response q).isSome

namespace Inv

/-- What the console writes to memory and to the screen does not matter. -/
theorem same (h : Inv s) (history : t.history = s.history)
    (current : t.console.current = s.console.current) (iorq_queue : t.iorq_queue = s.iorq_queue)
    (response : t.response = s.response) (client : t.client = s.client) : Inv t := by
  have out : outstanding t = outstanding s := by
    rw [outstanding, outstanding, current, iorq_queue]
  constructor
  · rw [Answered, history, current]
    exact h.answered
  · rw [out]
    exact h.reads
  · rw [client]
    exact h.unsent
  · rw [out]
    intro r mem
    rw [Waiting, response, client]
    exact h.waiting r mem
  · rw [out]
    exact h.distinct
  · rw [response, client]
    exact h.sends
  · rw [client]
    exact h.own
  · rw [response, client]
    exact h.created

/-- A task that holds the queue of an outstanding request waits for its answer. -/
theorem holder (h : Inv s) (mem : r ∈ outstanding s)
    (mine : (s.client a).queue = some r.io_response) :
    s.client a = .recv r := by
  obtain ⟨-, b, waits⟩ := h.waiting r mem
  rwa [h.own a b r.io_response mine (by rw [waits]; rfl)]

end Inv

/-- A character of the line leaves the console at work on the same request. -/
theorem edit_inv (h : Inv s) {i : Nat} {c : Char} (at_ : s.console.current = some r) :
    Inv (s.edit r i c) := by
  have moves (s' : System Client) (pc : ConsolePc) (current : pc.current = some r)
      (history : s'.history = s.history) (iorq_queue : s'.iorq_queue = s.iorq_queue)
      (response : s'.response = s.response) (client : s'.client = s.client) : Inv (s'.goto pc) :=
    h.same history (current.trans at_.symm) iorq_queue response client
  unfold System.edit
  split
  · exact moves _ _ rfl rfl rfl rfl rfl
  · split
    · exact moves _ _ rfl rfl rfl rfl rfl
    · split
      · exact moves _ _ rfl rfl rfl rfl rfl
      · split
        · exact moves _ _ rfl rfl rfl rfl rfl
        · exact moves _ _ rfl rfl rfl rfl rfl

/-- The console takes the next request. -/
theorem request_inv (h : Inv s) (pc : s.console = .request) {iorq_queue : Channel Iorq}
    (recv : s.iorq_queue.queue_recv = some (r, iorq_queue)) :
    Inv { s with iorq_queue, console := .command r, history := s.history ++ [.dequeue r] } := by
  obtain ⟨answered, reads, unsent, waiting, distinct, sends, own, created⟩ := h
  have out : outstanding s = r :: iorq_queue.msgs := by
    rw [outstanding, pc]
    unfold Channel.queue_recv at recv
    cases msgs : s.iorq_queue.msgs with
    | nil => simp [msgs] at recv
    | cons msg msgs =>
        simp only [msgs, Option.some.injEq, Prod.mk.injEq] at recv
        obtain ⟨rfl, rfl⟩ := recv
        rfl
  rw [out] at reads waiting distinct
  refine ⟨?_, reads, unsent, waiting, distinct, sends, own, created⟩
  obtain ⟨done, history⟩ := answered
  exact ⟨done, by simp [history, pc, ConsolePc.current]⟩

/-- The console answers the request. -/
theorem reply_inv (h : Inv s) (pc : s.console = .reply r) :
    Inv { s with
      response := Function.update s.response r.io_response (some ⟨1, [()]⟩)
      console := .request
      history := s.history ++ [.reply r.io_response] } := by
  have mine : r ∈ outstanding s := by simp [outstanding, pc, ConsolePc.current]
  have out : outstanding s = r :: s.iorq_queue.msgs := by simp [outstanding, pc, ConsolePc.current]
  have waits := (h.waiting r mine).2
  have distinct := h.distinct
  rw [out, List.map_cons, List.nodup_cons] at distinct
  have other (q : Ptr32) (apart : q ≠ r.io_response) :
      Function.update s.response r.io_response (some ⟨1, [()]⟩) q = s.response q :=
    Function.update_of_ne apart _ _
  constructor
  · obtain ⟨done, history⟩ := h.answered
    refine ⟨done ++ [r], ?_⟩
    simp [history, pc, ConsolePc.current]
  · exact fun r' mem => h.reads r' (out ▸ List.mem_cons_of_mem r mem)
  · exact h.unsent
  · intro r' mem
    obtain ⟨empty, waits⟩ := h.waiting r' (out ▸ List.mem_cons_of_mem r mem)
    have apart : r'.io_response ≠ r.io_response :=
      fun same => distinct.1 (same ▸ List.mem_map_of_mem mem)
    exact ⟨(other _ apart).trans empty, waits⟩
  · exact distinct.2
  · intro a r' send
    have apart : r'.io_response ≠ r.io_response := fun same => by
      have busy := h.holder (a := a) mine (by rw [send, ← same]; rfl)
      rw [send] at busy
      cases busy
    exact (other _ apart).trans (h.sends a r' send)
  · exact h.own
  · intro a q holds
    by_cases here : q = r.io_response
    · simp [here]
    · have kept := h.created a q holds
      rwa [← other q here] at kept

theorem console_inv (h : Inv s) (step : s.console_device = some t) : Inv t := by
  unfold System.console_device at step
  cases pc : s.console with
  | request =>
      rw [pc] at step
      obtain ⟨⟨r, iorq_queue⟩, recv, same⟩ := Option.bind_eq_some_iff.mp step
      cases same
      exact request_inv h pc recv
  | command r =>
      rw [pc] at step
      have reads := h.reads r (by simp [outstanding, pc, ConsolePc.current])
      simp only [reads, if_pos] at step
      cases step
      exact h.same rfl (by rw [pc]; rfl) rfl rfl rfl
  | key r i =>
      rw [pc] at step
      obtain ⟨⟨scancode, keybd_queue⟩, recv, same⟩ := Option.bind_eq_some_iff.mp step
      cases same
      have taken : Inv { s with keybd_queue } := h.same rfl rfl rfl rfl rfl
      exact edit_inv taken (by simp [pc, ConsolePc.current])
  | reply r =>
      have empty := (h.waiting r (by simp [outstanding, pc, ConsolePc.current])).1
      simp only [pc, empty, Channel.queue_send] at step
      cases step
      exact reply_inv h pc

/-- A key does not concern the requests. -/
theorem key_inv (h : Inv s) (scancode : BitVec 8) : Inv (s.keypress_isr scancode) := by
  unfold System.keypress_isr
  split
  · split
    · exact h
    · exact h.same rfl rfl rfl rfl rfl
  · exact h

theorem start_inv : Inv (System.start : System Client) :=
  ⟨⟨[], rfl⟩, nofun, nofun, nofun, List.nodup_nil, nofun, nofun, nofun⟩

section Clients

variable [DecidableEq Client] {req : Iorq} {queue : Ptr32}

/-- A task goes on without touching a queue. -/
theorem go_inv (h : Inv s) {pc : ClientPc} (queue : pc.queue = (s.client a).queue)
    (unsent : ∀ r, pc.unsent = some r → r.io_desc = .DC_READ) (send : ∀ r, pc ≠ .send r)
    (idle : ∀ r, s.client a ≠ .recv r) : Inv (s.goClient a pc) := by
  have holds (b : Client) : ((s.goClient a pc).client b).queue = (s.client b).queue := by
    by_cases here : b = a
    · simp [System.goClient, here, queue]
    · simp [System.goClient, here]
  constructor
  · exact h.answered
  · exact h.reads
  · intro b r
    by_cases here : b = a
    · simpa [System.goClient, here] using unsent r
    · simpa [System.goClient, here] using h.unsent b r
  · intro r mem
    obtain ⟨empty, b, waits⟩ := h.waiting r mem
    have here : b ≠ a := fun same => idle r (same ▸ waits)
    exact ⟨empty, b, by simpa [System.goClient, here] using waits⟩
  · exact h.distinct
  · intro b r
    by_cases here : b = a
    · simp [System.goClient, here, send]
    · simpa [System.goClient, here] using h.sends b r
  · intro b c q
    rw [holds, holds]
    exact h.own b c q
  · intro b q
    rw [holds]
    exact h.created b q

/-- `do_io` creates the queue for the answer. -/
theorem create_inv (h : Inv s) (pc : s.client a = .create req) (fresh : s.response queue = none) :
    Inv ({ s with response := Function.update s.response queue (some ⟨1, []⟩) }.goClient a
      (.send { req with io_response := queue })) := by
  have unused (b : Client) : (s.client b).queue ≠ some queue := fun holds => by
    have some_ := h.created b queue holds
    simp [fresh] at some_
  have busy (r : Iorq) (mem : r ∈ outstanding s) : r.io_response ≠ queue := fun same => by
    have empty := (h.waiting r mem).1
    simp [same, fresh] at empty
  constructor
  · exact h.answered
  · exact h.reads
  · intro b r
    by_cases here : b = a
    · simp only [System.goClient, here, Function.update_self, ClientPc.unsent, Option.some.injEq]
      rintro rfl
      exact h.unsent a req (by rw [pc]; rfl)
    · simpa [System.goClient, here] using h.unsent b r
  · intro r mem
    obtain ⟨empty, b, waits⟩ := h.waiting r mem
    have here : b ≠ a := fun same => by simp [same, pc] at waits
    exact ⟨by simpa [System.goClient, busy r mem] using empty, b,
      by simpa [System.goClient, here] using waits⟩
  · exact h.distinct
  · intro b r
    by_cases here : b = a
    · simp only [System.goClient, here, Function.update_self, ClientPc.send.injEq]
      rintro rfl
      simp
    · intro send
      have send : s.client b = .send r := by simpa [System.goClient, here] using send
      have apart : r.io_response ≠ queue := fun same => unused b (by rw [send, ← same]; rfl)
      simpa [System.goClient, apart] using h.sends b r send
  · intro b c q
    by_cases here : b = a
    · by_cases there : c = a
      · exact fun _ _ => here.trans there.symm
      · simp only [System.goClient, here, Function.update_self, ne_eq, there, not_false_eq_true,
          Function.update_of_ne, ClientPc.queue, Option.some.injEq]
        rintro rfl holds
        exact absurd holds (unused c)
    · by_cases there : c = a
      · simp only [System.goClient, there, Function.update_self, ne_eq, here, not_false_eq_true,
          Function.update_of_ne, ClientPc.queue, Option.some.injEq]
        rintro holds rfl
        exact absurd holds (unused b)
      · simpa [System.goClient, here, there] using h.own b c q
  · intro b q
    by_cases same : q = queue
    · simp [System.goClient, same]
    · by_cases here : b = a
      · simp [System.goClient, here, ClientPc.queue, Ne.symm same]
      · simpa [System.goClient, here, same] using h.created b q

/-- `do_io` sends the request. -/
theorem send_inv (h : Inv s) (pc : s.client a = .send req) :
    Inv ({ s with iorq_queue := ⟨s.iorq_queue.max_slots, s.iorq_queue.msgs ++ [req]⟩ }.goClient a
      (.recv req)) := by
  have out : outstanding ({ s with
      iorq_queue := ⟨s.iorq_queue.max_slots, s.iorq_queue.msgs ++ [req]⟩ }.goClient a (.recv req)) =
      outstanding s ++ [req] := by
    simp [outstanding, System.goClient]
  have fresh (r : Iorq) (mem : r ∈ outstanding s) : r.io_response ≠ req.io_response :=
    fun same => by
    have busy := h.holder (a := a) mem (by rw [pc, same]; rfl)
    simp [pc] at busy
  constructor
  · exact h.answered
  · rw [out]
    intro r mem
    rcases List.mem_append.mp mem with old | new
    · exact h.reads r old
    · rw [List.mem_singleton.mp new]
      exact h.unsent a req (by rw [pc]; rfl)
  · intro b r
    by_cases here : b = a
    · simp [System.goClient, here, ClientPc.unsent]
    · simpa [System.goClient, here] using h.unsent b r
  · rw [out]
    intro r mem
    rcases List.mem_append.mp mem with old | new
    · obtain ⟨empty, b, waits⟩ := h.waiting r old
      have here : b ≠ a := fun same => by simp [same, pc] at waits
      exact ⟨empty, b, by simpa [System.goClient, here] using waits⟩
    · rw [List.mem_singleton.mp new]
      exact ⟨h.sends a req pc, a, by simp [System.goClient]⟩
  · rw [out, List.map_append, List.nodup_append]
    refine ⟨h.distinct, List.nodup_singleton _, ?_⟩
    intro q mem q' new same
    obtain ⟨r, old, rfl⟩ := List.mem_map.mp mem
    exact fresh r old (same.trans (by simpa using new))
  · intro b r
    by_cases here : b = a
    · simp [System.goClient, here]
    · simpa [System.goClient, here] using h.sends b r
  · have holds (b : Client) :
        (Function.update s.client a (.recv req) b).queue = (s.client b).queue := by
      by_cases here : b = a
      · simp [here, pc, ClientPc.queue]
      · simp [here]
    intro b c q
    simp only [System.goClient, holds]
    exact h.own b c q
  · intro b q
    by_cases here : b = a
    · have mine := h.created a q
      rw [pc] at mine
      simpa [System.goClient, here, ClientPc.queue] using mine
    · simpa [System.goClient, here] using h.created b q

/-- The last two statements of `do_io` concern only a queue whose request has been answered. -/
theorem answered_inv (h : Inv s) (holds : (s.client a).queue = some req.io_response)
    (done : ∀ r ∈ outstanding s, r.io_response ≠ req.io_response) {pc : ClientPc}
    {queue : Option (Channel Unit)} (unsent : pc.unsent = none)
    (left : ∀ q, pc.queue = some q → q = req.io_response ∧ queue.isSome) :
    Inv ({ s with response := Function.update s.response req.io_response queue }.goClient a
        pc) := by
  have others (b : Client) (here : b ≠ a) (q : Ptr32) (mine : (s.client b).queue = some q) :
      q ≠ req.io_response := fun same => here (h.own b a q mine (by rw [holds, same]))
  constructor
  · exact h.answered
  · exact h.reads
  · intro b r
    by_cases here : b = a
    · simp [System.goClient, here, unsent]
    · simpa [System.goClient, here] using h.unsent b r
  · intro r mem
    obtain ⟨empty, b, waits⟩ := h.waiting r mem
    have here : b ≠ a :=
      fun same => done r mem (by simpa [← same, waits, ClientPc.queue] using holds)
    exact ⟨by simpa [System.goClient, done r mem] using empty, b,
      by simpa [System.goClient, here] using waits⟩
  · exact h.distinct
  · intro b r
    by_cases here : b = a
    · subst here
      intro send
      have send : pc = .send r := by simpa [System.goClient] using send
      simp [send, ClientPc.unsent] at unsent
    · intro send
      have send : s.client b = .send r := by simpa [System.goClient, here] using send
      have apart := others b here r.io_response (by rw [send]; rfl)
      simpa [System.goClient, apart] using h.sends b r send
  · intro b c q
    by_cases here : b = a
    · by_cases there : c = a
      · exact fun _ _ => here.trans there.symm
      · simp only [System.goClient, here, Function.update_self, ne_eq, there, not_false_eq_true,
          Function.update_of_ne]
        intro mine theirs
        exact absurd (left q mine).1 (others c there q theirs)
    · by_cases there : c = a
      · simp only [System.goClient, there, Function.update_self, ne_eq, here, not_false_eq_true,
          Function.update_of_ne]
        intro theirs mine
        exact absurd (left q mine).1 (others b here q theirs)
      · simpa [System.goClient, here, there] using h.own b c q
  · intro b q
    by_cases here : b = a
    · simp only [System.goClient, here, Function.update_self]
      intro mine
      obtain ⟨rfl, some_⟩ := left q mine
      simpa using some_
    · intro mine
      have mine : (s.client b).queue = some q := by simpa [System.goClient, here] using mine
      simpa [System.goClient, others b here q mine] using h.created b q mine

theorem client_inv (h : Inv s) (step : s.doIo a queue = some t) : Inv t := by
  unfold System.doIo at step
  cases pc : s.client a with
  | idle => simp [pc] at step
  | create req =>
      simp only [pc] at step
      split at step
      · cases step
      · next none =>
          cases step
          exact create_inv h pc (by simpa using none)
  | send req =>
      rw [pc] at step
      obtain ⟨iorq_queue, send, same⟩ := Option.bind_eq_some_iff.mp step
      cases same
      unfold Channel.queue_send at send
      split at send
      · cases send
        exact send_inv h pc
      · cases send
  | recv req =>
      rw [pc] at step
      obtain ⟨c, found, step⟩ := Option.bind_eq_some_iff.mp step
      obtain ⟨⟨_, c'⟩, recv, same⟩ := Option.bind_eq_some_iff.mp step
      cases same
      refine answered_inv h (by rw [pc]; rfl) ?_ rfl ?_
      · intro r mem same
        have empty := (h.waiting r mem).1
        rw [same, found] at empty
        cases empty
        cases recv
      · rintro q ⟨⟩
        exact ⟨rfl, rfl⟩
  | destroy req =>
      simp only [pc] at step
      cases step
      refine answered_inv h (by rw [pc]; rfl) ?_ rfl nofun
      intro r mem same
      have busy := h.holder (a := a) mem (by rw [pc, same]; rfl)
      simp [pc] at busy

theorem step_inv {e : Event Client} (h : Inv s) (ok : Reads s e) (step : s.step e = some t) :
    Inv t := by
  cases e with
  | console => exact console_inv h step
  | key scancode =>
      cases step
      exact key_inv h scancode
  | do_io a req =>
      simp only [System.step] at step
      split at step
      · next idle =>
          cases step
          refine go_inv h (by rw [idle]; rfl) ?_ nofun (by simp [idle])
          rintro r ⟨⟩
          exact ok
      · cases step
  | client a queue => exact client_inv h step

/-- Every request for a line is answered once and before the next is taken. -/
theorem reads_answered (reached : Runs.Reach System.step Reads (· = System.start) s) :
    Answered s := by
  refine (Runs.Reach.invariant (I := Inv) ?_ (fun _ _ _ => step_inv) reached).answered
  rintro s rfl
  exact start_inv

end Clients

/-- The only task calls `do_io` with the command until the console has taken it. -/
def asked (io_desc : Command) : List (Event Unit) :=
  [.do_io () ⟨0, io_desc, 1, 0⟩, .client () 8, .client () 8, .console, .console]

instance (s : System Unit) (e : Event Unit) : Decidable (Reads s e) := by
  unfold Reads
  split <;> infer_instance

/-- The console waits for a request, having taken one and done nothing more. -/
def unanswered (s : System Unit) : Bool :=
  s.console = .request ∧ s.history.length = 1

theorem write_unanswered : ¬ ∀ s : System Unit,
    Runs.Reach System.step (fun _ _ => True) (· = System.start) s → Answered s := by
  intro answered
  have start : Runs.Reach System.step (fun _ _ => True) (· = System.start)
    (System.start : System Unit) := .start rfl
  obtain ⟨s, -, reached, ends⟩ := start.exists_of_run (p := unanswered)
    (Runs.meets_true System.start (asked .DC_WRITE)) (by decide)
  obtain ⟨waits, length⟩ : s.console = .request ∧ s.history.length = 1 := by
    simpa [unanswered] using ends
  obtain ⟨done, history⟩ := answered s reached
  rw [history, waits] at length
  cases done with
  | nil => cases length
  | cons r done => simp [ConsolePc.current] at length

theorem reads_answered_line : ∃ s : System Unit,
    Runs.run System.step System.start (asked .DC_READ ++ [.key 28, .console, .console]) = some s ∧
    s.history ≠ [] ∧ Answered s := by
  have meets : Runs.Meets System.step Reads System.start
    (asked .DC_READ ++ [.key 28, .console, .console]) := by decide
  have start : Runs.Reach System.step Reads (· = System.start)
    (System.start : System Unit) := .start rfl
  obtain ⟨s, run, reached, ends⟩ := start.exists_of_run (p := fun s => s.history.length = 2) meets
    (by decide)
  refine ⟨s, run, fun none => ?_, reads_answered reached⟩
  simp [none] at ends

end Console

end Krypton
