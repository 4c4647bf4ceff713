import Mathlib.Algebra.BigOperators.Group.Finset.Piecewise
import Mathlib.Data.Fintype.Basic
import Mathlib.Order.WellFounded
import Concurrit.Lib.Transfer

/-!
# Writers that share a stream

Any number of writers sends messages over one stream of bounded capacity. A writer takes a
lock, hands the buffers of one message to the stream, in pieces of any size, and gives the
lock back. At the other end one loop reads messages, each with the same `Reader`.

When the reader undoes what one message writes (`Codec`), the whole is a queue: `Step.queue`
says that taking the lock puts the message into the queue, that the end of the loop's body
takes one out, and that nothing else changes it. `finishes` says that every message arrives.
-/

namespace Transfer

open Function (update)

variable {κ μ β α : Type}

/-- The program is what is left of the other one after its first read. -/
inductive Reader.After : Reader β α → Reader β α → Prop where
  | read {n : Nat} {k : List β → Reader β α} (bs : List β) : After (k bs) (.read n k)

/-- A program that reads comes to its end: what is left of it after a read is smaller. -/
theorem Reader.after_wellFounded : WellFounded (Reader.After (β := β) (α := α)) := by
  refine ⟨fun r => ?_⟩
  induction r with
  | ret a => exact ⟨_, fun _ h => by cases h⟩
  | abort => exact ⟨_, fun _ h => by cases h⟩
  | read n k ih =>
    refine ⟨_, fun r h => ?_⟩
    cases h with
    | read bs => exact ih bs

/-- Writers with a lock at one end of a stream, and a loop that reads at the other. -/
structure Shared (κ μ β α : Type) where
  /-- the messages that a writer has not begun to send -/
  todo : κ → List μ
  owner : Option κ
  /-- what is left of the buffers of the message that is being sent -/
  toWrite : List (List β)
  stream : List β
  /-- what the current read has got so far -/
  got : List β
  reader : Reader β α
  /-- the messages that a writer has begun to send, in this order -/
  sent : List (κ × μ)
  received : List α

namespace Shared

inductive Label (κ : Type) where
  | lock (k : κ)
  | write (sz : Nat)
  | writeReturn
  | unlock
  | read (sz : Nat)
  | readReturn
  /-- the body of the loop has ended -/
  | next

/-- The step moves symbols or returns from a call. -/
def Label.productive : Label κ → Prop
  | .write sz => 0 < sz
  | .read sz => 0 < sz
  | _ => True

/-- What the writers write and the loop reads. -/
structure Format (μ β α : Type) where
  buffers : μ → List (List β)
  body : Reader β α
  /-- how much the stream holds -/
  capacity : Nat

variable [DecidableEq κ]

inductive Step (F : Format μ β α) : Shared κ μ β α → Label κ → Shared κ μ β α → Prop where
  | lock {s : Shared κ μ β α} {k m ms} (hFree : s.owner = none) (hTodo : s.todo k = m :: ms) :
    Step F s (.lock k)
      { s with
        todo := update s.todo k ms, owner := some k, toWrite := F.buffers m,
        sent := s.sent ++ [(k, m)] }
  | write {s : Shared κ μ β α} {buff rest} (sz : Nat) (hWrite : s.toWrite = buff :: rest)
    (hMore : 0 < buff.length) (hSz : sz ≤ buff.length) (hRoom : s.stream.length + sz ≤ F.capacity) :
    Step F s (.write sz)
      { s with toWrite := buff.drop sz :: rest, stream := s.stream ++ buff.take sz }
  | writeReturn {s : Shared κ μ β α} {rest} (hWrite : s.toWrite = [] :: rest) :
    Step F s .writeReturn { s with toWrite := rest }
  | unlock {s : Shared κ μ β α} {k} (hOwner : s.owner = some k) (hWrite : s.toWrite = []) :
    Step F s .unlock { s with owner := none }
  | read {s : Shared κ μ β α} {n cont} (sz : Nat) (hReader : s.reader = .read n cont)
    (hMore : s.got.length < n) (hSz : sz ≤ n - s.got.length) (hAvail : sz ≤ s.stream.length) :
    Step F s (.read sz)
      { s with stream := s.stream.drop sz, got := s.got ++ s.stream.take sz }
  | readReturn {s : Shared κ μ β α} {n cont} (hReader : s.reader = .read n cont)
    (hAll : s.got.length = n) :
    Step F s .readReturn { s with got := [], reader := cont s.got }
  | next {s : Shared κ μ β α} {a} (hReader : s.reader = .ret a) :
    Step F s .next { s with reader := F.body, received := s.received ++ [a] }

def initial (F : Format μ β α) (messages : κ → List μ) : Shared κ μ β α where
  todo := messages
  owner := none
  toWrite := []
  stream := []
  got := []
  reader := F.body
  sent := []
  received := []

def system (F : Format μ β α) (messages : κ → List μ) :
    Runs.System (Shared κ μ β α) (Label κ) where
  init s := s = initial F messages
  step := Step F

/-- The symbols the reader has not used yet, wherever they are. -/
def ahead (s : Shared κ μ β α) : List β := s.got ++ (s.stream ++ s.toWrite.flatten)

/-- What a writer has begun to send. -/
def sentBy (s : Shared κ μ β α) (k : κ) : List μ := (s.sent.filter (·.1 = k)).map (·.2)

/-- The messages that are on their way. -/
def pending (s : Shared κ μ β α) : List μ := (s.sent.map (·.2)).drop s.received.length

/-- The symbols of a message. -/
def Format.symbols (F : Format μ β α) (m : μ) : List β := (F.buffers m).flatten

/-- The body of the loop undoes what is written for a valid message, and it reads something. -/
structure Codec (F : Format μ β α) (valid : μ → Prop) (decode : μ → α) : Prop where
  undoes : ∀ m rest, valid m → F.body.run (F.symbols m ++ rest) = some (decode m, rest)
  reads  : F.body.run [] = none
  some   : ∃ m, valid m
  room   : 0 < F.capacity

-- ---------------------------------------------------------------------------
-- The invariant
-- ---------------------------------------------------------------------------

structure Inv (F : Format μ β α) (messages : κ → List μ) (decode : μ → α)
    (s : Shared κ μ β α) : Prop where
  /-- the lock is free between two messages only -/
  between : s.owner = none → s.toWrite = []
  /-- the current read has no more than it asked for -/
  bounded : ∀ n cont, s.reader = .read n cont → s.got.length ≤ n
  emptied : ∀ a, s.reader = .ret a → s.got = []
  order   : ∀ k, s.sentBy k ++ s.todo k = messages k
  /-- the loop has received the messages in the order of the lock -/
  exact   : s.received ++ s.pending.map decode = s.sent.map fun m => decode m.2
  /-- what lies ahead is what is left of the messages on their way, for the current run of the
  body -/
  ahead   : ∀ rest, s.reader.run (s.ahead ++ rest) =
    F.body.run ((s.pending.map F.symbols).flatten ++ rest)

variable {F : Format μ β α} {messages : κ → List μ} {valid : μ → Prop} {decode : μ → α}
  {s s' : Shared κ μ β α} {l : Label κ} {k : κ}

theorem Inv.initial : Inv F messages decode (initial F messages) where
  between := fun _ => rfl
  bounded := fun _ _ _ => Nat.zero_le _
  emptied := fun _ _ => rfl
  order := fun _ => rfl
  exact := rfl
  ahead := fun _ => rfl

/-- No more messages are received than sent. -/
theorem Inv.le (h : Inv F messages decode s) : s.received.length ≤ s.sent.length := by
  have hLen := congrArg List.length h.exact
  simp only [List.length_append, List.length_map] at hLen
  omega

/-- The reader has ended, so the first message on its way is there. -/
theorem Inv.ended (hC : Codec F valid decode) (hValid : ∀ m ∈ s.pending, valid m)
    (h : Inv F messages decode s) {a : α} (hReader : s.reader = .ret a) :
    ∃ m ms, s.pending = m :: ms ∧ a = decode m ∧ s.ahead = (ms.map F.symbols).flatten := by
  have hRun := h.ahead []
  rw [hReader, Reader.run, List.append_nil, List.append_nil] at hRun
  cases hPending : s.pending with
  | nil =>
    rw [hPending] at hRun
    exact absurd (hRun.trans hC.reads) (by simp)
  | cons m ms =>
    rw [hPending, List.map_cons, List.flatten_cons,
      hC.undoes m _ (hValid m (by simp [hPending]))] at hRun
    obtain ⟨hA, hAhead⟩ := Prod.mk.inj (Option.some.inj hRun)
    exact ⟨m, ms, rfl, hA, hAhead⟩

/-- A step that moves symbols, or the lock, and no message. -/
theorem Inv.of_move (h : Inv F messages decode s) (hTodo : s'.todo = s.todo)
    (hSent : s'.sent = s.sent) (hReceived : s'.received = s.received)
    (hReader : s'.reader = s.reader) (hAhead : s'.ahead = s.ahead)
    (hBetween : s'.owner = none → s'.toWrite = [])
    (hBounded : ∀ n cont, s'.reader = .read n cont → s'.got.length ≤ n)
    (hEmptied : ∀ a, s'.reader = .ret a → s'.got = []) : Inv F messages decode s' := by
  have hPending : s'.pending = s.pending := by rw [pending, hSent, hReceived, pending]
  refine ⟨hBetween, hBounded, hEmptied, fun k => ?_, ?_, fun rest => ?_⟩
  · rw [sentBy, hSent, hTodo]
    exact h.order k
  · rw [hReceived, hPending, hSent]
    exact h.exact
  · rw [hReader, hAhead, hPending]
    exact h.ahead rest

theorem sentBy_append (s : Shared κ μ β α) (k j : κ) (m : μ) :
    (((s.sent ++ [(k, m)]).filter (·.1 = j)).map (·.2)) =
      s.sentBy j ++ if k = j then [m] else [] := by
  rw [List.filter_append, List.map_append, sentBy]
  by_cases hk : k = j <;> simp [hk]

/-- **Step lemma of the shared stream**: what was received and what is on its way are the
messages in the order of the lock, and ahead of the reader is what is left of those on their
way. -/
theorem Step.inv (hC : Codec F valid decode) (hValid : ∀ m ∈ s.pending, valid m)
    (hStep : Step F s l s') (h : Inv F messages decode s) : Inv F messages decode s' := by
  have hLe := h.le
  cases hStep with
  | @lock k m ms hFree hTodo =>
    have hPending : ((s.sent ++ [(k, m)]).map (·.2)).drop s.received.length = s.pending ++ [m] := by
      rw [List.map_append, List.drop_append_of_le_length (by simpa using hLe)]
      rfl
    refine ⟨fun hNone => (by cases hNone), h.bounded, h.emptied, fun j => ?_, ?_, fun rest => ?_⟩
    · show ((s.sent ++ [(k, m)]).filter (·.1 = j)).map (·.2) ++ update s.todo k ms j = _
      rw [sentBy_append, ← h.order j]
      by_cases hj : k = j
      · subst hj
        rw [if_pos rfl, Function.update_self, hTodo, List.append_assoc, List.singleton_append]
      · rw [if_neg hj, Function.update_of_ne (Ne.symm hj), List.append_nil]
    · show s.received ++ List.map decode (((s.sent ++ [(k, m)]).map (·.2)).drop _) = _
      rw [hPending, List.map_append, ← List.append_assoc, h.exact, List.map_append]
      rfl
    · show s.reader.run (s.got ++ (s.stream ++ (F.buffers m).flatten) ++ rest) =
        F.body.run ((List.map F.symbols (((s.sent ++ [(k, m)]).map (·.2)).drop _)).flatten ++ rest)
      have hAhead := h.ahead ((F.buffers m).flatten ++ rest)
      rw [ahead, h.between hFree, List.flatten_nil, List.append_nil] at hAhead
      rw [hPending, List.map_append, List.flatten_append, List.append_assoc]
      simpa [Format.symbols] using hAhead
  | @write buff bs sz hWrite hMore hSz hRoom =>
    refine h.of_move rfl rfl rfl rfl ?_ (fun hNone => ?_) h.bounded h.emptied
    · simp only [Shared.ahead, hWrite, List.flatten_cons, List.append_assoc]
      rw [← List.append_assoc (List.take _ _), List.take_append_drop]
    · rw [h.between hNone] at hWrite
      cases hWrite
  | @writeReturn bs hWrite =>
    refine h.of_move rfl rfl rfl rfl ?_ (fun hNone => ?_) h.bounded h.emptied
    · simp [Shared.ahead, hWrite]
    · rw [h.between hNone] at hWrite
      cases hWrite
  | unlock hOwner hWrite =>
    exact h.of_move rfl rfl rfl rfl rfl (fun _ => hWrite) h.bounded h.emptied
  | @read n cont sz hReader hMore hSz hAvail =>
    refine h.of_move rfl rfl rfl rfl ?_ h.between (fun n' cont' hReader' => ?_) fun a hReader' => ?_
    · simp only [Shared.ahead, List.append_assoc]
      rw [← List.append_assoc (List.take _ _), List.take_append_drop]
    · obtain ⟨rfl, -⟩ := Reader.read.inj (hReader.symm.trans hReader')
      simp only [List.length_append, List.length_take]
      omega
    · cases hReader.symm.trans hReader'
  | @readReturn n cont hReader hAll =>
    refine ⟨h.between, fun _ _ _ => Nat.zero_le _, fun _ _ => rfl, h.order, h.exact, fun rest => ?_⟩
    have hAhead := h.ahead rest
    rw [hReader, ahead, List.append_assoc, Reader.run_read_append hAll] at hAhead
    exact hAhead
  | @next a hReader =>
    obtain ⟨m, ms, hPending, rfl, hAhead⟩ := h.ended hC hValid hReader
    have hRest : (s.sent.map (·.2)).drop (s.received ++ [decode m]).length = ms := by
      rw [List.length_append, ← List.drop_drop]
      show s.pending.drop 1 = ms
      rw [hPending]
      rfl
    refine ⟨h.between, fun n cont _ => ?_, fun _ _ => h.emptied _ hReader, h.order, ?_,
      fun rest => ?_⟩
    · rw [h.emptied _ hReader]
      exact Nat.zero_le _
    · show (s.received ++ [decode m]) ++ List.map decode ((s.sent.map (·.2)).drop _) = _
      rw [hRest, ← h.exact, hPending, List.append_assoc]
      rfl
    · show F.body.run (s.ahead ++ rest) =
        F.body.run ((List.map F.symbols ((s.sent.map (·.2)).drop _)).flatten ++ rest)
      rw [hRest, hAhead]

-- ---------------------------------------------------------------------------
-- The queue
-- ---------------------------------------------------------------------------

/-- The messages on their way, as the reader sees them. -/
def queue (decode : μ → α) (s : Shared κ μ β α) : List α := s.pending.map decode

/-- What a step does to a queue, with what has been taken out of it. -/
inductive QueueStep (decode : μ → α) : List α × List α → Label κ → List α × List α → Prop where
  | enqueue {q out} (k : κ) (m : μ) :
    QueueStep decode (q, out) (.lock k) (q ++ [decode m], out)
  | dequeue {q out a} : QueueStep decode (a :: q, out) .next (q, out ++ [a])
  | write {q out sz} : QueueStep decode (q, out) (.write sz) (q, out)
  | writeReturn {q out} : QueueStep decode (q, out) .writeReturn (q, out)
  | unlock {q out} : QueueStep decode (q, out) .unlock (q, out)
  | read {q out sz} : QueueStep decode (q, out) (.read sz) (q, out)
  | readReturn {q out} : QueueStep decode (q, out) .readReturn (q, out)

/-- **The stream is a queue**: a message is put into it when its writer takes the lock and
taken out of it when the loop's body ends. -/
theorem Step.queue (hC : Codec F valid decode) (hValid : ∀ m ∈ s.pending, valid m)
    (h : Inv F messages decode s) (hStep : Step F s l s') :
    QueueStep decode (s.queue decode, s.received) l (s'.queue decode, s'.received) := by
  cases hStep with
  | @lock k m ms hFree hTodo =>
    have hQueue : Shared.queue decode { s with
        todo := update s.todo k ms, owner := some k, toWrite := F.buffers m,
        sent := s.sent ++ [(k, m)] } = s.queue decode ++ [decode m] := by
      simp only [Shared.queue, pending, List.map_append]
      rw [List.drop_append_of_le_length (by simpa using h.le), List.map_append]
      rfl
    rw [hQueue]
    exact .enqueue k m
  | write sz hWrite hMore hSz hRoom => exact .write
  | writeReturn hWrite => exact .writeReturn
  | unlock hOwner hWrite => exact .unlock
  | read sz hReader hMore hSz hAvail => exact .read
  | readReturn hReader hAll => exact .readReturn
  | @next a hReader =>
    obtain ⟨m, ms, hPending, rfl, -⟩ := h.ended hC hValid hReader
    have hQueue : Shared.queue decode { s with
        reader := F.body, received := s.received ++ [decode m] } = ms.map decode := by
      simp only [Shared.queue, pending, List.length_append]
      rw [← List.drop_drop]
      show (s.pending.drop 1).map decode = _
      rw [hPending]
      rfl
    rw [hQueue, Shared.queue, hPending, List.map_cons]
    exact .dequeue

-- ---------------------------------------------------------------------------
-- Runs
-- ---------------------------------------------------------------------------

/-- What is on its way is valid when everything is that the writers are given. -/
theorem Inv.pending_valid (h : Inv F messages decode s) (hAll : ∀ k, ∀ m ∈ messages k, valid m) :
    ∀ m ∈ s.pending, valid m := by
  intro m hm
  obtain ⟨⟨k, m'⟩, hMem, rfl⟩ := List.mem_map.mp (List.mem_of_mem_drop hm)
  refine hAll k m' ?_
  rw [← h.order k]
  refine List.mem_append_left _ (List.mem_map.mpr ⟨(k, m'), ?_, rfl⟩)
  exact List.mem_filter.mpr ⟨hMem, by simp⟩

theorem inv_reachable (hC : Codec F valid decode) (hAll : ∀ k, ∀ m ∈ messages k, valid m)
    (h : Runs.Reachable (system F messages) s) : Inv F messages decode s := by
  refine h.invariant ?_ ?_
  · rintro s rfl
    exact .initial
  · intro s l s' hInv _ hStep
    exact Step.inv hC (hInv.pending_valid hAll) hStep hInv

/-- Everything is sent and received. -/
structure Finished (s : Shared κ μ β α) : Prop where
  todo     : ∀ k, s.todo k = []
  owner    : s.owner = none
  pending  : s.pending = []

/-- The reader is at a valid message, or before one that may come. -/
theorem Inv.not_abort (hC : Codec F valid decode) (hValid : ∀ m ∈ s.pending, valid m)
    (h : Inv F messages decode s) : s.reader ≠ .abort := by
  intro hReader
  have hFails : ∀ rest, F.body.run ((s.pending.map F.symbols).flatten ++ rest) = none :=
    fun rest => (h.ahead rest).symm.trans (by rw [hReader]; rfl)
  cases hPending : s.pending with
  | nil =>
    obtain ⟨m, hm⟩ := hC.some
    have hFail := hFails (F.symbols m ++ [])
    rw [hPending, List.map_nil, List.flatten_nil, List.nil_append, hC.undoes m [] hm] at hFail
    cases hFail
  | cons m ms =>
    have hFail := hFails []
    rw [hPending, List.map_cons, List.flatten_cons, List.append_assoc,
      hC.undoes m _ (hValid m (by simp [hPending]))] at hFail
    cases hFail

/-- A read that waits for more symbols than are in the stream, with none on their way. -/
theorem Inv.waits (hC : Codec F valid decode) (hValid : ∀ m ∈ s.pending, valid m)
    (h : Inv F messages decode s) {n : Nat} {cont : List β → Reader β α}
    (hReader : s.reader = .read n cont) (hLess : s.ahead.length < n) : s.pending = [] := by
  cases hPending : s.pending with
  | nil => rfl
  | cons m ms =>
    have hRun := h.ahead []
    rw [hPending, List.map_cons, List.flatten_cons, List.append_assoc,
      hC.undoes m _ (hValid m (by simp [hPending])), hReader, Reader.run, List.append_nil,
      if_neg (by omega)] at hRun
    cases hRun

/-- While something is not yet sent or received, a productive step is enabled. -/
theorem progress (hC : Codec F valid decode) (hAll : ∀ k, ∀ m ∈ messages k, valid m)
    (h : Inv F messages decode s) (hNot : ¬ Finished s) :
    ∃ l s', Label.productive l ∧ Step F s l s' := by
  have hValid := h.pending_valid hAll
  cases hReader : s.reader with
  | ret a => exact ⟨.next, _, trivial, .next hReader⟩
  | abort => exact absurd hReader (h.not_abort hC hValid)
  | read n cont =>
    rcases Nat.eq_or_lt_of_le (h.bounded n cont hReader) with hGot | hMore
    · exact ⟨.readReturn, _, trivial, .readReturn hReader hGot⟩
    rcases Nat.eq_zero_or_pos s.stream.length with hStream | hAvail
    · -- the stream is empty, so there is room for a symbol
      have hRoom : s.stream.length + 1 ≤ F.capacity := by
        have := hC.room
        omega
      cases hWrite : s.toWrite with
      | cons buff rest =>
        by_cases hEmpty : buff = []
        · subst hEmpty
          exact ⟨.writeReturn, _, trivial, .writeReturn hWrite⟩
        · have hPos : 0 < buff.length := List.length_pos_of_ne_nil hEmpty
          exact ⟨.write 1, _, Nat.one_pos, .write 1 hWrite hPos hPos hRoom⟩
      | nil =>
        cases hOwner : s.owner with
        | some k => exact ⟨.unlock, _, trivial, .unlock hOwner hWrite⟩
        | none =>
          by_cases hTodo : ∀ k, s.todo k = []
          · refine absurd ⟨hTodo, hOwner, h.waits hC hValid hReader ?_⟩ hNot
            rw [Shared.ahead, hWrite, List.flatten_nil, List.append_nil, List.length_append, hStream]
            exact hMore
          · obtain ⟨k, hk⟩ := not_forall.mp hTodo
            obtain ⟨m, ms, hCons⟩ := List.exists_cons_of_ne_nil hk
            exact ⟨.lock k, _, trivial, .lock hOwner hCons⟩
    · exact ⟨.read 1, _, Nat.one_pos, .read 1 hReader hMore (by omega) hAvail⟩

/-- What is left to do: messages, then symbols and calls, then reads of the body. -/
def work [Fintype κ] (s : Shared κ μ β α) : Nat × Nat × Reader β α :=
  (2 * ∑ k, (s.todo k).length + s.pending.length,
    2 * s.toWrite.flatten.length + s.toWrite.length + s.stream.length + s.owner.toList.length,
    s.reader)

/-- The order of what is left. -/
def Less : Nat × Nat × Reader β α → Nat × Nat × Reader β α → Prop :=
  Prod.Lex (· < ·) (Prod.Lex (· < ·) Reader.After)

theorem less_wellFounded : WellFounded (Less (β := β) (α := α)) :=
  Nat.lt_wfRel.wf.prod_lex (Nat.lt_wfRel.wf.prod_lex Reader.after_wellFounded)

/-- A writer begins with its next message. -/
theorem sum_todo_lock [Fintype κ] {todo : κ → List μ} {m : μ} {ms : List μ}
    (hTodo : todo k = m :: ms) :
    ∑ j, (update todo k ms j).length + 1 = ∑ j, (todo j).length := by
  have hUpdate : ∀ j, (update todo k ms j).length = update (fun j => (todo j).length) k ms.length j := by
    intro j
    by_cases hj : j = k
    · subst hj
      simp
    · simp [hj]
  rw [Finset.sum_congr rfl fun j _ => hUpdate j,
    Finset.sum_update_of_mem (Finset.mem_univ k), ← Finset.add_sum_erase _ _ (Finset.mem_univ k),
    Finset.sdiff_singleton_eq_erase, hTodo, List.length_cons]
  omega

/-- A productive step leaves less to do. -/
theorem Step.shrinks [Fintype κ] (hC : Codec F valid decode) (hValid : ∀ m ∈ s.pending, valid m)
    (h : Inv F messages decode s) (hStep : Step F s l s') (hProd : l.productive) :
    Less s'.work s.work := by
  cases hStep with
  | @lock k m ms hFree hTodo =>
    refine Prod.Lex.left _ _ ?_
    have hSum := sum_todo_lock hTodo
    have hPending : (((s.sent ++ [(k, m)]).map (·.2)).drop s.received.length).length =
        s.pending.length + 1 := by
      have hLe := h.le
      simp only [pending, List.length_drop, List.length_map, List.length_append, List.length_singleton]
      omega
    show 2 * ∑ j, (update s.todo k ms j).length +
      (((s.sent ++ [(k, m)]).map (·.2)).drop s.received.length).length < _
    omega
  | @write buff rest sz hWrite hMore hSz hRoom =>
    refine Prod.Lex.right _ (Prod.Lex.left _ _ ?_)
    replace hProd : 0 < sz := hProd
    simp only [hWrite, List.flatten_cons, List.length_append, List.length_drop, List.length_take,
      List.length_cons]
    omega
  | @writeReturn rest hWrite =>
    refine Prod.Lex.right _ (Prod.Lex.left _ _ ?_)
    simp [hWrite]
  | @unlock k hOwner hWrite =>
    refine Prod.Lex.right _ (Prod.Lex.left _ _ ?_)
    simp [hOwner]
  | @read n cont sz hReader hMore hSz hAvail =>
    refine Prod.Lex.right _ (Prod.Lex.left _ _ ?_)
    replace hProd : 0 < sz := hProd
    simp only [List.length_drop]
    omega
  | @readReturn n cont hReader hAll =>
    refine Prod.Lex.right _ (Prod.Lex.right _ ?_)
    show Reader.After (cont s.got) s.reader
    rw [hReader]
    exact .read s.got
  | @next a hReader =>
    obtain ⟨m, ms, hPending, -, -⟩ := h.ended hC hValid hReader
    refine Prod.Lex.left _ _ ?_
    have hRest : ((s.sent.map (·.2)).drop (s.received ++ [a]).length).length < s.pending.length := by
      have hPos : 0 < s.pending.length := by simp [hPending]
      simp only [pending, List.length_drop, List.length_append, List.length_singleton] at hPos ⊢
      omega
    show 2 * ∑ j, (s.todo j).length + ((s.sent.map (·.2)).drop (s.received ++ [a]).length).length < _
    omega

/-- At the end every writer has sent everything, and the loop has received it. -/
theorem Finished.received (h : Inv F messages decode s) (hFin : Finished s) :
    s.received = s.sent.map (fun m => decode m.2) ∧ ∀ k, s.sentBy k = messages k := by
  constructor
  · have hExact := h.exact
    rwa [hFin.pending, List.map_nil, List.append_nil] at hExact
  · intro k
    have hOrder := h.order k
    rwa [hFin.todo k, List.append_nil] at hOrder

/-- **Every message arrives**, whichever productive steps are taken. -/
theorem finishes [Fintype κ] (hC : Codec F valid decode)
    (hAll : ∀ k, ∀ m ∈ messages k, valid m) (h : Runs.Reachable (system F messages) s) :
    Runs.Inevitable (system F messages) (fun _ l => Label.productive l)
      (fun s => s.received = s.sent.map (fun m => decode m.2) ∧ ∀ k, s.sentBy k = messages k) s := by
  refine Runs.Inevitable.of_measure (Q := Inv F messages decode) less_wellFounded work ?_ ?_ ?_
    (inv_reachable hC hAll h)
  · intro s l s' hInv _ hStep
    exact Step.inv hC (hInv.pending_valid hAll) hStep hInv
  · intro s hInv hNot
    exact progress hC hAll hInv fun hFin => hNot (hFin.received hInv)
  · intro s l s' hInv hProd hStep
    exact Step.shrinks hC (hInv.pending_valid hAll) hInv hStep hProd

end Shared

end Transfer
