import Concurrit.Model.ServerEnds

/-!
# Concurrit — what the client receives

The server and the client of a remote program have a flag `test_started` each. The client's one
is set by the notices that `StartTest` and `EndTest` send, and `ClientEventHandler::OnRecv` gives
up when a notice comes out of order. Everything else on the pipe is a reply, which the receiver
of the client hands over to the thread it is for; there has to be one that waits.

`client_follows` says that the client never gives up: the notices on their way turn its flag into
the one of the server, whatever the threads, the receivers and the controllers do.
-/

namespace Concurrit.Model

open Ipc (EventKind)
open Ipc.EventKind

namespace Server

open Pipe (Event)

variable {s s' : State} {l : Label} {e : Event} {t : Nat}

-- ---------------------------------------------------------------------------
-- `OnRecv` of the client
-- ---------------------------------------------------------------------------

/-- What `ClientEventHandler::OnRecv` does with an event. -/
inductive OnRecv where
  /-- the event is handed over -/
  | propagates
  /-- it is ignored, and the flag is set -/
  | sets (testStarted : Bool)
  | fails
deriving DecidableEq, Repr

/-- `ClientEventHandler::OnRecv`. -/
def clientOnRecv (testStarted : Bool) (e : Event) : OnRecv :=
  if e.type = TestStart then if e.threadid = 0 ∧ ¬ testStarted then .sets true else .fails
  else if e.type = TestEnd then if e.threadid = 0 ∧ testStarted then .sets false else .fails
  else .propagates

/-- The flag after some events; `none` if the handler has given up. -/
def flagAfter (testStarted : Bool) : List Event → Option Bool
  | [] => some testStarted
  | e :: rest =>
    match clientOnRecv testStarted e with
    | .propagates => flagAfter testStarted rest
    | .sets b => flagAfter b rest
    | .fails => none

/-- The flag of the client after two lists of messages, one behind the other. -/
theorem flagAfter_append (b : Bool) (xs ys : List Event) :
    flagAfter b (xs ++ ys) = (flagAfter b xs).bind fun b => flagAfter b ys := by
  induction xs generalizing b with
  | nil => rfl
  | cons e xs ih =>
    rw [List.cons_append, flagAfter, flagAfter]
    cases clientOnRecv b e with
    | propagates => exact ih b
    | sets b' => exact ih b'
    | fails => rfl

theorem clientOnRecv_continue (b : Bool) (t : Nat) : clientOnRecv b ⟨Continue, t⟩ = .propagates := by
  cases b <;> rfl

-- ---------------------------------------------------------------------------
-- The server and its client
-- ---------------------------------------------------------------------------

structure Both where
  server : State
  /-- `test_started` of the client -/
  testStarted : Bool
  /-- `OnRecv` of the client has given up, or a reply is for a thread that does not wait -/
  failed : Bool

inductive BothStep (s : Both) : Label → Both → Prop where
  | server {l server'} (hStep : system.step s.server l server') (hOther : l ≠ .client) :
    BothStep s l { s with server := server' }
  | propagates {e rest server'} (hNext : s.server.toClient = e :: rest)
    (hRecv : clientOnRecv s.testStarted e = .propagates) (hKind : e.type = Continue)
    (hStep : system.step s.server .client server') : BothStep s .client { s with server := server' }
  | sets {e rest b server'} (hNext : s.server.toClient = e :: rest)
    (hRecv : clientOnRecv s.testStarted e = .sets b) (hStep : system.step s.server .client server') :
    BothStep s .client { s with server := server', testStarted := b }
  | fails {e rest} (hNext : s.server.toClient = e :: rest)
    (hRecv : clientOnRecv s.testStarted e = .fails) :
    BothStep s .client { s with failed := true }
  /-- there is no shadow thread for the event, or it does not wait -/
  | unexpected {e rest} (hNext : s.server.toClient = e :: rest)
    (hRecv : clientOnRecv s.testStarted e = .propagates)
    (hNobody : e.type ≠ Continue ∨ ∀ e', s.server.client e.threadid ≠ .waits e') :
    BothStep s .client { s with failed := true }

def both : Runs.System Both Label where
  init s := s.server = initial ∧ s.testStarted = false ∧ s.failed = false
  step := BothStep

/-- The notices on their way lead from the flag of the client to the one of the server. -/
structure Follows (s : Both) : Prop where
  flag   : flagAfter s.testStarted s.server.toClient = some s.server.testStarted
  kinds  : ∀ e ∈ s.server.toClient, e.type = Continue ∨ e.type = TestStart ∨ e.type = TestEnd
  failed : s.failed = false

/-- What a step of the server writes to the client, and what it does to the flag. -/
inductive Writes (s s' : State) : Prop where
  | nothing (hToClient : s'.toClient = s.toClient) (hFlag : s'.testStarted = s.testStarted)
  | reply (t : Nat) (hToClient : s'.toClient = s.toClient ++ [⟨Continue, t⟩])
      (hFlag : s'.testStarted = s.testStarted)
  | start (hToClient : s'.toClient = s.toClient ++ [⟨TestStart, 0⟩]) (hOld : s.testStarted = false)
      (hFlag : s'.testStarted = true)
  | ends (hToClient : s'.toClient = s.toClient ++ [⟨TestEnd, 0⟩]) (hOld : s.testStarted = true)
      (hFlag : s'.testStarted = false)

/-- What a step of the server writes to the client: nothing, a reply, or a notice with the
flag it sets. -/
theorem Step.writes (hT : Turns s) (h : Step s l s') (hOther : l ≠ .client) : Writes s s' := by
  cases h
  case continues => exact absurd rfl hOther
  case notices => exact absurd rfl hOther
  case ignores e _ _ _ _ => exact .reply e.threadid rfl rfl
  case startsThread e p _ _ _ _ _ _ _ => exact .reply e.threadid rfl rfl
  case runs w p hStep =>
    cases hPlace : s.pipe.place w
    case handles e =>
      rw [State.reply]
      split
      · exact .nothing rfl rfl
      · exact .reply _ rfl rfl
    all_goals exact .nothing rfl rfl
  case starts hAt hSem => exact .start rfl (hT.waiting hAt) rfl
  case ends hAt hStarted => exact .ends rfl hStarted rfl
  all_goals exact .nothing rfl rfl

/-- What the server writes keeps the two flags together. -/
theorem Follows.of_writes {s : Both} (h : Follows s) {server' : State}
    (hWrites : Writes s.server server') : Follows { s with server := server' } := by
  have hAppend : ∀ e : Event, server'.toClient = s.server.toClient ++ [e] →
      (e.type = Continue ∨ e.type = TestStart ∨ e.type = TestEnd) →
      flagAfter s.server.testStarted [e] = some server'.testStarted →
      Follows { s with server := server' } := by
    intro e hToClient hKind hFlag
    refine ⟨?_, fun e' he' => ?_, h.failed⟩
    · show flagAfter s.testStarted server'.toClient = _
      rw [hToClient, flagAfter_append, h.flag]
      exact hFlag
    · replace he' : e' ∈ server'.toClient := he'
      rw [hToClient, List.mem_append, List.mem_singleton] at he'
      rcases he' with he' | rfl
      · exact h.kinds e' he'
      · exact hKind
  cases hWrites with
  | nothing hToClient hFlag =>
    refine ⟨?_, fun e he => h.kinds e (hToClient ▸ he), h.failed⟩
    show flagAfter s.testStarted server'.toClient = some server'.testStarted
    rw [hToClient, hFlag]
    exact h.flag
  | reply t hToClient hFlag =>
    refine hAppend _ hToClient (.inl rfl) ?_
    rw [flagAfter, clientOnRecv_continue, hFlag]
    rfl
  | start hToClient hOld hFlag =>
    refine hAppend _ hToClient (.inr (.inl rfl)) ?_
    rw [hOld, hFlag]
    rfl
  | ends hToClient hOld hFlag =>
    refine hAppend _ hToClient (.inr (.inr rfl)) ?_
    rw [hOld, hFlag]
    rfl

/-- The client takes one event off its pipe. -/
theorem Step.client_reads (h : Step s .client s') :
    ∃ e rest, s.toClient = e :: rest ∧ s'.toClient = rest ∧ s'.testStarted = s.testStarted := by
  cases h with
  | continues hNext _ => exact ⟨_, _, hNext, rfl, rfl⟩
  | notices hNext _ => exact ⟨_, _, hNext, rfl, rfl⟩

/-- A reply is for a thread that waits. -/
theorem Accounts.awaited (hAcc : Accounts s) (h : ⟨Continue, t⟩ ∈ s.toClient) :
    ∃ e, s.client t = .waits e := by
  have hPos : 0 < s.replies t := List.count_pos_iff.mpr h
  have hOnce := hAcc.once t
  cases hClient : s.client t with
  | waits e => exact ⟨e, rfl⟩
  | runs =>
    rw [hClient, Client.waiting] at hOnce
    omega
  | ended =>
    rw [hClient, Client.waiting] at hOnce
    omega

/-- A message that is passed on to a thread is a reply. -/
theorem propagates_kind {b : Bool} (hRecv : clientOnRecv b e = .propagates)
    (hKind : e.type = Continue ∨ e.type = TestStart ∨ e.type = TestEnd) : e.type = Continue := by
  rcases hKind with hKind | hKind | hKind
  · exact hKind
  · rw [clientOnRecv, if_pos hKind] at hRecv
    split at hRecv <;> cases hRecv
  · rw [clientOnRecv, if_neg (by rw [hKind]; decide), if_pos hKind] at hRecv
    split at hRecv <;> cases hRecv

/-- The events behind the first one, for the flag it leaves. -/
theorem Follows.rest {s : Both} (h : Follows s) {rest : List Event} {b : Bool} {server' : State}
    (hNext : s.server.toClient = e :: rest) (hFlag : flagAfter s.testStarted (e :: rest) = flagAfter b rest)
    (hRest : server'.toClient = rest) (hSame : server'.testStarted = s.server.testStarted) :
    Follows { s with server := server', testStarted := b } := by
  refine ⟨?_, fun e' he' => h.kinds e' ?_, h.failed⟩
  · show flagAfter b server'.toClient = some server'.testStarted
    rw [hRest, hSame, ← hFlag, ← hNext]
    exact h.flag
  · rw [hNext]
    exact List.mem_cons_of_mem _ (hRest ▸ he')

/-- **Step lemma of the two programs**: after the messages that are on their way the client
has the server's flag. -/
theorem Follows.step {s s' : Both} (h : Follows s) (hT : Turns s.server) (hAcc : Accounts s.server)
    (hStep : BothStep s l s') : Follows s' := by
  cases hStep with
  | server hStep hOther => exact h.of_writes (hStep.2.writes hT hOther)
  | propagates hNext hRecv hKind hStep =>
    obtain ⟨_, _, hNext', hRest, hSame⟩ := hStep.2.client_reads
    obtain ⟨rfl, rfl⟩ := List.cons.inj (hNext.symm.trans hNext')
    exact h.rest hNext (by rw [flagAfter, hRecv]) hRest hSame
  | sets hNext hRecv hStep =>
    obtain ⟨_, _, hNext', hRest, hSame⟩ := hStep.2.client_reads
    obtain ⟨rfl, rfl⟩ := List.cons.inj (hNext.symm.trans hNext')
    exact h.rest hNext (by rw [flagAfter, hRecv]) hRest hSame
  | fails hNext hRecv =>
    have hFlag := h.flag
    rw [hNext, flagAfter, hRecv] at hFlag
    cases hFlag
  | @unexpected e rest hNext hRecv hNobody =>
    have hMem : e ∈ s.server.toClient := by
      rw [hNext]
      exact List.mem_cons_self
    have hKind := propagates_kind hRecv (h.kinds e hMem)
    obtain ⟨e', hWaits⟩ := hAcc.awaited (t := e.threadid) (hKind ▸ hMem)
    rcases hNobody with hNot | hNobody
    · exact absurd hKind hNot
    · exact absurd hWaits (hNobody e')

-- ---------------------------------------------------------------------------
-- Every run
-- ---------------------------------------------------------------------------

/-- The server does not notice its client's flag. -/
theorem reachable_server {s : Both} (h : Runs.Reachable both s) : Runs.Reachable system s.server := by
  refine h.invariant (P := fun s => Runs.Reachable system s.server) ?_ ?_
  · rintro s ⟨hInit, -, -⟩
    exact .init hInit
  · intro s l s' hReach _ hStep
    cases hStep with
    | server hStep _ => exact hReach.step trivial hStep
    | propagates _ _ _ hStep => exact hReach.step trivial hStep
    | sets _ _ hStep => exact hReach.step trivial hStep
    | fails _ _ => exact hReach
    | unexpected _ _ _ => exact hReach

/-- The client follows the server in every run of both. -/
theorem follows {s : Both} (h : Runs.Reachable both s) : Follows s := by
  refine h.invariant_of (fun s => reachable_server (s := s)) ?_ ?_
  · rintro s ⟨hInit, hFlag, hFailed⟩
    refine ⟨?_, ?_, hFailed⟩
    · rw [hInit, hFlag]
      rfl
    · rw [hInit]
      exact fun _ he => absurd he List.not_mem_nil
  · intro s l s' hReach hFollows _ hStep
    exact hFollows.step (turns hReach) (accounts hReach) hStep

/-- Replies do not change the flag of the client. -/
theorem flagAfter_replies {b : Bool} {es : List Event} (h : ∀ e ∈ es, e.type = Continue) :
    flagAfter b es = some b := by
  induction es with
  | nil => rfl
  | cons e es ih =>
    obtain ⟨hHere, hMore⟩ := List.forall_mem_cons.mp h
    rw [flagAfter, clientOnRecv, if_neg (by rw [hHere]; decide), if_neg (by rw [hHere]; decide)]
    exact ih hMore

/-- What a run of the two programs comes to. -/
structure ClientFollows : Prop where
  /-- the client does not give up, and every reply finds the thread that waits for it -/
  never : ∀ s, Runs.Reachable both s → s.failed = false
  /-- with no notice on its way the flags are the same -/
  flag  : ∀ s, Runs.Reachable both s → (∀ e ∈ s.server.toClient, e.type = Continue) →
    s.testStarted = s.server.testStarted
  /-- what is sent to the client can be received -/
  goes  : ∀ s, Runs.Reachable both s → s.server.up → s.server.toClient ≠ [] →
    ∃ s', BothStep s .client s' ∧ s'.failed = false

/-- The client can receive the next message: a reply finds its thread waiting, a notice fits
the flag. -/
theorem Follows.receives {s : Both} (h : Follows s) (hAcc : Accounts s.server)
    (hUp : s.server.up) (hNe : s.server.toClient ≠ []) :
    ∃ s', BothStep s .client s' ∧ s'.failed = false := by
  obtain ⟨e, rest, hNext⟩ := List.exists_cons_of_ne_nil hNe
  have hMem : e ∈ s.server.toClient := by
    rw [hNext]
    exact List.mem_cons_self
  cases hRecv : clientOnRecv s.testStarted e with
  | propagates =>
    have hKind := propagates_kind hRecv (h.kinds e hMem)
    have hEvent : e = ⟨Continue, e.threadid⟩ := by rw [← hKind]
    have hReply : s.server.toClient = ⟨Continue, e.threadid⟩ :: rest := by rw [← hEvent, hNext]
    obtain ⟨e', hWaits⟩ := hAcc.awaited (t := e.threadid) (hEvent ▸ hMem)
    exact ⟨_, .propagates hNext hRecv hKind ⟨hUp, .continues hReply hWaits⟩, h.failed⟩
  | sets b =>
    have hKind : e.type ≠ Continue := by
      intro hKind
      rw [clientOnRecv, if_neg (by rw [hKind]; decide), if_neg (by rw [hKind]; decide)] at hRecv
      cases hRecv
    exact ⟨_, .sets hNext hRecv ⟨hUp, .notices hNext hKind⟩, h.failed⟩
  | fails =>
    have hFlag := h.flag
    rw [hNext, flagAfter, hRecv] at hFlag
    cases hFlag

/-- **Main result.** The client follows the server in every run of both: it does not give
up, every reply finds the thread that waits for it, and with no notice on its way both agree
on whether a test runs. -/
theorem client_follows : ClientFollows where
  never _ hReach := (follows hReach).failed
  flag _ hReach hReplies :=
    Option.some.inj ((flagAfter_replies hReplies).symm.trans (follows hReach).flag)
  goes _ hReach hUp hNe := (follows hReach).receives (accounts (reachable_server hReach)) hUp hNe

end Server

end Concurrit.Model
