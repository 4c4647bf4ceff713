import Concurrit.Model.ServerRoles

/-!
# Concurrit — events inside the server and replies

An event that a client thread has sent is on the event pipe, with the receiver, or with a shadow
thread, and only there (`State.inside`), until it is replied to or lost. What a step does to the
events inside, to the replies and to the client threads is `Step.tally`; from it, in every run a
`Continue` is only sent to a thread that waits for it, and one event is replied to at most once.
-/

namespace Concurrit.Model

open Function (update)
open Ipc.EventKind

namespace Server

open Pipe (Event Act)

variable {s s' : State} {l : Label} {p p' : Pipe.State} {e e' : Event} {j t w : Nat}

-- ---------------------------------------------------------------------------
-- Events with the shadow threads
-- ---------------------------------------------------------------------------

theorem FromClient.ne_intern (h : FromClient e.type) : e.type ≠ ThreadEndIntern := by
  intro hType
  rw [hType] at h
  exact absurd h (by decide)

/-- The event of a client thread that a shadow thread has. -/
def clientEvent (p : Pipe.State) (w : Nat) : Option Event :=
  (p.carried w).filter (·.type ≠ ThreadEndIntern)

/-- The events of client threads that the shadow threads have. -/
def shadowEvents (p : Pipe.State) : List Event :=
  p.registry.filterMap (clientEvent p)

/-- The event that the receiver of the event pipe is to hand over. -/
def handed : Act → Option Event
  | .looksUp e => some e
  | .signals _ e rest | .fills _ e rest | .raises _ e rest => if rest.isNone then some e else none
  | .idle | .broadcasts _ | .visits _ _ | .aborted => none

/-- The events that a receiver and the shadow threads have. -/
def given (p : Pipe.State) : List Event :=
  (handed (p.act 0)).toList ++ shadowEvents p

theorem clientEvent_congr (h : p'.carried w = p.carried w) :
    clientEvent p' w = clientEvent p w := by
  rw [clientEvent, clientEvent, h]

theorem filterMap_perm {α : Type} {l : List Nat} (hw : w ∈ l) (f : Nat → Option α) :
    (l.filterMap f).Perm ((f w).toList ++ (l.erase w).filterMap f) := by
  refine ((List.perm_cons_erase hw).filterMap f).trans ?_
  cases h : f w <;> simp [h]

/-- One thread's event changes. -/
theorem filterMap_update {α : Type} {l : List Nat} {f g : Nat → Option α} (hNodup : l.Nodup)
    (hw : w ∈ l) (hSame : ∀ v, v ≠ w → g v = f v) :
    ∃ rest, (l.filterMap f).Perm ((f w).toList ++ rest) ∧
      (l.filterMap g).Perm ((g w).toList ++ rest) := by
  refine ⟨(l.erase w).filterMap f, filterMap_perm hw f, ?_⟩
  have hRest : (l.erase w).filterMap g = (l.erase w).filterMap f :=
    List.filterMap_congr fun v hv => hSame v (hNodup.mem_erase_iff.mp hv).1
  rw [← hRest]
  exact filterMap_perm hw g

theorem shadowEvents_congr (hRegistry : p'.registry = p.registry)
    (hCarried : ∀ v, p'.carried v = p.carried v) : shadowEvents p' = shadowEvents p := by
  have hSame : clientEvent p' = clientEvent p := funext fun v => clientEvent_congr (hCarried v)
  rw [shadowEvents, shadowEvents, hRegistry, hSame]

/-- A new shadow thread has no event, wherever in the registry it stands. -/
theorem shadowEvents_create (hL : Pipe.Listed p) (h : CreateShadowThread p t p') :
    (shadowEvents p').Perm (shadowEvents p) := by
  cases h with
  | again _ _ => exact .refl _
  | @new w hAbsent hTid =>
    have hw : w ∉ p.registry := fun hw => hL.listed w hw hAbsent
    have hNone : clientEvent (registered p w t) w = none := by
      simp [clientEvent, Pipe.State.carried, registered]
    have hSame : ∀ v ∈ p.registry, clientEvent (registered p w t) v = clientEvent p v := by
      intro v hv
      have hvw : v ≠ w := fun h => hw (h ▸ hv)
      exact clientEvent_congr (Pipe.carried_congr (Function.update_of_ne hvw ..) rfl rfl)
    have hPerm := (List.perm_orderedInsert (fun v v' => update p.tid w t v ≤ update p.tid w t v') w
      p.registry).filterMap (clientEvent (registered p w t))
    refine hPerm.trans (.of_eq ?_)
    rw [List.filterMap_cons, hNone, List.filterMap_congr hSame]
    rfl

theorem clientEvent_of_carried (h : p.carried w = some e) (hKind : e.type ≠ ThreadEndIntern) :
    clientEvent p w = some e := by
  simp [clientEvent, h, hKind]

theorem clientEvent_of_none (h : p.carried w = none ∨ ∃ e, p.carried w = some e ∧
    e.type = ThreadEndIntern) : clientEvent p w = none := by
  rcases h with h | ⟨e, h, hKind⟩
  · simp [clientEvent, h]
  · simp [clientEvent, h, hKind]

/-- A shadow thread goes on: the events stay, or one of them is handled. The notice that a
test ends is not an event of a client thread and is never answered. -/
theorem shadowEvents_of_shadow (hB : Pipe.Boxes p) (hL : Pipe.Listed p) (hA : Pipe.Addressed p)
    (h : Pipe.Step p (.shadow w) p') :
    (∃ e, p.place w = .handles e ∧ e.type ≠ ThreadEndIntern ∧ e.threadid = p.tid w ∧
      (shadowEvents p).Perm (e :: shadowEvents p')) ∨
    (∀ e, p.place w = .handles e → e.type = ThreadEndIntern) ∧
      (shadowEvents p').Perm (shadowEvents p) := by
  have hCarried := h.carried hB
  -- steps other than handling leave the events where they are
  have hOther : ∀ {a}, p.place w = a → (∀ e, a ≠ .handles e) →
      (∀ e, p.place w = .handles e → e.type = ThreadEndIntern) ∧ ∀ v, p'.carried v = p.carried v := by
    intro a hPlace hNot
    refine ⟨fun e he => absurd (hPlace.symm.trans he) (hNot e), ?_⟩
    rcases hCarried with hSame | ⟨_, _, _, _, hLabel, _⟩ | ⟨v, e, hLabel, hAt, _⟩
    · exact hSame
    · cases hLabel
    · obtain rfl : w = v := by simpa using hLabel
      exact absurd (hPlace.symm.trans hAt) (hNot e)
  cases h
  -- the event is handled, and the thread has none any more
  case handle e hPlace =>
    have hw : w ∈ p.registry := hA.alive w (by simp [hPlace]) (by simp [hPlace])
    have hOld : p.carried w = some e := by rw [Pipe.State.carried, hPlace]
    have hNew : clientEvent { p with place := update p.place w e.next } w = none := by
      refine clientEvent_of_none (Or.inl ?_)
      cases hLast : e.last <;> simp [Pipe.State.carried, Event.next, hLast]
    obtain ⟨rest, hBefore, hAfter⟩ := filterMap_update (f := clientEvent p)
      (g := clientEvent { p with place := update p.place w e.next }) hL.nodup hw fun v hvw =>
        clientEvent_congr (Pipe.carried_congr (Function.update_of_ne hvw ..) rfl rfl)
    rw [hNew] at hAfter
    -- the notice of the end is not among the client's events
    by_cases hKind : e.type = ThreadEndIntern
    · rw [clientEvent_of_none (Or.inr ⟨e, hOld, hKind⟩)] at hBefore
      refine Or.inr ⟨fun e' he' => ?_, hAfter.trans hBefore.symm⟩
      cases hPlace.symm.trans he'
      exact hKind
    · rw [clientEvent_of_carried hOld hKind] at hBefore
      exact Or.inl ⟨e, hPlace, hKind, hA.carried w e hOld, hBefore.trans (hAfter.symm.cons e)⟩
  -- a thread that is removed has none
  case unregister hFree hPlace =>
    obtain ⟨hKind, hSame⟩ := hOther hPlace (by simp)
    have hw : w ∈ p.registry := hA.alive w (by simp [hPlace]) (by simp [hPlace])
    have hNone : clientEvent p w = none := clientEvent_of_none (Or.inl (by rw [Pipe.State.carried, hPlace]))
    have hPerm := filterMap_perm hw (clientEvent p)
    rw [hNone] at hPerm
    have hEvents : (p.registry.erase w).filterMap (clientEvent { p with
        registry := p.registry.erase w, place := update p.place w .ended }) =
        (p.registry.erase w).filterMap (clientEvent p) :=
      List.filterMap_congr fun v _ => clientEvent_congr (hSame v)
    exact Or.inr ⟨hKind, .trans (.of_eq hEvents) hPerm.symm⟩
  case ready hPlace =>
    obtain ⟨hKind, hSame⟩ := hOther hPlace (by simp)
    exact Or.inr ⟨hKind, .of_eq (shadowEvents_congr rfl hSame)⟩
  case receive hPlace hSem =>
    obtain ⟨hKind, hSame⟩ := hOther hPlace (by simp)
    exact Or.inr ⟨hKind, .of_eq (shadowEvents_congr rfl hSame)⟩
  case copy hPlace =>
    obtain ⟨hKind, hSame⟩ := hOther hPlace (by simp)
    exact Or.inr ⟨hKind, .of_eq (shadowEvents_congr rfl hSame)⟩

-- ---------------------------------------------------------------------------
-- Events on their way to the shadow threads
-- ---------------------------------------------------------------------------

theorem carried_of_sender (hB : Pipe.Boxes p) (h : Pipe.Step p (.sender j) p')
    (hNot : ∀ w e rest, p.act j ≠ .raises w e rest) : ∀ v, p'.carried v = p.carried v := by
  rcases h.carried hB with hSame | ⟨k, w, e, rest, hLabel, hAct, _⟩ | ⟨_, _, hLabel, _⟩
  · exact hSame
  · obtain rfl : j = k := by simpa using hLabel
    exact absurd hAct (hNot w e rest)
  · cases hLabel

/-- A step that moves an event with the receiver. -/
theorem given_of_same (hB : Pipe.Boxes p) (h : Pipe.Step p (.sender j) p')
    (hNot : ∀ w e rest, p.act j ≠ .raises w e rest)
    (hHanded : handed (p'.act 0) = handed (p.act 0)) : (given p').Perm (given p) := by
  refine .of_eq ?_
  rw [given, given, hHanded, shadowEvents_congr h.registry_of_sender (carried_of_sender hB h hNot)]

/-- The event of a mailbox that has been filled: it is with its shadow thread once the
semaphore is raised. -/
theorem shadowEvents_of_raise (hB : Pipe.Boxes p) (hL : Pipe.Listed p) (hA : Pipe.Addressed p)
    (h : Pipe.Step p (.sender j) p') {rest : Option (List Nat)} (hAct : p.act j = .raises w e rest) :
    if e.type = ThreadEndIntern then shadowEvents p' = shadowEvents p
    else (shadowEvents p').Perm (e :: shadowEvents p) := by
  have hWaits := (hB.taken j w (by rw [hAct]; rfl)).1
  have hw : w ∈ p.registry := hA.alive w (by rw [hWaits]; nofun) (by rw [hWaits]; nofun)
  -- nobody else's mailbox changes
  obtain ⟨hOld, hNew, hSame⟩ : p.carried w = none ∧ p'.carried w = some e ∧
      ∀ v, v ≠ w → p'.carried v = p.carried v := by
    have hSem := (hB.taken j w (by rw [hAct]; rfl)).2.2
    rcases h.carried hB with hSame | ⟨k, v, e', rest', hLabel, hAct', hOld, hNew, hSame⟩ | ⟨_, _, hLabel, _⟩
    · refine absurd (hSame w) ?_
      have hOld : p.carried w = none := by simp [Pipe.State.carried, hWaits, hSem]
      rw [hOld]
      cases h <;> simp_all [Pipe.State.carried]
    · obtain rfl : j = k := by simpa using hLabel
      obtain ⟨rfl, rfl, _⟩ : w = v ∧ e = e' ∧ rest = rest' := by simpa [hAct] using hAct'
      exact ⟨hOld, hNew, hSame⟩
    · cases hLabel
  split
  · rename_i hKind
    have hEvents : clientEvent p' = clientEvent p := by
      funext v
      by_cases hvw : v = w
      · rw [hvw, clientEvent_of_none (Or.inl hOld), clientEvent_of_none (Or.inr ⟨e, hNew, hKind⟩)]
      · exact clientEvent_congr (hSame v hvw)
    rw [shadowEvents, shadowEvents, h.registry_of_sender, hEvents]
  · rename_i hKind
    obtain ⟨rest, hBefore, hAfter⟩ := filterMap_update (f := clientEvent p) (g := clientEvent p')
      hL.nodup hw fun v hvw => clientEvent_congr (hSame v hvw)
    rw [clientEvent_of_none (Or.inl hOld)] at hBefore
    rw [clientEvent_of_carried hNew hKind] at hAfter
    rw [shadowEvents, h.registry_of_sender]
    exact hAfter.trans (hBefore.symm.cons e)

/-- The receiver keeps the events, but for one whose shadow thread is not found: that event
is dropped. -/
theorem given_of_receiver (hB : Pipe.Boxes p) (hL : Pipe.Listed p) (hA : Pipe.Addressed p)
    (hReceiver : receives (p.act 0) = true)
    (hClient : ∀ e, handed (p.act 0) = some e → e.type ≠ ThreadEndIntern)
    (h : Pipe.Step p (.sender 0) p') :
    (given p').Perm (given p) ∨ ∃ e, p.act 0 = .looksUp e ∧
      (∀ w ∈ p.registry, p.tid w ≠ e.threadid) ∧ (given p).Perm (e :: given p') := by
  have hStep := h
  cases h
  case find e w hFree hFind hAct =>
    refine Or.inl (given_of_same hB hStep (by rw [hAct]; nofun) ?_)
    rw [hAct]
    simp [handed]
  -- the shadow thread is gone, and so is the event
  case findNone e hFree hFind hAct =>
    refine Or.inr ⟨e, hAct, fun w hw => ?_, ?_⟩
    · simpa using List.find?_eq_none.mp hFind w hw
    · have hSame := carried_of_sender hB hStep (by rw [hAct]; nofun)
      rw [given, given, hAct, shadowEvents_congr hStep.registry_of_sender hSame]
      simp [handed]
  case wait w e rest hSem hAct =>
    refine Or.inl (given_of_same hB hStep (by rw [hAct]; nofun) ?_)
    rw [hAct]
    simp [handed]
  case fill w e rest hAct =>
    refine Or.inl (given_of_same hB hStep (by rw [hAct]; nofun) ?_)
    rw [hAct]
    simp [handed]
  case raise w e rest hSem hAct =>
    -- the event goes into a mailbox
    obtain rfl : rest = none := by simpa [hAct, receives] using hReceiver
    have hEvents := shadowEvents_of_raise hB hL hA hStep hAct
    rw [if_neg (hClient e (by rw [hAct]; rfl))] at hEvents
    refine Or.inl ?_
    rw [given, given, hAct]
    simpa [handed, Act.next] using hEvents
  case raiseFails w e rest hSem hAct =>
    rw [(hB.taken 0 w (by rw [hAct]; rfl)).2.2] at hSem
    cases hSem
  case lock hFree hAct | visit hAct | unlock hAct =>
    rw [hAct] at hReceiver
    cases hReceiver

/-- A broadcast leaves the events alone, as it hands out notices only. -/
theorem given_of_broadcast (hB : Pipe.Boxes p) (hL : Pipe.Listed p) (hA : Pipe.Addressed p)
    (hBroadcaster : broadcastsEnd (p.act 1) = true) (h : Pipe.Step p (.sender 1) p') :
    (given p').Perm (given p) := by
  obtain ⟨a, hUpdate⟩ := h.act_of_sender
  have hHanded : handed (p'.act 0) = handed (p.act 0) := by
    rw [hUpdate, Function.update_of_ne (by decide)]
  by_cases hRaises : ∃ w e rest, p.act 1 = .raises w e rest
  · obtain ⟨w, e, rest, hRaises⟩ := hRaises
    have hEvents := shadowEvents_of_raise hB hL hA h hRaises
    have hKind : e.type = ThreadEndIntern := by
      rw [hRaises] at hBroadcaster
      simpa using (Bool.and_eq_true .. |>.mp hBroadcaster).2
    rw [if_pos hKind] at hEvents
    exact .of_eq (by rw [given, given, hEvents, hHanded])
  · exact given_of_same hB h (fun w e rest hAct => hRaises ⟨w, e, rest, hAct⟩) hHanded

-- ---------------------------------------------------------------------------
-- What a step does
-- ---------------------------------------------------------------------------

/-- The events that the server has to reply to, wherever they are. -/
def State.inside (s : State) : List Event :=
  s.toServer ++ (s.received.toList ++ given s.pipe)

/-- Those of a thread. -/
def State.insideOf (s : State) (t : Nat) : Nat := s.inside.countP (·.threadid = t)

/-- The replies to a thread that it has not got yet. -/
def State.replies (s : State) (t : Nat) : Nat := s.toClient.count ⟨Continue, t⟩

def Client.waiting : Client → Nat
  | .waits _ => 1
  | .runs | .ended => 0

/-- The clients and the counters stay. -/
structure Quiet (s s' : State) : Prop where
  client    : s'.client = s.client
  replies   : ∀ t, s'.replies t = s.replies t
  sent      : s'.sent = s.sent
  continued : s'.continued = s.continued

/-- **What a step does** to the events, the replies and the client threads. -/
inductive Tally (s s' : State) : Prop where
  | moves (hQuiet : Quiet s s') (hInside : s'.inside.Perm s.inside)
  /-- a client thread sends an event -/
  | sends (e : Event) (hRuns : s.client e.threadid = .runs) (hKind : FromClient e.type)
    (hInside : s'.inside.Perm (e :: s.inside))
    (hClient : s'.client = update s.client e.threadid (.waits e))
    (hReplies : ∀ t, s'.replies t = s.replies t)
    (hSent : s'.sent = update s.sent e.threadid (s.sent e.threadid + 1))
    (hContinued : s'.continued = s.continued)
  /-- the server replies to an event -/
  | replies (e : Event) (hInside : s.inside.Perm (e :: s'.inside)) (hClient : s'.client = s.client)
    (hReplies : ∀ t, s'.replies t = s.replies t + if t = e.threadid then 1 else 0)
    (hSent : s'.sent = s.sent)
    (hContinued : s'.continued = update s.continued e.threadid (s.continued e.threadid + 1))
  /-- a client thread gets the reply to its event -/
  | continues (u : Nat) (e : Event) (hWaits : s.client u = .waits e)
    (hInside : s'.inside = s.inside) (hClient : s'.client = update s.client u (.next e))
    (hReplies : ∀ t, s.replies t = s'.replies t + if t = u then 1 else 0)
    (hSent : s'.sent = s.sent) (hContinued : s'.continued = s.continued)
  /-- the receiver ignores an event that it has accepted -/
  | loses (e : Event) (hAct : s.pipe.act 0 = .looksUp e)
    (hNone : ∀ w ∈ s.pipe.registry, s.pipe.tid w ≠ e.threadid) (hQuiet : Quiet s s')
    (hInside : s.inside.Perm (e :: s'.inside))

theorem replies_append (s : State) (e : Event) (t : Nat) :
    (s.toClient ++ [e]).count ⟨Continue, t⟩ =
      s.replies t + if e = ⟨Continue, t⟩ then 1 else 0 := by
  rw [List.count_append, List.count_singleton, State.replies]
  simp only [beq_iff_eq]

theorem replies_sendContinue (s : State) (u t : Nat) :
    (s.sendContinue u).replies t = s.replies t + if t = u then 1 else 0 := by
  rw [State.replies, State.sendContinue, replies_append]
  simp only [Event.mk.injEq, true_and, eq_comm]

/-- The server has replied to the event that it has removed. -/
theorem tally_sendContinue {e : Event} (hInside : s.inside.Perm (e :: s'.inside))
    (hClient : s'.client = s.client) (hToClient : s'.toClient = s.toClient)
    (hSent : s'.sent = s.sent) (hContinued : s'.continued = s.continued) :
    Tally s (s'.sendContinue e.threadid) := by
  refine .replies e hInside hClient (fun t => ?_) hSent ?_
  · rw [replies_sendContinue, State.replies, hToClient]
    rfl
  · rw [State.sendContinue, hContinued]

theorem quiet_of_fields (hClient : s'.client = s.client) (hToClient : s'.toClient = s.toClient)
    (hSent : s'.sent = s.sent) (hContinued : s'.continued = s.continued) : Quiet s s' :=
  ⟨hClient, fun t => by rw [State.replies, State.replies, hToClient], hSent, hContinued⟩

/-- A notice of the server to the client. -/
theorem quiet_of_notice {e : Event} (hKind : e.type ≠ Continue) (hClient : s'.client = s.client)
    (hToClient : s'.toClient = s.toClient ++ [e]) (hSent : s'.sent = s.sent)
    (hContinued : s'.continued = s.continued) : Quiet s s' := by
  refine ⟨hClient, fun t => ?_, hSent, hContinued⟩
  rw [State.replies, hToClient, replies_append, if_neg]
  · rfl
  · rintro rfl
    exact hKind rfl

/-- The replies of `Run`. -/
theorem reply_of_handles {e : Event} (hKind : e.type ≠ ThreadEndIntern) (t : Nat) :
    s.reply t (.handles e) = s.sendContinue t := if_neg hKind

theorem reply_of_other {a : Pipe.Place} (hOther : ∀ e, a = .handles e → e.type = ThreadEndIntern)
    (t : Nat) : s.reply t a = s := by
  cases a
  case handles e => exact if_pos (hOther e rfl)
  all_goals rfl

theorem given_create (hL : Pipe.Listed p) (h : CreateShadowThread p t p') :
    (given p').Perm (given p) := by
  rw [given, given, h.act]
  exact (shadowEvents_create hL h).append_left _

/-- A shadow thread handles the event that it has, or the events stay. -/
theorem given_of_shadow (hB : Pipe.Boxes p) (hL : Pipe.Listed p) (hA : Pipe.Addressed p)
    (h : Pipe.Step p (.shadow w) p') :
    (∃ e, p.place w = .handles e ∧ e.type ≠ ThreadEndIntern ∧ e.threadid = p.tid w ∧
      (given p).Perm (e :: given p')) ∨
    (∀ e, p.place w = .handles e → e.type = ThreadEndIntern) ∧ (given p').Perm (given p) := by
  rw [given, given, h.act_of_shadow]
  rcases shadowEvents_of_shadow hB hL hA h with ⟨e, hPlace, hKind, hTid, hPerm⟩ | ⟨hKind, hPerm⟩
  · exact Or.inl ⟨e, hPlace, hKind, hTid, (hPerm.append_left _).trans List.perm_middle⟩
  · exact Or.inr ⟨hKind, hPerm.append_left _⟩

/-- **Every step moves an event, adds one, answers one or loses one.** The lists that an
event passes through are kept up to their order. -/
theorem Step.tally (hS : Shape s)
    (hClient : ∀ e, handed (s.pipe.act 0) = some e → e.type ≠ ThreadEndIntern)
    (h : Step s l s') : Tally s s' := by
  cases h
  -- a client thread sends
  case send e hRuns hTid hKind =>
    refine .sends e hRuns hKind ?_ rfl (fun _ => rfl) rfl rfl
    simp only [State.inside, List.append_assoc]
    exact List.perm_middle
  -- it takes the reply
  case continues u e rest hNext hWaits =>
    refine .continues u e hWaits rfl rfl (fun t => ?_) rfl rfl
    rw [State.replies, hNext, List.count_cons]
    simp only [beq_iff_eq, Event.mk.injEq, true_and, eq_comm (a := u)]
    rfl
  -- a message to the client that is no reply
  case notices e rest hNext hKind =>
    refine .moves ⟨rfl, fun t => ?_, rfl, rfl⟩ (.refl _)
    rw [State.replies, State.replies, hNext, List.count_cons, if_neg]
    · rfl
    · rw [beq_iff_eq]
      rintro rfl
      exact hKind rfl
  -- into `OnRecv`
  case reads e rest hNext hNone hIdle =>
    refine .moves (quiet_of_fields rfl rfl rfl rfl) ?_
    simp only [State.inside, hNext, hNone]
    exact List.perm_middle
  -- not forwarded: answered at once
  case ignores e hAt _ _ _ =>
    refine tally_sendContinue ?_ rfl rfl rfl rfl
    simp only [State.inside, hAt]
    exact List.perm_middle
  case startsThread e p hAt _ _ _ _ _ hCreate =>
    refine tally_sendContinue ?_ rfl rfl rfl rfl
    have hGiven := given_create hS.listed hCreate
    simp only [State.inside, hAt]
    exact (((hGiven.symm.cons e).append_left _).trans List.perm_middle)
  -- forwarded: the event is with the receiver now
  case forwards e p hAt _ _ _ _ hHandle =>
    refine .moves (quiet_of_fields rfl rfl rfl rfl) ?_
    have hIdle := hS.roles.reading e hAt
    have hEvents := shadowEvents_create hS.listed hHandle.create
    simp only [State.inside, hAt, given, hIdle, handed, Function.update_self]
    exact (hEvents.cons e).append_left _
  -- handing over: the one step that may lose an event
  case handsOver j p hStep =>
    rcases hS.roles.sender hStep with rfl | rfl
    · rcases given_of_receiver hS.boxes hS.listed hS.addressed hS.roles.receiver hClient hStep with
        hPerm | ⟨e, hAct, hNone, hPerm⟩
      · exact .moves (quiet_of_fields rfl rfl rfl rfl) ((hPerm.append_left _).append_left _)
      · refine .loses e hAct hNone (quiet_of_fields rfl rfl rfl rfl) ?_
        have hInside := (hPerm.append_left s.received.toList).append_left s.toServer
        exact hInside.trans ((List.perm_middle.append_left _).trans List.perm_middle)
    · have hPerm := given_of_broadcast hS.boxes hS.listed hS.addressed hS.roles.broadcaster hStep
      exact .moves (quiet_of_fields rfl rfl rfl rfl) ((hPerm.append_left _).append_left _)
  -- a shadow thread handles the event, and replies
  case runs w p hStep =>
    rcases given_of_shadow hS.boxes hS.listed hS.addressed hStep with
      ⟨e, hPlace, hKind, hTid, hPerm⟩ | ⟨hKind, hPerm⟩
    · rw [hPlace, reply_of_handles hKind, ← hTid]
      refine tally_sendContinue ?_ rfl rfl rfl rfl
      have hInside := (hPerm.append_left s.received.toList).append_left s.toServer
      exact hInside.trans ((List.perm_middle.append_left _).trans List.perm_middle)
    · rw [reply_of_other hKind]
      exact .moves (quiet_of_fields rfl rfl rfl rfl) ((hPerm.append_left _).append_left _)
  case starts hAt hSem =>
    exact .moves (quiet_of_notice (e := ⟨TestStart, 0⟩) (by decide) rfl rfl rfl rfl) (.refl _)
  case ends hAt hStarted =>
    exact .moves (quiet_of_notice (e := ⟨TestEnd, 0⟩) (by decide) rfl rfl rfl rfl) (.refl _)
  all_goals exact .moves (quiet_of_fields rfl rfl rfl rfl) (.refl _)

-- ---------------------------------------------------------------------------
-- Accounts
-- ---------------------------------------------------------------------------

/-- What is true of the events and the replies in every run. -/
structure Accounts (s : State) : Prop where
  /-- A thread that waits has one event more than it has got replies. -/
  replied : ∀ t, s.sent t + s.replies t = s.continued t + (s.client t).waiting
  /-- Its event or its reply is somewhere at most once. -/
  once    : ∀ t, s.insideOf t + s.replies t ≤ (s.client t).waiting
  events  : ∀ e ∈ s.inside, s.client e.threadid = .waits e ∧ FromClient e.type

theorem accounts_initial : Accounts initial :=
  ⟨fun _ => rfl, fun _ => Nat.le_refl _, fun _ h => absurd h List.not_mem_nil⟩

theorem insideOf_perm (h : s'.inside.Perm s.inside) (t : Nat) : s'.insideOf t = s.insideOf t :=
  h.countP_eq _

theorem insideOf_cons (h : s'.inside.Perm (e :: s.inside)) (t : Nat) :
    s'.insideOf t = s.insideOf t + if e.threadid = t then 1 else 0 := by
  rw [State.insideOf, h.countP_eq, List.countP_cons]
  simp only [decide_eq_true_eq]
  rfl

/-- A thread with an event inside has no other one, and no reply on its way. -/
theorem Accounts.waits (hAcc : Accounts s) (he : e ∈ s.inside) :
    s.insideOf e.threadid = 1 ∧ s.replies e.threadid = 0 := by
  have hPos : 0 < s.insideOf e.threadid :=
    List.countP_pos_iff.mpr ⟨e, he, decide_eq_true rfl⟩
  have hOnce := hAcc.once e.threadid
  rw [(hAcc.events e he).1] at hOnce
  simp only [Client.waiting] at hOnce
  omega

theorem Accounts.clientEvents (hAcc : Accounts s) (h : handed (s.pipe.act 0) = some e) :
    e.type ≠ ThreadEndIntern := by
  refine (hAcc.events e ?_).2.ne_intern
  simp [State.inside, given, h]

/-- A client thread that changes is the one of the event or the reply. -/
theorem waiting_update (s : State) (u t : Nat) (c : Client) :
    (update s.client u c t).waiting = if t = u then c.waiting else (s.client t).waiting := by
  by_cases htu : t = u
  · rw [if_pos htu, htu, Function.update_self]
  · rw [if_neg htu, Function.update_of_ne htu]

theorem waiting_next (e : Event) : (Client.next e).waiting = 0 := by
  rw [Client.next]
  split <;> rfl

/-- **The accounts are kept**, whatever the step: a client thread that waits has one event more
than replies it has got, and its event or its reply is somewhere at most once, unless it was
lost. -/
theorem Accounts.step (hAcc : Accounts s) (h : Tally s s') : Accounts s' := by
  cases h with
  -- nothing is created or consumed
  | moves hQuiet hInside =>
    refine ⟨fun t => ?_, fun t => ?_, fun e he => ?_⟩
    · rw [hQuiet.client, hQuiet.replies, hQuiet.sent, hQuiet.continued]
      exact hAcc.replied t
    · rw [hQuiet.client, hQuiet.replies, insideOf_perm hInside]
      exact hAcc.once t
    · rw [hQuiet.client]
      exact hAcc.events e (hInside.mem_iff.mp he)
  -- it had nothing under way, since it was running
  | sends e hRuns hKind hInside hClient hReplies hSent hContinued =>
    have hWas : (s.client e.threadid).waiting = 0 := by rw [hRuns]; rfl
    refine ⟨fun t => ?_, fun t => ?_, fun e' he' => ?_⟩
    · have hOld := hAcc.replied t
      rw [hClient, hReplies, hSent, hContinued, waiting_update, Function.update_apply]
      split
      · rename_i hte
        rw [hte, hWas] at hOld
        rw [hte]
        simp only [Client.waiting]
        omega
      · exact hOld
    · have hOld := hAcc.once t
      rw [hClient, hReplies, waiting_update, insideOf_cons hInside]
      by_cases hte : t = e.threadid
      · rw [hte, hWas] at hOld
        rw [hte, if_pos rfl, if_pos rfl]
        simp only [Client.waiting]
        omega
      · rwa [if_neg hte, if_neg (Ne.symm hte), Nat.add_zero]
    · rw [hClient]
      rcases List.mem_cons.mp (hInside.mem_iff.mp he') with rfl | hOld
      · rw [Function.update_self]
        exact ⟨rfl, hKind⟩
      · have hWaits := hAcc.events e' hOld
        have hNe : e'.threadid ≠ e.threadid := fun hSame => by
          rw [hSame, hRuns] at hWaits
          cases hWaits.1
        rwa [Function.update_of_ne hNe]
  -- the event is exchanged for the reply
  | replies e hInside hClient hReplies hSent hContinued =>
    have hMem : e ∈ s.inside := hInside.mem_iff.mpr List.mem_cons_self
    have hCount := insideOf_cons hInside
    refine ⟨fun t => ?_, fun t => ?_, fun e' he' => ?_⟩
    · have hOld := hAcc.replied t
      rw [hClient, hReplies, hSent, hContinued, Function.update_apply]
      split
      · rename_i hte
        rw [hte] at hOld ⊢
        omega
      · exact hOld
    · have hOld := hAcc.once t
      rw [hCount] at hOld
      rw [hClient, hReplies]
      simp only [eq_comm (a := t)]
      omega
    · rw [hClient]
      exact hAcc.events e' (hInside.mem_iff.mpr (List.mem_cons_of_mem _ he'))
  -- the reply arrives, and the thread runs again
  | continues u e hWaits hInside hClient hReplies hSent hContinued =>
    have hWas : (s.client u).waiting = 1 := by rw [hWaits]; rfl
    refine ⟨fun t => ?_, fun t => ?_, fun e' he' => ?_⟩
    · have hOld := hAcc.replied t
      rw [hReplies] at hOld
      rw [hClient, hSent, hContinued, waiting_update]
      split
      · rename_i htu
        rw [htu, hWas, if_pos rfl] at hOld
        rw [htu, waiting_next]
        omega
      · rename_i htu
        rwa [if_neg htu, Nat.add_zero] at hOld
    · have hOld := hAcc.once t
      rw [hReplies] at hOld
      rw [hClient, waiting_update, State.insideOf, hInside, waiting_next]
      split
      · rename_i htu
        rw [htu, hWas, if_pos rfl] at hOld
        rw [htu]
        change s.insideOf u + _ ≤ 0
        omega
      · rename_i htu
        rwa [if_neg htu, Nat.add_zero] at hOld
    · rw [hInside] at he'
      have hNone := (hAcc.waits he').2
      -- a thread with an event inside has no reply on its way
      have hNe : e'.threadid ≠ u := fun hSame => by
        have hSome := hReplies u
        rw [hSame] at hNone
        rw [if_pos rfl] at hSome
        omega
      rw [hClient, Function.update_of_ne hNe]
      exact hAcc.events e' he'
  -- the thread goes on waiting with nothing under way
  | loses e hAct hNone hQuiet hInside =>
    refine ⟨fun t => ?_, fun t => ?_, fun e' he' => ?_⟩
    · rw [hQuiet.client, hQuiet.replies, hQuiet.sent, hQuiet.continued]
      exact hAcc.replied t
    · have hOld := hAcc.once t
      rw [insideOf_cons hInside] at hOld
      rw [hQuiet.client, hQuiet.replies]
      omega
    · rw [hQuiet.client]
      exact hAcc.events e' (hInside.mem_iff.mpr (List.mem_cons_of_mem _ he'))

theorem accounts {ok : State → Label → Prop} (h : Runs.ReachableUnder system ok s) :
    Accounts s := by
  refine h.invariant_of (fun _ => shape) ?_ fun s l s' hS hAcc _ hStep => ?_
  · rintro _ rfl
    exact accounts_initial
  · exact hAcc.step (hStep.2.tally hS fun _ => hAcc.clientEvents)

theorem tally {ok : State → Label → Prop} (h : Runs.ReachableUnder system ok s)
    (hStep : system.step s l s') : Tally s s' :=
  hStep.2.tally (shape h) fun _ => (accounts h).clientEvents

end Server

end Concurrit.Model
