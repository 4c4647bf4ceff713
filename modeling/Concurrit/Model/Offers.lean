import Mathlib.Data.List.Chain
import Concurrit.Model.Constraints

/-!
# Concurrit — transitions on offer

A test thread offers one transition at a time, to one current node after another,
until it is let through. The evaluations record each offer that is made.
-/

namespace Concurrit.Model

open Function (update)

namespace Protocol

variable {P Trans : Type} {s s' : State P Trans} {sh sh' : Shared P Trans} {pc pc' : Pc P Trans}
  {t u n m : Nat} {l : Label} {o : Offer Trans}

def Call.offer : Call P Trans → Option (Offer Trans)
  | .controlled o => some o
  | .endWithException _ thrown => thrown
  | _ => none

def Next.offer : Next Trans → Option (Offer Trans)
  | .again o => some o
  | .wait o _ => some o
  | _ => none

/-- The transition a thread offers and that has not been let through. -/
def Pc.offer : Pc P Trans → Option (Offer Trans)
  | .acquire c | .saw c _ | .semWait c | .semSignal c | .retry c | .acquired c _ => c.offer
  | .evaluated o _ _ take => if take then none else some o
  | .unlock _ k | .store _ k | .signal k => k.offer
  | .condWait o _ | .asleep o _ _ | .woken o _ | .leaveMutex o _ => some o
  | _ => none

theorem Call.offer_of_ofScript {c : Call P Trans} (h : c.ofScript = true) : c.offer = none := by
  cases c <;> first | rfl | cases h

theorem caught_offer (live : List Nat) (reason : BacktrackReason) :
    (caught live reason : Pc P Trans).offer = none := by
  unfold caught
  dsimp only
  split_ifs <;> rfl

theorem Next.pc_offer (k : Next Trans) : (k.pc : Pc P Trans).offer = k.offer := by
  cases k
  case ended =>
    simp only [Next.pc]
    split <;> rfl
  all_goals rfl

/-- A transition stays on offer until it is let through, or the execution ends. -/
theorem Does.offer_keep (h : Does t sh pc l sh' pc') (hOffer : pc.offer = some o) :
    pc'.offer = some o ∨ sh'.log ≠ sh.log ∨ (∃ c, pc = .acquired c .endNode) ∨
      pc'.carriesEnd = true ∨ pc' = .aborted ∧ l ≠ .timeout := by
  cases h
  case signal k => exact Or.inl ((Next.pc_offer k).trans hOffer)
  case evaluate o n info holds selects hNode =>
    exact Or.inr (Or.inl (by simp))
  case consume o n take =>
    cases take
    · exact Or.inl hOffer
    · cases hOffer
  case waitTimeout c _ hScript => cases (Call.offer_of_ofScript hScript).symm.trans hOffer
  case retryTimeout c _ hScript => cases (Call.offer_of_ofScript hScript).symm.trans hOffer
  case refused c _ hScript _ _ _ => cases (Call.offer_of_ofScript hScript).symm.trans hOffer
  case scriptEnded c _ hScript _ _ => cases (Call.offer_of_ofScript hScript).symm.trans hOffer
  case doubleLock => exact Or.inr (Or.inr (Or.inr (Or.inr ⟨rfl, nofun⟩)))
  case onLockFails => exact Or.inr (Or.inr (Or.inr (Or.inr ⟨rfl, nofun⟩)))
  case unlockFails => exact Or.inr (Or.inr (Or.inr (Or.inr ⟨rfl, nofun⟩)))
  case addException => exact Or.inr (Or.inr (Or.inr (Or.inl rfl)))
  all_goals first
    | exact Or.inl hOffer
    | exact Or.inr (Or.inr (Or.inl ⟨_, rfl⟩))
    | cases hOffer

/-- A thread that has something on offer has offered it before, or begins to. -/
theorem Does.offer_old (h : Does t sh pc l sh' pc') (hOffer : pc'.offer = some o) :
    pc.offer = some o ∧ sh'.offers = sh.offers ∨
      pc = .running ∧ o.number = sh.offers t ∧ sh'.offers = update sh.offers t (sh.offers t + 1) := by
  cases h
  case signal k => exact Or.inl ⟨(Next.pc_offer k).symm.trans hOffer, rfl⟩
  case caught => cases (caught_offer _ _).symm.trans hOffer
  case offer =>
    cases hOffer
    exact Or.inr ⟨rfl, rfl, rfl⟩
  case evaluate o n info holds selects hNode =>
    cases hTake : (evalNode holds sh.constraints selects info.kind info.pred).2
    all_goals simp [Pc.offer, hTake] at hOffer
    exact Or.inl ⟨congrArg some hOffer, rfl⟩
  case consume o n take =>
    cases take
    · exact Or.inl ⟨hOffer, rfl⟩
    · cases hOffer
  case broadcast => split at hOffer <;> cases hOffer
  all_goals first
    | exact Or.inl ⟨hOffer, rfl⟩
    | cases hOffer

/-- The counter of a thread's transitions goes up only when it begins to offer one. -/
theorem Does.offers (h : Does t sh pc l sh' pc') :
    sh'.offers = sh.offers ∨ sh'.offers = update sh.offers t (sh.offers t + 1) := by
  cases h
  case offer => exact Or.inr rfl
  all_goals exact Or.inl rfl

/-- A step adds at most one evaluation, of what the thread has on offer. -/
theorem Does.log (h : Does t sh pc l sh' pc') :
    sh'.log = sh.log ∨
      ∃ e, sh'.log = sh.log ++ [e] ∧ e.thread = t ∧ sh'.offers = sh.offers ∧
        pc = .acquired (.controlled e.offer) (.full e.node) ∧
        pc' = .evaluated e.offer e.node e.consume e.take := by
  cases h.effect with
  | quiet _ _ _ hLog => exact Or.inl hLog
  | submit _ _ _ _ hShared _ => exact Or.inl (by rw [hShared])
  | constrain _ _ _ _ hLog => exact Or.inl hLog
  | consume _ _ _ _ hShared _ => exact Or.inl (by rw [hShared])
  | evaluate o n _ holds _ e _ _ hEntry hPc hShared hPc' =>
    have hOffer : e.offer = o := by rw [hEntry]
    have hNode : e.node = n := by rw [hEntry]
    exact Or.inr ⟨e, by rw [hShared], by rw [hEntry], by rw [hShared], by rw [hOffer, hNode, hPc],
      by rw [hOffer, hNode, hPc']⟩

-- ---------------------------------------------------------------------------
-- The evaluations of one thread
-- ---------------------------------------------------------------------------

/-- The evaluations of the transitions of thread `t`. -/
def State.evaluationsBy (s : State P Trans) (t : Nat) : List (Entry P Trans) :=
  s.shared.log.filter (·.thread = t)

/-- The numbers of the transitions on offer and of those evaluated. -/
structure Numbered (s : State P Trans) : Prop where
  below   : ∀ e ∈ s.shared.log, e.offer.number < s.shared.offers e.thread
  newest  : ∀ t o, (s.pc t).offer = some o → o.number + 1 = s.shared.offers t
  /-- what is on offer has been offered unchanged and not been let through -/
  refused : ∀ t o, (s.pc t).offer = some o → ∀ e ∈ s.shared.log, e.thread = t →
    e.offer.number = o.number → e.offer = o ∧ e.take = false
  /-- after a transition that is let through, a thread offers later ones -/
  later   : s.shared.log.Pairwise fun e e' =>
    e.thread = e'.thread → e.take = true → e.offer.number < e'.offer.number

theorem numbered_start : Numbered (State.start : State P Trans) := by
  refine ⟨nofun, fun t o hOffer => ?_, nofun, List.Pairwise.nil⟩
  simp only [State.start] at hOffer
  split at hOffer <;> cases hOffer

/-- **The offers of a thread are numbered** in the order they are made, and a thread makes
no new one before the old one is let through or the execution ends. -/
theorem Numbered.step (hN : Numbered s) (h : Does t s.shared (s.pc t) l sh' pc') :
    Numbered (s.put t sh' pc') := by
  have hOffers : ∀ u, s.shared.offers u ≤ sh'.offers u ∧ (u ≠ t → sh'.offers u = s.shared.offers u) := by
    intro u
    rcases h.offers with hSame | hMore
    · simp [hSame]
    · rw [hMore]
      by_cases hut : u = t <;> simp [hut]
  have hNewest : ∀ u o, ((s.put t sh' pc').pc u).offer = some o → o.number + 1 = sh'.offers u := by
    intro u o hOffer
    by_cases hut : u = t
    · subst hut
      rw [State.put_self] at hOffer
      rcases h.offer_old hOffer with ⟨hOld, hSame⟩ | ⟨_, hNumber, hMore⟩
      · rw [hSame]
        exact hN.newest u o hOld
      · simp [hMore, hNumber]
    · rw [State.put_of_ne _ _ _ hut] at hOffer
      rw [(hOffers u).2 hut]
      exact hN.newest u o hOffer
  -- what is on offer after the step has not been let through before it
  have hRefused : ∀ u o, ((s.put t sh' pc').pc u).offer = some o → ∀ e ∈ s.shared.log, e.thread = u →
      e.offer.number = o.number → e.offer = o ∧ e.take = false := by
    intro u o hOffer e he hThread hNumber
    by_cases hut : u = t
    · subst hut
      rw [State.put_self] at hOffer
      rcases h.offer_old hOffer with ⟨hOld, _⟩ | ⟨_, hNext, _⟩
      · exact hN.refused u o hOld e he hThread hNumber
      · have hBelow := hN.below e he
        rw [hThread, hNumber, hNext] at hBelow
        exact absurd hBelow (Nat.lt_irrefl _)
    · rw [State.put_of_ne _ _ _ hut] at hOffer
      exact hN.refused u o hOffer e he hThread hNumber
  have hBelow : ∀ e ∈ s.shared.log, e.offer.number < sh'.offers e.thread := fun e he =>
    Nat.lt_of_lt_of_le (hN.below e he) (hOffers e.thread).1
  rcases h.log with hLog | ⟨e, hLog, rfl, hSame, hPc, hPc'⟩
  · exact ⟨by rwa [State.put_shared, hLog], hNewest, by rwa [State.put_shared, hLog],
      by rw [State.put_shared, hLog]; exact hN.later⟩
  · have hOffer : (s.pc e.thread).offer = some e.offer := by rw [hPc]; rfl
    have hNumber := hN.newest _ _ hOffer
    refine ⟨fun d hd => ?_, hNewest, fun u o hu d hd hThread hd' => ?_, ?_⟩
    · rw [State.put_shared, hLog] at hd
      rcases List.mem_append.mp hd with hd | hd
      · exact hBelow d hd
      · obtain rfl := List.mem_singleton.mp hd
        rw [State.put_shared, hSame]
        exact Nat.lt_of_succ_le (Nat.le_of_eq hNumber)
    · rw [State.put_shared, hLog] at hd
      rcases List.mem_append.mp hd with hd | hd
      · exact hRefused u o hu d hd hThread hd'
      · obtain rfl := List.mem_singleton.mp hd
        subst hThread
        rw [State.put_self, hPc'] at hu
        cases hTake : d.take <;> simp [Pc.offer, hTake] at hu
        exact ⟨hu, rfl⟩
    · rw [State.put_shared, hLog, List.pairwise_append]
      refine ⟨hN.later, List.pairwise_singleton .., fun d hd e' he' hThread hTake => ?_⟩
      obtain rfl := List.mem_singleton.mp he'
      have hLt := hN.below d hd
      rw [hThread, ← hNumber] at hLt
      refine Nat.lt_of_le_of_ne (Nat.le_of_lt_succ hLt) fun hEq => ?_
      rw [(hN.refused _ _ hOffer d hd hThread hEq).2] at hTake
      cases hTake

theorem numbered {ok : State P Trans → Nat × Label → Prop}
    (h : Runs.ReachableUnder (system P Trans) ok s) : Numbered s := by
  refine h.invariant (fun _ hInit => hInit ▸ numbered_start) ?_
  rintro s ⟨t, l⟩ _ hN _ ⟨hDoes⟩
  exact hN.step hDoes

/-- What becomes of a transition that was evaluated and not let through. -/
structure Reoffered (s : State P Trans) : Prop where
  /-- its thread offers it still, unless the end node is there -/
  still : ∀ t e, (s.evaluationsBy t).getLast? = some e → e.take = false →
    (s.pc t).offer = some e.offer ∨ Ended s
  /-- its thread has offered it again, unchanged -/
  again : ∀ t, (s.evaluationsBy t).IsChain fun e e' => e.take = false → e'.offer = e.offer

theorem reoffered_start : Reoffered (State.start : State P Trans) :=
  ⟨nofun, fun _ => List.isChain_nil⟩

/-- The entries of a thread after one more. -/
theorem State.evaluationsBy_put {e : Entry P Trans} (hLog : sh'.log = s.shared.log ++ [e]) :
    (s.put t sh' pc').evaluationsBy u =
      if e.thread = u then s.evaluationsBy u ++ [e] else s.evaluationsBy u := by
  simp only [State.evaluationsBy, State.put_shared, hLog, List.filter_append, List.filter_cons,
    decide_eq_true_eq, List.filter_nil]
  split
  · rfl
  · rw [List.append_nil]

/-- **A transition that is not let through is offered again**, unchanged, unless the end
node is there. -/
theorem Reoffered.step (hR : Reoffered s) (hT : Tracked s) (h : Does t s.shared (s.pc t) l sh' pc')
    (hLate : ((s.put t sh' pc').pc main).late = false) : Reoffered (s.put t sh' pc') := by
  obtain ⟨hBefore, hForce⟩ := h.late_put hLate
  have hL := hT.locked hBefore
  have hEnded : Ended s → Ended (s.put t sh' pc') := fun hEnded => hEnded.step hL (.mk h) hForce
  rcases h.log with hLog | ⟨e, hLog, rfl, hSame, hPc, hPc'⟩
  · have hBy : ∀ u, (s.put t sh' pc').evaluationsBy u = s.evaluationsBy u := fun u => by
      simp only [State.evaluationsBy, State.put_shared, hLog]
    refine ⟨fun u e he hTake => ?_, fun u => by rw [hBy]; exact hR.again u⟩
    rw [hBy] at he
    refine (hR.still u e he hTake).elim (fun hOffer => ?_) (Or.inr ∘ hEnded)
    by_cases hut : u = t
    · subst hut
      rw [State.put_self]
      rcases h.offer_keep hOffer with hKeep | hMore | ⟨c, hPc⟩ | hEnd | ⟨hAborted, hTime⟩
      · exact Or.inl hKeep
      · exact absurd hLog hMore
      · exact Or.inr (hEnded (hT.ended hBefore u c hPc))
      · exact Or.inr (Or.inr ⟨u, by rwa [State.put_self]⟩)
      · exact absurd (hL.not_aborted h hAborted) hTime
    · rw [State.put_of_ne _ _ _ hut]
      exact Or.inl hOffer
  · have hOffer : (s.pc e.thread).offer = some e.offer := by rw [hPc]; rfl
    have hNotEnded : ¬ Ended s := fun hEnd =>
      hL.not_current_of_ended hEnd (Or.inr ⟨e.thread, by rw [hPc]; rfl⟩)
    refine ⟨fun u d hd hTake => ?_, fun u => ?_⟩
    · rw [State.evaluationsBy_put hLog] at hd
      split at hd
      · case isTrue hu =>
        subst hu
        obtain rfl : e = d := by simpa using hd
        refine Or.inl ?_
        rw [State.put_self, hPc']
        simp [Pc.offer, hTake]
      · case isFalse hu =>
        rw [State.put_of_ne _ _ _ (Ne.symm hu)]
        exact (hR.still u d hd hTake).imp id hEnded
    · rw [State.evaluationsBy_put hLog]
      split
      · case isTrue hu =>
        subst hu
        refine List.isChain_append.mpr ⟨hR.again e.thread, List.isChain_singleton _, ?_⟩
        intro d hd d' hd' hTake
        obtain rfl : e = d' := by simpa using hd'
        have hStill := (hR.still e.thread d hd hTake).resolve_right hNotEnded
        exact Option.some.inj (hOffer.symm.trans hStill)
      · exact hR.again u

theorem reoffered {ok : State P Trans → Nat × Label → Prop}
    (h : Runs.ReachableUnder (system P Trans) ok s) : (s.pc main).late = false → Reoffered s := by
  refine h.invariant_of (P := fun s => (s.pc main).late = false → Reoffered s) (fun _ => tracked) ?_ ?_
  · rintro _ rfl _
    exact reoffered_start
  · rintro s ⟨t, l⟩ _ hT hR _ ⟨hDoes⟩ hLate
    exact (hR (hDoes.late_put hLate).1).step hT hDoes hLate

end Protocol

end Concurrit.Model
