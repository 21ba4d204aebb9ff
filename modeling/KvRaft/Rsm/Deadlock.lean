import KvRaft.Lib.Run
import KvRaft.Rsm.Steps
import KvRaft.Service.Store
import Mathlib.Tactic.IntervalCases

/-!
# Sends under the mutex

The reader sends on the channel of a pending entry while it holds `rsm.mu`.
The send completes only if the call that owns the channel is still in its
`select`.  A call whose timer fired has left the `select` and needs the mutex
to go on, so a send to it never completes: the reader and the call wait for
each other, and nothing that needs the mutex happens any more.

* `submit_timeout_deadlocks` is a run in which this happens.
* `stuck_step` says that it is final: no step ever resolves it.
* `noDeadlock_of_timely` says when it does not happen.  The timer of a call
  must not fire while the reader holds the mutex and the call is pending, and
  the reader must not take the mutex while the entry of a call that has timed
  out is still in the map.
-/

namespace KvRaft

variable {n : Nat} {S Req Val D : Type}

/-- The runs of one replicated state machine, with arbitrary answers of Raft. -/
abbrev RsmRun (m : StateMachine S Req Val D) (me : Fin n) (snapshot : Option D) :=
  Run (Rsm.make m me snapshot) (Rsm.Step m)

/-- The call that owns the channel of the entry at `idx` is in its `select`. -/
def Rsm.Receivable (r : Rsm n S Req Val D) (idx : Nat) : Prop :=
  ∃ entry s index, r.pending.lookup idx = some entry ∧ r.submits entry.ch = some s ∧
    s.phase = .waiting index

/-- Whenever the reader is at a send, the owner of the channel is in its
`select`, and the send can complete. -/
def NoDeadlock {m : StateMachine S Req Val D} {me : Fin n} {snapshot : Option D}
    (run : RsmRun m me snapshot) : Prop :=
  ∀ t idx res, (run.state t).sending = some (idx, res) →
    (run.state t).Receivable idx ∧ ∀ leader, ((run.state t).send leader).isSome

/-! ## A run that deadlocks -/

/-- A call is logged, committed and applied, and its timer fires before the
reader comes to `notifyPending`. -/
def deadlockEvents : List (RsmEvent 3 Request Store) :=
  [.submit 0 7 (.put "x" "a" 0),
    .register 0 (some (1, 1)) (some node0),
    .receive (.command (some ⟨node0, 7, .put "x" "a" 0⟩) 1),
    .lockCommand,
    .doOp,
    .timeout 0,
    .notifyPending true]

/-- The run of `deadlockEvents`. -/
def deadlockRun : RsmRun Store.machine node0 none :=
  Run.ofEvents _ (Rsm.exec Store.machine) deadlockEvents

/-- After these events the reader is at a send to a call that has left its
`select`. -/
theorem submit_timeout_deadlocks : ¬ NoDeadlock deadlockRun := by
  intro h
  have hsend : (deadlockRun.state 7).sending = some (1, ⟨7, some (.put .ok)⟩) := by decide
  have hentry : (deadlockRun.state 7).pending.lookup 1 = some ⟨7, 1, 0⟩ := by decide
  have howner : (deadlockRun.state 7).submits 0 =
      some ⟨7, .put "x" "a" 0, false, .timedOut 1⟩ := by decide
  obtain ⟨⟨entry, s, index, he, hs, hphase⟩, _⟩ := h 7 1 _ hsend
  cases hentry.symm.trans he
  cases howner.symm.trans hs
  cases hphase

namespace Rsm

variable {m : StateMachine S Req Val D} {r r' : Rsm n S Req Val D}

/-! ## The deadlock is final -/

/-- The reader is at a send to a call that has timed out. -/
def Stuck (r : Rsm n S Req Val D) (idx call : Nat) : Prop :=
  (∃ res, r.sending = some (idx, res)) ∧
    (∃ entry, r.pending.lookup idx = some entry ∧ entry.ch = call) ∧
    ∃ s, r.submits call = some s ∧ s.phase = .timedOut idx

theorem locked_of_sending {idx : Nat} {res : Result Val} (h : r.sending = some (idx, res)) :
    r.locked = true := by
  rcases reader_cases_of_sending h with heq | ⟨_, _, _, _, heq⟩ <;> simp [locked, heq]

/-- While the reader is at a send, the reader can do nothing but complete it. -/
theorem reader_of_sending {idx : Nat} {res : Result Val} (h : r.sending = some (idx, res))
    {e : RsmEvent n Req D} (hexec : r.exec m e = some r') :
    r'.reader = r.reader ∨ ∃ leader, e = .send leader := by
  rcases exec_kinds hexec with hread | hcalls | hsend | ⟨hdrain, _⟩
  · -- The reader does something else only where it does not send.
    unfold sending at h
    cases hread <;> simp_all
  · exact Or.inl (exec_calls hcalls hexec).1
  · exact Or.inr hsend
  · rw [sending, hdrain] at h
    cases h

/-- No step of any goroutine resolves the deadlock. -/
theorem stuck_step {idx call : Nat} (h : r.Stuck idx call) (hstep : Rsm.Step m r r') :
    r'.Stuck idx call := by
  obtain ⟨⟨res, hsend⟩, ⟨entry, hentry, hch⟩, s, hs, hphase⟩ := h
  obtain ⟨e, hexec⟩ := hstep
  have hlocked := locked_of_sending hsend
  -- The send needs the owner in its `select`, and the owner has left it.
  have hnosend : ∀ leader, e ≠ .send leader := by
    rintro leader rfl
    simp [exec, send, hsend, hentry, hch, hs, hphase] at hexec
  have hreader := (reader_of_sending hsend hexec).resolve_right (not_exists.mpr hnosend)
  have hsend' : r'.sending = some (idx, res) := by
    rw [← hsend, sending, sending, hreader]
  -- A call that moves on from another phase is another call.
  have hkeep : ∀ {c s' phase phase'}, r.submits c = some s' → s'.phase = phase →
      phase ≠ .timedOut idx →
      ∃ s, (r.setPhase c s' phase').submits call = some s ∧ s.phase = .timedOut idx := by
    intro c s' phase phase' hs' hphase' hother
    have hne : call ≠ c := by
      rintro rfl
      cases hs.symm.trans hs'
      exact hother (hphase'.symm.trans hphase)
    exact ⟨s, (setPhase_of_ne r s' _ hne).trans hs, hphase⟩
  refine ⟨⟨res, hsend'⟩, ?_⟩
  cases exec_change hexec with
  | enter c id req hnone =>
    have hne : call ≠ c := fun heq => by rw [heq, hnone] at hs; cases hs
    exact ⟨⟨entry, hentry, hch⟩, s, by simp only [Function.update_of_ne hne]; exact hs, hphase⟩
  | refuse c s' leader hs' hphase' => exact ⟨⟨entry, hentry, hch⟩, hkeep hs' hphase' (by simp)⟩
  | register c s' index term hs' hphase' hfree => exact absurd hlocked (Bool.eq_false_iff.mp hfree)
  | timeout c s' index hs' hphase' => exact ⟨⟨entry, hentry, hch⟩, hkeep hs' hphase' (by simp)⟩
  | dump c s' index leader hs' hphase' hfree => exact absurd hlocked (Bool.eq_false_iff.mp hfree)
  | closed c s' index leader hs' hphase' _ =>
    exact ⟨⟨entry, hentry, hch⟩, hkeep hs' hphase' (by simp)⟩
  | leave c s' index answer hs' hphase' hfree => exact absurd hlocked (Bool.eq_false_iff.mp hfree)
  | read _ hread =>
    rw [hread.pending, hread.submits]
    exact ⟨⟨entry, hentry, hch⟩, s, hs, hphase⟩
  | send idx' res' entry' s' index leader hsend'' hentry' hs' hphase' =>
    rw [hsend] at hsend''
    cases hsend''
    cases hentry.symm.trans hentry'
    rw [hch, hs] at hs'
    cases hs'
    cases hphase.symm.trans hphase'
  | cleanup hdrain => simp [sending, hdrain] at hsend

/-! ## When it does not happen -/

/-- While the reader holds the mutex, every pending call is in its `select`. -/
structure SendOk (r : Rsm n S Req Val D) : Prop where
  pending : r.PendingOk
  closed : ∀ call s, r.submits call = some s → s.closed = true → r.reader = .stopped
  sending : ∀ idx res, r.sending = some (idx, res) → ∃ entry, r.pending.lookup idx = some entry
  waiting : r.locked = true → ∀ idx entry, r.pending.lookup idx = some entry →
    ∃ s, r.submits entry.ch = some s ∧ s.phase = .waiting idx

end Rsm

/-- The timers and the mutex keep out of each other's way. -/
structure Timely {m : StateMachine S Req Val D} {me : Fin n} {snapshot : Option D}
    (run : RsmRun m me snapshot) : Prop where
  /-- While the reader holds the mutex, no timer of a pending call fires. -/
  timeouts : ∀ t call s s' index, (run.state t).submits call = some s →
    s.phase = .waiting index → (run.state (t + 1)).submits call = some s' →
    s'.phase = .timedOut index → (run.state t).locked = true →
    ∀ idx entry, (run.state t).pending.lookup idx = some entry → entry.ch ≠ call
  /-- The reader takes the mutex when every pending call is in its `select`. -/
  locks : ∀ t, (run.state t).locked = false → (run.state (t + 1)).locked = true →
    ∀ idx entry s, (run.state t).pending.lookup idx = some entry →
      (run.state t).submits entry.ch = some s → s.phase = .waiting idx

namespace Rsm

variable {m : StateMachine S Req Val D} {r r' : Rsm n S Req Val D}

/-- A step of one call leaves the waiting owners of the other entries alone. -/
private theorem waiting_setPhase {call : Nat} {s : Submit n Req Val} {phase : Phase n Val}
    {idx : Nat} {entry : PendingEntry} (hne : entry.ch ≠ call)
    (h : ∃ s, r.submits entry.ch = some s ∧ s.phase = .waiting idx) :
    ∃ s', (r.setPhase call s phase).submits entry.ch = some s' ∧ s'.phase = .waiting idx := by
  obtain ⟨s', hs', hphase⟩ := h
  exact ⟨s', (setPhase_of_ne r s phase hne).trans hs', hphase⟩

/-- Closing the channels is the last thing the reader does. -/
theorem closed_change (hc : Change r r')
    (h : ∀ call s, r.submits call = some s → s.closed = true → r.reader = .stopped) :
    ∀ call s, r'.submits call = some s → s.closed = true → r'.reader = .stopped := by
  intro call s' hs' hclosed
  cases hc.call call with
  | same heq => exact hc.stopped (h call s' (heq.symm.trans hs') hclosed)
  | enter id req _ heq =>
    cases heq.symm.trans hs'
    cases hclosed
  | move s phase hs heq _ _ =>
    cases heq.symm.trans hs'
    exact hc.stopped (h call s hs hclosed)
  | close _ _ _ hstop => exact hstop

/-- A step keeps `SendOk` when it does not let a pending call time out under the
mutex and does not take the mutex while a pending call is out of its
`select`. -/
theorem SendOk.step (h : SendOk r) (hstep : Rsm.Step m r r')
    (htimeout : ∀ call s s' index, r.submits call = some s → s.phase = .waiting index →
      r'.submits call = some s' → s'.phase = .timedOut index → r.locked = true →
      ∀ idx entry, r.pending.lookup idx = some entry → entry.ch ≠ call)
    (hlock : r.locked = false → r'.locked = true → ∀ idx entry s,
      r.pending.lookup idx = some entry → r.submits entry.ch = some s →
        s.phase = .waiting idx) : SendOk r' := by
  obtain ⟨e, hexec⟩ := hstep
  have hc := exec_change hexec
  refine ⟨h.pending.change hc, closed_change hc h.closed, ?_, ?_⟩
  · -- Under the mutex an entry goes only by a send.
    intro idx res hsend
    have hlocked := locked_of_sending hsend
    cases hc with
    | enter call id req _ => exact h.sending idx res hsend
    | refuse call s leader _ _ => exact h.sending idx res hsend
    | register call s index term _ _ hfree => exact absurd hlocked (Bool.eq_false_iff.mp hfree)
    | timeout call s index _ _ => exact h.sending idx res hsend
    | dump call s index leader _ _ _ => exact h.sending idx res hsend
    | closed call s index leader _ _ _ => exact h.sending idx res hsend
    | leave call s index answer _ _ hfree => exact absurd hlocked (Bool.eq_false_iff.mp hfree)
    | read _ hread =>
      obtain ⟨entry, hentry⟩ := hread.sending idx res hsend
      exact ⟨entry, by rw [hread.pending]; exact hentry⟩
    | send idx' res' entry s index leader hsending _ _ _ =>
      rcases reader_cases_of_sending hsending with heq | ⟨_, _, _, _, heq⟩ <;>
        simp [Rsm.sending, afterSend, heq] at hsend
    | cleanup _ => cases hsend
  · intro hlocked
    cases hc with
    | enter call id req hnone =>
      intro idx entry hentry
      obtain ⟨s, hs, hphase⟩ := h.waiting hlocked idx entry hentry
      have hne : entry.ch ≠ call := fun heq => by rw [heq, hnone] at hs; cases hs
      exact ⟨s, by simp only [Function.update_of_ne hne]; exact hs, hphase⟩
    | refuse call s leader hs hphase =>
      intro idx entry hentry
      exact waiting_setPhase (h.pending.ne_of_index hs (by rw [hphase]; rfl) hentry)
        (h.waiting hlocked idx entry hentry)
    | register call s index term _ _ hfree => exact absurd hlocked (Bool.eq_false_iff.mp hfree)
    | timeout call s index hs hphase =>
      intro idx entry hentry
      exact waiting_setPhase (htimeout call s _ index hs hphase (setPhase_self ..) rfl hlocked
        idx entry hentry) (h.waiting hlocked idx entry hentry)
    | dump call s index leader _ _ hfree => exact absurd hlocked (Bool.eq_false_iff.mp hfree)
    | closed call s index leader hs _ hclosed =>
      have hfree : r.locked = false := by simp [locked, h.closed call s hs hclosed]
      exact absurd hlocked (Bool.eq_false_iff.mp hfree)
    | leave call s index answer _ _ hfree => exact absurd hlocked (Bool.eq_false_iff.mp hfree)
    | read _ hread =>
      intro idx entry hentry
      rw [hread.pending] at hentry
      rw [hread.submits]
      by_cases hold : r.locked = true
      · exact h.waiting hold idx entry hentry
      · obtain ⟨s, hs, _⟩ := h.pending idx entry hentry
        exact ⟨s, hs, hlock (by simpa using hold) hlocked idx entry s hentry hs⟩
    | send i res e s index leader hsending he hs hphase =>
      intro idx entry hentry
      obtain ⟨hidx, hentry⟩ := lookup_erase_some hentry
      have hne : entry.ch ≠ e.ch := fun hch => hidx (h.pending.index_eq hentry he hch)
      exact waiting_setPhase hne (h.waiting (locked_of_sending hsending) idx entry hentry)
    | cleanup _ => cases hlocked

theorem sendOk_make (m : StateMachine S Req Val D) (me : Fin n) (snapshot : Option D) :
    SendOk (make m me snapshot) := by
  refine ⟨fun idx entry h => ?_, fun call s h => ?_, fun idx res h => ?_, fun h => ?_⟩
  · rw [show (make m me snapshot).pending = ∅ from rfl, AList.lookup_empty] at h
    cases h
  · cases h
  · cases h
  · cases h

end Rsm

/-- When the timers keep out of the way of the mutex, every send of the reader
can complete. -/
theorem noDeadlock_of_timely {m : StateMachine S Req Val D} {me : Fin n} {snapshot : Option D}
    (run : RsmRun m me snapshot) (h : Timely run) : NoDeadlock run := by
  have hok : ∀ t, (run.state t).SendOk := by
    intro t
    induction t with
    | zero =>
      rw [run.start]
      exact Rsm.sendOk_make m me snapshot
    | succ t ih =>
      rcases run.next t with hstep | hsame
      · exact ih.step hstep (h.timeouts t) (h.locks t)
      · rw [hsame]
        exact ih
  intro t idx res hsend
  obtain ⟨entry, hentry⟩ := (hok t).sending idx res hsend
  obtain ⟨s, hs, hphase⟩ := (hok t).waiting (Rsm.locked_of_sending hsend) idx entry hentry
  refine ⟨⟨entry, s, idx, hentry, hs, hphase⟩, fun leader => ?_⟩
  simp [Rsm.send, hsend, hentry, hs, hphase]

/-- A call times out and leaves.  Then another one is logged at the same index in a
later term, and is answered in time. -/
def timelyEvents : List (RsmEvent 3 Request Store) :=
  [.submit 0 7 (.put "x" "a" 0),
    .register 0 (some (1, 1)) (some node0),
    .timeout 0,
    .dumpPending 0 (some node1),
    .leave 0,
    .submit 1 8 (.put "x" "b" 0),
    .register 1 (some (1, 3)) (some node0),
    .receive (.command (some ⟨node0, 8, .put "x" "b" 0⟩) 1),
    .lockCommand,
    .doOp,
    .notifyPending true,
    .send (some node0),
    .notifyOutdated 3 true,
    .endOutdated,
    .checkSnapshot,
    .leave 1]

/-- The run of `timelyEvents`. -/
def timelyRun : RsmRun Store.machine node0 none :=
  Run.ofEvents _ (Rsm.exec Store.machine) timelyEvents

theorem timelyRun_state {t : Nat} (h : 16 ≤ t) : timelyRun.state t = timelyRun.state 16 :=
  Run.ofEvents_state_of_le _ _ timelyEvents h

/-- There are two calls in this run. -/
theorem timelyRun_call {t call : Nat} {s : Submit 3 Request Reply}
    (h : (timelyRun.state t).submits call = some s) : call < 2 := by
  have hnone : ∀ k < 17, ∀ c, (timelyRun.state k).submits (c + 2) = none := by
    intro k hk c
    interval_cases k <;> rfl
  by_contra hge
  obtain ⟨c, rfl⟩ : ∃ c, call = c + 2 := ⟨call - 2, by omega⟩
  rcases Nat.lt_or_ge t 17 with hlt | hle
  · rw [hnone t hlt c] at h
    cases h
  · rw [timelyRun_state (by omega), hnone 16 (by decide) c] at h
    cases h

/-- Nobody times out in this run while the reader has the mutex. -/
theorem timelyRun_phase {t call : Nat} {s : Submit 3 Request Reply}
    (hlocked : (timelyRun.state t).locked = true)
    (hs : (timelyRun.state (t + 1)).submits call = some s) (index : Nat) :
    s.phase ≠ .timedOut index := by
  have hlt : t < 16 := by
    by_contra hge
    rw [timelyRun_state (by omega)] at hlocked
    exact absurd hlocked (by decide)
  have hall : ∀ t < 16, (timelyRun.state t).locked = true → ∀ call < 2,
      ∀ s ∈ (timelyRun.state (t + 1)).submits call, s.phase ∈
        [.waiting 1, .leaving 1 (.ok (some (.put .ok))), .returned (.wrongLeader (some node1))] :=
    by decide
  intro hphase
  have hmem := hall t hlt hlocked call (timelyRun_call hs) s hs
  rw [hphase] at hmem
  simp at hmem

theorem timelyRun_timely : Timely timelyRun := by
  refine ⟨fun t call s s' index _ _ hs' hphase hlocked => ?_, fun t hfree hlocked => ?_⟩
  · exact absurd hphase (timelyRun_phase hlocked hs' index)
  · -- The reader takes the mutex once, when the only pending call is waiting.
    have hlt : t < 16 := by
      by_contra hge
      rw [timelyRun_state (by omega), ← timelyRun_state (t := t) (by omega), hfree] at hlocked
      cases hlocked
    have hall : ∀ t < 16, (timelyRun.state t).locked = false →
        (timelyRun.state (t + 1)).locked = true → ∀ e ∈ (timelyRun.state t).pending.entries,
          ∀ s ∈ (timelyRun.state t).submits e.2.ch, s.phase = .waiting e.1 := by decide
    intro idx entry s hentry hs
    exact hall t hlt hfree hlocked ⟨idx, entry⟩ (AList.mem_lookup_iff.mp hentry) s hs

/-- In the run of `timelyEvents` one call times out, one gets its result, and every
send completes. -/
theorem noDeadlock_timelyRun : ((timelyRun.state 3).submits 0).map Submit.phase =
      some (.timedOut 1) ∧
    ((timelyRun.state 16).submits 1).map Submit.phase =
      some (.returned (.ok (some (.put .ok)))) ∧
    Timely timelyRun ∧ NoDeadlock timelyRun :=
  ⟨by decide, by decide, timelyRun_timely, noDeadlock_of_timely timelyRun timelyRun_timely⟩

end KvRaft
