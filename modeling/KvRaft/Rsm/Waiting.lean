import KvRaft.Rsm.Deadlock

/-!
# Calls that wait for a result

The pending map has one place for each log index.  A node that was the leader
before, lost its log from some index on and is the leader again gives the same
index to a second call while the first one may still wait.  The second call
takes the place of the first, and when the first one times out, its deferred
`delete(rsm.pending, index)` removes the entry of the second.

* `NoLostResult` is what a waiting call may expect.
* `noLostResult_of_exclusive` says when it holds: a call registers at an index
  only when the calls that were registered there have returned, and no timer
  fires while the reader is at the send to its call.

The first of the two is not something that the code provides, see
`KvRaft.System.Pending`.  The second is the one of `KvRaft.Rsm.Deadlock`, for
the send of one result.
-/

namespace KvRaft

variable {n : Nat} {S Req Val D : Type} {m : StateMachine S Req Val D}
variable {me : Fin n} {snapshot : Option D}

/-- Call `call` has the result `res`, or the reader is at the send that gives it
the result, and the send can complete. -/
inductive Rsm.Served (r : Rsm n S Req Val D) (call index : Nat) (res : Result Val) : Prop where
  | sending (sub : Submit n Req Val) (hsub : r.submits call = some sub) (hid : sub.id = res.id)
      (hphase : sub.phase = .waiting index) (hsending : r.sending = some (index, res))
      (hsend : ∀ leader, ∃ r', r.send leader = some r' ∧
        r'.submits call = some { sub with phase := .leaving index (.ok res.val) })
  | received (sub : Submit n Req Val) (hsub : r.submits call = some sub)
      (hphase : sub.phase = .leaving index (.ok res.val) ∨ sub.phase = .returned (.ok res.val))

/-- What a waiting call may expect. -/
structure NoLostResult (run : RsmRun m me snapshot) : Prop where
  /-- When the operation of a waiting call has been applied at its index, and
  the node is the leader in `notifyPending`, the call gets the result. -/
  delivered : ∀ {t u op index val call sub}, (run.state t).reader = .applied op index val →
    (run.state t).notifyPending true = some (run.state (t + 1)) →
    (run.state t).submits call = some sub → sub.id = op.id → sub.phase = .waiting index →
    t < u → (run.state u).Served call index ⟨op.id, some val⟩
  /-- An entry goes when the reader sends on its channel or closes it, or when
  the call that made it returns. -/
  kept : ∀ {t index entry}, (run.state t).pending.lookup index = some entry →
    (run.state (t + 1)).pending.lookup index ≠ some entry →
      (∃ res, (run.state t).sending = some (index, res)) ∨ (run.state t).reader = .draining ∨
      ∃ sub answer, (run.state t).submits entry.ch = some sub ∧
        sub.phase = .leaving index answer ∧
        (run.state (t + 1)).submits entry.ch = some { sub with phase := .returned answer }

/-- Ids are drawn at random, and are taken to be distinct and different from
`-1`. -/
structure DistinctSubmits (run : RsmRun m me snapshot) : Prop where
  inj : ∀ {t c c' s s'}, (run.state t).submits c = some s → (run.state t).submits c' = some s' →
    s.id = s'.id → c = c'
  ne : ∀ {t c s}, (run.state t).submits c = some s → s.id ≠ -1

/-- A call that registers from `r` to `r'` does so at an index at which no call is
registered. -/
def Rsm.RegistersAlone (r r' : Rsm n S Req Val D) : Prop :=
  ∀ {call index s s'}, r.submits call = some s → s.phase = .entering →
    r'.submits call = some s' → s'.phase = .waiting index →
    ∀ c sub, r.submits c = some sub → sub.phase.index ≠ some index

/-- A call has its index for itself, and the time to take its result. -/
structure Exclusive (run : RsmRun m me snapshot) : Prop where
  alone : ∀ t, (run.state t).RegistersAlone (run.state (t + 1))
  /-- While the reader is at the send to a waiting call, its timer does not fire. -/
  timeouts : ∀ {t call index res s s'}, (run.state t).sending = some (index, res) →
    (run.state t).submits call = some s → s.phase = .waiting index →
    (run.state (t + 1)).submits call = some s' → s'.phase ≠ .timedOut index

namespace Rsm

variable {r r' : Rsm n S Req Val D}

/-! ## One call for each index -/

/-- A call that is registered was registered before, or it is the one call that
registers in this step. -/
theorem Change.registered (hc : Change r r') {call index : Nat} {s' : Submit n Req Val}
    (hs' : r'.submits call = some s') (hindex : s'.phase.index = some index) :
    (∃ s, r.submits call = some s ∧ s.phase.index = some index) ∨
      (∃ s, r.submits call = some s ∧ s.phase = .entering) ∧ s'.phase = .waiting index ∧
        ∀ c ≠ call, r'.submits c = r.submits c := by
  cases hc.call call with
  | same h => exact Or.inl ⟨s', h.symm.trans hs', hindex⟩
  | enter id req _ h =>
    cases h.symm.trans hs'
    cases hindex
  | move s phase hs h hmove hothers =>
    cases h.symm.trans hs'
    cases hmove with
    | register i hentering =>
      cases hindex
      exact Or.inr ⟨⟨s, hs, hentering⟩, rfl, hothers⟩
    | refuse | leave => cases hindex
    -- The others stay at their index.
    | timeout i hphase | dump i _ hphase | closed i _ hphase | send _ _ _ i _ _ _ _ hphase =>
      exact Or.inl ⟨s, hs, by rw [hphase]; exact hindex⟩
  | close s hs h _ =>
    cases h.symm.trans hs'
    exact Or.inl ⟨s, hs, hindex⟩

theorem running_of_sending {index : Nat} {res : Result Val} (h : r.sending = some (index, res)) :
    r.reader ≠ .stopped := by
  intro hstop
  rw [sending, hstop] at h
  cases h

/-- What `Exclusive` keeps: every index belongs to one call, and the entry of a
waiting call is in the map until the reader has ended. -/
structure Registered (r : Rsm n S Req Val D) : Prop where
  pending : r.PendingOk
  closed : ∀ call s, r.submits call = some s → s.closed = true → r.reader = .stopped
  unique : ∀ {c c' s s' index}, r.submits c = some s → r.submits c' = some s' →
    s.phase.index = some index → s'.phase.index = some index → c = c'
  entry : r.reader ≠ .stopped → ∀ {call s index}, r.submits call = some s →
    s.phase = .waiting index → ∃ entry, r.pending.lookup index = some entry ∧ entry.ch = call

theorem registered_make (m : StateMachine S Req Val D) (me : Fin n) (snapshot : Option D) :
    Registered (make m me snapshot) := by
  refine ⟨(sendOk_make m me snapshot).pending, (sendOk_make m me snapshot).closed, ?_, ?_⟩
  · intro c c' s s' index hs
    cases hs
  · intro _ call s index hs
    cases hs

/-- The calls that wait after a step have their entries, when a call that
registers has its index for itself. -/
theorem Registered.entry_change (h : Registered r) (hc : Change r r')
    (halone : r.RegistersAlone r') (hrunning : r'.reader ≠ .stopped) {call index : Nat}
    {s' : Submit n Req Val}
    (hs' : r'.submits call = some s') (hwait : s'.phase = .waiting index) :
    ∃ entry, r'.pending.lookup index = some entry ∧ entry.ch = call := by
  cases hc with
  | enter c id req hnone =>
    by_cases hcall : call = c
    · subst hcall
      simp only [Function.update_self] at hs'
      cases hs'
      cases hwait
    · simp only [Function.update_of_ne hcall] at hs'
      exact h.entry hrunning hs' hwait
  | refuse | timeout | dump | closed =>
    -- The call was in its `select` before.
    obtain ⟨s, hs, hphase⟩ := phase_of_setPhase hs' hwait (by simp)
    exact h.entry hrunning hs hphase
  | register c s i term hs hentering _ =>
    have hfree := halone hs hentering (setPhase_self ..) rfl
    rcases setPhase_eq_some hs' with ⟨rfl, rfl⟩ | hold
    · cases hwait
      exact ⟨_, AList.lookup_insert _, rfl⟩
    · obtain ⟨entry, hentry, hch⟩ := h.entry hrunning hold hwait
      have hne : index ≠ i := by
        rintro rfl
        exact hfree call s' hold (by rw [hwait]; rfl)
      exact ⟨entry, (AList.lookup_insert_ne hne).trans hentry, hch⟩
  | leave c s i answer hs hphase _ =>
    -- A call that waits at the index would be the one that leaves.
    obtain ⟨s₀, hs₀, hphase₀⟩ := phase_of_setPhase hs' hwait (by simp)
    obtain ⟨entry, hentry, hch⟩ := h.entry hrunning hs₀ hphase₀
    have hne : index ≠ i := by
      rintro rfl
      cases h.unique hs₀ hs (by rw [hphase₀]; rfl) (by rw [hphase]; rfl)
      cases hs₀.symm.trans hs
      cases hphase₀.symm.trans hphase
    exact ⟨entry, (AList.lookup_erase_ne hne).trans hentry, hch⟩
  | read _ hread =>
    rw [hread.submits] at hs'
    rw [hread.pending]
    exact h.entry hread.running hs' hwait
  | send i res e s index' leader hsending he hs hphase =>
    by_cases hcall : call = e.ch
    · subst hcall
      cases (setPhase_self r e.ch s _).symm.trans hs'
      cases hwait
    · have hs₀ := (setPhase_of_ne r s _ hcall).symm.trans hs'
      obtain ⟨entry, hentry, hch⟩ := h.entry (running_of_sending hsending) hs₀ hwait
      have hne : index ≠ i := by
        rintro rfl
        cases hentry.symm.trans he
        exact hcall hch.symm
      exact ⟨entry, (AList.lookup_erase_ne hne).trans hentry, hch⟩
  | cleanup _ => exact absurd rfl hrunning

theorem Registered.change (h : Registered r) (hc : Change r r') (halone : r.RegistersAlone r') :
    Registered r' := by
  refine ⟨h.pending.change hc, closed_change hc h.closed, ?_,
    fun hrunning => h.entry_change hc halone hrunning⟩
  intro c c' s s' index hs hs' hi hi'
  rcases hc.registered hs hi with ⟨s₀, hs₀, hi₀⟩ | ⟨⟨s₀, hs₀, hentering⟩, hwait, hother⟩
  · rcases hc.registered hs' hi' with ⟨s₀', hs₀', hi₀'⟩ | ⟨⟨s₀', hs₀', hentering⟩, hwait, _⟩
    · exact h.unique hs₀ hs₀' hi₀ hi₀'
    · exact absurd hi₀ (halone hs₀' hentering hs' hwait c s₀ hs₀)
  · by_contra hne
    have hs₀' := (hother c' (Ne.symm hne)).symm.trans hs'
    exact halone hs₀ hentering hs hwait c' s' hs₀' hi'

/-! ## The result of a waiting call -/

/-- A send to a waiting call can complete. -/
theorem Registered.served (h : Registered r) {call index : Nat} {res : Result Val}
    {sub : Submit n Req Val} (hsub : r.submits call = some sub) (hid : sub.id = res.id)
    (hphase : sub.phase = .waiting index) (hsending : r.sending = some (index, res)) :
    r.Served call index res := by
  refine .sending sub hsub hid hphase hsending fun leader => ?_
  obtain ⟨entry, hentry, rfl⟩ := h.entry (running_of_sending hsending) hsub hphase
  have hexec : r.send leader = some { r.setPhase entry.ch sub (.leaving index (.ok res.val)) with
      pending := r.pending.erase index
      reader := r.afterSend } := by
    simp [send, hsending, hentry, hsub, hphase, hid]
  exact ⟨_, hexec, setPhase_self ..⟩

/-- A call that has its result keeps it. -/
theorem Change.received (hc : Change r r') {call index : Nat} {val : Option Val}
    {sub : Submit n Req Val} (hsub : r.submits call = some sub)
    (hphase : sub.phase = .leaving index (.ok val) ∨ sub.phase = .returned (.ok val)) :
    ∃ sub', r'.submits call = some sub' ∧
      (sub'.phase = .leaving index (.ok val) ∨ sub'.phase = .returned (.ok val)) := by
  cases hc.call call with
  | same h => exact ⟨sub, h.trans hsub, hphase⟩
  | enter id req hnone _ =>
    rw [hnone] at hsub
    cases hsub
  | move s phase hs h hmove _ =>
    cases hsub.symm.trans hs
    refine ⟨_, h, Or.inr ?_⟩
    cases hmove with
    | leave i answer hleaving =>
      rcases hphase with hphase | hphase <;> cases hleaving.symm.trans hphase
      rfl
    | refuse _ hp | register _ hp | timeout _ hp | dump _ _ hp | closed _ _ hp
    | send _ _ _ _ _ _ _ _ hp =>
      rcases hphase with hphase | hphase <;> cases hp.symm.trans hphase
  | close s hs h _ =>
    cases hsub.symm.trans hs
    exact ⟨_, h, hphase⟩

/-- A waiting call leaves its `select` only by the send at which the reader is,
when its timer does not fire. -/
theorem Registered.waiting_change (hr : Registered r) (hc : Change r r') {call index : Nat}
    {res : Result Val} {sub : Submit n Req Val} (hsending : r.sending = some (index, res))
    (hsub : r.submits call = some sub) (hphase : sub.phase = .waiting index)
    (hreader : r'.reader = r.reader)
    (htimeout : ∀ {s'}, r'.submits call = some s' → s'.phase ≠ .timedOut index) :
    r'.submits call = some sub := by
  cases hc.call call with
  | same h => exact h.trans hsub
  | enter id req hnone _ =>
    rw [hnone] at hsub
    cases hsub
  | move s phase hs h hmove _ =>
    cases hsub.symm.trans hs
    cases hmove with
    | timeout i hp =>
      cases hphase.symm.trans hp
      exact absurd rfl (htimeout h)
    | closed i leader _ hclosed =>
      exact absurd (hr.closed call sub hsub hclosed) (running_of_sending hsending)
    | send i res' e index' leader _ _ _ _ hafter =>
      rw [hreader] at hafter
      rcases reader_cases_of_sending hsending with heq | ⟨_, _, _, _, heq⟩ <;>
        simp [afterSend, heq] at hafter
    | refuse _ hp | register _ hp | dump _ _ hp | leave _ _ hp => cases hphase.symm.trans hp
  | close s _ _ hstop =>
    rw [hreader] at hstop
    exact absurd hstop (running_of_sending hsending)

/-- A call stays served, when its timer does not fire at the send. -/
theorem Served.step {call index : Nat} {res : Result Val} (h : r.Served call index res)
    (hr : Registered r) (hr' : Registered r') (hstep : Rsm.Step m r r')
    (htimeout : ∀ {s s'}, r.sending = some (index, res) → r.submits call = some s →
      s.phase = .waiting index → r'.submits call = some s' → s'.phase ≠ .timedOut index) :
    r'.Served call index res := by
  obtain ⟨e, hexec⟩ := hstep
  cases h with
  | received sub hsub hphase =>
    obtain ⟨sub', hsub', hphase'⟩ := (exec_change hexec).received hsub hphase
    exact .received sub' hsub' hphase'
  | sending sub hsub hid hphase hsending hsend =>
    rcases reader_of_sending hsending hexec with hreader | ⟨leader, rfl⟩
    · have hsending' : r'.sending = some (index, res) := by
        rw [← hsending, Rsm.sending, Rsm.sending, hreader]
      have hsub' := hr.waiting_change (exec_change hexec) hsending hsub hphase hreader
        (htimeout hsending hsub hphase)
      exact hr'.served hsub' hid hphase hsending'
    · obtain ⟨r₁, hr₁, hsub₁⟩ := hsend leader
      cases hr₁.symm.trans hexec
      exact .received _ hsub₁ (Or.inl rfl)

/-- An entry goes by a send, with all entries at the end, or with its call. -/
theorem Registered.kept (h : Registered r) (hc : Change r r') (halone : r.RegistersAlone r')
    {index : Nat} {entry : PendingEntry} (hentry : r.pending.lookup index = some entry)
    (hgone : r'.pending.lookup index ≠ some entry) :
    (∃ res, r.sending = some (index, res)) ∨ r.reader = .draining ∨
      ∃ sub answer, r.submits entry.ch = some sub ∧ sub.phase = .leaving index answer ∧
        r'.submits entry.ch = some { sub with phase := .returned answer } := by
  obtain ⟨sub, hsub, _, hindex⟩ := h.pending index entry hentry
  cases hc with
  | enter | refuse | timeout | dump | closed => exact absurd hentry hgone
  | register c s i term hs hentering _ =>
    have hne : index ≠ i := by
      rintro rfl
      exact halone hs hentering (setPhase_self ..) rfl entry.ch sub hsub hindex
    exact absurd ((AList.lookup_insert_ne hne).trans hentry) hgone
  | leave c s i answer hs hphase _ =>
    by_cases hi : index = i
    · subst hi
      cases h.unique hsub hs hindex (by rw [hphase]; rfl)
      exact Or.inr (Or.inr ⟨s, answer, hs, hphase, setPhase_self ..⟩)
    · exact absurd ((AList.lookup_erase_ne hi).trans hentry) hgone
  | read _ hread => exact absurd (by rw [hread.pending]; exact hentry) hgone
  | send i res e s index' leader hsending _ _ _ =>
    by_cases hi : index = i
    · exact Or.inl ⟨res, by rw [hi]; exact hsending⟩
    · exact absurd ((AList.lookup_erase_ne hi).trans hentry) hgone
  | cleanup hdrain => exact Or.inr (Or.inl hdrain)

end Rsm

theorem Exclusive.registered {run : RsmRun m me snapshot} (h : Exclusive run) (t : Nat) :
    (run.state t).Registered := by
  induction t with
  | zero =>
    rw [run.start]
    exact Rsm.registered_make m me snapshot
  | succ t ih =>
    rcases run.next t with ⟨e, hexec⟩ | hsame
    · exact ih.change (Rsm.exec_change hexec) (h.alone t)
    · rw [hsame]
      exact ih

/-- The reader goes from `notifyPending` to the send on the entry of the call. -/
theorem Exclusive.served {run : RsmRun m me snapshot} (h : Exclusive run) {t : Nat}
    {op : Op n Req} {index call : Nat} {val : Val} {sub : Submit n Req Val}
    (hreader : (run.state t).reader = .applied op index val)
    (hnotify : (run.state t).notifyPending true = some (run.state (t + 1)))
    (hsub : (run.state t).submits call = some sub) (hid : sub.id = op.id)
    (hphase : sub.phase = .waiting index) :
    (run.state (t + 1)).Served call index ⟨op.id, some val⟩ := by
  obtain ⟨entry, hentry, rfl⟩ := (h.registered t).entry (by simp [hreader]) hsub hphase
  obtain ⟨sub', hsub', hentryid, _⟩ := (h.registered t).pending index entry hentry
  cases hsub.symm.trans hsub'
  have heq : run.state (t + 1) =
      { run.state t with reader := .notifying index ⟨op.id, some val⟩ } := by
    simp only [Rsm.notifyPending, hreader, hentry, ← hentryid, hid, and_self, if_true] at hnotify
    exact (Option.some.inj hnotify).symm
  have hregistered := h.registered (t + 1)
  rw [heq] at hregistered ⊢
  exact hregistered.served hsub hid hphase rfl

/-- When every call has its index for itself and the time to take its result, no
result is lost. -/
theorem noLostResult_of_exclusive (run : RsmRun m me snapshot) (h : Exclusive run) :
    NoLostResult run := by
  constructor
  · intro t u op index val call sub hreader hnotify hsub hid hphase hlt
    induction u, hlt using Nat.le_induction with
    | base => exact h.served hreader hnotify hsub hid hphase
    | succ u _ ih =>
      rcases run.next u with hstep | hsame
      · exact ih.step (h.registered u) (h.registered (u + 1)) hstep h.timeouts
      · rw [hsame]
        exact ih
  · intro t index entry hentry hgone
    rcases run.next t with ⟨e, hexec⟩ | hsame
    · exact (h.registered t).kept (Rsm.exec_change hexec) (h.alone t) hentry hgone
    · rw [hsame] at hgone
      exact absurd hentry hgone

theorem timelyRun_exclusive : Exclusive timelyRun := by
  constructor
  · intro t call index s s' hs hentering _ _ c sub hsub hindex
    -- When a call registers, the other one is not there or has returned.
    have hall : ∀ t < 17, ∀ call < 2, ∀ s ∈ (timelyRun.state t).submits call,
        s.phase = .entering → ∀ c < 2, ∀ sub ∈ (timelyRun.state t).submits c,
          sub.phase.index = none := by decide
    have hnone : sub.phase.index = none := by
      rcases Nat.lt_or_ge t 17 with hlt | hge
      · exact hall t hlt call (timelyRun_call hs) s hs hentering c (timelyRun_call hsub) sub hsub
      · have hstate := timelyRun_state (Nat.le_of_succ_le hge)
        rw [hstate] at hs hsub
        exact hall 16 (by decide) call (timelyRun_call hs) s hs hentering c (timelyRun_call hsub)
          sub hsub
    rw [hnone] at hindex
    cases hindex
  · intro t call index res s s' hsending _ _ hs'
    exact timelyRun_phase (Rsm.locked_of_sending hsending) hs' index

/-- In the run of `timelyEvents` the index of a call that has left is used again, and
no result is lost. -/
theorem noLostResult_timelyRun :
    ((timelyRun.state 2).submits 0).map Submit.phase = some (.waiting 1) ∧
    ((timelyRun.state 7).submits 1).map Submit.phase = some (.waiting 1) ∧
    Exclusive timelyRun ∧ NoLostResult timelyRun :=
  ⟨by decide, by decide, timelyRun_exclusive,
    noLostResult_of_exclusive timelyRun timelyRun_exclusive⟩

end KvRaft
