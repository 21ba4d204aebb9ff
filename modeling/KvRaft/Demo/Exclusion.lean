import KvRaft.Demo.Lock
import KvRaft.Service.Versions

/-!
# Leases exclude each other

No two instances of the demo work at the same time with a lease that is not over
(`lease_exclusive`), whatever happens to the nodes, the network and the clerks, and
an instance is turned away only by a lease that is not over (`refused_of_lease`).
A lease is over when some clock shows a later time, so the first result depends on
how far the clocks of the instances are apart.

* `LockOk` is the invariant of the instances: every `Put` on the lock was made by
  one of them, for a reason that it had read.
* What an instance has read has a version, and the version says what the value was
  (`KvRaft.Service.Versions`).
* So the first `Put` that succeeds after an instance has acquired the lock was
  made by somebody who had read the value of that instance.  It was the instance
  itself, to release the lock, or the lease was over on a clock
  (`LockRun.expired_of_lt`).
-/

namespace KvRaft.Demo

open Consensus

variable {n m : Nat}

/-! ## The instances over time -/

section Instances

variable {ids : Fin m → String} {seen seen' : Set Int64} {s s' : Lock n m}

/-- The call `get` is one of `clerk.get(LOCK_KEY)`. -/
def Lock.HasGet (s : Lock n m) (get : Nat) : Prop :=
  ∃ g, s.clerks.gets[get]? = some g ∧ g.key = lockKey

/-- A call of `clerk.get(LOCK_KEY)` has returned `result`. -/
def Lock.HasRead (s : Lock n m) (result : String × UInt64 × Err) : Prop :=
  ∃ (get : Nat) (g : GetCall n), s.clerks.gets[get]? = some g ∧ g.key = lockKey ∧
    g.result = some result

/-- The call `put` is one of `clerk.put(LOCK_KEY, value, ...)`. -/
def Lock.HasPut (s : Lock n m) (put : Nat) (value : String) : Prop :=
  ∃ p version, s.clerks.clients.puts[put]? = some p ∧ p.request = .put lockKey value version

/-- Why a call of `clerk.put(LOCK_KEY, value, version)` was made, where `seen` are
the times that the clocks have shown. -/
inductive Intent (ids : Fin m → String) (seen : Set Int64) (s : Lock n m) (value : String)
    (version : UInt64) : Prop where
  | acquire (i : Fin m) (currentTime : Int64) (result : String × UInt64 × Err)
      (hread : s.HasRead result) (htime : currentTime ∈ seen)
      (hacquire : acquire currentTime result = some version)
      (hvalue : value = lockValue (ids i) (currentTime + leaseDuration))
  | release (i : Fin m) (result : String × UInt64 × Err) (hread : s.HasRead result)
      (hleft : (s.phase i).left = true) (hrelease : release (ids i) result = some version)
      (hvalue : value = unlockedValue)

/-- What an instance knows. -/
def Knows (ids : Fin m → String) (seen : Set Int64) (s : Lock n m) (i : Fin m) : Phase → Prop
  | .waiting | .releasing _ | .finished => True
  | .reading get | .checking get => s.HasGet get
  | .deciding get currentTime => s.HasGet get ∧ currentTime ∈ seen
  | .acquiring put expireTime => s.HasPut put (lockValue (ids i) expireTime)
  | .working expireTime => ∃ (put : Nat) (p : PutCall n) (version : UInt64),
      s.clerks.clients.puts[put]? = some p ∧
        p.request = .put lockKey (lockValue (ids i) expireTime) version ∧ p.result = some .ok

/-- The invariant of the instances. -/
structure LockOk (ids : Fin m → String) (seen : Set Int64) (s : Lock n m) : Prop where
  puts : ∀ {put : Nat} {p : PutCall n} {value : String} {version : UInt64},
    s.clerks.clients.puts[put]? = some p → p.request = .put lockKey value version →
    Intent ids seen s value version
  phases : ∀ i, Knows ids seen s i (s.phase i)

/-- A later state of the same instances. -/
structure LockLe (s s' : Lock n m) : Prop where
  clerks : ClerksLe s.clerks s'.clerks
  left : ∀ i, (s.phase i).left = true → (s'.phase i).left = true

theorem Lock.HasGet.mono {get : Nat} (h : s.HasGet get) (hle : LockLe s s') : s'.HasGet get := by
  obtain ⟨g, hg, hkey⟩ := h
  obtain ⟨g', hg', hkey', _⟩ := hle.clerks.gets hg
  exact ⟨g', hg', hkey'.trans hkey⟩

theorem Lock.HasRead.mono {result : String × UInt64 × Err} (h : s.HasRead result)
    (hle : LockLe s s') : s'.HasRead result := by
  obtain ⟨get, g, hg, hkey, hresult⟩ := h
  obtain ⟨g', hg', hkey', hresult'⟩ := hle.clerks.gets hg
  exact ⟨get, g', hg', hkey'.trans hkey, hresult' _ hresult⟩

theorem Lock.HasGet.read {get : Nat} {result : String × UInt64 × Err} (h : s.HasGet get)
    (hread : s.Read get result) : s.HasRead result := by
  obtain ⟨g, hg, hkey⟩ := h
  obtain ⟨g', hg', hresult⟩ := hread
  cases hg.symm.trans hg'
  exact ⟨get, g, hg, hkey, hresult⟩

theorem Intent.mono {value : String} {version : UInt64} (h : Intent ids seen s value version)
    (hseen : seen ⊆ seen') (hle : LockLe s s') : Intent ids seen' s' value version := by
  cases h with
  | acquire i currentTime result hread htime hacquire hvalue =>
    exact .acquire i currentTime result (hread.mono hle) (hseen htime) hacquire hvalue
  | release i result hread hleft hrelease hvalue =>
    exact .release i result (hread.mono hle) (hle.left i hleft) hrelease hvalue

theorem Knows.mono {i : Fin m} {phase : Phase} (h : Knows ids seen s i phase)
    (hseen : seen ⊆ seen') (hle : LockLe s s') : Knows ids seen' s' i phase := by
  cases phase with
  | waiting | releasing | finished => trivial
  | reading get => exact Lock.HasGet.mono h hle
  | checking get => exact Lock.HasGet.mono h hle
  | deciding get currentTime => exact ⟨Lock.HasGet.mono h.1 hle, hseen h.2⟩
  | acquiring put expireTime =>
    obtain ⟨p, version, hp, hreq⟩ := h
    obtain ⟨p', hp', hreq', _⟩ := hle.clerks.puts hp
    exact ⟨p', version, hp', hreq'.trans hreq⟩
  | working expireTime =>
    obtain ⟨put, p, version, hp, hreq, hresult⟩ := h
    obtain ⟨p', hp', hreq', hresult'⟩ := hle.clerks.puts hp
    exact ⟨put, p', version, hp', hreq'.trans hreq, hresult' _ hresult⟩

/-- An instance that has left the lock does not come back. -/
theorem Moves.left {i : Fin m} {phase : Phase} (h : Moves s i phase)
    (hleft : (s.phase i).left = true) : phase.left = true := by
  cases h with
  | look hphase | refused hphase | acquired hphase | failed hphase | skipped hphase =>
    rw [hphase] at hleft
    cases hleft
  | released => rfl

theorem LockStep.le (h : LockStep ids s s') : LockLe s s' := by
  -- Only instance `i` changes its phase, and it has not left the lock.
  have hupdate : ∀ {i : Fin m} {phase : Phase}, s'.phase = Function.update s.phase i phase →
      ((s.phase i).left = true → phase.left = true) →
      ∀ j, (s.phase j).left = true → (s'.phase j).left = true := by
    intro i phase heq hi j hj
    rw [heq]
    by_cases hji : j = i
    · subst hji
      rw [Function.update_self]
      exact hi hj
    · rwa [Function.update_of_ne hji]
  cases h with
  | clerk e hlocks hexec hphase =>
    exact ⟨clerksLe_of_step ⟨e, hexec⟩, fun i hi => by rwa [hphase]⟩
  | tick hclerks hphase => exact ⟨hclerks ▸ .refl _, fun i hi => by rwa [hphase]⟩
  | move i phase hmove hs =>
    subst hs
    exact ⟨.refl _, hupdate rfl hmove.left⟩
  | get i srv phase hfrom hs =>
    obtain ⟨hexec, hphase⟩ := Lock.get_inv hs
    refine ⟨clerksLe_of_step ⟨_, hexec⟩, hupdate hphase fun hleft => ?_⟩
    rcases hfrom with ⟨hwait, _⟩ | ⟨⟨_, hwork⟩, _⟩
    · rw [hwait] at hleft
      cases hleft
    · rw [hwork] at hleft
      cases hleft
  | put i srv value version phase hputs hs =>
    obtain ⟨hexec, hphase⟩ := Lock.put_inv hs
    refine ⟨clerksLe_of_step ⟨_, hexec⟩, hupdate hphase fun hleft => ?_⟩
    cases hputs with
    | acquire hdeciding => rw [hdeciding] at hleft; cases hleft
    | release hchecking => rw [hchecking] at hleft; cases hleft

/-- Phases that stay, and one that changes. -/
theorem LockOk.phases_update {i : Fin m} {phase : Phase} (h : LockOk ids seen s)
    (hseen : seen ⊆ seen') (hle : LockLe s s')
    (heq : s'.phase = Function.update s.phase i phase) (hi : Knows ids seen' s' i phase)
    (j : Fin m) : Knows ids seen' s' j (s'.phase j) := by
  rw [heq]
  by_cases hji : j = i
  · subst hji
    rwa [Function.update_self]
  · rw [Function.update_of_ne hji]
    exact (h.phases j).mono hseen hle

theorem LockOk.move {i : Fin m} {phase : Phase} (h : LockOk ids seen s) (hmove : Moves s i phase)
    (hseen : seen ⊆ seen') (hnow : s.now i ∈ seen') (hle : LockLe s s') :
    Knows ids seen' s' i phase := by
  have hi := h.phases i
  cases hmove with
  | look hphase =>
    rw [hphase] at hi
    exact ⟨Lock.HasGet.mono hi hle, hnow⟩
  | @acquired put expireTime p hphase hp hresult =>
    rw [hphase] at hi
    obtain ⟨p', version, hp', hreq⟩ := hi
    cases hp.symm.trans hp'
    have hworks : Knows ids seen s i (.working expireTime) :=
      ⟨put, p, version, hp, hreq, hresult⟩
    exact hworks.mono hseen hle
  | refused | failed | skipped | released => trivial

theorem LockOk.intent {i : Fin m} {value : String} {version : UInt64} {phase : Nat → Phase}
    (h : LockOk ids seen s) (hputs : Puts ids s i value version phase) (hseen : seen ⊆ seen')
    (hle : LockLe s s') {put : Nat}
    (hphase : s'.phase = Function.update s.phase i (phase put)) :
    Intent ids seen' s' value version := by
  have hi := h.phases i
  cases hputs with
  | acquire hdeciding hread hacquire =>
    rw [hdeciding] at hi
    exact .acquire i _ _ ((hi.1.read hread).mono hle) (hseen hi.2) hacquire rfl
  | release hchecking hread hrelease =>
    rw [hchecking] at hi
    refine .release i _ ((Lock.HasGet.read hi hread).mono hle) ?_ hrelease rfl
    rw [hphase, Function.update_self]
    rfl

theorem LockOk.step (h : LockOk ids seen s) (hstep : LockStep ids s s') (hseen : seen ⊆ seen')
    (hnow : ∀ i, s.now i ∈ seen') : LockOk ids seen' s' := by
  have hle := hstep.le
  -- A `Put` on the lock that is not new.
  have hold : ∀ {put : Nat} {p' : PutCall n} {value : String} {version : UInt64},
      (∃ p : PutCall n, s.clerks.clients.puts[put]? = some p ∧ p'.request = p.request) →
      p'.request = .put lockKey value version → Intent ids seen' s' value version := by
    rintro put p' value version ⟨p, hp, hreq⟩ hreq'
    exact (h.puts hp (hreq.symm.trans hreq')).mono hseen hle
  cases hstep with
  | clerk e hlocks hexec hphase =>
    refine ⟨fun hp' hreq => ?_, fun i => by rw [hphase]; exact (h.phases i).mono hseen hle⟩
    rcases exec_puts hexec hp' with ⟨srv, key, value, version, rfl, rfl⟩ | hp
    · cases hreq
      cases hlocks
    · exact hold hp hreq
  | tick hclerks hphase =>
    refine ⟨fun hp' hreq => ?_, fun i => by rw [hphase]; exact (h.phases i).mono hseen hle⟩
    rw [hclerks] at hp'
    exact hold ⟨_, hp', rfl⟩ hreq
  | move i phase hmove hs =>
    subst hs
    exact ⟨fun hp' hreq => hold ⟨_, hp', rfl⟩ hreq,
      h.phases_update hseen hle rfl (h.move hmove hseen (hnow i) hle)⟩
  | get i srv phase hfrom hs =>
    obtain ⟨hexec, hphase⟩ := Lock.get_inv hs
    refine ⟨fun hp' hreq => ?_, h.phases_update hseen hle hphase ?_⟩
    · rcases exec_puts hexec hp' with ⟨_, _, _, _, he, _⟩ | hp
      · cases he
      · exact hold hp hreq
    · have hnew : s'.HasGet s.clerks.gets.length := by
        have hgets : s'.clerks.gets = s.clerks.gets ++ [.new srv lockKey] := by
          rw [← Option.some.inj hexec]
        exact ⟨.new srv lockKey, by rw [hgets, List.getElem?_concat_length], rfl⟩
      rcases hfrom with ⟨_, rfl⟩ | ⟨_, rfl⟩
      · exact hnew
      · exact hnew
  | put i srv value version phase hputs hs =>
    obtain ⟨hexec, hphase⟩ := Lock.put_inv hs
    refine ⟨fun hp' hreq => ?_, h.phases_update hseen hle hphase ?_⟩
    · rcases exec_puts hexec hp' with ⟨_, _, _, _, he, rfl⟩ | hp
      · cases he
        cases hreq
        exact h.intent hputs hseen hle hphase
      · exact hold hp hreq
    · have hnew : s'.HasPut s.clerks.clients.puts.length value := by
        have hputs' : s'.clerks.clients.puts =
            s.clerks.clients.puts ++ [.new srv lockKey value version] := by
          obtain ⟨_, hclients, _⟩ := Clerks.clients_inv hexec
          rw [← Option.some.inj hclients]
        exact ⟨_, version, by rw [hputs', List.getElem?_concat_length], rfl⟩
      cases hputs with
      | acquire => exact hnew
      | release => trivial

end Instances

/-- The times that the clocks have shown up to the moment `t`. -/
def LockRun.seen {ids : Fin m → String} (run : LockRun n ids) (t : Nat) : Set Int64 :=
  {time | ∃ u ≤ t, ∃ i, (run.state u).now i = time}

theorem LockRun.lockOk {ids : Fin m → String} (run : LockRun n ids) (t : Nat) :
    LockOk ids (run.seen t) (run.state t) := by
  induction t with
  | zero =>
    rw [run.start]
    refine ⟨fun hp => ?_, fun i => trivial⟩
    simp [Lock.init, Clerks.init, Clients.init] at hp
  | succ t ih =>
    have hseen : run.seen t ⊆ run.seen (t + 1) := by
      rintro time ⟨u, hu, hi⟩
      exact ⟨u, Nat.le_succ_of_le hu, hi⟩
    rcases run.next t with ⟨e, he⟩ | hsame
    · exact ih.step (Lock.exec_step he) hseen fun i => ⟨t, Nat.le_succ t, i, rfl⟩
    · have hle : LockLe (run.state t) (run.state (t + 1)) :=
        ⟨hsame ▸ .refl _, fun i hi => by rwa [hsame]⟩
      refine ⟨fun hp hreq => ?_, fun i => ?_⟩
      · rw [hsame] at hp
        exact (ih.puts hp hreq).mono hseen hle
      · rw [hsame]
        exact (ih.phases i).mono hseen (hsame ▸ hle)

/-! ## Exclusion -/

/-- The names of the instances are different, have no colon, and none of them is
the name of a lock that is free. -/
structure Names (ids : Fin m → String) : Prop where
  inj : Function.Injective ids
  colon : ∀ i, ':' ∉ (ids i).toList
  ne : ∀ i, ids i ≠ "unlocked"

theorem acquire_version {currentTime : Int64} {val : String} {version version' : UInt64}
    (h : acquire currentTime (val, version, .ok) = some version') : version' = version := by
  obtain ⟨owner, _, h⟩ := Option.bind_eq_some_iff.mp h
  obtain ⟨exp, _, h⟩ := Option.bind_eq_some_iff.mp h
  split_ifs at h
  exact (Option.some.inj h).symm

theorem release_version {instanceId val : String} {version version' : UInt64}
    (h : release instanceId (val, version, .ok) = some version') : version' = version := by
  obtain ⟨owner, _, h⟩ := Option.bind_eq_some_iff.mp h
  split_ifs at h
  exact (Option.some.inj h).symm

section Exclusion

variable {ids : Fin m → String} {run : LockRun n ids} {t : Nat}
  (hids : DistinctIds run.clerks.clients.system)

include hids

/-- The `Put` with which an instance that works has acquired the lock. -/
theorem LockRun.acquired {i : Fin m} {expireTime : Int64}
    (hphase : (run.state t).phase i = .working expireTime) :
    ∃ cmds op version, CommittedCmds run.clerks.clients.system.cluster (cmds ++ [some op]) ∧
      Reached run.clerks.clients.system t (cmds.length + 1) ∧
      op.req = .put lockKey (lockValue (ids i) expireTime) version ∧
      (Store.doOp (Store.machine.stateAfter cmds) op.req).2 = .put .ok := by
  have hi := (run.lockOk t).phases i
  rw [hphase] at hi
  obtain ⟨put, p, version, hp, hreq, hresult⟩ := hi
  obtain ⟨k, ⟨call, hexecuted⟩, hreach⟩ :=
    effective_of_ok run.clerks (t := t) hids hp hresult
  have hv : (run.clerks.state t).view (.put put) = some p.view :=
    Option.map_eq_some_iff.mpr ⟨p, hp, rfl⟩
  obtain ⟨cmds, op, hcmds, rfl, hop, hok⟩ := hexecuted.log hv
  exact ⟨cmds, op, version, hcmds, hreach, hop.trans hreq, hop ▸ hok⟩

variable (hfew : FewPuts run.clerks.clients lockKey)

include hfew

/-- The version that was read says what was read. -/
theorem LockRun.read_eq {val value : String} {version : UInt64}
    {cmds : List (Option (Op n Request))} (hread : (run.state t).HasRead (val, version, .ok))
    (hcmds : CommittedCmds run.clerks.clients.system.cluster cmds)
    (hlookup : (Store.machine.stateAfter cmds).lookup lockKey = some (value, version)) :
    val = value := by
  obtain ⟨get, g, hg, hkey, hresult⟩ := hread
  obtain ⟨cmds', hcmds', _, hlookup'⟩ :=
    exists_lookup_of_get run.clerks (t := t) hids hg hresult
  replace hlookup' := (hlookup'.resolve_left Err.noConfusion).2
  rw [hkey] at hlookup'
  have hcount := hfew.counts hcmds
  have hcount' := hfew.counts hcmds'
  unfold Store.Counts at hcount hcount'
  rw [hlookup] at hcount
  rw [hlookup'] at hcount'
  have heq := lookup_eq_of_putCount hcmds' hcmds (hcount'.2.symm.trans hcount.2)
  rw [hlookup, hlookup'] at heq
  cases heq
  rfl

/-- Whoever puts a value over that of an instance which still works has seen its
lease expire, on a clock of its own. -/
theorem LockRun.expired_of_intent (hnames : Names ids) {i : Fin m} {expireTime : Int64}
    (hphase : (run.state t).phase i = .working expireTime) {value : String} {version : UInt64}
    {cmds : List (Option (Op n Request))}
    (hcmds : CommittedCmds run.clerks.clients.system.cluster cmds)
    (hlookup : (Store.machine.stateAfter cmds).lookup lockKey =
      some (lockValue (ids i) expireTime, version))
    (hintent : Intent ids (run.seen t) (run.state t) value version) :
    ∃ time ∈ run.seen t, expireTime < time := by
  cases hintent with
  | acquire j currentTime result hread htime hacquire hvalue =>
    match result, hread, hacquire with
    | (val, version', .ok), hread, hacquire =>
      cases acquire_version hacquire
      cases run.read_eq hids hfew hread hcmds hlookup
      rw [acquire_lockValue (hnames.colon i) (hnames.ne i)] at hacquire
      split_ifs at hacquire with hlate
      exact ⟨currentTime, htime, hlate⟩
    | (_, _, .errNoKey), _, hacquire =>
      -- A key that is there has another version than 0.
      have hcount := hfew.counts hcmds
      unfold Store.Counts at hcount
      rw [hlookup] at hcount
      cases hacquire
      exact absurd hcount.2.symm hcount.1
    | (_, _, .errVersion), _, hacquire => cases hacquire
    | (_, _, .errWrongLeader), _, hacquire => cases hacquire
    | (_, _, .errMaybe), _, hacquire => cases hacquire
  | release j result hread hleft hrelease hvalue =>
    match result, hread, hrelease with
    | (val, version', .ok), hread, hrelease =>
      cases release_version hrelease
      cases run.read_eq hids hfew hread hcmds hlookup
      rw [release_lockValue (hnames.colon i)] at hrelease
      split_ifs at hrelease with howner
      -- The instance has released the lock itself, so it does not work any more.
      cases hnames.inj howner
      rw [hphase] at hleft
      cases hleft
    | (_, _, .errNoKey), _, hrelease => cases hrelease
    | (_, _, .errVersion), _, hrelease => cases hrelease
    | (_, _, .errWrongLeader), _, hrelease => cases hrelease
    | (_, _, .errMaybe), _, hrelease => cases hrelease

/-- After an instance has acquired the lock, another `Put` on the lock succeeds
only when the lease is over on a clock. -/
theorem LockRun.expired_of_lt (hnames : Names ids) {i : Fin m} {expireTime : Int64}
    (hphase : (run.state t).phase i = .working expireTime)
    {cmds cmds' : List (Option (Op n Request))} {op op' : Op n Request} {version : UInt64}
    (hcmds : CommittedCmds run.clerks.clients.system.cluster (cmds ++ [some op]))
    (hreq : op.req = .put lockKey (lockValue (ids i) expireTime) version)
    (hok : (Store.doOp (Store.machine.stateAfter cmds) op.req).2 = .put .ok)
    (hcmds' : CommittedCmds run.clerks.clients.system.cluster (cmds' ++ [some op']))
    (hsucceeds : Store.succeeds lockKey (Store.machine.stateAfter cmds') op'.req = true)
    (hreach : Reached run.clerks.clients.system t (cmds'.length + 1))
    (hlt : cmds.length < cmds'.length) : ∃ time ∈ run.seen t, expireTime < time := by
  have hlookup : (Store.machine.stateAfter (cmds ++ [some op])).lookup lockKey =
      some (lockValue (ids i) expireTime, version + 1) := by
    rw [hreq] at hok
    rw [StateMachine.stateAfter_concat_some, hreq, Store.machine_doOp, Store.doOp_put_of_ok hok,
      Finmap.lookup_insert]
  -- The log goes on from there, at least up to the other `Put`.
  have hpre : cmds ++ [some op] <+: cmds' := by
    have htake := hcmds.eq_take hcmds'.of_concat
      (by rw [List.length_append, List.length_singleton]; exact hlt)
    exact List.prefix_iff_eq_take.mpr htake
  obtain ⟨rest, rfl⟩ := hpre
  rw [List.append_assoc] at hcmds'
  rcases exists_next_success lockKey (cmds ++ [some op]) (rest ++ [some op']) with ⟨hcount, _⟩ |
    ⟨mid, next, hpre, _, hmid, hnext⟩
  · have hle := putCount_le_of_isPrefix lockKey (List.prefix_append (cmds ++ [some op]) rest)
    rw [← List.append_assoc, putCount_concat, hsucceeds, if_pos rfl] at hcount
    omega
  · have hcommitted : CommittedCmds run.clerks.clients.system.cluster
        (cmds ++ [some op] ++ mid ++ [some next]) := by
      rw [List.prefix_iff_eq_take.mp hpre]
      exact hcmds'.take _
    have hplace : (cmds ++ [some op] ++ mid).length + 1 ≤
        (cmds ++ [some op] ++ rest).length + 1 := by
      have hlen := hpre.length_le
      simp only [List.length_append, List.length_singleton] at hlen ⊢
      omega
    obtain ⟨put, p, value, version', hp, hprequest, _, hpok⟩ :=
      exists_put_of_success run.clerks hcommitted (hreach.le hplace) hnext
    -- It was made for the version that the instance has written.
    rw [hlookup] at hmid
    have hversion : version' = version + 1 := by
      rcases Store.doOp_put_ok_iff.mp hpok with ⟨hnone, _⟩ | ⟨old, hold⟩
      · rw [hmid] at hnone
        cases hnone
      · rw [hmid] at hold
        cases hold
        rfl
    subst hversion
    exact run.expired_of_intent hids hfew hnames hphase hcommitted.of_concat hmid
      ((run.lockOk t).puts hp hprequest)

end Exclusion

/-- No clock is ever more than `δ` milliseconds ahead of what the clocks show then or
later.  The clocks may be set back, but not further than this. -/
def LockRun.ClocksWithin {ids : Fin m → String} (run : LockRun n ids) (δ : Int) : Prop :=
  ∀ t u, t ≤ u → ∀ i j, ((run.state t).now i).toInt ≤ ((run.state u).now j).toInt + δ

/-- A lease that is not over on the clock of its instance, with `δ` milliseconds to
spare, is not over on any clock. -/
theorem LockRun.ClocksWithin.not_expired {ids : Fin m → String} {run : LockRun n ids} {δ : Int}
    (h : run.ClocksWithin δ) {t : Nat} {i : Fin m} {x : Int64}
    (hx : ((run.state t).now i).toInt + δ ≤ x.toInt) : ¬∃ time ∈ run.seen t, x < time := by
  rintro ⟨_, ⟨u, hu, k, rfl⟩, hlate⟩
  have hclock := h u t hu k i
  rw [Int64.lt_iff_toInt_lt] at hlate
  omega

/-- No two instances work with a lease that is not over on their own clocks, with as
much to spare as the clocks may be apart. -/
theorem lease_exclusive {ids : Fin m → String} (run : LockRun n ids) (hnames : Names ids)
    (hids : DistinctIds run.clerks.clients.system) (hfew : FewPuts run.clerks.clients lockKey)
    {δ : Int} (hclocks : run.ClocksWithin δ) {t : Nat} {i j : Fin m} {x y : Int64}
    (hi : (run.state t).phase i = .working x) (hj : (run.state t).phase j = .working y)
    (hx : ((run.state t).now i).toInt + δ ≤ x.toInt)
    (hy : ((run.state t).now j).toInt + δ ≤ y.toInt) : i = j := by
  have hsucceeds : ∀ {cmds : List (Option (Op n Request))} {op : Op n Request} {i x version},
      op.req = .put lockKey (lockValue (ids i) x) version →
      (Store.doOp (Store.machine.stateAfter cmds) op.req).2 = .put .ok →
      Store.succeeds lockKey (Store.machine.stateAfter cmds) op.req = true := by
    intro cmds op i x version hreq hok
    rw [hreq] at hok ⊢
    exact decide_eq_true ⟨rfl, hok⟩
  obtain ⟨cmds, op, version, hcmds, hreach, hreq, hok⟩ := LockRun.acquired hids hi
  obtain ⟨cmds', op', version', hcmds', hreach', hreq', hok'⟩ := LockRun.acquired hids hj
  rcases Nat.lt_trichotomy cmds.length cmds'.length with hlt | heq | hgt
  · have hlate := run.expired_of_lt hids hfew hnames hi hcmds hreq hok hcmds'
      (hsucceeds hreq' hok') hreach' hlt
    exact absurd hlate (hclocks.not_expired hx)
  · have hsame := hcmds.eq_of_length hcmds' (by simpa using heq)
    obtain ⟨_, hlast⟩ := List.append_inj' hsame rfl
    cases hlast
    rw [hreq] at hreq'
    obtain ⟨_, hvalue, _⟩ := Request.put.inj hreq'
    have hsplit := congrArg split hvalue
    rw [split_lockValue (hnames.colon i), split_lockValue (hnames.colon j)] at hsplit
    exact hnames.inj (List.cons.inj hsplit).1
  · have hlate := run.expired_of_lt hids hfew hnames hj hcmds' hreq' hok' hcmds
      (hsucceeds hreq hok) hreach hgt
    exact absurd hlate (hclocks.not_expired hy)

/-- Two instances. -/
def alice : Fin 2 := ⟨0, Nat.zero_lt_two⟩

def bob : Fin 2 := ⟨1, Nat.one_lt_two⟩

def demoIds (i : Fin 2) : String := if i.val = 0 then "alice" else "bob"

/-- Events of the system under the instances. -/
def nodeEvents (es : List (SystemEvent 3 Request Store)) : List (LockEvent 3 2) :=
  (systemEvents es).map .clerk

/-- Node 0 is the leader.  The first instance finds no lock and acquires it, and the
second one, whose clock is ahead and is then set back, finds it busy. -/
def demoEvents : List (LockEvent 3 2) :=
  [.read alice node0] ++ nodeEvents [.raft (.electionTimeout node0), .raft (.deliver 0),
    .raft (.handleReply 0 (.requestVote ⟨0, true⟩))] ++
  [.clerk (.handleGet 0 0 1)] ++ nodeEvents (operate 0 2) ++
  [.clerk (.respondGet 0), .tick alice 100, .look alice, .decide alice node0,
    .clerk (.clients (.handle 0 0 2))] ++ nodeEvents (operate 1 3) ++
  [.clerk (.clients (.respond 0)), .acquired alice, .read bob node0,
    .clerk (.handleGet 1 0 3)] ++ nodeEvents (operate 2 4) ++
  [.clerk (.respondGet 1), .tick bob 400, .look bob, .tick bob 200, .tick alice 300]

/-- The run of these events. -/
def demoRun : LockRun 3 demoIds := Run.ofEvents Lock.init (Lock.exec demoIds) demoEvents

theorem demoIds_names : Names demoIds where
  inj := by
    unfold Function.Injective
    decide
  colon := by decide
  ne := by decide

theorem demoRun_state {t : Nat} (h : 61 ≤ t) : demoRun.state t = demoRun.state 61 :=
  Run.ofEvents_state_of_le _ _ demoEvents h

theorem demoRun_clients {t : Nat} (h : 61 ≤ t) :
    demoRun.clerks.clients.state t = demoRun.clerks.clients.state 61 := by
  rw [ClerkRun.clients_state, ClerkRun.clients_state, LockRun.clerks_state,
    LockRun.clerks_state, demoRun_state h]

theorem demoRun_distinctIds : DistinctIds demoRun.clerks.clients.system := by
  have hstop : ∀ t, 61 ≤ t → demoRun.clerks.clients.system.state t =
      demoRun.clerks.clients.system.state 61 := by
    intro t h
    rw [ClientRun.system_state, ClientRun.system_state, demoRun_clients h]
  exact .of_final hstop (by decide +kernel) (by decide +kernel)

theorem demoRun_clocks : demoRun.ClocksWithin 500 := by
  have hrange : ∀ t i, 0 ≤ ((demoRun.state t).now i).toInt ∧
      ((demoRun.state t).now i).toInt ≤ 500 := by
    have hbefore : ∀ t < 62, ∀ i, 0 ≤ ((demoRun.state t).now i).toInt ∧
        ((demoRun.state t).now i).toInt ≤ 500 := by decide +kernel
    intro t i
    rcases Nat.lt_or_ge t 62 with hlt | hge
    · exact hbefore t hlt i
    · rw [demoRun_state (Nat.le_of_succ_le hge)]
      exact hbefore 61 (by decide) i
  intro t u _ i j
  have := hrange t i
  have := hrange u j
  omega

/-- The first instance works alone. -/
theorem demoRun_exclusive : (demoRun.state 61).phase alice = .working 6100 ∧
    ∀ i x, (demoRun.state 61).phase i = .working x →
      ((demoRun.state 61).now i).toInt + 500 ≤ x.toInt → i = alice := by
  have halice : (demoRun.state 61).phase alice = .working 6100 := by decide +kernel
  refine ⟨halice, fun i x hi hx => ?_⟩
  exact lease_exclusive demoRun demoIds_names demoRun_distinctIds
    (.of_final (fun _ => demoRun_clients) (by decide +kernel) lockKey) demoRun_clocks hi halice hx
    (by decide +kernel)

/-- An instance is turned away only by a lease that is not over.  It may be its own,
when `clerk.put` has failed and the value was written nevertheless. -/
theorem refused_of_lease {ids : Fin m → String} (run : LockRun n ids) (hnames : Names ids)
    (hids : DistinctIds run.clerks.clients.system) {t : Nat} {result : String × UInt64 × Err}
    (hread : (run.state t).HasRead result) {currentTime : Int64}
    (hrefused : acquire currentTime result = none) :
    ∃ i x version, result = (lockValue (ids i) x, version, .ok) ∧ currentTime ≤ x := by
  obtain ⟨get, g, hg, hkey, hresult⟩ := hread
  obtain ⟨val, version, err⟩ := result
  obtain ⟨cmds, hcmds, hreach, rfl | ⟨rfl, hlookup⟩⟩ :=
    exists_lookup_of_get run.clerks (t := t) hids hg hresult
  · cases hrefused
  rw [hkey] at hlookup
  obtain ⟨before, op, version', hpre, hreq, hsucceeds⟩ := exists_write hlookup
  have hcommitted : CommittedCmds run.clerks.clients.system.cluster (before ++ [some op]) := by
    rw [List.prefix_iff_eq_take.mp hpre]
    exact hcmds.take _
  have hlen := hpre.length_le
  rw [List.length_append, List.length_singleton] at hlen
  obtain ⟨put, p, value, version'', hp, hprequest, hop, _⟩ :=
    exists_put_of_success run.clerks hcommitted (hreach.le hlen) hsucceeds
  rw [hreq] at hop
  cases hop
  cases (run.lockOk t).puts hp hprequest with
  | acquire i time _ _ _ _ hvalue =>
    subst hvalue
    rw [acquire_lockValue (hnames.colon i) (hnames.ne i)] at hrefused
    split_ifs at hrefused with hlate
    exact ⟨i, time + leaseDuration, version, rfl, Int64.not_lt.mp hlate⟩
  | release i _ _ _ _ hvalue =>
    subst hvalue
    rw [acquire_unlockedValue] at hrefused
    cases hrefused

/-- The second instance is turned away by the first one. -/
theorem demoRun_refused : (demoRun.state 61).phase bob = .deciding 1 400 ∧
    ∃ result, (demoRun.state 61).HasRead result ∧ acquire 400 result = none ∧
      ∃ i x version, result = (lockValue (demoIds i) x, version, .ok) ∧ 400 ≤ x := by
  have hread : (demoRun.state 61).HasRead ("alice:6100", 1, .ok) := by
    obtain ⟨g, hg, hkey, hresult⟩ : ∃ g ∈ (demoRun.state 61).clerks.gets[1]?,
        g.key = lockKey ∧ g.result = some ("alice:6100", 1, .ok) := by decide +kernel
    exact ⟨1, g, hg, hkey, hresult⟩
  have hrefused : acquire 400 ("alice:6100", 1, .ok) = none := by decide
  exact ⟨by decide +kernel, _, hread, hrefused,
    refused_of_lease demoRun demoIds_names demoRun_distinctIds hread hrefused⟩

end KvRaft.Demo
