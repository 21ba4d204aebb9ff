import KvRaft.Service.Clients

/-!
# A `Put` takes effect once

The clerk repeats a `Put` until it is answered, and the servers do not know
which requests are repetitions.  Any number of operations of one `Put` may be
in the committed log, before and after the one that was answered, and between
them those of other clients.  What makes the `Put` take effect once is the
version alone: the version of a key is the number of `Put`s on it that have
succeeded (`Store.Counts`), so no two of them succeed on one version.

* `ExactlyOnce` is what a clerk may expect from the answer `OK`.
* `collisionRun_not_exactlyOnce` is a run in which two calls of `Submit` draw the
  same id, and a clerk gets the result of another client's `Put`.
* `exactlyOnce_of_uniqueIds` says that nothing else can go wrong.
-/

namespace KvRaft

open Consensus

variable {n : Nat}

/-! ## The version of a key -/

namespace Store

/-- The version of `key` is `k`, and `k = 0` stands for no key. -/
def Counts (kv : Store) (key : String) (k : Nat) : Prop :=
  match kv.lookup key with
  | none => k = 0
  | some (_, version) => k ≠ 0 ∧ version.toNat = k

/-- From `kv` to `kv'`, the key goes from `version` to `value` with the next
version, which is not wrapped around. -/
structure Moves (kv kv' : Store) (key value : String) (version : UInt64) : Prop where
  before : if version = 0 then kv.lookup key = none else ∃ old, kv.lookup key = some (old, version)
  after : kv'.lookup key = some (value, version + 1)
  next : (version + 1).toNat = version.toNat + 1

variable {key : String} {kv : Store}

theorem toNat_add_one {version : UInt64} (h : version.toNat + 1 < 2 ^ 64) :
    (version + 1).toNat = version.toNat + 1 := by
  rw [UInt64.toNat_add, UInt64.toNat_one]
  exact Nat.mod_eq_of_lt h

/-- A `Put` succeeds on the number of `Put`s before it. -/
theorem Counts.toNat_eq {k : Nat} (h : Counts kv key k) {value : String} {version : UInt64}
    (hok : (doOp kv (.put key value version)).2 = .put .ok) : version.toNat = k := by
  unfold Counts at h
  rcases doOp_put_ok_iff.mp hok with ⟨hnone, rfl⟩ | ⟨old, hsome⟩
  · rw [hnone] at h
    exact h.symm
  · rw [hsome] at h
    exact h.2

theorem Counts.moves {k : Nat} (h : Counts kv key k) (hlt : k + 1 < 2 ^ 64) {value : String}
    {version : UInt64} (hok : (doOp kv (.put key value version)).2 = .put .ok) :
    Moves kv (doOp kv (.put key value version)).1 key value version := by
  have hk := h.toNat_eq hok
  refine ⟨?_, ?_, toNat_add_one (by omega)⟩
  · unfold Counts at h
    rcases doOp_put_ok_iff.mp hok with ⟨hnone, rfl⟩ | ⟨old, hsome⟩
    · rw [if_pos rfl]
      exact hnone
    · rw [hsome] at h
      have hne : version ≠ 0 := by
        rintro rfl
        exact h.1 hk.symm
      rw [if_neg hne]
      exact ⟨old, hsome⟩
  · rw [doOp_put_of_ok hok, Finmap.lookup_insert]

/-- One request counts when it succeeds. -/
theorem Counts.doOp {k : Nat} (h : Counts kv key k) (req : Request)
    (hlt : (k + if succeeds key kv req then 1 else 0) < 2 ^ 64) :
    Counts (doOp kv req).1 key (k + if succeeds key kv req then 1 else 0) := by
  cases hs : succeeds key kv req with
  | false =>
    unfold Counts
    rw [lookup_doOp_of_not_succeeds hs]
    exact h
  | true =>
    rw [hs, if_pos rfl] at hlt
    cases req with
    | get | other => cases hs
    | put k' value version =>
      obtain ⟨rfl, hok⟩ : k' = key ∧ _ := by simpa [succeeds] using hs
      have hmoves := h.moves hlt hok
      unfold Counts
      rw [hmoves.after, if_pos rfl]
      exact ⟨by omega, by rw [hmoves.next, h.toNat_eq hok]⟩

/-- The version of a key is the number of `Put`s that have succeeded on it. -/
theorem counts_replay {reqs : List Request} (h : successes key ∅ reqs < 2 ^ 64) :
    Counts (machine.replay reqs) key (successes key ∅ reqs) := by
  induction reqs using List.reverseRecOn with
  | nil => exact rfl
  | append_singleton reqs req ih =>
    rw [successes_concat] at h ⊢
    rw [StateMachine.replay_concat]
    exact (ih (by omega)).doOp req h

end Store

/-! ## What the answer `OK` says -/

/-- An operation that an attempt of the call submitted is executed at `index`
with result `OK`. -/
def EffectAt (run : ClientRun n) (put index : Nat) (op : Op n Request) : Prop :=
  ∃ t p attempt call c, (run.state t).puts[put]? = some p ∧ attempt ∈ p.attempts ∧
    attempt.call = some call ∧ (run.state t).system.calls[call]? = some c ∧ c.op = op ∧
    ExecutesAt Store.machine run.system.cluster index op (.put .ok)

/-- Fewer than `2^64 - 1` `Put`s on the key succeed in the run. -/
def FewPuts (run : ClientRun n) (key : String) : Prop :=
  ∀ cmds, CommittedCmds run.system.cluster cmds →
    Store.successes key ∅ (StateMachine.requests cmds) < 2 ^ 64 - 1

/-- The call takes effect at `index`, with the operation `op`, and nowhere else. -/
structure OnceAt (run : ClientRun n) (put : Nat) (p : PutCall n) (index : Nat)
    (op : Op n Request) : Prop where
  effect : EffectAt run put index op
  /-- No other operation of the call succeeds. -/
  only : ∀ {index' op'}, EffectAt run put index' op' → index' = index ∧ op' = op
  /-- The operation takes the key from the version of the call to the next. -/
  moves : ∃ kv kv', Reflects Store.machine run.system.cluster (index - 1) kv ∧
    Reflects Store.machine run.system.cluster index kv' ∧
    Store.Moves kv kv' p.key p.value p.version
  /-- No other `Put` of any client succeeds on this key and version. -/
  alone : ∀ {index' op' value'}, op'.req = .put p.key value' p.version →
    ExecutesAt Store.machine run.system.cluster index' op' (.put .ok) → index' = index

/-- A `Put` that returns `OK` has taken effect exactly once. -/
def ExactlyOnce (run : ClientRun n) : Prop :=
  ∀ t put p, (run.state t).puts[put]? = some p → p.result = some .ok → FewPuts run p.key →
    ∃ index op, OnceAt run put p index op

/-! ## A `Put` in the committed log -/

section Log

variable {run : ClientRun n} {key : String}

/-- A `Put` that succeeds finds as many before it as its version says. -/
theorem FewPuts.counts (h : FewPuts run key) {cmds : List (Option (Op n Request))}
    (hcmds : CommittedCmds run.system.cluster cmds) :
    Store.Counts (Store.machine.stateAfter cmds) key
      (Store.successes key ∅ (StateMachine.requests cmds)) := by
  have := h cmds hcmds
  exact Store.counts_replay (by omega)

/-- After a `Put` has succeeded, there is one more. -/
theorem successes_lt {cmds : List (Option (Op n Request))} {op : Op n Request}
    {value : String} {version : UInt64} (hreq : op.req = .put key value version)
    (hok : (Store.doOp (Store.machine.stateAfter cmds) op.req).2 = .put .ok)
    (rest : List (Option (Op n Request))) :
    Store.successes key ∅ (StateMachine.requests cmds) <
      Store.successes key ∅ (StateMachine.requests (cmds ++ [some op] ++ rest)) := by
  have hsucceeds : Store.succeeds key (Store.machine.replay (StateMachine.requests cmds)) op.req =
      true := by
    rw [hreq] at hok ⊢
    exact decide_eq_true ⟨rfl, hok⟩
  have hrequests : StateMachine.requests (cmds ++ [some op] ++ rest) =
      StateMachine.requests cmds ++ [op.req] ++ StateMachine.requests rest := by
    simp [StateMachine.requests]
  rw [hrequests, Store.successes_append, Store.successes_concat, hsucceeds, if_pos rfl]
  omega

/-- Of two `Put`s that succeed on one key and version, none is before the other. -/
theorem FewPuts.index_le (h : FewPuts run key) {index index' : Nat} {op op' : Op n Request}
    {value value' : String} {version : UInt64}
    (hexec : ExecutesAt Store.machine run.system.cluster index op (.put .ok))
    (hreq : op.req = .put key value version)
    (hexec' : ExecutesAt Store.machine run.system.cluster index' op' (.put .ok))
    (hreq' : op'.req = .put key value' version) : index' ≤ index := by
  obtain ⟨cmds, hcmds, rfl, hok⟩ := hexec
  obtain ⟨cmds', hcmds', rfl, hok'⟩ := hexec'
  by_contra hlt
  -- The first of them is among the commands before the second.
  have hprefix : cmds' = cmds ++ [some op] ++ cmds'.drop (cmds.length + 1) := by
    have htake := hcmds.eq_take hcmds'.of_concat (by simp; omega)
    rw [List.length_append, List.length_singleton] at htake
    rw [htake, List.take_append_drop]
  have hcount := (h.counts hcmds.of_concat).toNat_eq (by rw [← hreq]; exact hok.symm)
  have hcount' := (h.counts hcmds'.of_concat).toNat_eq (by rw [← hreq']; exact hok'.symm)
  have hmore := successes_lt hreq hok.symm (cmds'.drop (cmds.length + 1))
  rw [← hprefix] at hmore
  omega

/-- What a `Put` that succeeds does. -/
theorem FewPuts.moves (h : FewPuts run key) {index : Nat} {op : Op n Request} {value : String}
    {version : UInt64} (hexec : ExecutesAt Store.machine run.system.cluster index op (.put .ok))
    (hreq : op.req = .put key value version) :
    ∃ kv kv', Reflects Store.machine run.system.cluster (index - 1) kv ∧
      Reflects Store.machine run.system.cluster index kv' ∧
      Store.Moves kv kv' key value version := by
  obtain ⟨cmds, hcmds, rfl, hok⟩ := hexec
  refine ⟨_, _, ⟨cmds, hcmds.of_concat, rfl, rfl⟩, ⟨_, hcmds, by simp, rfl⟩, ?_⟩
  have hlt := h cmds hcmds.of_concat
  rw [StateMachine.stateAfter_concat_some, hreq]
  exact (h.counts hcmds.of_concat).moves (by omega) (by rw [← hreq]; exact hok.symm)

end Log

/-! ## Where the answer comes from -/

/-- What holds of a call in every run. -/
structure PutSound (calls : List (Call n Request Reply)) (p : PutCall n) : Prop where
  requests : Requests calls p
  /-- An answer `OK` is the result of an operation of the call. -/
  answered : p.result = some .ok → ∃ attempt ∈ p.attempts, ∃ call c, attempt.call = some call ∧
    calls[call]? = some c ∧ c.answer = some (.ok (some (.put .ok)))

theorem KVService.put_ok {answer : Answer n Reply} (h : (KVService.put answer).status = .ok) :
    answer = .ok (some (.put .ok)) := by
  cases answer with
  | wrongLeader leader => cases h
  | ok val =>
    match val with
    | none => cases h
    | some (.get ..) => cases h
    | some (.put err) => cases err <;> first | rfl | cases h

/-- The clerk returns `OK` for a response `OK` only. -/
theorem PutCall.next_ok {p : PutCall n} {outcome : Clerk.Outcome} (hresult : p.result = none)
    (h : (p.next outcome).result = some .ok) : ∃ resp, outcome = .response resp ∧
      resp.status = .ok := by
  cases outcome with
  | failed =>
    rw [show (p.next .failed).result = p.result from rfl, hresult] at h
    cases h
  | response resp =>
    refine ⟨resp, rfl, ?_⟩
    obtain ⟨status, hint⟩ := resp
    cases status with
    | ok => rfl
    | errVersion =>
      simp only [PutCall.next, Clerk.put, pbStatusToErr] at h
      split_ifs at h <;> cases h
    | unspecified | errNoKey | errWrongLeader | errMaybe =>
      exact absurd (hresult.symm.trans h) (by simp)

theorem PutMove.request {s s' : Clients n} {p p' : PutCall n} (h : PutMove s s' p p') :
    p'.request = p.request := by
  have hnext : ∀ outcome, (p.next outcome).request = p.request := by
    intro outcome
    unfold PutCall.next
    split <;> rfl
  cases h with
  | same | handle => rfl
  | respond => exact hnext _
  | fail => exact hnext _

theorem PutSound.move {s s' : Clients n} {p p' : PutCall n} (h : PutSound s.system.calls p)
    (hmove : PutMove s s' p p') (hle : CallsLe s.system.calls s'.system.calls) :
    PutSound s'.system.calls p' := by
  refine ⟨?_, fun hresult' => ?_⟩
  · cases hmove with
    | same => exact h.requests.mono hle
    | handle k attempt id hk hnone hsys =>
      exact (h.requests.mono hle).handled (System.submit_calls hsys) rfl
    | respond => exact (h.requests.next _).mono hle
    | fail => exact (h.requests.next _).mono hle
  · -- The call has the answer already, or gets it now from its last attempt.
    obtain ⟨attempt, hmem, call, c, hcall, hc, hanswer⟩ : ∃ attempt ∈ p.attempts, ∃ call c,
        attempt.call = some call ∧ s.system.calls[call]? = some c ∧
        c.answer = some (.ok (some (.put .ok))) := by
      cases hmove with
      | same => exact h.answered hresult'
      | handle => exact h.answered hresult'
      | respond attempt call c answer hresult hlast hcall hc hanswer =>
        obtain ⟨resp, hresp, hstatus⟩ := PutCall.next_ok hresult hresult'
        cases hresp
        cases KVService.put_ok hstatus
        exact ⟨attempt, List.mem_of_getLast? hlast, call, c, hcall, hc, hanswer⟩
      | fail hresult =>
        obtain ⟨resp, hresp, _⟩ := PutCall.next_ok hresult hresult'
        cases hresp
    obtain ⟨c', hc', hcc⟩ := hle call c hc
    cases hcc.final (by rw [hanswer]; exact Option.some_ne_none _)
    exact ⟨attempt, hmove.le.attempts attempt hmem (by rw [hcall]; exact Option.some_ne_none _),
      call, c, hcall, hc', hanswer⟩

namespace ClientRun

theorem putSound (run : ClientRun n) (t : Nat) {put : Nat} {p : PutCall n}
    (hp : (run.state t).puts[put]? = some p) : PutSound (run.state t).system.calls p := by
  induction t generalizing put p with
  | zero =>
    rw [run.start] at hp
    simp [Clients.init] at hp
  | succ t ih =>
    rcases run.next t with hstep | hsame
    · rcases Clients.step_puts hstep hp with ⟨_, srv, key, value, version, rfl⟩ | ⟨q, hq, hmove⟩
      · exact ⟨requests_new srv key value version, fun hresult => by cases hresult⟩
      · exact (ih hq).move hmove (run.system.calls_le (Nat.le_succ t))
    · rw [hsame] at hp ⊢
      exact ih hp

/-- A call keeps its arguments. -/
theorem request_eq (run : ClientRun n) {t u put : Nat} {p q : PutCall n}
    (hp : (run.state t).puts[put]? = some p) (hq : (run.state u).puts[put]? = some q) :
    q.request = p.request := by
  have hmono : ∀ {t u : Nat} {p q : PutCall n}, t ≤ u → (run.state t).puts[put]? = some p →
      (run.state u).puts[put]? = some q → q.request = p.request := by
    intro t u p q htu hp hq
    obtain ⟨p', hp', heq⟩ := run.puts_mono (R := fun p q => q.request = p.request)
      (fun _ => rfl) (fun h h' => h'.trans h) PutMove.request htu hp
    cases hq.symm.trans hp'
    exact heq
  rcases Nat.le_total t u with htu | hut
  · exact hmono htu hp hq
  · exact (hmono hut hq hp).symm

/-- The operations of a call are its request. -/
theorem req_of_effect (run : ClientRun n) {t put index : Nat} {p : PutCall n}
    (hp : (run.state t).puts[put]? = some p) {op : Op n Request} (h : EffectAt run put index op) :
    op.req = p.request := by
  obtain ⟨u, q, attempt, call, c, hq, hmem, hcall, hc, rfl, _⟩ := h
  obtain ⟨c', hc', hreq⟩ := (run.putSound u hq).requests attempt hmem call hcall
  cases hc.symm.trans hc'
  exact hreq.trans (run.request_eq hp hq)

end ClientRun

/-! ## Runs of finitely many events -/

section Final

variable {run : ClientRun n} {T : Nat}

/-- What is committed in a run that stands still after `T` is in its last
history. -/
theorem ClientRun.origin_of_final (run : ClientRun n)
    (hstop : ∀ t, T ≤ t → run.state t = run.state T) {k : Nat} {e : Entry (Op n Request)}
    (he : Commits run.system.cluster k e) :
    ∃ c ∈ (run.state T).system.calls, e.command = some c.op ∧ c.started = some (k, e.term) := by
  obtain ⟨_, t, hreach⟩ := reached_of_commits he
  obtain ⟨call, c, hc, hop, hstarted⟩ :=
    run.system.origin Store.lawful (hreach.mono (Nat.le_max_left t T)) he
  rw [run.system_state, hstop _ (Nat.le_max_right t T)] at hc
  exact ⟨c, List.mem_of_getElem? hc, hop, hstarted⟩

theorem Store.successes_le (key : String) (kv : Store) (reqs : List Request) :
    successes key kv reqs ≤ reqs.length := by
  induction reqs generalizing kv with
  | nil => exact Nat.le_refl 0
  | cons req reqs ih =>
    have := ih (doOp kv req).1
    rw [successes, List.length_cons]
    split <;> omega

/-- A run with few operations has few `Put`s. -/
theorem FewPuts.of_final (hstop : ∀ t, T ≤ t → run.state t = run.state T)
    (hfew : ∀ c ∈ (run.state T).system.calls, ∀ s ∈ c.started, s.1 < 2 ^ 64 - 1) (key : String) :
    FewPuts run key := by
  intro cmds hcmds
  have hle := Store.successes_le key ∅ (StateMachine.requests cmds)
  have hlen : (StateMachine.requests cmds).length ≤ cmds.length := List.length_filterMap_le ..
  rcases List.eq_nil_or_concat cmds with rfl | ⟨front, last, rfl⟩
  · rw [List.length_nil] at hlen
    omega
  · rw [List.concat_eq_append] at hcmds hlen hle ⊢
    obtain ⟨e, he, _⟩ := hcmds.last
    obtain ⟨c, hc, _, hstarted⟩ := run.origin_of_final hstop he
    have hlt := hfew c hc _ hstarted
    rw [List.length_append, List.length_singleton] at hlen
    omega

end Final

/-! ## Two calls with one id -/

/-- Node 0 is the leader of term 1 and logs the `Put` of the clerk at index 1.
Node 1 becomes the leader of term 2, and logs and commits the `Put` of another
client there, which has drawn the same id.  Node 0 learns of it, becomes the
leader of term 3 and executes index 1. -/
def collisionEvents : List (ClientEvent 3) :=
  [.put node0 "x" "a" 0, .system (.raft (.electionTimeout node0)), .system (.raft (.deliver 0)),
    .system (.raft (.handleReply 0 (.requestVote ⟨0, true⟩))), .handle 0 0 7,
    .system (.register 0), .system (.raft (.electionTimeout node1)), .system (.raft (.deliver 3)),
    .system (.raft (.handleReply 3 (.requestVote ⟨0, true⟩))),
    .system (.submit node1 7 (.put "y" "c" 0)), .system (.register 1),
    .system (.raft (.replicate node1 node0)), .system (.raft (.deliver 4)),
    .system (.raft (.handleReply 4 (.appendEntries ⟨1, true, 0, some 0⟩))),
    .system (.raft (.replicate node1 node0)), .system (.raft (.deliver 5)),
    .system (.raft (.electionTimeout node0)), .system (.raft (.deliver 7)),
    .system (.raft (.handleReply 7 (.requestVote ⟨2, true⟩))),
    .system (.raft (.applierTake node0)), .system (.receive node0), .system (.lockCommand node0),
    .system (.doOp node0), .system (.notifyPending node0), .system (.send node0),
    .system (.notifyOutdated node0), .system (.endOutdated node0),
    .system (.checkSnapshot node0 false), .system (.leave 0), .respond 0]

/-- The run of these events. -/
def collisionRun : ClientRun 3 := Run.ofEvents Clients.init Clients.exec collisionEvents

theorem collisionRun_state {t : Nat} (h : 30 ≤ t) : collisionRun.state t = collisionRun.state 30 :=
  Run.ofEvents_state_of_le _ _ collisionEvents h

/-- The clerk returns `OK`, and its `Put` is not in the committed log. -/
theorem collisionRun_not_exactlyOnce : ¬ ExactlyOnce collisionRun := by
  intro h
  obtain ⟨p, hp, hresult, hrequest⟩ : ∃ p ∈ (collisionRun.state 30).puts[0]?,
      p.result = some .ok ∧ p.request = .put "x" "a" 0 := by decide +kernel
  obtain ⟨index, op, honce⟩ := h 30 0 p hp hresult
    (.of_final (fun _ => collisionRun_state) (by decide +kernel) _)
  have hreq := (collisionRun.req_of_effect hp honce.effect).trans hrequest
  obtain ⟨_, _, _, _, _, _, _, _, _, _, cmds, hcmds, rfl, _⟩ := honce.effect
  obtain ⟨e, he, hcmd⟩ := hcmds.last
  -- The operation could be at index 1 in term 1 only, and there is one of term 2.
  obtain ⟨c, hc, hop, hstarted⟩ :=
    collisionRun.origin_of_final (fun _ => collisionRun_state) he
  cases hcmd.symm.trans hop
  have hall : ∀ c ∈ (collisionRun.state 30).system.calls, c.req = .put "x" "a" 0 →
      c.started = some (1, 1) := by decide +kernel
  have hindex := hstarted.symm.trans (hall c hc hreq)
  simp only [Option.some.injEq, Prod.mk.injEq] at hindex
  have hcommits : Commits collisionRun.system.cluster 1 ⟨1, 2, some ⟨node1, 7, .put "y" "c" 0⟩⟩ :=
    ⟨30, node0, by decide +kernel⟩
  rw [hindex.1] at he
  have heq := commits_eq_of_run he hcommits
  rw [heq] at hindex
  simp at hindex

/-! ## The ids are distinct -/

/-- When the ids are distinct, a `Put` that returns `OK` has taken effect exactly
once. -/
theorem exactlyOnce_of_uniqueIds (run : ClientRun n) (h : UniqueIds run.system) :
    ExactlyOnce run := by
  intro t put p hp hresult hfew
  obtain ⟨attempt, hmem, call, c, hcall, hc, hanswer⟩ := (run.putSound t hp).answered hresult
  -- The answer is the result of the operation at its index.
  obtain ⟨index, _, v, hv, _, hexec, _⟩ := h.right Store.lawful
    ((run.system.given t).returned hc hanswer) hc (Or.inl (Option.some_ne_none _))
  cases hv
  have heffect : EffectAt run put index c.op :=
    ⟨t, p, attempt, call, c, hp, hmem, hcall, hc, rfl, hexec⟩
  have hreq := run.req_of_effect hp heffect
  have halone : ∀ {index' op' value'}, op'.req = .put p.key value' p.version →
      ExecutesAt Store.machine run.system.cluster index' op' (.put .ok) → index' = index :=
    fun hreq' hexec' => Nat.le_antisymm (hfew.index_le hexec hreq hexec' hreq')
      (hfew.index_le hexec' hreq' hexec hreq)
  refine ⟨index, c.op, heffect, fun {index' op'} heffect' => ?_, hfew.moves hexec hreq, halone⟩
  obtain ⟨_, _, _, _, _, _, _, _, _, _, hexec'⟩ := id heffect'
  cases halone (run.req_of_effect hp heffect') hexec'
  exact ⟨rfl, hexec'.op_eq hexec⟩

/-- Three attempts fail, but the request of the first one is only late.  The
fourth attempt is logged at index 1, and the late request at index 2. -/
def onceEvents : List (ClientEvent 3) :=
  [.put node0 "k" "v" 0, .system (.raft (.electionTimeout node0)), .system (.raft (.deliver 0)),
    .system (.raft (.handleReply 0 (.requestVote ⟨0, true⟩))), .fail 0, .fail 0, .fail 0,
    .handle 0 3 1, .system (.register 0), .handle 0 0 2, .system (.register 1),
    .system (.raft (.replicate node0 node1)), .system (.raft (.deliver 2)),
    .system (.raft (.handleReply 2 (.appendEntries ⟨1, true, 0, some 0⟩))),
    .system (.raft (.applierTake node0)), .system (.receive node0), .system (.lockCommand node0),
    .system (.doOp node0), .system (.notifyPending node0), .system (.send node0),
    .system (.notifyOutdated node0), .system (.endOutdated node0),
    .system (.checkSnapshot node0 false), .system (.leave 0), .respond 0]

/-- The run of these events. -/
def onceRun : ClientRun 3 := Run.ofEvents Clients.init Clients.exec onceEvents

theorem onceRun_state {t : Nat} (h : 25 ≤ t) : onceRun.state t = onceRun.state 25 :=
  Run.ofEvents_state_of_le _ _ onceEvents h

theorem onceRun_uniqueIds : UniqueIds onceRun.system := by
  have hstop : ∀ t, 25 ≤ t → onceRun.system.state t = onceRun.system.state 25 := by
    intro t h
    rw [ClientRun.system_state, ClientRun.system_state, onceRun_state h]
  exact (DistinctIds.of_final hstop (by decide +kernel) (by decide +kernel)).unique

/-- The clerk returns `OK`, and its `Put` has taken effect once. -/
theorem exactlyOnce_onceRun : (onceRun.state 25).puts.map PutCall.result = [some .ok] ∧
    FewPuts onceRun "k" ∧ ExactlyOnce onceRun :=
  ⟨by decide +kernel, .of_final (fun _ => onceRun_state) (by decide +kernel) "k",
    exactlyOnce_of_uniqueIds onceRun onceRun_uniqueIds⟩

end KvRaft
