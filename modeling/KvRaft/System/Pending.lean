import KvRaft.Rsm.Waiting
import KvRaft.System.Linearizable

/-!
# A log index that is used twice

`reuseRun_loses_result` is a run of a whole system in which a waiting call does
not get its result.  Node 0 is the leader twice, and gives index 2 to two calls.
The first of them times out after the second has registered, and deletes the
entry of the second.  The operation of the second is then applied, with node 0
as leader, and nobody is told.
-/

namespace KvRaft

variable {n : Nat} {S Req Val D : Type} {m : StateMachine S Req Val D}

/-- The run of the state machine of a node that is never restarted. -/
def SystemRun.rsmRun (run : SystemRun n m) (i : Fin n)
    (h : ∀ t, (∃ e, (run.state t).exec m e = some (run.state (t + 1)) ∧
        ∀ ce, e = .raft ce → (run.state t).cluster.rebooted ce ≠ some i) ∨
      run.state (t + 1) = run.state t) : RsmRun m i none where
  state t := (run.state t).rsm i
  start := by rw [run.start]; rfl
  next t := by
    rcases h t with ⟨e, hexec, hrunning⟩ | hsame
    · rcases System.exec_rsm hexec i with heq | hstep | ⟨ce, _, he, hboot, _⟩
      · exact Or.inr heq
      · exact Or.inl hstep
      · exact absurd hboot (hrunning ce he)
    · exact Or.inr (by rw [hsame])

/-- `notifyPending` on the leader. -/
theorem System.exec_notifyPending {s s' : System n S Req Val D} {i : Fin n}
    (h : s.exec m (.notifyPending i) = some s')
    (hleader : (s.cluster.nodes i).state = .leader) :
    (s.rsm i).notifyPending true = some (s'.rsm i) := by
  obtain ⟨j, step, r, hev, hr, heq⟩ := System.exec_step h (fun ce he => by cases he)
  cases hev
  have hnotify : (s.rsm i).notifyPending ((s.cluster.nodes i).state = .leader) = some r := hr
  rw [hleader] at hnotify
  rw [heq]
  show _ = some (Function.update s.rsm i r i)
  rw [Function.update_self]
  exact hnotify

/-- The ids of a system are those of its nodes. -/
theorem DistinctIds.submits {run : SystemRun n m} (hids : DistinctIds run) {i : Fin n} {h} :
    DistinctSubmits (run.rsmRun i h) := by
  constructor
  · intro t c c' s s' hs hs' hid
    obtain ⟨d, hd, hop, _⟩ := run.callsOk t i c s hs
    obtain ⟨d', hd', hop', _⟩ := run.callsOk t i c' s' hs'
    exact hids.inj hd hd' ((congrArg Op.id hop).trans (hid.trans (congrArg Op.id hop').symm))
  · intro t c s hs
    obtain ⟨d, hd, hop, _⟩ := run.callsOk t i c s hs
    exact fun hid => hids.ne hd ((congrArg Op.id hop).trans hid)

/-- Events of Raft that restart a node. -/
def SystemEvent.reboots : SystemEvent n Req D → Bool
  | .raft (.crashInBecomeCandidate _) => true
  | .raft (.crashInInstallSnapshot _) => true
  | .raft (.restart _) => true
  | _ => false

theorem SystemEvent.rebooted_eq_none {ce : Event n (Op n Req) D}
    (h : (.raft ce : SystemEvent n Req D).reboots = false) (σ : Cluster n (Op n Req) D) :
    σ.rebooted ce = none := by
  cases ce with
  | crashInBecomeCandidate | crashInInstallSnapshot | restart => cases h
  | _ => rfl

/-- Node 0 is the leader of term 1.  Call 0 is logged at index 1 and call 1 at
index 2.  Node 1 becomes the leader of term 2 with the vote of node 2, logs
call 2 at index 1 and replicates it to node 0, whose two entries are gone then.
Node 0 becomes the leader of term 3 and logs call 3 at index 2.  Now call 1
times out and deletes what is pending at index 2.  Node 1 acknowledges the
entry of call 3, and node 0 applies indices 1 and 2. -/
def reuseEvents : List (SystemEvent 3 Request Store) :=
  [.raft (.electionTimeout node0), .raft (.deliver 0),
    .raft (.handleReply 0 (.requestVote ⟨0, true⟩)), .submit node0 1 (.put "x" "p" 0),
    .register 0, .submit node0 2 (.put "x" "a" 0), .register 1,
    .raft (.electionTimeout node1), .raft (.deliver 3),
    .raft (.handleReply 3 (.requestVote ⟨0, true⟩)), .submit node1 3 (.put "y" "c" 0),
    .register 2, .raft (.replicate node1 node0), .raft (.deliver 4),
    .raft (.handleReply 4 (.appendEntries ⟨1, true, 0, some 0⟩)),
    .raft (.electionTimeout node0), .raft (.deliver 6),
    .raft (.handleReply 6 (.requestVote ⟨2, true⟩)), .submit node0 4 (.put "x" "b" 0),
    .register 3, .timeout 1, .dumpPending 1, .leave 1, .raft (.replicate node0 node1),
    .raft (.deliver 7), .raft (.handleReply 7 (.appendEntries ⟨2, true, 0, some 0⟩)),
    .raft (.applierTake node0), .receive node0, .lockCommand node0, .doOp node0,
    .notifyPending node0, .send node0, .notifyOutdated node0, .endOutdated node0,
    .checkSnapshot node0 false, .receive node0, .lockCommand node0, .doOp node0,
    .notifyPending node0]

/-- The run of these events. -/
def reuseRun : SystemRun 3 Store.machine :=
  Run.ofEvents (System.init Store.machine) (System.exec Store.machine) reuseEvents

/-- The state machine of node 0 in this run. -/
def reuseRsmRun : RsmRun Store.machine node0 none :=
  reuseRun.rsmRun node0 fun t => by
    rcases Run.ofEvents_next (System.init Store.machine) (System.exec Store.machine)
      reuseEvents t with ⟨e, he, hexec⟩ | hsame
    · refine Or.inl ⟨e, hexec, fun ce hce => ?_⟩
      have hrunning : ∀ e ∈ reuseEvents, e.reboots = false := by decide
      have hnone := SystemEvent.rebooted_eq_none (hce ▸ hrunning e (List.mem_of_getElem? he))
        (reuseRun.state t).cluster
      simp [hnone]
    · exact Or.inr hsame

theorem reuseRsmRun_state (t : Nat) : reuseRsmRun.state t = (reuseRun.state t).rsm node0 := rfl

/-- The last event: the reader looks for the entry of index 2. -/
theorem reuseRsmRun_notifyPending :
    (reuseRsmRun.state 38).notifyPending true = some (reuseRsmRun.state (38 + 1)) := by
  have hleader : ((reuseRun.state 38).cluster.nodes node0).state = .leader := by decide +kernel
  have hreader : ((reuseRun.state (38 + 1)).rsm node0).reader ≠
      ((reuseRun.state 38).rsm node0).reader := by decide +kernel
  have hchanged : reuseRun.state (38 + 1) ≠ reuseRun.state 38 :=
    fun hsame => hreader (by rw [hsame])
  have hexec : (reuseRun.state 38).exec Store.machine (.notifyPending node0) =
      some (reuseRun.state (38 + 1)) := Run.ofEvents_exec rfl hchanged
  simp only [reuseRsmRun_state]
  exact System.exec_notifyPending hexec hleader

/-- Call 3 waits for a result that it never gets: its operation is applied at its
index while node 0 is the leader, but its entry is gone. -/
theorem reuseRun_loses_result :
    DistinctSubmits reuseRsmRun ∧ ¬ NoLostResult reuseRsmRun := by
  constructor
  · exact DistinctIds.submits (.of_final (T := 39)
      (fun _ h => Run.ofEvents_state_of_le _ _ reuseEvents h) (by decide +kernel)
      (by decide +kernel))
  · intro h
    have hreader : (reuseRsmRun.state 38).reader =
        .applied ⟨node0, 4, .put "x" "b" 0⟩ 2 (.put .ok) := by decide +kernel
    have hsub : (reuseRsmRun.state 38).submits 3 =
        some ⟨4, .put "x" "b" 0, false, .waiting 2⟩ := by decide +kernel
    have hsub' : (reuseRsmRun.state (38 + 1)).submits 3 =
        some ⟨4, .put "x" "b" 0, false, .waiting 2⟩ := by decide +kernel
    have hsending : (reuseRsmRun.state (38 + 1)).sending = none := by decide +kernel
    cases h.delivered hreader reuseRsmRun_notifyPending hsub rfl rfl (Nat.lt_add_one 38) with
    | sending sub _ _ _ hsend _ =>
      rw [hsending] at hsend
      cases hsend
    | received sub hs hphase =>
      cases hsub'.symm.trans hs
      simp at hphase

end KvRaft
