import KvRaft.Cluster.Committed
import KvRaft.Service.Store
import KvRaft.System.History

/-!
# Replicas

A replica reaches its state in three ways: command by command, from the disk
after a restart, and from a snapshot that is installed over the live state.
All three give the state after the committed commands `1..k`, where `k` is the
position of the replica.

* `Reflects` is that statement for one state, and `ReaderOk` carries it through
  every point of the reader.
* `SnapshotOf` is what a snapshot must be.  It is the meaning of snapshots that
  the simulation of the cluster is used with.
* `Tracks` is the invariant of the whole system, and `SystemRun.tracked` says
  that it holds throughout every run.
-/

namespace KvRaft

open Consensus

variable {n : Nat} {S Req Val D : Type} {m : StateMachine S Req Val D}

section Reader

variable (m) (run : ClusterRun n (Op n Req) D)

/-- `sm` is the state after the committed commands `1..k`. -/
def Reflects (k : Nat) (sm : S) : Prop :=
  ∃ cmds, CommittedCmds run cmds ∧ cmds.length = k ∧ sm = m.stateAfter cmds

/-- There is one state after the committed commands `1..k`. -/
theorem Reflects.eq {m : StateMachine S Req Val D} {run : ClusterRun n (Op n Req) D} {k : Nat}
    {sm sm' : S} (h : Reflects m run k sm) (h' : Reflects m run k sm') : sm = sm' := by
  obtain ⟨cmds, hcmds, hlen, rfl⟩ := h
  obtain ⟨cmds', hcmds', hlen', rfl⟩ := h'
  rw [hcmds.eq_of_length hcmds' (hlen.trans hlen'.symm)]

/-- `op` is the committed command at `index`, and `val` is its result. -/
def ExecutesAt (index : Nat) (op : Op n Req) (val : Val) : Prop :=
  ∃ cmds, CommittedCmds run (cmds ++ [some op]) ∧ cmds.length + 1 = index ∧
    val = (m.doOp (m.stateAfter cmds) op.req).2

/-- `op` is the next command after the state `sm`, and takes it to `index`. -/
def Precedes (sm : S) (op : Op n Req) (index : Nat) : Prop :=
  ∃ cmds, CommittedCmds run (cmds ++ [some op]) ∧ cmds.length + 1 = index ∧
    sm = m.stateAfter cmds

/-- The reader is done with the state at `pos`. -/
structure ReaderDone (pos index : Nat) (r : Rsm n S Req Val D) : Prop where
  index : index = pos
  state : Reflects m run pos r.sm
  applied : r.lastApplied ≤ pos

/-- What holds where the reader is, when Raft has fed it up to `pos`. -/
def ReaderOk (pos : Nat) (r : Rsm n S Req Val D) : Prop :=
  match r.reader with
  | .idle => ReaderDone m run pos pos r
  | .gotCommand op index => index = pos ∧ Precedes m run r.sm op pos ∧ r.lastApplied < pos
  | .gotSnapshot data index => index = pos ∧ ∃ cmds k, CommittedCmds run cmds ∧
      cmds.length = pos ∧ r.sm = m.stateAfter (cmds.take k) ∧
      data = some (m.snapshot (m.stateAfter cmds))
  | .applying op index => index = pos ∧ Precedes m run r.sm op pos ∧ r.lastApplied ≤ pos
  | .applied op index val => ReaderDone m run pos index r ∧ ExecutesAt m run pos op val
  | .notifying index res => ReaderDone m run pos index r ∧
      (res.id = -1 ∨ ∃ op val, res = ⟨op.id, some val⟩ ∧ ExecutesAt m run pos op val)
  | .scanning index _ => ReaderDone m run pos index r
  | .outdated index _ _ _ => ReaderDone m run pos index r
  | .dropping _ index _ _ _ => ReaderDone m run pos index r
  | .checking index => ReaderDone m run pos index r
  | .draining => False
  | .stopped => False

end Reader

section Steps

variable {run : ClusterRun n (Op n Req) D} {pos : Nat} {r r' : Rsm n S Req Val D}

theorem ReaderOk.congr (h : ReaderOk m run pos r) (hreader : r'.reader = r.reader)
    (hsm : r'.sm = r.sm) (happlied : r'.lastApplied = r.lastApplied) :
    ReaderOk m run pos r' := by
  have hset : ∀ index, ReaderDone m run pos index r → ReaderDone m run pos index r' :=
    fun index h => ⟨h.index, hsm ▸ h.state, happlied ▸ h.applied⟩
  rw [ReaderOk, hreader]
  rw [ReaderOk] at h
  split at h <;> simp_all

/-- A step other than a receive keeps the reader right. -/
theorem ReaderOk.step (hm : m.Lawful) (h : ReaderOk m run pos r) {e : RsmEvent n Req D}
    (hrecv : ∀ msg, e ≠ .receive msg) (hclose : e ≠ .close) (hexec : r.exec m e = some r') :
    ReaderOk m run pos r' := by
  rcases Rsm.exec_kinds hexec with hread | hcalls | ⟨leader, rfl⟩ | ⟨hdrain, _⟩
  · cases hread with
    | skip | command | snapshot => exact absurd rfl (hrecv _)
    | close => exact absurd rfl hclose
    | stale op index hreader hle =>
      rw [ReaderOk, hreader] at h
      exact absurd h.2.2 (h.1 ▸ Nat.not_lt_of_le hle)
    | lock op index hreader _ =>
      rw [ReaderOk, hreader] at h
      exact ⟨h.1, h.2.1, Nat.le_of_eq h.1⟩
    | doOp op index hreader =>
      rw [ReaderOk, hreader] at h
      obtain ⟨rfl, ⟨cmds, hcmds, hlen, hsm⟩, hle⟩ := h
      refine ⟨⟨rfl, ⟨_, hcmds, by simp [hlen], ?_⟩, hle⟩, cmds, hcmds, hlen, ?_⟩
      · rw [m.stateAfter_concat_some, hsm]
      · rw [hsm]
    | unknown _ op index val hreader =>
      rw [ReaderOk, hreader] at h
      exact ⟨h.1.index, h.1.state, h.1.applied⟩
    | notify _ op index val entry res hreader _ hres =>
      rw [ReaderOk, hreader] at h
      refine ⟨⟨h.1.index, h.1.state, h.1.applied⟩, ?_⟩
      rcases hres with rfl | rfl
      · exact Or.inl rfl
      · exact Or.inr ⟨op, val, rfl, h.2⟩
    | handleSnapshot data index hreader =>
      rw [ReaderOk, hreader] at h
      obtain ⟨rfl, cmds, k, hcmds, hlen, hsm, hdata⟩ := h
      refine ⟨rfl, ⟨cmds, hcmds, hlen, ?_⟩, Nat.le_refl _⟩
      rw [hsm, hdata, hm.restore_take]
    | scan _ _ _ _ hreader | drop _ _ _ _ _ _ hreader | endCommand _ _ _ hreader =>
      rw [ReaderOk, hreader] at h
      exact ⟨h.index, h.state, h.applied⟩
    | endSnapshot _ _ _ hreader | check _ hreader =>
      -- The reader is done with the message.
      rw [ReaderOk, hreader] at h
      exact ⟨rfl, h.state, h.applied⟩
  · obtain ⟨hreader, hsm, happlied⟩ := Rsm.exec_calls hcalls hexec
    exact h.congr hreader hsm happlied
  · obtain ⟨idx, res, entry, s, index, hsending, _, _, _, rfl⟩ := Rsm.send_inv hexec
    rcases Rsm.reader_cases_of_sending hsending with hreader | ⟨_, _, _, _, hreader⟩
    · rw [ReaderOk, hreader] at h
      simp only [ReaderOk, Rsm.afterSend, hreader]
      exact ⟨h.1.index, h.1.state, h.1.applied⟩
    · rw [ReaderOk, hreader] at h
      simp only [ReaderOk, Rsm.afterSend, hreader]
      exact ⟨h.index, h.state, h.applied⟩
  · rw [ReaderOk, hdrain] at h
    exact h.elim

/-- What the applier may send to a reader at `pos`. -/
def NextOk (m : StateMachine S Req Val D) (run : ClusterRun n (Op n Req) D) (pos : Nat) :
    ApplyMsg (Op n Req) D → Prop
  | .command c k => k = pos + 1 ∧ ∃ e, Commits run k e ∧ e.command = c
  | .snapshot d _ k => pos < k ∧ ∃ cmds, CommittedCmds run cmds ∧ cmds.length = k ∧
      d = some (m.snapshot (m.stateAfter cmds))

/-- A receive takes the reader to the position of the message. -/
theorem ReaderOk.receive (h : ReaderOk m run pos r) {msg : ApplyMsg (Op n Req) D}
    (hmsg : NextOk m run pos msg) (hexec : r.receive msg = some r') :
    ReaderOk m run msg.index r' := by
  obtain ⟨hidle, hcases⟩ := Rsm.receive_inv hexec
  rw [ReaderOk, hidle] at h
  obtain ⟨_, ⟨cmds, hcmds, hlen, hsm⟩, hle⟩ := h
  rcases hcases with ⟨index, rfl, rfl⟩ | ⟨op, index, rfl, rfl⟩ | ⟨data, term, index, rfl, rfl⟩
  · obtain ⟨rfl, e, he, hnone⟩ := hmsg
    have hnext := hcmds.concat (hlen ▸ he)
    rw [hnone] at hnext
    simp only [ReaderOk, hidle]
    refine ⟨rfl, ⟨_, hnext, by simp [hlen, ApplyMsg.index], ?_⟩, Nat.le_succ_of_le hle⟩
    rw [m.stateAfter_concat_none, hsm]
  · obtain ⟨rfl, e, he, hsome⟩ := hmsg
    have hnext := hcmds.concat (hlen ▸ he)
    rw [hsome] at hnext
    exact ⟨rfl, ⟨cmds, hnext, by rw [hlen]; rfl, hsm⟩, Nat.lt_succ_of_le hle⟩
  · obtain ⟨hlt, cmds', hcmds', hlen', hdata⟩ := hmsg
    refine ⟨rfl, cmds', pos, hcmds', hlen', ?_, hdata⟩
    rw [hsm, hcmds.eq_take hcmds' (by omega), hlen]

end Steps

/-! ## Snapshots -/

/-- `d` is a snapshot of the committed prefix `p`. -/
def SnapshotOf (m : StateMachine S Req Val D) (run : ClusterRun n (Op n Req) D)
    (p : Log (Option (Op n Req))) (d : Option D) : Prop :=
  CommittedPrefix run p d ∧
    match d with
    | none => p = []
    | some data => data = m.snapshot (m.stateAfter (p.map Slot.cmd))

/-- What a snapshot restores. -/
theorem SnapshotOf.reflects (hm : m.Lawful) {run : ClusterRun n (Op n Req) D}
    {p : Log (Option (Op n Req))} {d : Option D} (h : SnapshotOf m run p d) :
    Reflects m run p.length (m.restore m.new d) := by
  obtain ⟨hcom, hd⟩ := h
  refine ⟨p.map Slot.cmd, .of_committedPrefix hcom, List.length_map .., ?_⟩
  cases d with
  | none => rw [hm.restore_none, hd]; rfl
  | some data => rw [hd, hm.restore_new]

/-! ## The invariant of the system -/

/-- The system is at a moment of `run` and shows the protocol state `a`. -/
structure Tracks (m : StateMachine S Req Val D) (run : ClusterRun n (Op n Req) D)
    (s : System n S Req Val D) (a : Abs n (Op n Req)) : Prop where
  sim : Sim (SnapshotOf m run) s.cluster a
  reader : ∀ i, ReaderOk m run (s.cluster.nodes i).position (s.rsm i)
  /-- A slot of a leader's log comes from a call that `Start` accepted. -/
  slots : ∀ {k e}, a.HasSlot k e → ∃ (call : Nat) (c : Call n Req Val),
    s.calls[call]? = some c ∧ e.cmd = some c.op ∧ c.started = some (k + 1, e.term)

section Tracks

variable {run : SystemRun n m} {t : Nat} {a a' : Abs n (Op n Req)} {e : SystemEvent n Req D}

/-- A snapshot that is no event of Raft alone comes from `checkSnapshot`. -/
theorem System.raftEvent_snapshot {s : System n S Req Val D} {i : Fin n} {index : Nat}
    {data : Option D} (h : s.raftEvent m e = some (.snapshot i index data)) :
    e = .raft (.snapshot i index data) ∨ (s.rsm i).reader = .checking index ∧
      data = some (m.snapshot (s.rsm i).sm) := by
  cases e with
  | raft ce =>
    cases h
    exact Or.inl rfl
  | register call =>
    obtain ⟨c, _, hc⟩ := Option.map_eq_some_iff.mp h
    cases hc
  | checkSnapshot j take =>
    cases take with
    | false => cases h
    | true =>
      simp only [raftEvent] at h
      split at h
      · rename_i hreader
        cases h
        exact Or.inr ⟨hreader, rfl⟩
      · cases h
  | _ => cases h

/-- The machine gives Raft a snapshot of what is committed. -/
theorem Tracks.snapOk_checking (h : Tracks m run.cluster (run.state t) a) {i : Fin n}
    {index : Nat} (hreader : ((run.state t).rsm i).reader = .checking index) :
    SnapOk (SnapshotOf m run.cluster) (run.state t).cluster a
      (.snapshot i index (some (m.snapshot ((run.state t).rsm i).sm))) := by
  intro hlt hle
  have hS : Sim (CommittedPrefix run.cluster) (run.cluster.state t) a :=
    h.sim.imp fun _ _ hd => hd.1
  have hcom := committedPrefix_snapOk hS
    (.snapshot i index (some (m.snapshot ((run.state t).rsm i).sm))) hlt hle
  have hset := h.reader i
  rw [ReaderOk, hreader] at hset
  obtain ⟨cmds, hcmds, hlen, hsm⟩ := hset.state
  refine ⟨hcom, ?_⟩
  -- The log of the member up to `index` is the committed log of that length.
  have hlog := (CommittedCmds.of_committedPrefix hcom).eq_of_length hcmds (by
    have := hle.trans (h.sim.node i).commitLe
    rw [hlen, ← hset.index, List.length_map, List.length_take]
    omega)
  rw [hsm, hlog]

theorem Tracks.snapOk (h : Tracks m run.cluster (run.state t) a)
    (hexec : (run.state t).exec m e = some (run.state (t + 1))) {ce : Event n (Op n Req) D}
    (hce : (run.state t).raftEvent m e = some ce) :
    SnapOk (SnapshotOf m run.cluster) (run.state t).cluster a ce := by
  cases ce with
  | snapshot i index data =>
    rcases System.raftEvent_snapshot hce with rfl | ⟨hreader, rfl⟩
    · cases (System.exec_internal hexec).1
    · exact h.snapOk_checking hreader
  | _ => trivial

/-- The message that the applier sends next. -/
theorem Tracks.nextOk (h : Tracks m run.cluster (run.state t) a) {i : Fin n}
    {msg : ApplyMsg (Op n Req) D}
    (hhead : ((run.state t).cluster.nodes i).applying.head? = some msg)
    (hsend : ((run.state (t + 1)).cluster.nodes i).applyCh =
      ((run.state t).cluster.nodes i).applyCh ++ [msg]) :
    NextOk m run.cluster ((run.state t).cluster.nodes i).position msg := by
  have hnode := h.sim.node i
  obtain ⟨rest, happ⟩ := List.head?_eq_some_iff.mp hhead
  have hfollows := hnode.follows_position.2
  rw [happ] at hfollows
  cases msg with
  | command c k =>
    obtain ⟨abs, hA⟩ := exists_accompanied run.cluster
    refine ⟨hfollows.1, hA.delivered (t := t + 1) (i := i) ?_⟩
    show .command c k ∈ ((run.state (t + 1)).cluster.nodes i).applyCh
    rw [hsend]
    exact List.mem_append_right _ (List.mem_singleton_self _)
  | snapshot d term k =>
    have hmem : .snapshot d term k ∈ ((run.state t).cluster.nodes i).applyCh ++
        ((run.state t).cluster.nodes i).applying := by
      rw [happ]
      exact List.mem_append_right _ (List.mem_cons_self ..)
    obtain ⟨p, _, hlen, _, hcom, hd⟩ := hnode.msgs _ hmem
    refine ⟨hfollows.1, p.map Slot.cmd, .of_committedPrefix hcom, by rw [List.length_map, hlen], ?_⟩
    cases d with
    | none =>
      have := hfollows.1
      rw [hd] at hlen
      simp only [List.length_nil] at hlen
      omega
    | some data => rw [hd]

theorem Rsm.make_sm (hm : m.Lawful) (i : Fin n) (snapshot : Option D) :
    (Rsm.make (n := n) m i snapshot).sm = m.restore m.new snapshot := by
  cases snapshot with
  | none => exact (hm.restore_none _).symm
  | some data => rfl

/-- What a new state machine starts from. -/
theorem System.makeRsm_readerOk (hm : m.Lawful) {run : ClusterRun n (Op n Req) D}
    {σ : Cluster n (Op n Req) D} {j : Fin n}
    (h : NodeSim (SnapshotOf m run) a j (σ.nodes j)) {ps : Persister n (Op n Req) D}
    (hmake : σ.nodes j = .make j ps) :
    ReaderOk m run (σ.nodes j).position (makeRsm m σ j) := by
  have hstate := h.snapData.reflects hm
  rw [h.length_take_snap, ← h.readSnapshot] at hstate
  have hpos : (σ.nodes j).position = (σ.nodes j).lastIncludedIndex := by
    rw [hmake, Raft.position_make]
  rw [hpos]
  refine ⟨rfl, ?_, Nat.zero_le _⟩
  rw [makeRsm, Rsm.make_sm hm]
  exact hstate

/-- An event outside Raft, other than a receive, feeds no state machine. -/
theorem System.exec_feed {s s' : System n S Req Val D} (hexec : s.exec m e = some s')
    (hraft : ∀ ce, e ≠ .raft ce) (hrecv : ∀ i, e ≠ .receive i) (j : Fin n) :
    (s'.cluster.nodes j).feed = (s.cluster.nodes j).feed := by
  have hcluster := exec_cluster hexec
  cases hce : s.raftEvent m e with
  | none =>
    rw [hce, execRaft] at hcluster
    rw [← Option.some.inj hcluster]
  | some ce =>
    rw [hce, execRaft] at hcluster
    split_ifs at hcluster
    have hkind : (∃ i c, ce = .start i c) ∨ ∃ i index data, ce = .snapshot i index data := by
      cases e with
      | raft ce => exact absurd rfl (hraft ce)
      | receive i => exact absurd rfl (hrecv i)
      | register call =>
        obtain ⟨c, _, hc⟩ := Option.map_eq_some_iff.mp hce
        exact Or.inl ⟨_, _, hc.symm⟩
      | checkSnapshot i take =>
        cases take with
        | false => cases hce
        | true =>
          simp only [raftEvent] at hce
          split at hce
          · exact Or.inr ⟨_, _, _, (Option.some.inj hce).symm⟩
          · cases hce
      | _ => cases hce
    rcases hkind with ⟨i, c, rfl⟩ | ⟨i, index, data, rfl⟩
    · exact Cluster.exec_feed hcluster (by simp [Cluster.rebooted]) (by simp)
    · exact Cluster.exec_feed hcluster (by simp [Cluster.rebooted]) (by simp)

/-- Only a receive is a step of receiving, and no channel is closed. -/
theorem System.rsmEvent_ne {s : System n S Req Val D} {i : Fin n} {step : RsmEvent n Req D}
    (h : s.rsmEvent e = some (i, step)) (hrecv : ∀ i, e ≠ .receive i) :
    (∀ msg, step ≠ .receive msg) ∧ step ≠ .close := by
  cases e with
  | receive i => exact absurd rfl (hrecv i)
  | register | timeout | dumpPending | leave =>
    obtain ⟨c, _, hc⟩ := Option.map_eq_some_iff.mp h
    cases hc
    exact ⟨by simp, by simp⟩
  | raft => cases h
  | _ =>
    cases h
    exact ⟨by simp, by simp⟩

/-- Where the readers are after an event. -/
theorem Tracks.reader_step (hm : m.Lawful) (h : Tracks m run.cluster (run.state t) a)
    (hexec : (run.state t).exec m e = some (run.state (t + 1)))
    (hsim : Sim (SnapshotOf m run.cluster) (run.state (t + 1)).cluster a') (j : Fin n) :
    ReaderOk m run.cluster ((run.state (t + 1)).cluster.nodes j).position
      ((run.state (t + 1)).rsm j) := by
  by_cases hraft : ∃ ce, e = .raft ce
  · obtain ⟨ce, rfl⟩ := hraft
    obtain ⟨hint, hrsm, _⟩ := System.exec_internal hexec
    have hcluster := System.exec_cluster hexec
    rw [System.raftEvent, System.execRaft] at hcluster
    split_ifs at hcluster with hen
    rw [hrsm]
    by_cases hboot : (run.state t).cluster.rebooted ce = some j
    · obtain ⟨ps, hps⟩ := Cluster.exec_rebooted hen hcluster hboot
      rw [hboot, System.restarted, Function.update_self]
      exact System.makeRsm_readerOk hm (hsim.node j) hps
    · have hsame : (run.state t).restarted m (run.state (t + 1)).cluster
          ((run.state t).cluster.rebooted ce) j = (run.state t).rsm j := by
        cases hi : (run.state t).cluster.rebooted ce with
        | none => rfl
        | some i =>
          have hji : j ≠ i := fun hji => hboot (hji ▸ hi)
          exact Function.update_of_ne hji ..
      have hsend : ce ≠ .applierSend j := by
        rintro rfl
        cases hint
      rw [hsame, Raft.position_of_feed (Cluster.exec_feed hcluster hboot hsend)]
      exact h.reader j
  obtain ⟨i, step, r, hev, hr, heq⟩ := System.exec_step hexec (not_exists.mp hraft)
  by_cases hrecv : ∃ i, e = .receive i
  · obtain ⟨i', rfl⟩ := hrecv
    obtain ⟨msg, hhead, hev⟩ := Option.map_eq_some_iff.mp hev
    cases hev
    have hcluster := System.exec_cluster hexec
    rw [System.raftEvent, System.execRaft] at hcluster
    split_ifs at hcluster
    have hsent : ((run.state (t + 1)).cluster.nodes i).applyCh =
        ((run.state t).cluster.nodes i).applyCh ++ [msg] := by
      obtain ⟨rest, happ⟩ := List.head?_eq_some_iff.mp hhead
      rw [← Option.some.inj hcluster]
      simp only [Cluster.setNode, Function.update_self, Raft.applierSend, happ]
    rw [heq]
    dsimp only
    by_cases hji : j = i
    · subst hji
      rw [Function.update_self, Raft.position_of_applyCh hsent]
      exact (h.reader j).receive (h.nextOk hhead hsent) hr
    · have hfeed := Cluster.exec_feed hcluster (j := j) (by simp [Cluster.rebooted])
        (fun heq => hji (by cases heq; rfl))
      rw [Function.update_of_ne hji, Raft.position_of_feed hfeed]
      exact h.reader j
  · obtain ⟨hne, hclose⟩ := System.rsmEvent_ne hev (not_exists.mp hrecv)
    rw [Raft.position_of_feed (System.exec_feed hexec (not_exists.mp hraft)
      (not_exists.mp hrecv) j), heq]
    dsimp only
    by_cases hji : j = i
    · subst hji
      rw [Function.update_self]
      exact (h.reader j).step hm hne hclose hr
    · rw [Function.update_of_ne hji]
      exact h.reader j

/-- The slot that a call of `Start` makes is recorded with the call. -/
theorem System.exec_origin {s s' : System n S Req Val D} (hexec : s.exec m e = some s')
    {ce : Event n (Op n Req) D} (hce : s.raftEvent m e = some ce) {k : Nat}
    {slot : Slot (Option (Op n Req))} (h : s.cluster.Origin ce k slot) :
    ∃ (call : Nat) (c : Call n Req Val), s'.calls[call]? = some c ∧ slot.cmd = some c.op ∧
      c.started = some (k + 1, slot.term) := by
  obtain ⟨i, cmd, rfl, hleader, hk, rfl⟩ := h
  cases e with
  | raft ce =>
    cases hce
    cases (exec_internal hexec).1
  | register call =>
    obtain ⟨c, hc, hstart⟩ := Option.map_eq_some_iff.mp hce
    cases hstart
    obtain ⟨_, _, r, _, _, heq⟩ := exec_step hexec (by simp)
    have hcall : s'.calls[call]? = some { c with
        started := ((s.cluster.nodes c.node).start (some c.op)).2
        answer := r.answer call } := by
      rw [heq]
      simp [record, hc]
    exact ⟨call, _, hcall, rfl, by simp [Raft.start, hleader, hk]⟩
  | checkSnapshot j take =>
    cases take with
    | false => cases hce
    | true =>
      simp only [raftEvent] at hce
      split at hce <;> cases hce
  | _ => cases hce

/-- One event. -/
theorem Tracks.step (hm : m.Lawful) (hI : a.Inv) (h : Tracks m run.cluster (run.state t) a)
    (hexec : (run.state t).exec m e = some (run.state (t + 1))) :
    ∃ a', Relation.ReflTransGen State.Step a a' ∧
      Tracks m run.cluster (run.state (t + 1)) a' := by
  have hcluster := System.exec_cluster hexec
  have hcalls := (calls_step (run.callsOk t) hexec).2
  -- A call that `Start` accepted keeps its entry.
  have hslots : ∀ {k s}, a.HasSlot k s → ∃ (call : Nat) (c : Call n Req Val),
      (run.state (t + 1)).calls[call]? = some c ∧ s.cmd = some c.op ∧
        c.started = some (k + 1, s.term) := by
    intro k s hs
    obtain ⟨call, c, hc, hop, hstarted⟩ := h.slots hs
    obtain ⟨c', hc', hle⟩ := hcalls call c hc
    refine ⟨call, c', hc', by rw [hle.op, hop], ?_⟩
    rw [hle.started (by rw [hstarted]; exact Option.some_ne_none _), hstarted]
  cases hce : (run.state t).raftEvent m e with
  | none =>
    rw [hce, System.execRaft] at hcluster
    have hsim : Sim (SnapshotOf m run.cluster) (run.state (t + 1)).cluster a := by
      rw [← Option.some.inj hcluster]
      exact h.sim
    exact ⟨a, .refl, hsim, h.reader_step hm hexec hsim, hslots⟩
  | some ce =>
    rw [hce, System.execRaft] at hcluster
    split_ifs at hcluster with hen
    obtain ⟨σ', a', hexec', href⟩ := exec_refines hI h.sim hen (h.snapOk hexec hce)
    cases hcluster.symm.trans hexec'
    refine ⟨a', href.steps, href.sim, h.reader_step hm hexec href.sim, fun hs => ?_⟩
    rcases href.slots hs with hs | horigin
    · exact hslots hs
    · exact System.exec_origin hexec hce horigin

end Tracks

/-- The invariant holds throughout every run, along one execution of the
protocol. -/
theorem SystemRun.tracked (hm : m.Lawful) (run : SystemRun n m) :
    ∃ abs : Nat → Abs n (Op n Req), (∀ t, Tracks m run.cluster (run.state t) (abs t)) ∧
      ∀ t, (abs t).Inv := by
  have hinit : Tracks m run.cluster (System.init m) State.initial := by
    have hsim : Sim (n := n) (SnapshotOf m run.cluster) Cluster.init State.initial :=
      sim_init ⟨fun k s hs => by simp at hs, rfl⟩
    refine ⟨hsim, fun i => ?_, fun hs => ?_⟩
    · exact System.makeRsm_readerOk hm (hsim.node i) (show _ = Raft.make i .empty from rfl)
    · obtain ⟨t, ht, _⟩ := hs
      exact absurd rfl ht
  obtain ⟨abs, habs0, htracks, hsteps⟩ := Run.simulated run hinit
    (fun t a ha h ⟨e, hexec⟩ => h.step hm (State.Reachable.inv ha) hexec)
  refine ⟨abs, htracks, fun t => ?_⟩
  have := hsteps 0 t (Nat.zero_le t)
  rw [habs0] at this
  exact State.Reachable.inv this

/-! ## Replica state -/

/-- Every replica's state, and every snapshot anywhere, is the state after the
committed commands up to its index. -/
structure ReplicaState (run : SystemRun n m) : Prop where
  /-- A replica between two messages.  `position` is the index of the last
  message, or the recovered one when there was none. -/
  store : ∀ {t i}, ((run.state t).rsm i).reader = .idle →
    Reflects m run.cluster (run.cluster.node t i).position ((run.state t).rsm i).sm
  /-- The snapshot on a disk, with the index on that disk. -/
  persister : ∀ {t i}, Reflects m run.cluster
    (run.cluster.node t i).persister.recover.lastIncludedIndex
    (m.restore m.new (run.cluster.node t i).persister.snapshot)
  /-- The snapshot in a request. -/
  request : ∀ {t rpc args}, rpc ∈ (run.cluster.state t).rpcs → rpc.args = .installSnapshot args →
    Reflects m run.cluster args.lastIncludedIndex (m.restore m.new args.data)
  /-- The snapshot in a message from the applier. -/
  message : ∀ {t i data term index},
    .snapshot data term index ∈ (run.cluster.node t i).applyCh ++ (run.cluster.node t i).applying →
    Reflects m run.cluster index (m.restore m.new data)

theorem replicaState_of_lawful (hm : m.Lawful) (run : SystemRun n m) : ReplicaState run := by
  obtain ⟨abs, htracks, hinv⟩ := run.tracked hm
  refine
    { store := fun {t i} hidle => ?_
      persister := fun {t i} => ?_
      request := fun {t rpc args} hrpc hargs => ?_
      message := fun {t i data term index} hmsg => ?_ }
  · have := (htracks t).reader i
    rw [ReaderOk, hidle] at this
    exact this.state
  · have hnode : NodeSim _ (abs t) i (run.cluster.node t i) := (htracks t).sim.node i
    have := hnode.snapData.reflects hm
    rw [hnode.length_take_snap] at this
    rw [hnode.durable]
    exact this
  · obtain ⟨r, hr⟩ := List.mem_iff_getElem?.mp hrpc
    have := (rpcOk_installSnapshot hargs).mp ((htracks t).sim.rpc hr)
    have h := this.2.2.2.2.reflects hm
    rwa [List.length_take, Nat.min_eq_left this.2.1] at h
  · obtain ⟨p, _, rfl, _, hd⟩ := ((htracks t).sim.node i).msgs _ hmsg
    exact hd.reflects hm

/-- Replicas of the store. -/
theorem store_replicaState (run : SystemRun n Store.machine) : ReplicaState run :=
  replicaState_of_lawful Store.lawful run

end KvRaft
