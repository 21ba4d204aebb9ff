import KvRaft.Raft.Disk
import KvRaft.System.Linearizable

/-!
# Crashes while a snapshot is saved

A node saves a snapshot when its machine gives it one, or when a leader sends
one.  After a crash inside that `Save` the node starts from the two files:
`Make` takes `lastApplied` from the Raft state, and `MakeRSM` takes the machine
from the snapshot.  `CrashSafe` says that the two belong together.

They do not belong together when the crash falls between the two renames and
the snapshot is a new one.  The machine is then older than `lastApplied`, and
the commands in between are never executed on that node.
-/

namespace KvRaft

open Consensus

variable {n : Nat} {S Req Val D : Type} {m : StateMachine S Req Val D}

/-- At moment `t` node `i` can accept a snapshot: it then calls `Save` with
`raftState` and `data` on the files `old`. -/
inductive SavesSnapshot (run : SystemRun n m) (t : Nat) (i : Fin n) :
    Persister n (Op n Req) D → RaftState n (Op n Req) → Option D → Prop where
  /-- `checkSnapshot` calls `Snapshot`. -/
  | snapshot (index : Nat) (rf : Raft n (Op n Req) D)
      (hreader : ((run.state t).rsm i).reader = .checking index)
      (hlt : (run.cluster.node t i).lastIncludedIndex < index)
      (hle : index ≤ (run.cluster.node t i).commitIndex)
      (heq : (run.cluster.node t i).snapshot index
        (some (m.snapshot ((run.state t).rsm i).sm)) = some rf) :
      SavesSnapshot run t i (run.cluster.node t i).persister rf.encodeState
        (some (m.snapshot ((run.state t).rsm i).sm))
  /-- A request of a leader arrives.  A higher term has been written before. -/
  | install (rpc : Rpc n (Op n Req) D) (args : InstallSnapshotArgs n D)
      (rf : Raft n (Op n Req) D) (reply : InstallSnapshotReply)
      (hrpc : rpc ∈ (run.cluster.state t).rpcs) (hdst : rpc.dst = i)
      (hargs : rpc.args = .installSnapshot args)
      (hterm : (run.cluster.node t i).currentTerm ≤ args.term)
      (hlt : (run.cluster.node t i).lastIncludedIndex < args.lastIncludedIndex)
      (heq : (run.cluster.node t i).installSnapshot args = some (rf, reply)) :
      SavesSnapshot run t i ((run.cluster.node t i).installSnapshotTerm args.term).persister
        rf.encodeState args.data

/-- A crash after `k` steps of `Save` leaves the old files or the new ones, and
the node that starts from them has the state after the committed commands up
to `lastApplied`. -/
def CrashSafe (run : SystemRun n m) (i : Fin n) (files : FilePersister n (Op n Req) D)
    (raftState : RaftState n (Op n Req)) (data : Option D) (k : Nat) : Prop :=
  let ps := (files.crashInSave raftState data k).read
  (ps = files.read ∨ ps = files.read.save raftState data) ∧
    Reflects m run.cluster (Raft.make i ps).lastApplied (Rsm.make m i ps.readSnapshot).sm

/-- Every crash inside a `Save` of a snapshot is safe. -/
def CrashAtomicity (run : SystemRun n m) : Prop :=
  ∀ t i old raftState data, SavesSnapshot run t i old raftState data →
    ∀ files : FilePersister n (Op n Req) D, files.read = old → ∀ k,
      CrashSafe run i files raftState data k

/-! ## What is saved -/

section Saved

variable {C : Type} {rf rf' : Raft n C D}

theorem Raft.snapshot_save {index : Nat} {data : Option D} (h : rf.snapshot index data = some rf')
    (hlt : rf.lastIncludedIndex < index) (hle : index ≤ rf.commitIndex) :
    rf'.persister = rf.persister.save rf'.encodeState data ∧ rf'.lastIncludedIndex = index := by
  rcases snapshot_inv h with ⟨hrefuse, _⟩ | ⟨_, logs, term, _, rfl⟩
  · omega
  · exact ⟨rfl, rfl⟩

/-- An accepted `InstallSnapshot` saves after the write of a higher term. -/
theorem Raft.installSnapshot_save {args : InstallSnapshotArgs n D} {reply : InstallSnapshotReply}
    (h : rf.installSnapshot args = some (rf', reply)) (hterm : rf.currentTerm ≤ args.term)
    (hlt : rf.lastIncludedIndex < args.lastIncludedIndex) :
    rf'.persister = (rf.installSnapshotTerm args.term).persister.save rf'.encodeState args.data ∧
      rf'.lastIncludedIndex = args.lastIncludedIndex := by
  rcases (installSnapshot_inv h).2 with ⟨hold, _⟩ | ⟨_, ⟨hle, _⟩ | ⟨_, rf₁, htrunc, rfl⟩⟩
  · omega
  · omega
  · refine ⟨?_, rfl⟩
    rw [truncateLogWithSnapshot_eq htrunc]
    rfl

end Saved

/-! ## Recovery -/

/-- A node that starts from the files of a node that is in order. -/
theorem reflects_of_recover (hm : m.Lawful) {run : ClusterRun n (Op n Req) D}
    {a : Abs n (Op n Req)} {i : Fin n} {rf : Raft n (Op n Req) D}
    (h : NodeSim (SnapshotOf m run) a i rf) :
    Reflects m run (Raft.make i rf.persister).lastApplied
      (Rsm.make m i rf.persister.readSnapshot).sm := by
  have hstate := h.snapData.reflects hm
  rw [h.length_take_snap, ← h.readSnapshot] at hstate
  rw [Rsm.make_sm hm, Raft.make_eq, h.durable]
  exact hstate

/-- The write of a higher term changes neither the snapshot nor its index. -/
theorem NodeSim.recover_installSnapshotTerm {Φ : Log (Option (Op n Req)) → Option D → Prop}
    {a : Abs n (Op n Req)} {i : Fin n} {rf : Raft n (Op n Req) D} (h : NodeSim Φ a i rf)
    (term : Nat) : (rf.installSnapshotTerm term).persister.recover.lastIncludedIndex =
      rf.lastIncludedIndex := by
  rw [Raft.installSnapshotTerm]
  split_ifs
  · rw [Raft.persist_eq (by exact h.alive) (by exact h.noFault)]
    rfl
  · rw [h.durable]
    rfl

/-- The old files and the new files each belong to a node that is in order, and
the new ones reach further. -/
theorem SavesSnapshot.inOrder (hm : m.Lawful) {run : SystemRun n m} {t : Nat} {i : Fin n}
    {old : Persister n (Op n Req) D} {raftState : RaftState n (Op n Req)} {data : Option D}
    (h : SavesSnapshot run t i old raftState data) :
    (∃ a rf, NodeSim (SnapshotOf m run.cluster) a i rf ∧ rf.persister = old) ∧
    (∃ a rf, NodeSim (SnapshotOf m run.cluster) a i rf ∧ rf.persister = old.save raftState data) ∧
    old.recover.lastIncludedIndex < raftState.lastIncludedIndex := by
  obtain ⟨abs, htracks, hinv⟩ := run.tracked hm
  have hnode : NodeSim _ (abs t) i (run.cluster.node t i) := (htracks t).sim.node i
  cases h with
  | snapshot index rf hreader hlt hle heq =>
    obtain ⟨rf', heq', hh⟩ := snapshot_refines hnode ((htracks t).snapOk_checking hreader)
    cases heq.symm.trans heq'
    obtain ⟨hsave, hindex⟩ := Raft.snapshot_save heq hlt hle
    refine ⟨⟨abs t, _, hnode, rfl⟩, ⟨abs t, rf, hh.node, hsave⟩, ?_⟩
    rw [hnode.durable]
    exact hlt.trans_le (Nat.le_of_eq hindex.symm)
  | install rpc args rf reply hrpc hdst hargs hterm hlt heq =>
    obtain ⟨r, hr⟩ := List.mem_iff_getElem?.mp hrpc
    obtain ⟨rf', reply', a', heq', hh, _⟩ :=
      installSnapshot_refines (hinv t) hnode hargs hdst ((htracks t).sim.rpc hr)
    cases heq.symm.trans heq'
    obtain ⟨hsave, hindex⟩ := Raft.installSnapshot_save heq hterm hlt
    refine ⟨?_, ⟨a', rf, hh.node, hsave⟩, ?_⟩
    · rcases Nat.eq_or_lt_of_le hterm with hsame | hhigher
      · refine ⟨abs t, _, hnode, ?_⟩
        rw [Raft.installSnapshotTerm, if_neg (by omega)]
      · obtain ⟨a'', _, hmake⟩ := crashInInstallSnapshot_refines (hinv t) hnode hhigher
        exact ⟨a'', _, hmake, by rw [Raft.make_eq]; rfl⟩
    · rw [hnode.recover_installSnapshotTerm]
      exact hlt.trans_le (Nat.le_of_eq hindex.symm)

/-! ## When a crash is safe -/

theorem crashSafe_iff_of_lawful (hm : m.Lawful) {run : SystemRun n m} {t : Nat} {i : Fin n}
    {old : Persister n (Op n Req) D} {raftState : RaftState n (Op n Req)} {data : Option D}
    (h : SavesSnapshot run t i old raftState data) {files : FilePersister n (Op n Req) D}
    (hfiles : files.read = old) (k : Nat) : CrashSafe run i files raftState data k ↔
      (¬ FilePersister.BetweenRenames k ∨ data = old.snapshot) := by
  obtain ⟨⟨a, rf, hrf, hold⟩, ⟨a', rf', hrf', hnew⟩, hlt⟩ := h.inOrder hm
  have hpair := files.read_crashInSave_iff raftState data k
  rw [hfiles] at hpair
  constructor
  · rintro ⟨hfilesOk, _⟩
    rw [hfiles] at hfilesOk
    rcases hpair.mp hfilesOk with hk | hdata | hstate
    · exact Or.inl hk
    · exact Or.inr hdata
    · -- The new Raft state has a higher index than the old one.
      rw [Persister.recover, hstate] at hlt
      exact absurd hlt (Nat.lt_irrefl _)
  · intro hcond
    have hfilesOk := hpair.mpr (hcond.imp_right Or.inl)
    refine ⟨by rw [hfiles]; exact hfilesOk, ?_⟩
    rcases hfilesOk with heq | heq
    · rw [heq, ← hold]
      exact reflects_of_recover hm hrf
    · rw [heq, ← hnew]
      exact reflects_of_recover hm hrf'

/-- Between the renames the machine is restored at the old index, and Raft goes
on after the new one. -/
theorem SavesSnapshot.reflects_between (hm : m.Lawful) {run : SystemRun n m} {t : Nat} {i : Fin n}
    {old : Persister n (Op n Req) D} {raftState : RaftState n (Op n Req)} {data : Option D}
    (h : SavesSnapshot run t i old raftState data) {files : FilePersister n (Op n Req) D}
    (hfiles : files.read = old) {k : Nat} (hk : FilePersister.BetweenRenames k) :
    let ps := (files.crashInSave raftState data k).read
    Reflects m run.cluster old.recover.lastIncludedIndex (Rsm.make m i ps.readSnapshot).sm ∧
      (Raft.make i ps).lastApplied = raftState.lastIncludedIndex ∧
      old.recover.lastIncludedIndex < raftState.lastIncludedIndex := by
  obtain ⟨⟨a, rf, hrf, rfl⟩, _, hlt⟩ := h.inOrder hm
  have hstate := reflects_of_recover hm hrf
  rw [Raft.make_eq] at hstate
  intro ps
  have hps : ps = rf.persister.save raftState rf.persister.snapshot := by
    rw [← hfiles]
    exact files.read_crashInSave_between raftState data hk
  rw [hps]
  exact ⟨hstate, by rw [Raft.make_eq]; rfl, hlt⟩

/-! ## A crash that loses a command -/

/-- The files of node 0 of `putRun` when the reader looks at the snapshots. -/
def putFiles : FilePersister 3 (Op 3 Request) Store :=
  let ps := (putRun.cluster.node 16 node0).persister
  ⟨⟨ps.raftState, none⟩, ⟨ps.snapshot, none⟩⟩

/-- No snapshot was saved before. -/
theorem putFiles_snapshot : putFiles.read.snapshot = none := by decide +kernel

theorem putFiles_savesSnapshot : ∃ rf : Raft 3 (Op 3 Request) Store,
    SavesSnapshot putRun 16 0 putFiles.read rf.encodeState
      (some (Store.machine.snapshot ((putRun.state 16).rsm 0).sm)) ∧
    rf.lastIncludedIndex = 1 := by
  have hlt : (putRun.cluster.node 16 0).lastIncludedIndex < 1 := by decide +kernel
  have hle : 1 ≤ (putRun.cluster.node 16 0).commitIndex := by decide +kernel
  obtain ⟨rf, heq⟩ := Option.isSome_iff_exists.mp (show ((putRun.cluster.node 16 0).snapshot 1
    (some (Store.machine.snapshot ((putRun.state 16).rsm 0).sm))).isSome by decide +kernel)
  have hfiles : putFiles.read = (putRun.cluster.node 16 0).persister := by decide +kernel
  rw [hfiles]
  exact ⟨rf, .snapshot 1 rf (by decide +kernel) hlt hle heq, (Raft.snapshot_save heq hlt hle).2⟩

/-- The snapshot with the `Put` is not renamed before the crash.  The node
restarts with `lastApplied` 1 and an empty store. -/
theorem snapshot_crash_loses_put : ¬ CrashAtomicity putRun := by
  intro hatomic
  obtain ⟨rf, hsave, hindex⟩ := putFiles_savesSnapshot
  have hk : FilePersister.BetweenRenames 2 := Or.inl rfl
  have hsafe := (hatomic 16 0 _ _ _ hsave putFiles rfl 2).2
  obtain ⟨_, hlast, _⟩ := hsave.reflects_between Store.lawful rfl hk
  have hone : rf.encodeState.lastIncludedIndex = 1 := hindex
  rw [hlast, hone, putFiles.readSnapshot_crashInSave_between _ _ hk, putFiles_snapshot] at hsafe
  have hstore := (replicaState_of_lawful Store.lawful putRun).store (t := 17) (i := 0)
    (by decide +kernel)
  rw [show (putRun.cluster.node 17 0).position = 1 by decide +kernel] at hstore
  have hne : ((putRun.state 17).rsm 0).sm ≠ (Rsm.make (n := 3) Store.machine 0 none).sm := by
    decide +kernel
  exact hne (hstore.eq hsafe)

/-- A crash inside a `Save` of the store's nodes. -/
theorem store_crashSafe_iff (run : SystemRun n Store.machine) {t : Nat} {i : Fin n}
    {old : Persister n (Op n Request) Store} {raftState : RaftState n (Op n Request)}
    {data : Option Store} (h : SavesSnapshot run t i old raftState data)
    {files : FilePersister n (Op n Request) Store} (hfiles : files.read = old) (k : Nat) :
    CrashSafe run i files raftState data k ↔
      (¬ FilePersister.BetweenRenames k ∨ data = old.snapshot) :=
  crashSafe_iff_of_lawful Store.lawful h hfiles k

/-- At that moment of `putRun` a crash before the first rename is safe, and one
between the renames is not. -/
theorem crashSafe_iff_putRun : ∃ rf : Raft 3 (Op 3 Request) Store,
    CrashSafe putRun 0 putFiles rf.encodeState
      (some (Store.machine.snapshot ((putRun.state 16).rsm 0).sm)) 1 ∧
    ¬ CrashSafe putRun 0 putFiles rf.encodeState
      (some (Store.machine.snapshot ((putRun.state 16).rsm 0).sm)) 2 := by
  obtain ⟨rf, hsave, _⟩ := putFiles_savesSnapshot
  refine ⟨rf, (store_crashSafe_iff putRun hsave rfl 1).mpr (Or.inl ?_), fun h => ?_⟩
  · rintro (h | h) <;> cases h
  · rcases (store_crashSafe_iff putRun hsave rfl 2).mp h with hk | hdata
    · exact hk (Or.inl rfl)
    · rw [putFiles_snapshot] at hdata
      cases hdata

end KvRaft
