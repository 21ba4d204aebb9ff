import KvRaft.Raft.Storage

/-!
# The files of a persister

Translated from `kvraft/internal/raft/disk_persister.go`.  `FilePersister`
keeps the Raft state and the snapshot in two files.  `atomicWrite` replaces one
file: it writes and syncs a temporary file, which nobody reads, and renames it.
`Save` does this for the Raft state and then for the snapshot, so it makes four
steps, and a crash can fall after any number of them.

`Persister` of `KvRaft.Raft.Types` is what the core sees of the files.  A
complete `Save` is its `save` (`FilePersister.read_save`).
-/

namespace KvRaft

/-- A file and the temporary file that replaces it. -/
structure TmpFile (α : Type) where
  target : α
  tmp : α
  deriving DecidableEq, Repr

/-- The directory of a persister. -/
structure FilePersister (n : Nat) (C D : Type) where
  raftState : TmpFile (Option (RaftState n C))
  snapshot : TmpFile (Option D)
  deriving DecidableEq, Repr

/-- The steps of `atomicWrite`. -/
def TmpFile.atomicWrite {α : Type} (data : α) : List (TmpFile α → TmpFile α) :=
  [fun f => { f with tmp := data }, fun f => { f with target := f.tmp }]

namespace FilePersister

variable {n : Nat} {C D : Type}

/-- The steps of `Save`. -/
def saveSteps (raftState : RaftState n C) (snapshot : Option D) :
    List (FilePersister n C D → FilePersister n C D) :=
  (TmpFile.atomicWrite (some raftState)).map (fun step ps =>
    { ps with raftState := step ps.raftState }) ++
  (TmpFile.atomicWrite snapshot).map fun step ps => { ps with snapshot := step ps.snapshot }

/-- The directory after the first `k` steps of `Save`. -/
def crashInSave (ps : FilePersister n C D) (raftState : RaftState n C) (snapshot : Option D)
    (k : Nat) : FilePersister n C D :=
  ((saveSteps raftState snapshot).take k).foldl (fun ps step => step ps) ps

/-- `Save`. -/
def save (ps : FilePersister n C D) (raftState : RaftState n C) (snapshot : Option D) :
    FilePersister n C D :=
  ps.crashInSave raftState snapshot (saveSteps raftState snapshot).length

/-- What `ReadRaftState` and `ReadSnapshot` return. -/
def read (ps : FilePersister n C D) : Persister n C D :=
  ⟨ps.raftState.target, ps.snapshot.target, none⟩

/-- The crash falls between the two renames. -/
def BetweenRenames (k : Nat) : Prop := k = 2 ∨ k = 3

theorem read_save (ps : FilePersister n C D) (raftState : RaftState n C) (snapshot : Option D) :
    (ps.save raftState snapshot).read = ps.read.save raftState snapshot := rfl

/-- Between the two renames the new Raft state stands beside the old snapshot. -/
theorem read_crashInSave_between (ps : FilePersister n C D) (raftState : RaftState n C)
    (snapshot : Option D) {k : Nat} (h : BetweenRenames k) :
    (ps.crashInSave raftState snapshot k).read = ps.read.save raftState ps.read.snapshot := by
  rcases h with rfl | rfl <;> rfl

theorem readSnapshot_crashInSave_between (ps : FilePersister n C D) (raftState : RaftState n C)
    (snapshot : Option D) {k : Nat} (h : BetweenRenames k) :
    (ps.crashInSave raftState snapshot k).read.readSnapshot = ps.read.snapshot := by
  rw [read_crashInSave_between ps raftState snapshot h]
  rfl

/-- At every other point the files are the old ones or the new ones. -/
theorem read_crashInSave_of_not (ps : FilePersister n C D) (raftState : RaftState n C)
    (snapshot : Option D) {k : Nat} (h : ¬ BetweenRenames k) :
    (ps.crashInSave raftState snapshot k).read = ps.read ∨
      (ps.crashInSave raftState snapshot k).read = ps.read.save raftState snapshot := by
  rcases k with _ | _ | _ | _ | k
  · exact Or.inl rfl
  · exact Or.inl rfl
  · exact absurd (Or.inl rfl) h
  · exact absurd (Or.inr rfl) h
  · rw [crashInSave, List.take_of_length_le (show 4 ≤ k + 4 by omega)]
    exact Or.inr rfl

/-- The files are the old pair or the new one, unless the crash falls between the
renames and changes both. -/
theorem read_crashInSave_iff (ps : FilePersister n C D) (raftState : RaftState n C)
    (snapshot : Option D) (k : Nat) :
    ((ps.crashInSave raftState snapshot k).read = ps.read ∨
      (ps.crashInSave raftState snapshot k).read = ps.read.save raftState snapshot) ↔
    (¬ BetweenRenames k ∨ snapshot = ps.read.snapshot ∨ ps.read.raftState = some raftState) := by
  by_cases h : BetweenRenames k
  · rw [read_crashInSave_between ps raftState snapshot h]
    constructor
    · rintro (heq | heq)
      · exact Or.inr (Or.inr (congrArg Persister.raftState heq).symm)
      · exact Or.inr (Or.inl (congrArg Persister.snapshot heq).symm)
    · rintro (hnot | rfl | heq)
      · exact absurd h hnot
      · exact Or.inr rfl
      · refine Or.inl ?_
        rw [Persister.save, ← heq]
  · exact iff_of_true (read_crashInSave_of_not ps raftState snapshot h) (Or.inl h)

end FilePersister

end KvRaft
