import KvRaft.Cluster.Simulation

/-!
# What an instance may do

An instance changes its fields under the mutex, and each change is a move of
its member in the protocol or no move at all.  There is one lemma for each
kind of change: `NodeCore.retire`, `NodeCore.grant`, `NodeCore.accept` and so
on.  `KvRaft.Cluster.Handlers` puts them together for the functions of the
source.

`Grows` is what every handler keeps: the term and the three indices do not go
down.  `Quiet` adds that no election is started, counted or won.
-/

namespace KvRaft

open Consensus

variable {n : Nat} {C D : Type}

/-! ## Moves of one member -/

/-- Some moves, all of them by member `i`. -/
structure MemberMoves (i : Fin n) (a a' : Abs n C) : Prop where
  moves : Relation.ReflTransGen State.Move a a'
  others : ∀ j, j ≠ i → SameAt a a' j

namespace MemberMoves

variable {i : Fin n} {a a' a'' : Abs n C}

theorem refl (i : Fin n) (a : Abs n C) : MemberMoves i a a :=
  ⟨.refl, fun _ _ => ⟨rfl, rfl, rfl, rfl⟩⟩

theorem trans (h : MemberMoves i a a') (h' : MemberMoves i a' a'') : MemberMoves i a a'' :=
  ⟨h.moves.trans h'.moves, fun j hj => (h.others j hj).trans (h'.others j hj)⟩

theorem inv (h : MemberMoves i a a') (hI : a.Inv) : a'.Inv ∧ State.Extends a a' :=
  State.inv_of_steps hI (h.moves.lift id fun _ _ hm => .move hm)

theorem retire {t : Nat} {x : Option (Fin n)} (h : a.term i < t ∨ a.term i = t ∧ a.vote i = x) :
    MemberMoves i a (a.retire i t x) := by
  refine ⟨.single (.retire i t x h), fun j hj => ⟨?_, ?_, ?_, rfl⟩⟩ <;>
    simp [State.retire, hj]

theorem stand (i : Fin n) (a : Abs n C) : MemberMoves i a (a.stand i) := by
  refine ⟨.single (.stand i), fun j hj => ⟨?_, ?_, ?_, rfl⟩⟩ <;> simp [State.stand, hj]

theorem grant {c : Fin n} {l : Log (Option C)} (hcand : a.cand (a.term i) c = some l)
    (hvote : a.vote i = none ∨ a.vote i = some c) (hup : UpToDate l (a.log i)) :
    MemberMoves i a (a.grant i c) := by
  refine ⟨.single (.grant i c l hcand hvote hup), fun j hj => ⟨rfl, ?_, rfl, rfl⟩⟩
  simp [State.grant, hj]

theorem elect {Q : Finset (Fin n)} (hrole : a.role i = .candidate) (hQ : IsQuorum Q)
    (hgrants : ∀ v ∈ Q, a.grants (a.term i) v i) : MemberMoves i a (a.elect i) := by
  refine ⟨.single (.elect i Q hrole hQ hgrants), fun j hj => ⟨rfl, rfl, ?_, rfl⟩⟩
  simp [State.elect, hj]

theorem accept {m : Nat} (hlead : a.leader (a.term i) ≠ none)
    (hm : m ≤ (a.tlog (a.term i)).length) : MemberMoves i a (a.accept i m) := by
  refine ⟨.single (.accept i m hlead hm), fun j hj => ⟨rfl, rfl, ?_, ?_⟩⟩ <;>
    simp [State.accept, hj]

end MemberMoves

/-! ## What every handler keeps -/

/-- The term and the three indices do not go down. -/
structure Grows (rf rf' : Raft n C D) : Prop where
  term : rf.currentTerm ≤ rf'.currentTerm
  snap : rf.lastIncludedIndex ≤ rf'.lastIncludedIndex
  commit : rf.commitIndex ≤ rf'.commitIndex
  applied : rf.lastApplied ≤ rf'.lastApplied

/-- No election is started, counted or won. -/
structure Quiet (rf rf' : Raft n C D) : Prop extends Grows rf rf' where
  votes : rf'.grantedVotes = rf.grantedVotes
  cand : rf'.state = .candidate →
    rf.state = .candidate ∧ rf'.currentTerm = rf.currentTerm

/-- The part of an instance that elections and the three indices live in. -/
def Raft.progress (rf : Raft n C D) : Nat × NodeState × Nat × Nat × Nat × List Nat :=
  (rf.currentTerm, rf.state, rf.lastIncludedIndex, rf.commitIndex, rf.lastApplied,
    rf.grantedVotes)

theorem Quiet.of_progress {rf rf' : Raft n C D} (h : rf'.progress = rf.progress) :
    Quiet rf rf' := by
  simp only [Raft.progress, Prod.mk.injEq] at h
  obtain ⟨hterm, hstate, hsnap, hcommit, happlied, hvotes⟩ := h
  exact ⟨⟨hterm.ge, hsnap.ge, hcommit.ge, happlied.ge⟩, hvotes,
    fun hc => ⟨hstate.symm.trans hc, hterm⟩⟩

theorem Quiet.refl (rf : Raft n C D) : Quiet rf rf := .of_progress rfl

theorem Quiet.trans {rf rf' rf'' : Raft n C D} (h : Quiet rf rf') (h' : Quiet rf' rf'') :
    Quiet rf rf'' := by
  refine ⟨⟨h.term.trans h'.term, h.snap.trans h'.snap, h.commit.trans h'.commit,
    h.applied.trans h'.applied⟩, h'.votes.trans h.votes, fun hc => ?_⟩
  obtain ⟨hs', ht'⟩ := h'.cand hc
  obtain ⟨hs, ht⟩ := h.cand hs'
  exact ⟨hs, ht'.trans ht⟩

theorem Quiet.persist (rf : Raft n C D) : Quiet rf rf.persist := by
  unfold Raft.persist
  split_ifs
  · exact .refl rf
  · exact .of_progress rfl

/-- What `persist` writes while the instance is alive and the disk readable. -/
theorem Raft.persist_eq {rf : Raft n C D} (halive : rf.dead = false)
    (hfault : rf.persister.readFault = none) : rf.persist =
      { rf with persister := rf.persister.save rf.encodeState rf.persister.snapshot } := by
  rw [Raft.persist, if_neg (by simp [halive]), Persister.readSnapshot, hfault,
    Option.getD_none]

/-! ## Changes of the memory -/

namespace NodeCore

variable {Φ : Log (Option C) → Option D → Prop} {a : Abs n C} {i : Fin n} {rf : Raft n C D}

theorem readSnapshot (h : NodeCore Φ a i rf) :
    rf.persister.readSnapshot = rf.persister.snapshot := by
  rw [Persister.readSnapshot, h.noFault, Option.getD_none]

theorem length_take_commit (h : NodeCore Φ a i rf) :
    ((a.log i).take rf.commitIndex).length = rf.commitIndex := by
  rw [List.length_take, Nat.min_eq_left h.commitLe]

theorem length_take_snap (h : NodeCore Φ a i rf) :
    ((a.log i).take rf.lastIncludedIndex).length = rf.lastIncludedIndex := by
  rw [List.length_take, Nat.min_eq_left (h.snapLe.trans h.commitLe)]

/-- Writing to the disk makes the memory durable. -/
theorem persist (h : NodeCore Φ a i rf) : NodeSim Φ a i rf.persist := by
  rw [Raft.persist_eq h.alive h.noFault]
  exact ⟨⟨h.me, h.alive, h.noFault, h.term, h.vote, h.role, ⟨h.repr.le, h.repr.term, h.repr.logs⟩,
    h.snapLe, h.commitLe, h.chosen, h.appliedLe, h.snapData, h.peers, h.msgs, h.follows⟩, rfl⟩

theorem retire (hI : a.Inv) (h : NodeCore Φ a i rf) {t : Nat} {x : Option (Fin n)}
    (ht : rf.currentTerm < t ∨ rf.currentTerm = t ∧ rf.votedFor = x) (y : Option (Fin n)) :
    MemberMoves i a (a.retire i t x) ∧ NodeCore Φ (a.retire i t x) i
      { rf with currentTerm := t, votedFor := x, state := .follower, currentLeader := y } := by
  have hle : rf.currentTerm ≤ t := by omega
  have hx : State.Extends a (a.retire i t x) := State.extends_retire (h.term ▸ hle)
  refine ⟨.retire (by rwa [h.term, h.vote]), ?_⟩
  exact
    { h with
      term := by simp [State.retire]
      vote := by simp [State.retire]
      role := by simp [State.retire, NodeState.role]
      repr := ⟨h.repr.le, h.repr.term, h.repr.logs⟩
      chosen := h.chosen.mono hI hx hle
      peers := fun hl => by simp at hl
      msgs := fun msg hmsg => (h.msgs msg hmsg).mono hI hx hle }

theorem stand (hI : a.Inv) (h : NodeCore Φ a i rf) (g : List Nat) :
    NodeCore Φ (a.stand i) i
      { rf with
        state := .candidate
        currentTerm := rf.currentTerm + 1
        votedFor := some i
        currentLeader := none
        grantedVotes := g } := by
  have hx : State.Extends a (a.stand i) := State.extends_stand hI i
  exact
    { h with
      term := by simp [State.stand, h.term]
      vote := by simp [State.stand]
      role := by simp [State.stand, NodeState.role]
      repr := ⟨h.repr.le, h.repr.term, h.repr.logs⟩
      chosen := h.chosen.mono hI hx (Nat.le_succ _)
      peers := fun hl => by simp at hl
      msgs := fun msg hmsg => (h.msgs msg hmsg).mono hI hx (Nat.le_succ _) }

theorem grant (hI : a.Inv) (h : NodeCore Φ a i rf) (c : Fin n) :
    NodeCore Φ (a.grant i c) i { rf with votedFor := some c } := by
  have hx : State.Extends a (a.grant i c) := State.extends_grant a i c
  exact
    { h with
      vote := by simp [State.grant]
      repr := ⟨h.repr.le, h.repr.term, h.repr.logs⟩
      chosen := h.chosen.mono hI hx (Nat.le_refl _)
      peers := h.peers
      msgs := fun msg hmsg => (h.msgs msg hmsg).mono hI hx (Nat.le_refl _) }

/-- A new leader assumes that every peer has its snapshot, which is chosen. -/
theorem elect (hI : a.Inv) (h : NodeCore Φ a i rf) (hnone : a.leader (a.term i) = none)
    (g : List Nat) :
    NodeCore Φ (a.elect i) i
      { rf with
        state := .leader
        currentLeader := some i
        nextIndex := fun _ => (a.log i).length + 1
        matchIndex := Function.update (fun _ => rf.lastIncludedIndex) i (a.log i).length
        grantedVotes := g } := by
  have hx : State.Extends a (a.elect i) := State.extends_elect hnone
  refine
    { h with
      role := by simp [State.elect, NodeState.role]
      repr := ⟨h.repr.le, h.repr.term, h.repr.logs⟩
      chosen := h.chosen.mono hI hx (Nat.le_refl _)
      peers := ?_
      msgs := fun msg hmsg => (h.msgs msg hmsg).mono hI hx (Nat.le_refl _) }
  intro _ p
  refine ⟨Nat.le_refl _, ?_, fun hp => Or.inl ?_⟩
  · simp only [Function.update_apply]
    split_ifs
    · exact Nat.le_refl _
    · exact h.repr.le
  · simp only [Function.update_of_ne hp]
    exact h.snapLe

theorem propose (hI : a.Inv) (h : NodeCore Φ a i rf) (hl : rf.state = .leader)
    (command : Option C) : NodeCore Φ (a.propose i command) i
      { rf with logs := rf.logs ++ [⟨rf.getLen, rf.currentTerm, command⟩] } := by
  have hrole : a.role i = .leader := by rw [h.role, hl, NodeState.role]
  have hx : State.Extends a (a.propose i command) := State.extends_propose hI hrole command
  have hlog : (a.propose i command).log i = a.log i ++ [⟨rf.currentTerm, command⟩] := by
    simp [State.propose, h.term]
  have hle := h.repr.le
  have hc := h.commitLe
  have hs := h.snapLe
  refine
    { h with
      repr := ?_
      commitLe := by rw [hlog, List.length_append]; exact Nat.le_add_right_of_le hc
      chosen := ?_
      snapData := ?_
      peers := ?_
      msgs := fun msg hmsg => (h.msgs msg hmsg).mono hI hx (Nat.le_refl _) }
  · rw [hlog]
    obtain ⟨c, hlogs⟩ := h.repr.logs
    refine ⟨by rw [List.length_append]; exact Nat.le_add_right_of_le hle, ?_, c, ?_⟩
    · rw [← termAt_of_isPrefix (List.prefix_append _ _) hle]
      exact h.repr.term
    · simp only [hlogs]
      rw [← stored_append c hle, h.repr.getLen]
      rfl
  · rw [hlog, List.take_append_of_le_length hc]
    exact h.chosen.mono hI hx (Nat.le_refl _)
  · rw [hlog, List.take_append_of_le_length hle]
    exact h.snapData
  · intro hl' p
    obtain ⟨hn, hm, hp⟩ := h.peers hl' p
    rw [hlog, List.length_append]
    refine ⟨by simp only; omega, by simp only; omega, fun hpi => ?_⟩
    rcases hp hpi with hle | ⟨m, hle, hack⟩
    · exact Or.inl hle
    · exact Or.inr ⟨m, hle, hx.acks hack⟩

/-- A follower takes over slots of the leader's log.  What it knows to be
chosen is in the leader's log already. -/
theorem accept (hI : a.Inv) (h : NodeCore Φ a i rf) (hf : rf.state = .follower)
    (hlead : a.leader rf.currentTerm ≠ none) {m : Nat}
    (hm : m ≤ (a.tlog rf.currentTerm).length) {l : Log (Option C)}
    (hl : l = adopt (a.log i) ((a.tlog rf.currentTerm).take m)) (c : Option C) :
    MemberMoves i a (a.accept i m) ∧ (a.accept i m).log i = l ∧ NodeCore Φ (a.accept i m) i
      { rf with logs := stored rf.lastIncludedIndex l c } := by
  have hx : State.Extends a (a.accept i m) := State.extends_accept a i m
  rw [← h.term] at hlead hm hl
  have hlog : (a.accept i m).log i = l := by
    rw [hl]
    simp [State.accept]
  refine ⟨.accept hlead hm, hlog, ?_⟩
  have hpre : (a.log i).take rf.commitIndex <+: l := by
    rw [hl]
    exact State.chosen_prefix_adopt hI h.chosen (Nat.le_of_eq h.term.symm) hlead
      (List.take_prefix _ _) m
  have hlen := hpre.length_le
  rw [h.length_take_commit] at hlen
  have hs := h.snapLe
  have htake : ∀ k ≤ rf.commitIndex, l.take k = (a.log i).take k := by
    intro k hk
    rw [take_of_isPrefix hpre (by rw [h.length_take_commit]; exact hk), List.take_take,
      Nat.min_eq_left hk]
  refine
    { h with
      role := by simp [State.accept, hf, NodeState.role]
      repr := ?_
      commitLe := hlog ▸ hlen
      chosen := ?_
      snapData := ?_
      peers := fun hl => by simp [hf] at hl
      msgs := fun msg hmsg => (h.msgs msg hmsg).mono hI hx (Nat.le_refl _) }
  · rw [hlog]
    refine ⟨hs.trans hlen, ?_, c, rfl⟩
    rw [show rf.lastIncludedTerm = _ from h.repr.term]
    rw [← termAt_of_isPrefix hpre (by rw [h.length_take_commit]; exact hs)]
    exact (termAt_of_isPrefix (List.take_prefix _ _) (by rw [h.length_take_commit]; exact hs)).symm
  · rw [hlog]
    show State.Chosen _ (l.take rf.commitIndex) _
    rw [htake _ (Nat.le_refl _)]
    exact h.chosen.mono hI hx (Nat.le_refl _)
  · rw [hlog]
    show Φ (l.take rf.lastIncludedIndex) _
    rw [htake _ hs]
    exact h.snapData

theorem commit (h : NodeCore Φ a i rf) {k : Nat} (hk : rf.commitIndex ≤ k)
    (hkl : k ≤ (a.log i).length) (hch : a.Chosen ((a.log i).take k) rf.currentTerm) :
    NodeCore Φ a i { rf with commitIndex := k } :=
  { h with
    repr := ⟨h.repr.le, h.repr.term, h.repr.logs⟩
    snapLe := h.snapLe.trans hk
    commitLe := hkl
    chosen := hch
    appliedLe := h.appliedLe.trans hk
    peers := fun hl p => ⟨(h.peers hl p).1, (h.peers hl p).2.1,
      fun hp => ((h.peers hl p).2.2 hp).imp_left fun hle => hle.trans hk⟩ }

/-- The first `k` slots are replaced by a snapshot of them. -/
theorem compact (h : NodeCore Φ a i rf) {k : Nat} (hk : k ≤ rf.commitIndex)
    {d : Option D} (hdata : Φ ((a.log i).take k) d) (c : Option C)
    (raftState : RaftState n C) :
    NodeCore Φ a i
      { rf with
        logs := stored k (a.log i) c
        lastIncludedIndex := k
        lastIncludedTerm := termAt (a.log i) k
        persister := rf.persister.save raftState d } :=
  { h with
    repr := ⟨hk.trans h.commitLe, rfl, c, rfl⟩
    snapLe := hk
    snapData := hdata }

theorem setPeers (h : NodeCore Φ a i rf) {next matched : Fin n → Nat}
    (hp : rf.state = .leader → ∀ p, next p ≤ (a.log i).length + 1 ∧
      matched p ≤ (a.log i).length ∧ (p ≠ i → matched p ≤ rf.commitIndex ∨
        ∃ m, matched p ≤ m ∧ a.acks rf.currentTerm p m)) :
    NodeCore Φ a i { rf with nextIndex := next, matchIndex := matched } :=
  { h with
    repr := ⟨h.repr.le, h.repr.term, h.repr.logs⟩
    peers := hp }

end NodeCore

end KvRaft
