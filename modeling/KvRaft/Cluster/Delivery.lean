import KvRaft.Cluster.Committed

/-!
# What an incarnation delivers

An incarnation of a node is the time from a start to the next restart.  What
it has put on `applyCh` only grows.  It begins behind the snapshot index that
was recovered at the start, a command is the next index, and a snapshot
jumps ahead (`Follows`).  The applier releases the mutex while it sends a
batch, and the log, its base and the commit index may move in the meantime;
the messages it still holds are part of the invariant behind this
(`NodeCore.follows`).
-/

namespace KvRaft

open Consensus

variable {n : Nat} {C D : Type}

/-- Node `i` starts at moment `b`: with the run, or after a crash. -/
def Boots (run : ClusterRun n C D) (i : Fin n) (b : Nat) : Prop :=
  b = 0 ∨ ∃ s e, b = s + 1 ∧ (run.state s).Enabled e ∧
    (run.state s).exec e = some (run.state (s + 1)) ∧ (run.state s).rebooted e = some i

/-- Delivery without gaps, repetitions and steps back, of the committed entries. -/
structure GapFreeDelivery (run : ClusterRun n C D) : Prop where
  /-- From the recovered index on, a command is the next index and a snapshot is
  ahead. -/
  inOrder : ∀ {i b t}, Boots run i b → b ≤ t → SameIncarnation run i b t →
    ∃ q, Follows (run.node b i).lastIncludedIndex (run.node t i).applyCh q
  /-- Messages are not taken back. -/
  grows : ∀ {i t u}, t ≤ u → SameIncarnation run i t u →
    (run.node t i).applyCh <+: (run.node u i).applyCh
  /-- A delivered command is the one that is committed at its index. -/
  command : ∀ {t i c k}, .command c k ∈ (run.node t i).applyCh →
    ∃ e, Commits run k e ∧ e.command = c ∧ ∀ e', Commits run k e' → e' = e
  /-- A snapshot stands for committed entries, and has the term of the last. -/
  snapshot : ∀ {t i d s k}, .snapshot d s k ∈ (run.node t i).applyCh →
    ∃ e, Commits run k e ∧ e.term = s

variable {run : ClusterRun n C D}

/-- An instance that just started has delivered nothing, and stands behind the
snapshot that it found. -/
theorem Boots.recovered {i : Fin n} {b : Nat} (h : Boots run i b) :
    (run.node b i).recovered = (run.node b i).lastIncludedIndex ∧
      (run.node b i).applyCh = [] := by
  have hmake : ∃ ps, run.node b i = .make i ps := by
    rcases h with rfl | ⟨s, e, rfl, he, hexec, hboot⟩
    · exact ⟨.empty, by rw [ClusterRun.node, run.start]; rfl⟩
    · exact Cluster.exec_rebooted he hexec hboot
  obtain ⟨ps, hps⟩ := hmake
  rw [hps, Raft.make_eq]
  exact ⟨rfl, rfl⟩

/-- One event of an incarnation sends at most one message. -/
theorem applyCh_step {σ σ' : Cluster n C D} {e : Event n C D} (h : σ.exec e = some σ')
    {i : Fin n} (hboot : σ.rebooted e ≠ some i) :
    (σ'.nodes i).recovered = (σ.nodes i).recovered ∧
      (σ.nodes i).applyCh <+: (σ'.nodes i).applyCh := by
  by_cases hsend : e = .applierSend i
  · subst hsend
    cases h
    simp only [Cluster.setNode, Function.update_self, Raft.applierSend]
    split
    · exact ⟨rfl, List.prefix_refl _⟩
    · exact ⟨rfl, List.prefix_append _ _⟩
  · obtain ⟨hrec, hch⟩ := Prod.mk.inj (Cluster.exec_feed h hboot hsend)
    exact ⟨hrec, hch ▸ List.prefix_refl _⟩

/-- What an incarnation has sent only grows. -/
theorem SameIncarnation.applyCh {i : Fin n} {t u : Nat} (htu : t ≤ u)
    (h : SameIncarnation run i t u) :
    (run.node u i).recovered = (run.node t i).recovered ∧
      (run.node t i).applyCh <+: (run.node u i).applyCh := by
  induction u, htu using Nat.le_induction with
  | base => exact ⟨rfl, List.prefix_refl _⟩
  | succ u htu ih =>
    obtain ⟨hrec, hch⟩ := ih fun s hts hsu => h s hts (Nat.lt_succ_of_lt hsu)
    rcases h u htu (Nat.lt_succ_self u) with heq | ⟨e, _, hexec, hboot⟩
    · rw [ClusterRun.node, heq]
      exact ⟨hrec, hch⟩
    · obtain ⟨hrec', hch'⟩ := applyCh_step hexec hboot
      exact ⟨hrec'.trans hrec, hch.trans hch'⟩

/-- A delivered snapshot has the term of the committed entry at its index. -/
theorem Accompanied.deliveredSnapshot {abs : Nat → Abs n C}
    (hA : Accompanied (CommittedPrefix run) run abs) {t : Nat} {i : Fin n} {d : Option D}
    {s k : Nat} (h : .snapshot d s k ∈ (run.node t i).applyCh) :
    ∃ e, Commits run k e ∧ e.term = s := by
  have hnode := hA.node t i
  obtain ⟨p, _, hlen, hterm, hprefix⟩ :=
    hnode.msgs (.snapshot d s k) (List.mem_append_left _ h)
  -- The snapshot is ahead of a position, so it covers at least one entry.
  have hpos : 0 < k := by
    obtain ⟨before, after, hsplit⟩ := List.append_of_mem h
    obtain ⟨q, hfollows, _⟩ := follows_append.mp hnode.follows
    rw [hsplit] at hfollows
    obtain ⟨r, _, hlt, _⟩ := follows_append.mp hfollows
    omega
  obtain ⟨j, rfl⟩ : ∃ j, k = j + 1 := ⟨k - 1, by omega⟩
  have hs := List.getElem?_eq_getElem (show j < p.length by omega)
  refine ⟨_, hprefix j _ hs, ?_⟩
  rw [← hterm, termAt_succ_of_getElem? hs]

/-- Gap-free delivery in order. -/
theorem cluster_gapFreeDelivery (run : ClusterRun n C D) : GapFreeDelivery run := by
  obtain ⟨abs, hA⟩ := exists_accompanied run
  refine
    { inOrder := fun {i b t} hboot hbt hinc => ?_
      grows := fun htu hinc => (hinc.applyCh htu).2
      command := fun h => ?_
      snapshot := fun h => hA.deliveredSnapshot h }
  · refine ⟨(run.node t i).position, ?_⟩
    rw [← hboot.recovered.1, ← (hinc.applyCh hbt).1]
    exact (hA.node t i).follows_position.1
  · obtain ⟨e, he, hc⟩ := hA.delivered h
    exact ⟨e, he, hc, fun e' he' => hA.commits_unique he' he⟩

end KvRaft
