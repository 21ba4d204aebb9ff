import KvRaft.Cluster.Refinement

/-!
# Safety of the cluster

What holds in every run of a cluster, stated over the instances' own fields.
Each property is proved from the refinement: a run is accompanied by an
execution of the protocol (`ClusterRun.accompanied`), and what the protocol
guarantees is read back through the simulation relation.

* `StateMachineSafety`: nodes agree on every committed index, now and later,
  and never deliver different commands for one index.
* `ElectionSafety`: a term has at most one leader.
* `LeaderCompleteness`: a new leader has everything that a leader of an
  earlier term committed.
* `LogMatching`: one equal term makes two stored logs equal below it.
* `LogIntegrity`: the representation of the log is intact in every instance,
  the indices of an incarnation do not go down, and no event panics.

`Commits run k e` is how the statements speak of the committed entry at `k`:
at some moment some node had committed `k` and still stored `e` there.
-/

namespace KvRaft

open Consensus

variable {n : Nat} {C D : Type}

/-! ## Runs and protocol executions -/

/-- Node `i` at moment `t`. -/
def ClusterRun.node (run : ClusterRun n C D) (t : Nat) (i : Fin n) : Raft n C D :=
  (run.state t).nodes i

/-- A run is accompanied by an execution of the protocol. -/
structure Accompanied (Φ : Log (Option C) → Option D → Prop) (run : ClusterRun n C D)
    (abs : Nat → Abs n C) : Prop where
  sim : ∀ t, Sim Φ (run.state t) (abs t)
  inv : ∀ t, (abs t).Inv
  mono : ∀ {t u}, t ≤ u → State.Extends (abs t) (abs u)

theorem Accompanied.node {Φ : Log (Option C) → Option D → Prop} {run : ClusterRun n C D}
    {abs : Nat → Abs n C} (hA : Accompanied Φ run abs) (t : Nat) (i : Fin n) :
    NodeSim Φ (abs t) i (run.node t i) := (hA.sim t).node i

theorem ClusterRun.accompanied (run : ClusterRun n C D)
    {Φ : Log (Option C) → Option D → Prop} (h0 : Φ [] none)
    (hΦ : ∀ t a e, Sim Φ (run.state t) a → SnapOk Φ (run.state t) a e) :
    ∃ abs, Accompanied Φ run abs := by
  obtain ⟨abs, habs0, hsim, hsteps⟩ := Run.simulated run (R := Sim Φ) (sim_init h0) (by
    rintro t a ha hS ⟨e, he, hexec⟩
    obtain ⟨σ', a', hexec', href⟩ :=
      exec_refines (State.Reachable.inv ha) hS he (hΦ t a e hS)
    cases hexec.symm.trans hexec'
    exact ⟨a', href.steps, href.sim⟩)
  have hinv : ∀ t, (abs t).Inv := by
    intro t
    have := hsteps 0 t (Nat.zero_le t)
    rw [habs0] at this
    exact State.Reachable.inv this
  exact ⟨abs, hsim, hinv, fun htu => (State.inv_of_steps (hinv _) (hsteps _ _ htu)).2⟩

/-! ## The committed entries -/

/-- At moment `t` node `i` has committed index `k` and stores `e` there. -/
def Holds (run : ClusterRun n C D) (t : Nat) (i : Fin n) (k : Nat) (e : Entry C) : Prop :=
  (run.node t i).lastIncludedIndex < k ∧ k ≤ (run.node t i).commitIndex ∧
    (run.node t i).getLog k = some e

instance [DecidableEq C] (run : ClusterRun n C D) (t : Nat) (i : Fin n) (k : Nat) (e : Entry C) :
    Decidable (Holds run t i k e) :=
  inferInstanceAs (Decidable ((run.node t i).lastIncludedIndex < k ∧
    k ≤ (run.node t i).commitIndex ∧ (run.node t i).getLog k = some e))

/-- `e` is a committed entry at `k`. -/
def Commits (run : ClusterRun n C D) (k : Nat) (e : Entry C) : Prop :=
  ∃ t i, Holds run t i k e

/-- Every slot of `p` is a committed entry of the run. -/
def CommittedPrefix (run : ClusterRun n C D) (p : Log (Option C)) (_ : Option D) : Prop :=
  ∀ k s, p[k]? = some s → Commits run (k + 1) ⟨k + 1, s.term, s.cmd⟩

section Accompanied

variable {run : ClusterRun n C D} {abs : Nat → Abs n C}

/-- A slot up to the commit index is a committed entry: the node stores it, or
it is part of the snapshot. -/
theorem commits_of_slot {a : Abs n C} {t : Nat} (hS : Sim (CommittedPrefix run) (run.state t) a)
    {i : Fin n} {k : Nat} {s : Slot (Option C)} (hs : (a.log i)[k]? = some s)
    (hk : k < (run.node t i).commitIndex) : Commits run (k + 1) ⟨k + 1, s.term, s.cmd⟩ := by
  have h : NodeSim (CommittedPrefix run) a i (run.node t i) := hS.node i
  rcases Nat.lt_or_ge k (run.node t i).lastIncludedIndex with hlt | hge
  · refine h.snapData k s ?_
    rw [List.getElem?_take_of_lt hlt]
    exact hs
  · exact ⟨t, i, Nat.lt_succ_of_le hge, hk, h.repr.getLog_of_getElem? hge hs⟩

theorem committedPrefix_snapOk {a : Abs n C} {t : Nat}
    (hS : Sim (CommittedPrefix run) (run.state t) a) (e : Event n C D) :
    SnapOk (CommittedPrefix run) (run.state t) a e := by
  cases e with
  | snapshot i index data =>
    intro _ hle k s hs
    rw [List.getElem?_take] at hs
    split_ifs at hs with hk
    exact commits_of_slot hS hs (Nat.lt_of_lt_of_le hk hle)
  | _ => trivial

theorem exists_accompanied (run : ClusterRun n C D) :
    ∃ abs, Accompanied (CommittedPrefix run) run abs :=
  run.accompanied (fun k s hs => by simp at hs) fun _ _ e hS => committedPrefix_snapOk hS e

variable (hA : Accompanied (CommittedPrefix run) run abs)
include hA

/-- What a node holds at a committed index is a chosen slot. -/
theorem Accompanied.chosen_of_holds {t : Nat} {i : Fin n} {k : Nat} {e : Entry C}
    (h : Holds run t i k e) : ∃ j p, k = j + 1 ∧ e.index = k ∧
      p = ((abs t).log i).take (run.node t i).commitIndex ∧
      (abs t).Chosen p (run.node t i).currentTerm ∧ p[j]? = some ⟨e.term, e.command⟩ := by
  obtain ⟨hlt, hle, hget⟩ := h
  have hnode := hA.node t i
  obtain ⟨j, rfl⟩ : ∃ j, k = j + 1 := ⟨k - 1, by omega⟩
  have hcl := hnode.commitLe
  have hj : j < ((abs t).log i).length := Nat.lt_of_lt_of_le hle hcl
  have hs := List.getElem?_eq_getElem hj
  have hget' := hnode.repr.getLog_of_getElem? (Nat.le_of_lt_succ hlt) hs
  cases hget.symm.trans hget'
  refine ⟨j, _, rfl, rfl, rfl, hnode.chosen, ?_⟩
  rw [List.getElem?_take_of_lt (Nat.lt_of_succ_le hle), hs]

/-- A committed entry is the slot of every chosen prefix that reaches it. -/
theorem Accompanied.commits_eq {k : Nat} {e : Entry C} (h : Commits run k e) {u T : Nat}
    {q : Log (Option C)} (hq : (abs u).Chosen q T) {s : Slot (Option C)}
    (hs : q[k - 1]? = some s) : e = ⟨k, s.term, s.cmd⟩ := by
  obtain ⟨t, i, hh⟩ := h
  obtain ⟨j, p, rfl, hidx, _, hch, hp⟩ := hA.chosen_of_holds hh
  have hch' := hch.mono (hA.inv t) (hA.mono (Nat.le_max_left t u)) (Nat.le_refl _)
  have hq' := hq.mono (hA.inv u) (hA.mono (Nat.le_max_right t u)) (Nat.le_refl _)
  have := State.chosen_getElem?_eq (hA.inv _) hch' hq' hp hs
  rw [← this, ← hidx]

theorem Accompanied.commits_unique {k : Nat} {d e : Entry C} (hd : Commits run k d)
    (he : Commits run k e) : d = e := by
  obtain ⟨t, i, hh⟩ := hd
  obtain ⟨j, p, rfl, hidx, _, hch, hp⟩ := hA.chosen_of_holds hh
  have := hA.commits_eq he hch hp
  rw [this, ← hidx]

theorem Accompanied.exists_commits {t : Nat} {i : Fin n} {k : Nat} (hk : 1 ≤ k)
    (hle : k ≤ (run.node t i).commitIndex) : ∃ e, Commits run k e := by
  have hcl := (hA.node t i).commitLe
  obtain ⟨j, rfl⟩ : ∃ j, k = j + 1 := ⟨k - 1, by omega⟩
  have hj : j < ((abs t).log i).length := Nat.lt_of_lt_of_le hle hcl
  exact ⟨_, commits_of_slot (hA.sim t) (List.getElem?_eq_getElem hj) hle⟩

/-- The snapshot term is the term of the committed entry. -/
theorem Accompanied.snapshot_term {t : Nat} {i : Fin n} {k : Nat} {e : Entry C}
    (hk : (run.node t i).lastIncludedIndex = k) (h : Commits run k e) :
    (run.node t i).lastIncludedTerm = e.term := by
  have hnode := hA.node t i
  have hch := hnode.chosen
  have hsc := hnode.snapLe
  have hcl := hnode.commitLe
  obtain ⟨j, hj⟩ : ∃ j, k = j + 1 := by
    obtain ⟨_, _, hlt, _⟩ := h
    exact ⟨k - 1, by omega⟩
  subst hj
  have hsc' : j + 1 ≤ (run.node t i).commitIndex := hk ▸ hsc
  have hlt : j < ((abs t).log i).length := Nat.lt_of_lt_of_le hsc' hcl
  have hs := List.getElem?_eq_getElem hlt
  rw [hA.commits_eq h hch (by
    rw [Nat.add_sub_cancel, List.getElem?_take_of_lt (Nat.lt_of_succ_le hsc'), hs])]
  have hterm := hnode.repr.term
  rw [hk, termAt_succ_of_getElem? hs] at hterm
  exact hterm

end Accompanied

/-! ## State machine safety -/

/-- Nodes agree on committed entries. -/
structure StateMachineSafety (run : ClusterRun n C D) : Prop where
  /-- What two nodes hold at one committed index is the same entry. -/
  agree : ∀ {t u i j k d e}, Holds run t i k d → Holds run u j k e → d = e
  /-- A committed index that a node has compacted away was held by some node
  when it was committed. -/
  compacted : ∀ {t i k}, 1 ≤ k → k ≤ (run.node t i).commitIndex → ∃ e, Commits run k e
  /-- The snapshot term of a node is the term of the committed entry. -/
  snapshotTerm : ∀ {t i e}, Commits run (run.node t i).lastIncludedIndex e →
    (run.node t i).lastIncludedTerm = e.term
  /-- A delivered command is the command of the committed entry. -/
  delivered : ∀ {t i c k}, .command c k ∈ (run.node t i).applyCh →
    ∃ e, Commits run k e ∧ e.command = c
  /-- No two nodes deliver different commands for one index. -/
  deliveredAgree : ∀ {t u i j c d k}, .command c k ∈ (run.node t i).applyCh →
    .command d k ∈ (run.node u j).applyCh → c = d

/-- A delivered index lies in the range that the applier went through. -/
theorem follows_mem {p q : Nat} {xs : List (ApplyMsg C D)} (h : Follows p xs q)
    {c : Option C} {k : Nat} (hmem : .command c k ∈ xs) : p < k ∧ k ≤ q := by
  induction xs generalizing p with
  | nil => cases hmem
  | cons x xs ih =>
    rcases List.mem_cons.mp hmem with rfl | hrest
    · have := follows_le h.2
      have := h.1
      omega
    · cases x with
      | command d j =>
        have := ih h.2 hrest
        have := h.1
        omega
      | snapshot d s j =>
        have := ih h.2 hrest
        have := h.1
        omega

theorem Accompanied.delivered {run : ClusterRun n C D} {abs : Nat → Abs n C}
    (hA : Accompanied (CommittedPrefix run) run abs) {t : Nat} {i : Fin n} {c : Option C}
    {k : Nat} (h : .command c k ∈ (run.node t i).applyCh) :
    ∃ e, Commits run k e ∧ e.command = c := by
  have hnode := hA.node t i
  have hmem : .command c k ∈ (run.node t i).applyCh ++ (run.node t i).applying :=
    List.mem_append_left _ h
  have hle := (follows_mem hnode.follows hmem).2.trans hnode.appliedLe
  obtain ⟨p, s, hch, hk, hc⟩ := hnode.msgs _ hmem
  obtain ⟨e, he⟩ := hA.exists_commits (by omega) hle
  refine ⟨e, he, ?_⟩
  rw [hA.commits_eq he hch (s := s) (by
    rw [show k - 1 = p.length by omega, List.getElem?_append_right (Nat.le_refl _),
      Nat.sub_self]
    rfl)]
  exact hc

/-- State machine safety. -/
theorem cluster_stateMachineSafety (run : ClusterRun n C D) : StateMachineSafety run := by
  obtain ⟨abs, hA⟩ := exists_accompanied run
  refine
    { agree := fun hd he => hA.commits_unique ⟨_, _, hd⟩ ⟨_, _, he⟩
      compacted := fun hk hle => hA.exists_commits hk hle
      snapshotTerm := fun he => hA.snapshot_term rfl he
      delivered := fun h => hA.delivered h
      deliveredAgree := fun hc hd => ?_ }
  obtain ⟨e, he, rfl⟩ := hA.delivered hc
  obtain ⟨e', he', rfl⟩ := hA.delivered hd
  rw [hA.commits_unique he he']

/-! ## Election safety -/

/-- A term has at most one leader, in the whole run. -/
def ElectionSafety (run : ClusterRun n C D) : Prop :=
  ∀ t u i j, (run.node t i).state = .leader → (run.node u j).state = .leader →
    (run.node t i).currentTerm = (run.node u j).currentTerm → i = j

theorem Accompanied.leader {run : ClusterRun n C D} {abs : Nat → Abs n C}
    (hA : Accompanied (CommittedPrefix run) run abs) {t : Nat} {i : Fin n}
    (hl : (run.node t i).state = .leader) {u : Nat} (htu : t ≤ u) :
    (abs u).leader (run.node t i).currentTerm = some i :=
  (hA.mono htu).leader ((hA.node t i).toNodeCore.leader_log (hA.inv t) hl).2.1

/-- Election safety. -/
theorem cluster_electionSafety (run : ClusterRun n C D) : ElectionSafety run := by
  intro t u i j hi hj hterm
  obtain ⟨abs, hA⟩ := exists_accompanied run
  have hi' := hA.leader hi (Nat.le_max_left t u)
  have hj' := hA.leader hj (Nat.le_max_right t u)
  rw [hterm, hj'] at hi'
  exact (Option.some.inj hi').symm

/-! ## Leader completeness -/

/-- Between `t` and `t + 1` the leader `i` of `term` raises its commit index to
`index`, which is what `updateCommitIndex` does. -/
structure RaisesCommit (run : ClusterRun n C D) (t : Nat) (i : Fin n) (term index : Nat) :
    Prop where
  leader : (run.node t i).state = .leader ∧ (run.node (t + 1) i).state = .leader
  term : (run.node t i).currentTerm = term ∧ (run.node (t + 1) i).currentTerm = term
  raised : (run.node t i).commitIndex < index
  index : (run.node (t + 1) i).commitIndex = index

/-- Between `t` and `t + 1` node `j` becomes the leader of `term`. -/
structure BecomesLeader (run : ClusterRun n C D) (t : Nat) (j : Fin n) (term : Nat) : Prop where
  before : (run.node t j).state ≠ .leader
  leader : (run.node (t + 1) j).state = .leader
  term : (run.node (t + 1) j).currentTerm = term

/-- A new leader has every entry that a leader of an earlier term committed, or
has compacted it away, and its snapshot term is right. -/
def LeaderCompleteness (run : ClusterRun n C D) : Prop :=
  ∀ t i T index u j T', RaisesCommit run t i T index → BecomesLeader run u j T' → T < T' →
    ∀ k, 1 ≤ k → k ≤ index → ∃ e, Commits run k e ∧ (∀ e', Commits run k e' → e' = e) ∧
      (k ≤ (run.node (u + 1) j).lastIncludedIndex ∨ (run.node (u + 1) j).getLog k = some e) ∧
      ((run.node (u + 1) j).lastIncludedIndex = k →
        (run.node (u + 1) j).lastIncludedTerm = e.term)

/-- A leader has in its log what was chosen in an earlier term, at any moment of
the run. -/
theorem Accompanied.prefix_of_leader {run : ClusterRun n C D} {abs : Nat → Abs n C}
    (hA : Accompanied (CommittedPrefix run) run abs) {t u T : Nat} {p : Log (Option C)}
    (hp : (abs t).Chosen p T) {j : Fin n} (hl : (run.node u j).state = .leader)
    (hT : T < (run.node u j).currentTerm) : p <+: (abs u).log j := by
  have hp' := hp.mono (hA.inv t) (hA.mono (Nat.le_max_left t u)) (Nat.le_refl _)
  obtain ⟨hlog, hlead, _⟩ := (hA.node u j).toNodeCore.leader_log (hA.inv u) hl
  have hne : (abs u).leader (run.node u j).currentTerm ≠ none := by
    rw [hlead]
    exact Option.some_ne_none j
  have hx := hA.mono (Nat.le_max_right t u)
  have helog := State.chosen_prefix_elog (hA.inv _) hp' hT (hx.leader_ne_none hne)
  rw [hx.elog hne] at helog
  rw [hlog]
  exact helog.trans ((hA.inv u).elog_le_tlog hne)

/-- Leader completeness. -/
theorem cluster_leaderCompleteness (run : ClusterRun n C D) : LeaderCompleteness run := by
  intro t i T index u j T' hraise hbecome hT k hk hle
  obtain ⟨abs, hA⟩ := exists_accompanied run
  have hcommit : k ≤ (run.node (t + 1) i).commitIndex := hraise.index ▸ hle
  obtain ⟨e, he⟩ := hA.exists_commits hk hcommit
  refine ⟨e, he, fun e' he' => hA.commits_unique he' he, ?_, fun hs => hA.snapshot_term hs he⟩
  have hi := hA.node (t + 1) i
  have hj := hA.node (u + 1) j
  have hpre := hA.prefix_of_leader hi.chosen hbecome.leader
    (by rw [hbecome.term]; exact hraise.term.2 ▸ hT)
  -- The slot of the committed entry, first at `i` and then at `j`.
  obtain ⟨m, rfl⟩ : ∃ m, k = m + 1 := ⟨k - 1, by omega⟩
  have hcl := hi.commitLe
  have hm : m < ((abs (t + 1)).log i).length := Nat.lt_of_lt_of_le hcommit hcl
  have hs : (((abs (t + 1)).log i).take (run.node (t + 1) i).commitIndex)[m]? =
      some ((abs (t + 1)).log i)[m] := by
    rw [List.getElem?_take_of_lt (Nat.lt_of_succ_le hcommit), List.getElem?_eq_getElem hm]
  rw [hA.commits_eq he hi.chosen hs]
  rcases Nat.lt_or_ge m (run.node (u + 1) j).lastIncludedIndex with hlt | hge
  · exact Or.inl hlt
  · exact Or.inr (hj.repr.getLog_of_getElem? hge (getElem?_of_isPrefix hpre hs))

/-! ## Log matching -/

/-- One equal term makes two stored logs equal below it, down to the higher of
the two snapshots. -/
def LogMatching (run : ClusterRun n C D) : Prop :=
  ∀ t i j k, (run.node t i).lastIncludedIndex ≤ k → (run.node t j).lastIncludedIndex ≤ k →
    k < (run.node t i).getLen → k < (run.node t j).getLen →
    ∀ d e, (run.node t i).getLog k = some d → (run.node t j).getLog k = some e →
    d.term = e.term →
      (∀ m, max (run.node t i).lastIncludedIndex (run.node t j).lastIncludedIndex < m → m ≤ k →
        ∃ x, (run.node t i).getLog m = some x ∧ (run.node t j).getLog m = some x) ∧
      ∃ x y,
        (run.node t i).getLog
          (max (run.node t i).lastIncludedIndex (run.node t j).lastIncludedIndex) = some x ∧
        (run.node t j).getLog
          (max (run.node t i).lastIncludedIndex (run.node t j).lastIncludedIndex) = some y ∧
        x.term = y.term

/-- Log matching. -/
theorem cluster_logMatching (run : ClusterRun n C D) : LogMatching run := by
  intro t i j k hki hkj hleni hlenj d e hd he hterm
  obtain ⟨abs, hA⟩ := exists_accompanied run
  have hi := hA.node t i
  have hj := hA.node t j
  have hli : k ≤ ((abs t).log i).length := by
    have := hi.repr.getLen
    omega
  have hlj : k ≤ ((abs t).log j).length := by
    have := hj.repr.getLen
    omega
  obtain ⟨_, hd'⟩ := hi.repr.getLog hki hli
  obtain ⟨_, he'⟩ := hj.repr.getLog hkj hlj
  cases hd.symm.trans hd'
  cases he.symm.trans he'
  have hmatch := State.valid_matching ((hA.inv t).log_valid i) ((hA.inv t).log_valid j)
    hli hlj hterm
  set b := max (run.node t i).lastIncludedIndex (run.node t j).lastIncludedIndex with hb
  have hbi : (run.node t i).lastIncludedIndex ≤ b := Nat.le_max_left _ _
  have hbj : (run.node t j).lastIncludedIndex ≤ b := Nat.le_max_right _ _
  have hbk : b ≤ k := Nat.max_le.mpr ⟨hki, hkj⟩
  constructor
  · intro m hbm hmk
    obtain ⟨m, rfl⟩ : ∃ j, m = j + 1 := ⟨m - 1, by omega⟩
    have hm : m < ((abs t).log i).length := by omega
    have hget := List.getElem?_eq_getElem hm
    have hget' : ((abs t).log j)[m]? = some ((abs t).log i)[m] := by
      have := congrArg (fun l => l[m]?) hmatch
      simp only [List.getElem?_take, if_pos (show m < k by omega)] at this
      rw [← this, hget]
    exact ⟨_, hi.repr.getLog_of_getElem? (hbi.trans (Nat.le_of_lt_succ hbm)) hget,
      hj.repr.getLog_of_getElem? (hbj.trans (Nat.le_of_lt_succ hbm)) hget'⟩
  · obtain ⟨x, hx⟩ := hi.repr.getLog hbi (hbk.trans hli)
    obtain ⟨y, hy⟩ := hj.repr.getLog hbj (hbk.trans hlj)
    refine ⟨_, _, hx, hy, ?_⟩
    have hlen : (((abs t).log i).take k).length = k := by
      rw [List.length_take, Nat.min_eq_left hli]
    have hpi := termAt_of_isPrefix (List.take_prefix k ((abs t).log i)) (k := b) (by omega)
    have hpj := termAt_of_isPrefix (List.take_prefix k ((abs t).log j)) (k := b)
      (by rw [← hmatch]; omega)
    show termAt _ b = termAt _ b
    rw [← hpi, ← hpj, hmatch]

/-! ## Log integrity -/

/-- The representation of the log is intact. -/
structure LogOk (rf : Raft n C D) : Prop where
  nonempty : rf.logs ≠ []
  index : ∀ k e, rf.logs[k]? = some e → e.index = rf.lastIncludedIndex + k
  head : ∀ e, rf.logs[0]? = some e → e.term = rf.lastIncludedTerm
  sorted : rf.logs.Pairwise fun d e => d.term ≤ e.term
  terms : ∀ e ∈ rf.logs, e.term ≤ rf.currentTerm
  snapshot : rf.lastIncludedIndex ≤ rf.commitIndex
  commit : rf.commitIndex ≤ rf.getLen - 1
  applied : rf.lastApplied ≤ rf.commitIndex
  peers : rf.state = .leader →
    ∀ p, rf.nextIndex p ≤ rf.getLen ∧ rf.matchIndex p ≤ rf.getLen - 1

/-- Node `i` is not restarted between `t` and `u`. -/
def SameIncarnation (run : ClusterRun n C D) (i : Fin n) (t u : Nat) : Prop :=
  ∀ s, t ≤ s → s < u → run.state (s + 1) = run.state s ∨
    ∃ e, (run.state s).Enabled e ∧ (run.state s).exec e = some (run.state (s + 1)) ∧
      (run.state s).rebooted e ≠ some i

/-- The log is intact in every reachable state, the indices of an incarnation
do not go down, and no event panics. -/
structure LogIntegrity (run : ClusterRun n C D) : Prop where
  intact : ∀ t i, LogOk (run.node t i)
  monotone : ∀ {i t u}, t ≤ u → SameIncarnation run i t u →
    (run.node t i).commitIndex ≤ (run.node u i).commitIndex ∧
    (run.node t i).lastApplied ≤ (run.node u i).lastApplied ∧
    (run.node t i).lastIncludedIndex ≤ (run.node u i).lastIncludedIndex
  noPanic : ∀ t e, (run.state t).Enabled e → ((run.state t).exec e).isSome

/-- In a valid log the terms do not decrease along the indices. -/
theorem termAt_le_termAt {a : Abs n C} (hI : a.Inv) {l : Log (Option C)} (hl : a.Valid l)
    {j k : Nat} (hjk : j ≤ k) (hk : k ≤ l.length) : termAt l j ≤ termAt l k := by
  cases j with
  | zero => exact Nat.zero_le _
  | succ j =>
    obtain ⟨k, rfl⟩ : ∃ m, k = m + 1 := ⟨k - 1, by omega⟩
    have hj := List.getElem?_eq_getElem (show j < l.length by omega)
    have hk' := List.getElem?_eq_getElem (show k < l.length by omega)
    rw [termAt_succ_of_getElem? hj, termAt_succ_of_getElem? hk']
    exact hI.term_le_of_valid hl (by omega) hj hk'

theorem termAt_le_term {a : Abs n C} (hI : a.Inv) (i : Fin n) (k : Nat) :
    termAt (a.log i) k ≤ a.term i := by
  cases k with
  | zero => exact Nat.zero_le _
  | succ k =>
    rw [termAt]
    cases hk : (a.log i)[k]? with
    | none => exact Nat.zero_le _
    | some s => exact hI.log_terms i s (List.mem_of_getElem? hk)

theorem NodeCore.logOk {Φ : Log (Option C) → Option D → Prop} {a : Abs n C} {i : Fin n}
    {rf : Raft n C D} (hI : a.Inv) (h : NodeCore Φ a i rf) : LogOk rf := by
  have hlen := h.repr.length_logs
  have hle := h.repr.le
  -- Every stored entry carries its index and its term.
  have hentry : ∀ k e, rf.logs[k]? = some e → rf.lastIncludedIndex + k ≤ (a.log i).length ∧
      e.index = rf.lastIncludedIndex + k ∧
      e.term = termAt (a.log i) (rf.lastIncludedIndex + k) := by
    intro k e hk
    have hlt := (List.getElem?_eq_some_iff.mp hk).1
    have hkl : rf.lastIncludedIndex + k ≤ (a.log i).length := by omega
    obtain ⟨c, hc⟩ := h.repr.logs
    obtain ⟨d, hd⟩ := exists_getElem?_stored c hkl
    rw [hc, hd] at hk
    cases hk
    exact ⟨hkl, rfl, rfl⟩
  refine
    { nonempty := fun hnil => ?_
      index := fun k e hk => (hentry k e hk).2.1
      head := fun e he => ?_
      sorted := ?_
      terms := fun e he => ?_
      snapshot := h.snapLe
      commit := ?_
      applied := h.appliedLe
      peers := fun hl p => ?_ }
  · rw [hnil, List.length_nil] at hlen
    omega
  · rw [(hentry 0 e he).2.2, Nat.add_zero, h.repr.term]
  · rw [List.pairwise_iff_getElem]
    intro j k hj hk hjk
    obtain ⟨_, _, htj⟩ := hentry j _ (List.getElem?_eq_getElem hj)
    obtain ⟨hkl, _, htk⟩ := hentry k _ (List.getElem?_eq_getElem hk)
    rw [htj, htk]
    exact termAt_le_termAt hI (hI.log_valid i) (by omega) hkl
  · obtain ⟨k, hk⟩ := List.mem_iff_getElem?.mp he
    rw [(hentry k e hk).2.2, ← h.term]
    exact termAt_le_term hI i _
  · rw [h.repr.getLen]
    exact h.commitLe
  · obtain ⟨hn, hm, _⟩ := h.peers hl p
    rw [h.repr.getLen]
    exact ⟨hn, hm⟩

/-- Log integrity. -/
theorem cluster_logIntegrity (run : ClusterRun n C D) : LogIntegrity run := by
  obtain ⟨abs, hA⟩ := exists_accompanied run
  have hexec : ∀ t e, (run.state t).Enabled e → ∃ σ' a', (run.state t).exec e = some σ' ∧
      Refined (CommittedPrefix run) (run.state t) (abs t) e σ' a' := fun t e he =>
    exec_refines (hA.inv t) (hA.sim t) he (committedPrefix_snapOk (hA.sim t) e)
  refine ⟨fun t i => (hA.node t i).toNodeCore.logOk (hA.inv t), ?_, fun t e he => ?_⟩
  · intro i t u htu hinc
    induction u, htu using Nat.le_induction with
    | base => exact ⟨Nat.le_refl _, Nat.le_refl _, Nat.le_refl _⟩
    | succ u htu ih =>
      obtain ⟨hc, ha, hs⟩ := ih fun s hts hsu => hinc s hts (Nat.lt_succ_of_lt hsu)
      rcases hinc u htu (Nat.lt_succ_self u) with heq | ⟨e, he, hstep, hreboot⟩
      · rw [ClusterRun.node, ClusterRun.node, heq]
        exact ⟨hc, ha, hs⟩
      · obtain ⟨σ', a', hexec', href⟩ := hexec u e he
        cases hstep.symm.trans hexec'
        have hg := href.grows i hreboot
        exact ⟨hc.trans hg.commit, ha.trans hg.applied, hs.trans hg.snap⟩
  · obtain ⟨σ', _, hexec', _⟩ := hexec t e he
    rw [hexec']
    rfl

end KvRaft
