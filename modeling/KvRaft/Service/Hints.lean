import KvRaft.Cluster.Leadership
import KvRaft.Service.Clerk
import Mathlib.Algebra.Order.Monoid.Unbundled.WithTop
import Mathlib.Data.Finset.Lattice.Fold
import Mathlib.Order.Lattice.Nat

/-!
# Where hints lead

`currentLeader` is the hint that a refused client gets.  It is set when a request
of a leader is accepted and when an election is won, and forgotten when an election
starts and at a restart.  Nothing else touches it: after a higher term it may name a
leader of long ago.

A client that follows such hints still does not go around in a circle.  The hint of
a node is at least as recent as anything that the node has led itself, and a term has
one leader, so a node that is named by another one has led later (`Hinted`).  The
last term that the visited node has led therefore grows with every hint that the
client follows, whatever happens between two visits (`hints_lead_forward`).
-/

namespace KvRaft

variable {n : Nat} {C D : Type}

/-! ## The last term -/

/-- The last term that node `i` has led by moment `t`, `⊥` if it has led none. -/
def lastLed (run : ClusterRun n C D) (t : Nat) (i : Fin n) : WithBot Nat :=
  (Finset.range (t + 1)).sup fun u =>
    if (run.node u i).state = .leader then ((run.node u i).currentTerm : WithBot Nat) else ⊥

section LastLed

variable {run : ClusterRun n C D} {t u : Nat} {i : Fin n} {term : Nat}

theorem Led.le_lastLed (h : Led run t i term) : (term : WithBot Nat) ≤ lastLed run t i := by
  obtain ⟨v, hv, hl, rfl⟩ := h
  have hle := Finset.le_sup (f := fun u =>
    if (run.node u i).state = .leader then ((run.node u i).currentTerm : WithBot Nat) else ⊥)
    (Finset.mem_range_succ_iff.mpr hv)
  rw [if_pos hl] at hle
  exact hle

theorem lastLed_lt (h : ∀ term', Led run t i term' → term' < term) :
    lastLed run t i < term := by
  refine (Finset.sup_lt_iff (WithBot.bot_lt_coe term)).mpr fun u hu => ?_
  split_ifs with hl
  · exact WithBot.coe_lt_coe.mpr (h _ ⟨u, Finset.mem_range_succ_iff.mp hu, hl, rfl⟩)
  · exact WithBot.bot_lt_coe term

end LastLed

/-! ## Hints -/

/-- A leader names itself, and every hint is about a term that is at least as
recent as all that the node has led. -/
structure Hinted (run : ClusterRun n C D) (t : Nat) (i : Fin n) : Prop where
  leader : (run.node t i).state = .leader → (run.node t i).currentLeader = some i
  hint : ∀ {l}, (run.node t i).currentLeader = some l → ∃ term,
    term ≤ (run.node t i).currentTerm ∧ Led run t l term ∧
      ∀ term', Led run t i term' → term' ≤ term

theorem Accompanied.hinted {run : ClusterRun n C D} {abs : Nat → Abs n C}
    (hA : Accompanied (CommittedPrefix run) run abs) (t : Nat) (i : Fin n) : Hinted run t i := by
  induction t with
  | zero =>
    have hnode : run.node 0 i = .make i .empty := by
      rw [ClusterRun.node, run.start]
      rfl
    rw [Raft.make_eq] at hnode
    refine ⟨fun hl => ?_, fun hhint => ?_⟩
    · rw [hnode] at hl
      cases hl
    · rw [hnode] at hhint
      cases hhint
  | succ t ih =>
    cases run.hears t i with
    | same hint term leads =>
      refine ⟨fun hl => hint.trans (ih.leader (leads hl).1), fun hhint => ?_⟩
      obtain ⟨led, hle, hled, hall⟩ := ih.hint (hint.symm.trans hhint)
      refine ⟨led, hle.trans term, hled.mono (Nat.le_succ t), fun term' hterm' => hall term' ?_⟩
      rcases hterm'.of_succ with hold | ⟨hl, rfl⟩
      · exact hold
      · exact ⟨t, Nat.le_refl t, (leads hl).1, (leads hl).2.symm⟩
    | forgets hint state =>
      refine ⟨fun hl => absurd hl state, fun hhint => ?_⟩
      rw [hint] at hhint
      cases hhint
    | wins hint state =>
      have hme := (hA.node t i).me
      rw [hme] at hint
      refine ⟨fun _ => hint, fun hhint => ?_⟩
      rw [hint] at hhint
      cases hhint
      exact ⟨_, Nat.le_refl _, ⟨t + 1, Nat.le_refl _, state, rfl⟩, fun _ hled => hA.led_le hled⟩
    | heeds leader hint state term said =>
      refine ⟨fun hl => absurd hl state, fun hhint => ?_⟩
      cases hint.symm.trans hhint
      exact ⟨_, Nat.le_refl _, (hA.led_of_announced said).mono (Nat.le_succ t),
        fun _ hled => hA.led_le hled⟩

/-! ## Clients -/

/-- A client that was refused at the first node goes where the hint sends it, and
is there at the second moment. -/
structure Redirects (run : ClusterRun n C D) (v w : Nat × Fin n) : Prop where
  time : v.1 ≤ w.1
  hint : ∃ leader, (run.node v.1 v.2).currentLeader = some leader ∧ leader ≠ v.2
  next : w.2 = Clerk.nextServer v.2 (some (leaderHint (run.node v.1 v.2).currentLeader))

theorem nextServer_leaderHint {srv leader : Fin n} (hne : leader ≠ srv) :
    Clerk.nextServer srv (some (leaderHint (some leader))) = leader := by
  have hne' : (leader.val : Int) ≠ srv.val := fun h => hne (Fin.ext (Int.ofNat_inj.mp h))
  simp [Clerk.nextServer, leaderHint, hne']

theorem Accompanied.redirects {run : ClusterRun n C D} {abs : Nat → Abs n C}
    (hA : Accompanied (CommittedPrefix run) run abs) {v w : Nat × Fin n}
    (h : Redirects run v w) : lastLed run v.1 v.2 < lastLed run w.1 w.2 := by
  obtain ⟨leader, hhint, hne⟩ := h.hint
  have hnext := h.next
  rw [hhint, nextServer_leaderHint hne] at hnext
  rw [hnext]
  obtain ⟨term, _, hled, hall⟩ := (hA.hinted v.1 v.2).hint hhint
  refine lt_of_lt_of_le (lastLed_lt fun term' hled' => ?_) ((hled.mono h.time).le_lastLed)
  refine lt_of_le_of_ne (hall term' hled') ?_
  rintro rfl
  exact hne (hA.led_unique hled hled')

/-- A client that follows hints from node to node comes to later and later leaders.
At one moment it therefore visits no node twice, and is through after all of them. -/
theorem hints_lead_forward (run : ClusterRun n C D) {visits : List (Nat × Fin n)}
    (h : visits.IsChain (Redirects run)) :
    visits.Pairwise (fun v w => lastLed run v.1 v.2 < lastLed run w.1 w.2) ∧
      ∀ t, (∀ v ∈ visits, v.1 = t) → visits.Nodup ∧ visits.length ≤ n := by
  obtain ⟨abs, hA⟩ := exists_accompanied run
  have hpair : visits.Pairwise fun v w => lastLed run v.1 v.2 < lastLed run w.1 w.2 := by
    refine List.isChain_iff_pairwise.mp (h.imp fun v w hvw => hA.redirects hvw)
  refine ⟨hpair, fun t ht => ?_⟩
  have hnodup : (visits.map Prod.snd).Nodup := by
    refine List.pairwise_map.mpr (hpair.imp_of_mem fun {v w} hv hw hlt heq => ?_)
    rw [ht v hv, ht w hw, heq] at hlt
    exact lt_irrefl _ hlt
  have hlen := hnodup.length_le_card
  rw [List.length_map, Fintype.card_fin] at hlen
  exact ⟨List.Nodup.of_map _ hnodup, hlen⟩

/-- Node 0 leads, node 1 hears of it, node 2 leads the second term with the vote
of node 1, and node 0 hears of that. -/
def staleHintEvents : List (Event 3 Nat Nat) :=
  [.electionTimeout node0, .deliver 0, .handleReply 0 (.requestVote ⟨0, true⟩),
    .replicate node0 node1, .deliver 2, .electionTimeout node2, .electionTimeout node2,
    .deliver 6, .handleReply 6 (.requestVote ⟨1, true⟩), .replicate node2 node0, .deliver 7]

/-- The vote has left the hint of node 1 alone, so a client at node 1 comes to node 2
over node 0. -/
theorem staleHint_forward : let run := ClusterRun.ofEvents staleHintEvents
    let visits := [(11, node1), (11, node0), (11, node2)]
    visits.IsChain (Redirects run) ∧ lastLed run 11 node1 = ⊥ ∧ lastLed run 11 node2 = (2 : Nat) ∧
      visits.Pairwise fun v w => lastLed run v.1 v.2 < lastLed run w.1 w.2 := by
  have hchain : [(11, node1), (11, node0), (11, node2)].IsChain
      (Redirects (ClusterRun.ofEvents staleHintEvents)) := by
    refine .cons_cons ⟨Nat.le_refl _, ⟨node0, ?_, ?_⟩, ?_⟩
      (.cons_cons ⟨Nat.le_refl _, ⟨node2, ?_, ?_⟩, ?_⟩ (.singleton _)) <;> decide +kernel
  refine ⟨hchain, ?_, ?_, (hints_lead_forward _ hchain).1⟩ <;> decide +kernel

end KvRaft
