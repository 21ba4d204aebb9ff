import KvRaft.Cluster.Safety

/-!
# What a leader knows about its peers

`matchIndex` is right above the leader's commit index: a peer in the leader's
term holds the leader's entries up to there, or has compacted them away.  It
need not be right below, because a new leader begins with its own snapshot
index for everybody.

Behind it is the stability of acknowledgements.  Once a peer has answered
`Success`, it keeps what the request reached as long as it stays in that term,
whatever else arrives and however often it restarts.
-/

namespace KvRaft

open Consensus

variable {n : Nat} {C D : Type}

/-- `matchIndex` is sound, and acknowledged entries are stable. -/
structure MatchSoundness (run : ClusterRun n C D) : Prop where
  /-- A peer in the leader's term has the leader's entry, or has compacted it
  away. -/
  sound : ∀ {t l p k}, (run.node t l).state = .leader →
    (run.node t p).currentTerm = (run.node t l).currentTerm →
    (run.node t l).commitIndex < k → k ≤ (run.node t l).matchIndex p →
      k ≤ (run.node t p).lastIncludedIndex ∨
        ∃ e, (run.node t l).getLog k = some e ∧ (run.node t p).getLog k = some e
  /-- At moment `t` the request `args` was answered with success.  While its
  receiver is in the term of the request, the entries up to the end of the
  request stay the same, and those of the request are among them. -/
  stable : ∀ {t u r rpc args reply k}, (run.state t).rpcs[r]? = some rpc →
    rpc.args = .appendEntries args → (r, .appendEntries reply) ∈ (run.state t).replies →
    reply.success = true → t ≤ u → (run.node u rpc.dst).currentTerm = args.term →
    k ≤ args.prevLogIndex + args.entries.length →
      k ≤ (run.node u rpc.dst).lastIncludedIndex ∨
        ∃ e, (run.node u rpc.dst).getLog k = some e ∧
          (∀ j, k = args.prevLogIndex + 1 + j → args.entries[j]? = some e) ∧
          ∀ v, t ≤ v → v ≤ u → (run.node v rpc.dst).lastIncludedIndex < k →
            (run.node v rpc.dst).getLog k = some e

variable {run : ClusterRun n C D} {abs : Nat → Abs n C}

/-- While a member is in a term, it holds what it acknowledged in it. -/
theorem State.Inv.acked_prefix {a : Abs n C} (hI : a.Inv) {p : Fin n} {m : Nat}
    (h : a.acks (a.term p) p m) : (a.tlog (a.term p)).take m <+: a.log p := by
  rcases hI.ack_kept ⟨m, h, List.prefix_refl _⟩ with hpre | ⟨u, hlow, hhigh, _⟩
  · exact hpre
  · omega

/-- A slot that a node acknowledged in its term is in its log or in its
snapshot. -/
theorem Accompanied.acked_slot (hA : Accompanied (CommittedPrefix run) run abs) {t : Nat}
    {p : Fin n} {m k : Nat} {s : Slot (Option C)}
    (hack : (abs t).acks (run.node t p).currentTerm p m)
    (hs : ((abs t).tlog (run.node t p).currentTerm)[k]? = some s) (hk : k < m) :
    k + 1 ≤ (run.node t p).lastIncludedIndex ∨
      (run.node t p).getLog (k + 1) = some ⟨k + 1, s.term, s.cmd⟩ := by
  have hp := hA.node t p
  rw [← hp.term] at hack hs
  have hpre := State.Inv.acked_prefix (hA.inv t) hack
  have hslot : ((abs t).log p)[k]? = some s := by
    refine getElem?_of_isPrefix hpre ?_
    rw [List.getElem?_take_of_lt hk, hs]
  rcases Nat.lt_or_ge k (run.node t p).lastIncludedIndex with hlt | hge
  · exact Or.inl hlt
  · exact Or.inr (hp.repr.getLog_of_getElem? hge hslot)

theorem Accompanied.match_sound (hA : Accompanied (CommittedPrefix run) run abs) {t : Nat}
    {l p : Fin n} {k : Nat} (hl : (run.node t l).state = .leader)
    (hterm : (run.node t p).currentTerm = (run.node t l).currentTerm)
    (hk : (run.node t l).commitIndex < k) (hm : k ≤ (run.node t l).matchIndex p) :
    k ≤ (run.node t p).lastIncludedIndex ∨
      ∃ e, (run.node t l).getLog k = some e ∧ (run.node t p).getLog k = some e := by
  have hnode := hA.node t l
  obtain ⟨hlog, _, _⟩ := hnode.toNodeCore.leader_log (hA.inv t) hl
  obtain ⟨_, hmatch, hpeer⟩ := hnode.peers hl p
  have hsnap := hnode.snapLe
  obtain ⟨j, rfl⟩ : ∃ j, k = j + 1 := ⟨k - 1, by omega⟩
  obtain ⟨s, hs⟩ : ∃ s, ((abs t).log l)[j]? = some s :=
    ⟨_, List.getElem?_eq_getElem (by omega)⟩
  have hget := hnode.repr.getLog_of_getElem? (show (run.node t l).lastIncludedIndex ≤ j by omega) hs
  by_cases hpl : p = l
  · subst hpl
    exact Or.inr ⟨_, hget, hget⟩
  · rcases hpeer hpl with hle | ⟨m, hle, hack⟩
    · omega
    · rw [← hterm] at hack
      rw [hlog, ← hterm] at hs
      exact (hA.acked_slot hack hs (by omega)).imp_right fun hslot => ⟨_, hget, hslot⟩

/-- A slot that a node acknowledged at some moment is still there while the
node is in the term. -/
theorem Accompanied.acked_slot_mono (hA : Accompanied (CommittedPrefix run) run abs)
    {t u : Nat} (htu : t ≤ u) {p : Fin n} {T m k : Nat} {s : Slot (Option C)}
    (hack : (abs t).acks T p m) (hs : ((abs t).tlog T)[k]? = some s) (hk : k < m)
    (hterm : (run.node u p).currentTerm = T) :
    k + 1 ≤ (run.node u p).lastIncludedIndex ∨
      (run.node u p).getLog (k + 1) = some ⟨k + 1, s.term, s.cmd⟩ := by
  subst hterm
  have hx := hA.mono htu
  have hlead := ((hA.inv t).ack_le hack).2.1
  exact hA.acked_slot (hx.acks hack) (getElem?_of_isPrefix (hx.tlog hlead) hs) hk

/-- A node that acknowledged something in a term and is in that term later was
in it all the time. -/
theorem Accompanied.term_between (hA : Accompanied (CommittedPrefix run) run abs)
    {t u v : Nat} (htv : t ≤ v) (hvu : v ≤ u) {p : Fin n} {T m : Nat}
    (hack : (abs t).acks T p m) (hterm : (run.node u p).currentTerm = T) :
    (run.node v p).currentTerm = T := by
  have hlow := ((hA.inv t).ack_le hack).1.trans ((hA.mono htv).term p)
  have hhigh := (hA.mono hvu).term p
  rw [(hA.node v p).term] at hlow hhigh
  rw [(hA.node u p).term] at hhigh
  omega

theorem Accompanied.match_stable (hA : Accompanied (CommittedPrefix run) run abs)
    {t u r : Nat} {rpc : Rpc n C D} {args : AppendEntriesArgs n C} {reply : AppendEntriesReply}
    {k : Nat} (hrpc : (run.state t).rpcs[r]? = some rpc) (hargs : rpc.args = .appendEntries args)
    (hreply : (r, .appendEntries reply) ∈ (run.state t).replies) (hsucc : reply.success = true)
    (htu : t ≤ u) (hterm : (run.node u rpc.dst).currentTerm = args.term)
    (hk : k ≤ args.prevLogIndex + args.entries.length) :
    k ≤ (run.node u rpc.dst).lastIncludedIndex ∨
      ∃ e, (run.node u rpc.dst).getLog k = some e ∧
        (∀ j, k = args.prevLogIndex + 1 + j → args.entries[j]? = some e) ∧
        ∀ v, t ≤ v → v ≤ u → (run.node v rpc.dst).lastIncludedIndex < k →
          (run.node v rpc.dst).getLog k = some e := by
  obtain ⟨rpc', hrpc', hok⟩ := (hA.sim t).reply hreply
  cases hrpc.symm.trans hrpc'
  have hack := (hok args hargs).1 hsucc
  obtain ⟨_, hlen, hentries, _⟩ := (rpcOk_appendEntries hargs).mp ((hA.sim t).rpc hrpc)
  rcases Nat.eq_zero_or_pos k with rfl | hpos
  · exact Or.inl (Nat.zero_le _)
  obtain ⟨i, rfl⟩ : ∃ i, k = i + 1 := ⟨k - 1, by omega⟩
  obtain ⟨s, hs⟩ : ∃ s, ((abs t).tlog args.term)[i]? = some s :=
    ⟨_, List.getElem?_eq_getElem (by omega)⟩
  refine (hA.acked_slot_mono htu hack hs (by omega) hterm).imp_right fun hslot =>
    ⟨_, hslot, fun j hj => ?_, fun v htv hvu hlt => ?_⟩
  · rw [hentries, getElem?_numbered, List.getElem?_take_of_lt (by omega), List.getElem?_drop,
      show args.prevLogIndex + j = i by omega, hs, Option.map_some,
      show args.prevLogIndex + 1 + j = i + 1 by omega]
  · have hterm' := hA.term_between htv hvu hack hterm
    exact (hA.acked_slot_mono htv hack hs (by omega) hterm').resolve_left (by omega)

/-- What a leader counts on above its commit index is there, and stays there
while the term lasts. -/
theorem cluster_matchSoundness (run : ClusterRun n C D) : MatchSoundness run := by
  obtain ⟨abs, hA⟩ := exists_accompanied run
  exact
    { sound := fun hl hterm hk hm => hA.match_sound hl hterm hk hm
      stable := fun hrpc hargs hreply hsucc htu hterm hk =>
        hA.match_stable hrpc hargs hreply hsucc htu hterm hk }

end KvRaft
