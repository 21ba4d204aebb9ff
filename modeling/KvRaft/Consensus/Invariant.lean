import KvRaft.Consensus.History

/-!
# The inductive invariant of the protocol

`Inv` collects what every reachable state satisfies.  The three clauses that
carry the safety argument are `ack_kept`, `grant_kept` and `elected`:

* a member still holds what it acknowledged, or a leader elected since then
  did not have it;
* a candidate that got a member's vote before the election was decided has
  what that member acknowledged in earlier terms, with the same excuse;
* a leader therefore has a quorum of such votes.

None of the three mentions commitment, so none of them is circular.  Leader
completeness follows from them by induction on the term, in
`KvRaft.Consensus.Safety`.

Each move has one preservation theorem.  `extends_of_step` is proved first:
no step forgets anything, and with it the clauses about the past carry over.
-/

namespace KvRaft.Consensus.State

variable {N Cmd : Type}

section Invariant

variable [Fintype N]

/-- What every reachable state satisfies. -/
structure Inv (s : State N Cmd) : Prop where
  grant_le : ∀ {t v c}, s.grants t v c → t ≤ s.term v
  grant_vote : ∀ {v c}, s.grants (s.term v) v c → s.vote v = some c
  grant_unique : ∀ {t v c d}, s.grants t v c → s.grants t v d → c = d
  cand_le : ∀ {t c l}, s.cand t c = some l → t ≤ s.term c
  cand_terms : ∀ {t c l}, s.cand t c = some l → ∀ e ∈ l, e.term < t
  cand_valid : ∀ {t c l}, s.cand t c = some l → s.Valid l
  standing : ∀ {c}, s.role c = .candidate →
    s.cand (s.term c) c = some (s.log c) ∧ s.leader (s.term c) ≠ some c
  elected : ∀ {t c}, s.leader t = some c → t ≤ s.term c ∧ s.Backed t c
  leading : ∀ {c}, s.role c = .leader → s.leader (s.term c) = some c ∧
    s.log c = s.tlog (s.term c) ∧ s.acks (s.term c) c (s.log c).length
  elog_le_tlog : ∀ {t}, s.leader t ≠ none → s.elog t <+: s.tlog t
  elog_terms : ∀ {t}, s.leader t ≠ none → ∀ e ∈ s.elog t, e.term < t
  tlog_terms : ∀ {t}, s.leader t ≠ none → ∀ e ∈ s.tlog t, e.term ≤ t
  tlog_valid : ∀ {t}, s.leader t ≠ none → s.Valid (s.tlog t)
  log_valid : ∀ v, s.Valid (s.log v)
  log_terms : ∀ v, ∀ e ∈ s.log v, e.term ≤ s.term v
  ack_le : ∀ {t v m}, s.acks t v m →
    t ≤ s.term v ∧ s.leader t ≠ none ∧ m ≤ (s.tlog t).length
  ack_kept : ∀ {t v p}, s.Acked t v p → p <+: s.log v ∨ s.Lost p t (s.term v + 1)
  grant_kept : ∀ {t v c u p}, s.leader t = none → s.grants t v c → u < t →
    s.Acked u v p → p ≠ [] → lastTerm p = u →
    ∃ l, s.cand t c = some l ∧ (p <+: l ∨ s.Lost p u t)

theorem inv_initial : Inv (initial : State N Cmd) where
  grant_le h := h.elim
  grant_vote h := h.elim
  grant_unique h := h.elim
  cand_le h := by simp [initial] at h
  cand_terms h := by simp [initial] at h
  cand_valid h := by simp [initial] at h
  standing h := by simp [initial] at h
  elected h := by simp [initial] at h
  leading h := by simp [initial] at h
  elog_le_tlog h := by simp [initial] at h
  elog_terms h := by simp [initial] at h
  tlog_terms h := by simp [initial] at h
  tlog_valid h := by simp [initial] at h
  log_valid v := by intro k e h; simp [initial] at h
  log_terms v := by simp [initial]
  ack_le h := h.elim
  ack_kept h := by obtain ⟨m, hm, _⟩ := h; exact hm.elim
  grant_kept _ h := h.elim

namespace Inv

variable {s : State N Cmd}

/-- An acknowledged prefix is acknowledged in a term with a leader, not above
the member's term. -/
theorem acked_le (hI : Inv s) {t : Nat} {v : N} {p : Log Cmd} (h : s.Acked t v p) :
    t ≤ s.term v ∧ s.leader t ≠ none := by
  obtain ⟨m, hm, _⟩ := h
  exact ⟨(hI.ack_le hm).1, (hI.ack_le hm).2.1⟩

/-- In a valid log the terms do not decrease. -/
theorem term_le_of_valid (hI : Inv s) {l : Log Cmd} (hl : s.Valid l) {j k : Nat}
    {d e : Slot Cmd} (hjk : j ≤ k) (hj : l[j]? = some d) (hk : l[k]? = some e) :
    d.term ≤ e.term := by
  obtain ⟨hlead, hpre⟩ := hl k e hk
  have hmem : d ∈ l.take (k + 1) := by
    apply List.mem_of_getElem? (i := j)
    rw [List.getElem?_take, if_pos (by omega), hj]
  exact hI.tlog_terms hlead d (hpre.subset hmem)

end Inv

/-! ## Clauses about the past -/

/-- Being backed survives a step that acknowledges nothing in old terms. -/
theorem Backed.mono {s s' : State N Cmd} (hI : Inv s) (hx : Extends s s')
    (hold : ∀ {u v p}, u < s.term v → s'.Acked u v p → s.Acked u v p)
    {t : Nat} {c : N} (hlead : s.leader t = some c) (h : s.Backed t c) : s'.Backed t c := by
  obtain ⟨Q, hQ, hall⟩ := h
  refine ⟨Q, hQ, fun v hv => ⟨hx.grants (hall v hv).1, fun u p hu ha hne hlast => ?_⟩⟩
  have hle := hI.grant_le (hall v hv).1
  have hne' : s.leader t ≠ none := by rw [hlead]; exact Option.some_ne_none c
  rw [hx.elog hne']
  exact ((hall v hv).2 u p hu (hold (by omega) ha) hne hlast).imp_right
    (hx.lost (Nat.le_refl _))

/-- The same for the votes of an undecided term. -/
theorem grantKept_mono {s s' : State N Cmd} (hI : Inv s) (hx : Extends s s')
    (hold : ∀ {u v p}, u < s.term v → s'.Acked u v p → s.Acked u v p)
    {t u : Nat} {v c : N} {p : Log Cmd} (hnone : s'.leader t = none)
    (hg : s.grants t v c) (hu : u < t) (ha : s'.Acked u v p) (hne : p ≠ [])
    (hlast : lastTerm p = u) : ∃ l, s'.cand t c = some l ∧ (p <+: l ∨ s'.Lost p u t) := by
  have hle := hI.grant_le hg
  obtain ⟨l, hl, hor⟩ := hI.grant_kept (hx.leader_eq_none hnone) hg hu
    (hold (by omega) ha) hne hlast
  exact ⟨l, hx.cand hl, hor.imp_right (hx.lost (Nat.le_refl _))⟩

end Invariant

/-! ## No step forgets -/

section Moves

variable [DecidableEq N]

theorem extends_retire {s : State N Cmd} {v : N} {t : Nat} {x : Option N}
    (h : s.term v ≤ t) : Extends s (s.retire v t x) := by
  refine ⟨fun w => ?_, id, id, id, fun _ => rfl, fun _ => List.prefix_rfl, id⟩
  simp only [retire, Function.update_apply]
  split_ifs with hw
  · exact hw ▸ h
  · exact Nat.le_refl _

theorem extends_grant (s : State N Cmd) (v c : N) : Extends s (s.grant v c) :=
  ⟨fun _ => Nat.le_refl _, id, Or.inl, id, fun _ => rfl, fun _ => List.prefix_rfl, id⟩

theorem extends_elect {s : State N Cmd} {c : N} (hnone : s.leader (s.term c) = none) :
    Extends s (s.elect c) := by
  have hne : ∀ {t}, s.leader t ≠ none → t ≠ s.term c := fun ht h => ht (h ▸ hnone)
  refine ⟨fun _ => Nat.le_refl _, id, id, fun {t d} hd => ?_, fun ht => ?_, fun ht => ?_, Or.inl⟩
  · have ht : t ≠ s.term c := hne (by rw [hd]; exact Option.some_ne_none d)
    simp only [elect, Function.update_of_ne ht, hd]
  · simp only [elect, Function.update_of_ne (hne ht)]
  · simp only [elect, Function.update_of_ne (hne ht)]
    exact List.prefix_rfl

theorem extends_accept (s : State N Cmd) (v : N) (m : Nat) : Extends s (s.accept v m) :=
  ⟨fun _ => Nat.le_refl _, id, id, id, fun _ => rfl, fun _ => List.prefix_rfl, Or.inl⟩

theorem acked_accept {s : State N Cmd} {v : N} {m : Nat} {t : Nat} {w : N} {p : Log Cmd}
    (h : (s.accept v m).Acked t w p) :
    s.Acked t w p ∨ t = s.term v ∧ w = v ∧ p <+: (s.tlog (s.term v)).take m := by
  obtain ⟨k, hk, hp⟩ := h
  rcases hk with hk | ⟨rfl, rfl, rfl⟩
  · exact Or.inl ⟨k, hk, hp⟩
  · exact Or.inr ⟨rfl, rfl, hp⟩

variable [Fintype N]

/-- No member is elected twice, and no second member is elected: while a
candidate of the term has a quorum, the term has no leader. -/
theorem Inv.leader_none_of_quorum {s : State N Cmd} (hI : Inv s) {c : N}
    (hrole : s.role c = .candidate) {Q : Finset N} (hQ : IsQuorum Q)
    (hg : ∀ v ∈ Q, s.grants (s.term c) v c) : s.leader (s.term c) = none := by
  by_contra hne
  obtain ⟨d, hd⟩ := Option.ne_none_iff_exists'.mp hne
  obtain ⟨_, P, hP, hback⟩ := hI.elected hd
  obtain ⟨v, hvP, hvQ⟩ := hP.exists_common hQ
  have hcd : d = c := hI.grant_unique (hback v hvP).1 (hg v hvQ)
  exact (hI.standing hrole).2 (hcd ▸ hd)

theorem extends_stand {s : State N Cmd} (hI : Inv s) (v : N) : Extends s (s.stand v) := by
  refine ⟨fun w => ?_, fun {t c l} hc => ?_, Or.inl, id, fun _ => rfl,
    fun _ => List.prefix_rfl, id⟩
  · simp only [stand, Function.update_apply]
    split_ifs with hw
    · rw [hw]
      omega
    · exact Nat.le_refl _
  · simp only [stand]
    rw [if_neg ?_]
    · exact hc
    · rintro ⟨rfl, rfl⟩
      have := hI.cand_le hc
      omega

theorem extends_propose {s : State N Cmd} (hI : Inv s) {c : N} (hrole : s.role c = .leader)
    (x : Cmd) : Extends s (s.propose c x) := by
  refine ⟨fun _ => Nat.le_refl _, id, id, id, fun _ => rfl, fun {t} _ => ?_, Or.inl⟩
  simp only [propose, Function.update_apply]
  split_ifs with h
  · rw [h, ← (hI.leading hrole).2.1]
    exact List.prefix_append _ _
  · exact List.prefix_rfl

/-- A step keeps the whole history. -/
theorem extends_of_step {s s' : State N Cmd} (hI : Inv s) (h : Step s s') : Extends s s' := by
  cases h with
  | move hm =>
    cases hm with
    | retire v t x h => exact extends_retire (by rcases h with h | h <;> omega)
    | stand v => exact extends_stand hI v
    | grant v c l _ _ _ => exact extends_grant s v c
    | elect c Q hrole hQ hg => exact extends_elect (hI.leader_none_of_quorum hrole hQ hg)
    | accept v m _ _ => exact extends_accept s v m
  | propose c x hrole => exact extends_propose hI hrole x

/-! ## What is acknowledged after a move -/

theorem acked_elect {s : State N Cmd} (hI : Inv s) {c : N}
    (hnone : s.leader (s.term c) = none) {t : Nat} {v : N} {p : Log Cmd}
    (h : (s.elect c).Acked t v p) :
    s.Acked t v p ∨ t = s.term c ∧ v = c ∧ p <+: s.log c := by
  obtain ⟨m, hm, hp⟩ := h
  simp only [elect] at hm hp
  rcases hm with hm | ⟨rfl, rfl, rfl⟩
  · have ht : t ≠ s.term c := fun heq => (hI.ack_le hm).2.1 (heq ▸ hnone)
    rw [Function.update_of_ne ht] at hp
    exact Or.inl ⟨m, hm, hp⟩
  · rw [Function.update_self, List.take_length] at hp
    exact Or.inr ⟨rfl, rfl, hp⟩

theorem acked_propose {s : State N Cmd} (hI : Inv s) {c : N} (hrole : s.role c = .leader)
    {x : Cmd} {t : Nat} {v : N} {p : Log Cmd} (h : (s.propose c x).Acked t v p) :
    s.Acked t v p ∨ t = s.term c ∧ v = c ∧ p <+: s.log c ++ [⟨s.term c, x⟩] := by
  obtain ⟨m, hm, hp⟩ := h
  simp only [propose] at hm hp
  rcases hm with hm | ⟨rfl, rfl, rfl⟩
  · refine Or.inl ⟨m, hm, ?_⟩
    by_cases ht : t = s.term c
    · subst ht
      -- The acknowledged part lies within the log before the proposal.
      have hlen := (hI.ack_le hm).2.2
      rw [Function.update_self, (hI.leading hrole).2.1,
        List.take_append_of_le_length hlen] at hp
      exact hp
    · rwa [Function.update_of_ne ht] at hp
  · rw [Function.update_self] at hp
    exact Or.inr ⟨rfl, rfl, hp.trans (List.take_prefix _ _)⟩

end Moves

end KvRaft.Consensus.State
