import KvRaft.Consensus.Preservation

/-!
# Safety of the protocol

The results that a refinement proof uses:

* `leader_complete`: a leader of a later term has everything committed before;
* `committed_prefix_or`: two committed prefixes are comparable, so there is
  one committed log;
* `chosen_prefix_tlog`: the leader of a term has everything that was chosen
  in that term or before, and `chosen_prefix_adopt`: so a member that copies
  from it loses nothing that it knows to be chosen.

`hasSlot_of_move` says that a move creates no slot.  Every slot that any log
ever holds was therefore proposed once, at one index of one term.
-/

namespace KvRaft.Consensus.State

variable {N Cmd : Type} [Fintype N] [DecidableEq N] {s s' : State N Cmd}

/-! ## Chosen prefixes -/

theorem Committed.prefix_tlog (hI : Inv s) {t : Nat} {p : Log Cmd} (h : s.Committed t p) :
    s.leader t ≠ none ∧ p <+: s.tlog t := by
  obtain ⟨_, _, Q, hQ, hall⟩ := h
  obtain ⟨v, hv, _⟩ := hQ.exists_common hQ
  obtain ⟨m, hm, hp⟩ := hall v hv
  exact ⟨(hI.ack_le hm).2.1, hp.trans (List.take_prefix m _)⟩

theorem Committed.mono (hI : Inv s) (hx : Extends s s') {t : Nat} {p : Log Cmd}
    (h : s.Committed t p) : s'.Committed t p := by
  have hlead := (h.prefix_tlog hI).1
  obtain ⟨hne, hlast, Q, hQ, hall⟩ := h
  exact ⟨hne, hlast, Q, hQ, fun v hv => hx.acked hlead (hall v hv)⟩

omit [DecidableEq N] in
theorem Chosen.nil (s : State N Cmd) (t : Nat) : s.Chosen [] t := Or.inl rfl

theorem Chosen.mono (hI : Inv s) (hx : Extends s s') {p : Log Cmd} {t t' : Nat}
    (ht : t ≤ t') (h : s.Chosen p t) : s'.Chosen p t' := by
  rcases h with rfl | ⟨u, q, hu, hq, hp⟩
  · exact .nil s' t'
  · exact Or.inr ⟨u, q, Nat.le_trans hu ht, hq.mono hI hx, hp⟩

omit [DecidableEq N] in
theorem Chosen.of_isPrefix {p q : Log Cmd} {t : Nat} (h : s.Chosen q t) (hp : p <+: q) :
    s.Chosen p t := by
  rcases h with rfl | ⟨u, r, hu, hr, hq⟩
  · rw [List.prefix_nil.mp hp]
    exact .nil s t
  · exact Or.inr ⟨u, r, hu, hr, hp.trans hq⟩

/-! ## Leader completeness -/

/-- A later leader was elected with everything that is committed.  The
induction is on the later term: the quorum of the commitment and the quorum
of the election share a member, and the only excuse of that member is a
leader in between, which the induction hypothesis rules out. -/
theorem leader_complete (hI : Inv s) {t : Nat} {p : Log Cmd} (h : s.Committed t p) :
    ∀ t', t < t' → s.leader t' ≠ none → p <+: s.elog t' := by
  obtain ⟨hne, hlast, Q, hQ, hall⟩ := h
  intro t'
  induction t' using Nat.strongRecOn with
  | ind t' ih =>
    intro hlt hlead
    obtain ⟨c, hc⟩ := Option.ne_none_iff_exists'.mp hlead
    obtain ⟨_, P, hP, hback⟩ := hI.elected hc
    obtain ⟨v, hvQ, hvP⟩ := hQ.exists_common hP
    rcases (hback v hvP).2 t p hlt (hall v hvQ) hne hlast with hp | ⟨u, htu, hut, hu, hnot⟩
    · exact hp
    · exact absurd (ih u hut htu hu) hnot

/-- Two committed prefixes are comparable. -/
theorem committed_prefix_or (hI : Inv s) {t t' : Nat} {p q : Log Cmd}
    (hp : s.Committed t p) (hq : s.Committed t' q) : p <+: q ∨ q <+: p := by
  obtain ⟨hlp, hpt⟩ := hp.prefix_tlog hI
  obtain ⟨hlq, hqt⟩ := hq.prefix_tlog hI
  rcases Nat.lt_trichotomy t t' with h | rfl | h
  · have := (leader_complete hI hp t' h hlq).trans (hI.elog_le_tlog hlq)
    exact List.prefix_or_prefix_of_prefix this hqt
  · exact List.prefix_or_prefix_of_prefix hpt hqt
  · have := (leader_complete hI hq t h hlp).trans (hI.elog_le_tlog hlp)
    exact List.prefix_or_prefix_of_prefix hpt this

/-- There is one chosen log: two chosen prefixes are comparable. -/
theorem chosen_prefix_or (hI : Inv s) {t t' : Nat} {p q : Log Cmd}
    (hp : s.Chosen p t) (hq : s.Chosen q t') : p <+: q ∨ q <+: p := by
  rcases hp with rfl | ⟨u, p', _, hp', hpp⟩
  · exact Or.inl List.nil_prefix
  · rcases hq with rfl | ⟨u', q', _, hq', hqq⟩
    · exact Or.inr List.nil_prefix
    · rcases committed_prefix_or hI hp' hq' with h | h
      · exact List.prefix_or_prefix_of_prefix (hpp.trans h) hqq
      · exact List.prefix_or_prefix_of_prefix hpp (hqq.trans h)

/-- At one index, two chosen prefixes hold the same slot. -/
theorem chosen_getElem?_eq (hI : Inv s) {t t' : Nat} {p q : Log Cmd}
    (hp : s.Chosen p t) (hq : s.Chosen q t') {k : Nat} {d e : Slot Cmd}
    (hd : p[k]? = some d) (he : q[k]? = some e) : d = e := by
  rcases chosen_prefix_or hI hp hq with h | h
  · rw [getElem?_of_isPrefix h hd] at he
    exact Option.some.inj he
  · rw [getElem?_of_isPrefix h he] at hd
    exact (Option.some.inj hd).symm

/-- A later leader was elected with everything chosen before its term. -/
theorem chosen_prefix_elog (hI : Inv s) {t t' : Nat} {p : Log Cmd} (hp : s.Chosen p t)
    (ht : t < t') (hlead : s.leader t' ≠ none) : p <+: s.elog t' := by
  rcases hp with rfl | ⟨u, q, hu, hq, hpq⟩
  · exact List.nil_prefix
  · exact hpq.trans (leader_complete hI hq t' (Nat.lt_of_le_of_lt hu ht) hlead)

/-- The leader of a term has everything chosen up to that term. -/
theorem chosen_prefix_tlog (hI : Inv s) {t t' : Nat} {p : Log Cmd} (hp : s.Chosen p t)
    (ht : t ≤ t') (hlead : s.leader t' ≠ none) : p <+: s.tlog t' := by
  rcases hp with rfl | ⟨u, q, hu, hq, hpq⟩
  · exact List.nil_prefix
  · rcases Nat.eq_or_lt_of_le (Nat.le_trans hu ht) with rfl | hlt
    · exact hpq.trans (hq.prefix_tlog hI).2
    · exact (hpq.trans (leader_complete hI hq t' hlt hlead)).trans (hI.elog_le_tlog hlead)

/-- A member that copies from the leader keeps what it knows to be chosen. -/
theorem chosen_prefix_adopt (hI : Inv s) {v : N} {p : Log Cmd} {t : Nat}
    (hp : s.Chosen p t) (ht : t ≤ s.term v) (hlead : s.leader (s.term v) ≠ none)
    (hlog : p <+: s.log v) (m : Nat) :
    p <+: adopt (s.log v) ((s.tlog (s.term v)).take m) :=
  prefix_adopt hlog (chosen_prefix_tlog hI hp ht hlead)

/-- A chosen slot is a slot of some leader's log. -/
theorem Chosen.hasSlot (hI : Inv s) {p : Log Cmd} {t k : Nat} {e : Slot Cmd}
    (hp : s.Chosen p t) (hk : p[k]? = some e) : s.HasSlot k e := by
  rcases hp with rfl | ⟨u, q, _, hq, hpq⟩
  · simp at hk
  · obtain ⟨hlead, hqt⟩ := hq.prefix_tlog hI
    exact ⟨u, hlead, getElem?_of_isPrefix (hpq.trans hqt) hk⟩

/-! ## Where slots come from -/

/-- A move creates no slot. -/
theorem hasSlot_of_move (hI : Inv s) (h : Move s s') {k : Nat} {e : Slot Cmd}
    (hs : s'.HasSlot k e) : s.HasSlot k e := by
  obtain ⟨t, ht, hk⟩ := hs
  cases h with
  | retire v t' x _ => exact ⟨t, ht, hk⟩
  | stand v => exact ⟨t, ht, hk⟩
  | grant v c l _ _ _ => exact ⟨t, ht, hk⟩
  | accept v m _ _ => exact ⟨t, ht, hk⟩
  | elect c Q hrole hQ hg =>
    by_cases htc : t = s.term c
    · -- The log of a new leader comes from the logs of earlier leaders.
      subst htc
      rw [show (s.elect c).tlog (s.term c) = s.log c by simp [elect]] at hk
      obtain ⟨hlt, _⟩ := List.getElem?_eq_some_iff.mp hk
      obtain ⟨hlead, hpre⟩ := hI.log_valid c k e hk
      refine ⟨e.term, hlead, getElem?_of_isPrefix hpre ?_⟩
      rw [List.getElem?_take, if_pos (Nat.lt_succ_self k), hk]
    · simp only [elect, Function.update_of_ne htc] at ht hk
      exact ⟨t, ht, hk⟩

theorem hasSlot_of_moves (hI : Inv s) (h : Relation.ReflTransGen Move s s') {k : Nat}
    {e : Slot Cmd} (hs : s'.HasSlot k e) : s.HasSlot k e := by
  induction h with
  | refl => exact hs
  | tail hmoves hmove ih =>
    refine ih (hasSlot_of_move (inv_of_steps hI ?_).1 hmove hs)
    exact hmoves.lift id fun _ _ hm => .move hm

/-- A proposal creates one slot, at the end of the leader's log. -/
theorem hasSlot_of_propose (hI : Inv s) {c : N} (hrole : s.role c = .leader) {x : Cmd}
    {k : Nat} {e : Slot Cmd} (hs : (s.propose c x).HasSlot k e) :
    s.HasSlot k e ∨ k = (s.log c).length ∧ e = ⟨s.term c, x⟩ := by
  obtain ⟨t, ht, hk⟩ := hs
  by_cases htc : t = s.term c
  · subst htc
    rw [propose_tlog_self] at hk
    by_cases hlt : k < (s.log c).length
    · rw [List.getElem?_append_left hlt, (hI.leading hrole).2.1] at hk
      exact Or.inl ⟨s.term c, ht, hk⟩
    · obtain ⟨hlt', _⟩ := List.getElem?_eq_some_iff.mp hk
      have hkeq : k = (s.log c).length := by
        simp only [List.length_append, List.length_singleton] at hlt'
        omega
      subst hkeq
      exact Or.inr ⟨rfl, by simpa using hk.symm⟩
  · simp only [propose, Function.update_of_ne htc] at ht hk
    exact Or.inl ⟨t, ht, hk⟩

end KvRaft.Consensus.State
