import KvRaft.Consensus.State

/-!
# What the history of the protocol says

The vocabulary of the safety argument, and what a step does to it.

* `Valid l`: every slot of `l` comes from the log of its term's leader, with
  everything before it.  Two valid logs with equal terms at one index are
  equal up to that index (`valid_matching`).
* `Acked t v p`: in term `t` the member `v` acknowledged the slots `p`.
* `Lost p t b`: some leader of a term between `t` and `b` was elected without
  the slots `p`.  An acknowledged prefix stays in a member's log until a
  leader without it comes along, so `Lost` is the excuse of a member that no
  longer holds what it acknowledged.
* `Committed t p`: a quorum acknowledged `p` in term `t`, and the last slot
  of `p` is of that term.
* `Chosen p t`: `p` is a prefix of something committed in term `t` or before.

`Extends s s'` says that `s'` remembers everything that `s` remembers.  All
of the notions above are kept by it.
-/

namespace KvRaft.Consensus

variable {N Cmd : Type}

/-! ## Prefixes -/

/-- A prefix that two logs share survives when one takes over slots of the
other. -/
theorem prefix_adopt {p l g : Log Cmd} {m : Nat} (hl : p <+: l) (hg : p <+: g) :
    p <+: adopt l (g.take m) := by
  unfold adopt
  split_ifs with h
  · exact hl
  · -- A shorter piece of `g` would be part of `p`, hence of `l`.
    have hm : p.length ≤ m := by
      by_contra hlt
      apply h
      refine List.IsPrefix.trans ?_ hl
      refine List.prefix_of_prefix_length_le (List.take_prefix m g) hg ?_
      rw [List.length_take]
      omega
    refine List.prefix_of_prefix_length_le hg (List.take_prefix m g) ?_
    rw [List.length_take]
    have := hg.length_le
    omega

theorem prefix_adopt_self (l p : Log Cmd) : p <+: adopt l p := by
  unfold adopt
  split_ifs with h
  · exact h
  · exact List.prefix_rfl

/-- What is adopted is one of the two logs. -/
theorem adopt_cases (l p : Log Cmd) : adopt l p = l ∨ adopt l p = p := by
  unfold adopt
  split_ifs
  · exact Or.inl rfl
  · exact Or.inr rfl

theorem take_succ_of_isPrefix {p l : Log Cmd} (h : p <+: l) {k : Nat} (hk : k < p.length) :
    p.take (k + 1) = l.take (k + 1) := by
  obtain ⟨t, rfl⟩ := h
  rw [List.take_append_of_le_length hk]

theorem getElem?_of_isPrefix {p l : Log Cmd} (h : p <+: l) {k : Nat} {e : Slot Cmd}
    (hk : p[k]? = some e) : l[k]? = some e := by
  obtain ⟨t, rfl⟩ := h
  obtain ⟨hlt, _⟩ := List.getElem?_eq_some_iff.mp hk
  rw [List.getElem?_append_left hlt, hk]

/-- The last slot of a non-empty log realises the last term. -/
theorem exists_lastSlot {l : Log Cmd} (h : l ≠ []) :
    ∃ e, l[l.length - 1]? = some e ∧ e.term = lastTerm l := by
  have hpos : 0 < l.length := List.length_pos_iff.mpr h
  have hlt : l.length - 1 < l.length := by omega
  refine ⟨l[l.length - 1], List.getElem?_eq_getElem hlt, ?_⟩
  have hs : l.length = (l.length - 1) + 1 := by omega
  rw [lastTerm]
  conv_rhs => rw [hs]
  rw [termAt_succ_of_getElem? (List.getElem?_eq_getElem hlt)]

namespace State

/-! ## Definitions -/

/-- Every slot of the log comes from its term's leader, with its past. -/
def Valid (s : State N Cmd) (l : Log Cmd) : Prop :=
  ∀ k e, l[k]? = some e → s.leader e.term ≠ none ∧ l.take (k + 1) <+: s.tlog e.term

/-- `v` acknowledged the slots `p` in term `t`. -/
def Acked (s : State N Cmd) (t : Nat) (v : N) (p : Log Cmd) : Prop :=
  ∃ m, s.acks t v m ∧ p <+: (s.tlog t).take m

/-- A leader of a term strictly between `t` and `b` was elected without `p`. -/
def Lost (s : State N Cmd) (p : Log Cmd) (t b : Nat) : Prop :=
  ∃ u, t < u ∧ u < b ∧ s.leader u ≠ none ∧ ¬ p <+: s.elog u

/-- A quorum elected `c` in term `t`, and every acknowledged prefix that ends
in a slot of its own term went with it or was lost before. -/
def Backed [Fintype N] (s : State N Cmd) (t : Nat) (c : N) : Prop :=
  ∃ Q : Finset N, IsQuorum Q ∧ ∀ v ∈ Q, s.grants t v c ∧
    ∀ u p, u < t → s.Acked u v p → p ≠ [] → lastTerm p = u →
      p <+: s.elog t ∨ s.Lost p u t

/-- A quorum acknowledged `p` in term `t`, and `p` ends in a slot of `t`. -/
def Committed [Fintype N] (s : State N Cmd) (t : Nat) (p : Log Cmd) : Prop :=
  p ≠ [] ∧ lastTerm p = t ∧ ∃ Q : Finset N, IsQuorum Q ∧ ∀ v ∈ Q, s.Acked t v p

/-- `p` is part of what was committed in term `t` or before. -/
def Chosen [Fintype N] (s : State N Cmd) (p : Log Cmd) (t : Nat) : Prop :=
  p = [] ∨ ∃ u q, u ≤ t ∧ s.Committed u q ∧ p <+: q

/-- Some elected leader's log holds `e` at position `k`. -/
def HasSlot (s : State N Cmd) (k : Nat) (e : Slot Cmd) : Prop :=
  ∃ t, s.leader t ≠ none ∧ (s.tlog t)[k]? = some e

/-- `s'` remembers everything that `s` remembers. -/
structure Extends (s s' : State N Cmd) : Prop where
  term : ∀ v, s.term v ≤ s'.term v
  cand : ∀ {t c l}, s.cand t c = some l → s'.cand t c = some l
  grants : ∀ {t v c}, s.grants t v c → s'.grants t v c
  leader : ∀ {t c}, s.leader t = some c → s'.leader t = some c
  elog : ∀ {t}, s.leader t ≠ none → s'.elog t = s.elog t
  tlog : ∀ {t}, s.leader t ≠ none → s.tlog t <+: s'.tlog t
  acks : ∀ {t v m}, s.acks t v m → s'.acks t v m

namespace Extends

variable {s s' s'' : State N Cmd}

theorem refl (s : State N Cmd) : Extends s s :=
  ⟨fun _ => Nat.le_refl _, id, id, id, fun _ => rfl, fun _ => List.prefix_rfl, id⟩

theorem leader_ne_none (h : Extends s s') {t : Nat} (ht : s.leader t ≠ none) :
    s'.leader t ≠ none := by
  obtain ⟨c, hc⟩ := Option.ne_none_iff_exists'.mp ht
  rw [h.leader hc]
  exact Option.some_ne_none c

theorem leader_eq_none (h : Extends s s') {t : Nat} (ht : s'.leader t = none) :
    s.leader t = none := by
  by_contra hne
  exact h.leader_ne_none hne ht

theorem trans (h : Extends s s') (h' : Extends s' s'') : Extends s s'' where
  term v := Nat.le_trans (h.term v) (h'.term v)
  cand hc := h'.cand (h.cand hc)
  grants hg := h'.grants (h.grants hg)
  leader hl := h'.leader (h.leader hl)
  elog ht := (h'.elog (h.leader_ne_none ht)).trans (h.elog ht)
  tlog ht := (h.tlog ht).trans (h'.tlog (h.leader_ne_none ht))
  acks ha := h'.acks (h.acks ha)

theorem valid (h : Extends s s') {l : Log Cmd} (hl : s.Valid l) : s'.Valid l := by
  intro k e hk
  obtain ⟨hlead, hpre⟩ := hl k e hk
  exact ⟨h.leader_ne_none hlead, hpre.trans (h.tlog hlead)⟩

theorem lost (h : Extends s s') {p : Log Cmd} {t b b' : Nat} (hb : b ≤ b')
    (hl : s.Lost p t b) : s'.Lost p t b' := by
  obtain ⟨u, htu, hub, hlead, hnot⟩ := hl
  refine ⟨u, htu, by omega, h.leader_ne_none hlead, ?_⟩
  rw [h.elog hlead]
  exact hnot

theorem acked (h : Extends s s') {t : Nat} {v : N} {p : Log Cmd}
    (ht : s.leader t ≠ none) (ha : s.Acked t v p) : s'.Acked t v p := by
  obtain ⟨m, hm, hp⟩ := ha
  exact ⟨m, h.acks hm, hp.trans ((h.tlog ht).take m)⟩

end Extends

/-! ## Valid logs -/

theorem Valid.of_isPrefix {s : State N Cmd} {p l : Log Cmd} (hl : s.Valid l) (h : p <+: l) :
    s.Valid p := by
  intro k e hk
  obtain ⟨hlt, _⟩ := List.getElem?_eq_some_iff.mp hk
  obtain ⟨hlead, hpre⟩ := hl k e (getElem?_of_isPrefix h hk)
  rw [take_succ_of_isPrefix h hlt]
  exact ⟨hlead, hpre⟩

theorem Valid.adopt {s : State N Cmd} {l g : Log Cmd} (hl : s.Valid l) (hg : s.Valid g)
    (m : Nat) : s.Valid (adopt l (g.take m)) := by
  rcases adopt_cases l (g.take m) with h | h
  · rw [h]
    exact hl
  · rw [h]
    exact hg.of_isPrefix (List.take_prefix m g)

/-- Log matching: one equal term makes two valid logs equal up to there. -/
theorem valid_matching {s : State N Cmd} {l l' : Log Cmd} (hl : s.Valid l)
    (hl' : s.Valid l') {k : Nat} (hk : k ≤ l.length) (hk' : k ≤ l'.length)
    (h : termAt l k = termAt l' k) : l.take k = l'.take k := by
  cases k with
  | zero => simp
  | succ k =>
    have he := List.getElem?_eq_getElem (Nat.lt_of_succ_le hk)
    have he' := List.getElem?_eq_getElem (Nat.lt_of_succ_le hk')
    rw [termAt_succ_of_getElem? he, termAt_succ_of_getElem? he'] at h
    obtain ⟨_, hpre⟩ := hl k _ he
    obtain ⟨_, hpre'⟩ := hl' k _ he'
    rw [← h] at hpre'
    -- Both are the first `k + 1` slots of one leader's log.
    refine (List.prefix_of_prefix_length_le hpre hpre' ?_).eq_of_length ?_
    · simp only [List.length_take]
      omega
    · simp only [List.length_take]
      omega

end State

end KvRaft.Consensus
