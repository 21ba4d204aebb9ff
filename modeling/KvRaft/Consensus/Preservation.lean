import KvRaft.Consensus.Invariant

/-!
# Every move keeps the invariant

One theorem for each move of `KvRaft.Consensus.State`.  A move touches one
member and adds at most one fact to the history, so most clauses carry over
by `Extends`.  The argument is in three places: a vote (`inv_grant`) uses the
election restriction, an election (`inv_elect`) turns the votes of the term
into the backing of the leader, and a copy of the leader's log (`inv_accept`)
keeps every acknowledged prefix that the leader has.
-/

namespace KvRaft.Consensus.State

variable {N Cmd : Type} [Fintype N] [DecidableEq N] {s : State N Cmd}

theorem inv_retire (hI : Inv s) {v : N} {t : Nat} {x : Option N}
    (h : s.term v < t ∨ s.term v = t ∧ s.vote v = x) : Inv (s.retire v t x) := by
  have hx : Extends s (s.retire v t x) := extends_retire (by rcases h with h | h <;> omega)
  have hterm : ∀ w, s.term w ≤ (s.retire v t x).term w := hx.term
  refine
    { grant_le := fun hg => Nat.le_trans (hI.grant_le hg) (hterm _)
      grant_vote := ?_
      grant_unique := hI.grant_unique
      cand_le := fun hc => Nat.le_trans (hI.cand_le hc) (hterm _)
      cand_terms := hI.cand_terms
      cand_valid := hI.cand_valid
      standing := ?_
      elected := fun hl => ⟨Nat.le_trans (hI.elected hl).1 (hterm _), (hI.elected hl).2⟩
      leading := ?_
      elog_le_tlog := hI.elog_le_tlog
      elog_terms := hI.elog_terms
      tlog_terms := hI.tlog_terms
      tlog_valid := hI.tlog_valid
      log_valid := hI.log_valid
      log_terms := fun w e he => Nat.le_trans (hI.log_terms w e he) (hterm w)
      ack_le := fun ha => ⟨Nat.le_trans (hI.ack_le ha).1 (hterm _), (hI.ack_le ha).2⟩
      ack_kept := fun {u w p} ha => (hI.ack_kept ha).imp_right
        (hx.lost (Nat.add_le_add_right (hterm w) 1))
      grant_kept := hI.grant_kept }
  · intro w c hg
    by_cases hw : w = v
    · subst hw
      simp only [retire, Function.update_self] at hg ⊢
      rcases h with hlt | ⟨rfl, rfl⟩
      · have := hI.grant_le hg
        omega
      · exact hI.grant_vote hg
    · simp only [retire, Function.update_of_ne hw] at hg ⊢
      exact hI.grant_vote hg
  · intro c hc
    have hcv : c ≠ v := by
      rintro rfl
      simp [retire] at hc
    simp only [retire, Function.update_of_ne hcv] at hc ⊢
    exact hI.standing hc
  · intro c hc
    have hcv : c ≠ v := by
      rintro rfl
      simp [retire] at hc
    simp only [retire, Function.update_of_ne hcv] at hc ⊢
    exact hI.leading hc

theorem inv_stand (hI : Inv s) (v : N) : Inv (s.stand v) := by
  have hx : Extends s (s.stand v) := extends_stand hI v
  have hterm : ∀ w, s.term w ≤ (s.stand v).term w := hx.term
  have hnew : (s.stand v).term v = s.term v + 1 := by simp [stand]
  have hother : ∀ {w}, w ≠ v → (s.stand v).term w = s.term w := by
    intro w hw
    simp [stand, hw]
  -- A candidacy is an old one, or the new one with the log of `v`.
  have hcand : ∀ {t c l}, (s.stand v).cand t c = some l →
      s.cand t c = some l ∨ t = s.term v + 1 ∧ c = v ∧ l = s.log v := by
    intro t c l hc
    simp only [stand] at hc
    split_ifs at hc with h
    · exact Or.inr ⟨h.1, h.2, (Option.some.inj hc).symm⟩
    · exact Or.inl hc
  refine
    { grant_le := ?_
      grant_vote := ?_
      grant_unique := ?_
      cand_le := ?_
      cand_terms := ?_
      cand_valid := ?_
      standing := ?_
      elected := fun hl => ⟨Nat.le_trans (hI.elected hl).1 (hterm _),
        (hI.elected hl).2.mono hI hx (fun _ ha => ha) hl⟩
      leading := ?_
      elog_le_tlog := hI.elog_le_tlog
      elog_terms := hI.elog_terms
      tlog_terms := hI.tlog_terms
      tlog_valid := hI.tlog_valid
      log_valid := hI.log_valid
      log_terms := fun w e he => Nat.le_trans (hI.log_terms w e he) (hterm w)
      ack_le := fun ha => ⟨Nat.le_trans (hI.ack_le ha).1 (hterm _), (hI.ack_le ha).2⟩
      ack_kept := fun {u w p} ha => (hI.ack_kept ha).imp_right
        (hx.lost (Nat.add_le_add_right (hterm w) 1))
      grant_kept := ?_ }
  · rintro t w c (hg | ⟨rfl, rfl, rfl⟩)
    · exact Nat.le_trans (hI.grant_le hg) (hterm _)
    · exact hnew.ge
  · rintro w c (hg | ⟨ht, rfl, rfl⟩)
    · by_cases hw : w = v
      · subst hw
        have := hI.grant_le hg
        omega
      · rw [hother hw] at hg
        simpa [stand, hw] using hI.grant_vote hg
    · simp [stand]
  · rintro t w c d (hg | ⟨rfl, rfl, rfl⟩) (hg' | ⟨ht, hw, rfl⟩)
    · exact hI.grant_unique hg hg'
    · subst hw ht
      have := hI.grant_le hg
      omega
    · have := hI.grant_le hg'
      omega
    · rfl
  · intro t c l hc
    rcases hcand hc with hc | ⟨rfl, rfl, rfl⟩
    · exact Nat.le_trans (hI.cand_le hc) (hterm _)
    · exact hnew.ge
  · intro t c l hc e he
    rcases hcand hc with hc | ⟨rfl, rfl, rfl⟩
    · exact hI.cand_terms hc e he
    · exact Nat.lt_succ_of_le (hI.log_terms c e he)
  · intro t c l hc
    rcases hcand hc with hc | ⟨rfl, rfl, rfl⟩
    · exact hI.cand_valid hc
    · exact hI.log_valid c
  · intro c hc
    by_cases hcv : c = v
    · subst hcv
      refine ⟨?_, fun hl => ?_⟩
      · simp [stand]
      · -- The new term is above the term of `c`, so `c` cannot lead it yet.
        have hle := (hI.elected (t := s.term c + 1) (hnew ▸ hl)).1
        omega
    · simp only [stand, Function.update_of_ne hcv] at hc ⊢
      rw [if_neg (fun h => hcv h.2)]
      exact hI.standing hc
  · intro c hc
    have hcv : c ≠ v := by
      rintro rfl
      simp [stand] at hc
    simp only [stand, Function.update_of_ne hcv] at hc ⊢
    exact hI.leading hc
  · rintro t w c u p hnone (hg | ⟨rfl, rfl, rfl⟩) hu ha hne hlast
    · exact grantKept_mono hI hx (fun _ h => h) hnone hg hu ha hne hlast
    · -- A candidate stands with its own log, which has what it acknowledged.
      refine ⟨s.log c, by simp [stand], ?_⟩
      exact hI.ack_kept ha

omit [DecidableEq N] in
/-- The election restriction.  A log that is at least as up to date as one
that holds the acknowledged slots `p` holds them too, unless a leader in
between lost them. -/
theorem prefix_of_upToDate (hI : Inv s) {l own p : Log Cmd} {u t : Nat}
    (hl : s.Valid l) (hown : s.Valid own) (hterms : ∀ e ∈ l, e.term < t)
    (hup : UpToDate l own) (hp : p <+: own) (hpu : p <+: s.tlog u) (hne : p ≠ [])
    (hlast : lastTerm p = u) : p <+: l ∨ s.Lost p u t := by
  obtain ⟨d, hd, hdterm⟩ := exists_lastSlot hne
  have hppos : 0 < p.length := List.length_pos_iff.mpr hne
  have hplen := hp.length_le
  have hown_ne : own ≠ [] := by
    rintro rfl
    rw [List.length_nil] at hplen
    omega
  obtain ⟨o, ho, hoterm⟩ := exists_lastSlot hown_ne
  have hu_le : u ≤ lastTerm own := by
    rw [← hlast, ← hdterm, ← hoterm]
    exact hI.term_le_of_valid hown (by omega) (getElem?_of_isPrefix hp hd) ho
  have hl_ne : l ≠ [] := by
    rintro rfl
    rcases hup with h | ⟨_, h⟩
    · simp [lastTerm] at h
    · simp at h
      exact hown_ne h
  obtain ⟨e, he, heterm⟩ := exists_lastSlot hl_ne
  have hlpos : 0 < l.length := List.length_pos_iff.mpr hl_ne
  have hle : u ≤ e.term := by
    rw [heterm]
    rcases hup with h | ⟨h, _⟩ <;> omega
  obtain ⟨hlead, hpre⟩ := hl _ e he
  rw [show l.length - 1 + 1 = l.length by omega, List.take_length] at hpre
  rcases Nat.eq_or_lt_of_le hle with heq | hlt
  · -- Same last term: both logs lie in the log of the leader of `u`.
    rw [← heq] at hpre
    have hlen : own.length ≤ l.length := by
      rcases hup with h | ⟨_, h⟩
      · omega
      · exact h
    exact Or.inl (List.prefix_of_prefix_length_le hpu hpre (by omega))
  · -- A later term: its leader was elected with `p` or without it.
    by_cases hpe : p <+: s.elog e.term
    · refine Or.inl (List.prefix_of_prefix_length_le
        (hpe.trans (hI.elog_le_tlog hlead)) hpre ?_)
      by_contra hshort
      have hmem : e ∈ s.elog e.term := by
        have hle' : l <+: s.elog e.term := by
          refine List.prefix_of_prefix_length_le hpre (hI.elog_le_tlog hlead) ?_
          have := hpe.length_le
          omega
        exact hle'.subset (List.mem_of_getElem? he)
      exact Nat.lt_irrefl _ (hI.elog_terms hlead e hmem)
    · exact Or.inr ⟨e.term, hlt, hterms e (List.mem_of_getElem? he), hlead, hpe⟩

theorem inv_grant (hI : Inv s) {v c : N} {l : Log Cmd}
    (hcand : s.cand (s.term v) c = some l) (hvote : s.vote v = none ∨ s.vote v = some c)
    (hup : UpToDate l (s.log v)) : Inv (s.grant v c) := by
  have hx : Extends s (s.grant v c) := extends_grant s v c
  -- A member that voted in its term voted for the member it still records.
  have hsame : ∀ {d}, s.grants (s.term v) v d → d = c := by
    intro d hg
    have hd := hI.grant_vote hg
    rcases hvote with h | h
    · rw [h] at hd
      cases hd
    · rw [h] at hd
      exact (Option.some.inj hd).symm
  refine
    { grant_le := ?_
      grant_vote := ?_
      grant_unique := ?_
      cand_le := hI.cand_le
      cand_terms := hI.cand_terms
      cand_valid := hI.cand_valid
      standing := hI.standing
      elected := fun hl => ⟨(hI.elected hl).1, (hI.elected hl).2.mono hI hx (fun _ ha => ha) hl⟩
      leading := hI.leading
      elog_le_tlog := hI.elog_le_tlog
      elog_terms := hI.elog_terms
      tlog_terms := hI.tlog_terms
      tlog_valid := hI.tlog_valid
      log_valid := hI.log_valid
      log_terms := hI.log_terms
      ack_le := hI.ack_le
      ack_kept := hI.ack_kept
      grant_kept := ?_ }
  · rintro t w d (hg | ⟨rfl, rfl, rfl⟩)
    · exact hI.grant_le hg
    · exact Nat.le_refl _
  · rintro w d (hg | ⟨_, rfl, rfl⟩)
    · by_cases hw : w = v
      · subst hw
        rw [hsame hg]
        simp [grant]
      · simpa [grant, hw] using hI.grant_vote hg
    · simp [grant]
  · rintro t w d e (hg | ⟨rfl, rfl, rfl⟩) (hg' | ⟨ht, hw, rfl⟩)
    · exact hI.grant_unique hg hg'
    · subst hw ht
      exact hsame hg
    · exact (hsame hg').symm
    · rfl
  · rintro t w d u p hnone (hg | ⟨rfl, rfl, rfl⟩) hu ha hne hlast
    · exact hI.grant_kept hnone hg hu ha hne hlast
    · refine ⟨l, hcand, ?_⟩
      rcases hI.ack_kept ha with hp | ⟨y, huy, hy, hlead, hnot⟩
      · obtain ⟨m, _, hpm⟩ := ha
        exact prefix_of_upToDate hI (hI.cand_valid hcand) (hI.log_valid w)
          (hI.cand_terms hcand) hup hp (hpm.trans (List.take_prefix m _)) hne hlast
      · -- The term of the vote has no leader yet, so the loss is older.
        have hyt : y ≠ s.term w := fun h => hlead (h ▸ hnone)
        exact Or.inr ⟨y, huy, by omega, hlead, hnot⟩

theorem inv_elect (hI : Inv s) {c : N} (hrole : s.role c = .candidate) {Q : Finset N}
    (hQ : IsQuorum Q) (hg : ∀ v ∈ Q, s.grants (s.term c) v c) : Inv (s.elect c) := by
  have hnone := hI.leader_none_of_quorum hrole hQ hg
  obtain ⟨hstand, _⟩ := hI.standing hrole
  have hx : Extends s (s.elect c) := extends_elect hnone
  have hne : ∀ {t}, s.leader t ≠ none → t ≠ s.term c := fun ht h => ht (h ▸ hnone)
  -- The leader of a term is an old one, or `c` in its term.
  have hlead : ∀ {t}, (s.elect c).leader t ≠ none → t = s.term c ∨
      t ≠ s.term c ∧ s.leader t ≠ none := by
    intro t ht
    by_cases h : t = s.term c
    · exact Or.inl h
    · simp only [elect, Function.update_of_ne h] at ht
      exact Or.inr ⟨h, ht⟩
  have hold : ∀ {u v p}, u < s.term v → (s.elect c).Acked u v p → s.Acked u v p := by
    intro u v p hu ha
    rcases acked_elect hI hnone ha with ha | ⟨rfl, rfl, _⟩
    · exact ha
    · exact absurd hu (Nat.lt_irrefl _)
  refine
    { grant_le := hI.grant_le
      grant_vote := hI.grant_vote
      grant_unique := hI.grant_unique
      cand_le := hI.cand_le
      cand_terms := hI.cand_terms
      cand_valid := fun hc => hx.valid (hI.cand_valid hc)
      standing := ?_
      elected := ?_
      leading := ?_
      elog_le_tlog := ?_
      elog_terms := ?_
      tlog_terms := ?_
      tlog_valid := ?_
      log_valid := fun v => hx.valid (hI.log_valid v)
      log_terms := hI.log_terms
      ack_le := ?_
      ack_kept := ?_
      grant_kept := fun hn hg hu ha hp hlast => grantKept_mono hI hx hold hn hg hu ha hp hlast }
  · intro d hd
    have hdc : d ≠ c := by
      rintro rfl
      simp [elect] at hd
    simp only [elect, Function.update_of_ne hdc] at hd ⊢
    refine ⟨(hI.standing hd).1, fun hl => ?_⟩
    rw [Function.update_apply] at hl
    split_ifs at hl with ht
    · exact hdc (Option.some.inj hl).symm
    · exact (hI.standing hd).2 hl
  · intro t d hd
    by_cases ht : t = s.term c
    · subst ht
      have hdc : c = d := by simpa [elect] using hd
      subst hdc
      refine ⟨Nat.le_refl _, Q, hQ, fun v hv => ⟨hg v hv, fun u p hu ha hp hlast => ?_⟩⟩
      have hle := hI.grant_le (hg v hv)
      obtain ⟨l, hl, hor⟩ := hI.grant_kept hnone (hg v hv) hu (hold (by omega) ha) hp hlast
      rw [hstand] at hl
      have hl' : s.log c = l := Option.some.inj hl
      rw [show (s.elect c).elog (s.term c) = s.log c by simp [elect], hl']
      exact hor.imp_right (hx.lost (Nat.le_refl _))
    · simp only [elect, Function.update_of_ne ht] at hd
      exact ⟨(hI.elected hd).1, (hI.elected hd).2.mono hI hx hold hd⟩
  · intro d hd
    by_cases hdc : d = c
    · subst hdc
      simp [elect]
    · simp only [elect, Function.update_of_ne hdc] at hd ⊢
      obtain ⟨hl, hlog, hack⟩ := hI.leading hd
      have ht : s.term d ≠ s.term c :=
        hne (by rw [hl]; exact Option.some_ne_none d)
      rw [Function.update_of_ne ht, Function.update_of_ne ht]
      exact ⟨hl, hlog, Or.inl hack⟩
  · intro t ht
    rcases hlead ht with rfl | ⟨h, ht⟩
    · simp [elect]
    · simp only [elect, Function.update_of_ne h]
      exact hI.elog_le_tlog ht
  · intro t ht e he
    rcases hlead ht with rfl | ⟨h, ht⟩
    · simp only [elect, Function.update_self] at he
      exact hI.cand_terms hstand e he
    · simp only [elect, Function.update_of_ne h] at he
      exact hI.elog_terms ht e he
  · intro t ht e he
    rcases hlead ht with rfl | ⟨h, ht⟩
    · simp only [elect, Function.update_self] at he
      exact hI.log_terms c e he
    · simp only [elect, Function.update_of_ne h] at he
      exact hI.tlog_terms ht e he
  · intro t ht
    rcases hlead ht with rfl | ⟨h, ht⟩
    · rw [show (s.elect c).tlog (s.term c) = s.log c by simp [elect]]
      exact hx.valid (hI.log_valid c)
    · rw [show (s.elect c).tlog t = s.tlog t by simp [elect, h]]
      exact hx.valid (hI.tlog_valid ht)
  · rintro t v m (ha | ⟨rfl, rfl, rfl⟩)
    · obtain ⟨hle, hl, hm⟩ := hI.ack_le ha
      refine ⟨hle, hx.leader_ne_none hl, ?_⟩
      rw [show (s.elect c).tlog t = s.tlog t by simp [elect, hne hl]]
      exact hm
    · simp [elect]
  · intro t v p ha
    rcases acked_elect hI hnone ha with ha | ⟨rfl, rfl, hp⟩
    · exact (hI.ack_kept ha).imp_right (hx.lost (Nat.le_refl _))
    · exact Or.inl hp

/-- The leader's longer log is valid: its new slot ends the log of the term. -/
theorem valid_propose (hI : Inv s) {c : N} (hrole : s.role c = .leader) (x : Cmd) :
    (s.propose c x).Valid (s.log c ++ [⟨s.term c, x⟩]) := by
  have hx : Extends s (s.propose c x) := extends_propose hI hrole x
  intro k e hk
  by_cases hklt : k < (s.log c).length
  · rw [List.getElem?_append_left hklt] at hk
    rw [List.take_append_of_le_length hklt]
    exact hx.valid (hI.log_valid c) k e hk
  · obtain ⟨hlt, _⟩ := List.getElem?_eq_some_iff.mp hk
    have hkeq : k = (s.log c).length := by
      simp only [List.length_append, List.length_singleton] at hlt
      omega
    subst hkeq
    have he : e = ⟨s.term c, x⟩ := by simpa using hk.symm
    subst he
    refine ⟨hx.leader_ne_none (by rw [(hI.leading hrole).1]; exact Option.some_ne_none c), ?_⟩
    rw [propose_tlog_self]
    exact List.take_prefix _ _

theorem inv_propose (hI : Inv s) {c : N} (hrole : s.role c = .leader) (x : Cmd) :
    Inv (s.propose c x) := by
  obtain ⟨hlead, hlog, hack⟩ := hI.leading hrole
  have hx : Extends s (s.propose c x) := extends_propose hI hrole x
  have hvalid := valid_propose hI hrole x
  have hold : ∀ {u v p}, u < s.term v → (s.propose c x).Acked u v p → s.Acked u v p := by
    intro u v p hu ha
    rcases acked_propose hI hrole ha with ha | ⟨rfl, rfl, _⟩
    · exact ha
    · exact absurd hu (Nat.lt_irrefl _)
  have hterms : ∀ e ∈ s.log c ++ [⟨s.term c, x⟩], e.term ≤ s.term c := by
    intro e he
    rcases List.mem_append.mp he with he | he
    · exact hI.log_terms c e he
    · rw [List.mem_singleton.mp he]
  refine
    { grant_le := hI.grant_le
      grant_vote := hI.grant_vote
      grant_unique := hI.grant_unique
      cand_le := hI.cand_le
      cand_terms := hI.cand_terms
      cand_valid := fun hc => hx.valid (hI.cand_valid hc)
      standing := ?_
      elected := fun hl => ⟨(hI.elected hl).1, (hI.elected hl).2.mono hI hx hold hl⟩
      leading := ?_
      elog_le_tlog := fun ht => (hI.elog_le_tlog ht).trans (hx.tlog ht)
      elog_terms := hI.elog_terms
      tlog_terms := ?_
      tlog_valid := ?_
      log_valid := ?_
      log_terms := ?_
      ack_le := ?_
      ack_kept := ?_
      grant_kept := fun hn hg hu ha hp hlast => grantKept_mono hI hx hold hn hg hu ha hp hlast }
  · intro d hd
    have hdc : d ≠ c := by
      rintro rfl
      have hd' : s.role d = .candidate := hd
      rw [hrole] at hd'
      cases hd'
    rw [propose_log_of_ne s x hdc]
    exact hI.standing hd
  · intro d hd
    obtain ⟨hl, hlg, hak⟩ := hI.leading hd
    by_cases hdc : d = c
    · subst hdc
      rw [propose_log_self]
      exact ⟨hl, (propose_tlog_self s d x).symm, Or.inr ⟨rfl, rfl, by simp⟩⟩
    · have ht : s.term d ≠ s.term c := by
        intro h
        rw [h, hlead] at hl
        exact hdc (Option.some.inj hl).symm
      rw [propose_log_of_ne s x hdc]
      refine ⟨hl, ?_, Or.inl hak⟩
      rw [show (s.propose c x).term d = s.term d from rfl, propose_tlog_of_ne s x ht]
      exact hlg
  · intro t ht e he
    by_cases h : t = s.term c
    · subst h
      exact hterms e (propose_tlog_self s c x ▸ he)
    · rw [propose_tlog_of_ne s x h] at he
      exact hI.tlog_terms ht e he
  · intro t ht
    by_cases h : t = s.term c
    · subst h
      rw [propose_tlog_self]
      exact hvalid
    · rw [propose_tlog_of_ne s x h]
      exact hx.valid (hI.tlog_valid ht)
  · intro v
    by_cases hv : v = c
    · subst hv
      rw [propose_log_self]
      exact hvalid
    · rw [propose_log_of_ne s x hv]
      exact hx.valid (hI.log_valid v)
  · intro v e he
    by_cases hv : v = c
    · subst hv
      exact hterms e (propose_log_self s v x ▸ he)
    · rw [propose_log_of_ne s x hv] at he
      exact hI.log_terms v e he
  · rintro t v m (ha | ⟨rfl, rfl, rfl⟩)
    · obtain ⟨hle, hl, hm⟩ := hI.ack_le ha
      exact ⟨hle, hl, Nat.le_trans hm (hx.tlog hl).length_le⟩
    · refine ⟨Nat.le_refl _, fun hnone => Option.some_ne_none v (hlead.symm.trans hnone), ?_⟩
      rw [propose_tlog_self]
      simp
  · intro t v p ha
    rcases acked_propose hI hrole ha with ha | ⟨rfl, rfl, hp⟩
    · refine (hI.ack_kept ha).imp (fun hp => ?_) (hx.lost (Nat.le_refl _))
      by_cases hv : v = c
      · subst hv
        rw [propose_log_self]
        exact hp.trans (List.prefix_append _ _)
      · rw [propose_log_of_ne s x hv]
        exact hp
    · rw [propose_log_self]
      exact Or.inl hp

theorem inv_accept (hI : Inv s) {v : N} {m : Nat} (hlead : s.leader (s.term v) ≠ none)
    (hm : m ≤ (s.tlog (s.term v)).length) : Inv (s.accept v m) := by
  have hx : Extends s (s.accept v m) := extends_accept s v m
  have hold : ∀ {u w p}, u < s.term w → (s.accept v m).Acked u w p → s.Acked u w p := by
    intro u w p hu ha
    rcases acked_accept ha with ha | ⟨rfl, rfl, _⟩
    · exact ha
    · exact absurd hu (Nat.lt_irrefl _)
  have hself : (s.accept v m).log v = adopt (s.log v) ((s.tlog (s.term v)).take m) := by
    simp [accept]
  have hother : ∀ {w}, w ≠ v → (s.accept v m).log w = s.log w := by
    intro w hw
    simp [accept, hw]
  refine
    { grant_le := hI.grant_le
      grant_vote := hI.grant_vote
      grant_unique := hI.grant_unique
      cand_le := hI.cand_le
      cand_terms := hI.cand_terms
      cand_valid := hI.cand_valid
      standing := ?_
      elected := fun hl => ⟨(hI.elected hl).1, (hI.elected hl).2.mono hI hx hold hl⟩
      leading := ?_
      elog_le_tlog := hI.elog_le_tlog
      elog_terms := hI.elog_terms
      tlog_terms := hI.tlog_terms
      tlog_valid := hI.tlog_valid
      log_valid := ?_
      log_terms := ?_
      ack_le := ?_
      ack_kept := ?_
      grant_kept := fun hn hg hu ha hp hlast => grantKept_mono hI hx hold hn hg hu ha hp hlast }
  · intro d hd
    have hdv : d ≠ v := by
      rintro rfl
      simp [accept] at hd
    rw [hother hdv]
    simp only [accept, Function.update_of_ne hdv] at hd ⊢
    exact hI.standing hd
  · intro d hd
    have hdv : d ≠ v := by
      rintro rfl
      simp [accept] at hd
    rw [hother hdv]
    simp only [accept, Function.update_of_ne hdv] at hd ⊢
    obtain ⟨hl, hlog, hack⟩ := hI.leading hd
    exact ⟨hl, hlog, Or.inl hack⟩
  · intro w
    by_cases hw : w = v
    · subst hw
      rw [hself]
      exact (hI.log_valid w).adopt (hI.tlog_valid hlead) m
    · rw [hother hw]
      exact hI.log_valid w
  · intro w e he
    by_cases hw : w = v
    · subst hw
      rw [hself] at he
      rcases adopt_cases (s.log w) ((s.tlog (s.term w)).take m) with h | h
      · exact hI.log_terms w e (h ▸ he)
      · exact hI.tlog_terms hlead e (List.mem_of_mem_take (h ▸ he))
    · rw [hother hw] at he
      exact hI.log_terms w e he
  · rintro t w k (ha | ⟨rfl, rfl, rfl⟩)
    · exact hI.ack_le ha
    · exact ⟨Nat.le_refl _, hlead, hm⟩
  · intro t w p hacc
    rcases acked_accept hacc with ha | ⟨rfl, rfl, hp⟩
    · rcases hI.ack_kept ha with hp | hlost
      · by_cases hw : w = v
        · subst hw
          obtain ⟨hle, _⟩ := hI.acked_le ha
          obtain ⟨k, _, hpk⟩ := ha
          -- The leader's log has the prefix, or the leader is the one that lost it.
          rcases Nat.eq_or_lt_of_le hle with rfl | hlt
          · rw [hself]
            exact Or.inl (prefix_adopt hp (hpk.trans (List.take_prefix k _)))
          · by_cases hpe : p <+: s.elog (s.term w)
            · rw [hself]
              exact Or.inl (prefix_adopt hp (hpe.trans (hI.elog_le_tlog hlead)))
            · exact Or.inr ⟨s.term w, hlt, Nat.lt_succ_self _, hlead, hpe⟩
        · rw [hother hw]
          exact Or.inl hp
      · exact Or.inr hlost
    · rw [hself]
      exact Or.inl (hp.trans (prefix_adopt_self _ _))

/-- Every step keeps the invariant. -/
theorem inv_of_step {s s' : State N Cmd} (hI : Inv s) (h : Step s s') : Inv s' := by
  cases h with
  | move hm =>
    cases hm with
    | retire v t x h => exact inv_retire hI h
    | stand v => exact inv_stand hI v
    | grant v c l hcand hvote hup => exact inv_grant hI hcand hvote hup
    | elect c Q hrole hQ hg => exact inv_elect hI hrole hQ hg
    | accept v m hlead hm => exact inv_accept hI hlead hm
  | propose c x hrole => exact inv_propose hI hrole x

/-- The invariant and the history along several steps. -/
theorem inv_of_steps {s s' : State N Cmd} (hI : Inv s)
    (h : Relation.ReflTransGen Step s s') : Inv s' ∧ Extends s s' := by
  induction h with
  | refl => exact ⟨hI, .refl s⟩
  | tail _ hstep ih => exact ⟨inv_of_step ih.1 hstep, ih.2.trans (extends_of_step ih.1 hstep)⟩

theorem Reachable.inv (h : Reachable s) : Inv s := (inv_of_steps inv_initial h).1

end KvRaft.Consensus.State
