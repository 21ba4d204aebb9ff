import KvRaft.System.Replica

/-!
# Linearizability

The committed log orders the submissions that succeed.  Such a call returns the
result of its operation at its place in that order, and two calls of which one
returned before the other was made stand in that order.

Every committed operation comes from one call: a slot of a leader's log is made
by `Start` and recorded with the call (`SystemRun.origin`).  When ids are
distinct, the id of a result therefore identifies the call, its operation and
its index.  That is what makes the matching of results by index and id right
(`UniqueIds.right_of_given`).

An index is `Reached` once some node has committed it.  What is committed at a
reached index was submitted before, which gives the order in real time.
-/

namespace KvRaft

open Consensus

variable {n : Nat} {S Req Val D : Type} {m : StateMachine S Req Val D}

/-- The ids that the calls draw are distinct, and none is the id `-1` that
stands for "no result". -/
structure DistinctIds (run : SystemRun n m) : Prop where
  inj : ∀ {t : Nat} {call call' : Nat} {c c' : Call n Req Val},
    (run.state t).calls[call]? = some c → (run.state t).calls[call']? = some c' →
    c.id = c'.id → call = call'
  ne : ∀ {t : Nat} {call : Nat} {c : Call n Req Val}, (run.state t).calls[call]? = some c →
    c.id ≠ -1

/-- The ids that the calls draw are distinct. -/
def UniqueIds (run : SystemRun n m) : Prop :=
  ∀ (t call call' : Nat) (c c' : Call n Req Val),
    (run.state t).calls[call]? = some c → (run.state t).calls[call']? = some c' →
    c.id = c'.id → call = call'

theorem DistinctIds.unique {run : SystemRun n m} (h : DistinctIds run) : UniqueIds run :=
  fun _ _ _ _ _ hc hc' hid => h.inj hc hc' hid

/-- By moment `t` some node had committed index `k`. -/
def Reached (run : SystemRun n m) (t k : Nat) : Prop :=
  ∃ u ≤ t, ∃ i, k ≤ (run.cluster.node u i).commitIndex

theorem Reached.mono {run : SystemRun n m} {t u k : Nat} (h : Reached run t k) (htu : t ≤ u) :
    Reached run u k := by
  obtain ⟨v, hv, i, hk⟩ := h
  exact ⟨v, hv.trans htu, i, hk⟩

theorem reached_of_commits {run : SystemRun n m} {k : Nat} {e : Entry (Op n Req)}
    (h : Commits run.cluster k e) : 1 ≤ k ∧ ∃ t, Reached run t k := by
  obtain ⟨t, i, hlt, hle, _⟩ := h
  exact ⟨by omega, t, t, Nat.le_refl t, i, hle⟩

/-! ## Where committed operations come from -/

/-- What is committed at a reached index was submitted before. -/
theorem SystemRun.origin (hm : m.Lawful) (run : SystemRun n m) {t k : Nat}
    (hreach : Reached run t k) {e : Entry (Op n Req)} (he : Commits run.cluster k e) :
    ∃ (call : Nat) (c : Call n Req Val), (run.state t).calls[call]? = some c ∧
      e.command = some c.op ∧ c.started = some (k, e.term) := by
  obtain ⟨abs, htracks, hinv⟩ := run.tracked hm
  obtain ⟨u, hut, i, hk⟩ := hreach
  obtain ⟨j, rfl⟩ : ∃ j, k = j + 1 := ⟨k - 1, by have := (reached_of_commits he).1; omega⟩
  have hS : Sim (CommittedPrefix run.cluster) (run.cluster.state u) (abs u) :=
    (htracks u).sim.imp fun _ _ hd => hd.1
  have hnode : NodeSim _ (abs u) i (run.cluster.node u i) := hS.node i
  have hcl := hnode.commitLe
  have hj : j < ((abs u).log i).length := by omega
  have hs := List.getElem?_eq_getElem hj
  -- The slot of node `i` is the committed entry, and it is a slot of a leader.
  have hslot := hnode.chosen.hasSlot (hinv u)
    (show (((abs u).log i).take (run.cluster.node u i).commitIndex)[j]? = _ by
      rw [List.getElem?_take_of_lt (by omega), hs])
  have heq := commits_eq_of_run he (commits_of_slot hS hs (by omega))
  obtain ⟨call, c, hc, hop, hstarted⟩ := (htracks u).slots hslot
  obtain ⟨c', hc', hle⟩ := run.calls_le hut call c hc
  refine ⟨call, c', hc', ?_, ?_⟩
  · rw [heq, hle.op]
    exact hop
  · rw [hle.started (by rw [hstarted]; exact Option.some_ne_none _), hstarted, heq]

/-- A committed operation with the id of a call is the operation of that call,
at the index that `Start` gave it. -/
theorem UniqueIds.origin (hm : m.Lawful) {run : SystemRun n m} (h : UniqueIds run)
    {t k : Nat} {call : Nat} {c : Call n Req Val} (hc : (run.state t).calls[call]? = some c)
    {e : Entry (Op n Req)} (he : Commits run.cluster k e) {op : Op n Req}
    (hop : e.command = some op) (hid : op.id = c.id) {u : Nat} (hreach : Reached run u k) :
    op = c.op ∧ ∃ c', (run.state u).calls[call]? = some c' ∧ c'.op = c.op ∧
      c'.started = some (k, e.term) := by
  obtain ⟨call', c', hc', hop', hstarted⟩ := run.origin hm hreach he
  rw [hop] at hop'
  cases Option.some.inj hop'
  -- Both calls are in the later of the two histories.
  obtain ⟨d, hd, hdle⟩ := run.calls_le (Nat.le_max_left t u) call c hc
  obtain ⟨d', hd', hdle'⟩ := run.calls_le (Nat.le_max_right t u) call' c' hc'
  have hcall : call' = call := h _ _ _ _ _ hd' hd (by
    have h1 := congrArg Op.id hdle.op
    have h2 := congrArg Op.id hdle'.op
    exact h2.trans (hid.trans h1.symm))
  subst hcall
  cases hd.symm.trans hd'
  have hops : c'.op = c.op := hdle'.op.symm.trans hdle.op
  exact ⟨hops, c', hc', hops, hstarted⟩

/-! ## Results -/

/-- `val` is what the operation of `c` gives at the index where it is
committed, and that index was reached. -/
def Right (run : SystemRun n m) (t : Nat) (c : Call n Req Val) (val : Option Val) : Prop :=
  ∃ index term v, val = some v ∧ c.started = some (index, term) ∧
    ExecutesAt m run.cluster index c.op v ∧ Reached run t index

theorem Right.mono {run : SystemRun n m} {t u : Nat} (htu : t ≤ u) {c c' : Call n Req Val}
    (hle : c.Le c') {val : Option Val} (h : Right run t c val) : Right run u c' val := by
  obtain ⟨index, term, v, hv, hstarted, hexec, hreach⟩ := h
  refine ⟨index, term, v, hv, ?_, hle.op ▸ hexec, hreach.mono htu⟩
  rw [hle.started (by rw [hstarted]; exact Option.some_ne_none _), hstarted]

/-- The results at moment `t`: of the calls that are about to return, and of
those that have returned. -/
structure ResultsOk (run : SystemRun n m) (t : Nat) : Prop where
  leaving : ∀ {i : Fin n} {call index : Nat} {sub : Submit n Req Val} {val : Option Val},
    ((run.state t).rsm i).submits call = some sub → sub.phase = .leaving index (.ok val) →
    ∃ c, (run.state t).calls[call]? = some c ∧ Right run t c val
  returned : ∀ {call : Nat} {c : Call n Req Val} {val : Option Val},
    (run.state t).calls[call]? = some c → c.answer = some (.ok val) → Right run t c val

/-- The result at the send of `notifyPending` is that of the operation at the
index, or none. -/
theorem SystemRun.notifying (hm : m.Lawful) (run : SystemRun n m) {t : Nat} {i : Fin n}
    {index : Nat} {res : Result Val} (h : ((run.state t).rsm i).reader = .notifying index res) :
    res = ⟨-1, none⟩ ∨ ∃ op v, res = ⟨op.id, some v⟩ ∧ ExecutesAt m run.cluster index op v := by
  induction t with
  | zero =>
    rw [run.start] at h
    cases h
  | succ t ih =>
    rcases run.next t with ⟨e, hexec⟩ | hsame
    · rcases System.exec_rsm hexec i with heq | ⟨step, hstep⟩ | ⟨_, _, _, _, heq⟩
      · exact ih (heq ▸ h)
      · rcases Rsm.exec_notifying hstep h with hold | ⟨op, v, happlied, hres⟩
        · exact ih hold
        · obtain ⟨abs, htracks, _⟩ := run.tracked hm
          have hreader := (htracks t).reader i
          rw [ReaderOk, happlied] at hreader
          exact hres.imp_right fun hres => ⟨op, v, hres, hreader.1.index ▸ hreader.2⟩
      · rw [heq] at h
        cases h
    · exact ih (hsame ▸ h)

/-- What a node sends has been reached. -/
theorem SystemRun.reached_of_notifying (hm : m.Lawful) (run : SystemRun n m) {t : Nat} {i : Fin n}
    {index : Nat} {res : Result Val} (h : ((run.state t).rsm i).reader = .notifying index res) :
    Reached run t index := by
  obtain ⟨abs, htracks, _⟩ := run.tracked hm
  have hreader := (htracks t).reader i
  rw [ReaderOk, h] at hreader
  have hnode := (htracks t).sim.node i
  have hfollows := follows_le hnode.follows_position.2
  have happlied := hnode.appliedLe
  have hindex := hreader.1.index
  refine ⟨t, Nat.le_refl t, i, ?_⟩
  show index ≤ ((run.state t).cluster.nodes i).commitIndex
  omega

/-- At moment `t` a reader is at a send that gives `call` the result `val`. -/
def GivenAt (run : SystemRun n m) (t call : Nat) (val : Option Val) : Prop :=
  ∃ i idx index res entry sub, ((run.state t).rsm i).sending = some (idx, res) ∧
    ((run.state t).rsm i).pending.lookup idx = some entry ∧ entry.ch = call ∧
    ((run.state t).rsm i).submits call = some sub ∧ sub.phase = .waiting index ∧
    res.id = sub.id ∧ res.val = val

/-- The reader gives a call the result of the call's own operation, unless it is
the result of the id `-1` that stands for "no result". -/
theorem UniqueIds.right_of_given (hm : m.Lawful) {run : SystemRun n m} (hids : UniqueIds run)
    {t call : Nat} {val : Option Val} (h : GivenAt run t call val) {c : Call n Req Val}
    (hc : (run.state t).calls[call]? = some c) (hval : val ≠ none ∨ c.id ≠ -1) :
    Right run t c val := by
  obtain ⟨i, idx, index, res, entry, sub, hsending, hentry, rfl, hsub, hphase, hid, rfl⟩ := h
  obtain ⟨c', hc', hop, hok⟩ := run.callsOk t i entry.ch sub hsub
  cases hc.symm.trans hc'
  have hcid : c.id = sub.id := congrArg Op.id hop
  have hne : res ≠ ⟨-1, none⟩ := by
    rintro rfl
    exact hval.elim (fun hsome => hsome rfl) fun hid' => hid' (hcid.trans hid.symm)
  -- The entry and the call agree on the index.
  obtain ⟨sub', hsub', _, hindex⟩ := run.pendingOk t i idx entry hentry
  cases hsub.symm.trans hsub'
  rw [hphase] at hindex hok
  cases Option.some.inj hindex
  obtain ⟨⟨term, hstarted⟩, _⟩ := hok
  rcases Rsm.reader_cases_of_sending hsending with heq | ⟨_, _, _, _, heq⟩
  · obtain ⟨op, v, rfl, hexec⟩ := (run.notifying hm heq).resolve_left hne
    have hreach := run.reached_of_notifying hm heq
    obtain ⟨cmds, hcmds, hlen, hv⟩ := hexec
    obtain ⟨e, he, hcmd⟩ := hcmds.last
    rw [hlen] at he
    obtain ⟨hopc, _⟩ := hids.origin hm hc he hcmd (hid.trans hcid.symm) hreach
    subst hopc
    exact ⟨idx, term, v, rfl, hstarted, ⟨cmds, hcmds, hlen, hv⟩, hreach⟩
  · -- What `notifyOutdated` sends is no result.
    rw [Rsm.sending, heq] at hsending
    cases hsending
    exact absurd rfl hne

/-- At its index an operation has one result. -/
theorem ExecutesAt.val_eq {run : ClusterRun n (Op n Req) D} {index : Nat} {op : Op n Req}
    {v v' : Val} (h : ExecutesAt m run index op v) (h' : ExecutesAt m run index op v') :
    v = v' := by
  obtain ⟨cmds, hcmds, hlen, rfl⟩ := h
  obtain ⟨cmds', hcmds', hlen', rfl⟩ := h'
  rw [hcmds.of_concat.eq_of_length hcmds'.of_concat (by omega)]

/-- There is one operation at an index. -/
theorem ExecutesAt.op_eq {run : ClusterRun n (Op n Req) D} {index : Nat} {op op' : Op n Req}
    {v v' : Val} (h : ExecutesAt m run index op v) (h' : ExecutesAt m run index op' v') :
    op = op' := by
  obtain ⟨cmds, hcmds, hlen, _⟩ := h
  obtain ⟨cmds', hcmds', hlen', _⟩ := h'
  have heq := hcmds.eq_of_length hcmds' (by simp; omega)
  cases (List.append_inj' heq rfl).2
  rfl

/-- Every result `OK` was given by a reader. -/
structure Given (run : SystemRun n m) (t : Nat) : Prop where
  leaving : ∀ {i : Fin n} {call index : Nat} {sub : Submit n Req Val} {val : Option Val},
    ((run.state t).rsm i).submits call = some sub → sub.phase = .leaving index (.ok val) →
    ∃ u ≤ t, GivenAt run u call val
  returned : ∀ {call : Nat} {c : Call n Req Val} {val : Option Val},
    (run.state t).calls[call]? = some c → c.answer = some (.ok val) →
    ∃ u ≤ t, GivenAt run u call val

theorem Given.step {run : SystemRun n m} {t : Nat} (h : Given run t) {e : SystemEvent n Req D}
    (hexec : (run.state t).exec m e = some (run.state (t + 1))) : Given run (t + 1) := by
  have hlater : ∀ {call : Nat} {val : Option Val}, (∃ u ≤ t, GivenAt run u call val) →
      ∃ u ≤ t + 1, GivenAt run u call val := by
    rintro call val ⟨u, hu, hgiven⟩
    exact ⟨u, by omega, hgiven⟩
  refine ⟨fun {i call index sub val} hsub hphase => hlater ?_, fun {call c val} hc hanswer =>
    hlater ?_⟩
  · rcases System.exec_rsm hexec i with heq | ⟨step, hstep⟩ | ⟨_, snapshot, _, _, heq⟩
    · rw [heq] at hsub
      exact h.leaving hsub hphase
    · rcases (Rsm.exec_change hstep).leaving hsub hphase with ⟨sub', hsub', hphase'⟩ |
        ⟨idx, res, entry, sub', hsending, hentry, hch, hsub', hwait, hid, hval⟩
      · exact h.leaving hsub' hphase'
      · exact ⟨t, Nat.le_refl t, i, idx, index, res, entry, sub', hsending, hentry, hch, hsub',
          hwait, hid, hval⟩
    · rw [heq] at hsub
      cases hsub
  · rcases exec_answer hexec hc hanswer with ⟨c', hc', hanswer'⟩ | ⟨i, sub, index, hsub, hphase⟩
    · exact h.returned hc' hanswer'
    · exact h.leaving hsub hphase

theorem SystemRun.given (run : SystemRun n m) (t : Nat) : Given run t := by
  induction t with
  | zero =>
    refine ⟨fun {i call index sub val} hsub _ => ?_, fun {call c val} hc _ => ?_⟩
    · rw [run.start] at hsub
      cases hsub
    · rw [run.start] at hc
      simp [System.init] at hc
  | succ t ih =>
    rcases run.next t with ⟨e, hexec⟩ | hsame
    · exact ih.step hexec
    · refine ⟨fun {i call index sub val} hsub hphase => ?_, fun {call c val} hc hanswer => ?_⟩
      · rw [hsame] at hsub
        obtain ⟨u, hu, hgiven⟩ := ih.leaving hsub hphase
        exact ⟨u, by omega, hgiven⟩
      · rw [hsame] at hc
        obtain ⟨u, hu, hgiven⟩ := ih.returned hc hanswer
        exact ⟨u, by omega, hgiven⟩

/-- A result that was given stays right. -/
theorem UniqueIds.right (hm : m.Lawful) {run : SystemRun n m} (hids : UniqueIds run)
    {t call : Nat} {val : Option Val} (h : ∃ u ≤ t, GivenAt run u call val) {c : Call n Req Val}
    (hc : (run.state t).calls[call]? = some c) (hval : val ≠ none ∨ c.id ≠ -1) :
    Right run t c val := by
  obtain ⟨u, hut, hgiven⟩ := h
  obtain ⟨i, _, _, _, _, sub, _, _, _, hsub, _⟩ := id hgiven
  obtain ⟨d, hd, _⟩ := run.callsOk u i call sub hsub
  obtain ⟨c', hc', hle⟩ := run.calls_le hut call d hd
  cases hc.symm.trans hc'
  have hid : c.id = d.id := congrArg Op.id hle.op
  exact (hids.right_of_given hm hgiven hd (hid ▸ hval)).mono hut hle

theorem SystemRun.resultsOk (hm : m.Lawful) {run : SystemRun n m} (hids : DistinctIds run)
    (t : Nat) : ResultsOk run t := by
  constructor
  · intro i call index sub val hsub hphase
    obtain ⟨c, hc, _⟩ := run.callsOk t i call sub hsub
    exact ⟨c, hc, hids.unique.right hm ((run.given t).leaving hsub hphase) hc
      (Or.inr (hids.ne hc))⟩
  · intro call c val hc hanswer
    exact hids.unique.right hm ((run.given t).returned hc hanswer) hc (Or.inr (hids.ne hc))

/-! ## Linearizability -/

/-- Submissions that return `OK` are linearized by the committed log. -/
structure Linearizable (run : SystemRun n m) : Prop where
  /-- The operation is committed at exactly one index, and the value is its
  result after the committed commands below that index. -/
  result : ∀ {t call : Nat} {c : Call n Req Val} {val : Option Val},
    (run.state t).calls[call]? = some c → c.answer = some (.ok val) →
    ∃ index v, val = some v ∧ ExecutesAt m run.cluster index c.op v ∧
      ∀ k e, Commits run.cluster k e → e.command = some c.op → k = index
  /-- A call that was made after another one had returned comes later. -/
  order : ∀ {t u call call' : Nat} {c c' : Call n Req Val} {val val' : Option Val}
    {i j : Nat} {e e' : Entry (Op n Req)},
    (run.state t).calls[call]? = some c → c.answer = some (.ok val) →
    (run.state t).calls.length ≤ call' →
    (run.state u).calls[call']? = some c' → c'.answer = some (.ok val') →
    Commits run.cluster i e → e.command = some c.op →
    Commits run.cluster j e' → e'.command = some c'.op → i < j

/-- Where the operation of a call is committed, `Start` has given the index to the
call, or will do so. -/
theorem DistinctIds.started_of_commits (hm : m.Lawful) {run : SystemRun n m} (h : DistinctIds run)
    {t call : Nat} {c : Call n Req Val} (hc : (run.state t).calls[call]? = some c) {k : Nat}
    {e : Entry (Op n Req)} (he : Commits run.cluster k e) (hop : e.command = some c.op) :
    ∃ d term, c.Le d ∧ d.started = some (k, term) := by
  obtain ⟨_, u, hreach⟩ := reached_of_commits he
  obtain ⟨_, c', hc', _, hstarted⟩ := h.unique.origin hm hc he hop rfl hreach
  obtain ⟨d, hd, hle⟩ := run.calls_le (Nat.le_max_left t u) call c hc
  obtain ⟨d', hd', hle'⟩ := run.calls_le (Nat.le_max_right t u) call c' hc'
  cases hd.symm.trans hd'
  have hsame := hle'.started (by rw [hstarted]; exact Option.some_ne_none _)
  exact ⟨d, _, hle, hsame.trans hstarted⟩

/-- The operation of a call is committed at most at the index that `Start` gave
to the call. -/
theorem DistinctIds.index_eq (hm : m.Lawful) {run : SystemRun n m} (h : DistinctIds run)
    {t call : Nat} {c : Call n Req Val} (hc : (run.state t).calls[call]? = some c)
    {index term : Nat} (hstarted : c.started = some (index, term)) {k : Nat}
    {e : Entry (Op n Req)} (he : Commits run.cluster k e) (hop : e.command = some c.op) :
    k = index := by
  obtain ⟨d, term', hle, hd⟩ := h.started_of_commits hm hc he hop
  have hsame := hle.started (by rw [hstarted]; exact Option.some_ne_none _)
  rw [hd, hstarted] at hsame
  cases hsame
  rfl

/-- An operation that `Start` refused is never committed. -/
theorem DistinctIds.not_commits (hm : m.Lawful) {run : SystemRun n m} (h : DistinctIds run)
    {t call : Nat} {c : Call n Req Val} (hc : (run.state t).calls[call]? = some c)
    (hstarted : c.started = none) (hanswer : c.answer ≠ none) {k : Nat} {e : Entry (Op n Req)}
    (he : Commits run.cluster k e) : e.command ≠ some c.op := by
  intro hop
  obtain ⟨d, term, hle, hd⟩ := h.started_of_commits hm hc he hop
  rw [hle.final hanswer, hstarted] at hd
  cases hd

theorem linearizable_of_lawful (hm : m.Lawful) {run : SystemRun n m} (hids : DistinctIds run) :
    Linearizable run := by
  refine ⟨fun {t call c val} hc hanswer => ?_, ?_⟩
  · obtain ⟨index, term, v, rfl, hstarted, hexec, _⟩ :=
      (SystemRun.resultsOk hm hids t).returned hc hanswer
    exact ⟨index, v, rfl, hexec, fun k e he hop => hids.index_eq hm hc hstarted he hop⟩
  · intro t u call call' c c' val val' i j e e' hc hanswer hlater hc' hanswer' he hop he' hop'
    obtain ⟨index, term, v, rfl, hstarted, _, hreach⟩ :=
      (SystemRun.resultsOk hm hids t).returned hc hanswer
    cases hids.index_eq hm hc hstarted he hop
    by_contra hnot
    -- An operation at an index that was reached at `t` was submitted before `t`.
    have hreach' : Reached run t j := by
      obtain ⟨w, hw, x, hx⟩ := hreach
      exact ⟨w, hw, x, by omega⟩
    obtain ⟨_, d, hd, _⟩ := hids.unique.origin hm hc' he' hop' rfl hreach'
    have := (List.getElem?_eq_some_iff.mp hd).1
    omega

/-- The store is linearizable. -/
theorem store_linearizable (run : SystemRun n Store.machine) (h : DistinctIds run) :
    Linearizable run :=
  linearizable_of_lawful Store.lawful h

/-- A run that stands still after `T` has distinct ids when its last history
has. -/
theorem DistinctIds.of_final {run : SystemRun n m} {T : Nat}
    (hstop : ∀ t, T ≤ t → run.state t = run.state T)
    (hnodup : ((run.state T).calls.map Call.id).Nodup)
    (hne : ∀ c ∈ (run.state T).calls, c.id ≠ -1) : DistinctIds run := by
  have hfinal : ∀ {t call : Nat} {c : Call n Req Val}, (run.state t).calls[call]? = some c →
      ∃ c', (run.state T).calls[call]? = some c' ∧ c'.id = c.id := by
    intro t call c hc
    obtain ⟨c', hc', hle⟩ := run.calls_le (Nat.le_max_left t T) call c hc
    rw [hstop _ (Nat.le_max_right t T)] at hc'
    exact ⟨c', hc', congrArg Op.id hle.op⟩
  refine ⟨fun {t call call' c c'} hc hc' hid => ?_, fun {t call c} hc => ?_⟩
  · obtain ⟨d, hd, hdid⟩ := hfinal hc
    obtain ⟨d', hd', hdid'⟩ := hfinal hc'
    have hlt : call < ((run.state T).calls.map Call.id).length := by
      rw [List.length_map]
      exact (List.getElem?_eq_some_iff.mp hd).1
    refine (List.getElem?_inj hlt hnodup).mp ?_
    rw [List.getElem?_map, List.getElem?_map, hd, hd', Option.map_some, Option.map_some, hdid,
      hdid', hid]
  · obtain ⟨d, hd, hdid⟩ := hfinal hc
    exact hdid ▸ hne d (List.mem_of_getElem? hd)

/-- Node 0 commits the operation of a call with the help of node 1, executes it and
answers the call. -/
def operate (call rpc : Nat) : List (SystemEvent 3 Request Store) :=
  [.register call, .raft (.replicate node0 node1), .raft (.deliver rpc),
    .raft (.handleReply rpc (.appendEntries ⟨1, true, 0, some 0⟩)), .raft (.applierTake node0),
    .receive node0, .lockCommand node0, .doOp node0, .notifyPending node0, .send node0,
    .notifyOutdated node0, .endOutdated node0, .checkSnapshot node0 false, .leave call]

/-- Node 0 wins an election, and a `Put` is submitted to it. -/
def putEvents : List (SystemEvent 3 Request Store) :=
  [.raft (.electionTimeout node0), .raft (.deliver 0),
    .raft (.handleReply 0 (.requestVote ⟨0, true⟩)), .submit node0 1 (.put "k" "v" 0)] ++
  operate 0 2

/-- The run of these events. -/
def putRun : SystemRun 3 Store.machine :=
  Run.ofEvents (System.init Store.machine) (System.exec Store.machine) putEvents

/-- After the `Put` has returned, a `Get` is submitted. -/
def putGetRun : SystemRun 3 Store.machine :=
  Run.ofEvents (System.init Store.machine) (System.exec Store.machine)
    (putEvents ++ [.submit node0 2 (.get "k")] ++ operate 1 3)

theorem putGetRun_distinctIds : DistinctIds putGetRun :=
  .of_final (T := 33) (fun _ h => Run.ofEvents_state_of_le _ _ _ h)
    (by decide +kernel) (by decide +kernel)

/-- Both return `OK`, the `Get` with the value that was put, and the run is
linearizable. -/
theorem linearizable_putGetRun : (putGetRun.state 18).calls.length = 1 ∧
    (putGetRun.state 33).calls.map Call.answer =
      [some (.ok (some (.put .ok))), some (.ok (some (.get "v" 1 .ok)))] ∧
    Linearizable putGetRun :=
  ⟨by decide +kernel, by decide +kernel, store_linearizable putGetRun putGetRun_distinctIds⟩

end KvRaft
