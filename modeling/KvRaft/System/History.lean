import KvRaft.Rsm.Steps
import KvRaft.System.Model

/-!
# Runs of the system and the history of calls

A run of the system contains a run of the cluster (`SystemRun.cluster`), so what
holds in every run of a cluster holds here.

The history and the state machines tell the same story about every call that a
node is still working on (`CallsOk`).  Therefore the history only grows: what
`Start` answered to a call and what the call returned are written once
(`SystemRun.calls_le`).
-/

namespace KvRaft

variable {n : Nat} {S Req Val D : Type} {m : StateMachine S Req Val D}

namespace System

variable {s s' : System n S Req Val D} {e : SystemEvent n Req D}

/-! ## The two sides of an event -/

theorem exec_cluster (h : s.exec m e = some s') :
    execRaft s.cluster (s.raftEvent m e) = some s'.cluster := by
  obtain ⟨cluster, hraft, h⟩ := Option.bind_eq_some_iff.mp h
  obtain ⟨_, _, h⟩ := Option.bind_eq_some_iff.mp h
  cases h
  exact hraft

theorem exec_rest (h : s.exec m e = some s') :
    s.execRsm m s'.cluster e = some (s'.rsm, s'.calls) := by
  obtain ⟨cluster, _, h⟩ := Option.bind_eq_some_iff.mp h
  obtain ⟨_, hrsm, h⟩ := Option.bind_eq_some_iff.mp h
  cases h
  exact hrsm

/-- An event of Raft alone. -/
theorem exec_internal {ce : Event n (Op n Req) D} (h : s.exec m (.raft ce) = some s') :
    ce.internal = true ∧ s'.rsm = s.restarted m s'.cluster (s.cluster.rebooted ce) ∧
      s'.calls = s.calls := by
  have hrest := exec_rest h
  rw [execRsm] at hrest
  split_ifs at hrest with hint
  obtain ⟨hrsm, hcalls⟩ := Prod.mk.inj (Option.some.inj hrest)
  exact ⟨hint, hrsm.symm, hcalls.symm⟩

/-- Every other event is a step of one state machine. -/
theorem exec_step (h : s.exec m e = some s') (he : ∀ ce, e ≠ .raft ce) :
    ∃ i step r, s.rsmEvent e = some (i, step) ∧ (s.rsm i).exec m step = some r ∧
      s' = ⟨s'.cluster, Function.update s.rsm i r, s.record r e⟩ := by
  have hrest := exec_rest h
  unfold execRsm at hrest
  split at hrest
  · exact absurd rfl (he _)
  · obtain ⟨⟨i, step⟩, hev, hrest⟩ := Option.bind_eq_some_iff.mp hrest
    obtain ⟨r, hr, hrest⟩ := Option.bind_eq_some_iff.mp hrest
    obtain ⟨hrsm, hcalls⟩ := Prod.mk.inj (Option.some.inj hrest)
    refine ⟨i, step, r, hev, hr, ?_⟩
    rw [hrsm, hcalls]

/-- A state machine makes a step of its own, is made anew, or stays. -/
theorem exec_rsm (h : s.exec m e = some s') (j : Fin n) :
    s'.rsm j = s.rsm j ∨ (∃ step, (s.rsm j).exec m step = some (s'.rsm j)) ∨
      ∃ ce snapshot, e = .raft ce ∧ s.cluster.rebooted ce = some j ∧
        s'.rsm j = .make m j snapshot := by
  by_cases hraft : ∃ ce, e = .raft ce
  · obtain ⟨ce, rfl⟩ := hraft
    rw [(exec_internal h).2.1]
    cases hboot : s.cluster.rebooted ce with
    | none => exact Or.inl rfl
    | some i =>
      rw [restarted]
      by_cases hji : j = i
      · subst hji
        exact Or.inr (Or.inr ⟨ce, _, rfl, hboot, by rw [Function.update_self, makeRsm]⟩)
      · exact Or.inl (Function.update_of_ne hji ..)
  · obtain ⟨i, step, r, _, hr, heq⟩ := exec_step h (not_exists.mp hraft)
    rw [heq]
    dsimp only
    by_cases hji : j = i
    · subst hji
      exact Or.inr (Or.inl ⟨step, by rw [Function.update_self, hr]⟩)
    · exact Or.inl (Function.update_of_ne hji ..)

/-- The cluster makes a step of its own, or none. -/
theorem step_cluster (h : System.Step m s s') :
    Cluster.Step s.cluster s'.cluster ∨ s'.cluster = s.cluster := by
  obtain ⟨e, h⟩ := h
  have hraft := exec_cluster h
  cases hce : s.raftEvent m e with
  | none =>
    rw [hce, execRaft] at hraft
    exact Or.inr (Option.some.inj hraft).symm
  | some ce =>
    rw [hce, execRaft] at hraft
    split_ifs at hraft with hen
    exact Or.inl ⟨ce, hen, hraft⟩

end System

/-- The cluster of a run. -/
def SystemRun.cluster (run : SystemRun n m) : ClusterRun n (Op n Req) D where
  state t := (run.state t).cluster
  start := by rw [run.start]; rfl
  next t := by
    rcases run.next t with h | h
    · exact System.step_cluster h
    · exact Or.inr (by rw [h])

/-! ## Calls and their nodes -/

/-- What the history says about a call in the given phase. -/
def PhaseOk (c : Call n Req Val) : Phase n Val → Prop
  | .entering => c.started = none ∧ c.answer = none
  | .waiting index => (∃ term, c.started = some (index, term)) ∧ c.answer = none
  | .timedOut index => (∃ term, c.started = some (index, term)) ∧ c.answer = none
  | .leaving index _ => (∃ term, c.started = some (index, term)) ∧ c.answer = none
  | .returned answer => c.answer = some answer

/-- The history contains every call that a node knows, as the node knows it. -/
def CallsOk (s : System n S Req Val D) : Prop :=
  ∀ i call sub, (s.rsm i).submits call = some sub → ∃ c, s.calls[call]? = some c ∧
    c.op = ⟨i, sub.id, sub.req⟩ ∧ PhaseOk c sub.phase

/-- A later entry of the same call.  The entry of a call that has returned is
final. -/
structure Call.Le (c c' : Call n Req Val) : Prop where
  op : c'.op = c.op
  started : c.started ≠ none → c'.started = c.started
  final : c.answer ≠ none → c' = c

theorem Call.Le.refl (c : Call n Req Val) : c.Le c := ⟨rfl, fun _ => rfl, fun _ => rfl⟩

theorem Call.Le.trans {c c' c'' : Call n Req Val} (h : c.Le c') (h' : c'.Le c'') : c.Le c'' where
  op := h'.op.trans h.op
  started hne := (h'.started (by rw [h.started hne]; exact hne)).trans (h.started hne)
  final hne := (h'.final (by rw [h.final hne]; exact hne)).trans (h.final hne)

/-- Every call of `calls` is in `calls'`, at the same place. -/
def CallsLe (calls calls' : List (Call n Req Val)) : Prop :=
  ∀ (call : Nat) (c : Call n Req Val), calls[call]? = some c →
    ∃ c', calls'[call]? = some c' ∧ c.Le c'

theorem CallsLe.refl (calls : List (Call n Req Val)) : CallsLe calls calls :=
  fun _ c h => ⟨c, h, .refl c⟩

section Steps

variable {s s' : System n S Req Val D} {i : Fin n} {r : Rsm n S Req Val D}
variable {calls' : List (Call n Req Val)} {σ : Cluster n (Op n Req) D}

/-- A step that leaves the calls as they are. -/
theorem CallsOk.of_submits (h : CallsOk s) (hr : r.submits = (s.rsm i).submits) :
    CallsOk ⟨σ, Function.update s.rsm i r, s.calls⟩ := by
  intro j call sub hsub
  by_cases hji : j = i
  · subst hji
    simp only [Function.update_self] at hsub
    rw [hr] at hsub
    exact h j call sub hsub
  · simp only [Function.update_of_ne hji] at hsub
    exact h j call sub hsub

/-- The history grows when one call is recorded. -/
theorem callsLe_modify {calls : List (Call n Req Val)} {call : Nat}
    {f : Call n Req Val → Call n Req Val} (hf : ∀ c, calls[call]? = some c → c.Le (f c)) :
    CallsLe calls (calls.modify call f) := by
  intro call' c hc
  by_cases hcall : call' = call
  · subst hcall
    exact ⟨f c, by simp [hc], hf c hc⟩
  · exact ⟨c, by simp [Ne.symm hcall, hc], .refl c⟩

/-- A step that moves one call to another phase and records it. -/
theorem calls_phase (h : CallsOk s) {call : Nat} {sub : Submit n Req Val}
    {phase : Phase n Val} (hsub : (s.rsm i).submits call = some sub)
    (hr : r.submits = ((s.rsm i).setPhase call sub phase).submits)
    {f : Call n Req Val → Call n Req Val}
    (hf : ∀ c, s.calls[call]? = some c → PhaseOk c sub.phase →
      c.Le (f c) ∧ PhaseOk (f c) phase) :
    CallsOk ⟨σ, Function.update s.rsm i r, s.calls.modify call f⟩ ∧
      CallsLe s.calls (s.calls.modify call f) := by
  obtain ⟨c, hc, hop, hphase⟩ := h i call sub hsub
  obtain ⟨hle, hphase'⟩ := hf c hc hphase
  refine ⟨fun j call' sub' hsub' => ?_, callsLe_modify fun c' hc' => ?_⟩
  · by_cases hcall : call' = call
    · subst hcall
      -- Only node `i` knows the call, because the call belongs to one node.
      have hji : j = i := by
        by_contra hji
        simp only [Function.update_of_ne hji] at hsub'
        obtain ⟨c', hc', hop', _⟩ := h j call' sub' hsub'
        cases hc.symm.trans hc'
        exact hji (congrArg Op.me (hop'.symm.trans hop))
      subst hji
      simp only [Function.update_self] at hsub'
      rw [hr, Rsm.setPhase_self] at hsub'
      cases hsub'
      exact ⟨f c, by simp [hc], hle.op.trans hop, hphase'⟩
    · have hold : (s.rsm j).submits call' = some sub' := by
        by_cases hji : j = i
        · subst hji
          simp only [Function.update_self] at hsub'
          rwa [hr, Rsm.setPhase_of_ne _ _ _ hcall] at hsub'
        · simpa only [Function.update_of_ne hji] using hsub'
      obtain ⟨c', hc', hrest⟩ := h j call' sub' hold
      exact ⟨c', by simp [Ne.symm hcall, hc'], hrest⟩
  · cases hc.symm.trans hc'
    exact hle

/-- A step that moves one call to another phase without recording anything. -/
theorem calls_phase_id (h : CallsOk s) {call : Nat} {sub : Submit n Req Val}
    {phase : Phase n Val} (hsub : (s.rsm i).submits call = some sub)
    (hr : r.submits = ((s.rsm i).setPhase call sub phase).submits)
    (hphase : ∀ c : Call n Req Val, PhaseOk c sub.phase → PhaseOk c phase) :
    CallsOk ⟨σ, Function.update s.rsm i r, s.calls⟩ ∧ CallsLe s.calls s.calls := by
  have := calls_phase (σ := σ) h hsub hr (f := id) fun c _ hok => ⟨.refl c, hphase c hok⟩
  rwa [List.modify_id] at this

/-- A new call takes the next place of the history. -/
theorem CallsOk.of_enter (h : CallsOk s) (id : Int) (req : Req) :
    CallsOk ⟨σ, Function.update s.rsm i { s.rsm i with
      submits := Function.update (s.rsm i).submits s.calls.length
        (some ⟨id, req, false, .entering⟩) }, s.calls ++ [⟨i, id, req, none, none⟩]⟩ := by
  intro j call sub hsub
  have hold : (s.rsm j).submits call = some sub → ∃ c,
      (s.calls ++ [⟨i, id, req, none, none⟩])[call]? = some c ∧
        c.op = ⟨j, sub.id, sub.req⟩ ∧ PhaseOk c sub.phase := by
    intro hsub
    obtain ⟨c, hc, hrest⟩ := h j call sub hsub
    exact ⟨c, List.getElem?_append_left (List.getElem?_eq_some_iff.mp hc).1 ▸ hc, hrest⟩
  by_cases hji : j = i
  · subst hji
    simp only [Function.update_self] at hsub
    by_cases hcall : call = s.calls.length
    · subst hcall
      rw [Function.update_self] at hsub
      cases hsub
      exact ⟨⟨j, id, req, none, none⟩, by simp, rfl, rfl, rfl⟩
    · rw [Function.update_of_ne hcall] at hsub
      exact hold hsub
  · simp only [Function.update_of_ne hji] at hsub
    exact hold hsub

theorem callsLe_append (calls : List (Call n Req Val)) (new : List (Call n Req Val)) :
    CallsLe calls (calls ++ new) := by
  intro call c hc
  exact ⟨c, List.getElem?_append_left (List.getElem?_eq_some_iff.mp hc).1 ▸ hc, .refl c⟩

/-- The call that `Submit` makes is the next one of the history. -/
theorem System.submit_calls {j : Fin n} {id : Int} {req : Req}
    (hexec : s.exec m (.submit j id req) = some s') :
    s'.calls[s.calls.length]? = some ⟨j, id, req, none, none⟩ := by
  obtain ⟨_, _, r, _, _, heq⟩ := System.exec_step hexec (by simp)
  rw [heq]
  exact List.getElem?_concat_length

/-- A step of the reader leaves the calls as they are. -/
theorem calls_reads (h : CallsOk s) {step : RsmEvent n Req D} (hreads : step.reads = true)
    (hr : (s.rsm i).exec m step = some r) :
    CallsOk ⟨σ, Function.update s.rsm i r, s.calls⟩ ∧ CallsLe s.calls s.calls :=
  ⟨h.of_submits (Rsm.exec_reads hreads hr).submits, .refl _⟩

/-- An event of Raft alone leaves the history as it is.  A node that restarts
forgets its calls. -/
theorem calls_raft (h : CallsOk s) {ce : Event n (Op n Req) D}
    (hexec : s.exec m (.raft ce) = some s') : CallsOk s' ∧ CallsLe s.calls s'.calls := by
  obtain ⟨_, hrsm, hcalls⟩ := System.exec_internal hexec
  refine ⟨?_, hcalls ▸ .refl _⟩
  intro i call sub hsub
  rw [hcalls]
  rw [hrsm] at hsub
  cases hboot : s.cluster.rebooted ce with
  | none =>
    rw [hboot] at hsub
    exact h i call sub hsub
  | some j =>
    rw [hboot, System.restarted] at hsub
    by_cases hij : i = j
    · subst hij
      rw [Function.update_self] at hsub
      cases hsub
    · rw [Function.update_of_ne hij] at hsub
      exact h i call sub hsub

/-- Every event keeps the history right, and writes nothing twice. -/
theorem calls_step (h : CallsOk s) {e : SystemEvent n Req D} (hexec : s.exec m e = some s') :
    CallsOk s' ∧ CallsLe s.calls s'.calls := by
  by_cases hraft : ∃ ce, e = .raft ce
  · obtain ⟨ce, rfl⟩ := hraft
    exact calls_raft h hexec
  obtain ⟨i, step, r, hev, hr, heq⟩ := System.exec_step hexec (not_exists.mp hraft)
  rw [heq]
  cases e with
  | raft ce => exact absurd ⟨ce, rfl⟩ hraft
  | submit j id req =>
    cases hev
    obtain ⟨_, rfl⟩ := Rsm.submit_inv hr
    exact ⟨h.of_enter id req, callsLe_append _ _⟩
  | register call =>
    obtain ⟨c, hc, hev⟩ := Option.map_eq_some_iff.mp hev
    cases hev
    obtain ⟨sub, hsub, hphase, _, hcases⟩ := Rsm.register_inv hr
    -- Nothing is recorded about the call before.
    have hle : ∀ c' : Call n Req Val, c'.op = c.op → PhaseOk c sub.phase → c.Le c' := by
      intro c' hop hok
      rw [hphase] at hok
      exact ⟨hop, fun hne => absurd hok.1 hne, fun hne => absurd hok.2 hne⟩
    rcases hcases with ⟨hnone, hr⟩ | ⟨index, term, hsome, hr⟩
    · refine calls_phase h hsub (by rw [hr]) fun c' hc' hok => ?_
      cases hc.symm.trans hc'
      exact ⟨hle _ rfl hok, by rw [hr]; simp [PhaseOk, Rsm.answer, Rsm.setPhase_self]⟩
    · refine calls_phase h hsub (by rw [hr]) fun c' hc' hok => ?_
      cases hc.symm.trans hc'
      exact ⟨hle _ rfl hok, ⟨term, hsome⟩, by rw [hr]; simp [Rsm.answer, Rsm.setPhase_self]⟩
  | timeout call =>
    obtain ⟨c, hc, hev⟩ := Option.map_eq_some_iff.mp hev
    cases hev
    obtain ⟨sub, index, hsub, hphase, rfl⟩ := Rsm.timeout_inv hr
    exact calls_phase_id h hsub rfl fun c hok => by rw [hphase] at hok; exact hok
  | dumpPending call =>
    obtain ⟨c, hc, hev⟩ := Option.map_eq_some_iff.mp hev
    cases hev
    obtain ⟨sub, index, hsub, hphase, _, rfl⟩ := Rsm.dumpPending_inv hr
    exact calls_phase_id h hsub rfl fun c hok => by rw [hphase] at hok; exact hok
  | leave call =>
    obtain ⟨c, hc, hev⟩ := Option.map_eq_some_iff.mp hev
    cases hev
    obtain ⟨sub, index, answer, hsub, hphase, _, hr⟩ := Rsm.leave_inv hr
    refine calls_phase h hsub (by rw [hr]) fun c' _ hok => ?_
    rw [hphase] at hok
    refine ⟨⟨rfl, fun _ => rfl, fun hne => absurd hok.2 hne⟩, ?_⟩
    rw [hr]
    simp [PhaseOk, Rsm.answer, Rsm.setPhase_self]
  | send j =>
    cases hev
    obtain ⟨idx, res, entry, sub, index, _, _, hsub, hphase, hr⟩ := Rsm.send_inv hr
    exact calls_phase_id h hsub (by rw [hr]) fun c hok => by rw [hphase] at hok; exact hok
  | receive j =>
    obtain ⟨msg, _, hev⟩ := Option.map_eq_some_iff.mp hev
    cases hev
    exact calls_reads h rfl hr
  | _ =>
    cases hev
    exact calls_reads h rfl hr

theorem modify_eq_some {calls : List (Call n Req Val)} {call call' : Nat}
    {f : Call n Req Val → Call n Req Val} {c : Call n Req Val}
    (h : (calls.modify call' f)[call]? = some c) :
    (call = call' ∧ ∃ c₀, calls[call]? = some c₀ ∧ c = f c₀) ∨ calls[call]? = some c := by
  by_cases hcall : call = call'
  · subst hcall
    rw [List.getElem?_modify_eq, Option.map_eq_map, Option.map_eq_some_iff] at h
    obtain ⟨c₀, hc₀, rfl⟩ := h
    exact Or.inl ⟨rfl, c₀, hc₀, rfl⟩
  · rw [List.getElem?_modify_ne _ _ (Ne.symm hcall)] at h
    exact Or.inr h

/-- A call returns `OK` only with the result that it was about to return. -/
theorem exec_answer {e : SystemEvent n Req D} (hexec : s.exec m e = some s') {call : Nat}
    {c : Call n Req Val} (hc : s'.calls[call]? = some c) {val : Option Val}
    (hanswer : c.answer = some (.ok val)) :
    (∃ c, s.calls[call]? = some c ∧ c.answer = some (.ok val)) ∨
      ∃ i sub index, (s.rsm i).submits call = some sub ∧
        sub.phase = .leaving index (.ok val) := by
  cases e with
  | raft ce =>
    rw [(System.exec_internal hexec).2.2] at hc
    exact Or.inl ⟨c, hc, hanswer⟩
  | submit j id req =>
    obtain ⟨_, _, r, _, _, heq⟩ := System.exec_step hexec (by simp)
    rw [heq] at hc
    by_cases hlt : call < s.calls.length
    · exact Or.inl ⟨c, (List.getElem?_append_left hlt).symm.trans hc, hanswer⟩
    · have hnew := (List.getElem?_append_right (Nat.le_of_not_lt hlt)).symm.trans hc
      cases List.mem_singleton.mp (List.mem_of_getElem? hnew)
      cases hanswer
  | register call' =>
    obtain ⟨i, step, r, hev, hr, heq⟩ := System.exec_step hexec (by simp)
    rw [heq] at hc
    obtain ⟨c₀, _, hev⟩ := Option.map_eq_some_iff.mp hev
    cases hev
    rcases modify_eq_some hc with ⟨rfl, c₁, _, rfl⟩ | hold
    · -- `Start` refused the call, or the call goes on waiting.
      obtain ⟨sub, _, _, _, ⟨_, rfl⟩ | ⟨index, term, _, rfl⟩⟩ := Rsm.register_inv hr
      · simp [Rsm.answer, Rsm.setPhase_self] at hanswer
      · simp [Rsm.answer, Rsm.setPhase_self] at hanswer
    · exact Or.inl ⟨c, hold, hanswer⟩
  | leave call' =>
    obtain ⟨i, step, r, hev, hr, heq⟩ := System.exec_step hexec (by simp)
    rw [heq] at hc
    obtain ⟨c₀, _, hev⟩ := Option.map_eq_some_iff.mp hev
    cases hev
    rcases modify_eq_some hc with ⟨rfl, c₁, _, rfl⟩ | hold
    · obtain ⟨sub, index, answer, hsub, hphase, _, rfl⟩ := Rsm.leave_inv hr
      simp only [Rsm.answer, Rsm.setPhase_self, Option.map_some, Option.some.injEq] at hanswer
      exact Or.inr ⟨_, sub, index, hsub, hanswer ▸ hphase⟩
    · exact Or.inl ⟨c, hold, hanswer⟩
  | _ =>
    obtain ⟨_, _, r, _, _, heq⟩ := System.exec_step hexec (by simp)
    rw [heq] at hc
    exact Or.inl ⟨c, hc, hanswer⟩

end Steps

/-! ## Along a run -/

namespace SystemRun

theorem callsOk (run : SystemRun n m) (t : Nat) : CallsOk (run.state t) := by
  refine Run.invariant run (fun i call sub hsub => ?_) (fun s s' h ⟨e, hexec⟩ => ?_) t
  · cases hsub
  · exact (calls_step h hexec).1

/-- The history only grows. -/
theorem calls_le (run : SystemRun n m) {t u : Nat} (h : t ≤ u) :
    CallsLe (run.state t).calls (run.state u).calls := by
  refine Run.monotone run (R := fun s s' => CallsLe s.calls s'.calls) (fun s => .refl _)
    (fun a b c hab hbc call x hx => ?_) run.callsOk (fun s s' hs ⟨e, hexec⟩ => ?_) h
  · obtain ⟨y, hy, hxy⟩ := hab call x hx
    obtain ⟨z, hz, hyz⟩ := hbc call y hy
    exact ⟨z, hz, hxy.trans hyz⟩
  · exact (calls_step hs hexec).2

/-- A property of new state machines that their steps keep holds of every state
machine. -/
theorem rsm_invariant (run : SystemRun n m) {P : Rsm n S Req Val D → Prop}
    (hmake : ∀ i snapshot, P (.make m i snapshot))
    (hstep : ∀ r r' step, P r → r.exec m step = some r' → P r') (t : Nat) (i : Fin n) :
    P ((run.state t).rsm i) := by
  refine Run.invariant run (P := fun s => P (s.rsm i)) (hmake i none)
    (fun s s' h ⟨e, hexec⟩ => ?_) t
  rcases System.exec_rsm hexec i with heq | ⟨step, hexec⟩ | ⟨_, snapshot, _, _, heq⟩
  · exact heq ▸ h
  · exact hstep _ _ step h hexec
  · exact heq ▸ hmake i snapshot

theorem pendingOk (run : SystemRun n m) (t : Nat) (i : Fin n) :
    Rsm.PendingOk ((run.state t).rsm i) :=
  run.rsm_invariant (fun _ _ _ _ hentry => by cases hentry)
    (fun _ _ _ h hexec => h.change (Rsm.exec_change hexec)) t i

end SystemRun

end KvRaft
