import KvRaft.Service.Clerks
import KvRaft.Lib.Linearization

/-!
# The histories of clerks are linearizable

What the linearizability tests check, for every run: the calls of `Clerk.Get`
and `Clerk.Put` that have returned, with what they returned, can be put in an
order that does not contradict real time, and the oracle of the tests accepts
them in this order.

The order is that of the committed log.  A `Put` that takes effect has its point
where it does, and no `Put` takes effect twice.  Every other call that has
returned has its point where the operation was executed whose result it
returned.  The operations of the other attempts have no point.  They are `Get`s
and `Put`s that fail, so nothing changes there.

The conditions:

* `DistinctIds`: the ids that `Submit` draws are distinct;
* `TruthfulVersionError`: a `Put` that returns `ErrVersion` never takes effect, which
  `Definite` guarantees and which is false in general (`KvRaft.Service.Clients`);
* `FewPuts`: versions do not wrap around;
* `ReadsVersions`: the version of a `Put` was read before, as in
  `performRandomOp`.  Otherwise a `Put` that has returned `ErrMaybe` may take
  effect later: its version may be one that the key has not had yet, and the
  request of an attempt that failed may still be on its way.
-/

namespace KvRaft

open Consensus

variable {n : Nat}

/-! ## Histories -/

/-- What is recorded of a call.  One that has not returned is recorded as if it
had returned `OK`. -/
def CallView.operation (v : CallView n) : Option Operation :=
  v.request.input?.map fun input => ⟨input, v.output.getD (Reply.put .ok).output⟩

def Clerks.operation (s : Clerks n) (o : ClerkCall) : Option Operation :=
  (s.view o).bind CallView.operation

/-- The call was made by moment `t`. -/
def ClerkRun.Called (run : ClerkRun n) (t : Nat) (o : ClerkCall) : Prop :=
  (run.state t).view o ≠ none

/-- The call had returned by moment `t`. -/
def ClerkRun.Returned (run : ClerkRun n) (t : Nat) (o : ClerkCall) : Prop :=
  ∃ v, (run.state t).view o = some v ∧ v.output ≠ none

/-- `lin` is a linearization of what happened up to moment `T`. -/
structure Linearizes (run : ClerkRun n) (T : Nat) (lin : List ClerkCall) : Prop where
  nodup : lin.Nodup
  /-- Of the calls that have not returned it may have `Put`s. -/
  called : ∀ o ∈ lin, run.Called T o ∧ (run.Returned T o ∨ ∃ put, o = .put put)
  /-- It has every call that has returned. -/
  complete : ∀ o, run.Returned T o → o ∈ lin
  /-- A call that was made after another one had returned comes later. -/
  realTime : lin.Pairwise fun o o' => ¬ Earlier run.Called run.Returned o' o
  /-- The oracle accepts the operations on each key. -/
  accepted : ∀ part ∈ KvModel.partition (lin.filterMap (run.state T).operation),
    (KvModel.run KvModel.init part).isSome

/-- The version of a `Put` is 0, or a `Get` on the key had returned it before. -/
def ReadsVersions (run : ClerkRun n) : Prop :=
  ∀ (t put : Nat) (p : PutCall n), (run.state t).clients.puts[put]? = none →
    (run.state (t + 1)).clients.puts[put]? = some p →
    p.version = 0 ∨ ∃ g ∈ (run.state t).gets, g.key = p.key ∧
      ∃ value, g.result = some (value, p.version, .ok)

/-! ## The oracle along the log -/

namespace KvModel

/-- One operation of a whole history, for one key. -/
def accept (key : String) (st : KvState) (op : Operation) : Option KvState :=
  if op.input.key = key then
    match step st op.input op.output with
    | (true, st) => some st
    | (false, _) => none
  else some st

theorem run_ofKey (key : String) (ops : List Operation) (st : KvState) :
    run st (ofKey key ops) = ops.foldlM (accept key) st := by
  induction ops generalizing st with
  | nil => rfl
  | cons op ops ih =>
    by_cases hkey : op.input.key = key
    · rw [ofKey, List.filter_cons_of_pos (by simpa using hkey), List.foldlM_cons, accept,
        if_pos hkey, run]
      rcases step st op.input op.output with ⟨ok, st'⟩
      cases ok with
      | false => rfl
      | true => exact ih st'
    · rw [ofKey, List.filter_cons_of_neg (by simpa using hkey), List.foldlM_cons, accept,
        if_neg hkey]
      exact ih st

end KvModel

namespace Store

variable {kv : Store} {key : String} {req : Request} {input : KvInput} {out : KvOutput}

/-- The oracle follows the store also when the clerk does not know whether the
operation was executed. -/
theorem step_shown (hreq : req.input? = some input)
    (hout : out = (doOp kv req).2.output ∨ out = ⟨"", 0, Err.errMaybe.string⟩) :
    KvModel.step (kv.stateOf input.key) input out = (true, (doOp kv req).1.stateOf input.key) := by
  rcases hout with rfl | rfl
  · exact step_stateOf hreq
  · cases req with
    | get k =>
      cases hreq
      rw [doOp_get]
      simp [KvModel.step, Err.string]
    | put k value version =>
      cases hreq
      rcases doOp_put kv k value version with hok | hrefused
      · have hversion := doOp_put_ok_iff_stateOf.mp hok
        rw [doOp_put_of_ok hok, stateOf_insert]
        simp [KvModel.step, Err.string, hversion]
      · have hversion : (kv.stateOf k).version ≠ version := by
          intro heq
          have hok : (doOp kv (.put k value version)).2 = .put .ok :=
            doOp_put_ok_iff_stateOf.mpr heq
          simp [hrefused] at hok
        rw [doOp_of_errVersion hrefused]
        simp [KvModel.step, Err.string, hversion]
    | other => cases hreq

theorem accept_shown (hreq : req.input? = some input)
    (hout : out = (doOp kv req).2.output ∨ out = ⟨"", 0, Err.errMaybe.string⟩) :
    KvModel.accept key (kv.stateOf key) ⟨input, out⟩ = some ((doOp kv req).1.stateOf key) := by
  unfold KvModel.accept
  split_ifs with hkey
  · subst hkey
    rw [step_shown hreq hout]
  · rw [stateOf_eq_of_lookup (lookup_doOp_of_ne hreq hkey)]

/-- A `Get` returns the version of the key. -/
theorem output_get (kv : Store) (key : String) :
    (doOp kv (.get key)).2.output.version = (kv.stateOf key).version := by
  rw [doOp, stateOf]
  cases kv.lookup key <;> rfl

theorem doOp_get_ne (kv : Store) (key : String) (err : Err) :
    (doOp kv (.get key)).2 ≠ .put err := by
  rw [doOp]
  split <;> exact Reply.noConfusion

end Store

/-! ## The committed log -/

/-- The commands up to a reached index. -/
theorem SystemRun.exists_cmds {S Req Val D : Type} {m : StateMachine S Req Val D} (hm : m.Lawful)
    (run : SystemRun n m) {t k : Nat} (h : Reached run t k) :
    ∃ cmds, CommittedCmds run.cluster cmds ∧ cmds.length = k := by
  obtain ⟨abs, htracks, _⟩ := run.tracked hm
  obtain ⟨u, _, i, hk⟩ := h
  have hS : Sim (CommittedPrefix run.cluster) (run.cluster.state u) (abs u) :=
    (htracks u).sim.imp fun _ _ hd => hd.1
  have hle := (hS.node i).commitLe
  have hk' : k ≤ ((run.cluster.state u).nodes i).commitIndex := hk
  refine ⟨(((abs u).log i).take k).map Slot.cmd, fun j c hj => ?_, by simp; omega⟩
  rw [List.getElem?_map, Option.map_eq_some_iff] at hj
  obtain ⟨s, hs, rfl⟩ := hj
  rw [List.getElem?_take] at hs
  split_ifs at hs with hlt
  exact ⟨_, commits_of_slot hS hs (hlt.trans_le hk), rfl⟩

theorem Reached.le {S Req Val D : Type} {m : StateMachine S Req Val D} {run : SystemRun n m}
    {t j k : Nat} (h : Reached run t k) (hjk : j ≤ k) : Reached run t j := by
  obtain ⟨u, hu, i, hk⟩ := h
  exact ⟨u, hu, i, hjk.trans hk⟩

/-- There is a last index that was reached. -/
theorem exists_last_reached {S Req Val D : Type} {m : StateMachine S Req Val D}
    (run : SystemRun n m) (t : Nat) :
    ∃ K, (∀ k, Reached run t k → k ≤ K) ∧ ∀ k, k < K → Reached run t (k + 1) := by
  refine ⟨(Finset.range (t + 1)).sup fun u => Finset.univ.sup fun i =>
    (run.cluster.node u i).commitIndex, ?_, fun k hk => ?_⟩
  · rintro k ⟨u, hu, i, hk⟩
    refine hk.trans (le_trans ?_ (Finset.le_sup (Finset.mem_range.mpr (Nat.lt_succ_of_le hu))))
    exact Finset.le_sup (f := fun i => (run.cluster.node u i).commitIndex) (Finset.mem_univ i)
  · obtain ⟨u, hu, hk⟩ := Finset.lt_sup_iff.mp hk
    obtain ⟨i, _, hk⟩ := Finset.lt_sup_iff.mp hk
    exact ⟨u, Nat.le_of_lt_succ (Finset.mem_range.mp hu), i, hk⟩

/-- The number of `Put`s on the key that have succeeded. -/
def putCount (key : String) (cmds : List (Option (Op n Request))) : Nat :=
  Store.successes key ∅ (StateMachine.requests cmds)

theorem putCount_take_le (key : String) (cmds : List (Option (Op n Request))) (k : Nat) :
    putCount key (cmds.take k) ≤ putCount key cmds := by
  conv_rhs => rw [← List.take_append_drop k cmds]
  unfold putCount StateMachine.requests
  rw [List.filterMap_append, Store.successes_append]
  exact Nat.le_add_right _ _

/-- A `Put` succeeds if its version is the number of those before it. -/
theorem FewPuts.put_ok_iff {run : ClientRun n} {key : String} (h : FewPuts run key)
    {cmds : List (Option (Op n Request))} (hcmds : CommittedCmds run.system.cluster cmds)
    (value : String) (version : UInt64) :
    (Store.doOp (Store.machine.stateAfter cmds) (.put key value version)).2 = .put .ok ↔
      putCount key cmds = version.toNat := by
  have hversion := Store.version_replay key (StateMachine.requests cmds)
  have hlt := h cmds hcmds
  rw [Nat.mod_eq_of_lt (by omega)] at hversion
  rw [Store.doOp_put_ok_iff_stateOf, ← UInt64.toNat_inj]
  exact Eq.congr_left hversion

/-! ## Where the operations of a call are executed -/

/-- The call `call` of `Submit`, an attempt of `o`, is executed at place `k`. -/
def Executed (run : ClerkRun n) (o : ClerkCall) (call k : Nat) (reply : Reply) : Prop :=
  ∃ t c, (run.state t).Owns o call ∧ (run.state t).calls[call]? = some c ∧
    ExecutesAt Store.machine run.clients.system.cluster (k + 1) c.op reply

/-- A `Put` takes effect at place `k`. -/
def Effective (run : ClerkRun n) (o : ClerkCall) (k : Nat) : Prop :=
  ∃ call, Executed run o call k (.put .ok)

section Executed

variable {run : ClerkRun n} {o o' : ClerkCall} {call call' j k t : Nat} {reply reply' : Reply}
  {v : CallView n}

theorem ClerkRun.view_request (run : ClerkRun n) {t u : Nat} {o : ClerkCall} {v w : CallView n}
    (hv : (run.state t).view o = some v) (hw : (run.state u).view o = some w) :
    w.request = v.request := by
  obtain ⟨v', hv', hle⟩ := run.view_le (Nat.le_max_left t u) hv
  obtain ⟨w', hw', hle'⟩ := run.view_le (Nat.le_max_right t u) hw
  cases hv'.symm.trans hw'
  exact hle'.request.symm.trans hle.request

/-- The operation in the log. -/
theorem Executed.log (h : Executed run o call k reply) (hv : (run.state t).view o = some v) :
    ∃ cmds op, CommittedCmds run.clients.system.cluster (cmds ++ [some op]) ∧ cmds.length = k ∧
      op.req = v.request ∧ (Store.doOp (Store.machine.stateAfter cmds) v.request).2 = reply := by
  obtain ⟨u, c, ⟨w, hw, hmade⟩, hc, cmds, hcmds, hlen, hreply⟩ := h
  obtain ⟨c', hc', hreq⟩ := run.owned u hw hmade
  cases hc.symm.trans hc'
  have hsame : c.op.req = v.request := hreq.trans (run.view_request hv hw)
  refine ⟨cmds, c.op, hcmds, by omega, hsame, ?_⟩
  rw [hreply, hsame]
  rfl

/-- A place is reached after the call was made. -/
theorem Executed.called (hids : DistinctIds run.clients.system) (h : Executed run o call k reply)
    (hreach : Reached run.clients.system t (k + 1)) : run.Called t o := by
  obtain ⟨u, c, howns, hc, cmds, hcmds, hlen, _⟩ := h
  obtain ⟨e, he, hcmd⟩ := hcmds.last
  rw [hlen] at he
  obtain ⟨_, c', hc', _⟩ := hids.unique.origin Store.lawful hc he hcmd rfl hreach
  intro hnone
  have hlt := (List.getElem?_eq_some_iff.mp hc').1
  exact absurd (run.owned_after hnone howns) (Nat.not_le_of_lt hlt)

/-- An attempt is executed at one place. -/
theorem Executed.place_eq (hids : DistinctIds run.clients.system)
    (h : Executed run o call j reply) (h' : Executed run o' call k reply') : j = k := by
  obtain ⟨t, c, _, hc, cmds, hcmds, hlen, _⟩ := h
  obtain ⟨u, c', _, hc', cmds', hcmds', hlen', _⟩ := h'
  obtain ⟨e, he, hcmd⟩ := hcmds.last
  obtain ⟨e', he', hcmd'⟩ := hcmds'.last
  rw [hlen] at he
  rw [hlen'] at he'
  obtain ⟨_, w, hreach⟩ := reached_of_commits he
  obtain ⟨_, d, hd, hop, hstarted⟩ := hids.unique.origin Store.lawful hc he hcmd rfl hreach
  obtain ⟨x, hx, hle⟩ := run.clients.system.calls_le (Nat.le_max_left w u) call d hd
  obtain ⟨y, hy, hle'⟩ := run.clients.system.calls_le (Nat.le_max_right w u) call c' hc'
  cases hx.symm.trans hy
  have hindex := hids.index_eq Store.lawful hd hstarted he' (by rw [hcmd', ← hle'.op, hle.op])
  omega

/-- At one place there is one attempt, with one result. -/
theorem Executed.call_eq (hids : DistinctIds run.clients.system)
    (h : Executed run o call k reply) (h' : Executed run o' call' k reply') :
    o = o' ∧ call = call' ∧ reply = reply' := by
  obtain ⟨t, c, howns, hc, hexec⟩ := h
  obtain ⟨u, c', howns', hc', hexec'⟩ := h'
  have hop := hexec.op_eq hexec'
  obtain ⟨d, hd, hle⟩ := run.clients.system.calls_le (Nat.le_max_left t u) call c hc
  obtain ⟨d', hd', hle'⟩ := run.clients.system.calls_le (Nat.le_max_right t u) call' c' hc'
  have hcall : call = call' := hids.inj hd hd'
    (congrArg Op.id (hle.op.trans (hop.trans hle'.op.symm)))
  subst hcall
  rw [← hop] at hexec'
  exact ⟨run.owner_unique _ (run.owns_mono (Nat.le_max_right t u) howns')
    (run.owns_mono (Nat.le_max_left t u) howns), rfl, hexec.val_eq hexec'⟩

/-- A call that has returned was executed. -/
theorem ClerkRun.executed_of_answered (hids : DistinctIds run.clients.system)
    (hv : (run.state t).view o = some v) {out : KvOutput} {c : Call n Request Reply}
    (h : Answered (run.state t).calls v out call c reply) :
    ∃ k, Executed run o call k reply ∧ Reached run.clients.system t (k + 1) := by
  obtain ⟨attempt, hlast, hcall, hc, hanswer, _⟩ := h
  obtain ⟨index, _, r, hr, _, hexec, hreach⟩ :=
    (SystemRun.resultsOk Store.lawful hids t).returned hc hanswer
  cases hr
  obtain ⟨cmds, _, rfl, _⟩ := id hexec
  exact ⟨cmds.length, ⟨t, c, ⟨v, hv, attempt, List.mem_of_getLast? hlast, hcall⟩, hc, hexec⟩,
    hreach⟩

/-- A `Put` that succeeds in the log is that of a call, which takes effect there. -/
theorem ClerkRun.exists_effective (run : ClerkRun n) {cmds : List (Option (Op n Request))}
    {op : Op n Request} {key : String}
    (hcmds : CommittedCmds run.clients.system.cluster (cmds ++ [some op]))
    (hreach : Reached run.clients.system t (cmds.length + 1))
    (hsucceeds : Store.succeeds key (Store.machine.stateAfter cmds) op.req = true) :
    ∃ o v, (run.state t).view o = some v ∧ op.req = v.request ∧ Effective run o cmds.length := by
  obtain ⟨e, he, hcmd⟩ := hcmds.last
  obtain ⟨call, c, hc, hop, _⟩ := run.clients.system.origin Store.lawful hreach he
  cases hcmd.symm.trans hop
  obtain ⟨o, v, hv, hmade⟩ := run.owner t (List.getElem?_eq_some_iff.mp hc).1
  obtain ⟨c', hc', hreq⟩ := run.owned t hv hmade
  cases hc.symm.trans hc'
  exact ⟨o, v, hv, hreq, call, t, c, ⟨v, hv, hmade⟩, hc, cmds, hcmds, rfl,
    (Store.succeeds_inv hsucceeds).2.symm⟩

/-- What takes effect is a `Put`. -/
theorem Effective.request (h : Effective run o k) (hv : (run.state t).view o = some v) :
    ∃ key value version, v.request = .put key value version := by
  obtain ⟨call, h⟩ := h
  obtain ⟨cmds, op, _, _, _, hreply⟩ := h.log hv
  cases hreq : v.request with
  | put key value version => exact ⟨key, value, version, rfl⟩
  | get key =>
    rw [hreq] at hreply
    exact absurd hreply (Store.doOp_get_ne _ _ _)
  | other =>
    rw [hreq] at hreply
    cases hreply

/-- A `Put` takes effect once. -/
theorem Effective.place_eq (hfew : ∀ key, FewPuts run.clients key) (h : Effective run o j)
    (h' : Effective run o k) : j = k := by
  obtain ⟨_, t, c, ⟨v, hv, hmade⟩, hc, hexec⟩ := id h
  obtain ⟨_, u, c', ⟨w, hw, hmade'⟩, hc', hexec'⟩ := id h'
  obtain ⟨key, value, version, hreq⟩ := h.request hv
  obtain ⟨d, hd, hdreq⟩ := run.owned t hv hmade
  obtain ⟨d', hd', hdreq'⟩ := run.owned u hw hmade'
  cases hc.symm.trans hd
  cases hc'.symm.trans hd'
  have hop : c.op.req = .put key value version := hdreq.trans hreq
  have hop' : c'.op.req = .put key value version :=
    hdreq'.trans ((run.view_request hv hw).trans hreq)
  have h1 := (hfew key).index_le hexec hop hexec' hop'
  have h2 := (hfew key).index_le hexec' hop' hexec hop
  omega

/-- A `Put` that has taken effect does not return `ErrVersion`. -/
theorem Effective.output_ne (htrue : TruthfulVersionError run.clients) (h : Effective run o k)
    (hv : (run.state t).view o = some v) : v.output ≠ some (Reply.put .errVersion).output := by
  intro hout
  obtain ⟨key, value, version, hreq⟩ := h.request hv
  cases o with
  | get get =>
    obtain ⟨g, _, rfl⟩ := Option.map_eq_some_iff.mp hv
    cases hreq
  | put put =>
    obtain ⟨p, hp, rfl⟩ := Option.map_eq_some_iff.mp hv
    have hresult : p.result = some .errVersion := by
      obtain ⟨err, herr, hstring⟩ := Option.map_eq_some_iff.mp hout
      rw [herr]
      cases err <;> first | rfl | simp [Reply.output, Err.string] at hstring
    obtain ⟨call, u, c, ⟨w, hw, attempt, hmem, hcall⟩, hc, hexec⟩ := h
    obtain ⟨q, hq, rfl⟩ := Option.map_eq_some_iff.mp hw
    exact htrue t put p hp hresult ⟨u, q, attempt, call, c, k + 1, hq, hmem, hcall, hc, hexec⟩

/-- There is a moment at which a call is made. -/
theorem ClerkRun.exists_call (h : run.Called t o) :
    ∃ u, ¬ run.Called u o ∧ run.Called (u + 1) o := by
  induction t with
  | zero =>
    refine absurd ?_ h
    rw [run.start]
    cases o <;> rfl
  | succ t ih =>
    by_cases ht : run.Called t o
    · exact ih ht
    · exact ⟨t, ht, h⟩

/-- When a `Put` is made, its version has been reached. -/
theorem ReadsVersions.exists_cmds (hreads : ReadsVersions run)
    (hids : DistinctIds run.clients.system) {put u : Nat} {p : PutCall n}
    (hnone : (run.state u).clients.puts[put]? = none)
    (hp : (run.state (u + 1)).clients.puts[put]? = some p) :
    ∃ cmds, CommittedCmds run.clients.system.cluster cmds ∧
      (cmds = [] ∨ Reached run.clients.system u cmds.length) ∧
      p.version.toNat ≤ putCount p.key cmds := by
  rcases hreads u put p hnone hp with hzero | ⟨g, hmem, hkey, value, hresult⟩
  · refine ⟨[], .nil, Or.inl rfl, ?_⟩
    rw [hzero]
    exact Nat.zero_le _
  · obtain ⟨get, hget⟩ := List.mem_iff_getElem?.mp hmem
    have hv : (run.state u).view (.get get) = some g.view :=
      Option.map_eq_some_iff.mpr ⟨g, hget, rfl⟩
    have hout : g.view.output = some ⟨value, p.version, Err.ok.string⟩ := by
      rw [GetCall.view, hresult, Option.map_some]
    obtain ⟨call, c, reply, hanswered⟩ := run.answered hv hout
    obtain ⟨k, hexecuted, hreach⟩ := ClerkRun.executed_of_answered hids hv hanswered
    obtain ⟨cmds, op, hcmds, rfl, _, hreply⟩ := hexecuted.log hv
    refine ⟨cmds, hcmds.of_concat, Or.inr (hreach.le (Nat.le_succ _)), ?_⟩
    -- The version that the `Get` returned is that of the key after `cmds`.
    obtain ⟨_, _, _, _, _, hshown⟩ := hanswered
    have hversion := Store.output_get (Store.machine.stateAfter cmds) p.key
    rw [show g.view.request = .get p.key from congrArg Request.get hkey] at hreply
    rcases hshown with heq | ⟨rfl, heq⟩
    · rw [hreply, ← heq] at hversion
      have hcount : ((Store.machine.stateAfter cmds).stateOf p.key).version.toNat = _ :=
        Store.version_replay p.key (StateMachine.requests cmds)
      rw [← hversion] at hcount
      exact hcount.le.trans (Nat.mod_le _ _)
    · exact absurd hreply (Store.doOp_get_ne _ _ _)

/-- An attempt of a `Put` that fails comes after the one that takes effect. -/
theorem Effective.lt (hids : DistinctIds run.clients.system)
    (hfew : ∀ key, FewPuts run.clients key) (hreads : ReadsVersions run)
    (h : Effective run o k) (hexecuted : Executed run o call j (.put .errVersion)) : k < j := by
  obtain ⟨call', heffect⟩ := id h
  obtain ⟨t, _, ⟨v, hv, _⟩, _⟩ := id heffect
  cases o with
  | get get =>
    obtain ⟨_, _, _, hreq⟩ := h.request hv
    obtain ⟨g, _, rfl⟩ := Option.map_eq_some_iff.mp hv
    cases hreq
  | put put =>
    obtain ⟨u, hnone, hcalled⟩ := ClerkRun.exists_call (t := t) (o := .put put)
      (by rw [ClerkRun.Called, hv]; exact Option.some_ne_none _)
    obtain ⟨w, hw⟩ := Option.ne_none_iff_exists'.mp hcalled
    obtain ⟨p, hp, rfl⟩ := Option.map_eq_some_iff.mp hw
    have hnone' : (run.state u).clients.puts[put]? = none :=
      Option.map_eq_none_iff.mp (not_not.mp hnone)
    obtain ⟨known, hknown, hreach, hversion⟩ := hreads.exists_cmds hids hnone' hp
    obtain ⟨cmds, op, hcmds, rfl, hop, hok⟩ := heffect.log hw
    obtain ⟨cmds', op', hcmds', rfl, hop', herr⟩ := hexecuted.log hw
    -- What was known comes before every operation of the call.
    have hbefore : known.length ≤ cmds'.length := by
      rcases hreach with rfl | hreach
      · exact Nat.zero_le _
      · by_contra hlt
        exact hnone (hexecuted.called hids (hreach.le (by omega)))
    by_contra hge
    have h1 : putCount p.key known ≤ putCount p.key cmds' := by
      rw [hknown.eq_take hcmds'.of_concat hbefore]
      exact putCount_take_le ..
    have h2 : putCount p.key cmds' ≤ putCount p.key cmds := by
      rw [hcmds'.of_concat.eq_take hcmds.of_concat (Nat.le_of_not_lt hge)]
      exact putCount_take_le ..
    have h3 := ((hfew p.key).put_ok_iff hcmds.of_concat _ _).mp hok
    have hsucceeds := ((hfew p.key).put_ok_iff hcmds'.of_concat p.value p.version).mpr
      (by omega)
    cases hsucceeds.symm.trans herr

/-- Once a `Put` has returned, it does not take effect any more. -/
theorem Effective.reached (hids : DistinctIds run.clients.system)
    (hfew : ∀ key, FewPuts run.clients key) (hreads : ReadsVersions run) (h : Effective run o k)
    (hret : run.Returned t o) : Reached run.clients.system t (k + 1) := by
  obtain ⟨v, hv, hne⟩ := hret
  obtain ⟨out, hout⟩ := Option.ne_none_iff_exists'.mp hne
  obtain ⟨call, c, reply, hanswered⟩ := run.answered hv hout
  obtain ⟨j, hexecuted, hreach⟩ := ClerkRun.executed_of_answered hids hv hanswered
  obtain ⟨key, value, version, hreq⟩ := h.request hv
  obtain ⟨cmds, _, _, _, _, hreply⟩ := hexecuted.log hv
  rw [hreq] at hreply
  rcases Store.doOp_put (Store.machine.stateAfter cmds) key value version with hok | herr
  · cases hok.symm.trans hreply
    cases Effective.place_eq hfew h ⟨call, hexecuted⟩
    exact hreach
  · cases herr.symm.trans hreply
    have := h.lt hids hfew hreads hexecuted
    exact hreach.le (by omega)

end Executed

/-! ## The points -/

/-- The point of a call: where it takes effect, and otherwise where the operation
was executed whose result it has returned. -/
def Point (run : ClerkRun n) (T : Nat) (o : ClerkCall) (k : Nat) : Prop :=
  Reached run.clients.system T (k + 1) ∧ (Effective run o k ∨ (∀ j, ¬ Effective run o j) ∧
    ∃ v out call c reply, (run.state T).view o = some v ∧ v.output = some out ∧
      Answered (run.state T).calls v out call c reply ∧ Executed run o call k reply)

section Point

variable {run : ClerkRun n} {T t : Nat} {o : ClerkCall} {k : Nat}

theorem Point.executed (h : Point run T o k) : ∃ call reply, Executed run o call k reply := by
  rcases h.2 with ⟨call, h⟩ | ⟨_, _, _, call, _, reply, _, _, _, h⟩
  · exact ⟨call, _, h⟩
  · exact ⟨call, reply, h⟩

/-- The last attempt was answered once. -/
theorem Answered.eq {calls : List (Call n Request Reply)} {v : CallView n}
    {out out' : KvOutput} {call call' : Nat} {c c' : Call n Request Reply} {reply reply' : Reply}
    (h : Answered calls v out call c reply) (h' : Answered calls v out' call' c' reply') :
    call = call' := by
  obtain ⟨attempt, hlast, hcall, _⟩ := h
  obtain ⟨attempt', hlast', hcall', _⟩ := h'
  cases hlast.symm.trans hlast'
  exact Option.some.inj (hcall.symm.trans hcall')

theorem points (hids : DistinctIds run.clients.system) (hfew : ∀ key, FewPuts run.clients key) :
    Points (Point run T) where
  place := by
    rintro o j k ⟨_, heff | ⟨hnot, v, out, call, c, reply, hv, _, hans, hexec⟩⟩
      ⟨_, heff' | ⟨hnot', v', out', call', c', reply', hv', _, hans', hexec'⟩⟩
    · exact heff.place_eq hfew heff'
    · exact absurd heff (hnot' _)
    · exact absurd heff' (hnot _)
    · cases hv.symm.trans hv'
      cases hans.eq hans'
      exact hexec.place_eq hids hexec'
  call := by
    intro o o' k h h'
    obtain ⟨call, reply, h⟩ := h.executed
    obtain ⟨call', reply', h'⟩ := h'.executed
    exact (h.call_eq hids h').1

theorem Point.called (hids : DistinctIds run.clients.system) (h : Point run T o k)
    (hreach : Reached run.clients.system t (k + 1)) : run.Called t o := by
  obtain ⟨_, _, hexecuted⟩ := h.executed
  exact hexecuted.called hids hreach

theorem Point.reached (hids : DistinctIds run.clients.system)
    (hfew : ∀ key, FewPuts run.clients key) (hreads : ReadsVersions run) (h : Point run T o k)
    (hret : run.Returned t o) : Reached run.clients.system t (k + 1) := by
  rcases Nat.le_total T t with hle | hle
  · exact h.1.mono hle
  rcases h.2 with heff | ⟨_, w, _, call, c, reply, hw, _, hans, hexecuted⟩
  · exact heff.reached hids hfew hreads hret
  · -- The call had its last answer at `t` already.
    obtain ⟨v, hv, hne⟩ := hret
    obtain ⟨out, hout⟩ := Option.ne_none_iff_exists'.mp hne
    obtain ⟨call', c', reply', hans'⟩ := run.answered hv hout
    obtain ⟨j, hexecuted', hreach⟩ := ClerkRun.executed_of_answered hids hv hans'
    obtain ⟨v', hv', hvle⟩ := run.view_le hle hv
    cases hw.symm.trans hv'
    cases hans.eq (hans'.mono (run.calls_le hle) hne hvle)
    cases hexecuted.place_eq hids hexecuted'
    exact hreach

/-- A call that has returned has a point. -/
theorem ClerkRun.exists_point (hids : DistinctIds run.clients.system)
    (hfew : ∀ key, FewPuts run.clients key) (hreads : ReadsVersions run)
    (hret : run.Returned T o) : ∃ k, Point run T o k := by
  by_cases heff : ∃ k, Effective run o k
  · obtain ⟨k, heff⟩ := heff
    exact ⟨k, heff.reached hids hfew hreads hret, Or.inl heff⟩
  · obtain ⟨v, hv, hne⟩ := hret
    obtain ⟨out, hout⟩ := Option.ne_none_iff_exists'.mp hne
    obtain ⟨call, c, reply, hans⟩ := run.answered hv hout
    obtain ⟨k, hexecuted, hreach⟩ := executed_of_answered hids hv hans
    exact ⟨k, hreach, Or.inr ⟨fun j hj => heff ⟨j, hj⟩, v, out, call, c, reply, hv, hout, hans,
      hexecuted⟩⟩

/-- At its point a call has the result that is recorded, or one for which the
clerk says `ErrMaybe`. -/
theorem Point.shown (hids : DistinctIds run.clients.system)
    (htrue : TruthfulVersionError run.clients) (h : Point run T o k) :
    ∃ v call reply, (run.state T).view o = some v ∧ Executed run o call k reply ∧
      (v.output.getD (Reply.put .ok).output = reply.output ∨
        v.output.getD (Reply.put .ok).output = ⟨"", 0, Err.errMaybe.string⟩) := by
  rcases h.2 with heff | ⟨_, v, out, call, c, reply, hv, hout, hans, hexecuted⟩
  · obtain ⟨call, hexecuted⟩ := id heff
    obtain ⟨v, hv⟩ := Option.ne_none_iff_exists'.mp (h.called hids h.1)
    refine ⟨v, call, _, hv, hexecuted, ?_⟩
    cases hout : v.output with
    | none => exact Or.inl rfl
    | some out =>
      obtain ⟨call', c, reply, hans⟩ := run.answered hv hout
      obtain ⟨j, hexecuted', _⟩ := ClerkRun.executed_of_answered hids hv hans
      obtain ⟨key, value, version, hreq⟩ := heff.request hv
      obtain ⟨cmds, _, _, _, _, hreply⟩ := hexecuted'.log hv
      obtain ⟨_, _, _, _, _, hshown⟩ := hans
      rw [hreq] at hreply
      rcases hshown with heq | ⟨_, heq⟩
      · refine Or.inl ?_
        rcases Store.doOp_put (Store.machine.stateAfter cmds) key value version with hok | herr
        · rw [Option.getD_some, heq, ← hreply, hok]
        · rw [herr] at hreply
          subst hreply
          exact absurd (hout.trans (congrArg some heq)) (heff.output_ne htrue hv)
      · exact Or.inr heq
  · refine ⟨v, call, reply, hv, hexecuted, ?_⟩
    obtain ⟨_, _, _, _, _, hshown⟩ := hans
    rw [hout, Option.getD_some]
    exact hshown.imp_right And.right

/-- Where no call has its point, the key does not change. -/
theorem lookup_of_no_point {cmds : List (Option (Op n Request))} {cmd : Option (Op n Request)}
    (hcmds : CommittedCmds run.clients.system.cluster (cmds ++ [cmd]))
    (hreach : Reached run.clients.system T (cmds.length + 1))
    (hnone : ∀ o, ¬ Point run T o cmds.length) (key : String) :
    (Store.machine.stateAfter (cmds ++ [cmd])).lookup key =
      (Store.machine.stateAfter cmds).lookup key := by
  cases cmd with
  | none => rw [StateMachine.stateAfter_concat_none]
  | some op =>
    rw [StateMachine.stateAfter_concat_some]
    refine Store.lookup_doOp_of_not_succeeds ?_
    by_contra hsucceeds
    -- The call whose operation this is would have its point here.
    obtain ⟨o, _, _, _, heffective⟩ :=
      run.exists_effective hcmds hreach (Bool.eq_true_of_not_eq_false hsucceeds)
    exact hnone o ⟨hreach, Or.inl heffective⟩

/-- A call has an operation. -/
theorem Clerks.operation_of_view {s : Clerks n} {v : CallView n} (hv : s.view o = some v) :
    ∃ input, v.request.input? = some input ∧
      s.operation o = some ⟨input, v.output.getD (Reply.put .ok).output⟩ := by
  obtain ⟨input, hinput⟩ : ∃ input, v.request.input? = some input := by
    cases o with
    | put put =>
      obtain ⟨p, _, rfl⟩ := Option.map_eq_some_iff.mp hv
      exact ⟨_, rfl⟩
    | get get =>
      obtain ⟨g, _, rfl⟩ := Option.map_eq_some_iff.mp hv
      exact ⟨_, rfl⟩
  exact ⟨input, hinput, by rw [Clerks.operation, hv, Option.bind_some, CallView.operation, hinput,
    Option.map_some]⟩

/-- The oracle accepts the calls in the order of their points. -/
theorem run_pointOrder (hids : DistinctIds run.clients.system)
    (htrue : TruthfulVersionError run.clients) {cmds : List (Option (Op n Request))}
    (hcmds : CommittedCmds run.clients.system.cluster cmds)
    (hreach : ∀ k < cmds.length, Reached run.clients.system T (k + 1)) (key : String) :
    KvModel.run KvModel.init (ofKey key
      ((pointOrder (Point run T) cmds.length).filterMap (run.state T).operation)) =
      some ((Store.machine.stateAfter cmds).stateOf key) := by
  have hsplit : ∀ k < cmds.length, ∃ cmd, cmds.take (k + 1) = cmds.take k ++ [cmd] :=
    fun k hk => ⟨cmds[k], List.take_succ_eq_append_getElem hk⟩
  rw [KvModel.run_ofKey, List.foldlM_filterMap]
  refine (foldlM_pointOrder (fun k => (Store.machine.stateAfter (cmds.take k)).stateOf key)
    ?_ ?_).trans (by rw [List.take_length])
  · intro k hk hnone
    obtain ⟨cmd, hcmd⟩ := hsplit k hk
    have hlen : (cmds.take k).length = k := List.length_take_of_le (Nat.le_of_lt hk)
    have hpre := hcmds.take (k + 1)
    rw [hcmd] at hpre ⊢
    exact Store.stateOf_eq_of_lookup (lookup_of_no_point hpre (by rw [hlen]; exact hreach k hk)
      (by rw [hlen]; exact hnone) key)
  · intro k hk o hpoint
    obtain ⟨cmd, hcmd⟩ := hsplit k hk
    have hpre := hcmds.take (k + 1)
    obtain ⟨v, call, reply, hv, hexecuted, hshown⟩ := hpoint.shown hids htrue
    obtain ⟨before, op, hbefore, hlen, hop, hreply⟩ := hexecuted.log hv
    obtain ⟨input, hinput, hoperation⟩ := Clerks.operation_of_view hv
    have heq := hpre.eq_of_length hbefore (by simp; omega)
    rw [hcmd] at heq
    obtain ⟨hfront, hlast⟩ := List.append_inj' heq rfl
    cases hlast
    show _ = some ((Store.machine.stateAfter (cmds.take (k + 1))).stateOf key)
    rw [hoperation, hcmd, hfront, StateMachine.stateAfter_concat_some, hop]
    exact Store.accept_shown hinput (by rw [hreply]; exact hshown)

end Point

/-- The calls of the clerks are linearizable. -/
theorem clerks_linearizable (run : ClerkRun n) (hids : DistinctIds run.clients.system)
    (htrue : TruthfulVersionError run.clients) (hfew : ∀ key, FewPuts run.clients key)
    (hreads : ReadsVersions run) (T : Nat) :
    ∃ lin, Linearizes run T lin := by
  obtain ⟨K, hle, hreach⟩ := exists_last_reached run.clients.system T
  have hpoints : Points (Point run T) := points hids hfew
  obtain ⟨cmds, hcmds, rfl⟩ : ∃ cmds, CommittedCmds run.clients.system.cluster cmds ∧
      cmds.length = K := by
    cases K with
    | zero => exact ⟨[], .nil, rfl⟩
    | succ K => exact run.clients.system.exists_cmds Store.lawful (hreach K (Nat.lt_succ_self K))
  refine ⟨pointOrder (Point run T) cmds.length, hpoints.nodup_pointOrder _, fun o ho => ?_,
    fun o ho => ?_, ?_, fun part hpart => ?_⟩
  · obtain ⟨k, _, hpoint⟩ := hpoints.mem_pointOrder.mp ho
    refine ⟨hpoint.called hids hpoint.1, ?_⟩
    rcases hpoint.2 with heff | ⟨_, v, out, _, _, _, hv, hout, _, _⟩
    · obtain ⟨v, hv⟩ := Option.ne_none_iff_exists'.mp (hpoint.called hids hpoint.1)
      obtain ⟨key, value, version, hreq⟩ := heff.request hv
      cases o with
      | put put => exact Or.inr ⟨put, rfl⟩
      | get get =>
        obtain ⟨g, _, rfl⟩ := Option.map_eq_some_iff.mp hv
        cases hreq
    · exact Or.inl ⟨v, hv, by rw [hout]; exact Option.some_ne_none _⟩
  · obtain ⟨k, hpoint⟩ := ClerkRun.exists_point hids hfew hreads ho
    exact hpoints.mem_pointOrder.mpr ⟨k, hle _ hpoint.1, hpoint⟩
  · exact pointOrder_realTime (fun t k => Reached run.clients.system t (k + 1))
      (fun hjk h => h.le (by omega)) (fun h hret => h.reached hids hfew hreads hret)
      (fun h hreach => h.called hids hreach) _
  · rw [KvModel.partition_eq] at hpart
    obtain ⟨key, _, rfl⟩ := List.mem_map.mp hpart
    rw [run_pointOrder hids htrue hcmds hreach key]
    rfl

/-- Events of the system. -/
def systemEvents (es : List (SystemEvent 3 Request Store)) : List (ClerkEvent 3) :=
  es.map fun e => .clients (.system e)

/-- The reader of node `i` executes the next command, and sends the result if a call
waits for it. -/
def readEvents (i : Fin 3) (waits : Bool) : List (ClerkEvent 3) :=
  systemEvents ([.receive i, .lockCommand i, .doOp i, .notifyPending i] ++
    (if waits then [.send i] else []) ++
    [.notifyOutdated i, .endOutdated i, .checkSnapshot i false])

/-- Node 0 is the leader.  It logs the first attempt of a `Put`, and the clerk
gives up on it.  The fourth attempt comes to node 0 again, and is logged behind
the first one, and so is a `Get`.  The `Put` returns `ErrMaybe`, and the `Get` returns
what it has written.

Another `Put` is made with the version that the `Get` has read.  Node 0 logs it, and
the timer of `Submit` fires, so that the clerk gets `ErrWrongLeader`.  Node 1 becomes
the leader, and executes the second attempt in place of the first one. -/
def maybeEvents : List (ClerkEvent 3) :=
  [.clients (.put node0 "k" "v" 0)] ++
  systemEvents [.raft (.electionTimeout node0), .raft (.deliver 0),
    .raft (.handleReply 0 (.requestVote ⟨0, true⟩))] ++
  [.clients (.handle 0 0 1), .clients (.system (.register 0)), .clients (.fail 0),
    .clients (.fail 0), .clients (.fail 0), .clients (.handle 0 3 2),
    .clients (.system (.register 1)), .get node0 "k", .handleGet 0 0 3] ++
  systemEvents [.register 2, .raft (.replicate node0 node1), .raft (.deliver 2),
    .raft (.handleReply 2 (.appendEntries ⟨1, true, 0, some 0⟩)), .raft (.applierTake node0)] ++
  readEvents node0 true ++ readEvents node0 true ++ readEvents node0 true ++
  [.clients (.system (.leave 1)), .clients (.respond 0), .clients (.system (.leave 2)),
    .respondGet 0] ++
  [.clients (.put node0 "k" "w" 1), .clients (.handle 1 0 4)] ++
  systemEvents [.register 3, .timeout 3, .dumpPending 3, .leave 3] ++ [.clients (.respond 1)] ++
  systemEvents [.raft (.electionTimeout node1), .raft (.deliver 4),
    .raft (.handleReply 4 (.requestVote ⟨0, true⟩))] ++ [.clients (.handle 1 1 5)] ++
  systemEvents [.register 4, .raft (.replicate node1 node0), .raft (.deliver 5),
    .raft (.handleReply 5 (.appendEntries ⟨1, true, 0, some 0⟩)), .raft (.applierTake node1)] ++
  readEvents node1 false ++ readEvents node1 false ++ readEvents node1 false ++
  readEvents node1 true ++ [.clients (.system (.leave 4)), .clients (.respond 1)]

/-- The run of these events. -/
def maybeRun : ClerkRun 3 := Run.ofEvents Clerks.init Clerks.exec maybeEvents

theorem maybeRun_state {t : Nat} (h : 93 ≤ t) : maybeRun.state t = maybeRun.state 93 :=
  Run.ofEvents_state_of_le _ _ maybeEvents h

theorem maybeRun_clients {t : Nat} (h : 93 ≤ t) :
    maybeRun.clients.state t = maybeRun.clients.state 93 := by
  rw [ClerkRun.clients_state, ClerkRun.clients_state, maybeRun_state h]

theorem maybeRun_distinctIds : DistinctIds maybeRun.clients.system := by
  have hstop : ∀ t, 93 ≤ t →
      maybeRun.clients.system.state t = maybeRun.clients.system.state 93 := by
    intro t h
    rw [ClientRun.system_state, ClientRun.system_state, maybeRun_clients h]
  exact .of_final hstop (by decide +kernel) (by decide +kernel)

theorem maybeRun_readsVersions : ReadsVersions maybeRun := by
  intro t put p hnone hp
  obtain ⟨p', hp', _⟩ := maybeRun.clients.puts_le (Nat.le_max_left (t + 1) 93) hp
  rw [maybeRun_clients (Nat.le_max_right (t + 1) 93)] at hp'
  have hall : (maybeRun.clients.state 93).puts.map PutCall.request =
      [.put "k" "v" 0, .put "k" "w" 1] := by decide +kernel
  have hreq : [Request.put "k" "v" 0, .put "k" "w" 1][put]? = some p.request := by
    rw [← hall, List.getElem?_map, hp', Option.map_some, maybeRun.clients.request_eq hp hp']
  have hlt : put < 2 := (List.getElem?_eq_some_iff.mp hreq).1
  obtain rfl | rfl : put = 0 ∨ put = 1 := by omega
  · exact Or.inl (Request.put.inj (Option.some.inj hreq)).2.2.symm
  · -- The second `Put` is made by the last event.
    obtain ⟨hkey, _, hversion⟩ := Request.put.inj (Option.some.inj hreq)
    have ht : t = 46 := by
      rcases Nat.lt_trichotomy t 46 with hlt | heq | hgt
      · obtain ⟨q, hq, _⟩ := maybeRun.clients.puts_le (Nat.succ_le_of_lt hlt) hp
        have hnot : (maybeRun.clients.state 46).puts[1]? = none := by decide +kernel
        rw [hnot] at hq
        cases hq
      · exact heq
      · have hmade : (maybeRun.clients.state 47).puts[1]? ≠ none := by decide +kernel
        obtain ⟨q, hq⟩ := Option.ne_none_iff_exists'.mp hmade
        obtain ⟨q', hq', _⟩ := maybeRun.clients.puts_le (show 47 ≤ t from hgt) hq
        cases hq'.symm.trans hnone
    obtain ⟨g, hg, hgkey, hresult⟩ : ∃ g ∈ (maybeRun.state 46).gets, g.key = "k" ∧
        g.result = some ("v", 1, .ok) := by decide +kernel
    rw [ht, ← hkey, ← hversion]
    exact Or.inr ⟨g, hg, hgkey, "v", hresult⟩

/-- A `Put` returns `ErrMaybe` and a `Get` reads what it has written, a `Submit` that
has logged its operation answers `ErrWrongLeader`, and the calls are linearizable. -/
theorem linearizable_maybeRun : (maybeRun.state 93).clients.puts.map PutCall.result =
    [some .errMaybe, some .ok] ∧ (maybeRun.state 93).gets.map GetCall.result =
    [some ("v", 1, .ok)] ∧ (∃ c ∈ (maybeRun.state 93).calls[3]?, c.started = some (4, 1) ∧
      c.answer = some (.wrongLeader (some node0))) ∧ ∀ T, ∃ lin, Linearizes maybeRun T lin :=
  ⟨by decide +kernel, by decide +kernel, by decide +kernel, clerks_linearizable maybeRun
    maybeRun_distinctIds (.of_final (fun _ => maybeRun_clients) (by decide +kernel))
    (.of_final (fun _ => maybeRun_clients) (by decide +kernel)) maybeRun_readsVersions⟩

end KvRaft
