import KvRaft.Service.Histories

/-!
# What a version tells

A version is the number of `Put`s that have succeeded on the key.  So a client that
has read a version knows which value was there, whatever it has seen of the others:

* two places in the log with equally many successes have the same value
  (`lookup_eq_of_putCount`);
* between two places there is a first `Put` that succeeds, unless nothing has changed
  (`exists_next_success`), and every value was written by one (`exists_write`);
* what a `Get` has returned was in the log (`exists_lookup_of_get`), and what succeeds
  in the log is the `Put` of a call (`exists_put_of_success`).

This is what a program needs that keeps a lock or a counter under a key.
-/

namespace KvRaft

open Consensus

variable {n : Nat}

/-! ## Values along the log -/

theorem putCount_concat (key : String) (cmds : List (Option (Op n Request))) (op : Op n Request) :
    putCount key (cmds ++ [some op]) = putCount key cmds +
      if Store.succeeds key (Store.machine.stateAfter cmds) op.req then 1 else 0 := by
  have hrequests : StateMachine.requests (cmds ++ [some op]) =
      StateMachine.requests cmds ++ [op.req] := by
    simp [StateMachine.requests]
  rw [putCount, hrequests, Store.successes_concat]
  rfl

theorem putCount_concat_none (key : String) (cmds : List (Option (Op n Request))) :
    putCount key (cmds ++ [none]) = putCount key cmds := by
  simp [putCount, StateMachine.requests]

/-- The first `Put` that succeeds after `cmds`, if there is one. -/
theorem exists_next_success (key : String) (cmds rest : List (Option (Op n Request))) :
    (putCount key (cmds ++ rest) = putCount key cmds ∧
      (Store.machine.stateAfter (cmds ++ rest)).lookup key =
        (Store.machine.stateAfter cmds).lookup key) ∨
    ∃ mid op, cmds ++ mid ++ [some op] <+: cmds ++ rest ∧
      putCount key (cmds ++ mid) = putCount key cmds ∧
      (Store.machine.stateAfter (cmds ++ mid)).lookup key =
        (Store.machine.stateAfter cmds).lookup key ∧
      Store.succeeds key (Store.machine.stateAfter (cmds ++ mid)) op.req = true := by
  induction rest using List.reverseRecOn with
  | nil => exact Or.inl (by rw [List.append_nil]; exact ⟨rfl, rfl⟩)
  | append_singleton rest cmd ih =>
    rw [← List.append_assoc]
    rcases ih with ⟨hcount, hlookup⟩ | ⟨mid, op, hpre, h⟩
    · cases cmd with
      | none =>
        rw [putCount_concat_none, StateMachine.stateAfter_concat_none]
        exact Or.inl ⟨hcount, hlookup⟩
      | some op =>
        cases hsucceeds : Store.succeeds key (Store.machine.stateAfter (cmds ++ rest)) op.req with
        | false =>
          rw [putCount_concat, hsucceeds, StateMachine.stateAfter_concat_some]
          exact Or.inl ⟨hcount, (Store.lookup_doOp_of_not_succeeds hsucceeds).trans hlookup⟩
        | true => exact Or.inr ⟨rest, op, List.prefix_rfl, hcount, hlookup, hsucceeds⟩
    · exact Or.inr ⟨mid, op, hpre.trans (List.prefix_append _ _), h⟩

theorem putCount_le_of_isPrefix (key : String) {cmds cmds' : List (Option (Op n Request))}
    (h : cmds <+: cmds') : putCount key cmds ≤ putCount key cmds' := by
  rw [List.prefix_iff_eq_take.mp h]
  exact putCount_take_le ..

/-- The number of `Put`s that have succeeded says what the value is. -/
theorem lookup_eq_of_putCount {cluster : ClusterRun n (Op n Request) Store} {key : String}
    {cmds cmds' : List (Option (Op n Request))} (hcmds : CommittedCmds cluster cmds)
    (hcmds' : CommittedCmds cluster cmds') (hcount : putCount key cmds = putCount key cmds') :
    (Store.machine.stateAfter cmds).lookup key = (Store.machine.stateAfter cmds').lookup key := by
  wlog hlen : cmds.length ≤ cmds'.length
  · exact (this hcmds' hcmds hcount.symm (Nat.le_of_not_le hlen)).symm
  have heq : cmds' = cmds ++ cmds'.drop cmds.length := by
    conv_lhs => rw [← List.take_append_drop cmds.length cmds']
    rw [← hcmds.eq_take hcmds' hlen]
  rcases exists_next_success key cmds (cmds'.drop cmds.length) with ⟨_, hlookup⟩ |
    ⟨mid, op, hpre, hmid, _, hsucceeds⟩
  · rw [heq, hlookup]
  · -- Otherwise there is one more.
    have hle := putCount_le_of_isPrefix key hpre
    rw [← heq, putCount_concat, hsucceeds, if_pos rfl] at hle
    omega

/-- A value was written by a `Put` that succeeded. -/
theorem exists_write {key : String} {cmds : List (Option (Op n Request))} {value : String}
    {version : UInt64}
    (h : (Store.machine.stateAfter cmds).lookup key = some (value, version)) :
    ∃ before op version', before ++ [some op] <+: cmds ∧ op.req = .put key value version' ∧
      Store.succeeds key (Store.machine.stateAfter before) op.req = true := by
  induction cmds using List.reverseRecOn with
  | nil => cases h
  | append_singleton cmds cmd ih =>
    have hold : (Store.machine.stateAfter cmds).lookup key = some (value, version) →
        ∃ before op version', before ++ [some op] <+: cmds ++ [cmd] ∧
          op.req = .put key value version' ∧
          Store.succeeds key (Store.machine.stateAfter before) op.req = true := by
      intro h
      obtain ⟨before, op, version', hpre, hwrite⟩ := ih h
      exact ⟨before, op, version', hpre.trans (List.prefix_append _ _), hwrite⟩
    cases cmd with
    | none => exact hold (by rwa [StateMachine.stateAfter_concat_none] at h)
    | some op =>
      rw [StateMachine.stateAfter_concat_some] at h
      cases hsucceeds : Store.succeeds key (Store.machine.stateAfter cmds) op.req with
      | false => exact hold ((Store.lookup_doOp_of_not_succeeds hsucceeds).symm.trans h)
      | true =>
        obtain ⟨⟨value', version', hreq⟩, hok⟩ := Store.succeeds_inv hsucceeds
        rw [hreq] at hok
        rw [hreq, Store.machine_doOp, Store.doOp_put_of_ok hok, Finmap.lookup_insert] at h
        cases h
        exact ⟨cmds, op, version', List.prefix_rfl, hreq, hsucceeds⟩

/-! ## What a call says about the log -/

section Runs

variable (run : ClerkRun n) {t : Nat}

/-- What a `Get` has returned was there. -/
theorem exists_lookup_of_get (hids : DistinctIds run.clients.system) {get : Nat} {g : GetCall n}
    (hg : (run.state t).gets[get]? = some g) {value : String} {version : UInt64} {err : Err}
    (hresult : g.result = some (value, version, err)) :
    ∃ cmds, CommittedCmds run.clients.system.cluster cmds ∧
      Reached run.clients.system t cmds.length ∧
      (err = .errNoKey ∨ err = .ok ∧
        (Store.machine.stateAfter cmds).lookup g.key = some (value, version)) := by
  have hv : (run.state t).view (.get get) = some g.view := Option.map_eq_some_iff.mpr ⟨g, hg, rfl⟩
  have hout : g.view.output = some ⟨value, version, err.string⟩ := by
    rw [GetCall.view, hresult, Option.map_some]
  obtain ⟨call, c, reply, hanswered⟩ := run.answered hv hout
  obtain ⟨k, hexecuted, hreach⟩ := ClerkRun.executed_of_answered hids hv hanswered
  obtain ⟨cmds, op, hcmds, rfl, _, hreply⟩ := hexecuted.log hv
  obtain ⟨_, _, _, _, _, hshown⟩ := hanswered
  refine ⟨cmds, hcmds.of_concat, hreach.le (Nat.le_succ _), ?_⟩
  rw [show g.view.request = .get g.key from rfl, Store.doOp] at hreply
  cases hlookup : (Store.machine.stateAfter cmds).lookup g.key with
  | none =>
    rw [hlookup] at hreply
    subst hreply
    rcases hshown with heq | ⟨heq, _⟩
    · refine Or.inl ?_
      cases err <;> first | rfl | simp [Reply.output, Err.string] at heq
    · cases heq
  | some entry =>
    rw [hlookup] at hreply
    subst hreply
    rcases hshown with heq | ⟨heq, _⟩
    · simp only [Reply.output, KvOutput.mk.injEq] at heq
      refine Or.inr ⟨?_, by rw [heq.1, heq.2.1]⟩
      cases err <;> first | rfl | simp [Err.string] at heq
    · cases heq

/-- A `Put` that has returned `OK` has taken effect. -/
theorem effective_of_ok (hids : DistinctIds run.clients.system) {put : Nat} {p : PutCall n}
    (hp : (run.state t).clients.puts[put]? = some p) (hresult : p.result = some .ok) :
    ∃ k, Effective run (.put put) k ∧ Reached run.clients.system t (k + 1) := by
  obtain ⟨attempt, hmem, call, c, hcall, hc, hanswer⟩ :=
    (run.clients.putSound t hp).answered hresult
  obtain ⟨index, _, r, hr, _, hexec, hreach⟩ :=
    (SystemRun.resultsOk Store.lawful hids t).returned hc hanswer
  cases hr
  obtain ⟨cmds, _, rfl, _⟩ := id hexec
  have hv : (run.state t).view (.put put) = some p.view := Option.map_eq_some_iff.mpr ⟨p, hp, rfl⟩
  exact ⟨cmds.length, ⟨call, t, c, ⟨p.view, hv, attempt, hmem, hcall⟩, hc, hexec⟩, hreach⟩

/-- A `Put` that succeeds in the log is that of a call. -/
theorem exists_put_of_success {cmds : List (Option (Op n Request))} {op : Op n Request}
    {key : String} (hcmds : CommittedCmds run.clients.system.cluster (cmds ++ [some op]))
    (hreach : Reached run.clients.system t (cmds.length + 1))
    (hsucceeds : Store.succeeds key (Store.machine.stateAfter cmds) op.req = true) :
    ∃ (put : Nat) (p : PutCall n) (value : String) (version : UInt64),
      (run.state t).clients.puts[put]? = some p ∧ p.request = .put key value version ∧
      op.req = .put key value version ∧
      (Store.doOp (Store.machine.stateAfter cmds) (.put key value version)).2 = .put .ok := by
  obtain ⟨o, v, hv, hreq, _⟩ := run.exists_effective hcmds hreach hsucceeds
  obtain ⟨⟨value, version, hput⟩, hok⟩ := Store.succeeds_inv hsucceeds
  cases o with
  | get get =>
    obtain ⟨g, _, rfl⟩ := Option.map_eq_some_iff.mp hv
    cases hreq.symm.trans hput
  | put put =>
    obtain ⟨p, hp, rfl⟩ := Option.map_eq_some_iff.mp hv
    exact ⟨put, p, value, version, hp, hreq.symm.trans hput, hput, hput ▸ hok⟩

end Runs

/-! ## Calls over time -/

/-- A later state of the same calls. -/
structure ClerksLe (s s' : Clerks n) : Prop where
  gets : ∀ {get : Nat} {g : GetCall n}, s.gets[get]? = some g → ∃ g' : GetCall n,
    s'.gets[get]? = some g' ∧ g'.key = g.key ∧ ∀ r, g.result = some r → g'.result = some r
  puts : ∀ {put : Nat} {p : PutCall n}, s.clients.puts[put]? = some p → ∃ p' : PutCall n,
    s'.clients.puts[put]? = some p' ∧ p'.request = p.request ∧
      ∀ r, p.result = some r → p'.result = some r

theorem ClerksLe.refl (s : Clerks n) : ClerksLe s s :=
  ⟨fun hg => ⟨_, hg, rfl, fun _ hr => hr⟩, fun hp => ⟨_, hp, rfl, fun _ hr => hr⟩⟩

theorem getMove_keeps {s s' : Clerks n} {g g' : GetCall n} (h : GetMove s s' g g') :
    g'.key = g.key ∧ ∀ r, g.result = some r → g'.result = some r := by
  have hnext : ∀ outcome, (g.next outcome).key = g.key := by
    intro outcome
    unfold GetCall.next
    split <;> rfl
  cases h with
  | same => exact ⟨rfl, fun _ hr => hr⟩
  | handle => exact ⟨rfl, fun _ hr => hr⟩
  | respond attempt call c answer hresult =>
    exact ⟨hnext _, fun r hr => absurd (hresult.symm.trans hr) (by simp)⟩
  | fail hresult => exact ⟨hnext _, fun r hr => absurd (hresult.symm.trans hr) (by simp)⟩

theorem clerksLe_of_step {s s' : Clerks n} (h : Clerks.Step s s') : ClerksLe s s' := by
  constructor
  · intro get g hg
    have hlt := (List.getElem?_eq_some_iff.mp hg).1.trans_le (Clerks.step_length h)
    have hg' := List.getElem?_eq_getElem hlt
    rcases Clerks.step_gets h hg' with ⟨hnone, _⟩ | ⟨g₀, hg₀, hmove⟩
    · rw [hg] at hnone
      cases hnone
    · cases hg.symm.trans hg₀
      exact ⟨_, hg', getMove_keeps hmove⟩
  · intro put p hp
    rcases Clerks.step_clients h with hstep | hsame
    · have hlt := (List.getElem?_eq_some_iff.mp hp).1.trans_le (Clients.step_length hstep)
      have hp' := List.getElem?_eq_getElem hlt
      rcases Clients.step_puts hstep hp' with ⟨hnone, _⟩ | ⟨p₀, hp₀, hmove⟩
      · rw [hp] at hnone
        cases hnone
      · cases hp.symm.trans hp₀
        refine ⟨_, hp', hmove.request, fun r hr => ?_⟩
        rw [hmove.le.result (by rw [hr]; exact Option.some_ne_none _), hr]
    · exact ⟨p, by rw [hsame, hp], rfl, fun _ hr => hr⟩

/-- A call of `Put` is new, with the arguments of the event, or goes on. -/
theorem exec_puts {s s' : Clerks n} {e : ClerkEvent n} (h : s.exec e = some s') {put : Nat}
    {p' : PutCall n} (hp' : s'.clients.puts[put]? = some p') :
    (∃ srv key value version, e = .clients (.put srv key value version) ∧
      p' = .new srv key value version) ∨
    ∃ p, s.clients.puts[put]? = some p ∧ p'.request = p.request := by
  have hold : s.clients.puts.length = s'.clients.puts.length →
      ∃ p, s.clients.puts[put]? = some p ∧ p'.request = p.request := by
    intro hlen
    have hlt := (List.getElem?_eq_some_iff.mp hp').1
    have hp := List.getElem?_eq_getElem (hlen ▸ hlt)
    obtain ⟨q, hq, hreq, _⟩ := (clerksLe_of_step ⟨e, h⟩).puts hp
    cases hp'.symm.trans hq
    exact ⟨_, hp, hreq⟩
  cases e with
  | clients e =>
    obtain ⟨_, hclients, _⟩ := Clerks.clients_inv h
    cases e with
    | system e => exact Or.inr (hold (by rw [(Clients.system_inv hclients).2]))
    | put srv key value version =>
      have heq : s'.clients.puts = s.clients.puts ++ [.new srv key value version] := by
        rw [← Option.some.inj hclients]
      rw [heq] at hp'
      by_cases hlt : put < s.clients.puts.length
      · rw [List.getElem?_append_left hlt] at hp'
        exact Or.inr ⟨p', hp', rfl⟩
      · rw [List.getElem?_append_right (Nat.le_of_not_lt hlt)] at hp'
        exact Or.inl ⟨srv, key, value, version, rfl,
          List.mem_singleton.mp (List.mem_of_getElem? hp')⟩
    | handle put k id =>
      obtain ⟨_, _, _, _, _, _, heq⟩ := Clients.handle_inv hclients
      exact Or.inr (hold (by rw [heq, List.length_set]))
    | respond put =>
      obtain ⟨_, _, _, _, _, _, _, _, _, _, _, _, heq⟩ := Clients.respond_inv hclients
      exact Or.inr (hold (by rw [heq, List.length_set]))
    | fail put =>
      obtain ⟨_, _, _, _, heq⟩ := Clients.fail_inv hclients
      exact Or.inr (hold (by rw [heq, List.length_set]))
  | get srv key =>
    cases h
    exact Or.inr ⟨p', hp', rfl⟩
  | handleGet get k id =>
    obtain ⟨_, _, _, _, _, hclients, _⟩ := Clerks.handleGet_inv h
    exact Or.inr (hold (by rw [(Clients.system_inv hclients).2]))
  | respondGet get =>
    obtain ⟨_, _, _, _, _, _, _, _, _, _, _, hclients, _⟩ := Clerks.respondGet_inv h
    exact Or.inr (hold (by rw [hclients]))
  | failGet get =>
    obtain ⟨_, _, _, hclients, _⟩ := Clerks.failGet_inv h
    exact Or.inr (hold (by rw [hclients]))

end KvRaft
