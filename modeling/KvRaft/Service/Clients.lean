import KvRaft.Service.Clerk
import KvRaft.System.Linearizable

/-!
# Clerks and the system

The calls of `Clerk.Put` that run against the system.  An attempt sends one
request to one server.  The request arrives at most once and at any time, also
after the clerk has given up on the attempt, and makes the server call `Submit`.
The attempt ends with the response, when `Submit` has returned, or with an error
of the transport at any moment.

Everything else that happens is an event of the system, so other clients may
submit whatever they want.
-/

namespace KvRaft

open Consensus

/-- An attempt of a `Put`: the server, and the call of `Submit` that the request
led to. -/
structure Attempt (n : Nat) where
  srv : Fin n
  call : Option Nat
  deriving DecidableEq

/-- A call of `Clerk.Put`.  The last attempt is the current one. -/
structure PutCall (n : Nat) where
  key : String
  value : String
  version : UInt64
  loop : Clerk.Loop n
  attempts : List (Attempt n)
  result : Option Err
  deriving DecidableEq

/-- The system with the calls of `Clerk.Put`. -/
structure Clients (n : Nat) where
  system : System n Store Request Reply Store
  puts : List (PutCall n)

/-- Everything that can happen. -/
inductive ClientEvent (n : Nat) where
  /-- An event of the system. -/
  | system (e : SystemEvent n Request Store)
  /-- `Put` is called on a clerk whose `lastLeader` is `srv`. -/
  | put (srv : Fin n) (key value : String) (version : UInt64)
  /-- The request of an attempt arrives, and `Submit` draws `id`. -/
  | handle (put attempt : Nat) (id : Int)
  /-- The response to the current attempt arrives. -/
  | respond (put : Nat)
  /-- The current attempt fails. -/
  | fail (put : Nat)
  deriving DecidableEq

variable {n : Nat}

/-- A call of `Clerk.Put` with its first attempt. -/
def PutCall.new (srv : Fin n) (key value : String) (version : UInt64) : PutCall n :=
  ⟨key, value, version, ⟨srv, true, 0⟩, [⟨srv, none⟩], none⟩

/-- The attempt `k` of the call led to the call `call` of `Submit`. -/
def PutCall.handled (p : PutCall n) (k : Nat) (attempt : Attempt n) (call : Nat) : PutCall n :=
  { p with attempts := p.attempts.set k { attempt with call := some call } }

/-- The request that an attempt sends. -/
def PutCall.request (p : PutCall n) : Request := .put p.key p.value p.version

/-- The call after its current attempt ended. -/
def PutCall.next (p : PutCall n) (outcome : Clerk.Outcome) : PutCall n :=
  match Clerk.put p.loop outcome with
  | .inl err => { p with result := some err }
  | .inr loop => { p with loop := loop, attempts := p.attempts ++ [⟨loop.srv, none⟩] }

namespace Clients

/-- No clerk has made a call yet. -/
def init : Clients n := ⟨.init Store.machine, []⟩

/-- What an event does.  `none` is an event that cannot happen in the state. -/
def exec (s : Clients n) : ClientEvent n → Option (Clients n)
  | .system e => do
    let system ← s.system.exec Store.machine e
    some { s with system := system }
  | .put srv key value version =>
    some { s with puts := s.puts ++ [.new srv key value version] }
  | .handle put k id => do
    let p ← s.puts[put]?
    let attempt ← p.attempts[k]?
    match attempt.call with
    | some _ => none
    | none =>
      let system ← s.system.exec Store.machine (.submit attempt.srv id p.request)
      some ⟨system, s.puts.set put (p.handled k attempt s.system.calls.length)⟩
  | .respond put => do
    let p ← s.puts[put]?
    match p.result with
    | some _ => none
    | none =>
      let attempt ← p.attempts.getLast?
      let call ← attempt.call
      let c ← s.system.calls[call]?
      let answer ← c.answer
      some { s with puts := s.puts.set put (p.next (.response (KVService.put answer))) }
  | .fail put => do
    let p ← s.puts[put]?
    match p.result with
    | some _ => none
    | none => some { s with puts := s.puts.set put (p.next .failed) }

/-- One event. -/
def Step (s s' : Clients n) : Prop := ∃ e, s.exec e = some s'

end Clients

/-- A run of the clerks and the system. -/
abbrev ClientRun (n : Nat) := Run (Clients.init (n := n)) Clients.Step

/-! ## What an event does to a call -/

/-- How a call of `Clerk.Put` goes on. -/
inductive PutMove (s s' : Clients n) (p : PutCall n) : PutCall n → Prop where
  | same : PutMove s s' p p
  | handle (k : Nat) (attempt : Attempt n) (id : Int) (hk : p.attempts[k]? = some attempt)
      (hnone : attempt.call = none)
      (hsys : s.system.exec Store.machine (.submit attempt.srv id p.request) = some s'.system) :
      PutMove s s' p (p.handled k attempt s.system.calls.length)
  | respond (attempt : Attempt n) (call : Nat) (c : Call n Request Reply)
      (answer : Answer n Reply) (hresult : p.result = none)
      (hlast : p.attempts.getLast? = some attempt) (hcall : attempt.call = some call)
      (hc : s.system.calls[call]? = some c) (hanswer : c.answer = some answer) :
      PutMove s s' p (p.next (.response (KVService.put answer)))
  | fail (hresult : p.result = none) : PutMove s s' p (p.next .failed)

namespace Clients

variable {s s' : Clients n}

theorem handle_inv {put k : Nat} {id : Int} (h : s.exec (.handle put k id) = some s') :
    ∃ p attempt, s.puts[put]? = some p ∧ p.attempts[k]? = some attempt ∧ attempt.call = none ∧
      s.system.exec Store.machine (.submit attempt.srv id p.request) = some s'.system ∧
      s'.puts = s.puts.set put (p.handled k attempt s.system.calls.length) := by
  obtain ⟨p, hp, h⟩ := Option.bind_eq_some_iff.mp h
  obtain ⟨attempt, hk, h⟩ := Option.bind_eq_some_iff.mp h
  split at h
  · cases h
  · rename_i hnone
    obtain ⟨system, hsys, h⟩ := Option.bind_eq_some_iff.mp h
    cases h
    exact ⟨p, attempt, hp, hk, hnone, hsys, rfl⟩

theorem respond_inv {put : Nat} (h : s.exec (.respond put) = some s') :
    ∃ p attempt call c answer, s.puts[put]? = some p ∧ p.result = none ∧
      p.attempts.getLast? = some attempt ∧ attempt.call = some call ∧
      s.system.calls[call]? = some c ∧ c.answer = some answer ∧ s'.system = s.system ∧
      s'.puts = s.puts.set put (p.next (.response (KVService.put answer))) := by
  obtain ⟨p, hp, h⟩ := Option.bind_eq_some_iff.mp h
  split at h
  · cases h
  · rename_i hresult
    obtain ⟨attempt, hlast, h⟩ := Option.bind_eq_some_iff.mp h
    obtain ⟨call, hcall, h⟩ := Option.bind_eq_some_iff.mp h
    obtain ⟨c, hc, h⟩ := Option.bind_eq_some_iff.mp h
    obtain ⟨answer, hanswer, h⟩ := Option.bind_eq_some_iff.mp h
    cases h
    exact ⟨p, attempt, call, c, answer, hp, hresult, hlast, hcall, hc, hanswer, rfl, rfl⟩

theorem fail_inv {put : Nat} (h : s.exec (.fail put) = some s') :
    ∃ p, s.puts[put]? = some p ∧ p.result = none ∧ s'.system = s.system ∧
      s'.puts = s.puts.set put (p.next .failed) := by
  obtain ⟨p, hp, h⟩ := Option.bind_eq_some_iff.mp h
  split at h
  · cases h
  · rename_i hresult
    cases h
    exact ⟨p, hp, hresult, rfl, rfl⟩

theorem system_inv {e : SystemEvent n Request Store} (h : s.exec (.system e) = some s') :
    s.system.exec Store.machine e = some s'.system ∧ s'.puts = s.puts := by
  obtain ⟨system, hsys, h⟩ := Option.bind_eq_some_iff.mp h
  cases h
  exact ⟨hsys, rfl⟩

/-- The system makes a step of its own, or none. -/
theorem step_system (h : Clients.Step s s') :
    System.Step Store.machine s.system s'.system ∨ s'.system = s.system := by
  obtain ⟨e, h⟩ := h
  cases e with
  | system e => exact Or.inl ⟨e, (system_inv h).1⟩
  | put srv key value version =>
    cases h
    exact Or.inr rfl
  | handle put k id =>
    obtain ⟨_, _, _, _, _, hsys, _⟩ := handle_inv h
    exact Or.inl ⟨_, hsys⟩
  | respond put =>
    obtain ⟨_, _, _, _, _, _, _, _, _, _, _, hsys, _⟩ := respond_inv h
    exact Or.inr hsys
  | fail put =>
    obtain ⟨_, _, _, hsys, _⟩ := fail_inv h
    exact Or.inr hsys

/-- One call of the list goes on, and the others stay. -/
theorem set_move {put : Nat} {p q : PutCall n} (hp : s.puts[put]? = some p)
    (hmove : PutMove s s' p q) {put' : Nat} {p' : PutCall n}
    (h : (s.puts.set put q)[put']? = some p') :
    ∃ p, s.puts[put']? = some p ∧ PutMove s s' p p' := by
  by_cases hput : put' = put
  · subst hput
    rw [List.getElem?_set_self (List.getElem?_eq_some_iff.mp hp).1] at h
    cases h
    exact ⟨p, hp, hmove⟩
  · rw [List.getElem?_set_ne (Ne.symm hput)] at h
    exact ⟨p', h, .same⟩

/-- A call after an event is a new one, or goes on from before. -/
theorem step_puts (h : Clients.Step s s') {put : Nat} {p' : PutCall n}
    (hp' : s'.puts[put]? = some p') :
    (s.puts[put]? = none ∧ ∃ srv key value version, p' = .new srv key value version) ∨
      ∃ p, s.puts[put]? = some p ∧ PutMove s s' p p' := by
  obtain ⟨e, h⟩ := h
  cases e with
  | system e =>
    rw [(system_inv h).2] at hp'
    exact Or.inr ⟨p', hp', .same⟩
  | put srv key value version =>
    cases h
    by_cases hlt : put < s.puts.length
    · exact Or.inr ⟨p', (List.getElem?_append_left hlt).symm.trans hp', .same⟩
    · have hnew := (List.getElem?_append_right (Nat.le_of_not_lt hlt)).symm.trans hp'
      exact Or.inl ⟨List.getElem?_eq_none (Nat.le_of_not_lt hlt), srv, key, value, version,
        List.mem_singleton.mp (List.mem_of_getElem? hnew)⟩
  | handle put k id =>
    obtain ⟨p, attempt, hp, hk, hnone, hsys, heq⟩ := handle_inv h
    rw [heq] at hp'
    exact Or.inr (set_move hp (.handle k attempt id hk hnone hsys) hp')
  | respond put =>
    obtain ⟨p, attempt, call, c, answer, hp, hresult, hlast, hcall, hc, hanswer, _, heq⟩ :=
      respond_inv h
    rw [heq] at hp'
    exact Or.inr (set_move hp (.respond attempt call c answer hresult hlast hcall hc hanswer) hp')
  | fail put =>
    obtain ⟨p, hp, hresult, _, heq⟩ := fail_inv h
    rw [heq] at hp'
    exact Or.inr (set_move hp (.fail hresult) hp')

/-- No call is forgotten. -/
theorem step_length (h : Clients.Step s s') : s.puts.length ≤ s'.puts.length := by
  obtain ⟨e, h⟩ := h
  cases e with
  | system e => rw [(system_inv h).2]
  | put srv key value version =>
    cases h
    simp
  | handle put k id =>
    obtain ⟨_, _, _, _, _, _, heq⟩ := handle_inv h
    rw [heq, List.length_set]
  | respond put =>
    obtain ⟨_, _, _, _, _, _, _, _, _, _, _, _, heq⟩ := respond_inv h
    rw [heq, List.length_set]
  | fail put =>
    obtain ⟨_, _, _, _, heq⟩ := fail_inv h
    rw [heq, List.length_set]

end Clients

/-! ## The run of the system -/

/-- The system of a run. -/
def ClientRun.system (run : ClientRun n) : SystemRun n Store.machine where
  state t := (run.state t).system
  start := by rw [run.start]; rfl
  next t := by
    rcases run.next t with h | h
    · exact Clients.step_system h
    · exact Or.inr (by rw [h])

theorem ClientRun.system_state (run : ClientRun n) (t : Nat) :
    run.system.state t = (run.state t).system := rfl

/-! ## A definite version error -/

/-- An operation that an attempt of the call submitted is executed with result
`OK`. -/
def TakesEffect (run : ClientRun n) (put : Nat) : Prop :=
  ∃ t p attempt call c index, (run.state t).puts[put]? = some p ∧ attempt ∈ p.attempts ∧
    attempt.call = some call ∧ (run.state t).system.calls[call]? = some c ∧
    ExecutesAt Store.machine run.system.cluster index c.op (.put .ok)

/-- A `Put` that returns `ErrVersion` never takes effect. -/
def TruthfulVersionError (run : ClientRun n) : Prop :=
  ∀ t put p, (run.state t).puts[put]? = some p → p.result = some .errVersion →
    ¬ TakesEffect run put

/-- Node 0 is the leader.  It logs the `Put` of the first attempt and commits it
with node 1, but the timer of `Submit` fires before the reader gets to it, so
the answer is `ErrWrongLeader`.  Node 1 refuses the second attempt and names
node 0.  The third attempt is logged behind the first one, and its result is
`ErrVersion`, because the first one has made version 1. -/
def retryEvents : List (ClientEvent 3) :=
  [.put node0 "k" "v" 0, .system (.raft (.electionTimeout node0)), .system (.raft (.deliver 0)),
    .system (.raft (.handleReply 0 (.requestVote ⟨0, true⟩))), .handle 0 0 1,
    .system (.register 0), .system (.raft (.replicate node0 node1)), .system (.raft (.deliver 2)),
    .system (.raft (.handleReply 2 (.appendEntries ⟨1, true, 0, some 0⟩))), .system (.timeout 0),
    .system (.dumpPending 0), .system (.leave 0), .respond 0, .handle 0 1 2,
    .system (.register 1), .respond 0, .handle 0 2 3, .system (.register 2),
    .system (.raft (.replicate node0 node1)), .system (.raft (.deliver 3)),
    .system (.raft (.handleReply 3 (.appendEntries ⟨1, true, 0, some 0⟩))),
    .system (.raft (.applierTake node0)), .system (.receive node0), .system (.lockCommand node0),
    .system (.doOp node0), .system (.notifyPending node0), .system (.notifyOutdated node0),
    .system (.endOutdated node0), .system (.checkSnapshot node0 false), .system (.receive node0),
    .system (.lockCommand node0), .system (.doOp node0), .system (.notifyPending node0),
    .system (.send node0), .system (.notifyOutdated node0), .system (.endOutdated node0),
    .system (.checkSnapshot node0 false), .system (.leave 2), .respond 0]

/-- The run of these events. -/
def retryRun : ClientRun 3 := Run.ofEvents Clients.init Clients.exec retryEvents

/-- The operation of the first attempt. -/
def retryOp : Op 3 Request := ⟨node0, 1, .put "k" "v" 0⟩

theorem retryRun_executes :
    ExecutesAt Store.machine retryRun.system.cluster 1 retryOp (.put .ok) := by
  have hcommits : Commits retryRun.system.cluster 1 ⟨1, 1, some retryOp⟩ :=
    ⟨39, 0, by decide +kernel⟩
  exact ⟨[], CommittedCmds.nil.concat hcommits, rfl, rfl⟩

/-- A clerk returns `ErrVersion` although its write has taken effect. -/
theorem clerk_versionError_untruthful : ¬ TruthfulVersionError retryRun := by
  intro h
  obtain ⟨p, hp, hresult⟩ : ∃ p ∈ (retryRun.state 39).puts[0]?, p.result = some .errVersion := by
    decide +kernel
  refine h 39 0 p hp hresult ?_
  obtain ⟨p, hp, attempt, hmem, call, hcall, c, hc, hop⟩ : ∃ p ∈ (retryRun.state 39).puts[0]?,
      ∃ attempt ∈ p.attempts, ∃ call ∈ attempt.call,
        ∃ c ∈ (retryRun.state 39).system.calls[call]?, c.op = retryOp := by
    decide +kernel
  exact ⟨39, p, attempt, call, c, 1, hp, hmem, hcall, hc, hop ▸ retryRun_executes⟩

/-! ## When the error is definite -/

/-- The condition under which a version error is definite: ids are distinct, and
a clerk that counts on its first attempt takes the answer `ErrWrongLeader` only
from a call of `Submit` whose operation `Start` has refused. -/
structure Definite (run : ClientRun n) : Prop where
  ids : DistinctIds run.system
  refused : ∀ {t put : Nat} {p : PutCall n} {attempt : Attempt n} {call : Nat}
    {c : Call n Request Reply} {leader : Option (Fin n)}, (run.state t).puts[put]? = some p →
    p.loop.firstAttempt = true → p.attempts.getLast? = some attempt → attempt.call = some call →
    (run.state t).system.calls[call]? = some c → c.answer = some (.wrongLeader leader) →
    (run.state (t + 1)).puts[put]? =
      some (p.next (.response (KVService.put (.wrongLeader leader)))) → c.started = none

/-- The attempt was answered, and `Start` had refused its operation. -/
def Refused (calls : List (Call n Request Reply)) (attempt : Attempt n) : Prop :=
  ∃ call c, attempt.call = some call ∧ calls[call]? = some c ∧ c.started = none ∧ c.answer ≠ none

/-- Every attempt that has arrived led to a call of `Submit` with the request. -/
def Requests (calls : List (Call n Request Reply)) (p : PutCall n) : Prop :=
  ∀ attempt ∈ p.attempts, ∀ call, attempt.call = some call →
    ∃ c, calls[call]? = some c ∧ c.req = p.request

/-- What a call of `Clerk.Put` knows. -/
structure PutOk (calls : List (Call n Request Reply)) (p : PutCall n) : Prop where
  requests : Requests calls p
  clean : p.loop.firstAttempt = true → ∀ attempt ∈ p.attempts.dropLast, Refused calls attempt
  version : p.result = some .errVersion → p.loop.firstAttempt = true ∧
    ∃ attempt call c, p.attempts.getLast? = some attempt ∧ attempt.call = some call ∧
      calls[call]? = some c ∧ c.answer = some (.ok (some (.put .errVersion)))

section Invariant

variable {calls calls' : List (Call n Request Reply)} {p : PutCall n}

theorem Requests.mono (hle : CallsLe calls calls') (h : Requests calls p) : Requests calls' p := by
  intro attempt hmem call hcall
  obtain ⟨c, hc, hreq⟩ := h attempt hmem call hcall
  obtain ⟨c', hc', hcc⟩ := hle call c hc
  exact ⟨c', hc', (congrArg Op.req hcc.op).trans hreq⟩

theorem requests_new (srv : Fin n) (key value : String) (version : UInt64) :
    Requests calls (.new srv key value version) := by
  intro attempt hmem call hcall
  cases List.mem_singleton.mp hmem
  cases hcall

theorem Requests.handled (h : Requests calls p) {k : Nat} {attempt : Attempt n} {call : Nat}
    {c : Call n Request Reply} (hc : calls[call]? = some c) (hreq : c.req = p.request) :
    Requests calls (p.handled k attempt call) := by
  intro a hmem call' hcall'
  rcases List.mem_or_eq_of_mem_set hmem with hold | rfl
  · exact h a hold call' hcall'
  · cases hcall'
    exact ⟨c, hc, hreq⟩

/-- A new attempt has not arrived yet. -/
theorem Requests.next (h : Requests calls p) (outcome : Clerk.Outcome) :
    Requests calls (p.next outcome) := by
  unfold PutCall.next
  split
  · exact h
  · intro a hmem call hcall
    rcases List.mem_append.mp hmem with hold | hnew
    · exact h a hold call hcall
    · cases List.mem_singleton.mp hnew
      cases hcall

theorem Refused.mono (hle : CallsLe calls calls') {attempt : Attempt n}
    (h : Refused calls attempt) : Refused calls' attempt := by
  obtain ⟨call, c, hcall, hc, hstarted, hanswer⟩ := h
  obtain ⟨c', hc', hcc⟩ := hle call c hc
  cases hcc.final hanswer
  exact ⟨call, c, hcall, hc', hstarted, hanswer⟩

theorem PutOk.mono (hle : CallsLe calls calls') (h : PutOk calls p) : PutOk calls' p where
  requests := h.requests.mono hle
  clean hfirst attempt hmem := (h.clean hfirst attempt hmem).mono hle
  version hresult := by
    obtain ⟨hfirst, attempt, call, c, hlast, hcall, hc, hanswer⟩ := h.version hresult
    obtain ⟨c', hc', hcc⟩ := hle call c hc
    cases hcc.final (by rw [hanswer]; exact Option.some_ne_none _)
    exact ⟨hfirst, attempt, call, c, hlast, hcall, hc', hanswer⟩

theorem putOk_new (srv : Fin n) (key value : String) (version : UInt64) :
    PutOk calls (.new srv key value version) where
  requests := requests_new srv key value version
  clean _ attempt hmem := by cases hmem
  version hresult := by cases hresult

/-- While the clerk counts on its first attempt, only the current attempt can
still be on its way. -/
theorem PutOk.last_of_none (h : PutOk calls p) (hfirst : p.loop.firstAttempt = true) {k : Nat}
    {attempt : Attempt n} (hk : p.attempts[k]? = some attempt) (hnone : attempt.call = none) :
    k = p.attempts.length - 1 := by
  by_contra hne
  have hlt := (List.getElem?_eq_some_iff.mp hk).1
  have hmem : attempt ∈ p.attempts.dropLast := by
    refine List.mem_of_getElem? (i := k) ?_
    rw [List.dropLast_eq_take, List.getElem?_take_of_lt (by omega), hk]
  obtain ⟨call, _, hcall, _⟩ := h.clean hfirst attempt hmem
  rw [hnone] at hcall
  cases hcall

theorem PutOk.handled (h : PutOk calls p) {k : Nat} {attempt : Attempt n}
    (hk : p.attempts[k]? = some attempt) (hnone : attempt.call = none) {call : Nat}
    {c : Call n Request Reply} (hc : calls[call]? = some c) (hreq : c.req = p.request) :
    PutOk calls (p.handled k attempt call) where
  requests := h.requests.handled hc hreq
  clean hfirst a hmem := by
    have hlast := h.last_of_none hfirst hk hnone
    refine h.clean hfirst a ?_
    rw [PutCall.handled, List.dropLast_eq_take, List.length_set, hlast,
      List.take_set_of_le (Nat.le_refl _), ← List.dropLast_eq_take] at hmem
    exact hmem
  version hresult := by
    obtain ⟨hfirst, a, call', _, hlast, hcall', _⟩ := h.version hresult
    rw [List.getLast?_eq_getElem?, ← h.last_of_none hfirst hk hnone, hk] at hlast
    cases hlast
    rw [hnone] at hcall'
    cases hcall'

theorem PutOk.failed (h : PutOk calls p) (hresult : p.result = none) :
    PutOk calls (p.next .failed) where
  requests := h.requests.next _
  clean hfirst := by cases hfirst
  version hr := by
    rw [show (p.next .failed).result = p.result from rfl, hresult] at hr
    cases hr

/-- The clerk goes on after `ErrWrongLeader`. -/
theorem PutOk.wrongLeader (h : PutOk calls p) (hresult : p.result = none) {attempt : Attempt n}
    (hlast : p.attempts.getLast? = some attempt)
    (hrefused : p.loop.firstAttempt = true → Refused calls attempt) (leader : Option (Fin n)) :
    PutOk calls (p.next (.response (KVService.put (.wrongLeader leader)))) where
  requests := h.requests.next _
  clean hfirst a hmem := by
    have hold : a ∈ p.attempts := by
      rw [show (p.next (.response (KVService.put (.wrongLeader leader)))).attempts.dropLast =
        p.attempts from List.dropLast_concat] at hmem
      exact hmem
    rw [← List.dropLast_append_getLast? attempt hlast] at hold
    rcases List.mem_append.mp hold with hprev | hcur
    · exact h.clean hfirst a hprev
    · cases List.mem_singleton.mp hcur
      exact hrefused hfirst
  version hr := by
    rw [show (p.next (.response (KVService.put (.wrongLeader leader)))).result = p.result
      from rfl, hresult] at hr
    cases hr

/-- The clerk returns what the operation gave. -/
theorem PutOk.ok (h : PutOk calls p) {attempt : Attempt n} {call : Nat}
    {c : Call n Request Reply} (hlast : p.attempts.getLast? = some attempt)
    (hcall : attempt.call = some call) (hc : calls[call]? = some c) {reply : Reply}
    (hanswer : c.answer = some (.ok (some reply)))
    (hreply : reply = .put .ok ∨ reply = .put .errVersion) :
    PutOk calls (p.next (.response (KVService.put (n := n) (.ok (some reply))))) := by
  rcases hreply with rfl | rfl
  · exact ⟨h.requests, h.clean, fun hr => by cases hr⟩
  · refine ⟨h.requests, h.clean, fun hr => ?_⟩
    have hfirst : p.loop.firstAttempt = true := by
      by_contra hne
      rw [show (p.next
          (.response (KVService.put (n := n) (.ok (some (.put .errVersion)))))).result =
        some (if p.loop.firstAttempt then .errVersion else .errMaybe) from rfl, if_neg hne] at hr
      cases hr
    exact ⟨hfirst, attempt, call, c, hlast, hcall, hc, hanswer⟩

/-- A later state of the same call. -/
structure PutLe (p p' : PutCall n) : Prop where
  result : p.result ≠ none → p'.result = p.result
  attempts : ∀ attempt ∈ p.attempts, attempt.call ≠ none → attempt ∈ p'.attempts

theorem PutLe.refl (p : PutCall n) : PutLe p p := ⟨fun _ => rfl, fun _ hmem _ => hmem⟩

theorem PutLe.trans {p q r : PutCall n} (h : PutLe p q) (h' : PutLe q r) : PutLe p r where
  result hne := (h'.result (by rw [h.result hne]; exact hne)).trans (h.result hne)
  attempts attempt hmem hcall := h'.attempts attempt (h.attempts attempt hmem hcall) hcall

theorem PutLe.next (hresult : p.result = none) (outcome : Clerk.Outcome) :
    PutLe p (p.next outcome) := by
  refine ⟨fun hne => absurd hresult hne, fun attempt hmem _ => ?_⟩
  unfold PutCall.next
  split
  · exact hmem
  · exact List.mem_append_left _ hmem

theorem PutMove.le {s s' : Clients n} {p' : PutCall n} (h : PutMove s s' p p') : PutLe p p' := by
  cases h with
  | same => exact .refl p
  | handle k attempt id hk hnone _ =>
    refine ⟨fun _ => rfl, fun a hmem ha => ?_⟩
    -- The attempt that changes had no call before.
    obtain ⟨j, hj⟩ := List.mem_iff_getElem?.mp hmem
    have hjk : k ≠ j := by
      rintro rfl
      rw [hk] at hj
      cases hj
      exact ha hnone
    refine List.mem_of_getElem? (i := j) ?_
    rw [PutCall.handled, List.getElem?_set_ne hjk, hj]
  | respond attempt call c answer hresult _ _ _ _ => exact .next hresult _
  | fail hresult => exact .next hresult _

end Invariant

namespace ClientRun

/-- What every move keeps holds between two moments of a call. -/
theorem puts_mono (run : ClientRun n) {R : PutCall n → PutCall n → Prop} (hrefl : ∀ p, R p p)
    (htrans : ∀ {p q r}, R p q → R q r → R p r)
    (hmove : ∀ {s s' p p'}, PutMove s s' p p' → R p p') {t u : Nat} (htu : t ≤ u) {put : Nat}
    {p : PutCall n} (hp : (run.state t).puts[put]? = some p) :
    ∃ p', (run.state u).puts[put]? = some p' ∧ R p p' := by
  induction u, htu using Nat.le_induction with
  | base => exact ⟨p, hp, hrefl p⟩
  | succ u _ ih =>
    obtain ⟨q, hq, hle⟩ := ih
    rcases run.next u with hstep | hsame
    · obtain ⟨q', hq'⟩ : ∃ q', (run.state (u + 1)).puts[put]? = some q' := by
        have := (List.getElem?_eq_some_iff.mp hq).1
        exact ⟨_, List.getElem?_eq_getElem (this.trans_le (Clients.step_length hstep))⟩
      rcases Clients.step_puts hstep hq' with ⟨hnone, _⟩ | ⟨q₀, hq₀, hq₀'⟩
      · rw [hq] at hnone
        cases hnone
      · cases hq.symm.trans hq₀
        exact ⟨q', hq', htrans hle (hmove hq₀')⟩
    · exact ⟨q, hsame ▸ hq, hle⟩

/-- Calls of `Clerk.Put` only go on. -/
theorem puts_le (run : ClientRun n) {t u : Nat} (htu : t ≤ u) {put : Nat} {p : PutCall n}
    (hp : (run.state t).puts[put]? = some p) :
    ∃ p', (run.state u).puts[put]? = some p' ∧ PutLe p p' :=
  run.puts_mono PutLe.refl PutLe.trans PutMove.le htu hp

theorem putOk (run : ClientRun n) (h : Definite run) (t : Nat) {put : Nat} {p : PutCall n}
    (hp : (run.state t).puts[put]? = some p) : PutOk (run.state t).system.calls p := by
  induction t generalizing put p with
  | zero =>
    rw [run.start] at hp
    simp [Clients.init] at hp
  | succ t ih =>
    rcases run.next t with hstep | hsame
    · have hle : CallsLe (run.state t).system.calls (run.state (t + 1)).system.calls :=
        run.system.calls_le (Nat.le_succ t)
      rcases Clients.step_puts hstep hp with ⟨_, srv, key, value, version, rfl⟩ | ⟨q, hq, hmove⟩
      · exact putOk_new ..
      have hok := ih hq
      cases hmove with
      | same => exact hok.mono hle
      | handle k attempt id hk hnone hsys =>
        exact (hok.mono hle).handled hk hnone (System.submit_calls hsys) rfl
      | respond attempt call c answer hresult hlast hcall hc hanswer =>
        cases answer with
        | wrongLeader leader =>
          refine (hok.wrongLeader hresult hlast (fun hfirst => ?_) leader).mono hle
          exact ⟨call, c, hcall, hc, h.refused hq hfirst hlast hcall hc hanswer hp,
            by rw [hanswer]; exact Option.some_ne_none _⟩
        | ok val =>
          -- The operation was a `Put`, so its result is one that a `Put` has.
          obtain ⟨c', hc', hreq⟩ := hok.requests attempt (List.mem_of_getLast? hlast) call hcall
          cases hc.symm.trans hc'
          obtain ⟨_, _, reply, rfl, _, ⟨cmds, _, _, hreply⟩, _⟩ :=
            (SystemRun.resultsOk Store.lawful h.ids t).returned hc hanswer
          refine (hok.ok hlast hcall hc hanswer ?_).mono hle
          rw [hreply, show c.op.req = q.request from hreq]
          exact Store.doOp_put ..
      | fail hresult => exact (hok.failed hresult).mono hle
    · rw [hsame] at hp ⊢
      exact ih hp

end ClientRun

/-- The error is truthful in a run that stops, where nobody gets it. -/
theorem TruthfulVersionError.of_final {run : ClientRun n} {T : Nat}
    (hstop : ∀ t, T ≤ t → run.state t = run.state T)
    (hnone : ∀ p ∈ (run.state T).puts, p.result ≠ some .errVersion) :
    TruthfulVersionError run := by
  intro t put p hp hresult
  obtain ⟨q, hq, hle⟩ := run.puts_le (Nat.le_max_left t T) hp
  rw [hstop _ (Nat.le_max_right t T)] at hq
  refine absurd ?_ (hnone q (List.mem_of_getElem? hq))
  rw [hle.result (by rw [hresult]; exact Option.some_ne_none _), hresult]

/-- Under the condition, a definite version error is truthful. -/
theorem truthful_of_definite (run : ClientRun n) (h : Definite run) :
    TruthfulVersionError run := by
  rintro t put p hp hresult ⟨u, p', attempt, call, c, index, hp', hmem, hcall, hc, hexec⟩
  -- Both sides are looked at in the later of the two moments.
  obtain ⟨q, hq, hle⟩ := run.puts_le (Nat.le_max_left t u) hp
  obtain ⟨q', hq', hle'⟩ := run.puts_le (Nat.le_max_right t u) hp'
  cases hq.symm.trans hq'
  obtain ⟨d, hd, hcd⟩ := run.system.calls_le (Nat.le_max_right t u) call c hc
  have hok := run.putOk h _ hq
  obtain ⟨hfirst, last, call', c', hlast, hcall', hc', hanswer⟩ :=
    hok.version (by rw [hle.result (by rw [hresult]; exact Option.some_ne_none _), hresult])
  have hattempt := hle'.attempts attempt hmem (by rw [hcall]; exact Option.some_ne_none _)
  rw [← List.dropLast_append_getLast? last hlast] at hattempt
  obtain ⟨cmds, hcmds, hlen, hval⟩ := hexec
  obtain ⟨e, he, hcmd⟩ := hcmds.last
  rcases List.mem_append.mp hattempt with hprev | hcur
  · -- An earlier attempt was refused, so its operation is not committed.
    obtain ⟨call₀, c₀, hcall₀, hc₀, hstarted, hans⟩ := hok.clean hfirst attempt hprev
    cases hcall.symm.trans hcall₀
    cases hd.symm.trans hc₀
    exact h.ids.not_commits Store.lawful hd hstarted hans he (by rw [hcmd, hcd.op])
  · -- The last attempt has the result `ErrVersion`.
    cases List.mem_singleton.mp hcur
    cases hcall.symm.trans hcall'
    cases hd.symm.trans hc'
    obtain ⟨k, term, v, hv, hstarted, hexec, _⟩ :=
      (SystemRun.resultsOk Store.lawful h.ids _).returned hd hanswer
    cases hv
    cases h.ids.index_eq Store.lawful hd hstarted he (by rw [hcmd, hcd.op])
    have hsame : ExecutesAt Store.machine run.system.cluster (cmds.length + 1) d.op (.put .ok) := by
      rw [hcd.op]
      exact ⟨cmds, hcmds, rfl, hval⟩
    cases hexec.val_eq hsame

/-- Node 2 refuses the first attempt, and node 0, the leader, executes the second
one.  The key does not exist, so its version is not 1. -/
def definiteEvents : List (ClientEvent 3) :=
  [.put node2 "k" "v" 1, .system (.raft (.electionTimeout node0)), .system (.raft (.deliver 0)),
    .system (.raft (.handleReply 0 (.requestVote ⟨0, true⟩))), .handle 0 0 1,
    .system (.register 0), .respond 0, .handle 0 1 2, .system (.register 1),
    .system (.raft (.replicate node0 node1)), .system (.raft (.deliver 2)),
    .system (.raft (.handleReply 2 (.appendEntries ⟨1, true, 0, some 0⟩))),
    .system (.raft (.applierTake node0)), .system (.receive node0), .system (.lockCommand node0),
    .system (.doOp node0), .system (.notifyPending node0), .system (.send node0),
    .system (.notifyOutdated node0), .system (.endOutdated node0),
    .system (.checkSnapshot node0 false), .system (.leave 1), .respond 0]

/-- The run of these events. -/
def definiteRun : ClientRun 3 := Run.ofEvents Clients.init Clients.exec definiteEvents

theorem definiteRun_state {t : Nat} (h : 23 ≤ t) : definiteRun.state t = definiteRun.state 23 :=
  Run.ofEvents_state_of_le _ _ definiteEvents h

theorem definiteRun_definite : Definite definiteRun := by
  have hstop : ∀ t, 23 ≤ t → definiteRun.system.state t = definiteRun.system.state 23 := by
    intro t h
    rw [ClientRun.system_state, ClientRun.system_state, definiteRun_state h]
  refine ⟨.of_final hstop (by decide +kernel) (by decide +kernel), ?_⟩
  intro t put p attempt call c leader _ _ _ _ hc hanswer _
  -- A call that has returned is in the last history as it is now.
  have hall : ∀ c ∈ (definiteRun.state 23).system.calls, c.started = none ∨
      c.answer = some (.ok (some (.put .errVersion))) := by
    decide +kernel
  obtain ⟨c', hc', hle⟩ := definiteRun.system.calls_le (Nat.le_max_left t 23) call c hc
  cases hle.final (by rw [hanswer]; exact Option.some_ne_none _)
  have hlast : (definiteRun.state 23).system.calls[call]? = some c := by
    rw [← definiteRun_state (Nat.le_max_right t 23)]
    exact hc'
  refine (hall c (List.mem_of_getElem? hlast)).resolve_right fun hok => ?_
  rw [hanswer] at hok
  cases hok

/-- The clerk returns `ErrVersion`, and it is truthful. -/
theorem truthful_definiteRun : (definiteRun.state 23).puts.map PutCall.result =
    [some .errVersion] ∧ TruthfulVersionError definiteRun :=
  ⟨by decide +kernel, truthful_of_definite definiteRun definiteRun_definite⟩

end KvRaft
