import KvRaft.Service.ExactlyOnce
import KvRaft.Service.Oracle

/-!
# The calls of all clerks

`KvRaft.Service.Clients` has the calls of `Clerk.Put`.  Here are the calls of
`Clerk.Get` beside them, and nobody but the clerks submits anything.  A run of
all clerks is a run of the `Put`s in which the requests of the `Get`s are
submitted by the environment (`ClerkRun.clients`), so everything that is known
of the `Put`s holds here.

A clerk makes several attempts, and the request of each of them may arrive, at
any time.  `Owns` says which calls of `Submit` belong to a call of a clerk:

* every call of `Submit` belongs to exactly one call of a clerk
  (`ClerkRun.owner`, `ClerkRun.owner_unique`);
* it carries the request of that call (`ClerkRun.owned`);
* it was not made before that call (`ClerkRun.owned_after`).
-/

namespace KvRaft

open Consensus

/-- A call of `Clerk.Get`.  The last attempt is the current one. -/
structure GetCall (n : Nat) where
  key : String
  loop : Clerk.GetLoop n
  attempts : List (Attempt n)
  result : Option (String × UInt64 × Err)
  deriving DecidableEq

/-- The calls of all clerks. -/
structure Clerks (n : Nat) where
  clients : Clients n
  gets : List (GetCall n)

/-- Everything that can happen. -/
inductive ClerkEvent (n : Nat) where
  /-- An event of the system or of a `Put`. -/
  | clients (e : ClientEvent n)
  /-- `Get` is called on a clerk whose `lastLeader` is `srv`. -/
  | get (srv : Fin n) (key : String)
  /-- The request of an attempt arrives, and `Submit` draws `id`. -/
  | handleGet (get attempt : Nat) (id : Int)
  /-- The response to the current attempt arrives. -/
  | respondGet (get : Nat)
  /-- The current attempt fails. -/
  | failGet (get : Nat)
  deriving DecidableEq

variable {n : Nat}

/-- A call of `Clerk.Get` with its first attempt. -/
def GetCall.new (srv : Fin n) (key : String) : GetCall n :=
  ⟨key, ⟨srv, 0⟩, [⟨srv, none⟩], none⟩

/-- The attempt `k` of the call led to the call `call` of `Submit`. -/
def GetCall.handled (g : GetCall n) (k : Nat) (attempt : Attempt n) (call : Nat) : GetCall n :=
  { g with attempts := g.attempts.set k { attempt with call := some call } }

/-- The request that an attempt sends. -/
def GetCall.request (g : GetCall n) : Request := .get g.key

/-- The call after its current attempt ended. -/
def GetCall.next (g : GetCall n) (outcome : Option GetResponse) : GetCall n :=
  match Clerk.get g.loop outcome with
  | .inl result => { g with result := some result }
  | .inr loop => { g with loop := loop, attempts := g.attempts ++ [⟨loop.srv, none⟩] }

/-- Somebody else than a clerk submits. -/
def ClientEvent.foreign : ClientEvent n → Bool
  | .system (.submit ..) => true
  | _ => false

namespace Clerks

/-- No clerk has made a call yet. -/
def init : Clerks n := ⟨.init, []⟩

/-- The history of `Submit`. -/
def calls (s : Clerks n) : List (Call n Request Reply) := s.clients.system.calls

/-- What an event does.  `none` is an event that cannot happen in the state. -/
def exec (s : Clerks n) : ClerkEvent n → Option (Clerks n)
  | .clients e =>
    if e.foreign then none
    else do
      let clients ← s.clients.exec e
      some { s with clients := clients }
  | .get srv key => some { s with gets := s.gets ++ [.new srv key] }
  | .handleGet get k id => do
    let g ← s.gets[get]?
    let attempt ← g.attempts[k]?
    match attempt.call with
    | some _ => none
    | none =>
      let clients ← s.clients.exec (.system (.submit attempt.srv id g.request))
      some ⟨clients, s.gets.set get (g.handled k attempt s.calls.length)⟩
  | .respondGet get => do
    let g ← s.gets[get]?
    match g.result with
    | some _ => none
    | none =>
      let attempt ← g.attempts.getLast?
      let call ← attempt.call
      let c ← s.calls[call]?
      let answer ← c.answer
      some { s with gets := s.gets.set get (g.next (some (KVService.get answer))) }
  | .failGet get => do
    let g ← s.gets[get]?
    match g.result with
    | some _ => none
    | none => some { s with gets := s.gets.set get (g.next none) }

/-- One event. -/
def Step (s s' : Clerks n) : Prop := ∃ e, s.exec e = some s'

end Clerks

/-- A run of all clerks. -/
abbrev ClerkRun (n : Nat) := Run (Clerks.init (n := n)) Clerks.Step

/-! ## What an event does -/

/-- How a call of `Clerk.Get` goes on. -/
inductive GetMove (s s' : Clerks n) (g : GetCall n) : GetCall n → Prop where
  | same : GetMove s s' g g
  | handle (k : Nat) (attempt : Attempt n) (id : Int) (hk : g.attempts[k]? = some attempt)
      (hnone : attempt.call = none)
      (hsys : s.clients.system.exec Store.machine (.submit attempt.srv id g.request) =
        some s'.clients.system) :
      GetMove s s' g (g.handled k attempt s.calls.length)
  | respond (attempt : Attempt n) (call : Nat) (c : Call n Request Reply)
      (answer : Answer n Reply) (hresult : g.result = none)
      (hlast : g.attempts.getLast? = some attempt) (hcall : attempt.call = some call)
      (hc : s.calls[call]? = some c) (hanswer : c.answer = some answer) :
      GetMove s s' g (g.next (some (KVService.get answer)))
  | fail (hresult : g.result = none) : GetMove s s' g (g.next none)

namespace Clerks

variable {s s' : Clerks n}

theorem clients_inv {e : ClientEvent n} (h : s.exec (.clients e) = some s') :
    e.foreign = false ∧ s.clients.exec e = some s'.clients ∧ s'.gets = s.gets := by
  rw [exec] at h
  split_ifs at h with hforeign
  obtain ⟨clients, hclients, hdone⟩ := Option.bind_eq_some_iff.mp h
  cases hdone
  exact ⟨by simpa using hforeign, hclients, rfl⟩

theorem handleGet_inv {get k : Nat} {id : Int} (h : s.exec (.handleGet get k id) = some s') :
    ∃ g attempt, s.gets[get]? = some g ∧ g.attempts[k]? = some attempt ∧ attempt.call = none ∧
      s.clients.exec (.system (.submit attempt.srv id g.request)) = some s'.clients ∧
      s'.gets = s.gets.set get (g.handled k attempt s.calls.length) := by
  obtain ⟨g, hg, h⟩ := Option.bind_eq_some_iff.mp h
  obtain ⟨attempt, hk, h⟩ := Option.bind_eq_some_iff.mp h
  split at h
  · cases h
  · rename_i hnone
    obtain ⟨clients, hclients, h⟩ := Option.bind_eq_some_iff.mp h
    cases h
    exact ⟨g, attempt, hg, hk, hnone, hclients, rfl⟩

theorem respondGet_inv {get : Nat} (h : s.exec (.respondGet get) = some s') :
    ∃ g attempt call c answer, s.gets[get]? = some g ∧ g.result = none ∧
      g.attempts.getLast? = some attempt ∧ attempt.call = some call ∧
      s.calls[call]? = some c ∧ c.answer = some answer ∧ s'.clients = s.clients ∧
      s'.gets = s.gets.set get (g.next (some (KVService.get answer))) := by
  obtain ⟨g, hg, h⟩ := Option.bind_eq_some_iff.mp h
  split at h
  · cases h
  · rename_i hresult
    obtain ⟨attempt, hlast, h⟩ := Option.bind_eq_some_iff.mp h
    obtain ⟨call, hcall, h⟩ := Option.bind_eq_some_iff.mp h
    obtain ⟨c, hc, h⟩ := Option.bind_eq_some_iff.mp h
    obtain ⟨answer, hanswer, h⟩ := Option.bind_eq_some_iff.mp h
    cases h
    exact ⟨g, attempt, call, c, answer, hg, hresult, hlast, hcall, hc, hanswer, rfl, rfl⟩

theorem failGet_inv {get : Nat} (h : s.exec (.failGet get) = some s') :
    ∃ g, s.gets[get]? = some g ∧ g.result = none ∧ s'.clients = s.clients ∧
      s'.gets = s.gets.set get (g.next none) := by
  obtain ⟨g, hg, h⟩ := Option.bind_eq_some_iff.mp h
  split at h
  · cases h
  · rename_i hresult
    cases h
    exact ⟨g, hg, hresult, rfl, rfl⟩

/-- The `Put`s and the system make a step of their own, or none. -/
theorem step_clients (h : Clerks.Step s s') :
    Clients.Step s.clients s'.clients ∨ s'.clients = s.clients := by
  obtain ⟨e, h⟩ := h
  cases e with
  | clients e => exact Or.inl ⟨e, (clients_inv h).2.1⟩
  | get srv key =>
    cases h
    exact Or.inr rfl
  | handleGet get k id =>
    obtain ⟨_, _, _, _, _, hclients, _⟩ := handleGet_inv h
    exact Or.inl ⟨_, hclients⟩
  | respondGet get =>
    obtain ⟨_, _, _, _, _, _, _, _, _, _, _, hclients, _⟩ := respondGet_inv h
    exact Or.inr hclients
  | failGet get =>
    obtain ⟨_, _, _, hclients, _⟩ := failGet_inv h
    exact Or.inr hclients

/-- One call of the list goes on, and the others stay. -/
theorem set_getMove {get : Nat} {g q : GetCall n} (hg : s.gets[get]? = some g)
    (hmove : GetMove s s' g q) {get' : Nat} {g' : GetCall n}
    (h : (s.gets.set get q)[get']? = some g') :
    ∃ g, s.gets[get']? = some g ∧ GetMove s s' g g' := by
  by_cases hget : get' = get
  · subst hget
    rw [List.getElem?_set_self (List.getElem?_eq_some_iff.mp hg).1] at h
    cases h
    exact ⟨g, hg, hmove⟩
  · rw [List.getElem?_set_ne (Ne.symm hget)] at h
    exact ⟨g', h, .same⟩

/-- A call after an event is a new one, or goes on from before. -/
theorem step_gets (h : Clerks.Step s s') {get : Nat} {g' : GetCall n}
    (hg' : s'.gets[get]? = some g') :
    (s.gets[get]? = none ∧ ∃ srv key, g' = .new srv key) ∨
      ∃ g, s.gets[get]? = some g ∧ GetMove s s' g g' := by
  obtain ⟨e, h⟩ := h
  cases e with
  | clients e =>
    rw [(clients_inv h).2.2] at hg'
    exact Or.inr ⟨g', hg', .same⟩
  | get srv key =>
    cases h
    by_cases hlt : get < s.gets.length
    · exact Or.inr ⟨g', (List.getElem?_append_left hlt).symm.trans hg', .same⟩
    · have hnew := (List.getElem?_append_right (Nat.le_of_not_lt hlt)).symm.trans hg'
      exact Or.inl ⟨List.getElem?_eq_none (Nat.le_of_not_lt hlt), srv, key,
        List.mem_singleton.mp (List.mem_of_getElem? hnew)⟩
  | handleGet get k id =>
    obtain ⟨g, attempt, hg, hk, hnone, hclients, heq⟩ := handleGet_inv h
    rw [heq] at hg'
    exact Or.inr (set_getMove hg
      (.handle k attempt id hk hnone (Clients.system_inv hclients).1) hg')
  | respondGet get =>
    obtain ⟨g, attempt, call, c, answer, hg, hresult, hlast, hcall, hc, hanswer, _, heq⟩ :=
      respondGet_inv h
    rw [heq] at hg'
    exact Or.inr (set_getMove hg (.respond attempt call c answer hresult hlast hcall hc hanswer)
      hg')
  | failGet get =>
    obtain ⟨g, hg, hresult, _, heq⟩ := failGet_inv h
    rw [heq] at hg'
    exact Or.inr (set_getMove hg (.fail hresult) hg')

/-- No call is forgotten. -/
theorem step_length (h : Clerks.Step s s') : s.gets.length ≤ s'.gets.length := by
  obtain ⟨e, h⟩ := h
  cases e with
  | clients e => rw [(clients_inv h).2.2]
  | get srv key =>
    cases h
    simp
  | handleGet get k id =>
    obtain ⟨_, _, _, _, _, _, heq⟩ := handleGet_inv h
    rw [heq, List.length_set]
  | respondGet get =>
    obtain ⟨_, _, _, _, _, _, _, _, _, _, _, _, heq⟩ := respondGet_inv h
    rw [heq, List.length_set]
  | failGet get =>
    obtain ⟨_, _, _, _, heq⟩ := failGet_inv h
    rw [heq, List.length_set]

end Clerks

/-- The `Put`s of a run. -/
def ClerkRun.clients (run : ClerkRun n) : ClientRun n where
  state t := (run.state t).clients
  start := by rw [run.start]; rfl
  next t := by
    rcases run.next t with h | h
    · exact Clerks.step_clients h
    · exact Or.inr (by rw [h])

theorem ClerkRun.clients_state (run : ClerkRun n) (t : Nat) :
    run.clients.state t = (run.state t).clients := rfl

/-! ## Calls of either kind -/

/-- The name of a call of a clerk. -/
inductive ClerkCall where
  | put (put : Nat)
  | get (get : Nat)
  deriving DecidableEq, Repr

/-- What calls of either kind have: the request, the attempts, and the output
that `performRandomOp` records once the call has returned. -/
structure CallView (n : Nat) where
  request : Request
  attempts : List (Attempt n)
  output : Option KvOutput
  deriving DecidableEq

def PutCall.view (p : PutCall n) : CallView n :=
  ⟨p.request, p.attempts, p.result.map fun err => ⟨"", 0, err.string⟩⟩

def GetCall.view (g : GetCall n) : CallView n :=
  ⟨g.request, g.attempts, g.result.map fun r => ⟨r.1, r.2.1, r.2.2.string⟩⟩

/-- A call that has been made. -/
def Clerks.view (s : Clerks n) : ClerkCall → Option (CallView n)
  | .put put => (s.clients.puts[put]?).map PutCall.view
  | .get get => (s.gets[get]?).map GetCall.view

/-- A clerk returns the result of an operation as it is, or says `ErrMaybe` of a
version error. -/
def Shown (reply : Reply) (out : KvOutput) : Prop :=
  out = reply.output ∨ reply = .put .errVersion ∧ out = ⟨"", 0, Err.errMaybe.string⟩

/-- How a call goes on. -/
inductive ViewMove (s s' : Clerks n) (v : CallView n) : CallView n → Prop where
  | same : ViewMove s s' v v
  /-- An attempt arrives, and is the next call of `Submit`. -/
  | handle (k : Nat) (attempt : Attempt n) (c : Call n Request Reply)
      (hk : v.attempts[k]? = some attempt) (hnone : attempt.call = none)
      (hc : s'.calls[s.calls.length]? = some c) (hreq : c.req = v.request) :
      ViewMove s s' v
        { v with attempts := v.attempts.set k { attempt with call := some s.calls.length } }
  /-- The call returns the result of its last attempt. -/
  | returns (attempt : Attempt n) (call : Nat) (c : Call n Request Reply) (reply : Reply)
      (out : KvOutput) (hout : v.output = none) (hlast : v.attempts.getLast? = some attempt)
      (hcall : attempt.call = some call) (hc : s.calls[call]? = some c)
      (hanswer : c.answer = some (.ok (some reply))) (hshown : Shown reply out) :
      ViewMove s s' v { v with output := some out }
  /-- The clerk tries another server. -/
  | retry (srv : Fin n) (hout : v.output = none) :
      ViewMove s s' v { v with attempts := v.attempts ++ [⟨srv, none⟩] }

/-- The body of the loop of `Put` returns the result of an operation, or goes on. -/
theorem PutCall.view_next (p : PutCall n) (answer : Answer n Reply) :
    (∃ srv, (p.next (.response (KVService.put answer))).view =
      { p.view with attempts := p.attempts ++ [⟨srv, none⟩] }) ∨
    ∃ reply out, answer = .ok (some reply) ∧ Shown reply out ∧
      (p.next (.response (KVService.put answer))).view = { p.view with output := some out } := by
  cases answer with
  | wrongLeader leader => exact Or.inl ⟨_, rfl⟩
  | ok val =>
    match val with
    | none => exact Or.inl ⟨_, rfl⟩
    | some (.get ..) => exact Or.inl ⟨_, rfl⟩
    | some (.put .ok) => exact Or.inr ⟨_, _, rfl, Or.inl rfl, rfl⟩
    | some (.put .errVersion) =>
      refine Or.inr ⟨_, ⟨"", 0, (if p.loop.firstAttempt then Err.errVersion
        else Err.errMaybe).string⟩, rfl, ?_, rfl⟩
      split_ifs
      · exact Or.inl rfl
      · exact Or.inr ⟨rfl, rfl⟩
    | some (.put .errNoKey) => exact Or.inl ⟨_, rfl⟩
    | some (.put .errWrongLeader) => exact Or.inl ⟨_, rfl⟩
    | some (.put .errMaybe) => exact Or.inl ⟨_, rfl⟩

/-- The body of the loop of `Get` returns the result of an operation, or goes on. -/
theorem GetCall.view_next (g : GetCall n) (answer : Answer n Reply) :
    (∃ srv, (g.next (some (KVService.get answer))).view =
      { g.view with attempts := g.attempts ++ [⟨srv, none⟩] }) ∨
    ∃ reply out, answer = .ok (some reply) ∧ Shown reply out ∧
      (g.next (some (KVService.get answer))).view = { g.view with output := some out } := by
  cases answer with
  | wrongLeader leader => exact Or.inl ⟨_, rfl⟩
  | ok val =>
    match val with
    | none => exact Or.inl ⟨_, rfl⟩
    | some (.put err) => exact Or.inl ⟨_, rfl⟩
    | some (.get value version err) =>
      cases err with
      | errWrongLeader => exact Or.inl ⟨_, rfl⟩
      | ok | errNoKey | errVersion | errMaybe => exact Or.inr ⟨_, _, rfl, Or.inl rfl, rfl⟩

theorem PutMove.view {s s' : Clerks n} {p p' : PutCall n}
    (h : PutMove s.clients s'.clients p p') : ViewMove s s' p.view p'.view := by
  cases h with
  | same => exact .same
  | handle k attempt id hk hnone hsys =>
    exact .handle k attempt _ hk hnone (System.submit_calls hsys) rfl
  | respond attempt call c answer hresult hlast hcall hc hanswer =>
    have hout : p.view.output = none := by rw [PutCall.view, hresult, Option.map_none]
    rcases p.view_next answer with ⟨srv, heq⟩ | ⟨reply, out, rfl, hshown, heq⟩
    · rw [heq]
      exact .retry srv hout
    · rw [heq]
      exact .returns attempt call c reply out hout hlast hcall hc hanswer hshown
  | fail hresult => exact .retry _ (by rw [PutCall.view, hresult, Option.map_none])

theorem GetMove.view {s s' : Clerks n} {g g' : GetCall n} (h : GetMove s s' g g') :
    ViewMove s s' g.view g'.view := by
  cases h with
  | same => exact .same
  | handle k attempt id hk hnone hsys =>
    exact .handle k attempt _ hk hnone (System.submit_calls hsys) rfl
  | respond attempt call c answer hresult hlast hcall hc hanswer =>
    have hout : g.view.output = none := by rw [GetCall.view, hresult, Option.map_none]
    rcases g.view_next answer with ⟨srv, heq⟩ | ⟨reply, out, rfl, hshown, heq⟩
    · rw [heq]
      exact .retry srv hout
    · rw [heq]
      exact .returns attempt call c reply out hout hlast hcall hc hanswer hshown
  | fail hresult => exact .retry _ (by rw [GetCall.view, hresult, Option.map_none])

namespace Clerks

variable {s s' : Clerks n}

/-- A call after an event is a new one, or goes on from before. -/
theorem step_view (h : Clerks.Step s s') {o : ClerkCall} {v' : CallView n}
    (hv' : s'.view o = some v') :
    (s.view o = none ∧ v'.output = none ∧ ∀ attempt ∈ v'.attempts, attempt.call = none) ∨
      ∃ v, s.view o = some v ∧ ViewMove s s' v v' := by
  cases o with
  | put put =>
    obtain ⟨p', hp', rfl⟩ := Option.map_eq_some_iff.mp hv'
    rcases step_clients h with hstep | hsame
    · rcases Clients.step_puts hstep hp' with ⟨hnone, srv, key, value, version, rfl⟩ |
        ⟨p, hp, hmove⟩
      · refine Or.inl ⟨by rw [view, hnone, Option.map_none], rfl, fun attempt hmem => ?_⟩
        rw [List.mem_singleton.mp hmem]
      · exact Or.inr ⟨p.view, by rw [view, hp, Option.map_some], hmove.view⟩
    · rw [hsame] at hp'
      exact Or.inr ⟨p'.view, by rw [view, hp', Option.map_some], .same⟩
  | get get =>
    obtain ⟨g', hg', rfl⟩ := Option.map_eq_some_iff.mp hv'
    rcases step_gets h hg' with ⟨hnone, srv, key, rfl⟩ | ⟨g, hg, hmove⟩
    · refine Or.inl ⟨by rw [view, hnone, Option.map_none], rfl, fun attempt hmem => ?_⟩
      rw [List.mem_singleton.mp hmem]
    · exact Or.inr ⟨g.view, by rw [view, hg, Option.map_some], hmove.view⟩

/-- A call that was made goes on. -/
theorem exists_view (h : Clerks.Step s s') {o : ClerkCall} {v : CallView n}
    (hv : s.view o = some v) : ∃ v', s'.view o = some v' ∧ ViewMove s s' v v' := by
  obtain ⟨v', hv'⟩ : ∃ v', s'.view o = some v' := by
    cases o with
    | put put =>
      obtain ⟨p, hp, _⟩ := Option.map_eq_some_iff.mp hv
      have hlt := (List.getElem?_eq_some_iff.mp hp).1
      have hle : s.clients.puts.length ≤ s'.clients.puts.length := by
        rcases step_clients h with hstep | hsame
        · exact Clients.step_length hstep
        · rw [hsame]
      exact ⟨_, by rw [view, List.getElem?_eq_getElem (hlt.trans_le hle), Option.map_some]⟩
    | get get =>
      obtain ⟨g, hg, _⟩ := Option.map_eq_some_iff.mp hv
      have hlt := (List.getElem?_eq_some_iff.mp hg).1
      exact ⟨_, by rw [view, List.getElem?_eq_getElem (hlt.trans_le (step_length h)),
        Option.map_some]⟩
  rcases step_view h hv' with ⟨hnone, _⟩ | ⟨v₀, hv₀, hmove⟩
  · rw [hv] at hnone
    cases hnone
  · cases hv.symm.trans hv₀
    exact ⟨v', hv', hmove⟩

end Clerks

/-! ## Calls over time -/

/-- A later state of the same call. -/
structure ViewLe (v v' : CallView n) : Prop where
  request : v'.request = v.request
  output : v.output ≠ none → v'.output = v.output
  /-- The attempt that was answered stays the last one. -/
  last : ∀ {attempt}, v.output ≠ none → v.attempts.getLast? = some attempt →
    attempt.call ≠ none → v'.attempts.getLast? = some attempt

theorem ViewLe.refl (v : CallView n) : ViewLe v v := ⟨rfl, fun _ => rfl, fun _ hlast _ => hlast⟩

theorem ViewLe.trans {v w x : CallView n} (h : ViewLe v w) (h' : ViewLe w x) : ViewLe v x where
  request := h'.request.trans h.request
  output hne := (h'.output (by rw [h.output hne]; exact hne)).trans (h.output hne)
  last hne hlast hcall := h'.last (by rw [h.output hne]; exact hne) (h.last hne hlast hcall) hcall

theorem ViewMove.le {s s' : Clerks n} {v v' : CallView n} (h : ViewMove s s' v v') :
    ViewLe v v' := by
  cases h with
  | same => exact .refl v
  | handle k attempt c hk hnone hc hreq =>
    refine ⟨rfl, fun _ => rfl, fun {a} _ hlast hcall => ?_⟩
    -- The attempt that changes had no call before.
    rw [List.getLast?_eq_getElem?] at hlast ⊢
    have hne : k ≠ v.attempts.length - 1 := by
      rintro rfl
      rw [hk] at hlast
      cases hlast
      exact hcall hnone
    rw [List.length_set, List.getElem?_set_ne hne, hlast]
  | returns attempt call c reply out hout =>
    exact ⟨rfl, fun hne => absurd hout hne, fun hne => absurd hout hne⟩
  | retry srv hout => exact ⟨rfl, fun hne => absurd hout hne, fun hne => absurd hout hne⟩

theorem ClerkRun.view_le (run : ClerkRun n) {t u : Nat} (htu : t ≤ u) {o : ClerkCall}
    {v : CallView n} (hv : (run.state t).view o = some v) :
    ∃ v', (run.state u).view o = some v' ∧ ViewLe v v' := by
  induction u, htu using Nat.le_induction with
  | base => exact ⟨v, hv, .refl v⟩
  | succ u _ ih =>
    obtain ⟨w, hw, hle⟩ := ih
    rcases run.next u with hstep | hsame
    · obtain ⟨w', hw', hmove⟩ := Clerks.exists_view hstep hw
      exact ⟨w', hw', hle.trans hmove.le⟩
    · exact ⟨w, by rw [hsame, hw], hle⟩

theorem ClerkRun.calls_le (run : ClerkRun n) {t u : Nat} (htu : t ≤ u) :
    CallsLe (run.state t).calls (run.state u).calls :=
  run.clients.system.calls_le htu

/-- What a call that has returned shows was answered to its last attempt. -/
def Answered (calls : List (Call n Request Reply)) (v : CallView n) (out : KvOutput)
    (call : Nat) (c : Call n Request Reply) (reply : Reply) : Prop :=
  ∃ attempt, v.attempts.getLast? = some attempt ∧ attempt.call = some call ∧
    calls[call]? = some c ∧ c.answer = some (.ok (some reply)) ∧ Shown reply out

theorem Answered.mono {calls calls' : List (Call n Request Reply)} {v v' : CallView n}
    {out : KvOutput} {call : Nat} {c : Call n Request Reply} {reply : Reply}
    (h : Answered calls v out call c reply) (hcalls : CallsLe calls calls')
    (hne : v.output ≠ none) (hle : ViewLe v v') : Answered calls' v' out call c reply := by
  obtain ⟨attempt, hlast, hcall, hc, hanswer, hshown⟩ := h
  obtain ⟨c', hc', hcc⟩ := hcalls call c hc
  cases hcc.final (by rw [hanswer]; exact Option.some_ne_none _)
  exact ⟨attempt, hle.last hne hlast (by rw [hcall]; exact Option.some_ne_none _), hcall, hc',
    hanswer, hshown⟩

theorem ClerkRun.answered (run : ClerkRun n) {t : Nat} {o : ClerkCall} {v : CallView n}
    (hv : (run.state t).view o = some v) {out : KvOutput} (hout : v.output = some out) :
    ∃ call c reply, Answered (run.state t).calls v out call c reply := by
  induction t generalizing v with
  | zero =>
    rw [run.start] at hv
    cases o <;> simp [Clerks.view, Clerks.init, Clients.init] at hv
  | succ t ih =>
    rcases run.next t with hstep | hsame
    · have hcalls := run.calls_le (Nat.le_succ t)
      rcases Clerks.step_view hstep hv with ⟨_, hnone, _⟩ | ⟨w, hw, hmove⟩
      · rw [hnone] at hout
        cases hout
      by_cases hold : w.output = none
      · -- The call returns now.
        cases hmove with
        | same | handle | retry => exact absurd (hold.symm.trans hout) (by simp)
        | returns attempt call c reply out' _ hlast hcall hc hanswer hshown =>
          cases hout
          obtain ⟨c', hc', hcc⟩ := hcalls call c hc
          cases hcc.final (by rw [hanswer]; exact Option.some_ne_none _)
          exact ⟨call, c, reply, attempt, hlast, hcall, hc', hanswer, hshown⟩
      · have hle := hmove.le
        obtain ⟨call, c, reply, h⟩ := ih hw ((hle.output hold).symm.trans hout)
        exact ⟨call, c, reply, h.mono hcalls hold hle⟩
    · rw [hsame] at hv ⊢
      exact ih hv hout

/-! ## Whose call of `Submit` it is -/

/-- An attempt of the call led to the call `call` of `Submit`. -/
def CallView.Made (v : CallView n) (call : Nat) : Prop :=
  ∃ attempt ∈ v.attempts, attempt.call = some call

/-- The call `call` of `Submit` belongs to the call `o` of a clerk. -/
def Clerks.Owns (s : Clerks n) (o : ClerkCall) (call : Nat) : Prop :=
  ∃ v, s.view o = some v ∧ v.Made call

/-- The attempt that arrives made no call before. -/
theorem CallView.made_set {v : CallView n} {k : Nat} {attempt : Attempt n}
    (hk : v.attempts[k]? = some attempt) (hnone : attempt.call = none) (call call' : Nat) :
    ({ v with attempts := v.attempts.set k { attempt with call := some call } } :
      CallView n).Made call' ↔ v.Made call' ∨ call' = call := by
  constructor
  · rintro ⟨a, hmem, hcall⟩
    rcases List.mem_or_eq_of_mem_set hmem with hold | rfl
    · exact Or.inl ⟨a, hold, hcall⟩
    · exact Or.inr (Option.some.inj hcall).symm
  · rintro (⟨a, hmem, hcall⟩ | rfl)
    · obtain ⟨j, hj⟩ := List.mem_iff_getElem?.mp hmem
      have hne : k ≠ j := by
        rintro rfl
        rw [hk] at hj
        cases hj
        rw [hnone] at hcall
        cases hcall
      exact ⟨a, List.mem_of_getElem? ((List.getElem?_set_ne hne).trans hj), hcall⟩
    · exact ⟨_, List.mem_set (List.getElem?_eq_some_iff.mp hk).1 _, rfl⟩

theorem ViewMove.made_iff {s s' : Clerks n} {v v' : CallView n} (h : ViewMove s s' v v')
    (hlength : s'.calls.length = s.calls.length) (call : Nat) : v'.Made call ↔ v.Made call := by
  cases h with
  | same => exact Iff.rfl
  | handle k attempt c hk hnone hc hreq =>
    have := (List.getElem?_eq_some_iff.mp hc).1
    omega
  | returns => exact Iff.rfl
  | retry srv hout => simp [CallView.Made, or_and_right, exists_or]

/-- Only `Submit` makes the history longer. -/
theorem System.length_calls {S Req Val D : Type} {m : StateMachine S Req Val D}
    {s s' : System n S Req Val D} {e : SystemEvent n Req D} (h : s.exec m e = some s')
    (hne : ∀ i id req, e ≠ .submit i id req) : s'.calls.length = s.calls.length := by
  by_cases hraft : ∃ ce, e = .raft ce
  · obtain ⟨ce, rfl⟩ := hraft
    rw [(System.exec_internal h).2.2]
  · obtain ⟨i, step, r, _, _, heq⟩ := System.exec_step h fun ce hce => hraft ⟨ce, hce⟩
    have hcalls : s'.calls = s.record r e := by rw [heq]
    rw [hcalls]
    cases e with
    | submit i id req => exact absurd rfl (hne i id req)
    | register | leave => simp [System.record]
    | _ => rfl

namespace Clerks

variable {s s' : Clerks n}

/-- What an event does to the owners of calls. -/
inductive Owners (s s' : Clerks n) : Prop where
  /-- There is no new call of `Submit`. -/
  | quiet (hlength : s'.calls.length = s.calls.length)
      (howns : ∀ o call, s'.Owns o call ↔ s.Owns o call)
  /-- The new call belongs to `o`. -/
  | submit (o : ClerkCall) (hlength : s'.calls.length = s.calls.length + 1)
      (howns : ∀ o' call, s'.Owns o' call ↔ s.Owns o' call ∨ o' = o ∧ call = s.calls.length)

theorem Owners.of_length (h : Clerks.Step s s') (hlength : s'.calls.length = s.calls.length) :
    Owners s s' := by
  refine .quiet hlength fun o call => ⟨?_, ?_⟩
  · rintro ⟨v', hv', hmade⟩
    rcases step_view h hv' with ⟨_, _, hnew⟩ | ⟨v, hv, hmove⟩
    · obtain ⟨attempt, hmem, hcall⟩ := hmade
      rw [hnew attempt hmem] at hcall
      cases hcall
    · exact ⟨v, hv, (hmove.made_iff hlength call).mp hmade⟩
  · rintro ⟨v, hv, hmade⟩
    obtain ⟨v', hv', hmove⟩ := exists_view h hv
    exact ⟨v', hv', (hmove.made_iff hlength call).mpr hmade⟩

theorem Owners.of_handle {o : ClerkCall} {v : CallView n} {k : Nat} {attempt : Attempt n}
    (hv : s.view o = some v) (hk : v.attempts[k]? = some attempt) (hnone : attempt.call = none)
    (hlength : s'.calls.length = s.calls.length + 1)
    (hv' : s'.view o = some
      { v with attempts := v.attempts.set k { attempt with call := some s.calls.length } })
    (hother : ∀ o', o' ≠ o → s'.view o' = s.view o') : Owners s s' := by
  refine .submit o hlength fun o' call => ?_
  by_cases ho : o' = o
  · subst ho
    simp [Owns, hv, hv', CallView.made_set hk hnone]
  · simp [Owns, hother o' ho, ho]

/-- The new call is the last one of the history. -/
theorem length_submit {i : Fin n} {id : Int} {req : Request}
    (h : s.clients.system.exec Store.machine (.submit i id req) = some s'.clients.system) :
    s'.calls.length = s.calls.length + 1 := by
  obtain ⟨_, _, r, _, _, heq⟩ := System.exec_step h fun _ hraft => by cases hraft
  have hcalls : s'.calls = s.clients.system.record r (.submit i id req) := by
    rw [calls, heq]
  rw [hcalls, System.record, List.length_append, List.length_singleton]
  rfl

theorem step_owners (h : Clerks.Step s s') : Owners s s' := by
  obtain ⟨e, h⟩ := id h
  cases e with
  | clients e =>
    obtain ⟨hforeign, hclients, hgets⟩ := clients_inv h
    cases e with
    | system e =>
      refine .of_length ‹_› (System.length_calls (Clients.system_inv hclients).1 ?_)
      rintro i id req rfl
      cases hforeign
    | put srv key value version =>
      refine .of_length ‹_› ?_
      rw [calls, ← Option.some.inj hclients]
      rfl
    | handle put k id =>
      obtain ⟨p, attempt, hp, hk, hnone, hsys, hputs⟩ := Clients.handle_inv hclients
      have hlt := (List.getElem?_eq_some_iff.mp hp).1
      refine .of_handle (o := .put put) (v := p.view) (by rw [view, hp, Option.map_some]) hk hnone
        (length_submit hsys) ?_ ?_
      · rw [view, hputs, List.getElem?_set_self hlt]
        rfl
      · rintro (put' | get) hne
        · rw [view, view, hputs, List.getElem?_set_ne (by rintro rfl; exact hne rfl)]
        · rw [view, view, hgets]
    | respond put =>
      obtain ⟨_, _, _, _, _, _, _, _, _, _, _, hsys, _⟩ := Clients.respond_inv hclients
      exact .of_length ‹_› (by rw [calls, hsys]; rfl)
    | fail put =>
      obtain ⟨_, _, _, hsys, _⟩ := Clients.fail_inv hclients
      exact .of_length ‹_› (by rw [calls, hsys]; rfl)
  | get srv key =>
    cases h
    exact .of_length ‹_› rfl
  | handleGet get k id =>
    obtain ⟨g, attempt, hg, hk, hnone, hclients, hgets⟩ := handleGet_inv h
    obtain ⟨hsys, hputs⟩ := Clients.system_inv hclients
    have hlt := (List.getElem?_eq_some_iff.mp hg).1
    refine .of_handle (o := .get get) (v := g.view) (by rw [view, hg, Option.map_some]) hk hnone
      (length_submit hsys) ?_ ?_
    · rw [view, hgets, List.getElem?_set_self hlt]
      rfl
    · rintro (put | get') hne
      · rw [view, view, hputs]
      · rw [view, view, hgets, List.getElem?_set_ne (by rintro rfl; exact hne rfl)]
  | respondGet get =>
    obtain ⟨_, _, _, _, _, _, _, _, _, _, _, hclients, _⟩ := respondGet_inv h
    exact .of_length ‹_› (by rw [calls, hclients]; rfl)
  | failGet get =>
    obtain ⟨_, _, _, hclients, _⟩ := failGet_inv h
    exact .of_length ‹_› (by rw [calls, hclients]; rfl)

end Clerks

namespace ClerkRun

variable (run : ClerkRun n)

/-- Every call of `Submit` belongs to a call of a clerk. -/
theorem owner (t : Nat) {call : Nat} (hlt : call < (run.state t).calls.length) :
    ∃ o, (run.state t).Owns o call := by
  induction t with
  | zero =>
    rw [run.start] at hlt
    cases hlt
  | succ t ih =>
    rcases run.next t with hstep | hsame
    · cases Clerks.step_owners hstep with
      | quiet hlength howns =>
        obtain ⟨o, ho⟩ := ih (hlength ▸ hlt)
        exact ⟨o, (howns o call).mpr ho⟩
      | submit o hlength howns =>
        rcases Nat.lt_succ_iff_lt_or_eq.mp (hlength ▸ hlt) with hold | hnew
        · obtain ⟨o', ho'⟩ := ih hold
          exact ⟨o', (howns o' call).mpr (Or.inl ho')⟩
        · exact ⟨o, (howns o call).mpr (Or.inr ⟨rfl, hnew⟩)⟩
    · rw [hsame] at hlt ⊢
      exact ih hlt

/-- The call is in the history, with the request of its owner. -/
theorem owned (t : Nat) {o : ClerkCall} {v : CallView n} (hv : (run.state t).view o = some v)
    {call : Nat} (hmade : v.Made call) :
    ∃ c, (run.state t).calls[call]? = some c ∧ c.req = v.request := by
  induction t generalizing v with
  | zero =>
    rw [run.start] at hv
    cases o <;> simp [Clerks.view, Clerks.init, Clients.init] at hv
  | succ t ih =>
    rcases run.next t with hstep | hsame
    · rcases Clerks.step_view hstep hv with ⟨_, _, hnew⟩ | ⟨w, hw, hmove⟩
      · obtain ⟨attempt, hmem, hcall⟩ := hmade
        rw [hnew attempt hmem] at hcall
        cases hcall
      by_cases hold : w.Made call
      · obtain ⟨c, hc, hreq⟩ := ih hw hold
        obtain ⟨c', hc', hcc⟩ := run.calls_le (Nat.le_succ t) call c hc
        exact ⟨c', hc', (congrArg Op.req hcc.op).trans (hreq.trans hmove.le.request.symm)⟩
      · cases hmove with
        | same => exact absurd hmade hold
        | handle k attempt c hk hnone hc hreq =>
          cases ((CallView.made_set hk hnone _ _).mp hmade).resolve_left hold
          exact ⟨c, hc, hreq⟩
        | returns => exact absurd hmade hold
        | retry srv hout =>
          refine absurd ?_ hold
          simpa [CallView.Made, or_and_right, exists_or] using hmade
    · rw [hsame] at hv ⊢
      exact ih hv hmade

theorem owns_lt {t : Nat} {o : ClerkCall} {call : Nat} (h : (run.state t).Owns o call) :
    call < (run.state t).calls.length := by
  obtain ⟨v, hv, hmade⟩ := h
  obtain ⟨c, hc, _⟩ := run.owned t hv hmade
  exact (List.getElem?_eq_some_iff.mp hc).1

/-- No two calls of clerks have a call of `Submit` in common. -/
theorem owner_unique (t : Nat) {o o' : ClerkCall} {call : Nat} (h : (run.state t).Owns o call)
    (h' : (run.state t).Owns o' call) : o' = o := by
  induction t with
  | zero =>
    have := run.owns_lt h
    rw [run.start] at this
    cases this
  | succ t ih =>
    rcases run.next t with hstep | hsame
    · cases Clerks.step_owners hstep with
      | quiet hlength howns => exact ih ((howns o call).mp h) ((howns o' call).mp h')
      | submit x hlength howns =>
        rcases (howns o call).mp h with hold | ⟨ho, heq⟩ <;>
          rcases (howns o' call).mp h' with hold' | ⟨ho', heq'⟩
        · exact ih hold hold'
        · exact absurd (run.owns_lt hold) (by omega)
        · exact absurd (run.owns_lt hold') (by omega)
        · rw [ho, ho']
    · rw [hsame] at h h'
      exact ih h h'

theorem owns_mono {t u : Nat} (htu : t ≤ u) {o : ClerkCall} {call : Nat}
    (h : (run.state t).Owns o call) : (run.state u).Owns o call := by
  induction u, htu using Nat.le_induction with
  | base => exact h
  | succ u _ ih =>
    rcases run.next u with hstep | hsame
    · cases Clerks.step_owners hstep with
      | quiet _ howns => exact (howns o call).mpr ih
      | submit _ _ howns => exact (howns o call).mpr (Or.inl ih)
    · rw [hsame]
      exact ih

/-- What belongs to a call that was not made yet comes later. -/
theorem owned_after {t u : Nat} {o : ClerkCall} (hnone : (run.state t).view o = none) {call : Nat}
    (h : (run.state u).Owns o call) : (run.state t).calls.length ≤ call := by
  have hlt := run.owns_lt h
  by_contra hle
  -- The call was in the history at `t` already, and belonged to another one.
  obtain ⟨o', ho'⟩ := run.owner t (Nat.lt_of_not_le hle)
  have hsame := run.owner_unique _ (run.owns_mono (Nat.le_max_left t u) ho')
    (run.owns_mono (Nat.le_max_right t u) h)
  subst hsame
  obtain ⟨v, hv, _⟩ := ho'
  rw [hnone] at hv
  cases hv

end ClerkRun

end KvRaft
