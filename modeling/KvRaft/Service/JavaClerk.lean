import KvRaft.Service.Clerk

/-!
# The Java clerk

Translated from `kvraft-client-java/src/main/java/com/kvraft/Clerk.java`,
`GetResult.java` and `KVRaftException.java`, next to the loops of the Go clerk.

The Go clerk has one loop for each operation, and `Put` remembers in
`firstAttempt` that no attempt has failed.  The Java clerk has one
`callWithRetry` for both, which calls itself from the callbacks of an attempt
with `potentiallyProcessed`.  `Mirrors` says how the body of a loop has to match
the callbacks for the two to agree (`Mirrors.callWithRetry`), and both loops do.

A call is given the outcomes of its attempts, where `none` is an error of the
transport.  When they end before the call does, its next attempt is under way.
The pauses between attempts and the text of an exception are left out.
-/

namespace KvRaft

/-- What a call does: the servers that it contacts in turn, what it ends with,
and the value of `lastLeader` then. -/
structure CallTrace (n : Nat) (R : Type) where
  servers : List (Fin n)
  result : Option R
  lastLeader : Fin n
  deriving DecidableEq, Repr

namespace CallTrace

variable {n : Nat} {R S : Type}

/-- A call that contacts `srv` first. -/
def after (srv : Fin n) (t : CallTrace n R) : CallTrace n R :=
  { t with servers := srv :: t.servers }

/-- The call with another form of result. -/
def map (f : R → S) (t : CallTrace n R) : CallTrace n S :=
  ⟨t.servers, t.result.map f, t.lastLeader⟩

@[simp]
theorem map_after (f : R → S) (srv : Fin n) (t : CallTrace n R) :
    (t.after srv).map f = (t.map f).after srv := rfl

end CallTrace

namespace Clerk

variable {n : Nat} {L T R : Type}

/-- The `for` of `Get` and `Put`: `lastLeader` is set where the body returns. -/
def forever (srv : L → Fin n) (body : L → Option T → R ⊕ L) (lastLeader : Fin n) :
    L → List (Option T) → CallTrace n R
  | loop, [] => ⟨[srv loop], none, lastLeader⟩
  | loop, outcome :: later =>
    match body loop outcome with
    | .inl result => ⟨[srv loop], some result, srv loop⟩
    | .inr next => (forever srv body lastLeader next later).after (srv loop)

/-- An outcome of an attempt of `Put`. -/
def Outcome.of : Option PutResponse → Outcome
  | some resp => .response resp
  | none => .failed

/-- `Get`. -/
def getCall (lastLeader : Fin n) (outcomes : List (Option GetResponse)) :
    CallTrace n (String × UInt64 × Err) :=
  forever GetLoop.srv get lastLeader ⟨lastLeader, 0⟩ outcomes

/-- `Put`. -/
def putCall (lastLeader : Fin n) (outcomes : List (Option PutResponse)) : CallTrace n Err :=
  forever Loop.srv (fun loop outcome => put loop (.of outcome)) lastLeader
    ⟨lastLeader, true, 0⟩ outcomes

end Clerk

/-- The responses that `callWithRetry` is used with: `getStatusFromResponse`,
`getLeaderHintFromResponse` and the builder's `setStatus`. -/
class KVResponse (T : Type) where
  getStatus : T → Status
  getLeaderHint : T → Int
  setStatus : T → Status → T

instance : KVResponse GetResponse where
  getStatus := GetResponse.status
  getLeaderHint := GetResponse.leaderHint
  setStatus response status := { response with status := status }

instance : KVResponse PutResponse where
  getStatus := PutResponse.status
  getLeaderHint := PutResponse.leaderHint
  setStatus response status := { response with status := status }

/-- `GetResult`.  A `uint64` of the protocol is a `long` with the same bits. -/
structure GetResult where
  value : String
  version : Int64
  deriving DecidableEq

namespace JavaClerk

open KVResponse

variable {n : Nat} {T : Type} [KVResponse T]

theorem next_lt (serverIndex : Fin n) : (serverIndex.val + 1) % n < n :=
  Nat.mod_lt _ serverIndex.pos

/-- `setMaybeStatus`. -/
def setMaybeStatus (response : T) : T := setStatus response .errMaybe

/-- `callWithRetry`, with the callbacks `onSuccess` and `onFailure`. -/
def callWithRetry (lastLeader : Fin n) : List (Option T) → (serverIndex : Fin n) →
    (attempt : Nat) → (potentiallyProcessed : Bool) → CallTrace n T
  | [], serverIndex, _, _ => ⟨[serverIndex], none, lastLeader⟩
  | some response :: later, serverIndex, attempt, potentiallyProcessed =>
    let status := getStatus response
    if status = .errWrongLeader then
      let hint := getLeaderHint response
      let next : Fin n :=
        if h : hint ≥ 0 ∧ hint < n ∧ hint ≠ serverIndex.val then ⟨hint.toNat, by omega⟩
        else ⟨(serverIndex.val + 1) % n, next_lt serverIndex⟩
      (callWithRetry lastLeader later next (attempt + 1) potentiallyProcessed).after serverIndex
    else
      ⟨[serverIndex], some (if status = .errVersion ∧ potentiallyProcessed then
        setMaybeStatus response else response), serverIndex⟩
  | none :: later, serverIndex, attempt, _ =>
    let next : Fin n := ⟨(serverIndex.val + 1) % n, next_lt serverIndex⟩
    (callWithRetry lastLeader later next (attempt + 1) true).after serverIndex

/-- What `get` makes of the response.  An error is the status of the exception. -/
def getResult (resp : GetResponse) : Except Status GetResult :=
  if resp.status = .ok then .ok ⟨resp.value, resp.version.toInt64⟩ else .error resp.status

/-- What `put` makes of the response. -/
def putResult (resp : PutResponse) : Except Status Unit :=
  if resp.status ≠ .ok then .error resp.status else .ok ()

/-- `get`. -/
def get (lastLeader : Fin n) (outcomes : List (Option GetResponse)) :
    CallTrace n (Except Status GetResult) :=
  (callWithRetry lastLeader outcomes lastLeader 0 false).map getResult

/-- `put`. -/
def put (lastLeader : Fin n) (outcomes : List (Option PutResponse)) :
    CallTrace n (Except Status Unit) :=
  (callWithRetry lastLeader outcomes lastLeader 0 false).map putResult

end JavaClerk

/-! ## One protocol written twice -/

namespace Clerk

open KVResponse JavaClerk

variable {n : Nat} {L T R S : Type} [KVResponse T]

/-- The body of a loop does what the callbacks do, on the responses in `Can`.
Here `Rel loop processed` relates the variables of the two, and `view` and
`decode` give both results one form. -/
structure Mirrors (srv : L → Fin n) (body : L → Option T → R ⊕ L) (Can : T → Prop)
    (Rel : L → Bool → Prop) (view : R → S) (decode : T → S) : Prop where
  failed : ∀ {loop processed}, Rel loop processed → ∃ next, body loop none = .inr next ∧
    srv next = nextServer (srv loop) none ∧ Rel next true
  wrongLeader : ∀ {loop processed resp}, Rel loop processed → Can resp →
    getStatus resp = .errWrongLeader → ∃ next, body loop (some resp) = .inr next ∧
      srv next = nextServer (srv loop) (some (getLeaderHint resp)) ∧ Rel next processed
  answered : ∀ {loop processed resp}, Rel loop processed → Can resp →
    getStatus resp ≠ .errWrongLeader → ∃ result, body loop (some resp) = .inl result ∧
      view result = decode (if getStatus resp = .errVersion ∧ processed then
        setMaybeStatus resp else resp)

/-- The condition on a hint is the same in both. -/
theorem nextServer_some (srv : Fin n) (hint : Int) : nextServer srv (some hint) =
    if h : hint ≥ 0 ∧ hint < n ∧ hint ≠ srv.val then ⟨hint.toNat, by omega⟩
    else ⟨(srv.val + 1) % n, next_lt srv⟩ := by
  unfold nextServer
  have hiff : (0 ≤ hint ∧ hint.toNat < n ∧ hint ≠ srv.val) ↔
      (hint ≥ 0 ∧ hint < n ∧ hint ≠ srv.val) := by omega
  by_cases h : hint ≥ 0 ∧ hint < n ∧ hint ≠ srv.val
  · simp only [dif_pos h, dif_pos (hiff.mpr h)]
  · simp only [dif_neg h, dif_neg (mt hiff.mp h)]

/-- A loop and `callWithRetry` agree on whole calls. -/
theorem Mirrors.callWithRetry {srv : L → Fin n} {body : L → Option T → R ⊕ L} {Can : T → Prop}
    {Rel : L → Bool → Prop} {view : R → S} {decode : T → S}
    (h : Mirrors srv body Can Rel view decode) (lastLeader : Fin n) {outcomes : List (Option T)}
    (hcan : ∀ resp, some resp ∈ outcomes → Can resp) (loop : L) (processed : Bool)
    (hrel : Rel loop processed) (attempt : Nat) :
    (JavaClerk.callWithRetry lastLeader outcomes (srv loop) attempt processed).map decode =
      (forever srv body lastLeader loop outcomes).map view := by
  induction outcomes generalizing loop processed attempt with
  | nil => rfl
  | cons outcome later ih =>
    have hlater : ∀ resp, some resp ∈ later → Can resp :=
      fun resp hresp => hcan resp (List.mem_cons_of_mem _ hresp)
    unfold forever
    cases outcome with
    | none =>
      obtain ⟨next, hbody, hsrv, hnext⟩ := h.failed hrel
      have hagree := ih hlater next _ hnext (attempt + 1)
      rw [hsrv] at hagree
      simp only [hbody, CallTrace.map_after, ← hagree]
      rfl
    | some resp =>
      have hresp := hcan resp List.mem_cons_self
      by_cases hstatus : getStatus resp = .errWrongLeader
      · obtain ⟨next, hbody, hsrv, hnext⟩ := h.wrongLeader hrel hresp hstatus
        have hagree := ih hlater next _ hnext (attempt + 1)
        rw [hsrv, nextServer_some] at hagree
        simp only [hbody, CallTrace.map_after, ← hagree, JavaClerk.callWithRetry, if_pos hstatus]
      · obtain ⟨result, hbody, hview⟩ := h.answered hrel hresp hstatus
        simp only [hbody, JavaClerk.callWithRetry, if_neg hstatus, CallTrace.map,
          Option.map_some, hview]

end Clerk

/-! ## The two clerks -/

/-- The responses of `KVService.Get`. -/
def KVService.CanGet (resp : GetResponse) : Prop :=
  resp.status = .ok ∨ resp.status = .errNoKey ∨ resp.status = .errWrongLeader

/-- The responses of `KVService.Put`. -/
def KVService.CanPut (resp : PutResponse) : Prop :=
  resp.status = .ok ∨ resp.status = .errVersion ∨ resp.status = .errWrongLeader

section

variable {n : Nat}

/-- The service gives no other responses, whichever result of the store `Submit`
returns. -/
theorem KVService.can {answer : Answer n Reply}
    (h : ∀ reply, answer = .ok (some reply) → ∃ kv req, reply = (Store.doOp kv req).2) :
    CanGet (KVService.get answer) ∧ CanPut (KVService.put answer) := by
  cases answer with
  | wrongLeader leader => exact ⟨Or.inr (Or.inr rfl), Or.inr (Or.inr rfl)⟩
  | ok result =>
    cases result with
    | none => exact ⟨Or.inr (Or.inr rfl), Or.inr (Or.inr rfl)⟩
    | some reply =>
      obtain ⟨kv, req, rfl⟩ := h reply rfl
      cases req with
      | get key =>
        rw [Store.doOp]
        split <;> simp [CanGet, CanPut, KVService.get, KVService.put, errToStatus]
      | put key value version =>
        rcases kv.doOp_put key value version with hok | hrefused
        · simp [hok, CanGet, CanPut, KVService.get, KVService.put, errToStatus]
        · simp [hrefused, CanGet, CanPut, KVService.get, KVService.put, errToStatus]
      | other => exact ⟨Or.inr (Or.inr rfl), Or.inr (Or.inr rfl)⟩

/-- What the Go `Get` returns, as the Java `get` reports it. -/
def Clerk.getReturned : String × UInt64 × Err → Except Status GetResult
  | (value, version, .ok) => .ok ⟨value, version.toInt64⟩
  | (_, _, err) => .error (errToStatus err)

/-- What the Go `Put` returns, as the Java `put` reports it. -/
def Clerk.putReturned : Err → Except Status Unit
  | .ok => .ok ()
  | err => .error (errToStatus err)

/-- `Get` does not read whether an attempt may have been processed: the service
does not answer it `ERR_VERSION`. -/
theorem Clerk.get_mirrors : Clerk.Mirrors (n := n) Clerk.GetLoop.srv Clerk.get KVService.CanGet
    (fun _ _ => True) Clerk.getReturned JavaClerk.getResult where
  failed _ := ⟨_, rfl, rfl, trivial⟩
  wrongLeader := by
    intro loop processed resp _ _ hstatus
    refine ⟨loop.retry (some resp.leaderHint), ?_, rfl, trivial⟩
    exact if_neg (not_not.mpr hstatus)
  answered := by
    intro loop processed resp _ hcan hstatus
    refine ⟨_, if_pos hstatus, ?_⟩
    change resp.status ≠ .errWrongLeader at hstatus
    rcases hcan with hok | hnone | hwrong
    · simp [KVResponse.getStatus, hok, pbStatusToErr, Clerk.getReturned, JavaClerk.getResult]
    · simp [KVResponse.getStatus, hnone, pbStatusToErr, Clerk.getReturned, JavaClerk.getResult,
        errToStatus]
    · exact absurd hwrong hstatus

/-- `firstAttempt` is the negation of `potentiallyProcessed`. -/
theorem Clerk.put_mirrors : Clerk.Mirrors (n := n) Clerk.Loop.srv
    (fun loop outcome => Clerk.put loop (.of outcome)) KVService.CanPut
    (fun loop processed => loop.firstAttempt = !processed)
    Clerk.putReturned JavaClerk.putResult where
  failed _ := ⟨_, rfl, rfl, rfl⟩
  wrongLeader := by
    intro loop processed resp hrel _ hstatus
    change resp.status = .errWrongLeader at hstatus
    refine ⟨Clerk.retry loop (some resp.leaderHint), ?_, rfl, hrel⟩
    simp [Clerk.Outcome.of, Clerk.put, hstatus, pbStatusToErr]
  answered := by
    intro loop processed resp hrel hcan hstatus
    change resp.status ≠ .errWrongLeader at hstatus
    rcases hcan with hok | hversion | hwrong
    · refine ⟨.ok, ?_, ?_⟩
      · simp [Clerk.Outcome.of, Clerk.put, hok, pbStatusToErr]
      · simp [KVResponse.getStatus, hok, Clerk.putReturned, JavaClerk.putResult]
    · refine ⟨if loop.firstAttempt then .errVersion else .errMaybe, ?_, ?_⟩
      · simp [Clerk.Outcome.of, Clerk.put, hversion, pbStatusToErr]
      · cases processed with
        | false => simp [hrel, KVResponse.getStatus, hversion, Clerk.putReturned,
            JavaClerk.putResult, errToStatus]
        | true => simp [hrel, KVResponse.getStatus, hversion, Clerk.putReturned,
            JavaClerk.putResult, errToStatus, JavaClerk.setMaybeStatus, KVResponse.setStatus]
    · exact absurd hwrong hstatus

/-- The Go and the Java clerk contact the same servers and end with the same
result and the same `lastLeader`. -/
structure ClerksAgree (n : Nat) : Prop where
  get : ∀ (lastLeader : Fin n) (outcomes : List (Option GetResponse)),
    (∀ resp, some resp ∈ outcomes → KVService.CanGet resp) →
      JavaClerk.get lastLeader outcomes =
        (Clerk.getCall lastLeader outcomes).map Clerk.getReturned
  put : ∀ (lastLeader : Fin n) (outcomes : List (Option PutResponse)),
    (∀ resp, some resp ∈ outcomes → KVService.CanPut resp) →
      JavaClerk.put lastLeader outcomes =
        (Clerk.putCall lastLeader outcomes).map Clerk.putReturned

/-- The two clerks agree, whatever the service answers. -/
theorem clerksAgree (n : Nat) : ClerksAgree n where
  get lastLeader _ hcan :=
    Clerk.get_mirrors.callWithRetry lastLeader hcan ⟨lastLeader, 0⟩ false trivial 0
  put lastLeader _ hcan :=
    Clerk.put_mirrors.callWithRetry lastLeader hcan ⟨lastLeader, true, 0⟩ false rfl 0

-- On a status that the service does not give to a `Put`, the Go clerk tries the
-- next server and the Java clerk returns.
example : (Clerk.putCall node0 [some ⟨.errNoKey, 0⟩]).result = none ∧
    (JavaClerk.put node0 [some ⟨.errNoKey, 0⟩]).result = some (.error .errNoKey) := ⟨rfl, rfl⟩

end

end KvRaft
