import KvRaft.Rsm.Model
import KvRaft.Service.Store

/-!
# The key-value service and its clerk

Translated from `kvraft/internal/kvserver/grpc.go`, `kvraft/pkg/clerk/clerk.go`
and `proto/kv.proto`: what `KVService.Get` and `KVService.Put` answer once
`Submit` has returned, and the loops of `Clerk.Get` and `Clerk.Put`, one attempt
after the other.

The clerk remembers in `firstAttempt` that no earlier attempt can have written.
An attempt that fails clears it.  An answer `ERR_WRONG_LEADER` does not.
-/

namespace KvRaft

/-- `kvpb.Status`. -/
inductive Status where
  | unspecified
  | ok
  | errNoKey
  | errVersion
  | errWrongLeader
  | errMaybe
  deriving DecidableEq, Repr

/-- `errToStatus`. -/
def errToStatus : Err → Status
  | .ok => .ok
  | .errNoKey => .errNoKey
  | .errVersion => .errVersion
  | .errWrongLeader => .errWrongLeader
  | .errMaybe => .errMaybe

/-- `pbStatusToErr`. -/
def pbStatusToErr : Status → Err
  | .ok => .ok
  | .errNoKey => .errNoKey
  | .errVersion => .errVersion
  | .errWrongLeader => .errWrongLeader
  | .errMaybe => .errMaybe
  | .unspecified => .errWrongLeader

/-- `kvpb.GetResponse`. -/
structure GetResponse where
  status : Status
  value : String
  version : UInt64
  leaderHint : Int
  deriving DecidableEq, Repr

/-- `kvpb.PutResponse`. -/
structure PutResponse where
  status : Status
  leaderHint : Int
  deriving DecidableEq, Repr

section

variable {n : Nat}

/-- The hint of an answer.  `Leader` is `-1` when there is none. -/
def leaderHint : Option (Fin n) → Int
  | some leader => leader.val
  | none => -1

/-- `KVService.Get`, with what `Submit` returned. -/
def KVService.get : Answer n Reply → GetResponse
  | .wrongLeader leader => ⟨errToStatus .errWrongLeader, "", 0, leaderHint leader⟩
  | .ok (some (.get value version err)) => ⟨errToStatus err, value, version, 0⟩
  | .ok _ => ⟨.errWrongLeader, "", 0, 0⟩

/-- `KVService.Put`, with what `Submit` returned. -/
def KVService.put : Answer n Reply → PutResponse
  | .wrongLeader leader => ⟨errToStatus .errWrongLeader, leaderHint leader⟩
  | .ok (some (.put err)) => ⟨errToStatus err, 0⟩
  | .ok _ => ⟨.errWrongLeader, 0⟩

namespace Clerk

/-- The variables of the loop of `Put`. -/
structure Loop (n : Nat) where
  srv : Fin n
  firstAttempt : Bool
  tried : Nat
  deriving DecidableEq, Repr

/-- What an attempt ends with: an error of the transport, or a response. -/
inductive Outcome where
  | failed
  | response (resp : PutResponse)
  deriving DecidableEq, Repr

/-- The next server: the hint when it names another server, and otherwise the
next one in the ring.  `none` is an error of the transport. -/
def nextServer (srv : Fin n) (hint : Option Int) : Fin n :=
  match hint with
  | some hint =>
    if h : 0 ≤ hint ∧ hint.toNat < n ∧ hint ≠ srv.val then ⟨hint.toNat, h.2.1⟩
    else ⟨(srv.val + 1) % n, Nat.mod_lt _ srv.pos⟩
  | none => ⟨(srv.val + 1) % n, Nat.mod_lt _ srv.pos⟩

/-- The end of the loop's body. -/
def retry (loop : Loop n) (hint : Option Int) : Loop n :=
  let tried := loop.tried + 1
  { loop with
    srv := nextServer loop.srv hint
    tried := if tried ≥ n then 0 else tried }

/-- The body of the loop of `Put`, after the call: it returns, or it goes on. -/
def put (loop : Loop n) : Outcome → Err ⊕ Loop n
  | .response resp =>
    match pbStatusToErr resp.status with
    | .ok => .inl .ok
    | .errVersion => .inl (if loop.firstAttempt then .errVersion else .errMaybe)
    | .errWrongLeader => .inr (retry loop (some resp.leaderHint))
    | _ => .inr (retry { loop with firstAttempt := false } (some resp.leaderHint))
  | .failed => .inr (retry { loop with firstAttempt := false } none)

/-- The variables of the loop of `Get`. -/
structure GetLoop (n : Nat) where
  srv : Fin n
  tried : Nat
  deriving DecidableEq, Repr

/-- The end of the body of the loop of `Get`. -/
def GetLoop.retry (loop : GetLoop n) (hint : Option Int) : GetLoop n :=
  let tried := loop.tried + 1
  { srv := nextServer loop.srv hint
    tried := if tried ≥ n then 0 else tried }

/-- The body of the loop of `Get`, after the call.  `none` is an error of the
transport. -/
def get (loop : GetLoop n) : Option GetResponse → (String × UInt64 × Err) ⊕ GetLoop n
  | some resp =>
    if resp.status ≠ .errWrongLeader then
      .inl (resp.value, resp.version, pbStatusToErr resp.status)
    else .inr (loop.retry (some resp.leaderHint))
  | none => .inr (loop.retry none)

end Clerk

end

end KvRaft
