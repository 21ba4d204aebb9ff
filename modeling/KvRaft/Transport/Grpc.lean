import Mathlib.Algebra.Group.Int.Defs
import Mathlib.Data.Int.Order.Basic
import Mathlib.Data.List.Basic

/-!
# The gRPC transport

Translated from `kvraft/raftransport`: `GRPCClient.Call`, `RaftService` and the
codec of log entries.  A Go `int` has 64 bits, and the protobuf messages have
fields of 32 bits.  The client narrows and the service widens, and the reply
goes the other way.

The Go structs and the protobuf messages have the same fields, so they are one
structure each, with the type of their integers as a parameter.  The entries of
a message hold encoded commands.

What gRPC does with a call is a `Delivery`.  A call is faithful when the receiving
Raft sees the arguments that were given, and the caller sees the reply that the
handler produced.  That is so exactly when the call gets through and every number
in the arguments and in the reply has 32 bits (`call_faithful_iff`).  The first
term that does not is `2 ^ 31`, and it arrives as a negative number
(`call_requestVote_not_faithful`).
-/

namespace KvRaft.Transport

/-! ## Messages -/

/-- `RequestVoteArgs`. -/
structure RequestVoteArgs (I : Type) where
  term : I
  candidateId : I
  lastLogTerm : I
  lastLogIndex : I
  deriving DecidableEq, Repr

/-- `RequestVoteReply`. -/
structure RequestVoteReply (I : Type) where
  term : I
  voteGranted : Bool
  deriving DecidableEq, Repr

/-- `raft.Entry` and `kvpb.LogEntry`. -/
structure Entry (I Cmd : Type) where
  index : I
  term : I
  command : Cmd
  deriving DecidableEq, Repr

/-- `AppendEntriesArgs`. -/
structure AppendEntriesArgs (I Cmd : Type) where
  term : I
  leaderId : I
  prevLogIndex : I
  prevLogTerm : I
  entries : List (Entry I Cmd)
  leaderCommit : I
  deriving DecidableEq, Repr

/-- `AppendEntriesReply`. -/
structure AppendEntriesReply (I : Type) where
  term : I
  success : Bool
  conflictIndex : I
  conflictTerm : I
  deriving DecidableEq, Repr

/-- `InstallSnapshotArgs`. -/
structure InstallSnapshotArgs (I : Type) where
  term : I
  leaderId : I
  lastIncludedIndex : I
  lastIncludedTerm : I
  data : List UInt8
  deriving DecidableEq, Repr

/-- `InstallSnapshotReply`. -/
structure InstallSnapshotReply (I : Type) where
  term : I
  deriving DecidableEq, Repr

/-- The arguments of a call, by method. -/
inductive Args (C : Type) where
  | requestVote (args : RequestVoteArgs Int64)
  | appendEntries (args : AppendEntriesArgs Int64 C)
  | installSnapshot (args : InstallSnapshotArgs Int64)
  deriving DecidableEq, Repr

/-- The reply of a call, by method. -/
inductive Reply where
  | requestVote (reply : RequestVoteReply Int64)
  | appendEntries (reply : AppendEntriesReply Int64)
  | installSnapshot (reply : InstallSnapshotReply Int64)
  deriving DecidableEq, Repr

/-- `gob` for values of an interface type.  A value of an unregistered type
cannot be encoded. -/
structure Gob (C : Type) where
  encode : C → Option (List UInt8)
  decode : List UInt8 → Option C
  decode_encode : ∀ {c : C} {b : List UInt8}, encode c = some b → decode b = some c

/-- `raft.RaftRPC`: what the receiving Raft answers at the moment of the call. -/
structure RaftRPC (C : Type) where
  requestVote : RequestVoteArgs Int64 → RequestVoteReply Int64
  appendEntries : AppendEntriesArgs Int64 C → AppendEntriesReply Int64
  installSnapshot : InstallSnapshotArgs Int64 → InstallSnapshotReply Int64
  state : Int64

/-- The handler of the method. -/
def RaftRPC.handle {C : Type} (rf : RaftRPC C) : Args C → Reply
  | .requestVote args => .requestVote (rf.requestVote args)
  | .appendEntries args => .appendEntries (rf.appendEntries args)
  | .installSnapshot args => .installSnapshot (rf.installSnapshot args)

variable {C : Type}

/-! ## The codec -/

/-- The body of the loop of `entriesToProto`. -/
def entryToProto (gob : Gob C) (e : Entry Int64 C) : Option (Entry Int32 (List UInt8)) := do
  let command ← gob.encode e.command
  some ⟨e.index.toInt32, e.term.toInt32, command⟩

/-- `entriesToProto`. -/
def entriesToProto (gob : Gob C) (entries : List (Entry Int64 C)) :
    Option (List (Entry Int32 (List UInt8))) :=
  entries.mapM (entryToProto gob)

/-- The body of the loop of `entriesFromProto`. -/
def entryFromProto (gob : Gob C) (e : Entry Int32 (List UInt8)) : Option (Entry Int64 C) := do
  let command ← gob.decode e.command
  some ⟨e.index.toInt64, e.term.toInt64, command⟩

/-- `entriesFromProto`. -/
def entriesFromProto (gob : Gob C) (entries : List (Entry Int32 (List UInt8))) :
    Option (List (Entry Int64 C)) :=
  entries.mapM (entryFromProto gob)

/-! ## The service

Each method returns what it passes to the receiving Raft, and the message that
goes back. -/

namespace RaftService

/-- `RaftService.RequestVote`. -/
def requestVote (rf : RaftRPC C) (req : RequestVoteArgs Int32) :
    RequestVoteArgs Int64 × RequestVoteReply Int32 :=
  let args : RequestVoteArgs Int64 :=
    { term := req.term.toInt64
      candidateId := req.candidateId.toInt64
      lastLogTerm := req.lastLogTerm.toInt64
      lastLogIndex := req.lastLogIndex.toInt64 }
  let reply := rf.requestVote args
  (args, { term := reply.term.toInt32, voteGranted := reply.voteGranted })

/-- `RaftService.AppendEntries`.  When the commands cannot be decoded, nothing
is passed on. -/
def appendEntries (gob : Gob C) (rf : RaftRPC C)
    (req : AppendEntriesArgs Int32 (List UInt8)) :
    Option (AppendEntriesArgs Int64 C) × AppendEntriesReply Int32 :=
  match entriesFromProto gob req.entries with
  | none => (none, ⟨rf.state.toInt32, false, 0, 0⟩)
  | some entries =>
    let args : AppendEntriesArgs Int64 C :=
      { term := req.term.toInt64
        leaderId := req.leaderId.toInt64
        prevLogIndex := req.prevLogIndex.toInt64
        prevLogTerm := req.prevLogTerm.toInt64
        entries := entries
        leaderCommit := req.leaderCommit.toInt64 }
    let reply := rf.appendEntries args
    (some args,
      { term := reply.term.toInt32
        success := reply.success
        conflictIndex := reply.conflictIndex.toInt32
        conflictTerm := reply.conflictTerm.toInt32 })

/-- `RaftService.InstallSnapshot`. -/
def installSnapshot (rf : RaftRPC C) (req : InstallSnapshotArgs Int32) :
    InstallSnapshotArgs Int64 × InstallSnapshotReply Int32 :=
  let args : InstallSnapshotArgs Int64 :=
    { term := req.term.toInt64
      leaderId := req.leaderId.toInt64
      lastIncludedIndex := req.lastIncludedIndex.toInt64
      lastIncludedTerm := req.lastIncludedTerm.toInt64
      data := req.data }
  let reply := rf.installSnapshot args
  (args, { term := reply.term.toInt32 })

end RaftService

/-! ## The client -/

/-- What gRPC does with a call before `rpcTimeout` is over. -/
inductive Delivery where
  /-- The request does not arrive. -/
  | lost
  /-- The request is served, and the caller does not see the response. -/
  | unanswered
  /-- The request and the response get through. -/
  | answered
  deriving DecidableEq, Repr

/-- What the service is given and what the caller is given, of a request that the
service maps to `served`. -/
def Delivery.deliver {A R : Type} (delivery : Delivery) (served : A × R) : Option A × Option R :=
  match delivery with
  | .lost => (none, none)
  | .unanswered => (some served.1, none)
  | .answered => (some served.1, some served.2)

/-- `GRPCClient.Call`: what the service passed to the receiving Raft, and the reply
that the caller sees, `none` where `Call` returns `false`. -/
def call (gob : Gob C) (rf : RaftRPC C) (delivery : Delivery) :
    Args C → Option (Args C) × Option Reply
  | .requestVote a =>
    let (passed, res) := delivery.deliver <| RaftService.requestVote rf
      { term := a.term.toInt32
        candidateId := a.candidateId.toInt32
        lastLogTerm := a.lastLogTerm.toInt32
        lastLogIndex := a.lastLogIndex.toInt32 }
    (passed.map .requestVote, res.map fun res =>
      .requestVote { term := res.term.toInt64, voteGranted := res.voteGranted })
  | .appendEntries a =>
    match entriesToProto gob a.entries with
    | none => (none, none)
    | some entries =>
      let (passed, res) := delivery.deliver <| RaftService.appendEntries gob rf
        { term := a.term.toInt32
          leaderId := a.leaderId.toInt32
          prevLogIndex := a.prevLogIndex.toInt32
          prevLogTerm := a.prevLogTerm.toInt32
          entries := entries
          leaderCommit := a.leaderCommit.toInt32 }
      (passed.join.map .appendEntries, res.map fun res =>
        .appendEntries
          { term := res.term.toInt64
            success := res.success
            conflictIndex := res.conflictIndex.toInt64
            conflictTerm := res.conflictTerm.toInt64 })
  | .installSnapshot a =>
    let (passed, res) := delivery.deliver <| RaftService.installSnapshot rf
      { term := a.term.toInt32
        leaderId := a.leaderId.toInt32
        lastIncludedIndex := a.lastIncludedIndex.toInt32
        lastIncludedTerm := a.lastIncludedTerm.toInt32
        data := a.data }
    (passed.map .installSnapshot, res.map fun res =>
      .installSnapshot { term := res.term.toInt64 })

/-- The receiving Raft sees the arguments of the caller, and the caller sees
the reply of the handler. -/
def Faithful (gob : Gob C) (rf : RaftRPC C) (delivery : Delivery) (args : Args C) : Prop :=
  call gob rf delivery args = (some args, some (rf.handle args))

/-- The commands of a call can be encoded. -/
def Args.Registered (gob : Gob C) : Args C → Prop
  | .appendEntries a => ∀ e ∈ a.entries, (gob.encode e.command).isSome
  | _ => True

/-! ## Numbers of 32 bits -/

/-- The number has 32 bits. -/
def Fits (x : Int64) : Prop := -2 ^ 31 ≤ x.toInt ∧ x.toInt < 2 ^ 31

/-- Narrowing and widening again gives the number back exactly when it has 32
bits. -/
theorem toInt64_toInt32_iff (x : Int64) : x.toInt32.toInt64 = x ↔ Fits x := by
  rw [← Int64.toInt_inj, Int32.toInt_toInt64, Int64.toInt_toInt32, Fits]
  constructor
  · intro h
    rw [← h]
    exact ⟨Int.le_bmod (by decide), Int.bmod_lt (by decide)⟩
  · rintro ⟨hlow, hhigh⟩
    exact Int.bmod_eq_of_le (by omega) (by omega)

/-- Every number of the arguments has 32 bits. -/
def Args.Fits : Args C → Prop
  | .requestVote a => Transport.Fits a.term ∧ Transport.Fits a.candidateId ∧
      Transport.Fits a.lastLogTerm ∧ Transport.Fits a.lastLogIndex
  | .appendEntries a => Transport.Fits a.term ∧ Transport.Fits a.leaderId ∧
      Transport.Fits a.prevLogIndex ∧ Transport.Fits a.prevLogTerm ∧
      (∀ e ∈ a.entries, Transport.Fits e.index ∧ Transport.Fits e.term) ∧
      Transport.Fits a.leaderCommit
  | .installSnapshot a => Transport.Fits a.term ∧ Transport.Fits a.leaderId ∧
      Transport.Fits a.lastIncludedIndex ∧ Transport.Fits a.lastIncludedTerm

/-- Every number of the reply has 32 bits. -/
def Reply.Fits : Reply → Prop
  | .requestVote r => Transport.Fits r.term
  | .appendEntries r => Transport.Fits r.term ∧ Transport.Fits r.conflictIndex ∧
      Transport.Fits r.conflictTerm
  | .installSnapshot r => Transport.Fits r.term

/-! ## When a call is faithful -/

/-- What an entry becomes on its way. -/
def Entry.arrive (e : Entry Int64 C) : Entry Int64 C :=
  ⟨e.index.toInt32.toInt64, e.term.toInt32.toInt64, e.command⟩

/-- Entries with registered commands arrive. -/
theorem entriesToProto_arrive (gob : Gob C) (entries : List (Entry Int64 C))
    (h : ∀ e ∈ entries, (gob.encode e.command).isSome) : ∃ out,
      entriesToProto gob entries = some out ∧
      entriesFromProto gob out = some (entries.map Entry.arrive) := by
  induction entries with
  | nil => exact ⟨[], rfl, rfl⟩
  | cons e entries ih =>
    obtain ⟨command, hcommand⟩ := Option.isSome_iff_exists.mp (h e List.mem_cons_self)
    obtain ⟨out, hout, hback⟩ := ih fun e' he' => h e' (List.mem_cons_of_mem e he')
    refine ⟨⟨e.index.toInt32, e.term.toInt32, command⟩ :: out, ?_, ?_⟩
    · rw [entriesToProto] at hout ⊢
      simp [List.mapM_cons, entryToProto, hcommand, hout]
    · rw [entriesFromProto] at hback ⊢
      simp [List.mapM_cons, entryFromProto, gob.decode_encode hcommand, hback, Entry.arrive]

theorem map_arrive_iff (entries : List (Entry Int64 C)) :
    entries.map Entry.arrive = entries ↔ ∀ e ∈ entries, Fits e.index ∧ Fits e.term := by
  induction entries with
  | nil => simp
  | cons e entries ih =>
    obtain ⟨index, term, command⟩ := e
    simp [Entry.arrive, toInt64_toInt32_iff, ih, and_assoc]

/-- What the arguments of a call become on their way. -/
def Args.arrive : Args C → Args C
  | .requestVote a => .requestVote
      { term := a.term.toInt32.toInt64
        candidateId := a.candidateId.toInt32.toInt64
        lastLogTerm := a.lastLogTerm.toInt32.toInt64
        lastLogIndex := a.lastLogIndex.toInt32.toInt64 }
  | .appendEntries a => .appendEntries
      { term := a.term.toInt32.toInt64
        leaderId := a.leaderId.toInt32.toInt64
        prevLogIndex := a.prevLogIndex.toInt32.toInt64
        prevLogTerm := a.prevLogTerm.toInt32.toInt64
        entries := a.entries.map Entry.arrive
        leaderCommit := a.leaderCommit.toInt32.toInt64 }
  | .installSnapshot a => .installSnapshot
      { term := a.term.toInt32.toInt64
        leaderId := a.leaderId.toInt32.toInt64
        lastIncludedIndex := a.lastIncludedIndex.toInt32.toInt64
        lastIncludedTerm := a.lastIncludedTerm.toInt32.toInt64
        data := a.data }

/-- What a reply becomes on its way back. -/
def Reply.arrive : Reply → Reply
  | .requestVote r => .requestVote
      { term := r.term.toInt32.toInt64, voteGranted := r.voteGranted }
  | .appendEntries r => .appendEntries
      { term := r.term.toInt32.toInt64
        success := r.success
        conflictIndex := r.conflictIndex.toInt32.toInt64
        conflictTerm := r.conflictTerm.toInt32.toInt64 }
  | .installSnapshot r => .installSnapshot { term := r.term.toInt32.toInt64 }

/-- A call passes on what arrives, and brings back what arrives of the reply, as far as
it is delivered. -/
theorem call_eq (gob : Gob C) (rf : RaftRPC C) (delivery : Delivery) (args : Args C)
    (h : args.Registered gob) : call gob rf delivery args =
      delivery.deliver (args.arrive, (rf.handle args.arrive).arrive) := by
  cases args with
  | requestVote a => cases delivery <;> rfl
  | installSnapshot a => cases delivery <;> rfl
  | appendEntries a =>
    obtain ⟨out, hout, hback⟩ := entriesToProto_arrive gob a.entries h
    simp only [call, hout, RaftService.appendEntries, hback]
    cases delivery <;> rfl

theorem Args.arrive_iff (args : Args C) : args.arrive = args ↔ args.Fits := by
  cases args with
  | requestVote a =>
    obtain ⟨term, candidateId, lastLogTerm, lastLogIndex⟩ := a
    simp [Args.arrive, Args.Fits, toInt64_toInt32_iff]
  | appendEntries a =>
    obtain ⟨term, leaderId, prevLogIndex, prevLogTerm, entries, leaderCommit⟩ := a
    simp [Args.arrive, Args.Fits, toInt64_toInt32_iff, map_arrive_iff]
  | installSnapshot a =>
    obtain ⟨term, leaderId, lastIncludedIndex, lastIncludedTerm, data⟩ := a
    simp [Args.arrive, Args.Fits, toInt64_toInt32_iff]

theorem Reply.arrive_iff (reply : Reply) : reply.arrive = reply ↔ reply.Fits := by
  cases reply with
  | requestVote r =>
    obtain ⟨term, voteGranted⟩ := r
    simp [Reply.arrive, Reply.Fits, toInt64_toInt32_iff]
  | appendEntries r =>
    obtain ⟨term, success, conflictIndex, conflictTerm⟩ := r
    simp [Reply.arrive, Reply.Fits, toInt64_toInt32_iff]
  | installSnapshot r =>
    obtain ⟨term⟩ := r
    simp [Reply.arrive, Reply.Fits, toInt64_toInt32_iff]

/-- A call is faithful exactly when it gets through and every number in its arguments
and in the handler's reply has 32 bits. -/
theorem call_faithful_iff (gob : Gob C) (rf : RaftRPC C) (delivery : Delivery) (args : Args C)
    (h : args.Registered gob) :
    Faithful gob rf delivery args ↔
      delivery = .answered ∧ args.Fits ∧ (rf.handle args).Fits := by
  rw [Faithful, call_eq gob rf delivery args h]
  cases delivery with
  | lost => simp [Delivery.deliver]
  | unanswered => simp [Delivery.deliver]
  | answered =>
    rw [Delivery.deliver, Prod.mk.injEq, Option.some.injEq, Option.some.injEq,
      ← Args.arrive_iff, ← Reply.arrive_iff, eq_self_iff_true, true_and]
    refine and_congr_right fun heq => ?_
    replace heq : args.arrive = args := heq
    simp only [heq]

/-! ## Terms of 31 bits and more -/

/-- Commands that are single bytes. -/
def byteGob : Gob UInt8 where
  encode b := some [b]
  decode
    | [b] => some b
    | _ => none
  decode_encode := by
    rintro c b h
    cases h
    rfl

/-- A Raft that grants every vote and takes over the sender's term. -/
def echo : RaftRPC UInt8 where
  requestVote args := ⟨args.term, true⟩
  appendEntries args := ⟨args.term, true, 0, 0⟩
  installSnapshot args := ⟨args.term⟩
  state := 0

/-- A vote request of term `2 ^ 31` does not arrive as such. -/
theorem call_requestVote_not_faithful :
    ¬ Faithful byteGob echo .answered (.requestVote ⟨2 ^ 31, 1, 1, 1⟩) := by
  unfold Faithful
  decide

/-- An entry of term `2 ^ 31 - 1` does. -/
theorem call_appendEntries_faithful :
    Faithful byteGob echo .answered
      (.appendEntries ⟨2 ^ 31 - 1, 1, 0, 0, [⟨1, 2 ^ 31 - 1, 7⟩], 0⟩) :=
  (call_faithful_iff byteGob echo .answered _ (by
    intro e _
    rfl)).mpr ⟨rfl, by
      simp only [Args.Fits, Reply.Fits, RaftRPC.handle, echo, Fits]
      decide⟩

end KvRaft.Transport
