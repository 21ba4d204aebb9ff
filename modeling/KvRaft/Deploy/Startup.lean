import KvRaft.Lib.Decimal
import Mathlib.Algebra.Group.Int.Defs
import Mathlib.Algebra.Group.Nat.Defs
import Mathlib.Data.List.Nodup
import Mathlib.Data.List.Rotate
import Mathlib.Tactic.Choose

/-!
# How a cluster is set up

Every other module takes for granted that the servers agree on who is who: that
peer `i` is the same server for all of them, and that a message to it arrives
there.  Here this is traced back to the programs that set the cluster up.
`setup_cluster.py` writes one container for each node of `cluster.json`, with its
settings as environment variables.  In the container, `main` of `kvserver` reads
them, `config.Load` reads the same file and sorts it, and `StartNode` looks for its
own id, dials the other nodes, starts Raft and listens.

The file is the list of nodes that it holds.  What the machine answers to a server
that starts is a `Host`, and every answer may be an error.
-/

namespace KvRaft.Deploy

/-! ## Integers and the environment -/

/-- The numbers of a Go `int`. -/
def IsInt (k : Int) : Prop :=
  -2 ^ 63 ≤ k ∧ k < 2 ^ 63

instance (k : Int) : Decidable (IsInt k) :=
  inferInstanceAs (Decidable (_ ∧ _))

/-- The result of an operation on Go `int`s, or on durations. -/
def wrap (k : Int) : Int :=
  k.bmod (2 ^ 64)

theorem wrap_eq {k : Int} (h : IsInt k) : wrap k = k := by
  unfold IsInt at h
  exact Int.bmod_eq_of_le_mul_two (by omega) (by omega)

/-- `strconv.Atoi`. -/
def atoi (s : String) : Option Int := do
  let k ← Decimal.parse s.toList
  if IsInt k then some k else none

theorem atoi_repr {k : Int} (h : IsInt k) : atoi k.repr = some k := by
  rw [atoi, Decimal.parse_repr, Option.bind_eq_bind, Option.bind_some, if_pos h]

/-- `strconv.ParseBool`. -/
def parseBool (s : String) : Option Bool :=
  if s ∈ ["1", "t", "T", "true", "TRUE", "True"] then some true
  else if s ∈ ["0", "f", "F", "false", "FALSE", "False"] then some false
  else none

/-- The environment of a process. -/
abbrev Env := List (String × String)

/-- `os.LookupEnv`. -/
def lookupEnv (env : Env) (key : String) : Option String :=
  env.lookup key

/-- `GetEnv`. -/
def getEnv (env : Env) (key fallback : String) : String :=
  (lookupEnv env key).getD fallback

/-- `GetEnvInt`. -/
def getEnvInt (env : Env) (key : String) (fallback : Int) : Int :=
  ((lookupEnv env key).bind atoi).getD fallback

/-- `GetEnvBool`. -/
def getEnvBool (env : Env) (key : String) (fallback : Bool) : Bool :=
  ((lookupEnv env key).bind parseBool).getD fallback

theorem getEnvInt_repr {env : Env} {key : String} {k : Int} (fallback : Int)
    (henv : lookupEnv env key = some k.repr) (hk : IsInt k) : getEnvInt env key fallback = k := by
  rw [getEnvInt, henv, Option.bind_some, atoi_repr hk, Option.getD_some]

/-! ## The configuration -/

/-- `config.Node`. -/
structure Node where
  id : Int
  addr : String
  deriving DecidableEq, Repr

/-- `config.Config`. -/
@[ext]
structure Config where
  nodes : List Node
  electionTimeoutMin : Int
  electionTimeoutRand : Int
  heartbeatTimeout : Int
  submitTimeout : Int
  baseDelay : Int
  maxDelay : Int
  minConnectTimeout : Int
  metricsPortBase : Int
  deriving DecidableEq, Repr

/-- `PopulateDefaults`, on a configuration that was just read. -/
def populateDefaults (nodes : List Node) : Config where
  nodes
  electionTimeoutMin := 600
  electionTimeoutRand := 400
  heartbeatTimeout := 100
  submitTimeout := 10
  baseDelay := 100
  maxDelay := 3
  minConnectTimeout := 2
  metricsPortBase := 8080

/-- The `sort.Slice` of `Load`, which promises no order of nodes with one id. -/
def sortNodes (nodes : List Node) : List Node :=
  nodes.mergeSort fun a b => a.id ≤ b.id

/-- The part of `Load` that overrides the defaults. -/
def override (env : Env) (cfg : Config) : Config where
  nodes := cfg.nodes
  electionTimeoutMin := getEnvInt env "RAFT_ELECTION_TIMEOUT_MIN" cfg.electionTimeoutMin
  electionTimeoutRand := getEnvInt env "RAFT_ELECTION_TIMEOUT_RAND" cfg.electionTimeoutRand
  heartbeatTimeout := getEnvInt env "RAFT_HEARTBEAT_TIMEOUT" cfg.heartbeatTimeout
  submitTimeout := getEnvInt env "RSM_SUBMIT_TIMEOUT" cfg.submitTimeout
  baseDelay := getEnvInt env "GRPC_BASE_DELAY" cfg.baseDelay
  maxDelay := getEnvInt env "GRPC_MAX_DELAY" cfg.maxDelay
  minConnectTimeout := getEnvInt env "GRPC_MIN_CONNECT_TIMEOUT" cfg.minConnectTimeout
  metricsPortBase := getEnvInt env "METRICS_PORT_BASE" cfg.metricsPortBase

/-- `Load`, of a file with these nodes. -/
def load (env : Env) (nodes : List Node) : Except String Config :=
  let cfg := override env (populateDefaults nodes)
  if nodes.length < 3 then
    .error ("cluster must have at least 3 nodes, got " ++ toString nodes.length)
  else if nodes.length % 2 = 0 then
    .error ("cluster must have an odd number of nodes, got " ++ toString nodes.length)
  else
    .ok { cfg with nodes := sortNodes nodes }

/-! ## The server -/

/-- `time.Millisecond`. -/
def millisecond : Int := 1000000

/-- `time.Second`. -/
def second : Int := 1000000000

/-- What `dialPeer` is given. -/
structure Conn where
  addr : String
  baseDelay : Int
  maxDelay : Int
  minConnectTimeout : Int
  deriving DecidableEq, Repr

/-- What `InitLogger` configures. -/
structure Logger where
  production : Bool
  debug : Bool
  outputPaths : List String
  deriving DecidableEq, Repr

/-- What a server is answered while it starts.  An answer is an error or `none`. -/
structure Host where
  /-- `os.MkdirAll`. -/
  mkdirAll : String → Option String
  /-- `grpc.NewClient`. -/
  newClient : String → Option String
  /-- Opening the files of the logger. -/
  openLogs : List String → Option String
  /-- What `rand.Int63()` returns. -/
  int63 : Int
  /-- Reading and decoding the state of Raft in a directory. -/
  readPersist : String → Option String
  /-- Restoring the snapshot in a directory. -/
  restore : String → Option String
  /-- `net.Listen`. -/
  listen : String → Option String

/-- Why a server does not start. -/
inductive Failure where
  /-- `StartNode` returns an error. -/
  | error (err : String)
  /-- `logger.Fatal`. -/
  | fatal (message : String)
  | panic (message : String)
  deriving DecidableEq, Repr

/-- Go on, unless the answer is an error. -/
def attempt (failure : String → Failure) : Option String → Except Failure Unit
  | none => .ok ()
  | some err => .error (failure err)

/-- A server that runs: what `StartNode` has given to `MakeRSM`, to the listener and
to the metrics server.  A transport that is `none` is `raftransport.Noop`. -/
@[ext]
structure Server where
  me : Nat
  dataDir : String
  transports : List (Option Conn)
  logger : Logger
  maxRaftState : Int
  electionTimeoutMin : Int
  electionTimeoutRand : Int
  heartbeatTimeout : Int
  submitTimeout : Int
  /-- The first timeout of an election. -/
  electionTimer : Int
  listen : String
  metricsAddr : String
  deriving DecidableEq, Repr

/-- `dialPeer`, with the delays of the configuration. -/
def dialPeer (cfg : Config) (addr : String) : Conn where
  addr
  baseDelay := wrap (cfg.baseDelay * millisecond)
  maxDelay := wrap (cfg.maxDelay * second)
  minConnectTimeout := wrap (cfg.minConnectTimeout * second)

/-- The transport to one of the nodes. -/
def transport (host : Host) (cfg : Config) (me : Nat) : Node × Nat → Except Failure (Option Conn)
  | (node, i) =>
    if i = me then .ok none
    else do
      attempt (fun err => .error ("peer " ++ i.repr ++ ": " ++ err)) (host.newClient node.addr)
      return some (dialPeer cfg node.addr)

/-- The loop of `StartNode` that fills `transports`. -/
def dialPeers (host : Host) (cfg : Config) (me : Nat) : Except Failure (List (Option Conn)) :=
  cfg.nodes.zipIdx.mapM (transport host cfg me)

/-- `InitLogger`. -/
def initLogger (host : Host) (env : Env) (isProduction isDebug : Bool) (logPath : String) :
    Except Failure Logger := do
  let outputPaths := if logPath ≠ "" then ["stderr", logPath] else ["stderr"]
  attempt (fun err => .panic ("failed to initialize logger: " ++ err)) (host.openLogs outputPaths)
  return {
    production := isProduction
    debug := isDebug || getEnv env "RAFT_DEBUG" "" == "true"
    outputPaths }

/-- `randomizedElectionTimeout`, where `r` is the random number. -/
def randomizedElectionTimeout (electionTimeoutMin electionTimeoutRand r : Int) :
    Except Failure Int :=
  let rand := electionTimeoutRand.tdiv millisecond
  if rand = 0 then .error (.panic "runtime error: integer divide by zero")
  else .ok (wrap ((electionTimeoutMin.tdiv millisecond + r.tmod rand) * millisecond))

/-- `MakeRSM` and `Make`, as far as they can fail.  The result is the time of the
election timer. -/
def makeRSM (host : Host) (dataDir : String) (electionMin electionRand : Int) :
    Except Failure Int := do
  let electionTimer ← randomizedElectionTimeout electionMin electionRand host.int63
  attempt .fatal (host.readPersist dataDir)
  attempt (fun _ => .fatal "failed to restore snapshot") (host.restore dataDir)
  return electionTimer

/-- The first loop of `StartNode` finds `me`, and with it `cfg.Nodes[me]`. -/
def findMe (cfg : Config) (nodeID : Int) : Except Failure (Node × Nat) :=
  match cfg.nodes.zipIdx.find? fun (node, _) => node.id == nodeID with
  | none => .error (.error ("unknown node id " ++ nodeID.repr))
  | some found => .ok found

/-- `StartNode`. -/
def startNode (host : Host) (env : Env) (cfg : Config) (nodeID : Int) (dataDir : String)
    (maxRaftState : Int) (isProd isDebug : Bool) (logPath : String) : Except Failure Server := do
  let (node, me) ← findMe cfg nodeID
  attempt .error (host.mkdirAll dataDir)
  let transports ← dialPeers host cfg me
  let logger ← initLogger host env isProd isDebug logPath
  let electionTimeoutMin := wrap (cfg.electionTimeoutMin * millisecond)
  let electionTimeoutRand := wrap (cfg.electionTimeoutRand * millisecond)
  let electionTimer ← makeRSM host dataDir electionTimeoutMin electionTimeoutRand
  attempt .error (host.listen node.addr)
  return {
    me
    dataDir
    transports
    logger
    maxRaftState
    electionTimeoutMin
    electionTimeoutRand
    heartbeatTimeout := wrap (cfg.heartbeatTimeout * millisecond)
    submitTimeout := wrap (cfg.submitTimeout * second)
    electionTimer
    listen := node.addr
    metricsAddr := ":" ++ (wrap (cfg.metricsPortBase + nodeID)).repr }

/-- How `main` ends when no server runs. -/
structure Exit where
  code : Nat
  message : String
  deriving DecidableEq, Repr

/-- How a failure of `StartNode` ends the process. -/
def Failure.exit : Failure → Exit
  | .error err => ⟨1, err⟩
  | .fatal message => ⟨1, message⟩
  | .panic message => ⟨2, "panic: " ++ message⟩

/-- `main` of `kvserver`, without flags. -/
def main (host : Host) (env : Env) (nodes : List Node) : Except Exit Server :=
  let id := getEnvInt env "NODE_ID" (-1)
  let dataDir := getEnv env "DATA_DIR" ""
  let maxRaftState := getEnvInt env "MAX_RAFT_STATE" (-1)
  let isProd := getEnvBool env "IS_PROD" false
  let isDebug := getEnvBool env "DEBUG" false
  let logPath := getEnv env "LOG_PATH" ""
  if id < 0 ∨ dataDir = "" then
    .error ⟨2, "usage: kvserver --id N --datadir DIR [--config path] [--maxraftstate N]"⟩
  else
    match load env nodes with
    | .error err => .error ⟨1, err⟩
    | .ok cfg =>
      match startNode host env cfg id dataDir maxRaftState isProd isDebug logPath with
      | .error failure => .error failure.exit
      | .ok server => .ok server

/-! ## The containers -/

/-- The arguments of `setup_cluster.py` that reach a server. -/
structure Args where
  electionMin : Int
  electionRand : Int
  heartbeat : Int
  submitTimeout : Int
  maxRaftState : Int
  grpcBaseDelay : Int
  grpcMaxDelay : Int
  grpcConnTimeout : Int
  clerkRpcTimeout : Int
  clerkRetrySleep : Int
  metricsPortBase : Int
  raftDebug : Bool
  deriving DecidableEq, Repr

/-- The `environment` of a service. -/
def environment (args : Args) (node : Node) : Env :=
  [("NODE_ID", node.id.repr),
   ("CONFIG_PATH", "/app/cluster.json"),
   ("RAFT_DEBUG", if args.raftDebug then "true" else "false"),
   ("DATA_DIR", "/data"),
   ("LOG_PATH", "/logs/node" ++ node.id.repr ++ ".log"),
   ("RAFT_ELECTION_TIMEOUT_MIN", args.electionMin.repr),
   ("RAFT_ELECTION_TIMEOUT_RAND", args.electionRand.repr),
   ("RAFT_HEARTBEAT_TIMEOUT", args.heartbeat.repr),
   ("RSM_SUBMIT_TIMEOUT", args.submitTimeout.repr),
   ("GRPC_BASE_DELAY", args.grpcBaseDelay.repr),
   ("GRPC_MAX_DELAY", args.grpcMaxDelay.repr),
   ("GRPC_MIN_CONNECT_TIMEOUT", args.grpcConnTimeout.repr),
   ("METRICS_PORT_BASE", args.metricsPortBase.repr),
   ("CLERK_RPC_TIMEOUT", args.clerkRpcTimeout.repr),
   ("CLERK_RETRY_SLEEP", args.clerkRetrySleep.repr),
   ("MAX_RAFT_STATE", args.maxRaftState.repr)]

/-- A service of `docker-compose.yml`. -/
structure Service where
  name : String
  environment : Env
  /-- What is mounted on `/data`. -/
  dataVolume : String
  deriving DecidableEq, Repr

/-- The service of a node. -/
def service (args : Args) (node : Node) : Service where
  name := "node" ++ node.id.repr
  environment := environment args node
  dataVolume := "node" ++ node.id.repr ++ "_data"

/-- `main` of `setup_cluster.py`: the services of the nodes and the targets of
Prometheus. -/
def setupCluster (args : Args) (nodes : List Node) : Except String (List Service × List String) :=
  if nodes.length < 3 then
    .error ("Error: Cluster must have at least 3 nodes, got " ++ toString nodes.length)
  else if nodes.length % 2 = 0 then
    .error ("Error: Cluster must have an odd number of nodes, got " ++ toString nodes.length)
  else
    .ok (nodes.map (service args),
      nodes.map fun node => "localhost:" ++ (args.metricsPortBase + node.id).repr)

/-! ## What a server makes of its environment -/

/-- The arguments can be represented where they are used, and election timeouts are
drawn from a range that is not empty. -/
structure Args.Fits (args : Args) : Prop where
  electionMin : IsInt (args.electionMin * millisecond)
  electionRand : IsInt (args.electionRand * millisecond)
  heartbeat : IsInt (args.heartbeat * millisecond)
  submitTimeout : IsInt (args.submitTimeout * second)
  maxRaftState : IsInt args.maxRaftState
  grpcBaseDelay : IsInt (args.grpcBaseDelay * millisecond)
  grpcMaxDelay : IsInt (args.grpcMaxDelay * second)
  grpcConnTimeout : IsInt (args.grpcConnTimeout * second)
  metricsPortBase : IsInt args.metricsPortBase
  electionRand_ne : args.electionRand ≠ 0

/-- The nodes of a file can be told apart, and have metrics ports. -/
structure Sound (args : Args) (nodes : List Node) : Prop where
  distinct : (nodes.map Node.id).Nodup
  nonneg : ∀ node ∈ nodes, 0 ≤ node.id
  isInt : ∀ node ∈ nodes, IsInt node.id
  metricsPort : ∀ node ∈ nodes, IsInt (args.metricsPortBase + node.id)

/-- The log file of a node. -/
def logFile (node : Node) : String :=
  "/logs/node" ++ node.id.repr ++ ".log"

/-- A server gets what it asks for, its address included. -/
structure Host.Ready (host : Host) (nodes : List Node) (node : Node) : Prop where
  mkdirAll : host.mkdirAll "/data" = none
  newClient : ∀ peer ∈ nodes, host.newClient peer.addr = none
  openLogs : host.openLogs ["stderr", logFile node] = none
  readPersist : host.readPersist "/data" = none
  restore : host.restore "/data" = none
  listen : host.listen node.addr = none

/-- The configuration that the arguments ask for. -/
def Args.config (args : Args) (nodes : List Node) : Config where
  nodes
  electionTimeoutMin := args.electionMin
  electionTimeoutRand := args.electionRand
  heartbeatTimeout := args.heartbeat
  submitTimeout := args.submitTimeout
  baseDelay := args.grpcBaseDelay
  maxDelay := args.grpcMaxDelay
  minConnectTimeout := args.grpcConnTimeout
  metricsPortBase := args.metricsPortBase

/-- The connection to an address that the arguments ask for. -/
def Args.conn (args : Args) (addr : String) : Conn where
  addr
  baseDelay := args.grpcBaseDelay * millisecond
  maxDelay := args.grpcMaxDelay * second
  minConnectTimeout := args.grpcConnTimeout * second

theorem isInt_of_millisecond {k : Int} (h : IsInt (k * millisecond)) : IsInt k := by
  unfold IsInt millisecond at *
  omega

theorem isInt_of_second {k : Int} (h : IsInt (k * second)) : IsInt k := by
  unfold IsInt second at *
  omega

/-- A server overrides every default with what the arguments say. -/
theorem override_environment {args : Args} (hargs : args.Fits) (node : Node) (cfg : Config) :
    override (environment args node) cfg = args.config cfg.nodes := by
  refine Config.ext rfl ?_ ?_ ?_ ?_ ?_ ?_ ?_ ?_
  · exact getEnvInt_repr _ rfl (isInt_of_millisecond hargs.electionMin)
  · exact getEnvInt_repr _ rfl (isInt_of_millisecond hargs.electionRand)
  · exact getEnvInt_repr _ rfl (isInt_of_millisecond hargs.heartbeat)
  · exact getEnvInt_repr _ rfl (isInt_of_second hargs.submitTimeout)
  · exact getEnvInt_repr _ rfl (isInt_of_millisecond hargs.grpcBaseDelay)
  · exact getEnvInt_repr _ rfl (isInt_of_second hargs.grpcMaxDelay)
  · exact getEnvInt_repr _ rfl (isInt_of_second hargs.grpcConnTimeout)
  · exact getEnvInt_repr _ rfl hargs.metricsPortBase

theorem load_environment {args : Args} (hargs : args.Fits) (node : Node) {file : List Node}
    (hthree : 3 ≤ file.length) (hodd : file.length % 2 ≠ 0) :
    load (environment args node) file = .ok (args.config (sortNodes file)) := by
  rw [load, if_neg (Nat.not_lt.mpr hthree), if_neg hodd, override_environment hargs]
  rfl

theorem dialPeer_config {args : Args} (hargs : args.Fits) (nodes : List Node) (addr : String) :
    dialPeer (args.config nodes) addr = args.conn addr := by
  rw [dialPeer, Args.conn, Args.config, wrap_eq hargs.grpcBaseDelay, wrap_eq hargs.grpcMaxDelay,
    wrap_eq hargs.grpcConnTimeout]

/-- The server that the arguments ask for, at one place among the nodes. -/
def Args.server (args : Args) (nodes : List Node) (node : Node) (me : Nat) (r : Int) : Server where
  me
  dataDir := "/data"
  transports := nodes.zipIdx.map fun (peer, i) =>
    if i = me then none else some (args.conn peer.addr)
  logger := ⟨false, args.raftDebug, ["stderr", logFile node]⟩
  maxRaftState := args.maxRaftState
  electionTimeoutMin := args.electionMin * millisecond
  electionTimeoutRand := args.electionRand * millisecond
  heartbeatTimeout := args.heartbeat * millisecond
  submitTimeout := args.submitTimeout * second
  electionTimer := wrap ((args.electionMin + r.tmod args.electionRand) * millisecond)
  listen := node.addr
  metricsAddr := ":" ++ (args.metricsPortBase + node.id).repr

/-! ### A server that starts -/

/-- A loop of which no round fails. -/
theorem mapM_ok {A B : Type} {f : A → Except Failure B} {g : A → B} {l : List A}
    (h : ∀ a ∈ l, f a = .ok (g a)) : l.mapM f = .ok (l.map g) := by
  induction l with
  | nil => rfl
  | cons a l ih =>
    obtain ⟨ha, hl⟩ := List.forall_mem_cons.mp h
    rw [List.mapM_cons, ha, ih hl]
    rfl

section Ready

variable {args : Args} {nodes : List Node} {node : Node} {host : Host}

theorem dialPeers_ready (hargs : args.Fits) (hhost : host.Ready nodes node) (me : Nat) :
    dialPeers host (args.config nodes) me = .ok (nodes.zipIdx.map fun (peer, i) =>
      if i = me then none else some (args.conn peer.addr)) := by
  refine mapM_ok fun (peer, i) hpeer => ?_
  have hmem : peer ∈ nodes := List.mem_of_getElem? (List.mem_zipIdx_iff_getElem?.mp hpeer)
  rw [transport, hhost.newClient peer hmem, dialPeer_config hargs]
  by_cases hi : i = me
  · simp only [if_pos hi]
  · simp only [if_neg hi]
    rfl

theorem initLogger_ready (hhost : host.Ready nodes node) :
    initLogger host (environment args node) false false (logFile node) =
      .ok ⟨false, args.raftDebug, ["stderr", logFile node]⟩ := by
  have hdebug : (getEnv (environment args node) "RAFT_DEBUG" "" == "true") = args.raftDebug := by
    rw [show getEnv (environment args node) "RAFT_DEBUG" "" =
      if args.raftDebug then "true" else "false" from rfl]
    cases args.raftDebug <;> decide
  have hpath : logFile node ≠ "" := by
    intro h
    simpa [logFile] using congrArg String.toList h
  rw [initLogger, hdebug, if_pos hpath, hhost.openLogs]
  rfl

/-- Raft starts, as there is a timeout to choose. -/
theorem makeRSM_ready (hargs : args.Fits) (hhost : host.Ready nodes node) :
    makeRSM host "/data" (args.electionMin * millisecond) (args.electionRand * millisecond) =
      .ok (wrap ((args.electionMin + host.int63.tmod args.electionRand) * millisecond)) := by
  have hms : ∀ k : Int, (k * millisecond).tdiv millisecond = k := fun k =>
    Int.mul_tdiv_cancel k (by decide)
  have htimer : randomizedElectionTimeout (args.electionMin * millisecond)
      (args.electionRand * millisecond) host.int63 =
        .ok (wrap ((args.electionMin + host.int63.tmod args.electionRand) * millisecond)) := by
    simp only [randomizedElectionTimeout, hms, if_neg hargs.electionRand_ne]
  rw [makeRSM, htimer, hhost.readPersist, hhost.restore]
  rfl

/-- With `--election-rand 0` no server starts. -/
example (host : Host) (electionMin : Int) : makeRSM host "/data" electionMin 0 =
    .error (.panic "runtime error: integer divide by zero") := rfl

theorem startNode_ready (hargs : args.Fits) (hhost : host.Ready nodes node) {me : Nat}
    (hport : IsInt (args.metricsPortBase + node.id))
    (hfind : (nodes.zipIdx.find? fun (peer, _) => peer.id == node.id) = some (node, me)) :
    startNode host (environment args node) (args.config nodes) node.id "/data" args.maxRaftState
      false false (logFile node) = .ok (args.server nodes node me host.int63) := by
  have hme : findMe (args.config nodes) node.id = .ok (node, me) := by
    rw [findMe, show (args.config nodes).nodes = nodes from rfl, hfind]
  have hmin : wrap ((args.config nodes).electionTimeoutMin * millisecond) =
      args.electionMin * millisecond := wrap_eq hargs.electionMin
  have hrand : wrap ((args.config nodes).electionTimeoutRand * millisecond) =
      args.electionRand * millisecond := wrap_eq hargs.electionRand
  have hbeat : wrap ((args.config nodes).heartbeatTimeout * millisecond) =
      args.heartbeat * millisecond := wrap_eq hargs.heartbeat
  have hsubmit : wrap ((args.config nodes).submitTimeout * second) =
      args.submitTimeout * second := wrap_eq hargs.submitTimeout
  have hmetrics : wrap ((args.config nodes).metricsPortBase + node.id) =
      args.metricsPortBase + node.id := wrap_eq hport
  simp only [startNode, bind, Except.bind, attempt, hme, hhost.mkdirAll,
    dialPeers_ready hargs hhost, initLogger_ready hhost, hmin, hrand,
    makeRSM_ready hargs hhost, hhost.listen, hbeat, hsubmit, hmetrics]
  rfl

end Ready

/-! ## The numbers of the peers -/

section Peers

variable {nodes file : List Node}

theorem sortNodes_perm (nodes : List Node) : (sortNodes nodes).Perm nodes :=
  List.mergeSort_perm nodes _

theorem mem_sortNodes {node : Node} : node ∈ sortNodes nodes ↔ node ∈ nodes :=
  (sortNodes_perm nodes).mem_iff

theorem sortNodes_pairwise (nodes : List Node) :
    (sortNodes nodes).Pairwise fun a b => a.id ≤ b.id := by
  have htrans : ∀ a b c : Node, decide (a.id ≤ b.id) = true → decide (b.id ≤ c.id) = true →
      decide (a.id ≤ c.id) = true := fun a b c hab hbc =>
    decide_eq_true (Int.le_trans (of_decide_eq_true hab) (of_decide_eq_true hbc))
  have htotal : ∀ a b : Node, (decide (a.id ≤ b.id) || decide (b.id ≤ a.id)) = true := fun a b => by
    simpa using Int.le_total a.id b.id
  exact (List.pairwise_mergeSort htrans htotal nodes).imp of_decide_eq_true

/-- The order of the nodes in the file does not matter. -/
theorem sortNodes_eq_of_perm (hdistinct : (nodes.map Node.id).Nodup) (hfile : file.Perm nodes) :
    sortNodes file = sortNodes nodes := by
  refine List.Perm.eq_of_pairwise ?_ (sortNodes_pairwise file) (sortNodes_pairwise nodes)
    ((sortNodes_perm file).trans (hfile.trans (sortNodes_perm nodes).symm))
  intro a b ha hb hab hba
  exact List.inj_on_of_nodup_map hdistinct (hfile.mem_iff.mp (mem_sortNodes.mp ha))
    (mem_sortNodes.mp hb) (Int.le_antisymm hab hba)

/-- A server finds itself in the list. -/
theorem find_node (hdistinct : (nodes.map Node.id).Nodup) {node : Node} (hmem : node ∈ nodes) :
    ∃ me, ((sortNodes nodes).zipIdx.find? fun (peer, _) => peer.id == node.id) = some (node, me) ∧
      (sortNodes nodes)[me]? = some node := by
  obtain ⟨i, hi⟩ := List.mem_iff_getElem?.mp (mem_sortNodes.mpr hmem)
  have hsome : ((sortNodes nodes).zipIdx.find? fun (peer, _) => peer.id == node.id).isSome :=
    List.find?_isSome.mpr ⟨(node, i), List.mem_zipIdx_iff_getElem?.mpr hi, beq_self_eq_true _⟩
  obtain ⟨⟨peer, me⟩, hfind⟩ := Option.isSome_iff_exists.mp hsome
  have hid : peer.id = node.id := by simpa using List.find?_some hfind
  have hme : (sortNodes nodes)[me]? = some peer :=
    List.mem_zipIdx_iff_getElem?.mp (List.mem_of_find?_eq_some hfind)
  obtain rfl : peer = node :=
    List.inj_on_of_nodup_map hdistinct (mem_sortNodes.mp (List.mem_of_getElem? hme)) hmem hid
  exact ⟨me, hfind, hme⟩

theorem Host.Ready.sort {host : Host} {node : Node} (h : host.Ready nodes node) :
    host.Ready (sortNodes nodes) node :=
  { h with newClient := fun peer hpeer => h.newClient peer (mem_sortNodes.mp hpeer) }

end Peers

/-- The server of a container runs, with the settings that the arguments say. -/
theorem main_ready {args : Args} (hargs : args.Fits) {nodes file : List Node}
    (hsound : Sound args nodes) (hthree : 3 ≤ nodes.length) (hodd : nodes.length % 2 ≠ 0)
    (hfile : file.Perm nodes) {node : Node} (hmem : node ∈ nodes) {host : Host}
    (hhost : host.Ready nodes node) :
    ∃ me, (sortNodes nodes)[me]? = some node ∧ main host (environment args node) file =
      .ok (args.server (sortNodes nodes) node me host.int63) := by
  obtain ⟨me, hfind, hme⟩ := find_node hsound.distinct hmem
  have hid : getEnvInt (environment args node) "NODE_ID" (-1) = node.id :=
    getEnvInt_repr _ rfl (hsound.isInt node hmem)
  have hmax : getEnvInt (environment args node) "MAX_RAFT_STATE" (-1) = args.maxRaftState :=
    getEnvInt_repr _ rfl hargs.maxRaftState
  have hload : load (environment args node) file = .ok (args.config (sortNodes nodes)) := by
    rw [← sortNodes_eq_of_perm hsound.distinct hfile]
    rw [← hfile.length_eq] at hthree hodd
    exact load_environment hargs node hthree hodd
  have hstart : ¬ (node.id < 0 ∨ "/data" = "") := by
    have := hsound.nonneg node hmem
    simp
    omega
  refine ⟨me, hme, ?_⟩
  rw [main, hid, hmax, hload]
  dsimp only
  rw [show getEnv (environment args node) "DATA_DIR" "" = "/data" from rfl, if_neg hstart,
    show getEnvBool (environment args node) "IS_PROD" false = false from rfl,
    show getEnvBool (environment args node) "DEBUG" false = false from rfl,
    show getEnv (environment args node) "LOG_PATH" "" = logFile node from rfl,
    startNode_ready hargs (hhost.sort) (hsound.metricsPort node hmem) hfind]

/-! ## The cluster -/

/-- The servers of the nodes form one cluster, with the settings of the arguments. -/
structure Wired (args : Args) (nodes : List Node) (server : Node → Server) : Prop where
  /-- Each number belongs to one server. -/
  numbered : ∀ a ∈ nodes, ∀ b ∈ nodes, (server a).me = (server b).me → a = b
  /-- Every server counts all the others. -/
  peers : ∀ a ∈ nodes, (server a).me < nodes.length ∧ (server a).transports.length = nodes.length
  /-- What a server sends to a number arrives where the server with this number
  listens, and a server does not send to itself. -/
  reaches : ∀ a ∈ nodes, ∀ b ∈ nodes, (server a).transports[(server b).me]? =
    some (if a = b then none else some (args.conn (server b).listen))
  /-- No other server listens there. -/
  addressed : ∀ a ∈ nodes, ∀ b ∈ nodes, (server a).listen = (server b).listen → a = b
  /-- All have the same timing. -/
  timing : ∀ a ∈ nodes, (server a).electionTimeoutMin = args.electionMin * millisecond ∧
    (server a).electionTimeoutRand = args.electionRand * millisecond ∧
    (server a).heartbeatTimeout = args.heartbeat * millisecond ∧
    (server a).submitTimeout = args.submitTimeout * second
  /-- All compact their logs at the same size. -/
  maxRaftState : ∀ a ∈ nodes, (server a).maxRaftState = args.maxRaftState
  /-- The level of the logger is the one that was asked for. -/
  debug : ∀ a ∈ nodes, (server a).logger.debug = args.raftDebug

section Wired

variable {args : Args} {nodes : List Node}

theorem getElem?_transports (sorted : List Node) (a : Node) (me : Nat) (r : Int) {b : Node}
    {i : Nat} (hi : sorted[i]? = some b) : (args.server sorted a me r).transports[i]? =
      some (if i = me then none else some (args.conn b.addr)) := by
  simp [Args.server, List.getElem?_zipIdx, hi]

/-- The servers are wired, as each has its own place in the sorted list. -/
theorem wired_of_server {me : Node → Nat} (r : Node → Int)
    (hme : ∀ a ∈ nodes, (sortNodes nodes)[me a]? = some a)
    (haddr : ∀ a ∈ nodes, ∀ b ∈ nodes, a.addr = b.addr → a = b) :
    Wired args nodes fun a => args.server (sortNodes nodes) a (me a) (r a) := by
  have hlength : (sortNodes nodes).length = nodes.length := (sortNodes_perm nodes).length_eq
  have hinj : ∀ a ∈ nodes, ∀ b ∈ nodes, me a = me b → a = b := fun a ha b hb heq => by
    have hb' := hme b hb
    rw [← heq, hme a ha] at hb'
    exact Option.some.inj hb'
  refine ⟨hinj, fun a ha => ⟨?_, ?_⟩, fun a ha b hb => ?_, haddr,
    fun _ _ => ⟨rfl, rfl, rfl, rfl⟩, fun _ _ => rfl, fun _ _ => rfl⟩
  · obtain ⟨hlt, _⟩ := List.getElem?_eq_some_iff.mp (hme a ha)
    exact hlength ▸ hlt
  · simp [Args.server, hlength]
  · have hiff : me b = me a ↔ a = b := ⟨fun h => (hinj b hb a ha h).symm, fun h => by rw [h]⟩
    refine (getElem?_transports _ a _ _ (hme b hb)).trans ?_
    simp only [hiff]
    rfl

theorem setupCluster_eq_ok {services : List Service} {targets : List String}
    (h : setupCluster args nodes = .ok (services, targets)) :
    3 ≤ nodes.length ∧ nodes.length % 2 ≠ 0 ∧ services = nodes.map (service args) ∧
      targets = nodes.map fun node => "localhost:" ++ (args.metricsPortBase + node.id).repr := by
  unfold setupCluster at h
  split at h
  case isTrue => cases h
  case isFalse hthree =>
    split at h
    case isTrue => cases h
    case isFalse hodd =>
      obtain ⟨rfl, rfl⟩ := Prod.mk.inj (Except.ok.inj h)
      exact ⟨Nat.not_lt.mp hthree, hodd, rfl, rfl⟩

/-- No two containers write to one volume. -/
theorem nodup_dataVolume (hdistinct : (nodes.map Node.id).Nodup) :
    ((nodes.map (service args)).map Service.dataVolume).Nodup := by
  have hinj : Function.Injective fun id : Int => "node" ++ id.repr ++ "_data" := fun id id' h =>
    Decimal.repr_injective (by simpa using congrArg String.toList h)
  rw [List.map_map]
  have hmap := hdistinct.map hinj
  rwa [List.map_map] at hmap

end Wired

/-- The defaults of the arguments. -/
def Args.default : Args where
  electionMin := 800
  electionRand := 600
  heartbeat := 100
  submitTimeout := 10
  maxRaftState := 100000
  grpcBaseDelay := 100
  grpcMaxDelay := 3
  grpcConnTimeout := 2
  clerkRpcTimeout := 5
  clerkRetrySleep := 20
  metricsPortBase := 8080
  raftDebug := true

theorem Args.default_fits : Args.default.Fits := by
  constructor <;> decide

/-- A file that is not sorted. -/
def threeNodes : List Node :=
  [⟨2, "localhost:9002"⟩, ⟨0, "localhost:9000"⟩, ⟨1, "localhost:9001"⟩]

theorem threeNodes_sound : Sound Args.default threeNodes := by
  constructor <;> decide

/-- A machine on which the address of a node is free, and no other one. -/
def freeHost (node : Node) : Host where
  mkdirAll _ := none
  newClient _ := none
  openLogs _ := none
  int63 := 4321
  readPersist _ := none
  restore _ := none
  listen addr :=
    if addr = node.addr then none
    else some ("listen tcp " ++ addr ++ ": bind: address already in use")

theorem freeHost_ready (nodes : List Node) (node : Node) : (freeHost node).Ready nodes node :=
  ⟨rfl, fun _ _ => rfl, rfl, rfl, rfl, if_pos rfl⟩

theorem freeHost_listen {node : Node} {addr : String} (h : (freeHost node).listen addr = none) :
    addr = node.addr := by
  by_contra hne
  simp [freeHost, hne] at h

end KvRaft.Deploy
