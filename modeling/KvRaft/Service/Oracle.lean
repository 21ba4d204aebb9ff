import KvRaft.Service.Store
import Mathlib.Data.Finset.Sort
import Mathlib.Data.String.Basic

/-!
# The oracle of the linearizability tests

Translated from `kvraft/internal/testutils/kvmodel.go`: the model that the tests
check recorded histories against.  It knows one key at a time.  A history is
split by key, and each part is checked against a register with a version that
starts at 0, where the store has no key at all.

`history` records what `DoOp` answers, with the fields that `performRandomOp` of
`kvraft/internal/kvserver/linearizability_test.go` fills in.  The client and the
times of an operation are not read by the model and are left out, and so is the
text of `DescribeOperation`.
-/

namespace KvRaft

/-- The text of an error, as in `kvraft/api/kv.go`. -/
def Err.string : Err → String
  | .ok => "OK"
  | .errNoKey => "ErrNoKey"
  | .errVersion => "ErrVersion"
  | .errMaybe => "ErrMaybe"
  | .errWrongLeader => "ErrWrongLeader"

/-- `KvInput`.  The operation 0 is a `Get` and 1 is a `Put`. -/
structure KvInput where
  op : UInt8
  key : String
  value : String
  version : UInt64
  deriving DecidableEq, Repr

/-- `KvOutput`. -/
structure KvOutput where
  value : String
  version : UInt64
  err : String
  deriving DecidableEq, Repr

/-- `KvState`. -/
structure KvState where
  value : String
  version : UInt64
  deriving DecidableEq, Repr

/-- `porcupine.Operation`. -/
structure Operation where
  input : KvInput
  output : KvOutput
  deriving DecidableEq, Repr

namespace KvModel

/-- `Partition`: the operations of each key in their order, by ascending key. -/
def partition (history : List Operation) : List (List Operation) :=
  let m : Finmap fun _ : String => List Operation := history.foldl
    (fun m v => m.insert v.input.key ((m.lookup v.input.key).getD [] ++ [v])) ∅
  let keys := m.keys.sort (· ≤ ·)
  keys.map fun k => (m.lookup k).getD []

/-- `Init`. -/
def init : KvState := ⟨"", 0⟩

/-- `Step`: whether the output is possible, and the next state. -/
def step (st : KvState) (inp : KvInput) (out : KvOutput) : Bool × KvState :=
  if inp.op = 0 then
    if out.err = Err.ok.string then (out.value = st.value ∧ out.version = st.version, st)
    else if out.err = Err.errNoKey.string then (st.version = 0, st)
    else (true, st)
  else if inp.op = 1 then
    if out.err = Err.ok.string then
      if st.version = inp.version then (true, ⟨inp.value, st.version + 1⟩) else (false, st)
    else if out.err = Err.errVersion.string then (st.version ≠ inp.version, st)
    else if out.err = Err.errMaybe.string then
      if st.version = inp.version then (true, ⟨inp.value, st.version + 1⟩) else (true, st)
    else (true, st)
  else (false, st)

/-- The state after some operations.  `none` is an operation that `Step` does
not accept. -/
def run (st : KvState) : List Operation → Option KvState
  | [] => some st
  | op :: ops =>
    match step st op.input op.output with
    | (true, st) => run st ops
    | (false, _) => none

end KvModel

/-! ## Splitting by key -/

/-- The operations on one key. -/
def ofKey (key : String) (history : List Operation) : List Operation :=
  history.filter fun op => op.input.key = key

namespace KvModel

/-- The map that `Partition` builds, from any map on. -/
theorem lookup_foldl_partition (key : String) : ∀ (history : List Operation)
    (m : Finmap fun _ : String => List Operation),
    ((history.foldl (fun m v => m.insert v.input.key ((m.lookup v.input.key).getD [] ++ [v]))
      m).lookup key).getD [] = (m.lookup key).getD [] ++ ofKey key history
  | [], m => by simp [ofKey]
  | v :: history, m => by
    rw [List.foldl_cons, lookup_foldl_partition key history]
    by_cases hkey : v.input.key = key
    · subst hkey
      simp [ofKey]
    · rw [Finmap.lookup_insert_of_ne m (Ne.symm hkey)]
      simp [ofKey, hkey]

theorem keys_foldl_partition : ∀ (history : List Operation)
    (m : Finmap fun _ : String => List Operation),
    (history.foldl (fun m v => m.insert v.input.key ((m.lookup v.input.key).getD [] ++ [v]))
      m).keys = m.keys ∪ (history.map (·.input.key)).toFinset
  | [], m => by simp
  | v :: history, m => by
    rw [List.foldl_cons, keys_foldl_partition history]
    ext key
    simp only [Finset.mem_union, Finmap.mem_keys, Finmap.mem_insert, List.map_cons,
      List.toFinset_cons, Finset.mem_insert]
    tauto

/-- `Partition` splits a history into the operations of each of its keys. -/
theorem partition_eq (history : List Operation) : partition history =
    ((history.map (·.input.key)).toFinset.sort (· ≤ ·)).map fun key => ofKey key history := by
  unfold partition
  simp only [keys_foldl_partition, lookup_foldl_partition]
  simp

end KvModel

/-! ## Histories of the store -/

/-- The input that a request is recorded with. -/
def Request.input? : Request → Option KvInput
  | .get key => some ⟨0, key, "", 0⟩
  | .put key value version => some ⟨1, key, value, version⟩
  | .other => none

/-- The output that a reply is recorded with. -/
def Reply.output : Reply → KvOutput
  | .get value version err => ⟨value, version, err.string⟩
  | .put err => ⟨"", 0, err.string⟩

namespace Store

/-- What executing some `Get`s and `Put`s records. -/
def history (kv : Store) : List Request → List Operation
  | [] => []
  | req :: reqs =>
    match req.input? with
    | some input => ⟨input, (doOp kv req).2.output⟩ :: history (doOp kv req).1 reqs
    | none => history (doOp kv req).1 reqs

/-- The state of one key as the oracle sees it. -/
def stateOf (kv : Store) (key : String) : KvState :=
  match kv.lookup key with
  | none => ⟨"", 0⟩
  | some (value, version) => ⟨value, version⟩

section

variable {kv : Store} {key : String} {req : Request}

theorem stateOf_eq_of_lookup {kv' : Store} (h : kv'.lookup key = kv.lookup key) :
    kv'.stateOf key = kv.stateOf key := by
  unfold stateOf
  rw [h]

theorem stateOf_insert (value : String) (version : UInt64) :
    stateOf (kv.insert key (value, version)) key = ⟨value, version⟩ := by
  simp [stateOf]

/-- A `Put` succeeds on the version that the oracle has for the key: 0 stands
both for no key and for a version that wrapped around. -/
theorem doOp_put_ok_iff_stateOf {value : String} {version : UInt64} :
    (doOp kv (.put key value version)).2 = .put .ok ↔ (kv.stateOf key).version = version := by
  rw [doOp_put_ok_iff, stateOf]
  cases hkey : kv.lookup key with
  | none => simp [eq_comm]
  | some old => simp [Prod.ext_iff]

/-- A request on another key. -/
theorem lookup_doOp_of_ne {input : KvInput} (hreq : req.input? = some input)
    (hne : input.key ≠ key) : (doOp kv req).1.lookup key = kv.lookup key := by
  apply lookup_doOp_of_not_succeeds
  cases req with
  | put k value version =>
    cases hreq
    simp [succeeds, hne]
  | get k => rfl
  | other => rfl

/-- A refused `Put`. -/
theorem doOp_of_errVersion {k value : String} {version : UInt64}
    (h : (doOp kv (.put k value version)).2 = .put .errVersion) :
    (doOp kv (.put k value version)).1 = kv := by
  apply doOp_put_of_ne
  simp [h]

/-- The oracle accepts what the store answers, and follows it. -/
theorem step_stateOf {input : KvInput} (hreq : req.input? = some input) :
    KvModel.step (kv.stateOf input.key) input (doOp kv req).2.output =
      (true, (doOp kv req).1.stateOf input.key) := by
  cases req with
  | get k =>
    cases hreq
    rw [doOp_get]
    cases hkey : kv.lookup k with
    | none => simp [KvModel.step, doOp, stateOf, hkey, Reply.output, Err.string]
    | some old => simp [KvModel.step, doOp, stateOf, hkey, Reply.output, Err.string]
  | put k value version =>
    cases hreq
    rcases doOp_put kv k value version with hok | hrefused
    · have hversion := doOp_put_ok_iff_stateOf.mp hok
      rw [hok, doOp_put_of_ok hok, stateOf_insert]
      simp [KvModel.step, Reply.output, Err.string, hversion]
    · have hversion : (kv.stateOf k).version ≠ version := by
        intro heq
        have hok : (doOp kv (.put k value version)).2 = .put .ok :=
          doOp_put_ok_iff_stateOf.mpr heq
        simp [hrefused] at hok
      rw [hrefused, doOp_of_errVersion hrefused]
      simp [KvModel.step, Reply.output, Err.string, hversion]
  | other => cases hreq

/-- The part of a key in a whole history, from any store on. -/
theorem run_ofKey_history (key : String) (reqs : List Request) (kv : Store) :
    KvModel.run (kv.stateOf key) (ofKey key (history kv reqs)) =
      some (stateOf (reqs.foldl (fun s req => (doOp s req).1) kv) key) := by
  induction reqs generalizing kv with
  | nil => rfl
  | cons req reqs ih =>
    rw [List.foldl_cons, ← ih, history]
    cases hreq : req.input? with
    | none =>
      cases req with
      | other => rfl
      | get k => cases hreq
      | put k value version => cases hreq
    | some input =>
      by_cases hkey : input.key = key
      · subst hkey
        simp [ofKey, KvModel.run, step_stateOf hreq]
      · rw [stateOf_eq_of_lookup (lookup_doOp_of_ne hreq hkey)]
        simp [ofKey, hkey]

theorem history_append (reqs reqs' : List Request) (kv : Store) :
    history kv (reqs ++ reqs') = history kv reqs ++
      history (reqs.foldl (fun s req => (doOp s req).1) kv) reqs' := by
  induction reqs generalizing kv with
  | nil => rfl
  | cons req reqs ih =>
    rw [List.cons_append, history, history, List.foldl_cons, ih]
    cases req.input? <;> rfl

/-- The version of a key counts its `Put`s that succeeded. -/
theorem version_replay (key : String) (reqs : List Request) :
    (stateOf (machine.replay reqs) key).version.toNat = successes key ∅ reqs % 2 ^ 64 := by
  induction reqs using List.reverseRecOn with
  | nil => rfl
  | append_singleton reqs req ih =>
    rw [successes_concat, StateMachine.replay_concat, machine_doOp]
    cases hs : succeeds key (machine.replay reqs) req with
    | false =>
      rw [stateOf_eq_of_lookup (lookup_doOp_of_not_succeeds hs)]
      simpa using ih
    | true =>
      cases req with
      | put k value version =>
        simp only [succeeds, decide_eq_true_eq] at hs
        obtain ⟨rfl, hok⟩ := hs
        rw [doOp_put_ok_iff_stateOf.mp hok] at ih
        rw [doOp_put_of_ok hok, stateOf_insert, if_pos rfl, UInt64.toNat_add, ih]
        simp
      | get k => cases hs
      | other => cases hs

end

/-- The store answers some requests as the oracle allows.  Here `before` is what
has been executed up to some step. -/
structure RefinesOracle (reqs : List Request) : Prop where
  /-- The parts that the oracle checks. -/
  parts : KvModel.partition (history ∅ reqs) =
    (((history ∅ reqs).map (·.input.key)).toFinset.sort (· ≤ ·)).map fun key =>
      ofKey key (history ∅ reqs)
  /-- Every step is accepted, and leads to the state of the key in the store. -/
  accepted : ∀ before, before <+: reqs → history ∅ before <+: history ∅ reqs ∧ ∀ key,
    KvModel.run KvModel.init (ofKey key (history ∅ before)) =
      some (stateOf (machine.replay before) key)
  /-- An operation on another key does not affect a key. -/
  others : ∀ before req, before ++ [req] <+: reqs → ∀ input key, req.input? = some input →
    input.key ≠ key →
    (machine.replay (before ++ [req])).lookup key = (machine.replay before).lookup key
  /-- A refused `Put` changes nothing. -/
  refused : ∀ before key value version, before ++ [.put key value version] <+: reqs →
    (doOp (machine.replay before) (.put key value version)).2 = .put .errVersion →
    machine.replay (before ++ [.put key value version]) = machine.replay before
  /-- The version of a key counts its successful `Put`s. -/
  versions : ∀ before, before <+: reqs → ∀ key,
    (stateOf (machine.replay before) key).version.toNat = successes key ∅ before % 2 ^ 64

/-- The store refines the oracle of the linearizability tests. -/
theorem refinesOracle (reqs : List Request) : RefinesOracle reqs where
  parts := KvModel.partition_eq _
  accepted := by
    rintro before ⟨after, rfl⟩
    rw [history_append]
    exact ⟨List.prefix_append _ _, fun key => run_ofKey_history key before ∅⟩
  others := by
    intro before req _ input key hreq hne
    rw [StateMachine.replay_concat]
    exact lookup_doOp_of_ne hreq hne
  refused := by
    intro before key value version _ h
    rw [StateMachine.replay_concat]
    exact doOp_of_errVersion h
  versions := fun before _ key => version_replay key before

end Store

end KvRaft
