import KvRaft.Lib.Decimal
import KvRaft.Service.Histories
import Mathlib.Data.List.DropRight

/-!
# The lock of the demo

`Main.acquireLockAndExecute` of the demo guards a shared file with a lock that it
keeps in the store.  The value of the lock is `owner:expireTime`, and a lock that
is free has the value `unlocked:0`.  An instance that finds the lock free, or its
lease over, puts its own name there, with the version that it has read.  It works
as long as it wants, and then frees the lock if its name is still there.

The first part is what the program does with strings: `split`, `parseLong` and the
value of the lock, with the round trip `acquire_lockValue`.  The second part is
the program.  Any number of instances run against the system, each with calls of
its clerk and with the clock of its own machine, which may go forwards and back.
Everything else that the clerks of the system do may happen in between, except that
nobody else puts a value under the key of the lock.
-/

namespace KvRaft.Demo

/-! ## Values of the lock -/

/-- `val.split(":")`.  Empty parts at the end are dropped, if there is a colon. -/
def split (val : String) : List String :=
  match val.toList.splitOn ':' with
  | [_] => [val]
  | parts => (parts.rdropWhile List.isEmpty).map String.ofList

/-- `Long.parseLong`.  `none` is a `NumberFormatException`. -/
def parseLong (s : String) : Option Int64 := do
  let k ← Decimal.parse s.toList
  if -2 ^ 63 ≤ k ∧ k < 2 ^ 63 then some (Int64.ofInt k) else none

/-- `LOCK_KEY`. -/
def lockKey : String := "lock:shared_file"

/-- `LEASE_DURATION_MS`. -/
def leaseDuration : Int64 := 6000

/-- `lockValue`. -/
def lockValue (instanceId : String) (expireTime : Int64) : String :=
  instanceId ++ ":" ++ expireTime.toInt.repr

/-- The value of a lock that was released. -/
def unlockedValue : String := "unlocked:0"

/-- The version with which the loop tries to acquire the lock, after `clerk.get`
has answered.  `none` is a lock that is busy, or an exception: the instance sleeps
and reads again. -/
def acquire (currentTime : Int64) : String × UInt64 × Err → Option UInt64
  | (_, _, .errNoKey) => some 0
  | (val, version, .ok) => do
    let parts := split val
    let owner ← parts[0]?
    let exp ← (if parts.length > 1 then parts[1]?.bind parseLong else some 0)
    if owner = "unlocked" ∨ currentTime > exp then some version else none
  | _ => none

/-- The version with which the lock is released, `none` when it is not. -/
def release (instanceId : String) : String × UInt64 × Err → Option UInt64
  | (val, version, .ok) => do
    let owner ← (split val)[0]?
    if owner = instanceId then some version else none
  | _ => none

/-! ### Reading a value back -/

/-- `Long.parseLong` reads what string concatenation has written. -/
theorem parseLong_repr (x : Int64) : parseLong x.toInt.repr = some x := by
  have hrange : -2 ^ 63 ≤ x.toInt ∧ x.toInt < 2 ^ 63 := ⟨x.le_toInt, x.toInt_lt⟩
  rw [parseLong, Decimal.parse_repr, Option.bind_eq_bind, Option.bind_some, if_pos hrange,
    Int64.ofInt_toInt]

/-- The parts of a value, when the name of the instance has no colon. -/
theorem split_lockValue {instanceId : String} (hcolon : ':' ∉ instanceId.toList) (x : Int64) :
    split (lockValue instanceId x) = [instanceId, x.toInt.repr] := by
  have hno : ':' ∉ x.toInt.repr.toList := Decimal.repr_not_mem x.toInt (by decide) (by decide)
  have hparts : (lockValue instanceId x).toList.splitOn ':' =
      [instanceId.toList, (x.toInt.repr).toList] := by
    have hlist : (lockValue instanceId x).toList =
        [':'].intercalate [instanceId.toList, (x.toInt.repr).toList] := by
      simp [lockValue, String.toList_append, List.intercalate]
    rw [hlist]
    refine List.splitOn_intercalate ':' ?_ (by simp)
    simp [hcolon, hno]
  unfold split
  rw [hparts]
  have hdrop := List.rdropWhile_concat_neg List.isEmpty [instanceId.toList]
    (x.toInt.repr).toList (by simpa using Decimal.repr_ne_nil x.toInt)
  simp only [List.cons_append, List.nil_append] at hdrop
  simp [hdrop]

/-- Whether another instance tries to acquire a lock depends on the time alone. -/
theorem acquire_lockValue {instanceId : String} (hcolon : ':' ∉ instanceId.toList)
    (hname : instanceId ≠ "unlocked") (currentTime x : Int64) (version : UInt64) :
    acquire currentTime (lockValue instanceId x, version, .ok) =
      if currentTime > x then some version else none := by
  simp [acquire, split_lockValue hcolon, parseLong_repr, hname]

/-- Without the proviso on the name nobody acquires the lock any more, at any time. -/
example (currentTime : Int64) : acquire currentTime (lockValue "a:b" 6000, 1, .ok) = none := by
  have hsplit : split (lockValue "a:b" 6000) = ["a", "b", "6000"] := by decide
  have hparse : parseLong "b" = none := by decide
  simp [acquire, hsplit, hparse]

theorem acquire_unlockedValue (currentTime : Int64) (version : UInt64) :
    acquire currentTime (unlockedValue, version, .ok) = some version := by
  have hsplit : split unlockedValue = ["unlocked", "0"] := by decide
  have hparse : parseLong "0" = some 0 := by decide
  simp [acquire, hsplit, hparse]

theorem release_lockValue {instanceId owner : String} (hcolon : ':' ∉ owner.toList) (x : Int64)
    (version : UInt64) : release instanceId (lockValue owner x, version, .ok) =
      if owner = instanceId then some version else none := by
  simp [release, split_lockValue hcolon]

/-! ## The program -/

/-- Where an instance is.  Calls of its clerk are named by their number. -/
inductive Phase where
  /-- Before a round of the loop. -/
  | waiting
  /-- In `clerk.get(LOCK_KEY).join()`. -/
  | reading (get : Nat)
  /-- The time has been read. -/
  | deciding (get : Nat) (currentTime : Int64)
  /-- In `clerk.put(LOCK_KEY, lockValue, ...).join()`. -/
  | acquiring (put : Nat) (expireTime : Int64)
  /-- In the operations that the lock protects.  The program has forgotten the time
  when its lease ends. -/
  | working (expireTime : Int64)
  /-- Reading the lock before its release. -/
  | checking (get : Nat)
  /-- In `clerk.put(LOCK_KEY, "unlocked:0", ...).join()`. -/
  | releasing (put : Nat)
  | finished
  deriving DecidableEq, Repr

/-- The lock was put back, or will not be. -/
def Phase.left : Phase → Bool
  | .releasing _ | .finished => true
  | _ => false

/-- The instances with their clerks and clocks. -/
structure Lock (n m : Nat) where
  clerks : Clerks n
  /-- What `System.currentTimeMillis()` returns to an instance. -/
  now : Fin m → Int64
  phase : Fin m → Phase

/-- Everything that can happen. -/
inductive LockEvent (n m : Nat) where
  /-- An event of the system, of a call, or a new call of another client. -/
  | clerk (e : ClerkEvent n)
  /-- The clock of an instance is set. -/
  | tick (i : Fin m) (time : Int64)
  /-- A round of the loop begins, on a clerk whose `lastLeader` is `srv`. -/
  | read (i : Fin m) (srv : Fin n)
  /-- `clerk.get` has returned, and `System.currentTimeMillis()` is called. -/
  | look (i : Fin m)
  /-- The loop goes on with `clerk.put`, or with the next round. -/
  | decide (i : Fin m) (srv : Fin n)
  /-- `clerk.put` has returned. -/
  | acquired (i : Fin m)
  /-- The operations are over. -/
  | check (i : Fin m) (srv : Fin n)
  /-- The lock is released, or not. -/
  | release (i : Fin m) (srv : Fin n)
  /-- The last `clerk.put` has returned. -/
  | released (i : Fin m)
  deriving DecidableEq

/-- A `Put` on the lock. -/
def locks {n : Nat} : ClerkEvent n → Bool
  | .clients (.put _ key _ _) => key = lockKey
  | _ => false

namespace Lock

variable {n m : Nat}

/-- No instance has begun. -/
def init : Lock n m := ⟨.init, fun _ => 0, fun _ => .waiting⟩

def setPhase (s : Lock n m) (i : Fin m) (phase : Phase) : Lock n m :=
  { s with phase := Function.update s.phase i phase }

/-- An instance calls `clerk.get(LOCK_KEY)`. -/
def get (s : Lock n m) (i : Fin m) (srv : Fin n) (phase : Nat → Phase) : Option (Lock n m) := do
  let clerks ← s.clerks.exec (.get srv lockKey)
  some { s.setPhase i (phase s.clerks.gets.length) with clerks := clerks }

/-- An instance calls `clerk.put(LOCK_KEY, value, version)`. -/
def put (s : Lock n m) (i : Fin m) (srv : Fin n) (value : String) (version : UInt64)
    (phase : Nat → Phase) : Option (Lock n m) := do
  let clerks ← s.clerks.exec (.clients (.put srv lockKey value version))
  some { s.setPhase i (phase s.clerks.clients.puts.length) with clerks := clerks }

/-- What an event does, where `ids` are the names of the instances.  `none` is an
event that cannot happen in the state. -/
def exec (ids : Fin m → String) (s : Lock n m) : LockEvent n m → Option (Lock n m)
  | .clerk e =>
    if locks e then none
    else do
      let clerks ← s.clerks.exec e
      some { s with clerks := clerks }
  | .tick i time => some { s with now := Function.update s.now i time }
  | .read i srv =>
    match s.phase i with
    | .waiting => s.get i srv .reading
    | _ => none
  | .look i =>
    match s.phase i with
    | .reading get => do
      let g ← s.clerks.gets[get]?
      let _ ← g.result
      some (s.setPhase i (.deciding get (s.now i)))
    | _ => none
  | .decide i srv =>
    match s.phase i with
    | .deciding get currentTime => do
      let g ← s.clerks.gets[get]?
      let result ← g.result
      let expireTime := currentTime + leaseDuration
      match acquire currentTime result with
      | some version =>
        s.put i srv (lockValue (ids i) expireTime) version fun put => .acquiring put expireTime
      | none => some (s.setPhase i .waiting)
    | _ => none
  | .acquired i =>
    match s.phase i with
    | .acquiring put expireTime => do
      let p ← s.clerks.clients.puts[put]?
      let err ← p.result
      some (s.setPhase i (if err = .ok then .working expireTime else .waiting))
    | _ => none
  | .check i srv =>
    match s.phase i with
    | .working _ => s.get i srv .checking
    | _ => none
  | .release i srv =>
    match s.phase i with
    | .checking get => do
      let g ← s.clerks.gets[get]?
      let result ← g.result
      match Demo.release (ids i) result with
      | some version => s.put i srv unlockedValue version .releasing
      | none => some (s.setPhase i .finished)
    | _ => none
  | .released i =>
    match s.phase i with
    | .releasing put => do
      let p ← s.clerks.clients.puts[put]?
      let _ ← p.result
      some (s.setPhase i .finished)
    | _ => none

/-- One event. -/
def Step (ids : Fin m → String) (s s' : Lock n m) : Prop := ∃ e, s.exec ids e = some s'

end Lock

/-- A run of the instances. -/
abbrev LockRun (n : Nat) {m : Nat} (ids : Fin m → String) :=
  Run (Lock.init (n := n) (m := m)) (Lock.Step ids)

/-! ### What an event does -/

section Steps

variable {n m : Nat} {ids : Fin m → String} {s s' : Lock n m}

/-- The call `get` on the lock has returned `result`. -/
def Lock.Read (s : Lock n m) (get : Nat) (result : String × UInt64 × Err) : Prop :=
  ∃ g, s.clerks.gets[get]? = some g ∧ g.result = some result

/-- An instance goes on without a call. -/
inductive Moves (s : Lock n m) (i : Fin m) : Phase → Prop where
  | look {get : Nat} {result : String × UInt64 × Err} (hphase : s.phase i = .reading get)
      (hread : s.Read get result) : Moves s i (.deciding get (s.now i))
  | refused {get : Nat} {currentTime : Int64} (hphase : s.phase i = .deciding get currentTime) :
      Moves s i .waiting
  | acquired {put : Nat} {expireTime : Int64} {p : PutCall n}
      (hphase : s.phase i = .acquiring put expireTime)
      (hp : s.clerks.clients.puts[put]? = some p) (hresult : p.result = some .ok) :
      Moves s i (.working expireTime)
  | failed {put : Nat} {expireTime : Int64} (hphase : s.phase i = .acquiring put expireTime) :
      Moves s i .waiting
  | skipped {get : Nat} (hphase : s.phase i = .checking get) : Moves s i .finished
  | released {put : Nat} (hphase : s.phase i = .releasing put) : Moves s i .finished

/-- A call of `clerk.put` on the lock, with its reason. -/
inductive Puts (ids : Fin m → String) (s : Lock n m) (i : Fin m) :
    String → UInt64 → (Nat → Phase) → Prop where
  | acquire {get : Nat} {currentTime : Int64} {result : String × UInt64 × Err} {version : UInt64}
      (hphase : s.phase i = .deciding get currentTime) (hread : s.Read get result)
      (hacquire : acquire currentTime result = some version) :
      Puts ids s i (lockValue (ids i) (currentTime + leaseDuration)) version
        fun put => .acquiring put (currentTime + leaseDuration)
  | release {get : Nat} {result : String × UInt64 × Err} {version : UInt64}
      (hphase : s.phase i = .checking get) (hread : s.Read get result)
      (hrelease : release (ids i) result = some version) :
      Puts ids s i unlockedValue version .releasing

/-- What an event can do. -/
inductive LockStep (ids : Fin m → String) (s s' : Lock n m) : Prop where
  | clerk (e : ClerkEvent n) (hlocks : locks e = false)
      (hexec : s.clerks.exec e = some s'.clerks) (hphase : s'.phase = s.phase)
  | tick (hclerks : s'.clerks = s.clerks) (hphase : s'.phase = s.phase)
  | move (i : Fin m) (phase : Phase) (hmove : Moves s i phase) (hs : s' = s.setPhase i phase)
  | get (i : Fin m) (srv : Fin n) (phase : Nat → Phase)
      (hfrom : s.phase i = .waiting ∧ phase = .reading ∨
        (∃ expireTime, s.phase i = .working expireTime) ∧ phase = .checking)
      (hs : s.get i srv phase = some s')
  | put (i : Fin m) (srv : Fin n) (value : String) (version : UInt64) (phase : Nat → Phase)
      (hputs : Puts ids s i value version phase) (hs : s.put i srv value version phase = some s')

theorem Lock.get_inv {i : Fin m} {srv : Fin n} {phase : Nat → Phase}
    (h : s.get i srv phase = some s') : s.clerks.exec (.get srv lockKey) = some s'.clerks ∧
      s'.phase = Function.update s.phase i (phase s.clerks.gets.length) := by
  rw [Lock.get, Option.bind_eq_bind, Option.bind_eq_some_iff] at h
  obtain ⟨clerks, hexec, hdone⟩ := h
  cases hdone
  exact ⟨hexec, rfl⟩

theorem Lock.put_inv {i : Fin m} {srv : Fin n} {value : String} {version : UInt64}
    {phase : Nat → Phase} (h : s.put i srv value version phase = some s') :
    s.clerks.exec (.clients (.put srv lockKey value version)) = some s'.clerks ∧
      s'.phase = Function.update s.phase i (phase s.clerks.clients.puts.length) := by
  rw [Lock.put, Option.bind_eq_bind, Option.bind_eq_some_iff] at h
  obtain ⟨clerks, hexec, hdone⟩ := h
  cases hdone
  exact ⟨hexec, rfl⟩

theorem Lock.exec_step {e : LockEvent n m} (h : s.exec ids e = some s') : LockStep ids s s' := by
  cases e with
  | clerk e =>
    rw [Lock.exec] at h
    split_ifs at h with hlocks
    obtain ⟨clerks, hexec, hdone⟩ := Option.bind_eq_some_iff.mp h
    cases hdone
    exact .clerk e (by simpa using hlocks) hexec rfl
  | tick i time =>
    cases h
    exact .tick rfl rfl
  | read i srv =>
    rw [Lock.exec] at h
    split at h
    · rename_i hphase
      exact .get i srv .reading (Or.inl ⟨hphase, rfl⟩) h
    · cases h
  | look i =>
    rw [Lock.exec] at h
    split at h
    · rename_i get hphase
      obtain ⟨g, hg, h⟩ := Option.bind_eq_some_iff.mp h
      obtain ⟨result, hresult, h⟩ := Option.bind_eq_some_iff.mp h
      cases h
      exact .move i _ (.look hphase ⟨g, hg, hresult⟩) rfl
    · cases h
  | decide i srv =>
    rw [Lock.exec] at h
    split at h
    · rename_i get currentTime hphase
      obtain ⟨g, hg, h⟩ := Option.bind_eq_some_iff.mp h
      obtain ⟨result, hresult, h⟩ := Option.bind_eq_some_iff.mp h
      split at h
      · rename_i version hacquire
        exact .put i srv _ version _ (.acquire hphase ⟨g, hg, hresult⟩ hacquire) h
      · cases h
        exact .move i _ (.refused hphase) rfl
    · cases h
  | acquired i =>
    rw [Lock.exec] at h
    split at h
    · rename_i put expireTime hphase
      obtain ⟨p, hp, h⟩ := Option.bind_eq_some_iff.mp h
      obtain ⟨err, herr, h⟩ := Option.bind_eq_some_iff.mp h
      cases h
      split_ifs with hok
      · exact .move i _ (.acquired hphase hp (herr.trans (congrArg some hok))) rfl
      · exact .move i _ (.failed hphase) rfl
    · cases h
  | check i srv =>
    rw [Lock.exec] at h
    split at h
    · rename_i expireTime hphase
      exact .get i srv .checking (Or.inr ⟨⟨expireTime, hphase⟩, rfl⟩) h
    · cases h
  | release i srv =>
    rw [Lock.exec] at h
    split at h
    · rename_i get hphase
      obtain ⟨g, hg, h⟩ := Option.bind_eq_some_iff.mp h
      obtain ⟨result, hresult, h⟩ := Option.bind_eq_some_iff.mp h
      split at h
      · rename_i version hrelease
        exact .put i srv _ version _ (.release hphase ⟨g, hg, hresult⟩ hrelease) h
      · cases h
        exact .move i _ (.skipped hphase) rfl
    · cases h
  | released i =>
    rw [Lock.exec] at h
    split at h
    · rename_i put hphase
      obtain ⟨p, hp, h⟩ := Option.bind_eq_some_iff.mp h
      obtain ⟨err, herr, h⟩ := Option.bind_eq_some_iff.mp h
      cases h
      exact .move i _ (.released hphase) rfl
    · cases h

/-- The clerks make a step of their own, or none. -/
theorem LockStep.clerks (h : LockStep ids s s') :
    (∃ e, s.clerks.exec e = some s'.clerks) ∨ s'.clerks = s.clerks := by
  cases h with
  | clerk e _ hexec => exact Or.inl ⟨e, hexec⟩
  | tick hclerks => exact Or.inr hclerks
  | move i phase _ hs => exact Or.inr (by rw [hs]; rfl)
  | get i srv phase _ hs => exact Or.inl ⟨_, (Lock.get_inv hs).1⟩
  | put i srv value version phase _ hs => exact Or.inl ⟨_, (Lock.put_inv hs).1⟩

end Steps

/-- The clerks of a run. -/
def LockRun.clerks {n m : Nat} {ids : Fin m → String} (run : LockRun n ids) : ClerkRun n where
  state t := (run.state t).clerks
  start := by rw [run.start]; rfl
  next t := by
    rcases run.next t with ⟨e, he⟩ | h
    · exact (Lock.exec_step he).clerks
    · exact Or.inr (by rw [h])

theorem LockRun.clerks_state {n m : Nat} {ids : Fin m → String} (run : LockRun n ids) (t : Nat) :
    run.clerks.state t = (run.state t).clerks := rfl

end KvRaft.Demo
