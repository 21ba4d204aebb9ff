import KvRaft.Rsm.StateMachine
import Mathlib.Data.Finmap

/-!
# The key-value store

Translated from `kvraft/internal/kvserver/store.go` and `kvraft/api`.  The map
of the source is a finite map, and a snapshot is the encoded map.  `Restore`
decodes into the live map: the decoded keys are inserted, and the other keys
stay.  That is right for a replica, because no operation removes a key
(`Store.lawful`).  Over a state with keys of its own it is not
(`Store.restoreReplaces_iff`).
-/

namespace KvRaft

/-- `api.Err`. -/
inductive Err where
  | ok
  | errNoKey
  | errVersion
  | errMaybe
  | errWrongLeader
  deriving DecidableEq, Repr

/-- The request types that `DoOp` distinguishes; `other` is every other type. -/
inductive Request where
  | get (key : String)
  | put (key value : String) (version : UInt64)
  | other
  deriving DecidableEq, Repr

/-- `api.GetReply` and `api.PutReply`. -/
inductive Reply where
  | get (value : String) (version : UInt64) (err : Err)
  | put (err : Err)
  deriving DecidableEq, Repr

/-- The map of `Store`. -/
abbrev Store := Finmap fun _ : String => String × UInt64

namespace Store

/-- `DoOp`. -/
def doOp (kv : Store) : Request → Store × Reply
  | .get key =>
    match kv.lookup key with
    | none => (kv, .get "" 0 .errNoKey)
    | some (value, version) => (kv, .get value version .ok)
  | .put key value version =>
    match kv.lookup key with
    | none =>
      if version ≠ 0 then (kv, .put .errVersion)
      else (kv.insert key (value, 1), .put .ok)
    | some (_, current) =>
      if current ≠ version then (kv, .put .errVersion)
      else (kv.insert key (value, current + 1), .put .ok)
  | .other => (kv, .put .errWrongLeader)

/-- `Snapshot`: the encoded map. -/
def snapshot (kv : Store) : Store := kv

/-- `Restore`: no data is a new map, and other data is decoded into the live
map. -/
def restore (kv : Store) : Option Store → Store
  | none => ∅
  | some data => data ∪ kv

/-- The store as a state machine. -/
def machine : StateMachine Store Request Reply Store where
  new := ∅
  doOp := doOp
  snapshot := snapshot
  restore := restore

theorem machine_doOp (kv : Store) (req : Request) : machine.doOp kv req = doOp kv req := rfl

/-- What a `Put` can answer. -/
theorem doOp_put (kv : Store) (key value : String) (version : UInt64) :
    (doOp kv (.put key value version)).2 = .put .ok ∨
      (doOp kv (.put key value version)).2 = .put .errVersion := by
  rw [doOp]
  split <;> split_ifs <;> simp

/-- A `Put` succeeds on the version that the key has, or on version 0 when there
is no key. -/
theorem doOp_put_ok_iff {kv : Store} {key value : String} {version : UInt64} :
    (doOp kv (.put key value version)).2 = .put .ok ↔
      kv.lookup key = none ∧ version = 0 ∨ ∃ old, kv.lookup key = some (old, version) := by
  rw [doOp]
  split
  · rename_i hnone
    split_ifs with hzero
    · simp [hnone, hzero]
    · simp [hnone, not_not.mp hzero]
  · rename_i old current hsome
    split_ifs with hne
    · simp [hsome, hne]
    · simp [hsome, not_not.mp hne]

/-- A `Put` that succeeds writes the next version. -/
theorem doOp_put_of_ok {kv : Store} {key value : String} {version : UInt64}
    (h : (doOp kv (.put key value version)).2 = .put .ok) :
    (doOp kv (.put key value version)).1 = kv.insert key (value, version + 1) := by
  rcases doOp_put_ok_iff.mp h with ⟨hnone, rfl⟩ | ⟨old, hsome⟩
  · simp [doOp, hnone]
  · simp [doOp, hsome]

/-- A `Put` that does not succeed writes nothing. -/
theorem doOp_put_of_ne {kv : Store} {key value : String} {version : UInt64}
    (h : (doOp kv (.put key value version)).2 ≠ .put .ok) :
    (doOp kv (.put key value version)).1 = kv := by
  rw [doOp] at h ⊢
  split <;> split_ifs <;> simp_all

/-- A `Get` writes nothing. -/
theorem doOp_get (kv : Store) (key : String) : (doOp kv (.get key)).1 = kv := by
  rw [doOp]
  split <;> rfl

/-- No operation removes a key. -/
theorem mem_doOp {kv : Store} {key : String} (h : key ∈ kv) (req : Request) :
    key ∈ (doOp kv req).1 := by
  cases req with
  | get k => rwa [doOp_get]
  | put k value version =>
    by_cases hok : (doOp kv (.put k value version)).2 = .put .ok
    · rw [doOp_put_of_ok hok]
      exact Finmap.mem_insert.mpr (Or.inr h)
    · rwa [doOp_put_of_ne hok]
  | other => exact h

theorem mem_foldl_doOp {reqs : List Request} {kv : Store} {key : String} (h : key ∈ kv) :
    key ∈ reqs.foldl (fun s req => (machine.doOp s req).1) kv := by
  induction reqs generalizing kv with
  | nil => exact h
  | cons req reqs ih => exact ih (mem_doOp h req)

/-- Every key of the state after fewer requests is a key after more. -/
theorem mem_replay_append {before after : List Request} {key : String}
    (h : key ∈ machine.replay before) : key ∈ machine.replay (before ++ after) := by
  rw [StateMachine.replay, List.foldl_append]
  exact mem_foldl_doOp h

/-! ## `Put`s that succeed -/

/-- The request is a `Put` on `key` that succeeds. -/
def succeeds (key : String) (kv : Store) : Request → Bool
  | .put k value version => k = key ∧ (doOp kv (.put k value version)).2 = .put .ok
  | _ => false

/-- The number of `Put`s on `key` that succeed, from the state `kv` on. -/
def successes (key : String) : Store → List Request → Nat
  | _, [] => 0
  | kv, req :: reqs =>
    (if succeeds key kv req then 1 else 0) + successes key (doOp kv req).1 reqs

section Successes

variable {key : String} {kv : Store}

theorem successes_append (reqs reqs' : List Request) (kv : Store) :
    successes key kv (reqs ++ reqs') = successes key kv reqs +
      successes key (reqs.foldl (fun s req => (doOp s req).1) kv) reqs' := by
  induction reqs generalizing kv with
  | nil => simp [successes]
  | cons req reqs ih => simp only [List.cons_append, successes, List.foldl_cons, ih]; omega

theorem successes_concat (reqs : List Request) (req : Request) :
    successes key ∅ (reqs ++ [req]) = successes key ∅ reqs +
      if succeeds key (machine.replay reqs) req then 1 else 0 := by
  rw [successes_append]
  rfl

theorem succeeds_inv {req : Request} (h : succeeds key kv req = true) :
    (∃ value version, req = .put key value version) ∧ (doOp kv req).2 = .put .ok := by
  cases req with
  | put k value version =>
    obtain ⟨rfl, hok⟩ := of_decide_eq_true h
    exact ⟨⟨value, version, rfl⟩, hok⟩
  | get => cases h
  | other => cases h

/-- A request that does not succeed as a `Put` on the key leaves the key alone. -/
theorem lookup_doOp_of_not_succeeds {req : Request} (h : succeeds key kv req = false) :
    (doOp kv req).1.lookup key = kv.lookup key := by
  cases req with
  | get k => rw [doOp_get]
  | put k value version =>
    by_cases hok : (doOp kv (.put k value version)).2 = .put .ok
    · have hne : k ≠ key := by
        rintro rfl
        simp [succeeds, hok] at h
      rw [doOp_put_of_ok hok, Finmap.lookup_insert_of_ne kv (Ne.symm hne)]
    · rw [doOp_put_of_ne hok]
  | other => rfl

end Successes

/-! ## Restoring over another state -/

/-- A key that only the old state has survives. -/
theorem lookup_restore {s t : Store} {key : String} (h : key ∉ t) :
    (restore s (some (snapshot t))).lookup key = s.lookup key :=
  Finmap.lookup_union_right h

theorem restore_eq {s t : Store} (h : ∀ key ∈ s, key ∈ t) : restore s (some (snapshot t)) = t := by
  refine Finmap.ext_lookup fun key => ?_
  by_cases hkey : key ∈ t
  · exact Finmap.lookup_union_left hkey
  · rw [lookup_restore hkey, Finmap.lookup_eq_none.mpr hkey, Finmap.lookup_eq_none]
    exact fun hold => hkey (h key hold)

/-- Restoring over an older state is restoring. -/
theorem lawful : machine.Lawful := by
  refine ⟨fun _ => rfl, fun before after => ?_⟩
  exact restore_eq fun key hkey => mem_replay_append hkey

/-- The replies to some requests, one after the other. -/
def replies (kv : Store) : List Request → List Reply
  | [] => []
  | req :: reqs => (doOp kv req).2 :: replies (doOp kv req).1 reqs

/-- Restoring the snapshot of `t` over `s` gives `t`, as far as any later `Get`s
and `Put`s can tell. -/
def RestoreReplaces (s t : Store) : Prop :=
  ∀ reqs : List Request, (∀ req ∈ reqs, req ≠ .other) →
    replies (restore s (some (snapshot t))) reqs = replies t reqs

/-- `Restore` replaces a state exactly when it has no key of its own. -/
theorem restoreReplaces_iff (s t : Store) : RestoreReplaces s t ↔ ∀ key ∈ s, key ∈ t := by
  constructor
  · -- A `Get` of a key that only `s` has tells the two apart.
    intro h key hkey
    by_contra hnot
    obtain ⟨⟨value, version⟩, hold⟩ := Finmap.mem_iff.mp hkey
    have hget := h [.get key] (by simp)
    have hrestored := (lookup_restore hnot).trans hold
    have hnone := Finmap.lookup_eq_none.mpr hnot
    simp [replies, doOp, hrestored, hnone] at hget
  · intro h reqs _
    rw [restore_eq h]

/-- The snapshot of a store without `x`, restored over a store with it. -/
theorem restore_keeps_old_key : ¬ RestoreReplaces (machine.replay [.put "x" "a" 0])
    (machine.replay [.put "y" "b" 0]) := by
  intro h
  have hget := h [.get "x"] (by simp)
  exact absurd hget (by decide +kernel)

end Store

end KvRaft
