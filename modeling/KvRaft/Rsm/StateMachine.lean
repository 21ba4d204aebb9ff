import Mathlib.Data.List.Basic

/-!
# Replicated state machines

Translated from `kvraft/sm/sm.go`.  A state machine is what the replicated log
drives: it executes requests, and it can be saved and restored.  Its snapshots
are never empty, so an empty snapshot is `none` and stands for "no snapshot".

`replay` is the meaning of a log: the state after the requests in their
order.  `Lawful` is what a replica needs from `Restore`: a snapshot that
reaches further than the state it is restored over replaces that state, even
though `Restore` may keep parts of it.
-/

namespace KvRaft

/-- `sm.Op`. -/
structure Op (n : Nat) (Req : Type) where
  me : Fin n
  id : Int
  req : Req
  deriving DecidableEq, Repr

/-- `sm.StateMachine`, together with the state of a new machine. -/
structure StateMachine (S Req Val D : Type) where
  new : S
  doOp : S → Req → S × Val
  snapshot : S → D
  restore : S → Option D → S

namespace StateMachine

variable {S Req Val D : Type}

/-- The state after some requests. -/
def replay (m : StateMachine S Req Val D) (reqs : List Req) : S :=
  reqs.foldl (fun s req => (m.doOp s req).1) m.new

/-- A snapshot of more requests replaces the state of fewer, and no snapshot is
a new machine. -/
structure Lawful (m : StateMachine S Req Val D) : Prop where
  restore_none : ∀ s, m.restore s none = m.new
  restore_snapshot : ∀ before after, m.restore (m.replay before)
    (some (m.snapshot (m.replay (before ++ after)))) = m.replay (before ++ after)

variable (m : StateMachine S Req Val D)

theorem replay_concat (reqs : List Req) (req : Req) :
    m.replay (reqs ++ [req]) = (m.doOp (m.replay reqs) req).1 := by
  rw [replay, List.foldl_append]
  rfl

/-! ## Commands -/

variable {n : Nat}

/-- The requests of some commands.  A command that is no operation has none. -/
def requests (cmds : List (Option (Op n Req))) : List Req :=
  cmds.filterMap fun c => c.map Op.req

/-- The state after some commands. -/
def stateAfter (m : StateMachine S Req Val D) (cmds : List (Option (Op n Req))) : S :=
  m.replay (requests cmds)

@[simp] theorem stateAfter_nil : m.stateAfter ([] : List (Option (Op n Req))) = m.new := rfl

theorem stateAfter_concat_none (cmds : List (Option (Op n Req))) :
    m.stateAfter (cmds ++ [none]) = m.stateAfter cmds := by
  simp [stateAfter, requests]

theorem stateAfter_concat_some (cmds : List (Option (Op n Req))) (op : Op n Req) :
    m.stateAfter (cmds ++ [some op]) = (m.doOp (m.stateAfter cmds) op.req).1 := by
  simp only [stateAfter, requests, List.filterMap_append, List.filterMap_cons, Option.map_some,
    List.filterMap_nil]
  exact m.replay_concat _ _

/-- A snapshot restored over an older state. -/
theorem Lawful.restore_take {m : StateMachine S Req Val D} (h : m.Lawful)
    (cmds : List (Option (Op n Req))) (k : Nat) :
    m.restore (m.stateAfter (cmds.take k)) (some (m.snapshot (m.stateAfter cmds))) =
      m.stateAfter cmds := by
  have := h.restore_snapshot (requests (cmds.take k)) (requests (cmds.drop k))
  rwa [requests, requests, ← List.filterMap_append, List.take_append_drop] at this

/-- A snapshot restored into a new machine. -/
theorem Lawful.restore_new {m : StateMachine S Req Val D} (h : m.Lawful)
    (cmds : List (Option (Op n Req))) :
    m.restore m.new (some (m.snapshot (m.stateAfter cmds))) = m.stateAfter cmds := by
  have := h.restore_take cmds 0
  rwa [List.take_zero, stateAfter_nil] at this

end StateMachine

end KvRaft
