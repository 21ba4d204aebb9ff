import KvRaft.Lib.Quorum
import Mathlib.Data.List.Infix
import Mathlib.Logic.Function.Basic
import Mathlib.Logic.Relation

/-!
# A leader-based consensus protocol without messages

This is the protocol that a leader-based replicated log is meant to carry
out, stated over whole logs and over what has happened so far.  There are no
messages, no compaction and no disk here.  A member has a term, a vote, a
role and a log.  Everything else is history that only grows:

* `cand t c` is the log with which `c` stood for election in term `t`;
* `grants t v c` says that `v` voted for `c` in term `t`;
* `leader t` is the member elected in term `t`, `elog t` its log at the
  election, and `tlog t` its log now or when it last was leader of `t`;
* `acks t v m` says that `v`, in term `t`, held the first `m` slots of
  `tlog t`.

A log is copied in one piece: `accept v m` gives `v` the first `m` slots of
the leader's log unless `v` holds them already.  How an implementation
reaches that with partial messages and consistency checks is the business of
the refinement proof, not of this file.

The commands are arbitrary, and so is the finite type of members.
-/

namespace KvRaft.Consensus

/-- One position of a replicated log. -/
structure Slot (Cmd : Type) where
  /-- The term of the leader that created the slot. -/
  term : Nat
  /-- What the slot holds. -/
  cmd : Cmd
  deriving DecidableEq, Repr

/-- A whole log.  The slot at index `k`, counted from one, is element
`k - 1` of the list. -/
abbrev Log (Cmd : Type) := List (Slot Cmd)

section Logs

variable {Cmd : Type}

/-- The term at index `k`, where index `0` stands before the log. -/
def termAt (l : Log Cmd) : Nat → Nat
  | 0 => 0
  | k + 1 => (l[k]?.map Slot.term).getD 0

/-- The term of the last slot, and `0` for the empty log. -/
def lastTerm (l : Log Cmd) : Nat := termAt l l.length

/-- The election restriction: a log with a greater last term, or with the
same last term and no fewer slots. -/
def UpToDate (cand own : Log Cmd) : Prop :=
  lastTerm own < lastTerm cand ∨ lastTerm cand = lastTerm own ∧ own.length ≤ cand.length

open Classical in
/-- Take over the slots `p` unless the log starts with them already. -/
noncomputable def adopt (own p : Log Cmd) : Log Cmd := if p <+: own then own else p

@[simp] theorem termAt_zero (l : Log Cmd) : termAt l 0 = 0 := rfl

theorem termAt_succ_of_getElem? {l : Log Cmd} {k : Nat} {e : Slot Cmd}
    (h : l[k]? = some e) : termAt l (k + 1) = e.term := by
  simp [termAt, h]

/-- A log and a prefix of it have the same terms along the prefix. -/
theorem termAt_of_isPrefix {p l : Log Cmd} (h : p <+: l) {k : Nat} (hk : k ≤ p.length) :
    termAt p k = termAt l k := by
  cases k with
  | zero => rfl
  | succ k =>
    obtain ⟨t, rfl⟩ := h
    rw [termAt, termAt, List.getElem?_append_left hk]

end Logs

/-- What a member is doing in its term. -/
inductive Role where
  | follower
  | candidate
  | leader
  deriving DecidableEq, Repr

/-- The members and the history of the protocol. -/
structure State (N Cmd : Type) where
  term : N → Nat
  vote : N → Option N
  role : N → Role
  log : N → Log Cmd
  cand : Nat → N → Option (Log Cmd)
  grants : Nat → N → N → Prop
  leader : Nat → Option N
  elog : Nat → Log Cmd
  tlog : Nat → Log Cmd
  acks : Nat → N → Nat → Prop

namespace State

variable {N Cmd : Type} [DecidableEq N]

/-- Nobody has done anything. -/
def initial : State N Cmd where
  term _ := 0
  vote _ := none
  role _ := .follower
  log _ := []
  cand _ _ := none
  grants _ _ _ := False
  leader _ := none
  elog _ := []
  tlog _ := []
  acks _ _ _ := False

/-! ## Moves -/

/-- `v` is a follower of term `t` with vote `x`. -/
def retire (s : State N Cmd) (v : N) (t : Nat) (x : Option N) : State N Cmd :=
  { s with
    term := Function.update s.term v t
    vote := Function.update s.vote v x
    role := Function.update s.role v .follower }

/-- `v` stands for election in the next term and votes for itself. -/
def stand (s : State N Cmd) (v : N) : State N Cmd :=
  { s with
    term := Function.update s.term v (s.term v + 1)
    vote := Function.update s.vote v (some v)
    role := Function.update s.role v .candidate
    cand := fun t c => if t = s.term v + 1 ∧ c = v then some (s.log v) else s.cand t c
    grants := fun t w c => s.grants t w c ∨ t = s.term v + 1 ∧ w = v ∧ c = v }

/-- `v` votes for `c` in its term. -/
def grant (s : State N Cmd) (v c : N) : State N Cmd :=
  { s with
    vote := Function.update s.vote v (some c)
    grants := fun t w d => s.grants t w d ∨ t = s.term v ∧ w = v ∧ d = c }

/-- `c` is elected in its term. -/
def elect (s : State N Cmd) (c : N) : State N Cmd :=
  { s with
    role := Function.update s.role c .leader
    leader := Function.update s.leader (s.term c) (some c)
    elog := Function.update s.elog (s.term c) (s.log c)
    tlog := Function.update s.tlog (s.term c) (s.log c)
    acks := fun t w m => s.acks t w m ∨ t = s.term c ∧ w = c ∧ m = (s.log c).length }

/-- The leader `c` appends a command to its log. -/
def propose (s : State N Cmd) (c : N) (x : Cmd) : State N Cmd :=
  { s with
    log := Function.update s.log c (s.log c ++ [⟨s.term c, x⟩])
    tlog := Function.update s.tlog (s.term c) (s.log c ++ [⟨s.term c, x⟩])
    acks := fun t w m =>
      s.acks t w m ∨ t = s.term c ∧ w = c ∧ m = (s.log c).length + 1 }

theorem propose_log_self (s : State N Cmd) (c : N) (x : Cmd) :
    (s.propose c x).log c = s.log c ++ [⟨s.term c, x⟩] := Function.update_self ..

theorem propose_log_of_ne (s : State N Cmd) {c v : N} (x : Cmd) (h : v ≠ c) :
    (s.propose c x).log v = s.log v := Function.update_of_ne h ..

theorem propose_tlog_self (s : State N Cmd) (c : N) (x : Cmd) :
    (s.propose c x).tlog (s.term c) = s.log c ++ [⟨s.term c, x⟩] := Function.update_self ..

theorem propose_tlog_of_ne (s : State N Cmd) {c : N} {t : Nat} (x : Cmd) (h : t ≠ s.term c) :
    (s.propose c x).tlog t = s.tlog t := Function.update_of_ne h ..

/-- `v` takes over the first `m` slots of the log of its term's leader. -/
noncomputable def accept (s : State N Cmd) (v : N) (m : Nat) : State N Cmd :=
  { s with
    role := Function.update s.role v .follower
    log := Function.update s.log v (adopt (s.log v) ((s.tlog (s.term v)).take m))
    acks := fun t w k => s.acks t w k ∨ t = s.term v ∧ w = v ∧ k = m }

variable [Fintype N]

/-- The moves that create no slot. -/
inductive Move : State N Cmd → State N Cmd → Prop where
  | retire {s : State N Cmd} (v : N) (t : Nat) (x : Option N)
      (h : s.term v < t ∨ s.term v = t ∧ s.vote v = x) : Move s (s.retire v t x)
  | stand {s : State N Cmd} (v : N) : Move s (s.stand v)
  | grant {s : State N Cmd} (v c : N) (l : Log Cmd)
      (hcand : s.cand (s.term v) c = some l)
      (hvote : s.vote v = none ∨ s.vote v = some c)
      (hup : UpToDate l (s.log v)) : Move s (s.grant v c)
  | elect {s : State N Cmd} (c : N) (Q : Finset N) (hrole : s.role c = .candidate)
      (hQ : IsQuorum Q) (hgrants : ∀ v ∈ Q, s.grants (s.term c) v c) : Move s (s.elect c)
  | accept {s : State N Cmd} (v : N) (m : Nat) (hleader : s.leader (s.term v) ≠ none)
      (hm : m ≤ (s.tlog (s.term v)).length) : Move s (s.accept v m)

/-- A step is a move, or a proposal of the current leader. -/
inductive Step : State N Cmd → State N Cmd → Prop where
  | move {s s' : State N Cmd} (h : Move s s') : Step s s'
  | propose {s : State N Cmd} (c : N) (x : Cmd) (hrole : s.role c = .leader) :
      Step s (s.propose c x)

/-- A state that the protocol reaches. -/
def Reachable (s : State N Cmd) : Prop := Relation.ReflTransGen Step initial s

end State

end KvRaft.Consensus
