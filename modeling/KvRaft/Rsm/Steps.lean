import KvRaft.Rsm.Model

/-!
# What a step of the replicated state machine changes

`Rsm.Change` lists what a step can do to the calls of `Submit` and to the
pending map, and `Rsm.exec_change` says that every step is one of these.  The
steps of the reader that touch neither are one case.  Invariants of the
pending map are proved by cases on `Change`, and what concerns one call by cases
on `CallChange`, which says where the call goes.

`PendingOk` is the first of them: an entry of the pending map belongs to a
call that is registered at its index and has not returned.
-/

namespace KvRaft

variable {n : Nat} {S Req Val D : Type}

/-- The index at which a call is registered. -/
def Phase.index : Phase n Val → Option Nat
  | .waiting index => some index
  | .timedOut index => some index
  | .leaving index _ => some index
  | _ => none

/-- Steps of the reader that are no sends. -/
def RsmEvent.reads : RsmEvent n Req D → Bool
  | .receive _ | .lockCommand | .doOp | .notifyPending _ | .handleSnapshot => true
  | .notifyOutdated .. | .nextOutdated _ | .endOutdated | .checkSnapshot | .close => true
  | _ => false

/-- Steps of the calls of `Submit`. -/
def RsmEvent.calls : RsmEvent n Req D → Bool
  | .submit .. | .register .. | .timeout _ | .dumpPending .. | .receiveClosed .. | .leave _ => true
  | _ => false

namespace Rsm

variable {m : StateMachine S Req Val D} {r r' : Rsm n S Req Val D}

theorem setPhase_self (r : Rsm n S Req Val D) (call : Nat) (s : Submit n Req Val)
    (phase : Phase n Val) :
    (r.setPhase call s phase).submits call = some { s with phase := phase } :=
  Function.update_self ..

theorem setPhase_of_ne (r : Rsm n S Req Val D) {c call : Nat} (s : Submit n Req Val)
    (phase : Phase n Val) (h : c ≠ call) :
    (r.setPhase call s phase).submits c = r.submits c :=
  Function.update_of_ne h ..

/-! ## The kinds of steps -/

/-- A step of the reader that touches neither the calls nor the pending map, and
that sends only on an entry. -/
structure Reads (r r' : Rsm n S Req Val D) : Prop where
  pending : r'.pending = r.pending
  submits : r'.submits = r.submits
  running : r.reader ≠ .stopped
  sending : ∀ idx res, r'.sending = some (idx, res) → ∃ e, r.pending.lookup idx = some e

/-- What a step can do to the calls and the pending map. -/
inductive Change (r : Rsm n S Req Val D) : Rsm n S Req Val D → Prop where
  | enter (call : Nat) (id : Int) (req : Req) (h : r.submits call = none) :
      Change r { r with
        submits := Function.update r.submits call (some ⟨id, req, false, .entering⟩) }
  | refuse (call : Nat) (s : Submit n Req Val) (leader : Option (Fin n))
      (h : r.submits call = some s) (hphase : s.phase = .entering) :
      Change r (r.setPhase call s (.returned (.wrongLeader leader)))
  | register (call : Nat) (s : Submit n Req Val) (index term : Nat)
      (h : r.submits call = some s) (hphase : s.phase = .entering)
      (hlocked : r.locked = false) :
      Change r { r.setPhase call s (.waiting index) with
        pending := r.pending.insert index ⟨s.id, term, call⟩ }
  | timeout (call : Nat) (s : Submit n Req Val) (index : Nat)
      (h : r.submits call = some s) (hphase : s.phase = .waiting index) :
      Change r (r.setPhase call s (.timedOut index))
  | dump (call : Nat) (s : Submit n Req Val) (index : Nat) (leader : Option (Fin n))
      (h : r.submits call = some s) (hphase : s.phase = .timedOut index)
      (hlocked : r.locked = false) :
      Change r (r.setPhase call s (.leaving index (.wrongLeader leader)))
  | closed (call : Nat) (s : Submit n Req Val) (index : Nat) (leader : Option (Fin n))
      (h : r.submits call = some s) (hphase : s.phase = .waiting index)
      (hclosed : s.closed = true) :
      Change r (r.setPhase call s (.leaving index (.wrongLeader leader)))
  | leave (call : Nat) (s : Submit n Req Val) (index : Nat) (answer : Answer n Val)
      (h : r.submits call = some s) (hphase : s.phase = .leaving index answer)
      (hlocked : r.locked = false) :
      Change r { r.setPhase call s (.returned answer) with pending := r.pending.erase index }
  | read (r' : Rsm n S Req Val D) (h : Reads r r') : Change r r'
  | send (idx : Nat) (res : Result Val) (entry : PendingEntry) (s : Submit n Req Val)
      (index : Nat) (leader : Option (Fin n)) (hsending : r.sending = some (idx, res))
      (hentry : r.pending.lookup idx = some entry) (h : r.submits entry.ch = some s)
      (hphase : s.phase = .waiting index) :
      Change r { r.setPhase entry.ch s
          (.leaving index (if res.id = s.id then .ok res.val else .wrongLeader leader)) with
        pending := r.pending.erase idx
        reader := r.afterSend }
  | cleanup (h : r.reader = .draining) :
      Change r { r with
        submits := fun call => (r.submits call).map fun s =>
          if r.pending.entries.any fun e => e.2.ch == call then { s with closed := true } else s
        pending := ∅
        reader := .stopped }

/-- What the reader does in a step that is no send. -/
inductive ReaderStep (m : StateMachine S Req Val D) (r : Rsm n S Req Val D) :
    RsmEvent n Req D → Rsm n S Req Val D → Prop where
  | skip (index : Nat) (h : r.reader = .idle) : ReaderStep m r (.receive (.command none index)) r
  | command (op : Op n Req) (index : Nat) (h : r.reader = .idle) :
      ReaderStep m r (.receive (.command (some op) index))
        { r with reader := .gotCommand op index }
  | snapshot (data : Option D) (term index : Nat) (h : r.reader = .idle) :
      ReaderStep m r (.receive (.snapshot data term index))
        { r with reader := .gotSnapshot data index }
  | stale (op : Op n Req) (index : Nat) (h : r.reader = .gotCommand op index)
      (hle : index ≤ r.lastApplied) : ReaderStep m r .lockCommand { r with reader := .idle }
  | lock (op : Op n Req) (index : Nat) (h : r.reader = .gotCommand op index)
      (hlt : r.lastApplied < index) : ReaderStep m r .lockCommand
        { r with lastApplied := index, reader := .applying op index }
  | doOp (op : Op n Req) (index : Nat) (h : r.reader = .applying op index) :
      ReaderStep m r .doOp { r with
        sm := (m.doOp r.sm op.req).1
        reader := .applied op index (m.doOp r.sm op.req).2 }
  | unknown (isLeader : Bool) (op : Op n Req) (index : Nat) (val : Val)
      (h : r.reader = .applied op index val) :
      ReaderStep m r (.notifyPending isLeader) { r with reader := .scanning index true }
  | notify (isLeader : Bool) (op : Op n Req) (index : Nat) (val : Val) (entry : PendingEntry)
      (res : Result Val) (h : r.reader = .applied op index val)
      (hentry : r.pending.lookup index = some entry)
      (hres : res = ⟨-1, none⟩ ∨ res = ⟨op.id, some val⟩) :
      ReaderStep m r (.notifyPending isLeader) { r with reader := .notifying index res }
  | handleSnapshot (data : Option D) (index : Nat) (h : r.reader = .gotSnapshot data index) :
      ReaderStep m r .handleSnapshot { r with
        sm := m.restore r.sm data
        lastApplied := index
        reader := .scanning index false }
  | scan (index term : Nat) (isLeader cmd : Bool) (h : r.reader = .scanning index cmd) :
      ReaderStep m r (.notifyOutdated term isLeader)
        { r with reader := .outdated index term isLeader cmd }
  | drop (idx index term : Nat) (isLeader cmd : Bool) (entry : PendingEntry)
      (h : r.reader = .outdated index term isLeader cmd)
      (hentry : r.pending.lookup idx = some entry) : ReaderStep m r (.nextOutdated idx)
        { r with reader := .dropping idx index term isLeader cmd }
  | endCommand (index term : Nat) (isLeader : Bool)
      (h : r.reader = .outdated index term isLeader true) :
      ReaderStep m r .endOutdated { r with reader := .checking index }
  | endSnapshot (index term : Nat) (isLeader : Bool)
      (h : r.reader = .outdated index term isLeader false) :
      ReaderStep m r .endOutdated { r with reader := .idle }
  | check (index : Nat) (h : r.reader = .checking index) :
      ReaderStep m r .checkSnapshot { r with reader := .idle }
  | close (h : r.reader = .idle) : ReaderStep m r .close { r with reader := .draining }

theorem register_inv {call : Nat} {started : Option (Nat × Nat)} {leader : Option (Fin n)}
    (h : r.register call started leader = some r') : ∃ s, r.submits call = some s ∧
      s.phase = .entering ∧ r.locked = false ∧
      (started = none ∧ r' = r.setPhase call s (.returned (.wrongLeader leader)) ∨
        ∃ index term, started = some (index, term) ∧ r' = { r.setPhase call s (.waiting index) with
          pending := r.pending.insert index ⟨s.id, term, call⟩ }) := by
  obtain ⟨s, hs, h⟩ := Option.bind_eq_some_iff.mp h
  split at h
  · rename_i hphase hlocked
    refine ⟨s, hs, hphase, hlocked, ?_⟩
    split at h
    · cases h
      exact Or.inl ⟨rfl, rfl⟩
    · cases h
      exact Or.inr ⟨_, _, rfl, rfl⟩
  · cases h

theorem timeout_inv {call : Nat} (h : r.timeout call = some r') : ∃ s index,
    r.submits call = some s ∧ s.phase = .waiting index ∧
      r' = r.setPhase call s (.timedOut index) := by
  obtain ⟨s, hs, h⟩ := Option.bind_eq_some_iff.mp h
  split at h
  · rename_i index hphase
    cases h
    exact ⟨s, index, hs, hphase, rfl⟩
  · cases h

theorem dumpPending_inv {call : Nat} {leader : Option (Fin n)}
    (h : r.dumpPending call leader = some r') : ∃ s index, r.submits call = some s ∧
      s.phase = .timedOut index ∧ r.locked = false ∧
      r' = r.setPhase call s (.leaving index (.wrongLeader leader)) := by
  obtain ⟨s, hs, h⟩ := Option.bind_eq_some_iff.mp h
  split at h
  · rename_i index hphase hlocked
    cases h
    exact ⟨s, index, hs, hphase, hlocked, rfl⟩
  · cases h

theorem receiveClosed_inv {call : Nat} {leader : Option (Fin n)}
    (h : r.receiveClosed call leader = some r') : ∃ s index, r.submits call = some s ∧
      s.phase = .waiting index ∧ s.closed = true ∧
      r' = r.setPhase call s (.leaving index (.wrongLeader leader)) := by
  obtain ⟨s, hs, h⟩ := Option.bind_eq_some_iff.mp h
  split at h
  · rename_i index hphase hclosed
    cases h
    exact ⟨s, index, hs, hphase, hclosed, rfl⟩
  · cases h

theorem leave_inv {call : Nat} (h : r.leave call = some r') : ∃ s index answer,
    r.submits call = some s ∧ s.phase = .leaving index answer ∧ r.locked = false ∧
      r' = { r.setPhase call s (.returned answer) with pending := r.pending.erase index } := by
  obtain ⟨s, hs, h⟩ := Option.bind_eq_some_iff.mp h
  split at h
  · rename_i index answer hphase hlocked
    cases h
    exact ⟨s, index, answer, hs, hphase, hlocked, rfl⟩
  · cases h

theorem send_inv {leader : Option (Fin n)} (h : r.send leader = some r') :
    ∃ idx res entry s index, r.sending = some (idx, res) ∧ r.pending.lookup idx = some entry ∧
      r.submits entry.ch = some s ∧ s.phase = .waiting index ∧
      r' = { r.setPhase entry.ch s
          (.leaving index (if res.id = s.id then .ok res.val else .wrongLeader leader)) with
        pending := r.pending.erase idx
        reader := r.afterSend } := by
  obtain ⟨⟨idx, res⟩, hsending, h⟩ := Option.bind_eq_some_iff.mp h
  obtain ⟨entry, hentry, h⟩ := Option.bind_eq_some_iff.mp h
  obtain ⟨s, hs, h⟩ := Option.bind_eq_some_iff.mp h
  split at h
  · rename_i index hphase
    cases h
    exact ⟨idx, res, entry, s, index, hsending, hentry, hs, hphase, rfl⟩
  · cases h

theorem submit_inv {call : Nat} {id : Int} {req : Req} (h : r.submit call id req = some r') :
    r.submits call = none ∧ r' = { r with
      submits := Function.update r.submits call (some ⟨id, req, false, .entering⟩) } := by
  simp only [submit] at h
  split at h
  · rename_i hnone
    cases h
    exact ⟨hnone, rfl⟩
  · cases h

theorem receive_inv {msg : ApplyMsg (Op n Req) D} (h : r.receive msg = some r') :
    r.reader = .idle ∧ ((∃ index, msg = .command none index ∧ r' = r) ∨
      (∃ op index, msg = .command (some op) index ∧
        r' = { r with reader := .gotCommand op index }) ∨
      ∃ data term index, msg = .snapshot data term index ∧
        r' = { r with reader := .gotSnapshot data index }) := by
  unfold receive at h
  split at h
  · rename_i hidle
    refine ⟨hidle, ?_⟩
    split at h
    · cases h
      exact Or.inl ⟨_, rfl, rfl⟩
    · cases h
      exact Or.inr (Or.inl ⟨_, _, rfl, rfl⟩)
    · cases h
      exact Or.inr (Or.inr ⟨_, _, _, rfl, rfl⟩)
  · cases h

theorem exec_reader {e : RsmEvent n Req D} (he : e.reads = true) (h : r.exec m e = some r') :
    ReaderStep m r e r' := by
  cases e with
  | submit | register | timeout | dumpPending | receiveClosed | leave | send | cleanup => cases he
  | receive msg =>
    obtain ⟨hreader, ⟨_, rfl, rfl⟩ | ⟨_, _, rfl, rfl⟩ | ⟨_, _, _, rfl, rfl⟩⟩ := receive_inv h
    · exact .skip _ hreader
    · exact .command _ _ hreader
    · exact .snapshot _ _ _ hreader
  | lockCommand =>
    simp only [exec, lockCommand] at h
    split at h
    · rename_i hreader
      split_ifs at h with hle
      · cases h
        exact .stale _ _ hreader hle
      · cases h
        exact .lock _ _ hreader (Nat.lt_of_not_le hle)
    · cases h
  | doOp =>
    simp only [exec, doOp] at h
    split at h
    · rename_i hreader
      cases h
      exact .doOp _ _ hreader
    · cases h
  | notifyPending isLeader =>
    simp only [exec, notifyPending] at h
    split at h
    · rename_i hreader
      split at h
      · cases h
        exact .unknown _ _ _ _ hreader
      · rename_i hentry
        cases h
        refine .notify _ _ _ _ _ _ hreader hentry ?_
        split_ifs
        · exact Or.inr rfl
        · exact Or.inl rfl
    · cases h
  | handleSnapshot =>
    simp only [exec, handleSnapshot] at h
    split at h
    · rename_i hreader
      cases h
      exact .handleSnapshot _ _ hreader
    · cases h
  | notifyOutdated term isLeader =>
    simp only [exec, notifyOutdated] at h
    split at h
    · rename_i hreader
      cases h
      exact .scan _ _ _ _ hreader
    · cases h
  | nextOutdated idx =>
    simp only [exec, nextOutdated] at h
    split at h
    · rename_i hreader
      obtain ⟨entry, hentry, h⟩ := Option.bind_eq_some_iff.mp h
      split_ifs at h
      cases h
      exact .drop _ _ _ _ _ _ hreader hentry
    · cases h
  | endOutdated =>
    simp only [exec, endOutdated] at h
    split at h
    · rename_i cmd hreader
      split_ifs at h with _ hcmd
      · cases h
        exact .endCommand _ _ _ (hcmd ▸ hreader)
      · cases h
        exact .endSnapshot _ _ _ (Bool.eq_false_iff.mpr hcmd ▸ hreader)
    · cases h
  | checkSnapshot =>
    simp only [exec, checkSnapshot] at h
    split at h
    · rename_i hreader
      cases h
      exact .check _ hreader
    · cases h
  | close =>
    simp only [exec, close] at h
    split at h
    · rename_i hreader
      cases h
      exact .close hreader
    · cases h

theorem exec_reads {e : RsmEvent n Req D} (he : e.reads = true) (h : r.exec m e = some r') :
    Reads r r' := by
  cases exec_reader he h with
  | skip index hidle =>
    exact ⟨rfl, rfl, by simp [hidle], fun idx res hsend => by simp [sending, hidle] at hsend⟩
  | notify _ _ _ _ entry _ hreader hentry | drop _ _ _ _ _ entry hreader hentry =>
    refine ⟨rfl, rfl, by simp [hreader], fun idx res hsend => ?_⟩
    cases hsend
    exact ⟨entry, hentry⟩
  | command _ _ hreader | snapshot _ _ _ hreader | stale _ _ hreader | lock _ _ hreader
  | doOp _ _ hreader | unknown _ _ _ _ hreader | handleSnapshot _ _ hreader | scan _ _ _ _ hreader
  | endCommand _ _ _ hreader | endSnapshot _ _ _ hreader | check _ hreader | close hreader =>
    exact ⟨rfl, rfl, by simp [hreader], fun idx res hsend => by cases hsend⟩

/-- A step of a call leaves the reader and the machine as they are. -/
theorem exec_calls {e : RsmEvent n Req D} (he : e.calls = true) (h : r.exec m e = some r') :
    r'.reader = r.reader ∧ r'.sm = r.sm ∧ r'.lastApplied = r.lastApplied := by
  cases e with
  | submit call id req =>
    obtain ⟨_, rfl⟩ := submit_inv h
    exact ⟨rfl, rfl, rfl⟩
  | register call started leader =>
    obtain ⟨_, _, _, _, ⟨_, rfl⟩ | ⟨_, _, _, rfl⟩⟩ := register_inv h
    · exact ⟨rfl, rfl, rfl⟩
    · exact ⟨rfl, rfl, rfl⟩
  | timeout call =>
    obtain ⟨_, _, _, _, rfl⟩ := timeout_inv h
    exact ⟨rfl, rfl, rfl⟩
  | dumpPending call leader =>
    obtain ⟨_, _, _, _, _, rfl⟩ := dumpPending_inv h
    exact ⟨rfl, rfl, rfl⟩
  | receiveClosed call leader =>
    obtain ⟨_, _, _, _, _, rfl⟩ := receiveClosed_inv h
    exact ⟨rfl, rfl, rfl⟩
  | leave call =>
    obtain ⟨_, _, _, _, _, _, rfl⟩ := leave_inv h
    exact ⟨rfl, rfl, rfl⟩
  | _ => cases he

theorem reader_cases_of_sending {idx : Nat} {res : Result Val}
    (h : r.sending = some (idx, res)) :
    r.reader = .notifying idx res ∨
      ∃ index term isLeader cmd, r.reader = .dropping idx index term isLeader cmd := by
  unfold sending at h
  split at h
  · rename_i heq
    cases h
    exact Or.inl heq
  · rename_i heq
    cases h
    exact Or.inr ⟨_, _, _, _, heq⟩
  · cases h

/-- The reader reads, a call goes on, a send completes, or the reader ends. -/
theorem exec_kinds {e : RsmEvent n Req D} (h : r.exec m e = some r') :
    ReaderStep m r e r' ∨ e.calls = true ∨ (∃ leader, e = .send leader) ∨
      r.reader = .draining ∧ r'.reader = .stopped := by
  cases e with
  | submit | register | timeout | dumpPending | receiveClosed | leave => exact Or.inr (Or.inl rfl)
  | send leader => exact Or.inr (Or.inr (Or.inl ⟨leader, rfl⟩))
  | cleanup =>
    simp only [exec, cleanup] at h
    split at h
    · rename_i hreader
      cases h
      exact Or.inr (Or.inr (Or.inr ⟨hreader, rfl⟩))
    · cases h
  | _ => exact Or.inl (exec_reader rfl h)

/-- The reader comes to the send of `notifyPending` with the result of the
operation that it has applied, or with none. -/
theorem exec_notifying {e : RsmEvent n Req D} (hexec : r.exec m e = some r') {index : Nat}
    {res : Result Val} (h : r'.reader = .notifying index res) :
    r.reader = .notifying index res ∨ ∃ op val, r.reader = .applied op index val ∧
      (res = ⟨-1, none⟩ ∨ res = ⟨op.id, some val⟩) := by
  rcases exec_kinds hexec with hread | hcalls | ⟨leader, rfl⟩ | ⟨_, hstop⟩
  · cases hread with
    | skip => exact Or.inl h
    | notify _ op _ val _ _ happlied _ hres =>
      cases h
      exact Or.inr ⟨op, val, happlied, hres⟩
    | _ => cases h
  · exact Or.inl ((exec_calls hcalls hexec).1.symm.trans h)
  · obtain ⟨_, _, _, _, _, hsending, _, _, _, rfl⟩ := send_inv hexec
    rcases reader_cases_of_sending hsending with heq | ⟨_, _, _, _, heq⟩ <;>
      simp [afterSend, heq] at h
  · cases hstop.symm.trans h

/-- Every step is one of the kinds. -/
theorem exec_change {e : RsmEvent n Req D} (h : r.exec m e = some r') : Change r r' := by
  cases e with
  | submit call id req =>
    obtain ⟨hnone, rfl⟩ := submit_inv h
    exact .enter call id req hnone
  | register call started leader =>
    obtain ⟨s, hs, hphase, hlocked, ⟨_, rfl⟩ | ⟨index, term, _, rfl⟩⟩ := register_inv h
    · exact .refuse call s leader hs hphase
    · exact .register call s index term hs hphase hlocked
  | timeout call =>
    obtain ⟨s, index, hs, hphase, rfl⟩ := timeout_inv h
    exact .timeout call s index hs hphase
  | dumpPending call leader =>
    obtain ⟨s, index, hs, hphase, hlocked, rfl⟩ := dumpPending_inv h
    exact .dump call s index leader hs hphase hlocked
  | receiveClosed call leader =>
    obtain ⟨s, index, hs, hphase, hclosed, rfl⟩ := receiveClosed_inv h
    exact .closed call s index leader hs hphase hclosed
  | leave call =>
    obtain ⟨s, index, answer, hs, hphase, hlocked, rfl⟩ := leave_inv h
    exact .leave call s index answer hs hphase hlocked
  | send leader =>
    obtain ⟨idx, res, entry, s, index, hsending, hentry, hs, hphase, rfl⟩ := send_inv h
    exact .send idx res entry s index leader hsending hentry hs hphase
  | cleanup =>
    simp only [exec, cleanup] at h
    split at h
    · rename_i hreader
      cases h
      exact .cleanup hreader
    · cases h
  | _ => exact .read _ (exec_reads rfl h)

/-- What a call is after one call moved to another phase. -/
theorem setPhase_eq_some {call c : Nat} {s s' : Submit n Req Val} {phase : Phase n Val}
    (h : (r.setPhase c s phase).submits call = some s') :
    call = c ∧ s' = { s with phase := phase } ∨ r.submits call = some s' := by
  by_cases hcall : call = c
  · subst hcall
    rw [setPhase_self] at h
    exact Or.inl ⟨rfl, (Option.some.inj h).symm⟩
  · rw [setPhase_of_ne r s phase hcall] at h
    exact Or.inr h

/-- A call in a phase to which no call moved was in it before. -/
theorem phase_of_setPhase {call c : Nat} {s s' : Submit n Req Val} {phase phase' : Phase n Val}
    (h : (r.setPhase c s phase).submits call = some s') (hphase : s'.phase = phase')
    (hne : phase ≠ phase') : ∃ s, r.submits call = some s ∧ s.phase = phase' := by
  rcases setPhase_eq_some h with ⟨_, rfl⟩ | hold
  · exact absurd hphase hne
  · exact ⟨s', hold, hphase⟩

/-- A reader that has ended stays so. -/
theorem Change.stopped (hc : Change r r') (h : r.reader = .stopped) : r'.reader = .stopped := by
  cases hc with
  | read _ hread => exact absurd h hread.running
  | send _ _ _ _ _ _ hsending _ _ _ =>
    rw [sending, h] at hsending
    cases hsending
  | cleanup _ => rfl
  | _ => exact h

/-! ## One call -/

/-- Where a call goes from where it is. -/
inductive PhaseMove (r r' : Rsm n S Req Val D) (call : Nat) (s : Submit n Req Val) :
    Phase n Val → Prop where
  | refuse (leader : Option (Fin n)) (h : s.phase = .entering) :
      PhaseMove r r' call s (.returned (.wrongLeader leader))
  | register (index : Nat) (h : s.phase = .entering) : PhaseMove r r' call s (.waiting index)
  | timeout (index : Nat) (h : s.phase = .waiting index) : PhaseMove r r' call s (.timedOut index)
  | dump (index : Nat) (leader : Option (Fin n)) (h : s.phase = .timedOut index) :
      PhaseMove r r' call s (.leaving index (.wrongLeader leader))
  | closed (index : Nat) (leader : Option (Fin n)) (h : s.phase = .waiting index)
      (hclosed : s.closed = true) : PhaseMove r r' call s (.leaving index (.wrongLeader leader))
  | leave (index : Nat) (answer : Answer n Val) (h : s.phase = .leaving index answer) :
      PhaseMove r r' call s (.returned answer)
  | send (idx : Nat) (res : Result Val) (entry : PendingEntry) (index : Nat)
      (leader : Option (Fin n)) (hsending : r.sending = some (idx, res))
      (hentry : r.pending.lookup idx = some entry) (hch : entry.ch = call)
      (h : s.phase = .waiting index) (hreader : r'.reader = r.afterSend) :
      PhaseMove r r' call s
        (.leaving index (if res.id = s.id then .ok res.val else .wrongLeader leader))

/-- What a step does to one call. -/
inductive CallChange (r r' : Rsm n S Req Val D) (call : Nat) : Prop where
  | same (h : r'.submits call = r.submits call)
  | enter (id : Int) (req : Req) (hnone : r.submits call = none)
      (h : r'.submits call = some ⟨id, req, false, .entering⟩)
  | move (s : Submit n Req Val) (phase : Phase n Val) (hs : r.submits call = some s)
      (h : r'.submits call = some { s with phase := phase }) (hmove : PhaseMove r r' call s phase)
      (hothers : ∀ c ≠ call, r'.submits c = r.submits c)
  | close (s : Submit n Req Val) (hs : r.submits call = some s)
      (h : r'.submits call = some { s with closed := true }) (hstop : r'.reader = .stopped)

theorem Change.call (hc : Change r r') (call : Nat) : CallChange r r' call := by
  -- One call moves, and the others stay.
  have hset : ∀ {c s phase}, r.submits c = some s →
      r'.submits = (r.setPhase c s phase).submits → PhaseMove r r' c s phase →
        CallChange r r' call := by
    intro c s phase hs heq hmove
    by_cases hcall : call = c
    · subst hcall
      refine .move s phase hs (by rw [heq, setPhase_self]) hmove fun c hne => ?_
      rw [heq, setPhase_of_ne r s phase hne]
    · exact .same (by rw [heq, setPhase_of_ne r s phase hcall])
  cases hc with
  | enter c id req hnone =>
    by_cases hcall : call = c
    · subst hcall
      exact .enter id req hnone (Function.update_self ..)
    · exact .same (Function.update_of_ne hcall ..)
  | refuse c s leader hs hphase => exact hset hs rfl (.refuse leader hphase)
  | register c s index term hs hphase _ => exact hset hs rfl (.register index hphase)
  | timeout c s index hs hphase => exact hset hs rfl (.timeout index hphase)
  | dump c s index leader hs hphase _ => exact hset hs rfl (.dump index leader hphase)
  | closed c s index leader hs hphase hclosed =>
    exact hset hs rfl (.closed index leader hphase hclosed)
  | leave c s index answer hs hphase _ => exact hset hs rfl (.leave index answer hphase)
  | read _ hread => exact .same (by rw [hread.submits])
  | send idx res entry s index leader hsending hentry hs hphase =>
    exact hset hs rfl (.send idx res entry index leader hsending hentry rfl hphase rfl)
  | cleanup _ =>
    cases hs : r.submits call with
    | none => exact .same (by simp [hs])
    | some s =>
      by_cases hany : (r.pending.entries.any fun e => e.2.ch == call) = true
      · exact .close s hs (by simp only [hs, Option.map_some, if_pos hany]) rfl
      · exact .same (by simp only [hs, Option.map_some, if_neg hany])

/-- A call gets a result `OK` from a send only. -/
theorem Change.leaving (hc : Change r r') {call index : Nat} {s' : Submit n Req Val}
    {val : Option Val} (hs' : r'.submits call = some s')
    (hphase : s'.phase = .leaving index (.ok val)) :
    (∃ s, r.submits call = some s ∧ s.phase = .leaving index (.ok val)) ∨
      ∃ idx res entry s, r.sending = some (idx, res) ∧ r.pending.lookup idx = some entry ∧
        entry.ch = call ∧ r.submits call = some s ∧ s.phase = .waiting index ∧
        res.id = s.id ∧ res.val = val := by
  cases hc.call call with
  | same h => exact Or.inl ⟨s', h.symm.trans hs', hphase⟩
  | enter id req _ h =>
    cases h.symm.trans hs'
    cases hphase
  | move s phase hs h hmove _ =>
    cases h.symm.trans hs'
    cases hmove with
    | send idx res entry i leader hsending hentry hch hwait _ =>
      simp only [Phase.leaving.injEq] at hphase
      obtain ⟨rfl, hanswer⟩ := hphase
      split_ifs at hanswer with hid
      cases hanswer
      exact Or.inr ⟨idx, res, entry, s, hsending, hentry, hch, hs, hwait, hid, rfl⟩
    | _ => cases hphase
  | close s hs h _ =>
    cases h.symm.trans hs'
    exact Or.inl ⟨s, hs, hphase⟩

/-! ## Entries of the pending map -/

/-- An entry belongs to a call that is registered at its index. -/
def PendingOk (r : Rsm n S Req Val D) : Prop :=
  ∀ idx entry, r.pending.lookup idx = some entry →
    ∃ s, r.submits entry.ch = some s ∧ s.id = entry.id ∧ s.phase.index = some idx

/-- Two entries belong to two calls. -/
theorem PendingOk.index_eq (h : PendingOk r) {i j : Nat} {d e : PendingEntry}
    (hd : r.pending.lookup i = some d) (he : r.pending.lookup j = some e) (hch : d.ch = e.ch) :
    i = j := by
  obtain ⟨s, hs, _, hi⟩ := h i d hd
  obtain ⟨s', hs', _, hj⟩ := h j e he
  rw [hch, hs'] at hs
  cases hs
  exact Option.some.inj (hi.symm.trans hj)

/-- A call that goes on at the same index keeps its entry. -/
theorem PendingOk.setPhase (h : PendingOk r) {call : Nat} {s : Submit n Req Val}
    (hs : r.submits call = some s) {phase : Phase n Val}
    (hphase : ∀ idx, s.phase.index = some idx → phase.index = some idx) :
    PendingOk (r.setPhase call s phase) := by
  intro idx entry hentry
  obtain ⟨s', hs', hid, hindex⟩ := h idx entry hentry
  by_cases hcall : entry.ch = call
  · subst hcall
    cases hs.symm.trans hs'
    exact ⟨_, setPhase_self .., hid, hphase idx hindex⟩
  · exact ⟨s', (setPhase_of_ne r s phase hcall).trans hs', hid, hindex⟩

/-- A call that is not registered yet has no entry. -/
theorem PendingOk.ne_of_index (h : PendingOk r) {call : Nat} {s : Submit n Req Val}
    (hs : r.submits call = some s) (hnone : s.phase.index = none) {idx : Nat}
    {entry : PendingEntry} (hentry : r.pending.lookup idx = some entry) : entry.ch ≠ call := by
  intro hcall
  obtain ⟨s', hs', _, hindex⟩ := h idx entry hentry
  rw [hcall, hs] at hs'
  cases hs'
  rw [hnone] at hindex
  cases hindex

/-- An erased entry is gone, and the others are as before. -/
theorem lookup_erase_some {p : AList fun _ : Nat => PendingEntry} {i idx : Nat}
    {entry : PendingEntry} (h : (p.erase i).lookup idx = some entry) :
    idx ≠ i ∧ p.lookup idx = some entry := by
  by_cases hi : idx = i
  · subst hi
    rw [AList.lookup_erase] at h
    cases h
  · rw [AList.lookup_erase_ne hi] at h
    exact ⟨hi, h⟩

/-- Every step keeps the entries with their calls. -/
theorem PendingOk.change (h : PendingOk r) (hc : Change r r') : PendingOk r' := by
  cases hc with
  | enter call id req hnone =>
    intro idx entry hentry
    obtain ⟨s, hs, hrest⟩ := h idx entry hentry
    have hne : entry.ch ≠ call := fun heq => by rw [heq, hnone] at hs; cases hs
    exact ⟨s, by simp only [Function.update_of_ne hne]; exact hs, hrest⟩
  | refuse call s leader hs hphase =>
    exact h.setPhase hs fun idx hidx => by rw [hphase] at hidx; cases hidx
  | register call s index term hs hphase _ =>
    intro idx entry hentry
    by_cases hidx : idx = index
    · subst hidx
      rw [AList.lookup_insert] at hentry
      cases hentry
      exact ⟨_, setPhase_self .., rfl, rfl⟩
    · rw [AList.lookup_insert_ne hidx] at hentry
      obtain ⟨s', hs', hrest⟩ := h idx entry hentry
      have hne := h.ne_of_index hs (by rw [hphase]; rfl) hentry
      exact ⟨s', (setPhase_of_ne r s _ hne).trans hs', hrest⟩
  | timeout call s index hs hphase =>
    exact h.setPhase hs fun idx hidx => by rw [hphase] at hidx; exact hidx
  | dump call s index leader hs hphase _ =>
    exact h.setPhase hs fun idx hidx => by rw [hphase] at hidx; exact hidx
  | closed call s index leader hs hphase _ =>
    exact h.setPhase hs fun idx hidx => by rw [hphase] at hidx; exact hidx
  | leave call s index answer hs hphase _ =>
    intro idx entry hentry
    obtain ⟨hidx, hentry⟩ := lookup_erase_some hentry
    obtain ⟨s', hs', hid, hindex⟩ := h idx entry hentry
    have hne : entry.ch ≠ call := by
      intro hcall
      rw [hcall, hs] at hs'
      cases hs'
      rw [hphase] at hindex
      exact hidx (Option.some.inj hindex).symm
    exact ⟨s', (setPhase_of_ne r s _ hne).trans hs', hid, hindex⟩
  | read _ hread =>
    rw [PendingOk, hread.pending, hread.submits]
    exact h
  | send i res e s index leader _ he hs hphase =>
    intro idx entry hentry
    obtain ⟨hidx, hentry⟩ := lookup_erase_some hentry
    have hne : entry.ch ≠ e.ch := fun hch => hidx (h.index_eq hentry he hch)
    obtain ⟨s', hs', hrest⟩ := h idx entry hentry
    exact ⟨s', (setPhase_of_ne r s _ hne).trans hs', hrest⟩
  | cleanup _ =>
    intro idx entry hentry
    rw [AList.lookup_empty] at hentry
    cases hentry

end Rsm

end KvRaft
