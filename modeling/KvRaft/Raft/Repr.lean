import KvRaft.Consensus.History
import KvRaft.Raft.Ticker

/-!
# The log that an instance stands for

An instance keeps the end of its log only.  `Represents rf l` says that `rf.logs`
is what is left of the whole log `l`: a first entry at `lastIncludedIndex`
with the right term and any command, and after it the numbered slots of `l`.

The lemmas read every log access of the source as an access to `l`, and show
on the way that it is in range.
-/

namespace KvRaft

open Consensus

variable {n : Nat} {C D : Type}

/-! ## Numbered slots -/

/-- The entries for the slots of a log, numbered from `k`. -/
def numbered (k : Nat) : Log (Option C) → List (Entry C)
  | [] => []
  | e :: l => ⟨k, e.term, e.cmd⟩ :: numbered (k + 1) l

@[simp] theorem numbered_nil (k : Nat) : numbered k ([] : Log (Option C)) = [] := rfl

@[simp] theorem length_numbered (k : Nat) (l : Log (Option C)) :
    (numbered k l).length = l.length := by
  induction l generalizing k with
  | nil => rfl
  | cons e l ih => rw [numbered, List.length_cons, List.length_cons, ih]

theorem numbered_append (k : Nat) (l l' : Log (Option C)) :
    numbered k (l ++ l') = numbered k l ++ numbered (k + l.length) l' := by
  induction l generalizing k with
  | nil => simp
  | cons e l ih =>
    rw [List.cons_append, numbered, numbered, ih, List.cons_append, List.length_cons]
    rw [show k + 1 + l.length = k + (l.length + 1) by omega]

theorem drop_numbered (k j : Nat) (l : Log (Option C)) :
    (numbered k l).drop j = numbered (k + j) (l.drop j) := by
  induction l generalizing k j with
  | nil => simp
  | cons e l ih =>
    cases j with
    | zero => simp
    | succ j =>
      rw [numbered, List.drop_succ_cons, List.drop_succ_cons, ih]
      rw [show k + 1 + j = k + (j + 1) by omega]

theorem take_numbered (k j : Nat) (l : Log (Option C)) :
    (numbered k l).take j = numbered k (l.take j) := by
  induction l generalizing k j with
  | nil => simp
  | cons e l ih =>
    cases j with
    | zero => simp
    | succ j => rw [numbered, List.take_succ_cons, List.take_succ_cons, numbered, ih]

theorem getElem?_numbered (k j : Nat) (l : Log (Option C)) :
    (numbered k l)[j]? = l[j]?.map fun e => ⟨k + j, e.term, e.cmd⟩ := by
  induction l generalizing k j with
  | nil => simp
  | cons e l ih =>
    cases j with
    | zero => simp [numbered]
    | succ j =>
      rw [numbered, List.getElem?_cons_succ, List.getElem?_cons_succ, ih]
      rw [show k + 1 + j = k + (j + 1) by omega]

theorem exists_of_mem_numbered {k : Nat} {l : Log (Option C)} {e : Entry C}
    (h : e ∈ numbered k l) : ∃ j s, l[j]? = some s ∧ e = ⟨k + j, s.term, s.cmd⟩ := by
  obtain ⟨j, hj⟩ := List.mem_iff_getElem?.mp h
  rw [getElem?_numbered, Option.map_eq_some_iff] at hj
  obtain ⟨s, hs, rfl⟩ := hj
  exact ⟨j, s, hs, rfl⟩

/-! ## The stored part of a log -/

/-- What an instance stores of `l` above index `k`: a head at `k` with any
command, and the numbered slots after it. -/
def stored (k : Nat) (l : Log (Option C)) (c : Option C) : List (Entry C) :=
  ⟨k, termAt l k, c⟩ :: numbered (k + 1) (l.drop k)

@[simp] theorem length_stored (k : Nat) (l : Log (Option C)) (c : Option C) :
    (stored k l c).length = l.length - k + 1 := by
  simp [stored]

/-- A log access above the head, as a slot of the whole log. -/
theorem getElem?_stored_succ (k j : Nat) (l : Log (Option C)) (c : Option C) :
    (stored k l c)[j + 1]? = l[k + j]?.map fun e => ⟨k + j + 1, e.term, e.cmd⟩ := by
  rw [stored, List.getElem?_cons_succ, getElem?_numbered, List.getElem?_drop]
  rw [show k + 1 + j = k + j + 1 by omega]

/-- Every stored entry carries its index and its term. -/
theorem exists_getElem?_stored {k j : Nat} {l : Log (Option C)} (c : Option C)
    (h : k + j ≤ l.length) :
    ∃ d, (stored k l c)[j]? = some ⟨k + j, termAt l (k + j), d⟩ := by
  cases j with
  | zero => exact ⟨c, rfl⟩
  | succ j =>
    have hlt : k + j < l.length := by omega
    refine ⟨l[k + j].cmd, ?_⟩
    rw [getElem?_stored_succ, List.getElem?_eq_getElem hlt, Option.map_some]
    rw [show k + (j + 1) = k + j + 1 by omega,
      termAt_succ_of_getElem? (List.getElem?_eq_getElem hlt)]

/-- Compaction: what is left after the first `j` entries is what an instance
with a higher snapshot index stores. -/
theorem drop_stored {k j : Nat} {l : Log (Option C)} (c : Option C) (h : k + j ≤ l.length) :
    ∃ d, (stored k l c).drop j = stored (k + j) l d := by
  cases j with
  | zero => exact ⟨c, rfl⟩
  | succ j =>
    have hlt : k + j < l.length := by omega
    refine ⟨l[k + j].cmd, ?_⟩
    rw [stored, List.drop_succ_cons, drop_numbered, List.drop_drop,
      List.drop_eq_getElem_cons hlt, numbered, stored]
    rw [show k + (j + 1) = k + j + 1 by omega,
      termAt_succ_of_getElem? (List.getElem?_eq_getElem hlt),
      show k + 1 + j = k + j + 1 by omega]

theorem take_stored {k j : Nat} {l : Log (Option C)} (c : Option C) (h : k + j ≤ l.length) :
    (stored k l c).take (j + 1) = stored k (l.take (k + j)) c := by
  rw [stored, List.take_succ_cons, take_numbered, stored]
  rw [termAt_of_isPrefix (List.take_prefix (k + j) l) (by rw [List.length_take]; omega)]
  rw [List.drop_take, show k + j - k = j by omega]

theorem stored_append {k : Nat} {l : Log (Option C)} (c : Option C) (h : k ≤ l.length)
    (es : Log (Option C)) :
    stored k l c ++ numbered (l.length + 1) es = stored k (l ++ es) c := by
  rw [stored, stored, List.cons_append, List.drop_append_of_le_length h, numbered_append,
    termAt_of_isPrefix (List.prefix_append l es) h, List.length_drop]
  rw [show k + 1 + (l.length - k) = l.length + 1 by omega]

theorem stored_length (l : Log (Option C)) (c : Option C) :
    stored l.length l c = [⟨l.length, lastTerm l, c⟩] := by
  rw [stored, List.drop_length, numbered_nil, lastTerm]

/-! ## Log access -/

/-- `rf` stores the end of the log `l`. -/
structure Represents (rf : Raft n C D) (l : Log (Option C)) : Prop where
  le : rf.lastIncludedIndex ≤ l.length
  term : rf.lastIncludedTerm = termAt l rf.lastIncludedIndex
  logs : ∃ c, rf.logs = stored rf.lastIncludedIndex l c

namespace Represents

variable {rf : Raft n C D} {l : Log (Option C)}

theorem length_logs (h : Represents rf l) :
    rf.lastIncludedIndex + rf.logs.length = l.length + 1 := by
  obtain ⟨c, hc⟩ := h.logs
  have := h.le
  rw [hc, length_stored]
  omega

theorem getLen (h : Represents rf l) : rf.getLen = l.length + 1 := h.length_logs

theorem getPhysicalIndex {k : Nat} (hk : rf.lastIncludedIndex ≤ k) :
    rf.getPhysicalIndex k = ((k - rf.lastIncludedIndex : Nat) : Int) := by
  rw [Raft.getPhysicalIndex]
  omega

/-- A log access in range yields an entry with its index and its term. -/
theorem getLog (h : Represents rf l) {k : Nat} (hk : rf.lastIncludedIndex ≤ k)
    (hkl : k ≤ l.length) : ∃ d, rf.getLog k = some ⟨k, termAt l k, d⟩ := by
  obtain ⟨c, hc⟩ := h.logs
  have hj : rf.lastIncludedIndex + (k - rf.lastIncludedIndex) ≤ l.length := by omega
  obtain ⟨d, hd⟩ := exists_getElem?_stored c hj
  refine ⟨d, ?_⟩
  rw [Raft.getLog, GoSlice.index_eq_getElem? _ (getPhysicalIndex hk), hc, hd]
  rw [show rf.lastIncludedIndex + (k - rf.lastIncludedIndex) = k by omega]

/-- Above the snapshot the entry is the slot of the whole log. -/
theorem getLog_of_getElem? (h : Represents rf l) {k : Nat} {e : Slot (Option C)}
    (hk : rf.lastIncludedIndex ≤ k) (he : l[k]? = some e) :
    rf.getLog (k + 1) = some ⟨k + 1, e.term, e.cmd⟩ := by
  obtain ⟨c, hc⟩ := h.logs
  rw [Raft.getLog, GoSlice.index_eq_getElem? _ (getPhysicalIndex (Nat.le_succ_of_le hk)), hc,
    show k + 1 - rf.lastIncludedIndex = (k - rf.lastIncludedIndex) + 1 by omega,
    getElem?_stored_succ, show rf.lastIncludedIndex + (k - rf.lastIncludedIndex) = k by omega,
    he, Option.map_some]

theorem getLastLog (h : Represents rf l) :
    ∃ d, rf.getLastLog = some ⟨l.length, lastTerm l, d⟩ := by
  have hlen := h.length_logs
  have hle := h.le
  obtain ⟨d, hd⟩ := h.getLog hle (Nat.le_refl _)
  refine ⟨d, ?_⟩
  rw [lastTerm, ← hd, Raft.getLastLog, Raft.getLog, Raft.getPhysicalIndex]
  congr 1
  omega

/-- What an access finds has the term of the whole log. -/
theorem term_of_getLog (h : Represents rf l) {k : Nat} {e : Entry C}
    (hk : rf.lastIncludedIndex ≤ k) (he : rf.getLog k = some e) : e.term = termAt l k := by
  rcases Nat.lt_or_ge l.length k with hlt | hle
  · have hlen := h.length_logs
    rw [Raft.getLog, GoSlice.index_eq_getElem? _ (getPhysicalIndex hk),
      List.getElem?_eq_none (by omega)] at he
    cases he
  · obtain ⟨d, hd⟩ := h.getLog hk hle
    cases he.symm.trans hd
    rfl

/-- `s[i:]` on the log. -/
theorem dropFrom (h : Represents rf l) {k : Nat} (hk : rf.lastIncludedIndex ≤ k)
    (hkl : k ≤ l.length) :
    ∃ d, GoSlice.dropFrom rf.logs (rf.getPhysicalIndex k) = some (stored k l d) := by
  obtain ⟨c, hc⟩ := h.logs
  have hlen := h.length_logs
  have hj : rf.lastIncludedIndex + (k - rf.lastIncludedIndex) ≤ l.length := by omega
  obtain ⟨d, hd⟩ := drop_stored c hj
  refine ⟨d, ?_⟩
  rw [GoSlice.dropFrom_eq_some _ (getPhysicalIndex hk) (by omega), hc, hd]
  rw [show rf.lastIncludedIndex + (k - rf.lastIncludedIndex) = k by omega]

end Represents

end KvRaft
