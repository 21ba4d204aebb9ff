import KvRaft.Cluster.Feed
import KvRaft.Cluster.Safety

/-!
# The committed commands of a run

`CommittedCmds run cmds` says that `cmds` are the first committed commands of a
run, in their order.  A run has at most one such list of each length
(`CommittedCmds.eq_take`), so these lists are the prefixes of one log, and
everything above Raft can speak of "the committed commands `1..k`".
-/

namespace KvRaft

open Consensus

variable {n : Nat} {C D : Type} {run : ClusterRun n C D}

/-- `cmds` are the committed commands `1..cmds.length`. -/
def CommittedCmds (run : ClusterRun n C D) (cmds : List (Option C)) : Prop :=
  ∀ (k : Nat) (c : Option C), cmds[k]? = some c → ∃ e, Commits run (k + 1) e ∧ e.command = c

theorem commits_eq_of_run {k : Nat} {d e : Entry C} (hd : Commits run k d) (he : Commits run k e) :
    d = e := by
  obtain ⟨abs, hA⟩ := exists_accompanied run
  exact hA.commits_unique hd he

namespace CommittedCmds

variable {cmds cmds' : List (Option C)}

theorem nil : CommittedCmds run [] := fun k c h => by simp at h

theorem take (h : CommittedCmds run cmds) (k : Nat) : CommittedCmds run (cmds.take k) := by
  intro j c hj
  refine h j c ?_
  rw [List.getElem?_take] at hj
  split_ifs at hj
  exact hj

theorem concat (h : CommittedCmds run cmds) {e : Entry C} (he : Commits run (cmds.length + 1) e) :
    CommittedCmds run (cmds ++ [e.command]) := by
  intro k c hk
  rcases Nat.lt_trichotomy k cmds.length with hlt | rfl | hgt
  · rw [List.getElem?_append_left hlt] at hk
    exact h k c hk
  · simp only [List.getElem?_concat_length, Option.some.injEq] at hk
    exact ⟨e, he, hk⟩
  · rw [List.getElem?_eq_none (by simp; omega)] at hk
    cases hk

/-- The last command of a list. -/
theorem last {c : Option C} (h : CommittedCmds run (cmds ++ [c])) :
    ∃ e, Commits run (cmds.length + 1) e ∧ e.command = c :=
  h cmds.length c (by simp)

theorem of_concat {c : Option C} (h : CommittedCmds run (cmds ++ [c])) :
    CommittedCmds run cmds := by
  have := h.take cmds.length
  rwa [List.take_left'] at this
  rfl

/-- There is one committed log. -/
theorem eq_take (h : CommittedCmds run cmds) (h' : CommittedCmds run cmds')
    (hlen : cmds.length ≤ cmds'.length) : cmds = cmds'.take cmds.length := by
  refine List.ext_getElem? fun k => ?_
  rcases Nat.lt_or_ge k cmds.length with hk | hk
  · have hk' : k < cmds'.length := by omega
    obtain ⟨d, hd, hdc⟩ := h k _ (List.getElem?_eq_getElem hk)
    obtain ⟨e, he, hec⟩ := h' k _ (List.getElem?_eq_getElem hk')
    rw [List.getElem?_take_of_lt hk, List.getElem?_eq_getElem hk, List.getElem?_eq_getElem hk',
      ← hdc, ← hec, commits_eq_of_run hd he]
  · rw [List.getElem?_eq_none hk, List.getElem?_eq_none (by simp; omega)]

theorem eq_of_length (h : CommittedCmds run cmds) (h' : CommittedCmds run cmds')
    (hlen : cmds.length = cmds'.length) : cmds = cmds' := by
  rw [h.eq_take h' (Nat.le_of_eq hlen), hlen, List.take_length]

/-- The commands of a committed prefix of the protocol's log. -/
theorem of_committedPrefix {p : Log (Option C)} {d : Option D} (h : CommittedPrefix run p d) :
    CommittedCmds run (p.map Slot.cmd) := by
  intro k c hk
  rw [List.getElem?_map, Option.map_eq_some_iff] at hk
  obtain ⟨s, hs, rfl⟩ := hk
  exact ⟨_, h k s hs, rfl⟩

end CommittedCmds

end KvRaft
