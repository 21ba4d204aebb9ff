import Mathlib.Data.List.Pairwise
import Mathlib.Data.List.Range
import Mathlib.Logic.Basic

/-!
# Linearization points

Calls overlap in time.  To put them in an order, each of them gets a point: a
place in a sequence that only grows.  The points give a linearization when

* no two calls have their point at one place, and no call has two
  (`Points`);
* a call that has returned has its point among the places that were reached
  then, and a place is reached only after the call that has its point there was
  made (`pointOrder_realTime`);
* between the places where no call has its point, nothing changes
  (`foldlM_pointOrder`).
-/

namespace KvRaft

variable {α σ : Type}

/-- `a` had returned when `b` was not called yet. -/
def Earlier (called returned : Nat → α → Prop) (a b : α) : Prop :=
  ∃ t, returned t a ∧ ¬ called t b

/-- `point a k` says that the point of `a` is at place `k`. -/
structure Points (point : α → Nat → Prop) : Prop where
  place : ∀ {a j k}, point a j → point a k → j = k
  call : ∀ {a b k}, point a k → point b k → a = b

open Classical in
/-- The call that has its point at place `k`. -/
noncomputable def callAt (point : α → Nat → Prop) (k : Nat) : Option α :=
  if h : ∃ a, point a k then some h.choose else none

/-- The calls that have their points below `K`, in this order. -/
noncomputable def pointOrder (point : α → Nat → Prop) (K : Nat) : List α :=
  (List.range K).filterMap (callAt point)

variable {point : α → Nat → Prop}

theorem point_of_callAt {a : α} {k : Nat} (h : callAt point k = some a) : point a k := by
  unfold callAt at h
  split_ifs at h with hex
  cases h
  exact hex.choose_spec

theorem callAt_eq_none {k : Nat} (h : callAt point k = none) (a : α) : ¬ point a k := by
  intro ha
  rw [callAt, dif_pos ⟨a, ha⟩] at h
  cases h

theorem Points.callAt_eq (h : Points point) {a : α} {k : Nat} (ha : point a k) :
    callAt point k = some a := by
  have hex : ∃ a, point a k := ⟨a, ha⟩
  rw [callAt, dif_pos hex, h.call hex.choose_spec ha]

theorem Points.mem_pointOrder (h : Points point) {a : α} {K : Nat} :
    a ∈ pointOrder point K ↔ ∃ k < K, point a k := by
  rw [pointOrder, List.mem_filterMap]
  constructor
  · rintro ⟨k, hk, heq⟩
    exact ⟨k, List.mem_range.mp hk, point_of_callAt heq⟩
  · rintro ⟨k, hk, ha⟩
    exact ⟨k, List.mem_range.mpr hk, h.callAt_eq ha⟩

/-- What holds of two calls whenever the one has its point before the other. -/
theorem pairwise_pointOrder {R : α → α → Prop} {K : Nat}
    (h : ∀ {a b j k}, j < k → point a j → point b k → R a b) : (pointOrder point K).Pairwise R := by
  rw [pointOrder, List.pairwise_filterMap]
  refine List.pairwise_lt_range.imp fun {j k} hjk a ha b hb => ?_
  exact h hjk (point_of_callAt ha) (point_of_callAt hb)

theorem Points.nodup_pointOrder (h : Points point) (K : Nat) : (pointOrder point K).Nodup := by
  refine pairwise_pointOrder fun {a b j k} hjk ha hb => ?_
  rintro rfl
  exact absurd (h.place ha hb) (by omega)

/-- The order by points does not contradict the order in time. -/
theorem pointOrder_realTime {called returned : Nat → α → Prop} (reached : Nat → Nat → Prop)
    (hdown : ∀ {t j k}, j ≤ k → reached t k → reached t j)
    (hreturned : ∀ {t a k}, point a k → returned t a → reached t k)
    (hcalled : ∀ {t a k}, point a k → reached t k → called t a) (K : Nat) :
    (pointOrder point K).Pairwise fun a b => ¬ Earlier called returned b a := by
  refine pairwise_pointOrder fun {a b j k} hjk ha hb => ?_
  rintro ⟨t, hret, hnot⟩
  exact hnot (hcalled ha (hdown (Nat.le_of_lt hjk) (hreturned hb hret)))

/-- A sequence of states that changes at the points only, as the calls say, is
what executing the calls one after the other gives. -/
theorem foldlM_pointOrder {step : σ → α → Option σ} (state : Nat → σ) {K : Nat}
    (hskip : ∀ k < K, (∀ a, ¬ point a k) → state (k + 1) = state k)
    (hstep : ∀ k < K, ∀ a, point a k → step (state k) a = some (state (k + 1))) :
    (pointOrder point K).foldlM step (state 0) = some (state K) := by
  induction K with
  | zero => rfl
  | succ K ih =>
    have hprev := ih (fun k hk => hskip k (by omega)) fun k hk => hstep k (by omega)
    rw [pointOrder] at hprev ⊢
    rw [List.range_succ, List.filterMap_append, List.foldlM_append, hprev]
    cases hcall : callAt point K with
    | none => simp [hcall, hskip K (Nat.lt_succ_self K) (callAt_eq_none hcall)]
    | some a => simp [hcall, hstep K (Nat.lt_succ_self K) a (point_of_callAt hcall)]

end KvRaft
