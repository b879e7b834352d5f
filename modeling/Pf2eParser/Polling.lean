import Mathlib.Data.List.Chain
import Mathlib.Algebra.Order.Ring.Int

/-!
# Polling a clock

Something is polled at times that never go back and are at most `gap` apart (`Within`).  If the
polls begin before a window of the given width and go on to its end, then at least `width / gap` of
them fall into the window, whatever the times are.
-/

namespace Polling

/-- The times never go back, and are at most `gap` apart. -/
def Within (gap : ℕ) (times : List ℤ) : Prop :=
  times.IsChain fun t u : ℤ => t ≤ u ∧ u ≤ t + gap

variable {gap : ℕ} {t u : ℤ} {times : List ℤ}

theorem within_cons_cons :
    Within gap (t :: u :: times) ↔ (t ≤ u ∧ u ≤ t + gap) ∧ Within gap (u :: times) :=
  List.isChain_cons_cons

/-- No time comes before the first one. -/
theorem Within.head_le (h : Within gap (t :: times)) : ∀ s ∈ times, t ≤ s := by
  have hmono : (t :: times).IsChain (· ≤ ·) := h.imp fun _ _ hstep => hstep.1
  exact fun s hs => List.rel_of_pairwise_cons hmono.pairwise hs

/-- How much of the window is left for the polls from `t` on, counting the step that leads to `t`:
one poll is due for each `gap` of it. -/
def slack (start : ℤ) (width gap : ℕ) (t : ℤ) : ℤ :=
  if t < start then width else start + width - 1 - t + gap

/-- Below one `gap`, no poll is due. -/
theorem eq_zero_of_mul_gap_lt {k : ℕ} (h : (k * gap : ℤ) < gap) : k = 0 := by
  cases k with
  | zero => rfl
  | succ k =>
    have hnonneg : (0 : ℤ) ≤ k * gap := mul_nonneg (Int.natCast_nonneg k) (Int.natCast_nonneg gap)
    rw [Nat.cast_succ, add_mul, one_mul] at h
    omega

/-- The polls from `t` on leave one poll in the window for each `gap` of the slack. -/
theorem Within.le_countP_of_slack {start : ℤ} {width k : ℕ} (h : Within gap (t :: times))
    (hstop : ∀ s ∈ (t :: times).getLast?, start + width ≤ s + gap)
    (hk : (k * gap : ℤ) ≤ slack start width gap t) :
    k ≤ (t :: times).countP fun s => start ≤ s ∧ s < start + width := by
  induction times generalizing t k with
  | nil =>
    have hlast : start + width ≤ t + gap := hstop t rfl
    unfold slack at hk
    by_cases hin : start ≤ t ∧ t < start + width
    · rw [List.countP_singleton, if_pos (by simpa using hin)]
      cases k with
      | zero => exact Nat.zero_le 1
      | succ k =>
        rw [if_neg (by omega), Nat.cast_succ, add_mul, one_mul] at hk
        rw [@eq_zero_of_mul_gap_lt gap k (by omega)]
    · rw [@eq_zero_of_mul_gap_lt gap k (by split at hk <;> omega)]
      exact Nat.zero_le _
  | cons u times ih =>
    obtain ⟨⟨htu, hut⟩, hrest⟩ := within_cons_cons.mp h
    have hih := fun k' => @ih u k' hrest hstop
    rw [List.countP_cons]
    unfold slack at hk hih
    by_cases hbefore : t < start
    · -- the first poll of the window is less than `gap` behind its start
      rw [if_pos hbefore] at hk
      have hrest := hih k (by split <;> omega)
      omega
    · rw [if_neg hbefore] at hk
      by_cases hin : t < start + width
      · rw [if_pos (by simp; omega)]
        cases k with
        | zero => exact Nat.zero_le _
        | succ k =>
          rw [Nat.cast_succ, add_mul, one_mul] at hk
          have hrest := hih k (by split <;> omega)
          omega
      · rw [@eq_zero_of_mul_gap_lt gap k (by omega)]
        exact Nat.zero_le _

/-- Polls that begin before a window and go on to its end fall into it at least `width / gap`
times. -/
theorem Within.div_le_countP {start : ℤ} {width : ℕ} (h : Within gap times)
    (hstart : ∃ s ∈ times.head?, s < start)
    (hstop : ∀ s ∈ times.getLast?, start + width ≤ s + gap) :
    width / gap ≤ times.countP fun s => start ≤ s ∧ s < start + width := by
  obtain ⟨s, hhead, hs⟩ := hstart
  cases times with
  | nil => cases hhead
  | cons t times =>
    obtain rfl : t = s := by simpa using hhead
    refine h.le_countP_of_slack hstop ?_
    unfold slack
    rw [if_pos hs]
    exact_mod_cast Nat.div_mul_le_self width gap

end Polling
