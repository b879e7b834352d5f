import Pf2eParser.Kernel
import Pf2eParser.Polling

/-!
# The renewal of the instance lease

The lease of an enrolled instance (`InstanceLease` of `lib.rs`), and `renew_lease_if_due`, which the
work loop calls before every pass.  It reads the clock, and it asks the kernel for a renewal from
`RENEWAL_MARGIN_SECONDS` before the expiry on.  A schedule is any sequence of such calls at times
that never go back and are at most `gap` apart; nothing else is known of the clock, and the kernel
answers every attempt as it likes.

The calls before the expiry poll the window of the margin, so as long as no attempt succeeds there
are as many of them as the margin has room for (`renewal_margin`).
-/

namespace Pf2eParser

open Interaction Polling

/-- What the process knows of its lease. -/
structure InstanceLease where
  revision : Int64
  expiresAt : Int64
  deriving DecidableEq

/-- The kernel's answer to a renewal that succeeds. -/
structure RenewedLease where
  leaseExpiresAt : Int64
  leaseRevision : Int64
  deriving DecidableEq

/-- How long before its expiry a lease is renewed. -/
def renewalMarginSeconds : Int64 := 20

/-- The calls of `renew_lease_if_due`: the clock, and the kernel client. -/
inductive LeaseCall where
  | unixTime
  | renewLease (expectedRevision : Int64)
  deriving DecidableEq

/-- What each call is answered with. -/
abbrev LeaseCall.Answer : LeaseCall → Type
  | unixTime => Int64
  | renewLease _ => Except ParserError RenewedLease

/-- Renew the lease if it expires within the margin.  Without a lease there is nothing to do. -/
def renewLeaseIfDue : Option InstanceLease → Prog LeaseCall LeaseCall.Answer (Option InstanceLease)
  | none => .ret none
  | some lease =>
    .call .unixTime fun now =>
      if now < lease.expiresAt - renewalMarginSeconds then .ret (some lease)
      else .call (.renewLease lease.revision) fun
        | .ok renewed => .ret (some ⟨renewed.leaseRevision, renewed.leaseExpiresAt⟩)
        | .error _ => .ret (some lease)

/-! ## One call -/

/-- A renewal that the kernel was asked for, with its answer. -/
structure Attempt where
  expectedRevision : Int64
  answer : Except ParserError RenewedLease

/-- The attempt as a call with its answer. -/
def Attempt.event (attempt : Attempt) : Event LeaseCall.Answer :=
  ⟨.renewLease attempt.expectedRevision, attempt.answer⟩

/-- A finished call of `renew_lease_if_due` with a lease: what it finds, what the clock says, what
it asks the kernel for, and what it leaves. -/
structure RenewalCall where
  before : InstanceLease
  now : Int64
  attempts : List Attempt
  after : InstanceLease
  runs : Runs (renewLeaseIfDue (some before)) (⟨.unixTime, now⟩ :: attempts.map Attempt.event)
    (.ret (some after))

/-- What an answer of the kernel makes of the lease. -/
def InstanceLease.answered (lease : InstanceLease) : Except ParserError RenewedLease → InstanceLease
  | .ok renewed => ⟨renewed.leaseRevision, renewed.leaseExpiresAt⟩
  | .error _ => lease

/-- The two things that `renew_lease_if_due` can do with a lease. -/
theorem runs_renewLeaseIfDue {lease : InstanceLease} {trace : List (Event LeaseCall.Answer)}
    {result : Option InstanceLease} (h : Runs (renewLeaseIfDue (some lease)) trace (.ret result)) :
    ∃ now, (now < lease.expiresAt - renewalMarginSeconds ∧ trace = [⟨.unixTime, now⟩] ∧
        result = some lease) ∨
      ¬now < lease.expiresAt - renewalMarginSeconds ∧
        ∃ answer, trace = [⟨.unixTime, now⟩, ⟨.renewLease lease.revision, answer⟩] ∧
          result = some (lease.answered answer) := by
  unfold renewLeaseIfDue at h
  cases h with
  | step now h =>
    refine ⟨now, ?_⟩
    beta_reduce at h
    by_cases hearly : now < lease.expiresAt - renewalMarginSeconds
    · rw [if_pos hearly] at h
      cases h
      exact Or.inl ⟨hearly, rfl, rfl⟩
    · rw [if_neg hearly] at h
      cases h with
      | step answer h =>
        refine Or.inr ⟨hearly, answer, ?_⟩
        cases answer with
        | ok renewed => cases h; exact ⟨rfl, rfl⟩
        | error error => cases h; exact ⟨rfl, rfl⟩

/-- Every finished call with a lease is a `RenewalCall`. -/
theorem exists_renewalCall {lease : InstanceLease} {trace : List (Event LeaseCall.Answer)}
    {result : Option InstanceLease} (h : Runs (renewLeaseIfDue (some lease)) trace (.ret result)) :
    ∃ call : RenewalCall, call.before = lease ∧
      trace = ⟨.unixTime, call.now⟩ :: call.attempts.map Attempt.event ∧
      result = some call.after := by
  obtain ⟨now, ⟨-, rfl, rfl⟩ | ⟨-, answer, rfl, rfl⟩⟩ := runs_renewLeaseIfDue h
  · exact ⟨⟨lease, now, [], lease, h⟩, rfl, rfl, rfl⟩
  · exact ⟨⟨lease, now, [⟨lease.revision, answer⟩], lease.answered answer, h⟩, rfl, rfl, rfl⟩

namespace RenewalCall

variable {call : RenewalCall} {attempt : Attempt}

/-- A call before the margin asks for nothing and changes nothing; every other one makes one
attempt with the revision that it finds, and leaves what the answer makes of the lease. -/
theorem cases (call : RenewalCall) :
    (call.now < call.before.expiresAt - renewalMarginSeconds ∧ call.attempts = [] ∧
        call.after = call.before) ∨
      ¬call.now < call.before.expiresAt - renewalMarginSeconds ∧
        ∃ answer, call.attempts = [⟨call.before.revision, answer⟩] ∧
          call.after = call.before.answered answer := by
  obtain ⟨before, now, attempts, after, runs⟩ := call
  obtain ⟨now', ⟨hearly, htrace, hafter⟩ | ⟨hdue, answer, htrace, hafter⟩⟩ :=
    runs_renewLeaseIfDue runs
  · obtain ⟨hnow, hattempts⟩ := List.cons.inj htrace
    cases hnow
    cases hafter
    exact Or.inl ⟨hearly, List.map_eq_nil_iff.mp hattempts, rfl⟩
  · obtain ⟨hnow, hattempts⟩ := List.cons.inj htrace
    cases hnow
    cases hafter
    obtain ⟨attempt, rest, rfl, hattempt, hrest⟩ := List.map_eq_cons_iff.mp hattempts
    obtain rfl := List.map_eq_nil_iff.mp hrest
    obtain ⟨expectedRevision, answer'⟩ := attempt
    cases hattempt
    exact Or.inr ⟨hdue, answer', rfl, rfl⟩

/-- A failed attempt leaves the lease unchanged. -/
theorem after_of_error {error : ParserError} (hattempt : attempt ∈ call.attempts)
    (hanswer : attempt.answer = .error error) : call.after = call.before := by
  obtain ⟨-, -, hafter⟩ | ⟨-, answer, hattempts, hafter⟩ := call.cases
  · exact hafter
  · rw [hattempts, List.mem_singleton] at hattempt
    subst hattempt
    obtain rfl : answer = .error error := hanswer
    exact hafter

end RenewalCall

theorem runs_early {lease : InstanceLease} {now : Int64}
    (h : now < lease.expiresAt - renewalMarginSeconds) :
    Runs (renewLeaseIfDue (some lease)) [⟨.unixTime, now⟩] (.ret (some lease)) := by
  unfold renewLeaseIfDue
  refine .step _ ?_
  rw [if_pos h]
  exact .refl _

theorem runs_due {lease : InstanceLease} {now : Int64}
    (h : ¬now < lease.expiresAt - renewalMarginSeconds) (answer : Except ParserError RenewedLease) :
    Runs (renewLeaseIfDue (some lease)) [⟨.unixTime, now⟩, ⟨.renewLease lease.revision, answer⟩]
      (.ret (some (lease.answered answer))) := by
  unfold renewLeaseIfDue
  refine .step _ ?_
  rw [if_neg h]
  cases answer with
  | ok renewed => exact .step _ (.refl _)
  | error error => exact .step _ (.refl _)

/-- The call at a time, with the answer of the kernel if it is asked. -/
def InstanceLease.renewalCall (lease : InstanceLease) (now : Int64)
    (answer : Except ParserError RenewedLease) : RenewalCall :=
  if h : now < lease.expiresAt - renewalMarginSeconds then ⟨lease, now, [], lease, runs_early h⟩
  else ⟨lease, now, [⟨lease.revision, answer⟩], lease.answered answer, runs_due h answer⟩

@[simp] theorem InstanceLease.renewalCall_before (lease : InstanceLease) (now : Int64)
    (answer : Except ParserError RenewedLease) :
    (lease.renewalCall now answer).before = lease := by
  unfold renewalCall
  split <;> rfl

@[simp] theorem InstanceLease.renewalCall_now (lease : InstanceLease) (now : Int64)
    (answer : Except ParserError RenewedLease) :
    (lease.renewalCall now answer).now = now := by
  unfold renewalCall
  split <;> rfl

/-! ## A schedule of calls -/

/-- Every call finds the lease that the call before it has left, and the first one finds `lease`. -/
def Carried : InstanceLease → List RenewalCall → Prop
  | _, [] => True
  | lease, call :: calls => call.before = lease ∧ Carried call.after calls

/-- What the clock said in each call. -/
def clockTimes (calls : List RenewalCall) : List ℤ := calls.map fun call => call.now.toInt

/-- The calls at some times, with the answers of the kernel where it is asked. -/
def InstanceLease.renewalCalls (lease : InstanceLease) :
    List (Int64 × Except ParserError RenewedLease) → List RenewalCall
  | [] => []
  | (now, answer) :: readings =>
    lease.renewalCall now answer :: (lease.renewalCall now answer).after.renewalCalls readings

/-- Whatever the clock says and the kernel answers, the lease is carried from call to call. -/
theorem carried_renewalCalls (lease : InstanceLease)
    (readings : List (Int64 × Except ParserError RenewedLease)) :
    Carried lease (lease.renewalCalls readings) := by
  induction readings generalizing lease with
  | nil => trivial
  | cons reading readings ih => exact ⟨lease.renewalCall_before _ _, ih _⟩

theorem clockTimes_renewalCalls (lease : InstanceLease)
    (readings : List (Int64 × Except ParserError RenewedLease)) :
    clockTimes (lease.renewalCalls readings) = readings.map fun reading => reading.1.toInt := by
  induction readings generalizing lease with
  | nil => rfl
  | cons reading readings ih =>
    have hlater := ih (lease.renewalCall reading.1 reading.2).after
    rw [clockTimes] at hlater
    rw [InstanceLease.renewalCalls, clockTimes, List.map_cons, List.map_cons, hlater,
      InstanceLease.renewalCall_now]

/-- All attempts of the calls. -/
def renewalAttempts (calls : List RenewalCall) : List Attempt := calls.flatMap RenewalCall.attempts

/-- All attempts of the calls that come before the lease expires. -/
def attemptsBeforeExpiry (lease : InstanceLease) (calls : List RenewalCall) : List Attempt :=
  renewalAttempts (calls.filter fun call => call.now < lease.expiresAt)

theorem attemptsBeforeExpiry_cons (lease : InstanceLease) (call : RenewalCall)
    (calls : List RenewalCall) :
    attemptsBeforeExpiry lease (call :: calls) =
      (if call.now < lease.expiresAt then call.attempts else []) ++
        attemptsBeforeExpiry lease calls := by
  unfold attemptsBeforeExpiry
  rw [List.filter_cons]
  by_cases hlt : call.now < lease.expiresAt <;>
    simp [hlt, renewalAttempts]

theorem mem_attemptsBeforeExpiry {lease : InstanceLease} {calls : List RenewalCall}
    {attempt : Attempt} :
    attempt ∈ attemptsBeforeExpiry lease calls ↔
      ∃ call ∈ calls, call.now < lease.expiresAt ∧ attempt ∈ call.attempts := by
  simp [attemptsBeforeExpiry, renewalAttempts, and_assoc]

/-- Calls that begin with the lease before its margin, and go on to its expiry. -/
structure RenewalSchedule (lease : InstanceLease) (gap : ℕ) (calls : List RenewalCall) :
    Prop where
  carried : Carried lease calls
  times : Within gap (clockTimes calls)
  starts : ∃ t ∈ (clockTimes calls).head?,
    t < lease.expiresAt.toInt - renewalMarginSeconds.toInt
  continues : ∀ t ∈ (clockTimes calls).getLast?, lease.expiresAt.toInt ≤ t + gap

variable {lease : InstanceLease} {gap : ℕ} {calls : List RenewalCall}

/-- As long as the calls before `bound` leave the lease as it is, they also find it so. -/
theorem before_eq_of_lt {bound : ℤ} (hcarried : Carried lease calls)
    (htimes : Within gap (clockTimes calls))
    (hkeep : ∀ call ∈ calls, call.before = lease → call.now.toInt < bound → call.after = lease) :
    ∀ call ∈ calls, call.now.toInt < bound → call.before = lease := by
  induction calls with
  | nil => exact fun call hcall => absurd hcall List.not_mem_nil
  | cons first later ih =>
    obtain ⟨hfirst, hlater⟩ := hcarried
    intro call hcall hlt
    rcases List.mem_cons.mp hcall with rfl | hcall
    · exact hfirst
    · have hle : first.now.toInt ≤ call.now.toInt :=
        htimes.head_le _ (List.mem_map_of_mem hcall)
      rw [hkeep first List.mem_cons_self hfirst (hle.trans_lt hlt)] at hlater
      exact ih hlater htimes.tail
        (fun c hc => hkeep c (List.mem_cons_of_mem _ hc)) call hcall hlt

/-- The margin of a lease begins at a time that is not in the range of `Int64` only if the expiry is
next to the smallest number. -/
theorem lt_sub_margin_iff {now : Int64}
    (hrange : Int64.minValue.toInt ≤ lease.expiresAt.toInt - renewalMarginSeconds.toInt) :
    now < lease.expiresAt - renewalMarginSeconds ↔
      now.toInt < lease.expiresAt.toInt - renewalMarginSeconds.toInt := by
  have hlt := lease.expiresAt.toInt_lt
  have hmin : Int64.minValue.toInt = -2 ^ 63 := rfl
  have hmargin : renewalMarginSeconds.toInt = 20 := rfl
  rw [Int64.lt_iff_toInt_lt, Int64.toInt_sub, Int.bmod_eq_of_le (by omega) (by omega)]

/-- No renewal is attempted before the margin. -/
theorem RenewalSchedule.margin_le (h : RenewalSchedule lease gap calls)
    (hrange : Int64.minValue.toInt ≤ lease.expiresAt.toInt - renewalMarginSeconds.toInt)
    {call : RenewalCall} (hcall : call ∈ calls) (hattempts : call.attempts ≠ []) :
    lease.expiresAt.toInt - renewalMarginSeconds.toInt ≤ call.now.toInt := by
  have hearly : ∀ call : RenewalCall, call.before = lease →
      call.now.toInt < lease.expiresAt.toInt - renewalMarginSeconds.toInt →
      call.attempts = [] ∧ call.after = lease := by
    rintro call rfl hlt
    obtain ⟨-, hnone, hafter⟩ | ⟨hdue, -⟩ := call.cases
    · exact ⟨hnone, hafter⟩
    · exact absurd ((lt_sub_margin_iff hrange).mpr hlt) hdue
  by_contra hlt
  rw [not_le] at hlt
  have hbefore := before_eq_of_lt h.carried h.times (fun c _ hc hclt => (hearly c hc hclt).2)
    call hcall hlt
  exact hattempts (hearly call hbefore hlt).1

/-- Without a success before the expiry, every call of the margin makes an attempt. -/
theorem countP_le_attemptsBeforeExpiry (calls : List RenewalCall)
    (hrange : Int64.minValue.toInt ≤ lease.expiresAt.toInt - renewalMarginSeconds.toInt)
    (hbefore : ∀ call ∈ calls, call.now.toInt < lease.expiresAt.toInt → call.before = lease) :
    (clockTimes calls).countP (fun t =>
        lease.expiresAt.toInt - renewalMarginSeconds.toInt ≤ t ∧ t < lease.expiresAt.toInt) ≤
      (attemptsBeforeExpiry lease calls).length := by
  induction calls with
  | nil => exact Nat.zero_le _
  | cons call later ih =>
    have hlater := ih fun c hc => hbefore c (List.mem_cons_of_mem _ hc)
    have hlt : call.now < lease.expiresAt ↔ call.now.toInt < lease.expiresAt.toInt :=
      Int64.lt_iff_toInt_lt
    rw [clockTimes, List.map_cons, List.countP_cons, attemptsBeforeExpiry_cons, List.length_append]
    split
    · next hwindow =>
      obtain ⟨hmargin, hexpiry⟩ := of_decide_eq_true hwindow
      obtain rfl := hbefore call List.mem_cons_self hexpiry
      obtain ⟨hearly, -⟩ | ⟨-, answer, hattempts, -⟩ := call.cases
      · exact absurd ((lt_sub_margin_iff hrange).mp hearly) (not_lt.mpr hmargin)
      · rw [if_pos (hlt.mpr hexpiry), hattempts, List.length_singleton, add_comm]
        exact Nat.add_le_add_left hlater 1
    · exact Nat.le_add_left_of_le hlater

/-- Before the expiry the schedule makes an attempt for each `gap` of the margin, unless one of them
succeeds. -/
theorem RenewalSchedule.div_le_attempts (h : RenewalSchedule lease gap calls)
    (hrange : Int64.minValue.toInt ≤ lease.expiresAt.toInt - renewalMarginSeconds.toInt)
    (hfail : ∀ attempt ∈ attemptsBeforeExpiry lease calls, ∀ renewed,
      attempt.answer ≠ .ok renewed) :
    renewalMarginSeconds.toInt / gap ≤ (attemptsBeforeExpiry lease calls).length := by
  have hkeep : ∀ call ∈ calls, call.before = lease →
      call.now.toInt < lease.expiresAt.toInt → call.after = lease := by
    rintro call hcall rfl hlt
    obtain ⟨-, -, hafter⟩ | ⟨-, answer, hattempts, hafter⟩ := call.cases
    · exact hafter
    · have hmem : ⟨call.before.revision, answer⟩ ∈ attemptsBeforeExpiry call.before calls :=
        mem_attemptsBeforeExpiry.mpr
          ⟨call, hcall, Int64.lt_iff_toInt_lt.mpr hlt, by simp [hattempts]⟩
      cases answer with
      | ok renewed => exact absurd rfl (hfail _ hmem renewed)
      | error error => exact hafter
  have hcount := @Within.div_le_countP gap (clockTimes calls)
    (lease.expiresAt.toInt - renewalMarginSeconds.toInt) 20 h.times h.starts fun t ht => by
      have hmargin : renewalMarginSeconds.toInt = 20 := rfl
      have hend := h.continues t ht
      omega
  have hpolls := countP_le_attemptsBeforeExpiry calls hrange
    (before_eq_of_lt h.carried h.times hkeep)
  have hmargin : renewalMarginSeconds.toInt = (20 : ℕ) := rfl
  rw [hmargin] at hcount hpolls ⊢
  simp only [Nat.cast_ofNat, sub_add_cancel] at hcount hpolls
  exact_mod_cast hcount.trans hpolls

/-- What is left of a lease behind some attempts. -/
def InstanceLease.afterAttempts (lease : InstanceLease) (attempts : List Attempt) : InstanceLease :=
  attempts.foldl (fun lease attempt => lease.answered attempt.answer) lease

/-- Every attempt carries the revision that is left behind the attempts before it. -/
theorem Carried.expectedRevision (h : Carried lease calls) {front back : List Attempt}
    {attempt : Attempt} (hattempts : renewalAttempts calls = front ++ attempt :: back) :
    attempt.expectedRevision = (lease.afterAttempts front).revision := by
  induction calls generalizing lease front with
  | nil => exact absurd hattempts (by simp [renewalAttempts])
  | cons call later ih =>
    obtain ⟨rfl, hlater⟩ := h
    rw [renewalAttempts, List.flatMap_cons] at hattempts
    obtain ⟨-, hnone, hafter⟩ | ⟨-, answer, hone, hafter⟩ := call.cases
    · rw [hnone, List.nil_append] at hattempts
      rw [← hafter]
      exact ih hlater hattempts
    · rw [hone, List.singleton_append] at hattempts
      cases front with
      | nil =>
        obtain ⟨rfl, -⟩ := List.cons.inj hattempts
        rfl
      | cons first front =>
        obtain ⟨rfl, hrest⟩ := List.cons.inj hattempts
        have hrevision := ih hlater hrest
        rwa [hafter] at hrevision

/-- Failed attempts leave nothing else behind. -/
theorem InstanceLease.afterAttempts_of_error {attempts : List Attempt}
    (h : ∀ attempt ∈ attempts, ∃ error, attempt.answer = .error error) :
    lease.afterAttempts attempts = lease := by
  induction attempts with
  | nil => rfl
  | cons attempt attempts ih =>
    obtain ⟨error, herror⟩ := h attempt List.mem_cons_self
    rw [afterAttempts, List.foldl_cons, herror]
    exact ih fun a ha => h a (List.mem_cons_of_mem _ ha)

/-- The renewal margin buys its retries.  However the calls are spread over the time, no renewal is
attempted before the margin, and one attempt for each `gap` of it comes before the expiry unless one
of them succeeds.  A failed attempt leaves the lease unchanged, and the attempts behind a success
carry the revision that the kernel returned. -/
theorem renewal_margin (lease : InstanceLease) (gap : ℕ) (calls : List RenewalCall)
    (h : RenewalSchedule lease gap calls)
    (hrange : Int64.minValue.toInt ≤ lease.expiresAt.toInt - renewalMarginSeconds.toInt) :
    (∀ call ∈ calls, call.attempts ≠ [] →
        lease.expiresAt.toInt - renewalMarginSeconds.toInt ≤ call.now.toInt) ∧
      ((∃ attempt ∈ attemptsBeforeExpiry lease calls, ∃ renewed, attempt.answer = .ok renewed) ∨
        renewalMarginSeconds.toInt / gap ≤ (attemptsBeforeExpiry lease calls).length) ∧
      (∀ call ∈ calls, ∀ attempt ∈ call.attempts, ∀ error,
        attempt.answer = .error error → call.after = call.before) ∧
      ∀ front middle back success next renewed,
        renewalAttempts calls = front ++ success :: (middle ++ next :: back) →
        success.answer = .ok renewed →
        (∀ attempt ∈ middle, ∃ error, attempt.answer = .error error) →
        next.expectedRevision = renewed.leaseRevision := by
  refine ⟨fun call hcall => h.margin_le hrange hcall, ?_, ?_, ?_⟩
  · by_cases hsuccess :
        ∃ attempt ∈ attemptsBeforeExpiry lease calls, ∃ renewed, attempt.answer = .ok renewed
    · exact Or.inl hsuccess
    · refine Or.inr (h.div_le_attempts hrange fun attempt hattempt renewed hok => ?_)
      exact hsuccess ⟨attempt, hattempt, renewed, hok⟩
  · exact fun call _ attempt hattempt error herror => call.after_of_error hattempt herror
  · intro front middle back success next renewed hattempts hok hfail
    have hsplit : renewalAttempts calls = (front ++ success :: middle) ++ next :: back := by
      rw [hattempts, List.append_assoc, List.cons_append]
    rw [h.carried.expectedRevision hsplit, InstanceLease.afterAttempts, List.foldl_append,
      List.foldl_cons, hok]
    exact congrArg InstanceLease.revision (InstanceLease.afterAttempts_of_error hfail)

/-- A lease that expires at 100. -/
def retriedLease : InstanceLease := ⟨1, 100⟩

/-- Two attempts fail before the expiry, the third one succeeds behind it, and the fourth one fails
with the new revision. -/
def retriedReadings : List (Int64 × Except ParserError RenewedLease) :=
  [(79, .error (.unexpectedStatus 503)), (89, .error (.unexpectedStatus 503)),
    (99, .error (.client "timeout".toList)), (109, .ok ⟨130, 5⟩),
    (119, .error (.unexpectedStatus 409))]

theorem renewal_margin_example :
    RenewalSchedule retriedLease 10 (retriedLease.renewalCalls retriedReadings) ∧
      (renewalAttempts (retriedLease.renewalCalls retriedReadings)).map
        Attempt.expectedRevision = [1, 1, 1, 5] ∧
      ((∃ attempt ∈
            attemptsBeforeExpiry retriedLease (retriedLease.renewalCalls retriedReadings),
          ∃ renewed, attempt.answer = .ok renewed) ∨
        renewalMarginSeconds.toInt / (10 : ℕ) ≤
          (attemptsBeforeExpiry retriedLease
            (retriedLease.renewalCalls retriedReadings)).length) := by
  have hschedule :
      RenewalSchedule retriedLease 10 (retriedLease.renewalCalls retriedReadings) := by
    refine ⟨carried_renewalCalls _ _, ?_, ?_, ?_⟩
    · rw [clockTimes_renewalCalls, Within]
      decide
    · rw [clockTimes_renewalCalls]
      exact ⟨79, rfl, by decide⟩
    · rw [clockTimes_renewalCalls]
      decide
  exact ⟨hschedule, by decide +kernel,
    (renewal_margin retriedLease 10 _ hschedule (by decide)).2.1⟩

end Pf2eParser
