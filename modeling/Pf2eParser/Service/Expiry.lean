import Pf2eParser.Service.Lifecycle

/-!
# The lease in use

What the margin of the renewal is for: a process whose kernel answers in time never signs a request
under a lease that has expired.

A run of the loop is a list of finished rounds and one that goes on.  Each of them begins with a
check of the lease, and the checks are the calls of `renew_lease_if_due` in `Renewal`.  The
hypotheses are about the environment alone: the first check comes before the margin of the
enrollment, every round is over within some seconds (`Punctual`), and the kernel refuses only so
many attempts in a row (`FailsAtMost`).  As long as all of this time fits into the margin, the lease
is in force whenever the process signs (`lease_in_force`).
-/

namespace Pf2eParser

open Text Interaction

variable {E : Externals} {J : KernelJson} {parserVersion : Str} {config : Config}

/-! ## Rounds with a lease -/

/-- A finished round of a process with a lease. -/
structure LeasedRound (E : Externals) (J : KernelJson) (parserVersion : Str) (config : Config) where
  /-- The call of `renew_lease_if_due`. -/
  call : RenewalCall
  /-- What the clock and the kernel have done for each of its events. -/
  renewal : List (List ServiceEvent)
  /-- The pass, the heartbeat and the pause. -/
  work : List ServiceEvent
  renewed : List.Forall₂ (fun e t => Runs (leasePort J config.authority e.1) t (.ret e.2))
    (⟨.unixTime, call.now⟩ :: call.attempts.map Attempt.event) renewal
  runs : Runs (runRound E J parserVersion config (some call.before)) (renewal.flatten ++ work)
    (.ret (some call.after))

/-- Everything that happens in a round. -/
def LeasedRound.events (round : LeasedRound E J parserVersion config) : List ServiceEvent :=
  round.renewal.flatten ++ round.work

/-- Rounds that are carried on from a lease, and one that goes on. -/
inductive LoopRuns (E : Externals) (J : KernelJson) (parserVersion : Str) (config : Config) :
    InstanceLease → List (LeasedRound E J parserVersion config) → List ServiceEvent → Prop
  | last {lease : InstanceLease} {opened : List ServiceEvent}
      {rest : Service (Option InstanceLease)}
      (h : Runs (runRound E J parserVersion config (some lease)) opened rest) :
      LoopRuns E J parserVersion config lease [] opened
  | round (r : LeasedRound E J parserVersion config)
      {rounds : List (LeasedRound E J parserVersion config)} {opened : List ServiceEvent}
      (h : LoopRuns E J parserVersion config r.call.after rounds opened) :
      LoopRuns E J parserVersion config r.call.before (r :: rounds) opened

/-- A finished round is one with a lease. -/
theorem exists_leasedRound {lease : InstanceLease} {trace : List ServiceEvent}
    {result : Option InstanceLease}
    (h : Runs (runRound E J parserVersion config (some lease)) trace (.ret result)) :
    ∃ r : LeasedRound E J parserVersion config, r.call.before = lease ∧
      result = some r.call.after ∧ trace = r.events := by
  obtain ⟨t₁, t₂, middle, rfl, hrenewal, hwork⟩ := Runs.bind_ret h
  obtain ⟨upper, parts, hparts, rfl, hruns⟩ := hrenewal.of_interpret
  obtain ⟨call, rfl, rfl, rfl⟩ := exists_renewalCall hruns
  obtain ⟨t₃, t₄, outcome, rfl, hpass, hlater⟩ := Runs.bind_ret hwork
  obtain ⟨t₅, t₆, u, rfl, hrecord, hsleep⟩ := Runs.bind_ret hlater
  obtain rfl : result = some call.after := by
    cases hsleep with
    | step answer hsleep =>
      cases hsleep
      rfl
  exact ⟨⟨call, parts, t₃ ++ (t₅ ++ t₆), hparts, h⟩, rfl, rfl, rfl⟩

/-- Rounds that begin with a lease are rounds with a lease. -/
theorem exists_loopRuns_of_iterates {found last : Option InstanceLease}
    {traces : List (List ServiceEvent)} {opened : List ServiceEvent}
    {rest : Service (Option InstanceLease)}
    (h : Iterates (runRound E J parserVersion config) found traces last)
    (hlast : Runs (runRound E J parserVersion config last) opened rest) {lease : InstanceLease}
    (hfound : found = some lease) :
    ∃ rounds : List (LeasedRound E J parserVersion config), traces = rounds.map LeasedRound.events ∧
      LoopRuns E J parserVersion config lease rounds opened := by
  induction h generalizing lease with
  | nil s =>
    subst hfound
    exact ⟨[], rfl, .last hlast⟩
  | cons hround _ ih =>
    subst hfound
    obtain ⟨r, rfl, hafter, rfl⟩ := exists_leasedRound hround
    obtain ⟨rounds, rfl, hloop⟩ := ih hlast hafter
    exact ⟨r :: rounds, rfl, .round r hloop⟩

/-- A run of the loop with a lease. -/
theorem exists_loopRuns {n : ℕ} {lease : InstanceLease} {trace : List ServiceEvent}
    {rest : Service (Option InstanceLease)}
    (h : Runs (run E J parserVersion n config) trace rest)
    (hlease : config.instanceLease = some lease) :
    ∃ rounds opened, trace = (rounds.map LeasedRound.events).flatten ++ opened ∧
      LoopRuns E J parserVersion config lease rounds opened := by
  obtain ⟨traces, last, opened, r, rfl, hiterates, hlast⟩ := h.exists_iterates
  obtain ⟨rounds, rfl, hloop⟩ := exists_loopRuns_of_iterates hiterates hlast hlease
  exact ⟨rounds, opened, rfl, hloop⟩

/-! ## The environment -/

/-- What the clock said when a round has checked its lease. -/
def checkedAt : List ServiceEvent → Option Int64
  | ⟨.clock, sinceEpoch⟩ :: _ => some (unixTime sinceEpoch)
  | _ => none

/-- The rounds are over in time, and the leases are long enough: within the gap behind its check
every round has signed its requests, and the next one has made its check; and every lease that is
granted is granted for longer than the margin. -/
structure Punctual (J : KernelJson) (gap : ℕ) (rounds : List (List ServiceEvent)) : Prop where
  checks : rounds.IsChain fun r r' =>
    ∀ t ∈ checkedAt r, ∀ t' ∈ checkedAt r', t'.toInt ≤ t.toInt + gap
  requests : ∀ r ∈ rounds, ∀ t ∈ checkedAt r, ∀ signed answer,
    ⟨.send signed, answer⟩ ∈ r → signed.created.toInt ≤ t.toInt + gap
  grants : ∀ r ∈ rounds, ∀ t ∈ checkedAt r, ∀ e ∈ r, ∀ granted ∈ grantedBy J e,
    t.toInt + renewalMarginSeconds.toInt < granted.expiresAt.toInt

theorem Punctual.tail {gap : ℕ} {r : List ServiceEvent} {rounds : List (List ServiceEvent)}
    (h : Punctual J gap (r :: rounds)) : Punctual J gap rounds where
  checks := h.checks.tail
  requests r' hr := h.requests r' (List.mem_cons_of_mem _ hr)
  grants r' hr := h.grants r' (List.mem_cons_of_mem _ hr)

/-- At most `k` attempts in a row fail. -/
def FailsAtMost (k : ℕ) (attempts : List Attempt) : Prop :=
  ∀ front failed back, attempts = front ++ failed ++ back →
    (∀ attempt ∈ failed, ∃ error, attempt.answer = .error error) → failed.length ≤ k

/-! ## One round -/

/-- A round begins with its check. -/
theorem checkedAt_of_runs {lease : InstanceLease} {events : List ServiceEvent}
    {rest : Service (Option InstanceLease)}
    (h : Runs (runRound E J parserVersion config (some lease)) events rest) (hne : events ≠ []) :
    ∃ t, checkedAt events = some t := by
  cases h with
  | refl => exact absurd rfl hne
  | step sinceEpoch h => exact ⟨_, rfl⟩

theorem checkedAt_append {events : List ServiceEvent} {t : Int64} (h : checkedAt events = some t)
    (later : List ServiceEvent) : checkedAt (events ++ later) = some t := by
  cases events with
  | nil => cases h
  | cons e events =>
    obtain ⟨c, answer⟩ := e
    cases c with
    | clock => exact h
    | _ => cases h

/-- The clock is read once. -/
theorem runs_unixTime {authority : Str} {events : List ServiceEvent} {now : Int64}
    (h : Runs (leasePort J authority .unixTime) events (.ret now)) :
    ∃ sinceEpoch, events = [⟨.clock, sinceEpoch⟩] ∧ unixTime sinceEpoch = now := by
  change Runs (.call .clock fun sinceEpoch => .ret (unixTime sinceEpoch)) events _ at h
  generalize hresult : (Prog.ret now : Service Int64) = result at h
  cases h with
  | refl => cases hresult
  | step sinceEpoch h =>
    cases h
    exact ⟨sinceEpoch, rfl, (Prog.ret.inj hresult).symm⟩

/-- The check of a finished round is the one of its call. -/
theorem LeasedRound.checkedAt_events (r : LeasedRound E J parserVersion config) :
    checkedAt r.events = some r.call.now := by
  obtain ⟨check, parts, hcheck, -, hrenewal⟩ := List.forall₂_cons_left_iff.mp r.renewed
  obtain ⟨sinceEpoch, rfl, hnow⟩ := runs_unixTime hcheck
  rw [events, hrenewal]
  exact congrArg some hnow

/-- Behind some events the lease is still the one from before, or one of them has granted it. -/
theorem exists_grantedLease_append {history : List ServiceEvent} {lease : InstanceLease}
    (h : grantedLease J history = some lease) (events : List ServiceEvent) :
    ∃ granted, grantedLease J (history ++ events) = some granted ∧
      (granted = lease ∨ ∃ e ∈ events, grantedBy J e = some granted) := by
  rw [grantedLease] at h
  rw [grantedLease, List.filterMap_append, List.getLast?_append, h]
  cases hlast : (events.filterMap (grantedBy J)).getLast? with
  | none => exact ⟨lease, rfl, Or.inl rfl⟩
  | some granted =>
    exact ⟨granted, rfl, Or.inr (List.mem_filterMap.mp (List.mem_of_getLast? hlast))⟩

/-- A renewal that succeeds grants the lease that it returns. -/
theorem granted_of_renewed {authority : Str} {expectedRevision : Int64} {renewed : RenewedLease}
    {events : List ServiceEvent}
    (h : Runs (leasePort J authority (.renewLease expectedRevision)) events
      (.ret (.ok renewed))) :
    ∃ e ∈ events, grantedBy J e = some ⟨renewed.leaseRevision, renewed.leaseExpiresAt⟩ := by
  have hasked : Asked J [] (.renewLease expectedRevision) (parseRenewalResponse J) events
      (.ok renewed) := by
    have hmeets := @ask_meets J authority ⟨fun _ => True, fun _ _ => True⟩ RenewedLease
      (.renewLease expectedRevision) (parseRenewalResponse J) [] (fun _ _ _ => trivial)
      fun _ _ _ _ => trivial
    exact h.meets hmeets fun _ _ => trivial
  obtain ⟨quiet, answered, -, hanswered, rfl⟩ := hasked
  obtain ⟨signed, response, hfor, rfl, hread⟩ := hanswered.ok
  have hpath : signed.parts.pathAndQuery = renewInstancePath := hfor.pathAndQuery_eq
  refine ⟨_, List.mem_concat_self, ?_⟩
  rw [grantedBy, if_pos hpath, hread]

/-- At the time, the lease has been in the margin for less than so many gaps. -/
def InMargin (gap count : ℕ) (t : Int64) (lease : InstanceLease) : Prop :=
  Int64.minValue.toInt ≤ lease.expiresAt.toInt - renewalMarginSeconds.toInt ∧
    t.toInt + renewalMarginSeconds.toInt < lease.expiresAt.toInt + (count * gap : ℕ)

variable {gap k failures : ℕ} {lease : InstanceLease} {t t' : Int64} {h : List ServiceEvent}
  {before after : List ServiceEvent} {signed : SignedRequest} {answer : Except Str Response}

/-- A lease that was just granted is not in the margin. -/
theorem inMargin_of_lt (gap : ℕ)
    (hlong : t.toInt + renewalMarginSeconds.toInt < lease.expiresAt.toInt) (count : ℕ) :
    InMargin gap count t lease := by
  have hmin := t.le_toInt
  have hminValue : Int64.minValue.toInt = -2 ^ 63 := rfl
  constructor <;> omega

/-- Within the gap, it is in the margin for one more. -/
theorem InMargin.later {count : ℕ} (hmargin : InMargin gap count t lease)
    (hgap : t'.toInt ≤ t.toInt + gap) : InMargin gap (count + 1) t' lease := by
  refine ⟨hmargin.1, ?_⟩
  have hlong := hmargin.2
  rw [Nat.succ_mul]
  omega

/-- What a round signs, it signs under a lease in force: the one that it has found, or the one that
it has got. -/
theorem in_force_of_round {events : List ServiceEvent}
    (hgap : ((k + 2) * gap : ℕ) ≤ renewalMarginSeconds.toInt)
    (hfailures : failures ≤ k) (hlease : grantedLease J h = some lease)
    (hmargin : InMargin gap (failures + 1) t lease)
    (hrequest : signed.created.toInt ≤ t.toInt + gap)
    (hgrants : ∀ e ∈ events, ∀ granted ∈ grantedBy J e,
      t.toInt + renewalMarginSeconds.toInt < granted.expiresAt.toInt)
    (hbefore : ∀ e ∈ before, e ∈ events) :
    ∃ granted, grantedLease J (h ++ before) = some granted ∧
      signed.created < granted.expiresAt := by
  have hbound : (failures + 2) * gap ≤ (k + 2) * gap :=
    Nat.mul_le_mul_right gap (Nat.add_le_add_right hfailures 2)
  rw [Nat.succ_mul] at hbound
  obtain ⟨granted, hgranted, hwhich⟩ := exists_grantedLease_append hlease before
  have hlong : InMargin gap (failures + 1) t granted := by
    obtain rfl | ⟨e, he, hby⟩ := hwhich
    · exact hmargin
    · exact inMargin_of_lt gap (hgrants e (hbefore e he) granted hby) _
  refine ⟨granted, hgranted, Int64.lt_iff_toInt_lt.mpr ?_⟩
  have hexpires := hlong.2
  omega

/-- What a finished round makes of the margin: behind a check before it or a success the lease is
not in the margin, and behind a failure it has been there for one more attempt. -/
theorem LeasedRound.exists_failed (r : LeasedRound E J parserVersion config)
    (front : List Attempt) {failed : List Attempt}
    (hfailed : ∀ attempt ∈ failed, ∃ error, attempt.answer = .error error)
    (hmargin : InMargin gap (failed.length + 1) r.call.now r.call.before)
    (hgrants : ∀ e ∈ r.events, ∀ granted ∈ grantedBy J e,
      r.call.now.toInt + renewalMarginSeconds.toInt < granted.expiresAt.toInt) :
    ∃ front' failed', front ++ failed ++ r.call.attempts = front' ++ failed' ∧
      (∀ attempt ∈ failed', ∃ error, attempt.answer = .error error) ∧
      InMargin gap failed'.length r.call.now r.call.after := by
  obtain ⟨hearly, hnone, hafter⟩ | ⟨-, answer, hone, hafter⟩ := r.call.cases
  · have hlong := (lt_sub_margin_iff hmargin.1).mp hearly
    refine ⟨front, failed, by rw [hnone, List.append_nil], hfailed, ?_⟩
    rw [hafter]
    exact inMargin_of_lt gap (by omega) _
  · cases answer with
    | error error =>
      refine ⟨front, failed ++ [⟨r.call.before.revision, .error error⟩], ?_, ?_, ?_⟩
      · rw [hone, List.append_assoc]
      · exact List.forall_mem_append.mpr ⟨hfailed, by simp⟩
      · rw [List.length_append, hafter]
        exact hmargin
    | ok renewed =>
      refine ⟨front ++ failed ++ r.call.attempts, [], (List.append_nil _).symm, by simp, ?_⟩
      have hrenewed := r.renewed
      rw [hone] at hrenewed
      obtain ⟨check, rest, -, hrest, hrenewal⟩ := List.forall₂_cons_left_iff.mp hrenewed
      obtain ⟨exchange, rest', hexchange, -, rfl⟩ := List.forall₂_cons_left_iff.mp hrest
      obtain ⟨e, he, hby⟩ := granted_of_renewed hexchange
      rw [hafter]
      refine inMargin_of_lt gap (hgrants e ?_ _ hby) _
      rw [events, hrenewal]
      simp [he]

/-! ## The loop -/

/-- In every round of the loop the lease is in force, by induction on the rounds.  The attempts of
`failed` are the ones that have failed in a row before, and they bound how long the lease has been
in the margin at the next check. -/
theorem in_force_of_loopRuns {rounds : List (LeasedRound E J parserVersion config)}
    {opened : List ServiceEvent} (front failed : List Attempt)
    (hgap : ((k + 2) * gap : ℕ) ≤ renewalMarginSeconds.toInt)
    (hloop : LoopRuns E J parserVersion config lease rounds opened)
    (hinv : LoopInv E J config h (some lease))
    (hpunctual : Punctual J gap (rounds.map LeasedRound.events ++ [opened]))
    (hfailed : ∀ attempt ∈ failed, ∃ error, attempt.answer = .error error)
    (hfails : FailsAtMost k
      (front ++ failed ++ renewalAttempts (rounds.map LeasedRound.call)))
    (hmargin : ∀ r ∈ (rounds.map LeasedRound.events ++ [opened]).head?, ∀ t ∈ checkedAt r,
      InMargin gap (failed.length + 1) t lease)
    (hsend : (rounds.map LeasedRound.events).flatten ++ opened =
      before ++ ⟨.send signed, answer⟩ :: after) :
    ∃ granted, grantedLease J (h ++ before) = some granted ∧
      signed.created < granted.expiresAt := by
  have hcount : failed.length ≤ k := hfails front failed _ rfl hfailed
  induction hloop generalizing h front failed before with
  | @last lease opened rest hlast =>
    have hopened : opened = before ++ ⟨.send signed, answer⟩ :: after := hsend
    obtain ⟨t, ht⟩ := checkedAt_of_runs hlast (by simp [hopened])
    have hmem : opened ∈ [opened] := List.mem_singleton_self opened
    refine in_force_of_round hgap hcount hinv.lease (hmargin opened rfl t ht)
      (hpunctual.requests opened hmem t ht signed answer (by simp [hopened]))
      (hpunctual.grants opened hmem t ht) fun e he => ?_
    rw [hopened]
    exact List.mem_append_left _ he
  | @round r rounds opened hloop ih =>
    rw [List.map_cons, List.cons_append] at hpunctual hmargin
    have hcheck := r.checkedAt_events
    have hmem : r.events ∈ r.events :: (rounds.map LeasedRound.events ++ [opened]) :=
      List.mem_cons_self
    have hnow : InMargin gap (failed.length + 1) r.call.now r.call.before :=
      hmargin r.events rfl r.call.now hcheck
    have hgrants := hpunctual.grants r.events hmem r.call.now hcheck
    have hbeyond : ∀ later, before = r.events ++ later →
        (rounds.map LeasedRound.events).flatten ++ opened =
          later ++ ⟨.send signed, answer⟩ :: after →
        ∃ granted, grantedLease J (h ++ before) = some granted ∧
          signed.created < granted.expiresAt := by
      rintro later rfl hlater
      obtain ⟨front', failed', hattempts, hfailed', hmargin'⟩ :=
        r.exists_failed front hfailed hnow hgrants
      have hinv' : LoopInv E J config (h ++ r.events) (some r.call.after) :=
        r.runs.meets (runRound_meets hinv) fun _ _ => trivial
      have hfails' : FailsAtMost k
          (front' ++ failed' ++ renewalAttempts (rounds.map LeasedRound.call)) := by
        rw [← hattempts, List.append_assoc]
        exact hfails
      obtain ⟨hnext, hchecks⟩ := List.isChain_cons.mp hpunctual.checks
      have hin := ih front' failed' hinv' hpunctual.tail hfailed' hfails' ?_ hlater
        (hfails' front' failed' _ rfl hfailed')
      · rwa [List.append_assoc] at hin
      · intro r' hr' t ht
        exact hmargin'.later (hnext r' hr' r.call.now hcheck t ht)
    rw [List.map_cons, List.flatten_cons, List.append_assoc, List.append_eq_append_iff] at hsend
    obtain ⟨later, hbefore, hlater⟩ | ⟨inside, hevents, hinside⟩ := hsend
    · exact hbeyond later hbefore hlater
    · cases inside with
      | nil => exact hbeyond [] (by simpa using hevents.symm) (by simpa using hinside.symm)
      | cons e inside =>
        obtain ⟨rfl, -⟩ := List.cons.inj hinside
        refine in_force_of_round hgap hcount hinv.lease hnow ?_ hgrants fun e he => ?_
        · exact hpunctual.requests r.events hmem r.call.now hcheck signed answer
            (by simp [hevents])
        · rw [hevents]
          exact List.mem_append_left _ he

/-- A process that checks the lease of its enrollment while more than the margin is left of it,
whose rounds are over in time, and whose kernel grants a renewal before too many attempts have
failed, signs no request under a lease that has expired: whenever a request leaves the loop, a lease
was granted, and the last one is good for longer than until the request was signed. -/
theorem lease_in_force {start trace : List ServiceEvent}
    {rounds : List (LeasedRound E J parserVersion config)} {opened : List ServiceEvent}
    (hstart : Runs (Config.fromEnv E J) start (.ret (.ok config)))
    (hlease : config.instanceLease = some lease)
    (hloop : LoopRuns E J parserVersion config lease rounds opened)
    (htrace : trace = (rounds.map LeasedRound.events).flatten ++ opened)
    (hgap : ((k + 2) * gap : ℕ) ≤ renewalMarginSeconds.toInt)
    (hfirst : ∀ t ∈ checkedAt trace,
      t.toInt + renewalMarginSeconds.toInt < lease.expiresAt.toInt)
    (hpunctual : Punctual J gap (rounds.map LeasedRound.events ++ [opened]))
    (hfails : FailsAtMost k (renewalAttempts (rounds.map LeasedRound.call)))
    (hsend : trace = before ++ ⟨.send signed, answer⟩ :: after) :
    ∃ granted, grantedLease J (start ++ before) = some granted ∧
      signed.created < granted.expiresAt := by
  have hinv : LoopInv E J config ([] ++ start) config.instanceLease :=
    hstart.meets (@fromEnv_meets E J parserVersion) (fun _ _ => trivial) config rfl
  rw [hlease, List.nil_append] at hinv
  refine in_force_of_loopRuns [] [] hgap hloop hinv hpunctual (by simp)
    hfails ?_ (htrace ▸ hsend)
  intro r hr t ht
  refine inMargin_of_lt gap (hfirst t ?_) _
  rw [htrace]
  cases rounds with
  | nil =>
    obtain rfl := Option.some.inj hr
    exact ht
  | cons round rounds =>
    obtain rfl := Option.some.inj hr
    rw [List.map_cons, List.flatten_cons, List.append_assoc]
    exact checkedAt_append ht _

/-! ## An outage -/

/-- A kernel that has enrolled the process and then answers nothing but errors. -/
def outageOracle (now : UInt64) : ∀ c : ServiceCall, c.Answer
  | .clock => some now
  | .submitEnrollment _ _ => .ok ⟨1022, 1⟩
  | .send signed =>
    if signed.parts.pathAndQuery = activeSubscriptionsPath then exampleOracle (.send signed)
    else .ok ⟨503, []⟩
  | c => exampleOracle c

/-- What the process has started with. -/
def outageConfig : Config := ⟨"kernel".toList, 300, 5, some ⟨1, 1022⟩⟩

/-- The start of the process. -/
def outageStart : List ServiceEvent × Service (Except ParserError Config) :=
  (Config.fromEnv .reference exampleJson).follow (outageOracle 995) 27

/-- A round at a time, cut behind some calls. -/
def outageRound (now : UInt64) (calls : ℕ) :
    List ServiceEvent × Service (Option InstanceLease) :=
  (runRound .reference exampleJson cargoParserVersion outageConfig (some ⟨1, 1022⟩)).follow
    (outageOracle now) calls

/-- Two rounds and a part of the third one, in which the lease is renewed again. -/
def outageRounds : List (Int64 × List ServiceEvent) :=
  [(1000, (outageRound 1000 8).1), (1005, (outageRound 1005 14).1), (1010, (outageRound 1010 7).1)]

/-- The renewal of the third round. -/
def outageRenewal : SignedRequest :=
  { exampleSigned (.renewLease 1) with created := 1010, expires := 1040 }

/-- The rounds are punctual. -/
theorem punctual_outageRounds : Punctual exampleJson 5 (outageRounds.map Prod.snd) := by
  have hspec : ∀ r ∈ outageRounds, checkedAt r.2 = some r.1 ∧
      (∀ signed ∈ sentRequests r.2, signed.created = r.1) ∧
      r.2.filterMap (grantedBy exampleJson) = [] := by decide +kernel
  have hround : ∀ r ∈ outageRounds.map Prod.snd, ∀ t ∈ checkedAt r,
      (∀ signed ∈ sentRequests r, signed.created = t) ∧
        r.filterMap (grantedBy exampleJson) = [] := by
    intro r hr t ht
    obtain ⟨p, hp, rfl⟩ := List.mem_map.mp hr
    obtain ⟨hcheck, hrest⟩ := hspec p hp
    obtain rfl := Option.some.inj (hcheck.symm.trans ht)
    exact hrest
  refine ⟨?_, fun r hr t ht signed answer hsend => ?_, fun r hr t ht e he granted hby => ?_⟩
  · have hnext : ∀ p ∈ outageRounds, ∀ p' ∈ outageRounds, p'.1.toInt ≤ p.1.toInt + 5 →
        ∀ t ∈ checkedAt p.2, ∀ t' ∈ checkedAt p'.2, t'.toInt ≤ t.toInt + (5 : ℕ) := by
      intro p hp p' hp' hle t ht t' ht'
      obtain rfl := Option.some.inj ((hspec p hp).1.symm.trans ht)
      obtain rfl := Option.some.inj ((hspec p' hp').1.symm.trans ht')
      exact hle
    apply List.IsChain.cons_cons
    · apply hnext (1000, _) (by simp [outageRounds]) (1005, _) (by simp [outageRounds])
      decide
    · refine .cons_cons ?_ (.singleton _)
      apply hnext (1005, _) (by simp [outageRounds]) (1010, _) (by simp [outageRounds])
      decide
  · have hmem : signed ∈ sentRequests r := List.mem_filterMap.mpr ⟨_, hsend, rfl⟩
    rw [(hround r hr t ht).1 signed hmem]
    omega
  · have hmem : granted ∈ r.filterMap (grantedBy exampleJson) :=
      List.mem_filterMap.mpr ⟨e, he, hby⟩
    rw [(hround r hr t ht).2] at hmem
    exact absurd hmem List.not_mem_nil

/-- A round whose renewal is not due or fails. -/
theorem exists_leasedRound_outage {now : UInt64} {calls : ℕ}
    (h : (outageRound now calls).2.result = some (some ⟨1, 1022⟩)) :
    ∃ r : LeasedRound .reference exampleJson cargoParserVersion outageConfig,
      r.call.before = ⟨1, 1022⟩ ∧ r.call.after = ⟨1, 1022⟩ ∧
        r.events = (outageRound now calls).1 ∧ r.call.attempts.length ≤ 1 := by
  obtain ⟨r, hbefore, hafter, hevents⟩ := exists_leasedRound (runs_of_result h)
  refine ⟨r, hbefore, (Option.some.inj hafter).symm, hevents.symm, ?_⟩
  obtain ⟨-, hnone, -⟩ | ⟨-, answer, hone, -⟩ := r.call.cases
  · simp [hnone]
  · simp [hone]

/-- In the third round the lease is in force. -/
theorem lease_in_force_outage : ∃ granted,
    grantedLease exampleJson
      (outageStart.1 ++ ((outageRound 1000 8).1 ++ (outageRound 1005 14).1 ++
        (outageRound 1010 6).1)) = some granted ∧
      outageRenewal.created < granted.expiresAt := by
  have hspec : outageStart.2.result = some (.ok outageConfig) ∧
      (outageRound 1000 8).2.result = some (some ⟨1, 1022⟩) ∧
      (outageRound 1005 14).2.result = some (some ⟨1, 1022⟩) ∧
      (outageRound 1010 6).2.pending = some (.send outageRenewal) ∧
      checkedAt (outageRound 1000 8).1 = some 1000 := by decide +kernel
  obtain ⟨hstart, hfirst, hsecond, hpending, hcheck⟩ := hspec
  obtain ⟨r₁, hbefore₁, hafter₁, hevents₁, hone₁⟩ := exists_leasedRound_outage hfirst
  obtain ⟨r₂, hbefore₂, hafter₂, hevents₂, hone₂⟩ := exists_leasedRound_outage hsecond
  have hthird := runs_follow (outageOracle 1010) 7
    (runRound .reference exampleJson cargoParserVersion outageConfig (some ⟨1, 1022⟩))
  have hloop : LoopRuns .reference exampleJson cargoParserVersion outageConfig ⟨1, 1022⟩
      [r₁, r₂] (outageRound 1010 7).1 := by
    rw [← hbefore₁]
    refine .round r₁ ?_
    rw [hafter₁, ← hbefore₂]
    refine .round r₂ ?_
    rw [hafter₂]
    exact .last hthird
  have hfails : FailsAtMost 2 (renewalAttempts ([r₁, r₂].map LeasedRound.call)) := by
    intro front failed back hattempts _
    have hlength := congrArg List.length hattempts
    simp only [renewalAttempts, List.map_cons, List.map_nil, List.flatMap_cons,
      List.flatMap_nil, List.append_nil, List.length_append] at hlength
    omega
  obtain ⟨next, hnext⟩ := Prog.exists_next_of_pending hpending
  have hopened : (outageRound 1010 7).1 =
      (outageRound 1010 6).1 ++
        [⟨.send outageRenewal, outageOracle 1010 (.send outageRenewal)⟩] := by
    have hadd := Prog.follow_add (outageOracle 1010) 6 1
      (runRound .reference exampleJson cargoParserVersion outageConfig (some ⟨1, 1022⟩))
    rw [show (Prog.follow (outageOracle 1010) 6 _).2 = Prog.call _ next from hnext] at hadd
    exact congrArg Prod.fst hadd
  have hpunctual : Punctual exampleJson 5 ([r₁, r₂].map LeasedRound.events ++
      [(outageRound 1010 7).1]) := by
    rw [List.map_cons, List.map_cons, List.map_nil, hevents₁, hevents₂]
    exact punctual_outageRounds
  have hcheck₁ : ∀ t ∈ checkedAt ((outageRound 1000 8).1 ++ ((outageRound 1005 14).1 ++
      (outageRound 1010 7).1)), t.toInt + renewalMarginSeconds.toInt < Int64.toInt 1022 := by
    intro t ht
    rw [Option.mem_def, checkedAt_append hcheck] at ht
    obtain rfl := Option.some.inj ht
    decide
  have hsend : (outageRound 1000 8).1 ++ ((outageRound 1005 14).1 ++ (outageRound 1010 7).1) =
      ((outageRound 1000 8).1 ++ (outageRound 1005 14).1 ++ (outageRound 1010 6).1) ++
        ⟨.send outageRenewal, outageOracle 1010 (.send outageRenewal)⟩ :: [] := by
    rw [hopened]
    simp
  refine lease_in_force (runs_of_result hstart) rfl hloop ?_ (by decide) hcheck₁ hpunctual hfails
    hsend
  simp [hevents₁, hevents₂]

end Pf2eParser
