import Pf2eParser.Interaction
import Mathlib.Data.List.Forall2
import Mathlib.Data.Nat.Notation

/-!
# Handlers

A handler answers each call of one interface by a program over another one.  `Prog.interpret` puts
the handler under a program, and `Prog.repeatN` runs a body any number of times on a value that it
carries along.

A program is checked against a contract above the handler, and each handler against a contract below
it.  `Prog.Meets.interpret` puts the two together along a relation between the histories of both
interfaces: the handler has to extend related histories to related histories, and its answers have
to satisfy the assumptions above.  `Prog.Meets.repeatN` is the rule for loops, and `Prog.Meets.mono`
the one for consequences.

An environment answers each call, and it may know all that has happened.  Every environment takes a
program to its end (`Prog.exists_finished`), so that what holds of all finished runs is what the
program achieves.
-/

namespace Interaction

variable {Call Call' : Type} {Answer : Call → Type} {Answer' : Call' → Type} {ρ σ : Type}

/-- A program over one interface for every call of another one. -/
abbrev Handler (Answer : Call → Type) (Answer' : Call' → Type) :=
  ∀ c : Call, Prog Call' Answer' (Answer c)

/-- Answer the calls of a program by a handler. -/
def Prog.interpret (handler : Handler Answer Answer') : Prog Call Answer ρ → Prog Call' Answer' ρ
  | .ret r => .ret r
  | .call c next => (handler c).bind fun a => (next a).interpret handler

/-- Run the body the given number of times, each time on what it has returned before. -/
def Prog.repeatN (body : σ → Prog Call Answer σ) : ℕ → σ → Prog Call Answer σ
  | 0, s => .ret s
  | n + 1, s => (body s).bind (Prog.repeatN body n)

/-- Go on behind a success; a failure ends the program. -/
def Prog.andThen {ε α β : Type} (p : Prog Call Answer (Except ε α))
    (f : α → Prog Call Answer (Except ε β)) : Prog Call Answer (Except ε β) :=
  p.bind fun
    | .error error => .ret (.error error)
    | .ok a => f a

/-- Let an oracle answer calls of a program, as many as the fuel lasts for: what was called, and
what is left. -/
def Prog.follow (oracle : ∀ c, Answer c) :
    ℕ → Prog Call Answer ρ → List (Event Answer) × Prog Call Answer ρ
  | n + 1, .call c next =>
    let rest := Prog.follow oracle n (next (oracle c))
    (⟨c, oracle c⟩ :: rest.1, rest.2)
  | _, p => ([], p)

/-- What an oracle answers is a run. -/
theorem runs_follow (oracle : ∀ c, Answer c) (fuel : ℕ) (p : Prog Call Answer ρ) :
    Runs p (p.follow oracle fuel).1 (p.follow oracle fuel).2 := by
  induction fuel generalizing p with
  | zero => exact .refl p
  | succ n ih =>
    cases p with
    | ret r => exact .refl _
    | call c next => exact .step _ (ih _)

/-- The result of a program that makes no further call. -/
def Prog.result : Prog Call Answer ρ → Option ρ
  | .ret r => some r
  | .call _ _ => none

theorem Prog.result_eq_some_iff {p : Prog Call Answer ρ} {r : ρ} :
    p.result = some r ↔ p = .ret r := by
  cases p with
  | ret r' => simp [result]
  | call c next => simp [result]

/-- What an oracle answers up to the result is a finished run. -/
theorem runs_of_result {oracle : ∀ c, Answer c} {fuel : ℕ} {p : Prog Call Answer ρ} {r : ρ}
    (h : (p.follow oracle fuel).2.result = some r) : Runs p (p.follow oracle fuel).1 (.ret r) := by
  rw [← Prog.result_eq_some_iff.mp h]
  exact runs_follow oracle fuel p

/-- More fuel is spent on what is left. -/
theorem Prog.follow_add (oracle : ∀ c, Answer c) (m n : ℕ) (p : Prog Call Answer ρ) :
    p.follow oracle (m + n) = ((p.follow oracle m).1 ++ ((p.follow oracle m).2.follow oracle n).1,
      ((p.follow oracle m).2.follow oracle n).2) := by
  induction m generalizing p with
  | zero => cases p <;> rw [Nat.zero_add] <;> rfl
  | succ m ih =>
    cases p with
    | ret r => cases n <;> rfl
    | call c next =>
      rw [Nat.succ_add]
      simp only [Prog.follow, ih, List.cons_append]

/-- A program that is about to make a call goes on with the answer. -/
theorem Prog.exists_next_of_pending {p : Prog Call Answer ρ} {c : Call} (h : p.pending = some c) :
    ∃ next, p = .call c next := by
  cases p with
  | ret r => cases h
  | call c' next =>
    obtain rfl := Option.some.inj h
    exact ⟨next, rfl⟩

/-- A run can be cut anywhere. -/
theorem Runs.split {p q : Prog Call Answer ρ} {t₁ t₂ : List (Event Answer)}
    (h : Runs p (t₁ ++ t₂) q) : ∃ r, Runs p t₁ r ∧ Runs r t₂ q := by
  induction t₁ generalizing p with
  | nil => exact ⟨p, .refl p, h⟩
  | cons e t₁ ih =>
    cases h with
    | step a h =>
      obtain ⟨r, h₁, h₂⟩ := ih h
      exact ⟨r, .step a h₁, h₂⟩

/-- A run of a sequential composition is a run of its first part, or a finished one and then a run
of the second part. -/
theorem Runs.bind_cases {p : Prog Call Answer ρ} {f : ρ → Prog Call Answer σ}
    {trace : List (Event Answer)} {q : Prog Call Answer σ} (h : Runs (p.bind f) trace q) :
    (∃ r, Runs p trace r ∧ q = r.bind f) ∨
      ∃ t₁ t₂ a, trace = t₁ ++ t₂ ∧ Runs p t₁ (.ret a) ∧ Runs (f a) t₂ q := by
  induction p generalizing trace with
  | ret a => exact Or.inr ⟨[], trace, a, rfl, .refl _, h⟩
  | call c next ih =>
    cases h with
    | refl => exact Or.inl ⟨.call c next, .refl _, rfl⟩
    | step a h =>
      obtain ⟨r, hr, rfl⟩ | ⟨t₁, t₂, b, rfl, h₁, h₂⟩ := ih a h
      · exact Or.inl ⟨r, .step a hr, rfl⟩
      · exact Or.inr ⟨⟨c, a⟩ :: t₁, t₂, b, rfl, .step a h₁, h₂⟩

/-- A finished run of a sequential composition is one of both parts. -/
theorem Runs.bind_ret {p : Prog Call Answer ρ} {f : ρ → Prog Call Answer σ}
    {trace : List (Event Answer)} {b : σ} (h : Runs (p.bind f) trace (.ret b)) :
    ∃ t₁ t₂ a, trace = t₁ ++ t₂ ∧ Runs p t₁ (.ret a) ∧ Runs (f a) t₂ (.ret b) := by
  obtain ⟨r, hr, hb⟩ | h := h.bind_cases
  · cases r with
    | ret a =>
      rw [Prog.ret_bind] at hb
      exact ⟨trace, [], a, (List.append_nil _).symm, hr, hb ▸ .refl _⟩
    | call c next => cases hb
  · exact h

/-- A finished run of a program under a handler is a run of the program in which every call is
answered by a finished run of the handler. -/
theorem Runs.of_interpret {handler : Handler Answer Answer'} {p : Prog Call Answer ρ}
    {trace : List (Event Answer')} {r : ρ} (h : Runs (p.interpret handler) trace (.ret r)) :
    ∃ upper parts, List.Forall₂ (fun e t => Runs (handler e.1) t (.ret e.2)) upper parts ∧
      trace = parts.flatten ∧ Runs p upper (.ret r) := by
  induction p generalizing trace with
  | ret a =>
    cases h
    exact ⟨[], [], .nil, rfl, .refl _⟩
  | call c next ih =>
    obtain ⟨t₁, t₂, a, rfl, hcall, hnext⟩ := Runs.bind_ret h
    obtain ⟨upper, parts, hparts, rfl, hruns⟩ := ih a hnext
    exact ⟨⟨c, a⟩ :: upper, t₁ :: parts, .cons hcall hparts, rfl, .step a hruns⟩

/-- The answers behind a history are those of an environment that knows what has happened. -/
def AnsweredBy (env : List (Event Answer) → ∀ c, Answer c) :
    List (Event Answer) → List (Event Answer) → Prop
  | _, [] => True
  | history, e :: trace => e.2 = env history e.1 ∧ AnsweredBy env (history ++ [e]) trace

/-- Every environment takes a program to its end. -/
theorem Prog.exists_finished (env : List (Event Answer) → ∀ c, Answer c) (p : Prog Call Answer ρ)
    (history : List (Event Answer)) :
    ∃ trace r, Runs p trace (.ret r) ∧ AnsweredBy env history trace := by
  induction p generalizing history with
  | ret r => exact ⟨[], r, .refl _, trivial⟩
  | call c next ih =>
    obtain ⟨trace, r, hruns, hanswered⟩ :=
      ih (env history c) (history ++ [⟨c, env history c⟩])
    exact ⟨_, r, .step _ hruns, rfl, hanswered⟩

/-- Each event was answered when the ones before it were the history. -/
theorem AnsweredBy.answer_eq {env : List (Event Answer) → ∀ c, Answer c}
    {history before after : List (Event Answer)} {e : Event Answer}
    (h : AnsweredBy env history (before ++ e :: after)) : e.2 = env (history ++ before) e.1 := by
  induction before generalizing history with
  | nil =>
    rw [List.append_nil]
    exact h.1
  | cons first before ih =>
    have hrest := ih h.2
    rwa [List.append_assoc] at hrest

/-- Finished runs of a body, each on what the one before has returned. -/
inductive Iterates (body : σ → Prog Call Answer σ) : σ → List (List (Event Answer)) → σ → Prop
  | nil (s : σ) : Iterates body s [] s
  | cons {s s' s'' : σ} {trace : List (Event Answer)} {traces : List (List (Event Answer))}
      (h : Runs (body s) trace (.ret s')) (hrest : Iterates body s' traces s'') :
      Iterates body s (trace :: traces) s''

/-- A run of a loop is some finished runs of its body, and then one that goes on. -/
theorem Runs.exists_iterates {body : σ → Prog Call Answer σ} {n : ℕ} {s : σ}
    {trace : List (Event Answer)} {q : Prog Call Answer σ}
    (h : Runs (Prog.repeatN body n s) trace q) :
    ∃ traces s' last r, trace = traces.flatten ++ last ∧ Iterates body s traces s' ∧
      Runs (body s') last r := by
  induction n generalizing s trace with
  | zero =>
    cases h
    exact ⟨[], s, [], body s, rfl, .nil s, .refl _⟩
  | succ n ih =>
    obtain ⟨r, hr, -⟩ | ⟨t₁, t₂, s', rfl, hbody, hrest⟩ := Runs.bind_cases h
    · exact ⟨[], s, trace, r, rfl, .nil s, hr⟩
    · obtain ⟨traces, s'', last, r, rfl, hiterates, hlast⟩ := ih hrest
      exact ⟨t₁ :: traces, s'', last, r, by simp, .cons hbody hiterates, hlast⟩

/-- A finished run of a loop is as many finished runs of its body as it has rounds. -/
theorem Runs.iterates {body : σ → Prog Call Answer σ} {n : ℕ} {s s' : σ}
    {trace : List (Event Answer)} (h : Runs (Prog.repeatN body n s) trace (.ret s')) :
    ∃ traces, traces.length = n ∧ trace = traces.flatten ∧ Iterates body s traces s' := by
  induction n generalizing s trace with
  | zero =>
    cases h
    exact ⟨[], rfl, rfl, .nil s'⟩
  | succ n ih =>
    obtain ⟨t₁, t₂, s₁, rfl, hbody, hrest⟩ := Runs.bind_ret h
    obtain ⟨traces, rfl, rfl, hiterates⟩ := ih hrest
    exact ⟨t₁ :: traces, rfl, rfl, .cons hbody hiterates⟩

/-- Each of the finished runs is one of the body. -/
theorem Iterates.runs_of_mem {body : σ → Prog Call Answer σ} {s s' : σ}
    {traces : List (List (Event Answer))} (h : Iterates body s traces s')
    {trace : List (Event Answer)} (hmem : trace ∈ traces) :
    ∃ t t', Runs (body t) trace (.ret t') := by
  induction h with
  | nil => exact absurd hmem List.not_mem_nil
  | @cons s s₁ s₂ first rest hbody hrest ih =>
    rcases List.mem_cons.mp hmem with rfl | hmem
    · exact ⟨s, s₁, hbody⟩
    · exact ih hmem

/-- What a program is about to call behind a run is allowed by its contract. -/
theorem Runs.pending_gate {C : Contract Answer} {post : List (Event Answer) → ρ → Prop}
    {history trace : List (Event Answer)} {p q : Prog Call Answer ρ} {c : Call}
    (hrun : Runs p trace q) (hp : p.Meets C post history) (ha : ∀ e ∈ trace, C.assumes e)
    (hc : q.pending = some c) : C.gate (history ++ trace) c := by
  have hq := hrun.meets hp ha
  cases q with
  | ret r => simp [Prog.pending] at hc
  | call c' next =>
    obtain rfl := Option.some.inj hc
    exact hq.1

variable {C : Contract Answer} {C' : Contract Answer'}
  {post post' : List (Event Answer) → ρ → Prop} {history : List (Event Answer)}
  {history' : List (Event Answer')}

/-- A weaker postcondition. -/
theorem Prog.Meets.mono {p : Prog Call Answer ρ} (hp : p.Meets C post history)
    (hpost : ∀ h r, post h r → post' h r) : p.Meets C post' history := by
  induction p generalizing history with
  | ret r => exact hpost history r hp
  | call c next ih => exact ⟨hp.1, fun a ha => ih a (hp.2 a ha)⟩

/-- What is returned is what a run behind the history has returned. -/
theorem Prog.Meets.runs {p : Prog Call Answer ρ} (hp : p.Meets C post history) :
    p.Meets C (fun h r => post h r ∧ ∃ trace, h = history ++ trace ∧ Runs p trace (.ret r))
      history := by
  induction p generalizing history with
  | ret r => exact ⟨hp, [], by simp, .refl _⟩
  | call c next ih =>
    refine ⟨hp.1, fun a ha => (ih a (hp.2 a ha)).mono ?_⟩
    rintro h r ⟨hpost, trace, rfl, hruns⟩
    exact ⟨hpost, ⟨c, a⟩ :: trace, by simp, .step a hruns⟩

/-- A program meets a contract below its handler if it meets one above, and the handler extends
related histories to related histories by answers that are assumed above. -/
theorem Prog.Meets.interpret {handler : Handler Answer Answer'} {p : Prog Call Answer ρ}
    {R : List (Event Answer) → List (Event Answer') → Prop} (hp : p.Meets C post history)
    (hR : R history history')
    (hcall : ∀ h h' c, R h h' → C.gate h c →
      (handler c).Meets C' (fun h' a => C.assumes ⟨c, a⟩ ∧ R (h ++ [⟨c, a⟩]) h') h') :
    (p.interpret handler).Meets C' (fun h' r => ∃ h, R h h' ∧ post h r) history' := by
  induction p generalizing history history' with
  | ret r => exact ⟨history, hR, hp⟩
  | call c next ih =>
    exact (hcall history history' c hR hp.1).bind fun h' a ha => ih a (hp.2 a ha.1) ha.2

/-- A program that stops at a failure is checked behind the successes of its first part. -/
theorem Prog.Meets.andThen {ε α β : Type} {p : Prog Call Answer (Except ε α)}
    {f : α → Prog Call Answer (Except ε β)} {Q : List (Event Answer) → Except ε α → Prop}
    {Q' : List (Event Answer) → Except ε β → Prop} (hp : p.Meets C Q history)
    (hok : ∀ h a, Q h (.ok a) → (f a).Meets C Q' h)
    (herror : ∀ h error, Q h (.error error) → Q' h (.error error)) :
    (p.andThen f).Meets C Q' history := by
  refine hp.bind fun h r hr => ?_
  cases r with
  | error error => exact herror h error hr
  | ok a => exact hok h a hr

/-- The result is a success. -/
def Succeeds {ε α : Type} (_ : List (Event Answer)) (result : Except ε α) : Prop :=
  ∃ a, result = .ok a

/-- Behind a program that does not fail, one goes on. -/
theorem Prog.Meets.andThen_of_succeeds {ε α β : Type} {p : Prog Call Answer (Except ε α)}
    {f : α → Prog Call Answer (Except ε β)} {Q : List (Event Answer) → Except ε β → Prop}
    (hp : p.Meets C Succeeds history) (hf : ∀ h a, (f a).Meets C Q h) :
    (p.andThen f).Meets C Q history := by
  refine hp.andThen (fun h a _ => hf h a) ?_
  rintro h error ⟨a, ha⟩
  cases ha

/-- A loop keeps an invariant that its body keeps. -/
theorem Prog.Meets.repeatN {body : σ → Prog Call Answer σ}
    {inv : List (Event Answer) → σ → Prop}
    (hbody : ∀ h s, inv h s → (body s).Meets C inv h) (n : ℕ) {s : σ} (hs : inv history s) :
    (Prog.repeatN body n s).Meets C inv history := by
  induction n generalizing s history with
  | zero => exact hs
  | succ n ih => exact (hbody history s hs).bind fun h s hs => ih hs

end Interaction
