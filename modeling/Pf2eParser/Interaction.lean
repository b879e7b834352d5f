import Mathlib.Data.Sigma.Basic

/-!
# Interactive programs and their traces

A program that talks to collaborators it knows nothing about is the tree of its calls: it returns a
result, or it makes a call and goes on with whatever the answer is.  `Runs p trace q` says that the
calls and answers of `trace` take the program `p` to the rest `q`; a trace that ends in `ret` is a
finished run, and any other one is a run that has been interrupted.  As the answers are arbitrary, a
property of all traces is a property of the program under every behaviour of its collaborators.

A `Contract` says at which histories a program may make which call, and under which assumption about
the answers.  `Prog.Meets` checks a program against it call by call, `Prog.Meets.bind` composes such
checks, and `Runs.meets` turns them into facts about all runs.
-/

namespace Interaction

variable {Call : Type} {Answer : Call → Type} {ρ σ : Type}

/-- A program that returns a result or makes a call and goes on with the answer. -/
inductive Prog (Call : Type) (Answer : Call → Type) (ρ : Type) : Type where
  | ret (result : ρ)
  | call (c : Call) (next : Answer c → Prog Call Answer ρ)

/-- One call together with its answer. -/
abbrev Event (Answer : Call → Type) := Σ c, Answer c

/-- Run one program and then another one that depends on the result of the first. -/
def Prog.bind (p : Prog Call Answer ρ) (f : ρ → Prog Call Answer σ) : Prog Call Answer σ :=
  match p with
  | .ret r => f r
  | .call c next => .call c fun a => (next a).bind f

@[simp] theorem Prog.ret_bind (r : ρ) (f : ρ → Prog Call Answer σ) :
    (Prog.ret r : Prog Call Answer ρ).bind f = f r := rfl

@[simp] theorem Prog.call_bind (c : Call) (next : Answer c → Prog Call Answer ρ)
    (f : ρ → Prog Call Answer σ) :
    (Prog.call c next).bind f = .call c fun a => (next a).bind f := rfl

/-- Sequential composition is associative. -/
theorem Prog.bind_assoc {τ : Type} (p : Prog Call Answer ρ) (f : ρ → Prog Call Answer σ)
    (g : σ → Prog Call Answer τ) : (p.bind f).bind g = p.bind fun r => (f r).bind g := by
  induction p with
  | ret r => rfl
  | call c next ih => exact congrArg (Prog.call c) (funext ih)

/-- The call that a program is about to make. -/
def Prog.pending : Prog Call Answer ρ → Option Call
  | .ret _ => none
  | .call c _ => some c

/-- The calls and answers of `trace` take the program `p` to `q`. -/
inductive Runs : Prog Call Answer ρ → List (Event Answer) → Prog Call Answer ρ → Prop
  | refl (p : Prog Call Answer ρ) : Runs p [] p
  | step {c : Call} {next : Answer c → Prog Call Answer ρ} (a : Answer c)
      {trace : List (Event Answer)} {q : Prog Call Answer ρ} (h : Runs (next a) trace q) :
      Runs (.call c next) (⟨c, a⟩ :: trace) q

/-- Runs are composed. -/
theorem Runs.trans {p q r : Prog Call Answer ρ} {t₁ t₂ : List (Event Answer)}
    (h₁ : Runs p t₁ q) (h₂ : Runs q t₂ r) : Runs p (t₁ ++ t₂) r := by
  induction h₁ with
  | refl => exact h₂
  | step a _ ih => exact .step a (ih h₂)

/-- A run is continued by the answer to its pending call. -/
theorem Runs.snoc {p : Prog Call Answer ρ} {trace : List (Event Answer)} {c : Call}
    {next : Answer c → Prog Call Answer ρ} (h : Runs p trace (.call c next)) (a : Answer c) :
    Runs p (trace ++ [⟨c, a⟩]) (next a) :=
  h.trans (.step a (.refl _))

/-! ## Contracts -/

/-- When a program may make a call, and what it may assume about the answers. -/
structure Contract (Answer : Call → Type) where
  /-- The answers that the collaborators can give. -/
  assumes : Event Answer → Prop
  /-- The calls that may follow a history. -/
  gate : List (Event Answer) → Call → Prop

/-- Behind the given history, the program keeps the contract and ends with the postcondition. -/
def Prog.Meets (C : Contract Answer) (post : List (Event Answer) → ρ → Prop) :
    Prog Call Answer ρ → List (Event Answer) → Prop
  | .ret r, history => post history r
  | .call c next, history =>
    C.gate history c ∧ ∀ a, C.assumes ⟨c, a⟩ → (next a).Meets C post (history ++ [⟨c, a⟩])

variable {C : Contract Answer} {post : List (Event Answer) → ρ → Prop}
  {history : List (Event Answer)}

/-- A sequential composition meets a contract if the first program does, and the second one does
behind every history and result of the first. -/
theorem Prog.Meets.bind {p : Prog Call Answer ρ} {f : ρ → Prog Call Answer σ}
    {post' : List (Event Answer) → σ → Prop} (hp : p.Meets C post history)
    (hf : ∀ h r, post h r → (f r).Meets C post' h) : (p.bind f).Meets C post' history := by
  induction p generalizing history with
  | ret r => exact hf history r hp
  | call c next ih => exact ⟨hp.1, fun a ha => ih a (hp.2 a ha)⟩

/-- What is left of a program after a run still meets its contract. -/
theorem Runs.meets {p q : Prog Call Answer ρ} {trace : List (Event Answer)} (h : Runs p trace q)
    (hp : p.Meets C post history) (ha : ∀ e ∈ trace, C.assumes e) :
    q.Meets C post (history ++ trace) := by
  induction h generalizing history with
  | refl => simpa using hp
  | @step c next a trace q _ ih =>
    have hnext := ih (hp.2 a (ha _ (by simp))) fun e he => ha e (by simp [he])
    simpa using hnext

/-- Every call of a run is one that the contract allows at its place. -/
theorem Runs.gate {p q : Prog Call Answer ρ} {before after : List (Event Answer)}
    {e : Event Answer} (h : Runs p (before ++ e :: after) q) (hp : p.Meets C post history)
    (ha : ∀ e ∈ before, C.assumes e) : C.gate (history ++ before) e.1 := by
  induction before generalizing p history with
  | nil =>
    cases h with
    | step a h => simpa using hp.1
  | cons e' before ih =>
    cases h with
    | step a h =>
      have hnext := ih h (hp.2 a (ha _ (by simp))) fun e he => ha e (by simp [he])
      simpa using hnext

end Interaction
