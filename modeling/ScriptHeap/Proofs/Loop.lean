/-!
# Loops

* `Loop.Ends`          a loop comes to an end, with a result or a fault;
* `Loop.Ends.unique`   it comes to one end only;
* `Loop.Rounds`        some rounds of a loop, with the states in which they begin;
* `Loop.Rounds.ends`   a loop ends as it does after some rounds.

A round takes a state and gives the next state, the result, or a fault. Nothing bounds the number of
rounds: that a loop ends is a statement about it.
-/

namespace ScriptHeap

namespace Loop

section
variable {σ ε α : Type}

/-- from what a round has given, the loop goes on to its end -/
inductive Ends (step : σ → Except ε (σ ⊕ α)) : Except ε (σ ⊕ α) → Except ε α → Prop
  | fault (e : ε) : Ends step (.error e) (.error e)
  | result (a : α) : Ends step (.ok (.inr a)) (.ok a)
  | next {s : σ} {out : Except ε α} (h : Ends step (step s) out) : Ends step (.ok (.inl s)) out

/-- rounds of a loop from a state to another; the trace lists the states in which they begin -/
inductive Rounds (step : σ → Except ε (σ ⊕ α)) : σ → List σ → σ → Prop
  | here (s : σ) : Rounds step s [] s
  | round {s s' t : σ} {trace : List σ} (hs : step s = .ok (.inl s'))
    (ht : Rounds step s' trace t) : Rounds step s (s :: trace) t

variable {step : σ → Except ε (σ ⊕ α)} {x : Except ε (σ ⊕ α)} {out out' : Except ε α}

/-- a round is a function, so the end is one -/
theorem Ends.unique (h : Ends step x out) (h' : Ends step x out') : out' = out := by
  induction h with
  | fault e =>
    cases h'
    rfl
  | result a =>
    cases h'
    rfl
  | next _ ih =>
    cases h' with
    | next h' => exact ih h'

/-- a loop that is known to end ends so and not otherwise -/
theorem Ends.iff (h : Ends step x out) : Ends step x out' ↔ out' = out :=
  ⟨h.unique, fun heq => heq ▸ h⟩

/-- the loop ends as it does after some rounds -/
theorem Rounds.ends {s t : σ} {trace : List σ} (h : Rounds step s trace t)
    (ht : Ends step (step t) out) : Ends step (step s) out := by
  induction h with
  | here s => exact ht
  | round hs _ ih =>
    rw [hs]
    exact .next (ih ht)

end

end Loop

end ScriptHeap
