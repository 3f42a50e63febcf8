import Mathlib.Logic.Basic

/-! Calls that run in passes over a shared state: a pass ends with a result, or with what the
call keeps while it sleeps. Between two passes of a call the state may become any other. -/
namespace Miviex.Resumable

structure Pass (S L R : Type) where
  state : S
  next : R ⊕ L

variable {S L R : Type}

/- A whole call: the state before and after each of its passes, and its result. -/
inductive Execution (pass : S → L → Pass S L R) : L → List (S × S) → R → Prop where
  | returns (s : S) (l : L) (r : R) : (pass s l).next = .inl r → Execution pass l [(s,(pass s l).state)] r
  | sleeps (s : S) (l kept : L) (rest : List (S × S)) (r : R) : (pass s l).next = .inr kept →
      Execution pass kept rest r → Execution pass l ((s,(pass s l).state)::rest) r

/- A pass that stops, or sleeps with nothing done, is known to have had nothing done before
and to have changed nothing; so has a whole call that ends with a stop. -/
theorem Execution.untouched {pass} {same : S → S → Prop} {fresh : L → Prop} {stop : R → Prop}
    (returning : ∀ s l r, (pass s l).next = .inl r → stop r → fresh l ∧ same s (pass s l).state)
    (sleeping : ∀ s l kept, (pass s l).next = .inr kept → fresh kept → fresh l ∧ same s (pass s l).state)
    {l} {passes} {r} (run : Execution pass l passes r) (stops : stop r) : fresh l ∧ ∀ p ∈ passes, same p.1 p.2 := by
  induction run with
  | returns s l r result =>
    obtain ⟨new,unchanged⟩ := returning s l r result stops
    refine ⟨new,fun p member => ?_⟩
    cases List.mem_singleton.mp member
    exact unchanged
  | sleeps s l kept rest r next _ ih =>
    obtain ⟨newKept,later⟩ := ih stops
    obtain ⟨new,unchanged⟩ := sleeping s l kept next newKept
    refine ⟨new,fun p member => ?_⟩
    rcases List.mem_cons.mp member with first | after
    · cases first
      exact unchanged
    · exact later p after

end Miviex.Resumable
