import Mathlib.Logic.Basic

/-! Finite runs of a partial step function; a refused step ends the run. A defect is described
by the steps that take it, so that one run lemma gives both directions of a safety statement. -/
namespace Miviex.Runs
open List

variable {σ ε : Type} (step : σ → ε → Option σ)

def run : σ → List ε → Option σ
  | s, [] => some s
  | s, e::rest => (step s e).bind (fun next => run next rest)

def visited : σ → List ε → List σ
  | s, [] => [s]
  | s, e::rest => s::match step s e with
    | some next => visited next rest
    | none => []

def moves : σ → List ε → List (σ × ε)
  | _, [] => []
  | s, e::rest => match step s e with
    | some next => (s,e)::moves next rest
    | none => []

variable {step}

theorem runAppend (s : σ) (before after : List ε) :
    run step s (before ++ after) = (run step s before).bind (fun t => run step t after) := by
  induction before generalizing s with
  | nil => rfl
  | cons e rest ih =>
    cases h : step s e with
    | none => simp [run,h]
    | some next => simpa [run,h] using ih next

theorem runInvariant {Inv : σ → Prop} (preserved : ∀ s e t, Inv s → step s e = some t → Inv t) {s t events}
    (start : Inv s) (reached : run step s events = some t) : Inv t := by
  induction events generalizing s with
  | nil => cases reached; exact start
  | cons e rest ih =>
    simp only [run,Option.bind_eq_some_iff] at reached
    obtain ⟨next,taken,tail⟩ := reached
    exact ih (preserved s e next start taken) tail

theorem visitedStart (s : σ) (events : List ε) : s ∈ visited step s events := by
  cases events <;> simp [visited]

theorem visitedLast {s t events} (reached : run step s events = some t) : t ∈ visited step s events := by
  induction events generalizing s with
  | nil => cases reached; exact visitedStart _ []
  | cons e rest ih =>
    simp only [run,Option.bind_eq_some_iff] at reached
    obtain ⟨next,taken,tail⟩ := reached
    simp only [visited,taken]
    exact mem_cons_of_mem _ (ih tail)

theorem visitedShows {β : Type} {f : σ → β} {v s events} (ended : (run step s events).map f = some v) :
    ∃ t ∈ visited step s events, f t = v := by
  obtain ⟨t,reached,shown⟩ := Option.map_eq_some_iff.mp ended
  exact ⟨t,visitedLast reached,shown⟩

theorem visitedInvariant {Inv : σ → Prop} {Bad : σ → ε → Prop}
    (preserved : ∀ s e t, Inv s → ¬ Bad s e → step s e = some t → Inv t) {s} {events} (start : Inv s)
    (avoided : ∀ m ∈ moves step s events, ¬ Bad m.1 m.2) : ∀ t ∈ visited step s events, Inv t := by
  induction events generalizing s with
  | nil => intro t member; cases mem_singleton.mp member; exact start
  | cons e rest ih =>
  intro t member
  rcases mem_cons.mp member with same | later
  · subst t; exact start
  cases taken : step s e with
  | none => simp [taken] at later
  | some next =>
    simp only [taken] at later
    simp only [moves,taken,forall_mem_cons] at avoided
    exact ih (preserved s e next start avoided.1 taken) avoided.2 t later

theorem visitedAlways {Inv : σ → Prop} (preserved : ∀ s e t, Inv s → step s e = some t → Inv t)
    {s} {events} (start : Inv s) : ∀ t ∈ visited step s events, Inv t :=
  visitedInvariant (fun s e t good (_ : ¬ False) taken => preserved s e t good taken) start (fun _ _ => not_false)

theorem movesEvent {s events} : ∀ m ∈ moves step s events, m.2 ∈ events := by
  induction events generalizing s with
  | nil => simp [moves]
  | cons e rest ih =>
    cases taken : step s e with
    | none => simp [moves,taken]
    | some next =>
      simp only [moves,taken,forall_mem_cons]
      exact ⟨mem_cons_self,fun m member => mem_cons_of_mem e (ih m member)⟩

theorem movesInvariant {Inv : σ → Prop} (preserved : ∀ s e t, Inv s → step s e = some t → Inv t) {s events}
    (start : Inv s) : ∀ m ∈ moves step s events, Inv m.1 ∧ ∃ t, step m.1 m.2 = some t := by
  induction events generalizing s with
  | nil => simp [moves]
  | cons e rest ih =>
    cases taken : step s e with
    | none => simp [moves,taken]
    | some next =>
      simp only [moves,taken,forall_mem_cons]
      exact ⟨⟨start,next,rfl⟩,ih (preserved s e next start taken)⟩

theorem visitedViolation {Inv P : σ → Prop} {Bad : σ → ε → Prop}
    (preserved : ∀ s e t, Inv s → ¬ Bad s e → step s e = some t → Inv t)
    (broken : ∀ s e t, Inv s → Bad s e → step s e = some t → ¬ P t) {s} {events} (start : Inv s)
    (taken : ∃ m ∈ moves step s events, Bad m.1 m.2) : ∃ t ∈ visited step s events, ¬ P t := by
  induction events generalizing s with
  | nil => simp [moves] at taken
  | cons e rest ih =>
  cases move : step s e with
  | none => simp [moves,move] at taken
  | some next =>
  simp only [moves,move,mem_cons,exists_eq_or_imp] at taken
  by_cases bad : Bad s e
  · refine ⟨next,?_,broken s e next start bad move⟩
    simp only [visited,move]
    exact mem_cons_of_mem _ (visitedStart next rest)
  obtain ⟨t,member,wrong⟩ := ih (preserved s e next start bad move) (taken.resolve_left bad)
  exact ⟨t,by simp only [visited,move]; exact mem_cons_of_mem _ member,wrong⟩

/- The condition on steps is exact: the first bad step is taken in a good state
and its result already violates the property. -/
theorem visitedIff {Inv P : σ → Prop} {Bad : σ → ε → Prop} (sound : ∀ s, Inv s → P s)
    (preserved : ∀ s e t, Inv s → ¬ Bad s e → step s e = some t → Inv t)
    (broken : ∀ s e t, Inv s → Bad s e → step s e = some t → ¬ P t) {s} {events} (start : Inv s) :
    (∀ t ∈ visited step s events, P t) ↔ ∀ m ∈ moves step s events, ¬ Bad m.1 m.2 := by
  constructor
  · intro safe m member bad
    obtain ⟨t,reached,wrong⟩ := visitedViolation preserved broken start ⟨m,member,bad⟩
    exact wrong (safe t reached)
  intro avoided t reached
  exact sound t (visitedInvariant preserved start avoided t reached)

theorem guardSome {σ : Type} {guard} [Decidable guard] {answer} {t : σ}
    (taken : (if guard then answer else none) = some t) : guard ∧ answer = some t := by
  by_cases meets : guard
  · rw [if_pos meets] at taken
    exact ⟨meets,taken⟩
  rw [if_neg meets] at taken
  cases taken

theorem guardedRun {Guard : σ → ε → Prop} [∀ s e, Decidable (Guard s e)] {s events}
    (kept : ∀ m ∈ moves step s events, Guard m.1 m.2) :
    visited (fun s e => if Guard s e then step s e else none) s events = visited step s events ∧
    moves (fun s e => if Guard s e then step s e else none) s events = moves step s events := by
  induction events generalizing s with
  | nil => exact ⟨rfl,rfl⟩
  | cons e rest ih =>
    cases taken : step s e with
    | none => simp [visited,moves,taken]
    | some next =>
      simp only [moves,taken,forall_mem_cons] at kept
      obtain ⟨visits,same⟩ := ih kept.2
      simp only [visited,moves,taken,if_pos kept.1,visits,same,and_self]

end Miviex.Runs
