import Mathlib.Data.Set.Card
import Mathlib.Logic.Function.Basic

/-! Reference counts. Slots name objects; an object's count is the number of slots that name it.
Filling and clearing one slot moves the count by one. -/
namespace Miviex.References
open Function (update update_of_ne update_self)

variable {ι α : Type}

structure Counts (slot : ι → Option α) (refs : α → Nat) : Prop where
  finite : {i | slot i ≠ none}.Finite
  equal : ∀ a, refs a = {i | slot i = some a}.ncard

variable {slot : ι → Option α} {refs : α → Nat} {i : ι} {a : α}

theorem Counts.empty : Counts (fun _ : ι => (none : Option α)) (fun _ => 0) := by
  refine ⟨?_,fun a => ?_⟩
  · simp
  · simp

theorem Counts.namedFinite (counts : Counts slot refs) (a : α) : {i | slot i = some a}.Finite := by
  refine counts.finite.subset (fun i named => ?_)
  simp only [Set.mem_ofPred_eq] at named ⊢
  rw [named]
  simp

theorem Counts.positive (counts : Counts slot refs) (named : slot i = some a) : 0 < refs a := by
  rw [counts.equal a]
  exact (Set.ncard_pos (counts.namedFinite a)).mpr ⟨i,named⟩

variable [DecidableEq ι] [DecidableEq α]

theorem Counts.fill (counts : Counts slot refs) (empty : slot i = none) (a : α) :
    Counts (update slot i (some a)) (update refs a (refs a + 1)) := by
  refine ⟨(counts.finite.insert i).subset (fun j used => ?_),fun b => ?_⟩
  · by_cases same : j = i
    · exact .inl same
    · exact .inr (by simpa [same] using used)
  by_cases same : b = a
  · subst same
    have grown : {j | update slot i (some b) j = some b} = insert i {j | slot j = some b} := by
      ext j
      by_cases here : j = i
      · simp [here]
      · simp [here]
    rw [grown,Set.ncard_insert_of_notMem (by simp [empty]) (counts.namedFinite b),← counts.equal b]
    simp
  have kept : {j | update slot i (some a) j = some b} = {j | slot j = some b} := by
    ext j
    by_cases here : j = i
    · simp [here,empty,Ne.symm same]
    · simp [here]
  rw [kept,update_of_ne same]
  exact counts.equal b

theorem Counts.clear (counts : Counts slot refs) (named : slot i = some a) :
    Counts (update slot i none) (update refs a (refs a - 1)) := by
  refine ⟨counts.finite.subset (fun j used => ?_),fun b => ?_⟩
  · by_cases same : j = i
    · simp [same] at used
    · simpa [same] using used
  by_cases same : b = a
  · subst same
    have shrunk : {j | update slot i none j = some b} = {j | slot j = some b} \ {i} := by
      ext j
      by_cases here : j = i
      · simp [here]
      · simp [here]
    have member : i ∈ {j | slot j = some b} := named
    rw [shrunk,Set.ncard_sdiff_singleton_of_mem member,← counts.equal b]
    simp
  have kept : {j | update slot i none j = some b} = {j | slot j = some b} := by
    ext j
    by_cases here : j = i
    · simp [here,named,Ne.symm same]
    · simp [here]
  rw [kept,update_of_ne same]
  exact counts.equal b

theorem Counts.move {j} (counts : Counts slot refs) (named : slot i = some a) (empty : slot j = none) :
    Counts (update (update slot i none) j (some a)) refs := by
  have apart : j ≠ i := by
    rintro rfl
    rw [named] at empty
    cases empty
  have filled := (counts.clear named).fill (i := j) (by rw [update_of_ne apart]; exact empty) a
  have positive := counts.positive named
  have same : update (update refs a (refs a - 1)) a (update refs a (refs a - 1) a + 1) = refs := by
    funext b
    by_cases here : b = a
    · subst here
      simp only [update_self]
      omega
    · simp [here]
  rwa [same] at filled

end Miviex.References
