import Mathlib.Data.List.Nodup
import Mathlib.Logic.Function.Basic

/-! Intrusive doubly linked queues. The links live in the nodes, so several queues share the two
link functions; a queue is described by the list of its nodes. -/
namespace Miviex.LinkedQueue
open List
open Function (update update_comm)

variable {α : Type}

def Linked (next prev : α → Option α) : Option α → List α → Prop
  | _, [] => True
  | before, x::rest => prev x = before ∧ next x = rest.head? ∧ Linked next prev (some x) rest

structure Queue (next prev : α → Option α) (head tail : Option α) (nodes : List α) : Prop where
  distinct : nodes.Nodup
  first : head = nodes.head?
  last : tail = nodes.getLast?
  links : Linked next prev none nodes

variable {next prev : α → Option α} {nodes : List α} {tail : Option α} {x : α}

theorem linkedCongr {next' prev' before} (sameNext : ∀ x ∈ nodes, next' x = next x) (samePrev : ∀ x ∈ nodes, prev' x = prev x)
    (linked : Linked next prev before nodes) : Linked next' prev' before nodes := by
  induction nodes generalizing before with
  | nil => trivial
  | cons x rest ih =>
    obtain ⟨back,forth,tail⟩ := linked
    have inNext y (h : y ∈ rest) : next' y = next y := sameNext y (mem_cons_of_mem x h)
    have inPrev y (h : y ∈ rest) : prev' y = prev y := samePrev y (mem_cons_of_mem x h)
    exact ⟨(samePrev x mem_cons_self).trans back,(sameNext x mem_cons_self).trans forth,ih inNext inPrev tail⟩

theorem queueCongr {next' prev' head} (sameNext : ∀ x ∈ nodes, next' x = next x) (samePrev : ∀ x ∈ nodes, prev' x = prev x)
    (queue : Queue next prev head tail nodes) : Queue next' prev' head tail nodes :=
  ⟨queue.distinct,queue.first,queue.last,linkedCongr sameNext samePrev queue.links⟩

theorem emptyQueue (next prev : α → Option α) : Queue next prev none none [] := ⟨nodup_nil,rfl,rfl,trivial⟩

theorem queueHeadNone (queue : Queue next prev none tail nodes) : nodes = [] := by
  cases nodes with
  | nil => rfl
  | cons x rest => simpa using queue.first

theorem queueHeadSome (queue : Queue next prev (some x) tail nodes) : ∃ rest, nodes = x::rest := by
  cases nodes with
  | nil => simpa using queue.first
  | cons y rest =>
    have same : x = y := by simpa using queue.first
    exact ⟨rest,by rw [same]⟩

variable [DecidableEq α]

/- Writing only the `next` link of the last node and the links of the new node
extends the chain; the induction carries the node before the remaining list. -/
theorem linkedSnoc {before} (fresh : x ∉ nodes) (distinct : nodes.Nodup) (linked : Linked next prev before nodes) :
    Linked (update (match nodes.getLast? with
        | some t => update next t (some x)
        | none => next) x none)
      (update prev x (match nodes.getLast? with
        | some t => some t
        | none => before)) before (nodes ++ [x]) := by
  induction nodes generalizing before with
  | nil => simp [Linked]
  | cons y rest ih =>
  obtain ⟨back,forth,tail⟩ := linked
  have yx : y ≠ x := fun same => fresh (by simp [same])
  have fresh' : x ∉ rest := fun h => fresh (mem_cons_of_mem y h)
  obtain ⟨yrest,distinct'⟩ := nodup_cons.mp distinct
  cases rest with
  | nil => simp [Linked,back,yx]
  | cons z zs =>
    have step := ih fresh' distinct' tail
    have lastRest : (y::z::zs).getLast? = (z::zs).getLast? := by simp
    obtain ⟨t,atLast⟩ : ∃ t, (z::zs).getLast? = some t := ⟨_,List.getLast?_eq_some_getLast (by simp)⟩
    have yt : y ≠ t := fun same => yrest (by rw [same]; exact mem_of_getLast? atLast)
    simp only [lastRest,atLast] at step ⊢
    refine ⟨by simp [yx,back],by simp [yx,yt,forth],step⟩

theorem queuePush {head} (fresh : x ∉ nodes) (queue : Queue next prev head tail nodes) : Queue
    (tail.elim (update next x none) (fun t => update (update next x none) t (some x)))
    (update prev x tail) (tail.elim (some x) (fun _ => head)) (some x) (nodes ++ [x]) := by
  have linked := linkedSnoc fresh queue.distinct queue.links
  have distinct : (nodes ++ [x]).Nodup := by
    simp only [nodup_append,nodup_singleton,queue.distinct,true_and]
    intro a inside b single same
    exact fresh (by rw [← mem_singleton.mp single,← same]; exact inside)
  have last := queue.last
  cases atLast : nodes.getLast? with
  | none =>
    have empty : nodes = [] := List.getLast?_eq_none_iff.mp atLast
    subst last
    subst empty
    exact ⟨distinct,rfl,rfl,by simpa using linked⟩
  | some t =>
  rw [atLast] at last
  subst last
  have tx : t ≠ x := fun same => fresh (by rw [← same]; exact mem_of_getLast? atLast)
  simp only [atLast] at linked
  refine ⟨distinct,?_,by simp,?_⟩
  · have nonempty : nodes ≠ [] := by rintro rfl; simp at atLast
    cases nodes with
    | nil => exact absurd rfl nonempty
    | cons y rest => simpa using queue.first
  rw [update_comm tx] at linked
  exact linked

theorem queuePop {rest} (queue : Queue next prev (some x) tail (x::rest)) : next x = rest.head? ∧
    Queue (update next x none) (update (match rest.head? with
        | some y => update prev y none
        | none => prev) x none)
      rest.head? (match rest.head? with | some _ => tail | none => none) rest := by
  obtain ⟨_,forth,linked⟩ := queue.links
  obtain ⟨outside,distinct⟩ := nodup_cons.mp queue.distinct
  refine ⟨forth,distinct,rfl,?_,?_⟩
  · cases rest with
    | nil => rfl
    | cons y ys => simpa using queue.last
  cases rest with
  | nil => trivial
  | cons y ys =>
  obtain ⟨_,onward,linked'⟩ := linked
  obtain ⟨youtside,_⟩ := nodup_cons.mp distinct
  have yx : y ≠ x := fun same => outside (by simp [same])
  have others z (inside : z ∈ ys) : z ≠ x ∧ z ≠ y :=
    ⟨fun same => outside (by rw [← same]; exact mem_cons_of_mem y inside),
      fun same => youtside (by rw [← same]; exact inside)⟩
  refine ⟨by simp [yx],by simp [yx,onward],linkedCongr ?_ ?_ linked'⟩
  · intro z inside; simp [(others z inside).1]
  · intro z inside; simp [(others z inside).1,(others z inside).2]

end Miviex.LinkedQueue
