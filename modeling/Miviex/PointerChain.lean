import Mathlib.Data.List.Nodup
import Mathlib.Data.List.Perm.Subperm
import Mathlib.Logic.Function.Basic

/-! Singly linked lists in a heap. A chain is the list of nodes met by following one pointer field;
loops over it have fuel and give no answer where the program's would not end. Several lists that
share the field are threads. -/
namespace Miviex.PointerChain
open List
open Function (update update_of_ne update_self)

variable {α κ : Type}

def Chain (next : α → Option α) : Option α → List α → Prop
  | head, [] => head = none
  | head, x::rest => head = some x ∧ Chain next (next x) rest

def search (next : α → Option α) (wanted : α → Bool) : Nat → Option α → Option (Option α)
  | _, none => some none
  | 0, some _ => none
  | fuel + 1, some x => if wanted x then some (some x) else search next wanted fuel (next x)

def collect (next : α → Option α) : Nat → Option α → Option (List α)
  | _, none => some []
  | 0, some _ => none
  | fuel + 1, some x => (collect next fuel (next x)).map (x::·)

def last (next : α → Option α) : Nat → α → Option α
  | 0, _ => none
  | fuel + 1, x => match next x with
    | none => some x
    | some y => last next fuel y

/- The node whose pointer leads to `x`, none inside when the head itself does. Running
off the end of the list is a fault of the caller. -/
def before [DecidableEq α] (next : α → Option α) (x : α) :
    Nat → Option α → Option α → Option (Option α)
  | 0, _, _ => none
  | _ + 1, _, none => none
  | fuel + 1, previous, some y => if y = x then some previous else before next x fuel (some y) (next y)

variable {next next' : α → Option α} {head : Option α} {nodes : List α} {x : α}

theorem chainCongr (same : ∀ x ∈ nodes, next' x = next x) (chain : Chain next head nodes) : Chain next' head nodes := by
  induction nodes generalizing head with
  | nil => exact chain
  | cons x rest ih =>
    obtain ⟨first,tail⟩ := chain
    have inRest y (h : y ∈ rest) : next' y = next y := same y (mem_cons_of_mem x h)
    refine ⟨first,?_⟩
    rw [same x mem_cons_self]
    exact ih inRest tail

theorem chainHeadNone (chain : Chain next none nodes) : nodes = [] := by
  cases nodes with
  | nil => rfl
  | cons x rest => cases chain.1

theorem chainEmpty (chain : Chain next head []) : head = none := chain

theorem chainUnique {others} (first : Chain next head nodes) (second : Chain next head others) : nodes = others := by
  induction nodes generalizing head others with
  | nil =>
    cases first
    exact (chainHeadNone second).symm
  | cons x rest ih =>
  obtain ⟨here,tail⟩ := first
  subst here
  cases others with
  | nil => cases second
  | cons y more =>
    obtain ⟨there,remaining⟩ := second
    cases there
    rw [ih tail remaining]

theorem chainFrom {front back} (chain : Chain next head (front ++ x::back)) : Chain next (some x) (x::back) := by
  induction front generalizing head with
  | nil => exact ⟨rfl,chain.2⟩
  | cons y rest ih => exact ih chain.2

theorem chainNodup (chain : Chain next head nodes) : nodes.Nodup := by
  induction nodes generalizing head with
  | nil => exact nodup_nil
  | cons x rest ih =>
  refine nodup_cons.mpr ⟨?_,ih chain.2⟩
  intro again
  obtain ⟨front,back,split⟩ := append_of_mem again
  have later : Chain next (next x) rest := chain.2
  rw [split] at later
  have same := chainUnique later (chainFrom later).2
  have lengths := congrArg List.length same
  simp only [length_append,length_cons] at lengths
  omega

theorem chainSplice {front back tail} (same : ∀ y ∈ front, next' y = next y) (chain : Chain next head (front ++ x::back))
    (onward : Chain next' (next' x) tail) : Chain next' head (front ++ x::tail) := by
  induction front generalizing head with
  | nil => exact ⟨chain.1,onward⟩
  | cons y rest ih =>
    obtain ⟨first,later⟩ := chain
    refine ⟨first,?_⟩
    rw [same y mem_cons_self]
    exact ih (fun z h => same z (mem_cons_of_mem y h)) later

section

variable (chain : Chain next head nodes)
include chain

theorem chainBounded {pool : List α} (inside : ∀ x ∈ nodes, x ∈ pool) :
    nodes.length ≤ pool.length :=
  ((chainNodup chain).subperm inside).length_le

theorem searchChain {wanted fuel} (enough : nodes.length ≤ fuel) :
    search next wanted fuel head = some (nodes.find? wanted) := by
  induction nodes generalizing head fuel with
  | nil => cases chain; cases fuel <;> rfl
  | cons x rest ih =>
  obtain ⟨first,tail⟩ := chain
  subst first
  cases fuel with
  | zero => simp at enough
  | succ fuel =>
    have shorter : rest.length ≤ fuel := by simpa using enough
    unfold search
    cases hit : wanted x with
    | true => simp [hit]
    | false => simpa [hit] using ih tail shorter

theorem collectChain {fuel} (enough : nodes.length ≤ fuel) :
    collect next fuel head = some nodes := by
  induction nodes generalizing head fuel with
  | nil => cases chain; cases fuel <;> rfl
  | cons x rest ih =>
    obtain ⟨first,tail⟩ := chain
    subst first
    cases fuel with
    | zero => simp at enough
    | succ fuel =>
      have shorter : rest.length ≤ fuel := by simpa using enough
      simp [collect,ih tail shorter]

end

theorem lastChain {fuel rest} (chain : Chain next (some x) (x::rest)) (enough : rest.length < fuel) :
    last next fuel x = (x::rest).getLast? := by
  induction rest generalizing x fuel with
  | nil =>
    cases fuel with
    | zero => omega
    | succ fuel => unfold last; rw [chainEmpty chain.2]; rfl
  | cons y more ih =>
  cases fuel with
  | zero => omega
  | succ fuel =>
    have shorter : more.length < fuel := by simpa using enough
    have onward : next x = some y := chain.2.1
    unfold last
    rw [onward,List.getLast?_cons_cons]
    exact ih ⟨rfl,chain.2.2⟩ shorter

theorem frontApart {front back} (distinct : (front ++ x::back).Nodup) :
    (∀ y ∈ front, y ≠ x ∧ y ∉ back) ∧ ∀ y ∈ back, y ≠ x := by
  simp only [nodup_append,nodup_cons] at distinct
  obtain ⟨_,⟨notBack,_⟩,disjoint⟩ := distinct
  refine ⟨fun y member => ⟨disjoint y member x mem_cons_self,?_⟩,?_⟩
  · intro again
    exact disjoint y member y (mem_cons_of_mem x again) rfl
  intro y member same
  exact notBack (same ▸ member)

theorem chainSnoc {head'} (chain : Chain next head nodes) (ends : next' x = none) (alone : nodes = [] → head' = some x)
    (hooked : ∀ y, nodes.getLast? = some y → head' = head ∧ next' y = some x)
    (same : ∀ y ∈ nodes, nodes.getLast? ≠ some y → next' y = next y) : Chain next' head' (nodes ++ [x]) := by
  rcases eq_nil_or_concat nodes with empty | ⟨front,y,split⟩
  · subst empty
    exact ⟨alone rfl,ends⟩
  have distinct := chainNodup chain
  subst split
  simp only [concat_eq_append] at *
  obtain ⟨kept,link⟩ := hooked y (by simp)
  rw [kept,append_assoc]
  refine chainSplice (fun z member => same z (by simp [member]) ?_) chain ?_
  · intro final
    have isLast : y = z := by simpa using final
    exact ((frontApart distinct).1 z member).1 isLast.symm
  rw [link]
  exact ⟨rfl,ends⟩

structure Threads (next : α → Option α) (head : κ → Option α) (items : κ → List α) : Prop where
  chain : ∀ k, Chain next (head k) (items k)
  apart : ∀ j k x, x ∈ items j → x ∈ items k → j = k

theorem threadsCongr {head head'} {items : κ → List α}
    (threads : Threads next head items) (same : ∀ k, ∀ x ∈ items k, next' x = next x)
    (heads : ∀ k, head' k = head k) : Threads next' head' items := by
  refine ⟨?_,threads.apart⟩
  intro k
  rw [heads k]
  exact chainCongr (same k) (threads.chain k)

variable [DecidableEq κ]

theorem threadsPush {head head' items} {k : κ} (threads : Threads next head items) (fresh : ∀ j, x ∉ items j)
    (ends : next' x = none) (alone : items k = [] → head' k = some x)
    (hooked : ∀ y, (items k).getLast? = some y → head' k = head k ∧ next' y = some x)
    (same : ∀ j, ∀ y ∈ items j, (items k).getLast? ≠ some y → next' y = next y)
    (others : ∀ j, j ≠ k → head' j = head j) : Threads next' head' (update items k (items k ++ [x])) := by
  constructor
  · intro j
    by_cases here : j = k
    · subst here
      rw [update_self]
      exact chainSnoc (threads.chain j) ends alone hooked (same j)
    rw [update_of_ne here,others j here]
    refine chainCongr (fun y member => same j y member ?_) (threads.chain j)
    intro final
    exact here (threads.apart j k y member (mem_of_getLast? final))
  intro i j y inI inJ
  by_cases first : i = k <;> by_cases second : j = k
  · rw [first,second]
  · subst first
    rw [update_self,mem_append,mem_singleton] at inI
    rw [update_of_ne second] at inJ
    rcases inI with old | new
    · exact threads.apart i j y old inJ
    · subst new; exact absurd inJ (fresh j)
  · subst second
    rw [update_self,mem_append,mem_singleton] at inJ
    rw [update_of_ne first] at inI
    rcases inJ with old | new
    · exact threads.apart i j y inI old
    · subst new; exact absurd inI (fresh i)
  rw [update_of_ne first] at inI
  rw [update_of_ne second] at inJ
  exact threads.apart i j y inI inJ

end Miviex.PointerChain
