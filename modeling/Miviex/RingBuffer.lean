import Mathlib.Data.List.Basic
import Mathlib.Data.Nat.ModEq
import Mathlib.Logic.Function.Basic

/-! A ring buffer in a block of `cap` cells: where the oldest element is and how many there are.
Its meaning is the list of its elements, oldest first. -/
namespace Miviex
open List Nat Function

structure Ring (α : Type) where
  buf : Nat → α
  head : Nat
  len : Nat

namespace Ring

variable {α : Type} (cap : Nat)

def contents (r : Ring α) : List α := (List.range r.len).map (fun i => r.buf ((r.head+i) % cap))

def push (r : Ring α) (x : α) : Ring α :=
  {r with buf := update r.buf ((r.head+r.len) % cap) x, len := r.len + 1}

def fill : Ring α → List α → Ring α × List α
  | r, [] => (r,[])
  | r, x::rest => if r.len < cap then fill (r.push cap x) rest else (r,x::rest)

def peek (r : Ring α) (k : Nat) : List α := (List.range k).map (fun i => r.buf ((r.head+i) % cap))

def drop (r : Ring α) (k : Nat) : Ring α := {r with head := (r.head+k) % cap, len := r.len - k}

/- A full ring drops its oldest element. -/
def record (r : Ring α) (x : α) : Ring α :=
  let buf := update r.buf ((r.head+r.len) % cap) x
  if r.len < cap then ⟨buf,r.head,r.len+1⟩ else ⟨buf,(r.head+1) % cap,r.len⟩

def Newest (r : Ring α) (all : List α) : Prop := r.contents cap = all.drop (all.length-cap)

variable {cap}

theorem contentsLength (r : Ring α) : (r.contents cap).length = r.len := by simp [contents]

theorem contentsPush {r : Ring α} (room : r.len < cap) (x : α) : (r.push cap x).contents cap = r.contents cap ++ [x] := by
  unfold contents push
  dsimp only
  rw [range_succ,map_append,map_singleton,update_self]
  congr 1
  refine map_congr_left (fun i inside => ?_)
  have below : i < r.len := mem_range.mp inside
  refine update_of_ne (fun same => ?_) x r.buf
  -- two offsets less than `cap` apart are different cells
  have differ : (r.head+r.len) % cap ≠ (r.head+i) % cap := by
    intro equal
    have congruent : Nat.ModEq cap (r.head+i) (r.head+r.len) := equal.symm
    have offsets := Nat.ModEq.add_left_cancel' r.head congruent
    have exact_ : i % cap = r.len % cap := offsets
    rw [mod_eq_of_lt (by omega),mod_eq_of_lt room] at exact_
    omega
  exact differ same.symm

theorem fillSpec (r : Ring α) (xs : List α) (bounded : r.len ≤ cap) :
    (r.fill cap xs).1.contents cap = r.contents cap ++ xs.take (cap-r.len) ∧ (r.fill cap xs).2 = xs.drop (cap-r.len) ∧
    (r.fill cap xs).1.len = r.len + (xs.take (cap-r.len)).length := by
  induction xs generalizing r with
  | nil => simp [fill]
  | cons x rest ih =>
  unfold fill
  split
  · rename_i room
    have pushed : (r.push cap x).len = r.len+1 := rfl
    obtain ⟨contents_,left,length⟩ := ih (r.push cap x) (by omega)
    have shift : cap-r.len = (cap - (r.len+1)) + 1 := by omega
    rw [contents_,left,length,pushed,contentsPush room,shift,take_succ_cons,drop_succ_cons]
    refine ⟨by simp,rfl,?_⟩
    simp only [length_cons]
    omega
  rename_i full
  have none_ : cap-r.len = 0 := by omega
  simp [none_]

theorem peekTake {r : Ring α} {k} (inside : k ≤ r.len) : r.peek cap k = (r.contents cap).take k := by
  unfold peek contents
  rw [← map_take,take_range,min_eq_left inside]

theorem contentsDrop (r : Ring α) (k) : (r.drop cap k).contents cap = (r.contents cap).drop k := by
  refine ext_getElem ?_ (fun i first second => ?_)
  · simp [contents,drop]
  simp only [contents,drop,getElem_map,getElem_range,getElem_drop]
  rw [mod_add_mod,add_assoc]

theorem peekDrop {r : Ring α} {k} (inside : k ≤ r.len) : r.peek cap k ++ (r.drop cap k).contents cap = r.contents cap := by
  rw [peekTake inside,contentsDrop,take_append_drop]

theorem fillRest (r : Ring α) (xs : List α) : xs.take (xs.length - (r.fill cap xs).2.length) ++ (r.fill cap xs).2 = xs := by
  have suffix : (r.fill cap xs).2 <:+ xs := by
    induction xs generalizing r with
    | nil => exact suffix_rfl
    | cons x rest ih =>
      unfold fill
      split
      · exact (ih _).trans (suffix_cons x rest)
      · exact suffix_rfl
  exact (congrArg _ (suffix_iff_eq_drop.mp suffix)).trans (take_append_drop ..)

theorem fillTaken (r : Ring α) (xs : List α) (bounded : r.len ≤ cap) :
    xs.take (xs.length - (r.fill cap xs).2.length) = xs.take (cap-r.len) := by
  rw [(fillSpec r xs bounded).2.1,length_drop]
  by_cases fits : xs.length ≤ cap-r.len
  · rw [take_of_length_le fits,take_of_length_le (by omega)]
  congr 1
  omega

theorem Newest.length {r : Ring α} {all} (newest : r.Newest cap all) : r.len = min all.length cap := by
  rw [← contentsLength r,newest,length_drop]
  omega

theorem Newest.record {r : Ring α} {all} (newest : r.Newest cap all) (some_ : 0 < cap) (x : α) :
    (r.record cap x).Newest cap (all ++ [x]) := by
  have length := newest.length
  unfold Newest Ring.record at *
  rw [length_append,length_singleton]
  split
  · rename_i room
    rw [show all.length-cap = 0 by omega] at newest
    rw [show all.length+1-cap = 0 by omega]
    exact (contentsPush room x).trans (congrArg (· ++ [x]) newest)
  · have full : r.len = cap := by omega
    have place : (r.head+1) % cap + (r.len-1) ≡ r.head+r.len [MOD cap] := by
      rw [show r.head+r.len = r.head+1+(r.len-1) by omega]
      exact (mod_modEq _ _).add_right _
    have shape : ⟨update r.buf ((r.head+r.len) % cap) x,(r.head+1) % cap,r.len⟩ = (r.drop cap 1).push cap x := by
      unfold Ring.drop push
      rw [place,Nat.sub_add_cancel (by omega)]
    have room : (r.drop cap 1).len < cap := by
      show r.len-1 < cap
      omega
    rw [shape,contentsPush room,contentsDrop,newest,drop_drop,drop_append_of_le_length (by omega)]
    congr 2
    omega

theorem Newest.recorded {r : Ring α} {all} (newest : r.Newest cap all) (some_ : 0 < cap) (xs : List α) :
    (xs.foldl (Ring.record cap) r).Newest cap (all ++ xs) := by
  induction xs generalizing r all with
  | nil => simpa using newest
  | cons x rest ih => simpa using ih (newest.record some_ x)

end Ring
end Miviex
