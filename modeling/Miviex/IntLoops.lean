import Mathlib.Logic.Function.Basic
import Mathlib.Tactic.Common

/-! Loops over an int counter, up to a bound and down to one. The body may depend on the counter;
the bound is read once. -/
namespace Miviex.IntLoops

variable {σ : Type}

def ascend (body : Int → σ → σ) : Int → Nat → σ → σ
  | _, 0, s => s
  | i, n + 1, s => ascend body (i+1) n (body i s)

def descend (body : Int → σ → σ) : Int → Nat → σ → σ
  | _, 0, s => s
  | i, n + 1, s => descend body (i-1) n (body i s)

def forUp (start stop : Int) (body : Int → σ → σ) (s : σ) : σ := ascend body start (stop-start).toNat s

def forDown (start stop : Int) (body : Int → σ → σ) (s : σ) : σ :=
  descend body start (start+1-stop).toNat s

variable {body : Int → σ → σ} {s : σ} {start stop : Int}

theorem ascendRule (Inv : Int → σ → Prop) {n : Nat}
    (turn : ∀ i s, start ≤ i → i < start+n → Inv i s → Inv (i+1) (body i s)) (entry : Inv start s) :
    Inv (start+n) (ascend body start n s) := by
  induction n generalizing start s with
  | zero => simpa [ascend] using entry
  | succ n ih =>
    have first := turn start s (Int.le_refl _) (by omega) entry
    have rest := ih (fun i s low high => turn i s (by omega) (by push_cast; omega)) first
    have same : start + ((n+1 : Nat) : Int) = start+1+n := by push_cast; omega
    rw [same]
    exact rest

theorem descendRule (Inv : Int → σ → Prop) {n : Nat}
    (turn : ∀ i s, i ≤ start → start - n < i → Inv i s → Inv (i-1) (body i s)) (entry : Inv start s) :
    Inv (start-n) (descend body start n s) := by
  induction n generalizing start s with
  | zero => simpa [descend] using entry
  | succ n ih =>
    have first := turn start s (Int.le_refl _) (by omega) entry
    have rest := ih (fun i s high low => turn i s (by omega) (by push_cast; omega)) first
    have same : start - ((n+1 : Nat) : Int) = start-1-n := by push_cast; omega
    rw [same]
    exact rest

theorem forUpReaches (Inv : Int → σ → Prop) (ordered : start ≤ stop)
    (turn : ∀ i s, start ≤ i → i < stop → Inv i s → Inv (i+1) (body i s)) (entry : Inv start s) :
    Inv stop (forUp start stop body s) := by
  have done : Inv (start + ((stop-start).toNat : Int)) (forUp start stop body s) :=
    ascendRule Inv (fun i s low high => turn i s low (by omega)) entry
  have same : start + ((stop-start).toNat : Int) = stop := by omega
  rw [same] at done
  exact done

theorem forUpEmpty (past : stop ≤ start) : forUp start stop body s = s := by
  have none : (stop-start).toNat = 0 := by omega
  unfold forUp
  rw [none]
  rfl

theorem forUpKeeps (Inv : σ → Prop) (turn : ∀ i s, start ≤ i → i < stop → Inv s → Inv (body i s))
    (entry : Inv s) : Inv (forUp start stop body s) := by
  rcases Int.le_total start stop with ordered | past
  · exact forUpReaches (fun _ => Inv) ordered turn entry
  rw [forUpEmpty past]
  exact entry

theorem forDownKeeps (Inv : σ → Prop) (turn : ∀ i s, i ≤ start → stop ≤ i → Inv s → Inv (body i s))
    (entry : Inv s) : Inv (forDown start stop body s) := by
  exact descendRule (fun _ => Inv) (fun i s high low => turn i s high (by omega)) entry

theorem forUpLast {P : σ → Prop} (entered : start < stop) (last : ∀ s, P (body (stop-1) s)) : P (forUp start stop body s) := by
  refine forUpReaches (fun i s => i = stop → P s) (Int.le_of_lt entered) ?_ (fun wrong => ?_) rfl
  · intro i s _ _ _ arrived
    have same : i = stop-1 := by omega
    rw [same]
    exact last s
  · omega

end Miviex.IntLoops
