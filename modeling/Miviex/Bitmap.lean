import Mathlib.Data.BitVec
import Mathlib.Data.Finset.Card
import Mathlib.Order.Interval.Finset.Nat
import Mathlib.Logic.Function.Basic

/-! A bitmap in an array of bytes, read as the finite set of its members, and the search
for the first run of numbers that are not in it. -/
namespace Miviex.Bitmap
open List Bool Nat BitVec

abbrev Bytes := Nat → BitVec 8

def mask (i : Nat) : BitVec 8 := 1#8 <<< (i % 8)

def test (b : Bytes) (i : Nat) : Bool := (b (i / 8) &&& mask i) != 0

def set (b : Bytes) (i : Nat) : Bytes := Function.update b (i / 8) (b (i / 8) ||| mask i)

def clear (b : Bytes) (i : Nat) : Bytes := Function.update b (i / 8) (b (i / 8) &&& ~~~mask i)

theorem testBit (b i) : test b i = (b (i / 8)).getLsbD (i % 8) := by
  have small : i % 8 < 8 := mod_lt i (by decide)
  unfold test mask
  rw [← twoPow_eq,and_twoPow]
  split
  · rename_i on
    rw [on,bne_iff_ne]
    intro zero
    have bit := congrArg (fun x => x.getLsbD (i % 8)) zero
    simp [small] at bit
  rename_i off
  simpa using off

theorem maskBit (i j) : (mask i).getLsbD (j % 8) = decide (i % 8 = j % 8) := by
  unfold mask
  rw [← twoPow_eq,getLsbD_twoPow]
  simp only [and_eq_right_iff_imp,decide_eq_true_eq]
  intro _
  omega

theorem samePlace {i j} (byte : j / 8 = i / 8) : i % 8 = j % 8 ↔ i = j := by omega

theorem testSet (b i j) : test (set b i) j = (decide (i = j) || test b j) := by
  rw [testBit,testBit]
  unfold set
  by_cases byte : j / 8 = i / 8
  · rw [byte,Function.update_self,getLsbD_or,maskBit,Bool.or_comm]
    simp only [samePlace byte]
  have apart : i ≠ j := fun same => byte (by rw [same])
  rw [Function.update_of_ne byte,decide_eq_false apart,Bool.false_or]

theorem testClear (b i j) : test (clear b i) j = (!decide (i = j) && test b j) := by
  have small : j % 8 < 8 := Nat.mod_lt j (by decide)
  rw [testBit,testBit]
  unfold clear
  by_cases byte : j / 8 = i / 8
  · rw [byte,Function.update_self,getLsbD_and,getLsbD_not,maskBit,decide_eq_true small,Bool.true_and,Bool.and_comm]
    simp only [samePlace byte]
  have apart : i ≠ j := fun same => byte (by rw [same])
  rw [Function.update_of_ne byte,decide_eq_false apart,Bool.not_false,Bool.true_and]

def members (b : Bytes) (n : Nat) : Finset Nat := (Finset.range n).filter (fun i => test b i = true)

theorem memMembers {b n i} : i ∈ members b n ↔ i < n ∧ test b i = true := by
  simp [members]

def setAll (b : Bytes) (is : List Nat) : Bytes := is.foldl set b

def clearAll (b : Bytes) (is : List Nat) : Bytes := is.foldl clear b

theorem testSetAll (b is j) : test (setAll b is) j = (decide (j ∈ is) || test b j) := by
  induction is generalizing b with
  | nil => simp [setAll]
  | cons i rest ih =>
    have unfolded : setAll b (i::rest) = setAll (set b i) rest := rfl
    rw [unfolded,ih,testSet,← Bool.or_assoc]
    simp only [mem_cons,eq_comm (a := i)]
    rw [Bool.decide_or,Bool.or_comm (decide (j ∈ rest))]

theorem testClearAll (b is j) : test (clearAll b is) j = (!decide (j ∈ is) && test b j) := by
  induction is generalizing b with
  | nil => simp [clearAll]
  | cons i rest ih =>
    have unfolded : clearAll b (i::rest) = clearAll (clear b i) rest := rfl
    rw [unfolded,ih,testClear,← Bool.and_assoc]
    simp only [mem_cons,eq_comm (a := i)]
    rw [Bool.decide_or,Bool.not_or,Bool.and_comm (!decide (j ∈ rest))]

theorem memSpan {start count j} : j ∈ range' start count ↔ j ∈ Finset.Ico start (start+count) := by
  rw [mem_range'_1,Finset.mem_Ico]

theorem membersSetAll {b n start count} (inside : start+count ≤ n) :
    members (setAll b (range' start count)) n = members b n ∪ Finset.Ico start (start+count) := by
  ext j
  rw [Finset.mem_union,memMembers,memMembers,testSetAll,or_eq_true,decide_eq_true_eq,memSpan]
  constructor
  · rintro ⟨below,inRun | on⟩
    · exact .inr inRun
    · exact .inl ⟨below,on⟩
  rintro (⟨below,on⟩ | inRun)
  · exact ⟨below,.inr on⟩
  have bounds := Finset.mem_Ico.mp inRun
  exact ⟨by omega,.inl inRun⟩

theorem membersClearAll (b n start count) :
    members (clearAll b (range' start count)) n = members b n \ Finset.Ico start (start+count) := by
  ext j
  rw [Finset.mem_sdiff,memMembers,memMembers,testClearAll,and_eq_true,not_eq_true',decide_eq_false_iff_not,memSpan]
  constructor
  · rintro ⟨below,outside,on⟩
    exact ⟨⟨below,on⟩,outside⟩
  rintro ⟨⟨below,on⟩,outside⟩
  exact ⟨below,outside,on⟩

theorem cardSetAll {b n start count} (inside : start+count ≤ n) (off : ∀ i, start ≤ i → i < start+count → test b i = false) :
    (members (setAll b (range' start count)) n).card = (members b n).card + count := by
  have apart : Disjoint (members b n) (Finset.Ico start (start+count)) := by
    rw [Finset.disjoint_left]
    intro i member inRun
    have bounds := Finset.mem_Ico.mp inRun
    rw [memMembers,off i bounds.1 bounds.2] at member
    cases member.2
  rw [membersSetAll inside,Finset.card_union_of_disjoint apart,card_Ico]
  omega

theorem cardClearAll {b n start count} (inside : start+count ≤ n) (on : ∀ i, start ≤ i → i < start+count → test b i = true) :
    (members (clearAll b (range' start count)) n).card + count = (members b n).card := by
  have part : Finset.Ico start (start+count) ⊆ members b n := by
    intro i inRun
    have bounds := Finset.mem_Ico.mp inRun
    exact memMembers.mpr ⟨by omega,on i bounds.1 bounds.2⟩
  have sizes := Finset.card_le_card part
  rw [membersClearAll,Finset.card_sdiff_of_subset part]
  rw [card_Ico] at sizes ⊢
  omega

/- The first `count` consecutive numbers of the list that are free, found in one pass with
the length and the start of the current run. -/
def firstRun (free : Nat → Bool) (count : Nat) : List Nat → Nat → Nat → Option Nat
  | [], _, _ => none
  | i::rest, run, start =>
    if free i then
      let start := if run = 0 then i else start
      if run + 1 = count then some start else firstRun free count rest (run+1) start
    else firstRun free count rest 0 start

def Run (free : Nat → Bool) (n count start : Nat) : Prop :=
  start + count ≤ n ∧ ∀ i, start ≤ i → i < start+count → free i = true

/- What the pass knows at number `i`: the run that ends here is free and too short, and every
earlier start meets a number that is not free. -/
structure Passed (free : Nat → Bool) (count i run start : Nat) : Prop where
  short : run < count
  here : run ≤ i
  begun : run ≠ 0 → start + run = i
  clear : ∀ j, i - run ≤ j → j < i → free j = true
  blocked : ∀ s, s < i-run → ∃ j, s ≤ j ∧ j < s+count ∧ free j = false

theorem Passed.stop {free count i run start} (passed : Passed free count i run start)
    (taken : free i = false) : Passed free count (i+1) 0 start := by
  refine ⟨by have := passed.short; omega,zero_le _,fun nonzero => absurd rfl nonzero,?_,?_⟩
  · intro j low high
    omega
  intro s below
  by_cases early : s < i-run
  · exact passed.blocked s early
  have short := passed.short
  exact ⟨i,by omega,by omega,taken⟩

theorem Passed.grow {free count i run start} (passed : Passed free count i run start)
    (isFree : free i = true) (more : run+1 ≠ count) : Passed free count (i+1) (run+1) (if run = 0 then i else start) := by
  have here := passed.here
  have short := passed.short
  have same : i+1 - (run+1) = i-run := by omega
  refine ⟨by omega,by omega,fun _ => ?_,?_,?_⟩
  · split
    · omega
    rename_i nonzero
    have begun := passed.begun nonzero
    omega
  · intro j low high
    rw [same] at low
    by_cases last : j = i
    · rw [last]
      exact isFree
    · exact passed.clear j low (by omega)
  rw [same]
  exact passed.blocked

theorem firstRunSpec {free count i left run start} (passed : Passed free count i run start) :
    match firstRun free count (range' i left) run start with
    | some s => Run free (i+left) count s ∧ ∀ r, Run free (i+left) count r → s ≤ r
    | none => ∀ s, ¬ Run free (i+left) count s := by
  induction left generalizing i run start with
  | zero =>
    intro s found
    obtain ⟨inside,clear⟩ := found
    have short := passed.short
    obtain ⟨j,low,high,taken⟩ := passed.blocked s (by omega)
    rw [clear j low high] at taken
    cases taken
  | succ left ih =>
  have total : i + (left+1) = i+1+left := by omega
  rw [range'_succ,total]
  unfold firstRun
  cases isFree : free i with
  | false => exact ih (passed.stop isFree)
  | true =>
  by_cases done : run+1 = count
  · rw [if_pos done]
    have here := passed.here
    have first : (if run = 0 then i else start) = i-run := by
      split
      · omega
      rename_i nonzero
      have begun := passed.begun nonzero
      omega
    rw [first]
    refine ⟨⟨by omega,fun j low high => ?_⟩,fun r found => ?_⟩
    · by_cases last : j = i
      · rw [last]
        exact isFree
      · exact passed.clear j low (by omega)
    by_contra early
    obtain ⟨j,low,high,taken⟩ := passed.blocked r (by omega)
    rw [found.2 j low high] at taken
    cases taken
  rw [if_neg done]
  exact ih (passed.grow isFree done)

theorem firstRunLowest (free : Nat → Bool) {count} (positive : count ≠ 0) (n) : match firstRun free count (range' 0 n) 0 0 with
    | some s => Run free n count s ∧ ∀ r, Run free n count r → s ≤ r
    | none => ∀ s, ¬ Run free n count s := by
  have start : Passed free count 0 0 0 :=
    ⟨Nat.pos_of_ne_zero positive,Nat.le_refl 0,fun nonzero => absurd rfl nonzero,fun j _ high => by omega,
      fun s low => by omega⟩
  have spec := @firstRunSpec free count 0 n 0 0 start
  rwa [Nat.zero_add] at spec

end Miviex.Bitmap
