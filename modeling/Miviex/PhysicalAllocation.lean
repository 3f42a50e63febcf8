import Miviex.PhysicalMap
import Miviex.Runs

/-! Allocation of frames over whole runs. The bitmap is a set of frames and `used_frames` its
size; a run handed out stays apart from the others for as long as none of its frames is freed. -/
namespace Miviex.Pmm
open List Nat Option

open Bitmap Machine

structure Sound (s : Pmm) (b : Bytes) : Prop where
  installed : s.bitmap = some b
  counted : s.usedFrames = (members b s.totalFrames).card
  window : Window s.managedBytes s.totalFrames
  zero : test b 0 = true

theorem usedRangeKeeps {managed marks r f}
    (on : test marks.1 f = true) : test (pmmMarkUsedRange managed marks r).1 f = true := by
  unfold pmmMarkUsedRange
  dsimp only
  split
  · exact on
  split
  · exact on
  rw [foldUsedTest]
  exact .inr on

theorem initCounted {managed total} (window : Window managed total) (map : List MapEntry) (reserved : List PhysRange) (last) :
    Counted total (pmmMarkUsedRange managed (reserved.foldl (pmmMarkUsedRange managed)
    (map.foldl (markMap managed) ((fun _ => 0xFF),total))) last) := by
  have full : Counted total ((fun _ => 0xFF),total) := by
    have all : members (fun _ => 0xFF) total = Finset.range total := Finset.filter_true_of_mem (fun i _ => testFull i)
    unfold Counted
    rw [all,Finset.card_range]
  have freed : Counted total (map.foldl (markMap managed) ((fun _ => 0xFF),total)) := by
    refine foldlRecOn map (markMap managed) (motive := Counted total) full (fun marks counted e _ => ?_)
    unfold markMap
    split
    · exact counted
    · exact freeRangeCounted window counted _
  have kept := foldlRecOn reserved (pmmMarkUsedRange managed) (motive := Counted total) freed
    (fun marks counted r _ => usedRangeCounted window counted r)
  exact usedRangeCounted window kept last

variable {b : Bytes} {s : Pmm} {count : Nat}

theorem initSound {info} (installed : (pmmInit info).bitmap = some b) : Sound (pmmInit info) b := by
  obtain ⟨home,managed,total,window,_,frames,_,_,large,whole⟩ := initParts installed
  have marks : b = (pmmInit info).bitmap.getD (fun _ => 0) := by rw [installed,getD_some]
  refine ⟨installed,?_,?_,?_⟩
  · rw [marks,whole,getD_some]
    exact initCounted window info.map (collectReserved info) _
  · rw [whole]
    exact window
  rw [marks,whole,getD_some]
  refine usedRangeKeeps ?_
  have positive : 0 < total := by
    rw [frames]
    unfold pageSize at *
    omega
  rw [reservedFold window collectedLow _ positive,collectedMeets]
  refine .inl ⟨⟨0,0x100000⟩,?_,0,by decide,by decide,by decide,by decide⟩
  exact mem_append_left _ mem_cons_self

def free (b : Bytes) (frame : Nat) : Bool := !test b frame

theorem freeRunPositive (sound : Sound s b) {start} (positive : count ≠ 0)
    (run : Run (free b) s.totalFrames count start) : start ≠ 0 := by
  rintro rfl
  have clear := run.2 0 (le_refl 0) (by omega)
  unfold free at clear
  rw [sound.zero] at clear
  cases clear

inductive Allocation (s : Pmm) (b : Bytes) (count : Nat) : Nat × Pmm → Prop where
  | failed (none : count = 0 ∨ ∀ start, ¬ Run (free b) s.totalFrames count start) :
      Allocation s b count (physAddrInvalid,s)
  | taken {start} (positive : count ≠ 0) (run : Run (free b) s.totalFrames count start)
      (lowest : ∀ r, Run (free b) s.totalFrames count r → start ≤ r) : Allocation s b count (start * pageSize, {s with
          bitmap := some (setAll b (range' start count))
          usedFrames := s.usedFrames + count})

theorem allocPages (sound : Sound s b) (count : UInt64) : Allocation s b count.toNat (s.pmmAllocPages count) := by
  have window := sound.window
  have small := window.small
  unfold pmmAllocPages
  simp only [sound.installed]
  split
  · rename_i nothing
    refine .failed ?_
    rcases nothing with none | empty
    · exact .inl (by rw [none]; rfl)
    by_cases zero : count.toNat = 0
    · exact .inl zero
    refine .inr (fun start run => ?_)
    have inside := run.1
    omega
  rename_i some_
  rw [not_or] at some_
  have positive : count.toNat ≠ 0 := fun zero => some_.1 (UInt64.toNat_inj.mp zero)
  split
  · rename_i large
    refine .failed (.inr (fun start run => ?_))
    have inside := run.1
    omega
  have search := firstRunLowest (free b) positive s.totalFrames
  split
  · rename_i none
    have missing : firstRun (free b) count.toNat (range' 0 s.totalFrames) 0 0 = Option.none := none
    rw [missing] at search
    exact .failed (.inr search)
  rename_i start found
  have present : firstRun (free b) count.toNat (range' 0 s.totalFrames) 0 0 = some start := found
  rw [present] at search
  have bound := membersBound (setAll b (range' start count.toNat)) s.totalFrames
  have off i (low : start ≤ i) (high : i < start+count.toNat) : test b i = false := by
    simpa [free] using search.1.2 i low high
  rw [cardSetAll search.1.1 off] at bound
  have exactSum : (s.usedFrames+count.toNat) % 2^64 = s.usedFrames+count.toNat := by
    rw [sound.counted]
    exact mod_eq_of_lt (by omega)
  rw [exactSum]
  exact .taken positive search.1 search.2

inductive Release (s : Pmm) (b : Bytes) (page count : Nat) : Pmm → Prop where
  | refused : Release s b page count s
  | cleared {start} (aligned : page = start * pageSize) (inside : start+count ≤ s.totalFrames)
      (used : ∀ i, start ≤ i → i < start+count → test b i = true) : Release s b page count
        {s with
          bitmap := some (clearAll b (range' start count))
          usedFrames := s.usedFrames - count}

theorem freePages (sound : Sound s b) (page count : UInt64) :
    Release s b page.toNat count.toNat (s.pmmFreePages page count) := by
  have small := sound.window.small
  unfold pmmFreePages
  simp only [sound.installed]
  split
  · exact .refused
  split
  · exact .refused
  rename_i inRange
  split
  · exact .refused
  rename_i bounded
  split
  · exact .refused
  rename_i allUsed
  have range : page.toNat < s.managedBytes ∧ page.toNat % pageSize = 0 := by simpa [frameInRange] using inRange
  have whole := sound.window.whole
  have aligned : page.toNat = frameIndex page.toNat * pageSize :=
    (Nat.div_mul_cancel (Nat.dvd_of_mod_eq_zero range.2)).symm
  have first : frameIndex page.toNat < s.totalFrames := by
    rw [whole,aligned] at range
    exact Nat.lt_of_mul_lt_mul_right range.1
  have totalSmall : s.totalFrames * pageSize ≤ pmmDirectMapEnd := whole ▸ sound.window.low
  have inside : frameIndex page.toNat + count.toNat ≤ s.totalFrames := by
    have noWrap : (frameIndex page.toNat + count.toNat) % 2^64 = frameIndex page.toNat + count.toNat := by
      unfold pageSize pmmDirectMapEnd at totalSmall
      exact mod_eq_of_lt (by omega)
    omega
  have used i (low : frameIndex page.toNat ≤ i) (high : i < frameIndex page.toNat + count.toNat) : test b i = true := by
    have every := not_not.mp allUsed
    rw [List.all_eq_true] at every
    exact every i (mem_range'_1.mpr ⟨low,high⟩)
  have sizes := cardClearAll inside used
  have exactDifference : (s.usedFrames+2^64-count.toNat) % 2^64 = s.usedFrames-count.toNat := by
    have bound := membersBound b s.totalFrames
    rw [sound.counted]
    omega
  rw [exactDifference]
  exact .cleared aligned inside used

theorem Allocation.sound {result} (sound : Sound s b) (allocation : Allocation s b count result) : ∃ c, Sound result.2 c := by
  cases allocation with
  | failed => exact ⟨b,sound⟩
  | @taken start positive run lowest =>
    have off i (low : start ≤ i) (high : i < start+count) : test b i = false := by simpa [free] using run.2 i low high
    refine ⟨setAll b (range' start count),rfl,?_,sound.window,?_⟩
    · rw [cardSetAll run.1 off,sound.counted]
    · rw [testSetAll,sound.zero,Bool.or_true]

/- Frame 0 stays used because nobody frees it. -/
theorem Release.sound {t page} (sound : Sound s b) (nonzero : page ≠ 0)
    (release : Release s b page count t) : ∃ c, Sound t c := by
  cases release with
  | refused => exact ⟨b,sound⟩
  | @cleared start aligned inside used =>
  have sizes := cardClearAll inside used
  refine ⟨clearAll b (range' start count),rfl,?_,sound.window,?_⟩
  · show s.usedFrames - count = (members (clearAll b (range' start count)) s.totalFrames).card
    rw [sound.counted]
    omega
  have outside : 0 ∉ range' start count := by
    intro member
    have bounds := mem_range'_1.mp member
    have first : start = 0 := by omega
    rw [first,zero_mul] at aligned
    exact nonzero aligned
  rw [testClearAll,sound.zero,decide_eq_false outside]
  rfl

end Miviex.Pmm

namespace Miviex

open Bitmap Machine

structure Lending where
  pmm : Pmm
  out : List (Nat × Nat)

namespace Lending

inductive Event where
  | alloc (count : UInt64)
  | free (page count : UInt64)

def intact (pmm : Pmm) (run : Nat × Nat) : Bool :=
  (List.range' run.1 run.2).all (test (pmm.bitmap.getD (fun _ => 0)))

/- Nobody frees page 0. A run is out until one of its frames is freed. -/
def step (s : Lending) : Event → Option Lending
  | .alloc count =>
    let result := s.pmm.pmmAllocPages count
    some ⟨result.2,if result.1 = physAddrInvalid then s.out else (Pmm.frameIndex result.1,count.toNat)::s.out⟩
  | .free page count =>
    if page = 0 then none
    else
      let pmm := s.pmm.pmmFreePages page count
      some ⟨pmm,s.out.filter (intact pmm)⟩

def Apart (x y : Nat × Nat) : Prop := x.1+x.2 ≤ y.1 ∨ y.1 + y.2 ≤ x.1

structure Lent (s : Lending) (b : Bytes) : Prop where
  sound : Pmm.Sound s.pmm b
  full : ∀ run ∈ s.out, run.2 ≠ 0
  used : ∀ run ∈ s.out, ∀ i, run.1 ≤ i → i < run.1+run.2 → test b i = true
  apart : s.out.Pairwise Apart

theorem allocLent {s b} (lent : Lent s b) (count) {t} (taken : s.step (.alloc count) = some t) : ∃ c, Lent t c := by
  cases Option.some.inj taken
  have allocation := Pmm.allocPages lent.sound count
  generalize s.pmm.pmmAllocPages count = result at allocation
  obtain ⟨c,sound⟩ := allocation.sound lent.sound
  refine ⟨c,?_⟩
  cases allocation with
  | failed none =>
    have same : some b = some c := lent.sound.installed.symm.trans sound.installed
    cases Option.some.inj same
    rw [if_pos rfl]
    exact lent
  | @taken start positive run lowest =>
  have same : c = setAll b (List.range' start count.toNat) := Option.some.inj sound.installed.symm
  have nonzero : start * pageSize ≠ physAddrInvalid :=
    mul_ne_zero (Pmm.freeRunPositive lent.sound positive run) (by decide)
  have index : Pmm.frameIndex (start * pageSize) = start := Nat.mul_div_cancel start (by decide)
  rw [if_neg nonzero,index]
  refine ⟨sound,?_,?_,List.pairwise_cons.mpr ⟨?_,lent.apart⟩⟩
  · intro r member
    rcases List.mem_cons.mp member with new | old
    · subst new
      exact positive
    · exact lent.full r old
  · intro r member i low high
    rw [same,testSetAll]
    rcases List.mem_cons.mp member with new | old
    · subst new
      rw [decide_eq_true (List.mem_range'_1.mpr ⟨low,high⟩),Bool.true_or]
    · rw [lent.used r old i low high,Bool.or_true]
  intro r member
  have full := lent.full r member
  unfold Apart
  by_contra meet
  -- a common frame would be both used and free
  have on := lent.used r member (max start r.1) (by omega) (by omega)
  have off := run.2 (max start r.1) (by omega) (by omega)
  unfold Pmm.free at off
  rw [on] at off
  cases off

theorem freeLent {s b} (lent : Lent s b) (page count) {t} (taken : s.step (.free page count) = some t) : ∃ c, Lent t c := by
  simp only [step,Option.ite_none_left_eq_some,Option.some.injEq] at taken
  obtain ⟨nonzero,rfl⟩ := taken
  have release := Pmm.freePages lent.sound page count
  have named : page.toNat ≠ 0 := fun zero => nonzero (UInt64.toNat_inj.mp zero)
  obtain ⟨c,sound⟩ := release.sound lent.sound named
  have kept run (member : run ∈ s.out.filter (intact (s.pmm.pmmFreePages page count))) : run ∈ s.out ∧
      ∀ i, run.1 ≤ i → i < run.1+run.2 → test c i = true := by
    obtain ⟨old,every⟩ := List.mem_filter.mp member
    refine ⟨old,fun i low high => ?_⟩
    unfold intact at every
    rw [sound.installed,Option.getD_some,List.all_eq_true] at every
    exact every i (List.mem_range'_1.mpr ⟨low,high⟩)
  exact ⟨c,sound,fun run member => lent.full run (kept run member).1,fun run member => (kept run member).2,
    lent.apart.filter _⟩

theorem stepLent {s t e} (lent : ∃ b, Lent s b) (taken : s.step e = some t) : ∃ c, Lent t c := by
  obtain ⟨b,lent⟩ := lent
  cases e with
  | alloc count => exact allocLent lent count taken
  | free page count => exact freeLent lent page count taken

theorem physicalAllocator (info : BootInfo) (installed : (Pmm.pmmInit info).bitmap.isSome = true)
    (events : List Event) : ∀ s ∈ Runs.visited step ⟨Pmm.pmmInit info,[]⟩ events, ∃ b, s.pmm.bitmap = some b ∧
    s.pmm.usedFrames = (members b s.pmm.totalFrames).card ∧
    (∀ count : UInt64, ((s.pmm.pmmAllocPages count).1 = physAddrInvalid ↔
    count = 0 ∨ ∀ start, ¬ Run (Pmm.free b) s.pmm.totalFrames count.toNat start) ∧
    ((s.pmm.pmmAllocPages count).1 = physAddrInvalid → (s.pmm.pmmAllocPages count).2 = s.pmm) ∧
    ((s.pmm.pmmAllocPages count).1 ≠ physAddrInvalid → ∃ start c, (s.pmm.pmmAllocPages count).1 = start * pageSize ∧
    Run (Pmm.free b) s.pmm.totalFrames count.toNat start ∧ (∀ r, Run (Pmm.free b) s.pmm.totalFrames count.toNat r → start ≤ r) ∧
    (s.pmm.pmmAllocPages count).2.bitmap = some c ∧ ∀ i, test c i = (decide (start ≤ i ∧ i < start+count.toNat) || test b i))) ∧
    (∀ page count : UInt64, s.pmm.pmmFreePages page count = s.pmm ∨ ∃ start c, page.toNat = start * pageSize ∧
    start + count.toNat ≤ s.pmm.totalFrames ∧ (∀ i, start ≤ i → i < start+count.toNat → test b i = true) ∧
    (s.pmm.pmmFreePages page count).bitmap = some c ∧
    ∀ i, test c i = (!decide (start ≤ i ∧ i < start+count.toNat) && test b i)) ∧ s.out.Pairwise Apart := by
  intro s reached
  obtain ⟨first,bitmap⟩ := Option.isSome_iff_exists.mp installed
  have start : ∃ b, Lent ⟨Pmm.pmmInit info,[]⟩ b :=
    ⟨first,Pmm.initSound bitmap,fun _ member => (by cases member),fun _ member => (by cases member),.nil⟩
  obtain ⟨b,lent⟩ := Runs.visitedAlways (fun _ _ _ lent taken => stepLent lent taken) start s reached
  have sound := lent.sound
  refine ⟨b,sound.installed,sound.counted,fun count => ?_,fun page count => ?_,lent.apart⟩
  · have allocation := Pmm.allocPages sound count
    have zero : count = 0 ↔ count.toNat = 0 := UInt64.toNat_inj.symm
    rw [zero]
    generalize s.pmm.pmmAllocPages count = result at allocation
    cases allocation with
    | failed none => exact ⟨⟨fun _ => none,fun _ => rfl⟩,fun _ => rfl,fun some_ => absurd rfl some_⟩
    | @taken start positive run lowest =>
    have nonzero : start * pageSize ≠ physAddrInvalid :=
      mul_ne_zero (Pmm.freeRunPositive sound positive run) (by decide)
    refine ⟨⟨fun failed => absurd failed nonzero,fun none => ?_⟩,fun failed => absurd failed nonzero,
      fun _ => ⟨start,_,rfl,run,lowest,rfl,fun i => ?_⟩⟩
    · rcases none with empty | missing
      · exact absurd empty positive
      · exact absurd run (missing start)
    rw [testSetAll]
    simp only [List.mem_range'_1]
  have release := Pmm.freePages sound page count
  generalize s.pmm.pmmFreePages page count = result at release
  cases release with
  | refused => exact .inl rfl
  | @cleared start aligned inside used =>
    refine .inr ⟨start,_,aligned,inside,used,rfl,fun i => ?_⟩
    rw [testClearAll]
    simp only [List.mem_range'_1]

theorem smallBootLends : ∃ s ∈ Runs.visited step ⟨Pmm.pmmInit Pmm.smallBoot,[]⟩ [.alloc 2,.free 0x185000 1],
    ∃ b, s.pmm.bitmap = some b ∧ s.pmm.usedFrames = (members b s.pmm.totalFrames).card ∧ s.out.Pairwise Apart := by
  obtain ⟨s,ended⟩ : ∃ s, Runs.run step ⟨Pmm.pmmInit Pmm.smallBoot,[]⟩ [.alloc 2,.free 0x185000 1] = some s :=
    ⟨_,rfl⟩
  have seen := Runs.visitedLast ended
  have some_ : (Pmm.pmmInit Pmm.smallBoot).bitmap.isSome = true := by decide +kernel
  obtain ⟨b,installed,counted,_,_,apart⟩ := physicalAllocator Pmm.smallBoot some_ _ s seen
  exact ⟨s,seen,b,installed,counted,apart⟩

end Lending
end Miviex
