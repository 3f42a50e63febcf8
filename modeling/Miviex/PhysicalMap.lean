import Miviex.PhysicalMemory

/-! What `pmm_init` makes of a memory map. Marking is an operation on the set of used frames;
reserved ranges are rounded outwards and available ones inwards, so a frame is free exactly when
it lies in an available entry and meets nothing reserved. -/
namespace Miviex.Pmm
open List

open Bitmap Machine

theorem frameInPages {lo hi f} : (∃ addr ∈ pages lo hi, frameIndex addr = f) ↔ lo / pageSize ≤ f ∧ f * pageSize < hi := by
  unfold pages frameIndex alignDownPage
  simp only [mem_map,mem_range,exists_exists_and_eq_and]
  have positive : 0 < pageSize := by decide
  constructor
  · rintro ⟨i,below,rfl⟩
    rw [← Nat.add_mul,Nat.mul_div_cancel _ positive]
    refine ⟨Nat.le_add_right _ _,?_⟩
    unfold pageSize at below ⊢
    omega
  rintro ⟨low,high⟩
  refine ⟨f - lo / pageSize,?_,?_⟩
  · unfold pageSize at low high ⊢
    omega
  rw [← Nat.add_mul,Nat.mul_div_cancel _ positive]
  omega

def Counted (total : Nat) (marks : Bytes × Nat) : Prop := marks.2 = (members marks.1 total).card

theorem membersBound (b n) : (members b n).card ≤ n := by
  have sizes := Finset.card_filter_le (Finset.range n) (fun i => test b i = true)
  rwa [Finset.card_range] at sizes

variable {total managed : Nat} {marks : Bytes × Nat}

theorem markUsedCounted {addr} (counted : Counted total marks)
    (small : total < 2^64) (inside : frameIndex addr < total) : Counted total (markUsed marks addr) := by
  unfold markUsed
  dsimp only
  split
  swap
  · exact counted
  rename_i off
  have alone i (low : frameIndex addr ≤ i) (high : i < frameIndex addr + 1) : test marks.1 i = false := by
    have same : i = frameIndex addr := by omega
    rw [same]
    simpa using off
  have grown := cardSetAll (n := total) (by omega) alone
  have bound := membersBound (setAll marks.1 (List.range' (frameIndex addr) 1)) total
  have joined : setAll marks.1 (List.range' (frameIndex addr) 1) = set marks.1 (frameIndex addr) := rfl
  rw [joined] at grown bound
  unfold Counted at counted ⊢
  rw [counted,grown,Nat.mod_eq_of_lt (by omega)]

theorem markFreeCounted {addr} (counted : Counted total marks)
    (inside : frameIndex addr < total) : Counted total (markFree marks addr) := by
  unfold markFree
  dsimp only
  split
  swap
  · exact counted
  rename_i on
  have alone i (low : frameIndex addr ≤ i) (high : i < frameIndex addr + 1) : test marks.1 i = true := by
    have same : i = frameIndex addr := by omega
    rw [same]
    exact on
  have shrunk := cardClearAll (n := total) (by omega) alone
  have parted : clearAll marks.1 (List.range' (frameIndex addr) 1) = clear marks.1 (frameIndex addr) := rfl
  rw [parted] at shrunk
  unfold Counted at counted ⊢
  dsimp only
  split
  · omega
  · omega

theorem markUsedTest (marks : Bytes × Nat) (addr j) :
    test (markUsed marks addr).1 j = (decide (frameIndex addr = j) || test marks.1 j) := by
  unfold markUsed
  dsimp only
  split
  · exact testSet marks.1 (frameIndex addr) j
  rename_i on
  by_cases same : frameIndex addr = j
  · subst same
    simpa using on
  · rw [decide_eq_false same,Bool.false_or]

theorem markFreeTest (marks : Bytes × Nat) (addr j) :
    test (markFree marks addr).1 j = (!decide (frameIndex addr = j) && test marks.1 j) := by
  unfold markFree
  dsimp only
  split
  · exact testClear marks.1 (frameIndex addr) j
  rename_i off
  by_cases same : frameIndex addr = j
  · subst same
    simpa using off
  · rw [decide_eq_false same,Bool.not_false,Bool.true_and]

theorem foldUsedTest (addrs : List Nat) (marks : Bytes × Nat) (j) :
    test (addrs.foldl markUsed marks).1 j = true ↔ (∃ addr ∈ addrs, frameIndex addr = j) ∨ test marks.1 j = true := by
  induction addrs generalizing marks with
  | nil => simp
  | cons addr rest ih =>
    rw [foldl_cons,ih,markUsedTest,Bool.or_eq_true,decide_eq_true_eq,exists_mem_cons_iff,or_assoc,or_left_comm]

theorem foldFreeTest (addrs : List Nat) (marks : Bytes × Nat) (j) : test (addrs.foldl markFree marks).1 j = true ↔
    (¬ ∃ addr ∈ addrs, frameIndex addr = j) ∧ test marks.1 j = true := by
  induction addrs generalizing marks with
  | nil => simp
  | cons addr rest ih =>
    rw [foldl_cons,ih,markFreeTest,Bool.and_eq_true,Bool.not_eq_true',decide_eq_false_iff_not,
      exists_mem_cons_iff,not_or,and_assoc,and_left_comm]

theorem foldUsedCounted (small : total < 2^64) {addrs : List Nat}
    (inside : ∀ addr ∈ addrs, frameIndex addr < total) (counted : Counted total marks) :
    Counted total (addrs.foldl markUsed marks) :=
  foldlRecOn addrs markUsed counted (fun _ counted addr member => markUsedCounted counted small (inside addr member))

theorem foldFreeCounted {addrs : List Nat} (inside : ∀ addr ∈ addrs, frameIndex addr < total)
    (counted : Counted total marks) : Counted total (addrs.foldl markFree marks) :=
  foldlRecOn addrs markFree counted (fun _ counted addr member => markFreeCounted counted (inside addr member))

structure Window (managed total : Nat) : Prop where
  whole : managed = total * pageSize
  low : managed ≤ pmmDirectMapEnd

section

variable (window : Window managed total)
include window

theorem Window.small : total < 2^64 := by
  have whole := window.whole
  have low := window.low
  unfold pageSize at whole
  unfold pmmDirectMapEnd at low
  omega

theorem Window.inside {lo hi} : ∀ addr ∈ pages lo (if hi > managed then managed else hi), frameIndex addr < total := by
  intro addr member
  have bounds := (frameInPages).mp ⟨addr,member,rfl⟩
  have whole := window.whole
  have below : frameIndex addr * pageSize < total * pageSize := by
    refine lt_of_lt_of_le bounds.2 ?_
    split <;> omega
  exact Nat.lt_of_mul_lt_mul_right below

theorem usedRangeCounted (counted : Counted total marks) (range) : Counted total (pmmMarkUsedRange managed marks range) := by
  unfold pmmMarkUsedRange
  dsimp only
  split
  · exact counted
  split
  · exact counted
  · exact foldUsedCounted window.small window.inside counted

theorem freeRangeCounted (counted : Counted total marks) (range) : Counted total (pmmMarkFreeRange managed marks range) := by
  unfold pmmMarkFreeRange
  dsimp only
  split
  · exact counted
  split
  · exact counted
  · exact foldFreeCounted window.inside counted

end

end Miviex.Pmm

namespace Miviex

open Bitmap Machine

def PhysRange.Meets (r : PhysRange) (lo hi : Nat) : Prop := ∃ x, r.start ≤ x ∧ x < r.stop ∧ lo ≤ x ∧ x < hi

def PhysRange.MeetsFrame (r : PhysRange) (f : Nat) : Prop := r.Meets (f * pageSize) ((f+1) * pageSize)

theorem PhysRange.meetsIff (r : PhysRange) (lo hi) :
    r.Meets lo hi ↔ r.start < r.stop ∧ lo < hi ∧ r.start < hi ∧ lo < r.stop := by
  constructor
  · rintro ⟨x,a,b,c,d⟩
    omega
  rintro ⟨a,b,c,d⟩
  exact ⟨max r.start lo,by omega,by omega,by omega,by omega⟩

namespace Pmm

variable {r : PhysRange}

theorem outwards (fits : r.stop ≤ 2^63) (f) :
    r.MeetsFrame f ↔ r.start < r.stop ∧ alignDownPage r.start / pageSize ≤ f ∧ f * pageSize < alignUpPage r.stop := by
  unfold PhysRange.MeetsFrame
  rw [r.meetsIff]
  unfold alignDownPage alignUpPage pageSize
  omega

theorem Window.below {managed total f} (window : Window managed total) (below : f < total) : f * pageSize < managed := by
  rw [window.whole]
  exact Nat.mul_lt_mul_of_pos_right below (by decide)

theorem clamp {x stop limit : Nat} (small : x < limit) : x < (if stop > limit then limit else stop) ↔ x < stop := by
  split <;> omega

theorem usedRangeTest {managed total} (window : Window managed total) (fits : r.stop ≤ 2^63)
    (marks : Bytes × Nat) {f} (below : f < total) :
    test (pmmMarkUsedRange managed marks r).1 f = true ↔ r.MeetsFrame f ∨ test marks.1 f = true := by
  have inWindow := window.below below
  rw [outwards fits]
  unfold pmmMarkUsedRange
  dsimp only
  split
  · rename_i empty
    have no : ¬ r.start < r.stop := by omega
    simp only [no,false_and,false_or]
  rename_i full
  have yes : r.start < r.stop := by omega
  split
  · rename_i above
    have no : ¬ alignDownPage r.start / pageSize ≤ f := by
      unfold alignDownPage pageSize at *
      omega
    simp only [no,false_and,and_false,false_or]
  rw [foldUsedTest,frameInPages]
  simp only [yes,true_and]
  rw [clamp inWindow]

def InsideRange (r : PhysRange) (f : Nat) : Prop := r.start ≤ f * pageSize ∧ (f+1) * pageSize ≤ r.stop

theorem inwards (fits : r.stop ≤ 2^63) (f) :
    InsideRange r f ↔ r.start < r.stop ∧ alignUpPage r.start / pageSize ≤ f ∧ f * pageSize < alignDownPage r.stop := by
  unfold InsideRange alignDownPage alignUpPage pageSize
  omega

theorem freeRangeTest {managed total} (window : Window managed total) (fits : r.stop ≤ 2^63)
    (marks : Bytes × Nat) {f} (below : f < total) :
    test (pmmMarkFreeRange managed marks r).1 f = true ↔ ¬ InsideRange r f ∧ test marks.1 f = true := by
  have inWindow := window.below below
  rw [inwards fits]
  unfold pmmMarkFreeRange
  dsimp only
  split
  · rename_i empty
    have no : ¬ r.start < r.stop := by omega
    simp only [no,false_and,not_false_eq_true,true_and]
  rename_i full
  have yes : r.start < r.stop := by omega
  split
  · rename_i above
    have no : ¬ alignUpPage r.start / pageSize ≤ f := by
      unfold alignUpPage pageSize at *
      omega
    simp only [no,false_and,and_false,not_false_eq_true,true_and]
  rw [foldFreeTest,frameInPages]
  simp only [yes,true_and]
  rw [clamp inWindow]

def rounded (r : PhysRange) : PhysRange := ⟨alignDownPage r.start,alignUpPage r.stop⟩

theorem collectAll {ranges acc : List PhysRange} (room : acc.length+ranges.length ≤ pmmMaxReserved) :
    ranges.foldl addReserved acc = acc ++ (ranges.filter (fun r => decide (r.start < r.stop))).map rounded := by
  induction ranges generalizing acc with
  | nil => simp
  | cons r rest ih =>
  rw [List.length_cons] at room
  rw [List.foldl_cons]
  by_cases full : r.start < r.stop
  · have added : addReserved acc r = acc ++ [rounded r] := by
      unfold addReserved
      rw [if_neg (by omega)]
      rfl
    rw [added,ih (by rw [List.length_append,List.length_singleton]; omega),
      List.filter_cons_of_pos (by simpa using full),List.map_cons,List.append_assoc]
    rfl
  have skipped : addReserved acc r = acc := by
    unfold addReserved
    rw [if_pos (by omega)]
  rw [skipped,ih (by omega),List.filter_cons_of_neg (by simpa using full)]

theorem memCollected {info q} : q ∈ collectReserved info ↔ ∃ r ∈ reservedRanges info, r.start < r.stop ∧ rounded r = q := by
  have room : ([] : List PhysRange).length + (reservedRanges info).length ≤ pmmMaxReserved := by
    have short := List.length_take_le multibootMaxModules info.modules
    simp only [reservedRanges,List.length_append,List.length_map,List.length_cons,List.length_nil,pmmMaxReserved]
    omega
  unfold collectReserved
  rw [collectAll room]
  simp [and_assoc]

theorem reservedBound {info} (member : r ∈ reservedRanges info) : r.stop ≤ 2^33 := by
  have kernel := info.kernelEnd.toNat_lt
  have addr := info.infoAddr.toNat_lt
  have size := info.infoSize.toNat_lt
  simp only [reservedRanges,List.mem_append,List.mem_cons,List.not_mem_nil,or_false,List.mem_map] at member
  rcases member with (rfl | rfl | rfl) | ⟨m,_,rfl⟩
  · decide
  · dsimp only
    omega
  · dsimp only
    omega
  have stop := m.2.toNat_lt
  dsimp only
  omega

theorem fewerAhead {reserved : List PhysRange} {start} (member : r ∈ reserved) (ahead : start < r.stop) :
    reserved.countP (fun q => decide (r.stop < q.stop)) < reserved.countP (fun q => decide (start < q.stop)) := by
  obtain ⟨front,back,rfl⟩ := List.append_of_mem member
  have fewer (l : List PhysRange) : l.countP (fun q => decide (r.stop < q.stop)) ≤
      l.countP (fun q => decide (start < q.stop)) := List.countP_mono_left (fun q _ later => by
    simp only [decide_eq_true_eq] at later ⊢
    omega)
  have one := fewer front
  have two := fewer back
  simp only [List.countP_append,List.countP_cons,lt_irrefl,decide_false,ahead,decide_true,if_true]
  simp only [Bool.false_eq_true,if_false]
  omega

theorem settleSpec {reserved len stop fuel start}
    (enough : reserved.countP (fun q => decide (start < q.stop)) < fuel) : start ≤ settle reserved len stop fuel start ∧
    (settle reserved len stop fuel start = start ∨ ∃ r ∈ reserved, settle reserved len stop fuel start = r.stop) ∧
    ((settle reserved len stop fuel start + len) % 2^64 ≤ stop → ∀ r ∈ reserved,
    ¬ (settle reserved len stop fuel start < r.stop ∧ r.start < (settle reserved len stop fuel start + len) % 2^64)) := by
  induction fuel generalizing start with
  | zero => omega
  | succ fuel ih =>
  unfold settle
  split
  · split
    · rename_i r found
      have member := List.mem_of_find?_eq_some found
      have met := List.find?_some found
      simp only [decide_eq_true_eq] at met
      have fewer : reserved.countP (fun q => decide (r.stop < q.stop)) < fuel :=
        lt_of_lt_of_le (fewerAhead member met.1) (Nat.le_of_lt_succ enough)
      obtain ⟨later,which,clear⟩ := ih fewer
      refine ⟨by omega,.inr ?_,clear⟩
      rcases which with same | other
      · exact ⟨r,member,same⟩
      · exact other
    rename_i none
    refine ⟨le_refl _,.inl rfl,fun _ r member met => ?_⟩
    have no := List.find?_eq_none.mp none r member
    exact no (decide_eq_true met)
  rename_i full
  exact ⟨le_refl _,.inl rfl,fun fits => absurd fits full⟩

theorem raiseLimitGrows (limit e) : limit ≤ raiseLimit limit e := by
  unfold raiseLimit
  dsimp only
  split_ifs <;> omega

theorem limitGrows (map : List MapEntry) (limit) : limit ≤ map.foldl raiseLimit limit := by
  induction map generalizing limit with
  | nil => exact le_refl _
  | cons e rest ih => exact le_trans (raiseLimitGrows limit e) (ih _)

theorem limitLow {map : List MapEntry} {limit} (low : limit ≤ pmmDirectMapEnd) :
    map.foldl raiseLimit limit ≤ pmmDirectMapEnd := by
  refine List.foldlRecOn map raiseLimit (motive := (· ≤ pmmDirectMapEnd)) low (fun limit low e _ => ?_)
  unfold raiseLimit
  dsimp only at *
  split_ifs <;> omega

theorem limitReaches {map : List MapEntry} {e} (member : e ∈ map) (available : e.available = true)
    (low : e.start < pmmDirectMapEnd) (limit) : min e.stop pmmDirectMapEnd ≤ map.foldl raiseLimit limit := by
  induction map generalizing limit with
  | nil => cases member
  | cons x rest ih =>
    rcases List.mem_cons.mp member with here | later
    · subst here
      refine le_trans ?_ (limitGrows rest _)
      unfold raiseLimit
      simp only [available,Bool.not_true,Bool.false_eq_true,if_false]
      split_ifs <;> omega
    · exact ih later _

theorem windowLimit (map) : Window (computeManagedLimit map) (computeManagedLimit map / pageSize) := by
  have low : map.foldl raiseLimit 0 ≤ pmmDirectMapEnd := limitLow (Nat.zero_le pmmDirectMapEnd)
  refine ⟨?_,?_⟩
  · unfold computeManagedLimit alignDownPage
    rw [Nat.mul_div_cancel _ (by decide)]
  exact le_trans (Nat.div_mul_le_self _ _) low

end Pmm

def MapEntry.range (e : MapEntry) : PhysRange := ⟨e.address.toNat,e.address.toNat+e.length.toNat⟩

namespace Pmm

variable {e : MapEntry} {map : List MapEntry} {f : Nat} {info : BootInfo}

theorem stopExact (bounded : e.range.stop ≤ 2^63) : (⟨e.start,e.stop⟩ : PhysRange) = e.range := by
  unfold MapEntry.range at bounded ⊢
  unfold MapEntry.start MapEntry.stop
  dsimp only at bounded
  rw [Nat.mod_eq_of_lt (by omega)]

theorem coveredBelow (member : e ∈ map)
    (bounded : e.range.stop ≤ 2^63) (available : e.available = true) (inside : InsideRange e.range f)
    (low : (f+1) * pageSize ≤ pmmDirectMapEnd) : f < computeManagedLimit map / pageSize := by
  have exactly := stopExact bounded
  obtain ⟨above,below⟩ := inside
  have start : e.start = e.range.start := congrArg PhysRange.start exactly
  have stop : e.stop = e.range.stop := congrArg PhysRange.stop exactly
  have reaches := limitReaches member available (by rw [start]; unfold pageSize at *; omega) 0
  rw [stop] at reaches
  have covered : (f+1) * pageSize ≤ map.foldl raiseLimit 0 := le_trans (le_min below low) reaches
  unfold computeManagedLimit alignDownPage
  unfold pageSize at covered ⊢
  omega

theorem managedLow (below : f < computeManagedLimit map / pageSize) : (f+1) * pageSize ≤ pmmDirectMapEnd := by
  have window := windowLimit map
  refine le_trans ?_ window.low
  rw [window.whole]
  exact Nat.mul_le_mul_right _ below

theorem mapFold {managed total} (window : Window managed total)
    (bounded : ∀ e ∈ map, e.range.stop ≤ 2^63) (marks : Bytes × Nat) (below : f < total) :
    test (map.foldl (markMap managed) marks).1 f = true ↔
    (¬ ∃ e ∈ map, e.available = true ∧ InsideRange e.range f) ∧ test marks.1 f = true := by
  induction map generalizing marks with
  | nil => simp
  | cons e rest ih =>
  have exactly := stopExact (bounded e List.mem_cons_self)
  have one : test (markMap managed marks e).1 f = true ↔
      ¬ (e.available = true ∧ InsideRange e.range f) ∧ test marks.1 f = true := by
    unfold markMap
    cases available : e.available with
    | false => simp
    | true =>
      simp only [Bool.not_true,Bool.false_eq_true,if_false,true_and]
      rw [exactly,freeRangeTest window (bounded e List.mem_cons_self) marks below]
  rw [List.foldl_cons,ih (fun x member => bounded x (List.mem_cons_of_mem e member)),one,
    List.exists_mem_cons_iff,not_or,and_assoc,and_left_comm]

theorem reservedFold {managed total} (window : Window managed total) {ranges : List PhysRange}
    (bounded : ∀ r ∈ ranges, r.stop ≤ 2^63) (marks : Bytes × Nat) (below : f < total) :
    test (ranges.foldl (pmmMarkUsedRange managed) marks).1 f = true ↔
    (∃ r ∈ ranges, r.MeetsFrame f) ∨ test marks.1 f = true := by
  induction ranges generalizing marks with
  | nil => simp
  | cons r rest ih =>
    rw [List.foldl_cons,ih (fun x member => bounded x (List.mem_cons_of_mem r member)),
      usedRangeTest window (bounded r List.mem_cons_self) marks below,List.exists_mem_cons_iff,or_assoc,or_left_comm]

theorem roundedStop {r} (fits : r.stop ≤ 2^33) : (rounded r).stop ≤ 2^34 := by
  unfold rounded alignUpPage pageSize
  dsimp only
  omega

theorem collectedLow {info} q (member : q ∈ collectReserved info) : q.stop ≤ 2^63 := by
  obtain ⟨r,original,_,rfl⟩ := memCollected.mp member
  exact le_trans (roundedStop (reservedBound original)) (by decide)

theorem roundedMeets {r} (fits : r.stop ≤ 2^33) (full : r.start < r.stop) (f) : (rounded r).MeetsFrame f ↔ r.MeetsFrame f := by
  rw [outwards (le_trans (roundedStop fits) (by decide)),outwards (le_trans fits (by decide))]
  unfold rounded alignDownPage alignUpPage pageSize
  dsimp only
  omega

theorem collectedMeets : (∃ q ∈ collectReserved info, q.MeetsFrame f) ↔ ∃ r ∈ reservedRanges info, r.MeetsFrame f := by
  constructor
  · rintro ⟨q,member,meets⟩
    obtain ⟨r,from_,full,rfl⟩ := memCollected.mp member
    exact ⟨r,from_,(roundedMeets (reservedBound from_) full f).mp meets⟩
  rintro ⟨r,member,meets⟩
  have full : r.start < r.stop := ((r.meetsIff _ _).mp meets).1
  exact ⟨rounded r,memCollected.mpr ⟨r,member,full,rfl⟩,(roundedMeets (reservedBound member) full f).mpr meets⟩

theorem bitmapLengthBound {total} (low : total * pageSize ≤ pmmDirectMapEnd) : bitmapLength total ≤ 2^16 := by
  have frames : total ≤ 262144 := by
    unfold pageSize pmmDirectMapEnd at low
    omega
  unfold bitmapLength pageSize
  omega

theorem homeInSpec {managed len home reserved} (offered : homeIn managed reserved len e = some home) :
    e.available = true ∧ ∃ stop, stop ≤ managed ∧ stop ≤ alignDownPage e.stop ∧
    home = settle reserved len stop (reserved.length+1) (alignUpPage e.start) ∧ (home+len) % 2^64 ≤ stop := by
  have clamped : (if alignDownPage e.stop > managed then managed else alignDownPage e.stop) ≤ managed ∧
      (if alignDownPage e.stop > managed then managed else alignDownPage e.stop) ≤ alignDownPage e.stop := by
    split <;> omega
  unfold homeIn at offered
  generalize (if alignDownPage e.stop > managed then managed else alignDownPage e.stop) = stop at offered clamped
  cases available : e.available with
  | false => simp [available] at offered
  | true =>
    simp only [available,Bool.not_true,Bool.false_eq_true,if_false,Option.ite_none_right_eq_some,Option.some.injEq] at offered
    obtain ⟨fits,same⟩ := offered
    rw [same] at fits
    exact ⟨rfl,stop,clamped.1,clamped.2,same.symm,fits⟩

theorem homeSpec {managed len home} (bounded : ∀ e ∈ info.map, e.range.stop ≤ 2^63) (short : len ≤ 2^16)
    (found : findBitmapHome managed (collectReserved info) info.map len = home) (valid : home ≠ physAddrInvalid) :
    home % pageSize = 0 ∧ home + len ≤ managed ∧
    (∃ e ∈ info.map, e.available = true ∧ e.range.start ≤ home ∧ home + len ≤ e.range.stop) ∧
    (∀ r ∈ reservedRanges info, ¬ r.Meets home (home+len)) := by
  unfold findBitmapHome at found
  cases result : info.map.findSome? (homeIn managed (collectReserved info) len) with
  | none =>
    rw [result] at found
    exact absurd found.symm valid
  | some place =>
  rw [result,Option.getD_some] at found
  subst found
  obtain ⟨e,member,offered⟩ := List.exists_of_findSome?_eq_some result
  obtain ⟨available,stop,inWindow,inEntry,settled,fits⟩ := homeInSpec offered
  have exactly := stopExact (bounded e member)
  have first : e.start = e.range.start := congrArg PhysRange.start exactly
  have last : e.stop = e.range.stop := congrArg PhysRange.stop exactly
  have limit := bounded e member
  rw [last] at inEntry
  obtain ⟨later,which,clear⟩ := @settleSpec (collectReserved info) len stop ((collectReserved info).length + 1)
    (alignUpPage e.start) (Nat.lt_succ_of_le List.countP_le_length)
  rw [← settled] at later which clear
  -- nothing wraps: the start is below the entry's end or the end of a reserved range
  have startLow : e.range.start ≤ 2^63 := le_trans (Nat.le_add_right _ _) limit
  have roundUp : alignUpPage e.range.start ≤ 2^63+4096 ∧ e.range.start ≤ alignUpPage e.range.start ∧
      alignUpPage e.range.start % pageSize = 0 := by
    unfold alignUpPage pageSize
    omega
  have placed : place ≤ 2^63+4096 ∧ place % pageSize = 0 := by
    rcases which with same | ⟨r,reserved,same⟩
    · rw [same]
      exact ⟨roundUp.1,roundUp.2.2⟩
    obtain ⟨q,original,full,rfl⟩ := memCollected.mp reserved
    have top := roundedStop (reservedBound original)
    rw [same]
    refine ⟨le_trans top (by decide),?_⟩
    unfold rounded alignUpPage pageSize
    dsimp only
    omega
  have exactSum : (place+len) % 2^64 = place+len := Nat.mod_eq_of_lt (by omega)
  rw [exactSum] at fits clear
  have inside : place+len ≤ e.range.stop := le_trans (le_trans fits inEntry) (Nat.div_mul_le_self _ _)
  refine ⟨placed.2,le_trans fits inWindow,⟨e,member,available,le_trans roundUp.2.1 later,inside⟩,?_⟩
  intro r original meets
  obtain ⟨full,_,low,high⟩ := (r.meetsIff _ _).mp meets
  have bound := reservedBound original
  refine clear fits (rounded r) (memCollected.mpr ⟨r,original,full,rfl⟩) ⟨?_,?_⟩
  · unfold rounded alignUpPage pageSize
    dsimp only
    omega
  exact lt_of_le_of_lt (Nat.div_mul_le_self _ _) low

theorem initParts {b} (installed : (pmmInit info).bitmap = some b) :
    ∃ home managed total, Window managed total ∧ managed = computeManagedLimit info.map ∧ total = managed / pageSize ∧
      findBitmapHome managed (collectReserved info) info.map (bitmapLength total) = home ∧ home ≠ physAddrInvalid ∧
      pageSize * 16 ≤ managed ∧
      let marks := pmmMarkUsedRange managed
        ((collectReserved info).foldl (pmmMarkUsedRange managed) (info.map.foldl (markMap managed) ((fun _ => 0xFF),total)))
        ⟨home,home + bitmapLength total⟩
      pmmInit info = ⟨some marks.1,total,marks.2,managed,home⟩ := by
  unfold pmmInit at installed ⊢
  dsimp only at installed ⊢
  split at installed
  · cases installed
  rename_i large
  rw [if_neg large]
  split at installed
  · cases installed
  rename_i valid
  rw [if_neg valid]
  exact ⟨_,_,_,windowLimit info.map,rfl,rfl,rfl,valid,Nat.le_of_not_lt large,rfl⟩

theorem testFull (i) : test (fun _ => 0xFF) i = true := by
  have small : i % 8 < 8 := Nat.mod_lt i (by decide)
  rw [testBit]
  have ones : (0xFF : BitVec 8) = BitVec.allOnes 8 := by decide
  rw [ones,BitVec.getLsbD_allOnes]
  exact decide_eq_true small

def bitmapRange (s : Pmm) : PhysRange := ⟨s.bitmapPhys,s.bitmapPhys + bitmapLength s.totalFrames⟩

theorem pmmInitSafety (info : BootInfo) (bounded : ∀ e ∈ info.map, e.address.toNat + e.length.toNat ≤ 2^63)
    (b : Bytes) (installed : (pmmInit info).bitmap = some b) :
    ((pmmInit info).bitmapPhys % pageSize = 0 ∧ (pmmInit info).bitmapRange.stop ≤ (pmmInit info).managedBytes ∧
    (∃ e ∈ info.map, e.available = true ∧ e.range.start ≤ (pmmInit info).bitmapRange.start ∧
    (pmmInit info).bitmapRange.stop ≤ e.range.stop) ∧
    ∀ r ∈ reservedRanges info, ¬ r.Meets (pmmInit info).bitmapRange.start (pmmInit info).bitmapRange.stop) ∧
    ∀ f, f < (pmmInit info).totalFrames ∧ test b f = false ↔
    (∃ e ∈ info.map, e.available = true ∧ InsideRange e.range f) ∧ (f+1) * pageSize ≤ pmmDirectMapEnd ∧
    (∀ r ∈ reservedRanges info, ¬ r.MeetsFrame f) ∧ ¬ (pmmInit info).bitmapRange.MeetsFrame f := by
  obtain ⟨home,managed,total,window,limit,frames,found,valid,large,whole⟩ := initParts installed
  have low : total * pageSize ≤ pmmDirectMapEnd := window.whole ▸ window.low
  have short := bitmapLengthBound low
  obtain ⟨aligned,inWindow,entry,clear⟩ := homeSpec bounded short found valid
  have marks : b = (pmmInit info).bitmap.getD (fun _ => 0) := by rw [installed,Option.getD_some]
  rw [whole] at marks
  have range : (pmmInit info).bitmapRange = ⟨home,home + bitmapLength total⟩ := by rw [whole]; rfl
  have count : (pmmInit info).totalFrames = total := by rw [whole]
  have bytes : (pmmInit info).managedBytes = managed := by rw [whole]
  have phys : (pmmInit info).bitmapPhys = home := by rw [whole]
  rw [range,count,bytes,phys]
  refine ⟨⟨aligned,inWindow,entry,clear⟩,fun f => ?_⟩
  have topLow : home + bitmapLength total ≤ 2^63 := le_trans inWindow (le_trans window.low (by decide))
  have tested : f < total → (test b f = true ↔ (⟨home,home + bitmapLength total⟩ : PhysRange).MeetsFrame f ∨
      (∃ r ∈ reservedRanges info, r.MeetsFrame f) ∨ ¬ ∃ e ∈ info.map, e.available = true ∧ InsideRange e.range f) := by
    intro below
    rw [marks,Option.getD_some,usedRangeTest window topLow _ below,reservedFold window collectedLow _ below,
      mapFold window bounded _ below,collectedMeets,testFull]
    simp only [and_true]
  constructor
  · rintro ⟨below,off⟩
    have no := mt (tested below).mpr (by rw [off]; exact Bool.false_ne_true)
    rw [not_or,not_or,not_not] at no
    rw [frames,limit] at below
    exact ⟨no.2.2,managedLow below,fun r member meets => no.2.1 ⟨r,member,meets⟩,no.1⟩
  rintro ⟨⟨e,member,available,inside⟩,lowFrame,unreserved,unmapped⟩
  have below : f < total := by
    rw [frames,limit]
    exact coveredBelow member (bounded e member) available inside lowFrame
  refine ⟨below,?_⟩
  rw [← Bool.not_eq_true,tested below,not_or,not_or,not_not]
  exact ⟨unmapped,fun ⟨r,original,meets⟩ => unreserved r original meets,e,member,available,inside⟩

def smallBoot : BootInfo where
  map := [⟨0,0x9F000,1⟩,⟨0x100000,0x300000,1⟩,⟨0x400000,0x1000,2⟩]
  kernelStart := 0x100000
  kernelEnd := 0x180000
  infoAddr := 0x180000
  infoSize := 0x800
  modules := [(0x181000,0x182800)]

theorem smallBootSafe : ∃ b, (pmmInit smallBoot).bitmap = some b ∧ (pmmInit smallBoot).bitmapPhys = 0x183000 ∧
    (∀ r ∈ reservedRanges smallBoot, ¬ r.Meets (pmmInit smallBoot).bitmapRange.start
    (pmmInit smallBoot).bitmapRange.stop) ∧ test b 0x184 = false := by
  have some_ : (pmmInit smallBoot).bitmap.isSome = true := by decide +kernel
  have home : (pmmInit smallBoot).bitmapPhys = 0x183000 := by decide +kernel
  have total : (pmmInit smallBoot).totalFrames = 0x400 := by decide +kernel
  have bounded : ∀ e ∈ smallBoot.map, e.address.toNat + e.length.toNat ≤ 2^63 := by decide
  obtain ⟨b,installed⟩ := Option.isSome_iff_exists.mp some_
  have safe := pmmInitSafety smallBoot bounded b installed
  refine ⟨b,installed,home,safe.1.2.2.2,((safe.2 0x184).mpr ⟨?_,by decide,?_,?_⟩).2⟩
  · exact ⟨⟨0x100000,0x300000,1⟩,by decide,by decide,by decide,by decide⟩
  · intro r member meets
    obtain ⟨full,_,low,high⟩ := (r.meetsIff _ _).mp meets
    have stops : ∀ r ∈ reservedRanges smallBoot, r.stop ≤ 0x182800 := by decide
    have early := stops r member
    unfold pageSize at high
    omega
  intro meets
  obtain ⟨full,_,low,high⟩ := (PhysRange.meetsIff _ _ _).mp meets
  unfold bitmapRange at high
  revert high
  decide

end Pmm
end Miviex
