import Miviex.AccessBits
import Miviex.AddressSpaceClone
import Miviex.ElfLoaderInvariant
import Miviex.MemoryCalls
import Miviex.Runs

/-! Every run of the memory calls keeps the forest of page tables. `lowest` is the lowest
address that may be mapped: zero, or MMAP_MIN when every program has a segment to load. -/
namespace Miviex.Machine
open RadixForest Nat

def leafFrom (lowest : Nat) (q : List Nat) : Prop := ∃ va, lowest ≤ va ∧ va < 2^47 ∧ path va = q

structure Bounds (lowest : Nat) (as : AddressSpace) : Prop where
  hint : as.mmapHint ≤ mmapTop
  top : as.brk ≤ mmapTop
  order : as.brkStart ≤ as.brk
  start : lowest ≤ as.brkStart

structure Lowest (lowest : Nat) : Prop where
  aligned : lowest % pageSize = 0
  small : lowest ≤ mmapMin

variable {strict : Prop} {lowest : Nat} {m : Machine} {owner : Owner} {as : AddressSpace}

theorem floorLowest (low : Lowest lowest) : Floor (leafFrom lowest) :=
  fun va above below => ⟨va,le_trans low.small above,below,rfl⟩

theorem stackFloor (low : Lowest lowest) (va) (above : userEndAddr-userStackMax ≤ va)
    (below : va < 2^47) : leafFrom lowest (path va) := by
  have deep : mmapMin ≤ userEndAddr-userStackMax := by decide
  exact floorLowest low va (le_trans deep above) below

variable {start stop size : Nat} {addr : BitVec 64}

theorem pagesLow (high : stop ≤ userEndAddr) : ∀ va ∈ pages start stop, va < 2^47 := by
  intro va member
  obtain ⟨_,below,_⟩ := pagesBound member
  unfold userEndAddr at high
  omega

theorem pagesFrom (low : Lowest lowest) (above : lowest ≤ start) (high : stop ≤ userEndAddr) :
    ∀ va ∈ pages start stop, va < 2^47 ∧ leafFrom lowest (path va) := by
  intro va member
  have below := pagesLow high va member
  obtain ⟨first,_,_⟩ := pagesBound member
  refine ⟨below,va,?_,below,rfl⟩
  have aligned := low.aligned
  unfold alignDownPage pageSize at *
  omega

theorem alignUpSmall (a) : alignUpPage a < 2^64 := by
  unfold alignUpPage pageSize
  omega

theorem userRangeBound {addr} (valid : userRange addr size = true) (small : size < 2^64) (fits : addr < 2^64) :
    (addr+size) % 2^64 = addr+size ∧ addr + size ≤ userEndAddr ∧ addr % pageSize = 0 := by
  unfold userRange at valid
  simp only [Bool.and_eq_true,decide_eq_true_eq,gt_iff_lt] at valid
  omega

theorem protFlagsPresent (prot) : (protFlags prot).getLsbD 0 = true := by
  unfold protFlags
  split <;> split <;> decide

theorem protFlagsUser (prot) : (protFlags prot).getLsbD 2 = true ↔ prot ≠ 0 := by
  unfold protFlags
  split
  · rename_i some
    refine ⟨fun _ => some,fun _ => ?_⟩
    split <;> decide
  rename_i none
  refine ⟨fun user => absurd user ?_,fun some => absurd some none⟩
  split <;> decide

theorem findFreeBounds {len top va} (found : m.findFree as len top = some va) : as.brkStart ≤ va ∧ va + len ≤ top := by
  fun_induction findFree m as len top with
  | case1 => cases found
  | case2 =>
    cases found
    omega
  | case3 top enough i mapped ih =>
    obtain ⟨above,below⟩ := ih found
    omega

def Settled (strict : Prop) (lowest : Nat) (owner : Owner) (n : Machine) : Prop :=
  ∃ after, Sane strict (leafFrom lowest) n after ∧ Roots owner after

theorem settledRefl (sane : Sane strict (leafFrom lowest) m owner) : Settled strict lowest owner m :=
  ⟨owner,sane,fun _ h => h⟩

theorem settledGrown {n} (sane : Sane strict (leafFrom lowest) m owner)
    (grown : Grown strict (leafFrom lowest) m owner n) : Settled strict lowest owner n := by
  obtain ⟨after,saneN,keeps⟩ := grown
  exact ⟨after,saneN,keepsRoots sane keeps⟩

theorem settledFree (settled : Settled strict lowest owner m)
    (own : IsRoot owner as.pml4) (high : stop ≤ userEndAddr) :
    Settled strict lowest owner (m.vmmFreeRange as start stop) := by
  obtain ⟨after,sane,roots⟩ := settled
  obtain ⟨last,saneLast,step⟩ := freeRangeSane sane (roots _ own) (pagesLow high)
  exact ⟨last,saneLast,fun r h => step r (roots r h)⟩

theorem settledAlloc {flags} (low : Lowest lowest)
    (settled : Settled strict lowest owner m) (own : IsRoot owner as.pml4)
    (above : lowest ≤ start) (high : stop ≤ userEndAddr) (present : flags.getLsbD 0 = true) :
    Settled strict lowest owner (m.vmmAllocRange as start stop flags).2 := by
  obtain ⟨after,sane,roots⟩ := settled
  obtain ⟨last,saneLast,keeps⟩ := allocRangeSane sane (roots _ own) (pagesFrom low above high) present
  exact ⟨last,saneLast,fun r h => keepsRoots sane keeps r (roots r h)⟩

theorem mapAnonymousSettled (as : AddressSpace) {va} (prot) (low : Lowest lowest)
    (settled : Settled strict lowest owner m) (own : IsRoot owner as.pml4)
    (above : lowest ≤ va) (high : va+size ≤ userEndAddr) :
    Settled strict lowest owner (m.mapAnonymous as va size prot).2.2 ∧ (m.mapAnonymous as va size prot).2.1 = as := by
  have alloc := settledAlloc low settled own above high (protFlagsPresent prot)
  unfold mapAnonymous
  split
  · rename_i result
    rw [result] at alloc
    exact ⟨settledFree alloc own high,rfl⟩
  rename_i result
  rw [result] at alloc
  exact ⟨alloc,rfl⟩

theorem brkSettled (low : Lowest lowest) (sane : Sane strict (leafFrom lowest) m owner)
    (own : IsRoot owner as.pml4) (bounds : Bounds lowest as) : Settled strict lowest owner (m.sysBrk as addr).2.2 ∧
    (m.sysBrk as addr).2.1.pml4 = as.pml4 ∧ Bounds lowest (m.sysBrk as addr).2.1 := by
  have old := alignUpBounds bounds.top
  have start := bounds.start
  have order := bounds.order
  unfold sysBrk
  dsimp only
  split
  · exact ⟨settledRefl sane,rfl,bounds⟩
  rename_i wanted
  simp only [Bool.or_eq_true,decide_eq_true_eq,not_or,not_lt,gt_iff_lt] at wanted
  have new := alignUpBounds wanted.2
  have moved : Bounds lowest {as with brk := addr.toNat} := ⟨bounds.hint,wanted.2,wanted.1,start⟩
  have oldEnd : alignUpPage as.brk ≤ userEndAddr := le_trans old.2.1 (by decide)
  have newEnd : alignUpPage addr.toNat ≤ userEndAddr := le_trans new.2.1 (by decide)
  split
  · split
    · exact ⟨settledRefl sane,rfl,bounds⟩
    have alloc := settledAlloc low (settledRefl sane) own
      (show lowest ≤ alignUpPage as.brk by omega) newEnd (show userFlags.getLsbD 0 = true by decide)
    split
    · rename_i result
      rw [result] at alloc
      exact ⟨settledFree alloc own newEnd,rfl,bounds⟩
    rename_i result
    rw [result] at alloc
    exact ⟨alloc,rfl,moved⟩
  split
  · exact ⟨settledFree (settledRefl sane) own oldEnd,rfl,moved⟩
  · exact ⟨settledRefl sane,rfl,moved⟩

theorem mmapFixedSettled {addr} (prot noReplace) (low : Lowest lowest)
    (sane : Sane strict (leafFrom lowest) m owner) (own : IsRoot owner as.pml4)
    (small : size < 2^64) (fits : addr < 2^64) : Settled strict lowest owner (m.mmapFixed as addr size prot noReplace).2.2 ∧
    (m.mmapFixed as addr size prot noReplace).2.1 = as := by
  unfold mmapFixed
  split
  · exact ⟨settledRefl sane,rfl⟩
  rename_i accepted
  simp only [Bool.or_eq_true,Bool.not_eq_true',decide_eq_true_eq,not_or,Bool.not_eq_false,not_lt] at accepted
  obtain ⟨_,high,_⟩ := userRangeBound accepted.1 small fits
  have above := le_trans low.small accepted.2
  split
  · exact mapAnonymousSettled as prot low (settledRefl sane) own above high
  split
  · exact ⟨settledRefl sane,rfl⟩
  · exact mapAnonymousSettled as prot low (settledFree (settledRefl sane) own high) own above high

section

variable (low : Lowest lowest) (sane : Sane strict (leafFrom lowest) m owner) (own : IsRoot owner as.pml4)
include low sane own

theorem mmapAnywhereSettled {prot} (bounds : Bounds lowest as) : Settled strict lowest owner (m.mmapAnywhere as size prot).2.2 ∧
    (m.mmapAnywhere as size prot).2.1.pml4 = as.pml4 ∧ Bounds lowest (m.mmapAnywhere as size prot).2.1 := by
  unfold mmapAnywhere
  split
  · exact ⟨settledRefl sane,rfl,bounds⟩
  rename_i va found
  obtain ⟨above,below⟩ := findFreeBounds found
  have hint := bounds.hint
  have start := bounds.start
  have lowered : Bounds lowest {as with mmapHint := va} := ⟨show va ≤ mmapTop by omega,bounds.top,bounds.order,start⟩
  split
  · exact ⟨settledRefl sane,rfl,lowered⟩
  have high : va+size ≤ userEndAddr := by
    have top : mmapTop ≤ userEndAddr := by decide
    omega
  obtain ⟨settled,same⟩ := mapAnonymousSettled {as with mmapHint := va} prot low
    (settledRefl sane) own (le_trans start above) high
  rw [same]
  exact ⟨settled,rfl,lowered⟩

theorem mmapSettled {len prot flags off} (bounds : Bounds lowest as) :
    Settled strict lowest owner (m.sysMmap as addr len prot flags off).2.2 ∧
    (m.sysMmap as addr len prot flags off).2.1.pml4 = as.pml4 ∧ Bounds lowest (m.sysMmap as addr len prot flags off).2.1 := by
  unfold sysMmap
  dsimp only
  split
  · exact ⟨settledRefl sane,rfl,bounds⟩
  split
  · exact ⟨settledRefl sane,rfl,bounds⟩
  split
  · obtain ⟨settled,same⟩ := mmapFixedSettled prot (flags.getLsbD 20) low sane own (alignUpSmall len.toNat) addr.isLt
    rw [same]
    exact ⟨settled,rfl,bounds⟩
  · exact mmapAnywhereSettled low sane own bounds

end

theorem munmapSettled {len} (sane : Sane strict (leafFrom lowest) m owner)
    (own : IsRoot owner as.pml4) (bounds : Bounds lowest as) :
    Settled strict lowest owner (m.sysMunmap as addr len).2.2 ∧
    (m.sysMunmap as addr len).2.1.pml4 = as.pml4 ∧ Bounds lowest (m.sysMunmap as addr len).2.1 := by
  unfold sysMunmap
  dsimp only
  split
  · exact ⟨settledRefl sane,rfl,bounds⟩
  rename_i accepted
  simp only [Bool.or_eq_true,Bool.not_eq_true',not_or,Bool.not_eq_false] at accepted
  obtain ⟨exact',high,_⟩ := userRangeBound accepted.2 (alignUpSmall len.toNat) addr.isLt
  rw [exact']
  have hint := bounds.hint
  refine ⟨settledFree (settledRefl sane) own high,rfl,?_,bounds.top,bounds.order,bounds.start⟩
  dsimp only
  split <;> omega

theorem growStackSettled (addr) (low : Lowest lowest) (sane : Sane strict (leafFrom lowest) m owner)
    (own : IsRoot owner as.pml4) : Settled strict lowest owner (m.growStack as addr).2 := by
  unfold growStack
  split
  · rename_i inStack
    simp only [Bool.and_eq_true,decide_eq_true_eq] at inStack
    have small := low.small
    have place : lowest ≤ alignDownPage addr ∧ alignDownPage addr + pageSize ≤ userEndAddr := by
      unfold alignDownPage pageSize userEndAddr userStackMax mmapMin at *
      omega
    exact settledAlloc low (settledRefl sane) own place.1 place.2 (by decide)
  · exact settledRefl sane

end Miviex.Machine
