import Miviex.FrameOwnership
import Miviex.ElfLoaderInvariant

/-! The deep copy of fork as its caller sees it: the same pages with the same bytes, frames of
its own, and after a failure the allocator as it was. -/
namespace Miviex.Machine
open RadixForest

variable {start m : Machine} {roots held lost : List Frame} {role : Frame → Option Role}

theorem Ledger.wellFormed (ledger : Ledger start roots held lost m role) : WellFormed m (tableOwner role) :=
  ⟨ledger.trees,fun r own => ledger.leavesUsed ((ledger.tops r).mp (tableOwnerSome.mp own))⟩

def written (m : Machine) (writes : List (AddressSpace × Nat × List Byte)) : Machine :=
  writes.foldl (fun m w => (m.vmmCopyTo w.1 w.2.1 w.2.2).2) m

theorem writtenSame (m : Machine) (writes : List (AddressSpace × Nat × List Byte)) : SameTables m (m.written writes) := by
  induction writes generalizing m with
  | nil => exact sameTablesRefl m
  | cons w rest ih => exact sameTablesTrans (copySame m w.1 w.2.1 w.2.2) (ih _)

theorem writtenLeaf (m : Machine) (writes : List (AddressSpace × Nat × List Byte)) (r x) :
    (m.written writes).leaf r x = m.leaf r x := leafTables (writtenSame m writes).tables r x

/- fork: the copy has the pages of the source with their flags and bytes and shares no frame
with any other space; a failed copy leaves the allocator and the source as they were. -/
theorem forkCopies (m : Machine) (owner : Owner) (src : AddressSpace) (formed : WellFormed m owner)
    (own : owner src.pml4 = some (src.pml4,[])) (result : Option AddressSpace) (n : Machine)
    (clone : m.vmmClone src = (result,n)) :
    (∀ dst, result = some dst → (dst.brkStart = src.brkStart ∧ dst.brk = src.brk ∧ dst.mmapHint = src.mmapHint) ∧
    (∀ va, va < 2^47 → n.leaf src.pml4 va = m.leaf src.pml4 va ∧
    ((n.vmmTranslate dst va).isSome = (n.vmmTranslate src va).isSome) ∧
    ∀ e, n.leaf src.pml4 va = some e → ∃ c, n.leaf dst.pml4 va = some ⟨c,e.flags⟩ ∧ n.data c = n.data e.frame) ∧
    (∀ r f, owner r = some (r,[]) → n.Reaches dst.pml4 f → ¬ n.Reaches r f) ∧
    ∀ writes va bytes x e, va + bytes.length ≤ 2^47 → x < 2^47 → ((n.written writes).leaf dst.pml4 x = some e →
    ((n.written writes).vmmCopyTo src va bytes).2.data e.frame = (n.written writes).data e.frame) ∧
    ((n.written writes).leaf src.pml4 x = some e →
    ((n.written writes).vmmCopyTo dst va bytes).2.data e.frame = (n.written writes).data e.frame)) ∧
    (result = none → n.used = m.used ∧ ∀ g, m.used g = true → n.tables g = m.tables g ∧ n.data g = m.data g) := by
  obtain ⟨copied,failed⟩ := vmmCloneCopies formed.trees own (formed.leaves src.pml4 own) clone
  refine ⟨fun dst found => ?_,fun none => ⟨(failed none).1,(failed none).2.2⟩⟩
  obtain ⟨after,cloned⟩ := copied dst found
  have leafSrc x (low : x < 2^47) : n.leaf src.pml4 x = m.leaf src.pml4 x :=
    leafSame formed.trees own cloned.tables low
  have fresh : ∀ {x e}, x < 2^47 → n.leaf dst.pml4 x = some e → m.used e.frame = false := fun low there =>
    cloned.apart _ ((belowLeaf cloned.trees cloned.root).mpr (.inr ⟨_,_,low,there,rfl⟩))
  have old : ∀ {x e}, x < 2^47 → n.leaf src.pml4 x = some e → m.used e.frame = true := by
    intro x e low there
    rw [leafSrc x low] at there
    exact formed.leaves src.pml4 own x e low there
  have differ : ∀ {x y e d}, x < 2^47 → y < 2^47 → n.leaf dst.pml4 x = some e → n.leaf src.pml4 y = some d →
      e.frame ≠ d.frame := by
    intro x y e d lowX lowY one two same
    have free := fresh lowX one
    rw [same,old lowY two] at free
    cases free
  refine ⟨?_,fun va low => ⟨leafSrc va low,?_,fun e there => ?_⟩,fun r f ownR reached other => ?_,
    fun writes va bytes x e inside low => ⟨fun there => ?_,fun there => ?_⟩⟩
  · rw [cloned.layout]
    exact ⟨rfl,rfl,rfl⟩
  · unfold vmmTranslate
    rw [Option.isSome_map,Option.isSome_map,leafSrc va low]
    obtain ⟨some,none⟩ := cloned.copied va low
    cases mapped : m.leaf src.pml4 va with
    | none => rw [none mapped]
    | some e =>
      obtain ⟨c,there,_⟩ := some e mapped
      rw [there]
      rfl
  · have taken := old low there
    rw [leafSrc va low] at there
    obtain ⟨c,mapped,bytes⟩ := (cloned.copied va low).some e there
    exact ⟨c,mapped,by rw [bytes,cloned.data _ taken]⟩
  · have free := cloned.apart f ((belowReaches cloned.trees cloned.root).mpr reached)
    obtain ⟨p,path,walk⟩ := other
    rw [descendSame formed.trees ownR cloned.tables path] at walk
    rw [formed.reaches ownR ⟨p,path,walk⟩] at free
    cases free
  · rw [writtenLeaf] at there
    refine copyToData inside (fun y d lowY two => ?_)
    rw [writtenLeaf] at two
    exact (differ low lowY there two).symm
  rw [writtenLeaf] at there
  refine copyToData inside (fun y d lowY two => ?_)
  rw [writtenLeaf] at two
  exact differ lowY low two there

end Miviex.Machine

namespace Miviex.SpaceUse
open Machine

theorem pageCloned : ∃ (m n : Machine) (src dst : AddressSpace) (c : Frame), m.vmmClone src = (some dst,n) ∧
    n.leaf src.pml4 0x5000 = some ⟨2,7⟩ ∧ n.leaf dst.pml4 0x5000 = some ⟨c,7⟩ ∧ n.data c = n.data 2 ∧
    ¬ n.Reaches src.pml4 dst.pml4 := by
  let frames : List (Option Frame) := [some 1,some 2,some 3,some 4,some 5,some 6,some 7,some 8,some 9,some 10]
  let base : Machine := {bare frames with heap := [true,true]}
  let src : AddressSpace := ⟨1,0,0,mmapTop⟩
  let made := base.vmmCreateAddressSpace.2
  let m := (made.vmmAllocRange src 0x5000 0x6000 7).2
  let n := (m.vmmClone src).2
  have enough : strandedIn src 7 made (pages 0x5000 0x6000) = false := by decide +kernel
  obtain ⟨_,begun⟩ := @startBooks base (fun _ => rfl)
  obtain ⟨_,created⟩ := (@stepBooks _ _ ⟨made,[src],[]⟩ .create _ begun trivial rfl).1 id
  obtain ⟨_,filled⟩ := (@stepBooks _ _ ⟨m,[src],[]⟩ (.allocRange src 0x5000 0x6000 7) _ created ⟨by decide,by decide⟩ rfl).1
    (fun strands => Bool.false_ne_true (enough.symm.trans strands))
  have cloned : (m.vmmClone src).1 = some {src with pml4 := 6} := by decide +kernel
  have clone : m.vmmClone src = (some {src with pml4 := 6},n) := Prod.ext cloned rfl
  have mapped : n.leaf src.pml4 0x5000 = some ⟨2,7⟩ := by decide +kernel
  have own := filled.ledger.own (List.mem_map_of_mem (show src ∈ [src] from List.mem_cons_self))
  have copies := (forkCopies m _ src filled.ledger.wellFormed own _ n clone).1 _ rfl
  obtain ⟨c,there,same⟩ := (copies.2.1 0x5000 (by decide)).2.2 _ mapped
  have top : n.Reaches 6 6 := ⟨[],⟨by decide,by simp,by simp⟩,rfl⟩
  exact ⟨m,n,src,_,c,clone,mapped,there,same,copies.2.2.1 src.pml4 6 own top⟩

end Miviex.SpaceUse
