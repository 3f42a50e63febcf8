import Miviex.AddressSpaceInvariant

/-! The deep copy of fork: while the new tree grows, the source stays as it is. -/
namespace Miviex.Machine
open RadixForest

variable {strict : Prop} {leafOk : List Nat → Prop} {m : Machine} {owner : Owner}

def KeepsBut (dst : Frame) (owner after : Owner) : Prop :=
  ∀ g r q, owner g = some (r,q) → r ≠ dst ∨ q = [] → after g = some (r,q)

theorem keepsButRefl (dst owner) : KeepsBut dst owner owner := fun _ _ _ own _ => own

theorem keepsButTrans {dst after last} (first : KeepsBut dst owner after)
    (second : KeepsBut dst after last) : KeepsBut dst owner last :=
  fun g r q own apart => second g r q (first g r q own apart) apart

def Cloning (strict : Prop) (leafOk : List Nat → Prop) (dst : Frame) (owner : Owner) (n : Machine) : Prop :=
  ∃ after, Sane strict leafOk n after ∧ KeepsBut dst owner after

theorem cloningTrans {dst after n} (keeps : KeepsBut dst owner after)
    (cloning : Cloning strict leafOk dst after n) : Cloning strict leafOk dst owner n := by
  obtain ⟨last,sane,step⟩ := cloning
  exact ⟨last,sane,keepsButTrans keeps step⟩

theorem clonePageSane {dst va e} (sane : Sane strict leafOk m owner)
    (own : IsRoot owner dst.pml4) (low : va < 2^47) (ok : leafOk (path va))
    (present : e.present = true) : Cloning strict leafOk dst.pml4 owner (clonePage dst va m e).2 := by
  unfold clonePage
  cases alloc : m.pmmAllocPage with
  | mk found mid =>
  cases found with
  | none => exact ⟨owner,((allocIdle alloc).sane sane).1,keepsButRefl _ _⟩
  | some copy =>
  obtain ⟨saneMid,keeps,free,taken⟩ := (allocTakes alloc).sane sane
  dsimp only
  cases map : mid.vmmMapPage dst va copy e.flags with
  | mk done n =>
  obtain ⟨after,saneN,maps⟩ := mapPageSane saneMid own low taken (.inl free) ok present map
  have kept : KeepsBut dst.pml4 owner after := by
    intro g r q ownG apart
    have other : g ≠ copy := by rintro rfl; rw [ownG] at free; cases free
    have away : owner g ≠ some (dst.pml4,path va) := by
      intro again
      rw [ownG] at again
      cases Option.some.inj again
      rcases apart with h | h
      · exact h rfl
      · simp [path] at h
    rw [maps.others g (saneMid.used g (by rw [ownG]; simp)) other away,ownG]
  cases done with
  | true => exact ⟨after,saneOutside saneN rfl (fun _ _ => rfl) saneN.used,kept⟩
  | false =>
    refine ⟨after,saneOutside saneN rfl (fun _ _ => rfl) (fun g ownG => ?_),kept⟩
    have other : g ≠ copy := by
      rintro rfl
      rw [maps.failed rfl taken,free] at ownG
      exact ownG rfl
    simpa [pmmFreePage,other] using saneN.used g ownG

theorem cloneEntriesSane {dst src table q size skip inner} (sane : Sane strict leafOk m owner)
    (own : owner table = some (src,q)) (apart : src ≠ dst) (short : q.length < 4)
    (bound : ∀ i < size, validIndex q i) (absent : ∀ e, e.present = false → skip e = true)
    (step : ∀ i < size, ∀ n after e, Sane strict leafOk n after → KeepsBut dst owner after →
    after table = some (src,q) → n.tables table i = e → e.present = true →
    after e.frame = some (src,q ++ [i]) → Cloning strict leafOk dst after (inner i n e).2) :
    Cloning strict leafOk dst owner (cloneEntries size table skip inner m).2 := by
  refine untilFailureInvariant (Cloning strict leafOk dst owner) _ (fun i member n reached => ?_)
    ⟨owner,sane,keepsButRefl dst owner⟩
  obtain ⟨after,saneN,keeps⟩ := reached
  dsimp only
  split
  · exact ⟨after,saneN,keeps⟩
  rename_i wanted
  have inside := List.mem_range.mp member
  have present : (n.tables table i).present = true := by
    cases h : (n.tables table i).present with
    | false => exact absurd (absent _ h) wanted
    | true => rfl
  have ownT := keeps table src q own (.inl apart)
  have child := saneN.forest.child table src q i _ ownT short (bound i inside) (targetSome.mpr ⟨present,rfl⟩)
  exact cloningTrans keeps (step i inside n after _ saneN keeps ownT rfl present child)

theorem pathSum {i4 i3 i2 i1} (h4 : i4 < 512) (h3 : i3 < 512) (h2 : i2 < 512) (h1 : i1 < 512) :
    path (i4 * 2^39 + i3 * 2^30 + i2 * 2^21 + i1 * 2^12) = [i4,i3,i2,i1] := by
  unfold path index
  simp only [List.cons.injEq,and_true]
  omega

theorem cloneSane (dst : AddressSpace) {src} (sane : Sane strict leafOk m owner)
    (own : IsRoot owner dst.pml4) (ownSrc : IsRoot owner src.pml4)
    (apart : src.pml4 ≠ dst.pml4) : Cloning strict leafOk dst.pml4 owner (cloneL4 dst src m).2 := by
  have deep (q : List Nat) (h : q ≠ []) i (bound : i < 512) : validIndex q i := ⟨bound,fun empty => absurd empty h⟩
  refine cloneEntriesSane sane ownSrc apart (by decide) (fun i bound => ⟨by omega,fun _ => bound⟩)
    (fun e h => by simp [h]) (fun i4 b4 n4 o4 e4 s4 k4 _ _ _ own4 => ?_)
  refine cloneEntriesSane s4 own4 apart (by simp) (deep _ (by simp)) (fun e h => by simp [h])
    (fun i3 b3 n3 o3 e3 s3 k3 _ _ _ own3 => ?_)
  refine cloneEntriesSane s3 own3 apart (by simp) (deep _ (by simp)) (fun e h => by simp [h])
    (fun i2 b2 n2 o2 e2 s2 k2 _ _ _ own2 => ?_)
  refine cloneEntriesSane s2 own2 apart (by simp) (deep _ (by simp)) (fun e h => by simp [h])
    (fun i1 b1 n1 o1 e1 s1 k1 ownT same present own1 => ?_)
  have sum := pathSum (Nat.lt_trans b4 (by decide)) b3 b2 b1
  have root := k1 _ _ _ (k2 _ _ _ (k3 _ _ _ (k4 _ _ _ own (.inr rfl)) (.inr rfl)) (.inr rfl)) (.inr rfl)
  refine clonePageSane s1 root (by omega) ?_ present
  rw [sum]
  subst same
  exact s1.floor _ _ _ i1 ownT (by simp) (deep _ (by simp) i1 b1) present

theorem vmmCloneSane {src result n} (sane : Sane strict leafOk m owner) (ownSrc : IsRoot owner src.pml4)
    (clone : m.vmmClone src = (result,n)) : ∃ after, Sane strict leafOk n after ∧ Roots owner after ∧
    ∀ dst, result = some dst → IsRoot after dst.pml4 ∧ m.used dst.pml4 = false ∧
    dst = {src with pml4 := dst.pml4} := by
  unfold vmmClone at clone
  cases create : m.vmmCreateAddressSpace with
  | mk found mid =>
  rw [create] at clone
  cases found with
  | none =>
    cases clone
    obtain ⟨saneN,keeps⟩ := (createIdle create).sane sane
    exact ⟨owner,saneN,fun _ h => h,fun dst h => by cases h⟩
  | some new =>
  obtain ⟨planted,saneMid,keeps,ownNew,unused,_⟩ := createSane sane create
  have srcMid := keepsRoot sane keeps ownSrc
  have apart : src.pml4 ≠ new.pml4 := by
    intro same
    rw [← same,sane.used src.pml4 (by rw [ownSrc]; simp)] at unused
    cases unused
  obtain ⟨after,saneAfter,kept⟩ := cloneSane {src with pml4 := new.pml4} saneMid ownNew srcMid apart
  have roots : Roots owner after := fun r own => kept r r [] (keepsRoot sane keeps own) (.inr rfl)
  dsimp only at clone
  cases copied : cloneL4 {src with pml4 := new.pml4} src mid with
  | mk done last =>
  rw [copied] at clone saneAfter
  cases done with
  | true =>
    cases clone
    refine ⟨after,saneAfter,roots,fun dst h => ?_⟩
    cases Option.some.inj h
    exact ⟨kept new.pml4 new.pml4 [] ownNew (.inr rfl),unused,rfl⟩
  | false =>
  cases clone
  have ownDst := kept new.pml4 new.pml4 [] ownNew (.inr rfl)
  refine ⟨forget after new.pml4,destroySane {src with pml4 := new.pml4} saneAfter ownDst,?_,
    fun dst h => by cases h⟩
  intro r own
  have other : r ≠ new.pml4 := by
    intro same
    rw [← same,sane.used r (by rw [own]; simp)] at unused
    cases unused
  exact forgetSome.mpr ⟨roots r own,other⟩

end Miviex.Machine
