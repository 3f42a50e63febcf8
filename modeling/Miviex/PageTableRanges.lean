import Miviex.PageTableMapping

/-! Range operations: allocating, freeing and protecting user pages keep the forest. -/
namespace Miviex.Machine
open List Option
open RadixForest

variable {strict : Prop} {leafOk : List Nat → Prop} {m : Machine} {owner : Owner}

variable {root : Frame} {i va : Nat} {as : AddressSpace}

theorem followOwned {f g q} (sane : Sane strict leafOk m owner)
    (own : owner f = some (root,q)) (short : q.length < 4) (valid : validIndex q i) (found : m.follow f i = some g) :
    owner g = some (root,q ++ [i]) ∧ (m.tables f i).present = true ∧ (m.tables f i).frame = g := by
  unfold follow at found
  dsimp only at found
  split at found
  · cases found
  rename_i open'
  cases found
  have present : (m.tables f i).present = true := by
    cases h : (m.tables f i).present with
    | false => simp [h] at open'
    | true => rfl
  exact ⟨sane.forest.child f root q i _ own short valid (targetSome.mpr ⟨present,rfl⟩),present,rfl⟩

structure Walk (m : Machine) (root : Frame) (va : Nat) (pml3 pml2 pml1 : Frame) : Prop where
  first : m.follow root (index 39 va) = some pml3
  second : m.follow pml3 (index 30 va) = some pml2
  third : m.follow pml2 (index 21 va) = some pml1

theorem pteSome {table} (found : m.pte root va = some (table,i)) :
    i = index 12 va ∧ ∃ pml3 pml2, Walk m root va pml3 pml2 table := by
  unfold pte at found
  simp only [bind,bind_eq_some_iff,Option.some.injEq,Prod.mk.injEq] at found
  obtain ⟨pml3,first,pml2,second,pml1,third,rfl,rfl⟩ := found
  exact ⟨rfl,pml3,pml2,first,second,third⟩

theorem walkPte {root pml3 pml2 pml1} (walk : Walk m root va pml3 pml2 pml1) : m.pte root va = some (pml1,index 12 va) := by
  simp [pte,walk.first,walk.second,walk.third]

section

variable (sane : Sane strict leafOk m owner)
include sane

theorem walkOwned {root pml3 pml2 pml1}
    (own : IsRoot owner root) (low : va < 2^47) (walk : Walk m root va pml3 pml2 pml1) :
    owner pml3 = some (root,[index 39 va]) ∧ owner pml2 = some (root,[index 39 va,index 30 va]) ∧
    owner pml1 = some (root,[index 39 va,index 30 va,index 21 va]) := by
  obtain ⟨own3,_⟩ := followOwned sane own (by decide) (indexTop low) walk.first
  obtain ⟨own2,_⟩ := followOwned sane own3 (by simp) (indexValid _ 30 va (by simp)) walk.second
  obtain ⟨own1,_⟩ := followOwned sane own2 (by simp) (indexValid _ 21 va (by simp)) walk.third
  exact ⟨own3,own2,own1⟩

theorem pteOwned {table} (own : IsRoot owner root) (low : va < 2^47) (found : m.pte root va = some (table,i)) :
    owner table = some (root,[index 39 va,index 30 va,index 21 va]) ∧ i = index 12 va := by
  obtain ⟨index,pml3,pml2,walk⟩ := pteSome found
  exact ⟨(walkOwned sane own low walk).2.2,index⟩

theorem followLinked {g q} (own : owner g = some (root,q ++ [i])) (short : q.length < 3) :
    ∃ f, owner f = some (root,q) ∧ m.follow f i = some g := by
  obtain ⟨_,valid,f,ownF,points⟩ := sane.forest.linked g root q i own
  obtain ⟨present,rfl⟩ := targetSome.mp points
  have upper := sane.upper f root q i ownF short valid present
  exact ⟨f,ownF,by simp [follow,present,upper.2]⟩

theorem leafOfOwner {g} (own : owner g = some (root,path va)) : ∃ e, m.leaf root va = some e ∧ e.frame = g := by
  obtain ⟨_,_,pml1,own1,points⟩ :=
    sane.forest.linked g root [index 39 va,index 30 va,index 21 va] (index 12 va) own
  obtain ⟨pml2,own2,third⟩ := followLinked (q := [index 39 va,index 30 va]) sane own1 (by simp)
  obtain ⟨pml3,own3,second⟩ := followLinked (q := [index 39 va]) sane own2 (by simp)
  obtain ⟨top,own4,first⟩ := followLinked (q := []) sane own3 (by simp)
  cases sane.forest.root top root own4
  obtain ⟨present,frame⟩ := targetSome.mp points
  refine ⟨m.tables pml1 (index 12 va),?_,frame⟩
  simp [leaf,pte,first,second,third,present]

end

theorem leafSome {e} (found : m.leaf root va = some e) :
    ∃ table i, m.pte root va = some (table,i) ∧ m.tables table i = e ∧ e.present = true := by
  unfold leaf at found
  cases place : m.pte root va with
  | none => simp [place] at found
  | some pair =>
  obtain ⟨table,i⟩ := pair
  rw [place,bind_some] at found
  dsimp only at found
  split at found
  · rename_i present
    cases found
    exact ⟨table,i,rfl,rfl,present⟩
  · cases found

variable {n : Machine}

theorem followCongr {f i} (same : n.tables f i = m.tables f i) : n.follow f i = m.follow f i := by
  unfold follow
  rw [same]

/- Two machines walk alike where the tables on the way agree. -/
theorem pteCongr (first : n.follow root (index 39 va) = m.follow root (index 39 va))
    (second : ∀ f, m.follow root (index 39 va) = some f → n.follow f (index 30 va) = m.follow f (index 30 va))
    (third : ∀ f g, m.follow root (index 39 va) = some f → m.follow f (index 30 va) = some g →
    n.follow g (index 21 va) = m.follow g (index 21 va)) : n.pte root va = m.pte root va := by
  unfold pte
  rw [first]
  cases pml3 : m.follow root (index 39 va) with
  | none => rfl
  | some f =>
  simp only [bind,bind_some]
  rw [second f pml3]
  cases pml2 : m.follow f (index 30 va) with
  | none => rfl
  | some g =>
    simp only [bind_some]
    rw [third f g pml3 pml2]

theorem leafCongr (walk : n.pte root va = m.pte root va)
    (last : ∀ table i, m.pte root va = some (table,i) → n.tables table i = m.tables table i) :
    n.leaf root va = m.leaf root va := by
  unfold leaf
  rw [walk]
  cases place : m.pte root va with
  | none => rfl
  | some pair =>
    rw [bind_some,bind_some]
    rw [last pair.1 pair.2 place]

theorem leafOwned {e} (sane : Sane strict leafOk m owner)
    (own : IsRoot owner root) (low : va < 2^47) (found : m.leaf root va = some e) :
    owner e.frame = some (root,path va) ∧ leafOk (path va) := by
  obtain ⟨table,i,place,rfl,present⟩ := leafSome found
  obtain ⟨ownT,rfl⟩ := pteOwned sane own low place
  have valid := indexValid [index 39 va,index 30 va,index 21 va] 12 va (by simp)
  exact ⟨sane.forest.child table root _ _ _ ownT (by simp) valid (targetSome.mpr ⟨present,rfl⟩),
    sane.floor table root _ _ ownT rfl valid present⟩

theorem untilFailureInvariant {σ α body s} (Inv : σ → Prop)
    (xs : List α) (each : ∀ x ∈ xs, ∀ t, Inv t → Inv (body t x).2) (start : Inv s) : Inv (untilFailure body s xs).2 := by
  induction xs generalizing s with
  | nil => exact start
  | cons x rest ih =>
  have after := each x mem_cons_self s start
  unfold untilFailure
  cases result : body s x with
  | mk done n =>
    rw [result] at after
    cases done with
    | false => exact after
    | true => exact ih (fun y member => each y (mem_cons_of_mem x member)) after

theorem foldInvariant {α : Type} {body} (Inv : Machine → Prop)
    (xs : List α) (each : ∀ x ∈ xs, ∀ n, Inv n → Inv (body n x)) (start : Inv m) : Inv (xs.foldl body m) :=
  foldlRecOn xs body start (fun n reached x member => each x member n reached)

theorem pagesBound {start stop} (member : va ∈ pages start stop) :
    alignDownPage start ≤ va ∧ va < stop ∧ va % pageSize = 0 := by
  obtain ⟨i,below,rfl⟩ := List.mem_map.mp member
  rw [mem_range] at below
  unfold alignDownPage pageSize at *
  omega

theorem translateNone (unmapped : m.vmmTranslate as va = none) : m.leaf as.pml4 va = none := by
  exact map_eq_none_iff.mp unmapped

theorem translateSome {phys} (mapped : m.vmmTranslate as va = some phys) :
    ∃ e, m.leaf as.pml4 va = some e ∧ phys / pageSize = e.frame := by
  obtain ⟨e,found,rfl⟩ := map_eq_some_iff.mp mapped
  refine ⟨e,found,?_⟩
  unfold pageSize
  omega

section

variable (sane : Sane strict leafOk m owner)
include sane

theorem allocPageSane {flags}
    (own : IsRoot owner as.pml4) (low : va < 2^47) (ok : leafOk (path va))
    (present : flags.getLsbD 0 = true) : ∃ after, Sane strict leafOk (m.allocPage as flags va).2 after ∧
    Keeps m owner (m.allocPage as flags va).2 after := by
  unfold allocPage
  cases mapped : m.vmmTranslate as va with
  | none =>
    have unmapped := translateNone mapped
    cases alloc : m.pmmAllocPage with
    | mk found mid =>
    cases found with
    | none =>
      obtain ⟨after,keeps⟩ := (allocIdle alloc).sane sane
      exact ⟨owner,after,keeps⟩
    | some f =>
    obtain ⟨after,keeps,free,taken⟩ := (allocTakes alloc).sane sane
    have zeroed : Sane strict leafOk (mid.zeroFrame f) owner := saneOutside after rfl (fun _ _ => rfl) after.used
    have vacant : ∀ g, owner g ≠ some (as.pml4,path va) := by
      intro g role
      obtain ⟨e,found,_⟩ := leafOfOwner sane role
      rw [unmapped] at found
      cases found
    dsimp only
    cases map : (mid.zeroFrame f).vmmMapPage as va f flags with
    | mk done n =>
    obtain ⟨last,saneLast,maps⟩ := mapPageSane zeroed own low taken (.inl free) ok present map
    refine ⟨last,saneLast,fun g used => maps.used g (keeps.used g used),fun g used => ?_⟩
    have other : g ≠ f := by
      rintro rfl
      rw [(allocTakes alloc).free] at used
      cases used
    exact maps.others g (keeps.used g used) other (vacant g)
  | some phys =>
    dsimp only
    split
    · exact ⟨owner,sane,keepsRefl m owner⟩
    obtain ⟨e,found,frame⟩ := translateSome mapped
    obtain ⟨role,_⟩ := leafOwned sane own low found
    rw [frame]
    have taken := sane.used e.frame (by rw [role]; simp)
    cases map : m.vmmMapPage as va e.frame flags with
    | mk done n =>
    obtain ⟨last,saneLast,maps⟩ := mapPageSane sane own low taken (.inr role) ok present map
    refine ⟨last,saneLast,maps.used,fun g used => ?_⟩
    by_cases same : g = e.frame
    · subst same
      cases done with
      | false => exact maps.failed rfl taken
      | true => rw [maps.mapped rfl,role]
    · exact maps.others g used same (fun again => same (ownerUnique sane.forest again role))

theorem keepsRoot {n after}
    (keeps : Keeps m owner n after) (own : IsRoot owner root) : IsRoot after root :=
  (keeps.owner root (sane.used root (by rw [own]; simp))).trans own

theorem allocRangeSane {start stop flags} (own : IsRoot owner as.pml4)
    (inside : ∀ va ∈ pages start stop, va < 2^47 ∧ leafOk (path va)) (present : flags.getLsbD 0 = true) :
    ∃ after, Sane strict leafOk (m.vmmAllocRange as start stop flags).2 after ∧
    Keeps m owner (m.vmmAllocRange as start stop flags).2 after := by
  refine untilFailureInvariant (fun n => ∃ after, Sane strict leafOk n after ∧ Keeps m owner n after)
    (pages start stop) (fun va member n reached => ?_) ⟨owner,sane,keepsRefl m owner⟩
  obtain ⟨after,saneN,keeps⟩ := reached
  obtain ⟨low,ok⟩ := inside va member
  obtain ⟨last,saneLast,step⟩ := allocPageSane saneN (keepsRoot sane keeps own) low ok present
  exact ⟨last,saneLast,keepsTrans keeps step⟩

end

def Roots (owner after : Owner) : Prop := ∀ r, owner r = some (r,[]) → after r = some (r,[])

section

variable (sane : Sane strict leafOk m owner)
include sane

theorem keepsRoots {n after}
    (keeps : Keeps m owner n after) : Roots owner after := fun _ own => keepsRoot sane keeps own

theorem freePageSane (own : IsRoot owner as.pml4) (low : va < 2^47) :
    ∃ after, Sane strict leafOk (freePage as m va) after ∧ Roots owner after := by
  unfold freePage
  cases place : m.pte as.pml4 va with
  | none => exact ⟨owner,sane,fun _ h => h⟩
  | some pair =>
  obtain ⟨table,i⟩ := pair
  dsimp only
  split
  swap
  · exact ⟨owner,sane,fun _ h => h⟩
  rename_i present
  obtain ⟨ownT,rfl⟩ := pteOwned sane own low place
  have valid := indexValid [index 39 va,index 30 va,index 21 va] 12 va (by simp)
  have child : owner (m.tables table (index 12 va)).frame = some (as.pml4,path va) :=
    sane.forest.child table as.pml4 _ _ _ ownT (by simp) valid (targetSome.mpr ⟨present,rfl⟩)
  have write : Writable strict leafOk m owner table as.pml4 [index 39 va,index 30 va,index 21 va]
      (index 12 va) .zero := by
    refine ⟨ownT,by simp,valid,?_,?_,?_,?_,?_,?_,?_⟩
    · intro h; cases h
    · intro short; simp at short
    · intro short; simp at short
    · intro short; simp at short
    · intro _ h; cases h
    · intro _ short; simp at short
    · intro _ h; cases h
  have cleared := saneWrite sane write
  have gone : assign owner (as.pml4,path va) none (m.tables table (index 12 va)).frame = none := by
    unfold assign
    rw [if_neg (by simp),if_pos child]
  refine ⟨assign owner (as.pml4,path va) none,?_,fun r root => ?_⟩
  · refine saneOutside cleared rfl (fun _ _ => rfl) (fun g owned => ?_)
    have other : g ≠ (m.tables table (index 12 va)).frame := by rintro rfl; exact owned gone
    have before := cleared.used g owned
    simpa [setEntry,pmmFreePage,other] using before
  refine (assignOther (fun n h => by cases h) ?_).mpr root
  simp [path]

theorem freeRangeSane {start stop}
    (own : IsRoot owner as.pml4) (inside : ∀ va ∈ pages start stop, va < 2^47) :
    ∃ after, Sane strict leafOk (m.vmmFreeRange as start stop) after ∧ Roots owner after := by
  refine foldInvariant (fun n => ∃ after, Sane strict leafOk n after ∧ Roots owner after)
    (pages start stop) (fun va member n reached => ?_) ⟨owner,sane,fun _ h => h⟩
  obtain ⟨after,saneN,roots⟩ := reached
  obtain ⟨last,saneLast,step⟩ := freePageSane saneN (roots as.pml4 own) (inside va member)
  exact ⟨last,saneLast,fun r h => step r (roots r h)⟩

end

end Miviex.Machine
