import Miviex.AddressSpaceInvariant

/-! The access the hardware grants, against the access a leaf entry records. The walk of
the hardware ends at a page of any size and takes a bit only if every level has it. -/
namespace Miviex.Machine
open RadixForest

def accessOf (entries : List Entry) : Bool × Bool := (entries.all Entry.user,entries.all Entry.write)

section

variable (m : Machine) (pml4 : Frame) (va : Nat)

def hardwareAccess : Option (Bool × Bool) :=
  let e4 := m.tables pml4 (index 39 va)
  let e3 := m.tables e4.frame (index 30 va)
  let e2 := m.tables e3.frame (index 21 va)
  let e1 := m.tables e2.frame (index 12 va)
  if !e4.present || !e3.present then none
  else if e3.huge then some (accessOf [e4,e3])
  else if !e2.present then none
  else if e2.huge then some (accessOf [e4,e3,e2])
  else if !e1.present then none
  else some (accessOf [e4,e3,e2,e1])

def leafAccess : Option (Bool × Bool) :=
  (m.leaf pml4 va).map (fun e => (e.user,e.write))

def userPath : Bool :=
  let e4 := m.tables pml4 (index 39 va)
  let e3 := m.tables e4.frame (index 30 va)
  let e2 := m.tables e3.frame (index 21 va)
  e4.user && e3.user && e2.user

end

variable {strict : Prop} {leafOk : List Nat → Prop} {m : Machine} {owner : Owner} {root : Frame} {va : Nat}

structure Upper (m : Machine) (root : Frame) (va : Nat) (pml3 pml2 pml1 : Frame) : Prop where
  first : (m.tables root (index 39 va)).present = true ∧ (m.tables root (index 39 va)).write = true ∧
    (m.tables root (index 39 va)).huge = false ∧ (m.tables root (index 39 va)).frame = pml3
  second : (m.tables pml3 (index 30 va)).present = true ∧ (m.tables pml3 (index 30 va)).write = true ∧
    (m.tables pml3 (index 30 va)).huge = false ∧ (m.tables pml3 (index 30 va)).frame = pml2
  third : (m.tables pml2 (index 21 va)).present = true ∧ (m.tables pml2 (index 21 va)).write = true ∧
    (m.tables pml2 (index 21 va)).huge = false ∧ (m.tables pml2 (index 21 va)).frame = pml1

variable {i : Nat} {as : AddressSpace} {flags : BitVec 12}

section

variable (sane : Sane strict leafOk m owner)
include sane

theorem followUpper {f g r q} (own : owner f = some (r,q)) (short : q.length < 3) (valid : validIndex q i)
    (found : m.follow f i = some g) :
    (m.tables f i).present = true ∧ (m.tables f i).write = true ∧ (m.tables f i).huge = false ∧ (m.tables f i).frame = g := by
  obtain ⟨_,present,frame⟩ := followOwned sane own (by omega) valid found
  obtain ⟨write,huge⟩ := sane.upper f r q i own short valid present
  exact ⟨present,write,huge,frame⟩

section

variable (own : IsRoot owner root)
include own

theorem walkUpper {pml3 pml2 pml1} (low : va < 2^47) (walk : Walk m root va pml3 pml2 pml1) :
    Upper m root va pml3 pml2 pml1 := by
  obtain ⟨own3,own2,_⟩ := walkOwned sane own low walk
  exact ⟨followUpper sane own (by decide) (indexTop low) walk.first,
    followUpper sane own3 (by simp) (indexValid _ 30 va (by simp)) walk.second,
    followUpper sane own2 (by simp) (indexValid _ 21 va (by simp)) walk.third⟩

theorem hardwareMapped {e} (low : va < 2^47) (found : m.leaf root va = some e) :
    m.hardwareAccess root va = some (m.userPath root va && e.user,e.write) := by
  obtain ⟨pml1,i,place,entry,present⟩ := leafSome found
  obtain ⟨rfl,pml3,pml2,walk⟩ := pteSome place
  obtain ⟨⟨p4,w4,_,f4⟩,⟨p3,w3,h3,f3⟩,p2,w2,h2,f2⟩ := walkUpper sane own low walk
  simp [hardwareAccess,userPath,accessOf,p4,w4,f4,p3,w3,h3,f3,p2,w2,h2,f2,entry,present,Bool.and_assoc]

theorem hardwareUnmapped
    (low : va < 2^47) (unmapped : m.leaf root va = none) : m.hardwareAccess root va = none := by
  have child : ∀ {f r q i}, owner f = some (r,q) → q.length < 3 → validIndex q i → (m.tables f i).present = true →
      (m.tables f i).huge = false ∧ m.follow f i = some (m.tables f i).frame ∧
        owner (m.tables f i).frame = some (r,q ++ [i]) := by
    intro f r q i ownF short valid present
    have huge := (sane.upper f r q i ownF short valid present).2
    exact ⟨huge,by simp [follow,present,huge],
      sane.forest.child f r q i _ ownF (by omega) valid (targetSome.mpr ⟨present,rfl⟩)⟩
  unfold hardwareAccess
  dsimp only
  cases p4 : (m.tables root (index 39 va)).present with
  | false => rfl
  | true =>
  obtain ⟨_,first,own3⟩ := child own (by decide) (indexTop low) p4
  generalize (m.tables root (index 39 va)).frame = pml3 at *
  cases p3 : (m.tables pml3 (index 30 va)).present with
  | false => rfl
  | true =>
  obtain ⟨h3,second,own2⟩ := child own3 (by simp) (indexValid _ 30 va (by simp)) p3
  generalize (m.tables pml3 (index 30 va)).frame = pml2 at *
  rw [h3]
  cases p2 : (m.tables pml2 (index 21 va)).present with
  | false => rfl
  | true =>
  obtain ⟨h2,third,_⟩ := child own2 (by simp) (indexValid _ 21 va (by simp)) p2
  generalize (m.tables pml2 (index 21 va)).frame = pml1 at *
  rw [h2]
  cases p1 : (m.tables pml1 (index 12 va)).present with
  | false => rfl
  | true => simp [leaf,pte,first,second,third,p1] at unmapped

end

end

theorem hardwareLeaf (sane : Sane True leafOk m owner) (own : IsRoot owner root)
    (low : va < 2^47) : m.hardwareAccess root va = m.leafAccess root va := by
  unfold leafAccess
  cases found : m.leaf root va with
  | none => exact hardwareUnmapped sane own low found
  | some e =>
  rw [hardwareMapped sane own low found]
  cases user : e.user with
  | false => simp [user]
  | true =>
  obtain ⟨pml1,i,place,entry,present⟩ := leafSome found
  obtain ⟨rfl,pml3,pml2,walk⟩ := pteSome place
  obtain ⟨⟨p4,_,_,f4⟩,⟨p3,_,_,f3⟩,p2,_,_,f2⟩ := walkUpper sane own low walk
  obtain ⟨own3,own2,_⟩ := walkOwned sane own low walk
  have u2 := sane.inherit trivial pml2 root _ (index 21 va) (index 12 va) own2 (by simp)
    (indexValid _ 21 va (by simp)) p2 (by rw [f2,entry,present]) (by rw [f2,entry,user])
  have u3 := sane.inherit trivial pml3 root _ (index 30 va) (index 21 va) own3 (by simp)
    (indexValid _ 30 va (by simp)) p3 (by rw [f3,p2]) (by rw [f3,u2])
  have u4 := sane.inherit trivial root root [] (index 39 va) (index 30 va) own (by decide)
    (indexTop low) p4 (by rw [f4,p3]) (by rw [f4,u3])
  simp [userPath,u4,f4,u3,f3,u2,user]

theorem foldReaches {α : Type} {body} (Inv Reached : Machine → Prop) {x}
    {xs : List α} (member : x ∈ xs) (each : ∀ y ∈ xs, ∀ n, Inv n → Inv (body n y))
    (reach : ∀ n, Inv n → Reached (body n x)) (keep : ∀ y n, Reached n → Reached (body n y))
    (start : Inv m) : Reached (xs.foldl body m) := by
  induction xs generalizing m with
  | nil => cases member
  | cons y rest ih =>
    rcases List.mem_cons.mp member with same | later
    · subst same
      exact foldInvariant Reached rest (fun y _ n h => keep y n h) (reach m start)
    exact ih later (fun z inside => each z (List.mem_cons_of_mem y inside)) (each y List.mem_cons_self m start)

theorem protectPageEntry {table} : (protectPage as flags m va).tables table i = m.tables table i ∨
    (protectPage as flags m va).tables table i = {m.tables table i with flags := flags} := by
  unfold protectPage
  split
  · exact .inl rfl
  rename_i t j _
  split
  · by_cases here : table = t ∧ i = j
    · obtain ⟨rfl,rfl⟩ := here
      rw [setEntryTables,writeSame]
      exact .inr rfl
    rw [setEntryTables,writeOther _ _ (fun h k => here ⟨h,k⟩)]
    exact .inl rfl
  · exact .inl rfl

theorem sameUpperPath {n} (same : SameUpper owner m n) (sane : Sane strict leafOk m owner)
    (own : IsRoot owner root) (low : va < 2^47) {pml3 pml2 pml1}
    (walk : Walk m root va pml3 pml2 pml1) : n.userPath root va = m.userPath root va := by
  obtain ⟨⟨_,_,_,f4⟩,⟨_,_,_,f3⟩,_⟩ := walkUpper sane own low walk
  obtain ⟨own3,own2,_⟩ := walkOwned sane own low walk
  unfold userPath
  dsimp only
  rw [same.upper root root [] own (by decide),f4,same.upper pml3 root _ own3 (by simp),f3,
    same.upper pml2 root _ own2 (by simp)]

section

variable (sane : Sane strict leafOk m owner)
include sane

theorem grantedPath {table}
    (own : IsRoot owner root) (low : va < 2^47) (place : m.pte root va = some (table,i))
    (user : m.userPath root va = true) : Granted m owner table := by
  obtain ⟨_,pml3,pml2,walk⟩ := pteSome place
  obtain ⟨⟨_,_,_,f4⟩,⟨_,_,_,f3⟩,p2,_,_,f2⟩ := walkUpper sane own low walk
  obtain ⟨_,own2,_⟩ := walkOwned sane own low walk
  simp only [userPath,f4,f3,Bool.and_eq_true] at user
  have granted := grantedChild sane own2 (by simp) (indexValid _ 21 va (by simp)) p2 user.2
  rwa [f2] at granted

theorem saneWeaken : Sane False leafOk m owner :=
  ⟨sane.forest,sane.used,sane.upper,fun h => h.elim,sane.floor,sane.kernel⟩

theorem protectedLeaf {start stop e} (own : IsRoot owner as.pml4)
    (inside : ∀ va ∈ pages start stop, va < 2^47) (there : flags.getLsbD 0 = true)
    (member : va ∈ pages start stop) (found : m.leaf as.pml4 va = some e) :
    (m.vmmProtectRange as start stop flags).leaf as.pml4 va = some ⟨e.frame,flags⟩ := by
  have low := inside va member
  obtain ⟨table,i,place,entry,present⟩ := leafSome found
  obtain ⟨_,same⟩ := protectRangeSane (saneWeaken sane) own inside there (fun h => h.elim)
  have written : (m.vmmProtectRange as start stop flags).tables table i = ⟨e.frame,flags⟩ := by
    refine foldReaches (fun n => Sane False leafOk n owner ∧ SameUpper owner m n ∧
        (n.tables table i).frame = e.frame) (fun n => n.tables table i = ⟨e.frame,flags⟩) member
      (fun w memberW n reached => ?_) (fun n reached => ?_) (fun w n reached => ?_)
      ⟨saneWeaken sane,⟨fun _ _ _ _ _ => rfl,fun _ _ => rfl⟩,by rw [entry]⟩
    · obtain ⟨saneN,sameN,frame⟩ := reached
      have lowW := inside w memberW
      refine ⟨protectPageSane saneN own lowW there (fun h => h.elim),
        sameUpperTrans sameN (protectPageSame saneN own lowW there),?_⟩
      rcases protectPageEntry (m := n) with h | h <;> rw [h] <;> exact frame
    · obtain ⟨saneN,sameN,frame⟩ := reached
      have placeN := (sameUpperPte sameN (saneWeaken sane) own low).trans place
      have presentN : (n.tables table i).present = true := by rw [sameN.present,entry,present]
      unfold protectPage
      rw [placeN]
      dsimp only
      rw [if_pos presentN,setEntryTables,writeSame,frame]
    · rcases protectPageEntry (m := n) with h | h <;> rw [h,reached]
  have placeAfter := (sameUpperPte same (saneWeaken sane) own low).trans place
  simp [leaf,placeAfter,written,Entry.present,there]

theorem protectClash {start stop} (own : IsRoot owner as.pml4)
    (inside : ∀ va ∈ pages start stop, va < 2^47) (there : flags.getLsbD 0 = true)
    (user : flags.getLsbD 2 = true) (member : va ∈ pages start stop)
    (mapped : (m.vmmTranslate as va).isSome = true) (hidden : m.userPath as.pml4 va = false) :
    (m.vmmProtectRange as start stop flags).hardwareAccess as.pml4 va ≠
    (m.vmmProtectRange as start stop flags).leafAccess as.pml4 va := by
  obtain ⟨phys,found⟩ := Option.isSome_iff_exists.mp mapped
  obtain ⟨e,leaf,_⟩ := translateSome found
  obtain ⟨table,i,place,_⟩ := leafSome leaf
  obtain ⟨_,pml3,pml2,walk⟩ := pteSome place
  have low := inside va member
  obtain ⟨after,same⟩ := protectRangeSane (saneWeaken sane) own inside there (fun h => h.elim)
  have written := protectedLeaf sane own inside there member leaf
  rw [hardwareMapped after own low written,sameUpperPath same sane own low walk,hidden,leafAccess,written]
  simp [Entry.user,user]

end

end Miviex.Machine
