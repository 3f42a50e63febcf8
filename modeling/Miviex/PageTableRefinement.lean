import Miviex.PageTrees
import Miviex.SpaceUse

/-! Page tables refine a map from pages to leaf entries: in every run of mappings, one more call
changes the entry of its page in its space, or nothing. -/
namespace Miviex.Machine
open RadixForest

inductive KernelTable (m : Machine) : Nat → Frame → Prop where
  | top {i} (high : 256 ≤ i) (present : (m.boot i).present = true) : KernelTable m 3 (m.boot i).frame
  | under {level f i} (table : KernelTable m (level+2) f)
      (present : (m.tables f i).present = true) (plain : (m.tables f i).huge = false) :
      KernelTable m (level+1) (m.tables f i).frame

structure Reserved (m : Machine) : Prop where
  entries : ∀ i, m.used (m.boot i).frame = true
  tables : ∀ level f, KernelTable m level f → m.used f = true

variable {m n : Machine} {owner after : Owner}

/- They are in no tree, so that what happens in the trees does not reach them. -/
def Apart (m : Machine) (owner : Owner) : Prop := ∀ level f, KernelTable m level f → m.used f = true ∧ owner f = none

theorem kernelTableSame (apart : Apart m owner) (boot : n.boot = m.boot)
    (same : ∀ g, m.used g = true → owner g = none → n.tables g = m.tables g) {level f}
    (table : KernelTable n level f) : KernelTable m level f := by
  induction table with
  | top high present =>
    rw [boot] at present ⊢
    exact .top high present
  | @under level f i table present plain ih =>
    obtain ⟨taken,free⟩ := apart _ _ ih
    rw [same f taken free] at present plain ⊢
    exact .under ih present plain

theorem followSome {f g i} (found : m.follow f i = some g) :
    (m.tables f i).present = true ∧ (m.tables f i).huge = false ∧ (m.tables f i).frame = g := by
  unfold follow at found
  dsimp only at found
  split at found
  · cases found
  rename_i open'
  cases found
  rw [Bool.or_eq_true,Bool.not_eq_true',not_or,Bool.not_eq_false,Bool.not_eq_true] at open'
  exact ⟨open'.1,open'.2,rfl⟩

theorem kernelLeaf {r x} (trees : Trees m owner) (treesN : Trees n after) (own : IsRoot owner r)
    (ownN : IsRoot after r) (apart : Apart m owner) (boot : n.boot = m.boot)
    (same : ∀ g, m.used g = true → owner g = none → n.tables g = m.tables g) (high : 256 ≤ index 39 x) :
    n.leaf r x = m.leaf r x := by
  have kept : ∀ {level f}, KernelTable m level f → ∀ i, n.tables f i = m.tables f i := fun table i => by
    rw [same _ (apart _ _ table).1 (apart _ _ table).2]
  have top : n.tables r (index 39 x) = m.tables r (index 39 x) := by
    rw [trees.kernel r _ own high,treesN.kernel r _ ownN high,boot]
  have first f (found : m.follow r (index 39 x) = some f) : KernelTable m 3 f := by
    obtain ⟨present,_,frame⟩ := followSome found
    rw [trees.kernel r _ own high] at present frame
    exact frame ▸ .top high present
  have below : ∀ {level f i g}, KernelTable m (level+2) f → m.follow f i = some g → KernelTable m (level+1) g := by
    intro level f i g table found
    obtain ⟨present,plain,frame⟩ := followSome found
    exact frame ▸ .under table present plain
  have walk := pteCongr (followCongr top) (fun f found => followCongr (kept (first f found) _))
    (fun f g found next => followCongr (kept (below (first f found) next) _))
  refine leafCongr walk (fun table i found => ?_)
  obtain ⟨_,f,g,way⟩ := pteSome found
  exact kept (below (below (first f way.first) way.second) way.third) i

def hardwareWalk (m : Machine) (pml4 : Frame) (va : Nat) : Option Nat :=
  let e4 := m.tables pml4 (index 39 va)
  if !e4.present then none
  else
    let e3 := m.tables e4.frame (index 30 va)
    if !e3.present then none
    else if e3.huge then some (e3.frame / 2^18 * 2^18 * pageSize + va % 2^30)
    else
      let e2 := m.tables e3.frame (index 21 va)
      if !e2.present then none
      else if e2.huge then some (e2.frame / 2^9 * 2^9 * pageSize + va % 2^21)
      else
        let e1 := m.tables e2.frame (index 12 va)
        if e1.present then some (e1.frame * pageSize + va % pageSize) else none

def Walks (e d : Entry) : Prop := d.frame = e.frame ∧ d.present = e.present ∧ d.huge = e.huge

theorem hardwareWalkCongr {pml4 va} (same : ∀ f i, Walks (m.tables f i) (n.tables f i)) :
    n.hardwareWalk pml4 va = m.hardwareWalk pml4 va := by
  unfold hardwareWalk
  dsimp only
  obtain ⟨frame4,present4,_⟩ := same pml4 (index 39 va)
  rw [present4,frame4]
  obtain ⟨frame3,present3,huge3⟩ := same (m.tables pml4 (index 39 va)).frame (index 30 va)
  rw [present3,huge3,frame3]
  obtain ⟨frame2,present2,huge2⟩ := same (m.tables (m.tables pml4 (index 39 va)).frame (index 30 va)).frame (index 21 va)
  rw [present2,huge2,frame2]
  obtain ⟨frame1,present1,_⟩ :=
    same (m.tables (m.tables (m.tables pml4 (index 39 va)).frame (index 30 va)).frame (index 21 va)).frame (index 12 va)
  rw [present1,frame1]

structure UnderHuge (m : Machine) (pml4 : Frame) (va : Nat) (pml3 pml2 base : Frame) (flags : BitVec 12) : Prop where
  first : (m.tables pml4 (index 39 va)).present = true ∧ (m.tables pml4 (index 39 va)).frame = pml3
  second : (m.tables pml3 (index 30 va)).present = true ∧ (m.tables pml3 (index 30 va)).huge = false ∧
    (m.tables pml3 (index 30 va)).frame = pml2
  third : m.tables pml2 (index 21 va) = ⟨base,flags⟩ ∧ flags.getLsbD 0 = true ∧ flags.getLsbD 7 = true

theorem nextTablePresent {f i wantUser} (present : (m.tables f i).present = true) :
    (m.nextTable f i wantUser).1 = some (m.tables f i).frame ∧ (m.nextTable f i wantUser).2.used = m.used ∧
    ∀ g j, Walks (m.tables g j) ((m.nextTable f i wantUser).2.tables g j) := by
  unfold nextTable
  rw [if_pos present]
  refine ⟨rfl,?_,fun g j => ?_⟩
  · cases wantUser <;> rfl
  cases wantUser with
  | false => exact ⟨rfl,rfl,rfl⟩
  | true =>
  by_cases place : g = f ∧ j = i
  · obtain ⟨rfl,rfl⟩ := place
    obtain ⟨presentBit,_,_,hugeBit⟩ := setUserFlags (m.tables g j).flags
    rw [if_pos rfl,setEntryTables,writeSame]
    exact ⟨rfl,presentBit,hugeBit⟩
  rw [if_pos rfl,setEntryTables,writeOther m.tables _ (fun same again => place ⟨same,again⟩)]
  exact ⟨rfl,rfl,rfl⟩

theorem Walks.trans {a b c} (first : Walks a b) (second : Walks b c) : Walks a c :=
  ⟨second.1.trans first.1,second.2.1.trans first.2.1,second.2.2.trans first.2.2⟩

theorem regionIndices {x va} (region : x / 2^21 = va / 2^21) :
    index 39 x = index 39 va ∧ index 30 x = index 30 va ∧ index 21 x = index 21 va := by
  unfold index
  omega

theorem pageOther {x va} (region : x / 2^21 = va / 2^21) (other : x / pageSize ≠ va / pageSize) : index 12 x ≠ index 12 va := by
  unfold index pageSize at *
  omega

theorem hugeWalk {pml4 pml3 pml2 base x va flags} (huge : UnderHuge m pml4 va pml3 pml2 base flags)
    (region : x / 2^21 = va / 2^21) : m.hardwareWalk pml4 x = some (base / 2^9 * 2^9 * pageSize + x % 2^21) := by
  obtain ⟨i4,i3,i2⟩ := regionIndices region
  obtain ⟨⟨present4,frame4⟩,⟨present3,plain3,frame3⟩,entry2,present2,huge2⟩ := huge
  have second : (m.tables pml2 (index 21 va)).present = true ∧ (m.tables pml2 (index 21 va)).huge = true := by
    rw [entry2]
    exact ⟨present2,huge2⟩
  unfold hardwareWalk
  dsimp only
  rw [i4,i3,i2,present4,frame4,present3,plain3,frame3,second.1,second.2,entry2]
  rfl

theorem splitTableWalk {pml4 pml3 pml2 table base x va : Nat} {e1} (region : x / 2^21 = va / 2^21)
    (first : (n.tables pml4 (index 39 va)).present = true ∧ (n.tables pml4 (index 39 va)).frame = pml3)
    (second : (n.tables pml3 (index 30 va)).present = true ∧ (n.tables pml3 (index 30 va)).huge = false ∧
    (n.tables pml3 (index 30 va)).frame = pml2)
    (third : (n.tables pml2 (index 21 va)).present = true ∧ (n.tables pml2 (index 21 va)).huge = false ∧
    (n.tables pml2 (index 21 va)).frame = table) (last : n.tables table (index 12 x) = e1) (present : e1.present = true)
    (frame : e1.frame = base / 512 * 512 + index 12 x) :
    n.hardwareWalk pml4 x = some (base / 2^9 * 2^9 * pageSize + x % 2^21) := by
  obtain ⟨i4,i3,i2⟩ := regionIndices region
  unfold hardwareWalk
  dsimp only
  rw [i4,i3,i2,first.1,first.2,second.1,second.2.1,second.2.2,third.1,third.2.1,third.2.2,last,present,frame]
  have sum : (base / 512 * 512 + index 12 x) * pageSize + x % pageSize = base / 2^9 * 2^9 * pageSize + x % 2^21 := by
    unfold index pageSize
    omega
  rw [sum]
  rfl

theorem splitWalk {as va phys x pml3 pml2 base flags hugeFlags done} (huge : UnderHuge m as.pml4 va pml3 pml2 base hugeFlags)
    (used : m.used as.pml4 = true ∧ m.used pml3 = true ∧ m.used pml2 = true) (away : as.pml4 ≠ pml2)
    (map : m.vmmMapPage as va phys flags = (done,n)) (region : x / 2^21 = va / 2^21)
    (other : done = false ∨ x / pageSize ≠ va / pageSize) : n.hardwareWalk as.pml4 x = m.hardwareWalk as.pml4 x := by
  obtain ⟨⟨present4,frame4⟩,⟨present3,plain3,frame3⟩,entry2,present2,huge2⟩ := huge
  obtain ⟨result3,used3,walks3⟩ := @nextTablePresent m as.pml4 (index 39 va) (flags.getLsbD 2) present4
  unfold vmmMapPage at map
  dsimp only at map
  cases next3 : m.nextTable as.pml4 (index 39 va) (flags.getLsbD 2) with
  | mk found3 m3 =>
  rw [next3] at map result3 used3 walks3
  cases (result3.trans (congrArg some frame4))
  dsimp only at map
  have there3 := walks3 pml3 (index 30 va)
  obtain ⟨result2,used2,walks2⟩ := @nextTablePresent m3 pml3 (index 30 va) (flags.getLsbD 2) (there3.2.1.trans present3)
  cases next2 : m3.nextTable pml3 (index 30 va) (flags.getLsbD 2) with
  | mk found2 m2 =>
  rw [next2] at map result2 used2 walks2
  cases (result2.trans (congrArg some (there3.1.trans frame3)))
  have walks g j : Walks (m.tables g j) (m2.tables g j) := (walks3 g j).trans (walks2 g j)
  have there2 := walks pml2 (index 21 va)
  rw [entry2] at there2
  have isHuge : ((m2.tables pml2 (index 21 va)).present && (m2.tables pml2 (index 21 va)).huge) = true := by
    rw [there2.2.1,there2.2.2]
    exact Bool.and_eq_true_iff.mpr ⟨present2,huge2⟩
  unfold lastTable at map
  dsimp only at map
  rw [if_pos isHuge] at map
  cases alloc : m2.allocZeroedTable with
  | mk found1 m1 =>
  rw [alloc] at map
  cases found1 with
  | none =>
    cases map
    have idle := allocTableIdle alloc
    exact hardwareWalkCongr (fun f i => by rw [idle.tables]; exact walks f i)
  | some table =>
  cases map
  obtain ⟨mid,takes,rfl⟩ := allocTableTakes alloc
  have page : index 12 x ≠ index 12 va := pageOther region (other.resolve_left (fun h => by cases h))
  have unused g (taken : m.used g = true) : g ≠ table := takes.other (by rw [used2,used3]; exact taken)
  have not4 := unused _ used.1
  have not3 := unused _ used.2.1
  have not2 := unused _ used.2.2
  obtain ⟨presentBit,_,_,hugeBit⟩ := linkFlagsBits (flags.getLsbD 2)
  generalize made : ((mid.setTable table fun _ => Entry.zero).setTable table fun j =>
    (⟨(m2.tables pml2 (index 21 va)).frame / 512 * 512 + j,
      (m2.tables pml2 (index 21 va)).flags &&& (pagePresent ||| pageWrite)⟩ : Entry)) = m0
  have filled j : m0.tables table j = ⟨(m2.tables pml2 (index 21 va)).frame / 512 * 512 + j,
      (m2.tables pml2 (index 21 va)).flags &&& (pagePresent ||| pageWrite)⟩ := by
    rw [← made,setTableSame]
  have before g (notTable : g ≠ table) : m0.tables g = m2.tables g := by
    rw [← made,setTableOther _ _ notTable,setTableOther _ _ notTable,takes.tables]
  generalize final : (m0.setEntry pml2 (index 21 va) ⟨table,linkFlags (flags.getLsbD 2)⟩).setEntry table (index 12 va)
    ⟨phys,flags⟩ = n
  have entries g j (notTable : g ≠ table) (apart : (g = pml2 → j ≠ index 21 va)) : Walks (m.tables g j) (n.tables g j) := by
    rw [← final,setEntryElsewhere _ _ _ notTable,setEntryTables,writeOther _ _ apart,before g notTable]
    exact walks g j
  have notSplit : pml3 = pml2 → index 30 va ≠ index 21 va := by
    intro sameTable sameIndex
    rw [sameTable,sameIndex,entry2] at plain3
    exact Bool.noConfusion (plain3.symm.trans huge2)
  have top := entries as.pml4 (index 39 va) not4 (fun same => absurd same away)
  have middle := entries pml3 (index 30 va) not3 notSplit
  have linked : n.tables pml2 (index 21 va) = ⟨table,linkFlags (flags.getLsbD 2)⟩ := by
    rw [← final,setEntryElsewhere _ _ _ not2,setEntryTables,writeSame]
  have last : n.tables table (index 12 x) = ⟨base / 512 * 512 + index 12 x,
      (m2.tables pml2 (index 21 va)).flags &&& (pagePresent ||| pageWrite)⟩ := by
    rw [← final,setEntryTables,writeOther _ _ (fun _ => page),setEntryElsewhere _ _ _ not2.symm,filled,there2.1]
  have kept : ((m2.tables pml2 (index 21 va)).flags &&& (pagePresent ||| pageWrite)).getLsbD 0 = true := by
    rw [BitVec.getLsbD_and,Bool.and_eq_true]
    exact ⟨there2.2.1.trans present2,by decide⟩
  rw [hugeWalk ⟨⟨present4,frame4⟩,⟨present3,plain3,frame3⟩,entry2,present2,huge2⟩ region]
  refine splitTableWalk region ⟨top.2.1.trans present4,top.1.trans frame4⟩
    ⟨middle.2.1.trans present3,middle.2.2.trans plain3,middle.1.trans frame3⟩ ?_ last kept rfl
  rw [linked]
  exact ⟨presentBit,hugeBit,rfl⟩

def Canonical (x : Nat) : Prop := x < 2^47 ∨ 2^64 - 2^47 ≤ x ∧ x < 2^64

theorem upperIndex {x} (high : 2^64-2^47 ≤ x) (small : x < 2^64) : 256 ≤ index 39 x := by
  unfold index
  omega

theorem pathPage {x va} (low : x < 2^47) (lowVa : va < 2^47) : path x = path va ↔ x / pageSize = va / pageSize := by
  unfold path index pageSize
  simp only [List.cons.injEq,and_true]
  omega

end Miviex.Machine

namespace Miviex.SpaceUse
open Machine RadixForest

def Event.Mapping : Event → Prop
  | .create => True
  | .map _ va _ _ => va % pageSize = 0 ∧ va < 2^47
  | _ => False

structure Rooted (s : SpaceUse) (owner : Owner) : Prop where
  trees : Trees s.machine owner
  roots : ∀ as ∈ s.spaces, owner as.pml4 = some (as.pml4,[])
  distinct : (s.spaces.map AddressSpace.pml4).Nodup
  apart : Apart s.machine owner

variable {s t : SpaceUse} {owner : Owner}

theorem startRooted {m} (reserved : Reserved m) : Rooted ⟨m,[],[]⟩ (fun _ => none) := by
  refine ⟨⟨⟨?_,?_,?_⟩,fun f held => absurd rfl held,?_,?_,fun i => ⟨reserved.entries i,rfl⟩⟩,?_,List.nodup_nil,
    fun level f table => ⟨reserved.tables level f table,rfl⟩⟩
  · intro f root q i g own
    cases own
  · intro g root q i own
    cases own
  · intro f root own
    cases own
  · intro f root q i own
    cases own
  · intro root i own
    cases own
  intro as member
  cases member

theorem mappingRooted {e} (rooted : Rooted s owner) (mapping : e.Mapping) (moved : s.step e = some t) :
    ∃ after, Rooted t after := by
  have taken as (member : as ∈ s.spaces) : s.machine.used as.pml4 = true := rooted.trees.owned (rooted.roots as member)
  cases e with
  | create =>
    unfold step at moved
    cases create : s.machine.vmmCreateAddressSpace with
    | mk found n =>
    rw [create] at moved
    cases found with
    | none =>
      cases moved
      have idle := createIdle create
      refine ⟨owner,idle.trees rooted.trees,rooted.roots,rooted.distinct,fun level f table => ?_⟩
      have same := kernelTableSame rooted.apart idle.boot (fun g _ _ => by rw [idle.tables]) table
      rw [idle.used]
      exact rooted.apart level f same
    | some as =>
    cases moved
    have created := createdTrees rooted.trees create
    have other : ∀ g, s.machine.used g = true → g ≠ as.pml4 := by
      rintro g there rfl
      rw [created.takes.1] at there
      cases there
    refine ⟨_,created.trees,fun x member => ?_,?_,fun level f table => ?_⟩
    · rcases List.mem_cons.mp member with rfl | old
      · exact Function.update_self _ _ _
      rw [Function.update_of_ne (other _ (taken x old))]
      exact rooted.roots x old
    · rw [List.map_cons,List.nodup_cons]
      refine ⟨fun already => ?_,rooted.distinct⟩
      obtain ⟨x,old,same⟩ := List.mem_map.mp already
      exact other _ (taken x old) same
    have same := kernelTableSame rooted.apart created.boot (fun g there _ => created.others g (other g there)) table
    obtain ⟨there,free⟩ := rooted.apart level f same
    rw [created.takes.2,Function.update_of_ne (other f there),Function.update_of_ne (other f there)]
    exact ⟨there,free⟩
  | map as va phys flags =>
    unfold step at moved
    dsimp only at moved
    split at moved
    swap
    · cases moved
    rename_i member
    cases map : s.machine.vmmMapPage as va phys flags with
    | mk done n =>
    obtain ⟨after,mapped⟩ := mapPageMapped rooted.trees (rooted.roots as member) mapping.2 map
    have next : t.machine = n ∧ t.spaces = s.spaces := by
      rw [map] at moved
      cases done <;> cases moved <;> exact ⟨rfl,rfl⟩
    refine ⟨after,?_,fun x there => ?_,?_,fun level f table => ?_⟩
    · rw [next.1]
      exact mapped.trees
    · rw [next.2] at there
      rw [mapped.stays _ (taken x there)]
      exact rooted.roots x there
    · rw [next.2]
      exact rooted.distinct
    rw [next.1] at table ⊢
    have same := kernelTableSame rooted.apart mapped.boot (mapped.unowned) table
    obtain ⟨there,free⟩ := rooted.apart level f same
    exact ⟨mapped.used f there,(mapped.stays f there).trans free⟩
  | take | allocRange | freeRange | clone | destroy => cases mapping

theorem mappingsRooted {m} (reserved : Reserved m) {events} (mappings : ∀ e ∈ events, e.Mapping) :
    ∀ s ∈ Runs.visited step ⟨m,[],[]⟩ events, ∃ owner, Rooted s owner := by
  refine @Runs.visitedInvariant _ _ step (fun s => ∃ owner, Rooted s owner) (fun _ e => ¬ e.Mapping)
    (fun s e t ⟨owner,rooted⟩ mapping moved => ?_) _ _ ⟨_,startRooted reserved⟩ (fun m member => ?_)
  · exact mappingRooted rooted (not_not.mp mapping) moved
  · exact not_not.mpr (mappings m.2 (Runs.movesEvent m member))

theorem translateCongr {m n : Machine} {as x} (same : n.leaf as.pml4 x = m.leaf as.pml4 x) :
    n.vmmTranslate as x = m.vmmTranslate as x := by
  unfold vmmTranslate
  rw [same]

theorem mapPageRefines {as va phys flags done n} (rooted : Rooted s owner) (member : as ∈ s.spaces) (low : va < 2^47)
    (map : s.machine.vmmMapPage as va phys flags = (done,n)) : (done = true → ∀ x, x / pageSize = va / pageSize →
      n.leaf as.pml4 x = (if flags.getLsbD 0 then some ⟨phys,flags⟩ else none) ∧
      n.vmmTranslate as x = if flags.getLsbD 0 then some (phys * pageSize + x % pageSize) else none) ∧
    ∀ other ∈ s.spaces, ∀ x, Canonical x → (done = false ∨ other ≠ as ∨ x / pageSize ≠ va / pageSize) →
      n.leaf other.pml4 x = s.machine.leaf other.pml4 x ∧ n.vmmTranslate other x = s.machine.vmmTranslate other x := by
  obtain ⟨after,mapped⟩ := mapPageMapped rooted.trees (rooted.roots as member) low map
  constructor
  · rintro rfl x page
    have lowX : x < 2^47 := by
      unfold pageSize at page
      omega
    have leaf := mapped.leaf as.pml4 x (rooted.roots as member) lowX
    rw [if_pos ⟨rfl,rfl,(pathPage lowX low).mpr page⟩] at leaf
    refine ⟨leaf,?_⟩
    unfold vmmTranslate
    rw [leaf]
    split <;> rfl
  intro other there x canonical apart
  have own := rooted.roots other there
  have ownN := (mapped.stays _ (rooted.trees.owned own)).trans own
  have leaf : n.leaf other.pml4 x = s.machine.leaf other.pml4 x := by
    rcases canonical with lowX | ⟨high,small⟩
    · rw [mapped.leaf other.pml4 x own lowX,if_neg]
      rintro ⟨success,root,page⟩
      rcases apart with failed | different | elsewhere
      · exact Bool.noConfusion (failed.symm.trans success)
      · exact different (List.inj_on_of_nodup_map rooted.distinct there member root)
      · exact elsewhere ((pathPage lowX low).mp page)
    · exact kernelLeaf rooted.trees mapped.trees own ownN rooted.apart mapped.boot mapped.unowned (upperIndex high small)
  exact ⟨leaf,translateCongr leaf⟩

/- In every run of mappings, a further call on a user page gives the page its entry and changes
no other translation, in no space; one on the kernel half under a 2 MiB page moves no other
address of that page. -/
theorem pageTableRefinement (m : Machine) (reserved : Reserved m) (events : List Event) (mappings : ∀ e ∈ events, e.Mapping) :
    ∀ s ∈ Runs.visited step ⟨m,[],[]⟩ events, ∀ as ∈ s.spaces, ∀ va phys flags done n, va % pageSize = 0 →
      s.machine.vmmMapPage as va phys flags = (done,n) → (va < 2^47 → (done = true → ∀ x, x / pageSize = va / pageSize →
          n.leaf as.pml4 x = (if flags.getLsbD 0 then some ⟨phys,flags⟩ else none) ∧
          n.vmmTranslate as x = if flags.getLsbD 0 then some (phys * pageSize + x % pageSize) else none) ∧
        ∀ other ∈ s.spaces, ∀ x, Canonical x → (done = false ∨ other ≠ as ∨ x / pageSize ≠ va / pageSize) →
          n.leaf other.pml4 x = s.machine.leaf other.pml4 x ∧ n.vmmTranslate other x = s.machine.vmmTranslate other x) ∧
      (2^64-2^47 ≤ va → va < 2^64 → ∀ pml3 pml2 base huge,
        UnderHuge s.machine as.pml4 va pml3 pml2 base huge → ∀ x, x / 2^21 = va / 2^21 →
          (done = false ∨ x / pageSize ≠ va / pageSize) → n.hardwareWalk as.pml4 x = s.machine.hardwareWalk as.pml4 x) := by
  intro s reached as member va phys flags done n _ map
  obtain ⟨owner,rooted⟩ := mappingsRooted reserved mappings s reached
  have own := rooted.roots as member
  refine ⟨fun low => mapPageRefines rooted member low map,fun high small pml3 pml2 base huge under x region other => ?_⟩
  have entry := rooted.trees.kernel as.pml4 _ own (upperIndex high small)
  have first := under.first
  rw [entry] at first
  have table3 : KernelTable s.machine 3 pml3 := first.2 ▸ .top (upperIndex high small) first.1
  have table2 : KernelTable s.machine 2 pml2 := under.second.2.2 ▸ .under table3 under.second.1 under.second.2.1
  obtain ⟨used2,free2⟩ := rooted.apart _ _ table2
  refine splitWalk under ⟨rooted.trees.owned own,(rooted.apart _ _ table3).1,used2⟩ ?_ map region other
  rintro rfl
  rw [own] at free2
  cases free2

def bare (frames : List (Option Frame)) : Machine :=
  ⟨fun _ _ => .zero,fun _ _ => 0,fun f => f == 0,fun _ => .zero,frames,[true]⟩

theorem bareReserved (frames) : Reserved (bare frames) := by
  have none : ∀ level f, ¬ KernelTable (bare frames) level f := by
    intro level f table
    induction table with
    | @top i _ present =>
      have absent : ((bare frames).boot i).present = false := (rfl : Entry.zero.present = false)
      cases absent.symm.trans present
    | under _ _ _ ih => exact ih
  exact ⟨fun _ => rfl,fun level f table => absurd table (none level f)⟩

theorem bareMapping : ∃ s ∈ Runs.visited step ⟨bare [some 1,some 2,some 3,some 4],[],[]⟩ [.create],
    ∃ as ∈ s.spaces, ∃ n, s.machine.vmmMapPage as 0x5000 9 3 = (true,n) ∧ n.vmmTranslate as 0x5123 = some 0x9123 := by
  let made := (bare [some 1,some 2,some 3,some 4]).vmmCreateAddressSpace.2
  let as : AddressSpace := ⟨1,0,0,mmapTop⟩
  let s : SpaceUse := ⟨made,[as],[]⟩
  have reached : s ∈ Runs.visited step ⟨bare [some 1,some 2,some 3,some 4],[],[]⟩ [.create] := Runs.visitedLast rfl
  have member : as ∈ s.spaces := List.mem_singleton.mpr rfl
  have mapped : (s.machine.vmmMapPage as 0x5000 9 3).1 = true := by decide +kernel
  have map : s.machine.vmmMapPage as 0x5000 9 3 = (true,(s.machine.vmmMapPage as 0x5000 9 3).2) := Prod.ext mapped rfl
  have only e (there : e ∈ [Event.create]) : e.Mapping := by
    cases List.mem_singleton.mp there
    trivial
  have refined := ((pageTableRefinement (bare [some 1,some 2,some 3,some 4]) (bareReserved _) [.create] only s reached as
    member 0x5000 9 3 true _ (by decide) map).1 (by decide)).1 rfl 0x5123 (by decide)
  exact ⟨s,reached,as,member,_,map,refined.2⟩

/- Without PAGE_PRESENT the call succeeds and the page stays unmapped. -/
theorem absentMapping : ∃ s ∈ Runs.visited step ⟨bare [some 1,some 2,some 3,some 4],[],[]⟩ [.create],
    ∃ as ∈ s.spaces, ∃ n, s.machine.vmmMapPage as 0x5000 9 pageWrite = (true,n) ∧ n.vmmTranslate as 0x5000 = none := by
  let made := (bare [some 1,some 2,some 3,some 4]).vmmCreateAddressSpace.2
  have mapped : (made.vmmMapPage ⟨1,0,0,mmapTop⟩ 0x5000 9 pageWrite).1 = true := by decide +kernel
  have absent : (made.vmmMapPage ⟨1,0,0,mmapTop⟩ 0x5000 9 pageWrite).2.vmmTranslate ⟨1,0,0,mmapTop⟩ 0x5000 = none := by
    decide +kernel
  exact ⟨⟨made,[⟨1,0,0,mmapTop⟩],[]⟩,Runs.visitedLast rfl,_,List.mem_singleton.mpr rfl,_,Prod.ext mapped rfl,absent⟩

end Miviex.SpaceUse
