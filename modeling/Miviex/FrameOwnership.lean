import Miviex.FrameLedger
import Miviex.PageTableRefinement

/-! Who owns the frames that calls on address spaces take. Each is a table or a page of one live
space, unless a range allocation took a frame and found no memory for the tables to map it:
nothing maps that frame, so no clean-up returns it. -/
namespace Miviex.Machine
open List
open RadixForest

variable {start m n : Machine} {roots held lost : List Frame} {role : Frame → Option Role} {as : AddressSpace}
  {va : Nat} {flags : BitVec 12}

theorem Ledger.map {phys done} (ledger : Ledger start roots held lost m role) (member : as.pml4 ∈ roots)
    (low : va < 2^47) (present : flags.getLsbD 0 = true)
    (spare : (m.leaf as.pml4 va = none ∧ (role phys = some .held ∨ role phys = some .lost)) ∨
    ∃ e, m.leaf as.pml4 va = some e ∧ e.frame = phys) (map : m.vmmMapPage as va phys flags = (done,n)) :
    (done = false → ∃ now, Ledger start roots held lost n now) ∧
    (done = true → ∃ now, Ledger start roots (held.erase phys) (lost.erase phys) n now) := by
  obtain ⟨mid,after,trees,grows,failed,mapped⟩ := mapPageTrees ledger.trees (ledger.own member) low map
  obtain ⟨grown,kept⟩ := ledger.grows member grows trees
  have leaf := grows.leaf ledger.trees trees (ledger.own member) low
  refine ⟨fun h => ⟨_,failed h ▸ grown⟩,fun h => ?_⟩
  obtain ⟨pml1,own,rfl⟩ := mapped h
  rw [← withTablesOwner (fun g q owned => (grows.stays g (ledger.trees.owned owned)).trans owned)] at own
  rcases spare with ⟨unmapped,spare⟩ | ⟨e,here,frame⟩
  · have still : withTables role after phys = some .held ∨ withTables role after phys = some .lost := by
      rcases spare with one | two
      · exact .inl ((kept phys (ledger.taken one)).trans one)
      · exact .inr ((kept phys (ledger.taken two)).trans two)
    exact ⟨_,@Ledger.setPage start mid roots held lost _ as.pml4 pml1 va ⟨phys,flags⟩ grown member own low
      (leaf.trans unmapped) still present⟩
  have isPage := ledger.leafRole member low here
  rw [frame] at isPage
  have notHeld : phys ∉ held := fun there => by
    rw [(ledger.holds phys).mpr there] at isPage
    cases isPage
  have notLost : phys ∉ lost := fun there => by
    rw [(ledger.loses phys).mpr there] at isPage
    cases isPage
  rw [erase_of_not_mem notHeld,erase_of_not_mem notLost]
  exact ⟨_,grown.setSame own (leaf.trans here) frame.symm present⟩

def stranded (m : Machine) (as : AddressSpace) (va : Nat) : Bool :=
  (m.leaf as.pml4 va).isNone && m.pmmAllocPage.1.isSome

def strandedIn (as : AddressSpace) (flags : BitVec 12) : Machine → List Nat → Bool
  | _, [] => false
  | m, va::rest =>
    match m.allocPage as flags va with
    | (false,_) => m.stranded as va
    | (true,m) => strandedIn as flags m rest

theorem Ledger.zeroFrame (ledger : Ledger start roots held lost m role) (f) :
    Ledger start roots held lost (m.zeroFrame f) role :=
  ⟨ledger.used,ledger.outside,ledger.holds,ledger.distinct,ledger.loses,
    ledger.trees.outside rfl (fun _ _ => rfl) ledger.trees.used (fun i => (ledger.trees.boot i).1),ledger.tops,
    ledger.page,ledger.boot,ledger.reserved⟩

theorem Ledger.allocPage {done} (ledger : Ledger start roots held [] m role) (member : as.pml4 ∈ roots)
    (low : va < 2^47) (present : flags.getLsbD 0 = true) (alloc : m.allocPage as flags va = (done,n)) :
    (done = true ∨ m.stranded as va = false → ∃ now, Ledger start roots held [] n now) ∧
    (done = false → m.stranded as va = true → ∃ f now, Ledger start roots held [f] n now) := by
  unfold Machine.allocPage at alloc
  unfold stranded
  cases mapped : m.vmmTranslate as va with
  | none =>
    have unmapped := translateNone mapped
    rw [mapped] at alloc
    cases taken : m.pmmAllocPage with
    | mk found mid =>
    rw [taken] at alloc
    cases found with
    | none =>
      cases alloc
      refine ⟨fun _ => ⟨role,ledger.idle (allocIdle taken)⟩,fun _ h => ?_⟩
      rw [unmapped] at h
      cases h
    | some f =>
    have takes := allocTakes taken
    have losing := (ledger.takes takes).1.zeroFrame f
    have leaf : (mid.zeroFrame f).leaf as.pml4 va = none := (leafTables takes.tables _ _).trans unmapped
    obtain ⟨failed,done_⟩ := losing.map member low present (.inl ⟨leaf,.inr (Function.update_self _ _ _)⟩) alloc
    rw [unmapped]
    refine ⟨fun h => ?_,fun h _ => ?_⟩
    · obtain ⟨now,after⟩ := done_ (h.resolve_right (by simp))
      rw [erase_cons_head,erase_of_not_mem] at after
      · exact ⟨now,after⟩
      intro there
      have none := ledger.free takes.free
      rw [(ledger.holds f).mpr there] at none
      cases none
    obtain ⟨now,after⟩ := failed h
    exact ⟨f,now,after⟩
  | some phys =>
    obtain ⟨e,found,frame⟩ := translateSome mapped
    rw [mapped] at alloc
    dsimp only at alloc
    rw [found]
    refine ⟨fun _ => ?_,fun _ h => by cases h⟩
    split at alloc
    · cases alloc
      exact ⟨role,ledger⟩
    obtain ⟨failed,done_⟩ := ledger.map member low present (.inr ⟨e,found,frame.symm⟩) alloc
    cases done with
    | false => exact failed rfl
    | true =>
    obtain ⟨now,after⟩ := done_ rfl
    rw [erase_of_not_mem] at after
    · exact ⟨now,after⟩
    intro there
    have isPage := ledger.leafRole member low found
    rw [← frame,(ledger.holds _).mpr there] at isPage
    cases isPage

theorem Ledger.allocPages {xs} (ledger : Ledger start roots held [] m role) (member : as.pml4 ∈ roots)
    (low : ∀ va ∈ xs, va < 2^47) (present : flags.getLsbD 0 = true) : (strandedIn as flags m xs = false →
    ∃ now, Ledger start roots held [] (untilFailure (fun m va => m.allocPage as flags va) m xs).2 now) ∧
    (strandedIn as flags m xs = true →
    ∃ f now, Ledger start roots held [f] (untilFailure (fun m va => m.allocPage as flags va) m xs).2 now) := by
  induction xs generalizing m role with
  | nil => exact ⟨fun _ => ⟨role,ledger⟩,fun h => by cases h⟩
  | cons va rest ih =>
  unfold strandedIn untilFailure
  cases alloc : m.allocPage as flags va with
  | mk done n =>
  obtain ⟨good,bad⟩ := ledger.allocPage member (low va mem_cons_self) present alloc
  cases done with
  | false => exact ⟨fun h => good (.inr h),fun h => bad rfl h⟩
  | true =>
    obtain ⟨now,after⟩ := good (.inl rfl)
    exact ih after (fun x there => low x (mem_cons_of_mem va there))

section

variable (ledger : Ledger start roots held lost m role)
include ledger

theorem Ledger.freePage (member : as.pml4 ∈ roots) (low : va < 2^47) :
    ∃ now, Ledger start roots held lost (freePage as m va) now := by
  unfold Machine.freePage
  cases place : m.pte as.pml4 va with
  | none => exact ⟨role,ledger⟩
  | some pair =>
  obtain ⟨table,i⟩ := pair
  dsimp only
  split
  · rename_i present
    obtain ⟨own,rfl⟩ := (pteTrees ledger.trees (ledger.own member) low).mp place
    have mapped := (leafTrees ledger.trees (ledger.own member) low).mpr ⟨table,own,rfl,present⟩
    exact ⟨_,ledger.clearPage member own low mapped⟩
  · exact ⟨role,ledger⟩

theorem Ledger.freePages {xs : List Nat} (member : as.pml4 ∈ roots)
    (low : ∀ va ∈ xs, va < 2^47) : ∃ now, Ledger start roots held lost (xs.foldl (Machine.freePage as) m) now := by
  refine foldlRecOn xs (Machine.freePage as) (motive := fun n => ∃ now, Ledger start roots held lost n now) ⟨role,ledger⟩ ?_
  rintro n ⟨now,before⟩ va there
  exact before.freePage member (low va there)

theorem Ledger.restored (used : n.used = m.used) (boot : n.boot = m.boot)
    (tables : ∀ g, m.used g = true → n.tables g = m.tables g) : Ledger start roots held lost n role := by
  refine ⟨fun f => by rw [used]; exact ledger.used f,ledger.outside,ledger.holds,ledger.distinct,ledger.loses,?_,
    ledger.tops,fun r q f => ?_,boot.trans ledger.boot,ledger.reserved⟩
  · exact ledger.trees.outside boot (fun g owned => tables g (ledger.trees.used g owned))
      (fun g owned => by rw [used]; exact ledger.trees.used g owned) (fun i => by rw [used]; exact (ledger.trees.boot i).1)
  rw [ledger.page r q f]
  refine and_congr_right (fun inRoots => ?_)
  have leaf x (low : x < 2^47) : n.leaf r x = m.leaf r x := leafSame ledger.trees (ledger.own inRoots) tables low
  constructor
  · rintro ⟨x,e,low,place,found,frame⟩
    exact ⟨x,e,low,place,(leaf x low).trans found,frame⟩
  rintro ⟨x,e,low,place,found,frame⟩
  exact ⟨x,e,low,place,(leaf x low).symm.trans found,frame⟩

theorem Ledger.leavesUsed {r} (member : r ∈ roots) :
    ∀ x e, x < 2^47 → m.leaf r x = some e → m.used e.frame = true := fun _ _ low found =>
  ledger.taken (ledger.leafRole member low found)

end

theorem pathUser {x} (low : x < 2^47) : UserPath (path x) := by
  refine ⟨le_refl 4,?_,?_⟩
  · intro i member
    unfold path at member
    simp only [mem_cons,not_mem_nil,or_false] at member
    rcases member with rfl | rfl | rfl | rfl <;> exact indexBound _ _
  intro i first
  cases first
  exact (indexTop low).2 rfl

theorem Ledger.place (ledger : Ledger start roots held lost m role) {r f p} (member : r ∈ roots) (user : UserPath p) :
    m.descend r p = some f ↔ role f = some (if p.length ≤ 3 then .table r p else .page r p) := by
  by_cases short : p.length ≤ 3
  · rw [if_pos short,← tableOwnerSome]
    exact descendOwned ledger.trees (ledger.own member) user short
  rw [if_neg short,ledger.page r p f]
  obtain ⟨q,i,rfl⟩ : ∃ q i, p = q ++ [i] := by
    rcases eq_nil_or_concat p with rfl | ⟨q,i,rfl⟩
    · exact absurd (Nat.zero_le 3) short
    · exact ⟨q,i,concat_eq_append⟩
  obtain ⟨inner,below,valid⟩ := userPathSnoc user
  have level : q.length = 3 := by
    rw [length_append,length_singleton] at short
    omega
  rw [descendSnoc,Option.bind_eq_some_iff]
  constructor
  · rintro ⟨table,reached,points⟩
    have own := (descendOwned ledger.trees (ledger.own member) inner (by omega)).mp reached
    obtain ⟨present,frame⟩ := targetSome.mp points
    obtain ⟨i4,i3,i2,rfl⟩ := length_eq_three.mp level
    obtain ⟨_,bound,top⟩ := inner
    obtain ⟨x,low,place⟩ : ∃ x, x < 2^47 ∧ path x = [i4,i3,i2] ++ [i] :=
      ⟨_,pageOf (top i4 rfl) (bound i3 (by simp)) (bound i2 (by simp)) valid.1⟩
    obtain ⟨upper,last⟩ := append_inj' ((pathLast x).symm.trans place) rfl
    cases last
    rw [← upper] at own
    exact ⟨member,x,_,low,place,(leafTrees ledger.trees (ledger.own member) low).mpr ⟨table,own,rfl,present⟩,frame⟩
  rintro ⟨_,x,e,low,place,found,frame⟩
  obtain ⟨table,own,same,present⟩ := (leafTrees ledger.trees (ledger.own member) low).mp found
  rw [pathLast] at place
  obtain ⟨same1,same2⟩ := append_inj' place rfl
  cases same2
  subst same1
  exact ⟨table,(descendOwned ledger.trees (ledger.own member) inner (by omega)).mpr own,
    targetSome.mpr ⟨by rw [same]; exact present,by rw [same]; exact frame⟩⟩

end Miviex.Machine

namespace Miviex.SpaceUse
open Machine

variable {start : Machine} {s t : SpaceUse}

/- Every frame that the calls took is found by one walk in one live space, and destroying a
space returns exactly what its walks find. Frames that the caller took itself and has not
mapped are its own. -/
structure Complete (start : Machine) (s : SpaceUse) : Prop where
  owned : ∀ f, s.machine.used f = true → start.used f = false → f ∉ s.held →
    ∃! place : Frame × List Nat, (∃ as ∈ s.spaces, as.pml4 = place.1) ∧ UserPath place.2 ∧
      s.machine.descend place.1 place.2 = some f
  returned : ∀ as ∈ s.spaces, ∀ f, (s.machine.vmmDestroyAddressSpace as).used f = true ↔
    s.machine.used f = true ∧ ¬ s.machine.Reaches as.pml4 f

/- What the callers keep to: user pages, present, and a frame of their own for a page that has
none, or the page's own frame again. -/
def Proper (s : SpaceUse) : Event → Prop
  | .map as va phys flags => va < 2^47 ∧ flags.getLsbD 0 = true ∧
    ((s.machine.leaf as.pml4 va = none ∧ phys ∈ s.held) ∨ ∃ e, s.machine.leaf as.pml4 va = some e ∧ e.frame = phys)
  | .allocRange _ _ stop flags => stop ≤ 2^47 ∧ flags.getLsbD 0 = true
  | .freeRange _ _ stop => stop ≤ 2^47
  | _ => True

def Strands (s : SpaceUse) : Event → Prop
  | .allocRange as start stop flags => strandedIn as flags s.machine (pages start stop) = true
  | _ => False

structure Books (start : Machine) (lost : List Frame) (s : SpaceUse) (role : Frame → Option Role) : Prop where
  ledger : Ledger start (s.spaces.map AddressSpace.pml4) s.held lost s.machine role
  distinct : (s.spaces.map AddressSpace.pml4).Nodup

theorem startBooks (reserved : ∀ i, start.used (start.boot i).frame = true) : ∃ role, Books start [] ⟨start,[],[]⟩ role := by
  let role : Frame → Option Role := fun f => if start.used f = true then some .outside else none
  have cases f ρ : role f = some ρ ↔ start.used f = true ∧ ρ = .outside := by
    dsimp only [role]
    split
    · rename_i used
      rw [Option.some.injEq,eq_comm]
      exact ⟨fun h => ⟨used,h⟩,And.right⟩
    rename_i unused
    exact ⟨fun h => (by cases h),fun h => absurd h.1 unused⟩
  have noOwner : tableOwner role = fun _ => none := by
    funext f
    rw [tableOwnerNone]
    intro root q found
    cases ((cases f _).mp found).2
  refine ⟨role,⟨fun f => ?_,fun f => ?_,fun f => ?_,⟨List.nodup_nil,List.nodup_nil⟩,fun f => ?_,?_,fun r => ?_,
    fun r q f => ?_,rfl,reserved⟩,List.nodup_nil⟩
  · dsimp only [role]
    split
    · rename_i used
      exact ⟨fun _ => Option.some_ne_none _,fun _ => used⟩
    rename_i unused
    exact ⟨fun h => absurd h unused,fun h => absurd rfl h⟩
  · rw [cases]
    exact and_iff_left rfl
  · rw [cases]
    exact ⟨fun h => (by cases h.2),fun h => (by cases h)⟩
  · rw [cases]
    exact ⟨fun h => (by cases h.2),fun h => (by cases h)⟩
  · rw [noOwner]
    refine ⟨⟨?_,?_,?_⟩,?_,?_,?_,fun i => ⟨reserved i,rfl⟩⟩ <;> intros <;> contradiction
  · rw [cases]
    exact ⟨fun h => (by cases h.2),fun h => (by cases h)⟩
  rw [cases]
  exact ⟨fun h => (by cases h.2),fun h => (by cases h.1)⟩

theorem booksComplete {role} (books : Books start [] s role) : Complete start s := by
  have ledger := books.ledger
  -- the walk that the role names, and no other
  have only f r p (found : role f = some (if p.length ≤ 3 then .table r p else .page r p))
      (member : r ∈ s.spaces.map AddressSpace.pml4) (user : UserPath p) :
      ∃! place : Frame × List Nat, (∃ as ∈ s.spaces, as.pml4 = place.1) ∧ UserPath place.2 ∧
        s.machine.descend place.1 place.2 = some f := by
    refine ⟨(r,p),⟨List.mem_map.mp member,user,(ledger.place member user).mpr found⟩,?_⟩
    rintro ⟨r2,p2⟩ ⟨live,user2,walk⟩
    have again := (ledger.place (List.mem_map.mpr live) user2).mp walk
    rw [found,Option.some.injEq] at again
    split at again <;> split at again <;> cases again <;> rfl
  refine ⟨fun f used foreign notHeld => ?_,fun as member f => ?_⟩
  · obtain ⟨ρ,found⟩ := Option.ne_none_iff_exists'.mp ((ledger.used f).mp used)
    cases ρ with
    | outside =>
      rw [(ledger.outside f).mp found] at foreign
      cases foreign
    | held => exact absurd ((ledger.holds f).mp found) notHeld
    | lost => cases (ledger.loses f).mp found
    | table r q =>
      have own := tableOwnerSome.mpr found
      have depth := RadixForest.ownerDepth ledger.trees.forest own
      refine only f r q (by rw [if_pos depth]; exact found) ?_ (ownedUserPath ledger.trees own)
      rw [← ledger.tops r,← tableOwnerSome]
      exact RadixForest.ownerRoot ledger.trees.forest own
    | page r q =>
      obtain ⟨member,x,_,low,rfl,_,_⟩ := (ledger.page r q f).mp found
      exact only f r (path x) found member (pathUser low)
  have own := ledger.own (List.mem_map_of_mem member)
  rw [(destroyClears ledger.trees own).used f,belowReaches ledger.trees own]

theorem booksLost {f role} (books : Books start [f] s role) : ¬ Complete start s := by
  intro complete
  have ledger := books.ledger
  have found := (ledger.loses f).mpr List.mem_cons_self
  have foreign : start.used f = false := by
    by_contra used
    rw [Bool.not_eq_false,← ledger.outside f,found] at used
    cases used
  have notHeld : f ∉ s.held := fun there => by
    rw [← ledger.holds f,found] at there
    cases there
  obtain ⟨place,⟨live,user,walk⟩,_⟩ := complete.owned f (ledger.taken found) foreign notHeld
  have role := (ledger.place (List.mem_map.mpr live) user).mp walk
  rw [found] at role
  split at role <;> cases role

theorem rootsErase {spaces : List AddressSpace} {as} (distinct : (spaces.map AddressSpace.pml4).Nodup)
    (member : as ∈ spaces) : (spaces.erase as).map AddressSpace.pml4 = (spaces.map AddressSpace.pml4).erase as.pml4 := by
  induction spaces with
  | nil => cases member
  | cons first rest ih =>
    rw [List.map_cons,List.nodup_cons] at distinct
    by_cases same : first = as
    · rw [same,List.erase_cons_head,List.map_cons,List.erase_cons_head]
    have inRest := (List.mem_cons.mp member).resolve_left (fun h => same h.symm)
    have other : first.pml4 ≠ as.pml4 := fun h => distinct.1 (h ▸ List.mem_map_of_mem inRest)
    rw [List.erase_cons_tail (by simpa using same),List.map_cons,List.map_cons,
      List.erase_cons_tail (by simpa using other),ih distinct.2 inRest]

theorem stepBooks {e role} (books : Books start [] s role) (proper : Proper s e) (moved : s.step e = some t) :
    (¬ Strands s e → ∃ now, Books start [] t now) ∧ (Strands s e → ∃ f now, Books start [f] t now) := by
  obtain ⟨ledger,distinct⟩ := books
  have taken as (member : as ∈ s.spaces) : s.machine.used as.pml4 = true :=
    ledger.trees.owned (ledger.own (List.mem_map_of_mem member))
  have fresh (as : AddressSpace) (unused : s.machine.used as.pml4 = false) :
      ((as::s.spaces).map AddressSpace.pml4).Nodup := by
    rw [List.map_cons,List.nodup_cons]
    refine ⟨fun already => ?_,distinct⟩
    obtain ⟨x,old,same⟩ := List.mem_map.mp already
    rw [← same,taken x old] at unused
    cases unused
  cases e <;> unfold step at moved
  case take =>
    refine ⟨fun _ => ?_,fun h => by cases h⟩
    cases alloc : s.machine.pmmAllocPage with
    | mk found n =>
    rw [alloc] at moved
    cases found with
    | none =>
      cases moved
      exact ⟨role,ledger.idle (allocIdle alloc),distinct⟩
    | some f =>
      cases moved
      exact ⟨_,(ledger.takes (allocTakes alloc)).2,distinct⟩
  case create =>
    refine ⟨fun _ => ?_,fun h => by cases h⟩
    cases create : s.machine.vmmCreateAddressSpace with
    | mk found n =>
    rw [create] at moved
    cases found with
    | none =>
      cases moved
      exact ⟨role,ledger.idle (createIdle create),distinct⟩
    | some as =>
      cases moved
      have created := createdTrees ledger.trees create
      exact ⟨_,ledger.created created,fresh as created.takes.1⟩
  case map as va phys flags =>
    refine ⟨fun _ => ?_,fun h => by cases h⟩
    obtain ⟨low,present,spare⟩ := proper
    obtain ⟨member,moved⟩ := Option.ite_none_right_eq_some.mp moved
    cases map : s.machine.vmmMapPage as va phys flags with
    | mk done n =>
    obtain ⟨failed,mapped⟩ := ledger.map (List.mem_map_of_mem member) low present
      (spare.imp (fun h => ⟨h.1,.inl ((ledger.holds phys).mpr h.2)⟩) id) map
    rw [map] at moved
    cases done with
    | false =>
      cases moved
      obtain ⟨now,after⟩ := failed rfl
      exact ⟨now,after,distinct⟩
    | true =>
      cases moved
      obtain ⟨now,after⟩ := mapped rfl
      exact ⟨now,after,distinct⟩
  case allocRange as first stop flags =>
    obtain ⟨high,present⟩ := proper
    obtain ⟨member,moved⟩ := Option.ite_none_right_eq_some.mp moved
    cases moved
    have low va (there : va ∈ pages first stop) : va < 2^47 := lt_of_lt_of_le (pagesBound there).2.1 high
    obtain ⟨good,bad⟩ := ledger.allocPages (List.mem_map_of_mem member) low present
    refine ⟨fun fine => ?_,fun strands => ?_⟩
    · obtain ⟨now,after⟩ := good (Bool.eq_false_of_not_eq_true fine)
      exact ⟨now,after,distinct⟩
    obtain ⟨f,now,after⟩ := bad strands
    exact ⟨f,now,after,distinct⟩
  case freeRange as first stop =>
    refine ⟨fun _ => ?_,fun h => by cases h⟩
    obtain ⟨member,moved⟩ := Option.ite_none_right_eq_some.mp moved
    cases moved
    have low va (there : va ∈ pages first stop) : va < 2^47 := lt_of_lt_of_le (pagesBound there).2.1 proper
    obtain ⟨now,after⟩ := ledger.freePages (List.mem_map_of_mem member) low
    exact ⟨now,after,distinct⟩
  case clone src =>
    refine ⟨fun _ => ?_,fun h => by cases h⟩
    obtain ⟨member,moved⟩ := Option.ite_none_right_eq_some.mp moved
    have inRoots : src.pml4 ∈ s.spaces.map AddressSpace.pml4 := List.mem_map_of_mem member
    cases clone : s.machine.vmmClone src with
    | mk result n =>
    obtain ⟨copied,failed⟩ := vmmCloneCopies ledger.trees (ledger.own inRoots) (ledger.leavesUsed inRoots) clone
    rw [clone] at moved
    cases result with
    | none =>
      cases moved
      obtain ⟨used,boot,same⟩ := failed rfl
      exact ⟨role,ledger.restored used boot (fun g there => (same g there).1),distinct⟩
    | some dst =>
      cases moved
      obtain ⟨after,cloned⟩ := copied dst rfl
      exact ⟨_,ledger.cloned cloned,fresh dst cloned.new⟩
  case destroy as =>
    refine ⟨fun _ => ?_,fun h => by cases h⟩
    obtain ⟨member,moved⟩ := Option.ite_none_right_eq_some.mp moved
    obtain rfl := Option.some.inj moved
    have after := ledger.destroyed (List.mem_map_of_mem member) distinct
    rw [← rootsErase distinct member] at after
    refine ⟨_,after,?_⟩
    rw [rootsErase distinct member]
    exact distinct.erase _

open Classical in
/- In every run of calls that keep to the rules, every frame is owned all along if and only if
no range allocation is cut off between a frame and its tables. -/
theorem frameOwnership (m : Machine) (reserved : ∀ i, m.used (m.boot i).frame = true) (events : List Event)
    (proper : ∀ x ∈ Runs.moves step ⟨m,[],[]⟩ events, Proper x.1 x.2) :
    (∀ t ∈ Runs.visited step ⟨m,[],[]⟩ events, Complete m t) ↔ ∀ x ∈ Runs.moves step ⟨m,[],[]⟩ events, ¬ Strands x.1 x.2 := by
  obtain ⟨visits,same⟩ := Runs.guardedRun proper
  rw [← visits,← same]
  refine Runs.visitedIff (fun s (books : ∃ role, Books m [] s role) => ?_) (fun s e t books fine moved => ?_)
    (fun s e t books strands moved => ?_) (startBooks reserved)
  · obtain ⟨role,books⟩ := books
    exact booksComplete books
  · obtain ⟨role,books⟩ := books
    obtain ⟨allowed,moved⟩ := Runs.guardSome moved
    exact (stepBooks books allowed moved).1 fine
  obtain ⟨role,books⟩ := books
  obtain ⟨allowed,moved⟩ := Runs.guardSome moved
  obtain ⟨f,now,after⟩ := (stepBooks books allowed moved).2 strands
  exact booksLost after

theorem pageOwned : ∃ t ∈ Runs.visited step ⟨bare [some 1,some 2,some 3,some 4,some 5],[],[]⟩
    [.create,.allocRange ⟨1,0,0,mmapTop⟩ 0x5000 0x6000 7],
    t.machine.used 2 = true ∧ Complete (bare [some 1,some 2,some 3,some 4,some 5]) t := by
  let m := bare [some 1,some 2,some 3,some 4,some 5]
  let as : AddressSpace := ⟨1,0,0,mmapTop⟩
  let made := m.vmmCreateAddressSpace.2
  let s : SpaceUse := ⟨made,[as],[]⟩
  let t : SpaceUse := ⟨(made.vmmAllocRange as 0x5000 0x6000 7).2,[as],[]⟩
  have steps : Runs.moves step ⟨m,[],[]⟩ [.create,.allocRange as 0x5000 0x6000 7] =
    [(⟨m,[],[]⟩,.create),(s,.allocRange as 0x5000 0x6000 7)] := rfl
  have proper : ∀ x ∈ Runs.moves step ⟨m,[],[]⟩ [.create,.allocRange as 0x5000 0x6000 7], Proper x.1 x.2 := by
    rw [steps,List.forall_mem_cons,List.forall_mem_singleton]
    exact ⟨trivial,by decide,by decide⟩
  have enough : strandedIn as 7 made (pages 0x5000 0x6000) = false := by decide +kernel
  have fine : ∀ x ∈ Runs.moves step ⟨m,[],[]⟩ [.create,.allocRange as 0x5000 0x6000 7], ¬ Strands x.1 x.2 := by
    rw [steps,List.forall_mem_cons,List.forall_mem_singleton]
    exact ⟨id,fun strands => Bool.false_ne_true (enough.symm.trans strands)⟩
  have reached : t ∈ Runs.visited step ⟨m,[],[]⟩ [.create,.allocRange as 0x5000 0x6000 7] := Runs.visitedLast rfl
  have used : t.machine.used 2 = true := by decide +kernel
  exact ⟨t,reached,used,(frameOwnership m (fun _ => rfl) _ proper).mpr fine t reached⟩

theorem frameStranded : ∃ t ∈ Runs.visited step ⟨bare [some 1,some 2,none],[],[]⟩
    [.create,.allocRange ⟨1,0,0,mmapTop⟩ 0x5000 0x6000 7],
    t.machine.used 2 = true ∧ ¬ Complete (bare [some 1,some 2,none]) t := by
  let as : AddressSpace := ⟨1,0,0,mmapTop⟩
  let made := (bare [some 1,some 2,none]).vmmCreateAddressSpace.2
  let t : SpaceUse := ⟨(made.vmmAllocRange as 0x5000 0x6000 7).2,[as],[]⟩
  have used : t.machine.used 2 = true := by decide +kernel
  have stuck : strandedIn as 7 made (pages 0x5000 0x6000) = true := by decide +kernel
  obtain ⟨_,begun⟩ := @startBooks (bare [some 1,some 2,none]) (fun _ => rfl)
  obtain ⟨_,created⟩ := (@stepBooks _ _ ⟨made,[as],[]⟩ .create _ begun trivial rfl).1 id
  obtain ⟨f,_,lost⟩ := (@stepBooks _ _ t (.allocRange as 0x5000 0x6000 7) _ created ⟨by decide,by decide⟩ rfl).2 stuck
  exact ⟨t,Runs.visitedLast rfl,used,booksLost lost⟩

end Miviex.SpaceUse
