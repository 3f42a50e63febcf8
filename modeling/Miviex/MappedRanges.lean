import Miviex.FrameOwnership
import Miviex.MemoryLaws

/-! What taking and giving back ranges of pages does to the leaves of all address spaces, and
with it what the memory calls do to a process's pages: `mmap`, `brk` and the check of a user
range. -/
namespace Miviex.Machine
open Function (update update_of_ne update_self)
open List Option Nat

variable {m n p : Machine} {owner after last : Owner} {as : AddressSpace} {flags : BitVec 12} {va x : Nat} {xs : List Nat}

/- Pages of `xs` that had no leaf have one over a frame of their own, cleared; nothing else
that was in use is different. -/
structure Extends (as : AddressSpace) (flags : BitVec 12) (xs : List Nat) (m : Machine) (owner : Owner) (n : Machine)
    (after : Owner) : Prop where
  trees : Trees n after
  stays : ∀ g, m.used g = true → after g = owner g
  used : ∀ g, m.used g = true → n.used g = true
  data : ∀ g, m.used g = true → n.data g = m.data g
  boot : n.boot = m.boot
  kept : ∀ r x e, owner r = some (r,[]) → x < 2^47 → m.leaf r x = some e → n.leaf r x = some e
  added : ∀ r x e, owner r = some (r,[]) → x < 2^47 → m.leaf r x = none → n.leaf r x = some e →
    (r = as.pml4 ∧ ∃ va ∈ xs, path x = path va) ∧ e.flags = flags ∧ (m.used e.frame = false ∧ n.used e.frame = true) ∧
      after e.frame = none ∧ n.data e.frame = fun _ => 0
  once : ∀ x y e d, x < 2^47 → y < 2^47 → m.leaf as.pml4 x = none → m.leaf as.pml4 y = none →
    n.leaf as.pml4 x = some e → n.leaf as.pml4 y = some d → e.frame = d.frame → path x = path y

theorem Idle.extends (idle : Idle m n) (trees : Trees m owner) : Extends as flags xs m owner n owner := by
  have same := leafTables idle.tables
  refine ⟨idle.trees trees,fun _ _ => rfl,fun g taken => idle.used ▸ taken,fun g _ => by rw [idle.data],idle.boot,
    fun r x e _ _ found => (same r x).trans found,fun r x e _ _ none found => ?_,fun x y e d _ _ none _ found _ _ => ?_⟩
  · rw [same,none] at found
    cases found
  rw [same,none] at found
  cases found

theorem Extends.trans {ys} (own : IsRoot owner as.pml4) (trees : Trees m owner)
    (first : Extends as flags xs m owner n after) (second : Extends as flags ys n after p last) :
    Extends as flags (xs ++ ys) m owner p last := by
  have roots : ∀ {r}, IsRoot owner r → IsRoot after r := fun ownR =>
    (first.stays _ (trees.owned ownR)).trans ownR
  have fresh : ∀ {r x e}, IsRoot owner r → x < 2^47 → m.leaf r x = none → p.leaf r x = some e →
      n.leaf r x = some e ∨ n.leaf r x = none := by
    intro r x e ownR low none found
    cases mid : n.leaf r x with
    | none => exact .inr rfl
    | some d => exact .inl ((second.kept r x d (roots ownR) low mid).symm.trans found)
  refine ⟨second.trees,fun g taken => (second.stays g (first.used g taken)).trans (first.stays g taken),
    fun g taken => second.used g (first.used g taken),
    fun g taken => (second.data g (first.used g taken)).trans (first.data g taken),second.boot.trans first.boot,
    fun r x e ownR low found => second.kept r x e (roots ownR) low (first.kept r x e ownR low found),
    fun r x e ownR low none found => ?_,fun x y e d lowX lowY noX noY atX atY same => ?_⟩
  · rcases fresh ownR low none found with mid | mid
    · obtain ⟨⟨isRoot,va,member,page⟩,bits,⟨unused,taken⟩,apart,zero⟩ := first.added r x e ownR low none mid
      exact ⟨⟨isRoot,va,mem_append_left ys member,page⟩,bits,⟨unused,second.used _ taken⟩,
        (second.stays _ taken).trans apart,(second.data _ taken).trans zero⟩
    obtain ⟨⟨isRoot,va,member,page⟩,bits,⟨unused,taken⟩,rest⟩ := second.added r x e (roots ownR) low mid found
    refine ⟨⟨isRoot,va,mem_append_right xs member,page⟩,bits,⟨?_,taken⟩,rest⟩
    by_contra before
    rw [first.used _ (Bool.not_eq_false _ ▸ before)] at unused
    cases unused
  have apart : ∀ {x y e d}, x < 2^47 → y < 2^47 → m.leaf as.pml4 x = none → n.leaf as.pml4 x = some e →
      n.leaf as.pml4 y = none → p.leaf as.pml4 y = some d → e.frame ≠ d.frame := by
    intro x y e d lowX lowY noX midX midY atY same
    have old := (first.added _ x e own lowX noX midX).2.2.1.2
    rw [same,(second.added _ y d (roots own) lowY midY atY).2.2.1.1] at old
    cases old
  rcases fresh own lowX noX atX with midX | midX <;> rcases fresh own lowY noY atY with midY | midY
  · exact first.once x y e d lowX lowY noX noY midX midY same
  · exact absurd same (apart lowX lowY noX midX midY atY)
  · exact absurd same.symm (apart lowY lowX noY midY midX atX)
  · exact second.once x y e d lowX lowY midX midY atX atY same

section

variable (trees : Trees m owner) (own : IsRoot owner as.pml4) (present : flags.getLsbD 0 = true)
include trees own present

theorem allocPageExtends {done} (low : va < 2^47) (unmapped : m.leaf as.pml4 va = none)
    (alloc : m.allocPage as flags va = (done,n)) :
    ∃ after, Extends as flags [va] m owner n after ∧ (done = true → (n.leaf as.pml4 va).isSome) := by
  unfold allocPage vmmTranslate at alloc
  rw [unmapped] at alloc
  dsimp only [map_none] at alloc
  cases taken : m.pmmAllocPage with
  | mk found mid =>
  rw [taken] at alloc
  cases found with
  | none =>
    cases alloc
    exact ⟨owner,(allocIdle taken).extends trees,nofun⟩
  | some f =>
  have takes := allocTakes taken
  have treesMid : Trees (mid.zeroFrame f) owner :=
    (takes.trees trees).outside rfl (fun _ _ => rfl) (takes.trees trees).used (fun i => ((takes.trees trees).boot i).1)
  have same : ∀ r x, (mid.zeroFrame f).leaf r x = m.leaf r x := leafTables takes.tables
  obtain ⟨after,mapped⟩ := mapPageMapped treesMid own low alloc
  have now : n.used f = true := mapped.used f (by rw [show (mid.zeroFrame f).used = _ from takes.used,update_self])
  have content : n.data = update mid.data f (fun _ => 0) := mapped.data
  have news : ∀ {r x e}, IsRoot owner r → x < 2^47 → m.leaf r x = none → n.leaf r x = some e →
      r = as.pml4 ∧ path x = path va ∧ e = ⟨f,flags⟩ := by
    intro r x e ownR lowX none found
    rw [mapped.leaf r x ownR lowX,same,none,if_pos present] at found
    split at found
    · rename_i here
      exact ⟨here.2.1,here.2.2,(Option.some.inj found).symm⟩
    · cases found
  refine ⟨after,⟨mapped.trees,fun g old => mapped.stays g (takes.grows old),fun g old => mapped.used g (takes.grows old),
    fun g old => ?_,mapped.boot.trans takes.boot,fun r x e ownR lowX found => ?_,fun r x e ownR lowX none found => ?_,
    fun x y e d lowX lowY noX noY atX atY _ => (news own lowX noX atX).2.1.trans (news own lowY noY atY).2.1.symm⟩,
    fun isDone => ?_⟩
  · rw [content,update_of_ne (takes.other old),takes.data]
  · rw [mapped.leaf r x ownR lowX,if_neg,same,found]
    rintro ⟨_,rfl,page⟩
    rw [leafPath page,unmapped] at found
    cases found
  · obtain ⟨isRoot,page,rfl⟩ := news ownR lowX none found
    exact ⟨⟨isRoot,va,mem_singleton_self va,page⟩,rfl,⟨takes.free,now⟩,
      (mapped.stays f (by rw [show (mid.zeroFrame f).used = _ from takes.used,update_self])).trans (trees.unowned takes.free),
      by rw [content,update_self]⟩
  rw [mapped.leaf _ va own low,if_pos ⟨isDone,rfl,rfl⟩,if_pos present]
  rfl

theorem allocPagesExtend {ok} (low : ∀ va ∈ xs, va < 2^47) (apart : xs.Pairwise (fun x y => path x ≠ path y))
    (unmapped : ∀ va ∈ xs, m.leaf as.pml4 va = none)
    (alloc : untilFailure (fun m va => m.allocPage as flags va) m xs = (ok,n)) :
    ∃ after, Extends as flags xs m owner n after ∧ (ok = true → ∀ va ∈ xs, (n.leaf as.pml4 va).isSome) := by
  induction xs generalizing m owner with
  | nil =>
    cases alloc
    exact ⟨owner,Idle.extends ⟨rfl,rfl,rfl,rfl⟩ trees,fun _ => (by simp)⟩
  | cons va rest ih =>
  obtain ⟨differ,apart⟩ := pairwise_cons.mp apart
  simp only [forall_mem_cons] at low unmapped
  unfold untilFailure at alloc
  cases page : m.allocPage as flags va with
  | mk done mid =>
  obtain ⟨after,first,here⟩ := allocPageExtends trees own present low.1 unmapped.1 page
  rw [page] at alloc
  cases done with
  | false =>
    cases alloc
    exact ⟨after,Extends.trans own trees first (Idle.extends ⟨rfl,rfl,rfl,rfl⟩ first.trees),by simp⟩
  | true =>
  have root := (first.stays _ (trees.owned own)).trans own
  have later w (member : w ∈ rest) : mid.leaf as.pml4 w = none := by
    by_contra mapped
    obtain ⟨e,found⟩ := ne_none_iff_exists'.mp mapped
    obtain ⟨_,v,isVa,page⟩ := (first.added _ w e own (low.2 w member) (unmapped.2 w member) found).1
    rw [mem_singleton.mp isVa] at page
    exact differ w member page.symm
  obtain ⟨last,second,there⟩ := ih first.trees root low.2 apart later alloc
  refine ⟨last,Extends.trans own trees first second,fun isOk => forall_mem_cons.mpr ⟨?_,there isOk⟩⟩
  obtain ⟨e,found⟩ := isSome_iff_exists.mp (here rfl)
  rw [second.kept _ va e root low.1 found]
  rfl

end

theorem pagesApart {start stop} (high : stop ≤ 2^47) : (pages start stop).Pairwise (fun x y => path x ≠ path y) := by
  have bound va (member : va ∈ pages start stop) : va < 2^47 := by have := pagesBound member; omega
  refine (pairwise_map.mpr ?_ : (pages start stop).Pairwise (fun x y => x < y)).imp_of_mem (fun inX inY less page => ?_)
  · refine pairwise_lt_range.imp (fun less => ?_)
    have := Nat.mul_lt_mul_of_pos_right less (show 0 < pageSize by decide)
    omega
  have same := (pathPage (bound _ inX) (bound _ inY)).mp page
  have one := (pagesBound inX).2.2
  have two := (pagesBound inY).2.2
  unfold pageSize at *
  omega

/- A frame that is neither a table of an address space nor one of the kernel's. -/
def IsPage (m : Machine) (owner : Owner) (f : Frame) : Prop := owner f = none ∧ ∀ i, (m.boot i).frame ≠ f

section

variable (trees : Trees m owner) (own : IsRoot owner as.pml4)
include trees own

end

theorem rangeFree {start stop} : m.vmmRangeIsFree as start stop = true ↔ ∀ va ∈ pages start stop, m.leaf as.pml4 va = none := by
  unfold vmmRangeIsFree vmmTranslate
  simp

theorem pagesMember {start stop} (above : start ≤ x) (below : x < stop) : alignDownPage x ∈ pages start stop := by
  refine mem_map.mpr ⟨(x - alignDownPage start) / pageSize,mem_range.mpr ?_,?_⟩ <;> unfold alignDownPage pageSize <;> omega

theorem pathAlign (low : x < 2^47) : path x = path (alignDownPage x) := by
  refine (pathPage low ?_).mpr ?_ <;> unfold alignDownPage pageSize <;> omega

/- User pages are frames in use that are no tables. -/
structure Formed (m : Machine) (owner : Owner) : Prop extends WellFormed m owner where
  pages : ∀ r, owner r = some (r,[]) → ∀ x e, x < 2^47 → m.leaf r x = some e → IsPage m owner e.frame

theorem Ledger.formed {start roots held lost role} (ledger : Ledger start roots held lost m role) :
    Formed m (tableOwner role) := by
  refine ⟨⟨ledger.trees,fun r own => ledger.leavesUsed ((ledger.tops r).mp (tableOwnerSome.mp own))⟩,?_⟩
  intro r own x e low found
  have mapped := (ledger.page r (path x) e.frame).mpr
    ⟨(ledger.tops r).mp (tableOwnerSome.mp own),x,e,low,rfl,found,rfl⟩
  refine ⟨tableOwnerNone.mpr (fun root q table => ?_),fun i same => ?_⟩
  · rw [mapped] at table
    cases table
  have outside := (ledger.outside _).mpr (ledger.reserved i)
  rw [← ledger.boot,same,mapped] at outside
  cases outside

theorem findFreeRange {len top} (found : m.findFree as len top = some va) (aligned : top % pageSize = 0)
    (whole : len % pageSize = 0) :
    va % pageSize = 0 ∧ ∀ x, va ≤ x → x < va+len → x % pageSize = 0 → m.vmmTranslate as x = none := by
  fun_induction findFree m as len top with
  | case1 => cases found
  | case2 top enough none =>
    cases found
    refine ⟨by unfold pageSize at *; omega,fun x above below page => ?_⟩
    unfold firstMapped at none
    have each := find?_eq_none.mp none ((top-x) / pageSize - 1) (mem_range.mpr (by unfold pageSize at *; omega))
    rw [show top - ((top-x) / pageSize - 1 + 1) * pageSize = x by unfold pageSize at *; omega] at each
    simpa using each
  | case3 top enough i mapped ih => exact ih found (by unfold pageSize at *; omega)

/- A run of `len` free bytes at `lo`, where a mapping may be placed. -/
structure Hole (m : Machine) (as : AddressSpace) (len lo : Nat) : Prop where
  aligned : lo % pageSize = 0
  above : as.brkStart ≤ lo
  below : lo+len ≤ mmapTop
  free : ∀ x, lo ≤ x → x < lo+len → m.vmmTranslate as x = none

theorem alignedSize (a) : alignUpPage a % pageSize = 0 := mul_mod_left _ _

structure Hinted (as : AddressSpace) : Prop where
  aligned : as.mmapHint % pageSize = 0
  top : as.mmapHint ≤ mmapTop

theorem pageFree (low : x < 2^47) (page : m.vmmTranslate as (alignDownPage x) = none) : m.vmmTranslate as x = none := by
  unfold vmmTranslate at page ⊢
  rw [leafPath (pathAlign low),map_eq_none_iff.mp page]
  rfl

theorem findFreeHole {len} (hinted : Hinted as) (whole : len % pageSize = 0) (found : m.findFree as len as.mmapHint = some va) :
    Hole m as len va := by
  obtain ⟨above,below⟩ := findFreeBounds found
  obtain ⟨aligned,free⟩ := findFreeRange found hinted.aligned whole
  have top := hinted.top
  refine ⟨aligned,above,le_trans below top,fun x first last => ?_⟩
  have low : x < 2^47 := by unfold mmapTop userEndAddr at top; omega
  exact pageFree low (free (alignDownPage x) (by unfold alignDownPage pageSize at *; omega)
    (lt_of_le_of_lt (div_mul_le_self x pageSize) last) (mul_mod_left _ _))

/- The search goes from the top down: no hole below `top` lies above the one it finds. -/
theorem findFreeHighest {len top lo} (aligned : top % pageSize = 0) (whole : len % pageSize = 0) (hole : Hole m as len lo) :
    top < lo+len ∨ ∃ va, m.findFree as len top = some va ∧ lo ≤ va := by
  fun_induction findFree m as len top with
  | case1 top short =>
    have above := hole.above
    exact .inl (by omega)
  | case2 top => exact (lt_or_ge top (lo+len)).imp_right (fun inside => ⟨_,rfl,Nat.le_sub_of_add_le inside⟩)
  | case3 top enough i mapped ih =>
    refine (ih (by unfold pageSize at *; omega)).imp_left (fun later => ?_)
    by_contra inside
    have bound := firstMappedBound mapped
    have some := find?_some mapped
    rw [hole.free _ (by unfold pageSize at *; omega) later] at some
    cases some

theorem allocRangeExtends {start stop ok} (trees : Trees m owner) (own : IsRoot owner as.pml4)
    (present : flags.getLsbD 0 = true) (high : stop ≤ userEndAddr)
    (free : m.vmmRangeIsFree as start stop = true) (alloc : m.vmmAllocRange as start stop flags = (ok,n)) :
    ∃ after, Extends as flags (pages start stop) m owner n after ∧
    (ok = true → ∀ va ∈ pages start stop, (n.leaf as.pml4 va).isSome) :=
  allocPagesExtend trees own present (pagesLow high) (pagesApart (le_trans high (by decide))) (rangeFree.mp free) alloc

section

variable (formed : Formed m owner) (own : IsRoot owner as.pml4)
include formed own

end

def newSpace (frames : List (Option Frame)) : Machine :=
  ({SpaceUse.bare (some 1::frames) with heap := [true]} : Machine).vmmCreateAddressSpace.2

def emptySpace : AddressSpace := ⟨1,0,0,mmapTop⟩

theorem newSpaceBooks (frames) : ∃ role, SpaceUse.Books {SpaceUse.bare (some 1::frames) with heap := [true]} []
    ⟨newSpace frames,[emptySpace],[]⟩ role := by
  obtain ⟨_,begun⟩ := @SpaceUse.startBooks {SpaceUse.bare (some 1::frames) with heap := [true]} (fun _ => rfl)
  exact (@SpaceUse.stepBooks _ _ ⟨newSpace frames,[emptySpace],[]⟩ .create _ begun trivial rfl).1 id

theorem formedOf {start role} (books : SpaceUse.Books start [] ⟨m,[emptySpace],[]⟩ role) :
    ∃ owner, Formed m owner ∧ IsRoot owner emptySpace.pml4 :=
  ⟨_,books.ledger.formed,books.ledger.own (mem_map_of_mem (mem_singleton_self _))⟩

theorem mmapHinted {addr len prot flags off} (hinted : Hinted as) : Hinted (m.sysMmap as addr len prot flags off).2.1 := by
  have anywhere : Hinted (m.mmapAnywhere as (alignUpPage len.toNat) prot).2.1 := by
    unfold mmapAnywhere
    split
    · exact hinted
    rename_i va found
    have lower : Hinted {as with mmapHint := va} :=
      ⟨(findFreeHole hinted (alignedSize _) found).aligned,le_of_add_right_le (findFreeHole hinted (alignedSize _) found).below⟩
    dsimp only
    split
    · exact lower
    · unfold mapAnonymous
      split <;> exact lower
  have fixed : ∀ {n : Machine} {va size}, (n.mapAnonymous as va size prot).2.1 = as := by
    intro n va size
    unfold mapAnonymous
    split <;> rfl
  unfold sysMmap mmapFixed
  dsimp only
  repeat' split
  all_goals first | exact hinted | exact anywhere | (rw [fixed]; exact hinted)

theorem brkHinted {addr} (hinted : Hinted as) : Hinted (m.sysBrk as addr).2.1 := by
  unfold sysBrk
  dsimp only
  repeat' split
  all_goals exact ⟨hinted.aligned,hinted.top⟩

theorem munmapHinted {addr len} (hinted : Hinted as) : Hinted (m.sysMunmap as addr len).2.1 := by
  unfold sysMunmap
  dsimp only
  split
  · exact hinted
  rename_i accepted
  simp only [Bool.or_eq_true,Bool.not_eq_true',not_or,Bool.not_eq_false] at accepted
  obtain ⟨stop,_,aligned⟩ := userRangeBound accepted.2 (alignUpSmall len.toNat) addr.isLt
  have size := alignedSize len.toNat
  have top : mmapTop % pageSize = 0 := by decide
  obtain ⟨hint,high⟩ := hinted
  constructor <;> dsimp only <;> split <;> unfold pageSize at * <;> omega

inductive MapCall where
  | mmap (addr len prot flags off : BitVec 64)
  | munmap (addr len : BitVec 64)

def mapStep (s : Machine × AddressSpace) : MapCall → Option (Machine × AddressSpace)
  | .mmap addr len prot flags off => let (_,as,m) := s.1.sysMmap s.2 addr len prot flags off; some (m,as)
  | .munmap addr len => let (_,as,m) := s.1.sysMunmap s.2 addr len; some (m,as)

/- The pages of a new mapping: free before, and each now on a cleared frame of its own. -/
structure Placed (m : Machine) (owner : Owner) (as : AddressSpace) (va size : Nat) (flags : BitVec 12) (n : Machine) : Prop where
  place : va % pageSize = 0 ∧ as.brkStart ≤ va ∧ va + size ≤ mmapTop
  free : ∀ x, va ≤ x → x < va+size → m.leaf as.pml4 x = none
  filled : ∀ x, va ≤ x → x < va+size → ∃ f, n.leaf as.pml4 x = some ⟨f,flags⟩ ∧ m.used f = false ∧ n.data f = fun _ => 0
  distinct : ∀ x y e d, va ≤ x → x < va+size → va ≤ y → y < va+size →
    n.leaf as.pml4 x = some e → n.leaf as.pml4 y = some d → e.frame = d.frame → x / pageSize = y / pageSize
  others : ∀ r x, owner r = some (r,[]) → x < 2^47 → ¬ (r = as.pml4 ∧ va ≤ x ∧ x < va+size) → n.leaf r x = m.leaf r x
  data : ∀ g, m.used g = true → n.data g = m.data g

theorem mmapPlaced {addr len prot flags off as'} (trees : Trees m owner) (own : IsRoot owner as.pml4)
    (hinted : Hinted as) (free : (flags.getLsbD 4 || flags.getLsbD 20) = false)
    (call : m.sysMmap as addr len prot flags off = (.ok va,as',n)) :
    Placed m owner as va (alignUpPage len.toNat) (protFlags prot) n := by
  unfold sysMmap at call
  dsimp only at call
  split at call
  · cases call
  split at call
  · cases call
  rw [free,if_neg Bool.false_ne_true] at call
  unfold mmapAnywhere at call
  split at call
  · cases call
  rename_i lo found
  dsimp only at call
  split at call
  · cases call
  unfold mapAnonymous at call
  split at call
  · cases call
  rename_i mid alloc
  cases call
  have whole := alignedSize len.toNat
  have hole := findFreeHole hinted whole found
  generalize alignUpPage len.toNat = size at *
  have aligned := hole.aligned
  have high : va+size ≤ userEndAddr := le_trans hole.below (by decide)
  have low : ∀ {x}, x < va+size → x < 2^47 := fun inside => lt_of_lt_of_le inside (le_trans high (by decide))
  have none x (first : va ≤ x) (last : x < va+size) : m.leaf as.pml4 x = none := translateNone (hole.free x first last)
  have empty : m.vmmRangeIsFree {as with mmapHint := va} va (va+size) = true := by
    refine rangeFree.mpr (fun x member => ?_)
    obtain ⟨first,last,_⟩ := pagesBound member
    exact none x (by unfold alignDownPage pageSize at *; omega) last
  obtain ⟨after,more,full⟩ := allocRangeExtends trees own (protFlagsPresent prot) high empty alloc
  refine ⟨⟨aligned,hole.above,hole.below⟩,none,fun x first last => ?_,
    fun x y e d firstX lastX firstY lastY atX atY same => (pathPage (low lastX) (low lastY)).mp
      (more.once x y e d (low lastX) (low lastY) (none x firstX lastX) (none y firstY lastY) atX atY same),
    fun r x ownR lowX away => ?_,more.data⟩
  · obtain ⟨e,there⟩ := isSome_iff_exists.mp (full rfl _ (pagesMember first last))
    have there : n.leaf as.pml4 x = some e := (leafPath (pathAlign (low last))).trans there
    obtain ⟨_,bits,⟨unused,_⟩,_,zero⟩ := more.added _ x e own (low last) (none x first last) there
    exact ⟨e.frame,by rw [there,← bits],unused,zero⟩
  cases before : m.leaf r x with
  | some e => exact more.kept r x e ownR lowX before
  | none =>
  by_contra mapped
  obtain ⟨e,there⟩ := ne_none_iff_exists'.mp mapped
  obtain ⟨isRoot,w,member,page⟩ := (more.added r x e ownR lowX before there).1
  obtain ⟨first,last,aligned'⟩ := pagesBound member
  have same := (pathPage lowX (low last)).mp page
  refine away ⟨isRoot,?_⟩
  unfold alignDownPage pageSize at *
  omega

theorem mmapPlacement (m : Machine) (owner : Owner) (as : AddressSpace) (trees : Trees m owner)
    (own : owner as.pml4 = some (as.pml4,[])) (aligned : as.mmapHint % pageSize = 0) (top : as.mmapHint ≤ mmapTop) :
    (∀ addr len prot flags off va as' n, (flags.getLsbD 4 || flags.getLsbD 20) = false →
    m.sysMmap as addr len prot flags off = (.ok va,as',n) → Placed m owner as va (alignUpPage len.toNat) (protFlags prot) n) ∧
    ∀ calls, ∀ t ∈ Runs.visited mapStep (m,as) calls, t.2.mmapHint % pageSize = 0 ∧ t.2.mmapHint ≤ mmapTop := by
  refine ⟨fun _ _ _ _ _ _ _ _ free call => mmapPlaced trees own ⟨aligned,top⟩ free call,fun calls t reached => ?_⟩
  have hinted s c t (hinted : Hinted s.2) (taken : mapStep s c = some t) : Hinted t.2 := by
    cases c with
    | mmap addr len prot flags off =>
      cases taken
      exact mmapHinted hinted
    | munmap addr len =>
      cases taken
      exact munmapHinted hinted
  obtain ⟨aligned,top⟩ := Runs.visitedAlways hinted ⟨aligned,top⟩ t reached
  exact ⟨aligned,top⟩

theorem pagePlaced : ∃ owner as n,
    (newSpace [some 2,some 3,some 4,some 5]).sysMmap emptySpace 0 1 3 0x20 0 = (.ok (mmapTop-0x1000),as,n) ∧
    Placed (newSpace [some 2,some 3,some 4,some 5]) owner emptySpace (mmapTop-0x1000) 0x1000 7 n := by
  obtain ⟨_,books⟩ := newSpaceBooks [some 2,some 3,some 4,some 5]
  obtain ⟨owner,formed,own⟩ := formedOf books
  have call : ((newSpace [some 2,some 3,some 4,some 5]).sysMmap emptySpace 0 1 3 0x20 0).1 = .ok (mmapTop-0x1000) := by
    decide +kernel
  exact ⟨owner,_,_,Prod.ext call rfl,
    (mmapPlacement _ owner _ formed.trees own rfl (le_refl _)).1 0 1 3 0x20 0 _ _ _ rfl (Prod.ext call rfl)⟩

/- `MAP_FIXED_NOREPLACE` is not `MAP_FIXED`, and takes the address of the caller. -/
theorem pageAboveTop : ((newSpace [some 2,some 3,some 4,some 5]).sysMmap emptySpace (.ofNat 64 mmapTop) 1 3 0x100020 0).1 =
    .ok mmapTop := by decide +kernel

theorem pagesOne (aligned : va % pageSize = 0) : pages va (va+pageSize) = [va] := by
  have start : alignDownPage va = va := by unfold alignDownPage pageSize at *; omega
  unfold pages
  rw [start,show (va+pageSize-va+pageSize-1) / pageSize = 1 by unfold pageSize; omega]
  simp

def inStack (va : Nat) : Bool := userEndAddr-userStackMax ≤ va

section

variable {write ok : Bool} (own : IsRoot owner as.pml4)
include own

theorem userOkPageExtends (trees : Trees m owner) (low : va < 2^47) (aligned : va % pageSize = 0)
    (call : userOkPage as write m va = (ok,n)) : ∃ after, Extends as userFlags ([va].filter inStack) m owner n after ∧
    (ok = true → ∃ e, n.leaf as.pml4 va = some e ∧ e.user = true ∧ (write = true → e.write = true)) := by
  unfold userOkPage at call
  generalize grown : (if (m.leaf as.pml4 va).isNone && va ≥ userEndAddr-userStackMax
    then (m.vmmAllocRange as va (va+pageSize) userFlags).2 else m) = k at call
  dsimp only at call
  have judged : k = n ∧ (ok = true → ∃ e, n.leaf as.pml4 va = some e ∧ e.user = true ∧ (write = true → e.write = true)) := by
    split at call
    · cases call
      exact ⟨rfl,by simp⟩
    rename_i e found
    cases call
    refine ⟨rfl,fun fine => ⟨e,found,?_⟩⟩
    cases write <;> simpa using fine
  obtain ⟨rfl,sound⟩ := judged
  refine (exists_congr (fun after => and_iff_left sound)).mpr ?_
  rw [← grown]
  split
  · rename_i grows
    simp only [Bool.and_eq_true,isNone_iff_eq_none] at grows
    have stack : [va].filter inStack = [va] := by simp [inStack,of_decide_eq_true grows.2]
    unfold vmmAllocRange
    rw [pagesOne aligned,stack]
    obtain ⟨after,more,_⟩ := allocPagesExtend trees own (by decide : userFlags.getLsbD 0 = true) (by simpa using low)
      (pairwise_singleton _ va) (by simpa using grows.1) rfl
    exact ⟨after,more⟩
  · exact ⟨owner,Idle.extends ⟨rfl,rfl,rfl,rfl⟩ trees⟩

theorem userOkExtends (trees : Trees m owner) (low : ∀ va ∈ xs, va < 2^47 ∧ va % pageSize = 0)
    (call : untilFailure (userOkPage as write) m xs = (ok,n)) :
    ∃ after, Extends as userFlags (xs.filter inStack) m owner n after ∧
    (ok = true → ∀ va ∈ xs, ∃ e, n.leaf as.pml4 va = some e ∧ e.user = true ∧ (write = true → e.write = true)) := by
  induction xs generalizing m owner with
  | nil =>
    cases call
    exact ⟨owner,Idle.extends ⟨rfl,rfl,rfl,rfl⟩ trees,fun _ => (by simp)⟩
  | cons va rest ih =>
  simp only [forall_mem_cons] at low
  unfold untilFailure at call
  cases page : userOkPage as write m va with
  | mk done mid =>
  obtain ⟨after,first,here⟩ := userOkPageExtends own trees low.1.1 low.1.2 page
  rw [page] at call
  rw [← singleton_append,filter_append]
  cases done with
  | false =>
    cases call
    exact ⟨after,Extends.trans own trees first (Idle.extends ⟨rfl,rfl,rfl,rfl⟩ first.trees),by simp⟩
  | true =>
    have root := (first.stays _ (trees.owned own)).trans own
    obtain ⟨last,second,there⟩ := ih root first.trees low.2 call
    refine ⟨last,Extends.trans own trees first second,fun fine => forall_mem_cons.mpr ⟨?_,there fine⟩⟩
    obtain ⟨e,found,allowed⟩ := here rfl
    exact ⟨e,second.kept _ va e root low.1.1 found,allowed⟩

end

/- A leaf is a present entry. What `vmm_user_ok` may add are pages of the stack. -/
theorem userOkSound (m : Machine) (owner : Owner) (as : AddressSpace) (trees : Trees m owner)
    (own : owner as.pml4 = some (as.pml4,[])) (addr len : BitVec 64) (write ok : Bool) (n : Machine)
    (call : m.vmmUserOk as addr.toNat len.toNat write = (ok,n)) :
    (ok = true → ∀ a, addr.toNat ≤ a → a < addr.toNat+len.toNat → a < userEndAddr ∧
    ∃ e, n.leaf as.pml4 a = some e ∧ e.user = true ∧ (write = true → e.write = true)) ∧
    (∀ r x e, owner r = some (r,[]) → x < 2^47 → m.leaf r x = some e → n.leaf r x = some e) ∧
    (∀ g, m.used g = true → n.data g = m.data g) ∧
    ∀ r x e, owner r = some (r,[]) → x < 2^47 → m.leaf r x = none → n.leaf r x = some e →
    r = as.pml4 ∧ userEndAddr - userStackMax ≤ x ∧ x < userEndAddr ∧ e.flags = userFlags ∧ n.data e.frame = fun _ => 0 := by
  suffices grown : ∃ after xs, Extends as userFlags xs m owner n after ∧
      (∀ va ∈ xs, userEndAddr - userStackMax ≤ va ∧ va < userEndAddr ∧ va % pageSize = 0) ∧
      (ok = true → ∀ a, addr.toNat ≤ a → a < addr.toNat+len.toNat → a < userEndAddr ∧
        ∃ e, n.leaf as.pml4 a = some e ∧ e.user = true ∧ (write = true → e.write = true)) by
    obtain ⟨after,xs,more,stack,sound⟩ := grown
    refine ⟨sound,more.kept,more.data,fun r x e ownR low none found => ?_⟩
    obtain ⟨⟨isRoot,va,member,page⟩,bits,_,_,zero⟩ := more.added r x e ownR low none found
    obtain ⟨base,high,aligned⟩ := stack va member
    have same := (pathPage low (lt_trans high (by decide))).mp page
    refine ⟨isRoot,?_,?_,bits,zero⟩ <;> unfold userEndAddr userStackMax pageSize at * <;> omega
  have small := addr.isLt
  have short := len.isLt
  unfold vmmUserOk at call
  dsimp only at call
  split at call
  · cases call
    exact ⟨owner,[],Idle.extends ⟨rfl,rfl,rfl,rfl⟩ trees,nofun,fun _ a above below => by omega⟩
  split at call
  · cases call
    exact ⟨owner,[],Idle.extends ⟨rfl,rfl,rfl,rfl⟩ trees,nofun,nofun⟩
  rename_i range
  simp only [Bool.or_eq_true,decide_eq_true_eq,not_or,not_lt,gt_iff_lt] at range
  have exactly : (addr.toNat+len.toNat) % 2^64 = addr.toNat+len.toNat := by omega
  rw [exactly] at call range
  obtain ⟨after,more,checked⟩ := userOkExtends own trees
    (fun va member => ⟨pagesLow range.2 va member,(pagesBound member).2.2⟩) call
  refine ⟨after,_,more,fun va member => ?_,fun fine a above below => ⟨by omega,?_⟩⟩
  · obtain ⟨inside,stack⟩ := mem_filter.mp member
    obtain ⟨_,last,aligned⟩ := pagesBound inside
    exact ⟨of_decide_eq_true stack,lt_of_lt_of_le last range.2,aligned⟩
  obtain ⟨e,found,allowed⟩ := checked fine (alignDownPage a) (pagesMember above below)
  have low : a < 2^47 := lt_of_lt_of_le below (le_trans range.2 (by decide))
  exact ⟨e,(leafPath (pathAlign low)).trans found,allowed⟩

theorem stackPageOk : ∃ n, (newSpace [some 2,some 3,some 4,some 5]).vmmUserOk emptySpace (userEndAddr-8) 8 true = (true,n) ∧
    ∃ e, n.leaf emptySpace.pml4 (userEndAddr-1) = some e ∧ e.user = true ∧ (true = true → e.write = true) := by
  obtain ⟨_,books⟩ := newSpaceBooks [some 2,some 3,some 4,some 5]
  obtain ⟨owner,formed,own⟩ := formedOf books
  have call : ((newSpace [some 2,some 3,some 4,some 5]).vmmUserOk emptySpace (userEndAddr-8) 8 true).1 = true := by
    decide +kernel
  exact ⟨_,Prod.ext call rfl,((userOkSound _ owner _ formed.trees own (.ofNat 64 (userEndAddr-8)) 8 true _ _
    (Prod.ext call rfl)).1 rfl (userEndAddr-1) (by decide) (by decide)).2⟩

end Miviex.Machine

namespace Miviex.System
open Machine

variable {s t : System} {pid : Nat} {as : AddressSpace} {m : Machine} {e : Event}

def Hints (s : System) : Prop := ∀ pid as, s.spaces pid = some as → Hinted as

theorem hintsSet {new} (hints : Hints s) (mine : ∀ a, new = some a → Hinted a) : Hints ⟨m,Function.update s.spaces pid new⟩ := by
  intro p a found
  rcases eq_or_ne p pid with rfl | other
  · exact mine a ((Function.update_self p new s.spaces).symm.trans found)
  · exact hints p a ((Function.update_of_ne other new s.spaces).symm.trans found)

theorem stepHints (good : Good False 0 s) (hints : Hints s) (taken : s.step e = some t) : Hints t := by
  obtain ⟨owner,owns⟩ := good
  have sane := sameTablesSane (⟨rfl,rfl,rfl⟩ : SameTables s.machine {s.machine with frames := e.frames, heap := e.heap}) owns.sane
  have started : ∀ {img a m after}, Planted img m a after → Hinted a := fun planted =>
    ⟨by rw [planted.fresh.hint]; decide,le_of_eq planted.fresh.hint⟩
  have sets : ∀ {a}, Hinted a → ∀ b, some a = some b → Hinted b := fun here b same => Option.some.inj same ▸ here
  unfold step at taken
  dsimp only at taken
  split at taken
  · rename_i as here
    have mine := hints e.pid as here
    cases action : e.action <;> rw [action] at taken <;> unfold act at taken <;> dsimp only at taken
    case execve img args =>
      split at taken
      · cases taken
        exact hints
      rename_i image n exec
      cases taken
      obtain ⟨_,_,_,_,planted⟩ := processExecveSane sane (floorLowest lowestZero) (owns.root e.pid as here) exec
      exact hintsSet hints (sets (started (planted image rfl)))
    case brk => cases taken; exact hintsSet hints (sets (brkHinted mine))
    case mmap => cases taken; exact hintsSet hints (sets (mmapHinted mine))
    case munmap => cases taken; exact hintsSet hints (sets (munmapHinted mine))
    case mprotect | userOk => cases taken; exact hints
    case fault =>
      split at taken <;> rw [← Option.some.inj taken]
      · exact hints
      · exact hintsSet hints nofun
    case fork child =>
      split at taken
      · cases taken
      split at taken
      · cases taken
        exact hints
      rename_i copy n clone
      cases taken
      obtain ⟨_,_,_,cloned⟩ := vmmCloneSane sane (owns.root e.pid as here) clone
      refine hintsSet hints (sets ?_)
      rw [(cloned copy rfl).2.2]
      exact ⟨mine.aligned,mine.top⟩
    case exit => rw [← Option.some.inj taken]; exact hintsSet hints nofun
  · split at taken
    · cases taken
      exact hints
    rename_i image n exec
    cases taken
    obtain ⟨_,_,_,planted⟩ := processExecSane sane (floorLowest lowestZero) exec
    exact hintsSet hints (sets (started (planted image rfl)))
  · cases taken

/- Only holes at 0 or that reach above the hint are left. The search does not see those above the
hint, and its callers take a hole at 0 for none. -/
def Lost (m : Machine) (as : AddressSpace) (len : Nat) : Prop :=
  (∃ lo, Hole m as len lo) ∧ ∀ lo, Hole m as len lo → lo = 0 ∨ as.mmapHint < lo+len

theorem nothingLost (m : Machine) (events : List Event) :
    ∀ t ∈ Runs.visited step (boot m) events, ∀ pid as len, t.spaces pid = some as → len % pageSize = 0 →
    (((t.machine.findFree as len as.mmapHint).getD 0 = 0 → ¬ ∃ lo, Hole t.machine as len lo) ↔ ¬ Lost t.machine as len) := by
  intro t reached pid as len here whole
  have kept s e t (good : Good False 0 s ∧ Hints s) (taken : s.step e = some t) : Good False 0 t ∧ Hints t :=
    ⟨stepGood lowestZero good.1 (.inl rfl) (fun h => h.elim) taken,stepHints good.1 good.2 taken⟩
  have hinted := (Runs.visitedAlways kept ⟨bootGood False 0 m,nofun⟩ t reached).2 pid as here
  constructor
  · rintro complete ⟨hole,above⟩
    refine complete ?_ hole
    cases found : t.machine.findFree as len as.mmapHint with
    | none => rfl
    | some va =>
      exact (above va (findFreeHole hinted whole found)).resolve_right (Nat.not_lt_of_le (findFreeBounds found).2)
  intro found zero some
  refine found ⟨some,fun lo hole => ?_⟩
  rcases findFreeHighest hinted.aligned whole hole with high | ⟨va,there,below⟩
  · exact .inr high
  rw [there] at zero
  exact .inl (Nat.le_zero.mp (le_of_le_of_eq below zero))

theorem firstSearch : ∃ t ∈ Runs.visited step (boot sampleMachine) [sampleExec oneSegment], ∃ as, t.spaces 1 = some as ∧
    (((t.machine.findFree as 0x1000 as.mmapHint).getD 0 = 0 → ¬ ∃ lo, Hole t.machine as 0x1000 lo) ↔ ¬ Lost t.machine as 0x1000) := by
  have final : ((Runs.run step (boot sampleMachine) [sampleExec oneSegment]).bind (fun t => t.spaces 1)).isSome = true := by
    decide +kernel
  obtain ⟨as,found⟩ := Option.isSome_iff_exists.mp final
  obtain ⟨t,reached,here⟩ := Option.bind_eq_some_iff.mp found
  have last := Runs.visitedLast reached
  exact ⟨t,last,as,here,nothingLost sampleMachine _ t last 1 as 0x1000 here rfl⟩

def highSegment : List Byte := oneSegment.take 80 ++ wordBytes (mmapTop-0x8000) ++ oneSegment.drop 88

/- Seven pages lie between the heap and MMAP_TOP. A gap of one page is skipped by a request
for two. -/
def skippedGap : List Event :=
  [sampleExec highSegment,⟨1,.mmap 0 0x1000 3 0x20 0,sampleFrames 40,[]⟩,
    ⟨1,.mmap (.ofNat 64 (mmapTop-0x3000)) 0x1000 3 0x30 0,sampleFrames 50,[]⟩,
    ⟨1,.mmap 0 0x2000 3 0x20 0,sampleFrames 60,[]⟩,⟨1,.mmap 0 0x2000 3 0x20 0,sampleFrames 70,[]⟩]

theorem gapLost : ∃ t ∈ Runs.visited step (boot sampleMachine) skippedGap, ∃ as, t.spaces 1 = some as ∧
    t.machine.findFree as 0x1000 as.mmapHint = none ∧ Hole t.machine as 0x1000 (mmapTop-0x2000) := by
  have final : (Runs.run step (boot sampleMachine) skippedGap).bind (fun t => (t.spaces 1).map (fun as =>
      (t.machine.findFree as 0x1000 as.mmapHint,decide (as.brkStart ≤ mmapTop-0x2000),
        t.machine.vmmTranslate as (mmapTop-0x2000)))) = some (none,true,none) := by decide +kernel
  obtain ⟨t,reached,rest⟩ := Option.bind_eq_some_iff.mp final
  obtain ⟨as,here,facts⟩ := Option.map_eq_some_iff.mp rest
  simp only [Prod.mk.injEq,decide_eq_true_eq] at facts
  refine ⟨t,Runs.visitedLast reached,as,here,facts.1,by decide,facts.2.1,by decide,fun x above below => ?_⟩
  refine pageFree (lt_of_lt_of_le below (by decide)) ?_
  rw [show alignDownPage x = mmapTop - 0x2000 by unfold alignDownPage pageSize mmapTop userEndAddr at *; omega]
  exact facts.2.2

end Miviex.System
