import Miviex.MemoryRuns

/-! The page tables of every process in every run: what the hardware grants is what the
leaf entry records, and nothing is mapped below MMAP_MIN. -/
namespace Miviex.System
open Machine RadixForest List Option Runs Function Nat

structure Owns (strict : Prop) (lowest : Nat) (s : System) (owner : Owner) : Prop where
  sane : Sane strict (leafFrom lowest) s.machine owner
  root : ∀ pid as, s.spaces pid = some as → owner as.pml4 = some (as.pml4,[])
  bounds : ∀ pid as, s.spaces pid = some as → Bounds lowest as
  apart : ∀ p q a b, s.spaces p = some a → s.spaces q = some b → a.pml4 = b.pml4 → p = q

def Good (strict : Prop) (lowest : Nat) (s : System) : Prop := ∃ owner, Owns strict lowest s owner

variable {strict : Prop} {lowest : Nat} {s : System} {owner after : Owner} {m : Machine} {pid : Nat}
  {as : AddressSpace}

theorem bootGood (strict : Prop) (lowest m) : Good strict lowest (boot m) := by
  refine ⟨fun _ => none,⟨⟨?_,?_,?_⟩,?_,?_,?_,?_,?_⟩,?_,?_,?_⟩ <;> intros <;> contradiction

theorem goodUpdate {new} (owns : Owns strict lowest s owner) (sane : Sane strict (leafFrom lowest) m after)
    (others : ∀ q b, q ≠ pid → s.spaces q = some b → IsRoot after b.pml4)
    (mine : ∀ a, new = some a → IsRoot after a.pml4 ∧ Bounds lowest a ∧
    ∀ q b, q ≠ pid → s.spaces q = some b → a.pml4 ≠ b.pml4) : Good strict lowest ⟨m,update s.spaces pid new⟩ := by
  have cases q b (found : update s.spaces pid new q = some b) :
      (q = pid ∧ new = some b) ∨ (q ≠ pid ∧ s.spaces q = some b) := by
    by_cases same : q = pid
    · subst same
      rw [update_self] at found
      exact .inl ⟨rfl,found⟩
    rw [update_of_ne same] at found
    exact .inr ⟨same,found⟩
  refine ⟨after,sane,fun q b found => ?_,fun q b found => ?_,fun p q a b foundA foundB same => ?_⟩
  · rcases cases q b found with ⟨_,isNew⟩ | ⟨other,old⟩
    · exact (mine b isNew).1
    · exact others q b other old
  · rcases cases q b found with ⟨_,isNew⟩ | ⟨other,old⟩
    · exact (mine b isNew).2.1
    · exact owns.bounds q b old
  rcases cases p a foundA with ⟨isP,newA⟩ | ⟨otherA,oldA⟩
  · rcases cases q b foundB with ⟨isQ,_⟩ | ⟨otherB,oldB⟩
    · rw [isP,isQ]
    · exact absurd same ((mine a newA).2.2 q b otherB oldB)
  rcases cases q b foundB with ⟨isQ,newB⟩ | ⟨otherB,oldB⟩
  · exact absurd same.symm ((mine b newB).2.2 p a otherA oldA)
  · exact owns.apart p q a b oldA oldB same

theorem goodSettled (owns : Owns strict lowest s owner) (settled : Settled strict lowest owner m) :
    Good strict lowest {s with machine := m} := by
  obtain ⟨after,sane,roots⟩ := settled
  exact ⟨after,sane,fun q b found => roots _ (owns.root q b found),owns.bounds,owns.apart⟩

variable {new : AddressSpace} {img : List Byte} {t : System}

section

variable (owns : Owns strict lowest s owner)
include owns

theorem goodCall (here : s.spaces pid = some as)
    (result : Settled strict lowest owner m ∧ new.pml4 = as.pml4 ∧ Bounds lowest new) :
    Good strict lowest (s.setSpace pid new m) := by
  obtain ⟨⟨after,sane,roots⟩,same,bounds⟩ := result
  refine goodUpdate owns sane (fun q b _ found => roots _ (owns.root q b found)) (fun a isNew => ?_)
  cases isNew
  rw [same]
  exact ⟨roots _ (owns.root pid as here),bounds,fun q b other found again =>
    other (owns.apart pid q as b here found again).symm⟩

theorem unusedApart
    (unused : s.machine.used new.pml4 = false) {q b} (found : s.spaces q = some b) : new.pml4 ≠ b.pml4 := by
  intro same
  rw [same,owns.sane.used b.pml4 (by rw [owns.root q b found]; simp)] at unused
  cases unused

theorem goodExit (here : s.spaces pid = some as)
    (settled : Settled strict lowest owner m) : Good strict lowest (s.exitProcess pid as m) := by
  obtain ⟨after,sane,roots⟩ := settled
  refine goodUpdate owns (destroySane as sane (roots _ (owns.root pid as here)))
    (fun q b other found => ?_) (fun a h => by cases h)
  exact forgetRoots after as.pml4 _ (fun same => other (owns.apart q pid b as found here same))
    (roots _ (owns.root q b found))

end

def Widens (s : System) (e : Event) : Prop :=
  ∃ as addr len prot va, s.spaces e.pid = some as ∧ e.action = .mprotect addr len prot ∧
    0 < len.toInt ∧ userRange addr.toNat (alignUpPage len.toNat) = true ∧ prot ≠ 0 ∧
    va ∈ pages addr.toNat (addr.toNat + alignUpPage len.toNat) ∧
    (s.machine.vmmTranslate as va).isSome = true ∧ s.machine.userPath as.pml4 va = false

def StartsBare (e : Event) : Prop := ∃ img args, e.action = .execve img args ∧ Bare img

theorem freshBounds (fresh : Fresh img as) (loaded : lowest = 0 ∨ ¬ Bare img) (low : Lowest lowest) : Bounds lowest as := by
  refine ⟨by rw [fresh.hint],by rw [fresh.brk]; exact fresh.top,by rw [fresh.brk],?_⟩
  rcases loaded with zero | mapped
  · omega
  · exact le_trans low.small (fresh.loaded mapped)

section

variable (low : Lowest lowest) (owns : Owns strict lowest s owner) (scripts : SameTables s.machine m)
include low owns scripts

theorem goodPlanted {n} (sane : Sane strict (leafFrom lowest) n after)
    (others : ∀ q b, q ≠ pid → s.spaces q = some b → IsRoot after b.pml4)
    (planted : Planted img m new after) (loaded : lowest = 0 ∨ ¬ Bare img) : Good strict lowest (s.setSpace pid new n) := by
  refine goodUpdate owns sane others (fun a isNew => ?_)
  cases isNew
  refine ⟨planted.root,freshBounds planted.fresh loaded low,fun q b _ found => unusedApart owns ?_ found⟩
  rw [← scripts.used]
  exact planted.unused

theorem execveGood {args} (here : s.spaces pid = some as)
    (loaded : lowest = 0 ∨ ¬ Bare img) (taken : s.act m pid as (.execve img args) = some t) : Good strict lowest t := by
  unfold act at taken
  dsimp only at taken
  cases exec : m.processExecve as img args with
  | mk result n =>
  rw [exec] at taken
  have own := owns.root pid as here
  obtain ⟨after,sane,others,failed,planted⟩ :=
    processExecveSane (sameTablesSane scripts owns.sane) (floorLowest low) own exec
  cases result with
  | error e =>
    cases taken
    exact goodSettled owns ⟨after,sane,failed e rfl⟩
  | ok image =>
    cases taken
    exact goodPlanted low owns scripts sane
      (fun q b other found => others _ (fun same => other (owns.apart q pid b as found here same))
        (owns.root q b found)) (planted image rfl) loaded

end

theorem forkGood {child} (owns : Owns strict lowest s owner) (scripts : SameTables s.machine m) (here : s.spaces pid = some as)
    (taken : s.act m pid as (.fork child) = some t) : Good strict lowest t := by
  unfold act at taken
  dsimp only at taken
  split at taken
  · cases taken
  cases clone : m.vmmClone as with
  | mk result n =>
  rw [clone] at taken
  obtain ⟨after,sane,roots,cloned⟩ := vmmCloneSane (sameTablesSane scripts owns.sane) (owns.root pid as here) clone
  cases result with
  | none =>
    cases taken
    exact goodSettled owns ⟨after,sane,roots⟩
  | some copy =>
  cases taken
  obtain ⟨root,unused,fields⟩ := cloned copy rfl
  rw [scripts.used] at unused
  refine goodUpdate owns sane (fun q b _ found => roots _ (owns.root q b found)) (fun a isNew => ?_)
  cases isNew
  have bounds := owns.bounds pid as here
  refine ⟨root,?_,fun q b _ found => unusedApart owns unused found⟩
  rw [fields]
  exact ⟨bounds.hint,bounds.top,bounds.order,bounds.start⟩

theorem mprotectSettled {addr len prot} (sane : Sane strict (leafFrom lowest) m owner) (own : IsRoot owner as.pml4)
    (accessible : strict → 0 < len.toInt → userRange addr.toNat (alignUpPage len.toNat) = true → prot ≠ 0 →
    ∀ va ∈ pages addr.toNat (addr.toNat + alignUpPage len.toNat),
    (m.vmmTranslate as va).isSome = true → m.userPath as.pml4 va = true) :
    Settled strict lowest owner (m.sysMprotect as addr len prot).2 := by
  unfold sysMprotect
  dsimp only
  split
  · exact settledRefl sane
  rename_i accepted
  simp only [Bool.or_eq_true,Bool.not_eq_true',decide_eq_true_eq,not_or,Bool.not_eq_false,Int.not_le] at accepted
  obtain ⟨positive,range⟩ := accepted
  obtain ⟨stop,high,_⟩ := userRangeBound range (alignUpSmall len.toNat) addr.isLt
  rw [stop]
  refine ⟨owner,(protectRangeSane sane own (pagesLow high) (protFlagsPresent prot) ?_).1,fun _ h => h⟩
  intro isStrict user va member table i place present
  have mapped : (m.vmmTranslate as va).isSome = true := by simp [vmmTranslate,leaf,place,present]
  exact grantedPath sane own (pagesLow high va member) place
    (accessible isStrict positive range ((protFlagsUser prot).mp user) va member mapped)

theorem stepGood {e} (low : Lowest lowest) (good : Good strict lowest s)
    (loaded : lowest = 0 ∨ ¬ StartsBare e) (narrow : strict → ¬ Widens s e)
    (taken : s.step e = some t) : Good strict lowest t := by
  obtain ⟨owner,owns⟩ := good
  unfold step at taken
  dsimp only at taken
  have scripts : SameTables s.machine {s.machine with frames := e.frames, heap := e.heap} := ⟨rfl,rfl,rfl⟩
  have sane := sameTablesSane scripts owns.sane
  have programs img args (isExec : e.action = .execve img args) : lowest = 0 ∨ ¬ Bare img :=
    loaded.imp id (fun mapped bare => mapped ⟨img,args,isExec,bare⟩)
  split at taken
  · rename_i as here
    have own := owns.root e.pid as here
    have bounds := owns.bounds e.pid as here
    cases action : e.action with
    | execve img args =>
      rw [action] at taken
      exact execveGood low owns scripts here (programs img args action) taken
    | brk addr =>
      rw [action] at taken
      cases taken
      exact goodCall owns here (brkSettled low sane own bounds)
    | mmap addr len prot flags off =>
      rw [action] at taken
      cases taken
      exact goodCall owns here (mmapSettled low sane own bounds)
    | munmap addr len =>
      rw [action] at taken
      cases taken
      exact goodCall owns here (munmapSettled sane own bounds)
    | mprotect addr len prot =>
      rw [action] at taken
      cases taken
      refine goodSettled owns (mprotectSettled sane own (fun isStrict positive range some va member mapped => ?_))
      by_contra hidden
      exact narrow isStrict ⟨as,addr,len,prot,va,here,action,positive,range,some,member,mapped,Bool.eq_false_iff.mpr hidden⟩
    | userOk addr len write =>
      rw [action] at taken
      cases taken
      exact goodSettled owns (settledGrown sane (userOkSane sane own (stackFloor low)))
    | fault addr =>
      rw [action] at taken
      have grown := growStackSettled addr low sane own
      unfold act at taken
      dsimp only at taken
      split at taken
      · rename_i result
        cases taken
        rw [result] at grown
        exact goodSettled owns grown
      rename_i result
      rw [result] at grown
      rw [← Option.some.inj taken]
      exact goodExit owns here grown
    | fork child =>
      rw [action] at taken
      exact forkGood owns scripts here taken
    | exit =>
      rw [action] at taken
      rw [← Option.some.inj taken]
      exact goodExit owns here (settledRefl sane)
  · rename_i img args free action
    split at taken
    · rename_i exec
      cases taken
      obtain ⟨after,saneN,roots,_⟩ := processExecSane sane (floorLowest low) exec
      exact goodSettled owns ⟨after,saneN,roots⟩
    rename_i image n exec
    cases taken
    obtain ⟨after,saneN,roots,planted⟩ := processExecSane sane (floorLowest low) exec
    exact goodPlanted low owns scripts saneN (fun q b _ found => roots _ (owns.root q b found))
      (planted image rfl) (programs img args action)
  · cases taken

/- In every address space the leaf entry alone tells the access of a user address, so
that the check of a user pointer agrees with what the process itself can do. -/
structure AccessAgrees (s : System) : Prop where
  access : ∀ pid as va, s.spaces pid = some as → va < userEndAddr →
    s.machine.hardwareAccess as.pml4 va = s.machine.leafAccess as.pml4 va
  checked : ∀ pid as va write, s.spaces pid = some as → va < userEndAddr → (s.machine.vmmTranslate as va).isSome = true →
    (userOkPage as write s.machine va).1 =
      (s.machine.hardwareAccess as.pml4 va).any (fun granted => granted.1 && (!write || granted.2))

theorem goodAgrees (good : Good True lowest s) : AccessAgrees s := by
  obtain ⟨owner,owns⟩ := good
  have access pid as va (here : s.spaces pid = some as) (below : va < userEndAddr) :
      s.machine.hardwareAccess as.pml4 va = s.machine.leafAccess as.pml4 va := by
    have top : userEndAddr ≤ 2^47 := by decide
    exact hardwareLeaf owns.sane (owns.root pid as here) (lt_of_lt_of_le below top)
  refine ⟨access,fun pid as va write here below mapped => ?_⟩
  obtain ⟨phys,found⟩ := isSome_iff_exists.mp mapped
  obtain ⟨e,leaf,_⟩ := translateSome found
  rw [access pid as va here below]
  simp [userOkPage,leafAccess,leaf]

theorem widensBreaks {e} (good : Good strict lowest s) (widens : Widens s e)
    (taken : s.step e = some t) : ¬ AccessAgrees t := by
  obtain ⟨owner,owns⟩ := good
  obtain ⟨as,addr,len,prot,va,here,action,positive,range,wanted,member,mapped,hidden⟩ := widens
  let m := {s.machine with frames := e.frames, heap := e.heap}
  have scripts : SameTables s.machine m := ⟨rfl,rfl,rfl⟩
  obtain ⟨stop,high,_⟩ := userRangeBound range (alignUpSmall len.toNat) addr.isLt
  have clash := protectClash (sameTablesSane scripts owns.sane) (owns.root e.pid as here) (pagesLow high)
    (protFlagsPresent prot) ((protFlagsUser prot).mpr wanted) member mapped hidden
  unfold step at taken
  rw [here,action] at taken
  have refused : (len.toInt ≤ 0 || !userRange addr.toNat (alignUpPage len.toNat)) = false := by simp [range,positive]
  have after : t.machine = m.vmmProtectRange as addr.toNat (addr.toNat + alignUpPage len.toNat) (protFlags prot) := by
    rw [← Option.some.inj taken]
    simp only [sysMprotect,refused,stop]
    rfl
  have spaces : t.spaces = s.spaces := by rw [← Option.some.inj taken]
  intro agrees
  have same := agrees.access e.pid as va (by rw [spaces]; exact here) (lt_of_lt_of_le (pagesBound member).2.1 high)
  rw [after] at same
  exact clash same

theorem lowestZero : Lowest 0 := ⟨rfl,zero_le _⟩

/- Exact: the hardware and the leaf entries agree in every state of a run if and only if no
mprotect of the run makes a page accessible below a table without PAGE_USER. -/
theorem accessInEveryRun (m : Machine) (events : List Event) : (∀ t ∈ visited step (boot m) events, AccessAgrees t) ↔
    ∀ move ∈ moves step (boot m) events, ¬ Widens move.1 move.2 :=
  visitedIff (fun _ good => goodAgrees good)
    (fun _ _ _ good narrow taken => stepGood lowestZero good (.inl rfl) (fun _ => narrow) taken)
    (fun _ _ _ good widens taken => widensBreaks good widens taken) (bootGood True 0 m)

def sampleMachine : Machine := ⟨fun _ _ => .zero,fun _ _ => 0,fun _ => false,fun _ => .zero,[],[]⟩

def sampleFrames (first : Nat) : List (Option Frame) := (List.range 24).map (fun i => some (first+i))

def sampleArgs : ExecArgs := ⟨[],[],[],⟨0,0,0,0⟩,replicate 16 0⟩

def headerOnly : List Byte :=
  elfMag ++ [2,1] ++ replicate 10 0 ++ [2,0,62,0] ++ replicate 34 0 ++ [56,0,0,0] ++ replicate 6 0

def oneSegment : List Byte :=
  elfMag ++ [2,1] ++ replicate 10 0 ++ [2,0,62,0] ++ replicate 12 0 ++ [64] ++ replicate 21 0 ++ [56,0,1,0] ++ replicate 6 0 ++
    [1,0,0,0,6,0,0,0] ++ wordBytes 0 ++ wordBytes 0x400000 ++ wordBytes 0 ++ wordBytes 0 ++
    wordBytes 0x1000 ++ wordBytes 0

def sampleExec (img : List Byte) : Event := ⟨1,.execve img sampleArgs,sampleFrames 1,replicate 4 true⟩

/- mmap(0x10000000, 4096, PROT_NONE, MAP_FIXED | MAP_ANONYMOUS), then mprotect to
PROT_READ | PROT_WRITE: the leaf entry is open, the table above it is not. -/
def hiddenPage : List Event :=
  [sampleExec oneSegment,⟨1,.mmap 0x10000000 0x1000 0 0x30 0,sampleFrames 40,[]⟩,⟨1,.mprotect 0x10000000 0x1000 3,[],[]⟩]

theorem mprotectLeavesHidden : ∃ t ∈ visited step (boot sampleMachine) hiddenPage, ∃ as, t.spaces 1 = some as ∧
    t.machine.leafAccess as.pml4 0x10000000 = some (true,true) ∧
    t.machine.hardwareAccess as.pml4 0x10000000 = some (false,true) ∧ ¬ AccessAgrees t := by
  have final : (Runs.run step (boot sampleMachine) hiddenPage).bind (fun t => (t.spaces 1).map (fun as =>
      (t.machine.leafAccess as.pml4 0x10000000,t.machine.hardwareAccess as.pml4 0x10000000))) =
      some (some (true,true),some (false,true)) := by decide +kernel
  obtain ⟨t,reached,rest⟩ := bind_eq_some_iff.mp final
  obtain ⟨as,here,both⟩ := map_eq_some_iff.mp rest
  obtain ⟨leaf,hardware⟩ := Prod.mk.inj both
  refine ⟨t,visitedLast reached,as,here,leaf,hardware,fun agrees => ?_⟩
  have same := agrees.access 1 as 0x10000000 here (by decide)
  rw [leaf,hardware] at same
  cases same

def NothingLow (s : System) : Prop :=
  ∀ pid as va, s.spaces pid = some as → va < mmapMin → s.machine.vmmTranslate as va = none

theorem pathPage {va w} (low : va < 2^47) (other : w < 2^47) (same : path va = path w) : va / pageSize = w / pageSize := by
  unfold path index at same
  simp only [List.cons.injEq,and_true] at same
  unfold pageSize
  omega

theorem goodNothingLow (good : Good strict mmapMin s) : NothingLow s := by
  obtain ⟨owner,owns⟩ := good
  intro pid as va here small
  cases mapped : s.machine.vmmTranslate as va with
  | none => rfl
  | some phys =>
    obtain ⟨e,leaf,_⟩ := translateSome mapped
    have low : va < 2^47 := lt_trans small (by decide)
    obtain ⟨_,w,above,below,same⟩ := leafOwned owns.sane (owns.root pid as here) low leaf
    have page := pathPage low below same.symm
    unfold mmapMin pageSize at *
    omega

theorem lowestMin : Lowest mmapMin := ⟨by decide,le_refl _⟩

theorem nothingLowInEveryRun (m : Machine) (events : List Event)
    (loaded : ∀ move ∈ moves step (boot m) events, ¬ StartsBare move.2) : ∀ t ∈ visited step (boot m) events, NothingLow t := by
  have preserved s e t (good : Good False mmapMin s) (mapped : ¬ StartsBare e) (taken : s.step e = some t) :
      Good False mmapMin t :=
    stepGood lowestMin good (.inr mapped) (fun h => h.elim) taken
  have good := Runs.visitedInvariant preserved (bootGood False mmapMin m) loaded
  exact fun t reached => goodNothingLow (good t reached)

def growHeap : List Event := [sampleExec oneSegment,⟨1,.brk 0x402000,sampleFrames 40,[]⟩]

theorem nothingLowAfterGrowth : (Runs.run step (boot sampleMachine) growHeap).isSome = true ∧
    ∀ t ∈ visited step (boot sampleMachine) growHeap, NothingLow t := by
  refine ⟨by decide +kernel,nothingLowInEveryRun sampleMachine growHeap (fun move member bare => ?_)⟩
  obtain ⟨img,args,action,bare⟩ := bare
  have listed := movesEvent move member
  simp only [growHeap,mem_cons,not_mem_nil,or_false] at listed
  rcases listed with isExec | isBrk
  · rw [isExec] at action
    cases action
    exact absurd bare (by decide +kernel)
  rw [isBrk] at action
  cases action

def lowHeap : List Event := [sampleExec headerOnly,⟨1,.brk 0x1000,sampleFrames 40,[]⟩]

theorem brkMapsPageZero : ∃ t ∈ visited step (boot sampleMachine) lowHeap, ∃ as, t.spaces 1 = some as ∧
    (t.machine.vmmTranslate as 0).isSome = true ∧ ¬ NothingLow t := by
  have final : (Runs.run step (boot sampleMachine) lowHeap).bind (fun t => (t.spaces 1).map (fun as =>
      (t.machine.vmmTranslate as 0).isSome)) = some true := by decide +kernel
  obtain ⟨t,reached,rest⟩ := bind_eq_some_iff.mp final
  obtain ⟨as,here,mapped⟩ := map_eq_some_iff.mp rest
  refine ⟨t,visitedLast reached,as,here,mapped,fun nothing => ?_⟩
  rw [nothing 1 as 0 here (by decide)] at mapped
  cases mapped

def Maps (s : System) (p va f : Nat) : Prop :=
  ∃ as e, s.spaces p = some as ∧ va < 2^47 ∧ s.machine.leaf as.pml4 va = some e ∧ e.frame = f

/- The frame of a user page is taken, backs no other page of any process and holds no page table. -/
structure Isolated (s : System) : Prop where
  used : ∀ p va f, s.Maps p va f → s.machine.used f = true
  alone : ∀ p q va w f, s.Maps p va f → s.Maps q w f → p = q ∧ va / pageSize = w / pageSize
  tables : ∀ p q va w f as pml3 pml2 pml1, s.Maps p va f → s.spaces q = some as → w < 2^47 →
    Walk s.machine as.pml4 w pml3 pml2 pml1 → f ∉ [as.pml4,pml3,pml2,pml1]

theorem goodIsolated (good : Good strict lowest s) : Isolated s := by
  obtain ⟨owner,owns⟩ := good
  have mapped {p va f} (maps : s.Maps p va f) :
      ∃ as, s.spaces p = some as ∧ va < 2^47 ∧ owner f = some (as.pml4,path va) := by
    obtain ⟨as,e,here,low,leaf,rfl⟩ := maps
    exact ⟨as,here,low,(leafOwned owns.sane (owns.root p as here) low leaf).1⟩
  refine ⟨fun p va f maps => ?_,fun p q va w f first second => ?_,fun p q va w f as _ _ _ maps here low walk => ?_⟩
  · obtain ⟨_,_,_,own⟩ := mapped maps
    exact owns.sane.used f (by simp [own])
  · obtain ⟨a,hereA,lowA,ownA⟩ := mapped first
    obtain ⟨b,hereB,lowB,ownB⟩ := mapped second
    obtain ⟨root,same⟩ := Prod.mk.inj (some.inj (ownA.symm.trans ownB))
    exact ⟨owns.apart p q a b hereA hereB root,pathPage lowA lowB same⟩
  obtain ⟨_,_,_,own⟩ := mapped maps
  have root := owns.root q as here
  obtain ⟨own3,own2,own1⟩ := walkOwned owns.sane root low walk
  -- a page hangs on four indices, a table on fewer
  intro table
  simp only [mem_cons,not_mem_nil,or_false] at table
  rcases table with rfl | rfl | rfl | rfl <;> simp_all [path]

theorem isolatedInEveryRun (m : Machine) (events : List Event) : ∀ t ∈ visited step (boot m) events, Isolated t := by
  intro t reached
  exact goodIsolated (visitedAlways (fun _ _ _ good => stepGood lowestZero good (.inl rfl) False.elim)
    (bootGood False 0 m) t reached)

theorem isolatedAfterGrowth : (Runs.run step (boot sampleMachine) growHeap).isSome = true ∧
    ∀ t ∈ visited step (boot sampleMachine) growHeap, Isolated t :=
  ⟨by decide +kernel,isolatedInEveryRun sampleMachine growHeap⟩

end Miviex.System
