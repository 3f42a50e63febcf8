import Miviex.AddressSpaceInvariant
import Miviex.ElfLoader

/-! Loading a program keeps the forest of page tables: the new address space is one more
tree, or nothing is left of it. -/
namespace Miviex.Machine
open Bool Nat
open RadixForest

variable {strict : Prop} {leafOk : List Nat → Prop} {m : Machine} {owner : Owner}

def Grown (strict : Prop) (leafOk : List Nat → Prop) (m : Machine) (owner : Owner) (n : Machine) : Prop :=
  ∃ after, Sane strict leafOk n after ∧ Keeps m owner n after

theorem grownRefl (sane : Sane strict leafOk m owner) : Grown strict leafOk m owner m :=
  ⟨owner,sane,keepsRefl m owner⟩

structure SameTables (m n : Machine) : Prop where
  tables : n.tables = m.tables
  used : n.used = m.used
  boot : n.boot = m.boot

theorem sameTablesRefl (m) : SameTables m m := ⟨rfl,rfl,rfl⟩

variable {n : Machine} {p : Phdr} {as : AddressSpace} {img : List Byte}

theorem sameTablesTrans {p} (first : SameTables m n) (second : SameTables n p) : SameTables m p :=
  ⟨second.tables.trans first.tables,second.used.trans first.used,second.boot.trans first.boot⟩

theorem sameTablesSane (same : SameTables m n) (sane : Sane strict leafOk m owner) : Sane strict leafOk n owner :=
  saneOutside sane same.boot (fun _ _ => by rw [same.tables]) (fun f own => by rw [same.used]; exact sane.used f own)

theorem sameTablesKeeps (same : SameTables m n) : Keeps m owner n owner :=
  keepsUsed (fun g taken => by rw [same.used]; exact taken)

theorem grownSame {p} (grown : Grown strict leafOk m owner n) (same : SameTables n p) : Grown strict leafOk m owner p := by
  obtain ⟨after,sane,keeps⟩ := grown
  exact ⟨after,sameTablesSane same sane,keepsTrans keeps (sameTablesKeeps same)⟩

theorem mallocSameTables (m : Machine) : SameTables m m.kMalloc.2 := by
  obtain ⟨tables,used,_,boot⟩ := mallocIdle (m := m) (n := m.kMalloc.2) rfl
  exact ⟨tables,used,boot⟩

theorem copySame (m : Machine) (as va bytes) : SameTables m (m.vmmCopyTo as va bytes).2 := by
  unfold vmmCopyTo
  split
  · exact sameTablesRefl m
  refine untilFailureInvariant (SameTables m) _ (fun page _ n same => ?_) (sameTablesRefl m)
  unfold copyPage
  dsimp only
  split
  · exact same
  · exact ⟨same.tables,same.used,same.boot⟩

theorem putStringsSame (as m place strings) : SameTables m (putStrings as m place strings).2 := by
  induction strings generalizing m place with
  | nil => exact sameTablesRefl m
  | cons s rest ih => exact sameTablesTrans (copySame m as place (s ++ [0])) (ih _ _)

theorem putTextsSame (as x m envs args execfn random) : SameTables m (putTexts as x m envs args execfn random).2 :=
  sameTablesTrans (sameTablesTrans (putStringsSame as m envs x.envp) (putStringsSame as _ args x.argv))
    (sameTablesTrans (copySame _ as execfn (x.path ++ [0])) (copySame _ as random x.random))

theorem putVectorSame (as m sp v) : SameTables m (putVector as m sp v).2 := by
  unfold putVector
  split
  · exact sameTablesRefl m
  · exact copySame m as sp _

theorem ifDoneMachine {α} (done : Bool × Machine) (result : α) : (ifDone done result).2 = done.2 := by
  rfl

theorem fillStackSame (m : Machine) (as x entry phdr phnum) : SameTables m (m.fillStack as x entry phdr phnum).2 := by
  unfold fillStack
  simp only [ifDoneMachine]
  exact sameTablesTrans (putTextsSame as x m _ _ _ _) (putVectorSame as _ _ _)

def Floor (leafOk : List Nat → Prop) : Prop := ∀ va, mmapMin ≤ va → va < 2^47 → leafOk (path va)

theorem alignDownFloor {start} (low : mmapMin ≤ start) : mmapMin ≤ alignDownPage start := by
  unfold alignDownPage mmapMin pageSize at *
  omega

theorem floorPages {start stop} (floor : Floor leafOk) (low : mmapMin ≤ start)
    (high : stop ≤ userEndAddr) : ∀ va ∈ pages start stop, va < 2^47 ∧ leafOk (path va) := by
  intro va member
  obtain ⟨above,below,_⟩ := pagesBound member
  have start' := alignDownFloor low
  have bound : va < 2^47 := by
    unfold userEndAddr at high
    omega
  exact ⟨bound,floor va (by omega) bound⟩

theorem untilFailureReaches {σ α body s} (Reached : σ → Prop) {x}
    {xs : List α} (member : x ∈ xs) (reach : ∀ t, (body t x).1 = true → Reached (body t x).2)
    (keep : ∀ y t, Reached t → Reached (body t y).2) (done : (untilFailure body s xs).1 = true) :
    Reached (untilFailure body s xs).2 := by
  induction xs generalizing s with
  | nil => cases member
  | cons y rest ih =>
  unfold untilFailure at done ⊢
  cases result : body s y with
  | mk ok t =>
  rw [result] at done
  cases ok with
  | false => cases done
  | true =>
    rcases List.mem_cons.mp member with same | later
    · subst same
      have here := reach s (by rw [result])
      rw [result] at here
      exact untilFailureInvariant Reached rest (fun y _ t h => keep y t h) here
    · exact ih later done

theorem segmentBounds {va stop} (accepted : segmentRefused img p va stop = false) :
    mmapMin ≤ va ∧ va ≤ stop ∧ stop ≤ mmapTop := by
  unfold segmentRefused at accepted
  simp only [or_eq_false_iff,decide_eq_false_iff_not,not_lt,gt_iff_lt] at accepted
  omega

theorem alignUpBounds {a} (bound : a ≤ mmapTop) :
    a ≤ alignUpPage a ∧ alignUpPage a ≤ mmapTop ∧ alignUpPage a % pageSize = 0 := by
  unfold alignUpPage mmapTop userEndAddr pageSize at *
  omega

theorem segmentFlagsPresent (p) : (segmentFlags p).getLsbD 0 = true := by
  unfold segmentFlags
  split <;> decide

theorem phdrKept {l : Loading} {phdr} (wanted : ¬ (p.pType ≠ ptLoad ∨ p.pMemsz = 0)) :
    (if p.pType = ptPhdr then {l with phdr := phdr} else l) = l := by
  rw [if_neg]
  intro isPhdr
  rw [isPhdr] at wanted
  exact wanted (.inl (by decide))

structure Advanced (as : AddressSpace) (l : Loading) : Prop where
  fields : l.as = {as with brkStart := l.as.brkStart}
  grows : as.brkStart ≤ l.as.brkStart
  top : as.brkStart ≤ mmapTop → l.as.brkStart ≤ mmapTop

theorem loadSegmentAs (img : List Byte) (bias : Nat) (l : Loading) (p : Phdr) : Advanced l.as (loadSegment img bias l p).2 ∧
    ((loadSegment img bias l p).1 = true → p.Loadable → mmapMin ≤ (loadSegment img bias l p).2.as.brkStart) := by
  have same (k : Loading) (as : k.as = l.as) : Advanced l.as k := by
    exact ⟨by rw [as],by rw [as],by rw [as]; exact fun h => h⟩
  unfold loadSegment
  dsimp only
  split
  · exact ⟨same l rfl,fun done => by cases done⟩
  split
  · rename_i skipped
    refine ⟨?_,fun _ loadable => ?_⟩
    · split <;> exact same _ rfl
    rcases skipped with other | empty
    · exact absurd loadable.1 other
    · exact absurd empty loadable.2
  rename_i wanted
  rw [phdrKept wanted]
  split
  · exact ⟨same l rfl,fun done => by cases done⟩
  rename_i accepted
  obtain ⟨low,order,high⟩ := segmentBounds (eq_false_iff.mpr accepted)
  obtain ⟨above,below,_⟩ := alignUpBounds high
  split
  · exact ⟨same _ rfl,fun done => by cases done⟩
  split
  · exact ⟨same _ rfl,fun done => by cases done⟩
  · refine ⟨⟨rfl,?_,?_⟩,fun _ _ => ?_⟩ <;> dsimp only <;> split <;> omega

theorem loadSegmentGrown {bias l} (sane : Sane strict leafOk l.machine owner) (floor : Floor leafOk)
    (own : IsRoot owner l.as.pml4) :
    Grown strict leafOk l.machine owner (loadSegment img bias l p).2.machine := by
  unfold loadSegment
  dsimp only
  split
  · exact grownRefl sane
  split
  · split <;> exact grownRefl sane
  rename_i wanted
  rw [phdrKept wanted]
  split
  · exact grownRefl sane
  rename_i accepted
  obtain ⟨low,order,high⟩ := segmentBounds (eq_false_iff.mpr accepted)
  have grown := allocRangeSane sane own (floorPages floor low (le_trans high (by decide))) (segmentFlagsPresent p)
  split
  · rename_i result
    rw [result] at grown
    exact grown
  rename_i n result
  rw [result] at grown
  have copied := copySame n l.as ((p.pVaddr+bias) % 2^64) ((img.drop p.pOffset).take p.pFilesz)
  split
  · rename_i copy
    rw [copy] at copied
    exact grownSame grown copied
  rename_i copy
  rw [copy] at copied
  exact grownSame grown copied

theorem loadingGrown (img bias phs)
    (sane : Sane strict leafOk m owner) (floor : Floor leafOk) (own : IsRoot owner as.pml4) :
    Grown strict leafOk m owner (untilFailure (loadSegment img bias) ⟨m,as,0⟩ phs).2.machine ∧
    Advanced as (untilFailure (loadSegment img bias) ⟨m,as,0⟩ phs).2 := by
  have start : Advanced as ⟨m,as,0⟩ := ⟨rfl,le_refl _,fun h => h⟩
  refine untilFailureInvariant (fun l => Grown strict leafOk m owner l.machine ∧ Advanced as l) phs
    (fun p _ l reached => ?_) ⟨grownRefl sane,start⟩
  obtain ⟨⟨after,saneL,keeps⟩,fields,grows,top⟩ := reached
  have root : IsRoot after l.as.pml4 := by
    rw [fields]
    exact keepsRoot sane keeps own
  obtain ⟨last,saneLast,step⟩ := loadSegmentGrown (p := p) saneL floor root
  obtain ⟨⟨fields2,grows2,top2⟩,_⟩ := loadSegmentAs img bias l p
  refine ⟨⟨last,saneLast,keepsTrans keeps step⟩,?_,le_trans grows grows2,fun h => top2 (top h)⟩
  rw [fields2,fields]

structure Fresh (img : List Byte) (as : AddressSpace) : Prop where
  hint : as.mmapHint = mmapTop
  brk : as.brk = as.brkStart
  top : as.brkStart ≤ mmapTop
  loaded : ¬ Bare img → mmapMin ≤ as.brkStart

theorem segmentNotInterp {bias l} (done : (loadSegment img bias l p).1 = true) : p.pType ≠ ptInterp := by
  intro interp
  unfold loadSegment at done
  rw [if_pos interp] at done
  cases done

def RootsBut (old : Frame) (owner after : Owner) : Prop :=
  ∀ r, r ≠ old → owner r = some (r,[]) → after r = some (r,[])

theorem forgetRoots (owner old) : RootsBut old owner (forget owner old) :=
  fun _ other own => forgetSome.mpr ⟨own,other⟩

section

variable (sane : Sane strict leafOk m owner)
include sane

theorem buildStackGrown (floor : Floor leafOk)
    (own : IsRoot owner as.pml4) (x entry phdr phnum) :
    Grown strict leafOk m owner (m.buildStack as x entry phdr phnum).2 := by
  have low : mmapMin ≤ userEndAddr-userStackSize := by decide
  have grown := allocRangeSane sane own (floorPages floor low (le_refl userEndAddr))
    (show userFlags.getLsbD 0 = true by decide)
  unfold buildStack
  dsimp only
  split
  · rename_i result
    rw [result] at grown
    exact grown
  rename_i n result
  rw [result] at grown
  have malloc := mallocSameTables n
  split
  · rename_i answer
    rw [answer] at malloc
    exact grownSame grown malloc
  rename_i answer
  rw [answer] at malloc
  split
  · exact grownSame grown malloc
  · exact grownSame grown (sameTablesTrans malloc (fillStackSame _ _ _ _ _ _))

theorem loadElfGrown {result} (floor : Floor leafOk) (own : IsRoot owner as.pml4)
    (empty : as = ⟨as.pml4,0,0,mmapTop⟩) (load : m.loadElf as img = (result,n)) :
    Grown strict leafOk m owner n ∧ ∀ l, result = some l → l.as.pml4 = as.pml4 ∧ Fresh img l.as := by
  unfold loadElf at load
  split at load
  · cases load
    exact ⟨grownRefl sane,fun l h => by cases h⟩
  rename_i header
  split at load
  · cases load
    exact ⟨grownRefl sane,fun l h => by cases h⟩
  rename_i bias based
  obtain ⟨grown,advanced⟩ := loadingGrown img bias (programHeaders img) sane floor own
  have loaded p (member : p ∈ programHeaders img)
      (done : (untilFailure (loadSegment img bias) ⟨m,as,0⟩ (programHeaders img)).1 = true) :
      p.pType ≠ ptInterp ∧ (p.Loadable →
      mmapMin ≤ (untilFailure (loadSegment img bias) ⟨m,as,0⟩ (programHeaders img)).2.as.brkStart) := by
    refine ⟨untilFailureReaches (fun _ => p.pType ≠ ptInterp) member (fun l ok => segmentNotInterp ok)
      (fun _ _ h => h) done,fun loadable => ?_⟩
    exact untilFailureReaches (fun l => mmapMin ≤ l.as.brkStart) member
      (fun l ok => (loadSegmentAs img bias l p).2 ok loadable)
      (fun q l reached => le_trans reached (loadSegmentAs img bias l q).1.grows) done
  split at load
  · rename_i loop
    cases load
    rw [loop] at grown
    exact ⟨grown,fun l h => by cases h⟩
  rename_i l loop
  cases load
  rw [loop] at grown advanced loaded
  refine ⟨grown,fun k h => ?_⟩
  cases Option.some.inj h
  have fields := advanced.fields
  rw [empty] at fields
  refine ⟨by rw [fields],by rw [fields],rfl,advanced.top (by rw [empty]; exact zero_le _),fun mapped => ?_⟩
  by_contra small
  exact mapped ⟨eq_false_iff.mpr header,by rw [based]; rfl,fun p member =>
    ⟨(loaded p member rfl).1,fun loadable => small ((loaded p member rfl).2 loadable)⟩⟩

theorem rootsButUnused {after new}
    (unused : m.used new = false) (roots : RootsBut new owner after) : Roots owner after := by
  intro r own
  refine roots r ?_ own
  intro same
  rw [← same,sane.used r (by rw [own]; simp)] at unused
  cases unused

end

structure Planted (img : List Byte) (m : Machine) (as : AddressSpace) (after : Owner) : Prop where
  root : after as.pml4 = some (as.pml4,[])
  unused : m.used as.pml4 = false
  fresh : Fresh img as

section

variable (sane : Sane strict leafOk m owner)
include sane

theorem destroyNew {after} (unused : m.used as.pml4 = false) (saneN : Sane strict leafOk n after) (roots : Roots owner after)
    (own : IsRoot after as.pml4) :
    ∃ last, Sane strict leafOk (n.vmmDestroyAddressSpace as) last ∧ Roots owner last :=
  ⟨forget after as.pml4,destroySane as saneN own,rootsButUnused sane unused
    (fun r other root => forgetRoots after as.pml4 r other (roots r root))⟩

theorem loadImageSane {x result} (floor : Floor leafOk) (load : m.loadImage img x = (result,n)) :
    ∃ after, Sane strict leafOk n after ∧ Roots owner after ∧ ∀ image, result = .ok image → Planted img m image.as after := by
  unfold loadImage at load
  have malloc := mallocSameTables m
  cases answer : m.kMalloc with
  | mk given m1 =>
  rw [answer] at load malloc
  have sane1 := sameTablesSane malloc sane
  cases given with
  | false =>
    cases load
    exact ⟨owner,sane1,fun _ h => h,fun _ h => by cases h⟩
  | true =>
  dsimp only at load
  cases create : m1.vmmCreateAddressSpace with
  | mk found m2 =>
  rw [create] at load
  cases found with
  | none =>
    cases load
    exact ⟨owner,((createIdle create).sane sane1).1,fun _ h => h,fun _ h => by cases h⟩
  | some as =>
  obtain ⟨planted,sane2,keeps2,own2,unused,empty⟩ := createSane sane1 create
  rw [malloc.used] at unused
  have roots2 : Roots owner planted := fun r own => keepsRoot sane1 keeps2 own
  dsimp only at load
  cases elf : m2.loadElf as img with
  | mk loaded m3 =>
  rw [elf] at load
  obtain ⟨⟨after3,sane3,keeps3⟩,accepted⟩ := loadElfGrown sane2 floor own2 empty elf
  have own3 := keepsRoot sane2 keeps3 own2
  have roots3 : Roots owner after3 := fun r own => keepsRoot sane2 keeps3 (roots2 r own)
  cases loaded with
  | none =>
    cases load
    obtain ⟨last,saneLast,roots⟩ := destroyNew sane unused sane3 roots3 own3
    exact ⟨last,saneLast,roots,fun _ h => by cases h⟩
  | some l =>
  obtain ⟨same,fresh⟩ := accepted l rfl
  dsimp only at load
  rw [← same] at own3 unused
  obtain ⟨after4,sane4,keeps4⟩ := buildStackGrown sane3 floor own3 x l.entry l.phdr l.phnum
  have own4 := keepsRoot sane3 keeps4 own3
  have roots4 : Roots owner after4 := fun r own => keepsRoot sane3 keeps4 (roots3 r own)
  cases stack : m3.buildStack l.as x l.entry l.phdr l.phnum with
  | mk built m4 =>
  rw [stack] at load sane4
  cases built with
  | none =>
    cases load
    obtain ⟨last,saneLast,roots⟩ := destroyNew sane unused sane4 roots4 own4
    exact ⟨last,saneLast,roots,fun _ h => by cases h⟩
  | some top =>
    cases load
    refine ⟨after4,sane4,roots4,fun image h => ?_⟩
    cases h
    exact ⟨own4,unused,fresh⟩

theorem processExecSane {x result} (floor : Floor leafOk) (exec : m.processExec img x = (result,n)) :
    ∃ after, Sane strict leafOk n after ∧ Roots owner after ∧ ∀ image, result = some image → Planted img m image.as after := by
  unfold processExec at exec
  cases load : m.loadImage img x with
  | mk loaded m1 =>
  rw [load] at exec
  obtain ⟨after,sane1,roots,ok⟩ := loadImageSane sane floor load
  cases loaded with
  | error e =>
    cases exec
    exact ⟨after,sane1,roots,fun _ h => by cases h⟩
  | ok image =>
  obtain ⟨own,unused,fresh⟩ := ok image rfl
  have malloc := mallocSameTables m1
  dsimp only at exec
  cases answer : m1.kMalloc with
  | mk given m2 =>
  rw [answer] at exec malloc
  have sane2 := sameTablesSane malloc sane1
  cases given with
  | false =>
    cases exec
    obtain ⟨last,saneLast,kept⟩ := destroyNew sane unused sane2 roots own
    exact ⟨last,saneLast,kept,fun _ h => by cases h⟩
  | true =>
    cases exec
    refine ⟨after,sane2,roots,fun image h => ?_⟩
    cases h
    exact ⟨own,unused,fresh⟩

theorem processExecveSane {x old result} (floor : Floor leafOk)
    (ownOld : IsRoot owner old.pml4) (exec : m.processExecve old img x = (result,n)) :
    ∃ after, Sane strict leafOk n after ∧ RootsBut old.pml4 owner after ∧ (∀ e, result = .error e → Roots owner after) ∧
    ∀ image, result = .ok image → Planted img m image.as after := by
  unfold processExecve at exec
  cases load : m.loadImage img x with
  | mk loaded m1 =>
  rw [load] at exec
  obtain ⟨after,sane1,roots,ok⟩ := loadImageSane sane floor load
  cases loaded with
  | error e =>
    cases exec
    exact ⟨after,sane1,fun r _ => roots r,fun _ _ => roots,fun _ h => by cases h⟩
  | ok image =>
  cases exec
  obtain ⟨own,unused,fresh⟩ := ok image rfl
  have apart : image.as.pml4 ≠ old.pml4 := by
    intro same
    rw [same,sane.used old.pml4 (by rw [ownOld]; simp)] at unused
    cases unused
  refine ⟨forget after old.pml4,destroySane old sane1 (roots _ ownOld),?_,(fun _ h => by cases h),?_⟩
  · exact fun r other root => forgetRoots after old.pml4 r other (roots r root)
  intro image' h
  cases h
  exact ⟨forgetRoots after old.pml4 _ apart own,unused,fresh⟩

end

end Miviex.Machine
