import Miviex.PageTableRanges

/-! Protecting a range, creating, destroying and cloning an address space keep the
forest of page tables. -/
namespace Miviex.Machine
open Function (update update_of_ne update_self)
open RadixForest

variable {strict : Prop} {leafOk : List Nat → Prop} {m : Machine} {owner : Owner}

structure SameUpper (owner : Owner) (m n : Machine) : Prop where
  upper : ∀ f root q, owner f = some (root,q) → q.length < 3 → n.tables f = m.tables f
  present : ∀ f i, (n.tables f i).present = (m.tables f i).present

variable {n : Machine} {root f : Frame} {va : Nat} {as : AddressSpace} {q : List Nat}

theorem sameUpperTrans {p} (first : SameUpper owner m n) (second : SameUpper owner n p) : SameUpper owner m p :=
  ⟨fun f root q own short => (second.upper f root q own short).trans (first.upper f root q own short),
    fun f i => (second.present f i).trans (first.present f i)⟩

theorem sameUpperPte (same : SameUpper owner m n)
    (sane : Sane strict leafOk m owner) (own : IsRoot owner root) (low : va < 2^47) :
    n.pte root va = m.pte root va := by
  have step : ∀ {f r q}, owner f = some (r,q) → q.length < 3 → ∀ i, n.follow f i = m.follow f i := fun ownF short i =>
    followCongr (by rw [same.upper _ _ _ ownF short])
  have first f (found : m.follow root (index 39 va) = some f) : owner f = some (root,[index 39 va]) :=
    (followOwned sane own (by decide) (indexTop low) found).1
  refine pteCongr (step own (by decide) _) (fun f found => step (first f found) (by simp) _) (fun f g found next => ?_)
  exact step (followOwned sane (first f found) (by simp) (indexValid _ 30 va (by simp)) next).1 (by simp) _

theorem sameUpperGranted {g} (same : SameUpper owner m n) (granted : Granted m owner g) : Granted n owner g := by
  intro f root q i own short valid present frame
  rw [same.upper f root q own short] at present frame ⊢
  exact granted f root q i own short valid present frame

section

variable (sane : Sane strict leafOk m owner) (own : IsRoot owner as.pml4)
include sane own

theorem protectPageSame {flags} (low : va < 2^47) (there : flags.getLsbD 0 = true) :
    SameUpper owner m (protectPage as flags m va) := by
  unfold protectPage
  cases place : m.pte as.pml4 va with
  | none => exact ⟨fun _ _ _ _ _ => rfl,fun _ _ => rfl⟩
  | some pair =>
  obtain ⟨table,i⟩ := pair
  dsimp only
  split
  swap
  · exact ⟨fun _ _ _ _ _ => rfl,fun _ _ => rfl⟩
  rename_i present
  obtain ⟨ownT,rfl⟩ := pteOwned sane own low place
  refine ⟨fun f root q ownF short => ?_,fun f j => ?_⟩
  · have apart : f ≠ table := by
      rintro rfl
      rw [ownT] at ownF
      cases Option.some.inj ownF
      simp at short
    simp [setEntry,apart]
  by_cases here : f = table ∧ j = index 12 va
  · obtain ⟨rfl,rfl⟩ := here
    rw [setEntryTables,writeSame,present]
    exact there
  · rw [setEntryTables,writeOther _ _ (fun h k => here ⟨h,k⟩)]

theorem protectPageSane {flags} (low : va < 2^47) (there : flags.getLsbD 0 = true)
    (granted : strict → flags.getLsbD 2 = true → ∀ table i, m.pte as.pml4 va = some (table,i) →
    (m.tables table i).present = true → Granted m owner table) : Sane strict leafOk (protectPage as flags m va) owner := by
  unfold protectPage
  cases place : m.pte as.pml4 va with
  | none => exact sane
  | some pair =>
  obtain ⟨table,i⟩ := pair
  dsimp only
  split
  swap
  · exact sane
  rename_i present
  obtain ⟨ownT,rfl⟩ := pteOwned sane own low place
  have valid := indexValid [index 39 va,index 30 va,index 21 va] 12 va (by simp)
  have child := sane.forest.child table as.pml4 _ _ _ ownT (by simp) valid (targetSome.mpr ⟨present,rfl⟩)
  let e : Entry := {m.tables table (index 12 va) with flags := flags}
  have write : Writable strict leafOk m owner table as.pml4 [index 39 va,index 30 va,index 21 va]
      (index 12 va) e := by
    refine ⟨ownT,by simp,valid,fun _ => ⟨sane.used _ (by rw [child]; simp),.inr child⟩,?_,?_,?_,
      fun _ _ => sane.floor table _ _ _ ownT rfl valid present,?_,
      fun isStrict _ user => granted isStrict user table _ place present⟩
    · intro short; simp at short
    · intro short; simp at short
    · intro short; simp at short
    · intro _ short; simp at short
  have after := saneWrite sane write
  have points : target e = some (m.tables table (index 12 va)).frame := targetSome.mpr ⟨there,rfl⟩
  rw [points,assignSame sane child] at after
  exact after

theorem protectRangeSane {start stop flags} (inside : ∀ va ∈ pages start stop, va < 2^47) (there : flags.getLsbD 0 = true)
    (granted : strict → flags.getLsbD 2 = true → ∀ va ∈ pages start stop, ∀ table i,
    m.pte as.pml4 va = some (table,i) → (m.tables table i).present = true → Granted m owner table) :
    Sane strict leafOk (m.vmmProtectRange as start stop flags) owner ∧
    SameUpper owner m (m.vmmProtectRange as start stop flags) := by
  refine foldInvariant (fun n => Sane strict leafOk n owner ∧ SameUpper owner m n)
    (pages start stop) (fun va member n reached => ?_) ⟨sane,fun _ _ _ _ _ => rfl,fun _ _ => rfl⟩
  obtain ⟨saneN,same⟩ := reached
  have low := inside va member
  refine ⟨protectPageSane saneN own low there (fun isStrict user table i place present => ?_),
    sameUpperTrans same (protectPageSame saneN own low there)⟩
  rw [sameUpperPte same sane own low] at place
  rw [same.present] at present
  exact sameUpperGranted same (granted isStrict user va member table i place present)

end

theorem userOkPageSane (write) (sane : Sane strict leafOk m owner)
    (own : IsRoot owner as.pml4) (aligned : va % pageSize = 0) (low : va < userEndAddr)
    (stack : ∀ va, userEndAddr - userStackMax ≤ va → va < 2^47 → leafOk (path va)) :
    ∃ after, Sane strict leafOk (userOkPage as write m va).2 after ∧ Keeps m owner (userOkPage as write m va).2 after := by
  have grown : ∃ after, Sane strict leafOk (if (m.leaf as.pml4 va).isNone && va ≥ userEndAddr-userStackMax
        then (m.vmmAllocRange as va (va+pageSize) userFlags).2 else m) after ∧
      Keeps m owner (if (m.leaf as.pml4 va).isNone && va ≥ userEndAddr-userStackMax
        then (m.vmmAllocRange as va (va+pageSize) userFlags).2 else m) after := by
    split
    · rename_i deep
      simp only [Bool.and_eq_true,decide_eq_true_eq] at deep
      refine allocRangeSane sane own (fun w member => ?_) (by decide)
      obtain ⟨above,below,_⟩ := pagesBound member
      have inStack : userEndAddr-userStackMax ≤ w ∧ w < 2^47 := by
        unfold alignDownPage pageSize userEndAddr userStackMax at *
        omega
      exact ⟨inStack.2,stack w inStack.1 inStack.2⟩
    · exact ⟨owner,sane,keepsRefl m owner⟩
  obtain ⟨after,saneN,keeps⟩ := grown
  refine ⟨after,?_,?_⟩
  · unfold userOkPage
    dsimp only
    split <;> exact saneN
  unfold userOkPage
  dsimp only
  split <;> exact keeps

section

variable (sane : Sane strict leafOk m owner)
include sane

theorem userOkSane {addr len write} (own : IsRoot owner as.pml4)
    (stack : ∀ va, userEndAddr - userStackMax ≤ va → va < 2^47 → leafOk (path va)) :
    ∃ after, Sane strict leafOk (m.vmmUserOk as addr len write).2 after ∧
    Keeps m owner (m.vmmUserOk as addr len write).2 after := by
  unfold vmmUserOk
  dsimp only
  split
  · exact ⟨owner,sane,keepsRefl m owner⟩
  split
  · exact ⟨owner,sane,keepsRefl m owner⟩
  rename_i fits
  simp only [Bool.or_eq_true,decide_eq_true_eq,not_or,Nat.not_lt] at fits
  refine untilFailureInvariant (fun n => ∃ after, Sane strict leafOk n after ∧ Keeps m owner n after)
    _ (fun va member n reached => ?_) ⟨owner,sane,keepsRefl m owner⟩
  obtain ⟨after,saneN,keeps⟩ := reached
  obtain ⟨_,below,aligned⟩ := pagesBound member
  obtain ⟨last,saneLast,step⟩ := userOkPageSane write saneN (keepsRoot sane keeps own)
    aligned (Nat.lt_of_lt_of_le below fits.2) stack
  exact ⟨last,saneLast,keepsTrans keeps step⟩

theorem plantSane (free : owner f = none)
    (taken : m.used f = true) (empty : ∀ i, i < 256 → m.tables f i = .zero)
    (shared : ∀ i, 256 ≤ i → m.tables f i = m.boot i) : Sane strict leafOk m (update owner f (some (f,[]))) := by
  have absent i (valid : validIndex [] i) : (m.tables f i).present = false := by
    rw [empty i (valid.2 rfl)]
    rfl
  have forest : Owned target 4 validIndex m.tables (update owner f (some (f,[]))) := by
    refine ownedPlant sane.forest free (fun i valid => ?_)
    unfold target
    rw [absent i valid]
    rfl
  have old : ∀ {g r q i}, update owner f (some (f,[])) g = some (r,q) → validIndex q i →
      (m.tables g i).present = true → owner g = some (r,q) := by
    intro g r q i own valid present
    by_cases same : g = f
    · subst same
      rw [update_self] at own
      cases Option.some.inj own
      rw [absent i valid] at present
      cases present
    · rwa [update_of_ne same] at own
  refine ⟨forest,fun g own => ?_,fun g r q i own short valid present => ?_,
    fun isStrict g r q i j own short valid present => ?_,fun g r q i own short valid present => ?_,
    fun r i own high => ?_⟩
  · by_cases same : g = f
    · subst same; exact taken
    · rw [update_of_ne same] at own; exact sane.used g own
  · exact sane.upper g r q i (old own valid present) short valid present
  · exact sane.inherit isStrict g r q i j (old own valid present) short valid present
  · exact sane.floor g r q i (old own valid present) short valid present
  by_cases same : r = f
  · subst same; rw [shared i high]
  · rw [update_of_ne same] at own; exact sane.kernel r i own high

theorem createSane (create : m.vmmCreateAddressSpace = (some as,n)) :
    ∃ after, Sane strict leafOk n after ∧ Keeps m owner n after ∧ IsRoot after as.pml4 ∧
    m.used as.pml4 = false ∧ as = ⟨as.pml4,0,0,mmapTop⟩ := by
  obtain ⟨mid,takes,layout,rfl⟩ := createTakes create
  obtain ⟨saneMid,keeps,free,taken⟩ := takes.sane sane
  refine ⟨update owner as.pml4 (some (as.pml4,[])),plantSane (saneSetTable saneMid free) free taken (fun i low => ?_)
    (fun i high => ?_),⟨keeps.used,fun g used => update_of_ne (takes.other used) _ _⟩,update_self _ _ _,takes.free,layout⟩
  · rw [setTableSame,if_pos low]
  rw [setTableSame,if_neg (by omega)]
  exact congrFun takes.boot.symm i

end

structure Frees (root : Frame) (owner : Owner) (m n : Machine) : Prop where
  tables : n.tables = m.tables
  boot : n.boot = m.boot
  used : ∀ g, (∀ q, owner g ≠ some (root,q)) → n.used g = m.used g

theorem freesRefl (root owner m) : Frees root owner m m := ⟨rfl,rfl,fun _ _ => rfl⟩

theorem freesTrans {p} (first : Frees root owner m n) (second : Frees root owner n p) : Frees root owner m p :=
  ⟨second.tables.trans first.tables,second.boot.trans first.boot,
    fun g apart => (second.used g apart).trans (first.used g apart)⟩

theorem freesPage (own : owner f = some (root,q)) (m : Machine) : Frees root owner m (m.pmmFreePage f) := by
  refine ⟨rfl,rfl,fun g apart => ?_⟩
  have other : g ≠ f := by rintro rfl; exact apart q own
  simp [pmmFreePage,other]

theorem freesEach {table body} (each : ∀ n i, i < 512 → n.tables = m.tables → n.boot = m.boot →
    Frees root owner n (body n i (m.tables table i))) : Frees root owner m (m.eachEntry table body) := by
  refine foldInvariant (fun n => Frees root owner m n) _ (fun i member n reached => ?_) (freesRefl root owner m)
  have step := each n i (List.mem_range.mp member) reached.tables reached.boot
  rw [← reached.tables] at step
  exact freesTrans reached step

section

variable (sane : Sane strict leafOk m owner) (own : owner f = some (root,q))
include sane own

theorem openChild {i} (level : q.length ≤ 3) (bound : i < 512) (present : (m.tables f i).present = true)
    (inner : q ≠ []) : owner (m.tables f i).frame = some (root,q ++ [i]) :=
  sane.forest.child f root q i _ own (by omega) ⟨bound,fun h => absurd h inner⟩ (targetSome.mpr ⟨present,rfl⟩)

theorem freesPml1 (level : q.length = 3) (tables : n.tables = m.tables) : Frees root owner n (n.freePml1 true f) := by
  unfold freePml1
  simp only [if_true]
  refine freesTrans (freesEach (fun p i bound same _ => ?_)) (freesPage own _)
  split
  · rename_i present
    rw [tables] at present ⊢
    exact freesPage (openChild sane own (by omega) bound present (fun h => by simp [h] at level)) p
  · exact freesRefl root owner p

theorem freesPml2 (level : q.length = 2) (tables : n.tables = m.tables) : Frees root owner n (n.freePml2 true f) := by
  refine freesTrans (freesEach (fun p i bound same _ => ?_)) (freesPage own _)
  split
  · exact freesRefl root owner p
  rename_i open'
  rw [tables] at open' ⊢
  have child := openChild sane own (by omega) bound (by grind) (fun h => by simp [h] at level)
  exact freesPml1 sane child (by simp [level]) (same.trans tables)

theorem freesPml3 (level : q.length = 1) (tables : n.tables = m.tables) : Frees root owner n (n.freePml3 true f) := by
  refine freesTrans (freesEach (fun p i bound same _ => ?_)) (freesPage own _)
  split
  · exact freesRefl root owner p
  rename_i open'
  rw [tables] at open' ⊢
  have child := openChild sane own (by omega) bound (by grind) (fun h => by simp [h] at level)
  exact freesPml2 sane child (by simp [level]) (same.trans tables)

end

theorem destroyFrees (sane : Sane strict leafOk m owner) (own : IsRoot owner as.pml4) :
    Frees as.pml4 owner m (m.vmmDestroyAddressSpace as) := by
  refine freesTrans (freesEach (fun p i bound same boot => ?_)) (freesPage own _)
  split
  · exact freesRefl as.pml4 owner p
  rename_i open'
  simp only [Bool.or_eq_true,Bool.not_eq_true',beq_iff_eq,not_or] at open'
  have present : (m.tables as.pml4 i).present = true := by
    cases h : (m.tables as.pml4 i).present with
    | false => exact absurd h open'.1
    | true => rfl
  have user : i < 256 := by
    by_contra high
    have shared := sane.kernel as.pml4 i own (Nat.le_of_not_lt high)
    rw [boot] at open'
    exact open'.2 shared
  have child := sane.forest.child as.pml4 as.pml4 [] i _ own (by decide)
    ⟨bound,fun _ => user⟩ (targetSome.mpr ⟨present,rfl⟩)
  rw [decide_eq_true user]
  exact freesPml3 sane child (by simp) same

theorem destroySane (as : AddressSpace) (sane : Sane strict leafOk m owner) (own : IsRoot owner as.pml4) :
    Sane strict leafOk (m.vmmDestroyAddressSpace as) (forget owner as.pml4) := by
  have frees := destroyFrees sane own
  have left : Sane strict leafOk m (forget owner as.pml4) := by
    refine ⟨ownedForget sane.forest as.pml4,fun g h => ?_,fun f r q i h => ?_,fun isStrict f r q i j h => ?_,
      fun f r q i h => ?_,fun r i h => ?_⟩
    · obtain ⟨role,found⟩ := Option.ne_none_iff_exists'.mp h
      exact sane.used g (by rw [(forgetSome.mp found).1]; simp)
    · exact sane.upper f r q i (forgetSome.mp h).1
    · exact sane.inherit isStrict f r q i j (forgetSome.mp h).1
    · exact sane.floor f r q i (forgetSome.mp h).1
    · exact sane.kernel r i (forgetSome.mp h).1
  refine saneOutside left frees.boot (fun _ _ => by rw [frees.tables]) (fun g h => ?_)
  obtain ⟨role,found⟩ := Option.ne_none_iff_exists'.mp h
  obtain ⟨old,other⟩ := forgetSome.mp found
  have apart : ∀ q, owner g ≠ some (as.pml4,q) := by
    intro q again
    rw [old] at again
    exact other (congrArg Prod.fst (Option.some.inj again))
  rw [frees.used g apart]
  exact sane.used g (by rw [old]; simp)

end Miviex.Machine
