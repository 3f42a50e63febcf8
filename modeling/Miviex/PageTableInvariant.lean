import Miviex.AddressSpaces
import Miviex.RadixForest

/-! The page tables of all address spaces as one forest of frames. Upper entries are
writable and not huge; with `strict`, an entry with PAGE_USER is reached through entries
with PAGE_USER only; `leafOk` says which pages may be mapped. -/
namespace Miviex.Machine
open Function (update update_of_ne update_self)
open RadixForest

abbrev Owner := Frame → Option (Frame × List Nat)

abbrev IsRoot (owner : Owner) (r : Frame) : Prop := owner r = some (r,[])

def target (e : Entry) : Option Frame := if e.present then some e.frame else none

def validIndex (path : List Nat) (i : Nat) : Prop := i < 512 ∧ (path = [] → i < 256)

structure Sane (strict : Prop) (leafOk : List Nat → Prop) (m : Machine) (owner : Owner) : Prop where
  forest : Owned target 4 validIndex m.tables owner
  used : ∀ f, owner f ≠ none → m.used f = true
  upper : ∀ f root path i, owner f = some (root,path) → path.length < 3 → validIndex path i →
    (m.tables f i).present = true → (m.tables f i).write = true ∧ (m.tables f i).huge = false
  inherit : strict → ∀ f root path i j, owner f = some (root,path) → path.length < 3 → validIndex path i →
    (m.tables f i).present = true → (m.tables (m.tables f i).frame j).present = true →
    (m.tables (m.tables f i).frame j).user = true → (m.tables f i).user = true
  floor : ∀ f root path i, owner f = some (root,path) → path.length = 3 → validIndex path i →
    (m.tables f i).present = true → leafOk (path ++ [i])
  kernel : ∀ root i, owner root = some (root,[]) → 256 ≤ i → (m.tables root i).frame = (m.boot i).frame

variable {strict : Prop} {leafOk : List Nat → Prop} {m : Machine} {owner : Owner}

theorem targetSome {e g} : target e = some g ↔ e.present = true ∧ e.frame = g := by
  unfold target
  split
  · rename_i h; simp [h]
  · rename_i h; simp [h]

theorem setEntryTables (m : Machine) (f i e) : (m.setEntry f i e).tables = writeEntry m.tables f i e := rfl

def Granted (m : Machine) (owner : Owner) (g : Frame) : Prop :=
  ∀ f root path i, owner f = some (root,path) → path.length < 3 → validIndex path i →
    (m.tables f i).present = true → (m.tables f i).frame = g → (m.tables f i).user = true

structure Writable (strict : Prop) (leafOk : List Nat → Prop) (m : Machine) (owner : Owner)
    (f root : Frame) (path : List Nat) (i : Nat) (e : Entry) : Prop where
  own : owner f = some (root,path)
  short : path.length < 4
  valid : validIndex path i
  fresh : e.present = true → m.used e.frame = true ∧ (owner e.frame = none ∨ owner e.frame = some (root,path ++ [i]))
  kept : path.length < 3 → ∀ g, owner g = some (root,path ++ [i]) → e.present = true ∧ e.frame = g
  empty : path.length < 3 → e.present = true → owner e.frame = none → ∀ j, (m.tables e.frame j).present = false
  upper : path.length < 3 → e.present = true → e.write = true ∧ e.huge = false
  floor : path.length = 3 → e.present = true → leafOk (path ++ [i])
  below : strict → path.length < 3 → e.present = true → ∀ j, (m.tables e.frame j).present = true →
    (m.tables e.frame j).user = true → e.user = true
  above : strict → e.present = true → e.user = true → Granted m owner f

variable {f g : Frame} {n : Machine}

structure Idle (m n : Machine) : Prop where
  tables : n.tables = m.tables
  used : n.used = m.used
  data : n.data = m.data
  boot : n.boot = m.boot

theorem allocIdle (alloc : m.pmmAllocPage = (none,n)) : Idle m n := by
  unfold pmmAllocPage at alloc
  split at alloc
  · cases alloc; exact ⟨rfl,rfl,rfl,rfl⟩
  · cases alloc; exact ⟨rfl,rfl,rfl,rfl⟩
  split at alloc
  · cases alloc; exact ⟨rfl,rfl,rfl,rfl⟩
  · cases alloc

structure Takes (f : Frame) (m n : Machine) : Prop where
  free : m.used f = false
  tables : n.tables = m.tables
  used : n.used = update m.used f true
  data : n.data = m.data
  boot : n.boot = m.boot

theorem allocTakes (alloc : m.pmmAllocPage = (some f,n)) : Takes f m n := by
  unfold pmmAllocPage at alloc
  split at alloc
  · cases alloc
  · cases alloc
  split at alloc
  · cases alloc
  rename_i free
  cases alloc
  exact ⟨by simpa using free,rfl,rfl,rfl,rfl⟩

theorem Takes.grows (takes : Takes f m n) (taken : m.used g = true) : n.used g = true := by
  rw [takes.used]
  by_cases same : g = f
  · rw [same,update_self]
  · rw [update_of_ne same,taken]

theorem Takes.other (takes : Takes f m n) (taken : m.used g = true) : g ≠ f := by
  rintro rfl
  rw [takes.free] at taken
  cases taken

theorem allocTableIdle (alloc : m.allocZeroedTable = (none,n)) : Idle m n := by
  unfold allocZeroedTable at alloc
  cases inner : m.pmmAllocPage with
  | mk found mid =>
    rw [inner] at alloc
    cases found with
    | none => cases alloc; exact allocIdle inner
    | some g => cases alloc

theorem allocTableTakes (alloc : m.allocZeroedTable = (some f,n)) :
    ∃ mid, Takes f m mid ∧ n = mid.setTable f (fun _ => .zero) := by
  unfold allocZeroedTable at alloc
  cases inner : m.pmmAllocPage with
  | mk found mid =>
    rw [inner] at alloc
    cases found with
    | none => cases alloc
    | some g => cases alloc; exact ⟨mid,allocTakes inner,rfl⟩

theorem mallocIdle {answer} (malloc : m.kMalloc = (answer,n)) : Idle m n := by
  unfold kMalloc at malloc
  split at malloc <;> cases malloc <;> exact ⟨rfl,rfl,rfl,rfl⟩

theorem createIdle (create : m.vmmCreateAddressSpace = (none,n)) : Idle m n := by
  unfold vmmCreateAddressSpace at create
  cases malloc : m.kMalloc with
  | mk answer m1 =>
  rw [malloc] at create
  have idle := mallocIdle malloc
  cases answer with
  | false => cases create; exact idle
  | true =>
  dsimp only at create
  cases alloc : m1.pmmAllocPage with
  | mk found m2 =>
  rw [alloc] at create
  cases found with
  | none =>
    cases create
    have second := allocIdle alloc
    exact ⟨second.tables.trans idle.tables,second.used.trans idle.used,second.data.trans idle.data,second.boot.trans idle.boot⟩
  | some f => cases create

theorem createTakes {as} (create : m.vmmCreateAddressSpace = (some as,n)) : ∃ mid, Takes as.pml4 m mid ∧
    as = ⟨as.pml4,0,0,mmapTop⟩ ∧ n = mid.setTable as.pml4 (fun i => if i < 256 then .zero else m.boot i) := by
  unfold vmmCreateAddressSpace at create
  cases malloc : m.kMalloc with
  | mk answer m1 =>
  rw [malloc] at create
  have idle := mallocIdle malloc
  cases answer with
  | false => cases create
  | true =>
  dsimp only at create
  cases alloc : m1.pmmAllocPage with
  | mk found m2 =>
  rw [alloc] at create
  cases found with
  | none => cases create
  | some f =>
  have takes := allocTakes alloc
  dsimp only at create
  rw [takes.boot,idle.boot] at create
  cases create
  exact ⟨m2,⟨idle.used ▸ takes.free,takes.tables.trans idle.tables,idle.used ▸ takes.used,
    takes.data.trans idle.data,takes.boot.trans idle.boot⟩,rfl,rfl⟩

structure Keeps (m : Machine) (owner : Owner) (n : Machine) (after : Owner) : Prop where
  used : ∀ g, m.used g = true → n.used g = true
  owner : ∀ g, m.used g = true → after g = owner g

theorem keepsRefl (m owner) : Keeps m owner m owner := ⟨fun _ h => h,fun _ _ => rfl⟩

theorem keepsTrans {p after last} (first : Keeps m owner n after) (second : Keeps n after p last) : Keeps m owner p last :=
  ⟨fun g used => second.used g (first.used g used),
    fun g used => (second.owner g (first.used g used)).trans (first.owner g used)⟩

theorem keepsUsed (used : ∀ g, m.used g = true → n.used g = true) : Keeps m owner n owner := ⟨used,fun _ _ => rfl⟩

section

variable (sane : Sane strict leafOk m owner)
include sane

theorem saneWrite {root path i e} (write : Writable strict leafOk m owner f root path i e) :
    Sane strict leafOk (m.setEntry f i e) (assign owner (root,path ++ [i]) (target e)) := by
  have fresh n (points : target e = some n) : owner n = none ∨ owner n = some (root,path ++ [i]) := by
    obtain ⟨present,rfl⟩ := targetSome.mp points
    exact (write.fresh present).2
  have forest : Owned target 4 validIndex (m.setEntry f i e).tables (assign owner (root,path ++ [i]) (target e)) := by
    refine ownedWrite sane.forest write.own write.short write.valid fresh ?_ ?_
    · intro below g own
      exact targetSome.mpr (write.kept (by omega) g own)
    intro below n points none j
    obtain ⟨present,rfl⟩ := targetSome.mp points
    unfold target
    rw [write.empty (by omega) present none j]
    rfl
  have seen g r q k (short : q.length < 4) (own : assign owner (root,path ++ [i]) (target e) g = some (r,q))
      (present : ((m.setEntry f i e).tables g k).present = true) :
      (g = f ∧ k = i ∧ r = root ∧ q = path) ∨ (owner g = some (r,q) ∧ (g = f → k ≠ i)) := by
    by_cases place : g = f ∧ k = i
    · obtain ⟨rfl,rfl⟩ := place
      have role : (r,q) ≠ (root,path ++ [k]) := by
        intro role
        rw [role] at own
        obtain ⟨there,frame⟩ := targetSome.mp (assignRole.mp own)
        rcases (write.fresh there).2 with none | same
        · rw [frame,write.own] at none; cases none
        · rw [frame,write.own] at same; exact roleApart root path k (Option.some.inj same)
      have same := ((assignOther fresh role).mp own).symm.trans write.own
      cases Option.some.inj same
      exact .inl ⟨rfl,rfl,rfl,rfl⟩
    have apart : g = f → k ≠ i := fun same again => place ⟨same,again⟩
    refine .inr ⟨?_,apart⟩
    rw [setEntryTables,writeOther m.tables e apart] at present
    by_cases role : (r,q) = (root,path ++ [i])
    · rw [role] at own
      obtain ⟨there,rfl⟩ := targetSome.mp (assignRole.mp own)
      rcases (write.fresh there).2 with none | same
      · have lengths := congrArg (fun x => x.2.length) role
        simp only [List.length_append,List.length_singleton] at lengths
        rw [write.empty (by omega) there none k] at present
        cases present
      · rw [same,role]
    · exact (assignOther fresh role).mp own
  have entryOther : ∀ {g k}, (g = f → k ≠ i) → (m.setEntry f i e).tables g k = m.tables g k := fun apart =>
    writeOther m.tables e apart
  have entryHere : (m.setEntry f i e).tables f i = e := writeSame m.tables f i e
  refine ⟨forest,fun g own => ?_,fun g r q k own short valid present => ?_,
    fun isStrict g r q k j own short valid present childPresent childUser => ?_,
    fun g r q k own short valid present => ?_,fun r k own high => ?_⟩
  · unfold assign at own
    split at own
    · rename_i points
      obtain ⟨present,rfl⟩ := targetSome.mp points
      exact (write.fresh present).1
    split at own
    · exact absurd rfl own
    · exact sane.used g own
  · rcases seen g r q k (by omega) own present with ⟨rfl,rfl,rfl,rfl⟩ | ⟨old,apart⟩
    · rw [entryHere] at present ⊢
      exact write.upper short present
    rw [entryOther apart] at present ⊢
    exact sane.upper g r q k old short valid present
  · rcases seen g r q k (by omega) own present with ⟨rfl,rfl,rfl,rfl⟩ | ⟨old,apart⟩
    · rw [entryHere] at present childPresent childUser ⊢
      have away : e.frame = g → j ≠ k := by
        intro same
        rcases (write.fresh present).2 with none | role
        · rw [same,write.own] at none; cases none
        · rw [same,write.own] at role; exact absurd (Option.some.inj role) (roleApart _ _ _)
      rw [entryOther away] at childPresent childUser
      exact write.below isStrict short present j childPresent childUser
    rw [entryOther apart] at present childPresent childUser ⊢
    by_cases place : (m.tables g k).frame = f ∧ j = i
    · obtain ⟨frame,rfl⟩ := place
      rw [frame,entryHere] at childPresent childUser
      exact write.above isStrict childPresent childUser g r q k old short valid present frame
    have away : (m.tables g k).frame = f → j ≠ i := fun same again => place ⟨same,again⟩
    rw [entryOther away] at childPresent childUser
    exact sane.inherit isStrict g r q k j old short valid present childPresent childUser
  · rcases seen g r q k (by omega) own present with ⟨rfl,rfl,rfl,rfl⟩ | ⟨old,apart⟩
    · rw [entryHere] at present
      exact write.floor short present
    rw [entryOther apart] at present
    exact sane.floor g r q k old short valid present
  have role : (r,([] : List Nat)) ≠ (root,path ++ [i]) := by simp
  have old := (assignOther fresh role).mp own
  have apart : r = f → k ≠ i := by
    rintro rfl rfl
    have same := old.symm.trans write.own
    cases Option.some.inj same
    have low := write.valid.2 rfl
    omega
  rw [entryOther apart]
  exact sane.kernel r k old high

theorem saneOutside (boot : n.boot = m.boot)
    (tables : ∀ f, owner f ≠ none → n.tables f = m.tables f)
    (used : ∀ f, owner f ≠ none → n.used f = true) : Sane strict leafOk n owner := by
  have same : ∀ {f root path}, owner f = some (root,path) → n.tables f = m.tables f := fun own =>
    tables _ (by rw [own]; simp)
  have points : ∀ {f root path i}, owner f = some (root,path) → path.length < 3 → validIndex path i →
      (m.tables f i).present = true → n.tables (m.tables f i).frame = m.tables (m.tables f i).frame := by
    intro f root path i own short valid present
    exact same (sane.forest.child f root path i _ own (by omega) valid (targetSome.mpr ⟨present,rfl⟩))
  refine ⟨ownedCongr sane.forest tables,used,fun f root path i own => ?_,
    fun isStrict f root path i j own short valid present => ?_,fun f root path i own => ?_,
    fun root i own => ?_⟩
  · rw [same own]; exact sane.upper f root path i own
  · rw [same own] at present ⊢
    rw [points own short valid present]
    exact sane.inherit isStrict f root path i j own short valid present
  · rw [same own]; exact sane.floor f root path i own
  · rw [same own,boot]; exact sane.kernel root i own

theorem unusedFree (free : m.used f = false) : owner f = none := by
  by_contra own
  rw [sane.used f own] at free
  cases free

end

theorem Takes.sane (takes : Takes f m n) (sane : Sane strict leafOk m owner) :
    Sane strict leafOk n owner ∧ Keeps m owner n owner ∧ owner f = none ∧ n.used f = true :=
  ⟨saneOutside sane takes.boot (fun g _ => by rw [takes.tables]) (fun g own => takes.grows (sane.used g own)),
    keepsUsed (fun g => takes.grows),unusedFree sane takes.free,by rw [takes.used,update_self]⟩

theorem Idle.sane (idle : Idle m n) (sane : Sane strict leafOk m owner) : Sane strict leafOk n owner ∧ Keeps m owner n owner :=
  ⟨saneOutside sane idle.boot (fun _ _ => by rw [idle.tables]) (fun g own => by rw [idle.used]; exact sane.used g own),
    keepsUsed (fun g taken => by rw [idle.used]; exact taken)⟩

theorem setTableOther (m : Machine) (entries : Nat → Entry) (other : g ≠ f) :
    (m.setTable f entries).tables g = m.tables g := update_of_ne other _ _

theorem setTableSame (m : Machine) (f) (entries : Nat → Entry) : (m.setTable f entries).tables f = entries :=
  update_self _ _ _

theorem saneSetTable {entries} (sane : Sane strict leafOk m owner) (free : owner f = none) :
    Sane strict leafOk (m.setTable f entries) owner := by
  refine saneOutside sane rfl (fun g own => update_of_ne ?_ _ _) sane.used
  rintro rfl
  exact own free

end Miviex.Machine
