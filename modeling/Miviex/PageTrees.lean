import Miviex.PageTableRanges

/-! The table pages of all address spaces as a forest of three levels below the roots; what the
leaves map is left open. -/
namespace Miviex.Machine
open Function (update update_of_ne update_self)
open RadixForest Option

structure Trees (m : Machine) (owner : Owner) : Prop where
  forest : Owned target 3 validIndex m.tables owner
  used : ∀ f, owner f ≠ none → m.used f = true
  plain : ∀ f root q i, owner f = some (root,q) → q.length < 3 → validIndex q i →
    (m.tables f i).present = true → (m.tables f i).huge = false
  kernel : ∀ root i, owner root = some (root,[]) → 256 ≤ i → m.tables root i = m.boot i
  boot : ∀ i, m.used (m.boot i).frame = true ∧ owner (m.boot i).frame = none

variable {m n : Machine} {owner : Owner}

variable {f g root : Frame} {q : List Nat} {i va : Nat} {flags : BitVec 12} {as : AddressSpace}

theorem Takes.only (takes : Takes f m n) (now : n.used g = true) (before : m.used g = false) : g = f := by
  by_contra other
  rw [takes.used,update_of_ne other,before] at now
  cases now

theorem Trees.unowned (trees : Trees m owner) (free : m.used f = false) : owner f = none := by
  by_contra own
  rw [trees.used f own] at free
  cases free

theorem Trees.owned (trees : Trees m owner) (own : owner f = some (root,q)) :
    m.used f = true := trees.used f (by rw [own]; exact some_ne_none _)

theorem Trees.outside (trees : Trees m owner) (boot : n.boot = m.boot) (tables : ∀ f, owner f ≠ none → n.tables f = m.tables f)
    (used : ∀ f, owner f ≠ none → n.used f = true) (reserved : ∀ i, n.used (m.boot i).frame = true) : Trees n owner := by
  have same : ∀ {f root q}, owner f = some (root,q) → n.tables f = m.tables f := fun own =>
    tables _ (by rw [own]; exact some_ne_none _)
  refine ⟨ownedCongr trees.forest tables,used,fun f root q i own => ?_,fun root i own => ?_,fun i => ?_⟩
  · rw [same own]
    exact trees.plain f root q i own
  · rw [same own,boot]
    exact trees.kernel root i own
  rw [boot]
  exact ⟨reserved i,(trees.boot i).2⟩

theorem leafTables (tables : n.tables = m.tables) (r x) : n.leaf r x = m.leaf r x := by
  unfold leaf pte follow
  rw [tables]

theorem Idle.trees (idle : Idle m n) (trees : Trees m owner) : Trees n owner := by
  refine trees.outside idle.boot (fun f _ => by rw [idle.tables]) (fun f own => ?_) (fun i => ?_)
  · rw [idle.used]
    exact trees.used f own
  rw [idle.used]
  exact (trees.boot i).1

theorem Takes.trees (takes : Takes f m n) (trees : Trees m owner) : Trees n owner :=
  trees.outside takes.boot (fun g _ => by rw [takes.tables]) (fun g own => takes.grows (trees.used g own))
    (fun i => takes.grows (trees.boot i).1)

structure Grows (root : Frame) (m : Machine) (owner : Owner) (n : Machine) (after : Owner) : Prop where
  used : ∀ g, m.used g = true → n.used g = true
  stays : ∀ g, m.used g = true → after g = owner g
  fresh : ∀ g, n.used g = true → m.used g = false → ∃ q, after g = some (root,q)
  last : ∀ g r q, after g = some (r,q) → q.length = 3 →
    (owner g = some (r,q) ∧ n.tables g = m.tables g) ∨ (owner g = none ∧ n.tables g = fun _ => .zero)
  outside : ∀ g, m.used g = true → (∀ q, owner g ≠ some (root,q)) → n.tables g = m.tables g
  data : n.data = m.data
  boot : n.boot = m.boot

theorem Idle.growth (idle : Idle m n) (root owner) : Grows root m owner n owner := by
  refine ⟨fun g taken => idle.used ▸ taken,fun _ _ => rfl,fun g now before => ?_,fun g r q own _ => ?_,
    fun g _ _ => by rw [idle.tables],idle.data,idle.boot⟩
  · rw [idle.used,before] at now
    cases now
  · exact .inl ⟨own,by rw [idle.tables]⟩

variable {after : Owner} {e : Entry} {phys : Frame} {done : Bool} {x : Nat}

theorem Grows.trans {p last} (first : Grows root m owner n after)
    (second : Grows root n after p last) (trees : Trees m owner) : Grows root m owner p last := by
  refine ⟨fun g taken => second.used g (first.used g taken),fun g taken => ?_,fun g now before => ?_,
    fun g r q own level => ?_,fun g taken free => ?_,second.data.trans first.data,second.boot.trans first.boot⟩
  · rw [second.stays g (first.used g taken),first.stays g taken]
  · cases between : n.used g with
    | true =>
      obtain ⟨q,own⟩ := first.fresh g between before
      exact ⟨q,(second.stays g between).trans own⟩
    | false => exact second.fresh g now between
  · rcases second.last g r q own level with ⟨mid,same⟩ | ⟨mid,zero⟩
    · rcases first.last g r q mid level with ⟨old,before⟩ | ⟨old,before⟩
      · exact .inl ⟨old,same.trans before⟩
      · exact .inr ⟨old,same.trans before⟩
    refine .inr ⟨?_,zero⟩
    by_contra held
    have taken := trees.used g held
    exact held ((first.stays g taken).symm.trans mid)
  have away : ∀ q, after g ≠ some (root,q) := by
    rw [first.stays g taken]
    exact free
  rw [second.outside g (first.used g taken) away,first.outside g taken free]

theorem Trees.link (trees : Trees m owner) (own : owner f = some (root,q)) (short : q.length < 3) (valid : validIndex q i)
    (present : flags.getLsbD 0 = true) (plain : flags.getLsbD 7 = false) (taken : m.used g = true)
    (fresh : (owner g = none ∧ (∀ j, m.tables g j = .zero) ∧ ∀ i, (m.boot i).frame ≠ g) ∨ owner g = some (root,q ++ [i]))
    (vacant : ∀ h, owner h = some (root,q ++ [i]) → h = g) :
    Trees (m.setEntry f i ⟨g,flags⟩) (assign owner (root,q ++ [i]) (some g)) := by
  have points : target ⟨g,flags⟩ = some g := targetSome.mpr ⟨present,rfl⟩
  have free h (same : some g = some h) : owner h = none ∨ owner h = some (root,q ++ [i]) := by
    cases Option.some.inj same
    exact fresh.imp And.left id
  have forest := @ownedWrite Frame Entry target 3 validIndex m.tables owner _ trees.forest f root q i ⟨g,flags⟩ own short
    valid (by rw [points]; exact free) (fun _ h role => by rw [points,vacant h role]) (fun _ h same none j => by
      rw [points] at same
      cases Option.some.inj same
      rcases fresh with ⟨_,zero,_⟩ | held
      · rw [zero j]
        rfl
      rw [none] at held
      cases held)
  rw [points] at forest
  refine ⟨forest,fun h held => ?_,fun h r p j ownH shortH validH there => ?_,fun r j ownR high => ?_,fun j => ?_⟩
  · unfold assign at held
    split at held
    · rename_i same
      cases Option.some.inj same
      exact taken
    split at held
    · exact absurd rfl held
    · exact trees.used h held
  · by_cases place : h = f ∧ j = i
    · obtain ⟨rfl,rfl⟩ := place
      rw [setEntryTables,writeSame]
      exact plain
    have apart : h = f → j ≠ i := fun same again => place ⟨same,again⟩
    rw [setEntryTables,writeOther m.tables _ apart] at there ⊢
    by_cases role : (r,p) = (root,q ++ [i])
    · rw [role] at ownH
      cases Option.some.inj (assignRole.mp ownH)
      rcases fresh with ⟨_,zero,_⟩ | held
      · rw [zero j] at there
        cases there
      cases role
      exact trees.plain g _ _ j held shortH validH there
    · exact trees.plain h r p j ((assignOther free role).mp ownH) shortH validH there
  · have role : (r,([] : List Nat)) ≠ (root,q ++ [i]) := by
      intro same
      have lengths := congrArg (fun x => x.2.length) same
      simp at lengths
    have old := (assignOther free role).mp ownR
    have apart : r = f → j ≠ i := by
      rintro rfl rfl
      rw [old] at own
      cases Option.some.inj own
      have low := valid.2 rfl
      omega
    rw [setEntryTables,writeOther m.tables _ apart]
    exact trees.kernel r j old high
  refine ⟨(trees.boot j).1,?_⟩
  have reserved := (trees.boot j).2
  unfold assign
  rw [if_neg,if_neg]
  · exact reserved
  · intro role
    rw [show (m.setEntry f i ⟨g,flags⟩).boot = m.boot from rfl,reserved] at role
    cases role
  intro same
  rcases fresh with ⟨_,_,other⟩ | held
  · exact other j (Option.some.inj same).symm
  rw [Option.some.inj same,show (m.setEntry f i ⟨g,flags⟩).boot = m.boot from rfl,reserved] at held
  cases held

theorem setEntryElsewhere (m : Machine) (i e) (other : g ≠ f) :
    (m.setEntry f i e).tables g = m.tables g := update_of_ne other _ _

section

variable (trees : Trees m owner) (own : owner f = some (root,q))
include trees own

theorem nextTableTrees {wantUser result} (short : q.length < 3) (valid : validIndex q i)
    (next : m.nextTable f i wantUser = (result,n)) :
    ∃ after, Trees n after ∧ Grows root m owner n after ∧ ∀ g, result = some g → after g = some (root,q ++ [i]) := by
  -- a table above the last level is not one of the last
  have upper : ∀ {g r p}, owner g = some (r,p) → p.length = 3 → g ≠ f := by
    rintro g r p ownG level rfl
    rw [own] at ownG
    cases Option.some.inj ownG
    omega
  unfold nextTable at next
  dsimp only at next
  split at next
  · rename_i present
    cases next
    have child := trees.forest.child f root q i _ own short valid (targetSome.mpr ⟨present,rfl⟩)
    refine ⟨owner,?_,?_,fun g found => by cases Option.some.inj found; exact child⟩
    · split
      · obtain ⟨presentBit,_,_,hugeBit⟩ := setUserFlags (m.tables f i).flags
        have linked := trees.link own short valid (presentBit.trans present)
          (hugeBit.trans (trees.plain f root q i own short valid present)) (trees.owned child) (.inr child)
          (fun h role => ownerUnique trees.forest role child)
        rw [assignSelf trees.forest child] at linked
        exact linked
      · exact trees
    split
    · refine ⟨fun _ h => h,fun _ _ => rfl,fun g now before => ?_,fun g r p ownG level => ?_,fun g _ free => ?_,rfl,rfl⟩
      · rw [show (m.setEntry f i _).used = m.used from rfl,before] at now
        cases now
      · exact .inl ⟨ownG,setEntryElsewhere m i _ (upper ownG level)⟩
      refine setEntryElsewhere m i _ ?_
      rintro rfl
      exact free q own
    · exact Idle.growth ⟨rfl,rfl,rfl,rfl⟩ root owner
  rename_i absent
  cases alloc : m.allocZeroedTable with
  | mk found mid =>
  rw [alloc] at next
  cases found with
  | none =>
    cases next
    have idle := allocTableIdle alloc
    exact ⟨owner,idle.trees trees,idle.growth root owner,fun g h => by cases h⟩
  | some g =>
  cases next
  obtain ⟨taken,takes,rfl⟩ := allocTableTakes alloc
  have free := trees.unowned takes.free
  have treesTaken := takes.trees trees
  have other : ∀ {h}, owner h ≠ none → h ≠ g := by
    rintro h held rfl
    exact held free
  have cleared : Trees (taken.setTable g (fun _ => .zero)) owner :=
    treesTaken.outside rfl (fun h held => setTableOther taken _ (other held)) treesTaken.used
      (fun j => (treesTaken.boot j).1)
  obtain ⟨presentBit,_,_,hugeBit⟩ := linkFlagsBits wantUser
  have vacant := vacantRole trees.forest own (if_neg absent)
  have reserved j : ((taken.setTable g (fun _ => .zero)).boot j).frame ≠ g := by
    rw [show (taken.setTable g (fun _ => Entry.zero)).boot = m.boot from takes.boot]
    exact takes.other (trees.boot j).1
  have linked := cleared.link own short valid presentBit hugeBit
    (by rw [show (taken.setTable g (fun _ => Entry.zero)).used = _ from takes.used,update_self])
    (.inl ⟨free,fun j => by rw [setTableSame],reserved⟩) (fun h role => absurd role (vacant h))
  have role : assign owner (root,q ++ [i]) (some g) g = some (root,q ++ [i]) := assignRole.mpr rfl
  have elsewhere h (away : h ≠ g) : assign owner (root,q ++ [i]) (some g) h = owner h := assignElse away (vacant h)
  have notF : f ≠ g := other (by rw [own]; exact some_ne_none _)
  refine ⟨_,linked,⟨fun h before => takes.grows before,fun h before => elsewhere h (takes.other before),
    fun h now before => ?_,fun h r p ownH level => ?_,fun h before unowned => ?_,takes.data,takes.boot⟩,
    fun h found => by cases Option.some.inj found; exact role⟩
  · cases takes.only now before
    exact ⟨_,role⟩
  · by_cases same : h = g
    · subst same
      refine .inr ⟨free,?_⟩
      rw [setEntryElsewhere _ i _ notF.symm,setTableSame]
    rw [elsewhere h same] at ownH
    refine .inl ⟨ownH,?_⟩
    rw [setEntryElsewhere _ i _ (upper ownH level),setTableOther _ _ same,takes.tables]
  have notOwned : h ≠ f := by
    rintro rfl
    exact unowned q own
  rw [setEntryElsewhere _ i _ notOwned,setTableOther _ _ (takes.other before),takes.tables]

theorem Trees.setLeaf (level : q.length = 3) : Trees (m.setEntry f i e) owner := by
  have other : ∀ {g r p}, owner g = some (r,p) → p.length < 3 → (m.setEntry f i e).tables g = m.tables g := by
    intro g r p ownG short
    refine setEntryElsewhere m i e ?_
    rintro rfl
    rw [own] at ownG
    cases Option.some.inj ownG
    omega
  refine ⟨⟨fun g r p j h ownG short ok points => ?_,fun h r p j ownH => ?_,trees.forest.root⟩,trees.used,
    fun g r p j ownG short => ?_,fun r j ownR => ?_,trees.boot⟩
  · rw [other ownG short] at points
    exact trees.forest.child g r p j h ownG short ok points
  · obtain ⟨short,ok,g,ownG,points⟩ := trees.forest.linked h r p j ownH
    exact ⟨short,ok,g,ownG,by rw [other ownG short]; exact points⟩
  · rw [other ownG short]
    exact trees.plain g r p j ownG short
  rw [other ownR (by decide)]
  exact trees.kernel r j ownR

end

def tablePath (va : Nat) : List Nat := [index 39 va,index 30 va,index 21 va]

section

variable (trees : Trees m owner)
include trees

theorem mapPageTrees (own : IsRoot owner as.pml4) (low : va < 2^47)
    (map : m.vmmMapPage as va phys flags = (done,n)) :
    ∃ mid after, Trees mid after ∧ Grows as.pml4 m owner mid after ∧ (done = false → n = mid) ∧
    (done = true → ∃ pml1, after pml1 = some (as.pml4,tablePath va) ∧ n = mid.setEntry pml1 (index 12 va) ⟨phys,flags⟩) := by
  have ends := mapPageRule (fun p f q => ∃ after, Trees p after ∧ Grows as.pml4 m owner p after ∧ after f = some (as.pml4,q))
    (fun p => ∃ after, Trees p after ∧ Grows as.pml4 m owner p after)
    ⟨owner,trees,Idle.growth ⟨rfl,rfl,rfl,rfl⟩ as.pml4 owner,own⟩ low ?_ ?_ map
  · obtain ⟨rfl,after,treesN,grows⟩ | ⟨mid,pml1,rfl,⟨after,treesN,grows,ownN⟩,last⟩ := ends
    · exact ⟨n,after,treesN,grows,fun _ => rfl,fun h => by cases h⟩
    · exact ⟨mid,after,treesN,grows,fun h => (by cases h),fun _ => ⟨pml1,ownN,last⟩⟩
  · rintro p f q i ⟨after,treesP,_,ownF⟩ short valid there
    exact treesP.plain f as.pml4 q i ownF short valid there
  · rintro p f q i result n ⟨after,treesP,grows,ownF⟩ short valid next
    obtain ⟨last,treesN,growsN,facts⟩ := nextTableTrees treesP ownF short valid next
    have whole := grows.trans growsN trees
    cases result with
    | none => exact ⟨last,treesN,whole⟩
    | some g => exact ⟨last,treesN,whole,facts g rfl⟩

theorem followTrees (own : owner f = some (root,q))
    (short : q.length < 3) (valid : validIndex q i) : m.follow f i = some g ↔ owner g = some (root,q ++ [i]) := by
  have upper := trees.plain f root q i own short valid
  unfold follow
  dsimp only
  constructor
  · intro found
    split at found
    · cases found
    rename_i open'
    cases found
    rw [Bool.or_eq_true,Bool.not_eq_true',not_or,Bool.not_eq_false] at open'
    exact trees.forest.child f root q i _ own short valid (targetSome.mpr ⟨open'.1,rfl⟩)
  intro role
  obtain ⟨_,_,parent,ownParent,points⟩ := trees.forest.linked g root q i role
  cases ownerUnique trees.forest ownParent own
  obtain ⟨present,rfl⟩ := targetSome.mp points
  rw [present,upper present]
  rfl

theorem pteTrees {table} (own : IsRoot owner root)
    (low : va < 2^47) : m.pte root va = some (table,i) ↔ owner table = some (root,tablePath va) ∧ i = index 12 va := by
  have v3 := indexValid [index 39 va] 30 va (by simp)
  have v2 := indexValid [index 39 va,index 30 va] 21 va (by simp)
  constructor
  · intro found
    obtain ⟨place,pml3,pml2,walk⟩ := pteSome found
    have own3 := (followTrees trees own (by decide) (indexTop low)).mp walk.first
    have own2 := (followTrees trees own3 (by simp) v3).mp walk.second
    exact ⟨(followTrees trees own2 (by simp) v2).mp walk.third,place⟩
  rintro ⟨role,rfl⟩
  obtain ⟨_,_,pml2,own2,_⟩ := trees.forest.linked table root [index 39 va,index 30 va] (index 21 va) role
  obtain ⟨_,_,pml3,own3,_⟩ := trees.forest.linked pml2 root [index 39 va] (index 30 va) own2
  exact walkPte ⟨(followTrees trees own (by decide) (indexTop low)).mpr own3,
    (followTrees trees own3 (by simp) v3).mpr own2,(followTrees trees own2 (by simp) v2).mpr role⟩

theorem leafTrees (own : IsRoot owner root) (low : va < 2^47) : m.leaf root va = some e ↔
    ∃ table, owner table = some (root,tablePath va) ∧ m.tables table (index 12 va) = e ∧ e.present = true := by
  constructor
  · intro found
    obtain ⟨table,i,place,same,present⟩ := leafSome found
    obtain ⟨role,rfl⟩ := (pteTrees trees own low).mp place
    exact ⟨table,role,same,present⟩
  rintro ⟨table,role,rfl,present⟩
  unfold leaf
  rw [(pteTrees trees own low).mpr ⟨role,rfl⟩,bind_some]
  exact if_pos present

theorem Grows.leaf {r} (grows : Grows root m owner n after)
    (treesN : Trees n after) (own : IsRoot owner r) (low : va < 2^47) : n.leaf r va = m.leaf r va := by
  have ownN : IsRoot after r := (grows.stays r (trees.owned own)).trans own
  refine ext (fun e => ?_)
  rw [leafTrees treesN ownN low,leafTrees trees own low]
  constructor
  · rintro ⟨table,role,same,present⟩
    rcases grows.last table r _ role rfl with ⟨old,content⟩ | ⟨_,zero⟩
    · exact ⟨table,old,by rw [← content]; exact same,present⟩
    have absent : Entry.zero.present = false := rfl
    rw [zero] at same
    rw [← same] at present
    cases absent.symm.trans present
  rintro ⟨table,role,same,present⟩
  have stays := (grows.stays table (trees.owned role)).trans role
  rcases grows.last table r _ stays rfl with ⟨_,content⟩ | ⟨none,_⟩
  · exact ⟨table,stays,by rw [content]; exact same,present⟩
  rw [role] at none
  cases none

end

theorem pathSplit : path x = path va ↔ tablePath x = tablePath va ∧ index 12 x = index 12 va := by
  unfold path tablePath
  simp only [List.cons.injEq,and_true,and_assoc]

theorem setLeafLeaf {r table} (trees : Trees m owner)
    (own : IsRoot owner r) (low : x < 2^47) (role : owner table = some (root,tablePath va)) :
    (m.setEntry table (index 12 va) e).leaf r x =
    if r = root ∧ path x = path va then (if e.present then some e else none) else m.leaf r x := by
  have treesN : Trees (m.setEntry table (index 12 va) e) owner := trees.setLeaf role rfl
  by_cases here : r = root ∧ path x = path va
  · obtain ⟨rfl,same⟩ := here
    obtain ⟨tables,last⟩ := pathSplit.mp same
    rw [if_pos ⟨rfl,same⟩]
    unfold leaf
    rw [(pteTrees treesN own low).mpr ⟨tables ▸ role,rfl⟩,bind_some]
    rw [last,setEntryTables,writeSame]
  rw [if_neg here]
  refine ext (fun e' => ?_)
  rw [leafTrees treesN own low,leafTrees trees own low]
  have content t (roleT : owner t = some (r,tablePath x)) :
      (m.setEntry table (index 12 va) e).tables t (index 12 x) = m.tables t (index 12 x) := by
    refine writeOther m.tables e ?_
    rintro rfl last
    rw [role] at roleT
    have parts := Prod.mk.inj (Option.some.inj roleT)
    exact here ⟨parts.1.symm,pathSplit.mpr ⟨parts.2.symm,last⟩⟩
  constructor
  · rintro ⟨t,roleT,same,present⟩
    exact ⟨t,roleT,by rw [← content t roleT]; exact same,present⟩
  rintro ⟨t,roleT,same,present⟩
  exact ⟨t,roleT,by rw [content t roleT]; exact same,present⟩

structure Mapped (as : AddressSpace) (va : Nat) (phys : Frame) (flags : BitVec 12) (done : Bool) (m : Machine)
    (owner : Owner) (n : Machine) (after : Owner) : Prop where
  trees : Trees n after
  used : ∀ g, m.used g = true → n.used g = true
  stays : ∀ g, m.used g = true → after g = owner g
  fresh : ∀ g, n.used g = true → m.used g = false → ∃ q, after g = some (as.pml4,q)
  leaf : ∀ r x, owner r = some (r,[]) → x < 2^47 → n.leaf r x =
    if done = true ∧ r = as.pml4 ∧ path x = path va then (if flags.getLsbD 0 then some ⟨phys,flags⟩ else none)
    else m.leaf r x
  outside : ∀ g, m.used g = true → (∀ q, owner g ≠ some (as.pml4,q)) → n.tables g = m.tables g
  data : n.data = m.data
  boot : n.boot = m.boot

theorem Mapped.unowned
    (mapped : Mapped as va phys flags done m owner n after) (g) (taken : m.used g = true) (free : owner g = none) :
    n.tables g = m.tables g := by
  refine mapped.outside g taken (fun q own => ?_)
  rw [free] at own
  cases own

theorem mapPageMapped (trees : Trees m owner) (own : IsRoot owner as.pml4) (low : va < 2^47)
    (map : m.vmmMapPage as va phys flags = (done,n)) : ∃ after, Mapped as va phys flags done m owner n after := by
  obtain ⟨mid,after,treesMid,grows,failed,mapped⟩ := mapPageTrees trees own low map
  refine ⟨after,?_⟩
  cases done with
  | false =>
    cases failed rfl
    refine ⟨treesMid,grows.used,grows.stays,grows.fresh,fun r x ownR below => ?_,grows.outside,grows.data,grows.boot⟩
    exact grows.leaf trees treesMid ownR below
  | true =>
  obtain ⟨pml1,role,rfl⟩ := mapped rfl
  refine ⟨treesMid.setLeaf role rfl,grows.used,grows.stays,grows.fresh,fun r x ownR below => ?_,fun g taken free => ?_,
    grows.data,grows.boot⟩
  · have ownMid := (grows.stays r (trees.owned ownR)).trans ownR
    rw [setLeafLeaf treesMid ownMid below role,grows.leaf trees treesMid ownR below]
    simp only [true_and]
    rfl
  have other : g ≠ pml1 := by
    rintro rfl
    rw [grows.stays g taken] at role
    exact free _ role
  rw [setEntryElsewhere mid _ _ other,grows.outside g taken free]

structure Created (as : AddressSpace) (m : Machine) (owner : Owner) (n : Machine) : Prop where
  trees : Trees n (update owner as.pml4 (some (as.pml4,[])))
  takes : m.used as.pml4 = false ∧ n.used = update m.used as.pml4 true
  layout : as = ⟨as.pml4,0,0,mmapTop⟩
  others : ∀ g, g ≠ as.pml4 → n.tables g = m.tables g
  empty : ∀ x, x < 2^47 → n.leaf as.pml4 x = none
  data : n.data = m.data
  boot : n.boot = m.boot

theorem createdTrees (trees : Trees m owner) (create : m.vmmCreateAddressSpace = (some as,n)) : Created as m owner n := by
  obtain ⟨mid,takes,layout,made⟩ := createTakes create
  have free := trees.unowned takes.free
  have content i : n.tables as.pml4 i = if i < 256 then .zero else m.boot i := by rw [made,setTableSame]
  have others g (away : g ≠ as.pml4) : n.tables g = m.tables g := by rw [made,setTableOther _ _ away,takes.tables]
  have used : n.used = update m.used as.pml4 true := by rw [made]; exact takes.used
  have boot : n.boot = m.boot := by rw [made]; exact takes.boot
  have grows g (taken : m.used g = true) : n.used g = true := by rw [made]; exact takes.grows taken
  have cleared : Trees n owner := trees.outside boot (fun g held => others g (by rintro rfl; exact held free))
    (fun g held => grows g (trees.used g held)) (fun i => grows _ (trees.boot i).1)
  have absent i (valid : validIndex [] i) : (n.tables as.pml4 i).present = false := by
    rw [content,if_pos (valid.2 rfl)]
    rfl
  have forest := ownedPlant cleared.forest free (fun i valid => by
    unfold target
    rw [absent i valid]
    rfl)
  have elsewhere : ∀ {g}, g ≠ as.pml4 → update owner as.pml4 (some (as.pml4,[])) g = owner g := fun away =>
    update_of_ne away _ _
  have planted : Trees n (update owner as.pml4 (some (as.pml4,[]))) := by
    refine ⟨forest,fun g held => ?_,fun g r q i own short valid present => ?_,fun r i own high => ?_,fun i => ?_⟩
    · by_cases same : g = as.pml4
      · rw [same,used,update_self]
      rw [elsewhere same] at held
      exact cleared.used g held
    · by_cases same : g = as.pml4
      · subst same
        rw [update_self] at own
        cases Option.some.inj own
        rw [absent i valid] at present
        cases present
      rw [elsewhere same] at own
      exact cleared.plain g r q i own short valid present
    · by_cases same : r = as.pml4
      · rw [same,content,if_neg (Nat.not_lt_of_le high),boot]
      rw [elsewhere same] at own
      exact cleared.kernel r i own high
    rw [elsewhere (by rw [boot]; exact takes.other (trees.boot i).1)]
    exact cleared.boot i
  refine ⟨planted,⟨takes.free,used⟩,layout,others,fun x low => ?_,by rw [made]; exact takes.data,boot⟩
  unfold leaf pte follow
  dsimp only
  rw [absent _ (indexTop low)]
  rfl

theorem Created.leaf {r} (created : Created as m owner n) (trees : Trees m owner)
    (own : IsRoot owner r) (low : x < 2^47) : n.leaf r x = m.leaf r x := by
  have apart : ∀ {g q}, owner g = some q → g ≠ as.pml4 := by
    rintro g q held rfl
    rw [trees.unowned created.takes.1] at held
    cases held
  have same : ∀ {g q}, owner g = some q → update owner as.pml4 (some (as.pml4,[])) g = some q := fun held =>
    (update_of_ne (apart held) _ _).trans held
  refine ext (fun e => ?_)
  rw [leafTrees created.trees (same own) low,leafTrees trees own low]
  constructor
  · rintro ⟨table,role,found,present⟩
    have other : table ≠ as.pml4 := by
      rintro rfl
      rw [update_self] at role
      have parts := congrArg (fun p => p.2.length) (Option.some.inj role)
      simp [tablePath] at parts
    rw [update_of_ne other] at role
    rw [created.others table other] at found
    exact ⟨table,role,found,present⟩
  rintro ⟨table,role,found,present⟩
  rw [← created.others table (apart role)] at found
  exact ⟨table,same role,found,present⟩

end Miviex.Machine
