import Miviex.PageTrees

/-! Destroying an address space gives back its tables and the frames its leaves map, and
nothing else. -/
namespace Miviex.Machine
open List
open RadixForest

variable {m n : Machine} {owner : Owner}

structure Clears (gone : Frame → Prop) (m n : Machine) : Prop where
  tables : n.tables = m.tables
  data : n.data = m.data
  boot : n.boot = m.boot
  used : ∀ g, n.used g = true ↔ m.used g = true ∧ ¬ gone g

theorem Clears.idle (m) : Clears (fun _ => False) m m := ⟨rfl,rfl,rfl,fun _ => ⟨fun h => ⟨h,id⟩,And.left⟩⟩

theorem Clears.trans {p first second} (one : Clears first m n) (two : Clears second n p) :
    Clears (fun g => first g ∨ second g) m p := by
  refine ⟨two.tables.trans one.tables,two.data.trans one.data,two.boot.trans one.boot,fun g => ?_⟩
  rw [two.used g,one.used g,not_or,and_assoc]

theorem Clears.congr {first second} (clears : Clears first m n) (same : ∀ g, first g ↔ second g) : Clears second m n :=
  ⟨clears.tables,clears.data,clears.boot,fun g => by rw [clears.used g,same g]⟩

theorem freeClears (m : Machine) (f) : Clears (fun g => g = f) m (m.pmmFreePage f) := by
  refine ⟨rfl,rfl,rfl,fun g => ?_⟩
  unfold pmmFreePage
  dsimp only
  by_cases same : g = f
  · subst same
    rw [Function.update_self]
    exact ⟨fun h => (by cases h),fun h => absurd rfl h.2⟩
  rw [Function.update_of_ne same]
  exact ⟨fun h => ⟨h,same⟩,And.left⟩

theorem eachClears {table body} {gone : Nat → Frame → Prop}
    (each : ∀ n i, n.tables = m.tables → n.boot = m.boot → i < 512 → Clears (gone i) n (body n i (m.tables table i))) :
    Clears (fun g => ∃ i, i < 512 ∧ gone i g) m (m.eachEntry table body) := by
  have fold (xs : List Nat) : (∀ i ∈ xs, i < 512) → ∀ n, n.tables = m.tables → n.boot = m.boot →
      Clears (fun g => ∃ i ∈ xs, gone i g) n (xs.foldl (fun n i => body n i (n.tables table i)) n) := by
    induction xs with
    | nil =>
      intro _ n _ _
      refine (Clears.idle n).congr (fun g => ⟨False.elim,?_⟩)
      rintro ⟨i,member,_⟩
      cases member
    | cons i rest ih =>
      intro bound n tables boot
      have head := each n i tables boot (bound i mem_cons_self)
      rw [← tables] at head
      have tail := ih (fun j member => bound j (mem_cons_of_mem i member)) _ (head.tables.trans tables)
        (head.boot.trans boot)
      refine (head.trans tail).congr (fun g => ?_)
      simp only [mem_cons,or_and_right,exists_or,exists_eq_left]
  refine (fold (List.range 512) (fun i member => mem_range.mp member) m rfl rfl).congr (fun g => ?_)
  simp only [mem_range]

def Below (m : Machine) (owner : Owner) (root : Frame) (q : List Nat) (g : Frame) : Prop :=
  (∃ p, owner g = some (root,q ++ p)) ∨
  ∃ table p i, owner table = some (root,q ++ p) ∧ (q ++ p).length = 3 ∧ i < 512 ∧
    (m.tables table i).present = true ∧ (m.tables table i).frame = g

def descend (m : Machine) : Frame → List Nat → Option Frame
  | f, [] => some f
  | f, i::rest => (target (m.tables f i)).bind (fun g => m.descend g rest)

def UserPath (p : List Nat) : Prop := p.length ≤ 4 ∧ (∀ i ∈ p, i < 512) ∧ ∀ i ∈ p.head?, i < 256

def Reaches (m : Machine) (root f : Frame) : Prop := ∃ p, UserPath p ∧ m.descend root p = some f

theorem descendSnoc (f p i) : m.descend f (p ++ [i]) = (m.descend f p).bind (fun g => target (m.tables g i)) := by
  induction p generalizing f with
  | nil =>
    change (target (m.tables f i)).bind some = target (m.tables f i)
    cases target (m.tables f i) <;> rfl
  | cons j p ih =>
    change (target (m.tables f j)).bind (fun g => m.descend g (p ++ [i])) =
      ((target (m.tables f j)).bind (fun g => m.descend g p)).bind (fun g => target (m.tables g i))
    cases target (m.tables f j) with
    | none => rfl
    | some g => exact ih g

theorem userPathSnoc {p i} (path : UserPath (p ++ [i])) : UserPath p ∧ p.length < 4 ∧ validIndex p i := by
  obtain ⟨short,bound,top⟩ := path
  rw [length_append,length_singleton] at short
  refine ⟨⟨by omega,fun j member => bound j (mem_append_left _ member),fun j first => ?_⟩,by omega,
    bound i (mem_append_right _ (mem_singleton.mpr rfl)),fun empty => ?_⟩
  · cases p with
    | nil => cases first
    | cons k p => exact top j first
  rw [empty] at top
  exact top i rfl

section

variable (trees : Trees m owner)
include trees

theorem Trees.prefixOwned {root g q p i}
    (own : owner g = some (root,q ++ i::p)) : ∃ h, owner h = some (root,q ++ [i]) := by
  induction p using List.reverseRecOn generalizing g with
  | nil => exact ⟨g,own⟩
  | append_singleton p j ih =>
    rw [← cons_append,← append_assoc] at own
    obtain ⟨_,_,parent,ownParent,_⟩ := trees.forest.linked g root (q ++ i::p) j own
    exact ih ownParent

theorem belowUpper {root f g q} (own : owner f = some (root,q))
    (short : q.length < 3) : Below m owner root q g ↔
    g = f ∨ ∃ i, validIndex q i ∧ (m.tables f i).present = true ∧ Below m owner root (q ++ [i]) g := by
  -- a table further down hangs below an entry of `f`
  have step : ∀ {h i p}, owner h = some (root,q ++ i::p) → validIndex q i ∧ (m.tables f i).present = true := by
    intro h i p deep
    obtain ⟨child,role⟩ := trees.prefixOwned deep
    obtain ⟨_,valid,parent,ownParent,points⟩ := trees.forest.linked child root q i role
    cases ownerUnique trees.forest ownParent own
    exact ⟨valid,(targetSome.mp points).1⟩
  constructor
  · rintro (⟨p,role⟩ | ⟨table,p,i,role,level,bound,present,frame⟩)
    · cases p with
      | nil =>
        rw [append_nil] at role
        exact .inl (ownerUnique trees.forest role own)
      | cons i p =>
        obtain ⟨valid,present⟩ := step role
        rw [append_cons] at role
        exact .inr ⟨i,valid,present,.inl ⟨p,role⟩⟩
    cases p with
    | nil =>
      rw [append_nil] at level
      omega
    | cons j p =>
      obtain ⟨valid,there⟩ := step role
      rw [append_cons] at role level
      exact .inr ⟨j,valid,there,.inr ⟨table,p,i,role,level,bound,present,frame⟩⟩
  rintro (rfl | ⟨i,_,_,⟨p,role⟩ | ⟨table,p,j,role,level,bound,present,frame⟩⟩)
  · exact .inl ⟨[],by rw [append_nil]; exact own⟩
  · rw [append_assoc] at role
    exact .inl ⟨_,role⟩
  rw [append_assoc] at role level
  exact .inr ⟨table,_,j,role,level,bound,present,frame⟩

theorem belowLast {root f g q} (own : owner f = some (root,q))
    (level : q.length = 3) : Below m owner root q g ↔
    g = f ∨ ∃ i, i < 512 ∧ (m.tables f i).present = true ∧ (m.tables f i).frame = g := by
  constructor
  · rintro (⟨p,role⟩ | ⟨table,p,i,role,deep,bound,present,frame⟩)
    · have limit := ownerDepth trees.forest role
      have empty : p = [] := length_eq_zero_iff.mp (by rw [length_append] at limit; omega)
      rw [empty,append_nil] at role
      exact .inl (ownerUnique trees.forest role own)
    have empty : p = [] := length_eq_zero_iff.mp (by rw [length_append] at deep; omega)
    rw [empty,append_nil] at role
    cases ownerUnique trees.forest role own
    exact .inr ⟨i,bound,present,frame⟩
  rintro (rfl | ⟨i,bound,present,frame⟩)
  · exact .inl ⟨[],by rw [append_nil]; exact own⟩
  · exact .inr ⟨f,[],i,by rw [append_nil]; exact own,by rw [append_nil]; exact level,bound,present,frame⟩

theorem descendOwned {root f p} (own : IsRoot owner root)
    (path : UserPath p) (short : p.length ≤ 3) : m.descend root p = some f ↔ owner f = some (root,p) := by
  induction p using List.reverseRecOn generalizing f with
  | nil =>
    refine ⟨fun h => ?_,fun h => ?_⟩
    · cases h
      exact own
    rw [trees.forest.root f root h]
    rfl
  | append_singleton p i ih =>
  obtain ⟨inner,_,valid⟩ := userPathSnoc path
  rw [length_append,length_singleton] at short
  have upper := fun g => @ih g inner (by omega)
  rw [descendSnoc,Option.bind_eq_some_iff]
  constructor
  · rintro ⟨g,reached,points⟩
    exact trees.forest.child g root p i f ((upper g).mp reached) (by omega) valid points
  intro role
  obtain ⟨_,_,g,ownG,points⟩ := trees.forest.linked f root p i role
  exact ⟨g,(upper g).mpr ownG,points⟩

theorem ownedUserPath {root f p} (own : owner f = some (root,p)) : UserPath p := by
  have depth := ownerDepth trees.forest own
  refine ⟨by omega,?_,?_⟩
  · induction p using List.reverseRecOn generalizing f with
    | nil =>
      intro i member
      cases member
    | append_singleton p i ih =>
      obtain ⟨short,valid,g,ownG,_⟩ := trees.forest.linked f root p i own
      intro j member
      rcases mem_append.mp member with early | last
      · exact ih ownG (by omega) j early
      rw [mem_singleton.mp last]
      exact valid.1
  intro i first
  cases p with
  | nil => cases first
  | cons j p =>
    cases first
    obtain ⟨child,role⟩ := @Trees.prefixOwned m owner trees root f [] p i own
    exact (trees.forest.linked child root [] i role).2.1.2 rfl

theorem belowReaches {root g} (own : IsRoot owner root) :
    Below m owner root [] g ↔ m.Reaches root g := by
  constructor
  · rintro (⟨p,role⟩ | ⟨table,p,i,role,level,bound,present,frame⟩)
    · have path := ownedUserPath trees role
      exact ⟨p,path,(descendOwned trees own path (ownerDepth trees.forest role)).mpr role⟩
    rw [nil_append] at role level
    have path := ownedUserPath trees role
    refine ⟨p ++ [i],⟨by rw [length_append,level]; exact le_refl 4,fun j member => ?_,fun j first => ?_⟩,?_⟩
    · rcases mem_append.mp member with early | last
      · exact path.2.1 j early
      rw [mem_singleton.mp last]
      exact bound
    · refine path.2.2 j ?_
      cases p with
      | nil => cases level
      | cons k p => exact first
    rw [descendSnoc,(descendOwned trees own path (by omega)).mpr role,Option.bind_some]
    exact targetSome.mpr ⟨present,frame⟩
  rintro ⟨p,path,reached⟩
  by_cases short : p.length ≤ 3
  · exact .inl ⟨p,(descendOwned trees own path short).mp reached⟩
  have level := path.1
  have some_ : p ≠ [] := by
    rintro rfl
    exact short (Nat.zero_le 3)
  obtain ⟨q,i,rfl⟩ := eq_nil_or_concat p |>.resolve_left some_
  rw [concat_eq_append] at path short level reached
  rw [length_append,length_singleton] at short level
  obtain ⟨inner,_,valid⟩ := userPathSnoc path
  rw [descendSnoc,Option.bind_eq_some_iff] at reached
  obtain ⟨table,upper,points⟩ := reached
  have role := (descendOwned trees own inner (by omega)).mp upper
  obtain ⟨present,frame⟩ := targetSome.mp points
  exact .inr ⟨table,q,i,role,by rw [nil_append]; omega,valid.1,present,frame⟩

theorem freePml1Clears {root f q} (own : owner f = some (root,q))
    (level : q.length = 3) (same : n.tables = m.tables) : Clears (Below m owner root q) n (n.freePml1 true f) := by
  unfold freePml1
  have leaves : Clears (fun g => ∃ i, i < 512 ∧ (m.tables f i).present = true ∧ (m.tables f i).frame = g) n
      (n.eachEntry f (fun m _ e => if e.present then m.pmmFreePage e.frame else m)) := by
    refine eachClears (fun p i _ _ _ => ?_)
    rw [same]
    split
    · rename_i present
      refine (freeClears p _).congr (fun g => ?_)
      rw [eq_comm]
      exact ⟨fun h => ⟨present,h⟩,And.right⟩
    rename_i absent
    exact (Clears.idle p).congr (fun g => ⟨False.elim,fun h => absurd h.1 absent⟩)
  refine (leaves.trans (freeClears _ f)).congr (fun g => ?_)
  rw [belowLast trees own level,or_comm]

theorem freeUpperClears {root f q} {inner : Machine → Frame → Machine} {skip : Entry → Bool}
    (own : owner f = some (root,q)) (short : q.length < 3) (deep : q ≠ [])
    (same : n.tables = m.tables) (boot : n.boot = m.boot)
    (skips : ∀ i, validIndex q i → (skip (m.tables f i) = true ↔ (m.tables f i).present = false))
    (next : ∀ p i g, p.tables = m.tables → p.boot = m.boot → owner g = some (root,q ++ [i]) →
    Clears (Below m owner root (q ++ [i])) p (inner p g)) : Clears (Below m owner root q) n
    ((n.eachEntry f (fun m _ e => if skip e then m else inner m e.frame)).pmmFreePage f) := by
  have entries : Clears (fun g => ∃ i, i < 512 ∧ (m.tables f i).present = true ∧ Below m owner root (q ++ [i]) g) n
      (n.eachEntry f (fun m _ e => if skip e then m else inner m e.frame)) := by
    refine eachClears (fun p i sameP bootP bound => ?_)
    have valid : validIndex q i := ⟨bound,fun empty => absurd empty deep⟩
    rw [same]
    split
    · rename_i skipped
      have absent := (skips i valid).mp skipped
      refine (Clears.idle p).congr (fun g => ⟨False.elim,fun h => ?_⟩)
      rw [absent] at h
      cases h.1
    rename_i wanted
    have present : (m.tables f i).present = true := by
      cases h : (m.tables f i).present with
      | false => exact absurd ((skips i valid).mpr h) wanted
      | true => rfl
    have child := trees.forest.child f root q i _ own short valid (targetSome.mpr ⟨present,rfl⟩)
    exact (next p i _ (sameP.trans same) (bootP.trans boot) child).congr (fun g => ⟨fun h => ⟨present,h⟩,And.right⟩)
  refine (entries.trans (freeClears _ f)).congr (fun g => ?_)
  rw [belowUpper trees own short,or_comm]
  refine or_congr Iff.rfl (exists_congr (fun i => and_congr ?_ Iff.rfl))
  exact ⟨fun bound => ⟨bound,fun empty => absurd empty deep⟩,And.left⟩

theorem freePml2Clears {root f q} (own : owner f = some (root,q))
    (level : q.length = 2) (same : n.tables = m.tables) (boot : n.boot = m.boot) :
    Clears (Below m owner root q) n (n.freePml2 true f) := by
  have deep : q ≠ [] := by
    rintro rfl
    cases level
  refine @freeUpperClears m n owner trees root f q (fun m g => m.freePml1 true g) (fun e => !e.present || e.huge) own
    (by omega) deep same boot (fun i valid => ?_) (fun p i g sameP _ child => ?_)
  · have plain := trees.plain f root q i own (by omega) valid
    cases present : (m.tables f i).present with
    | false => exact ⟨fun _ => rfl,fun _ => rfl⟩
    | true =>
      rw [plain present]
      exact ⟨fun h => (by cases h),fun h => (by cases h)⟩
  · exact freePml1Clears trees child (by rw [length_append,level]; rfl) sameP

theorem freePml3Clears {root f q} (own : owner f = some (root,q))
    (level : q.length = 1) (same : n.tables = m.tables) (boot : n.boot = m.boot) :
    Clears (Below m owner root q) n (n.freePml3 true f) := by
  have deep : q ≠ [] := by
    rintro rfl
    cases level
  refine @freeUpperClears m n owner trees root f q (fun m g => m.freePml2 true g) (fun e => !e.present) own
    (by omega) deep same boot (fun i _ => ?_) (fun p i g sameP bootP child => ?_)
  · rw [Bool.not_eq_true']
  · exact freePml2Clears trees child (by rw [length_append,level]; rfl) sameP bootP

theorem destroyClears {as} (own : IsRoot owner as.pml4) :
    Clears (Below m owner as.pml4 []) m (m.vmmDestroyAddressSpace as) := by
  have entries : Clears (fun g => ∃ i, i < 512 ∧ validIndex [] i ∧ (m.tables as.pml4 i).present = true ∧
      Below m owner as.pml4 [i] g) m (m.eachEntry as.pml4 (fun m i e =>
        if !e.present || e.frame == (m.boot i).frame then m else m.freePml3 (i < 256) e.frame)) := by
    refine eachClears (fun p i sameP bootP bound => ?_)
    rw [bootP]
    cases present : (m.tables as.pml4 i).present with
    | false => exact (Clears.idle p).congr (fun g => ⟨False.elim,fun h => by cases h.2.1⟩)
    | true =>
    by_cases user : i < 256
    · have valid : validIndex [] i := ⟨bound,fun _ => user⟩
      have child := trees.forest.child as.pml4 as.pml4 [] i _ own (by decide) valid (targetSome.mpr ⟨present,rfl⟩)
      have other : ((m.tables as.pml4 i).frame == (m.boot i).frame) = false := by
        rw [beq_eq_false_iff_ne]
        intro same
        rw [same,(trees.boot i).2] at child
        cases child
      rw [other,decide_eq_true user,if_neg (by decide)]
      refine (freePml3Clears trees child (by rfl) sameP bootP).congr (fun g => ?_)
      exact ⟨fun h => ⟨valid,rfl,h⟩,fun h => h.2.2⟩
    have shared := trees.kernel as.pml4 i own (Nat.le_of_not_lt user)
    rw [shared,beq_self_eq_true,Bool.or_true,if_pos rfl]
    refine (Clears.idle p).congr (fun g => ⟨False.elim,fun h => absurd (h.1.2 rfl) user⟩)
  refine (entries.trans (freeClears _ as.pml4)).congr (fun g => ?_)
  rw [belowUpper trees own (by decide),or_comm]
  refine or_congr Iff.rfl (exists_congr (fun i => ?_))
  exact ⟨fun h => h.2,fun h => ⟨h.1.1,h⟩⟩

end

end Miviex.Machine
