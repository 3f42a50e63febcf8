import Mathlib.Data.List.Induction
import Mathlib.Logic.Function.Basic

/-! A forest of radix trees in frames of one memory. `owner` says which tree a frame belongs to
and on which path it hangs, so frames are never shared. `target` is the frame an entry points to,
`valid` the indices that count. -/
namespace Miviex.RadixForest

open List
open Function (update update_of_ne update_self)

variable {Frame Entry : Type}

structure Owned (target : Entry → Option Frame) (depth : Nat) (valid : List Nat → Nat → Prop)
    (tables : Frame → Nat → Entry) (owner : Frame → Option (Frame × List Nat)) : Prop where
  child : ∀ f root path i g, owner f = some (root,path) → path.length < depth → valid path i →
    target (tables f i) = some g → owner g = some (root,path ++ [i])
  linked : ∀ g root path i, owner g = some (root,path ++ [i]) → path.length < depth ∧ valid path i ∧
    ∃ f, owner f = some (root,path) ∧ target (tables f i) = some g
  root : ∀ f root, owner f = some (root,[]) → f = root

variable {target : Entry → Option Frame} {depth : Nat} {valid : List Nat → Nat → Prop}
  {tables : Frame → Nat → Entry} {owner : Frame → Option (Frame × List Nat)}

section

variable (owned : Owned target depth valid tables owner)
include owned

theorem ownerUnique {f g root path} (first : owner f = some (root,path)) (second : owner g = some (root,path)) : f = g := by
  induction path using reverseRecOn generalizing f g with
  | nil => rw [owned.root f root first,owned.root g root second]
  | append_singleton path i ih =>
    obtain ⟨_,_,parent,own,points⟩ := owned.linked f root path i first
    obtain ⟨_,_,other,ownOther,pointsOther⟩ := owned.linked g root path i second
    have same := ih own ownOther
    subst same
    rw [points] at pointsOther
    exact Option.some.inj pointsOther

theorem ownerDepth {f root path} (own : owner f = some (root,path)) : path.length ≤ depth := by
  induction path using reverseRecOn with
  | nil => exact Nat.zero_le depth
  | append_singleton path i _ =>
    have short := (owned.linked f root path i own).1
    rw [length_append,length_singleton]
    omega

theorem ownerRoot {f root path} (own : owner f = some (root,path)) : owner root = some (root,[]) := by
  induction path using reverseRecOn generalizing f with
  | nil =>
    have same := owned.root f root own
    rwa [same] at own
  | append_singleton path i ih =>
    obtain ⟨_,_,parent,ownParent,_⟩ := owned.linked f root path i own
    exact ih ownParent

theorem vacantRole {f root path i} (own : owner f = some (root,path)) (absent : target (tables f i) = none) (g) :
    owner g ≠ some (root,path ++ [i]) := by
  intro role
  obtain ⟨_,_,parent,ownParent,points⟩ := owned.linked g root path i role
  cases ownerUnique owned ownParent own
  cases absent.symm.trans points

theorem ownedCongr {tables'} (same : ∀ f, owner f ≠ none → tables' f = tables f) : Owned target depth valid tables' owner := by
  refine ⟨fun f root path i g own short ok points => ?_,fun g root path i own => ?_,owned.root⟩
  · rw [same f (by rw [own]; simp)] at points
    exact owned.child f root path i g own short ok points
  obtain ⟨short,ok,f,ownF,points⟩ := owned.linked g root path i own
  exact ⟨short,ok,f,ownF,by rw [same f (by rw [ownF]; simp)]; exact points⟩

end

theorem roleApart (root : Frame) (path : List Nat) (i : Nat) : (root,path) ≠ (root,path ++ [i]) := by
  intro same
  have lengths := congrArg (fun role => role.2.length) same
  simp at lengths

section Writing
variable [DecidableEq Frame]

def assign (owner : Frame → Option (Frame × List Nat)) (role : Frame × List Nat) (new : Option Frame) :
    Frame → Option (Frame × List Nat) := fun g =>
  if new = some g then some role else if owner g = some role then none else owner g

def writeEntry (tables : Frame → Nat → Entry) (f : Frame) (i : Nat) (e : Entry) : Frame → Nat → Entry :=
  update tables f (update (tables f) i e)

theorem writeSame (tables : Frame → Nat → Entry) (f : Frame) (i : Nat) (e : Entry) :
    writeEntry tables f i e f i = e := by simp [writeEntry]

theorem writeOther (tables : Frame → Nat → Entry) {f g i j} (e : Entry)
    (apart : g = f → j ≠ i) : writeEntry tables f i e g j = tables g j := by
  unfold writeEntry
  by_cases frame : g = f
  · subst frame
    rw [update_self,update_of_ne (apart rfl)]
  · rw [update_of_ne frame]

theorem assignOther {role new g} (fresh : ∀ n, new = some n → owner n = none ∨ owner n = some role)
    {other} (apart : other ≠ role) : assign owner role new g = some other ↔ owner g = some other := by
  unfold assign
  split
  · rename_i points
    rcases fresh g points with h | h
    · simp [h,Ne.symm apart]
    · simp [h]
  split
  · rename_i h
    simp [h,Ne.symm apart]
  · exact Iff.rfl

theorem assignElse {role g h} (away : h ≠ g) (vacant : owner h ≠ some role) : assign owner role (some g) h = owner h := by
  unfold assign
  rw [if_neg (fun same => away (Option.some.inj same).symm),if_neg vacant]

theorem assignRole {role new g} : assign owner role new g = some role ↔ new = some g := by
  unfold assign
  split
  · rename_i points; simp [points]
  rename_i points
  split
  · simp [points]
  · rename_i other; simp [points,other]

def forget (owner : Frame → Option (Frame × List Nat)) (root : Frame) :
    Frame → Option (Frame × List Nat) := fun g =>
  match owner g with
  | some (r,path) => if r = root then none else some (r,path)
  | none => none

theorem forgetSome {root g r path} : forget owner root g = some (r,path) ↔ owner g = some (r,path) ∧ r ≠ root := by
  unfold forget
  split
  · rename_i found
    split
    · rename_i same
      subst same
      simp only [found,Option.some.injEq,Prod.mk.injEq]
      constructor
      · intro h; cases h
      · rintro ⟨⟨rfl,_⟩,other⟩; exact absurd rfl other
    rename_i other
    simp only [found,Option.some.injEq,Prod.mk.injEq]
    constructor
    · rintro ⟨rfl,rfl⟩; exact ⟨⟨rfl,rfl⟩,other⟩
    · exact fun h => h.1
  rename_i found
  simp [found]

section

variable (owned : Owned target depth valid tables owner)
include owned

theorem assignSelf {f root path}
    (own : owner f = some (root,path)) : assign owner (root,path) (some f) = owner := by
  funext g
  unfold assign
  split
  · rename_i same
    cases Option.some.inj same
    exact own.symm
  rename_i other
  split
  · rename_i twice
    exact absurd (congrArg some (ownerUnique owned own twice)) other
  · rfl

theorem ownedWrite {f root path i e} (own : owner f = some (root,path))
    (short : path.length < depth) (ok : valid path i)
    (fresh : ∀ n, target e = some n → owner n = none ∨ owner n = some (root,path ++ [i]))
    (kept : path.length+1 < depth → ∀ g, owner g = some (root,path ++ [i]) → target e = some g)
    (empty : path.length+1 < depth → ∀ n, target e = some n → owner n = none → ∀ j, target (tables n j) = none) :
    Owned target depth valid (writeEntry tables f i e) (assign owner (root,path ++ [i]) (target e)) := by
  have self : assign owner (root,path ++ [i]) (target e) f = some (root,path) :=
    (assignOther fresh (roleApart root path i)).mpr own
  refine ⟨fun h r q k g ownH shortQ okQ points => ?_,fun g r q k ownG => ?_,fun h r ownH => ?_⟩
  · by_cases role : (r,q) = (root,path ++ [i])
    · cases role
      have isNew := assignRole.mp ownH
      have apart : h ≠ f := by
        rintro rfl
        rcases fresh h isNew with none | same
        · rw [own] at none; cases none
        · rw [own] at same; exact roleApart root path i (Option.some.inj same)
      rw [writeOther tables e (fun same => absurd same apart)] at points
      have below : path.length+1 < depth := by simpa using shortQ
      rcases fresh h isNew with none | same
      · rw [empty below h isNew none k] at points
        cases points
      refine (assignOther fresh ?_).mpr (owned.child h root _ k g same shortQ okQ points)
      intro again
      have lengths := congrArg (fun role => role.2.length) again
      simp at lengths
    have ownOld := (assignOther fresh role).mp ownH
    by_cases place : h = f ∧ k = i
    · obtain ⟨rfl,rfl⟩ := place
      rw [own] at ownOld
      cases Option.some.inj ownOld
      rw [writeSame] at points
      exact assignRole.mpr points
    rw [writeOther tables e (fun same again => place ⟨same,again⟩)] at points
    have ownG := owned.child h r q k g ownOld shortQ okQ points
    refine (assignOther fresh ?_).mpr ownG
    intro again
    have parts := Prod.mk.inj again
    obtain ⟨samePath,sameIndex⟩ := append_inj' parts.2 rfl
    rw [parts.1,samePath] at ownOld
    exact place ⟨ownerUnique owned ownOld own,singleton_inj.mp sameIndex⟩
  · by_cases role : (r,q ++ [k]) = (root,path ++ [i])
    · have parts := Prod.mk.inj role
      obtain ⟨samePath,sameIndex⟩ := append_inj' parts.2 rfl
      cases parts.1
      cases samePath
      cases singleton_inj.mp sameIndex
      exact ⟨short,ok,f,self,by rw [writeSame]; exact assignRole.mp ownG⟩
    obtain ⟨shortQ,okQ,h,ownH,points⟩ := owned.linked g r q k ((assignOther fresh role).mp ownG)
    have place : h = f → k ≠ i := by
      rintro rfl rfl
      rw [own] at ownH
      cases Option.some.inj ownH
      exact role rfl
    refine ⟨shortQ,okQ,h,?_,by rw [writeOther tables e place]; exact points⟩
    by_cases moved : (r,q) = (root,path ++ [i])
    · cases moved
      have below : path.length+1 < depth := by simpa using shortQ
      exact assignRole.mpr (kept below h ownH)
    · exact (assignOther fresh moved).mpr ownH
  by_cases role : (r,([] : List Nat)) = (root,path ++ [i])
  · simp at role
  · exact owned.root h r ((assignOther fresh role).mp ownH)

theorem ownedForget (root) :
    Owned target depth valid tables (forget owner root) := by
  refine ⟨fun f r path i g own short ok points => ?_,fun g r path i own => ?_,fun f r own => ?_⟩
  · obtain ⟨old,other⟩ := forgetSome.mp own
    exact forgetSome.mpr ⟨owned.child f r path i g old short ok points,other⟩
  · obtain ⟨old,other⟩ := forgetSome.mp own
    obtain ⟨short,ok,f,ownF,points⟩ := owned.linked g r path i old
    exact ⟨short,ok,f,forgetSome.mpr ⟨ownF,other⟩,points⟩
  · exact owned.root f r (forgetSome.mp own).1

theorem ownedPlant {r} (free : owner r = none)
    (empty : ∀ i, valid [] i → target (tables r i) = none) :
    Owned target depth valid tables (update owner r (some (r,[]))) := by
  have elsewhere f (h : f ≠ r) : update owner r (some (r,[])) f = owner f := update_of_ne h _ _
  refine ⟨fun f root path i g own short ok points => ?_,fun g root path i own => ?_,fun f root own => ?_⟩
  · by_cases same : f = r
    · subst same
      rw [update_self] at own
      cases Option.some.inj own
      rw [empty i ok] at points
      cases points
    rw [elsewhere f same] at own
    have ownG := owned.child f root path i g own short ok points
    have apart : g ≠ r := by rintro rfl; rw [free] at ownG; cases ownG
    rw [elsewhere g apart]
    exact ownG
  · by_cases same : g = r
    · subst same
      rw [update_self] at own
      have lengths := congrArg (fun role => role.2.length) (Option.some.inj own)
      simp at lengths
    rw [elsewhere g same] at own
    obtain ⟨short,ok,f,ownF,points⟩ := owned.linked g root path i own
    have apart : f ≠ r := by rintro rfl; rw [free] at ownF; cases ownF
    exact ⟨short,ok,f,by rw [elsewhere f apart]; exact ownF,points⟩
  by_cases same : f = r
  · subst same
    rw [update_self] at own
    exact congrArg Prod.fst (Option.some.inj own)
  rw [elsewhere f same] at own
  exact owned.root f root own

end

end Writing
end Miviex.RadixForest
