import Miviex.PageTableInvariant

/-! `vmm_map_page` keeps the forest of page tables, whether it succeeds or runs out of
memory half way. -/
namespace Miviex.Machine
open RadixForest

variable {strict : Prop} {leafOk : List Nat → Prop} {m : Machine} {owner : Owner}

section

variable (sane : Sane strict leafOk m owner)
include sane

theorem assignSame {f root path}
    (own : owner f = some (root,path)) : assign owner (root,path) (some f) = owner :=
  assignSelf sane.forest own

theorem grantedChild {f root path i}
    (own : owner f = some (root,path)) (short : path.length < 3) (valid : validIndex path i)
    (present : (m.tables f i).present = true) (user : (m.tables f i).user = true) : Granted m owner (m.tables f i).frame := by
  intro g r q k ownG shortG validG presentG frame
  have child := sane.forest.child f root path i _ own (by omega) valid (targetSome.mpr ⟨present,rfl⟩)
  have again := sane.forest.child g r q k _ ownG (by omega) validG (targetSome.mpr ⟨presentG,frame⟩)
  have parts := Prod.mk.inj (Option.some.inj (again.symm.trans child))
  obtain ⟨samePath,sameIndex⟩ := List.append_inj' parts.2 rfl
  rw [parts.1,samePath] at ownG
  cases ownerUnique sane.forest ownG own
  cases List.singleton_inj.mp sameIndex
  exact user

theorem grantedRoot {root} (own : IsRoot owner root) : Granted m owner root := by
  intro f r path i ownF short valid present frame
  have child := sane.forest.child f r path i _ ownF (by omega) valid (targetSome.mpr ⟨present,frame⟩)
  have lengths := congrArg (fun role => role.2.length) (Option.some.inj (child.symm.trans own))
  simp at lengths

end

theorem setUserFlags (flags : BitVec 12) :
    (flags ||| pageUser).getLsbD 0 = flags.getLsbD 0 ∧ (flags ||| pageUser).getLsbD 1 = flags.getLsbD 1 ∧
    (flags ||| pageUser).getLsbD 2 = true ∧ (flags ||| pageUser).getLsbD 7 = flags.getLsbD 7 := by
  simp [pageUser]

theorem linkFlagsBits (wantUser) : (linkFlags wantUser).getLsbD 0 = true ∧ (linkFlags wantUser).getLsbD 1 = true ∧
    (linkFlags wantUser).getLsbD 2 = wantUser ∧ (linkFlags wantUser).getLsbD 7 = false := by
  cases wantUser <;> decide

theorem lastTablePlain {f i} (plain : (m.tables f i).present = true → (m.tables f i).huge = false) (wantUser) :
    m.lastTable f i wantUser = m.nextTable f i wantUser := by
  unfold lastTable
  cases present : (m.tables f i).present with
  | false => simp [present]
  | true => simp [present,plain present]

def path (va : Nat) : List Nat := [index 39 va,index 30 va,index 21 va,index 12 va]

theorem indexBound (shift va) : index shift va < 512 := Nat.mod_lt _ (by decide)

theorem indexValid (q shift va) (deep : q ≠ []) : validIndex q (index shift va) :=
  ⟨indexBound shift va,fun h => absurd h deep⟩

theorem indexTop {va} (low : va < 2^47) : validIndex [] (index 39 va) := by
  refine ⟨indexBound 39 va,fun _ => ?_⟩
  unfold index
  omega

structure Maps (m : Machine) (owner : Owner) (phys : Frame) (role : Frame × List Nat) (done : Bool)
    (n : Machine) (after : Owner) : Prop where
  used : ∀ g, m.used g = true → n.used g = true
  others : ∀ g, m.used g = true → g ≠ phys → owner g ≠ some role → after g = owner g
  failed : done = false → m.used phys = true → after phys = owner phys
  mapped : done = true → after phys = some role

theorem keepsMaps {n after} (keeps : Keeps m owner n after) (phys)
    (role : Frame × List Nat) : Maps m owner phys role false n after :=
  ⟨keeps.used,fun g used _ _ => keeps.owner g used,fun _ used => keeps.owner phys used,fun h => by cases h⟩

/- The way of `vmm_map_page` down the levels: `At` is kept from table to table, `Fails` holds where
there is no memory for one. -/
theorem mapPageRule {as va phys flags done n} (At : Machine → Frame → List Nat → Prop) (Fails : Machine → Prop)
    (start : At m as.pml4 []) (low : va < 2^47)
    (plain : ∀ {m f q i}, At m f q → q.length < 3 → validIndex q i → (m.tables f i).present = true → (m.tables f i).huge = false)
    (step : ∀ {m f q i result n}, At m f q → q.length < 3 → validIndex q i →
    m.nextTable f i (flags.getLsbD 2) = (result,n) → result.elim (Fails n) (fun g => At n g (q ++ [i])))
    (map : m.vmmMapPage as va phys flags = (done,n)) : (done = false ∧ Fails n) ∨ ∃ mid pml1, done = true ∧
    At mid pml1 [index 39 va,index 30 va,index 21 va] ∧ n = mid.setEntry pml1 (index 12 va) ⟨phys,flags⟩ := by
  unfold vmmMapPage at map
  dsimp only at map
  cases first : m.nextTable as.pml4 (index 39 va) (flags.getLsbD 2) with
  | mk found3 m3 =>
  have at3 := step start (by decide) (indexTop low) first
  rw [first] at map
  cases found3 with
  | none => cases map; exact .inl ⟨rfl,at3⟩
  | some pml3 =>
  dsimp only at map
  cases second : m3.nextTable pml3 (index 30 va) (flags.getLsbD 2) with
  | mk found2 m2 =>
  have at2 := step at3 (by simp) (indexValid _ 30 va (by simp)) second
  rw [second] at map
  cases found2 with
  | none => cases map; exact .inl ⟨rfl,at2⟩
  | some pml2 =>
  dsimp only at map
  rw [lastTablePlain (plain at2 (by simp) (indexValid _ 21 va (by simp)))] at map
  cases third : m2.nextTable pml2 (index 21 va) (flags.getLsbD 2) with
  | mk found1 m1 =>
  have at1 := step at2 (by simp) (indexValid _ 21 va (by simp)) third
  rw [third] at map
  cases found1 with
  | none => cases map; exact .inl ⟨rfl,at1⟩
  | some pml1 => cases map; exact .inr ⟨m1,pml1,rfl,at1,rfl⟩

section

variable (sane : Sane strict leafOk m owner)
include sane

theorem setUserSane {f root path i}
    (own : owner f = some (root,path)) (short : path.length < 3) (valid : validIndex path i)
    (present : (m.tables f i).present = true) (granted : strict → Granted m owner f) :
    Sane strict leafOk (m.setEntry f i {m.tables f i with flags := (m.tables f i).flags ||| pageUser}) owner := by
  obtain ⟨presentBit,writeBit,userBit,hugeBit⟩ := setUserFlags (m.tables f i).flags
  have child := sane.forest.child f root path i _ own (by omega) valid (targetSome.mpr ⟨present,rfl⟩)
  have upper := sane.upper f root path i own short valid present
  let e : Entry := {m.tables f i with flags := (m.tables f i).flags ||| pageUser}
  have stays : e.present = true := presentBit.trans present
  have write : Writable strict leafOk m owner f root path i e := by
    refine ⟨own,by omega,valid,fun _ => ⟨?_,.inr child⟩,fun _ g role => ⟨stays,?_⟩,?_,?_,?_,?_,?_⟩
    · exact sane.used _ (by rw [child]; simp)
    · exact ownerUnique sane.forest child role
    · intro _ _ free
      rw [show owner e.frame = _ from child] at free
      cases free
    · exact fun _ _ => ⟨writeBit.trans upper.1,hugeBit.trans upper.2⟩
    · intro last; omega
    · exact fun _ _ _ _ _ _ => userBit
    · exact fun isStrict _ _ => granted isStrict
  have after := saneWrite sane write
  have points : target e = some (m.tables f i).frame := targetSome.mpr ⟨stays,rfl⟩
  rw [points,assignSame sane child] at after
  exact after

theorem nextTableSane {f root path i wantUser result n} (own : owner f = some (root,path))
    (short : path.length < 3) (valid : validIndex path i) (granted : strict → wantUser = true → Granted m owner f)
    (next : m.nextTable f i wantUser = (result,n)) : ∃ after, Sane strict leafOk n after ∧ Keeps m owner n after ∧
    ∀ g, result = some g → after g = some (root,path ++ [i]) ∧ (strict → wantUser = true → Granted n after g) := by
  unfold nextTable at next
  dsimp only at next
  split at next
  · rename_i present
    cases next
    have child := sane.forest.child f root path i _ own (by omega) valid (targetSome.mpr ⟨present,rfl⟩)
    cases wantUser with
    | false =>
      refine ⟨owner,sane,keepsRefl m owner,fun g found => ?_⟩
      cases Option.some.inj found
      exact ⟨child,fun _ h => by cases h⟩
    | true =>
    have after := setUserSane sane own short valid present (fun isStrict => granted isStrict rfl)
    refine ⟨owner,after,keepsUsed (fun _ h => h),fun g found => ?_⟩
    cases Option.some.inj found
    obtain ⟨presentBit,_,userBit,_⟩ := setUserFlags (m.tables f i).flags
    have here := writeSame m.tables f i {m.tables f i with flags := (m.tables f i).flags ||| pageUser}
    refine ⟨child,fun _ _ => ?_⟩
    have grants := grantedChild after own short valid (by rw [setEntryTables,here]; exact presentBit.trans present)
      (by rw [setEntryTables,here]; exact userBit)
    rw [setEntryTables,here] at grants
    exact grants
  rename_i absent
  cases alloc : m.allocZeroedTable with
  | mk found mid =>
  rw [alloc] at next
  cases found with
  | none =>
    cases next
    obtain ⟨after,keeps⟩ := (allocTableIdle alloc).sane sane
    exact ⟨owner,after,keeps,fun g h => by cases h⟩
  | some g =>
  cases next
  obtain ⟨mid,takes,rfl⟩ := allocTableTakes alloc
  obtain ⟨saneMid,keeps,free,taken⟩ := takes.sane sane
  have after : Sane strict leafOk (mid.setTable g (fun _ => .zero)) owner := saneSetTable saneMid free
  obtain ⟨presentBit,writeBit,userBit,hugeBit⟩ := linkFlagsBits wantUser
  have grantedMid : strict → wantUser = true → Granted (mid.setTable g (fun _ => .zero)) owner f := by
    intro isStrict want h r q k ownH shortH validH presentH frame
    have away : h ≠ g := by rintro rfl; rw [ownH] at free; cases free
    rw [setTableOther _ _ away,takes.tables] at presentH frame ⊢
    exact granted isStrict want h r q k ownH shortH validH presentH frame
  have noRole := vacantRole sane.forest own (if_neg absent)
  have write : Writable strict leafOk (mid.setTable g (fun _ => .zero)) owner f root path i ⟨g,linkFlags wantUser⟩ := by
    refine ⟨own,by omega,valid,fun _ => ⟨taken,.inl free⟩,fun _ h role => absurd role (noRole h),
      fun _ _ _ j => ?_,fun _ _ => ⟨writeBit,hugeBit⟩,?_,fun _ _ _ j there => ?_,?_⟩
    · rw [setTableSame]; rfl
    · intro last; omega
    · rw [setTableSame] at there; cases there
    intro isStrict _ user
    exact grantedMid isStrict (userBit.symm.trans user)
  have linked := saneWrite after write
  have points : target ⟨g,linkFlags wantUser⟩ = some g := targetSome.mpr ⟨presentBit,rfl⟩
  rw [points] at linked
  have ownG : assign owner (root,path ++ [i]) (some g) g = some (root,path ++ [i]) := assignRole.mpr rfl
  have fresh h (same : some g = some h) : owner h = none ∨ owner h = some (root,path ++ [i]) := by
    cases Option.some.inj same
    exact .inl free
  have ownF : assign owner (root,path ++ [i]) (some g) f = some (root,path) :=
    (assignOther fresh (roleApart root path i)).mpr own
  refine ⟨_,linked,⟨keeps.used,fun h used => ?_⟩,fun h found => ?_⟩
  · exact assignElse (takes.other used) (noRole h)
  cases Option.some.inj found
  refine ⟨ownG,fun _ want => ?_⟩
  have here := writeSame (mid.setTable g (fun _ => .zero)).tables f i ⟨g,linkFlags wantUser⟩
  have grants := grantedChild linked ownF short valid (by rw [setEntryTables,here]; exact presentBit)
    (by rw [setEntryTables,here]; exact userBit.trans want)
  rw [setEntryTables,here] at grants
  exact grants

theorem mapPageSane {as va phys flags done n} (own : IsRoot owner as.pml4) (low : va < 2^47)
    (taken : m.used phys = true) (role : owner phys = none ∨ owner phys = some (as.pml4,path va))
    (ok : leafOk (path va)) (present : flags.getLsbD 0 = true) (map : m.vmmMapPage as va phys flags = (done,n)) :
    ∃ after, Sane strict leafOk n after ∧ Maps m owner phys (as.pml4,path va) done n after := by
  have ends := mapPageRule (fun p f q => ∃ after, Sane strict leafOk p after ∧ Keeps m owner p after ∧
      after f = some (as.pml4,q) ∧ (strict → flags.getLsbD 2 = true → Granted p after f))
    (fun p => ∃ after, Sane strict leafOk p after ∧ Keeps m owner p after)
    ⟨owner,sane,keepsRefl m owner,own,fun _ _ => grantedRoot sane own⟩ low ?_ ?_ map
  · obtain ⟨rfl,after,saneN,keeps⟩ | ⟨m1,pml1,rfl,⟨owner1,sane1,keeps,own1,granted1⟩,rfl⟩ := ends
    · exact ⟨after,saneN,keepsMaps keeps phys _⟩
    have physSame := keeps.owner phys taken
    have write : Writable strict leafOk m1 owner1 pml1 as.pml4 [index 39 va,index 30 va,index 21 va]
        (index 12 va) ⟨phys,flags⟩ := by
      refine ⟨own1,by simp,indexValid _ 12 va (by simp),fun _ => ⟨keeps.used phys taken,?_⟩,?_,?_,?_,
        fun _ _ => ok,?_,fun isStrict _ user => granted1 isStrict user⟩
      · rw [physSame]
        exact role
      · intro short; simp at short
      · intro short; simp at short
      · intro short; simp at short
      · intro _ short; simp at short
    have points : target ⟨phys,flags⟩ = some phys := targetSome.mpr ⟨present,rfl⟩
    refine ⟨_,saneWrite sane1 write,keeps.used,fun g used other apart => ?_,(fun h => by cases h),
      fun _ => assignRole.mpr points⟩
    have same := keeps.owner g used
    unfold assign
    split
    · rename_i points
      exact absurd (targetSome.mp points).2.symm other
    split
    · rename_i holder
      rw [same] at holder
      exact absurd holder apart
    · exact same
  · rintro p f q i ⟨after,saneP,_,ownF,_⟩ short valid there
    exact (saneP.upper f as.pml4 q i ownF short valid there).2
  · rintro p f q i result n ⟨after,saneP,keeps,ownF,granted⟩ short valid next
    obtain ⟨last,saneN,keepsN,facts⟩ := nextTableSane saneP ownF short valid granted next
    have whole := keepsTrans keeps keepsN
    cases result with
    | none => exact ⟨last,saneN,whole⟩
    | some g => exact ⟨last,saneN,whole,facts g rfl⟩

end

end Miviex.Machine
