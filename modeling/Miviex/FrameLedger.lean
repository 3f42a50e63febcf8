import Miviex.SpaceCopy

/-! A ledger of frames: each frame in use has one role. Those in use from the start belong to
others, a caller holds some, the rest are tables or pages of address spaces; a frame nobody can
give back is lost. -/
namespace Miviex.Machine
open List Option
open Function (update update_of_ne update_self)
open RadixForest

inductive Role where
  | outside
  | held
  | lost
  | table (root : Frame) (q : List Nat)
  | page (root : Frame) (q : List Nat)
  deriving DecidableEq

def tableOwner (role : Frame → Option Role) : Owner := fun f =>
  match role f with
  | some (.table root q) => some (root,q)
  | _ => none

structure Ledger (start : Machine) (roots held lost : List Frame) (m : Machine) (role : Frame → Option Role) : Prop where
  used : ∀ f, m.used f = true ↔ role f ≠ none
  outside : ∀ f, role f = some .outside ↔ start.used f = true
  holds : ∀ f, role f = some .held ↔ f ∈ held
  distinct : held.Nodup ∧ lost.Nodup
  loses : ∀ f, role f = some .lost ↔ f ∈ lost
  trees : Trees m (tableOwner role)
  tops : ∀ r, role r = some (.table r []) ↔ r ∈ roots
  page : ∀ r q f, role f = some (.page r q) ↔ r ∈ roots ∧ ∃ x e, x < 2^47 ∧ path x = q ∧ m.leaf r x = some e ∧ e.frame = f
  boot : m.boot = start.boot
  reserved : ∀ i, start.used (start.boot i).frame = true

variable {start m n : Machine} {roots held lost : List Frame} {role : Frame → Option Role} {after : Owner}

theorem tableOwnerSome {f root q} : tableOwner role f = some (root,q) ↔ role f = some (.table root q) := by
  unfold tableOwner
  split
  · rename_i found
    simp [found]
  · rename_i other
    exact iff_of_false nofun (other root q)

theorem tableOwnerNone {f} : tableOwner role f = none ↔ ∀ root q, role f ≠ some (.table root q) := by
  simp only [eq_none_iff_forall_ne_some,Prod.forall,ne_eq,tableOwnerSome]

section

variable (ledger : Ledger start roots held lost m role)
include ledger

theorem Ledger.own {r} (member : r ∈ roots) : IsRoot (tableOwner role) r := tableOwnerSome.mpr ((ledger.tops r).mpr member)

theorem Ledger.free {f} (unused : m.used f = false) : role f = none := by
  by_contra some_
  rw [(ledger.used f).mpr some_] at unused
  cases unused

theorem Ledger.taken {f ρ} (found : role f = some ρ) :
    m.used f = true := (ledger.used f).mpr (by rw [found]; exact some_ne_none ρ)

theorem Ledger.leafRole {r x e} (member : r ∈ roots)
    (low : x < 2^47) (found : m.leaf r x = some e) : role e.frame = some (.page r (path x)) :=
  (ledger.page r _ _).mpr ⟨member,x,e,low,rfl,found,rfl⟩

theorem Ledger.idle (idle : Idle m n) : Ledger start roots held lost n role := by
  refine ⟨fun f => by rw [idle.used]; exact ledger.used f,ledger.outside,ledger.holds,ledger.distinct,ledger.loses,
    idle.trees ledger.trees,ledger.tops,fun r q f => ?_,idle.boot.trans ledger.boot,ledger.reserved⟩
  simp only [leafTables idle.tables]
  exact ledger.page r q f

end

theorem tableOwnerUpdate {f ρ} (before : tableOwner role f = none)
    (now : ∀ root q, ρ ≠ some (.table root q)) : tableOwner (update role f ρ) = tableOwner role := by
  funext g
  by_cases same : g = f
  · subst same
    rw [before,tableOwnerNone]
    intro root q
    rw [update_self]
    exact now root q
  unfold tableOwner
  rw [update_of_ne same]

theorem roleKept {f ρ σ} (none : role f = none) (differ : ρ ≠ σ) (g) : update role f (some σ) g = some ρ ↔ role g = some ρ := by
  by_cases same : g = f
  · subst same
    rw [update_self,none]
    exact ⟨fun h => absurd (Option.some.inj h).symm differ,fun h => (by cases h)⟩
  · rw [update_of_ne same]

theorem roleJoins {f σ l} (members : ∀ g, role g = some σ ↔ g ∈ l) (g) : update role f (some σ) g = some σ ↔ g ∈ f::l := by
  by_cases same : g = f
  · subst same
    rw [update_self]
    exact ⟨fun _ => mem_cons_self,fun _ => rfl⟩
  rw [update_of_ne same,members g,mem_cons]
  exact ⟨.inr,fun h => h.resolve_left same⟩

theorem roleLeaves {f ρ σ} {l : List Frame} (distinct : l.Nodup) (differ : σ ≠ ρ)
    (members : ∀ g, role g = some ρ ↔ g ∈ l) (g) : update role f (some σ) g = some ρ ↔ g ∈ l.erase f := by
  rw [distinct.mem_erase_iff]
  by_cases same : g = f
  · subst same
    rw [update_self]
    exact ⟨fun h => absurd (Option.some.inj h) differ,fun h => absurd rfl h.1⟩
  rw [update_of_ne same,members g]
  exact ⟨fun h => ⟨same,h⟩,And.right⟩

theorem roleUsed {f σ used} (all : ∀ g, used g = true ↔ role g ≠ none) (g) :
    update used f true g = true ↔ update role f (some σ) g ≠ none := by
  by_cases same : g = f
  · subst same
    rw [update_self,update_self]
    exact ⟨fun _ => some_ne_none σ,fun _ => rfl⟩
  rw [update_of_ne same,update_of_ne same]
  exact all g

theorem Ledger.takes (ledger : Ledger start roots held lost m role) {f} (takes : Takes f m n) :
    Ledger start roots held (f::lost) n (update role f (some .lost)) ∧
    Ledger start roots (f::held) lost n (update role f (some .held)) := by
  have none := ledger.free takes.free
  have leaf := leafTables takes.tables
  have unowned : tableOwner role f = Option.none := by simp [tableOwnerNone,none]
  have fresh σ (l : List Frame) (members : ∀ g, role g = some σ ↔ g ∈ l) : f ∉ l := by
    rw [← members,none]
    nofun
  -- whichever of the two it becomes, the rest is as before
  have added σ held' lost' (noTable : ∀ r q, σ ≠ .table r q) (noPage : ∀ r q, σ ≠ .page r q) (inside : σ ≠ .outside)
      (holds : ∀ g, update role f (some σ) g = some .held ↔ g ∈ held') (distinct : held'.Nodup ∧ lost'.Nodup)
      (loses : ∀ g, update role f (some σ) g = some .lost ↔ g ∈ lost') :
      Ledger start roots held' lost' n (update role f (some σ)) := by
    refine ⟨fun g => by rw [takes.used]; exact roleUsed ledger.used g,
      fun g => (roleKept none inside.symm g).trans (ledger.outside g),holds,distinct,loses,?_,
      fun r => (roleKept none (noTable r []).symm r).trans (ledger.tops r),fun r q g => ?_,
      takes.boot.trans ledger.boot,ledger.reserved⟩
    · rw [tableOwnerUpdate unowned (by simpa using noTable)]
      exact takes.trees ledger.trees
    · simp only [roleKept none (noPage r q).symm g,leaf]
      exact ledger.page r q g
  constructor
  · exact added .lost held (f::lost) nofun nofun nofun (fun g => (roleKept none (by simp) g).trans (ledger.holds g))
      ⟨ledger.distinct.1,nodup_cons.mpr ⟨fresh _ _ ledger.loses,ledger.distinct.2⟩⟩ (roleJoins ledger.loses)
  · exact added .held (f::held) lost nofun nofun nofun (roleJoins ledger.holds)
      ⟨nodup_cons.mpr ⟨fresh _ _ ledger.holds,ledger.distinct.1⟩,ledger.distinct.2⟩
      (fun g => (roleKept none (by simp) g).trans (ledger.loses g))

def withTables (role : Frame → Option Role) (after : Owner) : Frame → Option Role := fun f =>
  match after f with
  | some (root,q) => some (.table root q)
  | none => role f

theorem withTablesOwner (kept : ∀ g q, tableOwner role g = some q → after g = some q) :
    tableOwner (withTables role after) = after := by
  funext g
  cases own : after g with
  | some place => exact tableOwnerSome.mpr (by unfold withTables; rw [own])
  | none =>
  rw [tableOwnerNone]
  intro root q found
  unfold withTables at found
  rw [own] at found
  have again := kept g _ (tableOwnerSome.mpr found)
  rw [own] at again
  cases again

theorem Ledger.grows (ledger : Ledger start roots held lost m role) {root} (member : root ∈ roots)
    (grows : Grows root m (tableOwner role) n after) (trees : Trees n after) :
    Ledger start roots held lost n (withTables role after) ∧ ∀ g, m.used g = true → withTables role after g = role g := by
  have stays g q (own : tableOwner role g = some q) : after g = some q :=
    (grows.stays g (ledger.trees.owned own)).trans own
  have same g (taken : m.used g = true) : withTables role after g = role g := by
    unfold withTables
    rw [grows.stays g taken]
    cases own : tableOwner role g with
    | none => rfl
    | some place => exact (tableOwnerSome.mp own).symm
  have others : ∀ {g ρ}, (∀ root q, ρ ≠ Role.table root q) → (withTables role after g = some ρ ↔ role g = some ρ) := by
    intro g ρ noTable
    refine ⟨fun found => ?_,fun found => (same g (ledger.taken found)).trans found⟩
    unfold withTables at found
    cases own : after g with
    | none => rwa [own] at found
    | some place =>
      rw [own] at found
      exact absurd (Option.some.inj found).symm (noTable place.1 place.2)
  refine ⟨⟨fun g => ?_,fun g => (others (by simp)).trans (ledger.outside g),
    fun g => (others (by simp)).trans (ledger.holds g),ledger.distinct,fun g => (others (by simp)).trans (ledger.loses g),
    ?_,fun r => ?_,fun r q g => ?_,grows.boot.trans ledger.boot,ledger.reserved⟩,same⟩
  · cases taken : m.used g with
    | true =>
      rw [same g taken]
      exact ⟨fun _ => (ledger.used g).mp taken,fun _ => grows.used g taken⟩
    | false =>
    cases own : after g with
    | none =>
      refine ⟨fun now => ?_,fun some_ => ?_⟩
      · obtain ⟨q,again⟩ := grows.fresh g now taken
        cases own.symm.trans again
      unfold withTables at some_
      rw [own] at some_
      exact absurd (ledger.free taken) some_
    | some place => simp [withTables,own,trees.owned own]
  · rw [withTablesOwner stays]
    exact trees
  · rw [← ledger.tops r]
    cases taken : m.used r with
    | true => rw [same r taken]
    | false =>
    rw [ledger.free taken]
    refine ⟨fun found => ?_,nofun⟩
    have own : IsRoot after r := by
      rw [← withTablesOwner stays]
      exact tableOwnerSome.mpr found
    obtain ⟨q,again⟩ := grows.fresh r (trees.owned own) taken
    have isRoot : r = root := congrArg Prod.fst (Option.some.inj (own.symm.trans again))
    rw [isRoot,ledger.trees.owned (ledger.own member)] at taken
    cases taken
  rw [others (by simp),ledger.page r q g]
  refine and_congr_right (fun inRoots => exists₂_congr (fun x e => and_congr_right (fun low => ?_)))
  rw [grows.leaf ledger.trees trees (ledger.own inRoots) low]

section Leaves
variable {root table va : Nat} {e d : Entry}

section

variable (ledger : Ledger start roots held lost m role)
include ledger

section

variable (own : tableOwner role table = some (root,tablePath va))
include own

theorem Ledger.setLeaf
    {roleN heldN lostN} (sameTables : tableOwner roleN = tableOwner role)
    (used : ∀ f, m.used f = true ↔ roleN f ≠ none) (outside : ∀ f, roleN f = some .outside ↔ role f = some .outside)
    (holds : ∀ f, roleN f = some .held ↔ f ∈ heldN) (loses : ∀ f, roleN f = some .lost ↔ f ∈ lostN)
    (distinct : heldN.Nodup ∧ lostN.Nodup)
    (page : ∀ r ∈ roots, ∀ q f, roleN f = some (.page r q) ↔ ∃ x c, x < 2^47 ∧ path x = q ∧
    (if r = root ∧ path x = path va then (if e.present then some e else none) else m.leaf r x) = some c ∧ c.frame = f)
    (known : ∀ r q f, roleN f = some (.page r q) → r ∈ roots) :
    Ledger start roots heldN lostN (m.setEntry table (index 12 va) e) roleN := by
  refine ⟨used,fun f => (outside f).trans (ledger.outside f),holds,distinct,loses,?_,fun r => ?_,fun r q f => ?_,
    ledger.boot,ledger.reserved⟩
  · rw [sameTables]
    exact ledger.trees.setLeaf own rfl
  · rw [← ledger.tops r,← tableOwnerSome,← tableOwnerSome,sameTables]
  constructor
  · intro found
    have member := known r q f found
    obtain ⟨x,c,low,place,leaf,frame⟩ := (page r member q f).mp found
    exact ⟨member,x,c,low,place,(setLeafLeaf ledger.trees (ledger.own member) low own).trans leaf,frame⟩
  rintro ⟨member,x,c,low,place,leaf,frame⟩
  rw [setLeafLeaf ledger.trees (ledger.own member) low own] at leaf
  exact (page r member q f).mpr ⟨x,c,low,place,leaf,frame⟩

theorem Ledger.setSame (mapped : m.leaf root va = some d) (frame : e.frame = d.frame) (present : e.present = true) :
    Ledger start roots held lost (m.setEntry table (index 12 va) e) role := by
  refine ledger.setLeaf own rfl ledger.used (fun _ => Iff.rfl) ledger.holds ledger.loses ledger.distinct (fun r inRoots q f => ?_)
    (fun r q f found => ((ledger.page r q f).mp found).1)
  rw [ledger.page r q f,present,if_pos rfl]
  constructor
  · rintro ⟨_,x,c,lowX,place,found,isF⟩
    by_cases here : r = root ∧ path x = path va
    · refine ⟨x,e,lowX,place,by rw [if_pos here],?_⟩
      obtain ⟨rfl,same⟩ := here
      rw [leafPath same,mapped] at found
      cases found
      rw [frame,isF]
    · exact ⟨x,c,lowX,place,by rw [if_neg here]; exact found,isF⟩
  rintro ⟨x,c,lowX,place,found,isF⟩
  refine ⟨inRoots,?_⟩
  split at found
  · rename_i here
    obtain ⟨rfl,same⟩ := here
    cases found
    exact ⟨x,d,lowX,place,(leafPath same).trans mapped,by rw [← frame,isF]⟩
  · exact ⟨x,c,lowX,place,found,isF⟩

end

theorem Ledger.setPage (member : root ∈ roots)
    (own : tableOwner role table = some (root,tablePath va)) (low : va < 2^47) (unmapped : m.leaf root va = none)
    (spare : role e.frame = some .held ∨ role e.frame = some .lost) (present : e.present = true) :
    Ledger start roots (held.erase e.frame) (lost.erase e.frame) (m.setEntry table (index 12 va) e)
    (update role e.frame (some (.page root (path va)))) := by
  have only ρ (found : role e.frame = some ρ) : ρ = .held ∨ ρ = .lost := by
    rcases spare with one | two
    · exact .inl (Option.some.inj (found.symm.trans one))
    · exact .inr (Option.some.inj (found.symm.trans two))
  have unowned : tableOwner role e.frame = none := by
    rw [tableOwnerNone]
    intro root' q found
    rcases only _ found with h | h <;> cases h
  refine ledger.setLeaf own (tableOwnerUpdate unowned (by simp)) (fun f => ?_) (fun f => ?_)
    (roleLeaves ledger.distinct.1 (by simp) ledger.holds) (roleLeaves ledger.distinct.2 (by simp) ledger.loses)
    ⟨ledger.distinct.1.erase _,ledger.distinct.2.erase _⟩ (fun r inRoots q f => ?_) (fun r q f found => ?_)
  · by_cases same : f = e.frame
    · rw [same,update_self,ledger.used]
      rcases spare with one | two
      · simp [one]
      · simp [two]
    rw [update_of_ne same]
    exact ledger.used f
  · by_cases same : f = e.frame
    · rw [same,update_self]
      refine ⟨nofun,fun h => ?_⟩
      rcases only _ h with h | h <;> cases h
    · rw [update_of_ne same]
  · rw [present,if_pos rfl]
    by_cases same : f = e.frame
    · subst same
      rw [update_self]
      constructor
      · intro h
        cases h
        exact ⟨va,e,low,rfl,by rw [if_pos ⟨rfl,rfl⟩],rfl⟩
      rintro ⟨x,c,lowX,place,found,isF⟩
      split at found
      · rename_i here
        rw [here.1,← place,here.2]
      rcases only _ (isF ▸ ledger.leafRole inRoots lowX found) with h | h <;> cases h
    rw [update_of_ne same,ledger.page r q f]
    constructor
    · rintro ⟨_,x,c,lowX,place,found,isF⟩
      refine ⟨x,c,lowX,place,?_,isF⟩
      rw [if_neg,found]
      rintro ⟨rfl,again⟩
      rw [leafPath again,unmapped] at found
      cases found
    rintro ⟨x,c,lowX,place,found,isF⟩
    split at found
    · cases found
      exact absurd isF.symm same
    · exact ⟨inRoots,x,c,lowX,place,found,isF⟩
  by_cases same : f = e.frame
  · rw [same,update_self] at found
    cases found
    exact member
  rw [update_of_ne same] at found
  exact ((ledger.page r q f).mp found).1

theorem Ledger.clearPage (member : root ∈ roots)
    (own : tableOwner role table = some (root,tablePath va)) (low : va < 2^47) (mapped : m.leaf root va = some d) :
    Ledger start roots held lost ((m.pmmFreePage d.frame).setEntry table (index 12 va) .zero) (update role d.frame none) := by
  have isPage := ledger.leafRole member low mapped
  have unowned : tableOwner role d.frame = none := by simp [tableOwnerNone,isPage]
  have kept : ∀ {g ρ}, (∀ r q, ρ ≠ Role.page r q) → (update role d.frame none g = some ρ ↔ role g = some ρ) := by
    intro g ρ noPage
    by_cases same : g = d.frame
    · subst same
      rw [update_self,isPage]
      exact ⟨nofun,fun h => absurd (Option.some.inj h).symm (noPage _ _)⟩
    · rw [update_of_ne same]
  have freed : Trees (m.pmmFreePage d.frame) (tableOwner role) := by
    refine ledger.trees.outside rfl (fun _ _ => rfl) (fun g held => ?_) (fun i => ?_)
    · have other : g ≠ d.frame := by
        rintro rfl
        exact held unowned
      exact (update_of_ne other _ _).trans (ledger.trees.used g held)
    have other : (m.boot i).frame ≠ d.frame := by
      intro same
      have reserved := (ledger.outside _).mpr (ledger.reserved i)
      rw [← ledger.boot,same,isPage] at reserved
      cases reserved
    exact (update_of_ne other _ _).trans (ledger.trees.boot i).1
  refine ⟨fun g => ?_,fun g => (kept (by simp)).trans (ledger.outside g),fun g => (kept (by simp)).trans (ledger.holds g),
    ledger.distinct,fun g => (kept (by simp)).trans (ledger.loses g),?_,fun r => (kept (by simp)).trans (ledger.tops r),
    fun r q g => ?_,ledger.boot,ledger.reserved⟩
  · change update m.used d.frame false g = true ↔ _
    by_cases same : g = d.frame
    · simp [same]
    rw [update_of_ne same,update_of_ne same]
    exact ledger.used g
  · rw [tableOwnerUpdate unowned (by simp)]
    exact freed.setLeaf own rfl
  have leaf x (inRoots : r ∈ roots) (lowX : x < 2^47) :
      ((m.pmmFreePage d.frame).setEntry table (index 12 va) Entry.zero).leaf r x =
        if r = root ∧ path x = path va then none else m.leaf r x :=
    setLeafLeaf freed (ledger.own inRoots) lowX own
  constructor
  · intro found
    have other : g ≠ d.frame := by
      rintro rfl
      rw [update_self] at found
      cases found
    rw [update_of_ne other] at found
    obtain ⟨inRoots,x,c,lowX,place,mappedX,frame⟩ := (ledger.page r q g).mp found
    refine ⟨inRoots,x,c,lowX,place,?_,frame⟩
    rw [leaf x inRoots lowX,if_neg,mappedX]
    rintro ⟨rfl,same⟩
    rw [leafPath same,mapped] at mappedX
    cases mappedX
    exact other frame.symm
  rintro ⟨inRoots,x,c,lowX,place,mappedX,frame⟩
  rw [leaf x inRoots lowX] at mappedX
  split at mappedX
  · cases mappedX
  rename_i elsewhere
  have role := ledger.leafRole inRoots lowX mappedX
  have other : g ≠ d.frame := by
    rintro rfl
    rw [frame,isPage,Option.some.injEq,Role.page.injEq] at role
    exact elsewhere ⟨role.1.symm,role.2.symm⟩
  rw [update_of_ne other]
  exact (ledger.page r q g).mpr ⟨inRoots,x,c,lowX,place,mappedX,frame⟩

end

end Leaves

def withoutRoot (role : Frame → Option Role) (root : Frame) : Frame → Option Role := fun f =>
  match role f with
  | some (.table r q) => if r = root then none else some (.table r q)
  | some (.page r q) => if r = root then none else some (.page r q)
  | other => other

theorem withoutRootSome {root f ρ} : withoutRoot role root f = some ρ ↔
    role f = some ρ ∧ (∀ q, ρ ≠ .table root q) ∧ ∀ q, ρ ≠ .page root q := by
  unfold withoutRoot
  cases role f with
  | none => simp
  | some σ =>
  cases σ with
  | table r q | page r q =>
    by_cases same : r = root
    · simp only [same,if_true,reduceCtorEq,Option.some.injEq,false_iff]
      rintro ⟨rfl,noTable,noPage⟩
      simp at noTable noPage
    · simp only [same,if_false,Option.some.injEq,iff_self_and]
      rintro rfl
      simp [same]
  | outside | held | lost =>
    simp only [Option.some.injEq,iff_self_and]
    rintro rfl
    simp

section

variable (ledger : Ledger start roots held lost m role)
include ledger

theorem Ledger.created {as} (created : Created as m (tableOwner role) n) :
    Ledger start (as.pml4::roots) held lost n (update role as.pml4 (some (.table as.pml4 []))) := by
  have none := ledger.free created.takes.1
  have kept : ∀ {g ρ}, ρ ≠ Role.table as.pml4 [] →
    (update role as.pml4 (some (.table as.pml4 [])) g = some ρ ↔ role g = some ρ) := fun differ => roleKept none differ _
  have owner : tableOwner (update role as.pml4 (some (.table as.pml4 []))) =
      update (tableOwner role) as.pml4 (some (as.pml4,[])) := by
    funext g
    by_cases same : g = as.pml4
    · subst same
      rw [update_self]
      exact tableOwnerSome.mpr (update_self _ _ _)
    rw [update_of_ne same]
    unfold tableOwner
    rw [update_of_ne same]
  refine ⟨fun g => ?_,fun g => (kept (by simp)).trans (ledger.outside g),fun g => (kept (by simp)).trans (ledger.holds g),
    ledger.distinct,fun g => (kept (by simp)).trans (ledger.loses g),owner ▸ created.trees,fun r => ?_,fun r q g => ?_,
    created.boot.trans ledger.boot,ledger.reserved⟩
  · rw [created.takes.2]
    exact roleUsed ledger.used g
  · by_cases same : r = as.pml4
    · simp [same]
    rw [update_of_ne same,ledger.tops r,mem_cons]
    exact ⟨.inr,fun h => h.resolve_left same⟩
  rw [kept (by simp),ledger.page r q g]
  constructor
  · rintro ⟨inRoots,x,e,low,place,found,frame⟩
    exact ⟨mem_cons_of_mem _ inRoots,x,e,low,place,(created.leaf ledger.trees (ledger.own inRoots) low).trans found,frame⟩
  rintro ⟨inRoots,x,e,low,place,found,frame⟩
  rcases mem_cons.mp inRoots with rfl | old
  · rw [created.empty x low] at found
    cases found
  · exact ⟨old,x,e,low,place,(created.leaf ledger.trees (ledger.own old) low).symm.trans found,frame⟩

theorem Ledger.below {root g} (member : root ∈ roots) :
    Below m (tableOwner role) root [] g ↔ ∃ q, role g = some (.table root q) ∨ role g = some (.page root q) := by
  rw [belowLeaf ledger.trees (ledger.own member),exists_or]
  refine or_congr (exists_congr (fun q => tableOwnerSome)) ?_
  constructor
  · rintro ⟨x,e,low,found,rfl⟩
    exact ⟨_,ledger.leafRole member low found⟩
  rintro ⟨q,found⟩
  obtain ⟨_,x,e,low,_,mapped,frame⟩ := (ledger.page root q g).mp found
  exact ⟨x,e,low,mapped,frame⟩

theorem Ledger.destroyed {as} (member : as.pml4 ∈ roots)
    (distinct : roots.Nodup) :
    Ledger start (roots.erase as.pml4) held lost (m.vmmDestroyAddressSpace as) (withoutRoot role as.pml4) := by
  have clears := destroyClears ledger.trees (ledger.own member)
  have owner : tableOwner (withoutRoot role as.pml4) = forget (tableOwner role) as.pml4 := by
    funext g
    refine Option.ext (fun place => ?_)
    rw [tableOwnerSome,withoutRootSome,forgetSome,tableOwnerSome]
    refine and_congr_right (fun _ => ⟨fun h same => h.1 place.2 (by rw [← same]),fun h => ⟨fun q same => ?_,by simp⟩⟩)
    exact h (Role.table.inj same).1
  have keeps g ρ : withoutRoot role as.pml4 g = some ρ ↔ role g = some ρ ∧ ¬ Below m (tableOwner role) as.pml4 [] g := by
    rw [withoutRootSome,ledger.below member]
    refine and_congr_right (fun found => ?_)
    simp only [found,Option.some.injEq,not_exists,not_or,forall_and,ne_eq]
  have plain g ρ (noTable : ∀ r q, ρ ≠ Role.table r q) (noPage : ∀ r q, ρ ≠ Role.page r q) :
      withoutRoot role as.pml4 g = some ρ ↔ role g = some ρ :=
    withoutRootSome.trans (and_iff_left ⟨noTable _,noPage _⟩)
  have leaf := leafTables clears.tables
  have trees : Trees (m.vmmDestroyAddressSpace as) (forget (tableOwner role) as.pml4) := by
    have old := ledger.trees
    have reserved i : withoutRoot role as.pml4 (m.boot i).frame = some .outside := by
      rw [plain _ _ (by simp) (by simp),ledger.outside,ledger.boot]
      exact ledger.reserved i
    constructor <;> try simp only [clears.tables,clears.boot]
    case forest => exact ownedForget old.forest as.pml4
    case used =>
      intro g held
      obtain ⟨⟨r,q⟩,own⟩ := ne_none_iff_exists'.mp held
      rw [← owner,tableOwnerSome,keeps] at own
      exact (clears.used g).mpr ⟨ledger.taken own.1,own.2⟩
    case plain => exact fun g r q i own => old.plain g r q i (forgetSome.mp own).1
    case kernel => exact fun r i own => old.kernel r i (forgetSome.mp own).1
    case boot =>
      refine fun i => ⟨(clears.used _).mpr ⟨(old.boot i).1,((keeps _ _).mp (reserved i)).2⟩,?_⟩
      simp [← owner,tableOwnerNone,reserved i]
  refine ⟨fun g => ?_,fun g => (plain g _ (by simp) (by simp)).trans (ledger.outside g),
    fun g => (plain g _ (by simp) (by simp)).trans (ledger.holds g),ledger.distinct,
    fun g => (plain g _ (by simp) (by simp)).trans (ledger.loses g),owner ▸ trees,fun r => ?_,fun r q g => ?_,
    clears.boot.trans ledger.boot,ledger.reserved⟩
  · rw [clears.used g,ledger.used g,ne_none_iff_exists',ne_none_iff_exists']
    simp only [keeps,exists_and_right]
  · rw [withoutRootSome,ledger.tops r,distinct.mem_erase_iff]
    constructor
    · rintro ⟨inRoots,noTable,_⟩
      refine ⟨?_,inRoots⟩
      rintro rfl
      exact noTable [] rfl
    rintro ⟨other,inRoots⟩
    exact ⟨inRoots,fun q same => other (Role.table.inj same).1,by simp⟩
  rw [withoutRootSome,ledger.page r q g,distinct.mem_erase_iff]
  simp only [leaf]
  constructor
  · rintro ⟨⟨inRoots,mapped⟩,_,noPage⟩
    refine ⟨⟨?_,inRoots⟩,mapped⟩
    rintro rfl
    exact noPage q rfl
  rintro ⟨⟨other,inRoots⟩,mapped⟩
  exact ⟨⟨inRoots,mapped⟩,by simp,fun p same => other (Role.page.inj same).1⟩

end

open Classical in
noncomputable def withCopy (role : Frame → Option Role) (m n : Machine) (after : Owner) (dst : Frame) :
    Frame → Option Role := fun f =>
  if m.used f = true then role f
  else match after f with
    | some (root,q) => some (.table root q)
    | none =>
      if copy : ∃ x e, x < 2^47 ∧ n.leaf dst x = some e ∧ e.frame = f then some (.page dst (path copy.choose)) else none

section

variable {src dst g} (cloned : Cloned m (tableOwner role) src dst n after)

theorem copyOld {dst} (taken : m.used g = true) : withCopy role m n after dst g = role g := if_pos taken

theorem copyTable {dst root q} (free : m.used g = false) (own : after g = some (root,q)) :
    withCopy role m n after dst g = some (.table root q) := by
  unfold withCopy
  rw [if_neg (by simp [free]),own]

include cloned

theorem copyLeaf {x e} (free : m.used g = false) (low : x < 2^47) (found : n.leaf dst.pml4 x = some e) (frame : e.frame = g) :
    withCopy role m n after dst.pml4 g = some (.page dst.pml4 (path x)) := by
  have copy : ∃ x e, x < 2^47 ∧ n.leaf dst.pml4 x = some e ∧ e.frame = g := ⟨x,e,low,found,frame⟩
  have unowned := cloned.unowned x e low found
  rw [frame] at unowned
  unfold withCopy
  rw [if_neg (by simp [free]),unowned,dif_pos copy]
  obtain ⟨d,lowD,foundD,frameD⟩ := copy.choose_spec
  rw [cloned.once _ x d e lowD low foundD found (frameD.trans frame.symm)]

theorem copyNothing (free : m.used g = false) (unused : n.used g = false) : withCopy role m n after dst.pml4 g = none := by
  have notBelow : ¬ Below n after dst.pml4 [] g := fun below => by
    rw [(cloned.fresh g free).mpr below] at unused
    cases unused
  rw [belowLeaf cloned.trees cloned.root,not_or] at notBelow
  unfold withCopy
  rw [if_neg (by simp [free]),cloned.trees.unowned unused]
  exact dif_neg notBelow.2

theorem copyNew {ρ} (free : m.used g = false) (found : withCopy role m n after dst.pml4 g = some ρ) :
    (∃ q, ρ = .table dst.pml4 q ∧ after g = some (dst.pml4,q)) ∨
    ∃ x e, ρ = .page dst.pml4 (path x) ∧ x < 2^47 ∧ n.leaf dst.pml4 x = some e ∧ e.frame = g := by
  have now : n.used g = true := by
    by_contra unused
    rw [copyNothing cloned free (Bool.not_eq_true _ ▸ unused)] at found
    cases found
  rcases (belowLeaf cloned.trees cloned.root).mp ((cloned.fresh g free).mp now) with ⟨q,own⟩ | ⟨x,e,low,mapped,frame⟩
  · rw [copyTable free own] at found
    exact .inl ⟨q,(Option.some.inj found).symm,own⟩
  rw [copyLeaf cloned free low mapped frame] at found
  exact .inr ⟨x,e,(Option.some.inj found).symm,low,mapped,frame⟩

theorem copyKept {ρ} (ledger : Ledger start roots held lost m role) (noTable : ∀ q, ρ ≠ Role.table dst.pml4 q)
    (noPage : ∀ q, ρ ≠ Role.page dst.pml4 q) : withCopy role m n after dst.pml4 g = some ρ ↔ role g = some ρ := by
  cases taken : m.used g with
  | true => rw [copyOld taken]
  | false =>
    rw [ledger.free taken]
    refine ⟨fun found => ?_,nofun⟩
    rcases copyNew cloned taken found with ⟨q,same,_⟩ | ⟨x,e,same,_⟩
    · exact absurd same (noTable q)
    · exact absurd same (noPage _)

theorem copyOwner : tableOwner (withCopy role m n after dst.pml4) = after := by
  funext g
  cases taken : m.used g with
  | true =>
    rw [cloned.stays g taken]
    unfold tableOwner
    rw [copyOld taken]
  | false =>
  cases own : after g with
  | some place => exact tableOwnerSome.mpr (copyTable taken own)
  | none =>
    rw [tableOwnerNone]
    intro root q found
    rcases copyNew cloned taken found with ⟨p,_,again⟩ | ⟨x,e,same,_⟩
    · cases own.symm.trans again
    · cases same

end

theorem Ledger.cloned (ledger : Ledger start roots held lost m role) {src dst}
    (cloned : Cloned m (tableOwner role) src dst n after) :
    Ledger start (dst.pml4::roots) held lost n (withCopy role m n after dst.pml4) := by
  have notDst : ∀ {r}, r ∈ roots → r ≠ dst.pml4 := by
    rintro r inRoots rfl
    cases cloned.new.symm.trans (ledger.trees.owned (ledger.own inRoots))
  refine ⟨fun g => ?_,fun g => (copyKept cloned ledger (by simp) (by simp)).trans (ledger.outside g),
    fun g => (copyKept cloned ledger (by simp) (by simp)).trans (ledger.holds g),ledger.distinct,
    fun g => (copyKept cloned ledger (by simp) (by simp)).trans (ledger.loses g),by rw [copyOwner cloned]; exact cloned.trees,
    fun r => ?_,fun r q g => ?_,cloned.boot.trans ledger.boot,ledger.reserved⟩
  · cases taken : m.used g with
    | true =>
      rw [copyOld taken,← ledger.used g]
      exact ⟨fun _ => taken,fun _ => cloned.used g taken⟩
    | false =>
    constructor
    · intro now
      rcases (belowLeaf cloned.trees cloned.root).mp ((cloned.fresh g taken).mp now) with ⟨q,own⟩ | ⟨x,e,low,mapped,frame⟩
      · rw [copyTable taken own]
        exact some_ne_none _
      rw [copyLeaf cloned taken low mapped frame]
      exact some_ne_none _
    intro some_
    by_contra unused
    exact some_ (copyNothing cloned taken (Bool.not_eq_true _ ▸ unused))
  · rw [← tableOwnerSome,copyOwner cloned,mem_cons]
    constructor
    · intro own
      cases taken : m.used r with
      | true =>
        rw [cloned.stays r taken,tableOwnerSome,ledger.tops r] at own
        exact .inr own
      | false =>
        rcases copyNew cloned taken (copyTable taken own) with ⟨q,same,_⟩ | ⟨x,e,same,_⟩
        · exact .inl (Role.table.inj same).1
        · cases same
    rintro (rfl | inRoots)
    · exact cloned.root
    rw [cloned.stays r (ledger.trees.owned (ledger.own inRoots))]
    exact ledger.own inRoots
  by_cases isDst : r = dst.pml4
  · subst isDst
    constructor
    · intro found
      cases taken : m.used g with
      | true =>
        rw [copyOld taken] at found
        exact absurd rfl (notDst ((ledger.page _ q g).mp found).1)
      | false =>
        rcases copyNew cloned taken found with ⟨p,same,_⟩ | ⟨x,e,same,low,mapped,frame⟩
        · cases same
        · exact ⟨mem_cons_self,x,e,low,(Role.page.inj same).2.symm,mapped,frame⟩
    rintro ⟨_,x,e,low,rfl,mapped,frame⟩
    have free := cloned.apart g ((belowLeaf cloned.trees cloned.root).mpr (.inr ⟨x,e,low,mapped,frame⟩))
    exact copyLeaf cloned free low mapped frame
  rw [copyKept cloned ledger (by simp) (fun p same => isDst (Role.page.inj same).1),ledger.page r q g]
  constructor
  · rintro ⟨inRoots,x,e,low,place,mapped,frame⟩
    exact ⟨mem_cons_of_mem _ inRoots,x,e,low,place,
      (leafSame ledger.trees (ledger.own inRoots) cloned.tables low).trans mapped,frame⟩
  rintro ⟨inRoots,x,e,low,place,mapped,frame⟩
  have before := (mem_cons.mp inRoots).resolve_left isDst
  exact ⟨before,x,e,low,place,(leafSame ledger.trees (ledger.own before) cloned.tables low).symm.trans mapped,frame⟩

end Miviex.Machine
