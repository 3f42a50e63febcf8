import Miviex.AddressSpaceClone
import Miviex.SpaceRelease

/-! The deep copy of fork, page by page. While it runs, the new space has copies of the pages
done so far; when it fails, destroying the new space gives back all that was taken. -/
namespace Miviex.Machine
open List Option
open Function (update update_of_ne update_self)
open RadixForest

variable {m n : Machine} {owner after : Owner} {src dst : Frame}

theorem leafPath {r x y} (same : path x = path y) : m.leaf r x = m.leaf r y := by
  unfold path at same
  simp only [List.cons.injEq,and_true] at same
  obtain ⟨i4,i3,i2,i1⟩ := same
  unfold leaf pte
  rw [i4,i3,i2,i1]

structure CopyOf (m : Machine) (src : Frame) (n : Machine) (dst : Frame) (x : Nat) : Prop where
  some : ∀ e, m.leaf src x = some e → ∃ c, n.leaf dst x = some ⟨c,e.flags⟩ ∧ n.data c = m.data e.frame
  none : m.leaf src x = none → n.leaf dst x = none

structure Copying (m : Machine) (owner : Owner) (src dst : Frame) (done : List Nat → Prop) (n : Machine) (after : Owner) :
    Prop where
  trees : Trees n after
  used : ∀ g, m.used g = true → n.used g = true
  stays : ∀ g, m.used g = true → after g = owner g
  fresh : ∀ g, n.used g = true → m.used g = false →
    (∃ q, after g = some (dst,q)) ∨ ∃ x e, x < 2^47 ∧ n.leaf dst x = some e ∧ e.frame = g
  tables : ∀ g, m.used g = true → (∀ q, owner g ≠ some (dst,q)) → n.tables g = m.tables g
  copied : ∀ x, x < 2^47 → done (path x) → CopyOf m src n dst x
  rest : ∀ x, x < 2^47 → ¬ done (path x) → n.leaf dst x = none
  new : ∀ x e, x < 2^47 → n.leaf dst x = some e → m.used e.frame = false ∧ n.used e.frame = true ∧ after e.frame = none
  once : ∀ x y e d, x < 2^47 → y < 2^47 → n.leaf dst x = some e → n.leaf dst y = some d → e.frame = d.frame → path x = path y
  data : ∀ g, m.used g = true → n.data g = m.data g
  boot : n.boot = m.boot

structure Source (m : Machine) (owner : Owner) (src dst : Frame) : Prop where
  trees : Trees m owner
  own : owner src = some (src,[])
  root : owner dst = some (dst,[])
  apart : src ≠ dst
  leaves : ∀ x e, x < 2^47 → m.leaf src x = some e → m.used e.frame = true

variable {done : List Nat → Prop}

theorem Copying.congr {more} (copying : Copying m owner src dst done n after)
    (same : ∀ x, x < 2^47 → (done (path x) ↔ more (path x))) : Copying m owner src dst more n after :=
  {copying with
    copied := fun x low h => copying.copied x low ((same x low).mpr h)
    rest := fun x low h => copying.rest x low (fun old => h ((same x low).mp old))}

section

variable (source : Source m owner src dst)
include source

section

variable (copying : Copying m owner src dst done n after)
include copying

theorem Source.tables {g q} (own : owner g = some (src,q)) : n.tables g = m.tables g := by
  refine copying.tables g (source.trees.owned own) (fun p again => ?_)
  rw [own] at again
  exact source.apart (congrArg Prod.fst (Option.some.inj again))

theorem Source.leaf {x} (low : x < 2^47) : n.leaf src x = m.leaf src x := by
  have ownN := (copying.stays src (source.trees.owned source.own)).trans source.own
  refine ext (fun e => ?_)
  rw [leafTrees copying.trees ownN low,leafTrees source.trees source.own low]
  have back t (role : after t = some (src,tablePath x)) : owner t = some (src,tablePath x) := by
    cases taken : m.used t with
    | true => rw [← copying.stays t taken,role]
    | false =>
    exfalso
    rcases copying.fresh t (copying.trees.owned role) taken with ⟨q,other⟩ | ⟨y,d,lowY,found,frame⟩
    · rw [role] at other
      exact source.apart (congrArg Prod.fst (Option.some.inj other))
    have free := (copying.new y d lowY found).2.2
    rw [frame,role] at free
    cases free
  constructor
  · rintro ⟨t,role,same,present⟩
    have old := back t role
    rw [source.tables copying old] at same
    exact ⟨t,old,same,present⟩
  rintro ⟨t,role,same,present⟩
  rw [← source.tables copying role] at same
  exact ⟨t,(copying.stays t (source.trees.owned role)).trans role,same,present⟩

theorem Copying.skip {more : List Nat → Prop}
    (absent : ∀ x, x < 2^47 → more (path x) → n.leaf src x = none) :
    Copying m owner src dst (fun q => done q ∨ more q) n after := by
  have none x (low : x < 2^47) (h : more (path x)) : m.leaf src x = none := by
    rw [← source.leaf copying low]
    exact absent x low h
  refine {copying with copied := fun x low h => ?_, rest := fun x low h => copying.rest x low (fun old => h (.inl old))}
  rcases h with old | new
  · exact copying.copied x low old
  by_cases already : done (path x)
  · exact copying.copied x low already
  · exact ⟨fun e found => (by rw [none x low new] at found; cases found),fun _ => copying.rest x low already⟩

end

end

theorem Copying.idle {p} (copying : Copying m owner src dst done n after)
    (idle : Idle n p) : Copying m owner src dst done p after := by
  have leaf := leafTables idle.tables
  refine ⟨idle.trees copying.trees,fun g taken => ?_,copying.stays,fun g now before => ?_,fun g taken apart => ?_,
    fun x low h => ?_,fun x low h => ?_,fun x d low there => ?_,fun x y e d => ?_,fun g taken => ?_,
    idle.boot.trans copying.boot⟩
  · rw [idle.used]
    exact copying.used g taken
  · rw [idle.used] at now
    rcases copying.fresh g now before with own | ⟨x,e,low,found,frame⟩
    · exact .inl own
    · exact .inr ⟨x,e,low,(leaf dst x).trans found,frame⟩
  · rw [idle.tables,copying.tables g taken apart]
  · obtain ⟨some,none⟩ := copying.copied x low h
    refine ⟨fun d found => ?_,fun found => (leaf dst x).trans (none found)⟩
    obtain ⟨c,there,content⟩ := some d found
    exact ⟨c,(leaf dst x).trans there,by rw [idle.data,content]⟩
  · exact (leaf dst x).trans (copying.rest x low h)
  · rw [leaf dst x] at there
    rw [idle.used]
    exact copying.new x d low there
  · rw [leaf dst x,leaf dst y]
    exact copying.once x y e d
  · rw [idle.data,copying.data g taken]

section Page
variable {as : AddressSpace} {done : List Nat → Prop} {va : Nat} {e : Entry} {copy : Frame} {n1 n2 p : Machine}
  {last : Owner} {success : Bool}

structure Tried (as : AddressSpace) (va : Nat) (e : Entry) (copy : Frame) (success : Bool) (n : Machine) (after : Owner)
    (n2 : Machine) (last : Owner) : Prop where
  trees : Trees n2 last
  free : n.used copy = false
  used : ∀ g, n.used g = true → n2.used g = true
  taken : n2.used copy = true
  stays : ∀ g, n.used g = true → last g = after g
  unowned : last copy = none
  fresh : ∀ g, n2.used g = true → n.used g = false → g ≠ copy → ∃ q, last g = some (as.pml4,q)
  leaf : ∀ r x, after r = some (r,[]) → x < 2^47 → n2.leaf r x =
    if success = true ∧ r = as.pml4 ∧ path x = path va then some ⟨copy,e.flags⟩ else n.leaf r x
  outside : ∀ g, n.used g = true → (∀ q, after g ≠ some (as.pml4,q)) → n2.tables g = n.tables g
  data : n2.data = n.data
  boot : n2.boot = n.boot

theorem tryPage (trees : Trees n after) (own : IsRoot after as.pml4) (low : va < 2^47)
    (present : e.present = true) (alloc : n.pmmAllocPage = (some copy,n1))
    (map : n1.vmmMapPage as va copy e.flags = (success,n2)) : ∃ last, Tried as va e copy success n after n2 last := by
  have takes := allocTakes alloc
  obtain ⟨last,mapped⟩ := mapPageMapped (takes.trees trees) own low map
  have there : n1.used copy = true := by rw [takes.used,update_self]
  refine ⟨last,mapped.trees,takes.free,fun g h => mapped.used g (takes.grows h),mapped.used copy there,
    fun g h => mapped.stays g (takes.grows h),(mapped.stays copy there).trans (trees.unowned takes.free),fun g now before other => ?_,
    fun r x ownR lowX => ?_,fun g h free => ?_,mapped.data.trans takes.data,mapped.boot.trans takes.boot⟩
  · refine mapped.fresh g now ?_
    rw [takes.used,update_of_ne other,before]
  · rw [mapped.leaf r x ownR lowX,leafTables takes.tables,show e.flags.getLsbD 0 = true from present,if_pos rfl]
  · rw [mapped.outside g (takes.grows h) free,takes.tables]

section

variable (copying : Copying m owner src as.pml4 done n after)
include copying

theorem Copying.triedTables (tried : Tried as va e copy success n after n2 last) (g) (taken : m.used g = true)
    (apart : ∀ q, owner g ≠ some (as.pml4,q)) : n2.tables g = m.tables g := by
  rw [tried.outside g (copying.used g taken) (by rw [copying.stays g taken]; exact apart),copying.tables g taken apart]

theorem pageFailed (root : IsRoot owner as.pml4)
    (treesM : Trees m owner) (tried : Tried as va e copy false n after n2 last) :
    Copying m owner src as.pml4 done (n2.pmmFreePage copy) last := by
  have ownN : IsRoot after as.pml4 := (copying.stays _ (treesM.owned root)).trans root
  have other : ∀ {g}, n.used g = true → g ≠ copy := by
    rintro g taken rfl
    rw [tried.free] at taken
    cases taken
  have kept : ∀ {g}, g ≠ copy → (n2.pmmFreePage copy).used g = n2.used g := fun away => update_of_ne away _ _
  have leaf x (low : x < 2^47) : (n2.pmmFreePage copy).leaf as.pml4 x = n.leaf as.pml4 x := by
    have same := tried.leaf as.pml4 x ownN low
    exact same
  have trees : Trees (n2.pmmFreePage copy) last := by
    refine tried.trees.outside rfl (fun _ _ => rfl) (fun g held => ?_) (fun i => ?_)
    · have away : g ≠ copy := by
        rintro rfl
        exact held tried.unowned
      rw [kept away]
      exact tried.trees.used g held
    have reserved := (copying.trees.boot i).1
    rw [tried.boot,kept (other reserved)]
    exact tried.used _ reserved
  have tables := copying.triedTables tried
  refine ⟨trees,fun g taken => ?_,fun g taken => ?_,fun g now before => ?_,tables,fun x low h => ?_,
    fun x low h => ?_,fun x d low found => ?_,fun x y d c lowX lowY => ?_,fun g taken => ?_,tried.boot.trans copying.boot⟩
  · have there := copying.used g taken
    rw [kept (other there)]
    exact tried.used g there
  · rw [tried.stays g (copying.used g taken),copying.stays g taken]
  · have away : g ≠ copy := by
      rintro rfl
      rw [show (n2.pmmFreePage g).used g = false from update_self _ _ _] at now
      cases now
    rw [kept away] at now
    cases between : n.used g with
    | false => exact .inl (tried.fresh g now between away)
    | true =>
      rcases copying.fresh g between before with ⟨q,own⟩ | ⟨x,d,low,found,frame⟩
      · exact .inl ⟨q,(tried.stays g between).trans own⟩
      · exact .inr ⟨x,d,low,(leaf x low).trans found,frame⟩
  · obtain ⟨some,none⟩ := copying.copied x low h
    refine ⟨fun d found => ?_,fun found => (leaf x low).trans (none found)⟩
    obtain ⟨c,there,content⟩ := some d found
    exact ⟨c,(leaf x low).trans there,by rw [← content,← tried.data]; rfl⟩
  · exact (leaf x low).trans (copying.rest x low h)
  · rw [leaf x low] at found
    obtain ⟨before,now,free⟩ := copying.new x d low found
    exact ⟨before,by rw [kept (other now)]; exact tried.used _ now,(tried.stays _ now).trans free⟩
  · rw [leaf x lowX,leaf y lowY]
    exact copying.once x y d c lowX lowY
  rw [← copying.data g taken,← tried.data]
  rfl

theorem pageCopied (source : Source m owner src as.pml4)
    (low : va < 2^47) (todo : ¬ done (path va)) (found : n.leaf src va = some e)
    (tried : Tried as va e copy true n after n2 last) :
    Copying m owner src as.pml4 (fun q => done q ∨ q = path va) (n2.copyFrame copy e.frame) last := by
  have ownN : IsRoot after as.pml4 := (copying.stays _ (source.trees.owned source.root)).trans source.root
  have other : ∀ {g}, n.used g = true → g ≠ copy := by
    rintro g taken rfl
    rw [tried.free] at taken
    cases taken
  have original : m.leaf src va = some e := (source.leaf copying low).symm.trans found
  have leafHere x (lowX : x < 2^47) (same : path x = path va) :
      (n2.copyFrame copy e.frame).leaf as.pml4 x = some ⟨copy,e.flags⟩ := by
    have now := tried.leaf as.pml4 x ownN lowX
    rw [if_pos ⟨rfl,rfl,same⟩] at now
    exact now
  have leafElse x (lowX : x < 2^47) (away : path x ≠ path va) :
      (n2.copyFrame copy e.frame).leaf as.pml4 x = n.leaf as.pml4 x := by
    have now := tried.leaf as.pml4 x ownN lowX
    rw [if_neg (fun h => away h.2.2)] at now
    exact now
  have content g (away : g ≠ copy) : (n2.copyFrame copy e.frame).data g = n.data g := by
    rw [← tried.data]
    exact update_of_ne away _ _
  have written : (n2.copyFrame copy e.frame).data copy = m.data e.frame := by
    rw [← copying.data _ (source.leaves va e low original),← tried.data]
    exact update_self _ _ _
  have trees : Trees (n2.copyFrame copy e.frame) last :=
    tried.trees.outside rfl (fun _ _ => rfl) tried.trees.used (fun i => (tried.trees.boot i).1)
  have tables := copying.triedTables tried
  refine ⟨trees,fun g taken => tried.used g (copying.used g taken),fun g taken => ?_,fun g now before => ?_,
    tables,fun x lowX h => ?_,fun x lowX h => ?_,fun x d lowX there => ?_,fun x y d c lowX lowY one two same => ?_,
    fun g taken => ?_,tried.boot.trans copying.boot⟩
  · rw [tried.stays g (copying.used g taken),copying.stays g taken]
  · by_cases isCopy : g = copy
    · exact .inr ⟨va,_,low,leafHere va low rfl,isCopy.symm⟩
    cases between : n.used g with
    | false => exact .inl (tried.fresh g now between isCopy)
    | true =>
    rcases copying.fresh g between before with ⟨q,own⟩ | ⟨x,d,lowX,there,frame⟩
    · exact .inl ⟨q,(tried.stays g between).trans own⟩
    have away : path x ≠ path va := by
      intro same
      rw [copying.rest x lowX (same ▸ todo)] at there
      cases there
    exact .inr ⟨x,d,lowX,(leafElse x lowX away).trans there,frame⟩
  · by_cases same : path x = path va
    · have here : m.leaf src x = some e := (leafPath same).trans original
      refine ⟨fun d there => ?_,fun none => ?_⟩
      · rw [here] at there
        cases there
        exact ⟨copy,leafHere x lowX same,written⟩
      rw [here] at none
      cases none
    obtain ⟨some,none⟩ := copying.copied x lowX (h.resolve_right same)
    refine ⟨fun d there => ?_,fun absent => (leafElse x lowX same).trans (none absent)⟩
    obtain ⟨c,mapped,bytes⟩ := some d there
    refine ⟨c,(leafElse x lowX same).trans mapped,?_⟩
    rw [content c (other (copying.new x _ lowX mapped).2.1),bytes]
  · have away : path x ≠ path va := fun same => h (.inr same)
    exact (leafElse x lowX away).trans (copying.rest x lowX (fun old => h (.inl old)))
  · by_cases same : path x = path va
    · rw [leafHere x lowX same] at there
      cases there
      refine ⟨?_,tried.taken,tried.unowned⟩
      cases before : m.used copy with
      | false => rfl
      | true => exact absurd rfl (other (copying.used copy before))
    rw [leafElse x lowX same] at there
    obtain ⟨before,now,free⟩ := copying.new x d lowX there
    exact ⟨before,tried.used _ now,(tried.stays _ now).trans free⟩
  · -- an older copy is in use, the new one was not
    have older : ∀ {z f}, z < 2^47 → path z ≠ path va → (n2.copyFrame copy e.frame).leaf as.pml4 z = some f →
        f.frame ≠ copy := by
      intro z f lowZ away there
      rw [leafElse z lowZ away] at there
      exact other (copying.new z f lowZ there).2.1
    by_cases hereX : path x = path va
    · by_cases hereY : path y = path va
      · rw [hereX,hereY]
      rw [leafHere x lowX hereX] at one
      cases one
      exact absurd same.symm (older lowY hereY two)
    by_cases hereY : path y = path va
    · rw [leafHere y lowY hereY] at two
      cases two
      exact absurd same (older lowX hereX one)
    rw [leafElse x lowX hereX] at one
    rw [leafElse y lowY hereY] at two
    exact copying.once x y d c lowX lowY one two same
  · rw [content g (other (copying.used g taken)),copying.data g taken]

theorem clonePageCopies (source : Source m owner src as.pml4)
    (low : va < 2^47) (todo : ¬ done (path va)) (found : n.leaf src va = some e) :
    (clonePage as va n e = (true,p) → ∃ last, Copying m owner src as.pml4 (fun q => done q ∨ q = path va) p last) ∧
    (clonePage as va n e = (false,p) → ∃ last, Copying m owner src as.pml4 done p last) := by
  have ownN : IsRoot after as.pml4 := (copying.stays _ (source.trees.owned source.root)).trans source.root
  obtain ⟨_,_,_,_,present⟩ := leafSome found
  unfold clonePage
  cases alloc : n.pmmAllocPage with
  | mk answer n1 =>
  cases answer with
  | none =>
    refine ⟨fun h => (by cases h),fun h => ?_⟩
    cases h
    exact ⟨after,copying.idle (allocIdle alloc)⟩
  | some copy =>
  dsimp only
  cases map : n1.vmmMapPage as va copy e.flags with
  | mk success n2 =>
  obtain ⟨last,tried⟩ := tryPage copying.trees ownN low present alloc map
  cases success with
  | true =>
    refine ⟨fun h => ?_,fun h => (by cases h)⟩
    cases h
    exact ⟨last,pageCopied copying source low todo found tried⟩
  | false =>
    refine ⟨fun h => (by cases h),fun h => ?_⟩
    cases h
    exact ⟨last,pageFailed copying source.root source.trees tried⟩

end

end Page

theorem untilFailureRange {σ body} (Inv : Nat → σ → Prop) (Fail : σ → Prop) {size}
    (each : ∀ k, k < size → ∀ s t, Inv k s → (body s k = (true,t) → Inv (k+1) t) ∧ (body s k = (false,t) → Fail t))
    {s t} (start : Inv 0 s) : (untilFailure body s (List.range size) = (true,t) → Inv size t) ∧
    (untilFailure body s (List.range size) = (false,t) → Fail t) := by
  have tail : ∀ len k s, k + len = size → Inv k s → (untilFailure body s (range' k len) = (true,t) → Inv size t) ∧
      (untilFailure body s (range' k len) = (false,t) → Fail t) := by
    intro len
    induction len with
    | zero =>
      intro k s sum holds
      cases sum
      exact ⟨fun h => (by cases h; exact holds),fun h => (by cases h)⟩
    | succ len ih =>
    intro k s sum holds
    rw [range'_succ]
    unfold untilFailure
    cases result : body s k with
    | mk success u =>
      obtain ⟨good,bad⟩ := each k (by omega) s u holds
      cases success with
      | true => exact ih (k+1) u (by omega) (good result)
      | false => exact ⟨fun h => (by cases h),fun h => (by cases h; exact bad result)⟩
  rw [range_eq_range']
  exact tail size 0 s (by omega) start

def CopyingTo (m : Machine) (owner : Owner) (src dst : Frame) (done : List Nat → Prop) (n : Machine) : Prop :=
  ∃ after, Copying m owner src dst done n after

def Abandoned (m : Machine) (owner : Owner) (src dst : Frame) (n : Machine) : Prop :=
  ∃ done, CopyingTo m owner src dst done n

theorem prefixApart {q p} {i j : Nat} (first : q ++ [i] <+: p) (second : q ++ [j] <+: p) : i = j := by
  obtain ⟨a,rfl⟩ := first
  obtain ⟨b,same⟩ := second
  rw [append_assoc,append_assoc,append_cancel_left_eq] at same
  exact (List.cons.inj same).1.symm

theorem cloneEntriesCopies {table q size skip inner done p} (source : Source m owner src dst)
    (cover : ∀ x, x < 2^47 → q <+: path x → ∃ i < size, q ++ [i] <+: path x)
    (todo : ∀ x, x < 2^47 → q <+: path x → ¬ done (path x))
    (skips : ∀ i < size, ∀ more n after, Copying m owner src dst more n after → skip (n.tables table i) = true →
    ∀ x, x < 2^47 → q ++ [i] <+: path x → n.leaf src x = none)
    (each : ∀ i < size, ∀ more n after, Copying m owner src dst more n after → skip (n.tables table i) = false →
    (∀ x, x < 2^47 → q ++ [i] <+: path x → ¬ more (path x)) → ∀ p,
    (inner i n (n.tables table i) = (true,p) → CopyingTo m owner src dst (fun r => more r ∨ q ++ [i] <+: r) p) ∧
    (inner i n (n.tables table i) = (false,p) → Abandoned m owner src dst p)) (copying : CopyingTo m owner src dst done n) :
    (cloneEntries size table skip inner n = (true,p) → CopyingTo m owner src dst (fun r => done r ∨ q <+: r) p) ∧
    (cloneEntries size table skip inner n = (false,p) → Abandoned m owner src dst p) := by
  let sofar (k : Nat) (r : List Nat) : Prop := done r ∨ ∃ i < k, q ++ [i] <+: r
  have start : CopyingTo m owner src dst (sofar 0) n := by
    obtain ⟨after,copying⟩ := copying
    exact ⟨after,copying.congr (fun x _ => ⟨.inl,fun h => h.resolve_right (fun ⟨_,below,_⟩ => absurd below (Nat.not_lt_zero _))⟩)⟩
  have next k x : (sofar k (path x) ∨ q ++ [k] <+: path x) ↔ sofar (k+1) (path x) := by
    constructor
    · rintro ((old | ⟨i,below,here⟩) | here)
      · exact .inl old
      · exact .inr ⟨i,by omega,here⟩
      · exact .inr ⟨k,by omega,here⟩
    rintro (old | ⟨i,below,here⟩)
    · exact .inl (.inl old)
    rcases Nat.lt_succ_iff_lt_or_eq.mp below with less | rfl
    · exact .inl (.inr ⟨i,less,here⟩)
    · exact .inr here
  have loop := @untilFailureRange Machine
    (fun n i => if skip (n.tables table i) then (true,n) else inner i n (n.tables table i))
    (fun k n => CopyingTo m owner src dst (sofar k) n) (Abandoned m owner src dst) size (fun k bound s t holds => by
      obtain ⟨after,copying⟩ := holds
      cases skipped : skip (s.tables table k) with
      | true =>
        refine ⟨fun h => ?_,fun h => by cases h⟩
        cases h
        exact ⟨after,(copying.skip source (skips k bound _ _ _ copying skipped)).congr (fun x _ => next k x)⟩
      | false =>
      have untouched : ∀ x, x < 2^47 → q ++ [k] <+: path x → ¬ sofar k (path x) := by
        rintro x low here (old | ⟨i,below,there⟩)
        · exact todo x low ((prefix_append q [k]).trans here) old
        have same := prefixApart there here
        omega
      obtain ⟨good,bad⟩ := each k bound _ _ _ copying skipped untouched t
      refine ⟨fun h => ?_,bad⟩
      obtain ⟨last,after⟩ := good h
      exact ⟨last,after.congr (fun x _ => next k x)⟩) n p start
  refine ⟨fun h => ?_,loop.2⟩
  obtain ⟨after,copied⟩ := loop.1 h
  refine ⟨after,copied.congr (fun x low => or_congr Iff.rfl ⟨?_,cover x low⟩)⟩
  rintro ⟨i,_,here⟩
  exact (prefix_append q [i]).trans here

theorem pathLast (x) : path x = tablePath x ++ [index 12 x] := rfl

theorem pathNext {x q} (short : q.length < 4) (here : q <+: path x) : ∃ i < 512, q ++ [i] <+: path x := by
  obtain ⟨r,whole⟩ := here
  cases r with
  | nil =>
    rw [append_nil] at whole
    rw [whole] at short
    exact absurd short (Nat.lt_irrefl 4)
  | cons i r =>
  refine ⟨i,?_,r,by rw [append_assoc]; exact whole⟩
  have member : i ∈ path x := by
    rw [← whole]
    exact mem_append_right _ mem_cons_self
  unfold path at member
  simp only [mem_cons,not_mem_nil,or_false] at member
  rcases member with rfl | rfl | rfl | rfl <;> exact indexBound _ _

theorem prefixTables {x i q} (short : q.length < 3) (here : q ++ [i] <+: path x) : ∃ p, tablePath x = q ++ i::p := by
  have within : q ++ [i] <+: tablePath x := by
    refine prefix_of_prefix_length_le here (pathLast x ▸ prefix_append _ _) ?_
    rw [length_append]
    exact short
  obtain ⟨p,whole⟩ := within
  exact ⟨p,by rw [← whole,append_assoc]; rfl⟩

section Levels
variable {as : AddressSpace} {done : List Nat → Prop} {table p : Nat} {q : List Nat}

section

variable (source : Source m owner src dst) (copying : Copying m owner src dst done n after) (own : owner table = some (src,q))
include source copying own

theorem absentUpper (short : q.length < 3) {i x}
    (absent : (n.tables table i).present = false) (low : x < 2^47) (here : q ++ [i] <+: path x) : n.leaf src x = none := by
  rw [source.leaf copying low]
  rw [source.tables copying own] at absent
  by_contra mapped
  obtain ⟨e,found⟩ := ne_none_iff_exists'.mp mapped
  obtain ⟨t,role,_,_⟩ := (leafTrees source.trees source.own low).mp found
  obtain ⟨r,split⟩ := prefixTables short here
  rw [split] at role
  obtain ⟨child,roleChild⟩ := source.trees.prefixOwned role
  obtain ⟨_,_,parent,ownParent,points⟩ := source.trees.forest.linked child src q i roleChild
  cases ownerUnique source.trees.forest ownParent own
  rw [(targetSome.mp points).1] at absent
  cases absent

theorem presentChild (short : q.length < 3) {i} (valid : validIndex q i)
    (present : (n.tables table i).present = true) : owner (n.tables table i).frame = some (src,q ++ [i]) := by
  rw [source.tables copying own] at present ⊢
  exact source.trees.forest.child table src q i _ own short valid (targetSome.mpr ⟨present,rfl⟩)

theorem plainEntry (short : q.length < 3) {i} (valid : validIndex q i)
    (present : (n.tables table i).present = true) : (n.tables table i).huge = false := by
  rw [source.tables copying own] at present ⊢
  exact source.trees.plain table src q i own short valid present

end

theorem pageOf {i4 i3 i2 i1} (h4 : i4 < 256) (h3 : i3 < 512) (h2 : i2 < 512) (h1 : i1 < 512) :
    i4 * 2^39 + i3 * 2^30 + i2 * 2^21 + i1 * 2^12 < 2^47 ∧
    path (i4 * 2^39 + i3 * 2^30 + i2 * 2^21 + i1 * 2^12) = [i4,i3,i2] ++ [i1] :=
  ⟨by omega,pathSum (by omega) h3 h2 h1⟩

theorem cloneL1Copies {i4 i3 i2 e p} (source : Source m owner src as.pml4)
    (h4 : i4 < 256) (h3 : i3 < 512) (h2 : i2 < 512) (own : owner e.frame = some (src,[i4,i3,i2]))
    (todo : ∀ x, x < 2^47 → [i4,i3,i2] <+: path x → ¬ done (path x)) (copying : CopyingTo m owner src as.pml4 done n) :
    (cloneL1 as (i4 * 2^39 + i3 * 2^30 + i2 * 2^21) n e = (true,p) →
    CopyingTo m owner src as.pml4 (fun r => done r ∨ [i4,i3,i2] <+: r) p) ∧
    (cloneL1 as (i4 * 2^39 + i3 * 2^30 + i2 * 2^21) n e = (false,p) → Abandoned m owner src as.pml4 p) := by
  -- a path below the table is one page
  have only x i : [i4,i3,i2] ++ [i] <+: path x ↔ path x = [i4,i3,i2] ++ [i] := by
    refine ⟨fun here => (here.eq_of_length rfl).symm,fun same => same ▸ prefix_refl _⟩
  have leafAt : ∀ {more n' after' i}, Copying m owner src as.pml4 more n' after' → i < 512 → ∀ x, x < 2^47 →
      path x = [i4,i3,i2] ++ [i] → n'.leaf src x =
        if (n'.tables e.frame i).present then some (n'.tables e.frame i) else none := by
    intro more n' after' i copying bound x low same
    have place : tablePath x = [i4,i3,i2] ∧ index 12 x = i := by
      rw [pathLast] at same
      obtain ⟨first,second⟩ := append_inj' same rfl
      exact ⟨first,singleton_inj.mp second⟩
    rw [source.leaf copying low,source.tables copying own]
    unfold leaf
    rw [(pteTrees source.trees source.own low).mpr ⟨place.1.symm ▸ own,rfl⟩,bind_some,place.2]
  refine cloneEntriesCopies source (fun x _ here => pathNext (by simp) here) todo
    (fun i bound more n' after' copying skipped x low here => ?_)
    (fun i bound more n' after' copying wanted untouched p => ?_) copying
  · rw [leafAt copying bound x low ((only x i).mp here),if_neg]
    rw [Bool.not_eq_true'] at skipped
    rw [skipped]
    exact Bool.false_ne_true
  rw [Bool.not_eq_false'] at wanted
  obtain ⟨low,same⟩ := pageOf h4 h3 h2 bound
  have found := leafAt copying bound _ low same
  rw [if_pos wanted] at found
  obtain ⟨good,bad⟩ := @clonePageCopies m n' owner after' src as more _ _ p copying source low
    (untouched _ low ((only _ i).mpr same)) found
  refine ⟨fun h => ?_,fun h => ?_⟩
  · obtain ⟨last,copied⟩ := good h
    refine ⟨last,copied.congr (fun x _ => or_congr Iff.rfl ?_)⟩
    rw [same,only]
  obtain ⟨last,copied⟩ := bad h
  exact ⟨more,last,copied⟩

theorem cloneUpperCopies {size skip inner p}
    (source : Source m owner src as.pml4) (own : owner table = some (src,q)) (short : q.length < 3)
    (valid : ∀ i < size, validIndex q i) (cover : ∀ x, x < 2^47 → q <+: path x → ∃ i < size, q ++ [i] <+: path x)
    (todo : ∀ x, x < 2^47 → q <+: path x → ¬ done (path x))
    (skips : ∀ e : Entry, e.huge = false → (skip e = true ↔ e.present = false))
    (absent : ∀ e : Entry, e.present = false → skip e = true)
    (next : ∀ i < size, ∀ more n e p, owner e.frame = some (src,q ++ [i]) →
    (∀ x, x < 2^47 → q ++ [i] <+: path x → ¬ more (path x)) → CopyingTo m owner src as.pml4 more n →
    (inner i n e = (true,p) → CopyingTo m owner src as.pml4 (fun r => more r ∨ q ++ [i] <+: r) p) ∧
    (inner i n e = (false,p) → Abandoned m owner src as.pml4 p)) (copying : CopyingTo m owner src as.pml4 done n) :
    (cloneEntries size table skip inner n = (true,p) → CopyingTo m owner src as.pml4 (fun r => done r ∨ q <+: r) p) ∧
    (cloneEntries size table skip inner n = (false,p) → Abandoned m owner src as.pml4 p) := by
  refine cloneEntriesCopies source cover todo (fun i bound more n' after' copying skipped x low here => ?_)
    (fun i bound more n' after' copying wanted untouched p => ?_) copying
  · refine absentUpper source copying own short ?_ low here
    cases present : (n'.tables table i).present with
    | false => rfl
    | true =>
      rw [(skips _ (plainEntry source copying own short (valid i bound) present)).mp skipped] at present
      cases present
  have present : (n'.tables table i).present = true := by
    cases there : (n'.tables table i).present with
    | true => rfl
    | false =>
      rw [absent _ there] at wanted
      cases wanted
  exact next i bound more n' _ p (presentChild source copying own short (valid i bound) present) untouched ⟨after',copying⟩

theorem skipAbsent (e : Entry) : (!e.present) = true ↔ e.present = false := by rw [Bool.not_eq_true']

theorem skipHuge (e : Entry) (plain : e.huge = false) : (!e.present || e.huge) = true ↔ e.present = false := by
  rw [plain,Bool.or_false,Bool.not_eq_true']

theorem deepValid {q} (deep : q ≠ []) : ∀ i < 512, validIndex q i := fun _ bound =>
  ⟨bound,fun empty => absurd empty deep⟩

theorem cloneL2Copies {i4 i3 e p} (source : Source m owner src as.pml4)
    (h4 : i4 < 256) (h3 : i3 < 512) (own : owner e.frame = some (src,[i4,i3]))
    (todo : ∀ x, x < 2^47 → [i4,i3] <+: path x → ¬ done (path x)) (copying : CopyingTo m owner src as.pml4 done n) :
    (cloneL2 as (i4 * 2^39 + i3 * 2^30) n e = (true,p) → CopyingTo m owner src as.pml4 (fun r => done r ∨ [i4,i3] <+: r) p) ∧
    (cloneL2 as (i4 * 2^39 + i3 * 2^30) n e = (false,p) → Abandoned m owner src as.pml4 p) :=
  cloneUpperCopies source own (by simp) (deepValid (by simp)) (fun _ _ here => pathNext (by simp) here) todo skipHuge
    (fun _ absent => by rw [absent]; rfl)
    (fun _ bound _ _ _ _ child untouched copying => cloneL1Copies source h4 h3 bound child untouched copying) copying

theorem cloneL3Copies {i4 e p} (source : Source m owner src as.pml4) (h4 : i4 < 256) (own : owner e.frame = some (src,[i4]))
    (todo : ∀ x, x < 2^47 → [i4] <+: path x → ¬ done (path x)) (copying : CopyingTo m owner src as.pml4 done n) :
    (cloneL3 as (i4 * 2^39) n e = (true,p) → CopyingTo m owner src as.pml4 (fun r => done r ∨ [i4] <+: r) p) ∧
    (cloneL3 as (i4 * 2^39) n e = (false,p) → Abandoned m owner src as.pml4 p) :=
  cloneUpperCopies source own (by simp) (deepValid (by simp)) (fun _ _ here => pathNext (by simp) here) todo
    (fun e _ => skipAbsent e) (fun e absent => (skipAbsent e).mpr absent)
    (fun _ bound _ _ _ _ child untouched copying => cloneL2Copies source h4 bound child untouched copying) copying

theorem cloneL4Copies {root p} (source : Source m owner root.pml4 as.pml4)
    (copying : CopyingTo m owner root.pml4 as.pml4 (fun _ => False) n) :
    (cloneL4 as root n = (true,p) → CopyingTo m owner root.pml4 as.pml4 (fun _ => True) p) ∧
    (cloneL4 as root n = (false,p) → Abandoned m owner root.pml4 as.pml4 p) := by
  have levels := @cloneUpperCopies m n owner root.pml4 as (fun _ => False) root.pml4 [] 256 (fun e => !e.present)
    (fun i => cloneL3 as (i * 2^39)) p source source.own (by decide) (fun i bound => ⟨by omega,fun _ => bound⟩)
    (fun x low _ => ⟨index 39 x,(indexTop low).2 rfl,⟨_,rfl⟩⟩) (fun _ _ _ => id) (fun e _ => skipAbsent e)
    (fun e absent => (skipAbsent e).mpr absent)
    (fun _ bound _ _ _ _ child untouched copying => cloneL3Copies source bound child untouched copying) copying
  refine ⟨fun h => ?_,levels.2⟩
  obtain ⟨after,copied⟩ := levels.1 h
  exact ⟨after,copied.congr (fun x _ => ⟨fun _ => trivial,fun _ => .inr (List.nil_prefix)⟩)⟩

end Levels

theorem belowLeaf {root g} (trees : Trees m owner) (own : IsRoot owner root) : Below m owner root [] g ↔
    (∃ q, owner g = some (root,q)) ∨ ∃ x e, x < 2^47 ∧ m.leaf root x = some e ∧ e.frame = g := by
  refine or_congr Iff.rfl ⟨?_,?_⟩
  · rintro ⟨table,p,i,role,level,bound,present,frame⟩
    obtain ⟨i4,i3,i2,rfl⟩ := length_eq_three.mp level
    obtain ⟨_,indices,top⟩ := ownedUserPath trees role
    have h4 : i4 < 256 := top i4 rfl
    have h3 : i3 < 512 := indices i3 (by simp)
    have h2 : i2 < 512 := indices i2 (by simp)
    obtain ⟨x,low,place⟩ : ∃ x, x < 2^47 ∧ path x = [i4,i3,i2] ++ [i] := ⟨_,pageOf h4 h3 h2 bound⟩
    rw [pathLast] at place
    obtain ⟨tables,last⟩ := append_inj' place rfl
    refine ⟨x,m.tables table i,low,(leafTrees trees own low).mpr ⟨table,tables.symm ▸ role,?_,present⟩,frame⟩
    rw [singleton_inj.mp last]
  rintro ⟨x,e,low,found,frame⟩
  obtain ⟨table,role,same,present⟩ := (leafTrees trees own low).mp found
  exact ⟨table,tablePath x,index 12 x,role,rfl,indexBound _ _,by rw [same]; exact present,by rw [same]; exact frame⟩

structure Cloned (m : Machine) (owner : Owner) (src dst : AddressSpace) (n : Machine) (after : Owner) : Prop where
  trees : Trees n after
  root : after dst.pml4 = some (dst.pml4,[])
  new : m.used dst.pml4 = false
  layout : dst = {src with pml4 := dst.pml4}
  used : ∀ g, m.used g = true → n.used g = true
  stays : ∀ g, m.used g = true → after g = owner g
  fresh : ∀ g, m.used g = false → (n.used g = true ↔ Below n after dst.pml4 [] g)
  tables : ∀ g, m.used g = true → n.tables g = m.tables g
  data : ∀ g, m.used g = true → n.data g = m.data g
  copied : ∀ x, x < 2^47 → CopyOf m src.pml4 n dst.pml4 x
  apart : ∀ g, Below n after dst.pml4 [] g → m.used g = false
  once : ∀ x y e d, x < 2^47 → y < 2^47 → n.leaf dst.pml4 x = some e → n.leaf dst.pml4 y = some d →
    e.frame = d.frame → path x = path y
  unowned : ∀ x e, x < 2^47 → n.leaf dst.pml4 x = some e → after e.frame = none
  boot : n.boot = m.boot

section

variable {made : Machine} {new : AddressSpace} (created : Created new m owner made)
include created

theorem Created.other {g} (taken : m.used g = true) : g ≠ new.pml4 := by
  rintro rfl
  rw [created.takes.1] at taken
  cases taken

theorem Created.kept {g} (taken : m.used g = true) : made.used g = true := by
  rw [created.takes.2,update_of_ne (created.other taken),taken]

theorem Created.noTree {g} (trees : Trees m owner) (taken : m.used g = true) (q) :
    update owner new.pml4 (some (new.pml4,[])) g ≠ some (new.pml4,q) := by
  intro again
  rw [update_of_ne (created.other taken)] at again
  exact created.other (trees.owned (ownerRoot trees.forest again)) rfl

theorem Created.source {root} (trees : Trees m owner) (own : IsRoot owner root)
    (leaves : ∀ x e, x < 2^47 → m.leaf root x = some e → m.used e.frame = true) :
    Source made (update owner new.pml4 (some (new.pml4,[]))) root new.pml4 := by
  have apart : root ≠ new.pml4 := created.other (trees.owned own)
  refine ⟨created.trees,(update_of_ne apart _ _).trans own,update_self _ _ _,apart,
    fun x e low found => created.kept (leaves x e low ?_)⟩
  rw [← created.leaf trees own low]
  exact found

theorem Created.nothingCopied (root) :
    CopyingTo made (update owner new.pml4 (some (new.pml4,[]))) root new.pml4 (fun _ => False) made := by
  refine ⟨_,created.trees,fun _ h => h,fun _ _ => rfl,fun g now before => ?_,fun _ _ _ => rfl,fun _ _ h => h.elim,
    fun x low _ => created.empty x low,fun x e low found => ?_,fun x y e d low _ found => ?_,fun _ _ => rfl,rfl⟩
  · rw [now] at before
    cases before
  · rw [created.empty x low] at found
    cases found
  rw [created.empty x low] at found
  cases found

/- What is in use was in use, or belongs to the new tree. -/
theorem Created.split {root done mid after} (trees : Trees m owner)
    (copying : Copying made (update owner new.pml4 (some (new.pml4,[]))) root new.pml4 done mid after) :
    IsRoot after new.pml4 ∧ (∀ g, mid.used g = true ↔ m.used g = true ∨ Below mid after new.pml4 [] g) ∧
    ∀ g, Below mid after new.pml4 [] g → m.used g = false := by
  have top : update owner new.pml4 (some (new.pml4,[])) new.pml4 = some (new.pml4,[]) := update_self _ _ _
  have rootAfter := (copying.stays new.pml4 (created.trees.owned top)).trans top
  simp only [belowLeaf copying.trees rootAfter]
  refine ⟨rootAfter,fun g => ⟨fun now => ?_,?_⟩,fun g below => ?_⟩
  · cases free : m.used g with
    | true => exact .inl rfl
    | false =>
      by_cases isRoot : g = new.pml4
      · exact .inr (.inl ⟨[],isRoot ▸ rootAfter⟩)
      · exact .inr (copying.fresh g now (by rw [created.takes.2,update_of_ne isRoot,free]))
  · rintro (taken | ⟨q,role⟩ | ⟨x,e,low,found,rfl⟩)
    · exact copying.used g (created.kept taken)
    · exact copying.trees.owned role
    · exact (copying.new x e low found).2.1
  by_contra taken
  rw [Bool.not_eq_false] at taken
  rcases below with ⟨q,role⟩ | ⟨x,e,low,found,rfl⟩
  · rw [copying.stays g (created.kept taken)] at role
    exact created.noTree trees taken q role
  have fresh := (copying.new x e low found).1
  rw [created.kept taken] at fresh
  cases fresh

end

theorem vmmCloneCopies {root result} (trees : Trees m owner) (own : IsRoot owner root.pml4)
    (leaves : ∀ x e, x < 2^47 → m.leaf root.pml4 x = some e → m.used e.frame = true)
    (clone : m.vmmClone root = (result,n)) : (∀ as, result = some as → ∃ after, Cloned m owner root as n after) ∧
    (result = none → n.used = m.used ∧ n.boot = m.boot ∧ ∀ g, m.used g = true → n.tables g = m.tables g ∧ n.data g = m.data g) := by
  unfold vmmClone at clone
  cases create : m.vmmCreateAddressSpace with
  | mk made m1 =>
  rw [create] at clone
  cases made with
  | none =>
    cases clone
    have idle := createIdle create
    exact ⟨fun as h => (by cases h),fun _ => ⟨idle.used,idle.boot,fun g _ => ⟨by rw [idle.tables],by rw [idle.data]⟩⟩⟩
  | some new =>
  have created := createdTrees trees create
  have start := created.nothingCopied root.pml4
  dsimp only at clone
  cases copied : cloneL4 {root with pml4 := new.pml4} root m1 with
  | mk success mid =>
  have levels := @cloneL4Copies m1 m1 _ {root with pml4 := new.pml4} root mid (created.source trees own leaves) start
  rw [copied] at clone
  cases success with
  | true =>
    cases clone
    refine ⟨fun as h => ?_,fun h => by cases h⟩
    cases h
    obtain ⟨after,copying⟩ := levels.1 copied
    obtain ⟨rootAfter,taken,clear⟩ := created.split trees copying
    refine ⟨after,copying.trees,rootAfter,created.takes.1,rfl,fun g taken => copying.used g (created.kept taken),
      fun g taken => ?_,fun g free => (taken g).trans (or_iff_right (by rw [free]; exact Bool.false_ne_true)),
      fun g taken => ?_,fun g taken => ?_,fun x low => ?_,clear,copying.once,
      fun x e low found => (copying.new x e low found).2.2,copying.boot.trans created.boot⟩
    · rw [copying.stays g (created.kept taken),update_of_ne (created.other taken)]
    · rw [copying.tables g (created.kept taken) (created.noTree trees taken),created.others g (created.other taken)]
    · rw [copying.data g (created.kept taken),created.data]
    obtain ⟨some,none⟩ := copying.copied x low trivial
    rw [created.leaf trees own low] at some none
    exact ⟨fun e found => by rw [← created.data]; exact some e found,none⟩
  | false =>
    cases clone
    refine ⟨fun as h => (by cases h),fun _ => ?_⟩
    obtain ⟨done,after,copying⟩ := levels.2 copied
    obtain ⟨rootAfter,taken,clear⟩ := created.split trees copying
    have clears := @destroyClears mid after copying.trees {root with pml4 := new.pml4} rootAfter
    refine ⟨?_,(clears.boot.trans copying.boot).trans created.boot,fun g taken => ⟨?_,?_⟩⟩
    · funext g
      rw [Bool.eq_iff_iff,clears.used g,taken g]
      refine ⟨fun now => now.1.resolve_right now.2,fun old => ⟨.inl old,fun below => ?_⟩⟩
      rw [clear g below] at old
      cases old
    · rw [clears.tables,copying.tables g (created.kept taken) (created.noTree trees taken),
        created.others g (created.other taken)]
    · rw [clears.data,copying.data g (created.kept taken),created.data]

theorem copyToData {as va bytes g} (low : va+bytes.length ≤ 2^47)
    (apart : ∀ x e, x < 2^47 → m.leaf as.pml4 x = some e → e.frame ≠ g) : (m.vmmCopyTo as va bytes).2.data g = m.data g := by
  unfold vmmCopyTo
  split
  · rfl
  rename_i nonempty
  refine (untilFailureInvariant (fun n : Machine => n.tables = m.tables ∧ n.data g = m.data g) _ (fun page member n reached => ?_)
    ⟨rfl,rfl⟩).2
  obtain ⟨tables,same⟩ := reached
  obtain ⟨_,below,_⟩ := pagesBound member
  unfold copyPage
  dsimp only
  split
  · exact ⟨tables,same⟩
  rename_i e found
  have leaf : m.leaf as.pml4 (max va page) = some e := (leafTables tables _ _).symm.trans found
  refine ⟨tables,?_⟩
  have inside : max va page < 2^47 := by
    have positive : 0 < bytes.length := length_pos_iff.mpr nonempty
    omega
  rw [← same]
  exact update_of_ne (apart _ e inside leaf).symm _ _

/- Address spaces whose user halves are trees of 4 KiB leaves over frames in use. -/
structure WellFormed (m : Machine) (owner : Owner) : Prop where
  trees : Trees m owner
  leaves : ∀ r, owner r = some (r,[]) → ∀ x e, x < 2^47 → m.leaf r x = some e → m.used e.frame = true

theorem WellFormed.reaches {r g} (formed : WellFormed m owner) (own : IsRoot owner r)
    (reached : m.Reaches r g) : m.used g = true := by
  rcases (belowLeaf formed.trees own).mp ((belowReaches formed.trees own).mpr reached) with ⟨q,role⟩ | ⟨x,e,low,found,rfl⟩
  · exact formed.trees.owned role
  · exact formed.leaves r own x e low found

theorem descendSame {r p} (trees : Trees m owner) (own : IsRoot owner r)
    (same : ∀ g, m.used g = true → n.tables g = m.tables g) (path : UserPath p) : n.descend r p = m.descend r p := by
  induction p using reverseRecOn with
  | nil => rfl
  | append_singleton p i ih =>
    obtain ⟨inner,short,_⟩ := userPathSnoc path
    rw [descendSnoc,descendSnoc,ih inner]
    cases reached : m.descend r p with
    | none => rfl
    | some t =>
      rw [bind_some,bind_some,same t (trees.owned ((descendOwned trees own inner (Nat.lt_succ_iff.mp short)).mp reached))]

theorem leafSame {r x} (trees : Trees m owner) (own : IsRoot owner r)
    (same : ∀ g, m.used g = true → n.tables g = m.tables g) (low : x < 2^47) : n.leaf r x = m.leaf r x := by
  have step : ∀ {t q}, owner t = some (r,q) → ∀ i, n.follow t i = m.follow t i := fun role i =>
    followCongr (by rw [same _ (trees.owned role)])
  have first f (found : m.follow r (index 39 x) = some f) : owner f = some (r,[index 39 x]) :=
    (followTrees trees own (by decide) (indexTop low)).mp found
  refine leafCongr (pteCongr (step own _) (fun f found => step (first f found) _) (fun f g found next => ?_))
    (fun table i place => ?_)
  · exact step ((followTrees trees (first f found) (by simp) (indexValid _ 30 x (by simp))).mp next) _
  · rw [same table (trees.owned ((pteTrees trees own low).mp place).1)]

end Miviex.Machine
