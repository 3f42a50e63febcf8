import Miviex.Descriptors

/-! Descriptions and descriptors agree: a description is counted once for every descriptor that
names it. `hand` is a description that a call holds between taking and installing it. -/
namespace Miviex.Files
open List Option Nat
open Function (update update_eq_self update_of_ne update_self)
open References

variable {O : Type} {t u : Files O} {me : Addr} {hand : Option Nat} {f i : Nat}

def slot (t : Files O) (hand : Option Nat) : Option (Addr × Nat) → Option Nat
  | none => hand
  | some x => t.fds x.1 x.2

def refs (t : Files O) (f : Nat) : Nat := ((t.file f).map File.refs).getD 0

structure Held (t : Files O) (hand : Option Nat) : Prop where
  counts : Counts (t.slot hand) t.refs
  used : ∀ f x, t.file f = some x → 0 < x.refs
  fresh : ∀ f, t.next ≤ f → t.file f = none

def objects (t : Files O) (f : Nat) : Option O := (t.file f).map File.object

theorem refsInUse (positive : 0 < t.refs f) : ∃ x, t.file f = some x := by
  unfold refs at positive
  cases found : t.file f with
  | none => simp [found] at positive
  | some x => exact ⟨x,rfl⟩

theorem Held.named (held : Held t hand) (names : t.fds me i = some f) : ∃ x, t.file f = some x := by
  refine refsInUse (held.counts.positive (i := some (me,i)) ?_)
  exact names

theorem Held.handed (held : Held t (some f)) : ∃ x, t.file f = some x := by
  refine refsInUse (held.counts.positive (i := none) ?_)
  rfl

theorem emptyHeld : Held (empty : Files O) none := by
  refine ⟨?_,nofun,fun _ _ => rfl⟩
  have none_ : (empty : Files O).slot none = fun _ => none := by
    funext x
    cases x <;> rfl
  rw [none_]
  exact Counts.empty

theorem slotTaken (t : Files O) (f) : t.slot (some f) = update (t.slot none) none (some f) := by
  funext x
  cases x with
  | none | some => simp [slot]

theorem slotSet (t : Files O) (hand me i new cloexec) :
    (t.setFd me i new cloexec).slot hand = update (t.slot hand) (some (me,i)) new := by
  funext x
  cases x with
  | none => simp [slot]
  | some y =>
    obtain ⟨p,j⟩ := y
    by_cases owner : p = me
    · by_cases same : j = i
      · simp [slot,setFd,owner,same]
      · simp [slot,setFd,owner,same]
    · simp [slot,setFd,owner]

inductive Dropped : (Nat → Option O) → (Nat → Option O) → List (File O) → Prop where
  | nil (objects) : Dropped objects objects []
  | cons {objects later x gone} (f : Nat)
      (was : objects f = some x.object) (rest : Dropped (update objects f none) later gone) :
      Dropped objects later (x::gone)

theorem Dropped.append {before between after} {first second : List (File O)}
    (one : Dropped before between first) (two : Dropped between after second) : Dropped before after (first ++ second) := by
  induction one with
  | nil objects => exact two
  | cons f was rest ih => exact .cons f was (ih two)

theorem Dropped.kept {before after gone} {o : O}
    (dropped : Dropped before after gone) (still : after f = some o) : before f = some o := by
  induction dropped with
  | nil objects => exact still
  | @cons objects later x gone g was rest ih =>
    have earlier := ih still
    by_cases same : f = g
    · simp [same] at earlier
    · simpa [same] using earlier

theorem putHeld (held : Held t (some f)) :
    Held (t.filePut f).1 none ∧ Dropped t.objects (t.filePut f).1.objects (t.filePut f).2.toList := by
  obtain ⟨x,found⟩ := held.handed
  have positive := held.used f x found
  have cleared := held.counts.clear (i := none) rfl
  have slots (u : Files O) (same : u.fds = t.fds) : u.slot none = update (t.slot (some f)) none none := by
    funext x
    cases x with
    | none => simp [slot]
    | some y => simp [slot,same]
  have others : ∀ v : Option (File O), (v.map File.refs).getD 0 = x.refs-1 →
      (∀ y, v = some y → 0 < y.refs) → Held {t with file := update t.file f v} none := by
    intro v count good
    refine ⟨?_,fun g y here => ?_,fun g beyond => ?_⟩
    · have counted : ({t with file := update t.file f v} : Files O).refs = update t.refs f (t.refs f - 1) := by
        funext g
        by_cases same : g = f
        · subst same
          simp only [refs,update_self,found,map_some,getD_some]
          exact count
        · simp [refs,same]
      rw [slots {t with file := update t.file f v} rfl,counted]
      exact cleared
    · by_cases same : g = f
      · subst same
        exact good y (by simpa using here)
      · exact held.used g y (by simpa [same] using here)
    by_cases same : g = f
    · subst same
      have none_ := held.fresh g beyond
      rw [found] at none_
      cases none_
    · simpa [same] using held.fresh g beyond
  unfold filePut
  rw [found]
  dsimp only
  split
  · rename_i last
    have emptied : ({t with file := update t.file f none} : Files O).objects = update t.objects f none := by
      funext g
      by_cases same : g = f
      · simp [same,objects]
      · simp [same,objects]
    refine ⟨others none (by simp [last]) nofun,?_⟩
    rw [emptied]
    exact .cons f (by simp [objects,found]) (.nil _)
  rename_i more
  have unchanged : ({t with file := update t.file f (some {x with refs := x.refs - 1})} : Files O).objects =
      t.objects := by
    funext g
    by_cases same : g = f
    · simp [same,objects,found]
    · simp [same,objects]
  refine ⟨others (some {x with refs := x.refs - 1}) (by simp) ?_,?_⟩
  · intro y same
    cases same
    dsimp only
    omega
  rw [unchanged]
  exact .nil _

theorem placeHeld (held : Held t (some f)) (empty : t.fds me i = none) (cloexec) :
    Held (t.setFd me i (some f) cloexec) none := by
  refine ⟨?_,held.used,held.fresh⟩
  have moved := held.counts.move (i := none) (j := some (me,i)) (a := f) rfl empty
  have slots : (t.setFd me i (some f) cloexec).slot none =
      update (update (t.slot (some f)) none none) (some (me,i)) (some f) := by
    rw [slotSet]
    congr 1
    funext x
    cases x <;> simp [slot]
  rw [slots]
  exact moved

structure Change (me : Addr) (t u : Files O) (gone : List (File O)) : Prop where
  held : Held u none
  objects : Dropped t.objects u.objects gone
  others : ∀ p, p ≠ me → u.fds p = t.fds p
  table : ∀ p i, maxFds ≤ i → u.fds p i = t.fds p i

theorem Change.trans {v first second} (one : Change me t u first)
    (two : Change me u v second) : Change me t v (first ++ second) :=
  ⟨two.held,one.objects.append two.objects,fun p other => (two.others p other).trans (one.others p other),
    fun p i beyond => (two.table p i beyond).trans (one.table p i beyond)⟩

theorem putFds (t : Files O) (f) : (t.filePut f).1.fds = t.fds := by
  unfold filePut
  split
  · rfl
  · split <;> rfl

theorem setOthers (t : Files O) (me i new cloexec) {p} (other : p ≠ me) : (t.setFd me i new cloexec).fds p = t.fds p := by
  simp [setFd,other]

theorem setBeyond (t : Files O) (me new cloexec) (below : i < maxFds) (p) {j}
    (beyond : maxFds ≤ j) : (t.setFd me i new cloexec).fds p j = t.fds p j := by
  have apart : j ≠ i := by omega
  by_cases same : p = me
  · simp [setFd,same,apart]
  · simp [setFd,same]

theorem fdFileSome {fd} (found : t.fdFile me fd = some f) : fd < maxFds ∧ t.fds me fd = some f := by
  unfold fdFile at found
  split at found
  · rename_i below
    exact ⟨below,found⟩
  · cases found

section

variable (held : Held t none)
include held

theorem allocHeld (object : O) (access nonblock) :
    Held (t.fileAlloc object access nonblock).2 (some t.next) ∧
    (t.fileAlloc object access nonblock).2.objects = update t.objects t.next (some object) := by
  have absent := held.fresh t.next (le_refl _)
  refine ⟨⟨?_,fun f x found => ?_,fun f beyond => ?_⟩,?_⟩
  · have filled := held.counts.fill (i := none) rfl t.next
    have slots : (t.fileAlloc object access nonblock).2.slot (some t.next) = t.slot (some t.next) := by
      funext x; cases x <;> rfl
    have counted : (t.fileAlloc object access nonblock).2.refs = update t.refs t.next (t.refs t.next + 1) := by
      funext f
      by_cases same : f = t.next
      · simp [same,absent,refs,fileAlloc]
      · simp [same,refs,fileAlloc]
    rw [slots,slotTaken,counted]
    exact filled
  · by_cases same : f = t.next
    · subst same
      simp only [fileAlloc,update_self,Option.some.injEq] at found
      rw [← found]
      exact one_pos
    · exact held.used f x (by simpa [fileAlloc,same] using found)
  · dsimp only [fileAlloc] at beyond ⊢
    rw [update_of_ne (by omega)]
    exact held.fresh f (by omega)
  funext f
  by_cases same : f = t.next
  · simp [same,objects,fileAlloc]
  · simp [same,objects,fileAlloc]

theorem getHeld {x} (found : t.file f = some x) :
    Held (t.fileGet f) (some f) ∧ (t.fileGet f).objects = t.objects := by
  refine ⟨⟨?_,fun g y here => ?_,fun g beyond => ?_⟩,?_⟩
  · have filled := held.counts.fill (i := none) rfl f
    have slots : (t.fileGet f).slot (some f) = t.slot (some f) := by funext x; cases x <;> rfl
    have counted : (t.fileGet f).refs = update t.refs f (t.refs f + 1) := by
      funext g
      by_cases same : g = f
      · simp [same,refs,fileGet,found]
      · simp [same,refs,fileGet]
    rw [slots,slotTaken,counted]
    exact filled
  · by_cases same : g = f
    · subst same
      simp only [fileGet,update_self,found,map_some,Option.some.injEq] at here
      rw [← here]
      exact succ_pos _
    · exact held.used g y (by simpa [fileGet,same] using here)
  · by_cases same : g = f
    · subst same
      have none_ := held.fresh g beyond
      rw [found] at none_
      cases none_
    · simpa [fileGet,same] using held.fresh g beyond
  funext g
  by_cases same : g = f
  · simp [same,objects,fileGet,found]
  · simp [same,objects,fileGet]

theorem takeHeld (names : t.fds me i = some f) (cloexec) : Held (t.setFd me i none cloexec) (some f) := by
  refine ⟨?_,held.used,held.fresh⟩
  have moved := held.counts.move (i := some (me,i)) (j := none) (a := f) names rfl
  rw [slotTaken,slotSet]
  exact moved

theorem Change.none : Change me t t [] := ⟨held,.nil _,fun _ _ => rfl,fun _ _ _ => rfl⟩

theorem clearChange (below : i < maxFds) (names : t.fds me i = some f) :
    Change me t ((t.setFd me i none false).filePut f).1 ((t.setFd me i none false).filePut f).2.toList := by
  obtain ⟨put,dropped⟩ := putHeld (takeHeld held names false)
  refine ⟨put,dropped,fun p other => ?_,fun p j beyond => ?_⟩
  · rw [putFds]; exact setOthers t me i none false other
  · rw [putFds]; exact setBeyond t me none false below p beyond

theorem closeChange (fd) : Change me t (t.sysClose me fd).2.1 (t.sysClose me fd).2.2.toList := by
  unfold sysClose
  split
  · exact Change.none held
  rename_i f found
  obtain ⟨below,names⟩ := fdFileSome found
  exact clearChange held below names

end

theorem installChange (me) (held : Held t (some f)) (limit low cloexec) :
    let result := t.fdInstall me limit f low cloexec
    Change me t result.2.1 result.2.2.toList ∧ ∀ i, result.1 = .ok i →
      i < maxFds ∧ result.2.1.fds me i = some f ∧ result.2.2 = Option.none := by
  unfold fdInstall
  split
  · rename_i i chosen
    have good := List.find?_some chosen
    have inside := mem_range.mp (mem_of_find?_eq_some chosen)
    simp only [Bool.and_eq_true,decide_eq_true_eq,isNone_iff_eq_none] at good
    have below : i < maxFds := by omega
    refine ⟨⟨placeHeld held good.2 cloexec,.nil _,fun p other => setOthers t me i (some f) cloexec other,
      fun p j beyond => setBeyond t me (some f) cloexec below p beyond⟩,fun j same => ?_⟩
    cases same
    exact ⟨below,by simp [setFd],rfl⟩
  obtain ⟨put,dropped⟩ := putHeld held
  refine ⟨⟨put,dropped,fun p _ => by rw [putFds],fun p j _ => by rw [putFds]⟩,nofun⟩

theorem dupChange (held : Held t none) (limit fd low cloexec) :
    Change me t (t.sysDup me limit fd low cloexec).2.1 (t.sysDup me limit fd low cloexec).2.2.toList := by
  unfold sysDup
  split
  · exact Change.none held
  rename_i f found
  split
  · exact Change.none held
  obtain ⟨x,inUse⟩ := held.named (fdFileSome found).2
  obtain ⟨taken,same⟩ := getHeld held inUse
  have installed := (installChange me taken limit low cloexec).1
  have objects := installed.objects
  rw [same] at objects
  exact ⟨installed.held,objects,installed.others,installed.table⟩

theorem putCommutes (t : Files O) (me i f new cloexec) :
    (t.setFd me i new cloexec).filePut f = ((t.filePut f).1.setFd me i new cloexec,(t.filePut f).2) := by
  unfold filePut
  have same : (t.setFd me i new cloexec).file = t.file := rfl
  rw [same]
  split
  · rfl
  · split <;> rfl

theorem slotChange (held : Held t none) (below : i < maxFds) :
    Change me t ((t.putSlot me i).1.setFd me i none false) (t.putSlot me i).2.toList := by
  unfold putSlot
  cases names : t.fds me i with
  | none =>
    have same : (t.setFd me i Option.none false).slot Option.none = t.slot Option.none := by
      rw [slotSet]
      funext x
      by_cases here : x = some (me,i)
      · rw [here,update_self]; exact names.symm
      · rw [update_of_ne here]
    refine ⟨⟨?_,held.used,held.fresh⟩,.nil _,fun p other => setOthers t me i _ false other,
      fun p j beyond => setBeyond t me _ false below p beyond⟩
    rw [same]
    exact held.counts
  | some f =>
    have cleared := clearChange held below names
    rw [putCommutes] at cleared
    exact cleared

theorem putSlotFds (t : Files O) (me i) : (t.putSlot me i).1.fds = t.fds := by
  unfold putSlot
  split
  · rfl
  · exact putFds t _

theorem setTwice (t : Files O) (me i old new before cloexec) :
    (t.setFd me i old before).setFd me i new cloexec = t.setFd me i new cloexec := by
  simp [setFd]

theorem getSet (t : Files O) (me i f new cloexec) :
    (t.setFd me i new cloexec).fileGet f = (t.fileGet f).setFd me i new cloexec := rfl

section

variable (held : Held t none)
include held

theorem dup3Change (old new cloexec) :
    Change me t (t.sysDup3 me old new cloexec).2.1 (t.sysDup3 me old new cloexec).2.2.toList := by
  unfold sysDup3
  split
  · exact Change.none held
  rename_i f found
  split
  · exact Change.none held
  rename_i inside
  split
  · exact Change.none held
  rename_i apart
  have below : new < maxFds := Nat.lt_of_not_le inside
  have cleared : Change me t ((t.putSlot me new).1.setFd me new Option.none false) (t.putSlot me new).2.toList :=
    slotChange held below
  have fds : (t.putSlot me new).1.fds = t.fds := putSlotFds t me new
  generalize t.putSlot me new = put at cleared fds ⊢
  obtain ⟨left,gone⟩ := put
  dsimp only at cleared fds ⊢
  have stays : (left.setFd me new Option.none false).fds me old = some f := by
    simp [setFd,apart,fds,(fdFileSome found).2]
  obtain ⟨x,inUse⟩ := cleared.held.named stays
  obtain ⟨taken,same⟩ := getHeld cleared.held inUse
  have free : ((left.setFd me new Option.none false).fileGet f).fds me new = Option.none := by simp [setFd,fileGet]
  have placed := placeHeld taken free cloexec
  have shape : ((left.setFd me new Option.none false).fileGet f).setFd me new (some f) cloexec =
      (left.fileGet f).setFd me new (some f) cloexec := by
    rw [getSet,setTwice]
  rw [shape] at placed
  have objects : ((left.fileGet f).setFd me new (some f) cloexec).objects = (left.setFd me new Option.none false).objects := by
    rw [← same]
    rfl
  refine ⟨placed,?_,fun p other => ?_,fun p j beyond => ?_⟩
  · rw [objects]; exact cleared.objects
  · rw [setOthers _ _ _ _ _ other]
    change left.fds p = t.fds p
    rw [fds]
  rw [setBeyond _ _ _ _ below p beyond]
  change left.fds p j = t.fds p j
  rw [fds]

theorem dup2Change (old new) :
    Change me t (t.sysDup2 me old new).2.1 (t.sysDup2 me old new).2.2.toList := by
  unfold sysDup2
  split
  · exact Change.none held
  · exact dup3Change held old new false

theorem cloexecChange (fd cloexec) : Change me t (t.setCloexec me fd cloexec).2 [] := by
  unfold setCloexec
  split
  · exact Change.none held
  rename_i f found
  obtain ⟨_,names⟩ := fdFileSome found
  have fds : (t.setFd me fd (some f) cloexec).fds = t.fds := by
    unfold setFd
    rw [← names,update_eq_self,update_eq_self]
  have slots : (t.setFd me fd (some f) cloexec).slot Option.none = t.slot Option.none := by
    funext x
    cases x with
    | none => rfl
    | some y => simp only [slot,fds]
  refine ⟨⟨?_,held.used,held.fresh⟩,.nil _,fun p _ => by rw [fds],fun p j _ => by rw [fds]⟩
  rw [slots]
  exact held.counts

theorem nonblockChange (fd nonblock) : Change me t (t.setNonblock me fd nonblock).2 [] := by
  unfold setNonblock
  split
  · exact Change.none held
  rename_i f found
  obtain ⟨x,inUse⟩ := held.named (fdFileSome found).2
  rw [inUse,map_some]
  generalize shape : ({t with file := update t.file f (some {x with nonblock := nonblock})} : Files O) = u
  have refs : u.refs = t.refs := by
    funext g
    by_cases same : g = f
    · simp [← shape,Files.refs,same,inUse]
    · simp [← shape,Files.refs,same]
  have objects : u.objects = t.objects := by
    funext g
    by_cases same : g = f
    · simp [← shape,Files.objects,same,inUse]
    · simp [← shape,Files.objects,same]
  have slots : u.slot Option.none = t.slot Option.none := by
    funext x
    cases x <;> rw [← shape] <;> rfl
  refine ⟨⟨?_,fun g y found => ?_,fun g beyond => ?_⟩,?_,fun p _ => by rw [← shape],fun p j _ => by rw [← shape]⟩
  · rw [slots,refs]; exact held.counts
  · rw [← shape] at found
    by_cases same : g = f
    · simp only [same,update_self,Option.some.injEq] at found
      rw [← found]
      exact held.used f x inUse
    · exact held.used g y (by simpa [same] using found)
  · rw [← shape] at beyond ⊢
    by_cases same : g = f
    · subst same
      have none_ := held.fresh g beyond
      rw [inUse] at none_
      cases none_
    · simpa [same] using held.fresh g beyond
  · rw [objects]; exact .nil _

end

theorem closeOneChange (me) (held : Held t none) (only : Nat → Bool) (gone : List (File O)) (below : i < maxFds) :
    ∃ more, (closeOne me only (t,gone) i).2 = gone ++ more ∧ Change me t (closeOne me only (t,gone) i).1 more := by
  unfold closeOne
  split
  · exact ⟨_,rfl,slotChange held below⟩
  · exact ⟨[],by simp,Change.none held⟩

theorem closeManyChange (me) (held : Held t none) (only : Nat → Bool) (list : List Nat) (gone : List (File O))
    (below : ∀ i ∈ list, i < maxFds) : ∃ more, (list.foldl (closeOne me only) (t,gone)).2 = gone ++ more ∧
    Change me t (list.foldl (closeOne me only) (t,gone)).1 more := by
  induction list generalizing t gone with
  | nil => exact ⟨[],by simp,Change.none held⟩
  | cons i rest ih =>
    obtain ⟨more,grown,change⟩ := closeOneChange me held only gone (below i mem_cons_self)
    simp only [foldl_cons]
    generalize closeOne me only (t,gone) i = closed at grown change
    obtain ⟨next,now⟩ := closed
    dsimp only at grown change
    obtain ⟨later,longer,further⟩ := ih change.held now (fun j inside => below j (mem_cons_of_mem i inside))
    exact ⟨more ++ later,by rw [longer,grown,append_assoc],change.trans further⟩

theorem execChange (held : Held t none) : Change me t (t.closeOnExec me).1 (t.closeOnExec me).2 := by
  obtain ⟨more,all,change⟩ := closeManyChange me held (t.cloexec me) (List.range maxFds) []
    (fun i inside => mem_range.mp inside)
  unfold closeOnExec
  rw [all]
  exact change

theorem closeOneEmpties (me) (only : Nat → Bool) (closed : Files O × List (File O)) (i) :
    (only i = true → (closeOne me only closed i).1.fds me i = none) ∧
    ∀ j, closed.1.fds me j = none → (closeOne me only closed i).1.fds me j = none := by
  unfold closeOne
  split
  · have fds := putSlotFds closed.1 me i
    generalize closed.1.putSlot me i = put at fds ⊢
    obtain ⟨left,gone⟩ := put
    dsimp only at fds ⊢
    refine ⟨fun _ => by simp [setFd],fun j empty => ?_⟩
    by_cases same : j = i
    · simp [setFd,same]
    · simp [setFd,same,fds,empty]
  rename_i skipped
  exact ⟨fun chosen => absurd chosen skipped,fun j empty => empty⟩

theorem closeManyEmpties (me) (only : Nat → Bool) (list : List Nat) (closed : Files O × List (File O)) (i)
    (empty : closed.1.fds me i = none ∨ i ∈ list ∧ only i = true) :
    (list.foldl (closeOne me only) closed).1.fds me i = none := by
  induction list generalizing closed with
  | nil => exact empty.resolve_right (fun inside => nomatch inside.1)
  | cons j rest ih =>
    obtain ⟨chosen,kept⟩ := closeOneEmpties me only closed j
    refine ih (closeOne me only closed j) ?_
    rcases empty with already | ⟨inside,picked⟩
    · exact .inl (kept i already)
    rcases mem_cons.mp inside with same | later
    · subst same; exact .inl (chosen picked)
    · exact .inr ⟨later,picked⟩

theorem exitChange (held : Held t none) (beyond : ∀ i, maxFds ≤ i → t.fds me i = none) :
    Change me t (t.closeAll me).1 (t.closeAll me).2 ∧ ∀ i, (t.closeAll me).1.fds me i = none := by
  obtain ⟨more,all,change⟩ := closeManyChange me held (fun _ => true) (List.range maxFds) []
    (fun i inside => mem_range.mp inside)
  refine ⟨?_,fun i => ?_⟩
  · unfold closeAll
    rw [all]
    exact change
  unfold closeAll
  refine closeManyEmpties me (fun _ => true) (List.range maxFds) (t,[]) i ?_
  by_cases inside : i < maxFds
  · exact .inr ⟨mem_range.mpr inside,rfl⟩
  · exact .inl (beyond i (Nat.le_of_not_lt inside))

theorem forkOthers (t : Files O) (me) {child p} (other : p ≠ child) : (t.forkFds me child).fds p = t.fds p := by
  refine List.foldlRecOn (List.range maxFds) (copyOne me child) (b := t) (motive := fun u => u.fds p = t.fds p) rfl ?_
  intro u same i _
  unfold copyOne
  split
  · exact same
  · exact (setOthers _ child i _ _ other).trans same

theorem forkChange {child} (held : Held t none) (blank : ∀ i, t.fds child i = none) :
    Change child t (t.forkFds me child) [] := by
  have copied : ∀ (list : List Nat) (u : Files O), list.Nodup → (∀ i ∈ list, i < maxFds) →
      (∀ i ∈ list, u.fds child i = none) → Held u none → Change child u (list.foldl (copyOne me child) u) [] := by
    intro list
    induction list with
    | nil => intro u _ _ _ held; exact Change.none held
    | cons i rest ih =>
    intro u distinct below empty held
    have first : Change child u (copyOne me child u i) [] ∧
        ∀ j, j ≠ i → (copyOne me child u i).fds child j = u.fds child j := by
      unfold copyOne
      cases names : u.fds me i with
      | none => exact ⟨Change.none held,fun _ _ => rfl⟩
      | some f =>
      obtain ⟨x,inUse⟩ := held.named names
      obtain ⟨taken,same⟩ := getHeld held inUse
      have free : (u.fileGet f).fds child i = none := empty i mem_cons_self
      refine ⟨⟨placeHeld taken free _,?_,fun p other => setOthers _ child i _ _ other,fun p j beyond =>
        setBeyond _ child _ _ (below i mem_cons_self) p beyond⟩,fun j other => ?_⟩
      · change Dropped u.objects (u.fileGet f).objects []
        rw [same]
        exact .nil _
      · simp [setFd,fileGet,other]
    have fresh : i ∉ rest := (nodup_cons.mp distinct).1
    have later := ih (copyOne me child u i) (nodup_cons.mp distinct).2
      (fun j inside => below j (mem_cons_of_mem i inside))
      (fun j inside => by
        rw [first.2 j (fun same => fresh (same ▸ inside))]
        exact empty j (mem_cons_of_mem i inside)) first.1.held
    exact first.1.trans later
  exact copied (List.range maxFds) t nodup_range (fun i inside => mem_range.mp inside) (fun i _ => blank i) held

end Miviex.Files
