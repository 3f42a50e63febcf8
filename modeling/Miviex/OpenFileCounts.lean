import Miviex.DescriptorInvariant
import Miviex.OpenFiles

/-! The counts of the descriptions and of the pipe ends. A call that closes a description for good
hands exactly that one to the release hook, so the ends of every pipe stay counted. -/
namespace Miviex
open List Option Nat Files
open Function (update update_apply update_comm update_of_ne update_self)

namespace Files

variable {O : Type} {t u v : Files O} {me : Addr} {f : Nat}

def kinds (t : Files O) (f : Nat) : Option (O × Access) := (t.file f).map (fun x => (x.object,x.access))

def kept (x : File O) : File (O × Access) := ⟨(x.object,x.access),x.access,x.nonblock,x.refs⟩

def Leaves (t u : Files O) (gone : List (File O)) : Prop := Dropped t.kinds u.kinds (gone.map kept)

theorem Leaves.same (kinds : u.kinds = t.kinds) : Leaves t u [] := by
  unfold Leaves
  rw [kinds]
  exact .nil _

theorem Leaves.trans {first second} (one : Leaves t u first) (two : Leaves u v second) : Leaves t v (first ++ second) := by
  unfold Leaves
  rw [map_append]
  exact Dropped.append one two

section

variable (t : Files O)

theorem getKinds (f) : (t.fileGet f).kinds = t.kinds := by
  funext g
  by_cases same : g = f
  · subst same
    cases found : t.file g <;> simp [kinds,fileGet,found]
  · simp [kinds,fileGet,same]

theorem allocKinds (object : O) (access nonblock) :
    (t.fileAlloc object access nonblock).2.kinds = update t.kinds t.next (some (object,access)) := by
  funext g
  by_cases same : g = t.next
  · simp [kinds,fileAlloc,same]
  · simp [kinds,fileAlloc,same]

theorem putLeaves (f) : Leaves t (t.filePut f).1 (t.filePut f).2.toList := by
  unfold filePut
  split
  · exact .same rfl
  rename_i x found
  split
  · have emptied : ({t with file := update t.file f none} : Files O).kinds = update t.kinds f none := by
      funext g
      by_cases same : g = f
      · simp [kinds,same]
      · simp [kinds,same]
    unfold Leaves
    rw [emptied]
    exact .cons f (by simp [kinds,found,kept]) (.nil _)
  refine .same ?_
  funext g
  by_cases same : g = f
  · simp [kinds,same,found]
  · simp [kinds,same]

theorem installLeaves (me limit low cloexec) :
    Leaves t (t.fdInstall me limit f low cloexec).2.1 (t.fdInstall me limit f low cloexec).2.2.toList := by
  unfold fdInstall
  split
  · exact .same rfl
  · exact putLeaves t f

theorem closeLeaves (me fd) : Leaves t (t.sysClose me fd).2.1 (t.sysClose me fd).2.2.toList := by
  unfold sysClose
  split
  · exact .same rfl
  · exact putLeaves (t.setFd me fd none false) _

theorem dupLeaves (me limit fd low cloexec) :
    Leaves t (t.sysDup me limit fd low cloexec).2.1 (t.sysDup me limit fd low cloexec).2.2.toList := by
  unfold sysDup
  split
  · exact .same rfl
  split
  · exact .same rfl
  · exact (Leaves.same (getKinds t _)).trans (installLeaves (t.fileGet _) me limit low cloexec)

theorem putSlotLeaves (me i) : Leaves t (t.putSlot me i).1 (t.putSlot me i).2.toList := by
  unfold putSlot
  split
  · exact .same rfl
  · exact putLeaves t _

theorem dup3Leaves (me old new cloexec) :
    Leaves t (t.sysDup3 me old new cloexec).2.1 (t.sysDup3 me old new cloexec).2.2.toList := by
  unfold sysDup3
  split
  · exact .same rfl
  rename_i f _
  split
  · exact .same rfl
  split
  · exact .same rfl
  have last : Leaves (t.putSlot me new).1 (((t.putSlot me new).1.fileGet f).setFd me new (some f) cloexec) [] :=
    .same (getKinds (t.putSlot me new).1 f)
  simpa using (putSlotLeaves t me new).trans last

theorem dup2Leaves (me old new) : Leaves t (t.sysDup2 me old new).2.1 (t.sysDup2 me old new).2.2.toList := by
  unfold sysDup2
  split
  · exact .same rfl
  · exact dup3Leaves t me old new false

theorem closeOneLeaves (me) (only : Nat → Bool) (gone : List (File O)) (i) :
    ∃ more, (closeOne me only (t,gone) i).2 = gone ++ more ∧ Leaves t (closeOne me only (t,gone) i).1 more := by
  unfold closeOne
  split
  · exact ⟨_,rfl,putSlotLeaves t me i⟩
  · exact ⟨[],by simp,.same rfl⟩

theorem closeManyLeaves (me) (only : Nat → Bool) (list : List Nat) (gone : List (File O)) :
    ∃ more, (list.foldl (closeOne me only) (t,gone)).2 = gone ++ more ∧
    Leaves t (list.foldl (closeOne me only) (t,gone)).1 more := by
  induction list generalizing t gone with
  | nil => exact ⟨[],by simp,.same rfl⟩
  | cons i rest ih =>
    obtain ⟨first,all,one⟩ := closeOneLeaves t me only gone i
    obtain ⟨second,whole,two⟩ := ih (closeOne me only (t,gone) i).1 (closeOne me only (t,gone) i).2
    refine ⟨first ++ second,?_,one.trans two⟩
    rw [foldl_cons,← append_assoc,← all]
    exact whole

theorem execLeaves (me) : Leaves t (t.closeOnExec me).1 (t.closeOnExec me).2 := by
  obtain ⟨more,all,leaves⟩ := closeManyLeaves t me (t.cloexec me) (List.range maxFds) []
  unfold closeOnExec
  rw [all]
  exact leaves

theorem exitLeaves (me) : Leaves t (t.closeAll me).1 (t.closeAll me).2 := by
  obtain ⟨more,all,leaves⟩ := closeManyLeaves t me (fun _ => true) (List.range maxFds) []
  unfold closeAll
  rw [all]
  exact leaves

theorem nonblockLeaves (me fd nonblock) : Leaves t (t.setNonblock me fd nonblock).2 [] := by
  unfold setNonblock
  split
  · exact .same rfl
  rename_i f _
  refine .same ?_
  funext g
  by_cases same : g = f
  · subst same
    cases found : t.file g <;> simp [kinds,found]
  · simp [kinds,same]

theorem forkLeaves (me child) : Leaves t (t.forkFds me child) [] := by
  refine .same ?_
  refine List.foldlRecOn (List.range maxFds) (copyOne me child) (b := t) (motive := fun u => u.kinds = t.kinds) rfl ?_
  intro u same i _
  unfold copyOne
  split
  · exact same
  · exact (getKinds u _).trans same

end

end Files

namespace OpenFiles
open Files (Held Change Dropped Leaves)
open References (Counts)

variable {d e : OpenFiles} {me : Addr}

abbrev Kinds := Nat → Option (Object × Access)

noncomputable def number (kinds : Kinds) (kind : Object × Access) : Nat := {f | kinds f = some kind}.ncard

structure Counted (pipe : Nat → Option Pipe) (kinds : Kinds) : Prop where
  finite : {f | kinds f ≠ none}.Finite
  readers : ∀ k p, pipe k = some p → p.readers = number kinds (.pipe k,.rdonly)
  writers : ∀ k p, pipe k = some p → p.writers = number kinds (.pipe k,.wronly)
  inUse : ∀ f k access, kinds f = some (.pipe k,access) → (∃ p, pipe k = some p) ∧ (access = .rdonly ∨ access = .wronly)

variable {pipe : Nat → Option Pipe} {kinds : Kinds} {f : Nat}

section

variable (counted : Counted pipe kinds)
include counted

theorem Counted.counts : Counts kinds (number kinds) := ⟨counted.finite,fun _ => rfl⟩

theorem Counted.filled (free : kinds f = none) (kind other : Object × Access) :
    number (update kinds f (some kind)) other = if other = kind then number kinds kind + 1 else number kinds other := by
  have equal := (counted.counts.fill free kind).equal other
  rw [number,← equal,update_apply]

theorem Counted.cleared {kind} (was : kinds f = some kind) (other : Object × Access) :
    number (update kinds f none) other = if other = kind then number kinds kind - 1 else number kinds other := by
  have equal := (counted.counts.clear was).equal other
  rw [number,← equal,update_apply]

end

theorem keptFinite (finite : {f | kinds f ≠ none}.Finite) (f) (new : Option (Object × Access)) :
    {g | update kinds f new g ≠ none}.Finite := by
  refine (finite.insert f).subset (fun g used => ?_)
  by_cases same : g = f
  · exact .inl same
  · exact .inr (by simpa [same] using used)

variable {object : Object} {k : Nat} {access : Access} {gone : List (File Object)}

theorem unlikePipe (other : ∀ k, object ≠ .pipe k) (k end_) : ((.pipe k,end_) : Object × Access) ≠ (object,access) :=
  fun same => other k (congrArg Prod.fst same).symm

section

variable (counted : Counted pipe kinds)
include counted

theorem Counted.opened (free : kinds f = none) (access)
    (other : ∀ k, object ≠ .pipe k) : Counted pipe (update kinds f (some (object,access))) := by
  refine ⟨keptFinite counted.finite f _,fun k p here => ?_,fun k p here => ?_,fun g k end_ named => ?_⟩
  · rw [counted.filled free,if_neg (unlikePipe other k _)]
    exact counted.readers k p here
  · rw [counted.filled free,if_neg (unlikePipe other k _)]
    exact counted.writers k p here
  by_cases same : g = f
  · subst same
    rw [update_self] at named
    exact absurd (Option.some.inj named).symm (unlikePipe other k end_)
  rw [update_of_ne same] at named
  exact counted.inUse g k end_ named

theorem Counted.made {g} (unmade : pipe k = none) (free : kinds f = none) (other : kinds g = none) (apart : g ≠ f) :
    Counted (update pipe k (some Pipe.new)) (update (update kinds f (some (.pipe k,.rdonly))) g (some (.pipe k,.wronly))) := by
  have absent access : number kinds (.pipe k,access) = 0 := by
    have none_ : {f | kinds f = some (.pipe k,access)} = ∅ := by
      ext h
      simp only [Set.mem_ofPred_eq,Set.mem_empty_iff_false,iff_false]
      intro named
      obtain ⟨p,here⟩ := (counted.inUse h k access named).1
      rw [unmade] at here
      cases here
    rw [number,none_,Set.ncard_empty]
  have counts := (counted.counts.fill free (.pipe k,.rdonly)).fill (i := g)
    (by rw [update_of_ne apart]; exact other) (.pipe k,.wronly)
  have numbers kind : number (update (update kinds f (some (.pipe k,.rdonly))) g
      (some (.pipe k,.wronly))) kind = if kind = (.pipe k,.wronly) then 1 else if kind = (.pipe k,.rdonly) then 1
      else number kinds kind := by
    rw [number,← counts.equal kind,update_apply,update_apply,update_apply]
    simp [absent]
  refine ⟨keptFinite (keptFinite counted.finite f _) g _,fun j p here => ?_,fun j p here => ?_,
    fun h j access named => ?_⟩
  · rw [numbers]
    by_cases same : j = k
    · subst same
      rw [update_self] at here
      cases here
      simp [Pipe.new]
    rw [update_of_ne same] at here
    simp [same,counted.readers j p here]
  · rw [numbers]
    by_cases same : j = k
    · subst same
      rw [update_self] at here
      cases here
      simp [Pipe.new]
    rw [update_of_ne same] at here
    simp [same,counted.writers j p here]
  by_cases second : h = g
  · subst second
    rw [update_self] at named
    cases named
    exact ⟨⟨Pipe.new,update_self ..⟩,.inr rfl⟩
  rw [update_of_ne second] at named
  by_cases first : h = f
  · subst first
    rw [update_self] at named
    cases named
    exact ⟨⟨Pipe.new,update_self ..⟩,.inl rfl⟩
  rw [update_of_ne first] at named
  obtain ⟨⟨p,here⟩,ends⟩ := counted.inUse h j access named
  refine ⟨⟨p,?_⟩,ends⟩
  have apart : j ≠ k := by
    rintro rfl
    rw [unmade] at here
    cases here
  rw [update_of_ne apart]
  exact here

theorem Counted.inUseStill {g} (named : update kinds f none g = some (.pipe k,access)) :
    (∃ p, pipe k = some p) ∧ (access = .rdonly ∨ access = .wronly) := by
  by_cases same : g = f
  · simp [same] at named
  rw [update_of_ne same] at named
  exact counted.inUse g k access named

theorem Counted.closed (was : kinds f = some (object,access)) (other : ∀ k, object ≠ .pipe k) :
    Counted pipe (update kinds f none) := by
  refine ⟨keptFinite counted.finite f _,fun k p here => ?_,fun k p here => ?_,fun g k end_ => counted.inUseStill⟩
  · rw [counted.cleared was,if_neg (unlikePipe other k _)]
    exact counted.readers k p here
  rw [counted.cleared was,if_neg (unlikePipe other k _)]
  exact counted.writers k p here

end

theorem numberZero (finite : {f | kinds f ≠ none}.Finite) {kind} (none_ : number kinds kind = 0) (g) : kinds g ≠ some kind := by
  intro named
  have counts : Counts kinds (number kinds) := ⟨finite,fun _ => rfl⟩
  exact absurd none_ (ne_of_gt (counts.positive named))

theorem Counted.released (counted : Counted pipe kinds) (was : kinds f = some (.pipe k,access)) :
    Counted (update pipe k ((pipe k).bind (pipeRelease access))) (update kinds f none) := by
  obtain ⟨⟨p,here⟩,ends⟩ := counted.inUse f k access was
  have readers : (p.release access).readers = number (update kinds f none) (.pipe k,.rdonly) := by
    rw [counted.cleared was]
    rcases ends with rfl | rfl
    · simp [Pipe.release,counted.readers k p here]
    · simp [Pipe.release,counted.readers k p here]
  have writers : (p.release access).writers = number (update kinds f none) (.pipe k,.wronly) := by
    rw [counted.cleared was]
    rcases ends with rfl | rfl
    · simp [Pipe.release,counted.writers k p here]
    · simp [Pipe.release,counted.writers k p here]
  have others j (other : j ≠ k) end_ : number (update kinds f none) (.pipe j,end_) = number kinds (.pipe j,end_) := by
    rw [counted.cleared was,if_neg]
    intro same
    cases same
    exact other rfl
  have finite := keptFinite counted.finite f none
  rw [here,bind_some]
  have kept j q (found : update pipe k (pipeRelease access p) j = some q) :
      j = k ∧ q = p.release access ∨ j ≠ k ∧ pipe j = some q := by
    by_cases same : j = k
    · subst same
      rw [update_self,pipeRelease] at found
      split at found
      · cases found
      cases found
      exact .inl ⟨rfl,rfl⟩
    rw [update_of_ne same] at found
    exact .inr ⟨same,found⟩
  refine ⟨finite,fun j q found => ?_,fun j q found => ?_,fun g j end_ named => ?_⟩
  · rcases kept j q found with ⟨rfl,rfl⟩ | ⟨other,found⟩
    · exact readers
    rw [others j other]
    exact counted.readers j q found
  · rcases kept j q found with ⟨rfl,rfl⟩ | ⟨other,found⟩
    · exact writers
    rw [others j other]
    exact counted.writers j q found
  obtain ⟨⟨q,found⟩,which⟩ := counted.inUseStill named
  refine ⟨?_,which⟩
  by_cases same : j = k
  · subst same
    rw [update_self,pipeRelease]
    split
    · rename_i none_
      rw [readers,writers] at none_
      rcases which with rfl | rfl
      · exact absurd named (numberZero finite none_.1 g)
      · exact absurd named (numberZero finite none_.2 g)
    · exact ⟨_,rfl⟩
  · exact ⟨q,by rw [update_of_ne same]; exact found⟩

theorem Counted.left (counted : Counted d.pipe kinds) {x} (wakes) (was : kinds f = some (x.object,x.access)) :
    Counted (releaseOne (d,wakes) x).1.pipe (update kinds f none) := by
  unfold releaseOne
  cases object : x.object with
  | node n =>
    rw [object] at was
    exact counted.closed was nofun
  | pipe k =>
    rw [object] at was
    exact counted.released was
  | sock s =>
    rw [object] at was
    exact counted.closed was nofun

theorem releaseOneSame (d : OpenFiles × List Addr) (x) :
    (releaseOne d x).1.files = d.1.files ∧ (releaseOne d x).1.nextPipe = d.1.nextPipe ∧
    ∀ k, d.1.pipe k = none → (releaseOne d x).1.pipe k = none := by
  unfold releaseOne
  split
  · exact ⟨rfl,rfl,fun _ none_ => none_⟩
  · rename_i k _
    refine ⟨rfl,rfl,fun j none_ => ?_⟩
    by_cases same : j = k
    · subst same
      simp [none_]
    · simp [same,none_]
  · exact ⟨rfl,rfl,fun _ none_ => none_⟩

theorem releaseSame (d : OpenFiles) (gone) : (d.release gone).1.files = d.files ∧ (d.release gone).1.nextPipe = d.nextPipe ∧
    ∀ k, d.pipe k = none → (d.release gone).1.pipe k = none := by
  refine List.foldlRecOn gone releaseOne (b := (d,[])) (motive := fun e => e.1.files = d.files ∧
    e.1.nextPipe = d.nextPipe ∧ ∀ k, d.pipe k = none → e.1.pipe k = none) ⟨rfl,rfl,fun _ none_ => none_⟩ ?_
  intro e same x _
  obtain ⟨files,next,unmade⟩ := releaseOneSame e x
  exact ⟨files.trans same.1,next.trans same.2.1,fun k none_ => unmade k (same.2.2 k none_)⟩

theorem releaseFiles (d : OpenFiles) (gone) : (d.release gone).1.files = d.files := (releaseSame d gone).1

theorem Counted.leave {before after kept} (dropped : Dropped before after kept)
    (shape : gone.map Files.kept = kept) (start : OpenFiles × List Addr)
    (counted : Counted start.1.pipe before) : Counted (gone.foldl releaseOne start).1.pipe after := by
  induction dropped generalizing gone start with
  | nil kinds =>
    cases map_eq_nil_iff.mp shape
    exact counted
  | @cons kinds later x rest f was _ ih =>
    cases gone with
    | nil => cases shape
    | cons y gone =>
      obtain ⟨first,more⟩ := cons_eq_cons.mp shape
      rw [← first] at was
      exact ih more (releaseOne start y) (Counted.left (d := start.1) counted start.2 was)

structure Sound (d : OpenFiles) : Prop where
  held : Held d.files none
  counted : Counted d.pipe d.files.kinds
  unmade : ∀ k, d.nextPipe ≤ k → d.pipe k = none
  table : ∀ p i, maxFds ≤ i → d.files.fds p i = none

def Courteous (me : Addr) (d e : OpenFiles) : Prop := ∀ p, p ≠ me → e.files.fds p = d.files.fds p

theorem settled {t u} (counted : Counted d.pipe t.kinds)
    (unmade : ∀ k, d.nextPipe ≤ k → d.pipe k = none) (held : Held u none) (leaves : Leaves t u gone)
    (table : ∀ p i, maxFds ≤ i → u.fds p i = none) : Sound ({d with files := u}.release gone).1 := by
  obtain ⟨files,next,stays⟩ := releaseSame {d with files := u} gone
  refine ⟨?_,?_,fun k beyond => stays k (unmade k (next ▸ beyond)),fun p i beyond => ?_⟩
  · rw [files]
    exact held
  · rw [files]
    exact Counted.leave leaves rfl ({d with files := u},[]) counted
  rw [files]
  exact table p i beyond

theorem courteousRelease {u} (others : ∀ p, p ≠ me → u.fds p = d.files.fds p) :
    Courteous me d ({d with files := u}.release gone).1 := by
  intro p other
  rw [(releaseSame {d with files := u} gone).1]
  exact others p other

theorem Sound.changed (sound : Sound d) {u} (change : Change me d.files u gone) (leaves : Leaves d.files u gone) :
    Sound ({d with files := u}.release gone).1 ∧ Courteous me d ({d with files := u}.release gone).1 := by
  refine ⟨settled sound.counted sound.unmade change.held leaves (fun p i beyond => ?_),courteousRelease change.others⟩
  rw [change.table p i beyond]
  exact sound.table p i beyond

theorem Sound.unopened (sound : Sound d) {f} (beyond : d.files.next ≤ f) : d.files.kinds f = none := by
  simp [kinds,sound.held.fresh f beyond]

theorem Sound.installed (sound : Sound d) (me) (other : ∀ k, object ≠ .pipe k) (access nonblock cloexec limit) :
    let result := (d.files.fileAlloc object access nonblock).2.fdInstall me limit d.files.next 0 cloexec
    Sound ({d with files := result.2.1}.release result.2.2.toList).1 ∧
    Courteous me d ({d with files := result.2.1}.release result.2.2.toList).1 := by
  have held := (allocHeld sound.held object access nonblock).1
  have change := (installChange me held limit 0 cloexec).1
  have leaves := installLeaves (f := d.files.next) (d.files.fileAlloc object access nonblock).2 me limit 0 cloexec
  have counted : Counted d.pipe (d.files.fileAlloc object access nonblock).2.kinds := by
    rw [allocKinds]
    exact sound.counted.opened (sound.unopened (le_refl _)) access other
  refine ⟨settled counted sound.unmade change.held leaves (fun p i beyond => ?_),courteousRelease change.others⟩
  rw [change.table p i beyond]
  exact sound.table p i beyond

theorem allocLater (t : Files Object) (me) {f} (other : f ≠ t.next) (limit low cloexec object access nonblock) :
    (t.fileAlloc object access nonblock).2.fdInstall me limit f low cloexec =
    ((t.fdInstall me limit f low cloexec).1,((t.fdInstall me limit f low cloexec).2.1.fileAlloc object access nonblock).2,
    (t.fdInstall me limit f low cloexec).2.2) := by
  unfold Files.fdInstall
  have fds : (t.fileAlloc object access nonblock).2.fds = t.fds := rfl
  rw [fds]
  split
  · rfl
  unfold Files.filePut
  have file : (t.fileAlloc object access nonblock).2.file f = t.file f := update_of_ne other ..
  rw [file]
  split
  · rfl
  split
  · simp only [Files.fileAlloc]
    rw [update_comm other]
  simp only [Files.fileAlloc]
  rw [update_comm other]

theorem installNext (t : Files Object) (me f limit low cloexec) : (t.fdInstall me limit f low cloexec).2.1.next = t.next := by
  unfold Files.fdInstall Files.filePut
  split
  · rfl
  split
  · rfl
  · split <;> rfl

theorem endsInstalled {t} (held : Held t none) (me one two limit cloexec) :
    let both := ((t.fileAlloc one .rdonly false).2.fileAlloc two .wronly false).2
    let result := installEnds both me limit t.next (t.next+1) cloexec
    Held result.2.1 none ∧ Leaves both result.2.1 result.2.2 ∧ (∀ p, p ≠ me → result.2.1.fds p = t.fds p) ∧
    ∀ p i, maxFds ≤ i → result.2.1.fds p i = t.fds p i := by
  intro both result
  have first := (allocHeld held one .rdonly false).1
  obtain ⟨change,fits⟩ := installChange me first limit 0 cloexec
  have next := installNext (t.fileAlloc one .rdonly false).2 me t.next limit 0 cloexec
  have later := allocLater (t.fileAlloc one .rdonly false).2 me (Nat.ne_of_lt (Nat.lt_succ_self t.next)) limit 0 cloexec
    two .wronly false
  have leaves := installLeaves (f := t.next) both me limit 0 cloexec
  change both.fdInstall me limit t.next 0 cloexec = _ at later
  generalize (t.fileAlloc one .rdonly false).2.fdInstall me limit t.next 0 cloexec = installed at change fits later next
  obtain ⟨answer,u,gone⟩ := installed
  rw [later] at leaves
  have second := (allocHeld change.held two .wronly false).1
  rw [next] at second
  change Held _ (some (t.next+1)) at second
  cases answer with
  | error e =>
    have shape : result = (.error e,((u.fileAlloc two .wronly false).2.filePut (t.next+1)).1,
        gone.toList ++ ((u.fileAlloc two .wronly false).2.filePut (t.next+1)).2.toList) := by
      change installEnds both me limit t.next (t.next+1) cloexec = _
      rw [installEnds,later]
    rw [shape]
    refine ⟨(Files.putHeld second).1,leaves.trans (putLeaves _ _),fun p other => ?_,fun p i beyond => ?_⟩
    · rw [putFds]
      exact change.others p other
    rw [putFds]
    exact change.table p i beyond
  | ok r =>
  obtain ⟨_,_,none_⟩ := fits r rfl
  subst none_
  obtain ⟨more,fills⟩ := installChange me second limit 0 cloexec
  have leaving := installLeaves (f := t.next+1) (u.fileAlloc two .wronly false).2 me limit 0 cloexec
  simp only [result,installEnds,later]
  generalize (u.fileAlloc two .wronly false).2.fdInstall me limit (t.next+1) 0 cloexec = installed at more fills leaving ⊢
  obtain ⟨answer,v,gone⟩ := installed
  have whole := leaves.trans leaving
  have others p (other : p ≠ me) : v.fds p = t.fds p := (more.others p other).trans (change.others p other)
  have table p i (beyond : maxFds ≤ i) : v.fds p i = t.fds p i :=
    (more.table p i beyond).trans (change.table p i beyond)
  cases answer with
  | error e =>
    have closes : Change me v (v.sysClose me r).2.1 (v.sysClose me r).2.2.toList := closeChange more.held r
    refine ⟨closes.held,whole.trans (closeLeaves v me r),fun p other => ?_,fun p i beyond => ?_⟩
    · exact (closes.others p other).trans (others p other)
    · exact (closes.table p i beyond).trans (table p i beyond)
  | ok w =>
    obtain ⟨_,_,none_⟩ := fills w rfl
    subst none_
    exact ⟨more.held,whole,others,table⟩

theorem Sound.pipe2 (sound : Sound d) (mapped memory cloexec limit) :
    Sound (d.sysPipe2 me mapped memory cloexec limit).dev ∧ Courteous me d (d.sysPipe2 me mapped memory cloexec limit).dev := by
  unfold sysPipe2
  split
  · exact ⟨sound,fun _ _ => rfl⟩
  split
  · exact ⟨sound,fun _ _ => rfl⟩
  obtain ⟨held,leaves,others,table⟩ := endsInstalled sound.held me (.pipe d.nextPipe) (.pipe d.nextPipe) limit cloexec
  have counted : Counted d.pipeCreate.2.2.pipe d.pipeCreate.2.2.files.kinds := by
    change Counted (update d.pipe d.nextPipe (some Pipe.new))
      ((d.files.fileAlloc (.pipe d.nextPipe) .rdonly false).2.fileAlloc (.pipe d.nextPipe) .wronly false).2.kinds
    rw [allocKinds,allocKinds]
    exact sound.counted.made (sound.unmade d.nextPipe (le_refl _)) (sound.unopened (le_refl _))
      (sound.unopened (le_succ _)) (ne_of_gt (lt_succ_self _))
  have unmade k (beyond : d.pipeCreate.2.2.nextPipe ≤ k) : d.pipeCreate.2.2.pipe k = none := by
    change d.nextPipe + 1 ≤ k at beyond
    change update d.pipe d.nextPipe (some Pipe.new) k = none
    rw [update_of_ne (by omega)]
    exact sound.unmade k (by omega)
  refine ⟨settled counted unmade held leaves (fun p i beyond => ?_),?_⟩
  · exact (table p i beyond).trans (sound.table p i beyond)
  · exact courteousRelease (d := d.pipeCreate.2.2) others

theorem Courteous.trans {e} (one : Courteous me d e) {c} (two : Courteous me e c) : Courteous me d c :=
  fun p other => (two p other).trans (one p other)

section

variable (sound : Sound d)
include sound

theorem Sound.network (net) : Sound {d with net := net} := ⟨sound.held,sound.counted,sound.unmade,sound.table⟩

theorem Sound.sockInstall (me limit s nonblock cloexec memory) : Sound (d.sockInstall me limit s nonblock cloexec memory).2.1 ∧
    Courteous me d (d.sockInstall me limit s nonblock cloexec memory).2.1 := by
  unfold OpenFiles.sockInstall
  split
  · exact ⟨sound.network _,fun _ _ => rfl⟩
  · exact sound.installed me (by nofun) .rdwr nonblock cloexec limit

theorem Sound.socketpair (me family type proto mapped nonblock cloexec limit made first second) :
    let o := d.sysSocketpair me family type proto mapped nonblock cloexec limit made first second
    Sound o.dev ∧ Courteous me d o.dev := by
  unfold sysSocketpair
  split
  · exact ⟨sound,fun _ _ => rfl⟩
  rename_i type _
  dsimp only
  split
  · exact ⟨sound,fun _ _ => rfl⟩
  split
  · exact ⟨sound,fun _ _ => rfl⟩
  have one := (sound.network (d.net.sockPair type).2.2).sockInstall me limit (d.net.sockPair type).1 nonblock cloexec first
  split
  · rename_i e d' wakes installed
    rw [installed] at one
    exact ⟨one.1.network _,one.2⟩
  rename_i fa d' wakes installed
  rw [installed] at one
  have two := one.1.sockInstall me limit (d.net.sockPair type).2.1 nonblock cloexec second
  have both := Courteous.trans one.2 two.2
  split
  · rename_i e d'' more failed
    rw [failed] at two both
    have closed := two.1.changed (closeChange two.1.held fa) (closeLeaves d''.files me fa)
    exact ⟨closed.1,both.trans closed.2⟩
  rename_i fb d'' more fitted
  rw [fitted] at two both
  exact ⟨two.1,both⟩

theorem Sound.exec (me refused) : Sound (d.processExecve me refused).dev ∧ Courteous me d (d.processExecve me refused).dev := by
  cases refused with
  | some e => exact ⟨sound,fun _ _ => rfl⟩
  | none => exact sound.changed (execChange sound.held) (execLeaves d.files me)

theorem Sound.entered (me pending q) : Sound (d.enter me pending q).dev ∧ Courteous me d (d.enter me pending q).dev := by
  cases q with
  | openat found access nonblock cloexec memory limit =>
    unfold enter sysOpenat
    cases found with
    | error e => exact ⟨sound,fun _ _ => rfl⟩
    | ok n =>
      dsimp only
      split
      · exact ⟨sound,fun _ _ => rfl⟩
      · exact sound.installed me (by nofun) access nonblock cloexec limit
  | pipe2 mapped memory cloexec limit => exact sound.pipe2 mapped memory cloexec limit
  | socketpair family type proto mapped nonblock cloexec limit made first second =>
    exact sound.socketpair me family type proto mapped nonblock cloexec limit made first second
  | dup fd low limit cloexec =>
    exact sound.changed (dupChange sound.held limit fd low cloexec) (dupLeaves d.files me limit fd low cloexec)
  | dup2 old new => exact sound.changed (dup2Change sound.held old new) (dup2Leaves d.files me old new)
  | dup3 old new cloexec =>
    exact sound.changed (dup3Change sound.held old new cloexec) (dup3Leaves d.files me old new cloexec)
  | setCloexec fd cloexec =>
    refine sound.changed (cloexecChange sound.held fd cloexec) (.same ?_)
    unfold Files.setCloexec
    split <;> rfl
  | setNonblock fd nonblock =>
    exact sound.changed (nonblockChange sound.held fd nonblock) (nonblockLeaves d.files me fd nonblock)
  | execve refused => exact sound.exec me refused
  | close fd => exact sound.changed (closeChange sound.held fd) (closeLeaves d.files me fd)

theorem Sound.forked (me) {child} (blank : ∀ i, d.files.fds child i = none) :
    Sound {d with files := d.files.forkFds me child} :=
  (sound.changed (forkChange sound.held blank) (forkLeaves d.files me child)).1

theorem Sound.exited (me) : Sound (d.exit me).1 ∧ Courteous me d (d.exit me).1 ∧ ∀ i, (d.exit me).1.files.fds me i = none := by
  obtain ⟨change,empty⟩ := exitChange sound.held (sound.table me)
  obtain ⟨after,courteous⟩ := sound.changed change (exitLeaves d.files me)
  refine ⟨after,courteous,fun i => ?_⟩
  unfold OpenFiles.exit
  rw [releaseFiles,empty]

end

theorem initialSound (view) : Sound (initial view) where
  held := emptyHeld
  counted := ⟨by simp [initial,kinds,Files.empty],nofun,nofun,nofun⟩
  unmade := fun _ _ => rfl
  table := fun _ _ _ => rfl

theorem anotherSlot {t : Files Object} (held : Held t none) (p) {f i j} (names : t.fds p i = some f)
    (empty : t.fds p j = none) :
    Held ((t.fileGet f).setFd p j (some f) false) none ∧ ((t.fileGet f).setFd p j (some f) false).fds p i = some f := by
  obtain ⟨x,found⟩ := held.named names
  refine ⟨placeHeld (getHeld held found).1 empty false,?_⟩
  have apart : i ≠ j := by
    rintro rfl
    cases names.symm.trans empty
  simpa [Files.setFd,fileGet,apart] using names

theorem Sound.stdio (sound : Sound d) {p} (blank : ∀ i, d.files.fds p i = none) (console) :
    Sound (d.stdio p console) ∧ Courteous p d (d.stdio p console) := by
  cases console with
  | none => exact ⟨sound,fun _ _ => rfl⟩
  | some n =>
  have alloc := (allocHeld sound.held (.node n) .rdwr false).1
  have first := placeHeld alloc (blank 0) false
  have second := anotherSlot first p (f := d.files.next) (i := 0) (j := 1) (by simp [Files.setFd])
    (by simp [Files.setFd,Files.fileAlloc,blank])
  have third := (anotherSlot second.1 p (j := 2) second.2 (by simp [Files.setFd,fileGet,Files.fileAlloc,blank])).1
  refine ⟨⟨third,?_,sound.unmade,fun q i beyond => ?_⟩,fun q other => ?_⟩
  · have kinds : (d.stdio p (some n)).files.kinds = update d.files.kinds d.files.next (some (.node n,.rdwr)) := by
      rw [← allocKinds d.files (.node n) .rdwr false]
      exact (getKinds _ _).trans (getKinds _ _)
    rw [kinds]
    exact sound.counted.opened (sound.unopened (le_refl _)) .rdwr (by simp)
  · have low : (2 : Nat) < maxFds := by decide
    rw [← sound.table q i beyond]
    have apart : i ≠ 0 ∧ i ≠ 1 ∧ i ≠ 2 := by omega
    by_cases same : q = p
    · simp [OpenFiles.stdio,Files.setFd,fileGet,Files.fileAlloc,same,apart]
    · simp [OpenFiles.stdio,Files.setFd,fileGet,Files.fileAlloc,same]
  · simp [OpenFiles.stdio,Files.setFd,fileGet,Files.fileAlloc,other]

def Holds (d : OpenFiles) (p : Addr) : Prop := ∃ i f, d.files.fds p i = some f

structure Accounted (idle : Addr) (m : Machine) : Prop where
  consistent : Scheduler.Consistent idle m.sched
  sound : Sound m.dev
  holders : ∀ p, Holds m.dev p → Scheduler.Alive m.sched p

section
variable {idle : Addr} {m n : Machine}

theorem holdsCourteous {p} (courteous : Courteous me d e) (holds : Holds e p) : p = me ∨ Holds d p := by
  by_cases mine : p = me
  · exact .inl mine
  obtain ⟨i,f,names⟩ := holds
  rw [courteous p mine] at names
  exact .inr ⟨i,f,names⟩

theorem exitHolds (sound : Sound d) (p) (holds : Holds (d.exit me).1 p) : p ≠ me ∧ Holds d p := by
  obtain ⟨_,courteous,empty⟩ := sound.exited me
  have other : p ≠ me := by
    rintro rfl
    obtain ⟨i,f,names⟩ := holds
    rw [empty i] at names
    cases names
  exact ⟨other,(holdsCourteous courteous holds).resolve_left other⟩

theorem stepHolders (accounted : Accounted idle m) {e} (taken : step idle m e = some n) :
    ∀ p, Holds n.dev p → Scheduler.Alive n.sched p := by
  refine Calls.stepHolders accounted.consistent accounted.holders ?_ ?_ ?_ ?_ taken
  · exact fun me pending q p holds => holdsCourteous (accounted.sound.entered me pending q).2 holds
  · exact fun me pending call => nomatch call
  · rintro me child p ⟨i,f,names⟩
    by_cases new : p = child
    · exact .inl new
    refine .inr ⟨i,f,?_⟩
    rw [← names]
    exact (congrFun (forkOthers m.dev.files me new) i).symm
  · exact fun me p holds => exitHolds accounted.sound p holds

theorem stepAccounted (accounted : Accounted idle m) {e} (taken : step idle m e = some n) : Accounted idle n := by
  refine ⟨Calls.stepConsistent accounted.consistent taken,?_,stepHolders accounted taken⟩
  cases Calls.stepTurn taken with
  | still dev _ _ _ =>
    rw [dev]
    exact accounted.sound
  | entered me q o _ entry result =>
    rw [result,Calls.finishDev,entry]
    exact (accounted.sound.entered me (m.pending me) q).1
  | resumed me call => cases call
  | forked me child _ fresh dev _ _ =>
    rw [dev]
    refine accounted.sound.forked me (fun i => ?_)
    cases names : m.dev.files.fds child i with
    | none => rfl
    | some f => exact absurd (accounted.holders child ⟨i,f,names⟩).live fresh
  | exited me _ dev _ _ =>
    rw [dev]
    exact (accounted.sound.exited me).1

theorem startAccounted {view p console} (started : start idle view p console = some m) : Accounted idle m := by
  obtain ⟨s,created,rfl⟩ := map_eq_some_iff.mp started
  have boot : Accounted idle (Calls.System.boot idle (initial view)) :=
    ⟨Scheduler.bootConsistent idle,initialSound view,fun _ ⟨_,_,names⟩ => nomatch names⟩
  have before := stepAccounted boot created
  obtain ⟨_,moved,_,rfl,dev,_⟩ := Calls.kernelStep created
  have blank q i : s.dev.files.fds q i = none := by
    rw [dev]
    rfl
  obtain ⟨sound,courteous⟩ := before.sound.stdio (blank p) console
  refine ⟨before.consistent,sound,fun q holds => ?_⟩
  rcases holdsCourteous courteous holds with rfl | ⟨i,f,names⟩
  · simp only [Scheduler.step,ite_none_right_eq_some,Option.some.injEq] at moved
    rw [← moved.2]
    exact Scheduler.createdAlive _ _ _
  · cases (blank q i).symm.trans names

end

theorem descriptorsAccounted {idle : Addr} {view : View} {p : Addr} {console : Option Addr} {m : Machine}
    (started : start idle view p console = some m) (events : List (Calls.Event FileRequest)) :
    ∀ s ∈ Runs.visited (step idle) m events, (∀ f x, s.dev.files.file f = some x →
    0 < x.refs ∧ x.refs = {slot : Addr × Nat | s.dev.files.fds slot.1 slot.2 = some f}.ncard) ∧
    (∀ q i f, s.dev.files.fds q i = some f → q ∈ s.sched.allProcs ∧ i < maxFds ∧ (s.dev.files.file f).isSome = true) ∧
    (∀ k pipe, s.dev.pipe k = some pipe → pipe.readers = {f | s.dev.files.kinds f = some (.pipe k,.rdonly)}.ncard ∧
    pipe.writers = {f | s.dev.files.kinds f = some (.pipe k,.wronly)}.ncard) ∧
    ∀ f x k, s.dev.files.file f = some x → x.object = .pipe k →
    (s.dev.pipe k).isSome = true ∧ (x.access = .rdonly ∨ x.access = .wronly) := by
  intro s reached
  have accounted : Accounted idle s :=
    Runs.visitedAlways (fun s e t good taken => stepAccounted good taken) (startAccounted started) s reached
  have held := accounted.sound.held
  refine ⟨fun f x found => ⟨held.used f x found,?_⟩,fun q i f names => ⟨?_,?_,?_⟩,fun k pipe here => ?_,
    fun f x k found object => ?_⟩
  · have counts := held.counts.equal f
    have slots : {i | s.dev.files.slot none i = some f} = some '' {slot : Addr × Nat | s.dev.files.fds slot.1 slot.2 = some f} := by
      ext i
      cases i with
      | none | some => simp [slot]
    rw [slots,Set.ncard_image_of_injective _ (some_injective _)] at counts
    rw [← counts]
    simp [Files.refs,found]
  · exact (accounted.holders q ⟨i,f,names⟩).live
  · by_contra beyond
    rw [accounted.sound.table q i (Nat.le_of_not_lt beyond)] at names
    cases names
  · obtain ⟨x,found⟩ := held.named names
    rw [found]
    rfl
  · exact ⟨accounted.sound.counted.readers k pipe here,accounted.sound.counted.writers k pipe here⟩
  have kind : s.dev.files.kinds f = some (.pipe k,x.access) := by simp [kinds,found,object]
  obtain ⟨⟨pipe,here⟩,ends⟩ := accounted.sound.counted.inUse f k x.access kind
  exact ⟨by rw [here]; rfl,ends⟩

def forkedPipe : List (Calls.Event FileRequest) :=
  [.kernel .start,.request (.pipe2 true true true 64),.fork (some 2) true,.request (.dup 3 0 64 false)]

def plainView : View := ⟨fun _ _ => .error .enoent,fun _ => false,fun _ _ => none⟩

theorem forkedPipeAccounted : ∃ m, start 0 plainView 1 (some 7) = some m ∧ ∃ s ∈ Runs.visited (step 0) m forkedPipe,
    (s.dev.files.file 1).map File.refs = some 3 ∧
    {slot : Addr × Nat | s.dev.files.fds slot.1 slot.2 = some 1}.ncard = 3 ∧ (s.dev.pipe 0).map Pipe.readers = some 1 ∧
    {f | s.dev.files.kinds f = some (.pipe 0,.rdonly)}.ncard = 1 := by
  have ended : (start 0 plainView 1 (some 7)).bind (fun m => (Runs.run (step 0) m forkedPipe).map (fun s =>
      ((s.dev.files.file 1).map File.refs,(s.dev.pipe 0).map Pipe.readers))) = some (some 3,some 1) := by
    decide +kernel
  obtain ⟨m,started,ended⟩ := bind_eq_some_iff.mp ended
  obtain ⟨s,seen,same⟩ := Runs.visitedShows ended
  have reached := seen
  obtain ⟨refs,_,ends,_⟩ := descriptorsAccounted started forkedPipe s reached
  simp only [Prod.mk.injEq] at same
  obtain ⟨x,found,count⟩ := map_eq_some_iff.mp same.1
  obtain ⟨pipe,here,readers⟩ := map_eq_some_iff.mp same.2
  refine ⟨m,started,s,reached,same.1,?_,same.2,?_⟩
  · rw [← (refs 1 x found).2,count]
  · rw [← (ends 0 pipe here).1,readers]

end OpenFiles
end Miviex
