import Miviex.PathParts

/-! Two states that differ only in the entries of one directory, seen by a process that may not
search it. Walking never reaches the entries, but most operations look at them before the
permission; what each answers is given as a table of what the name is. -/
namespace Miviex.Vfs
open List Option Bool

/- Everything the calls can see besides the entries of `D` is the same. -/
structure Alike (D : Addr) (s t : Vfs) : Prop where
  inodes : t.inodes = s.inodes
  root : t.inode t.fsRoot = s.inode s.fsRoot
  mounts : t.mounts = s.mounts
  readOnly : t.readOnly = s.readOnly
  above : ∀ n, n ≠ D → t.above n = s.above n
  names : ∀ n name, n ≠ D → t.vfsChild n name = s.vfsChild n name
  entries : ∀ n name d, n ≠ D → s.vfsChild n name = some (some d) →
    t.inode d = s.inode d ∧ t.mountpoint (s.inode d) = s.mountpoint (s.inode d)
  within : ∀ src, t.inside src D = s.inside src D
  ends : ∀ name, (s.vfsChild D name).isSome ∧ (t.vfsChild D name).isSome

variable {D cur : Addr} {s t : Vfs} {c : Cred} {k : Hooks} {memory : Bool}

namespace Alike

section

variable (alike : Alike D s t)
include alike

theorem isDir (n) : t.isDir n = s.isDir n := by
  unfold Vfs.isDir
  rw [alike.inodes]

theorem ownName (n) : t.ownName n = s.ownName n := by
  simp only [Vfs.ownName,alike.isDir,alike.inodes]

theorem startOf (base path) : t.startOf base path = s.startOf base path := by
  simp only [Vfs.startOf,alike.root]

theorem slashAfterFile (n rest) : t.slashAfterFile n rest = s.slashAfterFile n rest := by
  simp only [Vfs.slashAfterFile,alike.isDir]

theorem step (other : cur ≠ D) (k name) : t.step k cur name = s.step k cur name := by
  unfold Vfs.step
  rw [alike.above cur other,alike.names cur name other]
  cases found : s.vfsChild cur name with
  | none => rfl
  | some entry =>
    cases entry with
    | none => rfl
    | some d =>
      have same := (alike.entries cur name d other found).1
      simp only [map_some,same]

theorem nameOf (other : cur ≠ D) (n name) : t.nameOf cur n name = s.nameOf cur n name := by
  simp only [Vfs.nameOf,alike.isDir,alike.inodes,alike.names cur name other]

theorem baseDir (dir path) : t.baseDir dir path = s.baseDir dir path := by
  simp only [Vfs.baseDir,alike.root]

end

end Alike

section

variable (alike : Alike D s t) (hidden : c.permission (s.inodes D) mayExec = false)
include alike hidden

theorem componentAlike (follow comp rest) (nested : Option (List UInt8 → Walked)) (goOn : Addr → Option Addr → Walked) :
    t.component k c memory follow cur comp rest nested goOn = s.component k c memory follow cur comp rest nested goOn := by
  unfold component
  simp only [alike.isDir,alike.inodes]
  by_cases other : cur = D
  · subst other
    simp only [hidden,false_eq_true,not_false_eq_true,if_true]
  rw [alike.step other]
  have onward : t.onward rest goOn = s.onward rest goOn := by
    funext next nd
    simp only [Vfs.onward,alike.slashAfterFile]
  rw [onward]
  simp only [alike.nameOf other]

theorem walkPathAlike (nested : Addr → Option (List UInt8 → Walked)) (path follow cur d) :
    t.walkPath k c memory nested path follow cur d = s.walkPath k c memory nested path follow cur d := by
  fun_induction walkPath s k c memory nested path follow cur d with
  | case1 path cur d split => exact walkPathDone split
  | case2 path cur d first more split later =>
    rw [walkPathOn split,componentAlike alike hidden]
    simp only [later]

theorem walkAlike (links base path follow) :
    t.walk k c memory links base path follow = s.walk k c memory links base path follow := by
  induction links generalizing base path follow with
  | zero =>
    simp only [walk]
    rw [alike.startOf,alike.ownName,walkPathAlike alike hidden]
  | succ links ih =>
    simp only [walk]
    rw [alike.startOf,alike.ownName,walkPathAlike alike hidden]
    simp only [ih]

end

section

variable (alike : Alike D s t) (hidden : c.permission (s.inodes D) mayExec = false)

include alike hidden

theorem resolveAlike (base path follow) :
    t.vfsResolveDentry k c memory base path follow = s.vfsResolveDentry k c memory base path follow := by
  simp only [vfsResolveDentry,walkAlike alike hidden]

theorem parentAlike (base path) : t.vfsParent k c memory base path = s.vfsParent k c memory base path := by
  simp only [vfsParent,vfsResolve,resolveAlike alike hidden,alike.isDir]

theorem atParentAlike (dir path) : t.atParent k c memory dir path = s.atParent k c memory dir path := by
  simp only [atParent,alike.baseDir,parentAlike alike hidden]

theorem atInodeAlike (dir path follow) : t.atInode k c memory dir path follow = s.atInode k c memory dir path follow := by
  simp only [atInode,alike.baseDir,vfsResolve,resolveAlike alike hidden]

end

theorem noSearchNoWrite (dir : s.isDir D) (hidden : c.permission (s.inodes D) mayExec = false) :
    c.permission (s.inodes D) (mayWrite ||| mayExec) = false := by
  have type : (s.inodes D).type = .directory := dir
  simp only [Cred.permission,Cred.check,false_eq_true,if_false] at hidden ⊢
  by_cases root : c.euid = 0
  · simp [root,type] at hidden
  rw [if_neg root,beq_eq_false_iff_ne] at hidden ⊢
  intro both
  apply hidden
  have masked := congrArg (· &&& mayExec) both
  simpa [BitVec.and_assoc,mayWrite,mayExec] using masked

abbrev Answer := Option (Option Errno)

def answer {α : Type} (r : Option (Except Errno α × Vfs)) : Answer :=
  r.map (fun (result,_) => match result with
    | .error e => some e
    | .ok _ => none)

inductive Shown where
  | nothing
  | free
  | taken
  | file
  | directory
  | mountpoint
  | nonempty
  | empty
  | inner
  | movable
  deriving DecidableEq, Repr

def presence (found : Option Addr) : Shown := if found.isSome then .taken else .free

def kind (s : Vfs) : Option Addr → Shown
  | none => .free
  | some d => if s.isDir (s.inode d) then .directory else .file

def emptiness (s : Vfs) : Option Addr → Option Shown
  | none => some .free
  | some d =>
    if ¬ s.isDir (s.inode d) then some .file
    else (s.mountpoint (s.inode d)).map (fun mounted =>
      if mounted then .mountpoint else if (s.firstChild d).isSome then .nonempty else .empty)

def mobility (s : Vfs) (ndir : Addr) : Option Addr → Option Shown
  | none => some .free
  | some src =>
    if s.isDir (s.inode src) then
      (s.mountpoint (s.inode src)).bind (fun mounted =>
        if mounted then some .mountpoint
        else (s.inside src ndir).map (fun within => if within then .inner else .movable))
    else some .movable

def linkRefusedFirst (s : Vfs) (dir target : Addr) : Option Errno :=
  if s.isDir target then some .eperm
  else if s.dev dir ≠ s.dev target ∨ ¬ (s.inodes dir).creates then some .exdev
  else if s.removed dir then some .enoent
  else none

inductive Operation where
  | create (dir : Addr) (name : Name) (type : FileType) (mode : BitVec 32) (places : Places)
  | unlink (dir : Addr) (name : Name)
  | rmdir (dir : Addr) (name : Name)
  | link (dir : Addr) (name : Name) (target : Addr) (places : Places)
  | rename (odir : Addr) (oname : Name) (ndir : Addr) (nname : Name) (noreplace : Bool)

namespace Operation

def answered (s : Vfs) (c : Cred) : Operation → Answer
  | create dir name type mode places => answer (s.vfsCreate c dir name type mode places)
  | unlink dir name => answer (s.vfsUnlink c dir name)
  | rmdir dir name => answer (s.vfsRmdir c dir name)
  | link dir name target places => answer (s.vfsLink c dir name target places)
  | rename odir oname ndir nname noreplace => answer (s.vfsRename c odir oname ndir nname noreplace)

def first : Operation → Addr
  | create dir _ _ _ _ => dir
  | unlink dir _ => dir
  | rmdir dir _ => dir
  | link dir _ _ _ => dir
  | rename odir _ _ _ _ => odir

def on (D : Addr) : Operation → Prop
  | create dir _ _ _ _ => dir = D
  | unlink dir _ => dir = D
  | rmdir dir _ => dir = D
  | link dir _ _ _ => dir = D
  | rename odir _ ndir _ _ => odir = D ∨ ndir = D

/- What the answer tells of the entries of `D`, to a process that may not search it. -/
def shows (s : Vfs) (D : Addr) : Operation → Option Shown
  | create dir name _ _ _ =>
    if name.length > nameMax then some .nothing else (s.vfsChild dir name).map presence
  | unlink dir name => (s.vfsChild dir name).map s.kind
  | rmdir dir name => (s.vfsChild dir name).bind s.emptiness
  | link dir name target _ =>
    match s.linkRefusedFirst dir target with
    | some _ => some .nothing
    | none => (s.vfsChild dir name).map presence
  | rename odir oname ndir nname _ =>
    if odir ≠ D then some .nothing
    else match s.renameTarget odir ndir nname with
      | some e => if e = .enoent then some .nothing else (s.vfsChild odir oname).map presence
      | none => (s.vfsChild odir oname).bind (s.mobility ndir)

end Operation

def denied (s : Vfs) (dir : Addr) : Errno := if s.vfsReadonly dir then .erofs else .eacces

def Operation.refusal (s : Vfs) : Operation → Shown → Errno
  | create _ _ _ _ _, .nothing => .enametoolong
  | create _ _ _ _ _, .taken => .eexist
  | create dir _ _ _ _, _ =>
    if ¬ (s.inodes dir).creates then .eperm else if s.removed dir then .enoent else s.denied dir
  | unlink _ _, .free => .enoent
  | unlink _ _, .directory => .eisdir
  | unlink dir _, _ => if ¬ (s.inodes dir).creates then .eperm else s.denied dir
  | rmdir _ _, .free => .enoent
  | rmdir _ _, .file => .enotdir
  | rmdir _ _, .mountpoint => .ebusy
  | rmdir _ _, .nonempty => .enotempty
  | rmdir dir _, _ => s.denied dir
  | link dir _ target _, .nothing => (s.linkRefusedFirst dir target).getD .eperm
  | link _ _ _ _, .taken => .eexist
  | link dir name _ _, _ => if name.length > nameMax then .enametoolong else s.denied dir
  | rename _ _ _ _ _, .nothing => .enoent
  | rename _ _ _ _ _, .free => .enoent
  | rename _ _ _ _ _, .mountpoint => .ebusy
  | rename _ _ _ _ _, .inner => .einval
  | rename odir _ ndir nname _, .taken => (s.renameTarget odir ndir nname).getD .enoent
  | rename odir _ _ _ _, _ => s.denied odir

def Operation.Answers (op : Operation) (s : Vfs) (c : Cred) (D : Addr) : Prop :=
  op.answered s c = (op.shows s D).map (fun shown => some (op.refusal s shown))

section

variable (dir : s.isDir D) (closed : c.permission (s.inodes D) (mayWrite ||| mayExec) = false) {name : Name}
  {found : Option Addr} (looked : s.vfsChild D name = some found)

include closed

theorem deniedMayDelete (victim) : s.mayDelete c D victim = some (s.denied D) := by
  unfold Vfs.mayDelete denied
  split
  · rfl
  · simp only [closed,false_eq_true,not_false_eq_true,if_true]

include dir looked

theorem createAnswers (type mode places) : (Operation.create D name type mode places).Answers s c D := by
  have refused : s.createRefused c D name found = some (if name.length > nameMax then .enametoolong
      else (Operation.create D name type mode places).refusal s (presence found)) := by
    unfold createRefused
    rw [if_neg (not_not.mpr dir)]
    split
    · rfl
    cases found with
    | some d => rfl
    | none =>
      simp only [presence,Operation.refusal,denied,closed,isSome_none,false_eq_true,if_false,not_false_eq_true,if_true]
      split_ifs <;> rfl
  simp only [Operation.Answers,Operation.answered,Operation.shows,vfsCreate,looked,bind_some,map_some,refused]
  by_cases long : name.length > nameMax
  · simp only [if_pos long]
    rfl
  simp only [if_neg long]
  rfl

theorem unlinkAnswers : (Operation.unlink D name).Answers s c D := by
  simp only [Operation.Answers,Operation.answered,Operation.shows,vfsUnlink,looked,bind_some,map_some]
  cases found with
  | none =>
    simp only [if_pos dir]
    rfl
  | some d =>
  simp only [unlinkRefused,kind,deniedMayDelete closed]
  by_cases isDir : s.isDir (s.inode d)
  · simp only [if_pos isDir]
    rfl
  simp only [if_neg isDir,Operation.refusal]
  by_cases fixed : (s.inodes D).creates = true
  · simp only [if_neg (not_not.mpr fixed)]
    rfl
  simp only [if_pos fixed]
  rfl

theorem rmdirAnswers : (Operation.rmdir D name).Answers s c D := by
  simp only [Operation.Answers,Operation.answered,Operation.shows,vfsRmdir,looked,bind_some]
  cases found with
  | none =>
    simp only [if_pos dir]
    rfl
  | some d =>
  simp only [rmdirRefused,emptiness,deniedMayDelete closed]
  by_cases isDir : s.isDir (s.inode d)
  · simp only [if_neg (not_not.mpr isDir)]
    cases s.mountpoint (s.inode d) with
    | none => rfl
    | some mounted =>
      cases mounted with
      | true => rfl
      | false =>
        cases s.firstChild d with
        | none | some => rfl
  simp only [if_pos isDir]
  rfl

theorem linkAnswers (target places) : (Operation.link D name target places).Answers s c D := by
  have refused : s.linkRefused c D name target found = some ((s.linkRefusedFirst D target).getD
      ((Operation.link D name target places).refusal s (presence found))) := by
    unfold linkRefused linkRefusedFirst
    rw [if_neg (not_not.mpr dir)]
    by_cases first : s.isDir target
    · simp only [if_pos first,getD_some]
    by_cases second : s.dev D ≠ s.dev target ∨ ¬ (s.inodes D).creates
    · simp only [if_neg first,if_pos second,getD_some]
    by_cases third : s.removed D
    · simp only [if_neg first,if_neg second,if_pos third,getD_some]
    simp only [if_neg first,if_neg second,if_neg third,getD_none]
    cases found with
    | some d => rfl
    | none =>
      simp only [presence,Operation.refusal,denied,closed,isSome_none,false_eq_true,if_false,not_false_eq_true,if_true]
      split_ifs <;> rfl
  simp only [Operation.Answers,Operation.answered,Operation.shows,vfsLink,looked,bind_some,map_some,refused]
  cases first : s.linkRefusedFirst D target with
  | none => rfl
  | some e =>
    simp only [map_some,Operation.refusal,first]
    rfl

omit dir in
theorem renameAnswers (ndir nname noreplace) : (Operation.rename D name ndir nname noreplace).Answers s c D := by
  simp only [Operation.Answers,Operation.answered,Operation.shows,vfsRename,looked,bind_some,map_some,ne_eq,
    not_true_eq_false,if_false]
  cases target : s.renameTarget D ndir nname with
  | some e =>
    by_cases gone : e = .enoent
    · cases found with
      | none => simp only [if_pos gone]; rfl
      | some src => simp only [gone]; rfl
    cases found with
    | none => simp only [if_neg gone]; rfl
    | some src =>
      simp only [if_neg gone,map_some,presence,isSome_some,if_true,Operation.refusal,target]
      rfl
  | none =>
  cases found with
  | none => rfl
  | some src =>
  have allowed : s.renameAllowed c D ndir src = some (s.denied D) := by
    unfold renameAllowed
    rw [deniedMayDelete closed]
  simp only [moveRefused,mobility,allowed]
  by_cases isDir : s.isDir (s.inode src)
  · simp only [if_pos isDir]
    cases s.mountpoint (s.inode src) with
    | none => rfl
    | some mounted =>
    cases mounted with
    | true => rfl
    | false =>
      cases s.inside src ndir with
      | none => rfl
      | some within =>
        cases within with
        | true | false => rfl
  simp only [if_neg isDir]
  rfl

end

namespace Alike

section

variable (alike : Alike D s t)
include alike

theorem dev (n) : t.dev n = s.dev n := by
  simp only [Vfs.dev,alike.inodes]

theorem removed (n) : t.removed n = s.removed n := by
  simp only [Vfs.removed,alike.inodes]

theorem vfsReadonly (n) : t.vfsReadonly n = s.vfsReadonly n := by
  simp only [Vfs.vfsReadonly,vfsMountOf,alike.mounts,alike.dev,alike.readOnly]

theorem linkRefusedFirst (dir target) : t.linkRefusedFirst dir target = s.linkRefusedFirst dir target := by
  simp only [Vfs.linkRefusedFirst,alike.isDir,alike.dev,alike.inodes,alike.removed]

theorem renameTarget (odir ndir nname) : t.renameTarget odir ndir nname = s.renameTarget odir ndir nname := by
  simp only [Vfs.renameTarget,alike.isDir,alike.dev,alike.inodes,alike.removed]

theorem mayDelete (dir victim) : t.mayDelete c dir victim = s.mayDelete c dir victim := by
  simp only [Vfs.mayDelete,alike.vfsReadonly,alike.inodes]

theorem denied (dir) : t.denied dir = s.denied dir := by
  simp only [Vfs.denied,alike.vfsReadonly]

theorem refusal (op : Operation) (shown) : op.refusal t shown = op.refusal s shown := by
  cases op <;> cases shown <;>
    simp only [Operation.refusal,alike.denied,alike.inodes,alike.removed,alike.linkRefusedFirst,alike.renameTarget]

end

end Alike

variable {looked : Option (Option Addr)} {w : Shown}

theorem presenceCases (shown : looked.map presence = some w) : w = .taken ∨ w = .free := by
  obtain ⟨found,_,rfl⟩ := map_eq_some_iff.mp shown
  cases found with
  | none => exact .inr rfl
  | some d => exact .inl rfl

theorem kindCases (shown : looked.map s.kind = some w) : w = .free ∨ w = .directory ∨ w = .file := by
  obtain ⟨found,_,rfl⟩ := map_eq_some_iff.mp shown
  cases found with
  | none => exact .inl rfl
  | some d =>
    dsimp only [kind]
    split
    · exact .inr (.inl rfl)
    · exact .inr (.inr rfl)

theorem emptinessCases (shown : looked.bind s.emptiness = some w) :
    w = .free ∨ w = .file ∨ w = .mountpoint ∨ w = .nonempty ∨ w = .empty := by
  obtain ⟨found,_,shown⟩ := bind_eq_some_iff.mp shown
  cases found with
  | none => cases shown; simp
  | some d =>
    dsimp only [emptiness] at shown
    split at shown
    · cases shown; simp
    obtain ⟨mounted,_,rfl⟩ := map_eq_some_iff.mp shown
    split_ifs <;> simp

theorem mobilityCases {ndir}
    (shown : looked.bind (s.mobility ndir) = some w) : w = .free ∨ w = .mountpoint ∨ w = .inner ∨ w = .movable := by
  obtain ⟨found,_,shown⟩ := bind_eq_some_iff.mp shown
  cases found with
  | none => cases shown; simp
  | some src =>
  dsimp only [mobility] at shown
  split at shown
  · obtain ⟨mounted,_,shown⟩ := bind_eq_some_iff.mp shown
    split at shown
    · cases shown; simp
    obtain ⟨within,_,rfl⟩ := map_eq_some_iff.mp shown
    split_ifs <;> simp
  · cases shown; simp

theorem refusalTells (alike : Alike D s t) {op : Operation} {v} (first : op.shows s D = some w)
    (second : op.shows t D = some v) (same : op.refusal s w = op.refusal s v) : w = v := by
  cases op with
  | create dir name type mode places =>
    simp only [Operation.shows] at first second
    split at first
    · rw [if_pos (by assumption)] at second
      cases first; cases second; rfl
    rw [if_neg (by assumption)] at second
    rcases presenceCases first with rfl | rfl <;> rcases presenceCases second with rfl | rfl <;>
      first | rfl | (simp only [Operation.refusal,Vfs.denied] at same; split_ifs at same)
  | unlink dir name =>
    rcases kindCases first with rfl | rfl | rfl <;> rcases kindCases second with rfl | rfl | rfl <;>
      first | rfl | (simp only [Operation.refusal,Vfs.denied] at same; split_ifs at same) | cases same
  | rmdir dir name =>
    rcases emptinessCases first with rfl | rfl | rfl | rfl | rfl <;>
      rcases emptinessCases second with rfl | rfl | rfl | rfl | rfl <;>
      first | rfl | (simp only [Operation.refusal,Vfs.denied] at same; split_ifs at same) | cases same
  | link dir name target places =>
    simp only [Operation.shows,alike.linkRefusedFirst] at first second
    cases early : s.linkRefusedFirst dir target with
    | some e =>
      rw [early] at first second
      cases first; cases second; rfl
    | none =>
      rw [early] at first second
      rcases presenceCases first with rfl | rfl <;> rcases presenceCases second with rfl | rfl <;>
        first | rfl | (simp only [Operation.refusal,Vfs.denied] at same; split_ifs at same)
  | rename odir oname ndir nname noreplace =>
  simp only [Operation.shows,alike.renameTarget] at first second
  split at first
  · rw [if_pos (by assumption)] at second
    cases first; cases second; rfl
  rw [if_neg (by assumption)] at second
  cases target : s.renameTarget odir ndir nname with
  | some e =>
    rw [target] at first second
    dsimp only at first second
    split at first
    · rw [if_pos (by assumption)] at second
      cases first; cases second; rfl
    rename_i other
    rw [if_neg other] at second
    rcases presenceCases first with rfl | rfl <;> rcases presenceCases second with rfl | rfl
    · rfl
    · simp only [Operation.refusal,target,getD_some] at same
      exact absurd same other
    · simp only [Operation.refusal,target,getD_some] at same
      exact absurd same.symm other
    · rfl
  | none =>
    rw [target] at first second
    rcases mobilityCases first with rfl | rfl | rfl | rfl <;>
      rcases mobilityCases second with rfl | rfl | rfl | rfl <;>
      first | rfl | (simp only [Operation.refusal,Vfs.denied] at same; split_ifs at same) | cases same

theorem renameToSame (alike : Alike D s t) (closed : c.permission (s.inodes D) (mayWrite ||| mayExec) = false) {odir}
    (other : odir ≠ D) (oname nname noreplace) : (Operation.rename odir oname D nname noreplace).answered t c =
    (Operation.rename odir oname D nname noreplace).answered s c := by
  simp only [Operation.answered,vfsRename,alike.names odir oname other,alike.renameTarget]
  cases found : s.vfsChild odir oname with
  | none => rfl
  | some entry =>
  cases entry with
  | none => rfl
  | some src =>
  simp only [bind_some]
  cases s.renameTarget odir D nname with
  | some e => rfl
  | none =>
  obtain ⟨names,mounted⟩ := alike.entries odir oname src other found
  have moves : t.moveRefused src D = s.moveRefused src D := by
    simp only [moveRefused,names,alike.isDir,mounted,alike.within]
  have allowed : ∃ e, s.renameAllowed c odir D src = some e ∧ t.renameAllowed c odir D src = some e := by
    unfold renameAllowed
    rw [names,alike.mayDelete,alike.inodes]
    cases s.mayDelete c odir (s.inode src) with
    | some e => exact ⟨e,rfl,rfl⟩
    | none => exact ⟨.eacces,by simp [closed],by simp [closed]⟩
  obtain ⟨e,first,second⟩ := allowed
  simp only [moves,first,second]
  cases s.moveRefused src D with
  | none => rfl
  | some refused =>
    cases refused with
    | none | some => rfl

theorem answersShown (dir : s.isDir D) (closed : c.permission (s.inodes D) (mayWrite ||| mayExec) = false)
    (ends : ∀ name, (s.vfsChild D name).isSome) {op : Operation} (starts : op.first = D) :
    op.answered s c = (op.shows s D).map (fun shown => some (op.refusal s shown)) := by
  have looked name := eq_some_of_isSome (ends name)
  cases op <;> cases starts
  case create name type mode places =>
    exact createAnswers dir closed (looked name) type mode places
  case unlink name =>
    exact unlinkAnswers dir closed (looked name)
  case rmdir name =>
    exact rmdirAnswers dir closed (looked name)
  case link name target places =>
    exact linkAnswers dir closed (looked name) target places
  case rename oname ndir nname noreplace =>
    exact renameAnswers closed (looked oname) ndir nname noreplace

section

variable (alike : Alike D s t) (dir : s.isDir D) (hidden : c.permission (s.inodes D) mayExec = false)

include alike dir hidden

theorem sameFromHere {op : Operation} (starts : op.first = D) :
    op.answered s c = op.answered t c ↔ op.shows s D = op.shows t D := by
  have closed := noSearchNoWrite dir hidden
  have first := answersShown dir closed (fun name => (alike.ends name).1) starts
  have second : op.answered t c = (op.shows t D).map (fun shown => some (op.refusal s shown)) := by
    simpa only [alike.refusal] using answersShown (s := t) (D := D) (c := c) (by rw [alike.isDir]; exact dir)
      (by rw [alike.inodes]; exact closed) (fun name => (alike.ends name).2) starts
  rw [first,second]
  constructor
  · intro same
    cases shown : op.shows s D with
    | none =>
      rw [shown,map_none] at same
      exact (map_eq_none_iff.mp same.symm).symm
    | some w =>
      rw [shown,map_some] at same
      obtain ⟨v,other,errors⟩ := map_eq_some_iff.mp same.symm
      rw [other,refusalTells alike shown other (Option.some.inj errors).symm]
  intro same
  rw [same]

theorem sameAnswers {op : Operation} (here : op.on D) : op.answered s c = op.answered t c ↔ op.shows s D = op.shows t D := by
  by_cases starts : op.first = D
  · exact sameFromHere alike dir hidden starts
  cases op with
  | rename odir oname ndir nname noreplace =>
    rcases here with here | rfl
    · exact absurd here starts
    have other : odir ≠ ndir := starts
    have same := renameToSame alike (noSearchNoWrite dir hidden) other oname nname noreplace
    have quiet (u : Vfs) : (Operation.rename odir oname ndir nname noreplace).shows u ndir = some .nothing :=
      if_pos starts
    rw [same,quiet,quiet]
    exact iff_of_true rfl rfl
  | _ => exact absurd here starts

end

inductive Call where
  | mkdir (dir : Except Errno Addr) (path : List UInt8) (mode : BitVec 32) (places : Places)
  | unlink (dir : Except Errno Addr) (path : List UInt8)
  | rmdir (dir : Except Errno Addr) (path : List UInt8)
  | link (odir : Except Errno Addr) (old : List UInt8) (follow : Bool) (ndir : Except Errno Addr) (new : List UInt8)
      (places : Places)
  | rename (odir : Except Errno Addr) (old : List UInt8) (ndir : Except Errno Addr) (new : List UInt8)
      (known noreplace : Bool)

namespace Call

def answered (s : Vfs) (k : Hooks) (c : Cred) (memory : Bool) : Call → Answer
  | mkdir dir path mode places => answer (s.sysMkdirat k c memory dir path mode places)
  | unlink dir path => answer (s.sysUnlinkat k c memory dir path false)
  | rmdir dir path => answer (s.sysUnlinkat k c memory dir path true)
  | link odir old follow ndir new places => answer (s.sysLinkat k c memory memory odir old follow ndir new places)
  | rename odir old ndir new known noreplace => answer (s.sysRenameat2 k c memory memory odir old ndir new known noreplace)

def operation (s : Vfs) (k : Hooks) (c : Cred) (memory : Bool) : Call → Option (Except Errno Operation)
  | mkdir dir path mode places =>
    (s.atParent k c memory dir path).map (·.map (fun (dir,name) => .create dir name .directory (mode &&& 0o7777) places))
  | unlink dir path =>
    (s.atParent k c memory dir path).map (fun parent =>
      (parent.map (fun (dir,name) => .unlink dir name)).mapError busyRoot)
  | rmdir dir path =>
    (s.atParent k c memory dir path).map (fun parent =>
      (parent.map (fun (dir,name) => .rmdir dir name)).mapError busyRoot)
  | link odir old follow ndir new places =>
    (s.atInode k c memory odir old follow).bind (fun found =>
      match found with
      | .error e => some (.error e)
      | .ok target => (s.atParent k c memory ndir new).map (·.map (fun (dir,name) => .link dir name target places)))
  | rename odir old ndir new known noreplace =>
    if ¬ known then some (.error .einval)
    else (s.atParent k c memory odir old).bind (fun first =>
      match first with
      | .error e => some (.error (busyRoot e))
      | .ok (odir,oname) => (s.atParent k c memory ndir new).map (fun second =>
          (second.map (fun (ndir,nname) => .rename odir oname ndir nname noreplace)).mapError busyRoot))

theorem answeredOperation (call : Call) : call.answered s k c memory = (call.operation s k c memory).bind (fun leads =>
      match leads with
      | .error e => some (some e)
      | .ok op => op.answered s c) := by
  cases call with
  | mkdir dir path mode places =>
    simp only [answered,operation,sysMkdirat]
    rcases s.atParent k c memory dir path with _ | e | ⟨dir,name⟩
    · rfl
    · rfl
    simp only [Option.bind_some,Option.map_some,Except.map,Operation.answered,answer,Option.map_map]
    congr 1
    funext ⟨made,after⟩
    cases made with
    | error | ok => rfl
  | unlink dir path =>
    simp only [answered,operation,sysUnlinkat]
    rcases s.atParent k c memory dir path with _ | e | ⟨dir,name⟩ <;> rfl
  | rmdir dir path =>
    simp only [answered,operation,sysUnlinkat]
    rcases s.atParent k c memory dir path with _ | e | ⟨dir,name⟩ <;> rfl
  | link odir old follow ndir new places =>
    simp only [answered,operation,sysLinkat]
    rcases s.atInode k c memory odir old follow with _ | e | target
    · rfl
    · rfl
    rcases s.atParent k c memory ndir new with _ | e | ⟨dir,name⟩ <;> rfl
  | rename odir old ndir new known noreplace =>
    simp only [answered,operation,sysRenameat2]
    split
    · rfl
    rcases s.atParent k c memory odir old with _ | e | ⟨odir,oname⟩
    · rfl
    · rfl
    rcases s.atParent k c memory ndir new with _ | e | ⟨ndir,nname⟩ <;> rfl

theorem operationAlike (alike : Alike D s t) (hidden : c.permission (s.inodes D) mayExec = false) (call : Call) :
    call.operation t k c memory = call.operation s k c memory := by
  cases call <;> simp only [operation,atParentAlike alike hidden,atInodeAlike alike hidden]

end Call

theorem sameCalls (alike : Alike D s t) (dir : s.isDir D) (hidden : c.permission (s.inodes D) mayExec = false) {call : Call}
    (here : ∀ op, call.operation s k c memory = some (.ok op) → op.on D) :
    call.answered s k c memory = call.answered t k c memory ↔
    ∀ op, call.operation s k c memory = some (.ok op) → op.shows s D = op.shows t D := by
  rw [Call.answeredOperation,Call.answeredOperation,Call.operationAlike alike hidden]
  rcases leads : call.operation s k c memory with _ | e | op
  · simp
  · simp
  have same := sameAnswers alike dir hidden (here op leads)
  constructor
  · intro answers op' isOp
    cases isOp
    exact same.mp answers
  intro shown
  exact same.mpr (shown op rfl)

section

variable (dir : s.isDir D) (hidden : c.permission (s.inodes D) mayExec = false)
include dir hidden

theorem lastNameDenied {path} (named : lastName path ≠ []) (short : ¬ (lastName path).length > nameMax)
    (nested : Addr → Option (List UInt8 → Walked)) (follow d) :
    s.walkPath k c memory nested (lastName path ++ path.rtakeWhile (· == slash)) follow D d = some (.error .eacces) := by
  obtain ⟨first,more,split,word,letters⟩ := lastNameSplits named
  have slashes b (inside : b ∈ path.rtakeWhile (· == slash)) : b = slash := by simpa using mem_rtakeWhile_imp inside
  have start : (lastName path ++ path.rtakeWhile (· == slash)).dropWhile (· == slash) =
      first::(more ++ path.rtakeWhile (· == slash)) := by
    rw [split,cons_append,dropWhile_cons_of_neg (by simpa using word)]
  have comp : (more ++ path.rtakeWhile (· == slash)).takeWhile (· != slash) = more := by
    rw [takeWhile_append_of_pos (by simpa using letters)]
    cases tail : path.rtakeWhile (· == slash) with
    | nil => simp
    | cons b rest =>
      rw [tail] at slashes
      rw [takeWhile_cons_of_neg (by simpa using slashes b mem_cons_self),append_nil]
  rw [walkPathOn start,comp,← split]
  unfold component
  rw [if_neg short,if_neg (not_not.mpr dir),hidden]
  rfl

theorem walkDenied {base path name} (leads : s.vfsParent k c memory base path = some (.ok (D,name))) (follow) :
    s.walk k c memory maxSymlinks base path follow = some (.error .eacces) := by
  obtain ⟨named,short,way⟩ := parentWalked leads
  have parts := pathParts named
  obtain ⟨first,more,split,word,letters⟩ := lastNameSplits named
  have denied nested d : s.walkPath k c memory nested (lastName path ++ path.rtakeWhile (· == slash)) follow D d =
    some (.error .eacces) := lastNameDenied dir hidden named short nested follow d
  rcases way with ⟨here,rfl⟩ | ⟨there,d,reached⟩
  · rw [here,nil_append] at parts
    have start : s.startOf base path = base := by
      unfold startOf
      rw [if_neg]
      rw [parts,split]
      simpa using word
    unfold maxSymlinks
    rw [walk,start,parts]
    exact denied _ _
  have start : s.startOf base path = s.startOf base (directoryPart path) := by
    unfold startOf
    rw [← List.head?_append_of_ne_nil _ there,← parts]
  have inside : first ∈ lastName path ++ path.rtakeWhile (· == slash) := by simp [split]
  unfold maxSymlinks at reached ⊢
  rw [walk] at reached ⊢
  have whole := (walkPathAppend follow word inside directoryEnds reached).trans (denied _ d)
  rw [← parts] at whole
  rw [start,whole]

theorem openDenied {here path name} (leads : s.atParent k c memory here path = some (.ok (D,name))) (flags mode slot places) :
    answer (s.sysOpenat k c memory here path flags mode slot places) = some (some .eacces) := by
  unfold atParent at leads
  unfold sysOpenat
  split at leads
  · cases leads
  rename_i nonempty
  rw [if_neg nonempty]
  cases start : s.baseDir here path with
  | error e =>
    rw [start] at leads
    cases leads
  | ok base =>
    rw [start] at leads
    have refused follow : s.vfsResolveDentry k c memory base path follow = some (.error .eacces) := by
      rw [vfsResolveDentry,if_neg nonempty,walkDenied dir hidden leads]
    simp [fileOpen,resolve,refused,answer]

end

theorem hiddenUnlessShown (k : Hooks) (memory : Bool) (alike : Alike D s t) (dir : s.isDir D)
    (hidden : c.permission (s.inodes D) mayExec = false) :
    (∀ op : Operation, op.on D → (op.answered s c = op.answered t c ↔ op.shows s D = op.shows t D)) ∧
    (∀ call : Call, (∀ op, call.operation s k c memory = some (.ok op) → op.on D) →
    (call.answered s k c memory = call.answered t k c memory ↔
    ∀ op, call.operation s k c memory = some (.ok op) → op.shows s D = op.shows t D)) ∧
    ∀ here path name flags mode slot places, s.atParent k c memory here path = some (.ok (D,name)) →
    answer (s.sysOpenat k c memory here path flags mode slot places) =
    answer (t.sysOpenat k c memory here path flags mode slot places) := by
  refine ⟨fun op here => sameAnswers alike dir hidden here,fun call here => sameCalls alike dir hidden here,?_⟩
  intro here path name flags mode slot places leads
  have other : t.atParent k c memory here path = some (.ok (D,name)) := by rw [atParentAlike alike hidden,leads]
  rw [openDenied dir hidden leads,openDenied (by rw [alike.isDir]; exact dir) (by rw [alike.inodes]; exact hidden) other]

def closedRoom (file : Name) : Vfs where
  parent := fun d => if d = 2 then some 1 else if d = 3 then some 2 else none
  firstChild := fun d => if d = 1 then some 2 else if d = 2 then some 3 else none
  nextSibling := fun _ => none
  inode := fun d => 10 * d
  name := fun d => if d = 2 then [100] else if d = 3 then file else []
  order := id
  inodes := fun n =>
    if n = 10 then {type := .directory, mode := 0o755, dev := 1, creates := true, destroys := true, ptr := some 1}
    else if n = 20 then {type := .directory, mode := 0o700, dev := 1, creates := true, destroys := true, ptr := some 2}
    else {dev := 1, destroys := true}
  live := [1,2,3]
  liveInodes := [10,20,30]
  fsRoot := 1
  mounts := []
  readOnly := fun _ => false
  held := []
  bound := []
  lost := []
  now := 0
  seq := 4
  nextDev := 6
  procRoot := 0
  procMounted := false

def stranger : Cred where
  uid := 1000
  gid := 1000
  euid := 1000
  egid := 1000

def noHooks : Hooks where
  own := fun _ => false
  finddir := fun _ _ => none
  readLink := fun _ => .error .einval
  opens := fun _ => none
  truncates := fun _ => true

theorem closedRoomAlike (a b) : Alike 20 (closedRoom a) (closedRoom b) where
  inodes := rfl
  root := rfl
  mounts := rfl
  readOnly := rfl
  above := fun _ _ => rfl
  names := by
    intro n name other
    by_cases top : n = 10
    · subst top
      rfl
    have file a : ¬ (closedRoom a).isDir n := by simp [isDir,closedRoom,top,other]
    simp only [vfsChild,file,if_false]
  entries := fun _ _ _ _ _ => ⟨rfl,rfl⟩
  within := fun _ => rfl
  ends := by
    have searched a name : ((closedRoom a).vfsChild 20 name).isSome := by
      change (if a == name then some (some 3) else some none : Option (Option Addr)).isSome
      split <;> rfl
    exact fun name => ⟨searched a name,searched b name⟩

theorem closedRoomHidden : Alike 20 (closedRoom [97]) (closedRoom [99]) ∧ (closedRoom [97]).isDir 20 ∧
    stranger.permission ((closedRoom [97]).inodes 20) mayExec = false ∧
    (Operation.create 20 [98] .file 0o644 {}).answered (closedRoom [97]) stranger =
    (Operation.create 20 [98] .file 0o644 {}).answered (closedRoom [99]) stranger :=
  ⟨closedRoomAlike [97] [99],by decide,by decide,
    ((hiddenUnlessShown noHooks true (closedRoomAlike [97] [99]) (by decide) (by decide)).1
      (.create 20 [98] .file 0o644 {}) rfl).mpr (by decide)⟩

theorem closedRoomTold : Alike 20 (closedRoom [97]) (closedRoom [98]) ∧ (closedRoom [97]).isDir 20 ∧ stranger.euid ≠ 0 ∧
    stranger.permission ((closedRoom [97]).inodes 20) mayExec = false ∧
    ((Operation.create 20 [97] .file 0o644 {}).answered (closedRoom [97]) stranger = some (some .eexist) ∧
    (Operation.create 20 [97] .file 0o644 {}).answered (closedRoom [98]) stranger = some (some .eacces)) ∧
    ((Operation.unlink 20 [97]).answered (closedRoom [97]) stranger = some (some .eacces) ∧
    (Operation.unlink 20 [97]).answered (closedRoom [98]) stranger = some (some .enoent)) ∧
    ((Operation.rename 20 [97] 10 [97] false).answered (closedRoom [97]) stranger = some (some .eacces) ∧
    (Operation.rename 20 [97] 10 [97] false).answered (closedRoom [98]) stranger = some (some .enoent)) ∧
    (Call.mkdir (.ok 10) [47,100,47,97] 0o755 {}).answered (closedRoom [97]) noHooks stranger true = some (some .eexist) ∧
    (Call.mkdir (.ok 10) [47,100,47,97] 0o755 {}).answered (closedRoom [98]) noHooks stranger true = some (some .eacces) :=
  ⟨closedRoomAlike [97] [98],by decide +kernel⟩

end Miviex.Vfs
