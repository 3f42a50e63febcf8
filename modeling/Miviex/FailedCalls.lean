import Miviex.HiddenNames

/-! What a failed call leaves behind. The calls on names change nothing before the last thing that
can fail, but for `symlinkat`, which makes the link before it has memory for the target. -/
namespace Miviex
open Option Function
namespace Vfs

variable {s t : Vfs} {k : Hooks} {c : Cred} {memory : Bool} {places : Places} {dir parent child : Addr}
  {name : Name} {e : Errno}

theorem addChildLive (added : s.vfsAddChild parent child = some t) : t.live = s.live := by
  unfold vfsAddChild at added
  dsimp only at added
  split at added
  · cases added
    rfl
  obtain ⟨current,_,rfl⟩ := map_eq_some_iff.mp added
  rfl

/- Nothing forbids a file of this name, and there is memory for it. -/
def Creatable (s : Vfs) (c : Cred) (dir : Addr) (name : Name) (places : Places) : Prop :=
  ∃ found, s.vfsChild dir name = some found ∧ s.createRefused c dir name found = none ∧
    places.inode.isSome ∧ places.dentry.isSome

theorem ramfsCreateEnds {type mode made} (done : s.ramfsCreate dir name type mode places = some (made,t)) :
    (made = none ∧ t = s ∧ ¬ (places.inode.isSome ∧ places.dentry.isSome)) ∨
    (places.inode.isSome ∧ places.dentry.isSome) ∧ made = places.inode ∧ t.live.length = s.live.length+1 := by
  unfold ramfsCreate at done
  split at done
  · rename_i n d placed entry
    split at done
    · cases done
    obtain ⟨u,added,same⟩ := map_eq_some_iff.mp done
    cases same
    exact .inr ⟨by simp [placed,entry],placed.symm,congrArg List.length (addChildLive added)⟩
  rename_i short
  cases done
  refine .inl ⟨rfl,rfl,fun room => ?_⟩
  exact short _ _ (some_get room.1).symm (some_get room.2).symm

theorem createEnds {type mode result} (done : s.vfsCreate c dir name type mode places = some (result,t)) :
    ((∃ e, result = .error e) ∧ t = s ∧ ¬ s.Creatable c dir name places) ∨
    ∃ n, result = .ok n ∧ places.inode = some n ∧ t.live.length = s.live.length+1 ∧ s.Creatable c dir name places := by
  obtain ⟨found,child,done⟩ := bind_eq_some_iff.mp done
  split at done
  · rename_i refused
    cases done
    refine .inl ⟨⟨_,rfl⟩,rfl,fun ⟨found',same,allowed,_⟩ => ?_⟩
    cases child.symm.trans same
    cases refused.symm.trans allowed
  rename_i allowed
  obtain ⟨⟨made,u⟩,created,same⟩ := map_eq_some_iff.mp done
  obtain ⟨rfl,rfl,short⟩ | ⟨room,placed,longer⟩ := ramfsCreateEnds created
  · cases same
    exact .inl ⟨⟨_,rfl⟩,rfl,fun ⟨_,_,_,room⟩ => short room⟩
  obtain ⟨n,placed'⟩ := isSome_iff_exists.mp room.1
  rw [placed'] at placed
  cases placed
  cases same
  exact .inr ⟨n,rfl,placed',longer,found,child,allowed,room⟩

def Keeps {α : Type} (s : Vfs) (done : Option (Except Errno α × Vfs)) : Prop := ∀ e t, done = some (.error e,t) → t = s

theorem keepsFailed {α e} : Keeps (α := α) s (some (.error e,s)) := by
  intro _ _ same
  cases same
  rfl

theorem keepsDone {α} {a : α} {x : Option Vfs} {f : Vfs → Vfs} : Keeps s (x.map (fun t => (.ok a,f t))) := by
  intro _ _ same
  obtain ⟨u,_,wrong⟩ := map_eq_some_iff.mp same
  cases wrong

theorem keepsBind {α β : Type} {x : Option β} {f : β → Option (Except Errno α × Vfs)} (each : ∀ b, Keeps s (f b)) :
    Keeps s (x.bind f) := by
  intro e t same
  obtain ⟨b,_,done⟩ := bind_eq_some_iff.mp same
  exact each b e t done

theorem unlinkKeeps : Keeps s (s.vfsUnlink c dir name) := by
  refine keepsBind (fun found => ?_)
  split
  · exact keepsFailed
  split
  · exact keepsFailed
  · exact keepsDone

theorem rmdirKeeps : Keeps s (s.vfsRmdir c dir name) := by
  refine keepsBind (fun found => ?_)
  split
  · exact keepsFailed
  refine keepsBind (fun refused => ?_)
  split
  · exact keepsFailed
  · exact keepsDone

theorem linkKeeps {target} : Keeps s (s.vfsLink c dir name target places) := by
  refine keepsBind (fun found => ?_)
  split
  · exact keepsFailed
  split
  · exact keepsFailed
  · exact nofun
  · exact keepsDone

theorem renameKeeps {odir oname ndir nname noreplace} : Keeps s (s.vfsRename c odir oname ndir nname noreplace) := by
  refine keepsBind (fun found => ?_)
  split
  · exact keepsFailed
  split
  · exact keepsFailed
  refine keepsBind (fun refused => ?_)
  split
  · exact keepsFailed
  refine keepsBind (fun dst => ?_)
  unfold renameOver
  split
  · exact keepsDone
  refine keepsBind (fun replacing => ?_)
  split
  · exact keepsFailed
  · exact nofun
  intro e t same
  obtain ⟨u,_,moved⟩ := bind_eq_some_iff.mp same
  obtain ⟨v,_,wrong⟩ := map_eq_some_iff.mp moved
  cases wrong

theorem createKeeps {type mode} : Keeps s (s.vfsCreate c dir name type mode places) := by
  intro e t failed
  obtain ⟨_,same,_⟩ | ⟨n,wrong,_⟩ := createEnds failed
  · exact same
  · cases wrong

namespace NameCall

inductive HalfMade (s : Vfs) (k : Hooks) (c : Cred) (memory : Bool) : NameCall → Prop where
  | link {text dir path places above name} (target : text ≠ [])
      (leads : s.atParent k c memory dir path = some (.ok (above,name))) (made : s.Creatable c above name places) :
      HalfMade s k c memory (symlinkat (.ok text) dir path false places)

end NameCall

theorem symlinkFails {target room path here}
    (failed : s.sysSymlinkat k c memory target here path room places = some (.error e,t)) :
    t = s ↔ ¬ NameCall.HalfMade s k c memory (.symlinkat target here path room places) := by
  unfold sysSymlinkat at failed
  split at failed
  · cases failed
    exact iff_of_true rfl nofun
  · cases failed
    exact iff_of_true rfl (fun | .link target _ _ => target rfl)
  rename_i text notEmpty
  obtain ⟨parent,leads,failed⟩ := bind_eq_some_iff.mp failed
  split at failed
  · cases failed
    refine iff_of_true rfl (fun half => ?_)
    cases half with
    | link _ other _ => cases leads.symm.trans other
  obtain ⟨⟨made,u⟩,created,ends⟩ := map_eq_some_iff.mp failed
  obtain ⟨⟨e,rfl⟩,rfl,not⟩ | ⟨n,rfl,_,longer,made⟩ := createEnds created
  · cases ends
    refine iff_of_true rfl (fun half => ?_)
    cases half with
    | link _ other made =>
      cases leads.symm.trans other
      exact not made
  cases room with
  | true => cases ends
  | false =>
    cases ends
    refine iff_of_false (fun same => ?_) (not_not_intro (.link (fun empty => notEmpty empty) leads made))
    rw [same] at longer
    omega

/- A call on names that fails leaves everything as it was, unless it is a `symlinkat` that has
made its link. -/
theorem failedNameCall (call : NameCall) (failed : call.run s k c memory = some (.error e,t)) :
    t = s ↔ ¬ call.HalfMade s k c memory := by
  cases call with
  | mkdirat dir path mode places =>
    refine iff_of_true (keepsBind (fun parent => ?_) e t failed) nofun
    split
    · exact keepsFailed
    intro e t failed
    obtain ⟨⟨made,u⟩,created,ends⟩ := map_eq_some_iff.mp failed
    cases made with
    | ok n => cases ends
    | error e =>
      cases ends
      exact createKeeps _ _ created
  | unlinkat dir path removedir =>
    refine iff_of_true (keepsBind (fun parent => ?_) e t failed) nofun
    split
    · exact keepsFailed
    split
    · exact rmdirKeeps
    · exact unlinkKeeps
  | renameat2 again odir old ndir new known noreplace =>
    suffices keeps : Keeps s (s.sysRenameat2 k c memory again odir old ndir new known noreplace) from
      iff_of_true (keeps e t failed) nofun
    unfold sysRenameat2
    split
    · exact keepsFailed
    refine keepsBind (fun first => ?_)
    split
    · exact keepsFailed
    refine keepsBind (fun second => ?_)
    split
    · exact keepsFailed
    · exact renameKeeps
  | linkat again odir old follow ndir new places =>
    refine iff_of_true (keepsBind (fun found => ?_) e t failed) nofun
    split
    · exact keepsFailed
    refine keepsBind (fun parent => ?_)
    split
    · exact keepsFailed
    · exact linkKeeps
  | symlinkat target dir path room places => exact symlinkFails failed

theorem failedUnlink : (NameCall.unlinkat (.ok 10) [120] false).run (closedRoom [97]) noHooks {} true =
    some (.error .enoent,closedRoom [97]) ∧ (closedRoom [97] = closedRoom [97] ↔
    ¬ (NameCall.unlinkat (.ok 10) [120] false).HalfMade (closedRoom [97]) noHooks {} true) :=
  ⟨rfl,failedNameCall _ rfl⟩

theorem emptyLink : ((NameCall.symlinkat (.ok [97]) (.ok 10) [108] false ⟨some 9,some 9,false⟩).run (closedRoom [97])
    noHooks {} true).map (fun r => (r.1,(r.2.inode 9,r.2.name 9,r.2.nextSibling 2),r.2.live)) =
    some (.error .enomem,(9,[108],some 9),[9,1,2,3]) := by
  rfl

/- The names, the inodes and their contents; how many have an inode open does not matter. -/
def shown (s : Vfs) : Vfs :=
  {s with inodes := fun n => {s.inodes n with refs := 0}, liveInodes := [], held := []}

def Unchanged (s t : Vfs) : Prop := t.shown = s.shown

/- The path names no file, and one is made. -/
def Makes (s : Vfs) (k : Hooks) (c : Cred) (memory : Bool) (base : Addr) (path : List UInt8) (flags : OpenFlags)
    (places : Places) : Prop :=
  flags.creat ∧ s.vfsResolveDentry k c memory base path (!flags.nofollow) = some (.error .enoent) ∧
    ∃ dir name, s.vfsParent k c memory base path = some (.ok (dir,name)) ∧ s.Creatable c dir name places

/- The path names this file, and it may be opened so. -/
structure Names (s : Vfs) (k : Hooks) (c : Cred) (memory : Bool) (base : Addr) (path : List UInt8) (flags : OpenFlags)
    (n : Addr) (d : Option Addr) : Prop where
  found : s.vfsResolveDentry k c memory base path (!flags.nofollow) = some (.ok (n,d))
  old : ¬ (flags.creat ∧ flags.excl)
  kind : (s.inodes n).type ≠ .symlink

theorem resolveEnds {base path flags mode result} (found : s.resolve k c memory base path flags mode places = some (result,t)) :
    (t = s ∧ ¬ s.Makes k c memory base path flags places ∧
      ∀ o, result = .ok o → o.created = false ∧ s.Names k c memory base path flags o.node o.dentry) ∨
    ∃ o, result = .ok o ∧ o.created = true ∧ places.inode = some o.node ∧ t.live.length = s.live.length+1 ∧
      s.Makes k c memory base path flags places := by
  obtain ⟨walked,leads,found⟩ := bind_eq_some_iff.mp found
  unfold Makes
  rw [leads]
  split at found
  · split at found
    · cases found
      exact .inl ⟨rfl,nofun,nofun⟩
    rename_i old
    split at found
    · cases found
      exact .inl ⟨rfl,nofun,nofun⟩
    rename_i kind
    cases found
    exact .inl ⟨rfl,nofun,fun o same => by cases same; exact ⟨rfl,leads,old,kind⟩⟩
  split at found
  · rename_i not
    cases found
    refine .inl ⟨rfl,fun ⟨asked,missing,_⟩ => ?_,nofun⟩
    cases missing
    simp [asked] at not
  rename_i asked
  simp only [not_or,not_not] at asked
  obtain ⟨asked,rfl⟩ := asked
  obtain ⟨parent,above,found⟩ := bind_eq_some_iff.mp found
  rw [above]
  split at found
  · cases found
    refine .inl ⟨rfl,?_,nofun⟩
    rintro ⟨_,_,_,_,wrong,_⟩
    cases wrong
  obtain ⟨⟨made,u⟩,created,ends⟩ := bind_eq_some_iff.mp found
  obtain ⟨⟨e,rfl⟩,rfl,not⟩ | ⟨n,rfl,placed,longer,room⟩ := createEnds created
  · cases ends
    refine .inl ⟨rfl,fun ⟨_,_,_,_,same,room⟩ => ?_,nofun⟩
    cases same
    exact not room
  obtain ⟨d,_,same⟩ := map_eq_some_iff.mp ends
  cases same
  exact .inr ⟨_,rfl,rfl,placed,longer,asked,rfl,_,_,rfl,room⟩

theorem Unchanged.live (same : Unchanged s t) : t.live = s.live :=
  show t.shown.live = s.shown.live from congrArg Vfs.live same

theorem Unchanged.longer (longer : t.live.length = s.live.length+1) : ¬ Unchanged s t := by
  intro same
  rw [same.live] at longer
  omega

def emptied (s : Vfs) (k : Hooks) (n : Addr) (flags : OpenFlags) : Vfs :=
  if s.cuts k n flags then s.modifyInode n (truncated s.now) else s

end Vfs

structure Timespec where
  sec : Int := 0
  nsec : Int

def utimeNow : Int := 2^30-1
def utimeOmit : Int := 2^30-2

def Timespec.relative (t : Timespec) : Bool := t.nsec == utimeNow || t.nsec == utimeOmit

/- What a round of the loop stores for `old`; none is EINVAL. -/
def Timespec.store (t : Timespec) (now old : Nat) : Option Nat :=
  if t.nsec = utimeOmit then some old
  else if t.nsec = utimeNow then some now
  else if t.sec < 0 ∨ t.nsec < 0 ∨ 1000000000 ≤ t.nsec then none
  else some ((t.sec.toNat * 1000000000 + t.nsec.toNat) % 2^64)

def Timespec.instant (t : Timespec) (now old : Nat) : Int :=
  if t.nsec = utimeOmit then old else if t.nsec = utimeNow then now else t.sec * 1000000000 + t.nsec

def Timespec.Wraps (t : Timespec) : Prop := t.relative = false ∧ 2^64 ≤ t.sec * 1000000000 + t.nsec

theorem Timespec.storeInstant {t : Timespec} {now old v} (stored : t.store now old = some v) :
    v = t.instant now old ↔ ¬ t.Wraps := by
  unfold store at stored
  unfold instant Wraps relative
  split at stored
  · rename_i omits
    cases stored
    simp [omits]
  split at stored
  · rename_i other now
    cases stored
    simp [now,utimeNow,utimeOmit]
  split at stored
  · cases stored
  · rename_i other unlike valid
    cases stored
    have far : (t.nsec == utimeNow || t.nsec == utimeOmit) = false := by simp [unlike,other]
    simp only [if_neg other,if_neg unlike,far,true_and]
    omega

namespace Vfs

def storeTimes (s : Vfs) (n : Addr) (x y : Timespec) : Except Errno Unit × Vfs :=
  match x.store s.now (s.inodes n).atime with
  | none => (.error .einval,s)
  | some atime =>
    let s := s.modifyInode n (fun i => {i with atime := atime})
    match y.store s.now (s.inodes n).mtime with
    | none => (.error .einval,s)
    | some mtime => (.ok (),(s.modifyInode n (fun i => {i with mtime := mtime})).vfsTouch n changed)

def utimensRefused (s : Vfs) (c : Cred) (n : Addr) (x y : Timespec) : Option Errno :=
  if s.vfsReadonly n then some .erofs
  else if c.owns (s.inodes n) then none
  else if ¬ (x.relative ∧ y.relative) then some .eperm
  else if ¬ c.permission (s.inodes n) mayWrite then some .eacces
  else none

section

variable (s : Vfs) (k : Hooks) (c : Cred) (memory : Bool) (dir : Except Errno Addr) (file : Option Addr) (follow : Bool)

/- Without a path the file is that of the descriptor. -/
def timesInode : Option (List UInt8) → Option (Except Errno Addr)
  | none => some (match file with
    | none => .error .ebadf
    | some n => .ok n)
  | some path => s.atInode k c memory dir path follow

/- The times are none where they cannot be read; a NULL pointer stands for UTIME_NOW twice. -/
def sysUtimensat (path : Option (List UInt8)) (times : Option (Timespec × Timespec)) : Option (Except Errno Unit × Vfs) :=
  match times with
  | none => some (.error .efault,s)
  | some (x,y) => (s.timesInode k c memory dir file follow path).map (fun found =>
      match found with
      | .error e => (.error e,s)
      | .ok n => match s.utimensRefused c n x y with
        | some e => (.error e,s)
        | none => s.storeTimes n x y)

end

/- What a call that found the inode should have done. -/
def Timed (s t : Vfs) (found : Option (Except Errno Addr)) (times : Option (Timespec × Timespec)) :
    Except Errno Unit → Prop
  | .error _ => t.inodes = s.inodes
  | .ok _ => ∃ n x y, found = some (.ok n) ∧ times = some (x,y) ∧
      (t.inodes n).atime = x.instant s.now (s.inodes n).atime ∧
      (t.inodes n).mtime = y.instant s.now (s.inodes n).mtime

/- The first time is stored and the second refused, or a time has more than 64 bits. -/
def Mistimed (s : Vfs) (n : Addr) (x y : Timespec) : Prop :=
  ∃ v, x.store s.now (s.inodes n).atime = some v ∧
    if y.store s.now (s.inodes n).mtime = none then v ≠ (s.inodes n).atime else x.Wraps ∨ y.Wraps

theorem storeTimed (s : Vfs) (n x y) : s.Timed (s.storeTimes n x y).2 (some (.ok n)) (some (x,y)) (s.storeTimes n x y).1 ↔
    ¬ s.Mistimed n x y := by
  unfold storeTimes Mistimed
  cases first : x.store s.now (s.inodes n).atime with
  | none => simp [Timed]
  | some v =>
  have same : ((s.modifyInode n (fun i => {i with atime := v})).inodes n).mtime = (s.inodes n).mtime := by
    simp [modifyInode]
  dsimp only
  rw [same,show (s.modifyInode n (fun i => {i with atime := v})).now = s.now from rfl]
  cases second : y.store s.now (s.inodes n).mtime with
  | none =>
    simp only [Timed,modifyInode,Function.update_eq_self_iff,Option.some.injEq,exists_eq_left',if_true,not_not]
    exact ⟨fun kept => congrArg Inode.atime kept,fun kept => by rw [kept]⟩
  | some w =>
    have times := and_congr (Timespec.storeInstant first) (Timespec.storeInstant second)
    simpa [Timed,modifyInode,vfsTouch,stamp,changed,not_or] using times

theorem utimensatTimed {s t : Vfs} {k c memory dir file follow path times result}
    (called : s.sysUtimensat k c memory dir file follow path times = some (result,t)) :
    s.Timed t (s.timesInode k c memory dir file follow path) times result ↔
    ¬ ∃ n x y, s.timesInode k c memory dir file follow path = some (.ok n) ∧ times = some (x,y) ∧
    s.utimensRefused c n x y = none ∧ s.Mistimed n x y := by
  unfold sysUtimensat at called
  split at called
  · cases called
    simp [Timed]
  rename_i x y
  obtain ⟨found,looked,called⟩ := Option.map_eq_some_iff.mp called
  rw [looked]
  split at called
  · cases called
    simp [Timed]
  split at called
  · rename_i refused
    cases called
    simp [Timed,refused]
  · rename_i n _ allowed
    have stored := storeTimed s n x y
    rw [called] at stored
    simpa [allowed] using stored

def setTimes (x y : Timespec) : Option (Except Errno Unit × Vfs) :=
  (closedRoom [97]).sysUtimensat noHooks {} true (.ok 10) (some 10) true none (some (x,y))

theorem firstRefused : setTimes ⟨0,-1⟩ ⟨5,0⟩ = some (.error .einval,closedRoom [97]) ∧
    (closedRoom [97]).Timed (closedRoom [97]) (some (.ok 10)) (some (⟨0,-1⟩,⟨5,0⟩)) (.error .einval) := by
  have called : setTimes ⟨0,-1⟩ ⟨5,0⟩ = some (.error .einval,closedRoom [97]) := rfl
  refine ⟨called,(utimensatTimed called).mpr ?_⟩
  rintro ⟨n,x,y,_,given,_,v,stored,_⟩
  cases given
  cases stored

/- The first time is stored when the second is refused; 18446744074 s are stored as 0.29 s. -/
theorem firstTimeStored : ((closedRoom [97]).inodes 10).atime = 0 ∧
    (setTimes ⟨5,0⟩ ⟨0,-1⟩).map (fun r => (r.1,(r.2.inodes 10).atime)) = some (.error .einval,5000000000) ∧
    (setTimes ⟨18446744074,0⟩ ⟨0,utimeOmit⟩).map (fun r => (r.1,(r.2.inodes 10).atime)) = some (.ok (),290448384) :=
  ⟨rfl,rfl,rfl⟩

end Vfs
end Miviex
