import Miviex.FailedCalls

/-! A path that leads somewhere was walked with permission to search every directory a name was
looked up in, those behind symlinks included, and `file_open` asks for what the access mode needs
before it touches the file. -/
namespace Miviex
open Option
namespace Vfs

variable {s : Vfs} {k : Hooks} {c : Cred} {memory follow : Bool} {links : Nat} {path : List UInt8} {cur D : Addr}

/- The walk of the target of a symlink, where `links` more may be nested. -/
def nests (s : Vfs) (k : Hooks) (c : Cred) (memory : Bool) : Nat → Addr → Option (List UInt8 → Walked)
  | 0, _ => none
  | links + 1, cur => some (fun target => s.walk k c memory links cur target true)

theorem walkNests {base} : s.walk k c memory links base path follow =
    s.walkPath k c memory (s.nests k c memory links) path follow (s.startOf base path) (s.ownName (s.startOf base path)) := by
  cases links <;> rfl

abbrev follows (s : Vfs) (n : Addr) (rest : List UInt8) (follow : Bool) : Prop :=
  (s.inodes n).type = .symlink ∧ (rest ≠ [] ∨ follow)

inductive Searches (s : Vfs) (k : Hooks) (c : Cred) (memory : Bool) : Nat → List UInt8 → Bool → Addr → Addr → Prop where
  | here {links path follow cur first more} (split : path.dropWhile (· == slash) = first::more) :
      Searches s k c memory links path follow cur cur
  | onward {links path follow cur first more next D} (split : path.dropWhile (· == slash) = first::more)
      (found : s.step k cur (first::more.takeWhile (· != slash)) = some (some next))
      (plain : ¬ s.follows next (more.dropWhile (· != slash)) follow)
      (later : Searches s k c memory links (more.dropWhile (· != slash)) follow next D) :
      Searches s k c memory links path follow cur D
  | within {links path follow cur first more next target D} (split : path.dropWhile (· == slash) = first::more)
      (found : s.step k cur (first::more.takeWhile (· != slash)) = some (some next))
      (link : s.follows next (more.dropWhile (· != slash)) follow) (text : k.readLink next = .ok target)
      (inside : Searches s k c memory links target true (s.startOf cur target) D) :
      Searches s k c memory (links+1) path follow cur D
  | after {links path follow cur first more next target n d D} (split : path.dropWhile (· == slash) = first::more)
      (found : s.step k cur (first::more.takeWhile (· != slash)) = some (some next))
      (link : s.follows next (more.dropWhile (· != slash)) follow) (text : k.readLink next = .ok target)
      (leads : s.walk k c memory links cur target true = some (.ok (n,d)))
      (later : Searches s k c memory (links+1) (more.dropWhile (· != slash)) follow n D) :
      Searches s k c memory (links+1) path follow cur D

theorem onwardOk {rest goOn next nd r} (done : s.onward rest goOn next nd = some (.ok r)) : goOn next nd = some (.ok r) := by
  unfold onward at done
  split at done
  · cases done
  · exact done

/- A round that leads on has the permission, and leads to what it found or to what the link
it found leads to. -/
theorem componentOk {comp rest nested goOn r} (done : s.component k c memory follow cur comp rest nested goOn = some (.ok r)) :
    c.permission (s.inodes cur) mayExec ∧ ∃ next nd, s.step k cur comp = some (some next) ∧
    (¬ s.follows next rest follow → goOn next nd = some (.ok r)) ∧
    (s.follows next rest follow → ∃ walks target n d, nested = some walks ∧ k.readLink next = .ok target ∧
    walks target = some (.ok (n,d)) ∧ goOn n d = some (.ok r)) := by
  unfold component at done
  split at done
  · cases done
  split at done
  · cases done
  split at done
  · cases done
  rename_i allowed
  refine ⟨by simpa using allowed,?_⟩
  obtain ⟨found,stepped,done⟩ := bind_eq_some_iff.mp done
  split at done
  · cases done
  rename_i next
  obtain ⟨nd,_,done⟩ := bind_eq_some_iff.mp done
  refine ⟨next,nd,stepped,?_,?_⟩
  · intro plain
    rw [if_neg plain] at done
    exact onwardOk done
  intro link
  rw [if_pos link] at done
  cases nested with
  | none => cases done
  | some walks =>
  dsimp only at done
  split at done
  · cases done
  split at done
  · cases done
  rename_i target text
  obtain ⟨reached,leads,done⟩ := bind_eq_some_iff.mp done
  split at done
  · cases done
  exact ⟨walks,target,_,_,rfl,text,leads,onwardOk done⟩

theorem searchesAllowed (searches : s.Searches k c memory links path follow cur D) :
    ∀ d r, s.walkPath k c memory (s.nests k c memory links) path follow cur d = some (.ok r) →
    c.permission (s.inodes D) mayExec := by
  induction searches with
  | here split =>
    intro d r done
    rw [walkPathOn split] at done
    exact (componentOk done).1
  | onward split found plain later earlier =>
    intro d r done
    rw [walkPathOn split] at done
    obtain ⟨_,next,nd,stepped,goes,_⟩ := componentOk done
    cases found.symm.trans stepped
    exact earlier _ _ (goes plain)
  | within split found link text inside earlier =>
    intro d r done
    rw [walkPathOn split] at done
    obtain ⟨_,next,nd,stepped,_,goes⟩ := componentOk done
    cases found.symm.trans stepped
    obtain ⟨walks,target,n,e,nested,same,leads,_⟩ := goes link
    cases nested
    cases text.symm.trans same
    exact earlier _ _ (walkNests.symm.trans leads)
  | after split found link text leads later earlier =>
    intro d r done
    rw [walkPathOn split] at done
    obtain ⟨_,next,nd,stepped,_,goes⟩ := componentOk done
    cases found.symm.trans stepped
    obtain ⟨walks,target,n,e,nested,same,reached,done⟩ := goes link
    cases nested
    cases text.symm.trans same
    cases leads.symm.trans reached
    exact earlier _ _ done

theorem permissionPart {x one two} (file : two &&& mayExec = 0) (part : one &&& two = two)
    (allowed : c.permission x one) : c.permission x two := by
  simp only [Cred.permission,Cred.check,Bool.false_eq_true,if_false] at allowed ⊢
  split
  · simp [file]
  rename_i user
  rw [if_neg user,beq_iff_eq] at allowed
  rw [beq_iff_eq]
  have masked := congrArg (· &&& two) allowed
  simpa only [BitVec.and_assoc,part] using masked

theorem Names.walked {base flags n d} (names : s.Names k c memory base path flags n d) :
    s.walk k c memory maxSymlinks base path (!flags.nofollow) = some (.ok (n,d)) := by
  have found := names.found
  unfold vfsResolveDentry at found
  split at found
  · cases found
  · exact found

/- What `file_open` opens, if it was there before, was found by walking to it, and may be opened. -/
theorem fileOpenExisting {base flags mode places o t} (fresh : s.Fresh places)
    (opened : s.fileOpen k c memory base path flags mode places = some (.ok o,t)) (old : o.node ∈ s.liveInodes) :
    s.walk k c memory maxSymlinks base path (!flags.nofollow) = some (.ok (o.node,o.dentry)) ∧ o.created = false ∧
    s.openRefused k c o flags = none ∧ t = (s.emptied k o.node flags).vfsIget o.node := by
  obtain ⟨⟨result,u⟩,resolved,opened⟩ := map_eq_some_iff.mp opened
  cases result with
  | error e => cases opened
  | ok o' =>
  dsimp only at opened
  split at opened
  · cases opened
  rename_i allowed
  split at opened
  · cases opened
  cases opened
  obtain ⟨rfl,_,rest⟩ | ⟨o',same,_,placed,_⟩ := resolveEnds resolved
  · exact ⟨(rest o rfl).2.walked,(rest o rfl).1,allowed,rfl⟩
  cases same
  exact absurd old (fresh.1 _ placed).1

theorem openAllowed {o flags} (old : o.created = false) (allowed : s.openRefused k c o flags = none) :
    c.permission (s.inodes o.node) ((if flags.acc ≠ .wronly then mayRead else 0) |||
      (if flags.acc ≠ .rdonly ∨ flags.trunc then mayWrite else 0)) := by
  by_contra denied
  have refused : ¬ o.created ∧ _ := ⟨by simp [old],denied⟩
  unfold openRefused at allowed
  dsimp only at allowed
  repeat' split at allowed
  all_goals cases allowed

/- Opening a file that was there: every directory on the way may be searched, the file may be
read and written as the flags ask, and it is changed only where it may be written. -/
theorem openMediated {base flags mode places o t} (fresh : s.Fresh places)
    (opened : s.fileOpen k c memory base path flags mode places = some (.ok o,t)) (old : o.node ∈ s.liveInodes) :
    (∀ D, s.Searches k c memory maxSymlinks path (!flags.nofollow) (s.startOf base path) D →
    c.permission (s.inodes D) mayExec) ∧ (flags.acc ≠ .wronly → c.permission (s.inodes o.node) mayRead) ∧
    (flags.acc ≠ .rdonly ∨ flags.trunc → c.permission (s.inodes o.node) mayWrite) ∧
    ((t.inodes o.node).data ≠ (s.inodes o.node).data → c.permission (s.inodes o.node) mayWrite) := by
  obtain ⟨walked,uncreated,allowed,rfl⟩ := fileOpenExisting fresh opened old
  have granted := openAllowed uncreated allowed
  have writes : flags.acc ≠ .rdonly ∨ flags.trunc → c.permission (s.inodes o.node) mayWrite := by
    intro asked
    refine permissionPart (by decide) ?_ granted
    split <;> decide
  refine ⟨?_,?_,writes,?_⟩
  · intro D searches
    exact searchesAllowed searches _ _ (walkNests.symm.trans walked)
  · intro asked
    refine permissionPart (by decide) ?_ granted
    rw [if_pos asked]
    split <;> decide
  intro differs
  refine writes ?_
  by_contra asked
  apply differs
  have uncut : ¬ s.cuts k o.node flags := fun cut => asked (.inl cut.2.1)
  simp [emptied,uncut,vfsIget,modifyInode]

/- A room that anybody may enter, where `a` is a link to the directory above. -/
def linkRoom : Vfs := {closedRoom [97] with
  inodes := fun n => if n = 30 then {type := .symlink, dev := 1}
    else {type := .directory, mode := 0o755, dev := 1, ptr := some (n / 10)}}

def upLink : Hooks := {noHooks with readLink := fun _ => .ok dotDot}

def visitor : Cred := {uid := 1000, euid := 1000}

theorem openMediatedLink : ∃ o t, linkRoom.fileOpen upLink visitor true 10 [100,slash,97] {acc := .rdonly} 0 {record := true} =
      some (.ok o,t) ∧ o.node = 10 ∧ linkRoom.Searches upLink visitor true maxSymlinks [100,slash,97] true 10 20 ∧
    visitor.permission (linkRoom.inodes 20) mayExec ∧ visitor.permission (linkRoom.inodes 10) mayRead := by
  have target : linkRoom.walk upLink visitor true 39 20 dotDot true = some (.ok (10,some 1)) := by
    rw [walkNests,@walkPathOn _ _ _ _ _ _ _ _ _ 46 [46] rfl]
    change linkRoom.walkPath _ _ _ _ _ _ 10 (some 1) = _
    rw [walkPathDone rfl]
  have found : linkRoom.vfsResolveDentry upLink visitor true 10 [100,slash,97] true = some (.ok (10,some 1)) := by
    rw [vfsResolveDentry,if_neg (by decide),walkNests,@walkPathOn _ _ _ _ _ _ _ _ _ 100 [slash,97] rfl]
    change linkRoom.walkPath _ _ _ _ [slash,97] _ 20 (some 2) = _
    rw [@walkPathOn _ _ _ _ _ _ _ _ _ 97 [] rfl]
    change (linkRoom.walk upLink visitor true 39 20 dotDot true).bind _ = _
    rw [target]
    change linkRoom.walkPath _ _ _ _ _ _ 10 (some 1) = _
    rw [walkPathDone rfl]
  have opened : linkRoom.fileOpen upLink visitor true 10 [100,slash,97] {acc := .rdonly} 0 {record := true} =
      some (.ok ⟨10,some 1,false⟩,linkRoom.vfsIget 10) := by
    rw [fileOpen,resolve,show (!false) = true from rfl,found]
    rfl
  have searches : linkRoom.Searches upLink visitor true maxSymlinks [100,slash,97] true 10 20 :=
    .onward rfl rfl (by decide) (.within rfl rfl (by decide) rfl (.here rfl))
  have granted := openMediated (by decide) opened (by decide)
  exact ⟨_,_,opened,rfl,searches,granted.1 20 searches,granted.2.1 (by decide)⟩

end Vfs
end Miviex
