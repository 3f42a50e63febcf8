import Mathlib.Data.List.Induction
import Miviex.Initramfs

/-! The directories while an archive is unpacked. A row is an entry that has its inode; the
dentries of a directory are those of its rows, in order. -/
namespace Miviex.Initramfs
open List Option Nat
open Function (update update_comm update_idem update_of_ne update_self)
open Vfs
open PointerChain (Threads)

structure Entry where
  path : List Name
  mode : BitVec 32
  uid : BitVec 32
  gid : BitVec 32
  mtime : BitVec 32
  data : List UInt8

namespace Entry

def type (e : Entry) : Option FileType :=
  if e.mode &&& sIfmt = sIfdir then some .directory
  else if e.mode &&& sIfmt = sIfreg then some .file
  else if e.mode &&& sIfmt = sIflnk then some .symlink
  else none

def leaf (e : Entry) : Name := e.path.getLastD []

def above (e : Entry) : List Name := e.path.dropLast

end Entry

structure Row where
  entry : Entry
  time : Nat
  node : Addr
  dentry : Addr
  parent : Addr

def rootAt : Addr := 1

def emptyRoot (boot : Nat) : Vfs :=
  (((Vfs.ramfsInit {blank with now := boot} ramfsDev 0o755 ⟨some rootAt,some rootAt,true⟩).2.vfsMount none rootAt .rootfs
    false true).map Prod.snd).getD blank

def kids (rows : List Row) (d : Addr) : List Addr := (rows.filter (fun r => r.parent = d)).map Row.dentry

def Home (rows : List Row) (path : List Name) (d n : Addr) : Prop :=
  path = [] ∧ d = rootAt ∧ n = rootAt ∨
    ∃ r ∈ rows, r.entry.path = path ∧ r.dentry = d ∧ r.node = n ∧ r.entry.type = some .directory

structure Directory (s : Vfs) (d n : Addr) : Prop where
  isDir : s.isDir n
  ptr : (s.inodes n).ptr = some d
  creates : (s.inodes n).creates = true

def inherits (s : Vfs) (r : Row) : Prop :=
  r.entry.type = some .directory ∧ (s.inodes (s.inode r.parent)).mode &&& sIsgid ≠ 0

def lastMade (rows : List Row) (d : Addr) : Option Nat := ((rows.filter (fun r => r.parent = d)).getLast?).map Row.time

structure Holds (x : Inode) (e : Entry) (setgid : Prop) (mtime : Nat) : Prop where
  type : e.type = some x.type
  uid : x.uid = .ofBitVec e.uid
  gid : x.gid = .ofBitVec e.gid
  data : x.data = e.data
  plain : ¬ setgid → x.mode = e.mode &&& 0o7777
  added : setgid → x.mode = (e.mode &&& 0o7777) ||| sIsgid
  mtime : x.mtime = mtime

def Attributes (s : Vfs) (rows : List Row) (r : Row) : Prop :=
  Holds (s.inodes r.node) r.entry (inherits s r) ((lastMade rows r.dentry).getD (Unpacking.nanoseconds r.entry.mtime))

structure Placed (s : Vfs) (rows : List Row) (r : Row) : Prop where
  path : r.entry.path ≠ []
  inode : s.inode r.dentry = r.node
  name : s.name r.dentry = r.entry.leaf
  home : ∃ n, Home rows r.entry.above r.parent n
  directory : r.entry.type = some .directory → Directory s r.dentry r.node
  attributes : Attributes s rows r

structure Tree (s : Vfs) (rows : List Row) : Prop where
  fsRoot : s.fsRoot = rootAt
  rootInode : s.inode rootAt = rootAt
  root : Directory s rootAt rootAt
  rootMode : (s.inodes rootAt).mode &&& sIsgid = 0
  readOnly : s.readOnly = fun _ => false
  threads : Threads s.nextSibling s.firstChild (kids rows)
  live : s.live = (rows.map Row.dentry).reverse ++ [rootAt]
  liveInodes : s.liveInodes = (rows.map Row.node).reverse ++ [rootAt]
  dentries : (rootAt::rows.map Row.dentry).Nodup
  nodes : (rootAt::rows.map Row.node).Nodup
  paths : (rows.map (fun r => r.entry.path)).Nodup
  placed : ∀ r ∈ rows, Placed s rows r

theorem emptyTree (boot) : Tree (emptyRoot boot) [] where
  fsRoot := rfl
  rootInode := rfl
  root := ⟨rfl,rfl,rfl⟩
  rootMode := by
    change (0o755 &&& 0o7777 : BitVec 32) &&& sIsgid = 0
    decide
  readOnly := by
    funext k
    change update (fun _ => false) rootAt false k = false
    simp
  threads := by
    refine ⟨fun k => ?_,nofun⟩
    change update (fun _ => none) rootAt none k = none
    simp
  live := rfl
  liveInodes := rfl
  dentries := by simp
  nodes := by simp
  paths := nodup_nil
  placed := nofun

variable {s t : Vfs} {rows : List Row} {path : List Name} {d n : Addr} {r : Row}

theorem rowSame {f} (distinct : (rootAt::rows.map f).Nodup) {q} (one : r ∈ rows) (two : q ∈ rows) (same : f r = f q) : r = q :=
  inj_on_of_nodup_map (nodup_cons.mp distinct).2 one two same

theorem rowApart {f} (distinct : (rootAt::rows.map f).Nodup) (one : r ∈ rows) : f r ≠ rootAt := by
  intro same
  exact (nodup_cons.mp distinct).1 (same ▸ mem_map_of_mem one)

theorem Tree.homePath (tree : Tree s rows) {other m} (one : Home rows path d n) (two : Home rows other d m) : path = other := by
  rcases one with ⟨rfl,rfl,rfl⟩ | ⟨r,inside,rfl,rfl,rfl,_⟩
  · rcases two with ⟨rfl,_⟩ | ⟨q,there,_,same,_⟩
    · rfl
    · exact absurd same (rowApart tree.dentries there)
  rcases two with ⟨_,same,_⟩ | ⟨q,there,rfl,same,_⟩
  · exact absurd same (rowApart tree.dentries inside)
  · rw [rowSame tree.dentries inside there same.symm]

theorem Tree.home (tree : Tree s rows) (home : Home rows path d n) : Directory s d n ∧ s.inode d = n := by
  rcases home with ⟨_,rfl,rfl⟩ | ⟨r,inside,_,rfl,rfl,isDir⟩
  · exact ⟨tree.root,tree.rootInode⟩
  · exact ⟨(tree.placed r inside).directory isDir,(tree.placed r inside).inode⟩

theorem kidsMem (tree : Tree s rows) (home : Home rows path d n) {c} :
    c ∈ kids rows d ↔ ∃ r ∈ rows, r.dentry = c ∧ r.entry.above = path ∧ r.parent = d := by
  simp only [kids,List.mem_map,mem_filter,decide_eq_true_eq]
  constructor
  · rintro ⟨r,⟨inside,parent⟩,rfl⟩
    obtain ⟨m,up⟩ := (tree.placed r inside).home
    rw [parent] at up
    exact ⟨r,inside,rfl,tree.homePath up home,parent⟩
  rintro ⟨r,inside,rfl,_,parent⟩
  exact ⟨r,⟨inside,parent⟩,rfl⟩

theorem pathParts {p : List Name} (nonempty : p ≠ []) : p = p.dropLast ++ [p.getLastD []] := by
  rw [getLastD_eq_getLast?,getLast?_eq_some_getLast nonempty,getD_some]
  exact (dropLast_append_getLast nonempty).symm

section

variable (tree : Tree s rows)
include tree

theorem Tree.homeSame {e m} (one : Home rows path d n) (two : Home rows path e m) : d = e ∧ n = m := by
  rcases one with ⟨empty,rfl,rfl⟩ | ⟨r,inside,rfl,rfl,rfl,_⟩
  · rcases two with ⟨_,rfl,rfl⟩ | ⟨q,there,same,_⟩
    · exact ⟨rfl,rfl⟩
    · exact absurd (same.trans empty) (tree.placed q there).path
  rcases two with ⟨empty,_⟩ | ⟨q,there,same,rfl,rfl,_⟩
  · exact absurd empty (tree.placed r inside).path
  rw [inj_on_of_nodup_map tree.paths there inside same]
  exact ⟨rfl,rfl⟩

section

variable (home : Home rows path d n)
include home

theorem Tree.looked (name) :
    s.vfsChild n name = some ((kids rows d).find? (fun c => s.name c == name)) := by
  have directory := (tree.home home).1
  unfold vfsChild
  rw [if_pos directory.isDir,directory.ptr]
  refine PointerChain.searchChain (tree.threads.chain d) (PointerChain.chainBounded (tree.threads.chain d) ?_)
  intro c inside
  obtain ⟨r,there,rfl,_⟩ := (kidsMem tree home).mp inside
  rw [tree.live]
  simp only [mem_append,mem_reverse,List.mem_map]
  exact .inl ⟨r,there,rfl⟩

theorem Tree.childPath {c} (inside : c ∈ kids rows d) :
    ∃ r ∈ rows, r.dentry = c ∧ r.entry.path = path ++ [s.name c] := by
  obtain ⟨r,there,rfl,above,_⟩ := (kidsMem tree home).mp inside
  have placed := tree.placed r there
  refine ⟨r,there,rfl,?_⟩
  rw [placed.name,← above]
  exact pathParts placed.path

theorem Tree.absent {name}
    (absent : ∀ r ∈ rows, r.entry.path ≠ path ++ [name]) : s.vfsChild n name = some none := by
  rw [tree.looked home,List.find?_eq_none.mpr]
  intro c inside named
  obtain ⟨r,there,_,same⟩ := tree.childPath home inside
  rw [eq_of_beq named] at same
  exact absent r there same

theorem Tree.child {name} (inside : r ∈ rows)
    (same : r.entry.path = path ++ [name]) : s.vfsChild n name = some (some r.dentry) := by
  have placed := tree.placed r inside
  have above : r.entry.above = path := by rw [Entry.above,same,dropLast_concat]
  have named : s.name r.dentry = name := by rw [placed.name,Entry.leaf,same,getLastD_concat]
  obtain ⟨m,up⟩ := placed.home
  rw [above] at up
  have member : r.dentry ∈ kids rows d := (kidsMem tree home).mpr ⟨r,inside,rfl,above,(tree.homeSame up home).1⟩
  rw [tree.looked home]
  cases found : (kids rows d).find? (fun c => s.name c == name) with
  | none => exact absurd (List.find?_eq_none.mp found r.dentry member) (by simp [named])
  | some c =>
    obtain ⟨q,there,rfl,whole⟩ := tree.childPath home (mem_of_find?_eq_some found)
    have matches_ := List.find?_some found
    rw [eq_of_beq matches_] at whole
    rw [inj_on_of_nodup_map tree.paths there inside (whole.trans same.symm)]

end

theorem Tree.homeAbove {name} (home : Home rows (path ++ [name]) d n) : ∃ e m, Home rows path e m := by
  rcases home with ⟨empty,_⟩ | ⟨r,inside,same,_⟩
  · simp at empty
  obtain ⟨m,up⟩ := (tree.placed r inside).home
  rw [Entry.above,same,dropLast_concat] at up
  exact ⟨_,m,up⟩

end

namespace Unpacking

variable {m : Memory} {u : Unpacking}

theorem parentAppend (m one two cur u) : parentOf m (one ++ two) cur u = (parentOf m one cur u).bind (fun (dir,u) =>
      match dir with
      | none => some (none,u)
      | some dir => parentOf m two dir u) := by
  induction one generalizing cur u with
  | nil => rfl
  | cons comp rest ih =>
  simp only [cons_append,parentOf]
  split
  · exact ih cur u
  cases u.create m cur comp .directory 0o755 with
  | none => rfl
  | some made =>
  obtain ⟨made,u⟩ := made
  simp only [bind_some,bind_assoc]
  congr 1
  funext next
  split
  · exact ih next u
  · rfl

theorem parentFound (tree : Tree u.vfs rows) (home : Home rows path d n) (names : ∀ c ∈ path, c ≠ [] ∧ c.length ≤ nameMax) :
    parentOf m path rootAt u = some (some n,{u with calls := u.calls + path.length}) := by
  induction path using reverseRecOn generalizing d n with
  | nil =>
    rcases home with ⟨_,_,rfl⟩ | ⟨r,inside,empty,_⟩
    · rfl
    · exact absurd empty (tree.placed r inside).path
  | append_singleton front name ih =>
  obtain ⟨e,k,above⟩ := tree.homeAbove home
  rw [parentAppend,ih above (fun c inside => names c (mem_append_left _ inside))]
  obtain ⟨nonempty,short⟩ := names name (by simp)
  obtain ⟨empty,_⟩ | ⟨r,inside,same,rfl,rfl,isDir⟩ := home
  · simp at empty
  have directory := (tree.home above).1
  have there := tree.child above inside same
  have exists_ : Unpacking.create m {u with calls := u.calls + front.length} k name .directory 0o755 =
      some (.error .eexist,{u with calls := u.calls+front.length + 1}) := by
    simp only [Unpacking.create,vfsCreate,there,bind_some,createRefused,directory.isDir,not_true_eq_false,
      if_false,Nat.not_lt.mpr short,isSome_some,if_true,map_some]
  have placed := tree.placed r inside
  simp only [bind_some,parentOf,nonempty,if_false,exists_,found,there,placed.inode,id,map_some,
    if_true,(placed.directory isDir).isDir,length_append,length_singleton,Nat.add_assoc]

end Unpacking

structure Pointers where
  parent : Addr → Option Addr
  order : Addr → Nat
  seq : Nat
  firstChild : Addr → Option Addr
  nextSibling : Addr → Option Addr

def pointed (s : Vfs) (k : Pointers) : Vfs :=
  {s with parent := k.parent, order := k.order, seq := k.seq, firstChild := k.firstChild, nextSibling := k.nextSibling}

theorem hung {items p} (threads : Threads s.nextSibling s.firstChild items)
    (bound : (items p).length ≤ s.live.length) (loose : ∀ k, d ∉ items k) (ends : s.nextSibling d = none) :
    ∃ k, s.vfsAddChild p d = some (pointed s k) ∧ Threads k.nextSibling k.firstChild (update items p (items p ++ [d])) := by
  have chain := threads.chain p
  unfold vfsAddChild enroll setParent
  by_cases empty : items p = []
  · have bare : s.firstChild p = none := PointerChain.chainEmpty (empty ▸ chain)
    refine ⟨⟨update s.parent d (some p),update s.order d s.seq,(s.seq+1) % 2^64,
      update s.firstChild p (some d),s.nextSibling⟩,by simp only [bare]; rfl,?_⟩
    refine PointerChain.threadsPush threads loose ends (fun _ => update_self ..) (fun y last => ?_)
      (fun _ _ _ _ => rfl) (fun j other => update_of_ne other ..)
    simp [empty] at last
  obtain ⟨first,rest,list⟩ := exists_cons_of_ne_nil empty
  obtain ⟨final,last⟩ : ∃ y, (items p).getLast? = some y := isSome_iff_exists.mp (by simp [list])
  have inside : final ∈ items p := mem_of_getLast? last
  have head : s.firstChild p = some first := (list ▸ chain).1
  have walk : PointerChain.last s.nextSibling s.live.length first = some final := by
    rw [← last,list]
    rw [list] at chain bound
    exact PointerChain.lastChain ⟨rfl,chain.2⟩ bound
  refine ⟨⟨update s.parent d (some p),update s.order d s.seq,(s.seq+1) % 2^64,s.firstChild,
    update s.nextSibling final (some d)⟩,by simp only [head,walk]; rfl,?_⟩
  refine PointerChain.threadsPush threads loose ?_ (fun none => absurd none empty) (fun y isLast => ⟨rfl,?_⟩)
    (fun j y _ other => ?_) (fun _ _ => rfl)
  · exact (update_of_ne (fun same : d = final => loose p (same ▸ inside)) ..).trans ends
  · cases last.symm.trans isLast
    exact update_self ..
  · exact update_of_ne (fun same : y = final => other (same ▸ last)) ..

theorem kidsSnoc (rows) (r : Row) : kids (rows ++ [r]) = update (kids rows) r.parent (kids rows r.parent ++ [r.dentry]) := by
  funext k
  by_cases same : k = r.parent
  · subst same
    simp [kids,filter_append]
  · simp [kids,filter_append,same,Ne.symm same]

structure Fresh (s : Vfs) (d n : Addr) : Prop where
  dentry : d ∉ s.live
  node : n ∉ s.liveInodes

def grown (s : Vfs) (n : Addr) (name : Name) (d k : Addr) (x : Inode) (pointers : Pointers) : Vfs :=
  pointed {s with
    inode := update s.inode d k
    name := update s.name d name
    inodes := update (update s.inodes n (stamp s.now modified (s.inodes n))) k x
    live := d::s.live
    liveInodes := k::s.liveInodes} pointers

def ramfsNode (s : Vfs) (dir d : Addr) (type : FileType) (mode : BitVec 32) : Inode :=
  if type = .directory then {ramfsInode type mode (s.dev dir) s.now with ptr := some d, creates := true}
  else ramfsInode type mode (s.dev dir) s.now

theorem grownInode {dir k l name x pointers} (other : l ≠ k) :
    (grown s dir name d k x pointers).inodes l = if l = dir then stamp s.now modified (s.inodes l) else s.inodes l := by
  refine (update_of_ne other ..).trans ?_
  split
  case isTrue same => rw [same,update_self]
  case isFalse apart => exact update_of_ne apart ..

theorem Directory.grows {dir k l p name x pointers} (other : l ≠ k)
    (directory : Directory s p l) : Directory (grown s dir name d k x pointers) p l := by
  obtain ⟨isDir,ptr,creates⟩ := directory
  constructor
  all_goals
    simp only [Vfs.isDir,grownInode other] at isDir ⊢
    split <;> assumption

theorem Home.grows {p more} (home : Home rows path p n) : Home (rows ++ more) path p n := by
  rcases home with top | ⟨r,inside,rest⟩
  · exact .inl top
  · exact .inr ⟨r,mem_append_left more inside,rest⟩

section

variable (tree : Tree s rows)
include tree

theorem Tree.dentryLive (home : Home rows path d n) : d ∈ s.live ∧ n ∈ s.liveInodes := by
  rw [tree.live,tree.liveInodes]
  rcases home with ⟨_,rfl,rfl⟩ | ⟨r,inside,_,rfl,rfl,_⟩
  · simp
  simp only [mem_append,mem_reverse,List.mem_map]
  exact ⟨.inl ⟨r,inside,rfl⟩,.inl ⟨r,inside,rfl⟩⟩

theorem Tree.kidsLive {k c} (inside : c ∈ kids rows k) : c ∈ s.live ∧ k ∈ s.live := by
  simp only [kids,List.mem_map,mem_filter,decide_eq_true_eq] at inside
  obtain ⟨r,⟨there,rfl⟩,rfl⟩ := inside
  obtain ⟨m,up⟩ := (tree.placed r there).home
  refine ⟨?_,(tree.dentryLive up).1⟩
  rw [tree.live]
  simp only [mem_append,mem_reverse,List.mem_map]
  exact .inl ⟨r,there,rfl⟩

theorem Tree.admitted (home : Home rows path d n) {name} (short : name.length ≤ nameMax) :
    s.createRefused {} n name none = none := by
  have directory := (tree.home home).1
  have writable : s.vfsReadonly n = false := by
    rw [vfsReadonly,tree.readOnly]
    cases s.vfsMountOf (s.dev n) <;> rfl
  have allowed : Cred.permission {} (s.inodes n) (mayWrite ||| mayExec) = true := by
    simp [Cred.permission,Cred.check,show (s.inodes n).type = .directory from directory.isDir]
  simp [createRefused,directory.isDir,directory.creates,removed,directory.ptr,short,writable,allowed]

theorem Tree.threadsAlloc (fresh : Fresh s d n) (name x) :
    Threads ((s.allocInode n x).allocDentry d name n).nextSibling ((s.allocInode n x).allocDentry d name n).firstChild
    (kids rows) := by
  refine PointerChain.threadsCongr tree.threads (fun k c inside => ?_) (fun k => ?_)
  · exact update_of_ne (fun same : c = d => fresh.dentry (same ▸ (tree.kidsLive inside).1)) ..
  by_cases same : k = d
  · subst same
    have empty : kids rows k = [] :=
      eq_nil_iff_forall_not_mem.mpr (fun c inside => fresh.dentry (tree.kidsLive inside).2)
    exact (update_self ..).trans (PointerChain.chainEmpty (empty ▸ tree.threads.chain k)).symm
  · exact update_of_ne same ..

theorem Tree.created {e k} (home : Home rows path e n) {name}
    (absent : ∀ r ∈ rows, r.entry.path ≠ path ++ [name]) (short : name.length ≤ nameMax) (fresh : Fresh s d k)
    (type mode record) : ∃ pointers, s.vfsCreate {} n name type mode ⟨some k,some d,record⟩ =
    some (.ok k,grown s n name d k (bequeath {} (s.inodes n) (ramfsNode s n d type mode)) pointers) ∧
    Threads pointers.nextSibling pointers.firstChild (update (kids rows) e (kids rows e ++ [d])) := by
  have directory := (tree.home home).1
  have apart : n ≠ k := fun same => fresh.node (same ▸ (tree.dentryLive home).2)
  have bound : (kids rows e).length ≤ s.live.length+1 :=
    le_succ_of_le (PointerChain.chainBounded (tree.threads.chain e) (fun c inside => (tree.kidsLive inside).1))
  obtain ⟨pointers,added,threads⟩ := hung (p := e) (tree.threadsAlloc fresh name (ramfsNode s n d type mode)) bound
    (fun j inside => fresh.dentry (tree.kidsLive inside).1) (update_self ..)
  refine ⟨pointers,?_,threads⟩
  have made : s.ramfsCreate n name type mode ⟨some k,some d,record⟩ = some (some k,
      pointed ((s.allocInode k (ramfsNode s n d type mode)).allocDentry d name k) pointers) := by
    unfold ramfsCreate
    simp only [directory.ptr]
    exact congrArg (Option.map _) added
  unfold vfsCreate
  rw [tree.absent home absent]
  simp only [bind_some,tree.admitted home short,made,map_some]
  simp only [vfsTouch,modifyInode,pointed,allocDentry,allocInode,grown,update_self,update_of_ne apart,update_idem]
  rw [update_comm apart]

theorem Tree.homeRow {p} (home : Home rows path p n) (inside : r ∈ rows) : r.node = n ↔ r.dentry = p := by
  rcases home with ⟨_,rfl,rfl⟩ | ⟨q,there,_,rfl,rfl,_⟩
  · exact iff_of_false (rowApart tree.nodes inside) (rowApart tree.dentries inside)
  · exact ⟨fun same => by rw [rowSame tree.nodes inside there same],fun same => by rw [rowSame tree.dentries inside there same]⟩

end

theorem lastMadeSnoc (rows) (r : Row) (p) :
    lastMade (rows ++ [r]) p = if r.parent = p then some r.time else lastMade rows p := by
  unfold lastMade
  split
  case isTrue same => simp [same]
  case isFalse other => simp [other]

section

variable {p k : Addr} {name : Name} {x : Inode} {pointers : Pointers}

theorem Tree.placedGrows (tree : Tree s rows) (fresh : Fresh s d k) {q} (home : Home rows q.entry.above q.parent n)
    (time : q.time = s.now) (inside : r ∈ rows) : Placed (grown s n name d k x pointers) (rows ++ [q]) r := by
  have placed := tree.placed r inside
  have old : Holds _ _ _ _ := placed.attributes
  obtain ⟨m,up⟩ := placed.home
  have liveRow : r.dentry ∈ s.live ∧ r.node ∈ s.liveInodes := by
    rw [tree.live,tree.liveInodes]
    simp only [mem_append,mem_reverse,List.mem_map]
    exact ⟨.inl ⟨r,inside,rfl⟩,.inl ⟨r,inside,rfl⟩⟩
  have other : r.node ≠ k := fun same => fresh.node (same ▸ liveRow.2)
  have otherParent : r.parent ≠ d := fun same => fresh.dentry (same ▸ (tree.dentryLive up).1)
  have otherDentry : r.dentry ≠ d := fun same => fresh.dentry (same ▸ liveRow.1)
  have passes : inherits (grown s n name d k x pointers) r ↔ inherits s r := by
    have same : (grown s n name d k x pointers).inode r.parent = m :=
      (update_of_ne otherParent ..).trans (tree.home up).2
    unfold inherits
    rw [same,(tree.home up).2,grownInode (fun same : m = k => fresh.node (same ▸ (tree.dentryLive up).2))]
    split <;> rfl
  refine ⟨placed.path,(update_of_ne otherDentry ..).trans placed.inode,
    (update_of_ne otherDentry ..).trans placed.name,⟨m,up.grows⟩,
    fun isDir => (placed.directory isDir).grows other,?_⟩
  unfold Attributes
  rw [propext passes,grownInode other,lastMadeSnoc]
  by_cases here : r.dentry = q.parent
  · rw [if_pos ((tree.homeRow home inside).mpr here),if_pos here.symm,time]
    exact {old with mtime := rfl}
  rw [if_neg (fun same => here ((tree.homeRow home inside).mp same)),if_neg (Ne.symm here)]
  exact old

structure Made (s : Vfs) (dir : Addr) (q : Row) (x : Inode) : Prop where
  holds : Holds x q.entry (x.type = .directory ∧ (s.inodes dir).mode &&& sIsgid ≠ 0) (Unpacking.nanoseconds q.entry.mtime)
  directory : x.type = .directory → x.ptr = some q.dentry ∧ x.creates = true

theorem Tree.placedNew (tree : Tree s rows) {q} (fresh : Fresh s q.dentry q.node) (path : q.entry.path ≠ [])
    (home : Home rows q.entry.above q.parent n) (made : Made s n q x) :
    Placed (grown s n q.entry.leaf q.dentry q.node x pointers) (rows ++ [q]) q := by
  have here : (grown s n q.entry.leaf q.dentry q.node x pointers).inodes q.node = x := update_self ..
  have apart : q.parent ≠ q.dentry := fun same => fresh.dentry (same ▸ (tree.dentryLive home).1)
  have passes : inherits (grown s n q.entry.leaf q.dentry q.node x pointers) q ↔
      x.type = .directory ∧ (s.inodes n).mode &&& sIsgid ≠ 0 := by
    have same : (grown s n q.entry.leaf q.dentry q.node x pointers).inode q.parent = n :=
      (update_of_ne apart ..).trans (tree.home home).2
    unfold inherits
    rw [same,grownInode (fun same : n = q.node => fresh.node (same ▸ (tree.dentryLive home).2)),if_pos rfl,made.holds.type,
      Option.some.injEq]
    rfl
  have childless : lastMade (rows ++ [q]) q.dentry = none := by
    rw [lastMadeSnoc,if_neg apart,lastMade,filter_eq_nil_iff.mpr]
    · rfl
    intro r inside same
    obtain ⟨m,up⟩ := (tree.placed r inside).home
    exact fresh.dentry (of_decide_eq_true same ▸ (tree.dentryLive up).1)
  refine ⟨path,update_self ..,update_self ..,⟨n,home.grows⟩,fun isDir => ?_,?_⟩
  · have isDir : x.type = .directory := Option.some.inj (made.holds.type.symm.trans isDir)
    constructor
    · exact (congrArg Inode.type here).trans isDir
    · exact (congrArg Inode.ptr here).trans (made.directory isDir).1
    · exact (congrArg Inode.creates here).trans (made.directory isDir).2
  unfold Attributes
  rw [propext passes,here,childless]
  exact made.holds

theorem Tree.grows (tree : Tree s rows) {q} (fresh : Fresh s q.dentry q.node) (path : q.entry.path ≠ [])
    (home : Home rows q.entry.above q.parent n) (made : Made s n q x) (time : q.time = s.now)
    (absent : ∀ r ∈ rows, r.entry.path ≠ q.entry.path) (threads : Threads pointers.nextSibling pointers.firstChild
    (update (kids rows) q.parent (kids rows q.parent ++ [q.dentry]))) :
    Tree (grown s n q.entry.leaf q.dentry q.node x pointers) (rows ++ [q]) := by
  have freshDentry := fresh.dentry
  have freshNode := fresh.node
  simp only [tree.live,tree.liveInodes,mem_append,mem_reverse,mem_singleton,not_or] at freshDentry freshNode
  constructor
  · exact tree.fsRoot
  · exact (update_of_ne (Ne.symm freshDentry.2) ..).trans tree.rootInode
  · exact tree.root.grows (Ne.symm freshNode.2)
  · rw [grownInode (Ne.symm freshNode.2)]
    split <;> exact tree.rootMode
  · exact tree.readOnly
  · rw [kidsSnoc]
    exact threads
  · simp [grown,pointed,tree.live]
  · simp [grown,pointed,tree.liveInodes]
  · rw [map_append,← cons_append]
    refine List.Nodup.append tree.dentries (nodup_singleton _) ?_
    simpa [List.Disjoint,Ne.symm freshDentry.2] using freshDentry.1
  · rw [map_append,← cons_append]
    refine List.Nodup.append tree.nodes (nodup_singleton _) ?_
    simpa [List.Disjoint,Ne.symm freshNode.2] using freshNode.1
  · rw [map_append]
    refine List.Nodup.append tree.paths (nodup_singleton _) ?_
    simpa [List.Disjoint] using absent
  intro r inside
  rcases mem_append.mp inside with old | new
  · exact tree.placedGrows fresh home time old
  cases mem_singleton.mp new
  exact tree.placedNew fresh path home made

end

end Miviex.Initramfs
