import Miviex.Newc

/-! A whole archive. Every entry gets one inode of its own. Its mode and its mtime are what
`vfs_create` made of them: a directory below a setgid one is setgid too, and a directory has the
time at which the last of its own entries was unpacked. -/
namespace Miviex.Initramfs
open List Option Nat
open Vfs
open PointerChain (Threads)

namespace Entry

structure WellFormed (e : Entry) : Prop where
  names : ∀ c ∈ e.path, c ≠ [] ∧ c ≠ dot ∧ c.length ≤ nameMax ∧ slash ∉ c ∧ 0 ∉ c
  short : e.text.length < maxPath
  named : e.text ≠ trailer
  type : e.type.isSome
  root : e.path = [] → e.type = some .directory
  contents : e.type = some .directory → e.data = []

end Entry

structure Listing (entries : List Entry) : Prop where
  wellFormed : ∀ e ∈ entries, e.WellFormed
  distinct : (entries.map Entry.path).Nodup
  ordered : ∀ front e back, entries = front ++ e::back → e.above ≠ [] → ∃ f ∈ front, f.path = e.above ∧ f.type = some .directory

structure Supply (m : Memory) : Prop where
  places : ∀ i, ∃ k d record, m.places i = ⟨some k,some d,record⟩ ∧ k ≠ rootAt ∧ d ≠ rootAt
  nodes : ∀ i j k, (m.places i).inode = some k → (m.places j).inode = some k → i = j
  dentries : ∀ i j d, (m.places i).dentry = some d → (m.places j).dentry = some d → i = j
  room : ∀ i, m.room i = true

def located (s : Vfs) (path : List Name) : Option Addr :=
  path.foldlM (fun n name => ((s.vfsChild n name).bind id).map s.inode) (s.inode s.fsRoot)

structure OneEach (s : Vfs) (entries : List Entry) : Prop where
  once : s.liveInodes.Nodup
  found : ∀ e ∈ entries, ∃ n ∈ s.liveInodes, located s e.path = some n
  apart : ∀ e ∈ entries, ∀ f ∈ entries, located s e.path = located s f.path → e.path = f.path
  only : ∀ n ∈ s.liveInodes, n = s.inode s.fsRoot ∨ ∃ e ∈ entries, located s e.path = some n

structure Kept (x : Inode) (e : Entry) : Prop where
  type : e.type = some x.type
  mode : x.mode = e.mode &&& 0o7777
  uid : x.uid = .ofBitVec e.uid
  gid : x.gid = .ofBitVec e.gid
  mtime : x.mtime = Unpacking.nanoseconds e.mtime
  data : x.data = e.data

def lastCreated (clock : Nat → Nat) (entries : List Entry) (path : List Name) : Option Nat :=
  ((entries.zipIdx.filter (fun x => x.1.path ≠ [] ∧ x.1.above = path)).getLast?).map (fun x => clock x.2)

structure Undisturbed (clock : Nat → Nat) (boot : Nat) (entries : List Entry) : Prop where
  root : ∀ e ∈ entries, e.path = [] → e.mode &&& 0o7777 = 0o755 ∧ e.uid = 0 ∧ e.gid = 0
  setgid : ∀ e ∈ entries, ∀ f ∈ entries, e.path ≠ [] → f.path ≠ [] → f.above = e.path → e.mode &&& sIsgid ≠ 0 →
    f.type = some .directory → f.mode &&& sIsgid ≠ 0
  mtime : ∀ e ∈ entries, (lastCreated clock entries e.path).getD
    (if e.path = [] then boot else Unpacking.nanoseconds e.mtime) = Unpacking.nanoseconds e.mtime

variable {s : Vfs} {rows : List Row} {r : Row} {e : Entry} {done entries : List Entry} {d k n p : Addr} {m : Memory}
  {clock : Nat → Nat} {boot : Nat} {u : Unpacking}

theorem grownModify (s n name d k x pointers) (f : Inode → Inode) :
    (grown s n name d k x pointers).modifyInode k f = grown s n name d k (f x) pointers := by
  simp only [modifyInode,grown,pointed,Function.update_self,Function.update_idem]

theorem grownNow (s : Vfs) (n name d k x pointers) : (grown s n name d k x pointers).now = s.now := rfl

theorem bequeathed (c) (parent x : Inode) : (bequeath c parent x).type = x.type ∧ (bequeath c parent x).data = x.data ∧
    (bequeath c parent x).ptr = x.ptr ∧ (bequeath c parent x).creates = x.creates ∧ (bequeath c parent x).mode =
    if x.type = .directory ∧ parent.mode &&& sIsgid ≠ 0 then x.mode ||| sIsgid else x.mode := by
  unfold bequeath
  split
  case isTrue passes => simp only [ne_eq,bne_iff_ne.mp passes,not_false_eq_true,and_true]
  case isFalse plain =>
    have plain : parent.mode &&& sIsgid = 0 := by simpa using plain
    simp only [plain,ne_eq,not_true_eq_false,and_false,if_false,and_self]

def unpackedNode (s : Vfs) (dir d : Addr) (e : Entry) (type : FileType) : Inode :=
  let x := bequeath {} (s.inodes dir) (ramfsNode s dir d type e.mode)
  Unpacking.owned e.header (if e.data ≠ [] then Unpacking.ramfsWrite s.now e.data x else x)

theorem unpackedMade {q type} (here : q.entry.type = some type) : Made s n q (unpackedNode s n q.dentry q.entry type) := by
  have node : (ramfsNode s n q.dentry type q.entry.mode).type = type ∧ (ramfsNode s n q.dentry type q.entry.mode).data = [] ∧
      (ramfsNode s n q.dentry type q.entry.mode).mode = q.entry.mode &&& 0o7777 ∧
      (type = .directory → (ramfsNode s n q.dentry type q.entry.mode).ptr = some q.dentry ∧
        (ramfsNode s n q.dentry type q.entry.mode).creates = true) := by
    unfold ramfsNode
    split
    case isTrue => exact ⟨rfl,rfl,rfl,fun _ => ⟨rfl,rfl⟩⟩
    case isFalse other => exact ⟨rfl,rfl,rfl,fun isDir => absurd isDir other⟩
  obtain ⟨nodeType,nodeData,nodeMode,nodePtr⟩ := node
  have given := bequeathed {} (s.inodes n) (ramfsNode s n q.dentry type q.entry.mode)
  simp only [nodeType,nodeData,nodeMode] at given
  obtain ⟨sameType,sameData,samePtr,sameCreates,sameMode⟩ := given
  have typed : (unpackedNode s n q.dentry q.entry type).type = type := by
    unfold unpackedNode
    split <;> exact sameType
  have written : (unpackedNode s n q.dentry q.entry type).data = q.entry.data := by
    unfold unpackedNode
    dsimp only [Unpacking.owned]
    split
    case isTrue => simp [Unpacking.ramfsWrite,stamp,sameData]
    case isFalse empty => rw [sameData,not_not.mp empty]
  have mode : (unpackedNode s n q.dentry q.entry type).mode = if type = .directory ∧ (s.inodes n).mode &&& sIsgid ≠ 0
      then (q.entry.mode &&& 0o7777) ||| sIsgid else q.entry.mode &&& 0o7777 := by
    rw [← sameMode]
    unfold unpackedNode
    split <;> rfl
  refine ⟨⟨by rw [typed,here],rfl,rfl,written,fun plain => ?_,fun added => ?_,rfl⟩,fun isDir => ?_⟩
  · rw [mode,if_neg (typed ▸ plain)]
  · rw [mode,if_pos (typed ▸ added)]
  rw [← (nodePtr (typed ▸ isDir)).1,← (nodePtr (typed ▸ isDir)).2,← samePtr,← sameCreates]
  unfold unpackedNode
  dsimp only [Unpacking.owned]
  split <;> exact ⟨rfl,rfl⟩

theorem created (tree : Tree u.vfs rows) (home : Home rows e.above p n) (absent : ∀ r ∈ rows, r.entry.path ≠ e.path)
    (path : e.path ≠ []) (short : e.leaf.length ≤ nameMax) (fresh : Fresh u.vfs d k) {record}
    (places : m.places u.calls = ⟨some k,some d,record⟩) {type} (here : e.type = some type)
    (contents : type = .directory → e.data = []) :
    ∃ pointers, (u.makeNode m n e.leaf e.mode e.data true).map (fun (n,u) => match n with
        | none => u
        | some n => u.modify n (Unpacking.owned e.header)) =
        some ⟨grown u.vfs n e.leaf d k (unpackedNode u.vfs n d e type) pointers,u.calls+1⟩ ∧
      Threads pointers.nextSibling pointers.firstChild (Function.update (kids rows) p (kids rows p ++ [d])) := by
  have whole : e.path = e.above ++ [e.leaf] := pathParts path
  obtain ⟨pointers,made,threads⟩ := tree.created home (fun r inside => whole ▸ absent r inside) short fresh type e.mode record
  refine ⟨pointers,?_,threads⟩
  have called : u.create m n e.leaf type e.mode = some (.ok k,⟨grown u.vfs n e.leaf d k
      (bequeath {} (u.vfs.inodes n) (ramfsNode u.vfs n d type e.mode)) pointers,u.calls+1⟩) := by
    rw [Unpacking.create,places,made]
    rfl
  unfold Entry.type at here
  unfold Unpacking.makeNode
  split at here
  case isTrue isDir =>
    cases here
    simp only [isDir,if_true,called,bind_some,map_some,Unpacking.modify,grownModify,unpackedNode,
      contents rfl,ne_eq,not_true_eq_false,if_false]
  case isFalse other =>
    have regular : (e.mode &&& sIfmt = sIfreg ∨ e.mode &&& sIfmt = sIflnk) ∧
        (if e.mode &&& sIfmt = sIfreg then FileType.file else .symlink) = type := by
      split at here
      case isTrue isFile => exact ⟨.inl isFile,(if_pos isFile).trans (Option.some.inj here)⟩
      case isFalse isNot =>
        split at here
        case isTrue isLink => exact ⟨.inr isLink,(if_neg isNot).trans (Option.some.inj here)⟩
        case isFalse => cases here
    rw [if_neg other,if_pos regular.1,regular.2,called]
    by_cases empty : e.data = [] <;> simp [empty,Unpacking.modify,grownModify,grownNow,unpackedNode]

theorem Entry.WellFormed.parts (wellFormed : e.WellFormed) (path : e.path ≠ []) : e.text.splitOn slash = e.path := by
  rw [text,if_neg path]
  exact splitOn_intercalate slash (fun c inside => (wellFormed.names c inside).2.2.2.1) path

theorem joinedWithout {x separator} (other : x ≠ separator) {parts : List (List UInt8)} (without : ∀ c ∈ parts, x ∉ c) :
    x ∉ [separator].intercalate parts := by
  induction parts with
  | nil => simp
  | cons first rest ih =>
    have rest_ := ih (fun c inside => without c (mem_cons_of_mem first inside))
    cases rest with
    | nil => simpa using without first mem_cons_self
    | cons second more =>
      rw [intercalate_cons_cons]
      simp only [mem_append,mem_singleton,not_or]
      exact ⟨⟨without first mem_cons_self,other⟩,rest_⟩

theorem Entry.WellFormed.ends (wellFormed : e.WellFormed) : 0 ∉ e.text := by
  unfold text
  split
  · decide
  · exact joinedWithout (by decide) (fun c inside => (wellFormed.names c inside).2.2.2.2)

theorem Tree.later (tree : Tree s rows) (now) : Tree {s with now := now} rows := by
  obtain ⟨fsRoot,rootInode,⟨isDir,ptr,creates⟩,rootMode,readOnly,threads,live,liveInodes,dentries,nodes,paths,placed⟩ := tree
  refine ⟨fsRoot,rootInode,⟨isDir,ptr,creates⟩,rootMode,readOnly,threads,live,liveInodes,dentries,nodes,paths,
    fun r inside => ?_⟩
  obtain ⟨path,inode,name,home,directory,attributes⟩ := placed r inside
  exact ⟨path,inode,name,home,fun isDir => ⟨(directory isDir).1,(directory isDir).2,(directory isDir).3⟩,attributes⟩

structure Unpacked (m : Memory) (clock : Nat → Nat) (boot : Nat) (u : Unpacking) (rows : List Row) (done : List Entry) :
    Prop where
  tree : Tree u.vfs rows
  listed : rows.map (fun r => (r.entry,r.time)) =
    (done.zipIdx.filter (fun x => x.1.path ≠ [])).map (fun x => (x.1,clock x.2))
  used : ∀ r ∈ rows, ∃ i < u.calls, (m.places i).inode = some r.node ∧ (m.places i).dentry = some r.dentry
  root : ∃ changed, u.vfs.inodes rootAt =
    {(emptyRoot boot).inodes rootAt with mtime := (lastMade rows rootAt).getD boot, ctime := changed}

theorem unpackedNothing (m) (clock : Nat → Nat) (boot) : Unpacked m clock boot ⟨emptyRoot boot,0⟩ [] [] :=
  ⟨emptyTree boot,rfl,nofun,boot,rfl⟩

section

variable (unpacked : Unpacked m clock boot u rows done)

include unpacked

theorem Unpacked.rowEntries : rows.map Row.entry = done.filter (fun e => e.path ≠ []) := by
  have same := congrArg (List.map Prod.fst) unpacked.listed
  rw [List.map_map,List.map_map] at same
  refine same.trans ?_
  conv_rhs => rw [← List.zipIdx_map_fst 0 done,List.filter_map]
  rfl

theorem Unpacked.member (path : e.path ≠ []) : e ∈ done ↔ ∃ r ∈ rows, r.entry = e := by
  rw [← List.mem_map,unpacked.rowEntries,List.mem_filter]
  simp [path]

theorem Unpacked.fresh (supply : Supply m) {i} (later : u.calls ≤ i) {k d record}
    (places : m.places i = ⟨some k,some d,record⟩) : Fresh u.vfs d k := by
  obtain ⟨_,_,_,same,node,dentry⟩ := supply.places i
  cases places.symm.trans same
  constructor
  · simp only [unpacked.tree.live,List.mem_append,List.mem_reverse,List.mem_map,List.mem_singleton,dentry,or_false]
    rintro ⟨r,inside,rfl⟩
    obtain ⟨j,before,_,taken⟩ := unpacked.used r inside
    have := supply.dentries i j r.dentry (by rw [places]) taken
    omega
  simp only [unpacked.tree.liveInodes,List.mem_append,List.mem_reverse,List.mem_map,List.mem_singleton,node,or_false]
  rintro ⟨r,inside,rfl⟩
  obtain ⟨j,before,taken,_⟩ := unpacked.used r inside
  have := supply.nodes i j r.node (by rw [places]) taken
  omega

theorem Unpacked.ticked (now) : Unpacked m clock boot {u with vfs := {u.vfs with now := now}} rows done :=
  ⟨unpacked.tree.later now,unpacked.listed,unpacked.used,unpacked.root⟩

theorem Unpacked.rootStep (path : e.path = []) (h room) :
    u.entry m h e.text e.data room = some u ∧ Unpacked m clock boot u rows (done ++ [e]) := by
  have parts : e.text.splitOn slash = [dot] := by
    rw [Entry.text,if_pos path]
    rfl
  refine ⟨?_,unpacked.tree,?_,unpacked.used,unpacked.root⟩
  · rw [Unpacking.entry,parts]
    rfl
  rw [unpacked.listed,zipIdx_append]
  simp [path]

theorem Unpacked.home
    (ordered : e.above ≠ [] → ∃ f ∈ done, f.path = e.above ∧ f.type = some .directory) : ∃ p n, Home rows e.above p n := by
  by_cases top : e.above = []
  · exact ⟨rootAt,rootAt,.inl ⟨top,rfl,rfl⟩⟩
  obtain ⟨f,inside,path,isDir⟩ := ordered top
  obtain ⟨r,there,rfl⟩ := (unpacked.member (path ▸ top)).mp inside
  exact ⟨r.dentry,r.node,.inr ⟨r,there,path,rfl,rfl,isDir⟩⟩

theorem Unpacked.entered (wellFormed : e.WellFormed) (path : e.path ≠ []) {p n}
    (home : Home rows e.above p n) : u.entry m e.header e.text e.data true =
      (Unpacking.makeNode m {u with calls := u.calls + e.above.length} n e.leaf e.mode e.data true).map (fun (n,u) =>
        match n with
        | none => u
        | some n => u.modify n (Unpacking.owned e.header)) := by
  have above c (inside : c ∈ e.above) : c ≠ [] ∧ c.length ≤ nameMax :=
    have good := wellFormed.names c (dropLast_subset e.path inside)
    ⟨good.1,good.2.2.1⟩
  have leaf := wellFormed.names e.leaf (by rw [pathParts path]; exact mem_append_right _ mem_cons_self)
  have start : u.vfs.inode u.vfs.fsRoot = rootAt := by rw [unpacked.tree.fsRoot,unpacked.tree.rootInode]
  have parent : Unpacking.parentOf m e.path.dropLast rootAt u = some (some n,{u with calls := u.calls + e.above.length}) :=
    Unpacking.parentFound unpacked.tree home above
  rw [Unpacking.entry,wellFormed.parts path]
  simp only [start,parent,bind_some]
  exact if_neg (not_or.mpr ⟨leaf.1,leaf.2.1⟩)

theorem Unpacked.step (supply : Supply m) (now : u.vfs.now = clock done.length)
    (wellFormed : e.WellFormed) (absent : e.path ∉ done.map Entry.path)
    (ordered : e.above ≠ [] → ∃ f ∈ done, f.path = e.above ∧ f.type = some .directory) :
    ∃ v rows, u.entry m e.header e.text e.data true = some v ∧ Unpacked m clock boot v rows (done ++ [e]) := by
  by_cases path : e.path = []
  · exact ⟨u,rows,unpacked.rootStep path e.header true⟩
  obtain ⟨p,n,home⟩ := unpacked.home ordered
  obtain ⟨k,d,record,places,notRoot,_⟩ := supply.places (u.calls+e.above.length)
  obtain ⟨type,here⟩ := isSome_iff_exists.mp wellFormed.type
  have leaf := wellFormed.names e.leaf (by rw [pathParts path]; exact mem_append_right _ mem_cons_self)
  have missing : ∀ r ∈ rows, r.entry.path ≠ e.path := fun r inside same =>
    absent (mem_map.mpr ⟨r.entry,(unpacked.member (same ▸ path)).mpr ⟨r,inside,rfl⟩,same⟩)
  have fresh := unpacked.fresh supply (Nat.le_add_right ..) places
  obtain ⟨pointers,made,threads⟩ := created (u := {u with calls := u.calls + e.above.length}) unpacked.tree home missing path
    leaf.2.2.1 fresh places here (fun isDir => wellFormed.contents (isDir ▸ here))
  let q : Row := ⟨e,clock done.length,k,d,p⟩
  refine ⟨⟨grown u.vfs n e.leaf d k (unpackedNode u.vfs n d e type) pointers,u.calls+e.above.length+1⟩,rows ++ [q],
    (unpacked.entered wellFormed path home).trans made,
    unpacked.tree.grows (q := q) fresh path home (unpackedMade here) now.symm missing threads,?_,?_,?_⟩
  · rw [map_append,unpacked.listed,zipIdx_append]
    simp [path,q]
  · intro r inside
    rcases mem_append.mp inside with old | new
    · obtain ⟨i,before,same⟩ := unpacked.used r old
      exact ⟨i,Nat.lt_of_lt_of_le before (Nat.le_succ_of_le (Nat.le_add_right ..)),same⟩
    cases mem_singleton.mp new
    exact ⟨u.calls+e.above.length,Nat.lt_succ_self _,by rw [places],by rw [places]⟩
  obtain ⟨changed,same⟩ := unpacked.root
  have top : rootAt = n ↔ p = rootAt := by
    rcases home with ⟨_,rfl,rfl⟩ | ⟨r,inside,_,rfl,rfl,_⟩
    · exact iff_of_true rfl rfl
    · exact iff_of_false (Ne.symm (rowApart unpacked.tree.nodes inside)) (rowApart unpacked.tree.dentries inside)
  rw [grownInode (Ne.symm notRoot),lastMadeSnoc,same]
  by_cases inRoot : p = rootAt
  · exact ⟨u.vfs.now,by rw [if_pos (top.mpr inRoot),if_pos inRoot,now]; rfl⟩
  · exact ⟨changed,by rw [if_neg (mt top.mp inRoot),if_neg inRoot]⟩

end

theorem archiveInside {mem stop a} (archive : Archive mem stop a entries) : a ≤ stop := by
  have grows a name data : a ≤ after a name data := by
    have one := paddedLe (a+headerSize + (name.length+1))
    have two := paddedLe (dataAt a name + data.length)
    unfold after dataAt at *
    omega
  induction entries generalizing a with
  | nil =>
    obtain ⟨_,_,inside,_⟩ := archive
    exact le_trans (grows a trailer []) inside
  | cons e rest ih => exact le_trans (grows a e.text e.data) (ih archive.2)

theorem unpackedAll (supply : Supply m) {mem stop fuel a rest}
    (listing : Listing (done ++ rest)) (archive : Archive mem stop a rest) (whole : stop % 4 = 0) (low : stop < 2^32)
    (unpacked : Unpacked m clock boot u rows done) (enough : rest.length < fuel) :
    ∃ v rows, initramfsParse mem m clock stop fuel done.length a u = some (0,v) ∧
    Unpacked m clock boot v rows (done ++ rest) := by
  induction rest generalizing done a u rows fuel with
  | nil =>
    obtain ⟨fuel,rfl⟩ := exists_eq_succ_of_ne_zero (ne_of_gt enough)
    obtain ⟨h,stored,inside,zeros⟩ := archive
    exact ⟨u,rows,parseTrailer stored inside whole low zeros,by rwa [append_nil]⟩
  | cons e rest ih =>
  obtain ⟨fuel,rfl⟩ := exists_eq_succ_of_ne_zero (ne_of_gt (zero_lt_of_lt enough))
  obtain ⟨stored,archive⟩ := archive
  have wellFormed := listing.wellFormed e (by simp)
  have absent : e.path ∉ done.map Entry.path := by
    have distinct := listing.distinct
    rw [map_append,map_cons] at distinct
    exact fun inside => (nodup_append.mp distinct).2.2 _ inside _ mem_cons_self rfl
  obtain ⟨v,more,run,next⟩ := (unpacked.ticked (clock done.length)).step supply rfl wellFormed absent
    (listing.ordered done e rest rfl)
  have regrouped : done ++ e::rest = done ++ [e] ++ rest := by simp
  rw [regrouped] at listing ⊢
  obtain ⟨w,last,parsed,final⟩ := ih listing archive next (lt_of_succ_lt_succ enough)
  rw [length_append,length_singleton] at parsed
  rw [parseEntry stored (archiveInside archive) whole low wellFormed.ends wellFormed.named wellFormed.short,supply.room,run]
  exact ⟨w,last,parsed,final⟩

theorem setgidMasked (mode) : (mode &&& 0o7777) &&& sIsgid = mode &&& sIsgid := by
  rw [BitVec.and_assoc]
  rfl

theorem setgidKept (mode) : mode ||| sIsgid = mode ↔ mode &&& sIsgid ≠ 0 := by
  have bit : mode &&& sIsgid = if mode.getLsbD 10 then sIsgid else 0 := BitVec.and_twoPow mode 10
  constructor
  · intro same zero
    have : sIsgid = (mode ||| sIsgid) &&& sIsgid := by
      ext i
      simp +contextual
    rw [same,zero] at this
    exact absurd this (by decide)
  intro nonzero
  have whole : mode &&& sIsgid = sIsgid := by
    rw [bit] at nonzero ⊢
    split at nonzero
    case isTrue set => rw [if_pos set]
    case isFalse => exact absurd rfl nonzero
  rw [← whole]
  ext i
  simp +contextual

section

variable (tree : Tree s rows)
include tree

theorem Tree.locatedHome {path d n} (home : Home rows path d n) : located s path = some n := by
  induction path using reverseRecOn generalizing d n with
  | nil =>
    rcases home with ⟨_,_,rfl⟩ | ⟨r,inside,empty,_⟩
    · exact congrArg some (by rw [tree.fsRoot,tree.rootInode])
    · exact absurd empty (tree.placed r inside).path
  | append_singleton front name ih =>
    obtain ⟨e,k,above⟩ := tree.homeAbove home
    obtain ⟨empty,_⟩ | ⟨r,inside,same,rfl,rfl,isDir⟩ := home
    · simp at empty
    have earlier := ih above
    unfold located at earlier ⊢
    rw [foldlM_append,earlier]
    simp [tree.child above inside same,(tree.placed r inside).inode]

section

variable (inside : r ∈ rows)
include inside

theorem Tree.locatedRow : located s r.entry.path = some r.node := by
  have placed := tree.placed r inside
  have whole : r.entry.path = r.entry.above ++ [r.entry.leaf] := pathParts placed.path
  obtain ⟨n,home⟩ := placed.home
  have above := tree.locatedHome home
  unfold located at above ⊢
  rw [whole,foldlM_append,above]
  simp [tree.child home inside whole,placed.inode]

theorem Tree.rootParent : r.parent = rootAt ↔ r.entry.above = [] := by
  obtain ⟨n,⟨top,dentry,_⟩ | ⟨p,there,path,dentry,_⟩⟩ := (tree.placed r inside).home
  · exact iff_of_true dentry top
  rw [← dentry,← path]
  exact iff_of_false (rowApart tree.dentries there) (tree.placed p there).path

theorem Tree.rowParent {q} (other : q ∈ rows) :
    q.parent = r.dentry ↔ q.entry.above = r.entry.path := by
  obtain ⟨n,⟨top,dentry,_⟩ | ⟨p,there,path,dentry,_⟩⟩ := (tree.placed q other).home
  · rw [dentry,top]
    exact iff_of_false (Ne.symm (rowApart tree.dentries inside)) (Ne.symm (tree.placed r inside).path)
  rw [← dentry,← path]
  constructor
  · intro same
    rw [rowSame tree.dentries there inside same]
  intro same
  rw [inj_on_of_nodup_map tree.paths there inside same]

theorem Tree.inheritsRow {q} (other : q ∈ rows)
    (above : q.entry.above = r.entry.path) :
    inherits s q ↔ q.entry.type = some .directory ∧ (s.inodes r.node).mode &&& sIsgid ≠ 0 := by
  unfold inherits
  rw [(tree.rowParent inside other).mpr above,(tree.placed r inside).inode]

end

end

section

variable (unpacked : Unpacked m clock boot u rows entries)

include unpacked

theorem Unpacked.located (inside : e ∈ entries) : e.path = [] ∧ Initramfs.located u.vfs e.path = some rootAt ∨
    ∃ r ∈ rows, r.entry = e ∧ Initramfs.located u.vfs e.path = some r.node := by
  by_cases path : e.path = []
  · refine .inl ⟨path,unpacked.tree.locatedHome (.inl ⟨path,rfl,rfl⟩)⟩
  obtain ⟨r,there,rfl⟩ := (unpacked.member path).mp inside
  exact .inr ⟨r,there,rfl,unpacked.tree.locatedRow there⟩

theorem Unpacked.oneEach : OneEach u.vfs entries := by
  have tree := unpacked.tree
  constructor
  · rw [tree.liveInodes,← reverse_cons,nodup_reverse]
    exact tree.nodes
  · intro e inside
    rcases unpacked.located inside with ⟨_,at_⟩ | ⟨r,there,_,at_⟩
    · exact ⟨rootAt,by rw [tree.liveInodes]; simp,at_⟩
    · exact ⟨r.node,by rw [tree.liveInodes]; simp; exact .inl ⟨r,there,rfl⟩,at_⟩
  · intro e one f two same
    rcases unpacked.located one with ⟨_,first⟩ | ⟨r,inside,rfl,first⟩ <;>
      rcases unpacked.located two with ⟨_,second⟩ | ⟨q,there,rfl,second⟩
    all_goals rw [first,second,Option.some.injEq] at same
    · simp_all
    · exact absurd same.symm (rowApart tree.nodes there)
    · exact absurd same (rowApart tree.nodes inside)
    · rw [rowSame tree.nodes inside there same]
  intro n inside
  rw [tree.liveInodes] at inside
  rcases mem_append.mp inside with row | root
  · obtain ⟨r,there,rfl⟩ := mem_map.mp (mem_reverse.mp row)
    exact .inr ⟨r.entry,(unpacked.member (tree.placed r there).path).mpr ⟨r,there,rfl⟩,tree.locatedRow there⟩
  rw [mem_singleton.mp root,tree.fsRoot,tree.rootInode]
  exact .inl rfl

theorem Unpacked.lastSame {path}
    (same : ∀ q ∈ rows, q.parent = d ↔ q.entry.above = path) : lastMade rows d = lastCreated clock entries path := by
  have filtered : rows.filter (fun q => q.parent = d) = rows.filter (fun q => q.entry.above = path) :=
    List.filter_congr (fun q inside => by simp only [same q inside])
  have listed := congrArg (List.filter (fun x => x.1.above = path)) unpacked.listed
  rw [List.filter_map,List.filter_map,List.filter_filter] at listed
  have times := congrArg (fun l => (l.map Prod.snd).getLast?) listed
  simp only [List.map_map,List.getLast?_map] at times
  unfold lastMade lastCreated
  rw [filtered]
  refine times.trans ?_
  have both : (fun x : Entry × Nat => decide (x.1.path ≠ [] ∧ x.1.above = path)) =
      fun x => decide (x.1.above = path) && decide (x.1.path ≠ []) := by
    funext x
    rw [Bool.decide_and,Bool.and_comm]
  rw [both]
  rfl

theorem Unpacked.keptRow (inside : r ∈ rows) :
    Kept (u.vfs.inodes r.node) r.entry ↔ (u.vfs.inodes r.node).mode = r.entry.mode &&& 0o7777 ∧
    (lastCreated clock entries r.entry.path).getD (Unpacking.nanoseconds r.entry.mtime) =
    Unpacking.nanoseconds r.entry.mtime := by
  have attributes : Holds _ _ _ _ := (unpacked.tree.placed r inside).attributes
  have time := attributes.mtime
  rw [unpacked.lastSame (fun q other => unpacked.tree.rowParent inside other)] at time
  constructor
  · exact fun kept => ⟨kept.mode,time ▸ kept.mtime⟩
  · exact fun ⟨mode,mtime⟩ => ⟨attributes.type,mode,attributes.uid,attributes.gid,time.trans mtime,attributes.data⟩

theorem Unpacked.keptRoot (wellFormed : e.WellFormed) (path : e.path = []) :
    Kept (u.vfs.inodes rootAt) e ↔ (e.mode &&& 0o7777 = 0o755 ∧ e.uid = 0 ∧ e.gid = 0) ∧
    (lastCreated clock entries []).getD boot = Unpacking.nanoseconds e.mtime := by
  obtain ⟨changed,same⟩ := unpacked.root
  rw [same,unpacked.lastSame (fun q other => unpacked.tree.rootParent other)]
  have isDir := wellFormed.root path
  constructor
  · intro kept
    refine ⟨⟨kept.mode.symm,?_,?_⟩,kept.mtime⟩
    · exact congrArg UInt32.toBitVec kept.uid.symm
    · exact congrArg UInt32.toBitVec kept.gid.symm
  rintro ⟨⟨mode,uid,gid⟩,mtime⟩
  refine ⟨isDir,mode.symm,?_,?_,mtime,(wellFormed.contents isDir).symm⟩
  · rw [uid]; rfl
  · rw [gid]; rfl

theorem Unpacked.modesKept (undisturbed : Undisturbed clock boot entries)
    (inside : r ∈ rows) : (u.vfs.inodes r.node).mode = r.entry.mode &&& 0o7777 := by
  have tree := unpacked.tree
  induction deep : r.entry.path.length using Nat.strongRecOn generalizing r with
  | ind depth ih =>
  have placed := tree.placed r inside
  by_cases passes : inherits u.vfs r
  swap
  · exact Holds.plain placed.attributes passes
  rw [Holds.added placed.attributes passes,setgidKept,setgidMasked]
  obtain ⟨n,home⟩ := placed.home
  rcases home with ⟨_,dentry,_⟩ | ⟨p,there,path,_⟩
  · rw [inherits,dentry,tree.rootInode] at passes
    exact absurd tree.rootMode passes.2
  have upper := (tree.inheritsRow there inside path.symm).mp passes
  have shorter : p.entry.path.length < depth := by
    have := length_pos_iff.mpr placed.path
    rw [path,Entry.above,length_dropLast,← deep]
    omega
  rw [ih _ shorter there rfl,setgidMasked] at upper
  exact undisturbed.setgid p.entry ((unpacked.member (tree.placed p there).path).mpr ⟨p,there,rfl⟩) r.entry
    ((unpacked.member placed.path).mpr ⟨r,inside,rfl⟩) (tree.placed p there).path placed.path path.symm upper.2 upper.1

theorem Unpacked.keptIff (listing : Listing entries) :
    (∀ e ∈ entries, ∃ n, Initramfs.located u.vfs e.path = some n ∧ Kept (u.vfs.inodes n) e) ↔
    Undisturbed clock boot entries := by
  have tree := unpacked.tree
  constructor
  · intro kept
    have keptRows r (inside : r ∈ rows) : Kept (u.vfs.inodes r.node) r.entry := by
      obtain ⟨n,at_,this⟩ := kept r.entry ((unpacked.member (tree.placed r inside).path).mpr ⟨r,inside,rfl⟩)
      cases (tree.locatedRow inside).symm.trans at_
      exact this
    have keptRoot e (inside : e ∈ entries) (path : e.path = []) : Kept (u.vfs.inodes rootAt) e := by
      obtain ⟨n,at_,this⟩ := kept e inside
      cases (tree.locatedHome (.inl ⟨path,rfl,rfl⟩)).symm.trans at_
      exact this
    constructor
    · intro e inside path
      exact ((unpacked.keptRoot (listing.wellFormed e inside) path).mp (keptRoot e inside path)).1
    · intro e one f two path lower above set isDir
      obtain ⟨r,inside,rfl⟩ := (unpacked.member path).mp one
      obtain ⟨q,other,rfl⟩ := (unpacked.member lower).mp two
      have passes : inherits u.vfs q := by
        rw [tree.inheritsRow inside other above,(keptRows r inside).mode,setgidMasked]
        exact ⟨isDir,set⟩
      have same := Holds.added (tree.placed q other).attributes passes
      rw [(keptRows q other).mode] at same
      rw [← setgidMasked,← setgidKept]
      exact same.symm
    intro e inside
    split
    case isTrue path =>
      rw [path]
      exact ((unpacked.keptRoot (listing.wellFormed e inside) path).mp (keptRoot e inside path)).2
    case isFalse path =>
      obtain ⟨r,there,rfl⟩ := (unpacked.member path).mp inside
      exact ((unpacked.keptRow there).mp (keptRows r there)).2
  intro undisturbed e inside
  have time := undisturbed.mtime e inside
  rcases unpacked.located inside with ⟨path,at_⟩ | ⟨r,there,rfl,at_⟩
  · rw [if_pos path,path] at time
    exact ⟨rootAt,at_,(unpacked.keptRoot (listing.wellFormed e inside) path).mpr ⟨undisturbed.root e inside path,time⟩⟩
  rw [if_neg (tree.placed r there).path] at time
  exact ⟨r.node,at_,(unpacked.keptRow there).mpr ⟨unpacked.modesKept undisturbed there,time⟩⟩

end

def digitsOf (v : Nat) : List Nat :=
  [v / 0x10000000 % 16,v / 0x1000000 % 16,v / 0x100000 % 16,v / 0x10000 % 16,v / 0x1000 % 16,v / 0x100 % 16,v / 0x10 % 16,
    v % 16]

def word (v : Nat) : List UInt8 := (digitsOf v).map (fun d => lowerDigits.getD d 0)

def headerBytes (h : Header) : List UInt8 :=
  magic ++ word 0 ++ word h.mode.toNat ++ word h.uid.toNat ++ word h.gid.toNat ++ word 1 ++ word h.mtime.toNat ++
    word h.filesize.toNat ++ word 0 ++ word 0 ++ word 0 ++ word 0 ++ word h.namesize.toNat ++ word 0

theorem wordNumber {v} (fits : v < 2^32) : Number (word v) v := by
  refine ⟨digitsOf v,?_,rfl,?_⟩
  · rw [word,forall₂_map_left_iff,forall₂_same]
    intro d inside
    have small : d < lowerDigits.length := by
      simp only [digitsOf,mem_cons,not_mem_nil,or_false] at inside
      change d < 16
      omega
    refine .inl ?_
    rw [getD_eq_getElem?_getD,getElem?_eq_getElem small]
    rfl
  simp only [digitsOf,foldl_cons,foldl_nil]
  omega

theorem wordsStored {mem a h name data}
    (header : bytesAt mem a 6 = magic ∧ ∀ x ∈ [(14,h.mode),(22,h.uid),(30,h.gid),(46,h.mtime),(54,h.filesize),
    (94,h.namesize)], bytesAt mem (a+x.1) 8 = word x.2.toNat)
    (lengths : h.namesize.toNat = name.length+1 ∧ h.filesize.toNat = data.length)
    (nameBytes : bytesAt mem (a+headerSize) (name.length+1) = name ++ [0])
    (dataBytes : bytesAt mem (dataAt a name) data.length = data) : Stored mem a h name data := by
  have number x (inside : x ∈ [(14,h.mode),(22,h.uid),(30,h.gid),(46,h.mtime),(54,h.filesize),(94,h.namesize)]) :
      Number (bytesAt mem (a+x.1) 8) x.2.toNat := by
    rw [header.2 x inside]
    exact wordNumber x.2.isLt
  exact ⟨header.1,number (14,h.mode) (by simp),number (22,h.uid) (by simp),number (30,h.gid) (by simp),
    number (46,h.mtime) (by simp),number (54,h.filesize) (by simp),number (94,h.namesize) (by simp),lengths.1,lengths.2,
    nameBytes,dataBytes⟩

def shelf (mode : BitVec 32) : List Entry :=
  [⟨[[100]],mode,0,0,1,[]⟩,⟨[[100],[101]],0o040755,0,0,1,[]⟩]

def shelfBytes (mode : BitVec 32) : List UInt8 :=
  (shelf mode).flatMap (fun e =>
    headerBytes e.header ++ e.text ++ replicate (padded (e.text.length+111) - 110 - e.text.length) 0) ++
      headerBytes ⟨0,0,0,0,0,11⟩ ++ trailer ++ [0,0,0]

def shelfImage (mode : BitVec 32) : Image := fun a => (shelfBytes mode).getD a 0

def ampleMemory : Memory := ⟨fun i => ⟨some (i+2),some (i+2),true⟩,fun _ => true⟩

theorem ampleSupply : Supply ampleMemory where
  places i := ⟨i+2,i+2,true,rfl,by simp [rootAt],by simp [rootAt]⟩
  nodes _ _ _ one two := add_right_cancel (Option.some.inj (one.trans two.symm))
  dentries _ _ _ one two := add_right_cancel (Option.some.inj (one.trans two.symm))
  room _ := rfl

theorem shelfArchive {mode} (known : mode = 0o042755 ∨ mode = 0o040755) : Archive (shelfImage mode) 352 0 (shelf mode) := by
  rcases known with rfl | rfl
  all_goals
    refine ⟨wordsStored (by decide +kernel) (by decide +kernel) (by decide +kernel) rfl,
      wordsStored (by decide +kernel) (by decide +kernel) (by decide +kernel) rfl,⟨0,0,0,0,0,11⟩,
      wordsStored (by decide +kernel) (by decide +kernel) (by decide +kernel) rfl,by decide +kernel,?_⟩
    intro i above below
    exact absurd (lt_of_le_of_lt above below) (by decide +kernel)

theorem shelfListing {mode} (known : mode = 0o042755 ∨ mode = 0o040755) : Listing (shelf mode) := by
  have type : (⟨[[100]],mode,0,0,1,[]⟩ : Entry).type = some .directory := by rcases known with rfl | rfl <;> rfl
  constructor
  · intro e inside
    rcases mem_cons.mp inside with rfl | inside
    · exact ⟨by simp [dot,slash,nameMax],by simp [Entry.text,maxPath],by simp [Entry.text,trailer],by rw [type]; rfl,
        nofun,fun _ => rfl⟩
    cases mem_singleton.mp inside
    exact ⟨by decide,by decide,by decide,rfl,nofun,fun _ => rfl⟩
  · simp [shelf]
  intro front e back same below
  cases front with
  | nil =>
    cases same
    exact absurd rfl below
  | cons f more =>
  obtain ⟨rfl,rest⟩ := List.cons.inj same
  cases more with
  | nil =>
    cases rest
    exact ⟨_,mem_cons_self,rfl,type⟩
  | cons g more =>
    have := (List.cons.inj rest).2
    simp at this

/- An archive is unpacked to one inode an entry; all of them are as the archive says exactly where
no directory is changed by what is unpacked into it or by the directory it is in. -/
theorem archiveUnpacked {mem : Image} {start stop fuel : Nat} (archive : Archive mem stop start entries)
    (listing : Listing entries) (supply : Supply m) (whole : stop % 4 = 0) (low : stop < 2^32)
    (enough : entries.length < fuel) :
    ∃ u, initramfsParse mem m clock stop fuel 0 start ⟨emptyRoot boot,0⟩ = some (0,u) ∧ OneEach u.vfs entries ∧
    ((∀ e ∈ entries, ∃ n, located u.vfs e.path = some n ∧ Kept (u.vfs.inodes n) e) ↔ Undisturbed clock boot entries) := by
  obtain ⟨u,rows,parsed,unpacked⟩ := unpackedAll supply (show Listing ([] ++ entries) from listing)
    archive whole low (unpackedNothing m clock boot) enough
  exact ⟨u,parsed,unpacked.oneEach,unpacked.keptIff listing⟩

theorem shelfKept : Archive (shelfImage 0o040755) 352 0 (shelf 0o040755) ∧ Undisturbed (fun _ => 10^9) 0 (shelf 0o040755) ∧
    ∃ u, initramfsParse (shelfImage 0o040755) ampleMemory (fun _ => 10^9) 352 3 0 0 ⟨emptyRoot 0,0⟩ = some (0,u) ∧
    OneEach u.vfs (shelf 0o040755) ∧ ∀ e ∈ shelf 0o040755, ∃ n, located u.vfs e.path = some n ∧ Kept (u.vfs.inodes n) e := by
  have undisturbed : Undisturbed (fun _ => 10^9) 0 (shelf 0o040755) := by constructor <;> decide +kernel
  obtain ⟨u,parsed,each,kept⟩ := archiveUnpacked (shelfArchive (.inr rfl)) (shelfListing (.inr rfl)) ampleSupply
    (by decide) (by decide) (show (shelf 0o040755).length < 3 by decide)
  exact ⟨shelfArchive (.inr rfl),undisturbed,u,parsed,each,kept.mpr undisturbed⟩

/- Below a setgid `d`, at seven nanoseconds: `d` has the time of `d/e`, and `d/e` is setgid. -/
theorem shelfChanged : Archive (shelfImage 0o042755) 352 0 (shelf 0o042755) ∧ Listing (shelf 0o042755) ∧ Supply ampleMemory ∧
    (initramfsParse (shelfImage 0o042755) ampleMemory (fun _ => 7) 352 3 0 0 ⟨emptyRoot 0,0⟩).map (fun (code,u) =>
    (code,(located u.vfs [[100]]).map (fun n => (u.vfs.inodes n).mtime),
    (located u.vfs [[100],[101]]).map (fun n => (u.vfs.inodes n).mode))) = some (0,some 7,some 0o2755) :=
  ⟨shelfArchive (.inl rfl),shelfListing (.inl rfl),ampleSupply,by decide +kernel⟩

end Miviex.Initramfs
