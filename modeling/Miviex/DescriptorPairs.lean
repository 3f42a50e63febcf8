import Miviex.SocketEffects

/-! `pipe2` and `socketpair` with every allocation they make: a call that fails frees each of
them once and leaves the descriptor table as it was. -/
namespace Miviex

/- What the calls ask `k_malloc` for, each at most once; a pipe has one inode, `false`, and
the read end first. -/
inductive Made where
  | pipe
  | sock (e : Bool)
  | buf (e : Bool)
  | inode (e : Bool)
  | file (e : Bool)
  deriving DecidableEq

inductive Behind where
  | pipe
  | sock (e : Option Bool)

structure AnonNode where
  behind : Behind
  refs : Nat

structure PipeHeld where
  readers : Nat
  writers : Nat

def PipeHeld.closed (x : PipeHeld) (access : Access) : PipeHeld :=
  if access = .rdonly then {x with readers := x.readers - 1} else {x with writers := x.writers - 1}

/- Nobody has used the socket yet: it has no name, backlog or messages. -/
structure PairSock where
  buf : Bool
  peer : Option Bool
  connected : Bool

/- A slot holds an older description or one of the call's own. `live` is what the call has
allocated and not freed; `wild` is set when it frees something else. -/
structure Ends where
  fds : Nat → Option (Addr ⊕ Bool)
  cloexec : Nat → Bool
  clear : ∀ i, fds i = none → cloexec i = false
  file : Bool → File Bool
  node : Bool → AnonNode
  pipe : PipeHeld
  sock : Bool → PairSock
  live : List Made
  wild : Bool

namespace Ends
open Function (update update_of_ne update_self update_idem update_eq_self)

section
variable (s : Ends) (memory : Made → Bool)

def kMalloc (o : Made) : Bool × Ends :=
  (memory o,{s with live := if memory o then o::s.live else s.live})

/- `given` is whether the pointer is not NULL. -/
def kFree (given : Bool) (o : Made) : Ends :=
  {s with live := if given then s.live.erase o else s.live, wild := s.wild || given && o ∉ s.live}

def setFd (i : Nat) (f : Option (Addr ⊕ Bool)) (cloexec : Bool) (clear : f = none → cloexec = false) : Ends :=
  {s with
    fds := update s.fds i f
    cloexec := update s.cloexec i cloexec
    clear := by
      intro j
      by_cases same : j = i
      · subst same
        simpa using clear
      · simpa [same] using s.clear j}

def fileAlloc (e n : Bool) (access : Access) (nonblock : Bool) : Bool × Ends :=
  let (f,s) := s.kMalloc memory (.file e)
  (f,if f then {s with
    file := update s.file e ⟨n,access,nonblock,1⟩
    node := update s.node n {s.node n with refs := (s.node n).refs + 1}} else s)

def pipeRelease (n : Bool) (access : Access) : Ends :=
  let x := s.pipe.closed access
  let s := {s with pipe := x}
  if x.readers = 0 ∧ x.writers = 0 then (s.kFree true .pipe).kFree true (.inode n) else s

def unpeered (sock : Bool → PairSock) (e : Bool) : Bool → PairSock :=
  match (sock e).peer with
  | none => sock
  | some p => update sock p {sock p with peer := none}

def sockFree (e : Bool) : Ends :=
  let s := {s with sock := unpeered s.sock e}
  (s.kFree (s.sock e).buf (.buf e)).kFree true (.sock e)

def sockRelease (n : Bool) : Option Bool → Ends
  | none => s
  | some e =>
    let s := s.sockFree e
    {s with node := update s.node n {s.node n with behind := .sock none}}

/- The inode of a socket goes with its last description, that of a pipe in the release hook. -/
def filePut (e : Bool) : Ends :=
  let x := s.file e
  let s := {s with file := update s.file e {x with refs := x.refs - 1}}
  if x.refs ≠ 1 then s
  else
    let n := s.node x.object
    let s := {s with node := update s.node x.object {n with refs := n.refs - 1}}
    match n.behind with
    | .pipe => (s.pipeRelease x.object x.access).kFree true (.file e)
    | .sock k =>
      let s := s.sockRelease x.object k
      (s.kFree (n.refs = 1) (.inode x.object)).kFree true (.file e)

def fdInstall (limit : Nat) (e cloexec : Bool) : Except Errno Nat × Ends :=
  match (List.range (min limit maxFds)).find? (fun i => (s.fds i).isNone) with
  | some i => (.ok i,s.setFd i (some (.inr e)) cloexec nofun)
  | none => (.error .emfile,s.filePut e)

/- The calls close nothing but what they have installed. -/
def sysClose (fd : Nat) : Ends :=
  match if fd < maxFds then s.fds fd else none with
  | some (.inr e) => (s.setFd fd none false (fun _ => rfl)).filePut e
  | _ => s

def pipeCreate : Bool × Ends :=
  let (p,s) := s.kMalloc memory .pipe
  let (n,s) := s.kMalloc memory (.inode false)
  if ¬ p ∨ ¬ n then (false,(s.kFree p .pipe).kFree n (.inode false))
  else
    let s := {s with pipe := ⟨0,0⟩, node := update s.node false ⟨.pipe,0⟩}
    let (rd,s) := s.fileAlloc memory false false .rdonly false
    let (wr,s) := s.fileAlloc memory true false .wronly false
    if ¬ rd ∨ ¬ wr then
      (false,(((s.kFree rd (.file false)).kFree wr (.file true)).kFree p .pipe).kFree n (.inode false))
    else (true,{s with pipe := ⟨1,1⟩})

def sysPipe2 (mapped cloexec : Bool) (limit : Nat) :
    Except Errno (Nat × Nat) × Ends :=
  if ¬ mapped then (.error .efault,s)
  else
    match s.pipeCreate memory with
    | (false,s) => (.error .enomem,s)
    | (true,s) =>
      match s.fdInstall limit false cloexec with
      | (.error e,s) => (.error e,s.filePut true)
      | (.ok r,s) =>
        match s.fdInstall limit true cloexec with
        | (.error e,s) => (.error e,s.sysClose r)
        | (.ok w,s) => (.ok (r,w),s)

def sockNew (e : Bool) (type : SockType) : Bool × Ends :=
  let (k,s) := s.kMalloc memory (.sock e)
  if ¬ k then (false,s)
  else
    let s := {s with sock := update s.sock e ⟨false,none,false⟩}
    if type = .stream then
      let (buf,s) := s.kMalloc memory (.buf e)
      if buf then (true,{s with sock := update s.sock e {s.sock e with buf := true}})
      else (false,s.kFree true (.sock e))
    else (true,s)

def sockFile (e nonblock : Bool) : Bool × Ends :=
  let (n,s) := s.kMalloc memory (.inode e)
  if ¬ n then (false,s)
  else
    let s := {s with node := update s.node e ⟨.sock (some e),0⟩}
    let (f,s) := s.fileAlloc memory e e .rdwr nonblock
    (f,if f then s else s.kFree true (.inode e))

def sockInstall (limit : Nat) (e nonblock cloexec : Bool) : Except Errno Nat × Ends :=
  match s.sockFile memory e nonblock with
  | (false,s) => (.error .enomem,s.sockFree e)
  | (true,s) => s.fdInstall limit e cloexec

def sockPair (type : SockType) : Bool × Ends :=
  let (a,s) := s.sockNew memory false type
  let (b,s) := s.sockNew memory true type
  if ¬ a ∨ ¬ b then
    let s := if a then s.sockFree false else s
    (false,if b then s.sockFree true else s)
  else
    let s := {s with sock := update s.sock false {s.sock false with peer := some true, connected := true}}
    (true,{s with sock := update s.sock true {s.sock true with peer := some false, connected := true}})

def sysSocketpair (family type proto : Int) (mapped nonblock cloexec : Bool)
    (limit : Nat) : Except Errno (Nat × Nat) × Ends :=
  match Sockets.sockType family type proto with
  | .error e => (.error e,s)
  | .ok type =>
    if ¬ mapped then (.error .efault,s)
    else
      match s.sockPair memory type with
      | (false,s) => (.error .enomem,s)
      | (true,s) =>
        match s.sockInstall memory limit false nonblock cloexec with
        | (.error e,s) => (.error e,s.sockFree true)
        | (.ok fa,s) =>
          match s.sockInstall memory limit true nonblock cloexec with
          | (.error e,s) => (.error e,s.sysClose fa)
          | (.ok fb,s) => (.ok (fa,fb),s)

end

variable {s t : Ends} {memory : Made → Bool} {limit : Nat} {cloexec : Bool}

def table (s : Ends) : (Nat → Option (Addr ⊕ Bool)) × (Nat → Bool) := (s.fds,s.cloexec)

/- A call begins: it has allocated nothing. -/
def begin (s : Ends) : Ends := {s with live := [], wild := false}

structure Undone (s t : Ends) : Prop where
  table : t.table = s.table
  freed : t.live = []
  once : t.wild = false

/- Two new descriptors, for descriptions that belong together, or nothing at all. -/
def AllOrNothing (Joined : Ends → Prop) (s : Ends) (cloexec : Bool) : Except Errno (Nat × Nat) × Ends → Prop
  | (.ok (r,w),t) => r ≠ w ∧ s.fds r = none ∧ s.fds w = none ∧ t.wild = false ∧ Joined t ∧
      t.table = (update (update s.fds r (some (.inr false))) w (some (.inr true)),update (update s.cloexec r cloexec) w cloexec)
  | (.error _,t) => Undone s t

def PipeJoined (s : Ends) : Prop := s.file false = ⟨false,.rdonly,false,1⟩ ∧ s.file true = ⟨false,.wronly,false,1⟩ ∧
  s.node false = ⟨.pipe,2⟩ ∧ s.pipe = ⟨1,1⟩

def SockJoined (s : Ends) : Prop := ∀ e, (s.file e).object = e ∧ (s.file e).refs = 1 ∧ s.node e = ⟨.sock (some e),1⟩ ∧
  (s.sock e).peer = some !e ∧ (s.sock e).connected = true

theorem filePutTable (e) : (s.filePut e).table = s.table := by
  unfold filePut
  dsimp only
  split
  · rfl
  split
  · unfold pipeRelease
    dsimp only
    split <;> rfl
  · rename_i k _
    cases k <;> rfl

theorem notInstalled {e err} (failed : s.fdInstall limit e cloexec = (.error err,t)) : t = s.filePut e := by
  unfold fdInstall at failed
  split at failed <;> cases failed
  rfl

theorem installed {e i} (done : s.fdInstall limit e cloexec = (.ok i,t)) :
    i < maxFds ∧ s.fds i = none ∧ t = s.setFd i (some (.inr e)) cloexec nofun := by
  unfold fdInstall at done
  split at done <;> cases done
  rename_i found
  have small := List.mem_range.mp (List.mem_of_find?_eq_some found)
  exact ⟨by omega,by simpa using List.find?_some found,rfl⟩

theorem slotTable {r} (same : t.table = s.table) (empty : t.fds r = none) (cloexec) : s.fds r = none ∧
    (t.setFd r (some (.inr false)) cloexec nofun).table = (update s.fds r (some (.inr false)),update s.cloexec r cloexec) := by
  obtain ⟨fds,flags⟩ := Prod.mk.inj same
  rw [← fds,← flags]
  exact ⟨empty,rfl⟩

section
variable {r w : Nat} (same : t.table = (update s.fds r (some (.inr false)),update s.cloexec r cloexec))
include same

theorem closeNew (empty : s.fds r = none) (small : r < maxFds) :
    t.sysClose r = (t.setFd r none false (fun _ => rfl)).filePut false ∧ (t.sysClose r).table = s.table := by
  obtain ⟨fds,flags⟩ := Prod.mk.inj same
  have closing : t.sysClose r = (t.setFd r none false (fun _ => rfl)).filePut false := by
    unfold sysClose
    rw [if_pos small,fds,update_self]
  refine ⟨closing,?_⟩
  rw [closing,filePutTable]
  refine Prod.ext ?_ ?_
  · change update t.fds r none = s.fds
    rw [fds,update_idem,← empty,update_eq_self]
  · change update t.cloexec r false = s.cloexec
    rw [flags,update_idem,← s.clear r empty,update_eq_self]

theorem secondSlot (free : t.fds w = none) : r ≠ w ∧ s.fds w = none ∧ (t.setFd w (some (.inr true)) cloexec nofun).table =
    (update (update s.fds r (some (.inr false))) w (some (.inr true)),update (update s.cloexec r cloexec) w cloexec) := by
  obtain ⟨fds,flags⟩ := Prod.mk.inj same
  rw [fds] at free
  have apart : r ≠ w := by
    rintro rfl
    simp at free
  rw [update_of_ne apart.symm] at free
  refine ⟨apart,free,?_⟩
  rw [← fds,← flags]
  rfl

end

theorem pipeCreated (s : Ends) (memory) : (∃ t, s.begin.pipeCreate memory = (false,t) ∧ Undone s t) ∨
    ∃ t, s.begin.pipeCreate memory = (true,t) ∧ t.table = s.table ∧ PipeJoined t ∧
    t.live = [.file true,.file false,.inode false,.pipe] ∧ t.wild = false := by
  unfold pipeCreate fileAlloc kMalloc
  cases memory .pipe <;> cases memory (.inode false) <;> cases memory (.file false) <;> cases memory (.file true)
  case true.true.true.true => exact .inr ⟨_,rfl,rfl,⟨rfl,rfl,rfl,rfl⟩,rfl,rfl⟩
  all_goals
    left
    refine ⟨_,rfl,?_,?_,?_⟩ <;> simp [kFree,table,begin]

theorem pipe2AllOrNothing (mapped) : AllOrNothing PipeJoined s cloexec (s.begin.sysPipe2 memory mapped cloexec limit) := by
  unfold sysPipe2
  split
  · exact ⟨rfl,rfl,rfl⟩
  rcases pipeCreated s memory with ⟨t,made,undone⟩ | ⟨t,made,same,⟨front,back,node,pipe⟩,live,wild⟩
  · rw [made]
    exact undone
  rw [made]
  dsimp only
  split
  · rename_i failed
    rw [notInstalled failed]
    refine ⟨((filePutTable true).trans (filePutTable false)).trans same,?_,?_⟩
    all_goals simp [filePut,front,back,node,pipe,pipeRelease,PipeHeld.closed,kFree,live,wild]
  rename_i r u first
  obtain ⟨small,empty,rfl⟩ := installed first
  obtain ⟨empty,table⟩ := slotTable same empty cloexec
  split
  · rename_i failed
    obtain ⟨closing,before⟩ := closeNew ((filePutTable true).trans table) empty small
    rw [notInstalled failed]
    refine ⟨before,?_,?_⟩
    all_goals
      rw [closing]
      simp [filePut,setFd,front,back,node,pipe,pipeRelease,PipeHeld.closed,kFree,live,wild]
  · rename_i w u second
    obtain ⟨_,free,rfl⟩ := installed second
    obtain ⟨apart,wasFree,both⟩ := secondSlot table free
    exact ⟨apart,empty,wasFree,wild,⟨front,back,node,pipe⟩,both⟩

def withFile (s : Ends) (e nonblock : Bool) : Ends :=
  {s with
    live := .file e::.inode e::s.live
    file := update s.file e ⟨e,.rdwr,nonblock,1⟩
    node := update s.node e ⟨.sock (some e),1⟩}

theorem sockFiled (s : Ends) (memory) (e nonblock) : s.sockFile memory e nonblock = (true,s.withFile e nonblock) ∧
    (memory (.inode e) && memory (.file e)) = true ∨ ∃ node, node (!e) = s.node (!e) ∧
    s.sockFile memory e nonblock = (false,{s with node := node}) ∧ (memory (.inode e) && memory (.file e)) = false := by
  have other x : update s.node e x (!e) = s.node (!e) := update_of_ne (Bool.not_ne_self e) _ _
  unfold sockFile fileAlloc kMalloc
  cases memory (.inode e) <;> cases memory (.file e)
  case true.true => simp [withFile]
  case true.false => exact .inr ⟨update s.node e ⟨.sock (some e),0⟩,other _,by simp [kFree],rfl⟩
  all_goals exact .inr ⟨s.node,rfl,rfl,rfl⟩

/- A socket that gets no descriptor is freed. -/
theorem notSockInstalled {e nonblock err} (failed : s.sockInstall memory limit e nonblock cloexec = (.error err,t)) :
    t.table = s.table ∧ t.live = (s.sockFree e).live ∧ t.wild = (s.sockFree e).wild ∧ t.sock = (s.sockFree e).sock ∧
    t.file (!e) = s.file (!e) ∧ t.node (!e) = s.node (!e) := by
  unfold sockInstall at failed
  rcases sockFiled s memory e nonblock with ⟨filed,_⟩ | ⟨node,other,filed,_⟩ <;> rw [filed] at failed
  · rw [notInstalled failed]
    refine ⟨filePutTable e,?_,?_,?_,?_,?_⟩
    all_goals
      unfold filePut
      cases buf : (unpeered s.sock e e).buf <;> simp [withFile,sockRelease,sockFree,kFree,buf]
  · cases failed
    exact ⟨rfl,rfl,rfl,rfl,rfl,other⟩

theorem sockInstalled {e nonblock i} (done : s.sockInstall memory limit e nonblock cloexec = (.ok i,t)) :
    i < maxFds ∧ s.fds i = none ∧ t = (s.withFile e nonblock).setFd i (some (.inr e)) cloexec nofun := by
  unfold sockInstall at done
  rcases sockFiled s memory e nonblock with ⟨filed,_⟩ | ⟨node,other,filed,_⟩ <;> rw [filed] at done
  · exact installed done
  · cases done

/- The two sockets before they have descriptors. -/
structure Linked (s : Ends) (type : SockType) : Prop where
  sock : ∀ e, s.sock e = ⟨type = .stream,some !e,true⟩
  live : s.live = if type = .stream then [.buf true,.sock true,.buf false,.sock false] else [.sock true,.sock false]
  wild : s.wild = false

theorem sockPaired (s : Ends) (memory) (type) : (∃ t, s.begin.sockPair memory type = (false,t) ∧ Undone s t) ∨
    ∃ t, s.begin.sockPair memory type = (true,t) ∧ t.table = s.table ∧ Linked t type := by
  unfold sockPair sockNew kMalloc
  cases type <;> cases memory (.sock false) <;> cases memory (.sock true) <;> cases memory (.buf false) <;>
    cases memory (.buf true)
  all_goals first
    | exact .inl ⟨_,rfl,by constructor <;> simp [begin,table,sockFree,unpeered,kFree]⟩
    | exact .inr ⟨_,rfl,rfl,by constructor <;> simp [begin]⟩

theorem socketpairAllOrNothing (family type proto mapped nonblock) : AllOrNothing SockJoined s cloexec
    (s.begin.sysSocketpair memory family type proto mapped nonblock cloexec limit) := by
  unfold sysSocketpair
  split
  · exact ⟨rfl,rfl,rfl⟩
  rename_i type _
  split
  · exact ⟨rfl,rfl,rfl⟩
  rcases sockPaired s memory type with ⟨t,made,undone⟩ | ⟨t,made,same,linked⟩
  · rw [made]
    exact undone
  rw [made]
  dsimp only
  split
  · rename_i u failed
    obtain ⟨table,live,wild,sock,_⟩ := notSockInstalled failed
    refine ⟨table.trans same,?_,?_⟩
    all_goals cases type <;> simp [sockFree,unpeered,kFree,live,wild,sock,linked.live,linked.wild,linked.sock]
  rename_i r u first
  obtain ⟨small,empty,rfl⟩ := sockInstalled first
  obtain ⟨empty,table⟩ := slotTable (t := t.withFile false nonblock) same empty cloexec
  split
  · rename_i u failed
    obtain ⟨kept,live,wild,sock,file,node⟩ := notSockInstalled failed
    have opened : u.file false = ⟨false,.rdwr,nonblock,1⟩ := file
    have anonymous : u.node false = ⟨.sock (some false),1⟩ := node
    obtain ⟨closing,before⟩ := closeNew (kept.trans table) empty small
    refine ⟨before,?_,?_⟩
    all_goals
      rw [closing]
      cases type <;>
        simp [filePut,setFd,withFile,sockRelease,sockFree,unpeered,kFree,live,wild,sock,linked.live,
          linked.wild,linked.sock,opened,anonymous]
  · rename_i w u second
    obtain ⟨_,free,rfl⟩ := sockInstalled second
    obtain ⟨apart,wasFree,both⟩ := secondSlot table free
    refine ⟨apart,empty,wasFree,linked.wild,fun e => ?_,both⟩
    cases e <;> simp [setFd,withFile,linked.sock]

def noneOpen : Ends := ⟨fun _ => none,fun _ => false,fun _ _ => rfl,fun _ => ⟨false,.rdonly,false,0⟩,fun _ => ⟨.pipe,0⟩,
  ⟨0,0⟩,fun _ => ⟨false,none,false⟩,[],false⟩

example : [1,2].map (fun n => (noneOpen.begin.sysSocketpair (fun _ => true) 1 1 0 true false false n).1) =
    [.error .emfile,.ok (0,1)] := rfl

/- The table of `me` in the socket model is the one the call works on. `name` says which
descriptions there are the two new ones, and `n` is the next. -/
structure Sees (name : Bool → Nat) (me : Addr) (n : Nat) (files : Files Nat) (s : Ends) : Prop where
  fds : files.fds me = fun i => (s.fds i).map (Sum.elim id name)
  cloexec : files.cloexec me = s.cloexec
  next : files.next = n

namespace Sees

variable {name : Bool → Nat} {me : Addr} {n : Nat} {files : Files Nat} {d : Sockets}

theorem table (sees : Sees name me n files s) (same : t.table = s.table) : Sees name me n files t := by
  obtain ⟨fds,flags⟩ := Prod.mk.inj same
  exact ⟨by rw [fds]; exact sees.fds,by rw [flags]; exact sees.cloexec,sees.next⟩

theorem put (sees : Sees name me n files s) (f) : Sees name me n (files.filePut f).1 s := by
  unfold Files.filePut
  split
  · exact sees
  split <;> exact ⟨sees.fds,sees.cloexec,sees.next⟩

theorem set (sees : Sees name me n files s) (i f cloexec clear) :
    Sees name me n (files.setFd me i (f.map (Sum.elim id name)) cloexec) (s.setFd i f cloexec clear) := by
  refine ⟨?_,?_,sees.next⟩
  · funext j
    by_cases here : j = i <;> simp [Files.setFd,setFd,here,sees.fds]
  · simp [Files.setFd,setFd,sees.cloexec]

theorem install (sees : Sees name me n files s) (limit e cloexec) : let o := files.fdInstall me limit (name e) 0 cloexec
    o.1 = (s.fdInstall limit e cloexec).1 ∧ Sees name me n o.2.1 (s.fdInstall limit e cloexec).2 := by
  have free : (fun i => decide (0 ≤ i) && (files.fds me i).isNone) = fun i => (s.fds i).isNone := by
    rw [sees.fds]
    simp
  unfold Files.fdInstall fdInstall
  rw [free]
  cases (List.range (min limit maxFds)).find? (fun i => (s.fds i).isNone) with
  | some i => exact ⟨rfl,sees.set i (some (.inr e)) cloexec nofun⟩
  | none => exact ⟨rfl,(sees.put (name e)).table (filePutTable e)⟩

theorem close (sees : Sees name me n files s) {fd e} (small : fd < maxFds) (own : s.fds fd = some (.inr e)) :
    Sees name me n (files.sysClose me fd).2.1 (s.sysClose fd) := by
  unfold Files.sysClose Files.fdFile sysClose
  simp only [small,if_true,sees.fds,own,Option.map_some]
  exact ((sees.set fd none false (fun _ => rfl)).put (name e)).table (filePutTable e)

theorem freed (sees : Sees name me n d.files s) (k) : Sees name me n (d.sockFree k).1.files s := by
  rw [Sockets.freeSame]
  exact sees

theorem sockInstall (sees : Sees name me n d.files s) {e} (new : name e = n) (memory limit k nonblock cloexec) :
    let o := d.sockInstall me limit k nonblock cloexec (memory (.inode e) && memory (.file e))
    let answer := s.sockInstall memory limit e nonblock cloexec
    o.1 = answer.1 ∧ ∃ m, Sees name me m o.2.1.files answer.2 ∧ ∀ fd, answer.1 = .ok fd → m = n+1 := by
  unfold Ends.sockInstall
  rcases sockFiled s memory e nonblock with ⟨filed,all⟩ | ⟨node,_,filed,some⟩ <;> rw [filed]
  · have alloc : Sees name me (n+1) (d.files.fileAlloc k .rdwr nonblock).2 (s.withFile e nonblock) :=
      ⟨sees.fds,sees.cloexec,congrArg (· + 1) sees.next⟩
    obtain ⟨result,after⟩ := alloc.install limit e cloexec
    rw [new,← sees.next] at result after
    rw [all]
    exact ⟨result,n+1,(Sockets.releaseFiles _ _).symm ▸ sees.next ▸ after,fun _ _ => rfl⟩
  · rw [some]
    exact ⟨rfl,n,(sees.freed k).table rfl,nofun⟩

/- The call of the socket model, with the same allocations failing, answers the same and leaves
the same table. -/
theorem socketpair (sees : Sees name me n d.files s) (first : name false = n) (second : name true = n+1)
    (family type proto mapped nonblock made)
    (allocated : ∀ kind, Sockets.sockType family type proto = .ok kind → made = (s.begin.sockPair memory kind).1) :
    let o := d.sysSocketpair me family type proto mapped nonblock cloexec limit made
      (memory (.inode false) && memory (.file false)) (memory (.inode true) && memory (.file true))
    let answer := s.begin.sysSocketpair memory family type proto mapped nonblock cloexec limit
    o.next = .done (match answer.1 with
      | .ok (a,b) => .pair a b
      | .error e => .failed (.errno e)) ∧ ∃ m, Sees name me m o.dev.files answer.2 := by
  unfold Sockets.sysSocketpair sysSocketpair
  cases known : Sockets.sockType family type proto with
  | error e => exact ⟨rfl,n,sees.table rfl⟩
  | ok kind =>
  cases mapped with
  | false => exact ⟨rfl,n,sees.table rfl⟩
  | true =>
  simp only [allocated kind known,not_true_eq_false,if_false]
  rcases sockPaired s memory kind with ⟨t,failed,undone⟩ | ⟨t,paired,same,_⟩
  · rw [failed]
    exact ⟨rfl,n,sees.table undone.table⟩
  rw [paired]
  have start : Sees name me n (d.sockPair kind).2.2.files t := sees.table same
  obtain ⟨result,m,sees,counted⟩ := start.sockInstall first memory limit (d.sockPair kind).1 nonblock cloexec
  simp only [not_true_eq_false,if_false]
  generalize (d.sockPair kind).2.2.sockInstall me limit (d.sockPair kind).1 nonblock cloexec _ = x at result sees ⊢
  obtain ⟨r,d1,wakes⟩ := x
  cases there : t.sockInstall memory limit false nonblock cloexec with | mk r' s1 =>
  rw [there] at result sees counted
  obtain rfl : r = r' := result
  cases r with
  | error e => exact ⟨rfl,m,(sees.freed _).table rfl⟩
  | ok fa =>
  obtain ⟨small,_,rfl⟩ := sockInstalled there
  obtain ⟨result,k,sees,_⟩ := sees.sockInstall (second.trans (counted fa rfl).symm) memory limit
    (d.sockPair kind).2.1 nonblock cloexec
  dsimp only
  generalize d1.sockInstall me limit (d.sockPair kind).2.1 nonblock cloexec _ = x at result sees ⊢
  obtain ⟨r,d2,more⟩ := x
  cases there : Ends.sockInstall _ memory limit true nonblock cloexec with | mk r' s2 =>
  rw [there] at result sees
  obtain rfl : r = r' := result
  cases r with
  | ok fb => exact ⟨rfl,k,sees⟩
  | error e =>
    have own : s2.fds fa = some (.inr false) := by
      rw [(Prod.mk.inj (notSockInstalled there).1).1]
      exact update_self ..
    exact ⟨rfl,k,(Sockets.releaseFiles _ _).symm ▸ sees.close small own⟩

end Sees

theorem pairsAllOrNothing (s : Ends) (memory : Made → Bool) (mapped nonblock cloexec : Bool) (limit : Nat) :
    AllOrNothing PipeJoined s cloexec (s.begin.sysPipe2 memory mapped cloexec limit) ∧
    ∀ family type proto, AllOrNothing SockJoined s cloexec
    (s.begin.sysSocketpair memory family type proto mapped nonblock cloexec limit) :=
  ⟨pipe2AllOrNothing mapped,fun _ _ _ => socketpairAllOrNothing _ _ _ _ _⟩

end Ends
end Miviex
