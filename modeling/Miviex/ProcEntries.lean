import Miviex.Descriptors
import Miviex.Runs

/-! The entries of /proc for processes. A lookup makes them, they stay on one list, and they are
freed when their process is reaped, unless a file or a cwd still refers to them. -/
namespace Miviex
open List Option
open Function (update)

inductive PentKind where
  | pidDir | fdDir | fdLink | pidFile | pidLink
  deriving DecidableEq

/- `place` is the address of the entry's dentry, `parent` the pointer in it. -/
structure Pent where
  place : Addr
  pid : Nat
  kind : PentKind
  which : Nat
  parent : Addr

structure Listed where
  user : Bool
  ended : Bool
  fds : Nat → Bool

/- `held` has the entry of every open file and cwd on one; `fixedHeld` counts those on the root,
`self` and the system files, which are never freed. -/
structure Procfs where
  ents : List Pent := []
  mount : Option Addr := none
  held : List Addr := []
  fixedHeld : Nat := 0
  procs : Nat → Option Listed := fun _ => none

def fixedNames : List (List UInt8) :=
  [[115,101,108,102], -- self
   [109,111,117,110,116,115], -- mounts
   [109,101,109,105,110,102,111], -- meminfo
   [117,112,116,105,109,101], -- uptime
   [108,111,97,100,97,118,103], -- loadavg
   [118,101,114,115,105,111,110], -- version
   [99,109,100,108,105,110,101], -- cmdline
   [102,105,108,101,115,121,115,116,101,109,115]] -- filesystems

def pidEntries : List (List UInt8 × PentKind × Nat) :=
  [([99,109,100,108,105,110,101],.pidFile,0), -- cmdline
   ([99,111,109,109],.pidFile,1), -- comm
   ([99,119,100],.pidLink,0), -- cwd
   ([101,120,101],.pidLink,1), -- exe
   ([102,100],.fdDir,0), -- fd
   ([115,116,97,116],.pidFile,2), -- stat
   ([115,116,97,116,117,115],.pidFile,3)] -- status

def number (name : List UInt8) : Option Nat :=
  if name = [] then none
  else name.foldl (fun v c => v.bind (fun v =>
    if c < 48 ∨ c > 57 ∨ v > 100000000 then none else some (v * 10 + (c.toNat-48)))) (some 0)

namespace Procfs

inductive Spot where
  | root | fixed | entry (place : Addr)

variable {s t : Procfs} {spot : Spot} {pid which : Nat} {kind : PentKind} {parent : Addr} {memory : Option Addr}

def find (s : Procfs) (place : Addr) : Option Pent := s.ents.find? (·.place = place)

section

variable (s : Procfs)

def live (pid : Nat) : Option Listed := (s.procs pid).filter (fun p => p.user && !p.ended)

def visible (pid : Nat) : Option Listed := (s.procs pid).filter (fun p => (p.user || p.ended) && pid != 0)

def taken (place : Addr) : Bool := s.mount = some place || s.ents.any (·.place = place)

/- An entry on the list is found whatever its parent is. `memory` is what `k_malloc` returns,
which is never in use. -/
def get (pid : Nat) (kind : PentKind) (which : Nat) (parent : Addr) (memory : Option Addr) :
    Option Spot × Procfs :=
  match s.ents.find? (fun e => e.pid = pid ∧ e.which = which ∧ e.kind = kind) with
  | some e => (some (.entry e.place),s)
  | none =>
    match memory.filter (fun a => !s.taken a) with
    | some place => (some (.entry place),{s with ents := ⟨place,pid,kind,which,parent⟩::s.ents})
    | none => (none,s)

def fdFind (d : Pent) (name : List UInt8) (memory : Option Addr) : Option Spot × Procfs :=
  match s.live d.pid, number name with
  | some p, some fd => if fd < maxFds ∧ p.fds fd then s.get d.pid .fdLink fd d.place memory else (none,s)
  | _, _ => (none,s)

def pidFind (d : Pent) (name : List UInt8) (memory : Option Addr) : Option Spot × Procfs :=
  match s.visible d.pid, pidEntries.find? (·.1 = name) with
  | some _, some (_,kind,which) => s.get d.pid kind which d.place memory
  | _, _ => (none,s)

def rootFind (name : List UInt8) (memory : Option Addr) : Option Spot × Procfs :=
  if fixedNames.contains name then (some .fixed,s)
  else
    match s.mount, number name with
    | some mp, some pid => if (s.visible pid).isSome then s.get pid .pidDir 0 mp memory else (none,s)
    | _, _ => (none,s)

/- Where `..` leads from an entry, as far as it stays in /proc and does not read freed memory. -/
def above (parent : Addr) : Option Spot :=
  if s.mount = some parent then some .root else (s.find parent).map (fun x => .entry x.place)

def component (spot : Spot) (name : List UInt8) (memory : Option Addr) : Option Spot × Procfs :=
  match spot with
  | .fixed => (none,s)
  | .root => if name = [46] then (some .root,s) else if name = [46,46] then (none,s) else s.rootFind name memory
  | .entry place =>
    match s.find place with
    | none => (none,s)
    | some d =>
      if d.kind ≠ .pidDir ∧ d.kind ≠ .fdDir then (none,s)
      else if name = [46] then (some spot,s)
      else if name = [46,46] then (s.above d.parent,s)
      else if d.kind = .pidDir then s.pidFind d name memory else s.fdFind d name memory

end

def walk (s : Procfs) (spot : Spot) : List (List UInt8 × Option Addr) → Option Spot × Procfs
  | [] => (some spot,s)
  | (name,memory)::rest =>
    match s.component spot name memory with
    | (some next,t) => t.walk next rest
    | (none,t) => (none,t)

def hold (s : Procfs) : Option Spot → Procfs
  | some (.entry place) => {s with held := place::s.held}
  | some _ => {s with fixedHeld := s.fixedHeld + 1}
  | none => s

def procfsForget (s : Procfs) (pid : Nat) : Procfs :=
  {s with ents := s.ents.filter (fun e => ¬ (e.pid = pid ∧ e.place ∉ s.held))}

inductive Event where
  | process (pid : Nat) (now : Listed)
  | reap (pid : Nat)
  | lookup (start : Spot) (path : List (List UInt8 × Option Addr)) (keep : Bool)
  | close (spot : Spot)
  | mount (mp : Addr)
  | unmount

def starts (s : Procfs) : Spot → Bool
  | .root => s.mount.isSome
  | .fixed => false
  | .entry place => place ∈ s.held

/- `process` is a fork, an exit or a change of descriptors. A lookup starts at the root of a mounted
proc, or at a directory open or a cwd, which a fork or `fchdir` shares by an empty path. `unmount`
is refused while anything in proc is open or a cwd. -/
def step (s : Procfs) : Event → Option Procfs
  | .process pid now => some {s with procs := update s.procs pid (some now)}
  | .reap pid => ((s.procs pid).filter (·.ended)).map (fun _ => {s.procfsForget pid with procs := update s.procs pid none})
  | .lookup start path keep =>
    if s.starts start then some (if keep then (s.walk start path).2.hold (s.walk start path).1 else (s.walk start path).2)
    else none
  | .close (.entry place) => if place ∈ s.held then some {s with held := s.held.erase place} else none
  | .close _ => if 0 < s.fixedHeld then some {s with fixedHeld := s.fixedHeld - 1} else none
  | .mount mp => if s.mount = none ∧ ¬ s.taken mp then some {s with mount := some mp} else none
  | .unmount => if s.mount.isSome ∧ s.held = [] ∧ s.fixedHeld = 0 then some {s with mount := none} else none

/- No entry points at a dentry that is not there, and nothing open refers to a freed entry. -/
structure Sound (s : Procfs) : Prop where
  parents : ∀ e ∈ s.ents, s.mount = some e.parent ∨ ∃ x ∈ s.ents, x.place = e.parent
  held : ∀ a ∈ s.held, ∃ x ∈ s.ents, x.place = a

structure Kept (s : Procfs) : Prop where
  sound : Sound s
  apart : (s.ents.map Pent.place).Nodup
  outside : ∀ e ∈ s.ents, s.mount ≠ some e.place

def Here (s : Procfs) : Spot → Prop
  | .root => s.mount.isSome
  | .fixed => True
  | .entry place => ∃ x ∈ s.ents, x.place = place

structure Looked (r : Option Spot × Procfs) : Prop where
  kept : Kept r.2
  here : ∀ spot, r.1 = some spot → Here r.2 spot

section

variable (kept : Kept s)
include kept

theorem Kept.idle : Looked (none,s) := ⟨kept,nofun⟩

theorem Kept.stays (here : Here s spot) : Looked (some spot,s) :=
  ⟨kept,fun _ same => Option.some.inj same ▸ here⟩

theorem Kept.get (points : s.mount = some parent ∨ ∃ x ∈ s.ents, x.place = parent) :
    Looked (s.get pid kind which parent memory) := by
  unfold Procfs.get
  split
  · rename_i e found
    exact kept.stays ⟨e,mem_of_find?_eq_some found,rfl⟩
  split
  swap
  · exact kept.idle
  rename_i place fresh
  have free := (filter_eq_some_iff.mp fresh).2
  simp only [taken,Bool.not_eq_true',Bool.or_eq_false_iff,decide_eq_false_iff_not,List.any_eq_false,decide_eq_true_eq]
    at free
  have still : ∀ {a}, (∃ x ∈ s.ents, x.place = a) → ∃ x ∈ (⟨place,pid,kind,which,parent⟩::s.ents : List Pent), x.place = a :=
    fun ⟨x,there,same⟩ => ⟨x,mem_cons_of_mem _ there,same⟩
  refine ⟨⟨⟨?_,fun a member => still (kept.sound.held a member)⟩,?_,?_⟩,?_⟩
  · intro e member
    rcases mem_cons.mp member with rfl | old
    · exact points.imp_right still
    · exact (kept.sound.parents e old).imp_right still
  · refine nodup_cons.mpr ⟨fun member => ?_,kept.apart⟩
    obtain ⟨x,there,same⟩ := mem_map.mp member
    exact free.2 x there same
  · exact List.forall_mem_cons.mpr ⟨free.1,kept.outside⟩
  intro spot same
  cases same
  exact ⟨_,mem_cons_self,rfl⟩

theorem Kept.component (here : Here s spot) (name memory) : Looked (s.component spot name memory) := by
  unfold Procfs.component
  split
  · exact kept.idle
  · split
    · exact kept.stays here
    split
    · exact kept.idle
    unfold rootFind
    split
    · exact kept.stays trivial
    split
    · rename_i mp pid mounted _
      split
      · exact kept.get (.inl mounted)
      · exact kept.idle
    · exact kept.idle
  split
  · exact kept.idle
  rename_i d found
  have listed := mem_of_find?_eq_some found
  split
  · exact kept.idle
  split
  · exact kept.stays here
  split
  · refine ⟨kept,fun next up => ?_⟩
    unfold above at up
    split at up
    · rename_i mounted
      cases up
      exact isSome_of_eq_some mounted
    obtain ⟨x,there,rfl⟩ := map_eq_some_iff.mp up
    exact ⟨x,mem_of_find?_eq_some there,rfl⟩
  split
  · unfold pidFind
    split
    · exact kept.get (.inr ⟨d,listed,rfl⟩)
    · exact kept.idle
  unfold fdFind
  split
  · split
    · exact kept.get (.inr ⟨d,listed,rfl⟩)
    · exact kept.idle
  · exact kept.idle

theorem Kept.walk (here : Here s spot) (path) : Looked (s.walk spot path) := by
  induction path generalizing s spot with
  | nil => exact kept.stays here
  | cons part rest ih =>
  have looked := kept.component here part.1 part.2
  unfold Procfs.walk
  split
  · rename_i next t found
    rw [found] at looked
    exact ih looked.kept (looked.here next rfl)
  rename_i t found
  rw [found] at looked
  exact looked.kept.idle

end

theorem Looked.hold {r} (looked : Looked r) : Kept (r.2.hold r.1) := by
  obtain ⟨⟨sound,apart,outside⟩,here⟩ := looked
  unfold Procfs.hold
  split
  · rename_i place found
    exact ⟨⟨sound.parents,forall_mem_cons.mpr ⟨here _ found,sound.held⟩⟩,apart,outside⟩
  · exact ⟨⟨sound.parents,sound.held⟩,apart,outside⟩
  · exact ⟨sound,apart,outside⟩

/- A reap frees an entry and leaves one below it on the list, or proc is unmounted while there
are entries that were made under it. -/
def Orphans (s : Procfs) : Event → Prop
  | .reap pid => ∃ e ∈ s.ents, ∃ x ∈ s.ents, x.place = e.parent ∧ (x.pid = pid ∧ x.place ∉ s.held) ∧
    ¬ (e.pid = pid ∧ e.place ∉ s.held)
  | .unmount => ∃ e ∈ s.ents, s.mount = some e.parent
  | _ => False

theorem Kept.reap (kept : Kept s) (safe : ¬ Orphans s (.reap pid)) : Kept (s.procfsForget pid) := by
  refine ⟨⟨fun e member => ?_,fun a member => ?_⟩,kept.apart.sublist (filter_sublist.map _),
    fun e member => kept.outside e (mem_of_mem_filter member)⟩
  · obtain ⟨old,stays⟩ := mem_filter.mp member
    refine (kept.sound.parents e old).imp_right (fun ⟨x,there,same⟩ => ⟨x,mem_filter.mpr ⟨there,?_⟩,same⟩)
    simp only [decide_eq_true_eq] at stays ⊢
    exact fun freed => safe ⟨e,old,x,there,same,freed,stays⟩
  obtain ⟨x,there,rfl⟩ := kept.sound.held a member
  refine ⟨x,mem_filter.mpr ⟨there,?_⟩,rfl⟩
  simp only [decide_eq_true_eq]
  exact fun freed => freed.2 member

theorem stepKept {e} (kept : Kept s) (safe : ¬ Orphans s e) (moved : s.step e = some t) : Kept t := by
  have ⟨⟨parents,held⟩,apart,outside⟩ := kept
  unfold step at moved
  split at moved
  · cases moved
    exact ⟨⟨parents,held⟩,apart,outside⟩
  · obtain ⟨p,_,rfl⟩ := map_eq_some_iff.mp moved
    have ⟨⟨parents,held⟩,apart,outside⟩ := kept.reap safe
    exact ⟨⟨parents,held⟩,apart,outside⟩
  · rename_i start path keep
    obtain ⟨starts,done⟩ := ite_none_right_eq_some.mp moved
    cases done
    have here : Here s start := by
      cases start with
      | root => exact starts
      | fixed => trivial
      | entry place => exact held place (of_decide_eq_true starts)
    split
    · exact (kept.walk here path).hold
    · exact (kept.walk here path).kept
  · obtain ⟨_,done⟩ := ite_none_right_eq_some.mp moved
    cases done
    exact ⟨⟨parents,fun a there => held a (mem_of_mem_erase there)⟩,apart,outside⟩
  · obtain ⟨_,done⟩ := ite_none_right_eq_some.mp moved
    cases done
    exact ⟨⟨parents,held⟩,apart,outside⟩
  · obtain ⟨⟨unmounted,free⟩,done⟩ := ite_none_right_eq_some.mp moved
    cases done
    refine ⟨⟨fun e member => ?_,held⟩,apart,fun e member same => free ?_⟩
    · exact .inr ((parents e member).resolve_left (by rw [unmounted]; nofun))
    simp only [taken,Bool.or_eq_true,List.any_eq_true,decide_eq_true_eq]
    exact .inr ⟨e,member,(Option.some.inj same).symm⟩
  obtain ⟨_,done⟩ := Option.ite_none_right_eq_some.mp moved
  cases done
  refine ⟨⟨fun e member => ?_,held⟩,apart,fun e _ => nofun⟩
  exact .inr ((parents e member).resolve_left (fun mounted => safe ⟨e,member,mounted⟩))

theorem stepOrphans {e} (kept : Kept s) (orphans : Orphans s e) (moved : s.step e = some t) : ¬ Sound t := by
  intro sound
  cases e with
  | reap pid =>
    obtain ⟨p,_,rfl⟩ := map_eq_some_iff.mp moved
    obtain ⟨e,member,x,there,same,freed,stays⟩ := orphans
    rcases sound.parents e (mem_filter.mpr ⟨member,decide_eq_true stays⟩) with mounted | ⟨y,left,again⟩
    · exact kept.outside x there (by rw [same]; exact mounted)
    obtain ⟨old,survives⟩ := mem_filter.mp left
    have one : y = x := inj_on_of_nodup_map kept.apart old there (again.trans same.symm)
    simp only [decide_eq_true_eq] at survives
    exact survives (one ▸ freed)
  | unmount =>
    obtain ⟨_,done⟩ := ite_none_right_eq_some.mp moved
    cases done
    obtain ⟨e,member,mounted⟩ := orphans
    rcases sound.parents e member with now | ⟨x,there,same⟩
    · cases now
    · exact kept.outside x there (by rw [same]; exact mounted)
  | _ => exact orphans

/- The entries dangle in no state of a run exactly when no step of it orphans one. -/
theorem entriesNeverDangle (events) :
    (∀ t ∈ Runs.visited step {} events, Sound t) ↔ ∀ m ∈ Runs.moves step {} events, ¬ Orphans m.1 m.2 :=
  Runs.visitedIff (fun _ => Kept.sound) (fun _ _ _ => stepKept) (fun _ _ _ => stepOrphans)
    ⟨⟨nofun,nofun⟩,nodup_nil,nofun⟩

/- /proc/5/fd is open while process 5 is reaped: the entry /proc/5 is freed below it. -/
theorem openFdDirDangles : ∃ t ∈ Runs.visited step {} [.mount 1,.process 5 ⟨true,false,fun _ => false⟩,
    .lookup .root [([53],some 10),([102,100],some 20)] true,.process 5 ⟨true,true,fun _ => false⟩,.reap 5], ¬ Sound t := by
  refine ⟨_,Runs.visitedLast rfl,fun sound => ?_⟩
  rcases sound.parents ⟨20,5,.fdDir,0,10⟩ mem_cons_self with mounted | ⟨x,there,same⟩
  · cases mounted
  rcases mem_singleton.mp there with rfl
  cases same

end Procfs
end Miviex
