import Mathlib.Data.List.Basic
import Miviex.VfsMounts

/-! `initramfs_parse`: a newc cpio archive in physical memory is unpacked into the root file
system. What `k_malloc` and the clock give is an argument; an answer of none is a read past
the path buffer or through a pointer that was never set. -/
namespace Miviex.Initramfs
open Vfs

abbrev Image := Nat → UInt8

def bytesAt (mem : Image) (a n : Nat) : List UInt8 := (List.range n).map (fun i => mem (a+i))

def stringAt (mem : Image) : Nat → Nat → Option (List UInt8)
  | 0, _ => none
  | n + 1, a => if mem a = 0 then some [] else (stringAt mem n (a+1)).map (mem a::·)

def magic : List UInt8 := [48,55,48,55,48,49]
def trailer : List UInt8 := [84,82,65,73,76,69,82,33,33,33]
def slash : UInt8 := 47
def dot : Name := [46]
def headerSize : Nat := 110
def maxPath : Nat := 256

def sIfmt : BitVec 32 := 0o170000
def sIfdir : BitVec 32 := 0o040000
def sIfreg : BitVec 32 := 0o100000
def sIflnk : BitVec 32 := 0o120000

def hexDigit (c : UInt8) : Option (BitVec 32) :=
  if 48 ≤ c ∧ c ≤ 57 then some (.ofNat 32 (c.toNat-48))
  else if 97 ≤ c ∧ c ≤ 102 then some (.ofNat 32 (c.toNat-97+10))
  else if 65 ≤ c ∧ c ≤ 70 then some (.ofNat 32 (c.toNat-65+10))
  else none

def hexToUint (hex : List UInt8) : BitVec 32 :=
  hex.foldl (fun num c => match hexDigit c with
    | some d => (num <<< 4) ||| d
    | none => num) 0

def align4 (a : Nat) : Nat := (a+3) % 2^32 / 4 * 4

structure Header where
  mode : BitVec 32
  uid : BitVec 32
  gid : BitVec 32
  mtime : BitVec 32
  filesize : BitVec 32
  namesize : BitVec 32
  deriving DecidableEq, Repr

def headerAt (mem : Image) (a : Nat) : Header where
  mode := hexToUint (bytesAt mem (a+14) 8)
  uid := hexToUint (bytesAt mem (a+22) 8)
  gid := hexToUint (bytesAt mem (a+30) 8)
  mtime := hexToUint (bytesAt mem (a+46) 8)
  filesize := hexToUint (bytesAt mem (a+54) 8)
  namesize := hexToUint (bytesAt mem (a+94) 8)

/- `places` is where the allocations of each `vfs_create` go, in the order of the calls, and
`room` whether a round can store its data. -/
structure Memory where
  places : Nat → Places
  room : Nat → Bool

structure Unpacking where
  vfs : Vfs
  calls : Nat

namespace Unpacking

def create (m : Memory) (u : Unpacking) (dir : Addr) (name : Name) (type : FileType) (mode : BitVec 32) :
    Option (Except Errno Addr × Unpacking) :=
  (u.vfs.vfsCreate {} dir name type mode (m.places u.calls)).map (fun (made,s) => (made,⟨s,u.calls+1⟩))

def found (u : Unpacking) (dir : Addr) (name : Name) : Option Addr :=
  ((u.vfs.vfsChild dir name).bind id).map u.vfs.inode

/- The components before the last one; missing directories are made. No directory where one of
them is something else. -/
def parentOf (m : Memory) : List Name → Addr → Unpacking → Option (Option Addr × Unpacking)
  | [], cur, u => some (some cur,u)
  | comp::rest, cur, u =>
    if comp = [] then parentOf m rest cur u
    else (u.create m cur comp .directory 0o755).bind (fun (made,u) =>
      (match made with
        | .ok n => some n
        | .error e => if e = Errno.eexist then u.found cur comp else none).bind (fun next =>
          if u.vfs.isDir next then parentOf m rest next u else some (none,u)))

def modify (u : Unpacking) (n : Addr) (f : Inode → Inode) : Unpacking := {u with vfs := u.vfs.modifyInode n f}

def ramfsWrite (now : Nat) (data : List UInt8) (x : Inode) : Inode :=
  stamp now modified {x with data := data ++ x.data.drop data.length}

def makeNode (m : Memory) (u : Unpacking) (dir : Addr) (leaf : Name) (mode : BitVec 32) (data : List UInt8) (room : Bool) :
    Option (Option Addr × Unpacking) :=
  if mode &&& sIfmt = sIfdir then
    (u.create m dir leaf .directory mode).bind (fun (made,u) =>
      match made with
      | .ok n => some (some n,u)
      | .error e =>
        if e = .eexist then
          (u.found dir leaf).map (fun n => (some n,u.modify n (fun x => {x with mode := mode &&& 0o7777})))
        else some (none,u))
  else if mode &&& sIfmt = sIfreg ∨ mode &&& sIfmt = sIflnk then
    (u.create m dir leaf (if mode &&& sIfmt = sIfreg then .file else .symlink) mode).map (fun (made,u) =>
      match made with
      | .ok n => (some n,if data ≠ [] ∧ room then u.modify n (ramfsWrite u.vfs.now data) else u)
      | .error _ => (none,u))
  else some (none,u)

def nanoseconds (mtime : BitVec 32) : Nat := mtime.toNat * 10^9

def owned (h : Header) (x : Inode) : Inode :=
  {x with
    uid := .ofBitVec h.uid, gid := .ofBitVec h.gid
    atime := nanoseconds h.mtime, mtime := nanoseconds h.mtime, ctime := nanoseconds h.mtime}

def entry (m : Memory) (h : Header) (path data : List UInt8) (room : Bool) (u : Unpacking) : Option Unpacking :=
  let parts := path.splitOn slash
  let leaf := parts.getLastD []
  (parentOf m parts.dropLast (u.vfs.inode u.vfs.fsRoot) u).bind (fun (dir,u) =>
    match dir with
    | none => some u
    | some dir =>
      if leaf = [] ∨ leaf = dot then some u
      else (u.makeNode m dir leaf h.mode data room).map (fun (n,u) =>
        match n with
        | none => u
        | some n => u.modify n (owned h)))

end Unpacking

def skipZeros (mem : Image) (stop : Nat) : Nat → Nat → Nat
  | 0, a => a
  | fuel + 1, a => if a < stop ∧ bytesAt mem a 4 = [0,0,0,0] then skipZeros mem stop fuel ((a+4) % 2^32) else a

/- A round for each header; `clock` is what `vfs_touch` reads in it. -/
def initramfsParse (mem : Image) (m : Memory) (clock : Nat → Nat) (stop : Nat) :
    Nat → Nat → Nat → Unpacking → Option (Int × Unpacking)
  | 0, _, _, _ => none
  | fuel + 1, round, a, u =>
    if ¬ a < stop then some (-1,u)
    else if bytesAt mem a 6 ≠ magic then some (-1,u)
    else
      let h := headerAt mem a
      let dataAt := align4 (a+headerSize+h.namesize.toNat)
      let next := align4 (dataAt+h.filesize.toNat)
      (stringAt mem (2^32) (a+headerSize)).bind (fun name =>
        if name = trailer then
          let next := skipZeros mem stop (2^32) next
          if stop ≤ next then some (0,u) else initramfsParse mem m clock stop fuel (round+1) next u
        else if h.namesize.toNat > maxPath then initramfsParse mem m clock stop fuel (round+1) next u
        else if name.length ≥ maxPath then none
        else ({u with vfs := {u.vfs with now := clock round}}.entry m h name (bytesAt mem dataAt h.filesize.toNat)
            (m.room round)).bind (fun u => initramfsParse mem m clock stop fuel (round+1) next u))

end Miviex.Initramfs
