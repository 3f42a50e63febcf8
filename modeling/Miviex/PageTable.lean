import Mathlib.Data.BitVec
import Mathlib.Logic.Function.Basic

/-! Page tables in physical memory. A frame is named by its number; as a page table it holds 512
entries, as user memory 4096 bytes. The physical allocator answers from a script; an answer that
is in use counts as a failure. -/
namespace Miviex

open Function

abbrev Frame := Nat
abbrev Byte := BitVec 8

def pageSize : Nat := 4096

def pagePresent : BitVec 12 := 1
def pageWrite : BitVec 12 := 2
def pageUser : BitVec 12 := 4

structure Entry where
  frame : Frame
  flags : BitVec 12
  deriving DecidableEq, Repr

def Entry.zero : Entry := ⟨0,0⟩
def Entry.present (e : Entry) : Bool := e.flags.getLsbD 0
def Entry.write (e : Entry) : Bool := e.flags.getLsbD 1
def Entry.user (e : Entry) : Bool := e.flags.getLsbD 2
def Entry.huge (e : Entry) : Bool := e.flags.getLsbD 7

def userEndAddr : Nat := 0x00007FFFFFFFF000
def userStackSize : Nat := 16 * pageSize
def userStackMax : Nat := 8 * 1024 * 1024
def mmapTop : Nat := userEndAddr-0x10000000
def mmapMin : Nat := 0x10000

structure AddressSpace where
  pml4 : Frame
  brkStart : Nat
  brk : Nat
  mmapHint : Nat
  deriving DecidableEq, Repr

/- `boot` is the boot PML4, whose upper half every address space shares. `frames` and
`heap` are the answers `pmm_alloc_page` and `k_malloc` will give. -/
structure Machine where
  tables : Frame → Nat → Entry
  data : Frame → Nat → Byte
  used : Frame → Bool
  boot : Nat → Entry
  frames : List (Option Frame)
  heap : List Bool

namespace Machine

section

variable (m : Machine)

def setEntry (table : Frame) (i : Nat) (e : Entry) : Machine :=
  {m with tables := update m.tables table (update (m.tables table) i e)}

def setTable (table : Frame) (entries : Nat → Entry) : Machine :=
  {m with tables := update m.tables table entries}

def zeroFrame (f : Frame) : Machine := {m with data := update m.data f (fun _ => 0)}

def pmmAllocPage : Option Frame × Machine :=
  match m.frames with
  | [] => (none,m)
  | none::rest => (none,{m with frames := rest})
  | some f::rest =>
    if m.used f then (none,{m with frames := rest})
    else (some f,{m with frames := rest, used := update m.used f true})

def pmmFreePage (f : Frame) : Machine := {m with used := update m.used f false}

def kMalloc : Bool × Machine :=
  match m.heap with
  | [] => (false,m)
  | answer::rest => (answer,{m with heap := rest})

def allocZeroedTable : Option Frame × Machine :=
  match m.pmmAllocPage with
  | (none,m) => (none,m)
  | (some f,m) => (some f,m.setTable f (fun _ => .zero))

def vmmCreateAddressSpace : Option AddressSpace × Machine :=
  match m.kMalloc with
  | (false,m) => (none,m)
  | (true,m) =>
    match m.pmmAllocPage with
    | (none,m) => (none,m)
    | (some f,m) =>
      (some ⟨f,0,0,mmapTop⟩,m.setTable f (fun i => if i < 256 then .zero else m.boot i))

end

def index (shift va : Nat) : Nat := va / 2^shift % 512

def linkFlags (wantUser : Bool) : BitVec 12 :=
  pagePresent ||| pageWrite ||| (if wantUser then pageUser else 0)

section

variable (m : Machine)

def nextTable (table : Frame) (i : Nat) (wantUser : Bool) : Option Frame × Machine :=
  let e := m.tables table i
  if e.present then
    (some e.frame,if wantUser then m.setEntry table i {e with flags := e.flags ||| pageUser} else m)
  else
    match m.allocZeroedTable with
    | (none,m) => (none,m)
    | (some f,m) => (some f,m.setEntry table i ⟨f,linkFlags wantUser⟩)

/- The last level may hold a 2 MiB page, which is split into 4 KiB entries first. -/
def lastTable (table : Frame) (i : Nat) (wantUser : Bool) : Option Frame × Machine :=
  let e := m.tables table i
  if e.present && e.huge then
    match m.allocZeroedTable with
    | (none,m) => (none,m)
    | (some f,m) =>
      let base := e.frame / 512 * 512
      let m := m.setTable f (fun j => ⟨base+j,e.flags &&& (pagePresent ||| pageWrite)⟩)
      (some f,m.setEntry table i ⟨f,linkFlags wantUser⟩)
  else m.nextTable table i wantUser

def vmmMapPage (as : AddressSpace) (va : Nat) (phys : Frame) (flags : BitVec 12) :
    Bool × Machine :=
  let wantUser := flags.getLsbD 2
  match m.nextTable as.pml4 (index 39 va) wantUser with
  | (none,m) => (false,m)
  | (some pml3,m) =>
    match m.nextTable pml3 (index 30 va) wantUser with
    | (none,m) => (false,m)
    | (some pml2,m) =>
      match m.lastTable pml2 (index 21 va) wantUser with
      | (none,m) => (false,m)
      | (some pml1,m) => (true,m.setEntry pml1 (index 12 va) ⟨phys,flags⟩)

def follow (table : Frame) (i : Nat) : Option Frame :=
  let e := m.tables table i
  if !e.present || e.huge then none else some e.frame

def pte (pml4 : Frame) (va : Nat) : Option (Frame × Nat) := do
  let pml3 ← m.follow pml4 (index 39 va)
  let pml2 ← m.follow pml3 (index 30 va)
  let pml1 ← m.follow pml2 (index 21 va)
  some (pml1,index 12 va)

def leaf (pml4 : Frame) (va : Nat) : Option Entry :=
  (m.pte pml4 va).bind (fun place =>
    let e := m.tables place.1 place.2
    if e.present then some e else none)

def vmmTranslate (as : AddressSpace) (va : Nat) : Option Nat :=
  (m.leaf as.pml4 va).map (fun e => e.frame * pageSize + va % pageSize)

end

def alignDownPage (a : Nat) : Nat := a / pageSize * pageSize

def alignUpPage (a : Nat) : Nat := (a+pageSize-1) % 2^64 / pageSize * pageSize

def pages (start stop : Nat) : List Nat :=
  (List.range ((stop - alignDownPage start + pageSize - 1) / pageSize)).map
    (fun i => alignDownPage start + i * pageSize)

def allocPage (m : Machine) (as : AddressSpace) (flags : BitVec 12) (va : Nat) : Bool × Machine :=
  match m.vmmTranslate as va with
  | none =>
    match m.pmmAllocPage with
    | (none,m) => (false,m)
    | (some f,m) => (m.zeroFrame f).vmmMapPage as va f flags
  | some phys =>
    if !flags.getLsbD 1 then (true,m) else m.vmmMapPage as va (phys / pageSize) flags

def untilFailure {σ α : Type} (body : σ → α → Bool × σ) (s : σ) : List α → Bool × σ
  | [] => (true,s)
  | x::rest =>
    match body s x with
    | (false,s) => (false,s)
    | (true,s) => untilFailure body s rest

def vmmAllocRange (m : Machine) (as : AddressSpace) (start stop : Nat) (flags : BitVec 12) : Bool × Machine :=
  untilFailure (fun m va => m.allocPage as flags va) m (pages start stop)

def freePage (as : AddressSpace) (m : Machine) (va : Nat) : Machine :=
  match m.pte as.pml4 va with
  | none => m
  | some (table,i) =>
    if (m.tables table i).present then
      (m.pmmFreePage (m.tables table i).frame).setEntry table i .zero
    else m

def vmmFreeRange (m : Machine) (as : AddressSpace) (start stop : Nat) : Machine :=
  (pages start stop).foldl (freePage as) m

def protectPage (as : AddressSpace) (flags : BitVec 12) (m : Machine) (va : Nat) : Machine :=
  match m.pte as.pml4 va with
  | none => m
  | some (table,i) =>
    if (m.tables table i).present then
      m.setEntry table i {m.tables table i with flags := flags}
    else m

def vmmProtectRange (m : Machine) (as : AddressSpace) (start stop : Nat) (flags : BitVec 12) : Machine :=
  (pages start stop).foldl (protectPage as flags) m

def vmmRangeIsFree (m : Machine) (as : AddressSpace) (start stop : Nat) : Bool :=
  (pages start stop).all (fun va => (m.vmmTranslate as va).isNone)

end Machine
end Miviex
