import Miviex.ElfLoader

/-! The memory system calls and the system they act on: one machine and the address space
of each process. Every event brings the answers the two allocators give during it. -/
namespace Miviex.Machine

def protFlags (prot : BitVec 64) : BitVec 12 :=
  pagePresent ||| (if prot ≠ 0 then pageUser else 0) ||| (if prot.getLsbD 1 then pageWrite else 0)

def userRange (addr len : Nat) : Bool :=
  addr % pageSize = 0 && len != 0 && (addr+len) % 2^64 > addr && (addr+len) % 2^64 ≤ userEndAddr

def firstMapped (m : Machine) (as : AddressSpace) (top count : Nat) : Option Nat :=
  (List.range count).find? (fun i => (m.vmmTranslate as (top - (i+1) * pageSize)).isSome)

theorem firstMappedBound {m : Machine} {as top count i} (found : m.firstMapped as top count = some i) : i < count :=
  List.mem_range.mp (List.mem_of_find?_eq_some found)

/- Top-down first fit; `none` is a search that fails, for which the source has 0 like for a hole
at 0. Neither operand of `brk_start + len` reaches 2^63 + 2^47, so the
sum does not wrap. -/
def findFree (m : Machine) (as : AddressSpace) (len top : Nat) : Option Nat :=
  if _ : top < as.brkStart + len then none
  else match _ : m.firstMapped as top (len / pageSize) with
    | none => some (top-len)
    | some i => m.findFree as len (top - (i+1) * pageSize)
termination_by top
decreasing_by
  have bound := firstMappedBound (by assumption)
  have inside : (i+1) * pageSize ≤ len :=
    Nat.le_trans (Nat.mul_le_mul_right pageSize bound) (Nat.div_mul_le_self len pageSize)
  have positive : 0 < (i+1) * pageSize := Nat.mul_pos (Nat.succ_pos i) (by decide)
  omega

section

variable (m : Machine) (as : AddressSpace)

def sysBrk (addr : BitVec 64) : Nat × AddressSpace × Machine :=
  let want := addr.toNat
  let oldp := alignUpPage as.brk
  let newp := alignUpPage want
  if want < as.brkStart || want > mmapTop then (as.brk,as,m)
  else if newp > oldp then
    if !m.vmmRangeIsFree as oldp newp then (as.brk,as,m)
    else match m.vmmAllocRange as oldp newp userFlags with
      | (false,m) => (as.brk,as,m.vmmFreeRange as oldp newp)
      | (true,m) => (want,{as with brk := want},m)
  else if newp < oldp then (want,{as with brk := want},m.vmmFreeRange as newp oldp)
  else (want,{as with brk := want},m)

def mapAnonymous (va size : Nat) (prot : BitVec 64) :
    Except Errno Nat × AddressSpace × Machine :=
  match m.vmmAllocRange as va (va+size) (protFlags prot) with
  | (false,m) => (.error .enomem,as,m.vmmFreeRange as va (va+size))
  | (true,m) => (.ok va,as,m)

def mmapFixed (va size : Nat) (prot : BitVec 64) (noReplace : Bool) :
    Except Errno Nat × AddressSpace × Machine :=
  if !userRange va size || va < mmapMin then (.error .einval,as,m)
  else if m.vmmRangeIsFree as va (va+size) then m.mapAnonymous as va size prot
  else if noReplace then (.error .eexist,as,m)
  else (m.vmmFreeRange as va (va+size)).mapAnonymous as va size prot

def mmapAnywhere (size : Nat) (prot : BitVec 64) :
    Except Errno Nat × AddressSpace × Machine :=
  match m.findFree as size as.mmapHint with
  | none => (.error .enomem,as,m)
  | some va =>
    let as := {as with mmapHint := va}
    if va = 0 then (.error .enomem,as,m) else m.mapAnonymous as va size prot

def sysMmap (addr len prot flags off : BitVec 64) :
    Except Errno Nat × AddressSpace × Machine :=
  let size := alignUpPage len.toNat
  let mapFixed := flags.getLsbD 4
  let mapAnonymous := flags.getLsbD 5
  let mapFixedNoreplace := flags.getLsbD 20
  if len.toInt ≤ 0 || size = 0 || off.toNat % pageSize != 0 then (.error .einval,as,m)
  else if !mapAnonymous then (.error .ebadf,as,m)
  else if mapFixed || mapFixedNoreplace then m.mmapFixed as addr.toNat size prot mapFixedNoreplace
  else m.mmapAnywhere as size prot

def sysMunmap (addr len : BitVec 64) :
    Except Errno Nat × AddressSpace × Machine :=
  let size := alignUpPage len.toNat
  let stop := (addr.toNat+size) % 2^64
  if len.toInt ≤ 0 || !userRange addr.toNat size then (.error .einval,as,m)
  else
    let hint := if stop > as.mmapHint ∧ addr.toNat < mmapTop then min stop mmapTop else as.mmapHint
    (.ok 0,{as with mmapHint := hint},m.vmmFreeRange as addr.toNat stop)

def sysMprotect (addr len prot : BitVec 64) : Except Errno Nat × Machine :=
  let size := alignUpPage len.toNat
  if len.toInt ≤ 0 || !userRange addr.toNat size then (.error .einval,m)
  else (.ok 0,m.vmmProtectRange as addr.toNat ((addr.toNat+size) % 2^64) (protFlags prot))

/- A not-present fault in ring 3: true if the stack grew and the instruction is retried. -/
def growStack (addr : Nat) : Bool × Machine :=
  if (m.leaf as.pml4 addr).isNone && addr < userEndAddr && addr ≥ userEndAddr - userStackMax then
    m.vmmAllocRange as (alignDownPage addr) (alignDownPage addr + pageSize) userFlags
  else (false,m)

end

end Machine

inductive Action where
  | execve (img : List Byte) (args : Machine.ExecArgs)
  | brk (addr : BitVec 64)
  | mmap (addr len prot flags off : BitVec 64)
  | munmap (addr len : BitVec 64)
  | mprotect (addr len prot : BitVec 64)
  | userOk (addr len : Nat) (write : Bool)
  | fault (addr : Nat)
  | fork (child : Nat)
  | exit

structure Event where
  pid : Nat
  action : Action
  frames : List (Option Frame)
  heap : List Bool

structure System where
  machine : Machine
  spaces : Nat → Option AddressSpace

namespace System

def boot (m : Machine) : System := ⟨m,fun _ => none⟩

def setSpace (s : System) (pid : Nat) (as : AddressSpace) (m : Machine) : System :=
  ⟨m,Function.update s.spaces pid (some as)⟩

def exitProcess (s : System) (pid : Nat) (as : AddressSpace) (m : Machine) : System :=
  ⟨m.vmmDestroyAddressSpace as,Function.update s.spaces pid none⟩

def act (s : System) (m : Machine) (pid : Nat) (as : AddressSpace) : Action → Option System
  | .execve img args =>
    match m.processExecve as img args with
    | (.error _,m) => some {s with machine := m}
    | (.ok image,m) => some (s.setSpace pid image.as m)
  | .brk addr => let (_,as,m) := m.sysBrk as addr; some (s.setSpace pid as m)
  | .mmap addr len prot flags off =>
    let (_,as,m) := m.sysMmap as addr len prot flags off
    some (s.setSpace pid as m)
  | .munmap addr len => let (_,as,m) := m.sysMunmap as addr len; some (s.setSpace pid as m)
  | .mprotect addr len prot => some {s with machine := (m.sysMprotect as addr len prot).2}
  | .userOk addr len write => some {s with machine := (m.vmmUserOk as addr len write).2}
  | .fault addr =>
    match m.growStack as addr with
    | (true,m) => some {s with machine := m}
    | (false,m) => some (s.exitProcess pid as m)
  | .fork child =>
    if (s.spaces child).isSome then none
    else match m.vmmClone as with
      | (none,m) => some {s with machine := m}
      | (some copy,m) => some (s.setSpace child copy m)
  | .exit => some (s.exitProcess pid as m)

def step (s : System) (e : Event) : Option System :=
  let m := {s.machine with frames := e.frames, heap := e.heap}
  match s.spaces e.pid, e.action with
  | some as, action => s.act m e.pid as action
  | none, .execve img args =>
    match m.processExec img args with
    | (none,m) => some {s with machine := m}
    | (some image,m) => some (s.setSpace e.pid image.as m)
  | none, _ => none

end System
end Miviex
