import Miviex.PageTable

/-! Whole address spaces: copying into one, checking a user range, destroying one and the deep
copy of fork. -/
namespace Miviex.Machine

def writeBytes (m : Machine) (f : Frame) (offset : Nat) (bytes : List Byte) : Machine :=
  let content (i : Nat) : Byte := if i < offset then m.data f i else (bytes[i-offset]?).getD (m.data f i)
  {m with data := Function.update m.data f content}

def copyPage (as : AddressSpace) (va : Nat) (bytes : List Byte) (m : Machine) (page : Nat) : Bool × Machine :=
  let first := max va page
  match m.leaf as.pml4 first with
  | none => (false,m)
  | some e =>
    let chunk := (bytes.drop (first-va)).take (page+pageSize-first)
    (true,m.writeBytes e.frame (first % pageSize) chunk)

def vmmCopyTo (m : Machine) (as : AddressSpace) (va : Nat) (bytes : List Byte) : Bool × Machine :=
  if bytes = [] then (true,m)
  else untilFailure (copyPage as va bytes) m (pages va (va+bytes.length))

def userFlags : BitVec 12 := pagePresent ||| pageUser ||| pageWrite

def userOkPage (as : AddressSpace) (write : Bool) (m : Machine) (va : Nat) : Bool × Machine :=
  let m := if (m.leaf as.pml4 va).isNone && va ≥ userEndAddr-userStackMax
    then (m.vmmAllocRange as va (va+pageSize) userFlags).2 else m
  match m.leaf as.pml4 va with
  | none => (false,m)
  | some e => (e.user && (!write || e.write),m)

def vmmUserOk (m : Machine) (as : AddressSpace) (addr len : Nat) (write : Bool) : Bool × Machine :=
  let stop := (addr+len) % 2^64
  if len = 0 then (true,m)
  else if stop < addr || stop > userEndAddr then (false,m)
  else untilFailure (userOkPage as write) m (pages addr stop)

def eachEntry (m : Machine) (table : Frame) (body : Machine → Nat → Entry → Machine) : Machine :=
  (List.range 512).foldl (fun m i => body m i (m.tables table i)) m

def freePml1 (user : Bool) (m : Machine) (pml1 : Frame) : Machine :=
  let m := if user then
      m.eachEntry pml1 (fun m _ e => if e.present then m.pmmFreePage e.frame else m)
    else m
  m.pmmFreePage pml1

def freePml2 (user : Bool) (m : Machine) (pml2 : Frame) : Machine :=
  (m.eachEntry pml2 (fun m _ e =>
    if !e.present || e.huge then m else m.freePml1 user e.frame)).pmmFreePage pml2

def freePml3 (user : Bool) (m : Machine) (pml3 : Frame) : Machine :=
  (m.eachEntry pml3 (fun m _ e => if !e.present then m else m.freePml2 user e.frame)).pmmFreePage pml3

def vmmDestroyAddressSpace (m : Machine) (as : AddressSpace) : Machine :=
  (m.eachEntry as.pml4 (fun m i e =>
    if !e.present || e.frame == (m.boot i).frame then m
    else m.freePml3 (i < 256) e.frame)).pmmFreePage as.pml4

def copyFrame (m : Machine) (copy source : Frame) : Machine :=
  {m with data := Function.update m.data copy (m.data source)}

def clonePage (dst : AddressSpace) (va : Nat) (m : Machine) (e : Entry) : Bool × Machine :=
  match m.pmmAllocPage with
  | (none,m) => (false,m)
  | (some copy,m) =>
    match m.vmmMapPage dst va copy e.flags with
    | (false,m) => (false,m.pmmFreePage copy)
    | (true,m) => (true,m.copyFrame copy e.frame)

def cloneEntries (size : Nat) (table : Frame) (skip : Entry → Bool)
    (inner : Nat → Machine → Entry → Bool × Machine) (m : Machine) : Bool × Machine :=
  untilFailure (fun m i => let e := m.tables table i; if skip e then (true,m) else inner i m e)
    m (List.range size)

section

variable (dst : AddressSpace) (base : Nat) (m : Machine) (e : Entry)

def cloneL1 : Bool × Machine :=
  cloneEntries 512 e.frame (fun e => !e.present) (fun i => clonePage dst (base + i * 2^12)) m

def cloneL2 : Bool × Machine :=
  cloneEntries 512 e.frame (fun e => !e.present || e.huge) (fun i => cloneL1 dst (base + i * 2^21)) m

def cloneL3 : Bool × Machine :=
  cloneEntries 512 e.frame (fun e => !e.present) (fun i => cloneL2 dst (base + i * 2^30)) m

end

def cloneL4 (dst src : AddressSpace) (m : Machine) : Bool × Machine :=
  cloneEntries 256 src.pml4 (fun e => !e.present) (fun i => cloneL3 dst (i * 2^39)) m

def vmmClone (m : Machine) (src : AddressSpace) : Option AddressSpace × Machine :=
  match m.vmmCreateAddressSpace with
  | (none,m) => (none,m)
  | (some new,m) =>
    let dst := {src with pml4 := new.pml4}
    match cloneL4 dst src m with
    | (true,m) => (some dst,m)
    | (false,m) => (none,m.vmmDestroyAddressSpace dst)

end Miviex.Machine
