import Miviex.AddressSpaces
import Miviex.Errno

/-! Loading a program: the segments of an ELF file into a fresh address space, then the initial
stack. Interpreter scripts end in one such file; finding and reading it and its permissions are
outside this model, so `img` is the file loaded in the end. -/
namespace Miviex

def littleEndian (img : List Byte) (offset width : Nat) : Nat :=
  (List.range width).foldr (fun i rest => ((img[offset+i]?).getD 0).toNat + 256 * rest) 0

def wordBytes (w : Nat) : List Byte := (List.range 8).map (fun i => BitVec.ofNat 8 (w / 256^i))

def sizeofEhdr : Nat := 64
def sizeofPhdr : Nat := 56

structure Ehdr where
  eIdent : List Byte
  eType : Nat
  eMachine : Nat
  eEntry : Nat
  ePhoff : Nat
  ePhentsize : Nat
  ePhnum : Nat

def Ehdr.read (img : List Byte) : Ehdr where
  eIdent := img.take 16
  eType := littleEndian img 16 2
  eMachine := littleEndian img 18 2
  eEntry := littleEndian img 24 8
  ePhoff := littleEndian img 32 8
  ePhentsize := littleEndian img 54 2
  ePhnum := littleEndian img 56 2

structure Phdr where
  pType : Nat
  pFlags : Nat
  pOffset : Nat
  pVaddr : Nat
  pFilesz : Nat
  pMemsz : Nat

def Phdr.read (img : List Byte) (start : Nat) : Phdr where
  pType := littleEndian img start 4
  pFlags := littleEndian img (start+4) 4
  pOffset := littleEndian img (start+8) 8
  pVaddr := littleEndian img (start+16) 8
  pFilesz := littleEndian img (start+32) 8
  pMemsz := littleEndian img (start+40) 8

def elfMag : List Byte := [0x7F,0x45,0x4C,0x46]
def elfClass64 : Byte := 2
def elfData2Lsb : Byte := 1
def etExec : Nat := 2
def etDyn : Nat := 3
def emX8664 : Nat := 62
def ptLoad : Nat := 1
def ptInterp : Nat := 3
def ptPhdr : Nat := 6
def pieBase : Nat := 0x400000

def elfRefused (img : List Byte) : Bool :=
  let eh := Ehdr.read img
  img.length < sizeofEhdr || eh.eIdent.take 4 != elfMag || eh.eIdent[4]? != some elfClass64 ||
    eh.eIdent[5]? != some elfData2Lsb || eh.eMachine != emX8664 || eh.ePhentsize != sizeofPhdr ||
    eh.ePhoff > img.length || eh.ePhnum > (img.length-eh.ePhoff) / sizeofPhdr

def loadBias (img : List Byte) : Option Nat :=
  let eh := Ehdr.read img
  if eh.eType = etExec then some 0
  else if eh.eType = etDyn then some pieBase
  else none

def programHeaders (img : List Byte) : List Phdr :=
  let eh := Ehdr.read img
  (List.range eh.ePhnum).map (fun i => Phdr.read img (eh.ePhoff + i * sizeofPhdr))

def Phdr.Loadable (p : Phdr) : Prop := p.pType = ptLoad ∧ p.pMemsz ≠ 0

instance (p : Phdr) : Decidable p.Loadable := by unfold Phdr.Loadable; infer_instance

def Bare (img : List Byte) : Prop :=
  elfRefused img = false ∧ (loadBias img).isSome = true ∧ ∀ p ∈ programHeaders img, p.pType ≠ ptInterp ∧ ¬ p.Loadable

instance (img : List Byte) : Decidable (Bare img) := by unfold Bare; infer_instance

structure Loading where
  machine : Machine
  as : AddressSpace
  phdr : Nat

def segmentFlags (p : Phdr) : BitVec 12 :=
  pagePresent ||| pageUser ||| (if p.pFlags.testBit 1 then pageWrite else 0)

def segmentRefused (img : List Byte) (p : Phdr) (va stop : Nat) : Bool :=
  p.pFilesz > p.pMemsz || p.pOffset > img.length || p.pFilesz > img.length - p.pOffset ||
    va < mmapMin || stop < va || stop > mmapTop

namespace Machine

def loadSegment (img : List Byte) (bias : Nat) (l : Loading) (p : Phdr) : Bool × Loading :=
  let va := (p.pVaddr+bias) % 2^64
  let stop := (va+p.pMemsz) % 2^64
  let phoff := (Ehdr.read img).ePhoff
  if p.pType = ptInterp then (false,l)
  else
    let l := if p.pType = ptPhdr then {l with phdr := va} else l
    if p.pType ≠ ptLoad ∨ p.pMemsz = 0 then (true,l)
    else if segmentRefused img p va stop then (false,l)
    else
      match l.machine.vmmAllocRange l.as va stop (segmentFlags p) with
      | (false,m) => (false,{l with machine := m})
      | (true,m) =>
        match m.vmmCopyTo l.as va ((img.drop p.pOffset).take p.pFilesz) with
        | (false,m) => (false,{l with machine := m})
        | (true,m) =>
          let top := alignUpPage stop
          let brkStart := if top > l.as.brkStart then top else l.as.brkStart
          let phdr := if l.phdr = 0 ∧ phoff ≥ p.pOffset ∧ phoff < (p.pOffset+p.pFilesz) % 2^64
            then (va + (phoff-p.pOffset)) % 2^64 else l.phdr
          (true,⟨m,{l.as with brkStart := brkStart},phdr⟩)

structure Loaded where
  as : AddressSpace
  entry : Nat
  phdr : Nat
  phnum : Nat

def loadElf (m : Machine) (as : AddressSpace) (img : List Byte) : Option Loaded × Machine :=
  let eh := Ehdr.read img
  if elfRefused img then (none,m)
  else match loadBias img with
    | none => (none,m)
    | some bias =>
      match untilFailure (loadSegment img bias) ⟨m,as,0⟩ (programHeaders img) with
      | (false,l) => (none,l.machine)
      | (true,l) =>
        (some ⟨{l.as with brk := l.as.brkStart},(eh.eEntry+bias) % 2^64,l.phdr,eh.ePhnum⟩,l.machine)

structure Ids where
  uid : Nat
  euid : Nat
  gid : Nat
  egid : Nat
  deriving DecidableEq, Repr

structure ExecArgs where
  path : List Byte
  argv : List (List Byte)
  envp : List (List Byte)
  ids : Ids
  random : List Byte
  deriving DecidableEq, Repr

def sub64 (a b : Nat) : Nat := (a+2^64 - b % 2^64) % 2^64

def stringsSize (strings : List (List Byte)) : Nat := (strings.map (fun s => s.length+1)).sum

def putStrings (as : AddressSpace) (m : Machine) (place : Nat) :
    List (List Byte) → (List Nat × Nat) × Machine
  | [] => (([],place),m)
  | s::rest =>
    let m := (m.vmmCopyTo as place (s ++ [0])).2
    let put := putStrings as m (place + (s.length+1)) rest
    ((place::put.1.1,put.1.2),put.2)

def auxv (ids : Ids) (entry phdr phnum random execfn : Nat) : List Nat :=
  [3,phdr,4,sizeofPhdr,5,phnum,6,pageSize,7,0,9,entry,11,ids.uid,12,ids.euid,13,ids.gid,
    14,ids.egid,23,if ids.uid ≠ ids.euid ∨ ids.gid ≠ ids.egid then 1 else 0,25,random,31,execfn,0,0]

structure Stack where
  rsp : Nat
  argStart : Nat
  argEnd : Nat

/- Where the texts of the stack go; the argument strings end at `argEnd`. -/
structure Texts where
  envs : List Nat
  args : List Nat
  argEnd : Nat

def putTexts (as : AddressSpace) (x : ExecArgs) (m : Machine) (envs args execfn random : Nat) :
    Texts × Machine :=
  let envPut := putStrings as m envs x.envp
  let argPut := putStrings as envPut.2 args x.argv
  let m := (argPut.2.vmmCopyTo as execfn (x.path ++ [0])).2
  (⟨envPut.1.1,argPut.1.1,argPut.1.2⟩,(m.vmmCopyTo as random x.random).2)

def putVector (as : AddressSpace) (m : Machine) (sp : Nat) (v : List Nat) : Bool × Machine :=
  if sp < userEndAddr - userStackSize then (false,m) else m.vmmCopyTo as sp (v.flatMap wordBytes)

def ifDone {α : Type} (done : Bool × Machine) (result : α) : Option α × Machine :=
  (if done.1 then some result else none,done.2)

def fillStack (m : Machine) (as : AddressSpace) (x : ExecArgs) (entry phdr phnum : Nat) :
    Option Stack × Machine :=
  let envs := sub64 userEndAddr (stringsSize x.envp)
  let args := sub64 envs (stringsSize x.argv)
  let execfn := sub64 args (x.path.length+1)
  let random := sub64 execfn 16
  let put := putTexts as x m envs args execfn random
  let v := x.argv.length::put.1.args ++ [0] ++ put.1.envs ++ [0] ++
    auxv x.ids entry phdr phnum random execfn
  let sp := sub64 random (8 * v.length) / 16 * 16
  ifDone (putVector as put.2 sp v) ⟨sp,args,put.1.argEnd⟩

def buildStack (m : Machine) (as : AddressSpace) (x : ExecArgs) (entry phdr phnum : Nat) :
    Option Stack × Machine :=
  let lo := userEndAddr-userStackSize
  match m.vmmAllocRange as lo userEndAddr userFlags with
  | (false,m) => (none,m)
  | (true,m) =>
    match m.kMalloc with
    | (false,m) => (none,m)
    | (true,m) =>
      if sub64 (sub64 userEndAddr (stringsSize x.argv)) (stringsSize x.envp) < lo + pageSize then (none,m)
      else m.fillStack as x entry phdr phnum

structure Image where
  as : AddressSpace
  entry : Nat
  stack : Stack

def loadImage (m : Machine) (img : List Byte) (x : ExecArgs) : Except Errno Image × Machine :=
  match m.kMalloc with
  | (false,m) => (.error .enomem,m)
  | (true,m) =>
    match m.vmmCreateAddressSpace with
    | (none,m) => (.error .enoexec,m)
    | (some as,m) =>
      match m.loadElf as img with
      | (none,m) => (.error .enoexec,m.vmmDestroyAddressSpace as)
      | (some l,m) =>
        match m.buildStack l.as x l.entry l.phdr l.phnum with
        | (none,m) => (.error .enoexec,m.vmmDestroyAddressSpace l.as)
        | (some stack,m) => (.ok ⟨l.as,l.entry,stack⟩,m)

def processExec (m : Machine) (img : List Byte) (x : ExecArgs) : Option Image × Machine :=
  match m.loadImage img x with
  | (.error _,m) => (none,m)
  | (.ok image,m) =>
    match m.kMalloc with
    | (false,m) => (none,m.vmmDestroyAddressSpace image.as)
    | (true,m) => (some image,m)

def processExecve (m : Machine) (old : AddressSpace) (img : List Byte) (x : ExecArgs) :
    Except Errno Image × Machine :=
  match m.loadImage img x with
  | (.error e,m) => (.error e,m)
  | (.ok image,m) => (.ok image,m.vmmDestroyAddressSpace old)

end Machine
end Miviex
