import Miviex.FlatMemory
import Miviex.PhysicalMemory
import Miviex.PointerChain
import Miviex.Runs

/-! The kernel heap: a list of blocks in address order, each with a header in front of its
payload, kept in the memory it manages. A loop over the list gives no answer where it would not
end. -/
namespace Miviex

open FlatMemory PointerChain Machine

def kernelBase : Nat := 0xFFFFFFFF80000000

def physToVirt (phys : Nat) : Nat := phys+kernelBase

def blockHeaderSize : Nat := 32
def heapAlign : Nat := 16
def minSplit : Nat := blockHeaderSize+heapAlign

section

variable (m : Memory)

def sizeAt (block : Nat) : Nat := (word m block).toNat
def nextAt (block : Nat) : Nat := (word m (block+8)).toNat
def isFreeAt (block : Nat) : Bool := m (block+16) != 0

def setSize (block size : Nat) : Memory := setWord m block (BitVec.ofNat 64 size)
def setNext (block next : Nat) : Memory := setWord m (block+8) (BitVec.ofNat 64 next)
def setIsFree (block : Nat) (free : Bool) : Memory :=
  Function.update m (block+16) (if free then 1 else 0)

end

def pointer (p : Nat) : Option Nat := if p = 0 then none else some p

def link (m : Memory) (block : Nat) : Option Nat := pointer (nextAt m block)

structure Heap where
  mem : Memory
  freeList : Nat

namespace Heap

/- More steps than there can be blocks in the memory of the allocator. -/
def walkLimit : Nat := pmmDirectMapEnd / blockHeaderSize

def adjacent (m : Memory) (a b : Nat) : Bool := a+blockHeaderSize + sizeAt m a == b

def absorb (m : Memory) (a b : Nat) : Memory :=
  let m := setSize m a (sizeAt m a + (sizeAt m b + blockHeaderSize))
  setNext m a (nextAt m b)

def kFindFreeBlock (h : Heap) (size : Nat) : Option (Option Nat) :=
  search (link h.mem) (fun b => isFreeAt h.mem b && decide (sizeAt h.mem b ≥ size)) walkLimit (pointer h.freeList)

def lastBelow (m : Memory) (block : Nat) : Nat → Nat → Option Nat
  | 0, _ => none
  | fuel + 1, current =>
    let next := nextAt m current
    if next ≠ 0 ∧ next < block then lastBelow m block fuel next else some current

def numPages (size : Nat) : Nat := (size+blockHeaderSize+pageSize-1) / pageSize

def kExpandHeap (h : Heap) (size phys : Nat) : Option (Nat × Heap) :=
  let block := physToVirt phys
  let m := setSize h.mem block (numPages size * pageSize - blockHeaderSize)
  let m := setIsFree m block false
  let m := setNext m block 0
  if h.freeList = 0 ∨ block < h.freeList then
    some (block,⟨setNext m block h.freeList,block⟩)
  else
    (lastBelow m block walkLimit h.freeList).map (fun current =>
      let m := setNext m block (nextAt m current)
      let m := setNext m current block
      if isFreeAt m current ∧ adjacent m current block then (current,⟨absorb m current block,h.freeList⟩)
      else (block,⟨m,h.freeList⟩))

def split (m : Memory) (block size : Nat) : Memory :=
  if sizeAt m block < size + minSplit then m
  else
    let rest := block+blockHeaderSize+size
    let m := setSize m rest (sizeAt m block - size - blockHeaderSize)
    let m := setIsFree m rest true
    let m := setNext m rest (nextAt m block)
    let m := setSize m block size
    setNext m block rest

def alignSize (size : Nat) : Nat := (size+heapAlign-1) % 2^64 / heapAlign * heapAlign

def claim (h : Heap) (block size : Nat) : Nat × Heap :=
  (block+blockHeaderSize,{h with mem := split (setIsFree h.mem block false) block size})

/- `answer` is what the physical allocator will say if it is asked; 0 is NULL. -/
def kMalloc (h : Heap) (size : Nat) (answer : Option Nat) : Option (Nat × Heap) :=
  if size = 0 then some (0,h)
  else
    (h.kFindFreeBlock (alignSize size)).bind (fun found =>
      match found,answer with
      | some block,_ => some (h.claim block (alignSize size))
      | none,none => some (0,h)
      | none,some phys => (h.kExpandHeap (alignSize size) phys).map (fun expanded =>
          expanded.2.claim expanded.1 (alignSize size)))

def mergeNext (m : Memory) (block : Nat) : Memory :=
  let next := nextAt m block
  if next ≠ 0 ∧ isFreeAt m next ∧ adjacent m block next then absorb m block next else m

def mergePrev (m : Memory) (prev block : Nat) : Memory :=
  if isFreeAt m prev ∧ adjacent m prev block then absorb m prev block else m

def kFree (h : Heap) (ptr : Nat) : Option Heap :=
  if ptr = 0 then some h
  else
    let block := ptr-blockHeaderSize
    let m := mergeNext (setIsFree h.mem block true) block
    (search (link m) (fun prev => nextAt m prev == block) walkLimit (pointer h.freeList)).map (fun found =>
      match found with
      | some prev => {h with mem := mergePrev m prev block}
      | none => {h with mem := m})

def kHeapInit (mem : Memory) (answer : Option Nat) : Heap :=
  match answer with
  | none => ⟨mem,0⟩
  | some phys =>
    let start := physToVirt phys
    let m := setSize mem start (pageSize-blockHeaderSize)
    let m := setIsFree m start true
    ⟨setNext m start 0,start⟩

end Heap

/- `runs` are the page runs the heap got, start and length in bytes; `out` the pointers
handed out and not yet freed, with the sizes asked for. -/
structure HeapUse where
  heap : Heap
  runs : List (Nat × Nat)
  out : List (Nat × Nat)

namespace HeapUse

inductive Event where
  | malloc (size : Nat) (answer : Option Nat)
  | free (ptr : Nat)
  | store (addr : Nat) (byte : BitVec 8)

def grants (runs : List (Nat × Nat)) (pages : Nat) (answer : Option Nat) : Bool :=
  match answer with
  | none => true
  | some phys => decide (phys ≠ 0 ∧ phys % pageSize = 0 ∧ phys + pages * pageSize ≤ pmmDirectMapEnd) &&
      runs.all (fun r => decide (physToVirt phys + pages * pageSize ≤ r.1 ∨ r.1 + r.2 ≤ physToVirt phys))

/- What the rest of the kernel may write: the payloads it holds, and memory that is not the
heap's. -/
def writable (s : HeapUse) (addr : Nat) : Bool :=
  s.out.any (fun p => decide (p.1 ≤ addr ∧ addr < p.1+p.2)) ||
    s.runs.all (fun r => decide (addr < r.1 ∨ r.1 + r.2 ≤ addr))

def allowed (s : HeapUse) : Event → Bool
  | .malloc size answer => decide (0 < size ∧ size < 2^32) &&
      grants s.runs (Heap.numPages (Heap.alignSize size)) answer
  | .free ptr => s.out.any (fun p => p.1 == ptr)
  | .store addr _ => s.writable addr

def taken (s : HeapUse) (size : Nat) (answer : Option Nat) : List (Nat × Nat) :=
  match s.heap.kFindFreeBlock (Heap.alignSize size), answer with
  | some none, some phys => [(physToVirt phys,Heap.numPages (Heap.alignSize size) * pageSize)]
  | _, _ => []

def perform (s : HeapUse) : Event → Option HeapUse
  | .malloc size answer => (s.heap.kMalloc size answer).map (fun result =>
      ⟨result.2,s.taken size answer ++ s.runs,if result.1 = 0 then s.out else (result.1,size)::s.out⟩)
  | .free ptr => (s.heap.kFree ptr).map (fun heap =>
      {s with heap := heap, out := s.out.filter (fun p => p.1 != ptr)})
  | .store addr byte => some {s with heap := {s.heap with mem := Function.update s.heap.mem addr byte}}

def step (s : HeapUse) (e : Event) : Option HeapUse := if s.allowed e then s.perform e else none

def start (mem : Memory) (answer : Option Nat) : HeapUse :=
  ⟨Heap.kHeapInit mem answer,(answer.map (fun phys => (physToVirt phys,pageSize))).toList,[]⟩

end HeapUse
end Miviex
