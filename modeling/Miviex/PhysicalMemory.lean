import Miviex.Bitmap
import Miviex.PageTable

/-! The physical allocator: a bitmap of frames, set up from the memory map of the boot loader. The
map has 64-bit fields; modules, the information structure and the image are described by 32-bit
numbers. -/
namespace Miviex

open Bitmap Machine

structure MapEntry where
  address : UInt64
  length : UInt64
  type : UInt32
  deriving DecidableEq, Repr

structure PhysRange where
  start : Nat
  stop : Nat
  deriving DecidableEq, Repr

/- `kernelStart` and `kernelEnd` are relative to KERNEL_BASE. -/
structure BootInfo where
  map : List MapEntry
  kernelStart : UInt32
  kernelEnd : UInt32
  infoAddr : UInt32
  infoSize : UInt32
  modules : List (UInt32 × UInt32)

def multibootMemoryAvailable : UInt32 := 1
def multibootMaxModules : Nat := 8
def pmmDirectMapEnd : Nat := 0x40000000
def pmmMaxReserved : Nat := 3+multibootMaxModules
def physAddrInvalid : Nat := 0

def MapEntry.available (e : MapEntry) : Bool := e.type == multibootMemoryAvailable

def MapEntry.start (e : MapEntry) : Nat := e.address.toNat

def MapEntry.stop (e : MapEntry) : Nat := (e.address.toNat+e.length.toNat) % 2^64

structure Pmm where
  bitmap : Option Bytes
  totalFrames : Nat
  usedFrames : Nat
  managedBytes : Nat
  bitmapPhys : Nat

namespace Pmm

def frameIndex (addr : Nat) : Nat := addr / pageSize

def frameInRange (s : Pmm) (addr : Nat) : Bool := addr < s.managedBytes && addr % pageSize == 0

/- The loops of `pmm_mark_used_range` and `pmm_mark_free_range` carry the bitmap and the
number of used frames. -/
def markUsed (marks : Bytes × Nat) (addr : Nat) : Bytes × Nat :=
  let frame := frameIndex addr
  if !test marks.1 frame then (set marks.1 frame,(marks.2+1) % 2^64) else marks

def markFree (marks : Bytes × Nat) (addr : Nat) : Bytes × Nat :=
  let frame := frameIndex addr
  if test marks.1 frame then (clear marks.1 frame,if marks.2 > 0 then marks.2 - 1 else marks.2) else marks

def pmmMarkUsedRange (managed : Nat) (marks : Bytes × Nat) (range : PhysRange) : Bytes × Nat :=
  let lo := alignDownPage range.start
  let hi := alignUpPage range.stop
  if range.stop ≤ range.start then marks
  else if lo ≥ managed then marks
  else (pages lo (if hi > managed then managed else hi)).foldl markUsed marks

def pmmMarkFreeRange (managed : Nat) (marks : Bytes × Nat) (range : PhysRange) : Bytes × Nat :=
  let lo := alignUpPage range.start
  let hi := alignDownPage range.stop
  if range.stop ≤ range.start then marks
  else if lo ≥ managed then marks
  else (pages lo (if hi > managed then managed else hi)).foldl markFree marks

def raiseLimit (limit : Nat) (e : MapEntry) : Nat :=
  if !e.available then limit
  else if e.start ≥ pmmDirectMapEnd then limit
  else
    let stop := if e.stop > pmmDirectMapEnd then pmmDirectMapEnd else e.stop
    if stop > limit then stop else limit

def computeManagedLimit (map : List MapEntry) : Nat := alignDownPage (map.foldl raiseLimit 0)

def addReserved (reserved : List PhysRange) (range : PhysRange) : List PhysRange :=
  if range.stop ≤ range.start ∨ reserved.length = pmmMaxReserved then reserved
  else reserved ++ [⟨alignDownPage range.start,alignUpPage range.stop⟩]

def reservedRanges (info : BootInfo) : List PhysRange :=
  [⟨0,0x100000⟩,⟨info.kernelStart.toNat,info.kernelEnd.toNat⟩,⟨info.infoAddr.toNat,info.infoAddr.toNat+info.infoSize.toNat⟩] ++
  (info.modules.take multibootMaxModules).map (fun m => ⟨m.1.toNat,m.2.toNat⟩)

def collectReserved (info : BootInfo) : List PhysRange := (reservedRanges info).foldl addReserved []

/- Moves `start` past the first reserved range it meets and looks again, as long as `len`
bytes fit; each range is passed at most once. -/
def settle (reserved : List PhysRange) (len stop : Nat) : Nat → Nat → Nat
  | 0, start => start
  | fuel + 1, start =>
    if (start+len) % 2^64 ≤ stop then
      match reserved.find? (fun r => decide (start < r.stop ∧ r.start < (start+len) % 2^64)) with
      | some r => settle reserved len stop fuel r.stop
      | none => start
    else start

def homeIn (managed : Nat) (reserved : List PhysRange) (len : Nat) (e : MapEntry) : Option Nat :=
  if !e.available then none
  else
    let stop := if alignDownPage e.stop > managed then managed else alignDownPage e.stop
    let start := settle reserved len stop (reserved.length+1) (alignUpPage e.start)
    if (start+len) % 2^64 ≤ stop then some start else none

def findBitmapHome (managed : Nat) (reserved : List PhysRange) (map : List MapEntry) (len : Nat) : Nat :=
  (map.findSome? (homeIn managed reserved len)).getD physAddrInvalid

def markMap (managed : Nat) (marks : Bytes × Nat) (e : MapEntry) : Bytes × Nat :=
  if !e.available then marks else pmmMarkFreeRange managed marks ⟨e.start,e.stop⟩

def bitmapLength (total : Nat) : Nat := ((total+7) / 8 + pageSize - 1) / pageSize * pageSize

def pmmInit (info : BootInfo) : Pmm :=
  let managed := computeManagedLimit info.map
  if managed < pageSize * 16 then ⟨none,0,0,managed,0⟩
  else
    let total := managed / pageSize
    let reserved := collectReserved info
    let home := findBitmapHome managed reserved info.map (bitmapLength total)
    if home = physAddrInvalid then ⟨none,0,0,managed,home⟩
    else
      let marks : Bytes × Nat := (fun _ => 0xFF,total)
      let marks := info.map.foldl (markMap managed) marks
      let marks := reserved.foldl (pmmMarkUsedRange managed) marks
      let marks := pmmMarkUsedRange managed marks ⟨home,home + bitmapLength total⟩
      ⟨some marks.1,total,marks.2,managed,home⟩

def pmmAllocPages (s : Pmm) (count : UInt64) : Nat × Pmm :=
  match s.bitmap with
  | none => (physAddrInvalid,s)
  | some b =>
    if count = 0 ∨ s.totalFrames = 0 then (physAddrInvalid,s)
    else if count.toNat > s.totalFrames then (physAddrInvalid,s)
    else
      match firstRun (fun frame => !test b frame) count.toNat (List.range' 0 s.totalFrames) 0 0 with
      | none => (physAddrInvalid,s)
      | some start => (start * pageSize,
          {s with
            bitmap := some (setAll b (List.range' start count.toNat))
            usedFrames := (s.usedFrames+count.toNat) % 2^64})

def pmmFreePages (s : Pmm) (page count : UInt64) : Pmm :=
  match s.bitmap with
  | none => s
  | some b =>
    let start := frameIndex page.toNat
    if count = 0 then s
    else if ¬ s.frameInRange page.toNat then s
    else if count.toNat > s.totalFrames ∨ (start+count.toNat) % 2^64 > s.totalFrames then s
    else if ¬ (List.range' start count.toNat).all (test b) then s
    else {s with
      bitmap := some (clearAll b (List.range' start count.toNat))
      usedFrames := (s.usedFrames+2^64-count.toNat) % 2^64}

end Pmm
end Miviex
