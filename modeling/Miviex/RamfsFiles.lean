import Miviex.Errno
import Miviex.PageTable

/-! The contents of ramfs files: a buffer of whole pages that grows, with the size in use, all
on 32 bits. A call answers none where the C code would leave the buffer. Next to it the array
that a file stands for. The times of an inode are left out. -/
namespace Miviex
open List Option Nat
namespace Ramfs

structure FileData where
  data : Option (List UInt8) := none
  size : Nat := 0
  capacity : Nat := 0

structure Node where
  directory : Bool := false
  ptr : Option FileData := none
  length : Nat := 0

def store (buffer : List UInt8) (start : Nat) (bytes : List UInt8) : Option (List UInt8) :=
  if start + bytes.length ≤ buffer.length
  then some (buffer.take start ++ bytes ++ buffer.drop (start+bytes.length)) else none

def clear (buffer : List UInt8) (start n : Nat) : Option (List UInt8) := store buffer start (replicate n 0)

def load (buffer : List UInt8) (start n : Nat) : Option (List UInt8) :=
  if start + n ≤ buffer.length then some ((buffer.drop start).take n) else none

/- What `k_malloc` has: room for the record, and for a buffer. It answers NULL for no bytes. -/
structure Room where
  record : Bool
  buffer : Bool

def capacityFor (size : Nat) : Nat := Machine.alignUpPage size % 2^32

def moved (fd : FileData) (cap : Nat) : Option (List UInt8) :=
  match fd.data with
  | none => some (replicate cap 0)
  | some old => (load old 0 fd.size).bind (fun bytes => store (replicate cap 0) 0 bytes)

def enlarge (node : Node) (fd : FileData) (size : Nat) (room : Room) : Option (Except Errno FileData × Node) :=
  if size ≤ fd.capacity then some (.ok fd,{node with ptr := some fd})
  else if ¬ room.buffer ∨ capacityFor size = 0 then some (.error .enomem,{node with ptr := some fd})
  else (moved fd (capacityFor size)).map (fun data =>
    let fd := {fd with data := some data, capacity := capacityFor size}
    (.ok fd,{node with ptr := some fd}))

def reserve (node : Node) (size : Nat) (room : Room) : Option (Except Errno FileData × Node) :=
  match node.ptr with
  | some fd => enlarge node fd size room
  | none => if ¬ room.record then some (.error .enomem,node) else enlarge node {} size room

def ramfsRead (node : Node) (offset size : Nat) : Option (Except Errno (List UInt8)) :=
  if node.directory then some (.error .eisdir)
  else match node.ptr with
    | none => some (.ok [])
    | some fd =>
      if offset ≥ fd.size then some (.ok [])
      else fd.data.bind (fun data => (load data offset (min size (fd.size-offset))).map .ok)

def ramfsWrite (node : Node) (offset : Nat) (bytes : List UInt8) (room : Room) : Option (Except Errno Nat × Node) :=
  let stop := (offset+bytes.length) % 2^32
  if node.directory then some (.error .eisdir,node)
  else if stop < offset then some (.error .einval,node)
  else (reserve node stop room).bind (fun (reserved,node) =>
    match reserved with
    | .error e => some (.error e,node)
    | .ok fd => fd.data.bind (fun data =>
        (if offset > fd.size then clear data fd.size (offset-fd.size) else some data).bind (fun data =>
          (store data offset bytes).map (fun data =>
            let size := if stop > fd.size then stop else fd.size
            (.ok bytes.length,{node with ptr := some {fd with data := some data, size := size}, length := size})))))

def ramfsTruncate (node : Node) (length : Nat) (room : Room) : Option (Except Errno Unit × Node) :=
  (reserve node length room).bind (fun (reserved,node) =>
    match reserved with
    | .error e => some (.error e,node)
    | .ok fd =>
      (if length < fd.size then fd.data.bind (fun data => (clear data length (fd.size-length)).map some)
        else some fd.data).map (fun data =>
          (.ok (),{node with ptr := some {fd with data := data, size := length}, length := length})))

inductive Op where
  | read (offset size : Nat)
  | write (offset : Nat) (bytes : List UInt8) (room : Room)
  | truncate (length : Nat) (room : Room)

inductive Answer where
  | data (bytes : List UInt8)
  | number (n : Nat)
  | failed (e : Errno)
  deriving DecidableEq

def apply (node : Node) : Op → Option (Answer × Node)
  | .read offset size => (ramfsRead node offset size).map (fun result =>
      (match result with | .ok bytes => .data bytes | .error e => .failed e,node))
  | .write offset bytes room => (ramfsWrite node offset bytes room).map (fun (result,node) =>
      (match result with | .ok n => .number n | .error e => .failed e,node))
  | .truncate length room => (ramfsTruncate node length room).map (fun (result,node) =>
      (match result with | .ok _ => .number 0 | .error e => .failed e,node))

/- The arguments have 32 bits, and a write has something to write. -/
def Op.Proper : Op → Prop
  | .read offset size => offset < 2^32 ∧ size < 2^32
  | .write offset bytes _ => offset < 2^32 ∧ bytes ≠ [] ∧ bytes.length < 2^32
  | .truncate length _ => length < 2^32

/- The array: what lies beyond its end reads as zero once it is extended. -/
def resize (a : List UInt8) (n : Nat) : List UInt8 := a.take n ++ replicate (n-a.length) 0

def overwrite (a : List UInt8) (offset : Nat) (bytes : List UInt8) : List UInt8 :=
  resize a offset ++ bytes ++ a.drop (offset+bytes.length)

/- There is no memory for an array of `n` bytes, or none for any as long as that. -/
def Scarce (n : Nat) (room : Room) : Prop := ¬ room.record ∨ ¬ room.buffer ∨ 2^32 - pageSize < n

inductive Ideal (a : List UInt8) : Op → Answer → List UInt8 → Prop where
  | read {offset size} : Ideal a (.read offset size) (.data ((a.drop offset).take size)) a
  | written {offset bytes room} (fits : offset+bytes.length < 2^32) :
      Ideal a (.write offset bytes room) (.number bytes.length) (overwrite a offset bytes)
  | tooLong {offset bytes room} (long : 2^32 ≤ offset+bytes.length) :
      Ideal a (.write offset bytes room) (.failed .einval) a
  | unwritten {offset bytes room} (scarce : Scarce (offset+bytes.length) room) :
      Ideal a (.write offset bytes room) (.failed .enomem) a
  | resized {length room} : Ideal a (.truncate length room) (.number 0) (resize a length)
  | unresized {length room} (scarce : Scarce length room) : Ideal a (.truncate length room) (.failed .enomem) a

def run (node : Node) : List Op → Option (List Answer × Node)
  | [] => some ([],node)
  | op::ops => (apply node op).bind (fun (answer,after) => (run after ops).map (fun (answers,last) => (answer::answers,last)))

inductive IdealRun : List UInt8 → List Op → List Answer → List UInt8 → Prop where
  | nil {a} : IdealRun a [] [] a
  | cons {a b c op ops answer answers} (first : Ideal a op answer b) (later : IdealRun b ops answers c) :
      IdealRun a (op::ops) (answer::answers) c

structure FileData.Holds (fd : FileData) (a : List UInt8) : Prop where
  size : fd.size = a.length
  within : fd.size ≤ fd.capacity
  data : fd.data.getD [] = a ++ replicate (fd.capacity-fd.size) 0

structure Node.Holds (node : Node) (a : List UInt8) : Prop where
  file : node.directory = false
  length : node.length = a.length
  short : a.length < 2^32
  data : ∀ fd, node.ptr = some fd → fd.Holds a
  unused : node.ptr = none → a = []

variable {a bytes : List UInt8} {node : Node} {fd : FileData} {room : Room} {size offset k m : Nat}

theorem capacityEnough (bound : size < 2^32) (some : capacityFor size ≠ 0) : size ≤ capacityFor size := by
  unfold capacityFor Machine.alignUpPage pageSize at *
  omega

theorem capacityWraps (bound : size < 2^32) (used : 0 < size) (wraps : capacityFor size = 0) : 2^32 - pageSize < size := by
  unfold capacityFor Machine.alignUpPage pageSize at *
  omega

theorem storeInside {buffer} (inside : m+bytes.length ≤ buffer.length) :
    store buffer m bytes = some (buffer.take m ++ bytes ++ buffer.drop (m+bytes.length)) := if_pos inside

theorem takePadded (inside : m ≤ a.length+k) : (a ++ replicate k 0).take m = resize a m := by
  rw [resize,take_append,take_replicate,min_eq_left (by omega)]

theorem dropPadded : (a ++ replicate k (0 : UInt8)).drop m = a.drop m ++ replicate (k - (m-a.length)) 0 := by
  rw [drop_append,drop_replicate]

theorem resizeLength : (resize a m).length = m := by
  simp only [resize,length_append,length_take,length_replicate]
  omega

theorem overwriteLength (a offset bytes) : (overwrite a offset bytes).length = max a.length (offset+bytes.length) := by
  simp only [overwrite,length_append,resizeLength,length_drop]
  omega

theorem FileData.Holds.buffer (holds : fd.Holds a) (used : 0 < fd.capacity) :
    fd.data = some (a ++ replicate (fd.capacity-a.length) 0) := by
  have data := holds.data
  rw [holds.size] at data
  cases here : fd.data with
  | some buffer =>
    rw [here,getD_some] at data
    rw [data]
  | none =>
    rw [here] at data
    have lengths := congrArg List.length data
    simp only [getD_none,length_nil,length_append,length_replicate] at lengths
    omega

theorem movedHolds (holds : fd.Holds a) (larger : fd.size ≤ m) : moved fd m = some (a ++ replicate (m-a.length) 0) := by
  have size := holds.size
  unfold moved
  cases here : fd.data with
  | none =>
    have data := holds.data
    rw [here,getD_none,eq_comm,append_eq_nil_iff] at data
    rw [data.1]
    rfl
  | some old =>
  have data := holds.data
  rw [here,getD_some,size] at data
  have loaded : load old 0 fd.size = some a := by
    rw [load,if_pos (by simp [data,size]),data,size]
    simp
  dsimp only
  rw [loaded,bind_some,storeInside (by simp; omega)]
  simp

theorem enlargeHolds (node room) (holds : fd.Holds a) (bound : size < 2^32) :
    (enlarge node fd size room = some (.error .enomem,{node with ptr := some fd}) ∧
    (¬ room.buffer ∨ 2^32 - pageSize < size)) ∨
    ∃ grown, enlarge node fd size room = some (.ok grown,{node with ptr := some grown}) ∧ grown.Holds a ∧
    size ≤ grown.capacity := by
  unfold enlarge
  split
  · rename_i fits
    exact .inr ⟨fd,rfl,holds,fits⟩
  rename_i small
  split
  · rename_i scarce
    exact .inl ⟨rfl,scarce.imp_right (capacityWraps bound (by omega))⟩
  rename_i ample
  have enough := capacityEnough bound (fun none => ample (.inr none))
  have larger : fd.size ≤ capacityFor size := holds.within.trans (by omega)
  rw [movedHolds holds larger]
  exact .inr ⟨_,rfl,⟨holds.size,larger,by simp only [getD_some,holds.size]⟩,enough⟩

theorem reserveHolds (size room) (holds : node.Holds a) (bound : size < 2^32) :
    ∃ result after, reserve node size room = some (result,after) ∧ after.Holds a ∧ (result = .error .enomem ∧ Scarce size room ∨
    ∃ fd, result = .ok fd ∧ after.ptr = some fd ∧ fd.Holds a ∧ size ≤ fd.capacity) := by
  have keeps : ∀ fd, fd.Holds a → Node.Holds {node with ptr := some fd} a := by
    intro fd inside
    exact ⟨holds.file,holds.length,holds.short,fun fd' same => by cases same; exact inside,nofun⟩
  have grows fd (inside : fd.Holds a) : ∃ result after, enlarge node fd size room = some (result,after) ∧ after.Holds a ∧
      (result = .error .enomem ∧ Scarce size room ∨
        ∃ fd, result = .ok fd ∧ after.ptr = some fd ∧ fd.Holds a ∧ size ≤ fd.capacity) := by
    obtain ⟨fails,scarce⟩ | ⟨grown,done,held,enough⟩ := enlargeHolds node room inside bound
    · exact ⟨_,_,fails,keeps fd inside,.inl ⟨rfl,.inr scarce⟩⟩
    · exact ⟨_,_,done,keeps grown held,.inr ⟨grown,rfl,rfl,held,enough⟩⟩
  unfold reserve
  cases here : node.ptr with
  | some fd => exact grows fd (holds.data fd here)
  | none =>
    dsimp only
    split
    · rename_i scarce
      exact ⟨_,_,rfl,holds,.inl ⟨rfl,.inl scarce⟩⟩
    have empty := holds.unused here
    exact grows {} (by rw [empty]; exact ⟨rfl,le_refl 0,rfl⟩)

theorem wroteHolds (node : Node) (offset bytes) {stop} (inside : fd.Holds a) (room : stop ≤ fd.capacity)
    (end_ : stop = offset+bytes.length)
    (short : stop < 2^32) (some_ : 0 < stop) (bound : a.length < 2^32) (file : node.directory = false) :
    ∃ data, fd.data = some data ∧ ∃ filled,
      (if offset > fd.size then clear data fd.size (offset-fd.size) else some data) = some filled ∧
      ∃ written, store filled offset bytes = some written ∧ Node.Holds {node with
          ptr := some {fd with data := some written, size := if stop > fd.size then stop else fd.size}
          length := if stop > fd.size then stop else fd.size} (overwrite a offset bytes) := by
  have shape := inside.size
  have within := inside.within
  have buffer := inside.buffer (by omega)
  have padded : (if offset > fd.size then clear (a ++ replicate (fd.capacity-a.length) 0) fd.size (offset-fd.size)
      else some (a ++ replicate (fd.capacity-a.length) 0)) = some (a ++ replicate (fd.capacity-a.length) 0) := by
    split
    · rw [clear,storeInside (by simp; omega),dropPadded,shape,take_left,append_assoc]
      simp only [length_replicate,drop_eq_nil_of_le (le_add_right a.length _),nil_append]
      rw [← replicate_add]
      congr 3
      omega
    · rfl
  refine ⟨_,buffer,_,padded,_,storeInside (by simp; omega),?_⟩
  have size : (if stop > fd.size then stop else fd.size) = (overwrite a offset bytes).length := by
    rw [overwriteLength]
    split <;> omega
  rw [size]
  have length := overwriteLength a offset bytes
  refine ⟨file,rfl,by omega,?_,nofun⟩
  intro fd' same
  cases same
  refine ⟨rfl,by dsimp only; omega,?_⟩
  rw [getD_some,takePadded (by omega),dropPadded,overwrite,append_assoc,append_assoc,append_assoc]
  congr 3
  congr 1
  rw [← overwrite.eq_def]
  dsimp only
  omega

section

variable (holds : node.Holds a)
include holds

theorem readIdeal : ramfsRead node offset size = some (.ok ((a.drop offset).take size)) := by
  simp only [ramfsRead,holds.file,Bool.false_eq_true,if_false]
  cases here : node.ptr with
  | none => simp [holds.unused here]
  | some fd =>
  have inside := holds.data fd here
  dsimp only
  split
  · rename_i beyond
    rw [drop_eq_nil_of_le (by have := inside.size; omega),take_nil]
  rename_i before
  have shape := inside.size
  rw [inside.buffer (by have := inside.within; omega),bind_some,load,if_pos (by simp; omega),dropPadded]
  simp only [map_some]
  rw [take_append_of_le_length (by simp; omega),take_eq_take_iff.mpr]
  simp [shape]

theorem writeIdeal (proper : (Op.write offset bytes room).Proper) :
    ∃ answer after b, apply node (.write offset bytes room) = some (answer,after) ∧
    Ideal a (.write offset bytes room) answer b ∧ after.Holds b := by
  obtain ⟨low,some_,few⟩ := proper
  have used := length_pos_iff.mpr some_
  simp only [apply,ramfsWrite,holds.file,Bool.false_eq_true,if_false]
  split
  · rename_i wraps
    exact ⟨_,_,a,rfl,.tooLong (by omega),holds⟩
  rename_i fits
  obtain ⟨result,after,reserved,held,⟨rfl,scarce⟩ | ⟨fd,rfl,here,inside,enough⟩⟩ :=
    reserveHolds ((offset+bytes.length) % 2^32) room holds (by omega)
  · rw [reserved]
    refine ⟨_,_,a,rfl,.unwritten ?_,held⟩
    rwa [mod_eq_of_lt (by omega)] at scarce
  obtain ⟨data,one,filled,two,written,three,last⟩ := wroteHolds after offset bytes inside enough (by omega) (by omega) (by omega)
    held.short held.file
  rw [reserved]
  simp only [bind_some,one,two,three,map_some]
  exact ⟨_,_,_,rfl,.written (by omega),last⟩

theorem truncateIdeal {length} (proper : (Op.truncate length room).Proper) :
    ∃ answer after b, apply node (.truncate length room) = some (answer,after) ∧
    Ideal a (.truncate length room) answer b ∧ after.Holds b := by
  simp only [apply,ramfsTruncate]
  obtain ⟨result,after,reserved,held,⟨rfl,scarce⟩ | ⟨fd,rfl,here,inside,enough⟩⟩ :=
    reserveHolds length room holds proper
  · rw [reserved]
    exact ⟨_,_,a,rfl,.unresized scarce,held⟩
  have shape := inside.size
  have within := inside.within
  have cut : ∃ data, (if length < fd.size then fd.data.bind (fun data => (clear data length (fd.size-length)).map some)
      else some fd.data) = some data ∧ data.getD [] = resize a length ++ replicate (fd.capacity-length) 0 := by
    split
    · rw [inside.buffer (by omega),bind_some,clear,storeInside (by simp; omega),takePadded (by omega),dropPadded]
      refine ⟨_,rfl,?_⟩
      rw [getD_some,append_assoc,drop_eq_nil_of_le (by simp; omega),nil_append,← replicate_add]
      congr 2
      simp only [length_replicate]
      omega
    refine ⟨_,rfl,?_⟩
    rw [inside.data,resize,take_of_length_le (by omega),append_assoc,← replicate_add]
    congr 2
    omega
  obtain ⟨data,done,shown⟩ := cut
  rw [reserved]
  simp only [bind_some,done,map_some]
  refine ⟨_,_,_,rfl,.resized,held.file,resizeLength.symm,?_,?_,nofun⟩
  · rw [resizeLength]
    exact proper
  intro fd' same
  cases same
  exact ⟨resizeLength.symm,enough,shown⟩

theorem applyIdeal {op} (proper : op.Proper) :
    ∃ answer after b, apply node op = some (answer,after) ∧ Ideal a op answer b ∧ after.Holds b := by
  cases op with
  | read offset size =>
    refine ⟨_,_,a,?_,.read,holds⟩
    rw [apply,readIdeal holds]
    rfl
  | write offset bytes room => exact writeIdeal holds proper
  | truncate length room => exact truncateIdeal holds proper

end

theorem runIdeal (node) (ops : List Op) (proper : ∀ op ∈ ops, op.Proper) (holds : node.Holds a) :
    ∃ answers last b, run node ops = some (answers,last) ∧ IdealRun a ops answers b ∧ last.Holds b := by
  induction ops generalizing node a with
  | nil => exact ⟨[],node,a,rfl,.nil,holds⟩
  | cons op ops later =>
    obtain ⟨answer,after,b,done,ideal,held⟩ := applyIdeal holds (proper op mem_cons_self)
    obtain ⟨answers,last,c,rest,ideals,end_⟩ := later _ (fun op member => proper op (mem_cons_of_mem _ member)) held
    refine ⟨answer::answers,last,c,?_,.cons ideal ideals,end_⟩
    simp only [run,done,bind_some,rest,map_some]

theorem filesAreArrays (ops : List Op) (proper : ∀ op ∈ ops, op.Proper) :
    ∃ answers last a, run {} ops = some (answers,last) ∧ IdealRun [] ops answers a ∧ last.length = a.length ∧
    ∀ fd, last.ptr = some fd → fd.size = a.length ∧ fd.size ≤ fd.capacity ∧
    fd.data.getD [] = a ++ replicate (fd.capacity-fd.size) 0 := by
  obtain ⟨answers,last,a,done,ideal,held⟩ := runIdeal {} ops proper ⟨rfl,rfl,by decide,nofun,fun _ => rfl⟩
  exact ⟨answers,last,a,done,ideal,held.length,fun fd here =>
    ⟨(held.data fd here).size,(held.data fd here).within,(held.data fd here).data⟩⟩

theorem shrunkAndExtended : ∃ answers last a, run {} [.write 1 [7,8] ⟨true,true⟩,.truncate 2 ⟨true,true⟩,
    .truncate 4 ⟨true,true⟩,.read 0 9] = some (answers,last) ∧
    IdealRun [] [.write 1 [7,8] ⟨true,true⟩,.truncate 2 ⟨true,true⟩,.truncate 4 ⟨true,true⟩,.read 0 9] answers a ∧
    last.length = a.length ∧ ∀ fd, last.ptr = some fd → fd.size = a.length ∧ fd.size ≤ fd.capacity ∧
    fd.data.getD [] = a ++ replicate (fd.capacity-fd.size) 0 :=
  filesAreArrays _ (by simp [Op.Proper])

end Ramfs
end Miviex
