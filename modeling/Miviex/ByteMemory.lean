import Mathlib.Data.BitVec
import Mathlib.Data.List.Basic

/-! A flat byte memory with 64-bit addresses that wrap, and little-endian words in it.
A record is stored as the list of its words. -/
namespace Miviex.ByteMemory
open BitVec

abbrev Memory := BitVec 64 → BitVec 8

def byteOf (w : BitVec 64) (i : Nat) : BitVec 8 := w.extractLsb' (8 * i) 8

section

variable (m : Memory) (a : BitVec 64)

def loadWord : BitVec 64 :=
  m (a+7) ++ m (a+6) ++ m (a+5) ++ m (a+4) ++ m (a+3) ++ m (a+2) ++ m (a+1) ++ m a

def storeWords (ws : List (BitVec 64)) : Memory := fun x =>
  match ws[(x-a).toNat / 8]? with
  | some w => byteOf w ((x-a).toNat % 8)
  | none => m x

def loadBytes (n : Nat) : List (BitVec 8) :=
  (List.range n).map (fun i => m (a + BitVec.ofNat 64 i))

def storeBytes (bs : List (BitVec 8)) : Memory := fun x =>
  match bs[(x-a).toNat]? with
  | some b => b
  | none => m x

def load32 : BitVec 32 := m (a+3) ++ m (a+2) ++ m (a+1) ++ m a

def wordAt (i : Nat) : BitVec 64 := loadWord m (a + BitVec.ofNat 64 (8 * i))

end

theorem bytesJoin (w) : byteOf w 7 ++ byteOf w 6 ++ byteOf w 5 ++ byteOf w 4 ++ byteOf w 3 ++ byteOf w 2 ++ byteOf w 1 ++
    byteOf w 0 = w := by
  unfold byteOf
  repeat rw [BitVec.extractLsb'_append_extractLsb'_eq_extractLsb' (by rfl)]
  exact BitVec.extractLsb'_eq_self

theorem addressOffset (a) {n} (bound : n < 2^64) : (a + BitVec.ofNat 64 n - a).toNat = n := by
  have same : a + BitVec.ofNat 64 n - a = BitVec.ofNat 64 n := by rw [add_comm,add_sub_cancel]
  rw [same,toNat_ofNat]
  exact Nat.mod_eq_of_lt bound

variable {m : Memory} {a : BitVec 64} {i : Nat}

theorem storedByte {ws j} (inside : i < ws.length) (short : ws.length ≤ 2^60) (byte : j < 8) :
    storeWords m a ws (a + BitVec.ofNat 64 (8 * i + j)) = byteOf ws[i] j := by
  have index : (8 * i + j) / 8 = i := by omega
  have rest : (8 * i + j) % 8 = j := by omega
  unfold storeWords
  rw [addressOffset a (by omega),index,rest,List.getElem?_eq_getElem inside]

theorem wordAtSum (m a i) : wordAt m a i = m (a + BitVec.ofNat 64 (8 * i + 7)) ++ m (a + BitVec.ofNat 64 (8 * i + 6)) ++
    m (a + BitVec.ofNat 64 (8 * i + 5)) ++ m (a + BitVec.ofNat 64 (8 * i + 4)) ++
    m (a + BitVec.ofNat 64 (8 * i + 3)) ++ m (a + BitVec.ofNat 64 (8 * i + 2)) ++
    m (a + BitVec.ofNat 64 (8 * i + 1)) ++ m (a + BitVec.ofNat 64 (8 * i + 0)) := by
  have base : BitVec.ofNat 64 (8 * i) = BitVec.ofNat 64 (8 * i) + 0#64 := by simp
  simp only [wordAt,loadWord,ofNat_add,add_assoc]
  rw [← base]
  rfl

theorem wordAtStored {ws} (inside : i < ws.length) (short : ws.length ≤ 2^60) : wordAt (storeWords m a ws) a i = ws[i] := by
  rw [wordAtSum]
  repeat rw [storedByte inside short (by omega)]
  exact bytesJoin ws[i]

theorem wordAtCongr {n length} (inside : i < length)
    (same : ∀ j < 8 * length, n (a + BitVec.ofNat 64 j) = m (a + BitVec.ofNat 64 j)) : wordAt n a i = wordAt m a i := by
  rw [wordAtSum,wordAtSum]
  repeat rw [same _ (by omega)]

theorem wordAtShift (m a k i) : wordAt m (a + BitVec.ofNat 64 (8 * k)) i = wordAt m a (k+i) := by
  simp only [wordAt,Nat.mul_add,ofNat_add,add_assoc]

end Miviex.ByteMemory
