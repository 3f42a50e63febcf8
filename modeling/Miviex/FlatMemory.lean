import Miviex.ByteMemory

/-! A byte memory whose addresses are numbers, with little-endian words in it. -/
namespace Miviex.FlatMemory

open ByteMemory (byteOf bytesJoin)

abbrev Memory := Nat → BitVec 8

def word (m : Memory) (a : Nat) : BitVec 64 :=
  m (a+7) ++ m (a+6) ++ m (a+5) ++ m (a+4) ++ m (a+3) ++ m (a+2) ++ m (a+1) ++ m a

def setWord (m : Memory) (a : Nat) (w : BitVec 64) : Memory := fun x =>
  if a ≤ x ∧ x < a + 8 then byteOf w (x-a) else m x

theorem setWordOther {m a x} (w) (outside : x < a ∨ a + 8 ≤ x) : setWord m a w x = m x := by
  unfold setWord
  rw [if_neg (by omega)]

theorem setWordByte (m a w) {i} (inside : i < 8) : setWord m a w (a+i) = byteOf w i := by
  unfold setWord
  rw [if_pos (by omega),Nat.add_sub_cancel_left]

theorem wordSet (m a w) : word (setWord m a w) a = w := by
  have zero : setWord m a w a = byteOf w 0 := @setWordByte m a w 0 (by decide)
  unfold word
  rw [setWordByte m a w (by decide),setWordByte m a w (by decide),setWordByte m a w (by decide),
    setWordByte m a w (by decide),setWordByte m a w (by decide),setWordByte m a w (by decide),
    setWordByte m a w (by decide),zero]
  exact bytesJoin w

theorem wordCongr {m n a} (same : ∀ x, a ≤ x → x < a+8 → n x = m x) : word n a = word m a := by
  unfold word
  rw [same (a+7) (by omega) (by omega),same (a+6) (by omega) (by omega),same (a+5) (by omega) (by omega),
    same (a+4) (by omega) (by omega),same (a+3) (by omega) (by omega),same (a+2) (by omega) (by omega),
    same (a+1) (by omega) (by omega),same a (by omega) (by omega)]

end Miviex.FlatMemory
