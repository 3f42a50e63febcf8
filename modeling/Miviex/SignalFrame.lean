import Miviex.ByteMemory
import Miviex.Process

/-! The register frame of a kernel entry and the record a caught signal leaves on the
user stack. Records are given as their words in memory order. -/
namespace Miviex
open ByteMemory

structure Registers where
  r15 : BitVec 64 := 0
  r14 : BitVec 64 := 0
  r13 : BitVec 64 := 0
  r12 : BitVec 64 := 0
  r11 : BitVec 64 := 0
  r10 : BitVec 64 := 0
  r9 : BitVec 64 := 0
  r8 : BitVec 64 := 0
  rbp : BitVec 64 := 0
  rdi : BitVec 64 := 0
  rsi : BitVec 64 := 0
  rdx : BitVec 64 := 0
  rcx : BitVec 64 := 0
  rbx : BitVec 64 := 0
  rax : BitVec 64 := 0
  intNo : BitVec 64 := 0
  errCode : BitVec 64 := 0
  rip : BitVec 64 := 0
  cs : BitVec 64 := 0
  rflags : BitVec 64 := 0
  rsp : BitVec 64 := 0
  ss : BitVec 64 := 0
  deriving DecidableEq, Repr

def userCodeSel : BitVec 64 := 0x23
def userDataSel : BitVec 64 := 0x1B

def userEnd : BitVec 64 := 0x00007FFFFFFFF000

/- `struct sigcontext`; its reserved words are never written nor read. -/
structure Sigcontext where
  r8 : BitVec 64
  r9 : BitVec 64
  r10 : BitVec 64
  r11 : BitVec 64
  r12 : BitVec 64
  r13 : BitVec 64
  r14 : BitVec 64
  r15 : BitVec 64
  rdi : BitVec 64
  rsi : BitVec 64
  rbp : BitVec 64
  rbx : BitVec 64
  rdx : BitVec 64
  rax : BitVec 64
  rcx : BitVec 64
  rsp : BitVec 64
  rip : BitVec 64
  eflags : BitVec 64
  cs : BitVec 16
  gs : BitVec 16 := 0
  fs : BitVec 16 := 0
  ss : BitVec 16
  err : BitVec 64 := 0
  trapno : BitVec 64 := 0
  oldmask : BitVec 64
  cr2 : BitVec 64 := 0
  fpstate : BitVec 64
  deriving DecidableEq, Repr

structure Ucontext where
  flags : BitVec 64 := 0
  link : BitVec 64 := 0
  ssSp : BitVec 64 := 0
  ssFlags : BitVec 64 := 0
  ssSize : BitVec 64 := 0
  mc : Sigcontext
  sigmask : BitVec 64
  deriving DecidableEq, Repr

structure Siginfo where
  signo : BitVec 32
  err : BitVec 32 := 0
  code : BitVec 32
  pid : BitVec 32 := 0
  uid : BitVec 32 := 0
  deriving DecidableEq, Repr

structure RtSigframe where
  pretcode : BitVec 64
  uc : Ucontext
  info : Siginfo
  deriving DecidableEq, Repr

def Sigcontext.words (c : Sigcontext) : List (BitVec 64) :=
  [c.r8,c.r9,c.r10,c.r11,c.r12,c.r13,c.r14,c.r15,c.rdi,c.rsi,c.rbp,c.rbx,c.rdx,c.rax,
    c.rcx,c.rsp,c.rip,c.eflags,c.ss ++ c.fs ++ c.gs ++ c.cs,c.err,c.trapno,c.oldmask,c.cr2,
    c.fpstate,0,0,0,0,0,0,0,0]

def Ucontext.words (u : Ucontext) : List (BitVec 64) :=
  [u.flags,u.link,u.ssSp,u.ssFlags,u.ssSize] ++ u.mc.words ++ [u.sigmask]

def Siginfo.words (i : Siginfo) : List (BitVec 64) :=
  [i.err ++ i.signo,(0 : BitVec 32) ++ i.code,i.uid ++ i.pid] ++ List.replicate 13 0

def RtSigframe.words (f : RtSigframe) : List (BitVec 64) :=
  f.pretcode::(f.uc.words ++ f.info.words)

def sizeofRtSigframe : Nat := 440
def sizeofUcontext : Nat := 304
def offsetofUc : BitVec 64 := 8
def offsetofInfo : BitVec 64 := 312

theorem frameSize (f : RtSigframe) : 8 * f.words.length = sizeofRtSigframe := rfl

def Ucontext.load (m : Memory) (a : BitVec 64) : Ucontext where
  flags := wordAt m a 0
  link := wordAt m a 1
  ssSp := wordAt m a 2
  ssFlags := wordAt m a 3
  ssSize := wordAt m a 4
  mc := {
    r8 := wordAt m a 5, r9 := wordAt m a 6, r10 := wordAt m a 7, r11 := wordAt m a 8
    r12 := wordAt m a 9, r13 := wordAt m a 10, r14 := wordAt m a 11, r15 := wordAt m a 12
    rdi := wordAt m a 13, rsi := wordAt m a 14, rbp := wordAt m a 15, rbx := wordAt m a 16
    rdx := wordAt m a 17, rax := wordAt m a 18, rcx := wordAt m a 19, rsp := wordAt m a 20
    rip := wordAt m a 21, eflags := wordAt m a 22
    cs := (wordAt m a 23).extractLsb' 0 16, gs := (wordAt m a 23).extractLsb' 16 16
    fs := (wordAt m a 23).extractLsb' 32 16, ss := (wordAt m a 23).extractLsb' 48 16
    err := wordAt m a 24, trapno := wordAt m a 25, oldmask := wordAt m a 26, cr2 := wordAt m a 27
    fpstate := wordAt m a 28 }
  sigmask := wordAt m a 37

theorem selectorsSplit (cs gs fs ss : BitVec 16) :
    (ss ++ fs ++ gs ++ cs).extractLsb' 0 16 = cs ∧ (ss ++ fs ++ gs ++ cs).extractLsb' 16 16 = gs ∧
    (ss ++ fs ++ gs ++ cs).extractLsb' 32 16 = fs ∧ (ss ++ fs ++ gs ++ cs).extractLsb' 48 16 = ss := by
  refine ⟨?_,?_,?_,?_⟩ <;>
  · apply BitVec.eq_of_getLsbD_eq
    intro i bound
    grind

theorem loadStoredFrame {m n sp} {f : RtSigframe} (same : ∀ j < sizeofRtSigframe, n (sp + BitVec.ofNat 64 j) =
    storeWords m sp f.words (sp + BitVec.ofNat 64 j)) : Ucontext.load n (sp+offsetofUc) = f.uc := by
  have word i (bound : i < 38) : wordAt n (sp+offsetofUc) i = (f.words[1+i]?).getD 0 := by
    have inside : 1+i < f.words.length := by
      have size := frameSize f
      unfold sizeofRtSigframe at size
      omega
    have shifted : wordAt n (sp+offsetofUc) i = wordAt n sp (1+i) := wordAtShift n sp 1 i
    have short : f.words.length ≤ 2^60 := by show 55 ≤ _; omega
    rw [shifted,wordAtCongr inside same,wordAtStored inside short,List.getElem?_eq_getElem inside]
    rfl
  obtain ⟨cs,gs,fs,ss⟩ := selectorsSplit f.uc.mc.cs f.uc.mc.gs f.uc.mc.fs f.uc.mc.ss
  have selectors : wordAt n (sp+offsetofUc) 23 = f.uc.mc.ss ++ f.uc.mc.fs ++ f.uc.mc.gs ++ f.uc.mc.cs := word 23 (by decide)
  unfold Ucontext.load
  rw [selectors,cs,gs,fs,ss]
  simp (disch := decide) only [word]
  rfl

end Miviex
