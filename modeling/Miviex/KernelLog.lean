import Mathlib.Tactic.IntervalCases
import Miviex.RingBuffer
import Miviex.Settings

/-! The kernel log as `log.c` keeps it: a ring that drops its oldest bytes. The `log` of a host is
what the ring holds. -/
namespace Miviex
open List ByteMemory

structure KernelLog where
  ring : Ring (BitVec 8) := ⟨fun _ => 0,0,0⟩
  consoleLevel : Int := 7
  savedLevel : Int := 7

namespace KernelLog

variable (l : KernelLog) (p : Caller) (a : Arguments)

def logPut (s : List (BitVec 8)) : KernelLog := {l with ring := (s.takeWhile (· != 0)).foldl (Ring.record logBuf) l.ring}

def clear : KernelLog := {l with ring := {l.ring with head := 0, len := 0}}

def newest (n : Nat) : List (BitVec 8) :=
  (range n).map (fun i => l.ring.buf ((l.ring.head+l.ring.len-n+i) % logBuf))

def finished (value : BitVec 64) : (BitVec 64 × UserSpace) × KernelLog := ((value,p.space),l)

def readLog (after : KernelLog) : (BitVec 64 × UserSpace) × KernelLog :=
  if a.a3.toInt < 0 then l.finished p Errno.einval.result
  else if ¬ p.space.ok a.a2 a.a3 true then l.finished p Errno.efault.result
  else
    let n := if a.a3.toNat < l.ring.len then a.a3.toNat else l.ring.len
    ((BitVec.ofNat 64 n,{p.space with bytes := storeBytes p.space.bytes a.a2 (l.newest n)}),after)

def sysSyslog : (BitVec 64 × UserSpace) × KernelLog :=
  if a.a1 ≠ 3 ∧ a.a1 ≠ 10 ∧ p.cred.euid ≠ 0 then l.finished p Errno.eperm.result
  else match a.a1.toNat with
    | 0 => l.finished p 0
    | 1 => l.finished p 0
    | 2 => l.readLog p a l
    | 3 => l.readLog p a l
    | 4 => l.readLog p a l.clear
    | 5 => l.clear.finished p 0
    | 6 => {l with savedLevel := l.consoleLevel, consoleLevel := 1}.finished p 0
    | 7 => {l with consoleLevel := l.savedLevel}.finished p 0
    | 8 =>
      if a.a3.toInt < 1 ∨ a.a3.toInt > 8 then l.finished p Errno.einval.result
      else {l with consoleLevel := a.a3.toInt}.finished p 0
    | 9 => l.finished p (BitVec.ofNat 64 l.ring.len)
    | 10 => l.finished p (BitVec.ofNat 64 logBuf)
    | _ => l.finished p Errno.einval.result

structure Shows {R : Type} (h : Host R) : Prop where
  log : h.log = l.ring.contents logBuf
  level : h.settings.consoleLevel = l.consoleLevel
  saved : h.settings.savedLevel = l.savedLevel

def Agrees {R : Type} (f : Finished R) (g : (BitVec 64 × UserSpace) × KernelLog) : Prop :=
  f.value = some g.1.1 ∧ f.space = g.1.2 ∧ g.2.Shows f.host

variable {l p a}

theorem newestDrop {n} (inside : n ≤ l.ring.len) : l.newest n = (l.ring.contents logBuf).drop (l.ring.len-n) := by
  unfold newest
  rw [← Ring.contentsDrop]
  unfold Ring.contents Ring.drop
  dsimp only
  rw [Nat.sub_sub_self inside]
  refine map_congr_left (fun i _ => ?_)
  rw [Nat.mod_add_mod,Nat.add_sub_assoc inside]

theorem readLogAgrees {R} {h : Host R} (same : l.Shows h) (clear : Bool) :
    Agrees (h.readLog p a clear) (l.readLog p a (if clear then l.clear else l)) := by
  have length : h.log.length = l.ring.len := by rw [same.log,Ring.contentsLength]
  unfold Host.readLog readLog
  split
  · exact ⟨rfl,rfl,same⟩
  split
  · exact ⟨rfl,rfl,same⟩
  have count : (if a.a3.toNat < l.ring.len then a.a3.toNat else l.ring.len) = min a.a3.toNat l.ring.len := by
    split <;> omega
  dsimp only
  rw [length,count,same.log,newestDrop (by omega)]
  refine ⟨rfl,rfl,?_⟩
  cases clear with
  | false => exact same
  | true => exact ⟨rfl,same.level,same.saved⟩

theorem syslogAgrees {R} {h : Host R} (same : l.Shows h) : Agrees (h.sysSyslog p a) (l.sysSyslog p a) := by
  have length : h.log.length = l.ring.len := by rw [same.log,Ring.contentsLength]
  unfold Host.sysSyslog sysSyslog
  split
  · exact ⟨rfl,rfl,same⟩
  generalize a.a1.toNat = action
  by_cases known : 11 ≤ action
  · obtain ⟨n,rfl⟩ := Nat.exists_eq_add_of_le' known
    exact ⟨rfl,rfl,same⟩
  interval_cases action
  · exact ⟨rfl,rfl,same⟩
  · exact ⟨rfl,rfl,same⟩
  · exact readLogAgrees same false
  · exact readLogAgrees same false
  · exact readLogAgrees same true
  · exact ⟨rfl,rfl,rfl,same.level,same.saved⟩
  · exact ⟨rfl,rfl,same.log,rfl,same.level⟩
  · exact ⟨rfl,rfl,same.log,same.saved,same.saved⟩
  · show Agrees (ite _ _ _) (ite _ _ _)
    split
    · exact ⟨rfl,rfl,same⟩
    · exact ⟨rfl,rfl,same.log,rfl,same.saved⟩
  · exact ⟨by rw [length]; rfl,rfl,same⟩
  · exact ⟨rfl,rfl,same⟩

/- A ring that goes round its end. -/
def wrapped : KernelLog := {ring := ⟨fun i => .ofNat 8 i,logBuf-6,100⟩}

def wrappedHost : Host Unit := {Host.sampleHost with log := wrapped.ring.contents logBuf}

theorem wrappedSyslog : (wrappedHost.sysSyslog Host.guest {a1 := 3, a3 := 50}).value = some 50 ∧
    Agrees (wrappedHost.sysSyslog Host.guest {a1 := 3, a3 := 50}) (wrapped.sysSyslog Host.guest {a1 := 3, a3 := 50}) := by
  have agrees := syslogAgrees (p := Host.guest) (a := {a1 := 3, a3 := 50}) (h := wrappedHost) (l := wrapped) ⟨rfl,rfl,rfl⟩
  exact ⟨agrees.1,agrees⟩

abbrev Clears (p : Caller) (a : Arguments) : Prop :=
  p.cred.euid = 0 ∧ (a.a1.toNat = 5 ∨ a.a1.toNat = 4 ∧ 0 ≤ a.a3.toInt ∧ p.space.ok a.a2 a.a3 true)

theorem syslogRing : (l.sysSyslog p a).2.ring = if Clears p a then l.clear.ring else l.ring := by
  unfold sysSyslog
  split
  · rename_i denied
    rw [if_neg (fun clears => denied.2.2 clears.1)]
    rfl
  split
  all_goals grind [readLog,finished]

inductive Event where
  | put (s : List (BitVec 8))
  | syslog (p : Caller) (a : Arguments)

/- The log beside all bytes logged since it was last cleared. -/
structure Journal where
  log : KernelLog := {}
  since : List (BitVec 8) := []

def Journal.step (j : Journal) : Event → Journal
  | .put s => ⟨j.log.logPut s,j.since ++ s.takeWhile (· != 0)⟩
  | .syslog p a => ⟨(j.log.sysSyslog p a).2,if Clears p a then [] else j.since⟩

def Journal.Newest (j : Journal) : Prop := j.log.ring.Newest logBuf j.since

theorem stepNewest {j : Journal} (newest : j.Newest) (e) : (j.step e).Newest := by
  cases e with
  | put s => exact Ring.Newest.recorded newest (by decide) _
  | syslog p a =>
    unfold Journal.Newest at *
    simp only [Journal.step,syslogRing]
    split
    · simp [Ring.Newest,Ring.contents,clear]
    · exact newest

/- The ring holds the newest bytes logged since the last clear, and `SYSLOG_ACTION_READ_ALL`
gives the end of them. -/
theorem logKeepsNewest (events : List Event) : let j := events.foldl Journal.step {}
    j.log.ring.len ≤ logBuf ∧ ∀ p a, a.a1 = 3 → j.log.sysSyslog p a =
      if a.a3.toInt < 0 then ((Errno.einval.result,p.space),j.log)
      else if ¬ p.space.ok a.a2 a.a3 true then ((Errno.efault.result,p.space),j.log)
      else
        let n := min a.a3.toNat (min j.since.length logBuf)
        ((BitVec.ofNat 64 n,{p.space with bytes := storeBytes p.space.bytes a.a2 (j.since.drop (j.since.length-n))}),j.log) := by
  intro j
  have newest : j.Newest := foldlRecOn (motive := Journal.Newest) events Journal.step rfl
    (fun _ newest e _ => stepNewest newest e)
  have length := Ring.Newest.length newest
  refine ⟨by omega,fun p a all => ?_⟩
  have count : (if a.a3.toNat < j.log.ring.len then a.a3.toNat else j.log.ring.len) =
      min a.a3.toNat (min j.since.length logBuf) := by split <;> omega
  have suffix : j.log.newest (min a.a3.toNat (min j.since.length logBuf)) =
      j.since.drop (j.since.length - min a.a3.toNat (min j.since.length logBuf)) := by
    rw [newestDrop (by omega),newest,drop_drop]
    congr 1
    omega
  unfold sysSyslog
  rw [all]
  change j.log.readLog p a j.log = _
  unfold readLog
  simp only [count,suffix,finished]

end KernelLog
end Miviex
