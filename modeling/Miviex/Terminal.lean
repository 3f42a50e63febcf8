import Miviex.Process
import Miviex.Errno

/-! A terminal: the line discipline of `tty.c` in front of one output device. The ring of
bytes that are ready to be read is a list with its head first; `out` is everything that
was put on the device. -/
namespace Miviex

def ttyBuf : Nat := 1024

def icrnl : BitVec 32 := 0x100
def opost : BitVec 32 := 0x1
def onlcr : BitVec 32 := 0x4
def isig : BitVec 32 := 0x1
def icanon : BitVec 32 := 0x2
def echoBit : BitVec 32 := 0x8
def echoE : BitVec 32 := 0x10
def echoK : BitVec 32 := 0x20
def iexten : BitVec 32 := 0x8000

def vintr : Nat := 0
def vquit : Nat := 1
def verase : Nat := 2
def vkill : Nat := 3
def veof : Nat := 4
def vmin : Nat := 6
def vsusp : Nat := 10

def sigHup : Nat := 1
def sigInt : Nat := 2
def sigQuit : Nat := 3

structure Termios where
  iflag : BitVec 32
  oflag : BitVec 32
  cflag : BitVec 32
  lflag : BitVec 32
  line : UInt8
  cc : Nat → UInt8

def sane : Termios where
  iflag := icrnl
  oflag := opost ||| onlcr
  cflag := 0xF ||| 0x30 ||| 0x80
  lflag := isig ||| icanon ||| echoBit ||| echoE ||| echoK ||| iexten
  line := 0
  cc
    | 0 => 3
    | 1 => 0x1C
    | 2 => 0x7F
    | 3 => 0x15
    | 4 => 4
    | 6 => 1
    | 10 => 0x1A
    | _ => 0

structure Tty where
  t : Termios := sane
  line : List UInt8 := []
  input : List UInt8 := []
  eof : UInt32 := 0
  sid : UInt32 := 0
  pgrp : UInt32 := 0
  rows : UInt16 := 25
  cols : UInt16 := 80
  out : List UInt8 := []

namespace Tty

section

variable (x : Tty)

def mode (bits : BitVec 32) : Bool := x.t.lflag &&& bits == bits

def output (c : UInt8) : Tty :=
  if x.t.oflag &&& (opost ||| onlcr) = opost ||| onlcr ∧ c = 10 then {x with out := x.out ++ [13,c]}
  else {x with out := x.out ++ [c]}

def echo (c : UInt8) : Tty :=
  if ¬ x.mode echoBit then x
  else if c < 32 ∧ c ≠ 10 ∧ c ≠ 9 then (x.output 94).output (c+64)
  else x.output c

def queue (s : List UInt8) : Tty :=
  {x with input := x.input ++ s.take (ttyBuf-x.input.length)}

def flushInput : Tty := {x with input := [], line := [], eof := 0}

/- The typed character is a signed `char`: above 127 it equals no control character. -/
def isCc (i : Nat) (c : UInt8) : Bool := c < 128 && c == x.t.cc i

def signalOf (c : UInt8) : Option Nat :=
  if ¬ x.mode isig then none
  else if x.isCc vintr c then some sigInt
  else if x.isCc vquit c then some sigQuit
  else if x.isCc vsusp c then some sigTstp
  else none

def rubout : Tty := ((x.output 8).output 32).output 8

def submit : Tty := {x.queue x.line with line := []}

def append (c : UInt8) : Tty :=
  if x.line.length < ttyBuf-1 ∨ c = 10 then {x with line := x.line ++ [c]}.echo c else x

def receive (c : UInt8) : Tty × Bool :=
  if ¬ x.mode icanon then ((x.echo c).queue [c],true)
  else if x.isCc verase c ∨ c = 8 then
    if x.line = [] then (x,false)
    else
      let x := {x with line := x.line.dropLast}
      (if x.mode (echoBit ||| echoE) then x.rubout else x,false)
  else if x.isCc vkill c then
    ({(if x.mode echoBit then x.line.foldl (fun x _ => x.rubout) x else x) with line := []},false)
  else if x.isCc veof c then
    (if x.line = [] then {x with eof := x.eof + 1} else x.submit,true)
  else if c = 10 then ((x.append c).submit,true)
  else (x.append c,false)

end

def takeInput (canon : Bool) : Nat → List UInt8 → List UInt8 × List UInt8
  | 0, input => ([],input)
  | _, [] => ([],[])
  | n + 1, c::rest =>
    if canon ∧ c = 10 then ([c],rest)
    else (c::(takeInput canon n rest).1,(takeInput canon n rest).2)

def read (x : Tty) (n : Nat) : Option (List UInt8 × Tty) :=
  let canon := x.mode icanon
  if x.input ≠ [] then
    some ((takeInput canon n x.input).1,{x with input := (takeInput canon n x.input).2})
  else if canon ∧ x.eof > 0 then some ([],{x with eof := x.eof - 1})
  else if ¬ canon ∧ x.t.cc vmin = 0 then some ([],x)
  else none

def readable (x : Tty) : Bool :=
  x.input ≠ [] || (if x.mode icanon then x.eof > 0 else x.t.cc vmin = 0)

def write (x : Tty) (s : List UInt8) : Tty := s.foldl output x

def hangup (x : Tty) : Tty := {x.flushInput with t := sane}

/- A half-typed line becomes input when the terminal leaves canonical mode; true when the
readers are woken. -/
def setTermios (x : Tty) (t : Termios) : Tty × Bool :=
  let was := x.mode icanon
  let x := {x with t := t}
  if was ∧ ¬ x.mode icanon ∧ x.line ≠ [] then (x.submit,true) else (x,false)

def SameOwner (x y : Tty) : Prop := y.sid = x.sid ∧ y.pgrp = x.pgrp

/- Output changes nothing else. -/
def Silent (x y : Tty) : Prop := y = {x with out := y.out}

theorem Silent.trans {x y z} (first : Silent x y) (second : Silent y z) : Silent x z := by
  rw [Silent] at first second ⊢
  rw [second,first]

theorem Silent.owner {x y} (silent : Silent x y) : SameOwner x y := by
  rw [silent]
  exact ⟨rfl,rfl⟩

section

variable (x : Tty)

theorem outputSilent (c) : Silent x (x.output c) := by
  unfold output
  split <;> rfl

theorem echoSilent (c) : Silent x (x.echo c) := by
  unfold echo
  split
  · rfl
  split
  · exact (outputSilent x 94).trans (outputSilent _ (c+64))
  · exact outputSilent x c

theorem ruboutSilent : Silent x x.rubout :=
  ((outputSilent x 8).trans (outputSilent _ 32)).trans (outputSilent _ 8)

theorem ruboutsSilent (line : List UInt8) : Silent x (line.foldl (fun x _ => x.rubout) x) := by
  induction line generalizing x with
  | nil => rfl
  | cons _ rest ih => exact (ruboutSilent x).trans (ih x.rubout)

theorem appendOwner (c) : SameOwner x (x.append c) := by
  unfold append
  split
  · exact (echoSilent {x with line := x.line ++ [c]} c).owner
  · exact ⟨rfl,rfl⟩

theorem receiveOwner (c) : SameOwner x (x.receive c).1 := by
  unfold receive
  split
  · exact (echoSilent x c).owner
  split
  · split
    · exact ⟨rfl,rfl⟩
    dsimp only
    split
    · exact (ruboutSilent {x with line := x.line.dropLast}).owner
    · exact ⟨rfl,rfl⟩
  split
  · split
    · exact (ruboutsSilent x x.line).owner
    · exact ⟨rfl,rfl⟩
  split
  · split <;> exact ⟨rfl,rfl⟩
  split
  · exact appendOwner x c
  · exact appendOwner x c

theorem setTermiosOwner (t) : SameOwner x (x.setTermios t).1 := by
  unfold setTermios
  dsimp only
  split <;> exact ⟨rfl,rfl⟩

end

end Tty
end Miviex
