import Mathlib.Data.List.TakeDrop
import Miviex.Jobs
import Miviex.Runs

/-! Terminals over whole sessions: what their reads give for what was typed. -/
namespace Miviex.Tty
open List

def typed (x : Tty) (c : UInt8) : Tty :=
  let c := if x.t.iflag &&& icrnl ≠ 0 ∧ c = 13 then 10 else c
  match x.signalOf c with
  | some _ => x.flushInput.echo c
  | none => (x.receive c).1

theorem ttyInputTyped (s : Jobs) (a c) : (s.ttyInput a c).tty a = (s.tty a).typed c := by
  unfold Jobs.ttyInput typed
  dsimp only
  generalize (if (s.tty a).t.iflag &&& icrnl ≠ 0 ∧ c = 13 then 10 else c) = d
  cases (s.tty a).signalOf d with
  | some sig =>
    dsimp only [Jobs.signalForeground]
    split <;> exact Function.update_self a _ s.tty
  | none =>
    dsimp only [Jobs.wakeReaders]
    split <;> exact Function.update_self a _ s.tty

/- What a character means to the line editor. -/
inductive Key where
  | signal
  | erase
  | kill
  | eof
  | newline
  | plain (c : UInt8)
  deriving DecidableEq

/- What a character should mean under the settings: a control character is any byte. -/
def ideal (t : Termios) (c : UInt8) : Key :=
  let c := if t.iflag &&& icrnl ≠ 0 ∧ c = 13 then 10 else c
  if t.lflag &&& isig = isig ∧ (c = t.cc vintr ∨ c = t.cc vquit ∨ c = t.cc vsusp) then .signal
  else if c = t.cc verase ∨ c = 8 then .erase
  else if c = t.cc vkill then .kill
  else if c = t.cc veof then .eof
  else if c = 10 then .newline
  else .plain c

variable {x : Tty} {c : UInt8}

inductive Act where
  | typed (c : UInt8)
  | read (n : Nat)
  | tcsets (flush : Bool) (t : Termios)

/- The editor that the terminal should be: the lines completed and not thrown away, and the one
being typed. A signal throws away what was not read. -/
structure Editor where
  out : List UInt8 := []
  line : List UInt8 := []

def Editor.press (given : List UInt8) (e : Editor) : Key → Editor
  | .signal => ⟨given,[]⟩
  | .erase => {e with line := e.line.dropLast}
  | .kill => {e with line := []}
  | .eof => e
  | .newline => ⟨e.out ++ e.line ++ [10],[]⟩
  | .plain c => if e.line.length < ttyBuf - 1 then {e with line := e.line ++ [c]} else e

structure Session where
  tty : Tty := {}
  results : List (List UInt8) := []
  editor : Editor := {}

def Session.step (s : Session) : Act → Option Session
  | .typed c => some {s with tty := s.tty.typed c, editor := s.editor.press s.results.flatten (ideal s.tty.t c)}
  | .read n => (s.tty.read n).map (fun (bytes,tty) => {s with tty := tty, results := s.results ++ [bytes]})
  | .tcsets flush t => some {s with
      tty := ((if flush then s.tty.flushInput else s.tty).setTermios t).1
      editor := if flush then s.editor.press s.results.flatten .signal else s.editor}

/- A control character above 127, an end of file, a line that the ring has no room for, or a mode
that is not canonical. -/
def Session.Leaves (s : Session) : Act → Prop
  | .typed c => 128 ≤ c ∧ ideal s.tty.t c ≠ .plain c ∨ ideal s.tty.t c = .eof ∨
    ideal s.tty.t c = .newline ∧ ttyBuf ≤ s.tty.input.length+s.tty.line.length
  | .read _ => False
  | .tcsets _ t => t.lflag &&& icanon ≠ icanon

structure Session.Edited (s : Session) : Prop where
  canon : s.tty.mode icanon = true
  line : s.editor.line = s.tty.line
  out : s.editor.out = s.results.flatten ++ s.tty.input
  single : ∀ r ∈ s.results, 10 ∉ r.dropLast
  short : s.tty.line.length < ttyBuf
  ring : s.tty.input.length ≤ ttyBuf

theorem takeInputSplits (n input) : (takeInput true n input).1 ++ (takeInput true n input).2 = input ∧
    10 ∉ (takeInput true n input).1.dropLast := by
  induction n generalizing input with
  | zero => exact ⟨rfl,not_mem_nil⟩
  | succ n ih =>
  cases input with
  | nil => exact ⟨rfl,not_mem_nil⟩
  | cons c rest =>
  obtain ⟨whole,single⟩ := ih rest
  unfold takeInput
  split
  · exact ⟨rfl,not_mem_nil⟩
  rename_i other
  refine ⟨congrArg (c::·) whole,fun inside => ?_⟩
  cases taken : (takeInput true n rest).1 with
  | nil => simp [taken] at inside
  | cons d more =>
    rw [taken] at single
    simp only [taken,dropLast_cons_cons,mem_cons] at inside
    rcases inside with same | later
    · exact other ⟨rfl,same.symm⟩
    · exact single later

theorem Session.Edited.given {s : Session} {n bytes y} (edited : s.Edited) (got : s.tty.read n = some (bytes,y)) :
    Session.Edited {s with tty := y, results := s.results ++ [bytes]} := by
  obtain ⟨canon,line,out,single,short,ring⟩ := edited
  have longer (one : 10 ∉ bytes.dropLast) : ∀ r ∈ s.results ++ [bytes], 10 ∉ r.dropLast := by
    intro r here
    rcases mem_append.mp here with old | new
    · exact single r old
    · exact mem_singleton.mp new ▸ one
  unfold read at got
  dsimp only at got
  rw [canon] at got
  split at got
  · cases got
    obtain ⟨whole,one⟩ := takeInputSplits n s.tty.input
    refine ⟨canon,line,?_,longer one,short,?_⟩
    · rw [flatten_append,flatten_singleton,append_assoc,whole,out]
    · rw [← whole,length_append] at ring
      exact Nat.le_of_add_left_le ring
  split at got
  · cases got
    refine ⟨canon,line,?_,longer not_mem_nil,short,ring⟩
    rw [flatten_append,out]
    simp
  · simp at got

instance (s : Session) (a : Act) : Decidable (s.Leaves a) :=
  match a with
  | .typed _ => inferInstanceAs (Decidable (_ ∧ _ ∨ _ ∨ _ ∧ _))
  | .read _ => inferInstanceAs (Decidable False)
  | .tcsets _ _ => inferInstanceAs (Decidable (_ ≠ _))

end Miviex.Tty
