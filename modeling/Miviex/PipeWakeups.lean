import Miviex.Pipe

/-! Nobody sleeps on a pipe for something that is there. A round that changes the pipe wakes its
channel. -/
namespace Miviex

open Nat PipeCall
open Function (update update_of_ne update_self)

def PipeCall.Waits (p : Pipe) : PipeCall → Prop
  | .read _ => p.ring.len = 0 ∧ 0 < p.writers
  | .write w => 0 < p.readers ∧
    if w.gate then w.src.length ≤ pipeSize ∧ pipeSize - p.ring.len < w.src.length else p.ring.len = pipeSize

def PipeCall.chan : PipeCall → Addr
  | .read r => r.pipe
  | .write w => w.pipe

namespace Pipe

structure Gentle (p q : Pipe) (woke : Bool) : Prop where
  readers : q.readers = p.readers
  writers : q.writers = p.writers
  quiet : woke = false → q = p

theorem Gentle.refl (p woke) : Gentle p p woke := ⟨rfl,rfl,fun _ => rfl⟩

theorem Gentle.trans {p q r first second} (one : Gentle p q first) (two : Gentle q r second)
    (later : second = false → first = false) : Gentle p r second :=
  ⟨two.readers.trans one.readers,two.writers.trans one.writers,
    fun still => (two.quiet still).trans (one.quiet (later still))⟩

theorem readGentle (p : Pipe) (pending size) : Gentle p (p.read pending size).pipe (p.read pending size).woke := by
  unfold read
  split
  · split
    · exact Gentle.refl p _
    · split <;> exact Gentle.refl p _
  · exact ⟨rfl,rfl,nofun⟩

theorem readSleeps {p : Pipe} {pending size} (sleeps : (p.read pending size).result = none) :
    (p.read pending size).pipe = p ∧ p.ring.len = 0 ∧ 0 < p.writers ∧ pending = false := by
  unfold read at sleeps ⊢
  split at sleeps
  · rename_i empty
    split at sleeps
    · cases sleeps
    rename_i open_
    split at sleeps
    · cases sleeps
    rename_i quiet
    simp only [empty,open_,quiet,if_true,if_false]
    exact ⟨rfl,trivial,pos_of_ne_zero open_,by simp⟩
  · cases sleeps

theorem writeLoopGentle (id pending fuel p woke src done) : let round := writeLoop id pending fuel p woke src done
    Gentle p round.pipe round.woke ∧ (woke = true → round.woke = true) ∧ round.result ≠ .gate ∧
    ∀ left n, round.result = .full left n → 0 < round.pipe.readers ∧ round.pipe.ring.len = pipeSize ∧ pending = false := by
  induction fuel generalizing p woke src done with
  | zero => exact ⟨Gentle.refl p woke,fun h => h,nofun,nofun⟩
  | succ fuel ih =>
  unfold writeLoop
  split
  · exact ⟨Gentle.refl p woke,fun h => h,nofun,nofun⟩
  split
  · exact ⟨Gentle.refl p woke,fun h => h,nofun,nofun⟩
  rename_i open_
  split
  · rename_i full
    cases pending with
    | true => exact ⟨Gentle.refl p woke,fun h => h,nofun,nofun⟩
    | false => exact ⟨Gentle.refl p woke,fun h => h,nofun,fun _ _ _ => ⟨pos_of_ne_zero open_,full,rfl⟩⟩
  obtain ⟨gentle,loud,passed,sleeps⟩ := ih {p with
      ring := (p.ring.fill pipeSize src).1
      accepted := p.accepted ++ (src.take (src.length - (p.ring.fill pipeSize src).2.length)).map (fun b => (id,b))}
    true (p.ring.fill pipeSize src).2 (done + (src.length - (p.ring.fill pipeSize src).2.length))
  refine ⟨⟨gentle.readers,gentle.writers,fun still => ?_⟩,fun _ => loud rfl,passed,sleeps⟩
  rw [loud rfl] at still
  cases still

theorem writeGentle (id pending) (p : Pipe) (src) : Gentle p (p.write id pending src).pipe (p.write id pending src).woke := by
  unfold write
  split
  · exact Gentle.refl p _
  · exact (writeLoopGentle id pending src.length p false src 0).1

theorem writeGate {id pending} {p : Pipe} {src} (sleeps : (p.write id pending src).result = .gate) :
    (p.write id pending src).pipe = p ∧ 0 < p.readers ∧ src.length ≤ pipeSize ∧
    pipeSize - p.ring.len < src.length ∧ pending = false := by
  unfold write at sleeps ⊢
  split at sleeps
  · rename_i tight
    rw [if_pos tight]
    cases pending with
    | true => cases sleeps
    | false => exact ⟨rfl,pos_of_ne_zero tight.2.2,tight.1,tight.2.1,rfl⟩
  · exact absurd sleeps (writeLoopGentle id pending src.length p false src 0).2.2.1

theorem writeFull {id pending} {p : Pipe} {src left done} (sleeps : (p.write id pending src).result = .full left done) :
    0 < (p.write id pending src).pipe.readers ∧ (p.write id pending src).pipe.ring.len = pipeSize ∧ pending = false := by
  unfold write at sleeps ⊢
  split at sleeps
  · cases pending <;> cases sleeps
  rename_i loose
  rw [if_neg loose]
  exact (writeLoopGentle id pending src.length p false src 0).2.2.2 left done sleeps

end Pipe

structure PipeTurn.Prompt (k : Nat) (pending : Bool) (p : Pipe) (woke : Bool) (t : PipeTurn) : Prop where
  gentle : Pipe.Gentle p t.pipe t.woke
  loud : woke = true → t.woke = true
  sleeps : ∀ c, t.next = .inr c → c.chan = k ∧ c.Waits t.pipe ∧ pending = false ∧ t.raised = none

open PipeTurn (Prompt)

theorem PipeTurn.Prompt.after {k pending woke turned p q t}
    (gentle : Pipe.Gentle p q turned) (prompt : Prompt k pending q (woke || turned) t) : Prompt k pending p woke t := by
  have heard : t.woke = false → woke = false ∧ turned = false := by
    intro still
    cases either : woke || turned with
    | true => rw [prompt.loud either] at still; cases still
    | false => simpa using either
  refine ⟨gentle.trans prompt.gentle (fun still => (heard still).2),fun loud => ?_,prompt.sleeps⟩
  exact prompt.loud (by simp [loud])

theorem readPiecesPrompt (k pending) (pieces : List (Nat × Bool)) (got p woke) : Prompt k pending p woke
    (readPieces k pending pieces got p woke) := by
  induction pieces generalizing got p woke with
  | nil => exact ⟨Pipe.Gentle.refl p woke,fun h => h,nofun⟩
  | cons piece rest ih =>
  obtain ⟨len,mapped⟩ := piece
  unfold readPieces
  split
  · exact ⟨Pipe.Gentle.refl p woke,fun h => h,nofun⟩
  split
  · exact ih got p woke
  have gentle := Pipe.readGentle p pending len
  refine PipeTurn.Prompt.after gentle ?_
  dsimp only
  split
  · rename_i sleeps
    obtain ⟨same,empty,open_,quiet⟩ := Pipe.readSleeps sleeps
    refine ⟨Pipe.Gentle.refl _ _,fun h => h,fun c waits => ?_⟩
    cases waits
    refine ⟨rfl,?_,quiet,rfl⟩
    rw [same]
    exact ⟨empty,open_⟩
  · exact ⟨Pipe.Gentle.refl _ _,fun h => h,nofun⟩
  split
  · exact ⟨Pipe.Gentle.refl _ _,fun h => h,nofun⟩
  · exact ih _ _ _

structure Pipe.Justified (pending : Bool) (src : List UInt8) (round : Pipe.Round Pipe.Wrote) : Prop where
  gate : round.result = .gate → 0 < round.pipe.readers ∧ src.length ≤ pipeSize ∧
    pipeSize - round.pipe.ring.len < src.length ∧ pending = false
  full : ∀ left done, round.result = .full left done → 0 < round.pipe.readers ∧ round.pipe.ring.len = pipeSize ∧ pending = false

theorem afterWritePrompt {k id pending woke src len before rest more p round}
    (gentle : Pipe.Gentle p round.pipe round.woke) (justified : Pipe.Justified pending src round)
    (goes : ∀ n q loud, Prompt k pending q loud (more n q loud)) :
    Prompt k pending p woke (afterWrite k id src len rest before woke more round) := by
  refine PipeTurn.Prompt.after gentle ?_
  unfold afterWrite
  split
  · rename_i sleeps
    obtain ⟨open_,small,tight,quiet⟩ := justified.gate sleeps
    refine ⟨Pipe.Gentle.refl _ _,fun h => h,fun c waits => ?_⟩
    cases waits
    exact ⟨rfl,⟨open_,small,tight⟩,quiet,rfl⟩
  · rename_i left done sleeps
    obtain ⟨open_,full,quiet⟩ := justified.full left done sleeps
    refine ⟨Pipe.Gentle.refl _ _,fun h => h,fun c waits => ?_⟩
    cases waits
    exact ⟨rfl,⟨open_,full⟩,quiet,rfl⟩
  · exact ⟨Pipe.Gentle.refl _ _,fun h => h,nofun⟩
  split
  · exact ⟨Pipe.Gentle.refl _ _,fun h => h,nofun⟩
  · exact goes _ _ _

theorem writeJustified (id pending) (p : Pipe) (src) : Pipe.Justified pending src (p.write id pending src) := by
  constructor
  · intro sleeps
    obtain ⟨same,open_,small,tight,quiet⟩ := Pipe.writeGate sleeps
    rw [same]
    exact ⟨open_,small,tight,quiet⟩
  intro left done sleeps
  exact Pipe.writeFull sleeps

theorem writePiecesPrompt (k id pending pieces before p woke) : Prompt k pending p woke
    (writePieces k id pending pieces before p woke) := by
  induction pieces generalizing before p woke with
  | nil => exact ⟨Pipe.Gentle.refl p woke,fun h => h,nofun⟩
  | cons data rest ih => exact afterWritePrompt (Pipe.writeGentle id pending p _) (writeJustified id pending p _) ih

theorem resumeWritePrompt (pending) (w : Writing) (p) : Prompt w.pipe pending p false (resumeWrite pending w p) := by
  unfold resumeWrite
  have goes := writePiecesPrompt w.pipe w.id pending w.rest
  cases w.gate with
  | true => exact afterWritePrompt (Pipe.writeGentle w.id pending p w.src) (writeJustified w.id pending p w.src) goes
  | false =>
    obtain ⟨gentle,_,passed,sleeps⟩ := Pipe.writeLoopGentle w.id pending w.src.length p false w.src w.done
    exact afterWritePrompt gentle ⟨fun gate => absurd gate passed,sleeps⟩ goes

namespace Pipes
open Calls (Wakeful)

def Waits (d : Pipes) (c : PipeCall) : Prop := c.Waits (d.pipe c.chan)

def Unmade (d : Pipes) : Prop := ∀ k, d.next ≤ k → (d.pipe k).readers = 0 ∧ (d.pipe k).writers = 0

variable {d : Pipes} {o : PipeOutcome} {pending : Bool} {k : Nat}

theorem workWakeful {t} (prompt : Prompt k pending (d.pipe k) false t) :
    Wakeful Waits chan d pending (d.work k t) := by
  constructor
  · intro c waits unwoken
    unfold Waits work
    dsimp only
    by_cases here : c.chan = k
    · have still : t.woke = false := by
        by_contra loud
        refine unwoken ?_
        simp [work,here,Bool.eq_true_of_not_eq_false loud]
      rw [here,update_self,prompt.gentle.quiet still,← here]
      exact waits
    rw [update_of_ne here]
    exact waits
  intro on c sleeps
  unfold work at sleeps ⊢
  cases ends : t.next with
  | inl answer => simp [ends] at sleeps
  | inr call =>
  simp only [ends,Calls.Next.asleep.injEq] at sleeps
  obtain ⟨rfl,rfl⟩ := sleeps
  obtain ⟨same,waits,quiet,silent⟩ := prompt.sleeps call ends
  refine ⟨same.symm,?_,quiet,silent⟩
  unfold Waits
  dsimp only
  rw [same,update_self]
  exact waits

theorem releaseOneEnds (d : Pipes) (x j) : ((d.releaseOne x).pipe j).readers ≤ (d.pipe j).readers ∧
    ((d.releaseOne x).pipe j).writers ≤ (d.pipe j).writers ∧
    ((d.releaseOne x).pipe j).ring = (d.pipe j).ring ∧ ((d.releaseOne x).pipe j).accepted = (d.pipe j).accepted ∧
    ((d.releaseOne x).pipe j).taken = (d.pipe j).taken := by
  unfold releaseOne
  dsimp only
  by_cases here : j = x.object
  · subst here
    unfold Pipe.release
    split <;> simp
  rw [update_of_ne here]
  exact ⟨le_refl _,le_refl _,rfl,rfl,rfl⟩

structure Released (d e : Pipes) (wakes : List Addr) : Prop where
  next : e.next = d.next
  files : e.files = d.files
  issued : e.issued = d.issued
  same : ∀ j, j ∉ wakes → e.pipe j = d.pipe j
  readers : ∀ j, (e.pipe j).readers ≤ (d.pipe j).readers
  writers : ∀ j, (e.pipe j).writers ≤ (d.pipe j).writers
  contents : ∀ j, (e.pipe j).ring = (d.pipe j).ring ∧ (e.pipe j).accepted = (d.pipe j).accepted ∧
    (e.pipe j).taken = (d.pipe j).taken

theorem releaseReleased (d : Pipes) (gone) : Released d (d.release gone).1 (d.release gone).2 := by
  unfold release
  induction gone generalizing d with
  | nil =>
    exact ⟨rfl,rfl,rfl,fun _ _ => rfl,fun _ => le_refl _,fun _ => le_refl _,fun _ => ⟨rfl,rfl,rfl⟩⟩
  | cons x rest ih =>
  have later := ih (d.releaseOne x)
  have ends := releaseOneEnds d x
  refine ⟨later.next,later.files,later.issued,fun j absent => ?_,fun j => ?_,fun j => ?_,fun j => ?_⟩
  · simp only [List.map_cons,List.mem_cons,not_or] at absent
    refine (later.same j absent.2).trans ?_
    simp [releaseOne,absent.1]
  · exact (later.readers j).trans (ends j).1
  · exact (later.writers j).trans (ends j).2.1
  obtain ⟨ring,accepted,taken⟩ := later.contents j
  obtain ⟨_,_,before⟩ := ends j
  exact ⟨ring.trans before.1,accepted.trans before.2.1,taken.trans before.2.2⟩

theorem Released.unmade {e wakes} (released : Released d e wakes) (unmade : Unmade d) : Unmade e := by
  intro j beyond
  rw [released.next] at beyond
  obtain ⟨readers,writers⟩ := unmade j beyond
  have fewer := released.readers j
  have less := released.writers j
  omega

def Proper (d : Pipes) (pending : Bool) (o : PipeOutcome) : Prop :=
  Wakeful Waits chan d pending o ∧ Unmade o.dev

section

variable (unmade : Unmade d)
include unmade

theorem waitsMade {c} (waits : Waits d c) : c.chan < d.next := by
  by_contra beyond
  obtain ⟨readers,writers⟩ := unmade c.chan (Nat.le_of_not_lt beyond)
  cases c with
  | read r => exact absurd waits.2 (by rw [writers]; decide)
  | write w => exact absurd waits.1 (by rw [readers]; decide)

theorem workUnmade {t woke} (prompt : Prompt k pending (d.pipe k) woke t) : Unmade (d.work k t).dev := by
  intro j beyond
  unfold work
  dsimp only
  by_cases here : j = k
  · rw [here,update_self,prompt.gentle.readers,prompt.gentle.writers,← here]
    exact unmade j beyond
  rw [update_of_ne here]
  exact unmade j beyond

theorem doneWakeful {answer} (ends : o.next = .done answer)
    (same : ∀ j < d.next, j ∉ o.wakes → o.dev.pipe j = d.pipe j) : Wakeful Waits chan d pending o := by
  refine ⟨fun c waits unwoken => ?_,fun on c sleeps => ?_⟩
  · unfold Waits
    rw [same c.chan (waitsMade unmade waits) unwoken]
    exact waits
  rw [ends] at sleeps
  cases sleeps

theorem closingPrompt {α} (answer : α → PipeAnswer)
    (result : Except Errno α × Files Nat × Option (File Nat)) :
    Wakeful Waits chan d pending (d.closing answer result) ∧ Unmade (d.closing answer result).dev := by
  have released := releaseReleased {d with files := result.2.1} result.2.2.toList
  refine ⟨doneWakeful unmade rfl (fun j _ unwoken => ?_),?_⟩
  · exact released.same j unwoken
  · exact released.unmade (d := {d with files := result.2.1}) unmade

theorem failedProper (e) : Proper d pending (d.failed e) :=
  ⟨doneWakeful unmade rfl (fun _ _ _ => rfl),unmade⟩

end

def made (d : Pipes) (files : Files Nat) : Pipes :=
  ⟨files,update d.pipe d.next Pipe.new,d.next+1,d.issued⟩

theorem pipe2Cases (d : Pipes) (me : Addr) (mapped memory cloexec : Bool) (limit : Nat) :
    let o := d.sysPipe2 me mapped memory cloexec limit
    (∃ e, o = d.failed e) ∨
    ∃ files answer, o.next = .done answer ∧ Released (d.made files) o.dev o.wakes := by
  unfold sysPipe2
  split
  · exact .inl ⟨.efault,rfl⟩
  split
  · exact .inl ⟨.enomem,rfl⟩
  dsimp only
  split
  · exact .inr ⟨_,_,rfl,releaseReleased (d.made _) _⟩
  split
  · exact .inr ⟨_,_,rfl,releaseReleased (d.made _) _⟩
  · exact .inr ⟨_,_,rfl,releaseReleased (d.made _) []⟩

section

variable (unmade : Unmade d)
include unmade

theorem madeUnmade (files) : Unmade (d.made files) := by
  intro j beyond
  dsimp only [made] at beyond ⊢
  rw [update_of_ne (by omega)]
  exact unmade j (by omega)

theorem pipe2Proper (me : Addr) (mapped memory cloexec : Bool) (limit : Nat) :
    Proper d pending (d.sysPipe2 me mapped memory cloexec limit) := by
  rcases pipe2Cases d me mapped memory cloexec limit with ⟨e,same⟩ | ⟨files,answer,ends,released⟩
  · rw [same]
    exact failedProper unmade e
  refine ⟨doneWakeful unmade ends (fun j below unwoken => ?_),released.unmade (madeUnmade unmade files)⟩
  -- the new pipe is at a number nobody waits on
  rw [released.same j unwoken]
  exact update_of_ne (Nat.ne_of_lt below) _ _

theorem readFromProper (x) (pieces : List (Nat × Bool)) : Proper d pending (d.readFrom pending x pieces) := by
  unfold readFrom
  split
  · exact failedProper unmade .ebadf
  have prompt := readPiecesPrompt x.object pending pieces [] (d.pipe x.object) false
  exact ⟨workWakeful prompt,workUnmade unmade prompt⟩

theorem writeToProper (x pieces) : Proper d pending (d.writeTo pending x pieces) := by
  have prompt := writePiecesPrompt x.object d.issued.length pending pieces 0 (d.pipe x.object) false
  have wakeful := workWakeful (d := {d with issued := d.issued ++ [pieces.flatten]}) prompt
  have left := workUnmade (d := {d with issued := d.issued ++ [pieces.flatten]}) unmade prompt
  exact ⟨⟨wakeful.keeps,wakeful.sleeps⟩,left⟩

theorem enterProper (me request) : Proper d pending (d.enter me pending request) := by
  cases request with
  | pipe2 mapped memory cloexec limit => exact pipe2Proper unmade me mapped memory cloexec limit
  | close | dup | dup2 | dup3 | setCloexec => exact closingPrompt unmade _ _
  | exec =>
    have released := releaseReleased {d with files := (d.files.closeOnExec me).1} (d.files.closeOnExec me).2
    exact ⟨doneWakeful unmade rfl (fun j _ unwoken => released.same j unwoken),
      released.unmade (d := {d with files := (d.files.closeOnExec me).1}) unmade⟩
  | read fd len mapped =>
    simp only [enter,sysRead]
    split
    · exact failedProper unmade .ebadf
    · exact readFromProper unmade _ _
  | readv fd iov =>
    simp only [enter,sysReadv]
    split
    · exact failedProper unmade .ebadf
    · exact failedProper unmade .efault
    split
    · exact failedProper unmade .einval
    · exact readFromProper unmade _ _
  | write fd data =>
    simp only [enter,sysWrite]
    split
    · exact failedProper unmade .ebadf
    split
    · exact failedProper unmade .ebadf
    split
    · exact failedProper unmade .efault
    · exact writeToProper unmade _ _
  | writev fd iov memory =>
    simp only [enter,sysWritev,pipeWritev]
    split
    · exact failedProper unmade .ebadf
    · exact failedProper unmade .efault
    split
    · exact failedProper unmade .einval
    split
    · exact failedProper unmade .efault
    split
    · exact failedProper unmade .ebadf
    split
    · exact writeToProper unmade _ _
    split
    · exact ⟨doneWakeful unmade rfl (fun _ _ _ => rfl),unmade⟩
    split
    · exact failedProper unmade .enomem
    · exact writeToProper unmade _ _

theorem resumeProper (me call) : Proper d pending (d.resume me pending call) := by
  cases call with
  | read r =>
    have prompt := readPiecesPrompt r.pipe pending r.rest r.got (d.pipe r.pipe) false
    exact ⟨workWakeful prompt,workUnmade unmade prompt⟩
  | write w =>
    have prompt := resumeWritePrompt pending w (d.pipe w.pipe)
    exact ⟨workWakeful prompt,workUnmade unmade prompt⟩

end

theorem exitReleased (d : Pipes) (me) : Released {d with files := (d.files.closeAll me).1}
    (d.exit me).1 (d.exit me).2 :=
  releaseReleased {d with files := (d.files.closeAll me).1} (d.files.closeAll me).2

abbrev Machine := Calls.System Pipes PipeCall PipeAnswer

def step (idle : Addr) (s : Machine) (e : Calls.Event PipeRequest) : Option Machine := s.step device idle e

def boot (idle : Addr) : Machine := Calls.System.boot idle initial

theorem turnUnmade {s t} (unmade : Unmade s.dev) (turn : Calls.Turn device s t) : Unmade t.dev := by
  cases turn with
  | still dev _ _ _ => rw [dev]; exact unmade
  | entered me q o _ entry result =>
    rw [result,Calls.finishDev,entry]
    exact (enterProper unmade me q).2
  | resumed me call o _ goes result =>
    rw [result,Calls.finishDev,goes]
    exact (resumeProper unmade me call).2
  | forked me child _ _ dev _ _ => rw [dev]; exact unmade
  | exited me _ dev _ _ =>
    rw [dev]
    exact (exitReleased s.dev me).unmade (fun j beyond => unmade j beyond)

structure Sound (idle : Addr) (s : Machine) : Prop where
  consistent : Scheduler.Consistent idle s.sched
  unmade : Unmade s.dev
  rested : Calls.Rested Waits chan s

theorem stepSound {idle s t e} (sound : Sound idle s) (taken : step idle s e = some t) : Sound idle t := by
  refine ⟨Calls.stepConsistent sound.consistent taken,turnUnmade sound.unmade (Calls.stepTurn taken),?_⟩
  refine Calls.stepRested sound.consistent sound.rested ?_ ?_ ?_ ?_ taken
  · intro me q _ _
    exact (enterProper sound.unmade me q).1.heeds _
  · intro me call _ _ _
    exact (resumeProper sound.unmade me call).1.heeds _
  · intro me child c waits
    exact waits
  intro me c _ _ waits unwoken
  have kept : Waits (s.dev.exit me).1 c := by
    unfold Waits
    rw [(exitReleased s.dev me).same c.chan unwoken]
    exact waits
  exact kept

theorem bootSound (idle) : Sound idle (boot idle) :=
  ⟨Scheduler.bootConsistent idle,fun _ _ => ⟨rfl,rfl⟩,fun _ _ _ _ inside => nomatch inside⟩

theorem noLostWakeup (idle : Addr) (events : List (Calls.Event PipeRequest)) :
    ∀ s ∈ Runs.visited (step idle) (boot idle) events, ∀ p ∈ s.sched.allProcs, (s.sched.procs p).state = .blocked →
      (∀ r, s.calls p = some (.read r) → (s.dev.pipe r.pipe).ring.len = 0 ∧ (s.dev.pipe r.pipe).writers > 0 ∧
        signalPending (s.sched.procs p) = false) ∧
      (∀ w, s.calls p = some (.write w) → (s.dev.pipe w.pipe).readers > 0 ∧ signalPending (s.sched.procs p) = false ∧
        if w.gate then w.src.length ≤ pipeSize ∧ pipeSize - (s.dev.pipe w.pipe).ring.len < w.src.length
        else (s.dev.pipe w.pipe).ring.len = pipeSize) := by
  intro s reached p live asleep
  have sound := Runs.visitedAlways (fun _ _ _ good taken => stepSound good taken) (bootSound idle) s reached
  have dozes : Scheduler.Dozes s.sched p (s.sched.procs p).waitChan := ⟨live,asleep,rfl⟩
  constructor
  · intro r inside
    obtain ⟨_,waits,quiet⟩ := sound.rested p _ _ dozes inside
    exact ⟨waits.1,waits.2,quiet⟩
  intro w inside
  obtain ⟨_,waits,quiet⟩ := sound.rested p _ _ dozes inside
  exact ⟨waits.1,quiet,waits.2⟩

def readEmpty : List (Calls.Event PipeRequest) :=
  [.kernel (.createUser (some 1) prioUser),.kernel .start,.request (.pipe2 true true false 64),.request (.read 0 10 true)]

def readingFrom (s : Machine) (p : Addr) : Option Nat :=
  match s.calls p with
  | some (.read r) => some r.pipe
  | _ => Option.none

theorem noLostWakeupReading : ∃ s ∈ Runs.visited (step 0) (boot 0) readEmpty,
    (s.sched.procs 1).state = .blocked ∧ ∃ r, s.calls 1 = some (.read r) ∧ (s.dev.pipe r.pipe).ring.len = 0 ∧
    (s.dev.pipe r.pipe).writers > 0 ∧ signalPending (s.sched.procs 1) = false := by
  have ended : (Runs.run (step 0) (boot 0) readEmpty).map (fun s =>
      (s.sched.allProcs,(s.sched.procs 1).state,readingFrom s 1)) = some ([1,0],.blocked,some 0) := by
    decide +kernel
  obtain ⟨s,seen,same⟩ := Runs.visitedShows ended
  simp only [Prod.mk.injEq] at same
  obtain ⟨all,asleep,reading⟩ := same
  unfold readingFrom at reading
  split at reading
  · rename_i r inside
    have law := noLostWakeup 0 readEmpty s seen 1 (by rw [all]; decide) asleep
    exact ⟨s,seen,asleep,r,inside,law.1 r inside⟩
  · cases reading

end Pipes
end Miviex
