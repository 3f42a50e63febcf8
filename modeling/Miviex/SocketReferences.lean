import Miviex.Socket

/-! The references that `dgram_send` and `stream_connect` take on the file of the socket they
look up: `lookup` takes one, and every way out of a pass gives it back. Without the
references the two calls are those of the model of sockets. -/
namespace Miviex

/- What a path leads to has a link, since a path is walked along links. `destroyed` has the
inodes whose destroy hook was called. -/
structure Nodes where
  dev : Sockets
  refs : Nat → UInt32
  nlink : Nat → UInt32
  destroyed : List Nat
  linked : ∀ me path n, dev.view.resolve me path = .ok n → nlink n ≠ 0

abbrev NodesOutcome := Calls.Outcome Nodes SockCall SockAnswer

namespace Nodes

def vfsIget (x : Nodes) (n : Nat) : Nodes := {x with refs := Function.update x.refs n (x.refs n + 1)}

def vfsIput (x : Nodes) (n : Nat) : Nodes :=
  {x with
    refs := Function.update x.refs n (x.refs n - 1)
    destroyed := if x.refs n - 1 = 0 ∧ x.nlink n = 0 then x.destroyed ++ [n] else x.destroyed}

def settle (x : Nodes) (d : Sockets) : Nodes := {x with dev := {d with view := x.dev.view}, linked := x.linked}

def failed (x : Nodes) (e : Stop) : NodesOutcome := {dev := x, next := .done (.failed e)}

def lookup (x : Nodes) (me : Addr) (path : Path) : Except Errno (Nat × Nat × Nodes) :=
  match x.dev.view.resolve me path with
  | .error e => .error e
  | .ok n =>
    if ¬ x.dev.view.isSocket n then .error .econnrefused
    else match x.dev.view.permission me n with
      | some e => .error e
      | none => match x.dev.ptr n with
        | none => .error .econnrefused
        | some s => .ok (n,s,x.vfsIget n)

def putHeld (x : Nodes) : Option Nat → Nodes
  | none => x
  | some n => x.vfsIput n

def dgramTarget (x : Nodes) (me : Addr) (s : Nat) (target : Option Path) :
    Except Errno (Option Nat × Nat) × Nodes :=
  let y := x.dev.get s
  match target, y.peer with
  | none, some p => (.ok (none,p),x)
  | none, none =>
    if y.peername = [] then (.error (if y.state = .connected then .econnrefused else .enotconn),x)
    else named y.peername
  | some path, _ => named path
where
  named (path : Path) : Except Errno (Option Nat × Nat) × Nodes :=
    match x.lookup me path with
    | .error e => (.error e,x)
    | .ok (n,t,x) => if (x.dev.get t).type ≠ .dgram then (.error .eprototype,x.vfsIput n) else (.ok (some n,t),x)

def dgramSend (x : Nodes) (me : Addr) (pending : Bool) (m : Mailing) : NodesOutcome :=
  if m.data.length > sockBuf then x.failed (.errno .emsgsize)
  else match x.dgramTarget me m.sock m.target with
    | (.error e,x) => x.failed (.errno e)
    | (.ok (held,t),x) =>
      if (x.dev.get t).queued + m.data.length > sockBuf then
        if m.nonblock then (x.putHeld held).failed (.errno .eagain)
        else if pending then (x.putHeld held).failed .restartsys
        else {dev := x.putHeld held, next := .asleep t (.mail {m with on := t})}
      else if ¬ m.memory then (x.putHeld held).failed (.errno .enomem)
      else
        let d := x.dev.modify t (fun y => {y with
          msgs := y.msgs ++ [⟨m.data,(x.dev.get m.sock).name⟩], queued := y.queued + m.data.length})
        {dev := (x.settle d).putHeld held, wakes := [t], next := .done (.number m.data.length)}

def connectLoop (x : Nodes) (me : Addr) (pending : Bool) (c : Connecting) : NodesOutcome :=
  match x.lookup me c.path with
  | .error e => x.failed (.errno e)
  | .ok (n,l,x) =>
    let z := x.dev.get l
    if z.type ≠ .stream then (x.vfsIput n).failed (.errno .eprototype)
    else if z.state ≠ .listening then (x.vfsIput n).failed (.errno .econnrefused)
    else if z.backlog.length < z.maxback then
      if ¬ c.memory then (x.vfsIput n).failed (.errno .enomem)
      else {dev := (x.settle (x.dev.join c.sock l c.path)).vfsIput n, wakes := [l], next := .done (.number 0)}
    else if c.nonblock then (x.vfsIput n).failed (.errno .eagain)
    else if pending then (x.vfsIput n).failed .restartsys
    else {dev := x.vfsIput n, next := .asleep l (.connect {c with on := l})}

def streamConnect (x : Nodes) (me : Addr) (pending : Bool) (c : Connecting) : NodesOutcome :=
  match (x.dev.get c.sock).state with
  | .connected => x.failed (.errno .eisconn)
  | .listening => x.failed (.errno .einval)
  | .unconnected => x.connectLoop me pending c

variable {x y : Nodes} {me : Addr} {path : Path} {n s : Nat}

theorem igetIput (linked : x.nlink n ≠ 0) : (x.vfsIget n).vfsIput n = x := by
  have back : x.refs n + 1 - 1 = x.refs n := by simp
  simp [vfsIget,vfsIput,linked,back]

theorem lookupOk (found : x.lookup me path = .ok (n,s,y)) :
    x.dev.view.resolve me path = .ok n ∧ y = x.vfsIget n ∧ x.dev.lookup me path = .ok s := by
  unfold lookup at found
  split at found
  · cases found
  rename_i m resolved
  split at found
  · cases found
  rename_i socket
  split at found
  · cases found
  rename_i allowed
  split at found
  · cases found
  rename_i t behind
  cases found
  refine ⟨resolved,rfl,?_⟩
  simp only [Sockets.lookup,resolved,socket,if_false,allowed,behind]

theorem lookupError {e} (failed : x.lookup me path = .error e) : x.dev.lookup me path = .error e := by
  unfold lookup at failed
  unfold Sockets.lookup
  split at failed
  · simp_all
  split at failed
  · simp_all
  split at failed
  · simp_all
  split at failed
  · simp_all
  · cases failed

theorem lookupPut (found : x.lookup me path = .ok (n,s,y)) : y.vfsIput n = x := by
  obtain ⟨resolved,rfl,_⟩ := lookupOk found
  exact igetIput (x.linked me path n resolved)

theorem settlePut (x : Nodes) (d held) : (x.settle d).putHeld held = (x.putHeld held).settle d := by
  cases held <;> rfl

/- The target is found as without references, and giving back the file it is held by leaves
the state as it was. -/
structure Targets (x : Nodes) (me : Addr) (s : Nat) (target : Option Path)
    (result : Except Errno (Option Nat × Nat) × Nodes) : Prop where
  plain : x.dev.dgramTarget me s target = result.1.map Prod.snd
  dev : result.2.dev = x.dev
  error : ∀ e, result.1 = .error e → result.2 = x
  ok : ∀ held t, result.1 = .ok (held,t) → result.2.putHeld held = x

theorem targetTargets (x : Nodes) (me s target) : Targets x me s target (x.dgramTarget me s target) := by
  have named path (plain : (∀ result, Sockets.dgramTarget.named x.dev me path = result →
      x.dev.dgramTarget me s target = result)) : Targets x me s target (dgramTarget.named x me path) := by
    unfold dgramTarget.named
    split
    · rename_i e failed
      refine ⟨plain _ ?_,rfl,fun _ _ => rfl,by simp⟩
      simp only [Sockets.dgramTarget.named,lookupError failed,Except.map]
    rename_i n t y found
    obtain ⟨_,held,plainly⟩ := lookupOk found
    have same : y.dev = x.dev := by rw [held]; rfl
    split
    · rename_i stream
      refine ⟨plain _ ?_,same,fun _ _ => lookupPut found,by simp⟩
      rw [same] at stream
      simp only [Sockets.dgramTarget.named,plainly,Except.map]
      exact if_pos stream
    rename_i dgram
    refine ⟨plain _ ?_,same,(by simp),fun held' t' isOk => ?_⟩
    · rw [same] at dgram
      simp only [Sockets.dgramTarget.named,plainly,Except.map]
      exact if_neg dgram
    cases isOk
    exact lookupPut found
  unfold dgramTarget
  dsimp only
  split
  · rename_i p peer
    refine ⟨?_,rfl,(by simp),fun held t isOk => ?_⟩
    · simp only [Sockets.dgramTarget,peer,Except.map]
    cases isOk
    rfl
  · rename_i peer
    split
    · rename_i unnamed
      refine ⟨?_,rfl,fun _ _ => rfl,by simp⟩
      simp only [Sockets.dgramTarget,peer,unnamed,if_true,Except.map]
    rename_i given
    refine named _ (fun result same => ?_)
    simp only [Sockets.dgramTarget,peer,given,if_false]
    exact same
  · exact named _ (fun result same => same)

/- The sockets do what they do without references, and the counters are what they were: every
reference is given back, and nothing is destroyed by that. -/
structure Projects (x : Nodes) (o : NodesOutcome) (plain : SockOutcome) : Prop where
  dev : o.dev.dev = plain.dev
  refs : o.dev.refs = x.refs
  destroyed : o.dev.destroyed = x.destroyed
  wakes : o.wakes = plain.wakes
  raised : o.raised = plain.raised
  next : o.next = plain.next

theorem failedProjects (x : Nodes) (e) : Projects x (x.failed e) (x.dev.failed e) := ⟨rfl,rfl,rfl,rfl,rfl,rfl⟩

theorem dgramSendProjects (x : Nodes) (me pending m) : Projects x (x.dgramSend me pending m) (x.dev.dgramSend me pending m) := by
  have targets := targetTargets x me m.sock m.target
  unfold dgramSend Sockets.dgramSend
  split
  · exact failedProjects x _
  obtain ⟨plain,dev,error,ok⟩ := targets
  rw [plain]
  revert dev error ok
  cases x.dgramTarget me m.sock m.target with
  | mk result y =>
  intro dev error ok
  cases result with
  | error e =>
    rw [show y = x from error e rfl]
    exact failedProjects x _
  | ok found =>
  obtain ⟨held,t⟩ := found
  simp only [Except.map]
  rw [show y.dev = x.dev from dev,settlePut,show y.putHeld held = x from ok held t rfl]
  split
  · split
    · exact failedProjects x _
    split
    · exact failedProjects x _
    · exact ⟨rfl,rfl,rfl,rfl,rfl,rfl⟩
  split
  · exact failedProjects x _
  · exact ⟨rfl,rfl,rfl,rfl,rfl,rfl⟩

theorem connectLoopProjects (x : Nodes) (me pending c) :
    Projects x (x.connectLoop me pending c) (x.dev.connectLoop me pending c) := by
  unfold connectLoop Sockets.connectLoop
  split
  · rename_i e failed
    rw [lookupError failed]
    exact failedProjects x _
  rename_i n l y found
  have put := lookupPut found
  obtain ⟨_,held,plain⟩ := lookupOk found
  have settled d : (y.settle d).vfsIput n = x.settle d := (settlePut y d (some n)).trans (congrArg (settle · d) put)
  have same : y.dev = x.dev := by rw [held]; rfl
  rw [plain]
  dsimp only
  rw [settled,put,same]
  split
  · exact failedProjects x _
  split
  · exact failedProjects x _
  split
  · split
    · exact failedProjects x _
    · exact ⟨rfl,rfl,rfl,rfl,rfl,rfl⟩
  split
  · exact failedProjects x _
  split
  · exact failedProjects x _
  · exact ⟨rfl,rfl,rfl,rfl,rfl,rfl⟩

end Nodes
end Miviex
