import Miviex.SocketGraph

/-! Runs of processes that share sockets. A process in a call keeps a descriptor of the socket the
call is on, so that what sleeps in the kernel never points at a freed socket. -/
namespace Miviex.Sockets
open List Option Files
open Function (update update_of_ne update_self)
open Files (Held Dropped Change)

variable {d e : Sockets} {s t : Nat} {me : Addr} {first second : List Nat} {wakes : List Addr}

def Holds (d : Sockets) (p : Addr) : Prop := ∃ i f, d.files.fds p i = some f

structure Courteous (me : Addr) (d e : Sockets) : Prop where
  held : Held e.files none
  others : ∀ p, p ≠ me → e.files.fds p = d.files.fds p
  table : ∀ p i, maxFds ≤ i → e.files.fds p i = d.files.fds p i
  opened : ∀ p s, p ≠ me → Opened d p s → Opened e p s
  sends : d.log.sends <+: e.log.sends

theorem Courteous.same (held : Held d.files none) (files : e.files = d.files) (sends : d.log.sends <+: e.log.sends) :
    Courteous me d e := by
  refine ⟨by rw [files]; exact held,fun _ _ => by rw [files],fun _ _ _ => by rw [files],fun p s _ opened => ?_,sends⟩
  unfold Opened
  rw [files]
  exact opened

theorem Courteous.trans {f} (one : Courteous me d e) (two : Courteous me e f) : Courteous me d f where
  held := two.held
  others := fun p other => (two.others p other).trans (one.others p other)
  table := fun p i beyond => (two.table p i beyond).trans (one.table p i beyond)
  opened := fun p s other opened => two.opened p s other (one.opened p s other opened)
  sends := one.sends.trans two.sends

theorem openedDropped {files before gone p} (held : Held files none) (dropped : Dropped before files.objects gone)
    (grown : ∀ f, d.files.objects f = some s → before f = some s) (fds : files.fds p = d.files.fds p)
    (opened : Opened d p s) : Opened {d with files := files} p s := by
  obtain ⟨fd,f,names,has⟩ := opened
  have named : files.fds p fd = some f := by rw [fds]; exact names
  obtain ⟨x,inUse⟩ := held.named named
  have now : files.objects f = some x.object := by simp [Files.objects,inUse]
  have was := dropped.kept now
  rw [grown f has] at was
  exact ⟨fd,f,named,by rw [now,was]⟩

theorem Act.courteous (act : Act me d first e second wakes) (held : Held d.files none) : Courteous me d e := by
  cases act with
  | free _ s => refine Courteous.same held ?_ ?_ <;> rw [freeSame]
  | install _ s files gone room after dropped others table =>
    refine ⟨after,others,table,fun p t other opened => ?_,prefix_rfl⟩
    refine openedDropped after dropped (fun f has => ?_) (others p other) opened
    have apart : f ≠ d.files.next := by
      rintro rfl
      rw [room] at has
      cases has
    rw [update_of_ne apart]
    exact has
  | close _ files gone change =>
    refine ⟨change.held,change.others,change.table,fun p t other opened => ?_,prefix_rfl⟩
    exact openedDropped change.held change.objects (fun _ has => has) (change.others p other) opened
  | shut _ s connected =>
    unfold shutWrite
    dsimp only
    split <;> exact Courteous.same held rfl prefix_rfl
  | note _ view sends returned grown => exact Courteous.same held rfl grown
  | _ => exact Courteous.same held rfl prefix_rfl

theorem Acts.courteous (acts : Acts me d first e second wakes) (held : Held d.files none) : Courteous me d e := by
  induction acts with
  | nil => exact Courteous.same held rfl prefix_rfl
  | cons act _ ih =>
    have one := act.courteous held
    exact one.trans (ih one.held)

theorem Owned.joins {o} (owned : Owned d d.files.objects []) (held : Held d.files none)
    (alive : Live d s) (joins : Joins d s o) : Owned o.dev o.dev.files.objects [] ∧ Courteous me d o.dev := by
  obtain ⟨l,n,path,points,_,_,_,rfl⟩ := joins
  exact ⟨owned.joined alive points path,Courteous.same held rfl prefix_rfl⟩

theorem Owned.listens {o q} (owned : Owned d d.files.objects []) (held : Held d.files none) (listens : Listens d me q o) :
    Owned o.dev o.dev.files.objects [] ∧ Courteous me d o.dev := by
  obtain ⟨_,_,_,_,_,_,_,_,loose,rfl⟩ := listens
  refine ⟨owned.modify ⟨rfl,rfl,rfl,fun _ connected => absurd connected loose,fun idle stream _ => ?_⟩,
    Courteous.same held rfl prefix_rfl⟩
  exact idle stream loose

structure Sound (idle : Addr) (m : Machine) : Prop where
  consistent : Scheduler.Consistent idle m.sched
  held : Held m.dev.files none
  table : ∀ p i, maxFds ≤ i → m.dev.files.fds p i = none
  holders : ∀ p, Holds m.dev p → Scheduler.Alive m.sched p
  owned : Owned m.dev m.dev.files.objects []
  seated : ∀ p c, m.calls p = some c → Opened m.dev p c.sock
  numbered : ∀ p w, m.calls p = some (.send w) → m.dev.log.sends[w.id]? = some w.sock

section Steps
variable {idle : Addr} {m n : Machine} {pending : Bool}

theorem Sound.number (sound : Sound idle m) {call} (inside : m.calls me = some call) (w) (same : call = .send w) :
    m.dev.log.sends[w.id]? = some w.sock := sound.numbered me w (same ▸ inside)

theorem Sound.exit (sound : Sound idle m) (me) : Acts me m.dev [] (m.dev.exit me).1 [] (m.dev.exit me).2 :=
  exitActs sound.held (sound.table me)

theorem Sound.entered (sound : Sound idle m) (q) : let o := m.dev.enter me pending q
    Owned o.dev o.dev.files.objects [] ∧ Courteous me m.dev o.dev := by
  rcases enterEffect me sound.held pending q with acts | ⟨s,opened,_,_,joins⟩ | listens
  · exact ⟨acts.owned sound.owned,acts.courteous sound.held⟩
  · exact sound.owned.joins sound.held (sound.owned.opened opened).1 joins
  · exact sound.owned.listens sound.held listens

theorem Sound.resumed (sound : Sound idle m) {call} (inside : m.calls me = some call) :
    let o := m.dev.resume me pending call
    Owned o.dev o.dev.files.objects [] ∧ Courteous me m.dev o.dev := by
  rcases resumeEffect me sound.held pending call (sound.number inside) with ⟨acts,_⟩ | ⟨c,rfl,joins⟩
  · exact ⟨acts.owned sound.owned,acts.courteous sound.held⟩
  · exact sound.owned.joins sound.held (sound.owned.opened (sound.seated me _ inside)).1 joins

theorem holdsCourteous {p} (courteous : Courteous me d e) (holds : Holds e p) : p = me ∨ Holds d p := by
  by_cases mine : p = me
  · exact .inl mine
  obtain ⟨i,f,names⟩ := holds
  rw [courteous.others p mine] at names
  exact .inr ⟨i,f,names⟩

theorem prefixAt {α : Type} {xs ys} {i : Nat} {x : α} (grown : xs <+: ys) (here : xs[i]? = some x) : ys[i]? = some x := by
  obtain ⟨more,rfl⟩ := grown
  rw [List.getElem?_append_left (List.getElem?_eq_some_iff.mp here).1]
  exact here

theorem Sound.calls (sound : Sound idle m) {o : SockOutcome} (courteous : Courteous me m.dev o.dev)
    (mine : ∀ on c, o.next = .asleep on c → Opened o.dev me c.sock ∧ ∀ w, c = .send w → o.dev.log.sends[w.id]? = some w.sock) :
    (∀ p c, update m.calls me o.next.call p = some c → Opened o.dev p c.sock) ∧
    ∀ p w, update m.calls me o.next.call p = some (.send w) → o.dev.log.sends[w.id]? = some w.sock := by
  have own c (call : o.next.call = some c) : ∃ on, o.next = .asleep on c := by
    cases ends : o.next with
    | done answer => rw [ends] at call; cases call
    | asleep on c' =>
      rw [ends] at call
      cases call
      exact ⟨on,rfl⟩
  constructor
  · intro p c inside
    by_cases same : p = me
    · subst same
      rw [update_self] at inside
      obtain ⟨on,sleeps⟩ := own c inside
      exact (mine on c sleeps).1
    rw [update_of_ne same] at inside
    exact courteous.opened p _ same (sound.seated p c inside)
  intro p w inside
  by_cases same : p = me
  · subst same
    rw [update_self] at inside
    obtain ⟨on,sleeps⟩ := own _ inside
    exact (mine on _ sleeps).2 w rfl
  rw [update_of_ne same] at inside
  exact prefixAt courteous.sends (sound.numbered p w inside)

theorem sleepsOpened {o on c} (opened : Opened d me s) (sleeps : Sleeps d s pending o on c) : Opened o.dev me c.sock := by
  unfold Opened
  rw [sleeps.files,sleeps.sock]
  exact opened

section

variable (sound : Sound idle m)
include sound

theorem Sound.blank {child} (fresh : child ∉ m.sched.allProcs) (i) : m.dev.files.fds child i = none := by
  cases names : m.dev.files.fds child i with
  | none => rfl
  | some f => exact absurd (sound.holders child ⟨i,f,names⟩).live fresh

section

variable (consistent : Scheduler.Consistent idle n.sched)
include consistent

section

variable (holders : ∀ p, Holds n.dev p → Scheduler.Alive n.sched p)
include holders

theorem Sound.finished {o : SockOutcome} (result : n = m.finish me o)
    (effect : Owned o.dev o.dev.files.objects [] ∧ Courteous me m.dev o.dev)
    (mine : ∀ on c, o.next = .asleep on c → Opened o.dev me c.sock ∧
    ∀ w, c = .send w → o.dev.log.sends[w.id]? = some w.sock) : Sound idle n := by
  obtain ⟨owned,courteous⟩ := effect
  obtain ⟨seated,numbered⟩ := sound.calls courteous mine
  have dev : n.dev = o.dev := by rw [result,Calls.finishDev]
  have calls : n.calls = update m.calls me o.next.call := by rw [result,Calls.finishCalls]
  refine ⟨consistent,?_,fun p i beyond => ?_,holders,?_,fun p c inside => ?_,fun p w inside => ?_⟩
  · rw [dev]; exact courteous.held
  · rw [dev,courteous.table p i beyond]; exact sound.table p i beyond
  · rw [dev]; exact owned
  · rw [dev]; exact seated p c (by rw [← calls]; exact inside)
  · rw [dev]; exact numbered p w (by rw [← calls]; exact inside)

theorem Sound.forked {child} (fresh : child ∉ m.sched.allProcs)
    (dev : n.dev = {m.dev with files := m.dev.files.forkFds me child})
    (calls : n.calls = update m.calls child none) : Sound idle n := by
  have change : Change child m.dev.files (m.dev.files.forkFds me child) [] :=
    forkChange sound.held (sound.blank fresh)
  have courteous := (Act.close m.dev [] _ _ change).courteous sound.held
  have owned := (Act.close m.dev [] _ _ change).owned sound.owned
  have before p c (inside : n.calls p = some c) : p ≠ child ∧ m.calls p = some c := by
    rw [calls] at inside
    by_cases new : p = child
    · subst new; simp at inside
    rw [update_of_ne new] at inside
    exact ⟨new,inside⟩
  refine ⟨consistent,?_,fun p i beyond => ?_,holders,?_,fun p c inside => ?_,fun p w inside => ?_⟩
  · rw [dev]; exact change.held
  · rw [dev]; exact (change.table p i beyond).trans (sound.table p i beyond)
  · rw [dev]; exact owned
  · rw [dev]
    obtain ⟨other,old⟩ := before p c inside
    exact courteous.opened p _ other (sound.seated p c old)
  rw [dev]
  exact sound.numbered p w (before p _ inside).2

theorem Sound.exited (outside : m.calls me = none)
    (dev : n.dev = (m.dev.exit me).1) (calls : n.calls = m.calls) : Sound idle n := by
  have acts := sound.exit me
  have courteous := acts.courteous sound.held
  have owned := acts.owned sound.owned
  rw [← dev] at courteous owned
  have other : ∀ p c, m.calls p = some c → p ≠ me := by
    rintro p c inside rfl
    rw [outside] at inside
    cases inside
  refine ⟨consistent,courteous.held,fun p i beyond => ?_,holders,owned,fun p c inside => ?_,fun p w inside => ?_⟩
  · rw [courteous.table p i beyond]; exact sound.table p i beyond
  · rw [calls] at inside
    exact courteous.opened p _ (other p c inside) (sound.seated p c inside)
  rw [calls] at inside
  exact prefixAt courteous.sends (sound.numbered p w inside)

end

end

theorem exitHolds (p) (holds : Holds (m.dev.exit me).1 p) : p ≠ me ∧ Holds m.dev p := by
  have acts := sound.exit me
  have files : (m.dev.exit me).1.files = (m.dev.files.closeAll me).1 := by
    unfold exit
    rw [releaseFiles]
  have gone : p ≠ me := by
    rintro rfl
    obtain ⟨i,f,names⟩ := holds
    rw [files,(exitChange sound.held (sound.table p)).2 i] at names
    cases names
  exact ⟨gone,(holdsCourteous (acts.courteous sound.held) holds).resolve_left gone⟩

theorem stepHolders {e} (taken : step idle m e = some n) : ∀ p, Holds n.dev p → Scheduler.Alive n.sched p := by
  refine Calls.stepHolders sound.consistent sound.holders ?_ ?_ ?_ ?_ taken
  · exact fun me pending q p holds => holdsCourteous (sound.entered q).2 holds
  · exact fun me pending call p inside holds => holdsCourteous (sound.resumed inside).2 holds
  · rintro me child p ⟨i,f,names⟩
    by_cases new : p = child
    · exact .inl new
    refine .inr ⟨i,f,?_⟩
    rw [← names]
    exact (congrFun (forkOthers m.dev.files me new) i).symm
  · exact fun me p holds => exitHolds sound p holds

theorem stepSound {e} (taken : step idle m e = some n) : Sound idle n := by
  have consistent := Calls.stepConsistent sound.consistent taken
  have holders := stepHolders sound taken
  cases Calls.stepTurn taken with
  | still dev _ calls _ =>
    refine ⟨consistent,?_,?_,holders,?_,fun p c inside => ?_,fun p w inside => ?_⟩ <;> rw [dev]
    · exact sound.held
    · exact sound.table
    · exact sound.owned
    · exact sound.seated p c (calls p c inside)
    · exact sound.numbered p w (calls p _ inside)
  | entered me q o outside entry result =>
    subst entry
    refine sound.finished consistent holders result (sound.entered q) (fun on c sleeps => ?_)
    obtain ⟨s,opened,slept⟩ := enterSleeps rfl sleeps
    exact ⟨sleepsOpened opened slept,slept.number⟩
  | resumed me call o inside goes result =>
    subst goes
    refine sound.finished consistent holders result (sound.resumed inside) (fun on c sleeps => ?_)
    have slept := resumeSleeps (fun w same => sound.numbered me w (same ▸ inside)) rfl sleeps
    exact ⟨sleepsOpened (sound.seated me call inside) slept,slept.number⟩
  | forked me child _ fresh dev _ calls => exact sound.forked consistent holders fresh dev calls
  | exited me outside dev _ calls => exact sound.exited consistent holders outside dev calls

end

theorem bootSound (idle view) : Sound idle (boot idle view) where
  consistent := Scheduler.bootConsistent idle
  held := emptyHeld
  table := fun _ _ _ => rfl
  holders := fun _ ⟨_,_,names⟩ => nomatch names
  owned := {
    fresh := fun _ live => nomatch live
    freshNode := fun _ _ points => nomatch points
    live := fun s place has => by cases place <;> cases has
    single := fun s one two has => by cases one <;> cases has
    distinct := fun _ => nodup_nil
    handed := nodup_nil
    queued := fun _ _ inside => nomatch inside
    bound := fun _ _ => ⟨nofun,nofun⟩
    idle := fun _ _ _ => rfl }
  seated := fun _ _ inside => nomatch inside
  numbered := fun _ _ inside => nomatch inside

end Steps

/- The pointers between the sockets in use, from the files bound to them and from the open
descriptions. -/
structure Wired (d : Sockets) : Prop where
  peer : ∀ s x p, d.sock s = some x → x.peer = some p → ∃ y, d.sock p = some y ∧ y.peer = some s
  backlog : ∀ l z c, d.sock l = some z → c ∈ z.backlog → ∃ y, d.sock c = some y ∧ y.state = .connected
  bound : ∀ s x n, d.sock s = some x → x.bound = some n → d.ptr n = some s
  ptr : ∀ n s, d.ptr n = some s → (d.sock s).isSome = true
  opened : ∀ f x, d.files.file f = some x → (d.sock x.object).isSome = true

theorem wiredOwned (owned : Owned d d.files.objects []) (mutual_ : Mutual d) : Wired d where
  peer := by
    intro s x p found peer
    rw [← (getSome found).1] at peer
    have back := (mutual_ s p peer).2
    exact ⟨d.get p,liveSome (peerLive back),back⟩
  backlog := by
    intro l z c found inside
    rw [← (getSome found).1] at inside
    exact ⟨d.get c,liveSome (owned.live c (.queue l) inside),(owned.queued l c inside).2.1⟩
  bound := by
    intro s x n found bound
    rw [← (getSome found).1] at bound
    exact (owned.bound s n).mp bound
  ptr := fun n s points => (owned.bound_ points).2.1
  opened := fun f x found => owned.live x.object (.file f) (by simp [Owns,Files.objects,found])

/- The listener that the path leads to has room, and there is memory for the connection. -/
def Completes (d : Sockets) (me : Addr) (c : Connecting) : Prop :=
  ∃ l, d.lookup me c.path = .ok l ∧ (d.get l).type = .stream ∧ (d.get l).state = .listening ∧
    (d.get l).backlog.length < (d.get l).maxback ∧ c.memory

theorem completesConnects (d : Sockets) (me pending c) :
    (d.connectLoop me pending c).next = .done (.number 0) ↔ Completes d me c := by
  unfold connectLoop Completes
  cases d.lookup me c.path with
  | error e => simp [failed]
  | ok l =>
    dsimp only
    split_ifs <;> simp_all [failed]

/- A connection completed from a socket that has one: both `connect` calls slept on the
backlog, and the second looks at the listener only when it wakes. -/
def Doubled (idle : Addr) (m : Machine) (e : Calls.Event SockRequest) : Prop :=
  e = .resume ∧ ∃ me c, m.caller idle = some me ∧ m.calls me = some (.connect c) ∧
    (m.dev.get c.sock).peer ≠ none ∧ Completes m.dev me c

section Graph
variable {idle : Addr} {m n : Machine}

section

variable (sound : Sound idle m) (mutual_ : Mutual m.dev)
include sound mutual_

theorem enterMutual (pending q) : Mutual (m.dev.enter me pending q).dev := by
  rcases enterEffect me sound.held pending q with acts | ⟨s,opened,stream,loose,joins⟩ | listens
  · exact acts.mutual_ sound.owned mutual_
  · obtain ⟨l,_,path,_,_,_,_,shape⟩ := joins
    rw [shape]
    have free := sound.owned.idle s stream (by rw [loose]; nofun)
    exact mutual_.joined sound.owned (sound.owned.opened opened).1 free l path
  obtain ⟨_,_,_,_,_,_,_,_,_,shape⟩ := listens
  rw [shape]
  exact mutual_.same (modifyPeer rfl)

theorem resumeMutual {call pending} (inside : m.calls me = some call)
    (once : ∀ c, call = .connect c → (m.dev.connectLoop me pending c).next = .done (.number 0) →
    (m.dev.get c.sock).peer = none) : Mutual (m.dev.resume me pending call).dev := by
  rcases resumeEffect me sound.held pending call (sound.number inside) with ⟨acts,_⟩ | ⟨c,rfl,joins⟩
  · exact acts.mutual_ sound.owned mutual_
  obtain ⟨l,_,path,_,_,_,_,shape⟩ := joins
  have completes : (m.dev.connectLoop me pending c).next = .done (.number 0) := by
    change (m.dev.resume me pending (.connect c)).next = _
    rw [shape]
  rw [shape]
  exact mutual_.joined sound.owned (sound.owned.opened (sound.seated me _ inside)).1 (once c rfl completes) l path

theorem stepMutual {e} (once : ¬ Doubled idle m e)
      (taken : step idle m e = some n) : Mutual n.dev := by
  cases Calls.stepDid taken with
  | kernel taken =>
    obtain ⟨_,_,_,_,dev,_⟩ := Calls.kernelStep taken
    rw [dev]
    exact mutual_
  | request q =>
    rw [Calls.finishDev]
    exact enterMutual sound mutual_ _ q
  | @resume me call current inside =>
    rw [Calls.finishDev]
    refine resumeMutual sound mutual_ inside (fun c same completes => ?_)
    subst same
    by_contra peer
    exact once ⟨rfl,me,c,current,inside,peer,(completesConnects ..).mp completes⟩
  | unforked | forked => exact mutual_
  | @exit me =>
    have acts := sound.exit me
    have left : Mutual (m.dev.exit me).1 := acts.mutual_ sound.owned mutual_
    rw [Calls.exitDev]
    exact left

theorem doubledBroken {e} (doubled : Doubled idle m e) (taken : step idle m e = some n) : ¬ Wired n.dev := by
  obtain ⟨rfl,me,c,current,inside,peer,completes⟩ := doubled
  simp only [step,Calls.System.step,current,inside,bind_some,Option.some.injEq] at taken
  subst taken
  rw [Calls.finishDev]
  obtain ⟨p,first⟩ := ne_none_iff_exists'.mp peer
  rcases resumeEffect me sound.held (m.pending me) (.connect c) (by simp) with ⟨_,unfinished⟩ | ⟨c',same,joins⟩
  · exact absurd ((completesConnects ..).mpr completes) (unfinished c rfl)
  cases same
  obtain ⟨l,_,path,_,_,_,_,shape⟩ := joins
  change ¬ Wired (m.dev.resume me (m.pending me) (.connect c)).dev
  rw [shape]
  obtain ⟨old,back,new⟩ := mutual_.doubled sound.owned first l path
  intro wired
  obtain ⟨y,found,points⟩ := wired.peer p _ c.sock (liveSome (peerLive back)) back
  rw [← (getSome found).1,new] at points
  exact old (Option.some.inj points).symm

end

/- The pointers are right in every state of a run exactly when no connection is completed
from a socket that has one. -/
theorem socketGraph (idle : Addr) (view : View) (events : List (Calls.Event SockRequest)) :
    (∀ m ∈ Runs.visited (step idle) (boot idle view) events, Wired m.dev) ↔
    ∀ move ∈ Runs.moves (step idle) (boot idle view) events, ¬ Doubled idle move.1 move.2 := by
  have sound (m : Machine) (good : Sound idle m ∧ Mutual m.dev) : Wired m.dev := wiredOwned good.1.owned good.2
  have preserved (m : Machine) e n (good : Sound idle m ∧ Mutual m.dev) (once : ¬ Doubled idle m e)
      (taken : step idle m e = some n) :
      Sound idle n ∧ Mutual n.dev :=
    ⟨stepSound good.1 taken,stepMutual good.1 good.2 once taken⟩
  have broken (m : Machine) e n (good : Sound idle m ∧ Mutual m.dev) (doubled : Doubled idle m e) (taken : step idle m e = some n) :
      ¬ Wired n.dev :=
    doubledBroken good.1 good.2 doubled taken
  exact Runs.visitedIff sound preserved broken ⟨bootSound idle view,fun _ _ peer => nomatch peer⟩

end Graph

def oneFile : View where
  resolve := fun _ path => if path = [47,97] then .ok 0 else .error .enoent
  isSocket := fun n => n = 0
  permission := fun _ _ => none

/- Two processes share a socket and connect it while the backlog of one is full. Each of them
gets its turn after an `accept`. -/
def connectTwice : List (Calls.Event SockRequest) :=
  [.kernel (.createUser (some 1) prioUser),.kernel .start,
    .request (.socket 1 1 0 false false 64 true true),.request (.bind 0 (.ok [47,97]) none (.ok ())),
    .request (.listen 0 1),.request (.socket 1 1 0 false false 64 true true),
    .request (.connect 1 false (.ok [47,97]) true),.request (.socket 1 1 0 false false 64 true true),
    .fork (some 2) true,.fork (some 3) true,
    .kernel .yield,.request (.connect 2 false (.ok [47,97]) true),
    .request (.connect 2 false (.ok [47,97]) true),
    .request (.accept 0 true false false 64 true none),.kernel .yield,.resume,.kernel .yield,.resume,
    .request (.accept 0 true false false 64 true none),.kernel .yield,.kernel .yield,.resume]

theorem connectTwiceBroken : ∃ m ∈ Runs.visited (step 0) (boot 0 oneFile) connectTwice, ¬ Wired m.dev := by
  have ended : (Runs.run (step 0) (boot 0 oneFile) connectTwice).map (fun m =>
      ((m.dev.sock 4).map Sock.peer,(m.dev.sock 3).map Sock.peer)) = some (some (some 3),some (some 5)) := by
    decide +kernel
  obtain ⟨m,seen,same⟩ := Runs.visitedShows ended
  simp only [Prod.mk.injEq,map_eq_some_iff] at same
  obtain ⟨⟨x,server,points⟩,y,client,other⟩ := same
  refine ⟨m,seen,fun wired => ?_⟩
  obtain ⟨z,found,back⟩ := wired.peer 4 x 3 server points
  rw [client] at found
  cases found
  rw [other] at back
  cases back
end Miviex.Sockets
