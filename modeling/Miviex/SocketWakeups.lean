import Miviex.SocketRuns

/-! Who sleeps on a socket sleeps for a reason. Two calls wake nobody though they change what a
sleeping call waits for: `listen` on a listening socket with a longer backlog, and a connection
completed from a socket that has begun to listen since. -/
namespace Miviex.Sockets

open Runs
open Calls (Heeds Asleep)

variable {d e : Sockets} {s t : Nat} {me : Addr} {first second : List Nat} {wakes : List Addr} {c : SockCall}
  {objects : Nat → Option Nat} {hand : List Nat}

structure Alike (x y : Sock) : Prop where
  type : y.type = x.type
  len : y.ring.len = x.ring.len
  backlog : y.backlog = x.backlog
  maxback : y.maxback = x.maxback
  eof : y.eof = x.eof
  rdShut : y.rdShut = x.rdShut

theorem Alike.refl (x) : Alike x x := ⟨rfl,rfl,rfl,rfl,rfl,rfl⟩

structure Aims (c : SockCall) (d e : Sockets) : Prop where
  send : ∀ w, c = .send w → (e.get w.sock).peer = (d.get w.sock).peer ∧ (e.get w.sock).wrShut = (d.get w.sock).wrShut
  connect : ∀ q, c = .connect q → (d.get q.on).type = .stream → (e.get q.on).state = (d.get q.on).state

theorem waitsLive (mutual_ : Mutual d) (live : Live d c.sock) (waits : c.Waits d) :
    Live d c.chan ∨ ∀ e : Sockets, c.Waits e := by
  cases c with
  | recv r => exact .inl live
  | send w => exact .inl (peerLive (mutual_ _ _ waits.2.1).2)
  | mail m => exact .inr (fun _ => trivial)
  | accept a => exact .inl live
  | connect c =>
    refine .inl ?_
    by_contra dead
    have listening : (d.get c.on).state = .listening := waits.2.1
    have none_ : d.get c.on = blank := getDead dead
    rw [none_] at listening
    cases listening

theorem aimsModify {f} (same : (f (d.get s)).peer = (d.get s).peer ∧ (f (d.get s)).wrShut = (d.get s).wrShut)
    (state : (d.get s).type = .stream → (f (d.get s)).state = (d.get s).state) : Aims c d (d.modify s f) := by
  constructor
  · intro w _
    rw [getModify]
    split
    · rename_i here
      rw [here.1]
      exact same
    · exact ⟨rfl,rfl⟩
  intro q _ stream
  rw [getModify]
  split
  · rename_i here
    rw [here.1] at stream ⊢
    exact state stream
  · rfl

theorem alikeModify {f} (alike : Alike (d.get s) (f (d.get s))) (t) : Alike (d.get t) ((d.modify s f).get t) := by
  rw [getModify]
  split
  · rename_i here
    rw [here.1]
    exact alike
  · exact Alike.refl _

section

variable (waits : c.Waits d)
include waits

theorem waitsAlike (alike : Alike (d.get c.chan) (e.get c.chan)) (aims : Aims c d e) : c.Waits e := by
  cases c with
  | recv r =>
    intro stream
    obtain ⟨empty,open_,reads⟩ := waits (alike.type.symm.trans stream)
    exact ⟨alike.len.trans empty,alike.eof.trans open_,alike.rdShut.trans reads⟩
  | send w =>
    obtain ⟨full,peer,own,reads⟩ := waits
    obtain ⟨samePeer,sameShut⟩ := aims.send w rfl
    exact ⟨alike.len.trans full,samePeer.trans peer,sameShut.trans own,alike.rdShut.trans reads⟩
  | mail m => trivial
  | accept a => exact alike.backlog.trans waits
  | connect c =>
    obtain ⟨stream,listening,full⟩ := waits
    refine ⟨alike.type.trans stream,(aims.connect c rfl stream).trans listening,?_⟩
    have limit : (e.get c.on).maxback = (d.get c.on).maxback := alike.maxback
    have queue : (e.get c.on).backlog = (d.get c.on).backlog := alike.backlog
    rw [limit,queue]
    exact full

theorem waitsSame (same : e.sock = d.sock) : c.Waits e := by
  have gets t : e.get t = d.get t := by simp only [get,same]
  refine waitsAlike waits ?_ ⟨fun w _ => ?_,fun q _ _ => ?_⟩ <;> rw [gets]
  · exact Alike.refl _
  · exact ⟨rfl,rfl⟩

theorem waitsModify {f} (apart : c.chan ≠ s)
    (same : (f (d.get s)).peer = (d.get s).peer ∧ (f (d.get s)).wrShut = (d.get s).wrShut)
    (state : (d.get s).type = .stream → (f (d.get s)).state = (d.get s).state) : c.Waits (d.modify s f) := by
  refine waitsAlike waits ?_ (aimsModify same state)
  rw [getModifyOther apart]
  exact Alike.refl _

theorem shutKeeps (unwoken : c.chan ∉ (d.shutWrite s).2) : c.Waits (d.shutWrite s).1 := by
  have peerS : ((d.modify s (fun x => {x with wrShut := true})).get s).peer = (d.get s).peer := modifyPeer rfl s
  -- a send from this socket would sleep on the peer
  have other : ∀ w, c = .send w → w.sock ≠ s := by
    rintro w rfl rfl
    have peer : (d.get w.sock).peer = some w.on := waits.2.1
    unfold shutWrite at unwoken
    rw [peer] at peerS
    dsimp only at unwoken
    rw [peerS] at unwoken
    exact unwoken (List.mem_singleton_self _)
  have shuts : c.Waits (d.modify s (fun x => {x with wrShut := true})) := by
    refine waitsAlike waits (alikeModify ⟨rfl,rfl,rfl,rfl,rfl,rfl⟩ _) ⟨fun w sends => ?_,fun q _ _ => ?_⟩
    · rw [getModifyOther (other w sends)]
      exact ⟨rfl,rfl⟩
    rw [getModify]
    split
    · rename_i here
      rw [here.1]
    · rfl
  unfold shutWrite at unwoken ⊢
  dsimp only at unwoken ⊢
  split at unwoken
  · exact shuts
  · exact waitsModify shuts (by simpa using unwoken) ⟨rfl,rfl⟩ (fun _ => rfl)

theorem listenKeeps {backlog}
    (full : ∀ q, c = .connect q → q.on = s → clampBacklog backlog ≤ (d.get s).backlog.length) :
    c.Waits (d.modify s (fun x => {x with state := .listening, maxback := clampBacklog backlog})) := by
  have same : ∀ t, ∃ state limit, (d.modify s (fun x => {x with state := .listening, maxback := clampBacklog backlog})).get t =
        {d.get t with state := state, maxback := limit} := by
    intro t
    rw [getModify]
    split
    · rename_i here
      exact ⟨_,_,by rw [here.1]⟩
    · exact ⟨_,_,rfl⟩
  cases c with
  | recv r =>
    obtain ⟨_,_,own⟩ := same r.sock
    simp only [SockCall.Waits,own]
    exact waits
  | send w =>
    obtain ⟨_,_,own⟩ := same w.sock
    obtain ⟨_,_,on⟩ := same w.on
    simp only [SockCall.Waits,own,on]
    exact waits
  | mail m => trivial
  | accept a =>
    obtain ⟨_,_,own⟩ := same a.sock
    simp only [SockCall.Waits,own]
    exact waits
  | connect q =>
    simp only [SockCall.Waits]
    rw [getModify]
    split
    · rename_i here
      obtain ⟨stream,_,_⟩ := waits
      rw [here.1] at stream
      exact ⟨stream,rfl,full q rfl here.1⟩
    · exact waits

end

theorem freedKeeps {gone} (freed : Freed d e gone wakes) (mutual_ : Mutual d) (waits : c.Waits d)
    (unwoken : c.chan ∉ wakes) : c.Waits e := by
  have here : c.chan ∉ gone := fun inside => unwoken (freed.woken _ inside)
  have same : e.get c.chan = d.get c.chan := (freed.kept _ here).resolve_right (fun ⟨_,woken,_⟩ => unwoken woken)
  refine waitsAlike waits (by rw [same]; exact Alike.refl _) ⟨fun w sends => ?_,fun q connects _ => ?_⟩
  rotate_left
  · subst connects
    have still : e.get q.on = d.get q.on := same
    rw [still]
  subst sends
  have peer : (d.get w.sock).peer = some w.on := waits.2.1
  have back : (d.get w.on).peer = some w.sock := (mutual_ _ _ peer).2
  have there : w.on ∉ gone := here
  have own : w.sock ∉ gone := by
    intro inside
    have alone : ∀ h ∈ gone, (d.get h).peer ≠ some w.sock := by
      intro h other points
      have second := (mutual_ _ _ points).2
      rw [peer] at second
      exact there (Option.some.inj second ▸ other)
    have cut := freed.cut w.sock w.on inside peer there (peerLive back) alone
    have still : e.get w.on = d.get w.on := same
    rw [still] at cut
    rw [cut] at back
    cases back
  rcases freed.kept w.sock own with kept | ⟨_,_,_,g,inside,points⟩
  · rw [kept]
    exact ⟨rfl,rfl⟩
  have second := (mutual_ _ _ points).2
  rw [peer] at second
  exact absurd (Option.some.inj second ▸ inside) there

theorem Act.keeps (act : Act me d first e second wakes) (owned : Owned d d.files.objects first) (mutual_ : Mutual d)
    (live : Live d c.sock) (waits : c.Waits d) (unwoken : c.chan ∉ wakes) : c.Waits e := by
  have old t (alive : Live d t) : t ≠ d.next ∧ t ≠ d.next+1 := by
    have below := owned.fresh t alive
    omega
  have aims : (∀ t, Live d t → e.get t = d.get t) → Live d c.chan → Aims c d e := by
    intro same there
    constructor
    · rintro w rfl
      have own : e.get w.sock = d.get w.sock := same _ live
      rw [own]
      exact ⟨rfl,rfl⟩
    rintro q rfl _
    have on : e.get q.on = d.get q.on := same _ there
    rw [on]
  cases act with
  | make _ type =>
    have same t (alive : Live d t) : (d.sockNew type).2.get t = d.get t := by
      rw [(getNew d type t).1,if_neg (old t alive).1]
    rcases waitsLive mutual_ live waits with alive | always
    · exact waitsAlike waits (by rw [same _ alive]; exact Alike.refl _) (aims same alive)
    · exact always _
  | pair _ type =>
    have same t (alive : Live d t) : (d.sockPair type).2.2.get t = d.get t := by
      rw [getPair,if_neg (old t alive).1,if_neg (old t alive).2]
    rcases waitsLive mutual_ live waits with alive | always
    · exact waitsAlike waits (by rw [same _ alive]; exact Alike.refl _) (aims same alive)
    · exact always _
  | free _ s => exact freedKeeps owned.freed.2 mutual_ waits unwoken
  | install | close => exact waitsSame waits rfl
  | pop _ s c rest queue => exact waitsModify waits (by simpa using unwoken) ⟨rfl,rfl⟩ (fun _ => rfl)
  | bind _ s path opened unbound =>
    have kept : c.Waits (d.modify s (fun x => {x with bound := some d.nextNode, name := path})) :=
      waitsAlike waits (alikeModify ⟨rfl,rfl,rfl,rfl,rfl,rfl⟩ _) (aimsModify ⟨rfl,rfl⟩ (fun _ => rfl))
    exact waitsSame kept rfl
  | aim _ s path state dgram calm =>
    refine waitsAlike waits (alikeModify ⟨rfl,rfl,rfl,rfl,rfl,rfl⟩ _) (aimsModify ⟨rfl,rfl⟩ (fun stream => ?_))
    rw [dgram] at stream
    cases stream
  | tune _ s f frame => exact waitsModify waits (by simpa using unwoken) (by rw [frame]; exact ⟨rfl,rfl⟩) (fun _ => by rw [frame])
  | take _ s k inside =>
    have kept : c.Waits (d.modify s (fun x => {x with ring := x.ring.drop sockBuf k})) :=
      waitsModify waits (by simpa using unwoken) ⟨rfl,rfl⟩ (fun _ => rfl)
    exact waitsSame kept rfl
  | place _ s p id src number peer writes =>
    have kept : c.Waits (d.modify p (fun y => {y with ring := ((d.get p).ring.fill sockBuf src).1})) :=
      waitsModify waits (by simpa using unwoken) ⟨rfl,rfl⟩ (fun _ => rfl)
    exact waitsSame kept rfl
  | shut _ s connected => exact shutKeeps waits unwoken
  | note => exact waitsSame waits rfl

theorem Acts.keeps {p} (acts : Acts me d first e second wakes) (held : Files.Held d.files none)
    (owned : Owned d d.files.objects first) (mutual_ : Mutual d) (other : p ≠ me) (opened : Opened d p c.sock)
    (waits : c.Waits d) (unwoken : c.chan ∉ wakes) : c.Waits e := by
  induction acts with
  | nil => exact waits
  | cons act _ ih =>
    rw [List.mem_append,not_or] at unwoken
    have courteous := act.courteous held
    have kept := act.keeps owned mutual_ (owned.opened opened).1 waits unwoken.1
    exact ih courteous.held (act.owned owned) (act.mutual_ owned mutual_) (courteous.opened p _ other opened) kept
      unwoken.2

theorem joinKeeps {l path} (owned : Owned d objects hand) (mutual_ : Mutual d) (alive : Live d s)
    (free : (d.get s).peer = none) (live : Live d c.sock) (waits : c.Waits d) (unwoken : c.chan ≠ l)
    (idle : ∀ q, c = .connect q → q.on ≠ s) : c.Waits (d.join s l path) := by
  have apart : s ≠ d.next := Nat.ne_of_lt (owned.fresh s alive)
  rcases waitsLive mutual_ live waits with there | always
  swap
  · exact always _
  have old := Nat.ne_of_lt (owned.fresh _ there)
  have own := Nat.ne_of_lt (owned.fresh _ live)
  have linked : c.Waits (d.linked s l path) := by
    refine waitsAlike waits ?_ ⟨fun w sends => ?_,fun q connects _ => ?_⟩
    · rw [getLinked alive apart,if_neg old]
      split
      · rename_i here
        rw [here]
        exact ⟨rfl,rfl,rfl,rfl,rfl,rfl⟩
      · exact Alike.refl _
    · subst sends
      have peer : (d.get w.sock).peer = some w.on := waits.2.1
      have notOwn : w.sock ≠ s := by
        rintro rfl
        rw [free] at peer
        cases peer
      have known : w.sock ≠ d.next := own
      rw [getLinked alive apart,if_neg known,if_neg notOwn]
      exact ⟨rfl,rfl⟩
    subst connects
    have known : q.on ≠ d.next := old
    rw [getLinked alive apart,if_neg known,if_neg (idle q rfl)]
  have queued : c.Waits ((d.linked s l path).modify l (fun z => {z with backlog := z.backlog ++ [d.next]})) :=
    waitsModify linked unwoken ⟨rfl,rfl⟩ (fun _ => rfl)
  exact waitsSame queued rfl

def Raised (idle : Addr) (m : Machine) (e : Calls.Event SockRequest) : Prop :=
  ∃ fd backlog me g x, e = .request (.listen fd backlog) ∧ m.caller idle = some me ∧
    m.dev.fdSock me fd = some (g,x) ∧ (m.dev.get x.object).state = .listening ∧
    (m.dev.get x.object).backlog.length < clampBacklog backlog ∧
    ∃ p ∈ m.sched.allProcs, (m.sched.procs p).state = .blocked ∧ ∃ c, m.calls p = some (.connect c) ∧ c.on = x.object

def Diverted (idle : Addr) (m : Machine) (e : Calls.Event SockRequest) : Prop :=
  e = .resume ∧ ∃ me c, m.caller idle = some me ∧ m.calls me = some (.connect c) ∧
    Completes m.dev me c ∧ (m.dev.get c.sock).state = .listening ∧
    ∃ p ∈ m.sched.allProcs, (m.sched.procs p).state = .blocked ∧ ∃ other, m.calls p = some (.connect other) ∧ other.on = c.sock

section Steps
variable {idle : Addr} {m n : Machine}

theorem asleepOpened (sound : Sound idle m) (current : m.caller idle = some me) (asleep : Asleep m c) :
    ∃ p, p ≠ me ∧ Opened m.dev p c.sock ∧ p ∈ m.sched.allProcs ∧ (m.sched.procs p).state = .blocked ∧ m.calls p = some c := by
  obtain ⟨p,on,dozes,inside⟩ := asleep
  refine ⟨p,?_,sound.seated p c inside,dozes.live,dozes.asleep,inside⟩
  rintro rfl
  have runs := sound.consistent.currentRuns p (Calls.callerCurrent current).1
  rw [dozes.asleep] at runs
  cases runs

theorem enterHeeds (sound : Sound idle m) (mutual_ : Mutual m.dev) {q}
    (current : m.caller idle = some me) (low : ¬ Raised idle m (.request q)) :
    Heeds (Asleep m) (fun d c => SockCall.Waits d c) SockCall.chan m.dev (m.pending me) (m.dev.enter me (m.pending me) q) := by
  refine ⟨fun c asleep waits unwoken => ?_,fun on c sleeps => ?_⟩
  · obtain ⟨p,other,opened,live,blocked,inside⟩ := asleepOpened sound current asleep
    have alive := (sound.owned.opened opened).1
    rcases enterEffect me sound.held (m.pending me) q with acts | ⟨s,mine,stream,loose,joins⟩ | listens
    · exact acts.keeps sound.held sound.owned mutual_ other opened waits unwoken
    · obtain ⟨l,_,path,_,_,_,_,shape⟩ := joins
      rw [shape] at unwoken ⊢
      have free := sound.owned.idle s stream (by rw [loose]; nofun)
      refine joinKeeps sound.owned mutual_ (sound.owned.opened mine).1 free alive waits (by simpa using unwoken) ?_
      rintro r rfl rfl
      have listening : (m.dev.get r.on).state = .listening := waits.2.1
      rw [loose] at listening
      cases listening
    obtain ⟨fd,backlog,g,x,rfl,found,_,_,_,shape⟩ := listens
    rw [shape]
    refine listenKeeps waits ?_
    rintro r rfl here
    have listening : (m.dev.get r.on).state = .listening := waits.2.1
    rw [here] at listening
    by_contra more
    exact low ⟨fd,backlog,me,g,x,rfl,current,found,listening,Nat.lt_of_not_le more,p,live,blocked,r,inside,here⟩
  obtain ⟨_,_,slept⟩ := enterSleeps rfl sleeps
  exact ⟨slept.chan,slept.waits,slept.quiet,slept.silent⟩

theorem resumeHeeds (sound : Sound idle m) (mutual_ : Mutual m.dev) {call}
    (current : m.caller idle = some me) (inside : m.calls me = some call) (once : ¬ Doubled idle m .resume)
    (straight : ¬ Diverted idle m .resume) : Heeds (Asleep m) (fun d c => SockCall.Waits d c) SockCall.chan m.dev (m.pending me)
    (m.dev.resume me (m.pending me) call) := by
  refine ⟨fun c asleep waits unwoken => ?_,fun on c sleeps => ?_⟩
  · obtain ⟨p,other,opened,live,blocked,sleeping⟩ := asleepOpened sound current asleep
    have alive := (sound.owned.opened opened).1
    rcases resumeEffect me sound.held (m.pending me) call (sound.number inside) with ⟨acts,_⟩ | ⟨r,rfl,joins⟩
    · exact acts.keeps sound.held sound.owned mutual_ other opened waits unwoken
    obtain ⟨l,_,path,_,_,_,_,shape⟩ := joins
    have completes : Completes m.dev me r := by
      rw [← completesConnects m.dev me (m.pending me)]
      change (m.dev.resume me (m.pending me) (.connect r)).next = _
      rw [shape]
    rw [shape] at unwoken ⊢
    have free : (m.dev.get r.sock).peer = none := by
      by_contra peer
      exact once ⟨rfl,me,r,current,inside,peer,completes⟩
    refine joinKeeps sound.owned mutual_ (sound.owned.opened (sound.seated me _ inside)).1 free alive waits
      (by simpa using unwoken) ?_
    rintro v rfl here
    have listening : (m.dev.get v.on).state = .listening := waits.2.1
    rw [here] at listening
    exact straight ⟨rfl,me,r,current,inside,completes,listening,p,live,blocked,v,sleeping,here⟩
  have slept := resumeSleeps (sound.number inside) rfl sleeps
  exact ⟨slept.chan,slept.waits,slept.quiet,slept.silent⟩

structure Rested (idle : Addr) (m : Machine) : Prop where
  sound : Sound idle m
  mutual_ : Mutual m.dev
  rested : Calls.Rested (fun d c => SockCall.Waits d c) SockCall.chan m

theorem stepRested (good : Rested idle m) {e} (once : ¬ Doubled idle m e)
    (straight : ¬ Diverted idle m e) (low : ¬ Raised idle m e) (taken : step idle m e = some n) : Rested idle n := by
  obtain ⟨sound,mutual_,rested⟩ := good
  refine ⟨stepSound sound taken,stepMutual sound mutual_ once taken,?_⟩
  refine Calls.stepRested sound.consistent rested ?_ ?_ ?_ ?_ taken
  · rintro me q rfl current
    exact enterHeeds sound mutual_ current low
  · rintro me call rfl current inside
    exact resumeHeeds sound mutual_ current inside once straight
  · intro me child c waits
    exact waitsSame waits rfl
  intro me c current asleep waits unwoken
  obtain ⟨p,other,opened,_⟩ := asleepOpened sound current asleep
  have acts := sound.exit me
  have kept : c.Waits (m.dev.exit me).1 :=
    acts.keeps sound.held sound.owned mutual_ other opened waits (fun woken => unwoken woken)
  exact kept

theorem bootRested (idle view) : Rested idle (boot idle view) :=
  ⟨bootSound idle view,fun _ _ peer => (nomatch peer),fun _ _ _ _ inside => (nomatch inside)⟩

end Steps

/- A step that takes what somebody sleeps for without waking anybody. -/
def Careless (idle : Addr) (m : Machine) (e : Calls.Event SockRequest) : Prop :=
  Doubled idle m e ∨ Diverted idle m e ∨ Raised idle m e

theorem noLostSocketWakeup (idle : Addr) (view : View) (events : List (Calls.Event SockRequest))
    (careful : ∀ move ∈ moves (step idle) (boot idle view) events, ¬ Careless idle move.1 move.2) :
    ∀ m ∈ visited (step idle) (boot idle view) events, ∀ p ∈ m.sched.allProcs, (m.sched.procs p).state = .blocked →
    (∀ r, m.calls p = some (.recv r) → (m.dev.get r.sock).type = .stream →
    (m.dev.get r.sock).ring.len = 0 ∧ (m.dev.get r.sock).eof = false ∧ (m.dev.get r.sock).rdShut = false) ∧
    (∀ w, m.calls p = some (.send w) → (m.dev.get w.on).ring.len = sockBuf ∧ (m.dev.get w.sock).peer = some w.on ∧
    (m.dev.get w.sock).wrShut = false ∧ (m.dev.get w.on).rdShut = false) ∧
    (∀ a, m.calls p = some (.accept a) → (m.dev.get a.sock).backlog = []) ∧
    (∀ c, m.calls p = some (.connect c) → (m.dev.get c.on).state = .listening ∧
    (m.dev.get c.on).maxback ≤ (m.dev.get c.on).backlog.length) := by
  intro m reached p live asleep
  have preserved (m : Machine) e n (good : Rested idle m) (careful : ¬ Careless idle m e) (taken : step idle m e = some n) :
      Rested idle n :=
    stepRested good (fun bad => careful (.inl bad))
      (fun bad => careful (.inr (.inl bad))) (fun bad => careful (.inr (.inr bad))) taken
  have good := Runs.visitedInvariant preserved (bootRested idle view) careful m reached
  have dozes : Scheduler.Dozes m.sched p (m.sched.procs p).waitChan := ⟨live,asleep,rfl⟩
  have waits c (inside : m.calls p = some c) : c.Waits m.dev := (good.rested p _ c dozes inside).2.1
  refine ⟨fun r inside => waits _ inside,fun w inside => waits _ inside,fun a inside => waits _ inside,
    fun c inside => ?_⟩
  exact (waits _ inside).2

def receivingOn (m : Machine) (p : Addr) : Option Nat :=
  match m.calls p with
  | some (.recv r) => some r.sock
  | _ => none

def recvEmpty : List (Calls.Event SockRequest) :=
  [.kernel (.createUser (some 1) prioUser),.kernel .start,
    .request (.socketpair 1 1 0 true false false 64 true true true),.request (.recv 0 10 true false false)]

theorem noLostSocketWakeupRecv : ∃ m ∈ visited (step 0) (boot 0 oneFile) recvEmpty,
    (m.sched.procs 1).state = .blocked ∧ ∃ r, m.calls 1 = some (.recv r) ∧ (m.dev.get r.sock).ring.len = 0 ∧
    (m.dev.get r.sock).eof = false ∧ (m.dev.get r.sock).rdShut = false := by
  have ended : (Runs.run (step 0) (boot 0 oneFile) recvEmpty).map (fun m =>
      (m.sched.allProcs,(m.sched.procs 1).state,receivingOn m 1,(m.dev.get 0).type)) =
      some ([1,0],.blocked,some 0,.stream) := by decide +kernel
  obtain ⟨m,seen,same⟩ := visitedShows ended
  simp only [Prod.mk.injEq] at same
  obtain ⟨all,asleep,reading,stream⟩ := same
  have careful : ∀ move ∈ moves (step 0) (boot 0 oneFile) recvEmpty, ¬ Careless 0 move.1 move.2 := by
    intro move member careless
    have event := movesEvent move member
    rcases careless with doubled | diverted | ⟨_,_,_,_,_,same,_⟩
    · rw [doubled.1] at event
      simp [recvEmpty] at event
    · rw [diverted.1] at event
      simp [recvEmpty] at event
    rw [same] at event
    simp [recvEmpty] at event
  unfold receivingOn at reading
  split at reading
  · rename_i r inside
    have law := noLostSocketWakeup 0 oneFile recvEmpty careful m seen 1 (by rw [all]; decide) asleep
    have on := Option.some.inj reading
    exact ⟨m,seen,asleep,r,inside,law.1 r inside (by rw [on]; exact stream)⟩
  · cases reading

def connectingTo (m : Machine) (p : Addr) : Option Nat :=
  match m.calls p with
  | some (.connect c) => some c.on
  | _ => none

def listenAgain : List (Calls.Event SockRequest) :=
  [.kernel (.createUser (some 1) prioUser),.kernel .start,
    .request (.socket 1 1 0 false false 64 true true),.request (.bind 0 (.ok [47,97]) none (.ok ())),
    .request (.listen 0 1),.request (.socket 1 1 0 false false 64 true true),
    .request (.connect 1 false (.ok [47,97]) true),.request (.socket 1 1 0 false false 64 true true),
    .fork (some 2) true,.kernel .yield,.request (.connect 2 false (.ok [47,97]) true),.request (.listen 0 5)]

theorem listenAgainUnwoken : ∃ m ∈ visited (step 0) (boot 0 oneFile) listenAgain,
    ∃ p ∈ m.sched.allProcs, (m.sched.procs p).state = .blocked ∧ ∃ c, m.calls p = some (.connect c) ∧
    (m.dev.get c.on).backlog.length < (m.dev.get c.on).maxback := by
  have ended : (Runs.run (step 0) (boot 0 oneFile) listenAgain).map (fun m =>
      (m.sched.allProcs,(m.sched.procs 2).state,connectingTo m 2,(m.dev.get 0).backlog,(m.dev.get 0).maxback)) =
      some ([2,1,0],.blocked,some 0,[2],5) := by decide +kernel
  obtain ⟨m,seen,same⟩ := visitedShows ended
  simp only [Prod.mk.injEq] at same
  obtain ⟨all,asleep,connecting,backlog,limit⟩ := same
  unfold connectingTo at connecting
  split at connecting
  · rename_i c inside
    have on := Option.some.inj connecting
    refine ⟨m,seen,2,by rw [all]; decide,asleep,c,inside,?_⟩
    rw [on,backlog,limit]
    decide
  · cases connecting

end Miviex.Sockets
