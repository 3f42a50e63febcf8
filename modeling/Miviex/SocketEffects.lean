import Miviex.DescriptorInvariant
import Miviex.SocketPasses

/-! What the socket calls do to the sockets. A call is a sequence of a few acts, with the sockets
nobody owns at the moment kept aside. Completing a connection and listening stand alone. -/
namespace Miviex.Sockets
open List Option Function Files
open Files (Held Dropped Change)

variable {d e : Sockets} {s t : Nat} {me : Addr}

def Live (d : Sockets) (s : Nat) : Prop := (d.sock s).isSome = true

instance (d : Sockets) (s : Nat) : Decidable (Live d s) := by unfold Live; infer_instance

theorem getSome {x} (found : d.sock s = some x) : d.get s = x ∧ Live d s := by
  simp [get,Live,found]

theorem liveSome (live : Live d s) : d.sock s = some (d.get s) := by
  obtain ⟨x,found⟩ := isSome_iff_exists.mp live
  rw [(getSome found).1,found]

theorem getDead (dead : ¬ Live d s) : d.get s = blank := by
  simp only [Live,Bool.not_eq_true,isSome_eq_false_iff,isNone_iff_eq_none] at dead
  simp [get,dead]

theorem getModify (d : Sockets) (s) (f : Sock → Sock) (t) :
    (d.modify s f).get t = if t = s ∧ Live d s then f (d.get s) else d.get t := by
  by_cases same : t = s
  · subst same
    by_cases live : Live d t
    · rw [if_pos ⟨rfl,live⟩]
      obtain ⟨x,found⟩ := isSome_iff_exists.mp live
      simp [modify,get,found]
    have dead := live
    simp only [Live,Bool.not_eq_true,isSome_eq_false_iff,isNone_iff_eq_none] at dead
    rw [if_neg (fun both => live both.2)]
    simp only [modify,get,update_self,dead,map_none]
  simp [modify,get,same]

theorem getModifySelf (live : Live d s) (f : Sock → Sock) : (d.modify s f).get s = f (d.get s) := by
  rw [getModify,if_pos ⟨rfl,live⟩]

theorem getModifyOther (apart : t ≠ s) (f : Sock → Sock) : (d.modify s f).get t = d.get t := by
  rw [getModify,if_neg (fun both => apart both.1)]

theorem liveModify (d : Sockets) (s) (f : Sock → Sock) (t) : Live (d.modify s f) t ↔ Live d t := by
  unfold Live modify
  by_cases same : t = s
  · subst same; simp
  · simp [same]

def severed (x : Sock) : Sock := {x with peer := none, eof := true}

section

variable (d : Sockets)

theorem getUnpeer (s t) :
    (d.unpeer s).1.get t = if (d.get s).peer = some t ∧ Live d t then severed (d.get t) else d.get t := by
  unfold unpeer
  cases other : (d.get s).peer with
  | none => simp
  | some p =>
    rw [getModify]
    by_cases same : t = p
    · subst same; simp [severed]
    · rw [if_neg (fun both => same both.1),if_neg (fun both => same (Option.some.inj both.1).symm)]

theorem unpeerSame (s) :
    (d.unpeer s).1 = {d with sock := (d.unpeer s).1.sock} ∧ ∀ t, Live (d.unpeer s).1 t ↔ Live d t := by
  unfold unpeer
  split
  · exact ⟨rfl,fun _ => Iff.rfl⟩
  · exact ⟨rfl,fun t => liveModify d _ _ t⟩

theorem unbindSame (s) : d.unbind s = {d with ptr := (d.unbind s).ptr} := by
  unfold unbind
  split <;> rfl

theorem getUnbind (s t) : (d.unbind s).get t = d.get t ∧ (Live (d.unbind s) t ↔ Live d t) := by
  rw [unbindSame]
  exact ⟨rfl,Iff.rfl⟩

theorem getRemove (s t) :
    (d.remove s).get t = (if t = s then blank else d.get t) ∧ (Live (d.remove s) t ↔ Live d t ∧ t ≠ s) := by
  unfold remove get Live
  by_cases same : t = s
  · subst same; simp
  · simp [same]

end

/- The sockets of `gone` are no more; those they were connected to know. A peer that was cleared
before its owner went is passed over. -/
structure Freed (d e : Sockets) (gone : List Nat) (wakes : List Addr) : Prop where
  same : e = {d with sock := e.sock, ptr := e.ptr}
  live : ∀ t, Live e t ↔ Live d t ∧ t ∉ gone
  kept : ∀ t, t ∉ gone → e.get t = d.get t ∨
    e.get t = severed (d.get t) ∧ t ∈ wakes ∧ Live d t ∧ ∃ g ∈ gone, (d.get g).peer = some t
  cut : ∀ g t, g ∈ gone → (d.get g).peer = some t → t ∉ gone → Live d t →
    (∀ h ∈ gone, (d.get h).peer ≠ some g) → e.get t = severed (d.get t)
  ptr : ∀ n, (∀ g ∈ gone, (d.get g).bound ≠ some n) → e.ptr n = d.ptr n
  cleared : ∀ g n, g ∈ gone → (d.get g).bound = some n → e.ptr n = none
  woken : ∀ g ∈ gone, g ∈ wakes

theorem Freed.nothing (d) : Freed d d [] [] where
  same := rfl
  live := fun t => by simp
  kept := fun t _ => .inl rfl
  cut := fun g t inside => nomatch inside
  ptr := fun _ _ => rfl
  cleared := fun g n inside => nomatch inside
  woken := fun g inside => nomatch inside

variable {gone : List Nat} {c : Nat}

section

variable {wakes : List Addr} (freed : Freed d e gone wakes)
include freed

theorem Freed.more {more} (all : ∀ a ∈ wakes, a ∈ more) : Freed d e gone more :=
  {freed with
    kept := fun t outside => (freed.kept t outside).imp_right (fun ⟨cut,woken,rest⟩ => ⟨cut,all t woken,rest⟩)
    woken := fun g inside => all g (freed.woken g inside)}

theorem Freed.getKept (outside : t ∉ gone) :
    e.get t = {d.get t with peer := (e.get t).peer, eof := (e.get t).eof} := by
  rcases freed.kept t outside with same | ⟨cut,_⟩
  · rw [same]
  · rw [cut]; rfl

theorem Freed.getGone (inside : t ∈ gone) : e.get t = blank :=
  getDead (fun live => ((freed.live t).mp live).2 inside)

theorem Freed.peerKept {p}
    (peer : (e.get t).peer = some p) : t ∉ gone ∧ (d.get t).peer = some p := by
  have outside : t ∉ gone := by
    intro inside
    rw [freed.getGone inside] at peer
    cases peer
  refine ⟨outside,?_⟩
  rcases freed.kept t outside with same | ⟨cut,_⟩
  · rwa [same] at peer
  rw [cut] at peer
  cases peer

end

theorem Freed.trans {f first second one two} (before : Freed d e first one)
    (after : Freed e f second two) (apart : ∀ g ∈ second, g ∉ first) : Freed d f (first ++ second) (one ++ two) where
  same := by
    have last := after.same
    rw [before.same] at last
    exact last
  live := fun t => by rw [after.live,before.live,mem_append,not_or,and_assoc]
  kept := by
    intro t outside
    rw [mem_append,not_or] at outside
    rcases after.kept t outside.2 with same | ⟨cut,woken,live,g,inside,peer⟩
    · rw [same]
      refine (before.kept t outside.1).imp_right (fun ⟨cut,woken,live,g,inside,peer⟩ => ?_)
      exact ⟨cut,mem_append_left _ woken,live,g,mem_append_left _ inside,peer⟩
    refine .inr ⟨?_,mem_append_right _ woken,((before.live t).mp live).1,g,mem_append_right _ inside,(before.peerKept peer).2⟩
    rw [cut]
    rcases before.kept t outside.1 with same | ⟨earlier,_⟩
    · rw [same]
    · rw [earlier]; rfl
  cut := by
    intro g t inside peer outside live alone
    rw [mem_append,not_or] at outside
    rcases mem_append.mp inside with old | new
    · have cut := before.cut g t old peer outside.1 live (fun h there => alone h (mem_append_left _ there))
      rcases after.kept t outside.2 with same | ⟨again,_⟩
      · rw [same,cut]
      · rw [again,cut]; rfl
    have still : e.get g = d.get g := by
      refine (before.kept g (apart g new)).resolve_right ?_
      rintro ⟨_,_,_,h,there,points⟩
      exact alone h (mem_append_left _ there) points
    have cut := after.cut g t new (by rw [still]; exact peer) outside.2 ((before.live t).mpr ⟨live,outside.1⟩)
      (fun h there points => alone h (mem_append_right _ there) (before.peerKept points).2)
    rw [cut]
    rcases before.kept t outside.1 with same | ⟨earlier,_⟩
    · rw [same]
    · rw [earlier]; rfl
  ptr := by
    intro n free
    have bounds g (inside : g ∈ second) : (e.get g).bound ≠ some n := by
      rw [before.getKept (apart g inside)]
      exact free g (mem_append_right _ inside)
    rw [after.ptr n bounds]
    exact before.ptr n (fun g inside => free g (mem_append_left _ inside))
  cleared := by
    intro g n inside bound
    by_cases later : ∃ h ∈ second, (d.get h).bound = some n
    · obtain ⟨h,there,same⟩ := later
      refine after.cleared h n there ?_
      rw [before.getKept (apart h there)]
      exact same
    rcases mem_append.mp inside with old | new
    · rw [after.ptr n,before.cleared g n old bound]
      intro h there same
      rw [before.getKept (apart h there)] at same
      exact later ⟨h,there,same⟩
    · exact absurd ⟨g,new,bound⟩ later
  woken := fun g inside => by
    rcases mem_append.mp inside with old | new
    · exact mem_append_left _ (before.woken g old)
    · exact mem_append_right _ (after.woken g new)

theorem dropFreed (d : Sockets) (s) : Freed d ((d.unpeer s).1.unbind s |>.remove s) [s] ((d.unpeer s).2 ++ [s]) := by
  obtain ⟨same,lives⟩ := unpeerSame d s
  have bound : ((d.unpeer s).1.get s).bound = (d.get s).bound := by
    rw [getUnpeer]
    split <;> rfl
  have getE t (apart : t ≠ s) : ((d.unpeer s).1.unbind s |>.remove s).get t = (d.unpeer s).1.get t := by
    rw [(getRemove _ s t).1,if_neg apart,(getUnbind _ s t).1]
  refine ⟨?_,fun t => ?_,fun t outside => ?_,fun g t inside peer outside live _ => ?_,fun n free => ?_,
    fun g n inside here => ?_,fun g inside => mem_append_right _ inside⟩
  · rw [unbindSame,same]
    rfl
  · rw [(getRemove _ s t).2,(getUnbind _ s t).2,lives,mem_singleton]
  · rw [mem_singleton] at outside
    rw [getE t outside,getUnpeer]
    split
    · rename_i cut
      refine .inr ⟨rfl,?_,cut.2,s,mem_singleton_self s,cut.1⟩
      refine mem_append_left _ ?_
      unfold unpeer
      rw [cut.1]
      exact mem_singleton_self t
    · exact .inl rfl
  · cases mem_singleton.mp inside
    rw [mem_singleton] at outside
    rw [getE t outside,getUnpeer,if_pos ⟨peer,live⟩]
  · have other : (d.get s).bound ≠ some n := free s (mem_singleton_self s)
    have points : (d.unpeer s).1.ptr = d.ptr := by rw [same]
    unfold remove unbind
    rw [bound]
    cases here : (d.get s).bound with
    | none => exact congrFun points n
    | some m =>
      have apart : n ≠ m := fun equal => other (by rw [here,equal])
      simp only [update_of_ne apart]
      exact congrFun points n
  cases mem_singleton.mp inside
  unfold remove unbind
  rw [bound,here]
  simp

theorem dropsFreed (gone : List Nat) (apart : gone.Nodup) (d wakes) :
    ∃ more, (gone.foldl dropOne (d,wakes)).2 = wakes ++ more ∧ Freed d (gone.foldl dropOne (d,wakes)).1 gone more := by
  induction gone generalizing d wakes with
  | nil => exact ⟨[],by simp,Freed.nothing d⟩
  | cons s rest ih =>
    obtain ⟨outside,apart⟩ := nodup_cons.mp apart
    obtain ⟨more,all,later⟩ := ih apart (((d.unpeer s).1.unbind s).remove s) (wakes ++ (d.unpeer s).2 ++ [s])
    refine ⟨(d.unpeer s).2 ++ [s] ++ more,?_,?_⟩
    · simp only [foldl_cons,dropOne]
      rw [all]
      simp
    exact (dropFreed d s).trans later (fun g inside => by simpa using fun equal : g = s => outside (equal ▸ inside))

section

variable (d : Sockets)

theorem modifyRemove (p s) (f : Sock → Sock) : (d.modify p f).remove s = (d.remove s).modify p f := by
  unfold modify remove
  dsimp only
  by_cases same : p = s
  · subst same; simp
  · rw [update_of_ne same,update_comm same]

theorem unpeerRemove (apart : c ≠ s) :
    (d.unpeer c).1.remove s = ((d.remove s).unpeer c).1 ∧ ((d.remove s).unpeer c).2 = (d.unpeer c).2 := by
  have same : (d.remove s).get c = d.get c := by rw [(getRemove d s c).1,if_neg apart]
  unfold unpeer
  rw [same]
  split
  · exact ⟨rfl,rfl⟩
  · exact ⟨modifyRemove d _ s _,rfl⟩

theorem unbindRemove (apart : c ≠ s) : (d.unbind c).remove s = (d.remove s).unbind c := by
  have same : (d.remove s).get c = d.get c := by rw [(getRemove d s c).1,if_neg apart]
  unfold unbind
  rw [same]
  split <;> rfl

theorem unpeerUnbind (c s) :
    (d.unpeer c).1.unbind s = ((d.unbind s).unpeer c).1 ∧ ((d.unbind s).unpeer c).2 = (d.unpeer c).2 := by
  have bound : ((d.unpeer c).1.get s).bound = (d.get s).bound := by
    rw [getUnpeer]
    split <;> rfl
  have same : (d.unbind s).get c = d.get c := (getUnbind d s c).1
  have wakes : ((d.unbind s).unpeer c).2 = (d.unpeer c).2 := by
    unfold unpeer
    rw [same]
    split <;> rfl
  refine ⟨?_,wakes⟩
  unfold unbind at same ⊢
  rw [bound]
  cases here : (d.get s).bound with
  | none => rfl
  | some n =>
    rw [here] at same
    unfold unpeer
    dsimp only at same ⊢
    rw [same]
    split <;> rfl

theorem unbindUnbind (c s) : (d.unbind c).unbind s = (d.unbind s).unbind c := by
  have sameS : ((d.unbind c).get s).bound = (d.get s).bound := by rw [(getUnbind d c s).1]
  have sameC : ((d.unbind s).get c).bound = (d.get c).bound := by rw [(getUnbind d s c).1]
  unfold unbind at *
  rw [sameS,sameC]
  cases hereC : (d.get c).bound with
  | none => cases (d.get s).bound <;> rfl
  | some n =>
  cases (d.get s).bound with
  | none => rfl
  | some m =>
    dsimp only
    by_cases equal : n = m
    · rw [equal]
    · rw [update_comm (Ne.symm equal)]

theorem dropCommutes (wakes) (apart : c ≠ s) :
    ((dropOne (d,wakes) c).1.unbind s).remove s = (dropOne ((d.unbind s).remove s,wakes) c).1 ∧
    (dropOne ((d.unbind s).remove s,wakes) c).2 = (dropOne (d,wakes) c).2 := by
  obtain ⟨removed,quiet⟩ := unpeerRemove (d.unbind s) apart
  obtain ⟨unbound,silent⟩ := unpeerUnbind d c s
  unfold dropOne
  dsimp only
  refine ⟨?_,by rw [quiet,silent]⟩
  calc (((((d.unpeer c).1.unbind c).remove c).unbind s).remove s)
      = ((((d.unpeer c).1.unbind c).unbind s).remove c).remove s := by rw [unbindRemove _ (Ne.symm apart)]
    _ = ((((d.unpeer c).1.unbind s).unbind c).remove s).remove c := by
        rw [unbindUnbind]
        unfold remove
        rw [update_comm apart]
    _ = ((((d.unbind s).remove s).unpeer c).1.unbind c).remove c := by rw [unbindRemove _ apart,unbound,removed]

end

theorem dropsCommute (gone : List Nat) (outside : s ∉ gone) (d : Sockets) (wakes) :
    ((gone.foldl dropOne (d,wakes)).1.unbind s).remove s = (gone.foldl dropOne ((d.unbind s).remove s,wakes)).1 ∧
    (gone.foldl dropOne ((d.unbind s).remove s,wakes)).2 = (gone.foldl dropOne (d,wakes)).2 := by
  induction gone generalizing d wakes with
  | nil => exact ⟨rfl,rfl⟩
  | cons c rest ih =>
    rw [mem_cons,not_or] at outside
    obtain ⟨first,wakes_⟩ := dropCommutes d wakes (Ne.symm outside.1)
    obtain ⟨later,silent⟩ := ih outside.2 (dropOne (d,wakes) c).1 (dropOne (d,wakes) c).2
    have pair : dropOne ((d.unbind s).remove s,wakes) c =
      (((dropOne (d,wakes) c).1.unbind s).remove s,(dropOne (d,wakes) c).2) := Prod.ext first.symm wakes_
    simp only [foldl_cons,pair]
    exact ⟨later,silent⟩

theorem freeFreed (d : Sockets) (s) (outside : s ∉ (d.get s).backlog) (apart : (d.get s).backlog.Nodup) :
    Freed d (d.sockFree s).1 (s::(d.get s).backlog) (d.sockFree s).2 := by
  obtain ⟨same,silent⟩ := dropsCommute (d.get s).backlog outside (d.unpeer s).1 (d.unpeer s).2
  obtain ⟨more,all,later⟩ := dropsFreed (d.get s).backlog apart (((d.unpeer s).1.unbind s).remove s) (d.unpeer s).2
  have freed := (dropFreed d s).trans later (fun g inside => by
    simpa using fun equal : g = s => outside (equal ▸ inside))
  unfold sockFree
  dsimp only
  rw [same]
  refine freed.more (fun a woken => ?_)
  rw [← silent,all]
  simp only [mem_append,mem_singleton] at woken ⊢
  tauto

theorem freeSame (d : Sockets) (s) :
    (d.sockFree s).1 = {d with sock := (d.sockFree s).1.sock, ptr := (d.sockFree s).1.ptr} := by
  have dropped : ∀ e : Sockets × List Addr, e.1 = {d with sock := e.1.sock, ptr := e.1.ptr} → ∀ c,
      (dropOne e c).1 = {d with sock := (dropOne e c).1.sock, ptr := (dropOne e c).1.ptr} := by
    intro e same c
    have one := (dropFreed e.1 c).same
    rw [same] at one
    simp only [dropOne]
    rw [same]
    exact one
  have start : (d.unpeer s).1 = {d with sock := (d.unpeer s).1.sock, ptr := (d.unpeer s).1.ptr} := by
    have same := (unpeerSame d s).1
    rw [same]
  have all := List.foldlRecOn (d.get s).backlog dropOne
    (motive := fun e => e.1 = {d with sock := e.1.sock, ptr := e.1.ptr}) start (fun e same c _ => dropped e same c)
  unfold sockFree
  dsimp only
  rw [unbindSame,all]
  rfl

theorem releaseFiles (d : Sockets) (gone) : (d.release gone).1.files = d.files := by
  refine List.foldlRecOn gone freeOne (b := (d,[])) (motive := fun e => e.1.files = d.files) rfl (fun e same x _ => ?_)
  simp only [freeOne]
  rw [freeSame]
  exact same

def Opened (d : Sockets) (me : Addr) (s : Nat) : Prop :=
  ∃ fd f, d.files.fds me fd = some f ∧ d.files.objects f = some s

inductive Act (me : Addr) : Sockets → List Nat → Sockets → List Nat → List Addr → Prop where
  | make (d hand type) : Act me d hand (d.sockNew type).2 (d.next::hand) []
  | pair (d hand type) : Act me d hand (d.sockPair type).2.2 (d.next::(d.next+1)::hand) []
  | free (d hand s) : Act me d (s::hand) (d.sockFree s).1 hand (d.sockFree s).2
  | install (d hand s) (files : Files Nat) (gone : List (File Nat)) (room : d.files.objects d.files.next = none)
      (held : Held files none)
      (dropped : Dropped (update d.files.objects d.files.next (some s)) files.objects gone)
      (others : ∀ p, p ≠ me → files.fds p = d.files.fds p)
      (table : ∀ p i, maxFds ≤ i → files.fds p i = d.files.fds p i) :
      Act me d (s::hand) {d with files := files} (gone.map File.object ++ hand) []
  | close (d hand) (files : Files Nat) (gone : List (File Nat)) (change : Change me d.files files gone) :
      Act me d hand {d with files := files} (gone.map File.object ++ hand) []
  | pop (d hand s c rest) (queue : (d.get s).backlog = c::rest) :
      Act me d hand (d.modify s (fun x => {x with backlog := rest})) (c::hand) [s]
  | bind (d hand s path) (opened : Opened d me s) (unbound : (d.get s).bound = none) :
      Act me d hand (d.bindTo s path) hand []
  | aim (d hand s path state) (dgram : (d.get s).type = .dgram) (calm : state ≠ .listening) :
      Act me d hand (d.modify s (fun x => {x with peername := path, state := state})) hand []
  | tune (d hand s) (f : Sock → Sock)
      (frame : ∀ x, f x = {x with msgs := (f x).msgs, queued := (f x).queued, rdShut := (f x).rdShut}) :
      Act me d hand (d.modify s f) hand [s]
  | take (d hand s k) (inside : k ≤ (d.get s).ring.len) :
      Act me d hand ((d.modify s (fun x => {x with ring := x.ring.drop sockBuf k})).consumed s
        ((d.get s).ring.peek sockBuf k)) hand [s]
  | place (d hand s p id src) (number : d.log.sends[id]? = some s) (peer : (d.get s).peer = some p)
      (writes : (d.get s).wrShut = false) : Act me d hand (d.place id p src).1 hand [p]
  | shut (d hand s) (connected : (d.get s).state = .connected) :
      Act me d hand (d.shutWrite s).1 hand (d.shutWrite s).2
  | note (d hand) (view : View) (sends : List Nat) (returned : List (Nat × Nat)) (grown : d.log.sends <+: sends) :
      Act me d hand {d with view := view, log := {d.log with sends := sends, returned := returned}} hand []

inductive Acts (me : Addr) : Sockets → List Nat → Sockets → List Nat → List Addr → Prop where
  | nil (d hand) : Acts me d hand d hand []
  | cons {d e f first second third wakes more}
      (act : Act me d first e second wakes) (rest : Acts me e second f third more) :
      Acts me d first f third (wakes ++ more)

variable {f : Sockets} {first second third : List Nat} {wakes more : List Addr}

theorem Act.only (act : Act me d first e second wakes) : Acts me d first e second wakes := by
  have one := Acts.cons act (.nil e second)
  rwa [append_nil] at one

theorem Acts.trans (before : Acts me d first e second wakes) (after : Acts me e second f third more) :
    Acts me d first f third (wakes ++ more) := by
  induction before with
  | nil d hand => exact after
  | cons act _ ih =>
    rw [append_assoc]
    exact .cons act (ih after)

theorem Act.held (act : Act me d first e second wakes) (held : Held d.files none) : Held e.files none := by
  cases act with
  | free _ s =>
    rw [freeSame]
    exact held
  | install _ _ _ _ _ after => exact after
  | close _ _ _ change => exact change.held
  | shut _ s connected =>
    unfold shutWrite
    dsimp only
    split <;> exact held
  | _ => exact held

theorem Acts.held (acts : Acts me d first e second wakes) (held : Held d.files none) : Held e.files none := by
  induction acts with
  | nil => exact held
  | cons act _ ih => exact ih (act.held held)

theorem releaseActs (gone : List (File Nat)) (d : Sockets) (hand) :
    Acts me d (gone.map File.object ++ hand) (d.release gone).1 hand (d.release gone).2 := by
  have all : ∀ (gone : List (File Nat)) (d : Sockets) (woken : List Addr),
      ∃ more, (gone.foldl freeOne (d,woken)).2 = woken ++ more ∧
        Acts me d (gone.map File.object ++ hand) (gone.foldl freeOne (d,woken)).1 hand more := by
    intro gone
    induction gone with
    | nil => exact fun d woken => ⟨[],by simp,.nil d hand⟩
    | cons x rest ih =>
      intro d woken
      obtain ⟨more,grown,acts⟩ := ih (d.sockFree x.object).1 (woken ++ (d.sockFree x.object).2)
      refine ⟨(d.sockFree x.object).2 ++ more,?_,.cons (.free d _ x.object) acts⟩
      simp only [foldl_cons,freeOne]
      rw [grown,append_assoc]
  obtain ⟨more,same,acts⟩ := all gone d []
  unfold release
  rw [same]
  exact acts

theorem closeActs (hand) {files gone} (change : Change me d.files files gone) :
    Acts me d hand ({d with files := files}.release gone).1 hand ({d with files := files}.release gone).2 :=
  .cons (.close d hand files gone change) (releaseActs gone _ hand)

theorem installActs (me) (d : Sockets) (held : Held d.files none) (hand s limit nonblock cloexec memory) :
    let result := d.sockInstall me limit s nonblock cloexec memory
    Acts me d (s::hand) result.2.1 hand result.2.2 := by
  unfold sockInstall
  split
  · exact (Act.free d hand s).only
  obtain ⟨taken,objects⟩ := allocHeld held s .rdwr nonblock
  obtain ⟨change,_⟩ := installChange me taken limit 0 cloexec
  have absent : d.files.objects d.files.next = none := by
    unfold Files.objects
    rw [held.fresh d.files.next (Nat.le_refl _)]
    rfl
  have dropped := change.objects
  rw [objects] at dropped
  exact .cons (.install d hand s _ _ absent change.held dropped change.others change.table) (releaseActs _ _ hand)

theorem fdSockSome {fd g x} (found : d.fdSock me fd = some (g,x)) : d.files.fds me fd = some g ∧ d.files.file g = some x := by
  simp only [fdSock,bind_eq_some_iff,map_eq_some_iff,Prod.mk.injEq] at found
  obtain ⟨h,names,y,inUse,rfl,rfl⟩ := found
  exact ⟨(fdFileSome names).2,inUse⟩

theorem fdSockOpened {fd g x} (found : d.fdSock me fd = some (g,x)) : Opened d me x.object := by
  obtain ⟨names,inUse⟩ := fdSockSome found
  exact ⟨fd,g,names,by simp [Files.objects,inUse]⟩

theorem sendLoopActs (me pending fuel) (d : Sockets) (wakes) (w : Sending) (number : d.log.sends[w.id]? = some w.sock) :
    ∃ more, (sendLoop pending fuel d wakes w).wakes = wakes ++ more ∧
    Acts me d [] (sendLoop pending fuel d wakes w).dev [] more := by
  induction fuel generalizing d wakes w with
  | zero => exact ⟨[],by simp [sendLoop],.nil d []⟩
  | succ fuel ih =>
  unfold sendLoop
  split
  · exact ⟨[],by simp,.nil d []⟩
  dsimp only
  split
  · exact ⟨[],by simp,.nil d []⟩
  rename_i p open_
  obtain ⟨peer,writes⟩ := filter_eq_some_iff.mp open_
  simp only [Bool.not_eq_true',Bool.or_eq_false_iff] at writes
  split
  · split
    · exact ⟨[],by simp,.nil d []⟩
    · split <;> exact ⟨[],by simp,.nil d []⟩
  obtain ⟨more,grown,acts⟩ := ih (d.place w.id p w.src).1 (wakes ++ [p])
    {w with src := (d.place w.id p w.src).2, done := w.done + (w.src.length - (d.place w.id p w.src).2.length)}
    number
  refine ⟨p::more,?_,.cons (.place d [] w.sock p w.id w.src number peer writes.1) acts⟩
  rw [grown]
  simp

theorem sentActs {id round} (acts : Acts me d [] round.dev [] round.wakes) :
    Acts me d [] (sent id round).dev [] (sent id round).wakes := by
  have ends n : Acts me d [] (round.dev.returns id n) [] round.wakes := by
    have last : Act me round.dev [] (round.dev.returns id n) [] [] :=
      .note round.dev [] round.dev.view round.dev.log.sends _ prefix_rfl
    simpa using acts.trans last.only
  unfold sent
  split
  · exact acts
  · exact ends _
  · exact ends 0

theorem resumeSendActs (me pending) (w : Sending) (number : d.log.sends[w.id]? = some w.sock) :
    Acts me d [] (sent w.id (sendLoop pending w.src.length d [] w)).dev []
    (sent w.id (sendLoop pending w.src.length d [] w)).wakes := by
  obtain ⟨more,grown,acts⟩ := sendLoopActs me pending w.src.length d [] w number
  refine sentActs ?_
  rw [grown]
  exact acts

theorem streamSendActs (pending s data nonblock nosig) :
    Acts me d [] (d.streamSend pending s data nonblock nosig).dev [] (d.streamSend pending s data nonblock nosig).wakes := by
  unfold streamSend
  split
  · exact .nil d []
  have begins : Act me d [] (d.begins s) [] [] := .note d [] d.view _ d.log.returned (prefix_append _ [s])
  have number : (d.begins s).log.sends[d.log.sends.length]? = some s := by simp [Sockets.begins]
  exact begins.only.trans (resumeSendActs me pending ⟨s,d.log.sends.length,data,0,nonblock,nosig,0⟩ number)

theorem answeredActs {result} (acts : Acts me d [] e [] wakes) :
    Acts me d [] (e.answered wakes result).dev [] (e.answered wakes result).wakes := acts

theorem closingActs {α answer} {result : Except Errno α × Files Nat × Option (File Nat)}
    (change : Change me d.files result.2.1 result.2.2.toList) :
    Acts me d [] (d.closing answer result).dev [] (d.closing answer result).wakes :=
  closeActs [] change

theorem shutdownActs (fd how) : Acts me d [] (d.sysShutdown me fd how).dev [] (d.sysShutdown me fd how).wakes := by
  unfold sysShutdown
  split
  · exact .nil d []
  rename_i x _
  dsimp only
  split
  · exact .nil d []
  split
  · exact .nil d []
  rename_i connected
  have reads : Act me d [] (d.shutRead x.object).1 [] [x.object] := .tune d [] x.object _ (fun y => rfl)
  have state : ((d.shutRead x.object).1.get x.object).state = .connected := by
    unfold shutRead
    rw [getModify]
    split <;> exact not_not.mp connected
  split
  · split
    · exact reads.only.trans (Act.shut _ [] x.object state).only
    · exact (Act.shut d [] x.object (not_not.mp connected)).only
  split
  · exact reads.only.trans (.nil _ [])
  · exact .nil d []

def Connects (d : Sockets) (me : Addr) (o : SockOutcome) : Prop :=
  ∃ s, Opened d me s ∧ (d.get s).type = .stream ∧ (d.get s).state = .unconnected ∧ Joins d s o

section

variable (held : Held d.files none)
include held

theorem passActs {pending call o} (pass : Pass d me pending call o) :
    Acts me d [] o.dev [] o.wakes ∧ (∀ c, call = .connect c → o.next ≠ .done (.number 0)) ∨
    ∃ c, call = .connect c ∧ Joins d c.sock o := by
  cases pass with
  | failed | asleep => exact .inl ⟨.nil d [],fun _ _ => nofun⟩
  | seen r => exact .inl ⟨.nil d [],nofun⟩
  | took r k bytes source inside => exact .inl ⟨(Act.take d [] r.sock k inside).only,nofun⟩
  | received r => exact .inl ⟨(Act.tune d [] r.sock _ (fun x => rfl)).only,nofun⟩
  | mailed m t => exact .inl ⟨(Act.tune d [] t _ (fun x => rfl)).only,nofun⟩
  | dropped a c rest e queue => exact .inl ⟨.cons (.pop d [] a.sock c rest queue) (Act.free _ [] c).only,nofun⟩
  | installed a c rest result queue done =>
    have install := installActs me (d.modify a.sock (fun x => {x with backlog := rest})) held [] c a.limit a.nonblock
      a.cloexec a.memory
    rw [done] at install
    exact .inl ⟨.cons (.pop d [] a.sock c rest queue) install,nofun⟩
  | joined c joins => exact .inr ⟨c,rfl,joins⟩

theorem socketpairActs (family type proto mapped nonblock cloexec limit made memory again) :
    let o := d.sysSocketpair me family type proto mapped nonblock cloexec limit made memory again
    Acts me d [] o.dev [] o.wakes := by
  unfold sysSocketpair
  split
  · exact .nil d []
  rename_i type _
  split
  · exact .nil d []
  split
  · exact .nil d []
  have pair : Acts me d [] (d.sockPair type).2.2 [d.next,d.next+1] [] := (Act.pair d [] type).only
  have heldPair : Held (d.sockPair type).2.2.files none := held
  have one := installActs me _ heldPair [d.next+1] d.next limit nonblock cloexec memory
  have heldOne := one.held heldPair
  have names : (d.sockPair type).1 = d.next ∧ (d.sockPair type).2.1 = d.next+1 := ⟨rfl,rfl⟩
  generalize d.sockPair type = made at *
  obtain ⟨a,b,left⟩ := made
  dsimp only at *
  obtain ⟨rfl,rfl⟩ := names
  split
  · rename_i same
    rw [same] at one
    exact pair.trans (one.trans (Act.free _ [] _).only)
  rename_i fa left woken same
  rw [same] at one heldOne
  have two := installActs me _ heldOne [] (d.next+1) limit nonblock cloexec again
  have heldTwo := two.held heldOne
  split
  · rename_i again
    rw [again] at two heldTwo
    have change : Change me _ _ _ := closeChange heldTwo fa
    have last := closeActs [] change
    refine answeredActs ?_
    simpa using pair.trans (one.trans (two.trans last))
  rename_i again
  rw [again] at two
  exact pair.trans (one.trans two)

theorem entryEffect {pending q o} (entry : Entry d me pending q o) (other : ¬ OnTable q) :
    Acts me d [] o.dev [] o.wakes ∨ Connects d me o ∨ Listens d me q o := by
  cases entry with
  | failed | done => exact .inl (.nil d [])
  | @made kind limit nonblock cloexec memory result e wakes done =>
    have install := installActs me (d.sockNew kind).2 held [] d.next limit nonblock cloexec memory
    rw [done] at install
    exact .inl (.cons (.make d [] kind) install)
  | bound path found unbound => exact .inl (Act.bind d [] _ path (fdSockOpened found) unbound).only
  | listens listens => exact .inr (.inr listens)
  | aimed path state found dgram calm => exact .inl (Act.aim d [] _ path state dgram calm).only
  | passed call found sock fresh pass =>
    rcases passActs held pass with ⟨acts,_⟩ | ⟨c,rfl,joins⟩
    · exact .inl acts
    refine .inr (.inl ⟨_,fdSockOpened found,(fresh c rfl).1,(fresh c rfl).2,?_⟩)
    rw [← sock]
    exact joins
  | sent data nonblock nosig found stream => exact .inl (streamSendActs _ _ _ _ _)
  | table o here => exact absurd here other

theorem exitActs (beyond : ∀ i, maxFds ≤ i → d.files.fds me i = none) :
    Acts me d [] (d.exit me).1 [] (d.exit me).2 :=
  closeActs [] (exitChange held beyond).1

end

theorem enterEffect (me) (held : Held d.files none) (pending q) : let o := d.enter me pending q
    Acts me d [] o.dev [] o.wakes ∨ Connects d me o ∨ Listens d me q o := by
  cases q with
  | socketpair family type proto mapped nonblock cloexec limit made first second =>
    exact .inl (socketpairActs held _ _ _ _ _ _ _ _ _ _)
  | shutdown fd how => exact .inl (shutdownActs fd how)
  | close fd => exact .inl (closingActs (closeChange held fd))
  | dup fd low limit cloexec => exact .inl (closingActs (dupChange held limit fd low cloexec))
  | dup2 old new => exact .inl (closingActs (dup2Change held old new))
  | dup3 old new cloexec => exact .inl (closingActs (dup3Change held old new cloexec))
  | setCloexec fd cloexec => exact .inl (closingActs (cloexecChange held fd cloexec))
  | setNonblock fd nonblock => exact .inl (closingActs (nonblockChange held fd nonblock))
  | exec => exact .inl (closeActs [] (execChange held))
  | files view => exact .inl (Act.note d [] view d.log.sends d.log.returned prefix_rfl).only
  | _ => exact entryEffect held (enterEntry _) id

theorem resumeEffect (me) (held : Held d.files none) (pending) (call : SockCall)
    (number : ∀ w, call = .send w → d.log.sends[w.id]? = some w.sock) :
    let o := d.resume me pending call
    Acts me d [] o.dev [] o.wakes ∧ (∀ c, call = .connect c → o.next ≠ .done (.number 0)) ∨
    ∃ c, call = .connect c ∧ Joins d c.sock o := by
  cases call with
  | send w => exact .inl ⟨resumeSendActs me pending w (number w rfl),nofun⟩
  | _ => exact passActs held (resumePass nofun)

end Sockets

namespace Sockets

structure Sleeps (d : Sockets) (s : Nat) (pending : Bool) (o : SockOutcome) (on : Addr) (c : SockCall) : Prop where
  sock : c.sock = s
  chan : on = c.chan
  waits : c.Waits o.dev
  quiet : pending = false
  silent : o.raised = none
  files : o.dev.files = d.files
  number : ∀ w, c = .send w → o.dev.log.sends[w.id]? = some w.sock

variable {on : Addr} {asleep : SockCall} {pending : Bool} {o : SockOutcome}

structure Stuck (d : Sockets) (pending : Bool) (round : SendRound) (w : Sending) : Prop where
  full : (round.dev.get w.on).ring.len = sockBuf
  peer : (round.dev.get w.sock).peer = some w.on
  writes : (round.dev.get w.sock).wrShut = false
  reads : (round.dev.get w.on).rdShut = false
  quiet : pending = false
  silent : round.raised = none
  files : round.dev.files = d.files
  sends : round.dev.log.sends = d.log.sends

theorem sendLoopStuck {fuel w v round} (shape : sendLoop pending fuel d wakes w = round) (sleeps : round.result = .inr v) :
    v.sock = w.sock ∧ v.id = w.id ∧ Stuck d pending round v := by
  induction fuel generalizing d wakes w with
  | zero => subst shape; cases sleeps
  | succ fuel ih =>
  unfold sendLoop at shape
  split at shape
  · subst shape; cases sleeps
  dsimp only at shape
  split at shape
  · subst shape; cases sleeps
  rename_i p open_
  obtain ⟨peer,writes⟩ := Option.filter_eq_some_iff.mp open_
  simp only [Bool.not_eq_true',Bool.or_eq_false_iff] at writes
  split at shape
  · rename_i full
    split at shape
    · subst shape; cases sleeps
    split at shape
    · subst shape; cases sleeps
    rename_i quiet
    subst shape
    cases sleeps
    exact ⟨rfl,rfl,full,peer,writes.1,writes.2,by simpa using quiet,rfl,rfl,rfl⟩
  obtain ⟨sock,id,stuck⟩ := ih shape
  exact ⟨sock,id,{stuck with files := stuck.files, sends := stuck.sends}⟩

theorem sentSleeps {w} (number : d.log.sends[w.id]? = some w.sock)
    (shape : sent w.id (sendLoop pending w.src.length d [] w) = o) (sleeps : o.next = .asleep on asleep) :
    Sleeps d w.sock pending o on asleep := by
  unfold sent at shape
  split at shape
  · rename_i v result
    obtain ⟨sock,id,stuck⟩ := sendLoopStuck rfl result
    subst shape
    cases sleeps
    refine ⟨sock,rfl,⟨stuck.full,stuck.peer,stuck.writes,stuck.reads⟩,stuck.quiet,stuck.silent,stuck.files,?_⟩
    intro u same
    cases same
    rw [stuck.sends,sock,id]
    exact number
  · subst shape; cases sleeps
  · subst shape; cases sleeps

theorem passSleeps {call} (pass : Pass d me pending call o) (sleeps : o.next = .asleep on asleep) :
    Sleeps d call.sock pending o on asleep := by
  cases pass with
  | asleep call next sock waits quiet other =>
    cases sleeps
    exact ⟨sock,rfl,waits,quiet,rfl,rfl,fun w same => absurd same (other w)⟩
  | joined c joins =>
    obtain ⟨l,n,path,_,_,_,_,rfl⟩ := joins
    cases sleeps
  | _ => cases sleeps

theorem resumeSleeps {call} (number : ∀ w, call = .send w → d.log.sends[w.id]? = some w.sock)
    (shape : d.resume me pending call = o) (sleeps : o.next = .asleep on asleep) : Sleeps d call.sock pending o on asleep := by
  cases call with
  | send w => exact sentSleeps (number w rfl) shape sleeps
  | _ =>
    subst shape
    exact passSleeps (resumePass nofun) sleeps

theorem entrySleeps {q} (entry : Entry d me pending q o) (other : ¬ OnTable q) (sleeps : o.next = .asleep on asleep) :
    ∃ s, Opened d me s ∧ Sleeps d s pending o on asleep := by
  cases entry with
  | passed call found sock fresh pass => exact ⟨_,fdSockOpened found,sock ▸ passSleeps pass sleeps⟩
  | @sent data nonblock nosig fd g x found stream =>
    refine ⟨x.object,fdSockOpened found,?_⟩
    generalize shape : d.streamSend pending x.object data nonblock nosig = o at *
    unfold streamSend at shape
    split at shape
    · subst shape; cases sleeps
    have number : (d.begins x.object).log.sends[d.log.sends.length]? = some x.object := by simp [Sockets.begins]
    have slept := sentSleeps (w := ⟨x.object,d.log.sends.length,data,0,nonblock,nosig,0⟩) number shape sleeps
    exact {slept with files := slept.files}
  | listens listens =>
    obtain ⟨fd,backlog,g,x,_,_,_,_,_,rfl⟩ := listens
    cases sleeps
  | table o here => exact absurd here other
  | _ => cases sleeps

theorem enterSleeps {q} (shape : d.enter me pending q = o) (sleeps : o.next = .asleep on asleep) :
    ∃ s, Opened d me s ∧ Sleeps d s pending o on asleep := by
  cases q with
  | socketpair family type proto mapped nonblock cloexec limit made first second =>
    simp only [enter,sysSocketpair] at shape
    split at shape
    · subst shape; cases sleeps
    split at shape
    · subst shape; cases sleeps
    split at shape
    · subst shape; cases sleeps
    split at shape
    · subst shape; cases sleeps
    · split at shape <;> (subst shape; cases sleeps)
  | shutdown fd how =>
    simp only [enter,sysShutdown] at shape
    split at shape
    · subst shape; cases sleeps
    split at shape
    · subst shape; cases sleeps
    · split at shape <;> (subst shape; cases sleeps)
  | close fd | dup fd low limit cloexec | dup2 old new | dup3 old new cloexec | setCloexec fd cloexec
  | setNonblock fd nonblock | exec | files view => subst shape; cases sleeps
  | _ =>
    subst shape
    exact entrySleeps (enterEntry _) id sleeps

end Miviex.Sockets
