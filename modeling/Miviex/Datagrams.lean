import Miviex.PointerChain
import Miviex.Runs
import Miviex.Socket

/-! The datagrams a socket has received, as `socket.c` keeps them: messages in the heap that point
at each other. Beside them stand the messages that were queued and those that were taken. -/
namespace Miviex
open List
open Function (update update_of_ne update_self)
open PointerChain

structure Mailbox where
  first : Option Addr := none
  last : Option Addr := none
  queued : Nat := 0
  sent : List Msg := []
  got : List Msg := []

/- `used` has the messages in use, `home` the socket each was queued at. -/
structure Post where
  dev : Sockets
  box : Nat → Mailbox := fun _ => {}
  next : Addr → Option Addr := fun _ => none
  msg : Addr → Msg := fun _ => ⟨[],[]⟩
  used : List Addr := []
  home : Addr → Nat := fun _ => 0

namespace Post

variable {p q : Post} {s t : Nat} {a : Addr} {x : Msg} {nodes rest : List Addr}

def enqueue (p : Post) (t : Nat) (m : Addr) (x : Msg) : Post :=
  let b := p.box t
  {p with
    box := update p.box t {b with
      first := if b.last.isSome then b.first else some m
      last := some m
      queued := b.queued+x.data.length
      sent := b.sent ++ [x]}
    next := fun a => if b.last = some a then some m else if a = m then none else p.next a
    msg := update p.msg m x
    used := m::p.used
    home := update p.home m t}

def dequeue (p : Post) (s : Nat) (m : Addr) : Post :=
  let b := p.box s
  {p with
    box := update p.box s {b with
      first := p.next m
      last := if (p.next m).isNone then none else b.last
      queued := b.queued - (p.msg m).data.length
      got := b.got ++ [p.msg m]}
    used := p.used.erase m}

def dgramSend (p : Post) (me : Addr) (pending : Bool) (m : Mailing) (place : Addr) :
    Calls.Next SockCall SockAnswer × Post :=
  if m.data.length > sockBuf then (.done (.failed (.errno .emsgsize)),p)
  else match p.dev.dgramTarget me m.sock m.target with
    | .error e => (.done (.failed (.errno e)),p)
    | .ok t =>
      if (p.box t).queued + m.data.length > sockBuf then
        if m.nonblock then (.done (.failed (.errno .eagain)),p)
        else if pending then (.done (.failed .restartsys),p)
        else (.asleep t (.mail {m with on := t}),p)
      else if ¬ m.memory then (.done (.failed (.errno .enomem)),p)
      else (.done (.number m.data.length),p.enqueue t place ⟨m.data,(p.dev.get m.sock).name⟩)

def dgramRecv (p : Post) (pending : Bool) (r : Receiving) : Calls.Next SockCall SockAnswer × Post :=
  let x := p.dev.get r.sock
  match (p.box r.sock).first with
  | none =>
    if x.rdShut ∨ (x.peername = [] ∧ x.eof) then (.done (.data [] r.source),p)
    else if r.nonblock then (.done (.failed (.errno .eagain)),p)
    else if pending then (.done (.failed .restartsys),p)
    else (.asleep r.sock (.recv r),p)
  | some m =>
    (.done (.data ((p.msg m).data.take r.size) (p.msg m).source),if r.peek then p else p.dequeue r.sock m)

/- Any other call. It may make sockets, change them, and free them with what is queued at them, but
it leaves the queues of the others alone. -/
def other (p : Post) (e : Sockets) : Post :=
  {p with
    dev := e
    box := fun s => if (e.sock s).isSome then p.box s else {}
    used := p.used.filter (fun m => (e.sock (p.home m)).isSome)}

inductive Event where
  | send (me : Addr) (pending : Bool) (m : Mailing) (place : Addr)
  | recv (pending : Bool) (r : Receiving)
  | other (e : Sockets)

/- `k_malloc` gives a message no place in use. -/
def step (p : Post) : Event → Option Post
  | .send me pending m place => if place ∉ p.used then some (p.dgramSend me pending m place).2 else none
  | .recv pending r => some (p.dgramRecv pending r).2
  | .other e => some (p.other e)

def size (xs : List Msg) : Nat := (xs.map (·.data.length)).sum

/- The queue of `s` is `nodes`: what was queued is what was taken and, after it, what they hold. -/
structure Shows (p : Post) (s : Nat) (nodes : List Addr) : Prop where
  chain : Chain p.next (p.box s).first nodes
  last : (p.box s).last = nodes.getLast?
  owned : ∀ a ∈ nodes, a ∈ p.used ∧ p.home a = s
  history : (p.box s).sent = (p.box s).got ++ nodes.map p.msg
  count : (p.box s).queued = size (nodes.map p.msg)
  bound : (p.box s).queued ≤ sockBuf

def Kept (p : Post) : Prop := ∀ s, ∃ nodes, Shows p s nodes

theorem Shows.frame (shows_ : Shows p s nodes)
    (same : ∀ a ∈ nodes, a ∈ q.used ∧ q.home a = p.home a ∧ q.next a = p.next a ∧ q.msg a = p.msg a)
    (box : q.box s = p.box s) : Shows q s nodes := by
  have view : nodes.map q.msg = nodes.map p.msg := map_congr_left (fun a there => (same a there).2.2.2)
  obtain ⟨chain,last,owned,history,count,bound⟩ := shows_
  refine ⟨?_,by rw [box,last],?_,by rw [box,history,view],by rw [box,count,view],by rwa [box]⟩
  · rw [box]
    exact chainCongr (fun a there => (same a there).2.2.1) chain
  · exact fun a there => ⟨(same a there).1,(same a there).2.1.trans (owned a there).2⟩

/- A send that succeeds puts its bytes whole at the end of the target's queue, with the name of the
sender; any other changes nothing. -/
def Sent (p : Post) (me : Addr) (m : Mailing) : Calls.Next SockCall SockAnswer × Post → Prop
  | (.done (.number n),q) => n = m.data.length ∧ ∃ t, p.dev.dgramTarget me m.sock m.target = .ok t ∧ ∀ s,
    (q.box s).sent = (p.box s).sent ++ (if s = t then [⟨m.data,(p.dev.get m.sock).name⟩] else []) ∧ (q.box s).got = (p.box s).got
  | (_,q) => q = p

/- The queue of every socket is in order, and a receiver is given the first message of it, which is
then taken unless it peeks. -/
structure Ordered (p : Post) : Prop where
  ends : ∀ s, (p.box s).last = none ↔ (p.box s).first = none
  queue : ∀ s, ∃ nodes, Chain p.next (p.box s).first nodes ∧ (p.box s).last = nodes.getLast? ∧
    (p.box s).sent = (p.box s).got ++ nodes.map p.msg ∧ (p.box s).queued = size (nodes.map p.msg) ∧
    (p.box s).queued ≤ sockBuf
  send : ∀ me pending m place, Sent p me m (p.dgramSend me pending m place)
  answer : ∀ pending r m rest, (p.box r.sock).sent = (p.box r.sock).got ++ m::rest →
    (p.dgramRecv pending r).1 = .done (.data (m.data.take r.size) m.source) ∧
    ∀ s, ((p.dgramRecv pending r).2.box s).sent = (p.box s).sent ∧
      ((p.dgramRecv pending r).2.box s).got = (p.box s).got ++ (if s = r.sock ∧ r.peek = false then [m] else [])

theorem dgramSendSent (p : Post) (me pending m place) : Sent p me m (p.dgramSend me pending m place) := by
  unfold dgramSend
  split
  · exact rfl
  split
  · exact rfl
  rename_i t found
  split
  · split
    · exact rfl
    split <;> exact rfl
  split
  · exact rfl
  refine ⟨rfl,t,found,fun s => ?_⟩
  rcases eq_or_ne s t with rfl | other
  · simp [enqueue]
  · simp [enqueue,other]

section

variable (kept : Kept p)
include kept

theorem Kept.enqueue (fresh : a ∉ p.used)
    (room : (p.box t).queued + x.data.length ≤ sockBuf) : Kept (p.enqueue t a x) := by
  intro s
  obtain ⟨nodes,shows_⟩ := kept s
  have apart : ∀ b ∈ nodes, b ≠ a := fun b there same => fresh (same ▸ (shows_.owned b there).1)
  by_cases here : s = t
  · subst here
    have view : nodes.map (update p.msg a x) = nodes.map p.msg :=
      map_congr_left (fun b there => update_of_ne (apart b there) _ _)
    obtain ⟨chain,last,owned,history,count,bound⟩ := shows_
    refine ⟨nodes ++ [a],?_,?_,?_,?_,?_,?_⟩ <;> simp only [Post.enqueue,update_self]
    · refine chainSnoc chain ?_ ?_ ?_ ?_
      · rw [if_neg,if_pos rfl]
        rw [last]
        exact fun final => apart a (mem_of_getLast? final) rfl
      · intro empty
        rw [last,empty]
        rfl
      · intro y final
        rw [last,final]
        exact ⟨rfl,if_pos rfl⟩
      intro y there other
      rw [if_neg (by rwa [last]),if_neg (apart y there)]
    · exact List.getLast?_concat.symm
    · intro b there
      rcases mem_append.mp there with old | new
      · exact ⟨mem_cons_of_mem _ (owned b old).1,(update_of_ne (apart b old) _ _).trans (owned b old).2⟩
      rcases mem_singleton.mp new with rfl
      exact ⟨mem_cons_self,update_self _ _ _⟩
    · rw [map_append,view,history,map_singleton,update_self,append_assoc]
    · rw [map_append,view,count,map_singleton,update_self]
      simp [size]
    · exact room
  refine ⟨nodes,shows_.frame (fun b there => ?_) (update_of_ne here _ _)⟩
  refine ⟨mem_cons_of_mem _ (shows_.owned b there).1,update_of_ne (apart b there) _ _,?_,update_of_ne (apart b there) _ _⟩
  obtain ⟨others,other⟩ := kept t
  simp only [Post.enqueue]
  rw [if_neg,if_neg (apart b there)]
  rw [other.last]
  intro final
  exact here ((shows_.owned b there).2.symm.trans (other.owned b (mem_of_getLast? final)).2)

theorem Kept.dequeue (front : (p.box s).first = some a) : Kept (p.dequeue s a) := by
  obtain ⟨taken,shows_⟩ := kept s
  obtain ⟨rest,rfl⟩ : ∃ rest, taken = a::rest := by
    have chain := shows_.chain
    rw [front] at chain
    cases taken with
    | nil => cases chain
    | cons b rest => exact ⟨rest,by rw [Option.some.inj chain.1]⟩
  have gone : ∀ {b}, b ∈ p.used → b ≠ a → b ∈ (p.dequeue s a).used := fun there apart => (mem_erase_of_ne apart).mpr there
  intro j
  by_cases here : j = s
  · subst here
    obtain ⟨chain,last,owned,history,count,bound⟩ := shows_
    have notAgain := (nodup_cons.mp (chainNodup chain)).1
    refine ⟨rest,?_,?_,?_,?_,?_,?_⟩ <;> simp only [Post.dequeue,update_self]
    · exact chain.2
    · cases rest with
      | nil => rw [show p.next a = none from chain.2]; rfl
      | cons b rest => rw [show p.next a = some b from chain.2.1,last]; rfl
    · intro b there
      have own := owned b (mem_cons_of_mem _ there)
      exact ⟨gone own.1 (fun same => notAgain (same ▸ there)),own.2⟩
    · rw [history,append_assoc]
      rfl
    · simp [count,size]
    · omega
  obtain ⟨nodes,other⟩ := kept j
  refine ⟨nodes,other.frame (fun b there => ?_) (update_of_ne here _ _)⟩
  refine ⟨gone (other.owned b there).1 (fun same => here ?_),rfl,rfl,rfl⟩
  rw [← (other.owned b there).2,same,(shows_.owned a mem_cons_self).2]

theorem Kept.other (e) : Kept (p.other e) := by
  intro s
  obtain ⟨nodes,shows_⟩ := kept s
  cases live : e.sock s with
  | none =>
    have box : (p.other e).box s = {} := by simp [Post.other,live]
    exact ⟨[],by rw [box]; rfl,by rw [box]; rfl,nofun,by rw [box]; rfl,by rw [box]; rfl,by rw [box]; decide⟩
  | some x =>
    refine ⟨nodes,shows_.frame (fun b there => ⟨?_,rfl,rfl,rfl⟩) (by simp [Post.other,live])⟩
    have own := shows_.owned b there
    refine mem_filter.mpr ⟨own.1,?_⟩
    rw [own.2,live]
    rfl

theorem stepKept {e} (moved : p.step e = some q) : Kept q := by
  cases e with
  | send me pending m place =>
    obtain ⟨fresh,done⟩ := Option.ite_none_right_eq_some.mp moved
    cases done
    unfold dgramSend
    split
    · exact kept
    split
    · exact kept
    split
    · split
      · exact kept
      split <;> exact kept
    rename_i room
    split
    · exact kept
    · exact kept.enqueue fresh (Nat.le_of_not_lt room)
  | recv pending r =>
    cases moved
    unfold dgramRecv
    dsimp only
    split
    · split
      · exact kept
      split
      · exact kept
      split <;> exact kept
    rename_i m front
    split
    · exact kept
    · exact kept.dequeue front
  | other e =>
    cases moved
    exact kept.other e

theorem Kept.ordered : Ordered p := by
  refine ⟨fun s => ?_,fun s => ?_,dgramSendSent p,fun pending r m rest shape => ?_⟩
  · obtain ⟨nodes,shows_⟩ := kept s
    have chain := shows_.chain
    rw [shows_.last]
    cases nodes with
    | nil => exact iff_of_true rfl chain
    | cons a rest => exact iff_of_false (by simp) (by rw [chain.1]; nofun)
  · obtain ⟨nodes,shows_⟩ := kept s
    exact ⟨nodes,shows_.chain,shows_.last,shows_.history,shows_.count,shows_.bound⟩
  obtain ⟨nodes,shows_⟩ := kept r.sock
  have held := append_cancel_left (shows_.history.symm.trans shape)
  obtain ⟨a,more,rfl,first,_⟩ := map_eq_cons_iff.mp held
  simp only [dgramRecv,shows_.chain.1,first,true_and]
  intro s
  cases r.peek with
  | true => simp
  | false =>
    rcases eq_or_ne s r.sock with rfl | other
    · simp [Post.dequeue,first]
    · simp [Post.dequeue,other]

end

def nobody : Sockets := .initial ⟨fun _ _ => .error .enoent,fun _ => false,fun _ _ => none⟩

end Post
end Miviex
