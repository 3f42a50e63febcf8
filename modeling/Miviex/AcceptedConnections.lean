import Miviex.Socket

/-! What `accept4` does to the connections that wait. It takes the oldest one off the backlog
before it copies the address and looks for a descriptor, and a call that fails after that has
freed the connection. -/
namespace Miviex

open Function Nat
namespace Sockets

variable {d e : Sockets} {me : Addr} {s t : Nat}

def Shrinks (d e : Sockets) : Prop := ∀ t, (e.get t).backlog.length ≤ (d.get t).backlog.length

theorem Shrinks.trans {g} (first : Shrinks d e) (second : Shrinks e g) : Shrinks d g :=
  fun t => (second t).trans (first t)

theorem shrinksModify {f} (same : ∀ y, (f y).backlog = y.backlog) : Shrinks d (d.modify s f) := by
  intro t
  simp only [modify,get]
  rcases eq_or_ne t s with rfl | other
  · rw [update_self]
    cases d.sock t with
    | none => exact le_refl _
    | some y => exact le_of_eq (congrArg List.length (same y))
  · rw [update_of_ne other]

theorem shrinksRemove : Shrinks d (d.remove s) := by
  intro t
  simp only [remove,get]
  rcases eq_or_ne t s with rfl | other
  · rw [update_self]
    exact zero_le _
  · rw [update_of_ne other]

theorem shrinksUnpeer : Shrinks d (d.unpeer s).1 := by
  unfold unpeer
  split
  · exact fun t => le_refl _
  · exact shrinksModify (fun y => rfl)

theorem shrinksUnbind : Shrinks d (d.unbind s) := by
  unfold unbind
  split <;> exact fun t => le_refl _

theorem shrinksFree : Shrinks d (d.sockFree s).1 := by
  have drops : ∀ (gone : List Nat) (x : Sockets × List Addr), Shrinks x.1 (gone.foldl dropOne x).1 := by
    intro gone
    induction gone with
    | nil => exact fun x t => le_refl _
    | cons c rest later => exact fun x => ((shrinksUnpeer.trans shrinksUnbind).trans shrinksRemove).trans (later _)
  exact ((shrinksUnpeer.trans (drops _ _)).trans shrinksUnbind).trans shrinksRemove

def freeSlot (d : Sockets) (me : Addr) (limit : Nat) : Option Nat :=
  (List.range (min limit maxFds)).find? (fun i => 0 ≤ i && (d.files.fds me i).isNone)

theorem allocSlot (limit nonblock) : (List.range (min limit maxFds)).find? (fun i =>
    0 ≤ i && ((d.files.fileAlloc s .rdwr nonblock).2.fds me i).isNone) = d.freeSlot me limit := rfl

theorem installSlot {limit nonblock cloexec i} (slot : d.freeSlot me limit = some i) :
    d.sockInstall me limit s nonblock cloexec true =
    (.ok i,{d with files := (d.files.fileAlloc s .rdwr nonblock).2.setFd me i (some d.files.next) cloexec},[]) := by
  unfold sockInstall Files.fdInstall
  simp only [not_true_eq_false,if_false,allocSlot,slot]
  rfl

theorem installFull {limit} (nonblock cloexec) (full : d.freeSlot me limit = none) :
    Shrinks d (d.sockInstall me limit s nonblock cloexec true).2.1 ∧
    (d.sockInstall me limit s nonblock cloexec true).1 = .error .emfile := by
  unfold sockInstall Files.fdInstall
  simp only [not_true_eq_false,if_false,allocSlot,full]
  refine ⟨?_,trivial⟩
  have closes : (d.files.fileAlloc s .rdwr nonblock).2.filePut (d.files.fileAlloc s .rdwr nonblock).1 =
      ({(d.files.fileAlloc s .rdwr nonblock).2 with
        file := update (d.files.fileAlloc s .rdwr nonblock).2.file d.files.next none},some ⟨s,.rdwr,nonblock,1⟩) := by
    simp [Files.filePut,Files.fileAlloc]
  rw [closes]
  exact fun t => shrinksFree (d := {d with files := _}) t

/- An `accept4` on `l` that fails leaves the backlog and the sockets in it alone, and one that
succeeds takes the oldest connection. -/
def Accepts (d : Sockets) (me : Addr) (l : Nat) (o : SockOutcome) : Prop :=
  match o.next with
  | .done (.failed _) =>
    (o.dev.get l).backlog = (d.get l).backlog ∧ ∀ c ∈ (d.get l).backlog, o.dev.sock c = d.sock c
  | .done (.number i) =>
    ∃ g c x, (d.get l).backlog = c::(o.dev.get l).backlog ∧ d.files.fds me i = none ∧
      o.dev.files.fds me i = some g ∧ o.dev.files.file g = some x ∧ x.object = c ∧ ∀ s, s ≠ l → o.dev.sock s = d.sock s
  | _ => False

theorem notAccepts {z c rest o} (why : Stop) (here : d.sock t = some z) (waits : z.backlog = c::rest)
    (shrinks : Shrinks (d.modify t (fun x => {x with backlog := rest})) o.dev) (fails : o.next = .done (.failed why)) :
    ¬ Accepts d me t o := by
  intro accepts
  unfold Accepts at accepts
  rw [fails] at accepts
  have shorter := shrinks t
  rw [accepts.1] at shorter
  simp [get,modify,here,waits] at shorter

/- Once the flags are known, a connection is lost exactly where the address cannot be copied,
there is no memory for the description, or there is no descriptor. -/
theorem acceptAccepts {pending fd known nonblock cloexec limit memory refused f x z c rest}
    (opened : d.fdSock me fd = some (f,x)) (here : d.sock x.object = some z) (listens : z.state = .listening)
    (waits : z.backlog = c::rest) :
    Accepts d me x.object (d.sysAccept4 me pending fd known nonblock cloexec limit memory refused) ↔
    known = false ∨ refused = none ∧ memory = true ∧ (d.freeSlot me limit).isSome := by
  have got : d.get x.object = z := by rw [get,here,Option.getD_some]
  cases known with
  | false =>
    refine iff_of_true ?_ (.inl rfl)
    simp only [sysAccept4,opened]
    exact ⟨rfl,fun c _ => rfl⟩
  | true =>
  have loop : d.sysAccept4 me pending fd true nonblock cloexec limit memory refused =
      d.acceptLoop me pending ⟨x.object,f,nonblock,cloexec,limit,memory,refused⟩ := by
    simp [sysAccept4,opened,got,listens]
  rw [loop,acceptLoop]
  simp only [got,waits,false_or,Bool.true_eq_false]
  cases refused with
  | some e => exact iff_of_false (notAccepts (.errno e) here waits shrinksFree rfl) nofun
  | none =>
  cases memory with
  | false => exact iff_of_false (notAccepts (.errno .enomem) here waits shrinksFree rfl) (fun both => nomatch both.2.1)
  | true =>
  cases slot : d.freeSlot me limit with
  | none =>
    obtain ⟨shrinks,fails⟩ := installFull (d := d.modify x.object (fun x => {x with backlog := rest})) (s := c)
      nonblock cloexec slot
    refine iff_of_false (notAccepts (.errno .emfile) here waits shrinks ?_) (fun both => nomatch both.2.2)
    simp only [answered,fails]
  | some i =>
  refine iff_of_true ?_ ⟨rfl,rfl,rfl⟩
  rw [installSlot (d := d.modify x.object (fun x => {x with backlog := rest})) slot]
  have free : d.files.fds me i = none := by simpa using (List.find?_some slot)
  refine ⟨d.files.next,c,⟨c,.rdwr,nonblock,1⟩,?_,free,?_,?_,rfl,?_⟩
  · simp [get,answered,modify,here,waits]
  · simp [answered,Files.setFd,modify]
  · simp [answered,Files.setFd,Files.fileAlloc,modify]
  intro s other
  simp [answered,modify,other]

def servedClient : Sockets :=
  [.socket 1 1 0 false false 64 true true,.bind 0 (.ok [97]) none (.ok ()),.listen 0 1,
    .socket 1 1 0 false false 64 true true,.connect 1 false (.ok [97]) true].foldl
    (fun d request => (d.enter 1 false request).dev)
    (initial ⟨fun _ _ => .ok 0,fun _ => true,fun _ _ => none⟩)

theorem clientAccepted : ∃ f x z c rest, servedClient.fdSock 1 0 = some (f,x) ∧ servedClient.sock x.object = some z ∧
    z.state = .listening ∧ z.backlog = c::rest ∧
    Accepts servedClient 1 x.object (servedClient.sysAccept4 1 false 0 true false false 64 true none) :=
  ⟨_,_,_,_,_,rfl,rfl,rfl,rfl,(acceptAccepts rfl rfl rfl rfl).mpr (.inr ⟨rfl,rfl,rfl⟩)⟩

/- A limit of two descriptors: the call answers EMFILE, and the client has lost its server. -/
theorem clientDropped : let o := servedClient.sysAccept4 1 false 0 true false false 2 true none
    o.next = .done (.failed (.errno .emfile)) ∧ ((servedClient.get 0).backlog,(o.dev.get 0).backlog) = ([2],[]) ∧
      (servedClient.get 1).peer = some 2 ∧ (o.dev.get 1).peer = none ∧ (o.dev.sock 2).isNone := by
  refine ⟨rfl,rfl,rfl,rfl,rfl⟩

end Sockets
end Miviex
