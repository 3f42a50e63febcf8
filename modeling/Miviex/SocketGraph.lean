import Miviex.SocketEffects

/-! Every socket belongs to one open description or one backlog. That the two ends of a connection
point at each other needs more: no connection may be completed from a socket that has one. -/
namespace Miviex.Sockets
open List Nat
open Function (update update_of_ne update_self)
open Files (Dropped)

variable {d e : Sockets} {s t l c : Nat} {me : Addr} {objects : Nat → Option Nat} {hand : List Nat}

inductive Place where
  | file (f : Nat)
  | queue (l : Nat)
  | hand

def Owns (d : Sockets) (objects : Nat → Option Nat) (hand : List Nat) (s : Nat) : Place → Prop
  | .file f => objects f = some s
  | .queue l => s ∈ (d.get l).backlog
  | .hand => s ∈ hand

structure Owned (d : Sockets) (objects : Nat → Option Nat) (hand : List Nat) : Prop where
  fresh : ∀ s, Live d s → s < d.next
  freshNode : ∀ n s, d.ptr n = some s → n < d.nextNode
  live : ∀ s place, Owns d objects hand s place → Live d s
  single : ∀ s one two, Owns d objects hand s one → Owns d objects hand s two → one = two
  distinct : ∀ l, (d.get l).backlog.Nodup
  handed : hand.Nodup
  queued : ∀ l c, c ∈ (d.get l).backlog → (d.get c).type = .stream ∧ (d.get c).state = .connected ∧
    (d.get c).bound = none ∧ (d.get c).backlog = []
  bound : ∀ s n, (d.get s).bound = some n ↔ d.ptr n = some s
  idle : ∀ s, (d.get s).type = .stream → (d.get s).state ≠ .connected → (d.get s).peer = none

structure Similar (x y : Sock) : Prop where
  type : y.type = x.type
  bound : y.bound = x.bound
  backlog : y.backlog = x.backlog
  kept : x.type = .stream → x.state = .connected → y.state = .connected
  idle : (x.type = .stream → x.state ≠ .connected → x.peer = none) → x.type = .stream → y.state ≠ .connected → y.peer = none

theorem Similar.refl (x) : Similar x x := ⟨rfl,rfl,rfl,fun _ same => same,fun idle => idle⟩

variable {f : Sock → Sock} {first second : List Nat} {wakes : List Addr}

theorem modifySimilar (similar : Similar (d.get s) (f (d.get s))) (t) : Similar (d.get t) ((d.modify s f).get t) := by
  rw [getModify]
  split
  · rename_i here
    rw [here.1]
    exact similar
  · exact Similar.refl _

section

variable (owned : Owned d objects hand)
include owned

theorem Owned.similar (similar : ∀ t, Similar (d.get t) (e.get t))
    (live : ∀ t, Live e t ↔ Live d t) (next : e.next = d.next) (ptr : e.ptr = d.ptr) (nextNode : e.nextNode = d.nextNode) :
    Owned e objects hand := by
  have owns s place : Owns e objects hand s place ↔ Owns d objects hand s place := by
    cases place with
    | queue l => simp only [Owns,(similar l).backlog]
    | _ => rfl
  constructor <;> try simp only [next,ptr,nextNode,live,owns,fun t => (similar t).type,fun t => (similar t).bound,
    fun t => (similar t).backlog]
  case queued =>
    intro l c inside
    obtain ⟨stream,connected,rest⟩ := owned.queued l c inside
    exact ⟨stream,(similar c).kept stream connected,rest⟩
  case idle => exact fun s => (similar s).idle (owned.idle s)
  exacts [owned.fresh,owned.freshNode,owned.live,owned.single,owned.distinct,owned.handed,owned.bound]

theorem Owned.modify (similar : Similar (d.get s) (f (d.get s))) : Owned (d.modify s f) objects hand :=
  owned.similar (modifySimilar similar) (liveModify d s f) rfl rfl rfl

theorem Owned.noted (files view log) : Owned {d with files := files, view := view, log := log} objects hand :=
  owned.similar (fun t => Similar.refl (d.get t)) (fun _ => Iff.rfl) rfl rfl rfl

theorem Owned.permuted {other} (perm : hand.Perm other) : Owned d objects other := by
  have owns s place : Owns d objects other s place ↔ Owns d objects hand s place := by
    cases place with
    | hand => exact perm.mem_iff.symm
    | _ => rfl
  exact {owned with
    live := fun s place has => owned.live s place ((owns s place).mp has)
    single := fun s one two first second => owned.single s one two ((owns s one).mp first) ((owns s two).mp second)
    handed := perm.nodup owned.handed}

end

theorem Owned.unowned (owned : Owned d objects (s::hand)) :
    s ∉ hand ∧ (∀ f, objects f ≠ some s) ∧ ∀ l, s ∉ (d.get l).backlog := by
  have held : Owns d objects (s::hand) s .hand := mem_cons_self
  refine ⟨(nodup_cons.mp owned.handed).1,fun f has => ?_,fun l has => ?_⟩
  · cases owned.single s .hand (.file f) held has
  · cases owned.single s .hand (.queue l) held has

theorem getNew (d : Sockets) (type t) : (d.sockNew type).2.get t = (if t = d.next then {type := type} else d.get t) ∧
    (Live (d.sockNew type).2 t ↔ t = d.next ∨ Live d t) := by
  unfold sockNew get Live
  by_cases same : t = d.next
  · subst same; simp
  · simp [same]

/- Only the backlog of `s` is another. -/
structure Requeued (s : Nat) (queue : List Nat) (d e : Sockets) : Prop where
  here : e.get s = {d.get s with backlog := queue}
  other : ∀ t, t ≠ s → e.get t = d.get t
  live : ∀ t, Live e t ↔ Live d t
  next : e.next = d.next
  ptr : e.ptr = d.ptr
  nodes : e.nextNode = d.nextNode

theorem backlogRequeued (alive : Live d s) (f : List Nat → List Nat) :
    Requeued s (f (d.get s).backlog) d (d.modify s (fun x => {x with backlog := f x.backlog})) :=
  ⟨getModifySelf alive _,fun _ apart => getModifyOther apart _,liveModify d s _,rfl,rfl,rfl⟩

theorem Owned.opened (owned : Owned d d.files.objects hand) {p} (opened : Opened d p s) :
    Live d s ∧ ∀ l, s ∉ (d.get l).backlog := by
  obtain ⟨_,f,_,has⟩ := opened
  refine ⟨owned.live s (.file f) has,fun l inside => ?_⟩
  cases owned.single s (.file f) (.queue l) has inside

theorem getLinked (alive : Live d s) (apart : s ≠ d.next) (l path t) : (d.linked s l path).get t =
      if t = d.next then {type := .stream, state := .connected, peer := some s, name := ((d.sockNew .stream).2.get l).name}
      else if t = s then {d.get s with state := .connected, peer := some d.next, peername := path}
      else d.get t := by
  have new : Live (d.sockNew .stream).2 d.next := (getNew d .stream d.next).2.mpr (.inl rfl)
  have old f : Live ((d.sockNew .stream).2.modify d.next f) s := by
    rw [liveModify]
    exact (getNew d .stream s).2.mpr (.inr alive)
  have shape : d.linked s l path = ((d.sockNew .stream).2.modify d.next
      (fun y => {y with state := .connected, peer := some s, name := ((d.sockNew .stream).2.get l).name})).modify s
      (fun x => {x with state := .connected, peer := some d.next, peername := path}) := rfl
  rw [shape]
  by_cases here : t = s
  · subst here
    rw [getModifySelf (old _),getModifyOther apart,(getNew d .stream t).1,if_neg apart,if_neg apart,if_pos rfl]
  rw [getModifyOther here,if_neg here]
  by_cases server : t = d.next
  · subst server
    rw [getModifySelf new,if_pos rfl,(getNew d .stream d.next).1,if_pos rfl]
  · rw [getModifyOther server,(getNew d .stream t).1,if_neg server,if_neg server]

theorem liveLinked (d : Sockets) (s l path t) : Live (d.linked s l path) t ↔ t = d.next ∨ Live d t := by
  change Live (((d.sockNew .stream).2.modify d.next _).modify s _) t ↔ _
  rw [liveModify,liveModify]
  exact (getNew d .stream t).2

section

variable (owned : Owned d objects hand)
include owned

theorem Owned.moved {after other new} (live : ∀ t, Live e t ↔ Live d t)
    (next : e.next = d.next) (ptr : e.ptr = d.ptr) (nodes : e.nextNode = d.nextNode)
    (same : ∀ t, e.get t = {d.get t with backlog := (e.get t).backlog}) (alive : Live d c)
    (was : ∀ t place, Owns e after other t place → t = c ∧ place = new ∨ t ≠ c ∧ Owns d objects hand t place)
    (distinct : ∀ l, (e.get l).backlog.Nodup) (handed : other.Nodup) (queued : ∀ l t, t ∈ (e.get l).backlog →
    (d.get t).type = .stream ∧ (d.get t).state = .connected ∧ (d.get t).bound = none ∧ (e.get t).backlog = []) :
    Owned e after other := by
  constructor <;> try simp only [live,next,ptr,nodes]
  case live =>
    intro t place now
    rcases was t place now with ⟨rfl,_⟩ | ⟨_,had⟩
    · exact alive
    · exact owned.live t place had
  case single =>
    intro t one two first second
    rcases was t one first with ⟨here,isNew⟩ | ⟨apart,hadOne⟩ <;>
      rcases was t two second with ⟨there,alsoNew⟩ | ⟨away,hadTwo⟩
    · rw [isNew,alsoNew]
    · exact absurd here away
    · exact absurd there apart
    · exact owned.single t one two hadOne hadTwo
  case queued =>
    intro l t within
    rw [same t]
    exact queued l t within
  case bound =>
    intro t n
    rw [same t]
    exact owned.bound t n
  case idle =>
    intro t
    rw [same t]
    exact owned.idle t
  exacts [owned.fresh,owned.freshNode,distinct,handed]

theorem Owned.dropped {f} (has : objects f = some s) :
    Owned d (update objects f none) (s::hand) := by
  have was t place (now : Owns d (update objects f none) (s::hand) t place) :
      t = s ∧ place = .hand ∨ t ≠ s ∧ Owns d objects hand t place := by
    cases place with
    | file g =>
      simp only [Owns] at now
      by_cases same : g = f
      · subst same; simp at now
      rw [update_of_ne same] at now
      refine .inr ⟨fun equal => same ?_,now⟩
      exact Place.file.inj (owned.single s (.file g) (.file f) (equal ▸ now) has)
    | queue l =>
      refine .inr ⟨fun equal => ?_,now⟩
      cases owned.single s (.file f) (.queue l) has (equal ▸ now)
    | hand =>
      rcases mem_cons.mp now with same | old
      · exact .inl ⟨same,rfl⟩
      refine .inr ⟨fun equal => ?_,old⟩
      cases owned.single s (.file f) .hand has (equal ▸ old)
  refine owned.moved (fun _ => Iff.rfl) rfl rfl rfl (fun _ => rfl) (owned.live s (.file f) has) was owned.distinct ?_
    owned.queued
  refine nodup_cons.mpr ⟨fun inside => ?_,owned.handed⟩
  cases owned.single s (.file f) .hand has inside

theorem Owned.unmade : d.get d.next = blank :=
  getDead (fun live => lt_irrefl _ (owned.fresh _ live))

theorem Owned.made (type) : Owned (d.sockNew type).2 objects (d.next::hand) := by
  have old s (live : Live d s) : s ≠ d.next := Nat.ne_of_lt (owned.fresh s live)
  have same l : ((d.sockNew type).2.get l).backlog = (d.get l).backlog ∧
      ((d.sockNew type).2.get l).bound = (d.get l).bound := by
    rw [(getNew d type l).1]
    split
    · rename_i same
      rw [same,owned.unmade]
      exact ⟨rfl,rfl⟩
    · exact ⟨rfl,rfl⟩
  have was t place (now : Owns (d.sockNew type).2 objects (d.next::hand) t place) :
      t = d.next ∧ place = .hand ∨ Owns d objects hand t place := by
    cases place with
    | file f => exact .inr now
    | queue l => exact .inr (by simpa only [Owns,same] using now)
    | hand => exact (mem_cons.mp now).imp_left (fun same => ⟨same,rfl⟩)
  constructor <;> try simp only [same,(getNew d type _).2]
  case fresh =>
    rintro s (rfl | before)
    · exact lt_succ_self _
    · exact lt_succ_of_lt (owned.fresh s before)
  case live => exact fun s place now => (was s place now).imp And.left (owned.live s place)
  case single =>
    intro s one two first second
    rcases was s one first with ⟨here,isHand⟩ | hadOne <;> rcases was s two second with ⟨there,alsoHand⟩ | hadTwo
    · rw [isHand,alsoHand]
    · exact absurd here (old s (owned.live s two hadTwo))
    · exact absurd there (old s (owned.live s one hadOne))
    · exact owned.single s one two hadOne hadTwo
  case handed => exact nodup_cons.mpr ⟨fun inside => old _ (owned.live _ .hand inside) rfl,owned.handed⟩
  case queued =>
    intro l c inside
    rw [(getNew d type c).1,if_neg (old c (owned.live c (.queue l) inside))]
    exact owned.queued l c inside
  case idle =>
    intro s
    rw [(getNew d type s).1]
    split
    · exact fun _ _ => rfl
    · exact owned.idle s
  exacts [owned.freshNode,owned.distinct,owned.bound]

theorem Owned.requeued {queue after other new} (moved : Requeued s queue d e)
    (alive : Live d c) (was : ∀ t place, Owns e after other t place → t = c ∧ place = new ∨ t ≠ c ∧ Owns d objects hand t place)
    (distinct : queue.Nodup) (handed : other.Nodup) (queued : ∀ l t, t ∈ (e.get l).backlog →
    (d.get t).type = .stream ∧ (d.get t).state = .connected ∧ (d.get t).bound = none ∧ (e.get t).backlog = []) :
    Owned e after other := by
  refine owned.moved moved.live moved.next moved.ptr moved.nodes (fun t => ?_) alive was (fun l => ?_) handed queued
  · by_cases here : t = s
    · rw [here,moved.here]
    · rw [moved.other t here]
  · by_cases here : l = s
    · rw [here,moved.here]
      exact distinct
    · rw [moved.other l here]
      exact owned.distinct l

theorem Owned.popped {rest} (queue : (d.get s).backlog = c::rest) :
    Owned (d.modify s (fun x => {x with backlog := rest})) objects (c::hand) := by
  have inside : c ∈ (d.get s).backlog := by rw [queue]; exact mem_cons_self
  have alive : Live d s := by
    by_contra dead
    rw [getDead dead] at queue
    cases queue
  have moved := backlogRequeued alive (fun _ => rest)
  generalize d.modify s _ = e at moved ⊢
  obtain ⟨outside,left⟩ := nodup_cons.mp (queue ▸ owned.distinct s)
  have fewer l t (within : t ∈ (e.get l).backlog) : t ∈ (d.get l).backlog ∧ t ≠ c := by
    by_cases here : l = s
    · rw [here,moved.here] at within
      exact ⟨by rw [here,queue]; exact mem_cons_of_mem c within,fun equal => outside (equal ▸ within)⟩
    rw [moved.other l here] at within
    refine ⟨within,fun equal => here ?_⟩
    exact Place.queue.inj (owned.single c (.queue l) (.queue s) (equal ▸ within) inside)
  have was t place (now : Owns e objects (c::hand) t place) :
      t = c ∧ place = .hand ∨ t ≠ c ∧ Owns d objects hand t place := by
    cases place with
    | file f =>
      refine .inr ⟨fun equal => ?_,now⟩
      cases owned.single c (.file f) (.queue s) (equal ▸ now) inside
    | queue l => exact .inr (fewer l t now).symm
    | hand =>
      rcases mem_cons.mp now with equal | old
      · exact .inl ⟨equal,rfl⟩
      refine .inr ⟨fun equal => ?_,old⟩
      cases owned.single c .hand (.queue s) (equal ▸ old) inside
  refine owned.requeued moved (owned.live c (.queue s) inside) was left (nodup_cons.mpr ⟨fun old => ?_,owned.handed⟩)
    (fun l t within => ?_)
  · cases owned.single c .hand (.queue s) old inside
  obtain ⟨stream,connected,unbound,none_⟩ := owned.queued l t (fewer l t within).1
  have apart : t ≠ s := by
    rintro rfl
    cases none_.symm.trans queue
  rw [moved.other t apart]
  exact ⟨stream,connected,unbound,none_⟩

theorem Owned.bind (alive : Live d s) (unbound : (d.get s).bound = none)
    (unqueued : ∀ l, s ∉ (d.get l).backlog) (path) : Owned (d.bindTo s path) objects hand := by
  have getB t : (d.bindTo s path).get t =
      if t = s then {d.get s with bound := some d.nextNode, name := path} else d.get t := by
    have shape := getModify d s (fun x => {x with bound := some d.nextNode, name := path}) t
    simp only [alive,and_true] at shape
    exact shape
  have backlog l : ((d.bindTo s path).get l).backlog = (d.get l).backlog := by
    rw [getB]
    split
    · rename_i same
      rw [same]
    · rfl
  have owns t place : Owns (d.bindTo s path) objects hand t place ↔ Owns d objects hand t place := by
    cases place with
    | queue l => simp only [Owns,backlog]
    | _ => rfl
  have live t : Live (d.bindTo s path) t ↔ Live d t := liveModify d s _ t
  have ptr n : (d.bindTo s path).ptr n = if n = d.nextNode then some s else d.ptr n :=
    Function.update_apply d.ptr d.nextNode (some s) n
  constructor <;> try simp only [live,owns,backlog,ptr]
  case freshNode =>
    intro n t points
    split at points
    · rename_i same
      rw [same]
      exact lt_succ_self _
    · exact lt_succ_of_lt (owned.freshNode n t points)
  case queued =>
    intro l c inside
    rw [getB,if_neg (fun same => unqueued l (by rwa [← same]))]
    exact owned.queued l c inside
  case bound =>
    intro t n
    have newNode : d.ptr d.nextNode = none := by
      cases points : d.ptr d.nextNode with
      | none => rfl
      | some u => exact absurd (owned.freshNode _ u points) (lt_irrefl _)
    rw [getB]
    by_cases here : t = s
    · rw [if_pos here,here]
      by_cases same : n = d.nextNode
      · simp [same]
      rw [if_neg same,← owned.bound s n,unbound]
      simp [Ne.symm same]
    rw [if_neg here]
    by_cases same : n = d.nextNode
    · rw [if_pos same,same,owned.bound t,newNode]
      simp [Ne.symm here]
    rw [if_neg same]
    exact owned.bound t n
  case idle =>
    intro t
    rw [getB]
    split
    · exact owned.idle s
    · exact owned.idle t
  exacts [owned.fresh,owned.live,owned.single,owned.distinct,owned.handed]

theorem Owned.connects (s) (f : Sock → Sock) (frame : ∀ x, f x = {x with
      state := .connected, peer := (f x).peer, name := (f x).name, peername := (f x).peername}) :
    Owned (d.modify s f) objects hand := by
  refine owned.modify ?_
  rw [frame]
  exact ⟨rfl,rfl,rfl,fun _ _ => rfl,fun _ _ loose => absurd rfl loose⟩

theorem Owned.pair (type) : Owned (d.sockPair type).2.2 objects (d.next::(d.next+1)::hand) := by
  have made := ((owned.made type).made type).permuted (.swap _ _ _)
  have one := made.connects d.next (fun x => {x with peer := some (d.next+1), state := .connected}) (fun _ => rfl)
  have two := one.connects (d.next+1) (fun x => {x with peer := some d.next, state := .connected}) (fun _ => rfl)
  exact two.noted _ _ _

theorem Owned.bound_ {n} (points : d.ptr n = some l) :
    (d.get l).bound = some n ∧ Live d l ∧ l ≠ d.next := by
  have bound : (d.get l).bound = some n := (owned.bound l n).mpr points
  have alive : Live d l := by
    by_contra dead
    rw [getDead dead] at bound
    cases bound
  exact ⟨bound,alive,Nat.ne_of_lt (owned.fresh l alive)⟩

end

theorem Owned.installed {f} (owned : Owned d objects (s::hand)) (room : objects f = none) :
    Owned d (update objects f (some s)) hand := by
  obtain ⟨outside,unopened,unqueued⟩ := owned.unowned
  have was t place (now : Owns d (update objects f (some s)) hand t place) :
      t = s ∧ place = .file f ∨ t ≠ s ∧ Owns d objects (s::hand) t place := by
    cases place with
    | file g =>
      simp only [Owns] at now
      by_cases same : g = f
      · subst same
        rw [update_self] at now
        exact .inl ⟨(Option.some.inj now).symm,rfl⟩
      rw [update_of_ne same] at now
      exact .inr ⟨fun equal => unopened g (equal ▸ now),now⟩
    | queue l => exact .inr ⟨fun equal => unqueued l (equal ▸ now),now⟩
    | hand => exact .inr ⟨fun equal => outside (equal ▸ now),mem_cons_of_mem s now⟩
  exact owned.moved (fun _ => Iff.rfl) rfl rfl rfl (fun _ => rfl) (owned.live s .hand mem_cons_self) was owned.distinct
    (nodup_cons.mp owned.handed).2 owned.queued

theorem Owned.gone {after gone} (dropped : Dropped objects after gone)
    (owned : Owned d objects hand) : Owned d after (gone.map File.object ++ hand) := by
  induction dropped generalizing hand with
  | nil => exact owned
  | @cons objects later x gone f was rest ih =>
    have moved := ih (owned.dropped was)
    exact moved.permuted perm_middle

theorem Owned.queuedUp (owned : Owned d objects (c::hand)) (alive : Live d l) (bound : (d.get l).bound ≠ none)
    (stream : (d.get c).type = .stream) (connected : (d.get c).state = .connected) (unbound : (d.get c).bound = none)
    (empty : (d.get c).backlog = []) : Owned (d.modify l (fun z => {z with backlog := z.backlog ++ [c]})) objects hand := by
  obtain ⟨outside,unopened,unqueued⟩ := owned.unowned
  have moved := backlogRequeued alive (· ++ [c])
  generalize d.modify l _ = e at moved ⊢
  have more k t (within : t ∈ (e.get k).backlog) : t = c ∧ k = l ∨ t ≠ c ∧ t ∈ (d.get k).backlog := by
    by_cases here : k = l
    · rw [here,moved.here] at within
      rcases mem_append.mp within with old | new
      · exact .inr ⟨fun equal => unqueued l (equal ▸ old),here ▸ old⟩
      · exact .inl ⟨mem_singleton.mp new,here⟩
    rw [moved.other k here] at within
    exact .inr ⟨fun equal => unqueued k (equal ▸ within),within⟩
  have was t place (now : Owns e objects hand t place) :
      t = c ∧ place = .queue l ∨ t ≠ c ∧ Owns d objects (c::hand) t place := by
    cases place with
    | file f => exact .inr ⟨fun equal => unopened f (equal ▸ now),now⟩
    | queue k => exact (more k t now).imp_left (fun ⟨first,second⟩ => ⟨first,by rw [second]⟩)
    | hand => exact .inr ⟨fun equal => outside (equal ▸ now),mem_cons_of_mem c now⟩
  have distinct : ((d.get l).backlog ++ [c]).Nodup := by
    refine nodup_append.mpr ⟨owned.distinct l,nodup_singleton c,fun a old b new => ?_⟩
    rw [mem_singleton.mp new]
    exact fun equal => unqueued l (equal ▸ old)
  refine owned.requeued moved (owned.live c .hand mem_cons_self) was distinct (nodup_cons.mp owned.handed).2
    (fun k t within => ?_)
  have here : (d.get t).type = .stream ∧ (d.get t).state = .connected ∧ (d.get t).bound = none ∧ (d.get t).backlog = [] := by
    rcases more k t within with ⟨rfl,_⟩ | ⟨_,old⟩
    · exact ⟨stream,connected,unbound,empty⟩
    · exact owned.queued k t old
  have apart : t ≠ l := by
    rintro rfl
    exact bound here.2.2.1
  rw [moved.other t apart]
  exact here

theorem Owned.freed (owned : Owned d objects (s::hand)) : Owned (d.sockFree s).1 objects hand ∧
    Freed d (d.sockFree s).1 (s::(d.get s).backlog) (d.sockFree s).2 := by
  obtain ⟨outside,unopened,unqueued⟩ := owned.unowned
  have freed := freeFreed d s (unqueued s) (owned.distinct s)
  refine ⟨?_,freed⟩
  generalize (d.sockFree s).1 = e at freed ⊢
  -- what is still owned has not gone
  have was t place (now : Owns e objects hand t place) :
      Owns d objects (s::hand) t place ∧ t ∉ s::(d.get s).backlog := by
    have had : Owns d objects (s::hand) t place ∧ place ≠ .queue s := by
      cases place with
      | file f => exact ⟨now,nofun⟩
      | queue l =>
        simp only [Owns] at now
        have kept : l ∉ s::(d.get s).backlog := by
          intro gone
          rw [freed.getGone gone] at now
          cases now
        rw [freed.getKept kept] at now
        exact ⟨now,fun equal => kept (by rw [Place.queue.inj equal]; exact mem_cons_self)⟩
      | hand => exact ⟨mem_cons_of_mem s now,nofun⟩
    refine ⟨had.1,fun gone => ?_⟩
    rcases mem_cons.mp gone with same | inside
    · subst same
      cases place with
      | file f => exact unopened f now
      | queue l => exact unqueued l had.1
      | hand => exact outside now
    · exact had.2 (owned.single t place (.queue s) had.1 inside)
  have points n t (now : e.ptr n = some t) : d.ptr n = some t ∧ t ∉ s::(d.get s).backlog := by
    by_cases free : ∀ g ∈ s::(d.get s).backlog, (d.get g).bound ≠ some n
    · rw [freed.ptr n free] at now
      exact ⟨now,fun gone => free t gone ((owned.bound t n).mpr now)⟩
    push Not at free
    obtain ⟨g,gone,bound⟩ := free
    rw [freed.cleared g n gone bound] at now
    cases now
  have nexts : e.next = d.next ∧ e.nextNode = d.nextNode := by
    rw [freed.same]
    exact ⟨rfl,rfl⟩
  constructor <;> try simp only [nexts,freed.live]
  case fresh => exact fun t live => owned.fresh t live.1
  case freshNode => exact fun n t now => owned.freshNode n t (points n t now).1
  case live => exact fun t place now => (was t place now).imp_left (owned.live t place)
  case single => exact fun t one two first second => owned.single t one two (was t one first).1 (was t two second).1
  case distinct =>
    intro l
    by_cases gone : l ∈ s::(d.get s).backlog
    · rw [freed.getGone gone]
      exact nodup_nil
    rw [freed.getKept gone]
    exact owned.distinct l
  case handed => exact (nodup_cons.mp owned.handed).2
  case queued =>
    intro l c inside
    obtain ⟨had,kept⟩ := was c (.queue l) inside
    rw [freed.getKept kept]
    exact owned.queued l c had
  case bound =>
    intro t n
    by_cases gone : t ∈ s::(d.get s).backlog
    · rw [freed.getGone gone]
      exact ⟨nofun,fun now => absurd gone (points n t now).2⟩
    rw [freed.getKept gone]
    refine ⟨fun bound => ?_,fun now => (owned.bound t n).mpr (points n t now).1⟩
    rw [freed.ptr n,← owned.bound]
    · exact bound
    intro g also same
    have points := (owned.bound t n).mp bound
    rw [(owned.bound g n).mp same] at points
    exact gone (Option.some.inj points ▸ also)
  case idle =>
    intro t
    by_cases gone : t ∈ s::(d.get s).backlog
    · rw [freed.getGone gone]
      exact fun _ _ => rfl
    rcases freed.kept t gone with same | ⟨cut,_⟩
    · rw [same]
      exact owned.idle t
    rw [cut]
    exact fun _ _ => rfl

theorem Owned.joined {n} (owned : Owned d objects hand) (alive : Live d s) (points : d.ptr n = some l)
    (path) : Owned (d.join s l path) objects hand := by
  obtain ⟨bound,aliveL,apartL⟩ := owned.bound_ points
  have apart : s ≠ d.next := Nat.ne_of_lt (owned.fresh s alive)
  have server := (owned.made .stream).connects d.next
    (fun y => {y with state := .connected, peer := some s, name := ((d.sockNew .stream).2.get l).name}) (fun _ => rfl)
  have linked : Owned (d.linked s l path) objects (d.next::hand) := server.connects s
    (fun x => {x with state := .connected, peer := some d.next, peername := path}) (fun _ => rfl)
  have getC := getLinked alive apart l path d.next
  rw [if_pos rfl] at getC
  have boundL : ((d.linked s l path).get l).bound ≠ none := by
    rw [getLinked alive apart,if_neg apartL]
    split
    · rename_i same
      rw [← same,bound]
      nofun
    rw [bound]
    nofun
  have queued := linked.queuedUp ((liveLinked d s l path l).mpr (.inr aliveL)) boundL (by rw [getC]) (by rw [getC])
    (by rw [getC]) (by rw [getC])
  exact queued.noted _ _ _

theorem Act.owned (act : Act me d first e second wakes)
    (owned : Owned d d.files.objects first) : Owned e e.files.objects second := by
  cases act with
  | make _ type => exact owned.made type
  | pair _ type => exact owned.pair type
  | free _ s =>
    have files : (d.sockFree s).1.files = d.files := by rw [freeSame]
    rw [files]
    exact owned.freed.1
  | install _ s files gone room held dropped others table => exact ((owned.installed room).gone dropped).noted files _ _
  | close _ files gone change => exact (owned.gone change.objects).noted files _ _
  | pop _ s c rest queue => exact owned.popped queue
  | bind _ s path opened unbound =>
    obtain ⟨alive,unqueued⟩ := owned.opened opened
    exact owned.bind alive unbound unqueued path
  | aim _ s path state dgram calm =>
    refine owned.modify ⟨rfl,rfl,rfl,fun stream => ?_,fun _ stream => ?_⟩ <;>
    · rw [dgram] at stream
      cases stream
  | tune _ s f frame =>
    refine owned.modify ?_
    rw [frame]
    exact ⟨rfl,rfl,rfl,fun _ same => same,fun idle => idle⟩
  | take | place =>
    refine Owned.noted (owned.modify ?_) _ _ _
    exact ⟨rfl,rfl,rfl,fun _ same => same,fun idle => idle⟩
  | shut _ s connected =>
    have shuts := owned.modify (s := s) (f := fun x => {x with wrShut := true})
      ⟨rfl,rfl,rfl,fun _ same => same,fun idle => idle⟩
    unfold shutWrite
    dsimp only
    split
    · exact shuts
    · exact shuts.modify ⟨rfl,rfl,rfl,fun _ same => same,fun idle => idle⟩
  | note _ view sends returned grown => exact owned.noted _ _ _

theorem Acts.owned (acts : Acts me d first e second wakes)
    (owned : Owned d d.files.objects first) : Owned e e.files.objects second := by
  induction acts with
  | nil => exact owned
  | cons act _ ih => exact ih (act.owned owned)

def Mutual (d : Sockets) : Prop := ∀ s p, (d.get s).peer = some p → p ≠ s ∧ (d.get p).peer = some s

theorem peerLive {p} (peer : (d.get s).peer = some p) : Live d s := by
  by_contra dead
  rw [getDead dead] at peer
  cases peer

theorem Mutual.same (mutual_ : Mutual d) (same : ∀ t, (e.get t).peer = (d.get t).peer) : Mutual e := by
  intro s p peer
  rw [same] at peer ⊢
  exact mutual_ s p peer

theorem modifyPeer (same : (f (d.get s)).peer = (d.get s).peer) (t) : ((d.modify s f).get t).peer = (d.get t).peer := by
  rw [getModify]
  split
  · rename_i here
    rw [here.1]
    exact same
  · rfl

theorem Freed.mutual_ {gone} (freed : Freed d e gone wakes) (mutual_ : Mutual d) : Mutual e := by
  intro s p peer
  obtain ⟨outside,before⟩ := freed.peerKept peer
  obtain ⟨apart,back⟩ := mutual_ s p before
  have still : p ∉ gone := by
    intro inside
    have alone : ∀ h ∈ gone, (d.get h).peer ≠ some p := by
      intro h there points
      rw [(mutual_ h p points).2] at back
      exact outside (Option.some.inj back ▸ there)
    rw [freed.cut p s inside back outside (peerLive before) alone] at peer
    cases peer
  refine ⟨apart,?_⟩
  rcases freed.kept p still with same | ⟨_,_,_,g,there,points⟩
  · rw [same]
    exact back
  rw [(mutual_ g p points).2] at back
  exact absurd (Option.some.inj back ▸ there) outside

theorem getPair (d : Sockets) (type t) : (d.sockPair type).2.2.get t =
      if t = d.next then {type := type, state := .connected, peer := some (d.next+1)}
      else if t = d.next + 1 then {type := type, state := .connected, peer := some d.next}
      else d.get t := by
  have made := (getNew (d.sockNew type).2 type)
  have before := getNew d type
  have nexts : (d.sockNew type).2.next = d.next+1 := rfl
  rw [nexts] at made
  have shape : (d.sockPair type).2.2 = ((((d.sockNew type).2.sockNew type).2.modify d.next
      (fun x => {x with peer := some (d.next+1), state := .connected})).modify (d.next+1)
      (fun x => {x with peer := some d.next, state := .connected})).coupled d.next (d.next+1) := rfl
  have apart : d.next ≠ d.next+1 := by omega
  rw [shape]
  change (Sockets.modify _ _ _).get t = _
  by_cases second : t = d.next+1
  · subst second
    rw [getModifySelf,getModifyOther (Ne.symm apart),(made _).1,if_pos rfl,if_neg (Ne.symm apart),if_pos rfl]
    rw [liveModify]
    exact (made _).2.mpr (.inl rfl)
  rw [getModifyOther second,if_neg second]
  by_cases first : t = d.next
  · subst first
    rw [getModifySelf,(made _).1,if_neg apart,(before _).1,if_pos rfl,if_pos rfl]
    exact (made _).2.mpr (.inr ((before _).2.mpr (.inl rfl)))
  · rw [getModifyOther first,(made _).1,if_neg second,(before _).1,if_neg first,if_neg first]

theorem Act.mutual_ (act : Act me d first e second wakes)
    (owned : Owned d d.files.objects first) (mutual_ : Mutual d) : Mutual e := by
  cases act with
  | make _ type =>
    refine mutual_.same (fun t => ?_)
    rw [(getNew d type t).1]
    split
    · rename_i new
      rw [new,owned.unmade]
      rfl
    · rfl
  | pair _ type =>
    intro s p peer
    have old s p (peer : (d.get s).peer = some p) : s < d.next := owned.fresh s (peerLive peer)
    rw [getPair] at peer ⊢
    by_cases one : s = d.next
    · rw [if_pos one] at peer
      cases peer
      simp [one]
    rw [if_neg one] at peer
    by_cases two : s = d.next+1
    · rw [if_pos two] at peer
      cases peer
      simp [two]
    rw [if_neg two] at peer
    obtain ⟨apart,back⟩ := mutual_ s p peer
    have below := old p s back
    rw [if_neg (by omega),if_neg (by omega)]
    exact ⟨apart,back⟩
  | free _ s => exact owned.freed.2.mutual_ mutual_
  | install | close => exact mutual_
  | pop _ s c rest queue => exact mutual_.same (modifyPeer rfl)
  | bind _ s path opened unbound => exact mutual_.same (modifyPeer (d := d) rfl)
  | aim _ s path state dgram calm => exact mutual_.same (modifyPeer rfl)
  | tune _ s f frame => exact mutual_.same (modifyPeer (by rw [frame]))
  | take | place => exact mutual_.same (modifyPeer (d := d) rfl)
  | shut _ s connected =>
    have shuts : Mutual (d.modify s (fun x => {x with wrShut := true})) := mutual_.same (modifyPeer rfl)
    unfold shutWrite
    dsimp only
    split
    · exact shuts
    · exact shuts.same (modifyPeer rfl)
  | note => exact mutual_

theorem Acts.mutual_ (acts : Acts me d first e second wakes)
    (owned : Owned d d.files.objects first) (mutual_ : Mutual d) : Mutual e := by
  induction acts with
  | nil => exact mutual_
  | cons act _ ih => exact ih (act.owned owned) (act.mutual_ owned mutual_)

theorem joinPeer (alive : Live d s) (apart : s ≠ d.next) (l path t) :
    ((d.join s l path).get t).peer = if t = d.next then some s else if t = s then some d.next else (d.get t).peer := by
  have linked : ((d.join s l path).get t).peer = ((d.linked s l path).get t).peer :=
    modifyPeer (d := d.linked s l path) rfl t
  rw [linked,getLinked alive apart]
  split
  · rfl
  · split <;> rfl

theorem Mutual.joined (mutual_ : Mutual d) (owned : Owned d objects hand) (alive : Live d s)
    (free : (d.get s).peer = none) (l path) : Mutual (d.join s l path) := by
  have apart : s ≠ d.next := Nat.ne_of_lt (owned.fresh s alive)
  intro t p peer
  rw [joinPeer alive apart] at peer ⊢
  by_cases server : t = d.next
  · rw [if_pos server] at peer
    cases peer
    rw [if_neg apart,if_pos rfl,server]
    exact ⟨apart,rfl⟩
  rw [if_neg server] at peer
  by_cases client : t = s
  · rw [if_pos client] at peer
    cases peer
    rw [if_pos rfl,client]
    exact ⟨Ne.symm apart,rfl⟩
  rw [if_neg client] at peer
  obtain ⟨differ,back⟩ := mutual_ t p peer
  have other : p ≠ s := by
    rintro rfl
    rw [free] at back
    cases back
  rw [if_neg (Nat.ne_of_lt (owned.fresh p (peerLive back))),if_neg other]
  exact ⟨differ,back⟩

theorem Mutual.doubled {p} (mutual_ : Mutual d) (owned : Owned d objects hand) (taken : (d.get s).peer = some p)
    (l path) : p ≠ d.next ∧ ((d.join s l path).get p).peer = some s ∧ ((d.join s l path).get s).peer = some d.next := by
  have alive := peerLive taken
  have apart : s ≠ d.next := Nat.ne_of_lt (owned.fresh s alive)
  obtain ⟨other,back⟩ := mutual_ s p taken
  have old : p ≠ d.next := Nat.ne_of_lt (owned.fresh p (peerLive back))
  rw [joinPeer alive apart,joinPeer alive apart,if_neg old,if_neg other,if_neg apart,if_pos rfl]
  exact ⟨old,back,rfl⟩

end Miviex.Sockets
