import Miviex.SocketRuns

/-! Stream sockets as streams. At every moment the bytes put into a socket are those taken out
followed by those in its ring. -/
namespace Miviex.Sockets
open List Nat
open Function (update update_apply update_of_ne update_self)

variable {d e : Sockets} {s t r : Nat} {me : Addr} {first second : List Nat} {wakes : List Addr}
  {objects : Nat → Option Nat} {hand : List Nat}

structure Once (d : Sockets) (r s : Nat) : Prop where
  one : d.log.mates r = [s]
  two : d.log.mates s = [r]

structure Flow (d : Sockets) : Prop where
  fresh : ∀ t, d.next ≤ t → d.log.placed t = [] ∧ d.log.taken t = [] ∧ d.log.mates t = []
  balanced : ∀ t, Live d t → d.log.taken t ++ (d.get t).ring.contents sockBuf = (d.log.placed t).map Prod.snd ∧
    (d.get t).ring.len ≤ sockBuf
  consumed : ∀ t, d.log.taken t <+: (d.log.placed t).map Prod.snd
  mates : ∀ s p, (d.get s).peer = some p → p ∈ d.log.mates s ∧ s ∈ d.log.mates p
  tagged : ∀ t x, x ∈ d.log.placed t → ∃ s, d.log.sends[x.1]? = some s ∧ s ∈ d.log.mates t ∧ t ∈ d.log.mates s
  linked : ∀ t, Live d t → (d.get t).type = .stream → ((d.get t).state = .connected ↔ d.log.mates t ≠ [])
  whole : ∀ t, Live d t → (d.get t).type = .stream → d.log.mates t = [] → (d.get t).wrShut = false
  both : ∀ r s, Once d r s → Live d r → Live d s → (d.get s).peer = some r
  closed : ∀ r s, Once d r s → Live d r → ¬ Live d s → (d.get r).eof = true
  shut : ∀ r s, Once d r s → Live d r → Live d s → (d.get s).type = .stream → (d.get s).wrShut = true → (d.get r).eof = true

structure Still (x y : Sock) : Prop where
  type : y.type = x.type
  state : x.type = .stream → (y.state = .connected ↔ x.state = .connected)
  peer : y.peer = x.peer
  ring : y.ring = x.ring
  eof : y.eof = x.eof
  wrShut : y.wrShut = x.wrShut

theorem Still.refl (x) : Still x x := ⟨rfl,fun _ => Iff.rfl,rfl,rfl,rfl,rfl⟩

theorem onceSame (mates : e.log.mates = d.log.mates) (r s) : Once e r s ↔ Once d r s :=
  ⟨fun once => ⟨mates ▸ once.one,mates ▸ once.two⟩,fun once => ⟨mates ▸ once.one,mates ▸ once.two⟩⟩

theorem Flow.still (flow : Flow d) (still : ∀ t, Still (d.get t) (e.get t)) (live : ∀ t, Live e t ↔ Live d t)
    (next : e.next = d.next) (placed : e.log.placed = d.log.placed) (taken : e.log.taken = d.log.taken)
    (mates : e.log.mates = d.log.mates) (sends : d.log.sends <+: e.log.sends) : Flow e := by
  constructor <;> simp only [next,placed,taken,mates,live,onceSame mates,fun t => (still t).type,
    fun t => (still t).peer,fun t => (still t).ring,fun t => (still t).eof,fun t => (still t).wrShut]
  case tagged =>
    intro t x inside
    obtain ⟨s,number,both⟩ := flow.tagged t x inside
    exact ⟨s,prefixAt sends number,both⟩
  case linked => exact fun t alive stream => ((still t).state stream).trans (flow.linked t alive stream)
  exacts [flow.fresh,flow.balanced,flow.consumed,flow.mates,flow.whole,flow.both,flow.closed,flow.shut]

theorem stillModify {f} (still : Still (d.get s) (f (d.get s))) (t) : Still (d.get t) ((d.modify s f).get t) := by
  rw [getModify]
  split
  · rename_i here
    rw [here.1]
    exact still
  · exact Still.refl _

theorem Flow.modify (flow : Flow d) {f} (still : Still (d.get s) (f (d.get s))) : Flow (d.modify s f) :=
  flow.still (stillModify still) (liveModify d s f) rfl rfl rfl rfl prefix_rfl

theorem Flow.sameSock (flow : Flow d) (same : e.sock = d.sock) (next : e.next = d.next)
    (placed : e.log.placed = d.log.placed) (taken : e.log.taken = d.log.taken) (mates : e.log.mates = d.log.mates)
    (sends : d.log.sends <+: e.log.sends) : Flow e := by
  refine flow.still (fun t => ?_) (fun t => by simp only [Live,same]) next placed taken mates sends
  have gets : e.get t = d.get t := by simp only [get,same]
  rw [gets]
  exact Still.refl _

theorem Flow.old (flow : Flow d) (nonempty : d.log.mates t ≠ []) : t < d.next := by
  by_contra beyond
  exact nonempty (flow.fresh t (Nat.le_of_not_lt beyond)).2.2

theorem Once.old (once : Once d r s) (flow : Flow d) : r < d.next ∧ s < d.next :=
  ⟨flow.old (by rw [once.one]; nofun),flow.old (by rw [once.two]; nofun)⟩

theorem Flow.freed {gone} (flow : Flow d) (freed : Freed d e gone wakes) : Flow e := by
  have log : e.log = d.log := by rw [freed.same]
  have next : e.next = d.next := by rw [freed.same]
  have once := onceSame (d := d) (e := e) (by rw [log])
  -- somebody who points at one end of the pair is the other end
  have points r s g (pair : Once d r s) (peer : (d.get g).peer = some r) : g = s := by
    have member := (flow.mates g r peer).2
    rw [pair.one] at member
    exact mem_singleton.mp member
  have told t (kept : t ∉ gone) (eof : (d.get t).eof = true) : (e.get t).eof = true := by
    rcases freed.kept t kept with same | ⟨cut,_⟩
    · rw [same,eof]
    rw [cut]
    rfl
  constructor <;> simp only [log,next,freed.live,once]
  case balanced =>
    rintro t ⟨before,kept⟩
    rw [freed.getKept kept]
    exact flow.balanced t before
  case mates => exact fun s p peer => flow.mates s p (freed.peerKept peer).2
  case linked =>
    rintro t ⟨before,kept⟩
    rw [freed.getKept kept]
    exact flow.linked t before
  case whole =>
    rintro t ⟨before,kept⟩
    rw [freed.getKept kept]
    exact flow.whole t before
  case both =>
    rintro r s pair ⟨beforeR,keptR⟩ ⟨beforeS,keptS⟩
    rcases freed.kept s keptS with same | ⟨_,_,_,g,inside,other⟩
    · rw [same]
      exact flow.both r s pair beforeR beforeS
    exact absurd (points s r g ⟨pair.two,pair.one⟩ other ▸ inside) keptR
  case closed =>
    rintro r s pair ⟨beforeR,keptR⟩ dead
    by_cases beforeS : Live d s
    · have inside : s ∈ gone := by_contra (fun outside => dead ⟨beforeS,outside⟩)
      rw [freed.cut s r inside (flow.both r s pair beforeR beforeS) keptR beforeR]
      · rfl
      exact fun h there other => keptR (points s r h ⟨pair.two,pair.one⟩ other ▸ there)
    exact told r keptR (flow.closed r s pair beforeR beforeS)
  case shut =>
    rintro r s pair ⟨beforeR,keptR⟩ ⟨beforeS,keptS⟩
    rw [freed.getKept keptS]
    exact fun stream shut => told r keptR (flow.shut r s pair beforeR beforeS stream shut)
  exacts [flow.fresh,flow.consumed,flow.tagged]

structure Created (d e : Sockets) : Prop where
  next : d.next ≤ e.next
  placed : e.log.placed = d.log.placed
  taken : e.log.taken = d.log.taken
  sends : e.log.sends = d.log.sends
  kept : ∀ t, t < d.next → e.get t = d.get t ∧ (Live e t ↔ Live d t) ∧ e.log.mates t = d.log.mates t
  beyond : ∀ t, e.next ≤ t → e.log.mates t = []
  plain : ∀ t, d.next ≤ t → (e.get t).ring.len = 0 ∧ (e.get t).wrShut = false
  linked : ∀ t, d.next ≤ t → Live e t → ((e.get t).state = .connected ↔ e.log.mates t ≠ [])
  peer : ∀ t p, d.next ≤ t → (e.get t).peer = some p → p ∈ e.log.mates t ∧ t ∈ e.log.mates p
  mates : ∀ t u, d.next ≤ t → u ∈ e.log.mates t → d.next ≤ u ∧ Live e u ∧ (e.get t).peer = some u

theorem Flow.created (flow : Flow d) (created : Created d e) : Flow e := by
  have once r s (pair : Once e r s) : (r < d.next ∧ s < d.next ∧ Once d r s) ∨
      (d.next ≤ r ∧ d.next ≤ s ∧ Live e r ∧ Live e s ∧ (e.get s).peer = some r) := by
    have inS : r ∈ e.log.mates s := by rw [pair.two]; exact mem_singleton_self r
    have inR : s ∈ e.log.mates r := by rw [pair.one]; exact mem_singleton_self s
    by_cases newR : d.next ≤ r
    · obtain ⟨newS,liveS,_⟩ := created.mates r s newR inR
      obtain ⟨_,liveR,peer⟩ := created.mates s r newS inS
      exact .inr ⟨newR,newS,liveR,liveS,peer⟩
    by_cases newS : d.next ≤ s
    · exact absurd (created.mates s r newS inS).1 newR
    refine .inl ⟨by omega,by omega,?_,?_⟩
    · rw [← (created.kept r (by omega)).2.2]; exact pair.one
    · rw [← (created.kept s (by omega)).2.2]; exact pair.two
  have grown t u (inside : u ∈ d.log.mates t) : u ∈ e.log.mates t := by
    rw [(created.kept t (flow.old (ne_nil_of_mem inside))).2.2]
    exact inside
  constructor <;> try simp only [created.placed,created.taken,created.sends]
  case fresh =>
    intro t beyond
    obtain ⟨placed,taken,_⟩ := flow.fresh t (le_trans created.next beyond)
    exact ⟨placed,taken,created.beyond t beyond⟩
  case balanced =>
    intro t alive
    by_cases new : d.next ≤ t
    · obtain ⟨placed,taken,_⟩ := flow.fresh t new
      simp [Ring.contents,placed,taken,(created.plain t new).1]
    obtain ⟨same,live,_⟩ := created.kept t (not_le.mp new)
    rw [same]
    exact flow.balanced t (live.mp alive)
  case consumed => exact flow.consumed
  case mates =>
    intro s p peer
    by_cases new : d.next ≤ s
    · exact created.peer s p new peer
    rw [(created.kept s (not_le.mp new)).1] at peer
    exact (flow.mates s p peer).imp (grown s p) (grown p s)
  case tagged =>
    intro t x inside
    obtain ⟨s,number,there,back⟩ := flow.tagged t x inside
    exact ⟨s,number,grown t s there,grown s t back⟩
  case linked =>
    intro t alive
    by_cases new : d.next ≤ t
    · exact fun _ => created.linked t new alive
    obtain ⟨same,live,mates⟩ := created.kept t (not_le.mp new)
    rw [same,mates]
    exact flow.linked t (live.mp alive)
  case whole =>
    intro t alive
    by_cases new : d.next ≤ t
    · exact fun _ _ => (created.plain t new).2
    obtain ⟨same,live,mates⟩ := created.kept t (not_le.mp new)
    rw [same,mates]
    exact flow.whole t (live.mp alive)
  all_goals
    intro r s pair
    rcases once r s pair with ⟨oldR,oldS,before⟩ | ⟨_,newS,_,liveS,peer⟩
  case both.inl =>
    rw [(created.kept s oldS).1,(created.kept r oldR).2.1,(created.kept s oldS).2.1]
    exact flow.both r s before
  case closed.inl =>
    rw [(created.kept r oldR).1,(created.kept r oldR).2.1,(created.kept s oldS).2.1]
    exact flow.closed r s before
  case shut.inl =>
    rw [(created.kept r oldR).1,(created.kept s oldS).1,(created.kept r oldR).2.1,(created.kept s oldS).2.1]
    exact flow.shut r s before
  case both.inr => exact fun _ _ => peer
  case closed.inr => exact fun _ dead => absurd liveS dead
  case shut.inr =>
    intro _ _ _ shut
    cases (created.plain s newS).2.symm.trans shut

theorem newCreated (flow : Flow d) (owned : Owned d objects hand) (type) : Created d (d.sockNew type).2 := by
  have new t (beyond : d.next ≤ t) : d.log.mates t = [] := (flow.fresh t beyond).2.2
  have blanks t (beyond : d.next ≤ t) : d.get t = blank := getDead (fun live => not_lt.mpr beyond (owned.fresh t live))
  refine ⟨le_succ _,rfl,rfl,rfl,fun t old => ?_,fun t beyond => new t (le_of_succ_le beyond),fun t beyond => ?_,
    fun t beyond live => ?_,fun t p beyond peer => ?_,fun t u beyond inside => ?_⟩
  · have apart : t ≠ d.next := Nat.ne_of_lt old
    rw [(getNew d type t).1,if_neg apart,(getNew d type t).2]
    exact ⟨rfl,⟨fun either => either.resolve_left apart,.inr⟩,rfl⟩
  · rw [(getNew d type t).1]
    split
    · exact ⟨rfl,rfl⟩
    rw [blanks t beyond]
    exact ⟨rfl,rfl⟩
  · have same : t = d.next := by
      rcases (getNew d type t).2.mp live with same | before
      · exact same
      · exact absurd (owned.fresh t before) (not_lt.mpr beyond)
    rw [(getNew d type t).1,if_pos same]
    exact ⟨nofun,fun nonempty => absurd (new t beyond) nonempty⟩
  · rw [(getNew d type t).1] at peer
    split at peer
    · cases peer
    rw [blanks t beyond] at peer
    cases peer
  have none_ : (d.sockNew type).2.log.mates t = [] := new t beyond
  rw [none_] at inside
  cases inside

theorem livePair (d : Sockets) (type t) : Live (d.sockPair type).2.2 t ↔ t = d.next ∨ t = d.next+1 ∨ Live d t := by
  have shape : Live (d.sockPair type).2.2 t ↔ Live ((d.sockNew type).2.sockNew type).2 t := by
    change Live ((((d.sockNew type).2.sockNew type).2.modify d.next _).modify (d.next+1) _) t ↔ _
    rw [liveModify,liveModify]
  rw [shape,(getNew _ type t).2,(getNew d type t).2]
  have nexts : (d.sockNew type).2.next = d.next+1 := rfl
  tauto

theorem matesPair (flow : Flow d) (type t) : (d.sockPair type).2.2.log.mates t =
    if t = d.next then [d.next+1] else if t = d.next + 1 then [d.next] else d.log.mates t := by
  have one := (flow.fresh d.next (le_refl _)).2.2
  have two := (flow.fresh (d.next+1) (le_succ _)).2.2
  change update (update d.log.mates d.next (d.log.mates d.next ++ [d.next+1])) (d.next+1)
    (d.log.mates (d.next+1) ++ [d.next]) t = _
  rw [one,two]
  by_cases second : t = d.next+1
  · subst second
    rw [update_self,if_neg (by omega),if_pos rfl]
    rfl
  rw [update_of_ne second,if_neg second]
  by_cases first : t = d.next
  · subst first
    rfl
  · rw [update_of_ne first,if_neg first]

theorem pairCreated (flow : Flow d) (owned : Owned d objects hand) (type) : Created d (d.sockPair type).2.2 := by
  have blanks t (beyond : d.next ≤ t) : d.get t = blank := getDead (fun live => not_lt.mpr beyond (owned.fresh t live))
  refine ⟨le_add_right _ 2,rfl,rfl,rfl,fun t old => ?_,fun t beyond => ?_,fun t beyond => ?_,
    fun t beyond live => ?_,fun t p beyond peer => ?_,fun t u beyond inside => ?_⟩
  · rw [getPair,matesPair flow,livePair]
    simp only [show t ≠ d.next by omega,show t ≠ d.next + 1 by omega,if_false,false_or,and_self]
  · have far : d.next+2 ≤ t := beyond
    rw [matesPair flow,if_neg (by omega),if_neg (by omega)]
    exact (flow.fresh t (by omega)).2.2
  · rw [getPair]
    split
    · exact ⟨rfl,rfl⟩
    split
    · exact ⟨rfl,rfl⟩
    rw [blanks t beyond]
    exact ⟨rfl,rfl⟩
  · rw [getPair,matesPair flow]
    rcases (livePair d type t).mp live with rfl | rfl | before
    · simp
    · simp
    · exact absurd (owned.fresh t before) (not_lt.mpr beyond)
  · rw [getPair] at peer
    rw [matesPair flow,matesPair flow]
    split at peer
    · rename_i one
      cases peer
      subst one
      simp
    split at peer
    · rename_i two
      cases peer
      subst two
      simp
    rw [blanks t beyond] at peer
    cases peer
  rw [matesPair flow] at inside
  rw [livePair,getPair]
  split at inside
  · rename_i one
    cases mem_singleton.mp inside
    subst one
    simp
  split at inside
  · rename_i two
    cases mem_singleton.mp inside
    subst two
    simp
  rw [(flow.fresh t beyond).2.2] at inside
  cases inside

theorem Flow.ringed (flow : Flow d) {p f log}
    (frame : ∀ x, f x = {x with ring := (f x).ring}) (mates : log.mates = d.log.mates) (sends : log.sends = d.log.sends)
    (elsewhere : ∀ t, t ≠ p → log.placed t = d.log.placed t ∧ log.taken t = d.log.taken t)
    (here : Live d p → log.taken p ++ (f (d.get p)).ring.contents sockBuf = (log.placed p).map Prod.snd ∧
    (f (d.get p)).ring.len ≤ sockBuf)
    (consumed : log.taken p <+: (log.placed p).map Prod.snd)
    (tagged : ∀ x, x ∈ log.placed p → ∃ s, d.log.sends[x.1]? = some s ∧ s ∈ d.log.mates p ∧ p ∈ d.log.mates s)
    (fresh : d.next ≤ p → log.placed p = [] ∧ log.taken p = []) : Flow {d.modify p f with log := log} := by
  have same t : ({d.modify p f with log := log} : Sockets).get t = {d.get t with ring := ((d.modify p f).get t).ring} := by
    change (d.modify p f).get t = _
    rw [getModify]
    split
    · rename_i at_
      rw [at_.1,frame]
    · rfl
  have live t : Live {d.modify p f with log := log} t ↔ Live d t := liveModify d p f t
  have once := onceSame (d := d) (e := {d.modify p f with log := log}) mates
  constructor <;> simp only [same,live,mates,sends,once]
  case fresh =>
    intro t beyond
    by_cases at_ : t = p
    · subst at_
      exact ⟨(fresh beyond).1,(fresh beyond).2,(flow.fresh t beyond).2.2⟩
    rw [(elsewhere t at_).1,(elsewhere t at_).2]
    exact flow.fresh t beyond
  case balanced =>
    intro t alive
    by_cases at_ : t = p
    · subst at_
      rw [getModifySelf alive]
      exact here alive
    rw [getModifyOther at_,(elsewhere t at_).1,(elsewhere t at_).2]
    exact flow.balanced t alive
  case consumed =>
    intro t
    by_cases at_ : t = p
    · exact at_ ▸ consumed
    rw [(elsewhere t at_).1,(elsewhere t at_).2]
    exact flow.consumed t
  case tagged =>
    intro t x inside
    by_cases at_ : t = p
    · subst at_
      exact tagged x inside
    rw [(elsewhere t at_).1] at inside
    exact flow.tagged t x inside
  exacts [flow.mates,flow.linked,flow.whole,flow.both,flow.closed,flow.shut]

theorem Flow.take (flow : Flow d) (owned : Owned d objects hand) {k} (inside : k ≤ (d.get s).ring.len) :
    Flow ((d.modify s (fun x => {x with ring := x.ring.drop sockBuf k})).consumed s ((d.get s).ring.peek sockBuf k)) := by
  have taken : ∀ t, ((d.modify s (fun x => {x with ring := x.ring.drop sockBuf k})).consumed s
      ((d.get s).ring.peek sockBuf k)).log.taken t =
      if t = s then d.log.taken s ++ (d.get s).ring.peek sockBuf k else d.log.taken t :=
    fun t => update_apply d.log.taken s _ t
  have nothing : ¬ Live d s → (d.get s).ring.peek sockBuf k = [] := by
    intro dead
    rw [getDead dead] at inside ⊢
    have zero : k = 0 := le_zero.mp inside
    rw [zero]
    rfl
  have balanced : Live d s → d.log.taken s ++ (d.get s).ring.peek sockBuf k ++
      ((d.get s).ring.drop sockBuf k).contents sockBuf = (d.log.placed s).map Prod.snd := by
    intro alive
    rw [append_assoc,Ring.peekDrop inside]
    exact (flow.balanced s alive).1
  refine flow.ringed (fun _ => rfl) rfl rfl (fun t other => ⟨rfl,?_⟩) (fun alive => ⟨?_,?_⟩) ?_
    (fun x there => flow.tagged s x there) (fun beyond => ⟨(flow.fresh s beyond).1,?_⟩)
  · exact (taken t).trans (if_neg other)
  · refine Eq.trans ?_ (balanced alive)
    exact congrArg (· ++ _) ((taken s).trans (if_pos rfl))
  · exact le_trans (sub_le _ _) (flow.balanced s alive).2
  · refine Eq.subst (motive := fun xs => xs <+: (d.log.placed s).map Prod.snd) ((taken s).trans (if_pos rfl)).symm ?_
    by_cases alive : Live d s
    · exact ⟨_,balanced alive⟩
    rw [nothing alive,append_nil]
    exact flow.consumed s
  refine ((taken s).trans (if_pos rfl)).trans ?_
  rw [nothing (fun alive => not_lt.mpr beyond (owned.fresh s alive)),(flow.fresh s beyond).2.1]
  rfl

theorem placedAt (d : Sockets) (id p) (src : List UInt8) (t) : (d.place id p src).1.log.placed t = if t = p
    then d.log.placed p ++ (src.take (src.length - (d.place id p src).2.length)).map (fun b => (id,b)) else d.log.placed t :=
  update_apply d.log.placed p _ t

theorem Flow.place (flow : Flow d) {p id} (src) (number : d.log.sends[id]? = some s)
    (peer : (d.get s).peer = some p) : Flow (d.place id p src).1 := by
  obtain ⟨there,back⟩ := flow.mates s p peer
  have placed := placedAt d id p src p
  rw [if_pos rfl] at placed
  have bytes : ((d.place id p src).1.log.placed p).map Prod.snd = (d.log.placed p).map Prod.snd ++
      src.take (src.length - (d.place id p src).2.length) := by
    rw [placed,map_append,map_map]
    congr 1
    exact map_id _
  refine flow.ringed (fun _ => rfl) rfl rfl (fun t other => ⟨?_,rfl⟩) (fun alive => ?_) ?_ (fun x inside => ?_)
    (fun beyond => absurd (flow.old (ne_nil_of_mem back)) (not_lt.mpr beyond))
  · exact (placedAt d id p src t).trans (if_neg other)
  · obtain ⟨balanced,bounded⟩ := flow.balanced p alive
    obtain ⟨contents,_,len⟩ := Ring.fillSpec (d.get p).ring src bounded
    refine ⟨?_,?_⟩
    · refine Eq.trans ?_ bytes.symm
      refine Eq.trans (congrArg (d.log.taken p ++ ·) contents) ?_
      rw [← append_assoc,balanced]
      exact congrArg _ (Ring.fillTaken (d.get p).ring src bounded).symm
    refine le_trans (le_of_eq len) ?_
    rw [length_take]
    omega
  · refine (flow.consumed p).trans ?_
    exact ⟨_,bytes.symm⟩
  have split_ : x ∈ d.log.placed p ++ (src.take (src.length - (d.place id p src).2.length)).map (fun b => (id,b)) := by
    rw [← placed]
    exact inside
  rcases mem_append.mp split_ with old | new
  · exact flow.tagged p x old
  obtain ⟨b,_,rfl⟩ := mem_map.mp new
  exact ⟨s,number,back,there⟩

theorem Flow.shuts (flow : Flow d) (connected : (d.get s).state = .connected) (log : e.log = d.log)
    (next : e.next = d.next) (live : ∀ t, Live e t ↔ Live d t)
    (same : ∀ t, (e.get t).type = (d.get t).type ∧ (e.get t).state = (d.get t).state ∧ (e.get t).peer = (d.get t).peer ∧
    (e.get t).ring = (d.get t).ring ∧ ((d.get t).eof = true → (e.get t).eof = true))
    (others : ∀ t, t ≠ s → (e.get t).wrShut = (d.get t).wrShut)
    (told : ∀ p, (d.get s).peer = some p → Live d p → (e.get p).eof = true) : Flow e := by
  have once := onceSame (d := d) (e := e) (by rw [log])
  constructor <;> simp only [log,next,live,once,fun t => (same t).1,
    fun t => (same t).2.1,fun t => (same t).2.2.1,fun t => (same t).2.2.2.1]
  case whole =>
    intro t alive stream none_
    rw [others t,flow.whole t alive stream none_]
    rintro rfl
    exact (flow.linked t alive stream).mp connected none_
  case closed => exact fun r q pair liveR dead => (same r).2.2.2.2 (flow.closed r q pair liveR dead)
  case shut =>
    intro r q pair liveR liveQ stream shut
    by_cases at_ : q = s
    · subst at_
      exact told r (flow.both r q pair liveR liveQ) liveR
    rw [others q at_] at shut
    exact (same r).2.2.2.2 (flow.shut r q pair liveR liveQ stream shut)
  exacts [flow.fresh,flow.balanced,flow.consumed,flow.mates,flow.tagged,flow.linked,flow.both]

theorem Flow.shutWrite (flow : Flow d) (connected : (d.get s).state = .connected) : Flow (d.shutWrite s).1 := by
  have peerKept : ((d.modify s (fun x => {x with wrShut := true})).get s).peer = (d.get s).peer := modifyPeer rfl s
  have marked : ∀ t, (d.modify s (fun x => {x with wrShut := true})).get t =
      {d.get t with wrShut := ((d.modify s (fun x => {x with wrShut := true})).get t).wrShut} := by
    intro t
    rw [getModify]
    split
    · rename_i at_
      rw [at_.1]
    · rfl
  unfold Sockets.shutWrite
  dsimp only
  split
  · rename_i none_
    rw [peerKept] at none_
    refine flow.shuts connected rfl rfl (liveModify _ _ _) (fun t => ?_) (fun t other => by rw [getModifyOther other])
      (fun p peer => ?_)
    · rw [marked t]
      exact ⟨rfl,rfl,rfl,rfl,id⟩
    rw [none_] at peer
    cases peer
  rename_i p some_
  rw [peerKept] at some_
  have live : ∀ t, Live ((d.modify s (fun x => {x with wrShut := true})).modify p (fun y => {y with eof := true})) t ↔
    Live d t := fun t => by rw [liveModify,liveModify]
  refine flow.shuts connected rfl rfl live (fun t => ?_) (fun t other => ?_) (fun q peer alive => ?_)
  · rw [getModify,marked t]
    split
    · rename_i at_
      rw [at_.1,marked p]
      exact ⟨rfl,rfl,rfl,rfl,fun _ => rfl⟩
    · exact ⟨rfl,rfl,rfl,rfl,id⟩
  · have wr : (d.modify s (fun x => {x with wrShut := true})).get t = d.get t := getModifyOther other _
    rw [getModify]
    split
    · rename_i at_
      rw [at_.1,← at_.1,wr]
    · rw [wr]
  rw [some_] at peer
  cases peer
  rw [getModifySelf ((liveModify _ _ _ _).mpr alive)]

theorem getJoin (d : Sockets) (s l path t) :
    (d.join s l path).get t = {(d.linked s l path).get t with backlog := ((d.join s l path).get t).backlog} := by
  have shape : (d.join s l path).get t =
    ((d.linked s l path).modify l (fun z => {z with backlog := z.backlog ++ [d.next]})).get t := rfl
  rw [shape,getModify]
  split
  · rename_i here
    rw [here.1]
  · rfl

theorem matesJoin (flow : Flow d) (apart : s ≠ d.next) (l path t) : (d.join s l path).log.mates t =
    if t = d.next then [s] else if t = s then d.log.mates s ++ [d.next] else d.log.mates t := by
  change update (update d.log.mates s (d.log.mates s ++ [d.next])) d.next (d.log.mates d.next ++ [s]) t = _
  rw [(flow.fresh d.next (le_refl _)).2.2]
  by_cases server : t = d.next
  · subst server
    rw [update_self,if_pos rfl]
    rfl
  rw [update_of_ne server,if_neg server]
  by_cases client : t = s
  · subst client
    rw [update_self,if_pos rfl]
  · rw [update_of_ne client,if_neg client]

theorem Flow.joined (flow : Flow d) (owned : Owned d objects hand) (alive : Live d s) (l path) : Flow (d.join s l path) := by
  have apart : s ≠ d.next := Nat.ne_of_lt (owned.fresh s alive)
  have peers := joinPeer alive apart l path
  have mates := matesJoin flow apart l path
  have grown t u (member : u ∈ d.log.mates t) : u ∈ (d.join s l path).log.mates t := by
    rw [mates,if_neg (Nat.ne_of_lt (flow.old (List.ne_nil_of_mem member)))]
    split
    · rename_i client
      exact mem_append_left _ (client ▸ member)
    · exact member
  have live t : Live (d.join s l path) t ↔ t = d.next ∨ Live d t := by
    change Live ((d.linked s l path).modify l _) t ↔ _
    rw [liveModify,liveLinked]
  have server : ((d.join s l path).get d.next).state = .connected ∧ ((d.join s l path).get d.next).ring.len = 0 ∧
      ((d.join s l path).get d.next).wrShut = false := by
    rw [getJoin,getLinked alive apart,if_pos rfl]
    exact ⟨rfl,rfl,rfl⟩
  have client : ((d.join s l path).get s).type = (d.get s).type ∧ ((d.join s l path).get s).state = .connected ∧
      ((d.join s l path).get s).ring = (d.get s).ring ∧ ((d.join s l path).get s).wrShut = (d.get s).wrShut := by
    rw [getJoin,getLinked alive apart,if_neg apart,if_pos rfl]
    exact ⟨rfl,rfl,rfl,rfl⟩
  have other t (notServer : t ≠ d.next) (notClient : t ≠ s) :
      (d.join s l path).get t = {d.get t with backlog := ((d.join s l path).get t).backlog} := by
    conv_lhs => rw [getJoin,getLinked alive apart,if_neg notServer,if_neg notClient]
  have old t (now : Live (d.join s l path) t) (notServer : t ≠ d.next) : Live d t :=
    ((live t).mp now).resolve_left notServer
  have single (xs : List Nat) (a b) (whole : xs ++ [a] = [b]) : xs = [] ∧ a = b := by
    simpa [append_eq_singleton_iff] using whole
  -- the two new ends belong to each other, or to a pair that was not connected once
  have once r q (pair : Once (d.join s l path) r q) : (r = d.next ∧ q = s ∧ d.log.mates s = []) ∨
      (r = s ∧ q = d.next) ∨ (r ≠ d.next ∧ r ≠ s ∧ q ≠ d.next ∧ q ≠ s ∧ Once d r q) := by
    obtain ⟨one,two⟩ := pair
    rw [mates] at one two
    by_cases isServer : r = d.next
    · rw [if_pos isServer] at one
      cases one
      rw [if_neg apart,if_pos rfl] at two
      exact .inl ⟨isServer,rfl,(single _ _ _ two).1⟩
    rw [if_neg isServer] at one
    by_cases isClient : r = s
    · rw [if_pos isClient] at one
      exact .inr (.inl ⟨isClient,(single _ _ _ one).2.symm⟩)
    rw [if_neg isClient] at one
    by_cases serverQ : q = d.next
    · rw [if_pos serverQ] at two
      cases two
      exact absurd rfl isClient
    rw [if_neg serverQ] at two
    by_cases clientQ : q = s
    · rw [if_pos clientQ] at two
      exact absurd (single _ _ _ two).2.symm isServer
    rw [if_neg clientQ] at two
    exact .inr (.inr ⟨isServer,isClient,serverQ,clientQ,one,two⟩)
  constructor
  case fresh =>
    intro t beyond
    have past : d.next+1 ≤ t := beyond
    have below := owned.fresh s alive
    obtain ⟨placed,taken,none_⟩ := flow.fresh t (by omega)
    refine ⟨placed,taken,?_⟩
    rw [mates,if_neg (by omega),if_neg (by omega),none_]
  case balanced =>
    intro t now
    by_cases isServer : t = d.next
    · subst isServer
      obtain ⟨placed,taken,_⟩ := flow.fresh d.next (le_refl _)
      have placed_ : (d.join s l path).log.placed d.next = [] := placed
      have taken_ : (d.join s l path).log.taken d.next = [] := taken
      simp [Ring.contents,placed_,taken_,server.2.1]
    have ring : ((d.join s l path).get t).ring = (d.get t).ring := by
      by_cases isClient : t = s
      · rw [isClient,client.2.2.1]
      · rw [other t isServer isClient]
    rw [ring]
    exact flow.balanced t (old t now isServer)
  case consumed => exact flow.consumed
  case mates =>
    intro t p peer
    rw [peers] at peer
    split at peer
    · rename_i isServer
      cases peer
      simp [mates,isServer,apart]
    rename_i notServer
    split at peer
    · rename_i isClient
      cases peer
      simp [mates,isClient,apart]
    exact (flow.mates t p peer).imp (grown t p) (grown p t)
  case tagged =>
    intro t x inside
    obtain ⟨q,number,there,back⟩ := flow.tagged t x inside
    exact ⟨q,number,grown t q there,grown q t back⟩
  case linked =>
    intro t now
    by_cases isServer : t = d.next
    · simp [isServer,server.1,mates]
    by_cases isClient : t = s
    · simp [isClient,client.2.1,mates,apart]
    rw [other t isServer isClient,mates,if_neg isServer,if_neg isClient]
    exact flow.linked t (old t now isServer)
  case whole =>
    intro t now
    by_cases isServer : t = d.next
    · exact fun _ _ => isServer ▸ server.2.2
    by_cases isClient : t = s
    · simp [isClient,mates,apart]
    rw [other t isServer isClient,mates,if_neg isServer,if_neg isClient]
    exact flow.whole t (old t now isServer)
  case both =>
    intro r q pair liveR liveQ
    rw [peers]
    rcases once r q pair with ⟨rfl,rfl,_⟩ | ⟨rfl,rfl⟩ | ⟨serverR,_,serverQ,clientQ,before⟩
    · rw [if_neg apart,if_pos rfl]
    · rw [if_pos rfl]
    rw [if_neg serverQ,if_neg clientQ]
    exact flow.both r q before (old r liveR serverR) (old q liveQ serverQ)
  case closed =>
    intro r q pair liveR dead
    rcases once r q pair with ⟨_,rfl,_⟩ | ⟨_,rfl⟩ | ⟨serverR,clientR,_,_,before⟩
    · exact absurd ((live q).mpr (.inr alive)) dead
    · exact absurd ((live d.next).mpr (.inl rfl)) dead
    rw [other r serverR clientR]
    exact flow.closed r q before (old r liveR serverR) (fun now => dead ((live q).mpr (.inr now)))
  case shut =>
    intro r q pair liveR liveQ stream shut
    rcases once r q pair with ⟨_,rfl,none_⟩ | ⟨_,rfl⟩ | ⟨serverR,clientR,serverQ,clientQ,before⟩
    · rw [client.1] at stream
      rw [client.2.2.2,flow.whole q alive stream none_] at shut
      cases shut
    · rw [server.2.2] at shut
      cases shut
    rw [other q serverQ clientQ] at stream shut
    rw [other r serverR clientR]
    exact flow.shut r q before (old r liveR serverR) (old q liveQ serverQ) stream shut

theorem Act.flow (act : Act me d first e second wakes) (owned : Owned d d.files.objects first) (flow : Flow d) : Flow e := by
  cases act with
  | make _ type => exact flow.created (newCreated flow owned type)
  | pair _ type => exact flow.created (pairCreated flow owned type)
  | free _ s => exact flow.freed owned.freed.2
  | install _ s files gone room held dropped others table => exact flow.sameSock rfl rfl rfl rfl rfl prefix_rfl
  | close _ files gone change => exact flow.sameSock rfl rfl rfl rfl rfl prefix_rfl
  | pop _ s c rest queue => exact flow.modify ⟨rfl,fun _ => Iff.rfl,rfl,rfl,rfl,rfl⟩
  | bind _ s path opened unbound =>
    have named : Flow (d.modify s (fun x => {x with bound := some d.nextNode, name := path})) :=
      flow.modify ⟨rfl,fun _ => Iff.rfl,rfl,rfl,rfl,rfl⟩
    exact named.sameSock rfl rfl rfl rfl rfl prefix_rfl
  | aim _ s path state dgram calm =>
    refine flow.modify ⟨rfl,fun stream => ?_,rfl,rfl,rfl,rfl⟩
    rw [dgram] at stream
    cases stream
  | tune _ s f frame =>
    refine flow.modify ?_
    rw [frame]
    exact ⟨rfl,fun _ => Iff.rfl,rfl,rfl,rfl,rfl⟩
  | take _ s k inside => exact flow.take owned inside
  | place _ s p id src number peer writes => exact flow.place src number peer
  | shut _ s connected => exact flow.shutWrite connected
  | note _ view sends returned grown => exact flow.sameSock rfl rfl rfl rfl rfl grown

theorem Acts.flow (acts : Acts me d first e second wakes) (owned : Owned d d.files.objects first) (flow : Flow d) : Flow e := by
  induction acts with
  | nil => exact flow
  | cons act _ ih => exact ih (act.owned owned) (act.flow owned flow)

theorem Flow.listens {q o} (flow : Flow d) (listens : Listens d me q o) : Flow o.dev := by
  obtain ⟨_,backlog,_,x,_,_,_,_,loose,rfl⟩ := listens
  exact flow.modify ⟨rfl,fun _ => ⟨nofun,fun connected => absurd connected loose⟩,rfl,rfl,rfl,rfl⟩

end Miviex.Sockets
