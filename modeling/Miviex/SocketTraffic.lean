import Mathlib.Algebra.BigOperators.Group.Finset.Basic
import Miviex.SocketStreams

/-! What a pair of stream sockets delivers. Every send on one end is finished or in the middle of
a call; what the finished ones returned and how far the others are adds up to the bytes the other
end was given. -/
namespace Miviex.Sockets
open List Option Nat Runs Calls
open Function (comp_apply update update_idem update_of_ne update_self)

variable {d e : Sockets} {s t r : Nat} {me : Addr} {first second : List Nat} {wakes : List Addr}
  {calls later : Addr → Option SockCall} {pending : Bool}

def tally (d : Sockets) (id t : Nat) : Nat := ((d.log.placed t).map Prod.fst).count id

structure Hush (d e : Sockets) : Prop where
  placed : e.log.placed = d.log.placed
  sends : e.log.sends = d.log.sends
  returned : e.log.returned = d.log.returned

theorem Hush.same (log : e.log = d.log) : Hush d e := ⟨by rw [log],by rw [log],by rw [log]⟩

theorem Hush.trans {f} (one : Hush d e) (two : Hush e f) : Hush d f :=
  ⟨two.placed.trans one.placed,two.sends.trans one.sends,two.returned.trans one.returned⟩

structure Silent (d : Sockets) (o : SockOutcome) : Prop where
  hush : Hush d o.dev
  next : ∀ on w, o.next ≠ .asleep on (.send w)

theorem freeLog (d : Sockets) (s) : (d.sockFree s).1.log = d.log := by rw [freeSame]

theorem coupledMates (d : Sockets) (a b t) : d.log.mates t <+: (d.coupled a b).log.mates t := by
  change d.log.mates t <+: update (update d.log.mates a (d.log.mates a ++ [b])) b (d.log.mates b ++ [a]) t
  by_cases second : t = b
  · subst second
    rw [update_self]
    exact prefix_append _ _
  rw [update_of_ne second]
  by_cases first : t = a
  · subst first
    rw [update_self]
    exact prefix_append _ _
  · rw [update_of_ne first]

theorem Act.mates (act : Act me d first e second wakes) (t) : d.log.mates t <+: e.log.mates t := by
  cases act with
  | pair _ type => exact coupledMates (((d.sockNew type).2.sockNew type).2.modify _ _ |>.modify _ _) _ _ t
  | free _ s => rw [freeLog]
  | shut _ s connected =>
    have same : (d.shutWrite s).1.log = d.log := by
      unfold Sockets.shutWrite
      dsimp only
      split <;> rfl
    rw [same]
  | _ => exact prefix_rfl

theorem Acts.mates (acts : Acts me d first e second wakes) (t) : d.log.mates t <+: e.log.mates t := by
  induction acts with
  | nil => exact prefix_rfl
  | cons act _ ih => exact (act.mates t).trans ih

theorem singleBefore (grown : d.log.mates s <+: e.log.mates s) (had : d.log.mates s ≠ []) (now : e.log.mates s = [r]) :
    d.log.mates s = [r] := by
  obtain ⟨more,shape⟩ := grown
  rw [now] at shape
  rcases append_eq_singleton_iff.mp shape with ⟨none_,_⟩ | ⟨same,_⟩
  · exact absurd none_ had
  · exact same

theorem tagCount (id j : Nat) (xs : List UInt8) : (xs.map (Prod.fst ∘ fun b => (id,b))).count j = if j = id then xs.length else 0 := by
  have same : xs.map (Prod.fst ∘ fun b => (id,b)) = replicate xs.length id := map_const ..
  rw [same,count_replicate]
  simp [eq_comm (a := j)]

theorem tallyPlace (d : Sockets) (id p) (src : List UInt8) (j t) : tally (d.place id p src).1 j t =
    tally d j t + if t = p ∧ j = id then src.length - (d.place id p src).2.length else 0 := by
  unfold tally
  rw [placedAt]
  by_cases at_ : t = p
  swap
  · simp [at_]
  rw [if_pos at_,List.map_append,List.count_append,List.map_map,at_]
  rw [tagCount,length_take]
  by_cases same : j = id
  · simp [same]
  · simp [same]

/- What a round says of the bytes it has put in since `w`. -/
def Told (w : Sending) (bytes rest : List UInt8) : Except Stop Nat ⊕ Sending → Prop
  | .inr v => v.src = rest ∧ v.done = w.done+bytes.length
  | .inl (.ok n) => n = w.done+bytes.length
  | .inl (.error _) => w.done+bytes.length = 0

structure Sped (d : Sockets) (w : Sending) (round : SendRound) : Prop where
  flow : Flow round.dev
  mates : round.dev.log.mates = d.log.mates
  sends : round.dev.log.sends = d.log.sends
  returned : round.dev.log.returned = d.log.returned
  others : ∀ j t, j ≠ w.id → tally round.dev j t = tally d j t
  spoken : ∀ r, d.log.mates w.sock = [r] → ∃ bytes rest, w.src = bytes ++ rest ∧
    round.dev.log.placed r = d.log.placed r ++ bytes.map (fun b => (w.id,b)) ∧ Told w bytes rest round.result

theorem Sped.stops (flow : Flow d) (w : Sending) {raised result} (told : Told w [] w.src result) :
    Sped d w ⟨d,wakes,raised,result⟩ :=
  ⟨flow,rfl,rfl,rfl,fun _ _ _ => rfl,fun _ _ => ⟨[],w.src,rfl,(append_nil _).symm,told⟩⟩

theorem Sped.mine {w round} (sped : Sped d w round) (single : d.log.mates w.sock = [r])
    (counted : tally d w.id r = w.done) : tally round.dev w.id r = match round.result with
      | .inr v => v.done
      | .inl (.ok n) => n
      | .inl (.error _) => 0 := by
  obtain ⟨bytes,rest,_,placed,told⟩ := sped.spoken r single
  have all : tally round.dev w.id r = w.done+bytes.length := by
    unfold tally at counted ⊢
    rw [placed,map_append,count_append,counted,List.map_map,tagCount,if_pos rfl]
  rw [all]
  cases result : round.result with
  | inr v => rw [result] at told; exact told.2.symm
  | inl answer => cases answer <;> rw [result] at told <;> first | exact told.symm | exact told

theorem sendLoopSped (pending fuel) (d : Sockets) (wakes) (w : Sending)
    (flow : Flow d) (number : d.log.sends[w.id]? = some w.sock) : Sped d w (sendLoop pending fuel d wakes w) := by
  have partly (d : Sockets) (w : Sending) (wakes : List Addr) raised stop (flow : Flow d) :
      Sped d w ⟨d,wakes,raised,.inl (partialOr w.done stop)⟩ := by
    refine Sped.stops flow w ?_
    unfold partialOr
    split <;> simp_all [Told]
  induction fuel generalizing d wakes w with
  | zero => exact Sped.stops flow w rfl
  | succ fuel ih =>
  unfold sendLoop
  split
  · exact Sped.stops flow w rfl
  dsimp only
  split
  · exact partly d w wakes _ _ flow
  rename_i p open_
  obtain ⟨peer,_⟩ := filter_eq_some_iff.mp open_
  split
  · split
    · exact partly d w wakes _ _ flow
    split
    · exact partly d w wakes _ _ flow
    · exact Sped.stops flow w ⟨rfl,rfl⟩
  have placed := flow.place w.src number peer
  have sped := ih (d.place w.id p w.src).1 (wakes ++ [p])
    {w with src := (d.place w.id p w.src).2, done := w.done + (w.src.length - (d.place w.id p w.src).2.length)}
    placed number
  refine ⟨sped.flow,sped.mates,sped.sends,sped.returned,fun j t other => ?_,fun r single => ?_⟩
  · rw [sped.others j t other,tallyPlace,if_neg (fun both => other both.2),add_zero]
  have there := (flow.mates w.sock p peer).1
  rw [single] at there
  obtain rfl := mem_singleton.mp there
  obtain ⟨bytes,rest,whole,put,told⟩ := sped.spoken p single
  refine ⟨w.src.take (w.src.length - (d.place w.id p w.src).2.length) ++ bytes,rest,?_,?_,?_⟩
  · rw [append_assoc,← whole]
    exact (Ring.fillRest ..).symm
  · rw [put,placedAt,if_pos rfl,map_append,append_assoc]
  have length : w.done + (w.src.length - (d.place w.id p w.src).2.length) + bytes.length =
      w.done + (w.src.take (w.src.length - (d.place w.id p w.src).2.length) ++ bytes).length := by
    rw [length_append,length_take]
    omega
  unfold Told at told ⊢
  rwa [← length]

structure Accounts (d : Sockets) (calls : Addr → Option SockCall) : Prop where
  mated : ∀ (id s : Nat), d.log.sends[id]? = some s → d.log.mates s ≠ []
  inside : ∀ p w r, calls p = some (.send w) → d.log.mates w.sock = [r] → tally d w.id r = w.done
  returned : ∀ (id n s r : Nat), (id,n) ∈ d.log.returned → d.log.sends[id]? = some s → d.log.mates s = [r] → tally d id r = n
  apart : ∀ p q w v, calls p = some (.send w) → calls q = some (.send v) → w.id = v.id → p = q
  open_ : ∀ p w n, calls p = some (.send w) → (w.id,n) ∉ d.log.returned
  known : ∀ id n, (id,n) ∈ d.log.returned → id < d.log.sends.length
  complete : ∀ id, id < d.log.sends.length → (∃ n, (id,n) ∈ d.log.returned) ∨ ∃ p w, calls p = some (.send w) ∧ w.id = id

theorem sendThen {c p u} (now : update calls me c p = some (.send u)) :
    p = me ∧ c = some (.send u) ∨ p ≠ me ∧ calls p = some (.send u) := by
  by_cases mine : p = me
  · rw [mine,update_self] at now
    exact .inl ⟨mine,now⟩
  · rw [update_of_ne mine] at now
    exact .inr ⟨mine,now⟩

section

variable (accounts : Accounts d calls)
include accounts

theorem Accounts.hushed (numbered : ∀ p w, calls p = some (.send w) → d.log.sends[w.id]? = some w.sock)
    (hush : Hush d e) (mates : ∀ t, d.log.mates t <+: e.log.mates t)
    (same : ∀ p w, later p = some (.send w) ↔ calls p = some (.send w)) : Accounts e later := by
  have tallies : tally e = tally d := by
    funext id t
    unfold tally
    rw [hush.placed]
  have single (id s r : Nat) (number : d.log.sends[id]? = some s) (now : e.log.mates s = [r]) : d.log.mates s = [r] :=
    singleBefore (mates s) (accounts.mated id s number) now
  constructor <;> simp only [hush.sends,hush.returned,tallies,same]
  case mated =>
    intro id s number none_
    have grown := mates s
    rw [none_] at grown
    exact accounts.mated id s number (prefix_nil.mp grown)
  case inside =>
    exact fun p w r inside now => accounts.inside p w r inside (single w.id w.sock r (numbered p w inside) now)
  case returned =>
    exact fun id n s r member number now => accounts.returned id n s r member number (single id s r number now)
  case apart => exact accounts.apart
  case open_ => exact accounts.open_
  case known => exact accounts.known
  case complete => exact accounts.complete

theorem Accounts.slept {w v round} (inside : calls me = some (.send w))
    (sped : Sped d w round) (result : round.result = .inr v) (sock : v.sock = w.sock) (id : v.id = w.id) :
    Accounts round.dev (update calls me (some (.send v))) := by
  have was p u (now : update calls me (some (.send v)) p = some (.send u)) :
      (p = me ∧ u = v) ∨ (calls p = some (.send u) ∧ u.id ≠ w.id) := by
    rcases sendThen now with ⟨mine,same⟩ | ⟨other,before⟩
    · cases same
      exact .inl ⟨mine,rfl⟩
    · exact .inr ⟨before,fun same => other (accounts.apart p me u w before inside same)⟩
  constructor <;> try simp only [sped.mates,sped.sends,sped.returned]
  case mated => exact accounts.mated
  case inside =>
    intro p u r now single
    rcases was p u now with ⟨_,rfl⟩ | ⟨before,other⟩
    · rw [sock] at single
      have amount := sped.mine single (accounts.inside me w r inside single)
      rw [result] at amount
      rw [id]
      exact amount
    rw [sped.others u.id r other]
    exact accounts.inside p u r before single
  case returned =>
    intro j n s r member number single
    rw [sped.others j r,accounts.returned j n s r member number single]
    rintro rfl
    exact accounts.open_ me w n inside member
  case apart =>
    intro p q u x one two same
    rcases was p u one with ⟨first,rfl⟩ | ⟨before,other⟩ <;> rcases was q x two with ⟨second,rfl⟩ | ⟨also,away⟩
    · rw [first,second]
    · exact absurd (same.symm.trans id) away
    · exact absurd (same.trans id) other
    · exact accounts.apart p q u x before also same
  case open_ =>
    intro p u n now
    rcases was p u now with ⟨_,rfl⟩ | ⟨before,_⟩
    · rw [id]
      exact accounts.open_ me w n inside
    · exact accounts.open_ p u n before
  case known => exact accounts.known
  case complete =>
    intro j below
    rcases accounts.complete j below with finished | ⟨p,u,before,number⟩
    · exact .inl finished
    by_cases mine : p = me
    · subst mine
      cases inside.symm.trans before
      exact .inr ⟨p,v,update_self ..,id.trans number⟩
    · exact .inr ⟨p,u,(update_of_ne mine ..).trans before,number⟩

theorem Accounts.ended {w round n}
    (inside : calls me = some (.send w)) (number : d.log.sends[w.id]? = some w.sock) (sped : Sped d w round)
    (amount : ∀ r, d.log.mates w.sock = [r] → tally round.dev w.id r = n) :
    Accounts (round.dev.returns w.id n) (update calls me none) := by
  have was p u (now : update calls me none p = some (.send u)) : calls p = some (.send u) ∧ u.id ≠ w.id := by
    rcases sendThen now with ⟨_,none_⟩ | ⟨other,before⟩
    · cases none_
    · exact ⟨before,fun same => other (accounts.apart p me u w before inside same)⟩
  have members j k : (j,k) ∈ (round.dev.returns w.id n).log.returned ↔ (j,k) ∈ d.log.returned ∨ j = w.id ∧ k = n := by
    change (j,k) ∈ round.dev.log.returned ++ [(w.id,n)] ↔ _
    rw [sped.returned,mem_append,mem_singleton,Prod.mk.injEq]
  have sends : (round.dev.returns w.id n).log.sends = d.log.sends := sped.sends
  have mates : (round.dev.returns w.id n).log.mates = d.log.mates := sped.mates
  have tallies j t (other : j ≠ w.id) : tally (round.dev.returns w.id n) j t = tally d j t := sped.others j t other
  constructor <;> try simp only [sends,mates,members]
  case mated => exact accounts.mated
  case inside =>
    intro p u r now single
    obtain ⟨before,other⟩ := was p u now
    rw [tallies u.id r other]
    exact accounts.inside p u r before single
  case returned =>
    rintro j k s r (old | ⟨rfl,rfl⟩) known single
    · rw [tallies j r,accounts.returned j k s r old known single]
      rintro rfl
      exact accounts.open_ me w k inside old
    cases number.symm.trans known
    exact amount r single
  case apart => exact fun p q u x one two => accounts.apart p q u x (was p u one).1 (was q x two).1
  case open_ =>
    rintro p u k now (old | ⟨same,_⟩)
    · exact accounts.open_ p u k (was p u now).1 old
    · exact (was p u now).2 same
  case known =>
    rintro j k (old | ⟨rfl,_⟩)
    · exact accounts.known j k old
    · exact (List.getElem?_eq_some_iff.mp number).1
  case complete =>
    intro j below
    rcases accounts.complete j below with ⟨k,finished⟩ | ⟨p,u,before,same⟩
    · exact .inl ⟨k,.inl finished⟩
    by_cases mine : p = me
    · subst mine
      cases inside.symm.trans before
      exact .inl ⟨n,.inr ⟨same.symm,rfl⟩⟩
    · exact .inr ⟨p,u,(update_of_ne mine ..).trans before,same⟩

theorem Accounts.sent {w} (inside : calls me = some (.send w)) (flow : Flow d)
    (number : d.log.sends[w.id]? = some w.sock) (pending) :
    let o := sent w.id (sendLoop pending w.src.length d [] w)
    Accounts o.dev (update calls me o.next.call) := by
  have sped := sendLoopSped pending w.src.length d [] w flow number
  have mine r (single : d.log.mates w.sock = [r]) : _ := sped.mine single (accounts.inside me w r inside single)
  unfold Sockets.sent
  split
  · rename_i v result
    obtain ⟨sock,id,_⟩ := sendLoopStuck rfl result
    exact accounts.slept inside sped result sock id
  · rename_i n result
    rw [result] at mine
    exact accounts.ended inside number sped mine
  rename_i stop result
  rw [result] at mine
  exact accounts.ended inside number sped mine

theorem Accounts.begins (flow : Flow d) (outside : calls me = none)
    (numbered : ∀ p w, calls p = some (.send w) → d.log.sends[w.id]? = some w.sock)
    (mated : d.log.mates s ≠ []) (data nonblock nosig) : Accounts (d.begins s)
    (update calls me (some (.send ⟨s,d.log.sends.length,data,0,nonblock,nosig,0⟩))) := by
  have was p u (now : update calls me (some (.send ⟨s,d.log.sends.length,data,0,nonblock,nosig,0⟩)) p =
      some (.send u)) : (p = me ∧ u = ⟨s,d.log.sends.length,data,0,nonblock,nosig,0⟩) ∨
        (calls p = some (.send u) ∧ u.id < d.log.sends.length) := by
    rcases sendThen now with ⟨mine,same⟩ | ⟨_,before⟩
    · cases same
      exact .inl ⟨mine,rfl⟩
    · exact .inr ⟨before,(List.getElem?_eq_some_iff.mp (numbered p u before)).1⟩
  have sends : (d.begins s).log.sends = d.log.sends ++ [s] := rfl
  have older (j q : Nat) (number : (d.log.sends ++ [s])[j]? = some q) :
      d.log.sends[j]? = some q ∨ j = d.log.sends.length ∧ q = s := by
    rw [getElem?_append] at number
    split at number
    · exact .inl number
    rw [getElem?_singleton] at number
    split at number
    · cases number
      exact .inr ⟨by omega,rfl⟩
    · cases number
  have fresh t : tally d d.log.sends.length t = 0 := by
    refine count_eq_zero.mpr (fun member => ?_)
    obtain ⟨x,inside,same⟩ := mem_map.mp member
    obtain ⟨q,number,_⟩ := flow.tagged t x inside
    have below := (List.getElem?_eq_some_iff.mp number).1
    omega
  constructor <;> try simp only [sends]
  case mated =>
    intro j q number
    rcases older j q number with old | ⟨_,rfl⟩
    · exact accounts.mated j q old
    · exact mated
  case inside =>
    intro p u r now single
    rcases was p u now with ⟨_,rfl⟩ | ⟨before,_⟩
    · exact fresh r
    · exact accounts.inside p u r before single
  case returned =>
    intro j n q r member number single
    rcases older j q number with old | ⟨last,_⟩
    · exact accounts.returned j n q r member old single
    · exact absurd last (Nat.ne_of_lt (accounts.known j n member))
  case apart =>
    intro p q u x one two same
    rcases was p u one with ⟨first,rfl⟩ | ⟨before,below⟩ <;> rcases was q x two with ⟨second,rfl⟩ | ⟨also,under⟩
    · rw [first,second]
    · exact absurd same.symm (Nat.ne_of_lt under)
    · exact absurd same (Nat.ne_of_lt below)
    · exact accounts.apart p q u x before also same
  case open_ =>
    intro p u n now member
    rcases was p u now with ⟨_,rfl⟩ | ⟨before,_⟩
    · exact lt_irrefl _ (accounts.known _ n member)
    · exact accounts.open_ p u n before member
  case known =>
    intro j n member
    rw [length_append]
    exact Nat.lt_add_right _ (accounts.known j n member)
  case complete =>
    intro j below
    rw [length_append,length_singleton] at below
    by_cases last : j = d.log.sends.length
    · exact .inr ⟨me,_,update_self ..,last.symm⟩
    rcases accounts.complete j (by omega) with finished | ⟨p,u,before,same⟩
    · exact .inl finished
    refine .inr ⟨p,u,(update_of_ne ?_ ..).trans before,same⟩
    rintro rfl
    cases outside.symm.trans before

end

theorem Flow.begins (flow : Flow d) (s) : Flow (d.begins s) := flow.sameSock rfl rfl rfl rfl rfl (prefix_append _ _)

theorem Accounts.streamSend (accounts : Accounts d calls) (flow : Flow d) (outside : calls me = none)
    (numbered : ∀ p w, calls p = some (.send w) → d.log.sends[w.id]? = some w.sock) (stream : (d.get s).type = .stream)
    (pending data nonblock nosig) :
    let o := d.streamSend pending s data nonblock nosig
    Accounts o.dev (update calls me o.next.call) := by
  unfold Sockets.streamSend
  split
  · refine accounts.hushed numbered (.same rfl) (fun _ => prefix_rfl) (fun p w => ?_)
    by_cases mine : p = me
    · subst mine
      rw [outside,show (d.failed (.errno .enotconn)).next.call = none from rfl,update_self]
    · rw [update_of_ne mine]
  rename_i connected
  rw [not_not] at connected
  have alive : Live d s := by
    by_contra dead
    rw [getDead dead] at connected
    cases connected
  have mated := (flow.linked s alive stream).mp connected
  have begun := accounts.begins flow outside numbered mated data nonblock nosig
  have done := begun.sent (update_self _ _ _) (flow.begins s) (getElem?_concat_length ..) pending
  dsimp only at done
  rw [update_idem] at done
  exact done

def Ended (d : Sockets) (s : Nat) : Prop := ¬ Live d s ∨ (d.get s).wrShut = true

theorem Ended.kept (ended : Ended d s) (live : Live e s → Live d s)
    (shut : Live e s → (d.get s).wrShut = true → (e.get s).wrShut = true) : Ended e s := by
  by_cases alive : Live e s
  · exact .inr (shut alive (ended.resolve_left (fun dead => dead (live alive))))
  · exact .inl alive

theorem Ended.modify {f} (ended : Ended d s)
    (keeps : (d.get t).wrShut = true → (f (d.get t)).wrShut = true) : Ended (d.modify t f) s := by
  refine ended.kept (liveModify d t f s).mp (fun _ shut => ?_)
  rw [getModify]
  split
  · rename_i here
    rw [here.1] at shut
    exact keeps shut
  · exact shut

theorem Act.frozen (act : Act me d first e second wakes) (owned : Owned d d.files.objects first) (flow : Flow d)
    (pair : Once d r s) (ended : Ended d s) : e.log.placed r = d.log.placed r ∧ Ended e s := by
  have old := (pair.old flow).2
  cases act with
  | make _ type =>
    have kept := (newCreated flow owned type).kept s old
    exact ⟨rfl,ended.kept kept.2.1.mp (fun _ shut => by rw [kept.1]; exact shut)⟩
  | pair _ type =>
    have kept := (pairCreated flow owned type).kept s old
    exact ⟨rfl,ended.kept kept.2.1.mp (fun _ shut => by rw [kept.1]; exact shut)⟩
  | free _ t =>
    have freed := owned.freed.2
    refine ⟨by rw [freeLog],ended.kept (fun alive => ((freed.live s).mp alive).1) (fun alive shut => ?_)⟩
    rw [freed.getKept ((freed.live s).mp alive).2]
    exact shut
  | install | close => exact ⟨rfl,ended⟩
  | pop _ t c rest queue => exact ⟨rfl,ended.modify (fun shut => shut)⟩
  | bind _ t path opened unbound =>
    have named : Ended (d.modify t (fun x => {x with bound := some d.nextNode, name := path})) s :=
      ended.modify (fun shut => shut)
    exact ⟨rfl,named⟩
  | aim _ t path state dgram calm => exact ⟨rfl,ended.modify (fun shut => shut)⟩
  | tune _ t f frame => exact ⟨rfl,ended.modify (fun shut => by rw [frame]; exact shut)⟩
  | take _ t k inside =>
    have dropped : Ended (d.modify t (fun x => {x with ring := x.ring.drop sockBuf k})) s :=
      ended.modify (fun shut => shut)
    exact ⟨rfl,dropped⟩
  | place _ t p id src number peer writes =>
    have filled : Ended (d.modify p (fun y => {y with ring := ((d.get p).ring.fill sockBuf src).1})) s :=
      ended.modify (fun shut => shut)
    refine ⟨?_,filled⟩
    rw [placedAt,if_neg]
    -- the only one who points at the receiver is its sender
    rintro rfl
    have sender := (flow.mates t r peer).2
    rw [pair.one] at sender
    cases mem_singleton.mp sender
    rcases ended with dead | shut
    · exact dead (peerLive peer)
    rw [writes] at shut
    cases shut
  | shut _ t connected =>
    have marked : Ended (d.modify t (fun x => {x with wrShut := true})) s := ended.modify (fun _ => rfl)
    unfold Sockets.shutWrite
    dsimp only
    split
    · exact ⟨rfl,marked⟩
    · exact ⟨rfl,marked.modify (fun shut => shut)⟩
  | note _ view sends returned grown => exact ⟨rfl,ended⟩

theorem Once.between (before : Once d r s) (after : Once e r s) {f}
    (one : ∀ t, d.log.mates t <+: f.log.mates t) (two : ∀ t, f.log.mates t <+: e.log.mates t) : Once f r s := by
  have had : ∀ t u, d.log.mates t = [u] → f.log.mates t ≠ [] := by
    intro t u same none_
    have grown := one t
    rw [same,none_] at grown
    cases prefix_nil.mp grown
  exact ⟨singleBefore (two r) (had r s before.one) after.one,singleBefore (two s) (had s r before.two) after.two⟩

theorem Acts.frozen (acts : Acts me d first e second wakes) (owned : Owned d d.files.objects first) (flow : Flow d)
    (before : Once d r s) (after : Once e r s) (ended : Ended d s) : e.log.placed r = d.log.placed r ∧ Ended e s := by
  induction acts with
  | nil => exact ⟨rfl,ended⟩
  | cons act rest ih =>
    obtain ⟨same,still⟩ := act.frozen owned flow before ended
    obtain ⟨also,last⟩ := ih (act.owned owned) (act.flow owned flow) (before.between after act.mates rest.mates) after still
    exact ⟨also.trans same,last⟩

theorem Ended.joined (ended : Ended d s) {c} (alive : Live d c) (apart : c ≠ d.next) (old : s < d.next)
    (l path) : Ended (d.join c l path) s := by
  refine ended.kept (fun now => ?_) (fun _ shut => ?_)
  · change Live ((d.linked c l path).modify l _) s at now
    rw [liveModify,liveLinked] at now
    exact now.resolve_left (Nat.ne_of_lt old)
  rw [getJoin,getLinked alive apart,if_neg (Nat.ne_of_lt old)]
  split
  · rename_i same
    rw [← same]
    exact shut
  · exact shut

structure Carried (idle : Addr) (m : Machine) : Prop where
  sound : Sound idle m
  flow : Flow m.dev
  accounts : Accounts m.dev m.calls

section Steps
variable {idle : Addr} {m n : Machine}

inductive Effect (me : Addr) (d : Sockets) (o : SockOutcome) : Prop where
  | acts (acts : Acts me d [] o.dev [] o.wakes)
  | joins (c l : Nat) (path : Path) (alive : Live d c) (dev : o.dev = d.join c l path)
  | listens (q : SockRequest) (listens : Listens d me q o)

theorem Effect.flow {o} (effect : Effect me d o) (owned : Owned d d.files.objects []) (flow : Flow d) : Flow o.dev := by
  cases effect with
  | acts acts => exact acts.flow owned flow
  | joins c l path alive dev => rw [dev]; exact flow.joined owned alive l path
  | listens q listens => exact flow.listens listens

theorem Effect.mates {o} (effect : Effect me d o) (t) : d.log.mates t <+: o.dev.log.mates t := by
  cases effect with
  | acts acts => exact acts.mates t
  | joins c l path alive dev =>
    rw [dev]
    exact coupledMates ((d.linked c l path).modify l (fun z => {z with backlog := z.backlog ++ [d.next]})) c d.next t
  | listens q listens =>
    obtain ⟨_,_,_,_,_,_,_,_,_,rfl⟩ := listens
    exact prefix_rfl

theorem Effect.frozen {o} (effect : Effect me d o) (owned : Owned d d.files.objects []) (flow : Flow d)
    (before : Once d r s) (after : Once o.dev r s) (ended : Ended d s) :
    o.dev.log.placed r = d.log.placed r ∧ Ended o.dev s := by
  cases effect with
  | acts acts => exact acts.frozen owned flow before after ended
  | joins c l path alive dev =>
    rw [dev]
    exact ⟨rfl,ended.joined alive (Nat.ne_of_lt (owned.fresh c alive)) (before.old flow).2 l path⟩
  | listens q listens =>
    obtain ⟨_,_,_,_,_,_,_,_,_,rfl⟩ := listens
    exact ⟨rfl,ended.modify (fun shut => shut)⟩

theorem Carried.finished (carried : Carried idle m) {o} (effect : Effect me m.dev o) (silent : Silent m.dev o)
    (other : ∀ w, m.calls me ≠ some (.send w)) : Flow o.dev ∧ Accounts o.dev (update m.calls me o.next.call) := by
  refine ⟨effect.flow carried.sound.owned carried.flow,?_⟩
  refine carried.accounts.hushed carried.sound.numbered silent.hush effect.mates (fun p w => ?_)
  by_cases mine : p = me
  swap
  · rw [update_of_ne mine]
  subst mine
  rw [update_self]
  constructor
  · intro now
    cases ends : o.next with
    | done answer => rw [ends] at now; cases now
    | asleep on c =>
      rw [ends] at now
      cases now
      exact absurd ends (silent.next on w)
  · exact fun before => absurd before (other w)

section

variable (sound : Sound idle m)
include sound

theorem Sound.enterEffect (me pending q) : Effect me m.dev (m.dev.enter me pending q) := by
  rcases Sockets.enterEffect me sound.held pending q with acts | ⟨s,opened,_,_,joins⟩ | listens
  · exact .acts acts
  · obtain ⟨l,_,path,_,_,_,_,shape⟩ := joins
    exact .joins s l path (sound.owned.opened opened).1 (by rw [shape])
  · exact .listens q listens

theorem Sound.resumeEffect {call} (inside : m.calls me = some call) (pending) :
    Effect me m.dev (m.dev.resume me pending call) := by
  rcases Sockets.resumeEffect me sound.held pending call (sound.number inside) with ⟨acts,_⟩ | ⟨c,rfl,joins⟩
  · exact .acts acts
  obtain ⟨l,_,path,_,_,_,_,shape⟩ := joins
  exact .joins c.sock l path (sound.owned.opened (sound.seated me _ inside)).1 (by rw [shape])

end

end Steps

section

variable {q : Receiving} (stream : (d.get q.sock).type = .stream)
include stream

end

end Miviex.Sockets
