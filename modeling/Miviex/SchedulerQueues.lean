import Miviex.LinkedQueue
import Miviex.Scheduler

/-! The ready queues as lists. `hole` marks READY processes that are between two queue operations
and therefore in no queue. -/
namespace Miviex.Scheduler
open List Nat
open Function (update update_of_ne update_self)
open LinkedQueue

structure Represents (s : Scheduler) (hole : Addr → Prop) (lists : Nat → List Addr) : Prop where
  queues : ∀ q < numSchedQueues, Queue (fun p => (s.procs p).next) (fun p => (s.procs p).prev)
    (s.readyHead q) (s.readyTail q) (lists q)
  members : ∀ q < numSchedQueues, ∀ p, p ∈ lists q ↔ p ∈ s.allProcs ∧
    (s.procs p).state = .ready ∧ (s.procs p).priority = q ∧ ¬ hole p

def Queued (s : Scheduler) (hole : Addr → Prop) : Prop := ∃ lists, Represents s hole lists

structure Frame (s t : Scheduler) : Prop where
  state : ∀ p, (t.procs p).state = (s.procs p).state
  priority : ∀ p, (t.procs p).priority = (s.procs p).priority
  all : t.allProcs = s.allProcs
  current : t.current = s.current

/- Only the links of the records and the ends of the queues differ. -/
structure Relinks (s t : Scheduler) : Prop where
  procs : ∀ p, ∃ next prev, t.procs p = {s.procs p with next := next, prev := prev}
  all : t.allProcs = s.allProcs
  current : t.current = s.current
  nextPid : t.nextPid = s.nextPid

variable {s : Scheduler} {hole : Addr → Prop} {lists : Nat → List Addr} {p : Addr} {q : Nat}

theorem Relinks.frame {t} (relinks : Relinks s t) : Frame s t := by
  refine ⟨fun p => ?_,fun p => ?_,relinks.all,relinks.current⟩ <;> obtain ⟨_,_,same⟩ := relinks.procs p <;> rw [same]

theorem Relinks.trans {t u} (first : Relinks s t) (second : Relinks t u) : Relinks s u := by
  refine ⟨fun p => ?_,second.all.trans first.all,second.current.trans first.current,second.nextPid.trans first.nextPid⟩
  obtain ⟨_,_,before⟩ := first.procs p
  obtain ⟨_,_,after⟩ := second.procs p
  exact ⟨_,_,by rw [after,before]⟩

theorem Relinks.modify {f : Process → Process} (links : ∀ x, ∃ next prev, f x = {x with next := next, prev := prev}) (p) :
    Relinks s (s.modify p f) := by
  refine ⟨fun x => ?_,rfl,rfl,rfl⟩
  by_cases same : x = p
  · subst same
    simpa [Scheduler.modify] using links (s.procs x)
  · exact ⟨(s.procs x).next,(s.procs x).prev,by simp [Scheduler.modify,same]⟩

theorem representsModify {hole' f} (rep : Represents s hole lists)
    (next : (f (s.procs p)).next = (s.procs p).next) (prev : (f (s.procs p)).prev = (s.procs p).prev)
    (priority : (f (s.procs p)).priority = (s.procs p).priority)
    (ready : (f (s.procs p)).state = .ready ∧ ¬ hole' p ↔ (s.procs p).state = .ready ∧ ¬ hole p)
    (others : ∀ x, x ≠ p → (hole' x ↔ hole x)) : Represents (s.modify p f) hole' lists := by
  constructor
  · intro q bound
    refine queueCongr ?_ ?_ (rep.queues q bound)
    · intro x _
      by_cases same : x = p
      · subst x; simpa [modify] using next
      · simp [modify,same]
    intro x _
    by_cases same : x = p
    · subst x; simpa [modify] using prev
    · simp [modify,same]
  intro q bound x
  rw [rep.members q bound x]
  by_cases same : x = p
  · subst x
    simp only [modify,update_self,priority]
    tauto
  · simp [modify,same,others x same]

section

variable (s : Scheduler)

theorem pushProcs (p) : (s.queuePushBack p).procs = match s.readyTail (s.procs p).priority with
    | some t => (((s.modify p (fun x => {x with next := none, prev := some t})).modify t
        (fun x => {x with next := some p}))).procs
    | none => (s.modify p (fun x => {x with next := none, prev := none})).procs := by
  simp only [queuePushBack]
  cases s.readyTail (s.procs p).priority <;> rfl

theorem pushRelinks (p) : Relinks s (s.queuePushBack p) := by
  unfold queuePushBack
  dsimp only
  have marked : Relinks s (s.modify p (fun x => {x with next := none, prev := s.readyTail (s.procs p).priority})) :=
    .modify (fun _ => ⟨_,_,rfl⟩) p
  split
  · rename_i t _
    have linked := marked.trans (.modify (f := fun x => {x with next := some p}) (fun _ => ⟨_,_,rfl⟩) t)
    exact ⟨linked.procs,rfl,rfl,rfl⟩
  · exact ⟨marked.procs,rfl,rfl,rfl⟩

theorem pushFrame (p) : Frame s (s.queuePushBack p) := (pushRelinks s p).frame

theorem pushTail (p) : (s.queuePushBack p).readyTail = update s.readyTail (s.procs p).priority (some p) := by
  simp only [queuePushBack]
  cases s.readyTail (s.procs p).priority <;> rfl

theorem pushHead (p) : (s.queuePushBack p).readyHead = match s.readyTail (s.procs p).priority with
    | some _ => s.readyHead
    | none => update s.readyHead (s.procs p).priority (some p) := by
  simp only [queuePushBack]
  cases s.readyTail (s.procs p).priority <;> rfl

theorem pushNext (p) : (fun x => ((s.queuePushBack p).procs x).next) =
    match s.readyTail (s.procs p).priority with
    | some t => update (update (fun x => (s.procs x).next) p none) t (some p)
    | none => update (fun x => (s.procs x).next) p none := by
  funext x
  rw [pushProcs]
  cases s.readyTail (s.procs p).priority with
  | none => by_cases h : x = p <;> simp [modify,h]
  | some t => by_cases h : x = p <;> by_cases k : x = t <;> simp_all [modify]

theorem pushPrev (p) : (fun x => ((s.queuePushBack p).procs x).prev) =
    update (fun x => (s.procs x).prev) p (s.readyTail (s.procs p).priority) := by
  funext x
  rw [pushProcs]
  cases s.readyTail (s.procs p).priority with
  | none => by_cases h : x = p <;> simp [modify,h]
  | some t => by_cases h : x = p <;> by_cases k : x = t <;> by_cases j : p = t <;> simp_all [modify]

end

theorem queueLastMember {t}
    (rep : Represents s hole lists) (bound : q < numSchedQueues) (tail : s.readyTail q = some t) : t ∈ lists q := by
  have last := (rep.queues q bound).last
  rw [tail] at last
  exact mem_of_getLast? last.symm

theorem representsPush (rep : Represents s hole lists) (absent : hole p) (live : p ∈ s.allProcs)
    (ready : (s.procs p).state = .ready) (bound : (s.procs p).priority < numSchedQueues) :
    Represents (s.queuePushBack p) (fun x => hole x ∧ x ≠ p)
    (update lists (s.procs p).priority (lists (s.procs p).priority ++ [p])) := by
  have outside : ∀ q < numSchedQueues, p ∉ lists q := fun q h inside => ((rep.members q h p).mp inside).2.2.2 absent
  have frame := pushFrame s p
  constructor
  · intro q h
    rw [pushNext,pushPrev,pushHead,pushTail]
    by_cases same : q = (s.procs p).priority
    · subst q
      have pushed := queuePush (outside _ h) (rep.queues _ h)
      cases tail : s.readyTail (s.procs p).priority with
      | none | some => simpa [tail] using pushed
    have old := rep.queues q h
    cases tail : s.readyTail (s.procs p).priority with
    | none =>
      simp only [update_of_ne same]
      refine queueCongr ?_ ?_ old
      · intro x inside
        have xp : x ≠ p := fun e => outside q h (e ▸ inside)
        simp [xp]
      intro x inside
      have xp : x ≠ p := fun e => outside q h (e ▸ inside)
      simp [xp]
    | some t =>
    have tq : (s.procs t).priority = (s.procs p).priority :=
      ((rep.members _ bound t).mp (queueLastMember rep bound tail)).2.2.1
    simp only [update_of_ne same]
    refine queueCongr ?_ ?_ old
    · intro x inside
      have xp : x ≠ p := fun e => outside q h (e ▸ inside)
      have xt : x ≠ t := fun e => same (((rep.members q h x).mp inside).2.2.1.symm.trans (e ▸ tq))
      simp [xp,xt]
    intro x inside
    have xp : x ≠ p := fun e => outside q h (e ▸ inside)
    simp [xp]
  intro q h x
  rw [frame.all,frame.state,frame.priority]
  by_cases same : q = (s.procs p).priority
  · subst q
    simp only [update_self,mem_append,mem_singleton,rep.members _ h x]
    by_cases xp : x = p
    · subst x; simp [live,ready]
    · simp [xp]
  simp only [update_of_ne same,rep.members q h x]
  by_cases xp : x = p
  · subst x; simp [absent,Ne.symm same]
  · simp [xp]

theorem popSome (head : s.readyHead q = some p) : (s.queuePopFront q).1 = some p := by
  simp [queuePopFront,head]

theorem popRelinks (s : Scheduler) (q) : Relinks s (s.queuePopFront q).2 := by
  unfold queuePopFront
  split
  · exact ⟨fun _ => ⟨_,_,rfl⟩,rfl,rfl,rfl⟩
  rename_i p _
  have cut : Relinks s {s with readyHead := update s.readyHead q (s.procs p).next} := ⟨fun _ => ⟨_,_,rfl⟩,rfl,rfl,rfl⟩
  refine Relinks.trans ?_ (.modify (fun _ => ⟨_,_,rfl⟩) p)
  split
  · exact cut.trans (.modify (fun _ => ⟨_,_,rfl⟩) _)
  · exact ⟨fun _ => ⟨_,_,rfl⟩,rfl,rfl,rfl⟩

theorem pickRelinks (s : Scheduler) : Relinks s s.pickNext.2 := by
  unfold pickNext
  split
  · exact popRelinks s _
  · exact ⟨fun _ => ⟨_,_,rfl⟩,rfl,rfl,rfl⟩

theorem popFrame (s : Scheduler) (q) : Frame s (s.queuePopFront q).2 := (popRelinks s q).frame

section

variable (head : s.readyHead q = some p)
include head

theorem popNext : (fun x => ((s.queuePopFront q).2.procs x).next) =
    update (fun x => (s.procs x).next) p none := by
  funext x
  simp only [queuePopFront,head]
  cases (s.procs p).next with
  | none => by_cases h : x = p <;> simp [modify,h]
  | some t => by_cases h : x = p <;> by_cases k : x = t <;> simp_all [modify]

theorem popPrev : (fun x => ((s.queuePopFront q).2.procs x).prev) =
      update (match (s.procs p).next with
        | some y => update (fun x => (s.procs x).prev) y none
        | none => fun x => (s.procs x).prev) p none := by
  funext x
  simp only [queuePopFront,head]
  cases (s.procs p).next with
  | none => by_cases h : x = p <;> simp [modify,h]
  | some t => by_cases h : x = p <;> by_cases k : x = t <;> simp_all [modify]

theorem popHeadTail : (s.queuePopFront q).2.readyHead = update s.readyHead q (s.procs p).next ∧
    (s.queuePopFront q).2.readyTail = (match (s.procs p).next with
      | some _ => s.readyTail
      | none => update s.readyTail q none) := by
  simp only [queuePopFront,head]
  cases (s.procs p).next <;> exact ⟨rfl,rfl⟩

end

section

variable (rep : Represents s hole lists)
include rep

theorem representsPop (bound : q < numSchedQueues) (head : s.readyHead q = some p) :
    ∃ rest, lists q = p::rest ∧ Represents (s.queuePopFront q).2 (fun x => hole x ∨ x = p) (update lists q rest) := by
  have queue := rep.queues q bound
  rw [head] at queue
  obtain ⟨rest,shape⟩ := queueHeadSome queue
  rw [shape] at queue
  obtain ⟨forth,popped⟩ := queuePop queue
  have frame := popFrame s q
  have inQ x : x ∈ lists q ↔ x = p ∨ x ∈ rest := by rw [shape]; exact mem_cons
  have fresh : p ∉ rest := (nodup_cons.mp queue.distinct).1
  refine ⟨rest,shape,?_,?_⟩
  · intro k h
    rw [popNext head,popPrev head,(popHeadTail head).1,(popHeadTail head).2,forth]
    by_cases same : k = q
    · subst k
      cases first : rest.head? with
      | none | some => simpa [first] using popped
    have old := rep.queues k h
    have apart : ∀ x ∈ lists k, x ∉ lists q := fun x inside other =>
      same (((rep.members k h x).mp inside).2.2.1.symm.trans ((rep.members q bound x).mp other).2.2.1)
    have xp : ∀ x ∈ lists k, x ≠ p := fun x inside e => apart x inside (by rw [e,shape]; simp)
    cases first : rest.head? with
    | none =>
      simp only [update_of_ne same]
      refine queueCongr ?_ ?_ old
      · intro x inside; simp [xp x inside]
      · intro x inside; simp [xp x inside]
    | some y =>
    have yq : y ∈ lists q := (inQ y).mpr (.inr (mem_of_head? first))
    simp only [update_of_ne same]
    refine queueCongr ?_ ?_ old
    · intro x inside; simp [xp x inside]
    intro x inside
    have xy : x ≠ y := fun e => apart x inside (e ▸ yq)
    simp [xp x inside,xy]
  intro k h x
  rw [frame.all,frame.state,frame.priority]
  have old := rep.members k h x
  by_cases same : k = q
  · subst k
    rw [update_self]
    rw [inQ x] at old
    by_cases xp : x = p
    · subst x; simp [fresh]
    · simp only [xp,false_or,or_false] at old ⊢; exact old
  rw [update_of_ne same,old]
  by_cases xp : x = p
  · subst x
    have pq : (s.procs p).priority = q := ((rep.members q bound p).mp (by rw [shape]; simp)).2.2.1
    simp [pq,Ne.symm same]
  · simp [xp]

theorem pickNextNone {t} (picked : s.pickNext = (none,t)) :
    t = s ∧ ∀ q < numSchedQueues, lists q = [] := by
  unfold pickNext at picked
  cases found : (List.range numSchedQueues).find? (fun q => (s.readyHead q).isSome) with
  | none =>
    simp only [found,Prod.mk.injEq,true_and] at picked
    refine ⟨picked.symm,fun q bound => ?_⟩
    have empty : s.readyHead q = none := by simpa using List.find?_eq_none.mp found q (mem_range.mpr bound)
    have queue := rep.queues q bound
    rw [empty] at queue
    exact queueHeadNone queue
  | some q =>
    simp only [found] at picked
    obtain ⟨p,head⟩ := Option.isSome_iff_exists.mp (by simpa using List.find?_some found : (s.readyHead q).isSome)
    have got := popSome head
    rw [picked] at got
    cases got

theorem pickNextSome {t} (picked : s.pickNext = (some p,t)) :
    ∃ q < numSchedQueues, ∃ rest, lists q = p::rest ∧ (∀ k < q, lists k = []) ∧ Frame s t ∧
    Represents t (fun x => hole x ∨ x = p) (update lists q rest) := by
  unfold pickNext at picked
  cases found : (List.range numSchedQueues).find? (fun q => (s.readyHead q).isSome) with
  | none => simp [found] at picked
  | some q =>
  simp only [found] at picked
  have bound : q < numSchedQueues := mem_range.mp (mem_of_find?_eq_some found)
  obtain ⟨x,head⟩ := Option.isSome_iff_exists.mp (by simpa using List.find?_some found : (s.readyHead q).isSome)
  have got := popSome head
  rw [picked] at got
  cases got
  obtain ⟨rest,shape,popped⟩ := representsPop rep bound head
  have result : (s.queuePopFront q).2 = t := by rw [picked]
  have frame := popFrame s q
  rw [result] at popped frame
  refine ⟨q,bound,rest,shape,?_,frame,popped⟩
  intro k less
  have empty : s.readyHead k = none := by
    obtain ⟨_,before,after,split,none⟩ := List.find?_eq_some_iff_append.mp found
    have at' : k ∈ before := by
      have sorted : (before ++ q::after).Pairwise (· < ·) := by rw [← split]; exact pairwise_lt_range
      have inside : k ∈ before ++ q::after := by rw [← split]; exact mem_range.mpr (Nat.lt_trans less bound)
      rcases mem_append.mp inside with h | h
      · exact h
      rcases mem_cons.mp h with rfl | later
      · exact absurd less (Nat.lt_irrefl _)
      have order := (pairwise_append.mp sorted).2.1
      have := (pairwise_cons.mp order).1 k later
      omega
    simpa using none k at'
  have queue := rep.queues k (Nat.lt_trans less bound)
  rw [empty] at queue
  exact queueHeadNone queue

end

end Miviex.Scheduler
