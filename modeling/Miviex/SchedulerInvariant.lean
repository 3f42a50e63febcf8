import Miviex.SchedulerQueues

/-! What holds between scheduler operations (`Consistent`) and, more weakly, at the
moment an operation calls `schedulerYield` (`Settled`), where the current process may
already be BLOCKED or TERMINATED. -/
namespace Miviex.Scheduler

structure Settled (idle : Addr) (s : Scheduler) : Prop where
  queued : Queued s (fun _ => False)
  bounded : ∀ p ∈ s.allProcs, (s.procs p).priority < numSchedQueues
  distinct : s.allProcs.Nodup
  currentLive : ∀ c, s.current = some c → c ∈ s.allProcs
  running : ∀ p ∈ s.allProcs, (s.procs p).state = .running → s.current = some p
  idleLive : idle ∈ s.allProcs
  idleAwake : (s.procs idle).state = .ready ∨ (s.procs idle).state = .running
  idleLast : (s.procs idle).priority = prioIdle

structure Consistent (idle : Addr) (s : Scheduler) : Prop extends Settled idle s where
  currentRuns : ∀ c, s.current = some c → (s.procs c).state = .running

structure Calm (s t : Scheduler) : Prop where
  all : t.allProcs = s.allProcs
  current : t.current = s.current
  awake : ∀ p, (s.procs p).state ≠ .blocked → (t.procs p).state = (s.procs p).state

theorem calmRefl (s) : Calm s s := ⟨rfl,rfl,fun _ _ => rfl⟩

variable {s : Scheduler} {idle p : Addr}

theorem calmTrans {t u} (first : Calm s t) (second : Calm t u) : Calm s u := by
  refine ⟨second.all.trans first.all,second.current.trans first.current,fun p awake => ?_⟩
  have same := first.awake p awake
  exact (second.awake p (by rw [same]; exact awake)).trans same

def Harmless (idle : Addr) (s t : Scheduler) : Prop := Settled idle s → Settled idle t ∧ Calm s t

theorem harmlessRefl (idle s) : Harmless idle s s := fun h => ⟨h,calmRefl s⟩

theorem harmlessTrans {t u} (first : Harmless idle s t) (second : Calm s t → Harmless idle t u) : Harmless idle s u := by
  intro settled
  obtain ⟨mid,calm⟩ := first settled
  obtain ⟨last,calm'⟩ := second calm mid
  exact ⟨last,calmTrans calm calm'⟩

theorem harmlessFold {α : Type} {f} (ok : Scheduler → α → Prop) (stable : ∀ s t x, Calm s t → ok s x → ok t x)
    (each : ∀ s x, ok s x → Harmless idle s (f s x)) (xs : List α) (s)
    (all : ∀ x ∈ xs, ok s x) : Harmless idle s (xs.foldl f s) := by
  induction xs generalizing s with
  | nil => exact harmlessRefl idle s
  | cons x rest ih =>
    refine harmlessTrans (each s x (all x List.mem_cons_self)) (fun calm => ?_)
    exact ih (f s x) (fun y inside => stable s _ y calm (all y (List.mem_cons_of_mem x inside)))

theorem harmlessConsistent {t} (harmless : Harmless idle s t) (consistent : Consistent idle s) : Consistent idle t := by
  obtain ⟨settled,calm⟩ := harmless consistent.toSettled
  refine ⟨settled,fun c atCurrent => ?_⟩
  rw [calm.current] at atCurrent
  have runs := consistent.currentRuns c atCurrent
  rw [calm.awake c (by rw [runs]; decide),runs]

theorem harmlessModify {f} (next : (f (s.procs p)).next = (s.procs p).next) (prev : (f (s.procs p)).prev = (s.procs p).prev)
    (priority : (f (s.procs p)).priority = (s.procs p).priority)
    (state : (f (s.procs p)).state = (s.procs p).state) : Harmless idle s (s.modify p f) := by
  intro settled
  have states x : ((s.modify p f).procs x).state = (s.procs x).state := by
    by_cases same : x = p
    · subst x; simpa [modify] using state
    · simp [modify,same]
  have priorities x : ((s.modify p f).procs x).priority = (s.procs x).priority := by
    by_cases same : x = p
    · subst x; simpa [modify] using priority
    · simp [modify,same]
  obtain ⟨lists,rep⟩ := settled.queued
  refine ⟨⟨⟨lists,representsModify rep next prev priority (by rw [state]) (fun _ _ => Iff.rfl)⟩,
    fun x live => ?_,settled.distinct,settled.currentLive,fun x live runs => ?_,settled.idleLive,
    ?_,?_⟩,rfl,rfl,fun x _ => states x⟩
  · rw [priorities]; exact settled.bounded x live
  · rw [states] at runs; exact settled.running x live runs
  · rw [states]; exact settled.idleAwake
  · rw [priorities]; exact settled.idleLast

theorem unblockHarmless (live : p ∈ s.allProcs) (blocked : (s.procs p).state = .blocked) : Harmless idle s (s.unblock p) := by
  intro settled
  obtain ⟨lists,rep⟩ := settled.queued
  let marked := s.modify p (fun x => {x with waitChan := none, state := .ready})
  have markedRep : Represents marked (fun x => x = p) lists :=
    representsModify rep rfl rfl rfl (by simp [blocked]) (fun x h => by simp [h])
  have bound := settled.bounded p live
  have atP : marked.procs p = {s.procs p with waitChan := none, state := .ready} := by simp [marked,modify]
  have pushed := representsPush markedRep rfl live (by simp [atP]) (by simpa [atP] using bound)
  have frame : Frame marked (s.unblock p) := pushFrame marked p
  have states x : ((s.unblock p).procs x).state = if x = p then .ready else (s.procs x).state := by
    rw [frame.state]
    by_cases same : x = p
    · subst x; simp [atP]
    · simp [marked,modify,same]
  have priorities x : ((s.unblock p).procs x).priority = (s.procs x).priority := by
    rw [frame.priority]
    by_cases same : x = p
    · subst x; simp [atP]
    · simp [marked,modify,same]
  have all : (s.unblock p).allProcs = s.allProcs := frame.all
  have current : (s.unblock p).current = s.current := frame.current
  refine ⟨⟨⟨Function.update lists (marked.procs p).priority (lists (marked.procs p).priority ++ [p]),?_⟩,
    ?_,?_,?_,?_,?_,?_,?_⟩,all,current,?_⟩
  · have empty : (fun x : Addr => x = p ∧ x ≠ p) = (fun _ => False) := by funext x; simp
    rw [empty] at pushed
    exact pushed
  · intro x inside; rw [all] at inside; rw [priorities]; exact settled.bounded x inside
  · rw [all]; exact settled.distinct
  · intro c atCurrent; rw [current] at atCurrent; rw [all]; exact settled.currentLive c atCurrent
  · intro x inside runs
    rw [all] at inside
    rw [states] at runs
    split at runs
    · contradiction
    · rw [current]; exact settled.running x inside runs
  · rw [all]; exact settled.idleLive
  · rw [states]
    split
    · exact .inl rfl
    · exact settled.idleAwake
  · rw [priorities]; exact settled.idleLast
  intro x awake
  rw [states]
  split
  · rename_i same; subst x; exact absurd blocked awake
  · rfl

theorem processWakeHarmless (live : p ∈ s.allProcs) : Harmless idle s (s.processWake p) := by
  unfold processWake
  split
  · exact unblockHarmless live (by assumption)
  · exact harmlessRefl idle s

theorem wakeupHarmless (idle) (s : Scheduler) (chan) : Harmless idle s (s.wakeup chan) := by
  refine harmlessFold (fun t p => p ∈ t.allProcs) (fun _ _ _ calm inside => calm.all ▸ inside)
    (fun t p live => ?_) s.allProcs s (fun _ inside => inside)
  unfold wakeupOne
  split
  · rename_i asleep; exact unblockHarmless live asleep.1
  · exact harmlessRefl idle t

theorem signalSendHarmless {p} (sig) (live : ∀ x, p = some x → x ∈ s.allProcs) : Harmless idle s (s.signalSend p sig) := by
  unfold signalSend
  cases p with
  | none => exact harmlessRefl idle s
  | some p =>
  dsimp only
  split
  · exact harmlessRefl idle s
  have pended : Harmless idle s (s.pend p sig) := harmlessModify rfl rfl rfl rfl
  refine harmlessTrans pended (fun calm => ?_)
  split
  · exact processWakeHarmless (by rw [calm.all]; exact live p rfl)
  · exact harmlessRefl idle _

theorem processFindLive {pid} (found : s.processFind pid = some p) : p ∈ s.allProcs := List.mem_of_find?_eq_some found

theorem adoptOneHarmless {me init} (live : ∀ x, init = some x → x ∈ s.allProcs) : Harmless idle s (adoptOne me init s p) := by
  unfold adoptOne
  split
  · have moved : Harmless idle s (s.modify p (fun x => {x with ppid := 1})) := harmlessModify rfl rfl rfl rfl
    refine harmlessTrans moved (fun calm => ?_)
    dsimp only
    split
    · refine harmlessTrans (signalSendHarmless sigChld ?_) (fun _ => wakeupHarmless idle _ init)
      intro x same; rw [calm.all]; exact live x same
    · exact harmlessRefl idle _
  · exact harmlessRefl idle s

theorem disinheritHarmless (idle me init parent) (s : Scheduler) : Harmless idle s (s.disinherit me init parent).2 := by
  unfold disinherit
  cases parent with
  | none => exact harmlessRefl idle s
  | some p =>
    dsimp only
    split
    · have moved : Harmless idle (s.wakeup (some p))
        ((s.wakeup (some p)).modify me (fun x => {x with ppid := 1})) := harmlessModify rfl rfl rfl rfl
      exact harmlessTrans (wakeupHarmless idle s (some p)) (fun _ => moved)
    · exact harmlessRefl idle s

theorem disinheritParent (me init parent) (s : Scheduler) :
    (s.disinherit me init parent).1 = parent ∨ (s.disinherit me init parent).1 = init := by
  unfold disinherit
  cases parent with
  | none => exact .inl rfl
  | some p =>
    dsimp only
    split
    · exact .inr rfl
    · exact .inl rfl

/- Marking the running process BLOCKED or TERMINATED: it leaves no queue, since a
RUNNING process is in none. -/
theorem settledStop {c f} (settled : Settled idle s) (awake : (s.procs c).state ≠ .ready) (notIdle : c ≠ idle)
    (next : (f (s.procs c)).next = (s.procs c).next) (prev : (f (s.procs c)).prev = (s.procs c).prev)
    (priority : (f (s.procs c)).priority = (s.procs c).priority)
    (stopped : (f (s.procs c)).state = .blocked ∨ (f (s.procs c)).state = .terminated) : Settled idle (s.modify c f) := by
  obtain ⟨lists,rep⟩ := settled.queued
  have notReady : (f (s.procs c)).state ≠ .ready := by rcases stopped with h | h <;> rw [h] <;> decide
  have notRunning : (f (s.procs c)).state ≠ .running := by rcases stopped with h | h <;> rw [h] <;> decide
  refine ⟨⟨lists,representsModify rep next prev priority (by simp [awake,notReady]) (fun _ _ => Iff.rfl)⟩,
    fun x live => ?_,settled.distinct,settled.currentLive,fun x live runs => ?_,settled.idleLive,?_,?_⟩
  · by_cases same : x = c
    · subst x
      simp only [modify,Function.update_self,priority]
      exact settled.bounded c live
    · simpa [modify,same] using settled.bounded x live
  · by_cases same : x = c
    · subst x; simp [modify,notRunning] at runs
    · exact settled.running x live (by simpa [modify,same] using runs)
  · simpa [modify,Ne.symm notIdle] using settled.idleAwake
  · simpa [modify,Ne.symm notIdle] using settled.idleLast

theorem terminateSettled {me} (consistent : Consistent idle s)
    (atCurrent : s.current = some me) (notIdle : me ≠ idle) (status released) : Settled idle (s.terminate me status released) ∧
    (s.terminate me status released).current = some me ∧ ((s.terminate me status released).procs me).state = .terminated := by
  unfold terminate
  dsimp only
  have initLive x (found : s.processFind 1 = some x) : x ∈ s.allProcs := processFindLive found
  generalize s.processFind 1 = init at initLive ⊢
  have closing : Harmless idle s (released.foldl wakeup s) := harmlessFold (fun _ _ => True) (fun _ _ _ _ _ => trivial)
    (fun t chan _ => wakeupHarmless idle t chan) released s (fun _ _ => trivial)
  generalize released.foldl wakeup s = closed at closing ⊢
  have kernel : Harmless idle closed (closed.modify me (fun x => {x with isUser := false})) :=
    harmlessModify rfl rfl rfl rfl
  replace kernel := harmlessTrans closing (fun _ => kernel)
  generalize closed.modify me (fun x => {x with isUser := false}) = opened at kernel ⊢
  have adopting (calm : Calm s opened) : Harmless idle opened (opened.allProcs.foldl (adoptOne me init) opened) :=
    harmlessFold (fun t _ => ∀ x, init = some x → x ∈ t.allProcs)
      (fun _ _ _ moved live x same => moved.all ▸ live x same)
      (fun t p live => adoptOneHarmless live) opened.allProcs opened
      (fun _ _ x same => calm.all ▸ initLive x same)
  have adopted := harmlessTrans kernel adopting
  generalize opened.allProcs.foldl (adoptOne me init) opened = orphaned at adopted ⊢
  have parentLive x (found : orphaned.processFind (orphaned.procs me).ppid = some x) : x ∈ orphaned.allProcs :=
    processFindLive found
  generalize orphaned.processFind (orphaned.procs me).ppid = found at parentLive ⊢
  have leaving := harmlessTrans adopted (fun _ => disinheritHarmless idle me init found orphaned)
  obtain ⟨_,calmOrphaned⟩ := adopted consistent.toSettled
  obtain ⟨left,calmLeft⟩ := leaving consistent.toSettled
  have target x (same : (orphaned.disinherit me init found).1 = some x) :
      x ∈ (orphaned.disinherit me init found).2.allProcs := by
    rw [calmLeft.all]
    rcases disinheritParent me init found orphaned with h | h
    · rw [h] at same; rw [← calmOrphaned.all]; exact parentLive x same
    · rw [h] at same; exact initLive x same
  generalize orphaned.disinherit me init found = pair at left calmLeft target ⊢
  obtain ⟨parent,final⟩ := pair
  have runs : (final.procs me).state = .running := by
    rw [calmLeft.awake me (by rw [consistent.currentRuns me atCurrent]; decide)]
    exact consistent.currentRuns me atCurrent
  have dead : Settled idle (final.modify me (fun x => {x with exitStatus := status, state := .terminated})) :=
    settledStop left (by rw [runs]; decide) notIdle rfl rfl rfl (.inr rfl)
  have sent : Harmless idle (final.modify me (fun x => {x with exitStatus := status, state := .terminated})) _ :=
    signalSendHarmless sigChld target
  have marked : ((final.modify me (fun x => {x with exitStatus := status, state := .terminated})).procs me).state
    = .terminated := by simp [modify]
  obtain ⟨settled,calm⟩ := harmlessTrans sent (fun _ => wakeupHarmless idle _ parent) dead
  refine ⟨settled,?_,?_⟩
  · rw [calm.current]; exact calmLeft.current.trans atCurrent
  · rw [calm.awake me (by rw [marked]; decide),marked]

end Miviex.Scheduler
