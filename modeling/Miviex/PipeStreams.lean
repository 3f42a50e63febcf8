import Miviex.PipeWakeups

/-! What goes in comes out. The bytes of one write call are a first part of what it was given; and
a call with at most PIPE_BUF bytes puts them in as one block, or none of them. -/
namespace Miviex
open List Nat
open Function (comp_def update update_of_ne update_self)

namespace Pipe

structure Balanced (p : Pipe) : Prop where
  stream : p.taken ++ p.ring.contents pipeSize = p.accepted.map Prod.snd
  bounded : p.ring.len ≤ pipeSize

theorem readBalanced {p} (balanced : Balanced p) (pending size) :
    let round := p.read pending size
    Balanced round.pipe ∧ round.pipe.accepted = p.accepted ∧ round.pipe.taken = p.taken ++ (match round.result with
      | some (.ok bytes) => bytes
      | _ => []) := by
  unfold read
  split
  · split
    · exact ⟨balanced,rfl,(append_nil _).symm⟩
    · split <;> exact ⟨balanced,rfl,(append_nil _).symm⟩
  generalize amount : (if size < p.ring.len then size else p.ring.len) = k
  have inside : k ≤ p.ring.len := by
    rw [← amount]
    split <;> omega
  refine ⟨⟨?_,?_⟩,rfl,rfl⟩
  · rw [append_assoc,Ring.peekDrop inside]
    exact balanced.stream
  have bounded := balanced.bounded
  simp only [Ring.drop]
  omega

/- How many bytes of the piece are in. -/
def progress : Wrote → Nat
  | .full _ done => done
  | .returns (.ok r) => r
  | _ => 0

theorem partialProgress (done e) : progress (.returns (partialOr done e)) = done := by
  unfold partialOr
  split <;> simp_all [progress]

/- What a round of `pipe_write` on `src` did: `chunk` went in, and the result says so. `done`
bytes of the piece were in before. -/
structure Placed (id : Nat) (p : Pipe) (src : List UInt8) (done : Nat) (chunk left : List UInt8)
    (round : Round Wrote) : Prop where
  balanced : Balanced round.pipe
  split : src = chunk ++ left
  accepted : round.pipe.accepted = p.accepted ++ chunk.map (fun b => (id,b))
  full : ∀ src' done', round.result = .full src' done' → src' = left
  counts : progress round.result = done+chunk.length
  readers : round.pipe.readers = p.readers
  closed : p.readers = 0 → chunk = []

theorem placedNothing {id p src done woke result} (balanced : Balanced p)
    (full : ∀ src' done', result = .full src' done' → src' = src) (counts : progress result = done) :
    Placed id p src done [] src ⟨p,woke,result⟩ :=
  ⟨balanced,rfl,by simp,full,counts,rfl,fun _ => rfl⟩

theorem fillBalanced {p} (balanced : Balanced p) (id src) : let filled := p.ring.fill pipeSize src
    let k := src.length-filled.2.length
    src.take k = src.take (pipeSize-p.ring.len) ∧ filled.2 = src.drop (pipeSize-p.ring.len) ∧
    Balanced {p with ring := filled.1, accepted := p.accepted ++ (src.take k).map (fun b => (id,b))} := by
  obtain ⟨contents,left,length⟩ := Ring.fillSpec p.ring src balanced.bounded
  have amount := Ring.fillTaken p.ring src balanced.bounded
  refine ⟨amount,left,⟨?_,?_⟩⟩
  · rw [contents,amount,← append_assoc,balanced.stream]
    simp
  rw [length,length_take]
  have bounded := balanced.bounded
  omega

theorem writeLoopPlaced (id pending fuel p woke src done) (balanced : Balanced p) :
    ∃ chunk left, Placed id p src done chunk left (writeLoop id pending fuel p woke src done) := by
  induction fuel generalizing p woke src done with
  | zero => exact ⟨[],src,placedNothing balanced (by simp) rfl⟩
  | succ fuel ih =>
  unfold writeLoop
  split
  · exact ⟨[],src,placedNothing balanced (by simp) rfl⟩
  split
  · exact ⟨[],src,placedNothing balanced (by simp) (partialProgress done _)⟩
  rename_i open_
  split
  · cases pending with
    | true => exact ⟨[],src,placedNothing balanced (by simp) (partialProgress done _)⟩
    | false => exact ⟨[],src,placedNothing balanced (by simp +contextual) rfl⟩
  obtain ⟨amount,rest,filled⟩ := fillBalanced balanced id src
  dsimp only
  generalize taken : src.length - (p.ring.fill pipeSize src).2.length = k at amount filled ⊢
  obtain ⟨chunk,left,placed⟩ := ih
    {p with ring := (p.ring.fill pipeSize src).1, accepted := p.accepted ++ (src.take k).map (fun b => (id,b))}
    true (p.ring.fill pipeSize src).2 (done+k) filled
  have whole : src = src.take k ++ (p.ring.fill pipeSize src).2 := by rw [amount,rest,take_append_drop]
  have size : (src.take k).length = k := by
    rw [length_take]
    omega
  refine ⟨src.take k ++ chunk,left,placed.balanced,?_,?_,placed.full,?_,placed.readers,fun closed => absurd closed open_⟩
  · rw [append_assoc,← placed.split]
    exact whole
  · rw [placed.accepted]
    simp
  rw [placed.counts,length_append,size]
  omega

theorem writePlaced (id pending) {p} (src) (balanced : Balanced p) :
    ∃ chunk left, Placed id p src 0 chunk left (p.write id pending src) := by
  unfold write
  split
  · cases pending <;> exact ⟨[],src,placedNothing balanced nofun rfl⟩
  · exact writeLoopPlaced id pending src.length p false src 0 balanced

theorem writeLoopNil (id pending fuel p woke done) :
    writeLoop id pending fuel p woke [] done = ⟨p,woke,.returns (.ok done)⟩ := by
  cases fuel <;> simp [writeLoop]

theorem writeSmall (id pending) {p src} (balanced : Balanced p) (small : src.length ≤ pipeSize) :
    ∃ chunk left, Placed id p src 0 chunk left (p.write id pending src) ∧ (chunk = [] ∨ left = []) ∧
    ∀ src' done, (p.write id pending src).result ≠ .full src' done := by
  unfold write
  split
  · cases pending <;> exact ⟨[],src,placedNothing balanced (by simp) rfl,.inl rfl,by simp⟩
  rename_i passes
  cases shape : src with
  | nil => exact ⟨[],[],placedNothing balanced (by simp) rfl,.inl rfl,by simp [writeLoopNil]⟩
  | cons b bytes =>
  have nonempty : src.length = bytes.length+1 := by rw [shape]; rfl
  rw [← shape,nonempty]
  unfold writeLoop
  rw [if_neg (by simp [shape])]
  split
  · exact ⟨[],src,placedNothing balanced (by simp) (partialProgress 0 _),.inl rfl,by simp⟩
  rename_i open_
  have fits : src.length ≤ pipeSize-p.ring.len := by
    by_contra tight
    exact passes ⟨small,by omega,open_⟩
  rw [if_neg (by omega)]
  obtain ⟨amount,rest,filled⟩ := fillBalanced balanced id src
  rw [take_of_length_le fits] at amount
  rw [drop_of_length_le fits] at rest
  dsimp only
  rw [rest,writeLoopNil]
  rw [rest] at amount filled
  rw [amount] at filled ⊢
  exact ⟨src,[],⟨filled,by simp,rfl,by simp,by simp [progress],rfl,fun closed => absurd closed open_⟩,.inr rfl,by simp⟩

end Pipe

def placedBytes (id : Nat) (accepted : List (Nat × UInt8)) : List UInt8 :=
  (accepted.filter (fun x => x.1 == id)).map Prod.snd

theorem placedAppend (id) (accepted : List (Nat × UInt8)) (chunk : List UInt8) :
    placedBytes id (accepted ++ chunk.map (fun b => (id,b))) = placedBytes id accepted ++ chunk := by
  simp [placedBytes,filter_map,comp_def]

theorem placedOther {id other} (differ : other ≠ id) (accepted : List (Nat × UInt8)) (chunk : List UInt8) :
    placedBytes id (accepted ++ chunk.map (fun b => (other,b))) = placedBytes id accepted := by
  simp [placedBytes,filter_map,comp_def,differ]

/- A piece is being written: `before` is in, `src` comes next, and if that is all of the piece
then `rest` comes after it. -/
structure Ahead (data before src : List UInt8) (done len : Nat) (rest : List (List UInt8)) : Prop where
  next : before ++ src <+: data
  whole : len = done+src.length → before ++ src ++ rest.flatten = data
  bounded : done+src.length ≤ len

namespace Pipes

/- The bytes that a read returns, or has when it goes to sleep. -/
def given : Calls.Next PipeCall PipeAnswer → List UInt8
  | .done (.bytes data) => data
  | .asleep _ (.read r) => r.got
  | _ => []

/- The number that a write returns, or has done when it goes to sleep. -/
def counted : Calls.Next PipeCall PipeAnswer → Nat
  | .done (.number n) => n
  | .asleep _ (.write w) => w.before+w.done
  | _ => 0

end Pipes

/- `n` bytes of the call were in before. -/
structure PipeTurn.Fills (k id n : Nat) (data before : List UInt8) (p : Pipe) (chunk : List UInt8) (t : PipeTurn) :
    Prop where
  balanced : Pipe.Balanced t.pipe
  accepted : t.pipe.accepted = p.accepted ++ chunk.map (fun b => (id,b))
  inside : before ++ chunk <+: data
  closed : p.readers = 0 → chunk = []
  counts : ∀ d : Pipes, Pipes.counted (d.work k t).next = n+chunk.length
  sleeps : ∀ c, t.next = .inr c → ∃ w, c = .write w ∧ w.pipe = k ∧ w.id = id ∧ (w.gate = true → w.done = 0) ∧
    Ahead data (before ++ chunk) w.src w.done w.len w.rest

open PipeTurn (Fills Prompt)

theorem Pipe.Placed.ends {k id n data before p src done chunk left round woke raised answer}
    (placed : Pipe.Placed id p src done chunk left round) (inside : before ++ chunk <+: data)
    (counts : Pipes.counted (.done answer) = n+chunk.length) :
    Fills k id n data before p chunk ⟨round.pipe,woke,raised,.inl answer⟩ :=
  ⟨placed.balanced,placed.accepted,inside,placed.closed,fun _ => counts,nofun⟩

theorem failedCounts {before n : Nat} (e) (none_ : n = before) :
    Pipes.counted (.done (if before ≠ 0 then .number before else .failed e)) = n := by
  split <;> simp_all [Pipes.counted]

theorem afterWriteFills {k id data before src chunk left done len count woke rest more p round}
    (ahead : Ahead data before src done len rest) (placed : Pipe.Placed id p src done chunk left round)
    (goes : ∀ n q loud, Pipe.Balanced q → before ++ src ++ rest.flatten = data →
    ∃ chunk, Fills k id n data (before ++ src) q chunk (more n q loud)) :
    ∃ chunk, Fills k id (count+done) data before p chunk (afterWrite k id src len rest count woke more round) := by
  have first : before ++ chunk <+: data := by
    refine List.IsPrefix.trans ?_ ahead.next
    rw [placed.split,← append_assoc]
    exact prefix_append _ _
  have counts := placed.counts
  unfold afterWrite
  dsimp only
  split <;> rename_i result <;> rw [result] at counts <;> dsimp only [Pipe.progress] at counts
  · have empty : chunk = [] := length_eq_zero_iff.mp (by omega)
    have zero : done = 0 := by omega
    refine ⟨chunk,placed.balanced,placed.accepted,first,placed.closed,fun d => ?_,fun c same => ?_⟩
    · dsimp only [Pipes.work,Pipes.counted]
      omega
    cases same
    refine ⟨_,rfl,rfl,rfl,fun _ => rfl,?_⟩
    rw [empty,append_nil,← zero]
    exact ahead
  · rename_i src' done'
    obtain rfl := placed.full src' done' result
    refine ⟨chunk,placed.balanced,placed.accepted,first,placed.closed,fun d => ?_,fun c same => ?_⟩
    · dsimp only [Pipes.work,Pipes.counted]
      omega
    cases same
    refine ⟨_,rfl,rfl,rfl,nofun,?_,fun all => ?_,?_⟩
    · rw [append_assoc,← placed.split]
      exact ahead.next
    · dsimp only at all ⊢
      rw [append_assoc before,← placed.split]
      refine ahead.whole ?_
      rw [all,placed.split,length_append]
      omega
    have bounded := ahead.bounded
    rw [placed.split,length_append] at bounded
    dsimp only
    omega
  · exact ⟨chunk,placed.ends first (failedCounts _ (by omega))⟩
  rename_i r
  split
  · refine ⟨chunk,placed.ends first ?_⟩
    dsimp only [Pipes.counted]
    omega
  have bounded := ahead.bounded
  have parts : src.length = chunk.length+left.length := by rw [← length_append,← placed.split]
  have none_ : left = [] := length_eq_zero_iff.mp (by omega)
  have all : src = chunk := by
    have split := placed.split
    rwa [none_,append_nil] at split
  obtain ⟨later,fills⟩ := goes (count+r) round.pipe (woke || round.woke) placed.balanced (ahead.whole (by omega))
  refine ⟨chunk ++ later,fills.balanced,?_,?_,fun closed => ?_,fun d => ?_,fun c same => ?_⟩
  · rw [fills.accepted,placed.accepted]
    simp
  · rw [← append_assoc,← all]
    exact fills.inside
  · rw [placed.closed closed,fills.closed (placed.readers.trans closed),nil_append]
  · rw [fills.counts d,length_append]
    omega
  obtain ⟨w,shape,pipe,number,start,further⟩ := fills.sleeps c same
  refine ⟨w,shape,pipe,number,start,?_⟩
  rw [← append_assoc,← all]
  exact further

theorem writePiecesFills (k id pending data before) (pieces : List (List UInt8))
    (count p woke) (balanced : Pipe.Balanced p) (all : before ++ pieces.flatten = data) :
    ∃ chunk, Fills k id count data before p chunk (writePieces k id pending pieces count p woke) := by
  induction pieces generalizing before count p woke with
  | nil =>
    refine ⟨[],balanced,by simp [writePieces],?_,fun _ => rfl,fun _ => rfl,nofun⟩
    rw [← all]
    simp
  | cons piece rest ih =>
  have ahead : Ahead data before (piece.take (piece.length % 2^32)) 0 piece.length rest := by
    refine ⟨?_,fun whole => ?_,?_⟩
    · rw [← all,flatten_cons,prefix_append_right_inj]
      exact (List.take_prefix _ piece).trans (prefix_append piece _)
    · rw [length_take] at whole
      rw [take_of_length_le (by omega),append_assoc,← flatten_cons]
      exact all
    rw [length_take]
    omega
  obtain ⟨chunk,left,placed⟩ := Pipe.writePlaced id pending (piece.take (piece.length % 2^32)) balanced
  exact afterWriteFills ahead placed (fun n q loud stays next => ih _ n q loud stays next)

theorem resumeWriteFills (pending) {w p data before} (balanced : Pipe.Balanced p) (start : w.gate = true → w.done = 0)
    (ahead : Ahead data before w.src w.done w.len w.rest) :
    ∃ chunk, Fills w.pipe w.id (w.before+w.done) data before p chunk (resumeWrite pending w p) := by
  unfold resumeWrite
  have goes := fun n q loud stays next => writePiecesFills w.pipe w.id pending data (before ++ w.src) w.rest n q loud
    stays next
  cases gate : w.gate with
  | true =>
    rw [start gate] at ahead ⊢
    obtain ⟨chunk,left,placed⟩ := Pipe.writePlaced w.id pending w.src balanced
    exact afterWriteFills ahead placed goes
  | false =>
    obtain ⟨chunk,left,placed⟩ := Pipe.writeLoopPlaced w.id pending w.src.length p false w.src w.done balanced
    exact afterWriteFills ahead placed goes

structure Writing.Whole (w : Writing) (data : List UInt8) : Prop where
  gate : w.gate = true
  rest : w.rest = []
  src : w.src = data
  len : w.len = data.length

/- A call with at most PIPE_BUF bytes is one `pipe_write`, which puts in all or nothing and
sleeps before the first byte only. -/
theorem smallFills (k id pending woke) {p data} (len count)
    (balanced : Pipe.Balanced p) (small : data.length ≤ pipeBuf) (whole : len = data.length) :
    let t := afterWrite k id data len [] count woke (writePieces k id pending []) (p.write id pending data)
    ∃ chunk, Fills k id count data [] p chunk t ∧ (chunk = [] ∨ chunk = data) ∧
      ∀ w, t.next = .inr (.write w) → w.Whole data ∧ chunk = [] := by
  obtain ⟨chunk,left,placed,either,never⟩ := Pipe.writeSmall id pending balanced small
  have first : chunk <+: data := by
    rw [placed.split]
    exact prefix_append _ _
  have all : chunk = [] ∨ chunk = data := by
    rcases either with none_ | none_
    · exact .inl none_
    right
    have split := placed.split
    rw [none_,append_nil] at split
    exact split.symm
  have counts := placed.counts
  unfold afterWrite
  dsimp only
  split <;> rename_i result <;> rw [result] at counts <;> dsimp only [Pipe.progress] at counts
  · have empty : chunk = [] := length_eq_zero_iff.mp (by omega)
    refine ⟨chunk,⟨placed.balanced,placed.accepted,first,placed.closed,fun d => by rw [empty]; rfl,fun c same => ?_⟩,all,
      fun w same => ?_⟩
    · cases same
      refine ⟨_,rfl,rfl,rfl,fun _ => rfl,?_⟩
      rw [empty]
      exact ⟨prefix_rfl,fun _ => by simp,by simp [whole]⟩
    cases same
    exact ⟨⟨rfl,rfl,rfl,whole⟩,empty⟩
  · exact absurd result (never _ _)
  · exact ⟨chunk,placed.ends first (failedCounts _ (by omega)),all,nofun⟩
  rename_i r
  have done : count+r = count+chunk.length := by omega
  split <;> exact ⟨chunk,placed.ends first done,all,nofun⟩

theorem readPiecesStream (k pending) (pieces : List (Nat × Bool)) (got) {p} (woke) (balanced : Pipe.Balanced p) :
    let t := readPieces k pending pieces got p woke
    Pipe.Balanced t.pipe ∧ t.pipe.accepted = p.accepted ∧ (∀ w, t.next ≠ .inr (.write w)) ∧
    ∃ bytes, t.pipe.taken = p.taken ++ bytes ∧ ∀ d : Pipes, Pipes.given (d.work k t).next = got ++ bytes := by
  have ends (got : List UInt8) e : Pipes.given (.done (if got.isEmpty then .failed e else .bytes got)) = got ++ [] := by
    cases got <;> simp [Pipes.given]
  have none_ (p : Pipe) : p.taken = p.taken ++ [] := (append_nil _).symm
  induction pieces generalizing got p woke with
  | nil => exact ⟨balanced,rfl,by simp [readPieces],[],none_ p,fun _ => (append_nil _).symm⟩
  | cons piece rest ih =>
  obtain ⟨len,mapped⟩ := piece
  unfold readPieces
  split
  · exact ⟨balanced,rfl,by simp,[],none_ p,fun _ => ends got _⟩
  split
  · exact ih got woke balanced
  obtain ⟨stays,same,taken⟩ := Pipe.readBalanced balanced pending len
  dsimp only
  split <;> rename_i result <;> rw [result] at taken
  · exact ⟨stays,same,by simp,[],taken,fun _ => (append_nil _).symm⟩
  · exact ⟨stays,same,by simp,[],taken,fun _ => ends got _⟩
  split
  · exact ⟨stays,same,by simp,_,taken,fun _ => rfl⟩
  rename_i bytes _
  obtain ⟨later,accepted,reads,more,took,gives⟩ := ih (got ++ bytes) (woke || (p.read pending len).woke) stays
  refine ⟨later,accepted.trans same,reads,bytes ++ more,?_,fun d => ?_⟩
  · rw [took,taken,append_assoc]
  · rw [gives d,append_assoc]

namespace Pipes

def Block (id : Nat) (data : List UInt8) (accepted : List (Nat × UInt8)) : Prop :=
  ∃ before block after, accepted = before ++ block ++ after ∧
    (block = [] ∨ block = data.map (fun b => (id,b))) ∧ ∀ x ∈ before ++ after, x.1 ≠ id

structure Unfinished (d : Pipes) (w : Writing) (data : List UInt8) : Prop where
  issued : d.issued[w.id]? = some data
  start : w.gate = true → w.done = 0
  ahead : Ahead data (placedBytes w.id (d.pipe w.pipe).accepted) w.src w.done w.len w.rest
  small : data.length ≤ pipeBuf → w.Whole data ∧ ∀ x ∈ (d.pipe w.pipe).accepted, x.1 ≠ w.id

structure Flowing (d : Pipes) (calls : Addr → Option PipeCall) : Prop where
  unmade : Unmade d
  pristine : ∀ k, d.next ≤ k → (d.pipe k).accepted = []
  balanced : ∀ k, (d.pipe k).Balanced
  tagged : ∀ k, ∀ x ∈ (d.pipe k).accepted, x.1 < d.issued.length
  placed : ∀ k id data, d.issued[id]? = some data → placedBytes id (d.pipe k).accepted <+: data ∧
    (data.length ≤ pipeBuf → Block id data (d.pipe k).accepted)
  inside : ∀ p w, calls p = some (.write w) → ∃ data, Unfinished d w data
  alone : ∀ p q w v, calls p = some (.write w) → calls q = some (.write v) → w.id = v.id → p = q

variable {d e : Pipes} {calls : Addr → Option PipeCall}

theorem Flowing.still {later} (flowing : Flowing d calls) (unmade : Unmade e)
    (next : d.next ≤ e.next) (issued : e.issued = d.issued)
    (accepted : ∀ k, (e.pipe k).accepted = (d.pipe k).accepted) (balanced : ∀ k, (e.pipe k).Balanced)
    (fewer : ∀ p w, later p = some (.write w) → calls p = some (.write w)) : Flowing e later := by
  refine ⟨unmade,fun k beyond => ?_,balanced,fun k => ?_,fun k id data => ?_,fun p w writes => ?_,
    fun p q w v first second => flowing.alone p q w v (fewer p w first) (fewer q v second)⟩
  · rw [accepted]
    exact flowing.pristine k (next.trans beyond)
  · rw [accepted,issued]
    exact flowing.tagged k
  · rw [accepted,issued]
    exact flowing.placed k id data
  obtain ⟨data,unfinished⟩ := flowing.inside p w (fewer p w writes)
  refine ⟨data,?_,unfinished.start,?_,?_⟩
  · rw [issued]; exact unfinished.issued
  · rw [accepted]; exact unfinished.ahead
  · rw [accepted]; exact unfinished.small

theorem noneTagged {id accepted} (absent : ∀ x ∈ accepted, x.1 ≠ id) : placedBytes id accepted = [] := by
  unfold placedBytes
  rw [filter_eq_nil_iff.mpr (fun x here => by simpa using absent x here)]
  rfl

theorem Flowing.issue (flowing : Flowing d calls) (data) : Flowing {d with issued := d.issued ++ [data]} calls ∧
    (∀ k, ∀ x ∈ (d.pipe k).accepted, x.1 ≠ d.issued.length) ∧
    ∀ p w, calls p = some (.write w) → w.id ≠ d.issued.length := by
  have fresh k x (here : x ∈ (d.pipe k).accepted) : x.1 ≠ d.issued.length := Nat.ne_of_lt (flowing.tagged k x here)
  have older : ∀ {id : Nat} {bytes : List UInt8}, d.issued[id]? = some bytes → (d.issued ++ [data])[id]? = some bytes := by
    intro id bytes known
    have below : id < d.issued.length := (List.getElem?_eq_some_iff.mp known).1
    rw [List.getElem?_append_left below]
    exact known
  refine ⟨⟨flowing.unmade,flowing.pristine,flowing.balanced,fun k x here => ?_,fun k id bytes known => ?_,
    fun p w writes => ?_,flowing.alone⟩,fresh,fun p w writes => ?_⟩
  · have below := flowing.tagged k x here
    simp only [length_append,length_singleton]
    omega
  · by_cases new : id = d.issued.length
    · subst new
      rw [noneTagged (fresh k)]
      refine ⟨List.nil_prefix,fun _ => ⟨(d.pipe k).accepted,[],[],by simp,.inl rfl,?_⟩⟩
      simpa using fresh k
    refine flowing.placed k id bytes ?_
    have below : id < (d.issued ++ [data]).length := (List.getElem?_eq_some_iff.mp known).1
    rw [length_append,length_singleton] at below
    rwa [List.getElem?_append_left (by omega)] at known
  · obtain ⟨bytes,unfinished⟩ := flowing.inside p w writes
    exact ⟨bytes,older unfinished.issued,unfinished.start,unfinished.ahead,unfinished.small⟩
  obtain ⟨bytes,unfinished⟩ := flowing.inside p w writes
  exact Nat.ne_of_lt (List.getElem?_eq_some_iff.mp unfinished.issued).1

variable {me : Addr}

section

variable (flowing : Flowing d calls)
include flowing

theorem Flowing.written {k id n pending woke data chunk t} (issued : d.issued[id]? = some data)
    (prompt : Prompt k pending (d.pipe k) woke t)
    (fills : Fills k id n data (placedBytes id (d.pipe k).accepted) (d.pipe k) chunk t)
    (others : ∀ p w, p ≠ me → calls p = some (.write w) → w.id ≠ id)
    (small : data.length ≤ pipeBuf → (∀ x ∈ (d.pipe k).accepted, x.1 ≠ id) ∧ (chunk = [] ∨ chunk = data) ∧
    ∀ w, t.next = .inr (.write w) → w.Whole data ∧ chunk = []) :
    Flowing (d.work k t).dev (update calls me (d.work k t).next.call) := by
  have calling w (same : (d.work k t).next.call = some (.write w)) : t.next = .inr (.write w) := by
    unfold work at same
    cases ends : t.next with
    | inl answer => simp [ends,Calls.Next.call] at same
    | inr call =>
      simp only [ends,Calls.Next.call,Option.some.injEq] at same
      rw [same]
  have here : (d.work k t).dev.pipe k = t.pipe := by simp [work]
  have elsewhere j (other : j ≠ k) : (d.work k t).dev.pipe j = d.pipe j := by simp [work,other]
  have mine w (same : (d.work k t).next.call = some (.write w)) : w.id = id := by
    obtain ⟨v,shape,_,number,_⟩ := fills.sleeps _ (calling w same)
    cases shape
    exact number
  refine ⟨workUnmade flowing.unmade prompt,fun j beyond => ?_,fun j => ?_,fun j => ?_,fun j other bytes known => ?_,
    fun p w writes => ?_,fun p q w v first second same => ?_⟩
  · by_cases at_ : j = k
    · subst at_
      rw [here,fills.accepted,fills.closed (flowing.unmade j beyond).1]
      simpa using flowing.pristine j beyond
    rw [elsewhere j at_]
    exact flowing.pristine j beyond
  · by_cases at_ : j = k
    · rw [at_,here]; exact fills.balanced
    · rw [elsewhere j at_]; exact flowing.balanced j
  · by_cases at_ : j = k
    · rw [at_,here,fills.accepted]
      intro x member
      rcases mem_append.mp member with old | new
      · exact flowing.tagged k x old
      obtain ⟨b,_,rfl⟩ := mem_map.mp new
      exact (List.getElem?_eq_some_iff.mp issued).1
    · rw [elsewhere j at_]; exact flowing.tagged j
  · by_cases at_ : j = k
    · obtain ⟨inside,block⟩ := flowing.placed k other bytes known
      rw [at_,here,fills.accepted]
      by_cases its : other = id
      · subst its
        cases Option.some.inj (issued.symm.trans known)
        refine ⟨?_,fun few => ?_⟩
        · rw [placedAppend]; exact fills.inside
        obtain ⟨absent,all,_⟩ := small few
        rcases all with none_ | whole
        · rw [none_]
          simpa using block few
        refine ⟨(d.pipe k).accepted,chunk.map (fun b => (other,b)),[],by simp,.inr (by rw [whole]),?_⟩
        simpa using absent
      refine ⟨?_,fun few => ?_⟩
      · rw [placedOther (Ne.symm its)]; exact inside
      obtain ⟨before,middle,after,shape,all,absent⟩ := block few
      refine ⟨before,middle,after ++ chunk.map (fun b => (id,b)),?_,all,fun x member => ?_⟩
      · rw [shape]; simp
      rw [← append_assoc] at member
      rcases mem_append.mp member with old | new
      · exact absent x old
      obtain ⟨b,_,rfl⟩ := mem_map.mp new
      exact Ne.symm its
    rw [elsewhere j at_]
    exact flowing.placed j other bytes known
  · by_cases its : p = me
    · subst its
      rw [update_self] at writes
      obtain ⟨v,shape,pipe,number,start,ahead⟩ := fills.sleeps _ (calling w writes)
      cases shape
      refine ⟨data,?_,start,?_,fun few => ?_⟩
      · rw [number]; exact issued
      · rw [pipe,here,fills.accepted,number,placedAppend]
        exact ahead
      obtain ⟨absent,_,asleep⟩ := small few
      obtain ⟨whole,none_⟩ := asleep w (calling w writes)
      refine ⟨whole,?_⟩
      rw [pipe,here,fills.accepted,none_,number]
      simpa using absent
    rw [update_of_ne its] at writes
    obtain ⟨bytes,unfinished⟩ := flowing.inside p w writes
    have differ := others p w its writes
    by_cases at_ : w.pipe = k
    · refine ⟨bytes,unfinished.issued,unfinished.start,?_,fun few => ?_⟩
      · rw [at_,here,fills.accepted,placedOther (Ne.symm differ),← at_]
        exact unfinished.ahead
      obtain ⟨whole,absent⟩ := unfinished.small few
      refine ⟨whole,?_⟩
      rw [at_,here,fills.accepted]
      intro x member
      rcases mem_append.mp member with old | new
      · exact absent x (by rw [at_]; exact old)
      obtain ⟨b,_,rfl⟩ := mem_map.mp new
      exact Ne.symm differ
    refine ⟨bytes,unfinished.issued,unfinished.start,?_,?_⟩
    · rw [elsewhere w.pipe at_]; exact unfinished.ahead
    · rw [elsewhere w.pipe at_]; exact unfinished.small
  by_cases one : p = me
  · by_cases two : q = me
    · rw [one,two]
    subst one
    rw [update_self] at first
    rw [update_of_ne two] at second
    exact absurd (same.symm.trans (mine w first)) (others q v two second)
  by_cases two : q = me
  · subst two
    rw [update_self] at second
    rw [update_of_ne one] at first
    exact absurd (same.trans (mine v second)) (others p w one first)
  rw [update_of_ne one] at first
  rw [update_of_ne two] at second
  exact flowing.alone p q w v first second same

theorem Flowing.writeTo (pending x) {pieces} (gathered : pieces.flatten.length ≤ pipeBuf → pieces = [pieces.flatten]) :
    Flowing (d.writeTo pending x pieces).dev (update calls me (d.writeTo pending x pieces).next.call) := by
  obtain ⟨issued,fresh,apart⟩ := flowing.issue pieces.flatten
  have none_ := noneTagged (fresh x.object)
  have prompt := writePiecesPrompt x.object d.issued.length pending pieces 0 (d.pipe x.object) false
  have number : (d.issued ++ [pieces.flatten])[d.issued.length]? = some pieces.flatten := by simp
  by_cases few : pieces.flatten.length ≤ pipeBuf
  · have size : pieces.flatten.length % 2^32 = pieces.flatten.length := by
      have bound : pipeBuf = 4096 := rfl
      omega
    have shape : writePieces x.object d.issued.length pending pieces 0 (d.pipe x.object) false =
        afterWrite x.object d.issued.length pieces.flatten pieces.flatten.length [] 0 false
          (writePieces x.object d.issued.length pending []) ((d.pipe x.object).write d.issued.length pending pieces.flatten) := by
      conv_lhs => rw [gathered few]
      simp only [writePieces,size,take_length]
    obtain ⟨chunk,fills,all,asleep⟩ := smallFills x.object d.issued.length pending false pieces.flatten.length 0
      (flowing.balanced x.object) few rfl
    rw [← shape] at fills asleep
    refine issued.written number prompt (by rw [none_]; exact fills) (fun p w _ writes => apart p w writes) ?_
    exact fun _ => ⟨fresh x.object,all,asleep⟩
  obtain ⟨chunk,fills⟩ := writePiecesFills x.object d.issued.length pending pieces.flatten [] pieces 0
    (d.pipe x.object) false (flowing.balanced x.object) rfl
  refine issued.written number prompt (by rw [none_]; exact fills) (fun p w _ writes => apart p w writes) ?_
  exact fun small => absurd small few

theorem Flowing.resumeWrite {w} (inside : calls me = some (.write w)) (pending) : Flowing (d.resume me pending (.write w)).dev
    (update calls me (d.resume me pending (.write w)).next.call) := by
  obtain ⟨data,unfinished⟩ := flowing.inside me w inside
  have prompt := resumeWritePrompt pending w (d.pipe w.pipe)
  have others : ∀ p v, p ≠ me → calls p = some (.write v) → v.id ≠ w.id :=
    fun p v other writes same => other (flowing.alone p me v w writes inside same)
  by_cases few : data.length ≤ pipeBuf
  · obtain ⟨whole,absent⟩ := unfinished.small few
    have shape : Miviex.resumeWrite pending w (d.pipe w.pipe) = afterWrite w.pipe w.id data w.len [] w.before false
        (writePieces w.pipe w.id pending []) ((d.pipe w.pipe).write w.id pending data) := by
      unfold Miviex.resumeWrite
      rw [whole.gate,whole.rest,whole.src]
      rfl
    obtain ⟨chunk,fills,all,asleep⟩ := smallFills w.pipe w.id pending false w.len w.before
      (flowing.balanced w.pipe) few whole.len
    rw [← shape] at fills asleep
    refine flowing.written unfinished.issued prompt (by rw [noneTagged absent]; exact fills) others ?_
    exact fun _ => ⟨absent,all,asleep⟩
  obtain ⟨chunk,fills⟩ := resumeWriteFills pending (flowing.balanced w.pipe) unfinished.start unfinished.ahead
  refine flowing.written unfinished.issued prompt fills others ?_
  exact fun small => absurd small few

theorem Flowing.readPieces (k pending) (pieces : List (Nat × Bool)) (got) :
    let o := d.work k (readPieces k pending pieces got (d.pipe k) false)
    Flowing o.dev (update calls me o.next.call) := by
  have prompt := readPiecesPrompt k pending pieces got (d.pipe k) false
  obtain ⟨balanced,accepted,reads,_⟩ := readPiecesStream k pending pieces got false (flowing.balanced k)
  refine flowing.still (workUnmade flowing.unmade prompt) (le_refl _) rfl (fun j => ?_) (fun j => ?_)
    (fun p w writes => ?_)
  · by_cases here : j = k
    · subst here; simpa [work] using accepted
    · simp [work,here]
  · by_cases here : j = k
    · subst here; simpa [work] using balanced
    · simpa [work,here] using flowing.balanced j
  by_cases mine : p = me
  · subst mine
    rw [update_self] at writes
    unfold work at writes
    cases ends : (Miviex.readPieces k pending pieces got (d.pipe k) false).next with
    | inl answer => simp [ends,Calls.Next.call] at writes
    | inr call =>
      simp only [ends,Calls.Next.call,Option.some.injEq] at writes
      subst writes
      exact absurd ends (reads w)
  · rwa [update_of_ne mine] at writes

end

theorem balancedSame {p q : Pipe} (ring : q.ring = p.ring) (accepted : q.accepted = p.accepted)
    (taken : q.taken = p.taken) (balanced : p.Balanced) : q.Balanced := by
  refine ⟨?_,?_⟩
  · rw [taken,ring,accepted]; exact balanced.stream
  · rw [ring]; exact balanced.bounded

theorem Flowing.released {wakes later} (flowing : Flowing d calls) (released : Released d e wakes)
    (fewer : ∀ p w, later p = some (.write w) → calls p = some (.write w)) : Flowing e later := by
  refine flowing.still (released.unmade flowing.unmade) (le_of_eq released.next.symm) released.issued
    (fun j => (released.contents j).2.1) (fun j => ?_) fewer
  obtain ⟨ring,accepted,taken⟩ := released.contents j
  exact balancedSame ring accepted taken (flowing.balanced j)

theorem Flowing.files (flowing : Flowing d calls) (files) : Flowing {d with files := files} calls :=
  flowing.still (fun j beyond => flowing.unmade j beyond) (le_refl _) rfl (fun _ => rfl) flowing.balanced
    (fun _ _ writes => writes)

theorem fewerCalls {p w answer} {o : PipeOutcome} (ends : o.next = .done answer)
    (writes : update calls me o.next.call p = some (.write w)) : calls p = some (.write w) := by
  rw [ends] at writes
  by_cases mine : p = me
  · subst mine; simp [Calls.Next.call] at writes
  · rwa [update_of_ne mine] at writes

section

variable (flowing : Flowing d calls)
include flowing

theorem Flowing.failed (error) : Flowing (d.failed error).dev (update calls me (d.failed error).next.call) :=
  flowing.still flowing.unmade (le_refl _) rfl (fun _ => rfl) flowing.balanced (fun _ _ writes => fewerCalls rfl writes)

theorem Flowing.closing {α} (answer : α → PipeAnswer) (result : Except Errno α × Files Nat × Option (File Nat)) :
    Flowing (d.closing answer result).dev (update calls me (d.closing answer result).next.call) :=
  (flowing.files result.2.1).released (releaseReleased _ _) (fun _ _ writes => fewerCalls rfl writes)

theorem Flowing.made (files) : Flowing (d.made files) calls := by
  refine flowing.still (madeUnmade flowing.unmade files) (le_succ _) rfl (fun j => ?_) (fun j => ?_)
    (fun _ _ writes => writes)
  · by_cases here : j = d.next
    · subst here
      simpa [Pipes.made,Pipe.new] using (flowing.pristine d.next (le_refl _)).symm
    · simp [Pipes.made,here]
  by_cases here : j = d.next
  · subst here
    simp only [Pipes.made,update_self]
    exact ⟨rfl,zero_le _⟩
  · simpa [Pipes.made,here] using flowing.balanced j

theorem Flowing.entered (pending request) :
    Flowing (d.enter me pending request).dev (update calls me (d.enter me pending request).next.call) := by
  cases request with
  | pipe2 mapped memory cloexec limit =>
    simp only [enter]
    rcases pipe2Cases d me mapped memory cloexec limit with ⟨error,same⟩ | ⟨files,answer,ends,released⟩
    · rw [same]
      exact flowing.failed error
    · exact (flowing.made files).released released (fun _ _ writes => fewerCalls ends writes)
  | close | dup | dup2 | dup3 | setCloexec => exact flowing.closing _ _
  | exec =>
    exact (flowing.files (d.files.closeOnExec me).1).released (releaseReleased _ _)
      (fun _ _ writes => fewerCalls rfl writes)
  | read fd len mapped =>
    simp only [enter,sysRead,readFrom]
    split
    · exact flowing.failed .ebadf
    split
    · exact flowing.failed .ebadf
    · exact flowing.readPieces _ pending _ _
  | readv fd iov =>
    simp only [enter,sysReadv,readFrom]
    split
    · exact flowing.failed .ebadf
    · exact flowing.failed .efault
    split
    · exact flowing.failed .einval
    split
    · exact flowing.failed .ebadf
    · exact flowing.readPieces _ pending _ _
  | write fd data =>
    simp only [enter,sysWrite]
    split
    · exact flowing.failed .ebadf
    split
    · exact flowing.failed .ebadf
    split
    · exact flowing.failed .efault
    · exact flowing.writeTo pending _ (fun _ => by simp)
  | writev fd iov memory =>
    simp only [enter,sysWritev,pipeWritev]
    split
    · exact flowing.failed .ebadf
    · exact flowing.failed .efault
    split
    · exact flowing.failed .einval
    split
    · exact flowing.failed .efault
    split
    · exact flowing.failed .ebadf
    split
    · rename_i many
      exact flowing.writeTo pending _ (fun few => absurd few (not_le_of_gt many))
    split
    · exact flowing.still flowing.unmade (le_refl _) rfl (fun _ => rfl) flowing.balanced
        (fun _ _ writes => fewerCalls rfl writes)
    split
    · exact flowing.failed .enomem
    · exact flowing.writeTo pending _ (fun _ => by simp)

end

theorem turnFlowing {s t : Machine} (flowing : Flowing s.dev s.calls) (turn : Calls.Turn device s t) :
    Flowing t.dev t.calls := by
  cases turn with
  | still dev _ calls _ =>
    rw [dev]
    exact flowing.still flowing.unmade (le_refl _) rfl (fun _ => rfl) flowing.balanced
      (fun p w writes => calls p _ writes)
  | entered me q o _ entry result =>
    rw [result,Calls.finishDev,Calls.finishCalls,entry]
    exact flowing.entered (s.pending me) q
  | resumed me call o inside goes result =>
    rw [result,Calls.finishDev,Calls.finishCalls,goes]
    cases call with
    | read r => exact flowing.readPieces r.pipe (s.pending me) r.rest r.got
    | write w => exact flowing.resumeWrite inside (s.pending me)
  | forked me child _ _ dev _ calls =>
    rw [dev,calls]
    refine flowing.still (fun j beyond => flowing.unmade j beyond) (le_refl _) rfl (fun _ => rfl)
      flowing.balanced (fun p w writes => ?_)
    by_cases new : p = child
    · subst new; simp at writes
    · rwa [update_of_ne new] at writes
  | exited me _ dev _ calls =>
    rw [dev,calls]
    exact (flowing.files (s.dev.files.closeAll me).1).released (exitReleased s.dev me) (fun _ _ writes => writes)

theorem bootFlowing (idle) : Flowing (boot idle).dev (boot idle).calls where
  unmade := fun _ _ => ⟨rfl,rfl⟩
  pristine := fun _ _ => rfl
  balanced := fun _ => ⟨rfl,zero_le _⟩
  tagged := fun _ _ here => nomatch here
  placed := fun _ _ _ known => nomatch known
  inside := fun _ _ writes => nomatch writes
  alone := fun _ _ _ _ writes => nomatch writes

def Takes (got : List UInt8) (k : Nat) (d : Pipes) (o : PipeOutcome) : Prop :=
  ∃ bytes, (o.dev.pipe k).taken = (d.pipe k).taken ++ bytes ∧ given o.next = got ++ bytes

def Puts (n k : Nat) (d : Pipes) (o : PipeOutcome) : Prop :=
  (o.dev.pipe k).accepted.length + n = (d.pipe k).accepted.length + counted o.next

def Writes (data : Option (List UInt8)) (k : Nat) (d : Pipes) (o : PipeOutcome) : Prop :=
  Puts 0 k d o ∧ (o.dev.issued = d.issued ∨ ∃ bytes ∈ data, o.dev.issued = d.issued ++ [bytes])

/- What a read gives is what it took out. What a write reports is what it put in, and it is put
down with the bytes it was called with. -/
structure Answers (d : Pipes) (calls : Addr → Option PipeCall) : Prop where
  read : ∀ me pending fd x, d.openFile me fd = some x →
    (∀ len mapped, Takes [] x.object d (d.enter me pending (.read fd len mapped))) ∧
    ∀ iov, Takes [] x.object d (d.enter me pending (.readv fd iov))
  reading : ∀ me pending r, Takes r.got r.pipe d (d.resume me pending (.read r))
  write : ∀ me pending fd x, d.openFile me fd = some x →
    (∀ data, Writes (data.map (take ioMax)) x.object d (d.enter me pending (.write fd data))) ∧
    ∀ iov memory, Writes (iov.bind (fun pieces => (pieces.mapM id).map flatten)) x.object d
      (d.enter me pending (.writev fd iov memory))
  writing : ∀ me pending w, calls me = some (.write w) → Puts (w.before+w.done) w.pipe d (d.resume me pending (.write w))

theorem workPipe (k t) : (d.work k t).dev.pipe k = t.pipe := update_self ..

theorem fillsPuts {k id n data before chunk t} (fills : Fills k id n data before (d.pipe k) chunk t) : Puts n k d (d.work k t) := by
  rw [Puts,workPipe,fills.accepted,fills.counts d,length_append,length_map]
  omega

section

variable (flowing : Flowing d calls)
include flowing

theorem Flowing.takes (k pending) (pieces : List (Nat × Bool)) (got) :
    Takes got k d (d.work k (Miviex.readPieces k pending pieces got (d.pipe k) false)) := by
  obtain ⟨_,_,_,bytes,taken,gives⟩ := readPiecesStream k pending pieces got false (flowing.balanced k)
  exact ⟨bytes,by rw [workPipe,taken],gives d⟩

theorem Flowing.readFrom (pending x pieces) : Takes [] x.object d (d.readFrom pending x pieces) := by
  unfold Pipes.readFrom
  split
  · exact ⟨[],(append_nil _).symm,rfl⟩
  · exact flowing.takes x.object pending pieces []

theorem Flowing.writes {data} (pending x pieces) (called : pieces.flatten ∈ data) :
    Writes data x.object d (d.writeTo pending x pieces) := by
  obtain ⟨chunk,fills⟩ := writePiecesFills x.object d.issued.length pending pieces.flatten [] pieces 0
    (d.pipe x.object) false (flowing.balanced x.object) rfl
  exact ⟨fillsPuts (d := {d with issued := d.issued ++ [pieces.flatten]}) fills,.inr ⟨_,called,rfl⟩⟩

theorem Flowing.writev (pending x pieces memory) : Writes ((pieces.mapM id).map flatten) x.object d
    (d.pipeWritev pending x pieces memory) := by
  unfold pipeWritev
  split
  · exact ⟨rfl,.inl rfl⟩
  rename_i all mapped
  rw [mapped]
  split
  · exact ⟨rfl,.inl rfl⟩
  split
  · exact flowing.writes pending x all rfl
  split
  · exact ⟨rfl,.inl rfl⟩
  split
  · exact ⟨rfl,.inl rfl⟩
  · exact flowing.writes pending x [all.flatten] (congrArg some flatten_singleton.symm)

theorem Flowing.answers : Answers d calls := by
  refine ⟨fun me pending fd x found => ⟨fun len mapped => ?_,fun iov => ?_⟩,
    fun me pending r => flowing.takes r.pipe pending r.rest r.got,
    fun me pending fd x found => ⟨fun data => ?_,fun iov memory => ?_⟩,fun me pending w writes => ?_⟩
  · simp only [enter,sysRead,found]
    exact flowing.readFrom pending x _
  · cases iov <;> simp only [enter,sysReadv,found]
    · exact ⟨[],(append_nil _).symm,rfl⟩
    split
    · exact ⟨[],(append_nil _).symm,rfl⟩
    · exact flowing.readFrom pending x _
  · simp only [enter,sysWrite,found]
    split
    · exact ⟨rfl,.inl rfl⟩
    split
    · exact ⟨rfl,.inl rfl⟩
    · exact flowing.writes pending x _ (congrArg some flatten_singleton.symm)
  · cases iov <;> simp only [enter,sysWritev,found]
    · exact ⟨rfl,.inl rfl⟩
    split
    · exact ⟨rfl,.inl rfl⟩
    · exact flowing.writev pending x _ memory
  obtain ⟨_,unfinished⟩ := flowing.inside me w writes
  obtain ⟨chunk,fills⟩ := resumeWriteFills pending (flowing.balanced w.pipe) unfinished.start unfinished.ahead
  exact fillsPuts fills

end

/- The bytes taken out are a first part of the bytes put in, what is between is in the
buffer, and the bytes of a call with at most PIPE_BUF of them stand in one block. -/
theorem pipeSemantics (idle : Addr) (events : List (Calls.Event PipeRequest)) :
    ∀ s ∈ Runs.visited (step idle) (boot idle) events, Answers s.dev s.calls ∧ ∀ k,
    (s.dev.pipe k).accepted.map Prod.snd = (s.dev.pipe k).taken ++ (s.dev.pipe k).ring.contents pipeSize ∧
    (s.dev.pipe k).ring.len ≤ pipeSize ∧ (∀ x ∈ (s.dev.pipe k).accepted, x.1 < s.dev.issued.length) ∧
    ∀ id data, s.dev.issued[id]? = some data → placedBytes id (s.dev.pipe k).accepted <+: data ∧
    (data.length ≤ pipeBuf → Block id data (s.dev.pipe k).accepted) := by
  intro s reached
  have preserved (s : Machine) e t (flowing : Flowing s.dev s.calls) (taken : step idle s e = some t) :
      Flowing t.dev t.calls :=
    turnFlowing flowing (Calls.stepTurn taken)
  have flowing := Runs.visitedAlways preserved (bootFlowing idle) s reached
  refine ⟨flowing.answers,fun k => ⟨(flowing.balanced k).stream.symm,?_⟩⟩
  exact ⟨(flowing.balanced k).bounded,flowing.tagged k,flowing.placed k⟩

def writeAndRead : List (Calls.Event PipeRequest) :=
  [.kernel (.createUser (some 1) prioUser),.kernel .start,.request (.pipe2 true true false 64),
    .request (.write 1 (some [7,8,9])),.request (.read 0 2 true)]

theorem pipeSemanticsRead : ∃ s ∈ Runs.visited (step 0) (boot 0) writeAndRead, s.answers = [(1,.ends 0 1),(1,.number 3),(1,.bytes [7,8])] ∧
    (s.dev.pipe 0).taken = [7,8] ∧ (s.dev.pipe 0).accepted.map Prod.snd = [7,8] ++ (s.dev.pipe 0).ring.contents pipeSize ∧
    (s.dev.pipe 0).ring.len ≤ pipeSize ∧ placedBytes 0 (s.dev.pipe 0).accepted <+: [7,8,9] ∧
    Block 0 [7,8,9] (s.dev.pipe 0).accepted ∧ Answers s.dev s.calls := by
  have ended : (Runs.run (step 0) (boot 0) writeAndRead).map (fun s => (s.answers,(s.dev.pipe 0).taken,s.dev.issued)) =
    some ([(1,.ends 0 1),(1,.number 3),(1,.bytes [7,8])],[7,8],[[7,8,9]]) := rfl
  obtain ⟨s,seen,same⟩ := Runs.visitedShows ended
  simp only [Prod.mk.injEq] at same
  obtain ⟨answers,taken,issued⟩ := same
  obtain ⟨told,each⟩ := pipeSemantics 0 writeAndRead s seen
  obtain ⟨stream,bounded,_,placed⟩ := each 0
  obtain ⟨inside,block⟩ := placed 0 [7,8,9] (by rw [issued]; rfl)
  exact ⟨s,seen,answers,taken,by rw [← taken]; exact stream,bounded,inside,block (by decide),told⟩

end Pipes
end Miviex
