import Mathlib.Tactic.Linarith
import Mathlib.Tactic.Ring
import Miviex.Console
import Miviex.Runs

/-! Where the terminal emulator reads and writes its grids: the indices stay inside unless
deleting characters adds a count that passes the largest int. -/
namespace Miviex.Console
open Int Runs IntLoops Grid

theorem intSmall {x} (low : -2^31 ≤ x) (high : x < 2^31) : int x = x := by
  unfold int
  omega

theorem intRange (x) : -2^31 ≤ int x ∧ int x < 2^31 := by
  unfold int
  omega

theorem intPast {x} (low : 2^31 ≤ x) (high : x < 2^32+2^31) : int x = x-2^32 := by
  unfold int
  omega

theorem clampRange {v lo hi} (ordered : lo ≤ hi) : lo ≤ clamp v lo hi ∧ clamp v lo hi ≤ hi := by
  unfold clamp
  split
  · omega
  · split <;> omega

theorem linesInside {r rows cols : Int} (low : 0 ≤ r) (high : r ≤ rows) (wide : 0 ≤ cols) :
    0 ≤ r * cols ∧ r * cols ≤ cols * rows := by
  constructor <;> nlinarith

theorem cellInside {r c rows cols : Int} (low : 0 ≤ r) (high : r < rows) (left : 0 ≤ c) (right : c < cols) :
    0 ≤ r * cols + c ∧ r * cols + c < (r+1) * cols ∧ (r+1) * cols ≤ cols * rows := by
  refine ⟨?_,?_,?_⟩ <;> nlinarith

namespace Grid

def delete (g : Grid) (space : Cell) (n start stop : Int) : Grid :=
  (forUp start stop (fun i g => g.pull space n stop i) g.uncursor).refresh start stop

def insert (g : Grid) (space : Cell) (n start stop : Int) : Grid :=
  (forDown (int (stop-1)) start (fun i g => g.push space n start i) g.uncursor).refresh start stop

/- What one byte may do to the grid. Deleting characters stays inside it if `calm`. -/
inductive Paints (calm : Prop) : Grid → Grid → Prop
  | still (g) : Paints calm g g
  | clear {g start stop} (space) (low : 0 ≤ start) (high : stop ≤ g.size) : Paints calm g (g.clearCells space start stop)
  | shift {g top bottom n} (space) (low : 0 ≤ top) (high : bottom ≤ g.rows) (up : n ≤ bottom-top)
      (down : -n ≤ bottom-top) (some : n ≠ 0) : Paints calm g (g.shiftLines space top bottom n)
  | put {g i} (space v) (low : 0 ≤ i) (high : i < g.size) : Paints calm g (g.put space i v)
  | delete {g n start stop} (space) (low : 0 ≤ start) (high : stop ≤ g.size) (some : 0 ≤ n)
      (short : calm → stop - 1 + n < 2^31) : Paints calm g (g.delete space n start stop)
  | insert {g n start stop} (space) (low : 0 ≤ start) (high : stop ≤ g.size) (more : 0 < stop) (some : 0 ≤ n)
      (short : n < 2^31) : Paints calm g (g.insert space n start stop)
  | next {g h k} (first : Paints calm g h) (second : Paints calm h k) : Paints calm g k

structure Repaints (g h : Grid) : Prop where
  scr : h.scr = g.scr
  size : h.size = g.size
  cursor : h.curRow = g.curRow ∧ h.curCol = g.curCol ∨ h.curRow = -1

theorem Repaints.refl (g : Grid) : Repaints g g := ⟨rfl,rfl,Or.inl ⟨rfl,rfl⟩⟩

variable {g h k : Grid} {start stop i n : Int}

theorem Repaints.trans (first : Repaints g h) (second : Repaints h k) : Repaints g k := by
  refine ⟨second.scr.trans first.scr,second.size.trans first.size,?_⟩
  rcases second.cursor with ⟨row,col⟩ | off
  · rw [row,col]
    exact first.cursor
  · exact Or.inr off

structure Calm (g h : Grid) : Prop extends Repaints g h where
  quiet : h.stray = g.stray

theorem Calm.refl (g : Grid) : Calm g g := ⟨Repaints.refl g,rfl⟩

theorem Calm.trans (first : Calm g h) (second : Calm h k) : Calm g k :=
  ⟨first.toRepaints.trans second.toRepaints,second.quiet.trans first.quiet⟩

structure Sized (g : Grid) : Prop where
  size : g.size = g.cols * g.rows
  small : g.size < 2^31
  cursor : 0 ≤ g.curRow → g.curRow < g.rows ∧ 0 ≤ g.curCol ∧ g.curCol < g.cols

theorem Repaints.sized (painted : Repaints g h) (sized : Sized g) : Sized h := by
  have cols : h.cols = g.cols := congrArg Screen.cols painted.scr
  have rows : h.rows = g.rows := congrArg Screen.rows painted.scr
  refine ⟨by rw [painted.size,cols,rows,sized.size],by rw [painted.size]; exact sized.small,fun on => ?_⟩
  rcases painted.cursor with ⟨row,col⟩ | off
  · rw [row,col,cols,rows]
    exact sized.cursor (row ▸ on)
  · omega

theorem touchRepaints (g : Grid) (b : Buffer) (i : Int) : Repaints g (g.touch b i) := by
  unfold touch
  split <;> exact ⟨rfl,rfl,Or.inl ⟨rfl,rfl⟩⟩

theorem setWantRepaints (g : Grid) (i v) : Repaints g (g.setWant i v) :=
  (g.touchRepaints .want i).trans ⟨rfl,rfl,Or.inl ⟨rfl,rfl⟩⟩

theorem drawCalm (g : Grid) (col row v cursor) : Calm g (g.draw col row v cursor) := by
  unfold draw
  split <;> exact ⟨⟨rfl,rfl,Or.inl ⟨rfl,rfl⟩⟩,rfl⟩

section

variable (low : 0 ≤ i)
include low

theorem wantInside (high : i < g.size) : g.touch .want i = g := if_pos ⟨low,high⟩

theorem shownInside (high : i < g.size) : g.touch .shown i = g := if_pos ⟨low,high⟩

theorem paramInside (high : i < maxParams) : g.touch .params i = g := if_pos ⟨low,high⟩

theorem modInside {cols} (inner : i.tmod cols ≠ 0) : 0 ≤ i-1 := by
  have nonzero : i ≠ 0 := by
    intro zero
    rw [zero] at inner
    exact inner (zero_tmod cols)
  omega

theorem refreshCellCalm (high : i < g.size) : Calm g (g.refreshCell i) := by
  have marked : Calm g (g.mark i) := ⟨⟨rfl,rfl,Or.inl ⟨rfl,rfl⟩⟩,rfl⟩
  unfold refreshCell
  rw [wantInside low high,shownInside low high]
  dsimp only
  split
  · exact Calm.refl g
  split
  · exact marked.trans (drawCalm _ _ _ _ _)
  split
  · exact marked.trans (drawCalm _ _ _ _ _)
  rename_i inner
  rw [wantInside (modInside low inner) (show i - 1 < (g.mark i).size from lt_trans (by omega) high)]
  split <;> exact marked.trans (drawCalm _ _ _ _ _)

end

theorem setWantCalm (v) (low : 0 ≤ i) (high : i < g.size) : Calm g (g.setWant i v) := by
  refine ⟨g.setWantRepaints i v,?_⟩
  unfold setWant
  rw [wantInside low high]

theorem loopCalm {body} (turn : ∀ i h, start ≤ i → i < stop → h.size = g.size → Calm h (body i h)) :
    Calm g (forUp start stop body g) :=
  forUpKeeps (Calm g) (fun i h low high kept => kept.trans (turn i h low high kept.size)) (Calm.refl g)

theorem refreshCalm (low : 0 ≤ start) (high : stop ≤ g.size) : Calm g (g.refresh start stop) :=
  loopCalm (fun _ _ _ _ _ => refreshCellCalm (by omega) (by omega))

theorem blankHeadCalm (space v) (low : 0 ≤ i) (high : i < g.size) :
    Calm g (g.blankHead space i v).1 ∧ 0 ≤ (g.blankHead space i v).2 := by
  unfold blankHead
  rw [wantInside low high]
  dsimp only
  split
  · rename_i head
    have before := modInside low (show i.tmod g.cols ≠ 0 by omega)
    exact ⟨setWantCalm space before (by omega),before⟩
  · exact ⟨Calm.refl g,low⟩

section

variable (sized : Sized g)
include sized

theorem Sized.cursorInside (on : 0 ≤ g.curRow) : 0 ≤ g.cursorAt ∧ g.cursorAt < g.size := by
  obtain ⟨row,left,right⟩ := sized.cursor on
  have inside := cellInside on row left right
  have size := sized.size
  have small := sized.small
  unfold cursorAt
  rw [intSmall (by omega) (by omega)]
  omega

theorem uncursorCalm : Calm g g.uncursor := by
  unfold uncursor
  split
  · rename_i on
    obtain ⟨low,high⟩ := sized.cursorInside on
    rw [shownInside low high]
    exact (drawCalm _ _ _ _ _).trans ⟨⟨rfl,rfl,Or.inr rfl⟩,rfl⟩
  · exact Calm.refl g

theorem Sized.tailInside (high : i < g.size) (inner : (i+1).tmod g.cols ≠ 0) : i+1 < g.size := by
  have other : i+1 ≠ g.size := by
    intro last
    rw [last,sized.size] at inner
    exact inner (mul_tmod_right _ _)
  omega

theorem blankTailCalm (space v) (low : 0 ≤ i) (high : i < g.size) :
    Calm g (g.blankTail space i v).1 ∧ (g.blankTail space i v).2 ≤ g.size := by
  have small := sized.small
  unfold blankTail
  rw [intSmall (show -2^31 ≤ i + 1 by omega) (by omega)]
  split
  · rename_i tail
    have inside := sized.tailInside high tail.2.2
    rw [wantInside (by omega) inside,intSmall (show -2^31 ≤ i + 2 by omega) (by omega)]
    dsimp only
    split
    · exact ⟨setWantCalm space (by omega) inside,by omega⟩
    · exact ⟨Calm.refl g,by omega⟩
  · exact ⟨Calm.refl g,by omega⟩

theorem putCalm (space v) (low : 0 ≤ i) (high : i < g.size) : Calm g (g.put space i v) := by
  unfold put
  have first : Calm g (if i = g.cursorAt then g.uncursor else g) := by
    split
    · exact uncursorCalm sized
    · exact Calm.refl g
  generalize (if i = g.cursorAt then g.uncursor else g) = h at first
  have head := blankHeadCalm space v low (show i < h.size by rw [first.size]; exact high)
  dsimp only
  generalize h.blankHead space i v = k at head
  have started := first.trans head.1
  have tail := blankTailCalm (started.sized sized) space v low (show i < k.1.size by rw [started.size]; exact high)
  generalize k.1.blankTail space i v = l at tail
  have blanked := started.trans tail.1
  have written := blanked.trans (setWantCalm v low (by rw [blanked.size]; exact high))
  exact written.trans (refreshCalm head.2 (by rw [written.size,← started.size]; exact tail.2))

theorem clearCellsCalm (space) (low : 0 ≤ start)
    (high : stop ≤ g.size) : Calm g (g.clearCells space start stop) := by
  have filled : Calm g (forUp start stop (fun i g => setWant g i space) g) :=
    loopCalm (fun _ _ _ _ _ => setWantCalm space (by omega) (by omega))
  unfold clearCells
  generalize forUp start stop (fun i g => setWant g i space) g = h at filled
  have hidden : Calm g (if 0 ≤ h.curRow ∧ start ≤ h.cursorAt ∧ h.cursorAt < stop then h.uncursor else h) := by
    split
    · exact filled.trans (uncursorCalm (filled.sized sized))
    · exact filled
  exact hidden.trans (refreshCalm low (by rw [hidden.size]; exact high))

end

theorem moveCalm {dst src count} (fits : g.size < 2^31) (some : 0 ≤ count) (into : 0 ≤ dst)
    (intoEnd : dst+count ≤ g.size) (out : 0 ≤ src) (outEnd : src+count ≤ g.size) : Calm g (g.move dst src count) := by
  have exact_ : count % 2^64 = count := emod_eq_of_lt some (by omega)
  unfold move
  rw [exact_]
  dsimp only
  split
  · exact Calm.refl g
  have srcFirst : g.touch .want src = g := wantInside out (by omega)
  have srcLast : g.touch .want (src+count-1) = g := wantInside (by omega) (by omega)
  have dstFirst : g.touch .want dst = g := wantInside into (by omega)
  have dstLast : g.touch .want (dst+count-1) = g := wantInside (by omega) (by omega)
  rw [srcFirst,srcLast,dstFirst,dstLast]
  exact ⟨⟨rfl,rfl,Or.inl ⟨rfl,rfl⟩⟩,rfl⟩

theorem pullRepaints (g : Grid) (space n stop i) : Repaints g (g.pull space n stop i) := by
  unfold pull
  split
  · exact (g.touchRepaints .want _).trans (setWantRepaints _ _ _)
  · exact g.setWantRepaints i space

theorem pullCalm (space) (low : 0 ≤ i) (high : i < stop) (fits : stop ≤ g.size)
    (some : 0 ≤ n) (short : i+n < 2^31) : Calm g (g.pull space n stop i) := by
  unfold pull
  rw [intSmall (by omega) short]
  split
  · rw [wantInside (by omega) (by omega)]
    exact setWantCalm _ low (by omega)
  · exact setWantCalm space low (by omega)

theorem pushCalm (space) (low : 0 ≤ start) (after : start ≤ i) (high : i < g.size)
    (small : g.size < 2^31) (some : 0 ≤ n) (short : n < 2^31) : Calm g (g.push space n start i) := by
  unfold push
  rw [intSmall (by omega) (by omega)]
  split
  · rw [wantInside (by omega) (by omega)]
    exact setWantCalm _ (by omega) high
  · exact setWantCalm space (by omega) high

section

variable (sized : Sized g)
include sized

theorem Sized.lines {r} (low : 0 ≤ r) (high : r ≤ g.rows) :
    0 ≤ r * g.cols ∧ r * g.cols ≤ g.size ∧ int (r * g.cols) = r * g.cols := by
  have wide : 0 ≤ g.cols := le_trans (by decide) g.scr.wide.1
  have inside := linesInside low high wide
  have size := sized.size
  have small := sized.small
  exact ⟨inside.1,by omega,intSmall (by omega) (by omega)⟩

theorem shiftLinesForm {top bottom} (space) (low : 0 ≤ top)
    (high : bottom ≤ g.rows) (up : n ≤ bottom-top) (down : -n ≤ bottom-top) (some : n ≠ 0) :
    ∃ dst src count start stop h, 0 ≤ count ∧ top * g.cols ≤ dst ∧ dst + count ≤ bottom * g.cols ∧
    top * g.cols ≤ src ∧ src + count ≤ bottom * g.cols ∧ top * g.cols ≤ start ∧ stop ≤ bottom * g.cols ∧
    h = (g.uncursor.move dst src count).clearCells space start stop ∧
    g.shiftLines space top bottom n = h.refresh (int (top * h.cols)) (int (bottom * h.cols)) := by
  have exactly r (a : 0 ≤ r) (b : r ≤ g.rows) : int (r * g.cols) = r * g.cols := (sized.lines a b).2.2
  have order a b (le : a ≤ b) : a * g.cols ≤ b * g.cols :=
    mul_le_mul_of_nonneg_right le (le_trans (by decide) g.scr.wide.1)
  have length k (nonneg : 0 ≤ k) (below : k ≤ bottom-top) :
      int (int ((bottom-top) * g.cols) - k * g.cols) = (bottom-top-k) * g.cols := by
    rw [exactly (bottom-top) (by omega) (by omega),← sub_mul]
    exact exactly (bottom-top-k) (by omega) (by omega)
  have sums k : top * g.cols + (bottom-top-k) * g.cols = (bottom-k) * g.cols ∧
      (top+k) * g.cols + (bottom-top-k) * g.cols = bottom * g.cols := by
    constructor <;> ring
  unfold shiftLines
  dsimp only
  split
  · refine ⟨top * g.cols,(top+n) * g.cols,(bottom-top-n) * g.cols,(bottom-n) * g.cols,bottom * g.cols,_,
      (sized.lines (by omega) (by omega)).1,le_refl _,?_,order _ _ (by omega),?_,order _ _ (by omega),le_refl _,
      rfl,?_⟩
    · rw [(sums n).1]
      exact order _ _ (by omega)
    · rw [(sums n).2]
    rw [length n (by omega) up,exactly top low (by omega),exactly (top+n) (by omega) (by omega),
      exactly (bottom-n) (by omega) (by omega),exactly bottom (by omega) high]
  rw [if_pos (by omega)]
  refine ⟨(top + -n) * g.cols,top * g.cols,(bottom-top - -n) * g.cols,top * g.cols,(top + -n) * g.cols,_,
    (sized.lines (by omega) (by omega)).1,order _ _ (by omega),?_,le_refl _,?_,le_refl _,order _ _ (by omega),rfl,?_⟩
  · rw [(sums (-n)).2]
  · rw [(sums (-n)).1]
    exact order _ _ (by omega)
  rw [length (-n) (by omega) down,exactly top low (by omega),exactly (top + -n) (by omega) (by omega)]

theorem shiftLinesCalm {top bottom} (space) (low : 0 ≤ top)
    (high : bottom ≤ g.rows) (up : n ≤ bottom-top) (down : -n ≤ bottom-top) (some : n ≠ 0) :
    Calm g (g.shiftLines space top bottom n) := by
  obtain ⟨dst,src,count,start,stop,h,room,into,intoEnd,out,outEnd,first,last,made,form⟩ :=
    shiftLinesForm sized space low high up down some
  have above := sized.lines low (by omega)
  have below := sized.lines (by omega) high
  have small := sized.small
  have off := uncursorCalm sized
  have moved := off.trans (moveCalm (by rw [off.size]; exact small) room (show 0 ≤ dst by omega) (by rw [off.size]; omega)
    (show 0 ≤ src by omega) (by rw [off.size]; omega))
  have cleared : Calm g h := by
    rw [made]
    exact moved.trans (clearCellsCalm (moved.sized sized) space (by omega) (by rw [moved.size]; omega))
  rw [form,show h.cols = g.cols from congrArg Screen.cols cleared.scr,above.2.2,below.2.2]
  exact cleared.trans (refreshCalm above.1 (by rw [cleared.size]; exact below.2.1))

theorem deleteRepaints (space n) (low : 0 ≤ start) (high : stop ≤ g.size) :
    Repaints g (g.delete space n start stop) ∧ (g.delete space n start stop).stray =
    (forUp start stop (fun i g => g.pull space n stop i) g.uncursor).stray := by
  have pulled : Repaints g (forUp start stop (fun i g => g.pull space n stop i) g.uncursor) :=
    forUpKeeps (Repaints g) (fun i h _ _ kept => kept.trans (h.pullRepaints space n stop i))
      (uncursorCalm sized).toRepaints
  have drawn := refreshCalm low (show stop ≤ _ by rw [pulled.size]; exact high)
  exact ⟨pulled.trans drawn.toRepaints,drawn.quiet⟩

theorem deleteCalm (space) (low : 0 ≤ start) (high : stop ≤ g.size) (some : 0 ≤ n)
    (short : stop-1+n < 2^31) : (g.delete space n start stop).stray = g.stray := by
  have off := uncursorCalm sized
  have size := off.size
  rw [(deleteRepaints sized space n low high).2,← off.quiet]
  exact (loopCalm (fun i h after before same => pullCalm space (by omega) before (by omega) some (by omega))).quiet

theorem insertCalm (space) (low : 0 ≤ start) (high : stop ≤ g.size) (more : 0 < stop) (some : 0 ≤ n)
    (short : n < 2^31) : Calm g (g.insert space n start stop) := by
  have small := sized.small
  have pushed : Calm g (forDown (int (stop-1)) start (fun i g => g.push space n start i) g.uncursor) := by
    rw [intSmall (by omega) (by omega)]
    refine forDownKeeps (Calm g) (fun i h before after kept => kept.trans ?_) (uncursorCalm sized)
    have size := kept.size
    exact pushCalm space low after (by omega) (by omega) some short
  exact pushed.trans (refreshCalm low (by rw [pushed.size]; exact high))

theorem Paints.repaints {calm} (paints : Paints calm g h) : Repaints g h ∧ (calm → h.stray = g.stray) := by
  have quiet {h k} (same : Calm h k) : Repaints h k ∧ (calm → k.stray = h.stray) := ⟨same.toRepaints,fun _ => same.quiet⟩
  induction paints with
  | still g => exact quiet (Calm.refl g)
  | clear space low high => exact quiet (clearCellsCalm sized space low high)
  | shift space low high up down some => exact quiet (shiftLinesCalm sized space low high up down some)
  | put space v low high => exact quiet (putCalm sized space v low high)
  | delete space low high some short =>
    exact ⟨(deleteRepaints sized space _ low high).1,fun calm => deleteCalm sized space low high some (short calm)⟩
  | insert space low high more some short => exact quiet (insertCalm sized space low high more some short)
  | next _ _ first second =>
    obtain ⟨painted,same⟩ := first sized
    obtain ⟨further,still⟩ := second (painted.sized sized)
    exact ⟨painted.trans further,fun calm => (still calm).trans (same calm)⟩

end

end Grid

open Grid (Calm Paints Repaints Sized)

structure Placed (s : Console) : Prop where
  sized : Sized s.grid
  row : 0 ≤ s.row ∧ s.row < s.rows
  col : 0 ≤ s.col ∧ s.col ≤ s.cols
  nparams : 0 ≤ s.nparams ∧ s.nparams ≤ maxParams
  params : ∀ i, -2^31 ≤ s.params i ∧ s.params i < 2^31

section

variable {s t u : Console} {calm : Prop}

structure Turn (calm : Prop) (s t : Console) : Prop where
  placed : Placed t
  paints : Paints calm s.grid t.grid

theorem Turn.next (first : Turn calm s t) (second : Turn calm t u) : Turn calm s u :=
  ⟨second.placed,first.paints.next second.paints⟩

structure Line (s : Console) : Prop where
  start : 0 ≤ s.lineStart
  before : s.lineStart ≤ s.here
  inside : s.here < s.lineEnd
  stop : s.lineEnd ≤ s.grid.size
  total : s.total = s.grid.size
  small : s.grid.size < 2^31
  short : s.cols < 2^30

theorem charWidthRange (s : Console) (u) : s.charWidth u = 1 ∨ s.charWidth u = 2 := by
  unfold charWidth
  split
  · rename_i cells known
    exact s.grid.scr.width cells known u
  · exact Or.inl rfl

theorem newlineCol (s : Console) : s.newline.col = s.col := by
  unfold newline
  dsimp only
  split <;> rfl

variable {i n : Int}

theorem touchParamInside (low : 0 ≤ i) (high : i < maxParams) : s.touchParam i = s := by
  unfold touchParam
  rw [paramInside low high]

theorem setFgForm (s : Console) (choice : Option (Int × Option UInt32)) : ∃ pen, s.setFg choice = {s with pen := pen} := by
  cases choice with
  | none => exact ⟨s.pen,rfl⟩
  | some choice => exact ⟨_,rfl⟩

theorem setBgForm (s : Console) (choice : Option (Int × Option UInt32)) : ∃ pen, s.setBg choice = {s with pen := pen} := by
  cases choice with
  | none => exact ⟨s.pen,rfl⟩
  | some choice => exact ⟨_,rfl⟩

def Recolors (s : Console) (turn : Console × Int) : Prop := (∃ pen, turn.1 = {s with pen := pen}) ∧ 0 ≤ turn.2

theorem Recolors.ite {condition} [Decidable condition] {yes no} (taken : Recolors s yes)
    (other : Recolors s no) : Recolors s (if condition then yes else no) := by
  split
  · exact taken
  · exact other

theorem touchKeeps {g : Grid} (b i) (some : g.stray ≠ []) : (g.touch b i).stray ≠ [] := by
  unfold touch
  split
  · exact some
  · exact List.cons_ne_nil _ _

theorem pullStrays (g : Grid) (space) {stop} (low : 0 ≤ i) (high : i < 2^31) (past : 2^31 ≤ i+n)
    (short : n < 2^31) (ahead : 0 ≤ stop) : (g.pull space n stop i).stray ≠ [] := by
  unfold pull
  rw [intPast past (by omega),if_pos (by omega)]
  refine touchKeeps .want i ?_
  unfold touch
  rw [if_neg (by omega)]
  exact List.cons_ne_nil _ _

def Overruns (s : Console) : Op → Prop
  | .event (.putc c) => s.state = .csi ∧ s.privateSeq = false ∧ c = 80 ∧ 2^31 ≤ s.lineEnd-1+s.count
  | _ => False

instance (s : Console) (op : Op) : Decidable (Overruns s op) := by
  unfold Overruns
  split <;> infer_instance

theorem codeOfByte (c : UInt8) : (Char.ofNat c.toNat).toNat = c.toNat := by
  have small := c.toNat_lt
  have valid : c.toNat.isValidChar := Or.inl (by omega)
  unfold Char.ofNat
  rw [dif_pos valid]
  rfl

def Fits : Op → Prop
  | .setScreen scr _ => scr.cols * scr.rows < 2^31
  | _ => True

instance (op : Op) : Decidable (Fits op) := by
  unfold Fits
  split <;> infer_instance

section

variable (placed : Placed s)
include placed

theorem Placed.moved (painted : Repaints s.grid t.grid) (row : 0 ≤ t.row ∧ t.row < s.rows)
    (col : 0 ≤ t.col ∧ t.col ≤ s.cols) (nparams : t.nparams = s.nparams) (params : t.params = s.params) : Placed t := by
  have cols : t.cols = s.cols := congrArg Screen.cols painted.scr
  have rows : t.rows = s.rows := congrArg Screen.rows painted.scr
  exact ⟨painted.sized placed.sized,by rw [rows]; exact row,by rw [cols]; exact col,
    by rw [nparams]; exact placed.nparams,by rw [params]; exact placed.params⟩

theorem Placed.painted {g} (painted : Repaints s.grid g) : Placed {s with grid := g} :=
  placed.moved painted placed.row placed.col rfl rfl

theorem Placed.turn (paints : Paints calm s.grid t.grid) (row : 0 ≤ t.row ∧ t.row < s.rows)
    (col : 0 ≤ t.col ∧ t.col ≤ s.cols) (nparams : t.nparams = s.nparams) (params : t.params = s.params) : Turn calm s t :=
  ⟨placed.moved (paints.repaints placed.sized).1 row col nparams params,paints⟩

theorem Placed.still : Turn calm s s := ⟨placed,.still _⟩

theorem Placed.goes {row col} (rows : 0 ≤ row ∧ row < s.rows) (cols : 0 ≤ col ∧ col ≤ s.cols) :
    Turn calm s {s with row := row, col := col} :=
  placed.turn (.still _) rows cols rfl rfl

theorem Placed.paint {g} (paints : Paints calm s.grid g) : Turn calm s {s with grid := g} :=
  placed.turn paints placed.row placed.col rfl rfl

theorem Placed.columnInside : 0 ≤ s.column ∧ s.column < s.cols := by
  have col := placed.col
  have wide := s.grid.scr.wide
  unfold column
  split <;> unfold cols at * <;> omega

theorem Placed.line : Line s := by
  have size : s.grid.size = s.cols * s.rows := placed.sized.size
  have small := placed.sized.small
  have high : 2 ≤ s.rows := s.grid.scr.high.1
  obtain ⟨row,below⟩ := placed.row
  obtain ⟨left,right⟩ := placed.columnInside
  have cell := cellInside row below left right
  have first := linesInside row (le_of_lt below) (show 0 ≤ s.cols by omega)
  have short : s.cols < 2^30 := by nlinarith
  have exactStart : s.lineStart = s.row * s.cols := intSmall (by omega) (by omega)
  have exactHere : s.here = s.row * s.cols + s.column := intSmall (by omega) (by omega)
  have exactEnd : s.lineEnd = (s.row+1) * s.cols := intSmall (by omega) (by omega)
  have exactTotal : s.total = s.cols * s.rows := intSmall (by omega) (by omega)
  exact ⟨by omega,by omega,by omega,by omega,by omega,small,short⟩

theorem Placed.countRange : 1 ≤ s.count ∧ s.count < 2^31 := by
  have bound := placed.params 0
  unfold count
  split <;> omega

theorem leaveCursorCalm : Calm s.grid s.leaveCursor := by
  unfold leaveCursor
  split
  · exact uncursorCalm placed.sized
  · exact Calm.refl s.grid

theorem showCursorPlaced : Placed {s with grid := s.showCursor s.leaveCursor} ∧
    (s.showCursor s.leaveCursor).stray = s.grid.stray := by
  obtain ⟨start,before,inside,stop,_,_,_⟩ := placed.line
  have left := leaveCursorCalm placed
  have size := left.size
  unfold showCursor
  rw [shownInside (by omega) (by omega)]
  have drawn := left.trans (s.leaveCursor.drawCalm s.column s.row (s.leaveCursor.shown s.here) true)
  have sized := drawn.sized placed.sized
  have base := placed.painted drawn.toRepaints
  have cols := congrArg Screen.cols drawn.scr
  refine ⟨⟨⟨sized.size,sized.small,fun _ => ⟨base.row.2,placed.columnInside.1,?_⟩⟩,base.row,base.col,
    placed.nparams,placed.params⟩,drawn.quiet⟩
  exact lt_of_lt_of_eq placed.columnInside.2 cols.symm

theorem placeCursorPlaced : Placed s.placeCursor ∧ s.placeCursor.grid.stray = s.grid.stray := by
  have left := leaveCursorCalm placed
  unfold placeCursor
  split
  · exact ⟨⟨placed.sized,placed.row,placed.col,placed.nparams,placed.params⟩,rfl⟩
  split
  · exact showCursorPlaced placed
  · exact ⟨placed.painted left.toRepaints,left.quiet⟩

theorem newlineTurn : Turn calm s s.newline := by
  have row := placed.row
  have high : 2 ≤ s.rows ∧ s.rows < 2^31 := s.grid.scr.high
  unfold newline
  rw [intSmall (show -2^31 ≤ s.row + 1 by omega) (by omega)]
  dsimp only
  split
  · refine placed.turn (.shift _ (le_refl 0) (le_refl _) (show 1 ≤ s.rows - 0 by omega) (show -1 ≤ s.rows - 0 by omega)
      (by decide)) ?_ placed.col rfl rfl
    show 0 ≤ s.rows-1 ∧ s.rows - 1 < s.rows
    omega
  rename_i inner
  have other : s.row+1 ≠ s.rows := inner
  exact placed.goes ⟨by omega,by omega⟩ placed.col

theorem Placed.atStart : Turn calm s {s with col := 0} :=
  placed.goes placed.row ⟨le_refl 0,le_trans (natCast_nonneg 2) s.grid.scr.wide.1⟩

theorem wrapLineTurn {w} (width : w = 1 ∨ w = 2) :
    Turn calm s (s.wrapLine w) ∧ (s.wrapLine w).col + w ≤ (s.wrapLine w).cols := by
  have col := placed.col
  have short := placed.line.short
  have wide : 2 ≤ s.cols := s.grid.scr.wide.1
  unfold wrapLine
  rw [intSmall (by omega) (by omega)]
  split
  · have first : Turn calm s {s with col := 0} := placed.atStart
    have second := first.next (newlineTurn first.placed)
    have same : ({s with col := 0} : Console).newline.cols = s.cols :=
      congrArg Screen.cols (second.paints.repaints placed.sized).1.scr
    refine ⟨second,?_⟩
    rw [newlineCol,same]
    show 0 + w ≤ s.cols
    omega
  · exact ⟨placed.still,by omega⟩

theorem putCharTurn {w} (width : w = 1 ∨ w = 2) (fits : s.col+w ≤ s.cols) (v : Cell) : Turn calm s (s.putChar w v) := by
  have col := placed.col
  have line := placed.line
  have short := line.short
  have small := line.small
  have cell := cellInside placed.row.1 placed.row.2 col.1 (show s.col < s.cols by omega)
  have size : s.grid.size = s.cols * s.rows := placed.sized.size
  have first : Turn calm s (s.put (s.row * s.cols + s.col) v) := placed.paint (.put _ v cell.1 (by omega))
  have painted := (first.paints.repaints placed.sized).1
  unfold putChar
  rw [intSmall (show -2^31 ≤ s.row * s.cols + s.col by omega) (by omega)]
  generalize held : s.put (s.row * s.cols + s.col) v = t at first painted
  have row : t.row = s.row := by rw [← held]; rfl
  have sameCol : t.col = s.col := by rw [← held]; rfl
  have cols : t.cols = s.cols := congrArg Screen.cols painted.scr
  dsimp only
  split
  · rename_i double
    have next := cellInside placed.row.1 placed.row.2 (show 0 ≤ s.col + 1 by omega) (show s.col + 1 < s.cols by omega)
    rw [row,sameCol,cols,intSmall (show -2^31 ≤ s.row * s.cols + s.col + 1 by omega) (by omega)]
    have second : Turn calm t (t.put (s.row * s.cols + s.col + 1) {v with ch := vcellTail}) :=
      first.placed.paint (.put _ _ (by omega) (by rw [painted.size]; omega))
    have same : (t.put (s.row * s.cols + s.col + 1) {v with ch := vcellTail}).cols = t.cols :=
      congrArg Screen.cols (second.paints.repaints first.placed.sized).1.scr
    refine first.next (second.next (second.placed.goes second.placed.row ?_))
    show 0 ≤ int (t.col+w) ∧ int (t.col+w) ≤ _
    rw [same,sameCol,cols,intSmall (by omega) (by omega)]
    omega
  refine first.next (first.placed.goes first.placed.row ?_)
  rw [sameCol,cols,intSmall (by omega) (by omega)]
  omega

theorem printTurn (u) : Turn calm s (s.print u) := by
  have width := s.charWidthRange u
  obtain ⟨wrapped,fits⟩ := wrapLineTurn placed width
  exact wrapped.next (putCharTurn wrapped.placed width fits (s.pen.blank u))

theorem extendedForm (low : 0 ≤ i) : (s.extended i).1 = s ∧ 0 ≤ (s.extended i).2.2 := by
  have bound := placed.nparams
  have inside k (nonneg : 0 ≤ k) (below : i+k < s.nparams) : s.touchParam (i+k) = s :=
    touchParamInside (by omega) (by omega)
  have first : (if i + 2 < s.nparams then s.touchParam (i+1) else s) = s := by
    split
    · exact inside 1 (by decide) (by omega)
    · rfl
  have second : (if i + 4 < s.nparams then s.touchParam (i+1) else s) = s := by
    split
    · exact inside 1 (by decide) (by omega)
    · rfl
  unfold extended
  dsimp only
  rw [first]
  split
  · rename_i indexed
    exact ⟨inside 2 (by decide) indexed.1,natCast_nonneg 2⟩
  rw [second]
  split
  · rename_i direct
    rw [inside 2 (by decide) (by omega),inside 3 (by decide) (by omega),inside 4 (by decide) direct.1]
    exact ⟨rfl,natCast_nonneg 4⟩
  · exact ⟨rfl,le_refl 0⟩

theorem renditionForm (low : 0 ≤ i) (p) : Recolors s (s.rendition i p) := by
  obtain ⟨same,used⟩ := extendedForm placed low
  have front : Recolors s ((s.extended i).1.setFg (s.extended i).2.1,(s.extended i).2.2) := by
    rw [same]
    exact ⟨setFgForm s _,used⟩
  have back : Recolors s ((s.extended i).1.setBg (s.extended i).2.1,(s.extended i).2.2) := by
    rw [same]
    exact ⟨setBgForm s _,used⟩
  have plain : ∀ pen, Recolors s ({s with pen := pen},0) := fun pen => ⟨⟨pen,rfl⟩,le_refl 0⟩
  exact .ite (plain _) <| .ite (plain _) <| .ite (plain _) <| .ite (plain _) <| .ite (plain _) <| .ite (plain _) <|
    .ite front <| .ite (plain _) <| .ite (plain _) <| .ite back <| .ite (plain _) <| .ite (plain _) <|
    .ite (plain _) (plain _)

theorem Placed.repen (pen) : Placed {s with pen := pen} :=
  placed.moved (Repaints.refl _) placed.row placed.col rfl rfl

theorem sgrFromForm (turns) (low : 0 ≤ i) : ∃ pen, sgrFrom turns i s = {s with pen := pen} := by
  induction turns generalizing s i with
  | zero => exact ⟨s.pen,rfl⟩
  | succ turns ih =>
  unfold sgrFrom
  split
  swap
  · exact ⟨s.pen,rfl⟩
  rename_i more
  have bound := placed.nparams
  have inside : i < maxParams := by
    unfold sgrLimit at more
    split at more
    · omega
    · exact lt_of_lt_of_le more (by decide)
  rw [touchParamInside low inside]
  obtain ⟨⟨pen,form⟩,used⟩ := renditionForm placed low (s.params i)
  dsimp only
  rw [form]
  exact ih (placed.repen pen) (by omega)

/- A count that carries the last index past the largest int reads in front of the grid. -/
theorem deleteCharsStrays (short : n < 2^31) (past : 2^31 ≤ s.lineEnd-1+n) :
    (s.deleteChars n).grid.stray ≠ [] := by
  obtain ⟨start,before,inside,stop,_,small,_⟩ := placed.line
  have drawn : (s.deleteChars n).grid.stray = (s.pulled n).stray :=
    (deleteRepaints placed.sized s.space n (by omega) stop).2
  rw [drawn]
  refine @IntLoops.forUpLast Grid (fun i g => g.pull s.space n s.lineEnd i) _ _ _ (fun g => g.stray ≠ []) inside ?_
  intro g
  exact pullStrays g s.space (by omega) (by omega) past short (by omega)

theorem csiTurn {c} (calms : calm → c = 'P' → s.privateSeq = false → s.lineEnd - 1 + s.count < 2^31) :
    Turn calm s (s.csi c) := by
  obtain ⟨start,before,inside,stop,total,small,_⟩ := placed.line
  obtain ⟨some,short⟩ := placed.countRange
  have row := placed.row
  have col := placed.col
  have wide : 2 ≤ s.cols := s.grid.scr.wide.1
  have rows v : 0 ≤ clamp v 0 (s.rows-1) ∧ clamp v 0 (s.rows-1) < s.rows := by
    have range := @clampRange v 0 (s.rows-1) (by omega)
    omega
  have cols v : 0 ≤ clamp v 0 (s.cols-1) ∧ clamp v 0 (s.cols-1) ≤ s.cols := by
    have range := @clampRange v 0 (s.cols-1) (by omega)
    omega
  have clears a b (low : 0 ≤ a) (high : b ≤ s.grid.size) : Turn calm s (s.clearCells a b) :=
    placed.paint (.clear _ low high)
  have shifts top n (low : 0 ≤ top) (other : n ≠ 0) (up : n ≤ s.rows-top) (down : -n ≤ s.rows-top) :
    Turn calm s (s.shiftLines top s.rows n) := placed.paint (.shift _ low (le_refl _) up down other)
  have lines := @clampRange s.count 1 (s.rows-s.row) (by omega)
  have all := @clampRange s.count 1 s.rows (by omega)
  unfold csi
  split
  · split
    · exact placed.turn (.still _) row col rfl rfl
    · exact placed.still
  rename_i plain
  split
  · exact placed.goes (rows _) col
  · exact placed.goes (rows _) col
  · exact placed.goes row (cols _)
  · exact placed.goes row (cols _)
  · exact placed.goes row (cols _)
  · exact placed.goes (rows _) col
  · exact placed.goes (rows _) (cols _)
  · exact placed.goes (rows _) (cols _)
  · rw [total,intSmall (by omega) (by omega)]
    split
    · exact clears _ _ (by omega) (le_refl _)
    split
    · exact clears _ _ (le_refl 0) (by omega)
    · exact clears _ _ (le_refl 0) (le_refl _)
  · rw [intSmall (show -2^31 ≤ s.here + 1 by omega) (by omega)]
    split
    · exact clears _ _ (by omega) stop
    split
    · exact clears _ _ start (by omega)
    · exact clears _ _ start stop
  · refine clears _ _ (by omega) ?_
    split <;> omega
  · exact placed.paint (.delete _ (by omega) stop (by omega) (fun now => calms now rfl (Bool.eq_false_iff.mpr plain)))
  · exact placed.paint (.insert _ (by omega) stop (by omega) (by omega) short)
  · exact shifts _ _ row.1 (by omega) (by omega) (by omega)
  · exact shifts _ _ row.1 (by omega) (by omega) (by omega)
  · exact shifts _ _ (le_refl 0) (by omega) (by omega) (by omega)
  · exact shifts _ _ (le_refl 0) (by omega) (by omega) (by omega)
  · obtain ⟨pen,form⟩ := sgrFromForm placed s.sgrLimit.toNat (le_refl 0)
    unfold sgr
    rw [form]
    exact ⟨placed.repen pen,.still _⟩
  · exact placed.turn (.still _) row col rfl rfl
  · exact placed.goes (rows _) (cols _)
  · split
    · exact placed.turn (.still _) row col rfl rfl
    · exact placed.still
  · exact placed.still

theorem putcEscTurn (c) : Turn calm s (s.putcEsc c) := by
  have line := placed.line
  have wide : 2 ≤ s.cols := s.grid.scr.wide.1
  have row := placed.row
  unfold putcEsc
  split
  · exact ⟨⟨placed.sized,placed.row,placed.col,⟨le_refl 0,natCast_nonneg 16⟩,
      fun _ => ⟨by norm_num,by norm_num⟩⟩,.still _⟩
  split
  · exact placed.turn (.clear _ (le_refl 0) (le_of_eq line.total)) ⟨le_refl 0,show (0 : Int) < s.rows by omega⟩
      ⟨le_refl 0,show (0 : Int) ≤ s.cols by omega⟩ rfl rfl
  split
  · split
    · exact placed.turn (.shift _ (le_refl 0) (le_refl _) (show -1 ≤ s.rows - 0 by omega)
        (show 1 ≤ s.rows - 0 by omega) (by decide)) placed.row placed.col rfl rfl
    rename_i inner
    exact placed.turn (.still _) ⟨show 0 ≤ s.row - 1 by omega,show s.row - 1 < s.rows by omega⟩ placed.col rfl rfl
  · exact placed.turn (.still _) placed.row placed.col rfl rfl

theorem Placed.counted (range : 0 ≤ n ∧ n ≤ maxParams) : Placed {s with nparams := n} :=
  ⟨placed.sized,placed.row,placed.col,range,placed.params⟩

theorem openParamPlaced : Placed s.openParam ∧ 1 ≤ s.openParam.nparams ∧ s.openParam.grid = s.grid := by
  have bound := placed.nparams
  unfold openParam
  split
  · exact ⟨placed.counted (by decide),le_refl 1,rfl⟩
  · exact ⟨placed,by omega,rfl⟩

theorem digitPlaced (some : 1 ≤ s.nparams) (d) : Placed (s.digit d) ∧ (s.digit d).grid = s.grid := by
  have bound := placed.nparams
  unfold digit
  dsimp only
  rw [touchParamInside (by omega) (by omega)]
  refine ⟨⟨placed.sized,placed.row,placed.col,bound,fun i => ?_⟩,rfl⟩
  show -2^31 ≤ Function.update s.params (s.nparams-1) (int (s.params (s.nparams-1) * 10 + d)) i ∧
    Function.update s.params (s.nparams-1) (int (s.params (s.nparams-1) * 10 + d)) i < 2^31
  rcases eq_or_ne i (s.nparams-1) with same | other
  · rw [same,Function.update_self]
    exact intRange _
  rw [Function.update_of_ne other]
  exact placed.params i

theorem putcCsiTurn {c} (calms : calm → c = 80 → s.privateSeq = false → s.lineEnd - 1 + s.count < 2^31) :
    Turn calm s (s.putcCsi c) := by
  obtain ⟨first,some,grid⟩ := openParamPlaced placed
  have same {t : Console} (placed : Placed t) (grid : t.grid = s.grid) : Turn calm s t := ⟨placed,grid ▸ .still _⟩
  unfold putcCsi
  split
  · obtain ⟨next,kept⟩ := digitPlaced first some (c-48).toNat
    exact same next (kept.trans grid)
  split
  · dsimp only
    split
    · exact same (first.counted (by omega)) grid
    · exact same first grid
  split
  · exact placed.turn (.still _) placed.row placed.col rfl rfl
  split
  · have after : Turn calm s (s.csi (Char.ofNat c.toNat)) := by
      refine csiTurn placed (fun now deletes => calms now ?_)
      have code := congrArg Char.toNat deletes
      rw [codeOfByte] at code
      exact UInt8.toNat_inj.mp code
    dsimp only
    split
    · exact after.next (after.placed.turn (.still _) after.placed.row after.placed.col rfl rfl)
    · exact after
  · exact placed.still

theorem putcPlainTurn (c) : Turn calm s (s.putcPlain c) := by
  have row := placed.row
  have col := placed.col
  have short := placed.line.short
  unfold putcPlain
  split
  · exact placed.turn (.still _) row col rfl rfl
  split
  · exact placed.turn (.still _) row col rfl rfl
  split
  · exact newlineTurn placed
  split
  · exact placed.atStart
  split
  · split
    · exact placed.goes row ⟨by omega,by omega⟩
    · exact placed.still
  split
  · rw [intSmall (show -2^31 ≤ s.col + 8 by omega) (by omega)]
    dsimp only
    split
    · have first : Turn calm s {s with col := 0} := placed.atStart
      exact first.next (newlineTurn first.placed)
    · exact placed.goes row ⟨by omega,by omega⟩
  split
  · exact printTurn placed _
  · exact placed.still

theorem putcNowTurn (c) : Turn (¬ Overruns s (.event (.putc c))) s (s.putcNow c) := by
  have utf8 code left : Turn (¬ Overruns s (.event (.putc c))) s {s with utf8 := code, utf8Left := left} :=
    placed.turn (.still _) placed.row placed.col rfl rfl
  unfold putcNow
  split
  · exact putcEscTurn placed c
  · rename_i mode
    refine putcCsiTurn placed (fun calm deletes public_ => ?_)
    by_contra long
    exact calm ⟨mode,public_,deletes,by omega⟩
  split
  · split
    · dsimp only
      split
      · exact (utf8 _ _).next (printTurn (utf8 _ _).placed _)
      · exact utf8 _ _
    have printed := (utf8 s.utf8 0).next (printTurn (utf8 s.utf8 0).placed 0xFFFD)
    exact printed.next (putcPlainTurn printed.placed c)
  · exact putcPlainTurn placed c

theorem settlePlaced : Placed s.settle ∧ s.settle.grid.stray = s.grid.stray := by
  unfold settle
  split
  · exact placeCursorPlaced placed
  · exact ⟨placed,rfl⟩

theorem Placed.returned : Placed {s with inReply := s.inReply-1, state := .normal} :=
  placed.moved (Repaints.refl _) placed.row placed.col rfl rfl

theorem terminalClearPlaced : Placed s.terminalClear ∧ s.terminalClear.grid.stray = s.grid.stray := by
  have high : 2 ≤ s.rows := s.grid.scr.high.1
  have wide : 2 ≤ s.cols := s.grid.scr.wide.1
  have cleared : Turn True s {s.clearCells 0 s.total with row := 0, col := 0} :=
    placed.turn (.clear _ (le_refl 0) (le_of_eq placed.line.total)) ⟨le_refl 0,show (0 : Int) < s.rows by omega⟩
      ⟨le_refl 0,show (0 : Int) ≤ s.cols by omega⟩ rfl rfl
  obtain ⟨shown,quiet⟩ := placeCursorPlaced cleared.placed
  exact ⟨shown,quiet.trans ((cleared.paints.repaints placed.sized).2 trivial)⟩

theorem copiedQuiet (scr : Screen) : (s.copied scr).stray = s.grid.stray := by
  have size : s.grid.size = s.cols * s.rows := placed.sized.size
  have small := placed.sized.small
  have wide : 0 < scr.cols := lt_of_lt_of_le (by decide) scr.wide.1
  refine (loopCalm ?_).quiet
  intro i h low _ same
  split
  · rename_i kept
    have inside := of_decide_eq_true kept
    have cell := cellInside (ediv_nonneg low (le_of_lt wide)) inside.1 (emod_nonneg i (ne_of_gt wide)) inside.2
    have exactly : s.oldIndex scr i = i / scr.cols * s.cols + i % scr.cols := intSmall (by omega) (by omega)
    rw [wantInside (by omega) (by omega)]
    exact Calm.refl h
  · exact Calm.refl h

theorem onScreenPlaced {scr} (fits : scr.cols * scr.rows < 2^31) (beyond : Int → Cell) : Placed (s.onScreen scr beyond) := by
  have wide := scr.wide
  have high := scr.high
  have rows := @clampRange s.row 0 (scr.rows-1) (by omega)
  have cols := @clampRange s.col 0 (scr.cols-1) (by omega)
  refine ⟨⟨rfl,fits,fun on => ?_⟩,⟨rows.1,?_⟩,⟨cols.1,?_⟩,placed.nparams,placed.params⟩
  · exact absurd on (show ¬ (0 : Int) ≤ -1 by decide)
  · show clamp s.row 0 (scr.rows-1) < scr.rows
    omega
  show clamp s.col 0 (scr.cols-1) ≤ scr.cols
  omega

theorem setScreenPlaced {scr} (fits : scr.cols * scr.rows < 2^31) (beyond : Int → Cell) :
    Placed (s.vgaSetScreen scr beyond) ∧ (s.vgaSetScreen scr beyond).grid.stray = s.grid.stray := by
  have fresh := onScreenPlaced placed fits beyond
  have drawn : Calm _ ((s.onScreen scr beyond).grid.refresh 0 (s.onScreen scr beyond).total) :=
    refreshCalm (le_refl 0) (le_of_eq fresh.line.total)
  obtain ⟨shown,quiet⟩ := placeCursorPlaced (fresh.painted drawn.toRepaints)
  exact ⟨shown,quiet.trans (drawn.quiet.trans (copiedQuiet placed scr))⟩

theorem eventPlaced {e} (taken : s.event e = some t) :
    Placed t ∧ (¬ Overruns s (.event e) → t.grid.stray = s.grid.stray) := by
  cases e with
  | putc c =>
    cases Option.some.inj taken
    have turn := putcNowTurn placed c
    obtain ⟨settled,quiet⟩ := settlePlaced turn.placed
    exact ⟨settled,fun calm => quiet.trans ((turn.paints.repaints placed.sized).2 calm)⟩
  | replied =>
    simp only [event] at taken
    split at taken
    · cases taken
    cases Option.some.inj taken
    exact (settlePlaced placed.returned).imp_right (fun quiet _ => quiet)
  | setReply =>
    cases Option.some.inj taken
    exact ⟨placed.moved (Repaints.refl _) placed.row placed.col rfl rfl,fun _ => rfl⟩
  | elsewhere beyond =>
    cases Option.some.inj taken
    exact ⟨placed.moved ⟨rfl,rfl,Or.inl ⟨rfl,rfl⟩⟩ placed.row placed.col rfl rfl,fun _ => rfl⟩

theorem stepPlaced {op} (fits : Fits op) (taken : s.step op = some t) :
    Placed t ∧ (¬ Overruns s op → t.grid.stray = s.grid.stray) := by
  cases op with
  | event e => exact eventPlaced placed taken
  | setScreen scr beyond =>
    cases Option.some.inj taken
    exact (setScreenPlaced placed fits beyond).imp_right (fun quiet _ => quiet)
  | clear =>
    cases Option.some.inj taken
    exact (terminalClearPlaced placed).imp_right (fun quiet _ => quiet)

end

theorem putcDelete (plain : s.privateSeq = false) : (s.putcCsi 80).grid = (s.deleteChars s.count).grid := by
  have deletes : s.csi (Char.ofNat (80 : UInt8).toNat) = s.deleteChars s.count := by
    show s.csi 'P' = _
    simp only [csi,plain,Bool.false_eq_true,if_false]
  unfold putcCsi
  rw [deletes,if_neg (by decide),if_neg (by decide),if_neg (by decide),if_pos (by decide)]
  dsimp only
  split <;> rfl

theorem stepStrays (placed : Placed s) {op} (overruns : Overruns s op) (taken : s.step op = some t) : t.grid.stray ≠ [] := by
  cases op with
  | event e =>
    cases e with
    | putc c =>
      obtain ⟨mode,plain,deletes,past⟩ := overruns
      cases Option.some.inj taken
      show (s.putcNow c).settle.grid.stray ≠ []
      rw [(settlePlaced (putcNowTurn placed c).placed).2]
      have strays := deleteCharsStrays placed placed.countRange.2 past
      have form : (s.putcNow c).grid = (s.deleteChars s.count).grid := by
        rw [deletes]
        simp only [putcNow,mode]
        exact putcDelete plain
      rw [form]
      exact strays
    | replied | setReply | elsewhere => exact overruns.elim
  | setScreen | clear => exact overruns.elim

end

theorem bootPlaced (vga : Int → UInt16) (beyond : Int → Cell) : Placed (boot vga beyond) := by
  have size : textCols * textRows < 2^31 := by decide
  have off : ¬ (0 : Int) ≤ -1 := by decide
  have row : (0 : Int) ≤ 0 ∧ 0 < textRows := by decide
  have col : (0 : Int) ≤ 0 ∧ 0 ≤ textCols := by decide
  have nparams : (0 : Int) ≤ 0 ∧ 0 ≤ maxParams := by decide
  have params : (-2 : Int)^31 ≤ 0 ∧ (0 : Int) < 2^31 := by decide
  exact ⟨⟨rfl,size,fun on => absurd on off⟩,row,col,nparams,fun _ => params⟩

structure InRange (s : Console) : Prop where
  indices : s.grid.stray = []
  row : 0 ≤ s.row ∧ s.row < s.rows
  col : 0 ≤ s.col ∧ s.col ≤ s.cols
  nparams : 0 ≤ s.nparams ∧ s.nparams ≤ maxParams

def Clean (s : Console) : Prop := Placed s ∧ s.grid.stray = []

theorem terminalStaysInside (vga : Int → UInt16) (beyond : Int → Cell) (ops : List Op) (fits : ∀ op ∈ ops, Fits op) :
    (∀ s ∈ visited step (boot vga beyond) ops, InRange s) ↔ ∀ m ∈ moves step (boot vga beyond) ops, ¬ Overruns m.1 m.2 := by
  obtain ⟨visits,moves⟩ := @guardedRun _ _ step (fun _ op => Fits op) _ (boot vga beyond) ops
    (fun m taken => fits m.2 (movesEvent m taken))
  rw [← visits,← moves]
  have start : Clean (boot vga beyond) := ⟨bootPlaced vga beyond,rfl⟩
  refine Runs.visitedIff ?_ ?_ ?_ start
  · rintro s ⟨placed,clean⟩
    exact ⟨clean,placed.row,placed.col,placed.nparams⟩
  · rintro s op t ⟨placed,clean⟩ calm taken
    obtain ⟨fit,answer⟩ := guardSome taken
    obtain ⟨after,quiet⟩ := stepPlaced placed fit answer
    exact ⟨after,(quiet calm).trans clean⟩
  rintro s op t ⟨placed,_⟩ overruns taken ranged
  exact stepStrays placed overruns (guardSome taken).2 ranged.indices

def typed (bytes : List UInt8) : List Op := bytes.map (fun c => .event (.putc c))

def deletesTooMany : List UInt8 := [27,91,50,49,52,55,52,56,51,54,52,55,80]

theorem deletingReadsOutside : (Runs.run step (boot (fun _ => 0) (fun _ => ⟨0,0,0⟩)) (typed deletesTooMany)).any
    (fun s => (Buffer.want,-2147483648) ∈ s.grid.stray) = true := by
  decide +kernel

theorem deletingLeavesTheGrid : ¬ ∀ s ∈ visited step (boot (fun _ => 0) (fun _ => ⟨0,0,0⟩)) (typed deletesTooMany), InRange s :=
  fun inside => absurd ((terminalStaysInside _ _ _ (by decide)).mp inside) (by decide +kernel)

end Miviex.Console
