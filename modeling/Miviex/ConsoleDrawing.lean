import Miviex.ConsoleBounds

/-! In text mode the VGA memory shows the wanted cells after every byte. Between a change of the
cells and the end of the `refresh` that follows it only a range of cells may be out of date. -/
namespace Miviex.Console
open Int IntLoops
open Function (update update_eq_self update_of_ne update_self)

namespace Grid

structure Text (g : Grid) : Prop where
  scr : g.scr = textScreen
  size : g.size = textCols * textRows
  off : g.curRow < 0

theorem Repaints.text {g h} (painted : Repaints g h) (text : Text g) : Text h := by
  refine ⟨painted.scr.trans text.scr,painted.size.trans text.size,?_⟩
  rcases painted.cursor with same | off
  · rw [same.1]
    exact text.off
  · omega

theorem textWordTail {v} (tail : v.ch = vcellTail) : textWord {v with ch := 32} = textWord v := by
  have other : (32 : UInt32) ≠ vcellTail := by decide
  unfold textWord
  rw [tail,if_neg other,if_pos rfl]

theorem touchCells (g : Grid) (b i) :
    (g.touch b i).want = g.want ∧ (g.touch b i).shown = g.shown ∧ (g.touch b i).vga = g.vga := by
  unfold touch
  split <;> exact ⟨rfl,rfl,rfl⟩

theorem drawText {g} (text : Text g) {i} (low : 0 ≤ i) (high : i < textCols * textRows) (v cursor) :
    g.draw (i.tmod g.cols) (i.tdiv g.cols) v cursor = {g with vga := update g.vga i (textWord v)} := by
  have limit : textCols * textRows = 2000 := by decide
  have cols : g.cols = 80 := congrArg Screen.cols text.scr
  have split : i / 80 * 80 + i % 80 = i := by omega
  unfold draw
  rw [congrArg Screen.display text.scr,cols,tmod_eq_emod_of_nonneg low,tdiv_eq_ediv_of_nonneg low]
  show {g with vga := update g.vga (int (i / 80 * 80 + i % 80)) (textWord v)} = _
  rw [split,intSmall (by omega) (by omega)]

structure Draws (g h : Grid) (i : Int) : Prop where
  want : h.want = g.want
  shown : h.shown = update g.shown i (g.want i)
  others : ∀ j, j ≠ i → h.vga j = g.vga j
  same : g.want i = g.shown i → h.vga i = g.vga i
  differs : g.want i ≠ g.shown i → h.vga i = textWord (g.want i)

theorem refreshCellDraws {g} (text : Text g) {i} (low : 0 ≤ i) (high : i < textCols * textRows) :
    Draws g (g.refreshCell i) i := by
  have inside : i < g.size := by rw [text.size]; exact high
  have marked : Text (g.mark i) := ⟨text.scr,text.size,text.off⟩
  have narrow (h : Grid) (ch : UInt32) (same : h.scr = textScreen) : h.wide ch = false := by
    unfold wide
    rw [same]
    rfl
  have written : g.want i ≠ g.shown i → ∀ v, textWord v = textWord (g.want i) →
      Draws g ((g.mark i).draw (i.tmod (g.mark i).cols) (i.tdiv (g.mark i).cols) v false) i := by
    intro other v word
    rw [drawText marked low high v false,word]
    exact ⟨rfl,rfl,fun j apart => update_of_ne apart _ _,fun same => absurd same other,fun _ => update_self _ _ _⟩
  unfold refreshCell
  rw [wantInside low inside,shownInside low inside]
  dsimp only
  split
  · rename_i same
    refine ⟨rfl,?_,fun _ _ => rfl,fun _ => rfl,fun other => absurd same other⟩
    rw [same,update_eq_self]
  rename_i other
  split
  · exact written other _ rfl
  rename_i tail
  have word := textWordTail (not_not.mp tail)
  split
  · exact written other _ word
  rename_i inner
  rw [wantInside (modInside low inner) (show i - 1 < (g.mark i).size from lt_trans (by omega) inside),
    narrow _ _ marked.scr]
  exact written other _ word

structure Drawn (start stop : Int) (g : Grid) : Prop where
  text : Text g
  mirrors : ∀ i, 0 ≤ i → i < textCols * textRows → g.vga i = textWord (g.shown i)
  settled : ∀ i, 0 ≤ i → i < textCols * textRows → ¬ (start ≤ i ∧ i < stop) → g.shown i = g.want i

variable {g h : Grid} {start stop : Int}

theorem Drawn.widen (drawn : Drawn start stop g) {start' stop'}
    (covers : ∀ i, start ≤ i → i < stop → start' ≤ i ∧ i < stop') : Drawn start' stop' g :=
  ⟨drawn.text,drawn.mirrors,fun i low high outside =>
    drawn.settled i low high (fun inside => outside (covers i inside.1 inside.2))⟩

theorem Drawn.all (drawn : Drawn 0 0 g) (start stop) : Drawn start stop g :=
  drawn.widen (fun _ low high => absurd (lt_of_le_of_lt low high) (lt_irrefl 0))

section

variable (drawn : Drawn start stop g)
include drawn

theorem Drawn.changed (painted : Repaints g h) (shown : h.shown = g.shown)
    (vga : h.vga = g.vga) (want : ∀ i, ¬ (start ≤ i ∧ i < stop) → h.want i = g.want i) : Drawn start stop h := by
  refine ⟨painted.text drawn.text,?_,?_⟩
  · rw [vga,shown]
    exact drawn.mirrors
  intro i low high outside
  rw [shown,want i outside]
  exact drawn.settled i low high outside

theorem Drawn.touch (b i) : Drawn start stop (g.touch b i) := by
  obtain ⟨want,shown,vga⟩ := g.touchCells b i
  exact drawn.changed (g.touchRepaints b i) shown vga (fun j _ => by rw [want])

theorem Drawn.setWant {i} (low : start ≤ i) (high : i < stop) (v) : Drawn start stop (g.setWant i v) := by
  refine (drawn.touch .want i).changed ⟨rfl,rfl,Or.inl ⟨rfl,rfl⟩⟩ rfl rfl (fun j outside => ?_)
  have apart : j ≠ i := fun same => outside (by rw [same]; exact ⟨low,high⟩)
  exact update_of_ne apart _ _

theorem Drawn.uncursor : g.uncursor = g := if_neg (not_le.mpr drawn.text.off)

theorem Drawn.refreshCell {i} (low : 0 ≤ i) (high : i < textCols * textRows) :
    Drawn start stop (g.refreshCell i) ∧ (g.refreshCell i).shown i = (g.refreshCell i).want i := by
  have draws := refreshCellDraws drawn.text low high
  have here : (g.refreshCell i).shown i = g.want i := by rw [draws.shown,update_self]
  refine ⟨⟨(refreshCellCalm low (by rw [drawn.text.size]; exact high)).text drawn.text,?_,?_⟩,by rw [here,draws.want]⟩
  · intro j left right
    rcases eq_or_ne j i with same | apart
    · rw [same,here]
      rcases eq_or_ne (g.want i) (g.shown i) with equal | other
      · rw [draws.same equal,equal]
        exact drawn.mirrors i low high
      · exact draws.differs other
    rw [draws.others j apart,draws.shown,update_of_ne apart]
    exact drawn.mirrors j left right
  intro j left right outside
  rw [draws.want]
  rcases eq_or_ne j i with same | apart
  · rw [same,here]
  rw [draws.shown,update_of_ne apart]
  exact drawn.settled j left right outside

theorem Drawn.refresh {first last} (low : 0 ≤ first)
    (high : last ≤ textCols * textRows) : Drawn start stop (g.refresh first last) :=
  forUpKeeps (Drawn start stop) (fun i _ after before kept => (kept.refreshCell (by omega) (by omega)).1) drawn

theorem Drawn.settle (low : 0 ≤ start) (high : stop ≤ textCols * textRows) : Drawn 0 0 (g.refresh start stop) := by
  rcases le_total start stop with ordered | past
  · refine Drawn.widen (forUpReaches (fun i g => Drawn i stop g) ordered ?_ drawn)
      (fun i left right => absurd left (by omega))
    intro i h after before kept
    obtain ⟨next,shown⟩ := kept.refreshCell (show 0 ≤ i by omega) (by omega)
    refine ⟨next.text,next.mirrors,fun j left right outside => ?_⟩
    rcases eq_or_ne j i with same | apart
    · rw [same,shown]
    · exact next.settled j left right (fun inside => outside ⟨by omega,inside.2⟩)
  rw [show g.refresh start stop = g from forUpEmpty past]
  exact drawn.widen (fun i left right => absurd left (by omega))

end

theorem Text.sized (text : Text g) : Sized g := by
  have limit : textCols * textRows = 2000 := by decide
  refine ⟨?_,by rw [text.size]; omega,fun on => absurd on (not_le.mpr text.off)⟩
  unfold cols rows
  rw [text.size,text.scr]
  rfl

section

variable (drawn : Drawn start stop g)
include drawn

theorem Drawn.clearCells {first last} (space) (low : 0 ≤ first)
    (high : last ≤ textCols * textRows) (left : start ≤ first) (right : last ≤ stop) :
    Drawn start stop (g.clearCells space first last) := by
  have filled : Drawn start stop (forUp first last (fun i g => g.setWant i space) g) :=
    forUpKeeps (Drawn start stop) (fun i _ after before kept => kept.setWant (by omega) (by omega) space) drawn
  unfold Grid.clearCells
  dsimp only
  rw [filled.uncursor,ite_self]
  exact filled.refresh low high

theorem Drawn.move {dst src count} (room : 0 ≤ count) (low : start ≤ dst)
    (high : dst+count ≤ stop) (small : count < 2^64) : Drawn start stop (g.move dst src count) := by
  have exactly : count % 2^64 = count := emod_eq_of_lt room small
  unfold Grid.move
  rw [exactly]
  dsimp only
  split
  · exact drawn
  have touched := (((drawn.touch .want src).touch .want (src+count-1)).touch .want dst).touch .want (dst+count-1)
  refine touched.changed ⟨rfl,rfl,Or.inl ⟨rfl,rfl⟩⟩ rfl rfl (fun i outside => ?_)
  exact if_neg (fun inside => outside ⟨by omega,by omega⟩)

theorem Drawn.pull {i} (low : start ≤ i) (high : i < stop) (space n last) :
    Drawn start stop (g.pull space n last i) := by
  unfold Grid.pull
  split
  · exact (drawn.touch .want _).setWant low high _
  · exact drawn.setWant low high space

theorem Drawn.push {i} (low : start ≤ i) (high : i < stop) (space n first) :
    Drawn start stop (g.push space n first i) := by
  unfold Grid.push
  split
  · exact (drawn.touch .want _).setWant low high _
  · exact drawn.setWant low high space

end

section

variable (drawn : Drawn 0 0 g)
include drawn

theorem Drawn.put {i} (low : 0 ≤ i) (high : i < textCols * textRows) (space v) :
    Drawn 0 0 (g.put space i v) := by
  have limit : textCols * textRows = 2000 := by decide
  have head : Drawn (g.blankHead space i v).2 (i+1) (g.blankHead space i v).1 ∧ 0 ≤ (g.blankHead space i v).2 ∧
      (g.blankHead space i v).2 ≤ i := by
    have touched := (drawn.all (i-1) (i+1)).touch .want i
    unfold blankHead
    dsimp only
    split
    · rename_i tail
      have before := modInside low (show i.tmod (g.touch .want i).cols ≠ 0 by omega)
      exact ⟨touched.setWant (le_refl _) (by omega) space,before,by omega⟩
    · exact ⟨(drawn.all i (i+1)).touch .want i,low,le_refl i⟩
  unfold Grid.put
  rw [drawn.uncursor,ite_self]
  dsimp only
  generalize g.blankHead space i v = k at head
  obtain ⟨drawnHead,before,after⟩ := head
  have narrow : k.1.blankTail space i v = (k.1,i+1) := by
    unfold blankTail wide
    rw [drawnHead.text.scr,intSmall (by omega) (by omega)]
    exact if_neg (fun tail => absurd tail.1 Bool.false_ne_true)
  rw [narrow]
  exact (drawnHead.setWant after (by omega) v).settle before (by omega)

theorem Drawn.clear (space) (low : 0 ≤ start) (high : stop ≤ textCols * textRows) :
    Drawn 0 0 (g.clearCells space start stop) := by
  have filled : Drawn start stop (forUp start stop (fun i g => g.setWant i space) g) :=
    forUpKeeps (Drawn start stop)
      (fun i _ after before kept => kept.setWant after before space) (drawn.all start stop)
  unfold Grid.clearCells
  dsimp only
  rw [filled.uncursor,ite_self]
  exact filled.settle low high

theorem Drawn.shiftLines {top bottom n} (space) (low : 0 ≤ top)
    (high : bottom ≤ g.rows) (up : n ≤ bottom-top) (down : -n ≤ bottom-top) (some : n ≠ 0) :
    Drawn 0 0 (g.shiftLines space top bottom n) := by
  obtain ⟨dst,src,count,start,stop,h,room,into,intoEnd,out,outEnd,first,last,made,form⟩ :=
    shiftLinesForm drawn.text.sized space low high up down some
  have above := drawn.text.sized.lines low (by omega)
  have below := drawn.text.sized.lines (show 0 ≤ bottom by omega) high
  have size := drawn.text.size
  have small := drawn.text.sized.small
  have cleared : Grid.Drawn (top * g.cols) (bottom * g.cols) h := by
    rw [made,drawn.uncursor]
    exact ((drawn.all _ _).move room into intoEnd (by omega)).clearCells space (by omega) (by omega) first last
  have cols : h.cols = g.cols := congrArg Screen.cols (cleared.text.scr.trans drawn.text.scr.symm)
  rw [form,cols,above.2.2,below.2.2]
  exact cleared.settle above.1 (by omega)

theorem Drawn.delete (space n) (low : 0 ≤ start) (high : stop ≤ textCols * textRows) :
    Drawn 0 0 (g.delete space n start stop) := by
  unfold Grid.delete
  rw [drawn.uncursor]
  have pulled : Drawn start stop (forUp start stop (fun i g => g.pull space n stop i) g) :=
    forUpKeeps (Drawn start stop) (fun i _ low high kept => kept.pull low high space n stop) (drawn.all _ _)
  exact pulled.settle low high

theorem Drawn.insert (space n) (low : 0 ≤ start) (high : stop ≤ textCols * textRows) (more : 0 < stop) :
    Drawn 0 0 (g.insert space n start stop) := by
  have limit : textCols * textRows = 2000 := by decide
  unfold Grid.insert
  rw [drawn.uncursor,intSmall (by omega) (by omega)]
  have pushed : Drawn start stop (forDown (stop-1) start (fun i g => g.push space n start i) g) :=
    forDownKeeps (Drawn start stop) (fun i _ high low kept => kept.push low (by omega) space n start)
      (drawn.all _ _)
  exact pushed.settle low high

end

theorem Paints.drawn {calm} (paints : Paints calm g h) (drawn : Drawn 0 0 g) : Drawn 0 0 h := by
  induction paints with
  | still g => exact drawn
  | clear space low high => exact drawn.clear space low (drawn.text.size ▸ high)
  | shift space low high up down some => exact drawn.shiftLines space low high up down some
  | put space v low high => exact drawn.put low (drawn.text.size ▸ high) space v
  | delete space low high => exact drawn.delete space _ low (drawn.text.size ▸ high)
  | insert space low high more => exact drawn.insert space _ low (drawn.text.size ▸ high) more
  | next _ _ first second => exact second (first drawn)

end Grid

open Grid (Drawn)

structure Shows (s : Console) : Prop where
  placed : Placed s
  drawn : Drawn 0 0 s.grid

section

variable {s t : Console}

section

variable (shows_ : Shows s)
include shows_

theorem Shows.size : s.grid.size = textCols * textRows := shows_.drawn.text.size

theorem Shows.putcNow (c) : Shows (s.putcNow c) :=
  have turn := putcNowTurn shows_.placed c
  ⟨turn.placed,turn.paints.drawn shows_.drawn⟩

theorem Shows.settle : Shows s.settle := by
  refine ⟨(settlePlaced shows_.placed).1,?_⟩
  unfold Console.settle placeCursor
  rw [shows_.drawn.text.scr]
  split <;> exact shows_.drawn

theorem Shows.event {e} (taken : s.event e = some t) : Shows t := by
  have placed := (eventPlaced shows_.placed taken).1
  cases e with
  | putc c =>
    cases Option.some.inj taken
    exact (shows_.putcNow c).settle
  | replied =>
    simp only [Console.event] at taken
    split at taken
    · cases taken
    cases Option.some.inj taken
    have returned : Shows {s with inReply := s.inReply-1, state := .normal} := ⟨shows_.placed.returned,shows_.drawn⟩
    exact returned.settle
  | setReply =>
    cases Option.some.inj taken
    exact ⟨placed,shows_.drawn⟩
  | elsewhere beyond =>
    cases Option.some.inj taken
    refine ⟨placed,⟨shows_.drawn.text.scr,shows_.size,shows_.drawn.text.off⟩,shows_.drawn.mirrors,?_⟩
    intro i low high outside
    show s.grid.shown i = if within s.grid i then s.grid.want i else beyond i
    rw [if_pos ⟨low,by rw [shows_.size]; exact high⟩]
    exact shows_.drawn.settled i low high outside

end

end

/- At boot no cell is shown. The cells from `i` on are still those of the zeroed grids, and
none that is wanted is like them, so clearing the screen draws them all. -/
structure Booting (space : Cell) (i : Int) (g : Grid) : Prop where
  text : g.Text
  shown : ∀ j, 0 ≤ j → j < i → g.shown j = g.want j ∧ g.vga j = textWord (g.shown j)
  left : ∀ j, i ≤ j → j < textCols * textRows → g.want j = space ∧ g.shown j = ⟨0,0,0⟩

theorem Booting.turn {space i g} (other : space ≠ ⟨0,0,0⟩) (low : 0 ≤ i)
    (high : i < textCols * textRows) (booting : Booting space i g) : Booting space (i+1) (g.refreshCell i) := by
  have draws := Grid.refreshCellDraws booting.text low high
  obtain ⟨wants,zero⟩ := booting.left i (le_refl i) high
  have differs : g.want i ≠ g.shown i := by rw [wants,zero]; exact other
  refine ⟨(Grid.refreshCellCalm low (by rw [booting.text.size]; exact high)).text booting.text,?_,?_⟩
  · intro j nonneg below
    rcases eq_or_ne j i with same | apart
    · rw [same,draws.want,draws.differs differs,draws.shown,update_self]
      exact ⟨rfl,rfl⟩
    rw [draws.want,draws.others j apart,draws.shown,update_of_ne apart]
    exact booting.shown j nonneg (by omega)
  intro j after below
  rw [draws.want,draws.shown,update_of_ne (by omega)]
  exact booting.left j (by omega) below

def Filled (space : Cell) (shown : Int → Cell) (i : Int) (g : Grid) : Prop :=
  g.Text ∧ g.shown = shown ∧ ∀ j, 0 ≤ j → j < i → g.want j = space

theorem Filled.turn {space shown i g} (filled : Filled space shown i g) : Filled space shown (i+1) (g.setWant i space) := by
  obtain ⟨text,same,want⟩ := filled
  obtain ⟨sameWant,sameShown,_⟩ := g.touchCells .want i
  refine ⟨(g.setWantRepaints i space).text text,sameShown.trans same,fun j nonneg below => ?_⟩
  show update (g.touch .want i).want i space j = space
  rcases eq_or_ne j i with here | apart
  · rw [here,update_self]
  rw [update_of_ne apart,sameWant]
  exact want j nonneg (by omega)

theorem filledBooting (vga : Int → UInt16) (beyond : Int → Cell) (space) :
    Booting space 0 (forUp 0 (textCols * textRows) (fun i g => g.setWant i space) (boot vga beyond).grid) := by
  have entry : Filled space (boot vga beyond).grid.shown 0 (boot vga beyond).grid :=
    ⟨⟨rfl,rfl,show (-1 : Int) < 0 by decide⟩,rfl,fun j low high => absurd low (by omega)⟩
  obtain ⟨text,shown,want⟩ := forUpReaches (Filled space (boot vga beyond).grid.shown)
    (show (0 : Int) ≤ textCols * textRows by decide) (fun _ _ _ _ filled => filled.turn) entry
  refine ⟨text,fun j low high => absurd low (by omega),fun j low high => ⟨want j low high,?_⟩⟩
  rw [shown]
  exact if_pos ⟨low,high⟩

theorem Booting.drawn {space g} (other : space ≠ ⟨0,0,0⟩) (booting : Booting space 0 g) :
    Drawn 0 0 (g.refresh 0 (textCols * textRows)) := by
  have done : Booting space (textCols * textRows) (g.refresh 0 (textCols * textRows)) :=
    forUpReaches (Booting space) (show (0 : Int) ≤ textCols * textRows by decide)
      (fun i g low high booting => booting.turn other low high) booting
  exact ⟨done.text,fun i low high => (done.shown i low high).2,fun i low high _ => (done.shown i low high).1⟩

theorem placeCursorText {s : Console} (text : s.grid.scr = textScreen) : s.placeCursor.grid = s.grid := by
  unfold placeCursor
  rw [text]
  rfl

theorem clearedShows (vga : Int → UInt16) (beyond : Int → Cell) : Shows (boot vga beyond).terminalClear := by
  refine ⟨(terminalClearPlaced (bootPlaced vga beyond)).1,?_⟩
  have other : (boot vga beyond).space ≠ ⟨0,0,0⟩ := show Pen.blank {} 32 ≠ ⟨0,0,0⟩ by decide
  have total : (boot vga beyond).total = textCols * textRows := show int (textCols * textRows) = _ by decide
  have cleared := Grid.clearCellsCalm (bootPlaced vga beyond).sized (boot vga beyond).space (le_refl 0) (le_of_eq total)
  have booting := filledBooting vga beyond (boot vga beyond).space
  unfold terminalClear
  rw [placeCursorText (s := {(boot vga beyond).clearCells 0 (boot vga beyond).total with row := 0, col := 0}) cleared.scr]
  unfold clearCells Grid.clearCells
  dsimp only
  rw [total,if_neg (fun on => absurd on.1 (not_le.mpr booting.text.off))]
  exact booting.drawn other

theorem textScreenShows (vga : Int → UInt16) (beyond : Int → Cell) (events : List Event) :
    ∀ s ∈ Runs.visited event (boot vga beyond).terminalClear events, ∀ i, 0 ≤ i → i < textCols * textRows →
    s.grid.shown i = s.grid.want i ∧ s.grid.vga i = textWord (s.grid.want i) := by
  intro s reached i low high
  have shows_ : Shows s := Runs.visitedAlways (fun _ _ _ shows_ taken => shows_.event taken)
    (clearedShows vga beyond) s reached
  have settled := shows_.drawn.settled i low high (by omega)
  exact ⟨settled,by rw [shows_.drawn.mirrors i low high,settled]⟩

theorem letterShown : let s := (boot (fun _ => 0) (fun _ => ⟨0,0,0⟩)).terminalClear.vgaPutc 97
    s.grid.shown 0 = s.grid.want 0 ∧ s.grid.vga 0 = textWord (s.grid.want 0) :=
  textScreenShows (fun _ => 0) (fun _ => ⟨0,0,0⟩) [.putc 97] _
    (List.mem_cons_of_mem _ (List.mem_cons_self)) 0 (by decide) (by decide)

end Miviex.Console
