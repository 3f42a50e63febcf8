import Mathlib.Data.BitVec
import Miviex.IntLoops

/-! The terminal emulator of `vga.c`. An index that leaves the grids reads or writes the memory
next to them, and is noted in `stray`. Arithmetic on ints wraps at 32 bits. -/
namespace Miviex
open IntLoops

open Function (update)

namespace Console

def int (x : Int) : Int := (x+2^31) % 2^32 - 2^31

def textCols : Int := 80
def textRows : Int := 25
def maxParams : Int := 16
def vcellTail : UInt32 := 0xFFFFFFFF

structure Cell where
  ch : UInt32
  fg : UInt32
  bg : UInt32
  deriving DecidableEq

def ansi : List UInt32 :=
  [0x000000,0xAA0000,0x00AA00,0xAA5500,0x0000AA,0xAA00AA,0x00AAAA,0xAAAAAA,
   0x555555,0xFF5555,0x55FF55,0xFFFF55,0x5555FF,0xFF55FF,0x55FFFF,0xFFFFFF]

def ansiVga : List UInt8 := [0,4,2,6,1,5,3,7]

def level : List UInt32 := [0,95,135,175,215,255]

def rgb (r g b : UInt32) : UInt32 := r <<< 16 ||| g <<< 8 ||| b

def palette (i : Int) : UInt32 :=
  if i < 16 then ansi.getD i.toNat 0
  else if i < 232 then
    let j := (i-16).toNat
    rgb (level.getD (j / 36) 0) (level.getD (j / 6 % 6) 0) (level.getD (j % 6) 0)
  else
    let gray := UInt32.ofNat (8 + (i-232) * 10).toNat
    rgb gray gray gray

def channel (color shift : UInt32) : Int := (color >>> shift &&& 0xFF).toNat

def distance (a b : UInt32) : Int :=
  (channel a 16 - channel b 16)^2 + (channel a 8 - channel b 8)^2 + (channel a 0 - channel b 0)^2

def nearest16 (color : UInt32) : UInt8 :=
  let found := (List.range 16).foldl (fun best i =>
    let d := distance color (ansi.getD i 0)
    if best.2 < 0 ∨ d < best.2 then (i,d) else best) (0,(-1 : Int))
  ansiVga.getD (found.1 % 8) 0 ||| UInt8.ofNat (found.1 / 8 * 8)

def cp437 : List UInt32 :=
  [0x00C7,0x00FC,0x00E9,0x00E2,0x00E4,0x00E0,0x00E5,0x00E7,0x00EA,0x00EB,0x00E8,0x00EF,
   0x00EE,0x00EC,0x00C4,0x00C5,0x00C9,0x00E6,0x00C6,0x00F4,0x00F6,0x00F2,0x00FB,0x00F9,
   0x00FF,0x00D6,0x00DC,0x00A2,0x00A3,0x00A5,0x20A7,0x0192,0x00E1,0x00ED,0x00F3,0x00FA,
   0x00F1,0x00D1,0x00AA,0x00BA,0x00BF,0x2310,0x00AC,0x00BD,0x00BC,0x00A1,0x00AB,0x00BB,
   0x2591,0x2592,0x2593,0x2502,0x2524,0x2561,0x2562,0x2556,0x2555,0x2563,0x2551,0x2557,
   0x255D,0x255C,0x255B,0x2510,0x2514,0x2534,0x252C,0x251C,0x2500,0x253C,0x255E,0x255F,
   0x255A,0x2554,0x2569,0x2566,0x2560,0x2550,0x256C,0x2567,0x2568,0x2564,0x2565,0x2559,
   0x2558,0x2552,0x2553,0x256B,0x256A,0x2518,0x250C,0x2588,0x2584,0x258C,0x2590,0x2580,
   0x03B1,0x00DF,0x0393,0x03C0,0x03A3,0x03C3,0x00B5,0x03C4,0x03A6,0x0398,0x03A9,0x03B4,
   0x221E,0x03C6,0x03B5,0x2229,0x2261,0x00B1,0x2265,0x2264,0x2320,0x2321,0x00F7,0x2248,
   0x00B0,0x2219,0x00B7,0x221A,0x207F,0x00B2,0x25A0,0x00A0]

def glyph (u : UInt32) : UInt8 :=
  if u < 0x80 then u.toUInt8
  else match cp437.findIdx? (· == u) with
    | some i => UInt8.ofNat (0x80+i)
    | none => match u.toNat with
      | 0x0151 => 0x94
      | 0x0171 => 0x81
      | 0x0150 => 0x99
      | 0x0170 => 0x9A
      | 0x00C1 => 65
      | 0x00CD => 73
      | 0x00D3 => 79
      | 0x00DA => 85
      | _ => 63

def textWord (v : Cell) : UInt16 :=
  let g := glyph (if v.ch = vcellTail then 32 else v.ch)
  g.toUInt16 ||| ((nearest16 v.fg).toUInt16 ||| (nearest16 v.bg).toUInt16 <<< 4) <<< 8

inductive Display where
  | text
  | frame
  deriving DecidableEq

/- A screen and libfnt's width of a character on it; without `cells` each takes one cell. -/
structure Screen where
  cols : Int
  rows : Int
  display : Display
  cells : Option (UInt32 → Int)
  wide : 2 ≤ cols ∧ cols < 2^31
  high : 2 ≤ rows ∧ rows < 2^31
  width : ∀ f, cells = some f → ∀ u, f u = 1 ∨ f u = 2

def textScreen : Screen where
  cols := textCols
  rows := textRows
  display := .text
  cells := none
  wide := by decide
  high := by decide
  width := by simp

inductive Buffer where
  | want
  | shown
  | params
  deriving DecidableEq

structure Draw where
  col : Int
  row : Int
  cell : Cell
  cursor : Bool
  deriving DecidableEq

/- The two grids, each with room for `size` cells, and what has been drawn: in text mode
the VGA memory, on a framebuffer the calls of its `draw`. -/
structure Grid where
  scr : Screen
  size : Int
  want : Int → Cell
  shown : Int → Cell
  curRow : Int
  curCol : Int
  vga : Int → UInt16
  drawn : List Draw
  stray : List (Buffer × Int)

namespace Grid

def cols (g : Grid) : Int := g.scr.cols
def rows (g : Grid) : Int := g.scr.rows

section

variable (g : Grid)

def room : Buffer → Int
  | .params => maxParams
  | _ => g.size

def touch (b : Buffer) (i : Int) : Grid :=
  if 0 ≤ i ∧ i < g.room b then g else {g with stray := (b,i)::g.stray}

def setWant (i : Int) (v : Cell) : Grid :=
  let g := g.touch .want i
  {g with want := update g.want i v}

def mark (i : Int) : Grid := {g with shown := update g.shown i (g.want i)}

def draw (col row : Int) (v : Cell) (cursor : Bool) : Grid :=
  match g.scr.display with
  | .text => {g with vga := update g.vga (int (row * textCols + col)) (textWord v)}
  | .frame => {g with drawn := ⟨col,row,v,cursor⟩::g.drawn}

def wide (ch : UInt32) : Bool :=
  match g.scr.cells with
  | some cells => ch != vcellTail && cells ch == 2
  | none => false

def refreshCell (i : Int) : Grid :=
  let g := (g.touch .want i).touch .shown i
  if g.want i = g.shown i then g
  else
    let g := g.mark i
    if (g.want i).ch ≠ vcellTail then g.draw (i.tmod g.cols) (i.tdiv g.cols) (g.want i) false
    else if i.tmod g.cols = 0 then g.draw (i.tmod g.cols) (i.tdiv g.cols) {g.want i with ch := 32} false
    else
      let g := g.touch .want (i-1)
      if g.wide (g.want (i-1)).ch then g.draw ((i-1).tmod g.cols) (i.tdiv g.cols) (g.want (i-1)) false
      else g.draw (i.tmod g.cols) (i.tdiv g.cols) {g.want i with ch := 32} false

def refresh (start stop : Int) : Grid :=
  forUp start stop (fun i g => g.refreshCell i) g

def cursorAt : Int := int (g.curRow * g.cols + g.curCol)

def uncursor : Grid :=
  if 0 ≤ g.curRow then
    let g := g.touch .shown g.cursorAt
    let g := g.draw g.curCol g.curRow (g.shown g.cursorAt) false
    {g with curRow := -1}
  else g

/- Writing over half of a wide character blanks the other half; `space` is `blank(' ')`. -/
def blankHead (space : Cell) (i : Int) (v : Cell) : Grid × Int :=
  let g := g.touch .want i
  if (g.want i).ch = vcellTail ∧ v.ch ≠ vcellTail ∧ 0 < i.tmod g.cols then (g.setWant (i-1) space,i-1)
  else (g,i)

def blankTail (space : Cell) (i : Int) (v : Cell) : Grid × Int :=
  if g.wide (g.want i).ch ∧ ¬ g.wide v.ch ∧ (int (i+1)).tmod g.cols ≠ 0 then
    let g := g.touch .want (int (i+1))
    if (g.want (int (i+1))).ch = vcellTail then (g.setWant (int (i+1)) space,int (i+2)) else (g,int (i+1))
  else (g,int (i+1))

def put (space : Cell) (i : Int) (v : Cell) : Grid :=
  let g := if i = g.cursorAt then g.uncursor else g
  let (g,start) := g.blankHead space i v
  let (g,stop) := g.blankTail space i v
  (g.setWant i v).refresh start stop

def clearCells (space : Cell) (start stop : Int) : Grid :=
  let g := forUp start stop (fun i g => g.setWant i space) g
  let g := if 0 ≤ g.curRow ∧ start ≤ g.cursorAt ∧ g.cursorAt < stop then g.uncursor else g
  g.refresh start stop

def move (dst src count : Int) : Grid :=
  let n := count % 2^64
  if n = 0 then g
  else
    let g := (((g.touch .want src).touch .want (src+n-1)).touch .want dst).touch .want (dst+n-1)
    {g with want := fun i => if dst ≤ i ∧ i < dst + n then g.want (src + (i-dst)) else g.want i}

def shiftLines (space : Cell) (top bottom n : Int) : Grid :=
  let len := int ((bottom-top) * g.cols)
  let g :=
    if 0 < n then
      (g.uncursor.move (int (top * g.cols)) (int ((top+n) * g.cols)) (int (len - n * g.cols))).clearCells space
        (int ((bottom-n) * g.cols)) (int (bottom * g.cols))
    else if n < 0 then
      (g.uncursor.move (int ((top + -n) * g.cols)) (int (top * g.cols)) (int (len - -n * g.cols))).clearCells space
        (int (top * g.cols)) (int ((top + -n) * g.cols))
    else g
  g.refresh (int (top * g.cols)) (int (bottom * g.cols))

/- One turn of the loops that delete and insert characters. The source cell is `want[i + n]`
or `want[i - n]` while it is on the line, and a blank beyond. -/
def pull (space : Cell) (n stop i : Int) : Grid :=
  if int (i+n) < stop then
    let g := g.touch .want (int (i+n))
    g.setWant i (g.want (int (i+n)))
  else g.setWant i space

def push (space : Cell) (n start i : Int) : Grid :=
  if start ≤ int (i-n) then
    let g := g.touch .want (int (i-n))
    g.setWant i (g.want (int (i-n)))
  else g.setWant i space

end

end Grid

structure Pen where
  fgi : Int := 7
  bgi : Int := 0
  fgc : UInt32 := 0
  bgc : UInt32 := 0
  bold : Bool := false
  reverse : Bool := false

def Pen.blank (p : Pen) (ch : UInt32) : Cell :=
  let f := if 0 ≤ p.fgi then palette (if p.bold ∧ p.fgi < 8 then p.fgi + 8 else p.fgi) else p.fgc
  let b := if 0 ≤ p.bgi then palette p.bgi else p.bgc
  if p.reverse then ⟨ch,b,f⟩ else ⟨ch,f,b⟩

inductive Mode where
  | normal
  | esc
  | csi
  deriving DecidableEq

end Console

/- `inReply` counts the calls of `csi` whose reply hook has not returned: the hook may
echo, so bytes can arrive before the sequence that asked is over. -/
structure Console where
  grid : Console.Grid
  pen : Console.Pen
  row : Int
  col : Int
  savedRow : Int
  savedCol : Int
  cursorOn : Bool
  state : Console.Mode
  params : Int → Int
  nparams : Int
  privateSeq : Bool
  utf8 : UInt32
  utf8Left : Nat
  reply : Bool
  replies : List String
  inReply : Nat
  hwCursor : UInt16

namespace Console

def cols (s : Console) : Int := s.grid.scr.cols
def rows (s : Console) : Int := s.grid.scr.rows

def clamp (v lo hi : Int) : Int := if v < lo then lo else if hi < v then hi else v

section

variable (s : Console)

def space : Cell := s.pen.blank 32

def column : Int := if s.col < s.cols then s.col else s.cols - 1

def lineStart : Int := int (s.row * s.cols)
def lineEnd : Int := int ((s.row+1) * s.cols)
def here : Int := int (s.row * s.cols + s.column)
def total : Int := int (s.cols * s.rows)

def moveHwCursor : Console :=
  {s with hwCursor := UInt16.ofInt (s.row * textCols + s.column)}

def leaveCursor : Grid :=
  if 0 ≤ s.grid.curRow ∧ (s.grid.curRow ≠ s.row ∨ s.grid.curCol ≠ s.column ∨ ¬ s.cursorOn) then s.grid.uncursor
  else s.grid

def showCursor (g : Grid) : Grid :=
  let g := g.touch .shown s.here
  let g := g.draw s.column s.row (g.shown s.here) true
  {g with curRow := s.row, curCol := s.column}

def placeCursor : Console :=
  match s.grid.scr.display with
  | .text => s.moveHwCursor
  | .frame =>
    if s.cursorOn ∧ s.leaveCursor.curRow < 0 then {s with grid := s.showCursor s.leaveCursor}
    else {s with grid := s.leaveCursor}

end

def clearCells (s : Console) (start stop : Int) : Console :=
  {s with grid := s.grid.clearCells s.space start stop}

def shiftLines (s : Console) (top bottom n : Int) : Console :=
  {s with grid := s.grid.shiftLines s.space top bottom n}

def put (s : Console) (i : Int) (v : Cell) : Console := {s with grid := s.grid.put s.space i v}

section

variable (s : Console)

def newline : Console :=
  let s := {s with row := int (s.row+1)}
  if s.row = s.rows then {s.shiftLines 0 s.rows 1 with row := s.rows - 1} else s

def touchParam (i : Int) : Console := {s with grid := s.grid.touch .params i}

/- 38;5;n and 38;2;r;g;b (48 for the background): how many it used. -/
def extended (i : Int) : Console × Option (Int × Option UInt32) × Int :=
  let p := s.params
  let first := if i + 2 < s.nparams then s.touchParam (i+1) else s
  if i + 2 < s.nparams ∧ p (i+1) = 5 then
    (first.touchParam (i+2),some (clamp (p (i+2)) 0 255,none),2)
  else
    let second := if i + 4 < s.nparams then first.touchParam (i+1) else first
    if i + 4 < s.nparams ∧ p (i+1) = 2 then
      let byte := fun j => UInt32.ofInt (p j) &&& 0xFF
      (((second.touchParam (i+2)).touchParam (i+3)).touchParam (i+4),
        some (-1,some (rgb (byte (i+2)) (byte (i+3)) (byte (i+4)))),4)
    else (second,none,0)

def setFg : Option (Int × Option UInt32) → Console
  | none => s
  | some (i,color) => {s with pen := {s.pen with fgi := i, fgc := color.getD s.pen.fgc}}

def setBg : Option (Int × Option UInt32) → Console
  | none => s
  | some (i,color) => {s with pen := {s.pen with bgi := i, bgc := color.getD s.pen.bgc}}

/- One turn of `sgr`, with how many parameters after the first it used. -/
def rendition (i p : Int) : Console × Int :=
  if p = 0 then ({s with pen := {s.pen with fgi := 7, bgi := 0, bold := false, reverse := false}},0)
  else if p = 1 then ({s with pen := {s.pen with bold := true}},0)
  else if p = 22 then ({s with pen := {s.pen with bold := false}},0)
  else if p = 7 then ({s with pen := {s.pen with reverse := true}},0)
  else if p = 27 then ({s with pen := {s.pen with reverse := false}},0)
  else if 30 ≤ p ∧ p ≤ 37 then (s.setFg (some (p-30,none)),0)
  else if p = 38 then ((s.extended i).1.setFg (s.extended i).2.1,(s.extended i).2.2)
  else if p = 39 then (s.setFg (some (7,none)),0)
  else if 40 ≤ p ∧ p ≤ 47 then (s.setBg (some (p-40,none)),0)
  else if p = 48 then ((s.extended i).1.setBg (s.extended i).2.1,(s.extended i).2.2)
  else if p = 49 then (s.setBg (some (0,none)),0)
  else if 90 ≤ p ∧ p ≤ 97 then (s.setFg (some (p-90+8,none)),0)
  else if 100 ≤ p ∧ p ≤ 107 then (s.setBg (some (p-100+8,none)),0)
  else (s,0)

def sgrLimit : Int := if s.nparams ≠ 0 then s.nparams else 1

end

/- Each turn moves `i` on, so as many turns as there are parameters are enough. -/
def sgrFrom : Nat → Int → Console → Console
  | 0, _, s => s
  | turns + 1, i, s =>
    if i < s.sgrLimit then
      let s := s.touchParam i
      let (s,used) := s.rendition i (s.params i)
      sgrFrom turns (i+used+1) s
    else s

def sgr (s : Console) : Console := sgrFrom s.sgrLimit.toNat 0 s

def pulled (s : Console) (n : Int) : Grid :=
  forUp s.here s.lineEnd (fun i g => g.pull s.space n s.lineEnd i) s.grid.uncursor

def deleteChars (s : Console) (n : Int) : Console := {s with grid := (s.pulled n).refresh s.here s.lineEnd}

def pushed (s : Console) (n : Int) : Grid :=
  forDown (int (s.lineEnd-1)) s.here (fun i g => g.push s.space n s.here i) s.grid.uncursor

def insertBlanks (s : Console) (n : Int) : Console := {s with grid := (s.pushed n).refresh s.here s.lineEnd}

def uitoa (x : Int) : String := toString (x % 2^64).toNat

section

variable (s : Console)

def report : Option String :=
  if ¬ s.reply then none
  else if s.params 0 = 6 then
    some ("\x1b[" ++ uitoa (s.row+1) ++ ";" ++ uitoa (s.column+1) ++ "R")
  else if s.params 0 = 5 then some "\x1b[0n"
  else none

def count : Int := if 0 < s.nparams ∧ 0 < s.params 0 then s.params 0 else 1

/- The indices 0 and 1 of `params` are constants of the source and not noted. -/
def csi (c : Char) : Console :=
  let n := s.count
  if s.privateSeq then
    if s.params 0 = 25 ∧ (c = 'h' ∨ c = 'l') then {s with cursorOn := c = 'h'} else s
  else match c with
  | 'A' => {s with row := clamp (int (s.row-n)) 0 (s.rows-1)}
  | 'B' => {s with row := clamp (int (s.row+n)) 0 (s.rows-1)}
  | 'C' => {s with col := clamp (int (s.col+n)) 0 (s.cols-1)}
  | 'D' => {s with col := clamp (int (s.col-n)) 0 (s.cols-1)}
  | 'G' => {s with col := clamp (n-1) 0 (s.cols-1)}
  | 'd' => {s with row := clamp (n-1) 0 (s.rows-1)}
  | 'H' | 'f' =>
    let second := if 1 < s.nparams ∧ 0 < s.params 1 then s.params 1 else 1
    {s with row := clamp (n-1) 0 (s.rows-1), col := clamp (second-1) 0 (s.cols-1)}
  | 'J' =>
    if s.params 0 = 0 then s.clearCells s.here s.total
    else if s.params 0 = 1 then s.clearCells 0 (int (s.here+1))
    else s.clearCells 0 s.total
  | 'K' =>
    if s.params 0 = 0 then s.clearCells s.here s.lineEnd
    else if s.params 0 = 1 then s.clearCells s.lineStart (int (s.here+1))
    else s.clearCells s.lineStart s.lineEnd
  | 'X' => s.clearCells s.here (if int (s.here+n) < s.lineEnd then int (s.here+n) else s.lineEnd)
  | 'P' => s.deleteChars n
  | '@' => s.insertBlanks n
  | 'L' => s.shiftLines s.row s.rows (-clamp n 1 (s.rows-s.row))
  | 'M' => s.shiftLines s.row s.rows (clamp n 1 (s.rows-s.row))
  | 'S' => s.shiftLines 0 s.rows (clamp n 1 s.rows)
  | 'T' => s.shiftLines 0 s.rows (-clamp n 1 s.rows)
  | 'm' => s.sgr
  | 's' => {s with savedRow := s.row, savedCol := s.col}
  | 'u' => {s with row := clamp s.savedRow 0 (s.rows-1), col := clamp s.savedCol 0 (s.cols-1)}
  | 'n' => match s.report with
    | some text => {s with replies := text::s.replies, inReply := s.inReply + 1}
    | none => s
  | _ => s

def charWidth (u : UInt32) : Int :=
  match s.grid.scr.cells with
  | some cells => cells u
  | none => 1

def wrapLine (w : Int) : Console :=
  if s.cols < int (s.col+w) then {s with col := 0}.newline else s

def putChar (w : Int) (v : Cell) : Console :=
  let s := s.put (int (s.row * s.cols + s.col)) v
  let s := if w = 2 then s.put (int (s.row * s.cols + s.col + 1)) {v with ch := vcellTail} else s
  {s with col := int (s.col+w)}

def print (u : UInt32) : Console :=
  (s.wrapLine (s.charWidth u)).putChar (s.charWidth u) (s.pen.blank u)

def putcEsc (c : UInt8) : Console :=
  if c = 91 then {s with state := .csi, nparams := 0, privateSeq := false, params := fun _ => 0}
  else
    let s :=
      if c = 99 then
        let s := {s with pen := {s.pen with fgi := 7, bgi := 0, bold := false, reverse := false}, cursorOn := true}
        {s.clearCells 0 s.total with row := 0, col := 0}
      else if c = 77 then
        if s.row = 0 then s.shiftLines 0 s.rows (-1) else {s with row := s.row - 1}
      else s
    {s with state := .normal}

def openParam : Console := if s.nparams = 0 then {s with nparams := 1} else s

def digit (d : Nat) : Console :=
  let i := s.nparams-1
  {s.touchParam i with params := update s.params i (int (s.params i * 10 + d))}

/- A sequence that asks for a reply is over when the hook returns, not before. -/
def putcCsi (c : UInt8) : Console :=
  if 48 ≤ c ∧ c ≤ 57 then s.openParam.digit (c-48).toNat
  else if c = 59 then
    let s := s.openParam
    if s.nparams < maxParams then {s with nparams := s.nparams + 1} else s
  else if c = 63 then {s with privateSeq := true}
  else if 0x40 ≤ c ∧ c ≤ 0x7E then
    let t := s.csi (Char.ofNat c.toNat)
    if t.inReply = s.inReply then {t with state := .normal} else t
  else s

def putcPlain (c : UInt8) : Console :=
  if 0xC0 ≤ c ∧ c < 0xF8 then
    let left := if 0xF0 ≤ c then 3 else if 0xE0 ≤ c then 2 else 1
    {s with utf8Left := left, utf8 := (c &&& (0x3F >>> UInt8.ofNat left)).toUInt32}
  else if c = 27 then {s with state := .esc}
  else if c = 10 then s.newline
  else if c = 13 then {s with col := 0}
  else if c = 8 then if 0 < s.col then {s with col := s.col - 1} else s
  else if c = 9 then
    let col := int (s.col+8) - int (s.col+8) % 8
    if s.cols ≤ col then {s with col := 0}.newline else {s with col := col}
  else if 32 ≤ c then s.print (if c < 0x80 then c.toUInt32 else 0xFFFD)
  else s

def putcNow (c : UInt8) : Console :=
  match s.state with
  | .esc => s.putcEsc c
  | .csi => s.putcCsi c
  | .normal =>
    if 0 < s.utf8Left then
      if c &&& 0xC0 = 0x80 then
        let s := {s with utf8 := s.utf8 <<< 6 ||| (c &&& 0x3F).toUInt32, utf8Left := s.utf8Left - 1}
        if s.utf8Left = 0 then s.print s.utf8 else s
      -- cut short: the byte starts something new
      else ({s with utf8Left := 0}.print 0xFFFD).putcPlain c
    else s.putcPlain c

def settle : Console := if s.state = .normal then s.placeCursor else s

def vgaPutc (c : UInt8) : Console := (s.putcNow c).settle

def terminalClear : Console :=
  {s.clearCells 0 s.total with row := 0, col := 0}.placeCursor

def keeps (scr : Screen) (i : Int) : Bool := i / scr.cols < s.rows ∧ i % scr.cols < s.cols

def oldIndex (scr : Screen) (i : Int) : Int := int (i / scr.cols * s.cols + i % scr.cols)

def copied (scr : Screen) : Grid :=
  forUp 0 (scr.cols * scr.rows)
    (fun i g => if s.keeps scr i then g.touch .want (s.oldIndex scr i) else g) s.grid

/- The new grids hold as many cells as the screen has, and `shown` starts with cells that
match nothing. `beyond` is what lies outside them. -/
def replaced (scr : Screen) (beyond : Int → Cell) : Grid :=
  let size := scr.cols * scr.rows
  let want := fun i =>
    if 0 ≤ i ∧ i < size then (if s.keeps scr i then s.grid.want (s.oldIndex scr i) else s.space) else beyond i
  let shown := fun i => if 0 ≤ i ∧ i < size then ⟨0,1,1⟩ else beyond i
  {s.copied scr with scr := scr, size := size, want := want, shown := shown, curRow := -1}

def onScreen (scr : Screen) (beyond : Int → Cell) : Console :=
  let row := clamp s.row 0 (scr.rows-1)
  let col := clamp s.col 0 (scr.cols-1)
  {s with grid := s.replaced scr beyond, row := row, col := col}

def vgaSetScreen (scr : Screen) (beyond : Int → Cell) : Console :=
  let s := s.onScreen scr beyond
  {s with grid := s.grid.refresh 0 s.total}.placeCursor

end

def boot (vga : Int → UInt16) (beyond : Int → Cell) : Console where
  grid :=
    let cells := fun i => if 0 ≤ i ∧ i < textCols * textRows then ⟨0,0,0⟩ else beyond i
    ⟨textScreen,textCols * textRows,cells,cells,-1,-1,vga,[],[]⟩
  pen := {}
  row := 0
  col := 0
  savedRow := 0
  savedCol := 0
  cursorOn := true
  state := .normal
  params := fun _ => 0
  nparams := 0
  privateSeq := false
  utf8 := 0
  utf8Left := 0
  reply := false
  replies := []
  inReply := 0
  hwCursor := 0

inductive Event where
  | putc (c : UInt8)
  | replied
  | setReply
  | elsewhere (beyond : Int → Cell)

def within (g : Grid) (i : Int) : Prop := 0 ≤ i ∧ i < g.size

instance (g : Grid) (i : Int) : Decidable (within g i) := inferInstanceAs (Decidable (_ ∧ _))

def event (s : Console) : Event → Option Console
  | .putc c => some (s.vgaPutc c)
  | .replied => if s.inReply = 0 then none else some {s with inReply := s.inReply-1, state := .normal}.settle
  | .setReply => some {s with reply := true}
  | .elsewhere beyond =>
    some {s with grid := {s.grid with want := fun i => if within s.grid i then s.grid.want i else beyond i}}

inductive Op where
  | event (e : Event)
  | setScreen (scr : Screen) (beyond : Int → Cell)
  | clear

def step (s : Console) : Op → Option Console
  | .event e => s.event e
  | .setScreen scr beyond => some (s.vgaSetScreen scr beyond)
  | .clear => some s.terminalClear

end Console

end Miviex
