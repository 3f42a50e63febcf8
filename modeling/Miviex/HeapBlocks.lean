import Miviex.KernelHeap

/-! The heap as a list of blocks. Each function of the allocator edits the list at one place
and writes no byte outside the blocks it edits, apart from one link. -/
namespace Miviex.Heap
open List Nat

open FlatMemory PointerChain Machine

structure Block where
  addr : Nat
  size : Nat
  free : Bool
  deriving DecidableEq, Repr

def Block.stop (b : Block) : Nat := b.addr+blockHeaderSize+b.size

variable {m n : Memory} {a c : Nat}

theorem headerCongr (same : ∀ x, a ≤ x → x < a+blockHeaderSize → n x = m x) :
    sizeAt n a = sizeAt m a ∧ nextAt n a = nextAt m a ∧ isFreeAt n a = isFreeAt m a := by
  unfold blockHeaderSize at same
  refine ⟨?_,?_,?_⟩
  · unfold sizeAt
    rw [wordCongr (fun x low high => same x low (by omega))]
  · unfold nextAt
    rw [wordCongr (fun x low high => same x (by omega) (by omega))]
  unfold isFreeAt
  rw [same (a+16) (by omega) (by omega)]

theorem setSizeOther {size x} (outside : x < a ∨ a + 8 ≤ x) : setSize m a size x = m x := setWordOther _ outside

theorem setNextOther {next x} (outside : x < a+8 ∨ a + 16 ≤ x) : setNext m a next x = m x := setWordOther _ (by omega)

theorem setIsFreeOther {free x} (outside : x ≠ a+16) : setIsFree m a free x = m x := Function.update_of_ne outside _ _

theorem setSizeHeader {size} (small : size < 2^64) : sizeAt (setSize m a size) a = size ∧
    nextAt (setSize m a size) a = nextAt m a ∧ isFreeAt (setSize m a size) a = isFreeAt m a := by
  refine ⟨?_,?_,?_⟩
  · unfold sizeAt setSize
    rw [wordSet,BitVec.toNat_ofNat,mod_eq_of_lt small]
  · unfold nextAt
    rw [wordCongr (fun x low high => setSizeOther (by omega))]
  unfold isFreeAt
  rw [setSizeOther (by omega)]

theorem setNextHeader {next} (small : next < 2^64) : sizeAt (setNext m a next) a = sizeAt m a ∧
    nextAt (setNext m a next) a = next ∧ isFreeAt (setNext m a next) a = isFreeAt m a := by
  refine ⟨?_,?_,?_⟩
  · unfold sizeAt
    rw [wordCongr (fun x low high => setNextOther (by omega))]
  · unfold nextAt setNext
    rw [wordSet,BitVec.toNat_ofNat,mod_eq_of_lt small]
  unfold isFreeAt
  rw [setNextOther (by omega)]

theorem setIsFreeHeader (free) : sizeAt (setIsFree m a free) a = sizeAt m a ∧
    nextAt (setIsFree m a free) a = nextAt m a ∧ isFreeAt (setIsFree m a free) a = free := by
  refine ⟨?_,?_,?_⟩
  · unfold sizeAt
    rw [wordCongr (fun x low high => setIsFreeOther (by omega))]
  · unfold nextAt
    rw [wordCongr (fun x low high => setIsFreeOther (by omega))]
  unfold isFreeAt setIsFree
  rw [Function.update_self]
  cases free <;> decide

theorem nextSmall (m a) : nextAt m a < 2^64 := (word m (a+8)).isLt

def Within (m n : Memory) (lo hi : Nat) : Prop := ∀ x, x < lo ∨ hi ≤ x → n x = m x

theorem Within.trans {k lo hi} (first : Within m n lo hi) (second : Within n k lo hi) :
    Within m k lo hi := fun x outside => (second x outside).trans (first x outside)

theorem Within.wider {lo hi lo' hi'} (within : Within m n lo hi) (left : lo' ≤ lo) (right : hi ≤ hi') :
    Within m n lo' hi' := fun x outside => within x (by omega)

theorem setSizeWithin (m a size) : Within m (setSize m a size) a (a+blockHeaderSize) :=
  fun x outside => setSizeOther (by unfold blockHeaderSize at outside; omega)

theorem setNextWithin (m : Memory) (a next : Nat) : Within m (setNext m a next) a (a+blockHeaderSize) :=
  fun x outside => setNextOther (by unfold blockHeaderSize at outside; omega)

theorem setIsFreeWithin (m a free) : Within m (setIsFree m a free) a (a+blockHeaderSize) :=
  fun x outside => setIsFreeOther (by unfold blockHeaderSize at outside; omega)

theorem Within.header {lo hi} (within : Within m n lo hi) (apart : c+blockHeaderSize ≤ lo ∨ hi ≤ c) :
    sizeAt n c = sizeAt m c ∧ nextAt n c = nextAt m c ∧ isFreeAt n c = isFreeAt m c :=
  headerCongr (fun x low high => within x (by omega))

structure Shows (m : Memory) (head : Nat) (blocks : List Block) : Prop where
  chain : Chain (link m) (pointer head) (blocks.map Block.addr)
  size : ∀ b ∈ blocks, sizeAt m b.addr = b.size
  mark : ∀ b ∈ blocks, isFreeAt m b.addr = b.free

structure Laid (blocks : List Block) : Prop where
  spaced : blocks.Pairwise (fun x y => x.stop ≤ y.addr)
  window : ∀ b ∈ blocks, kernelBase ≤ b.addr ∧ b.stop ≤ kernelBase+pmmDirectMapEnd
  aligned : ∀ b ∈ blocks, b.addr % heapAlign = 0 ∧ b.size % heapAlign = 0 ∧ heapAlign ≤ b.size

variable {head : Nat} {front back blocks : List Block} {b d : Block}

theorem Laid.around (laid : Laid (front ++ b::back)) :
    (∀ x ∈ front, x.stop ≤ b.addr) ∧ (∀ x ∈ back, b.stop ≤ x.addr) ∧ ∀ x ∈ front, ∀ y ∈ back, x.stop ≤ y.addr := by
  have parts := pairwise_append.mp laid.spaced
  have tail := pairwise_cons.mp parts.2.1
  exact ⟨fun x member => parts.2.2 x member b mem_cons_self,tail.1,
    fun x memberX y memberY => parts.2.2 x memberX y (mem_cons_of_mem b memberY)⟩

theorem Laid.insert (laid : Laid (front ++ back)) (before : ∀ x ∈ front, x.stop ≤ b.addr)
    (after : ∀ x ∈ back, b.stop ≤ x.addr) (window : kernelBase ≤ b.addr ∧ b.stop ≤ kernelBase+pmmDirectMapEnd)
    (aligned : b.addr % heapAlign = 0 ∧ b.size % heapAlign = 0 ∧ heapAlign ≤ b.size) : Laid (front ++ b::back) := by
  have parts := pairwise_append.mp laid.spaced
  have member x (here : x ∈ front ++ b::back) : x = b ∨ x ∈ front ++ back := by
    grind
  refine ⟨pairwise_append.mpr ⟨parts.1,pairwise_cons.mpr ⟨after,parts.2.1⟩,?_⟩,?_,?_⟩
  · intro x inFront y there
    rcases mem_cons.mp there with same | inBack
    · rw [same]
      exact before x inFront
    · exact parts.2.2 x inFront y inBack
  · intro x here
    rcases member x here with rfl | old
    · exact window
    · exact laid.window x old
  intro x here
  rcases member x here with rfl | old
  · exact aligned
  · exact laid.aligned x old

inductive Grown (blocks : List Block) (p len : Nat) : List Block → Block → List Block → Prop where
  | fresh {front back : List Block} (old : blocks = front ++ back) (before : ∀ x ∈ front, x.stop ≤ p)
      (after : ∀ x ∈ back, p + len ≤ x.addr) (gap : ∀ c ∈ front.getLast?, ¬ (c.free = true ∧ c.stop = p)) :
      Grown blocks p len front ⟨p,len-blockHeaderSize,false⟩ back
  | joined {front back : List Block} {c : Block} (old : blocks = front ++ c::back) (free : c.free = true)
      (touch : c.stop = p) (after : ∀ x ∈ back, p + len ≤ x.addr) :
      Grown blocks p len front ⟨c.addr,c.size+len,true⟩ back

def Spared (blocks : List Block) (p : Nat) (x : Nat) : Prop :=
  (x < p ∨ p + blockHeaderSize ≤ x) ∧ ∀ c ∈ blocks, ¬ (c.addr+8 ≤ x ∧ x < c.addr+16) ∧
    (c.free = true → x < c.addr ∨ c.addr + blockHeaderSize ≤ x)

theorem Laid.fewer {less} (laid : Laid blocks) (sub : less <+ blocks) : Laid less :=
  ⟨laid.spaced.sublist sub,fun x member => laid.window x (sub.subset member),
    fun x member => laid.aligned x (sub.subset member)⟩

theorem Laid.swap (laid : Laid (front ++ b::back)) (starts : b.addr ≤ d.addr) (ends : d.stop ≤ b.stop)
    (aligned : d.addr % heapAlign = 0 ∧ d.size % heapAlign = 0 ∧ heapAlign ≤ d.size) : Laid (front ++ d::back) := by
  obtain ⟨before,after,_⟩ := laid.around
  have window := laid.window b (mem_append_right _ mem_cons_self)
  exact (laid.fewer ((sublist_cons_self b back).append_left front)).insert (fun x member => le_trans (before x member) starts)
    (fun x member => le_trans ends (after x member)) ⟨le_trans window.1 starts,le_trans ends window.2⟩ aligned

theorem Laid.span (laid : Laid blocks) {lo hi} (low : ∀ x ∈ blocks, lo ≤ x.addr)
    (high : ∀ x ∈ blocks, x.stop ≤ hi) (order : lo ≤ hi) : lo + blocks.length * blockHeaderSize ≤ hi := by
  have spaced := laid.spaced
  induction blocks generalizing lo with
  | nil => simpa using order
  | cons x rest ih =>
  obtain ⟨after,tail⟩ := pairwise_cons.mp spaced
  have here := low x mem_cons_self
  have ends := high x mem_cons_self
  have more := ih (laid.fewer (sublist_cons_self x rest)) (fun y member => after y member)
    (fun y member => high y (mem_cons_of_mem x member))
    ends tail
  rw [length_cons]
  unfold Block.stop blockHeaderSize at *
  omega

theorem Laid.length (laid : Laid blocks) : blocks.length ≤ walkLimit := by
  have room := laid.span (fun x member => (laid.window x member).1) (fun x member => (laid.window x member).2)
    (le_add_right _ _)
  unfold walkLimit
  rw [le_div_iff_mul_le (by decide)]
  omega

theorem pointerSome {p x} (points : pointer p = some x) : p = x ∧ x ≠ 0 := by
  unfold pointer at points
  split at points
  · cases points
  rename_i nonzero
  cases points
  exact ⟨rfl,nonzero⟩

theorem pointerNone {p} (points : pointer p = none) : p = 0 := by
  unfold pointer at points
  split at points
  · assumption
  · cases points

theorem pointerSet {x} (nonzero : x ≠ 0) : pointer x = some x := if_neg nonzero

theorem Within.link {lo hi} (within : Within m n lo hi) (apart : c+blockHeaderSize ≤ lo ∨ hi ≤ c) : link n c = link m c := by
  unfold Miviex.link
  rw [(within.header apart).2.1]

theorem Block.headerInside (b : Block) : b.addr+blockHeaderSize ≤ b.stop := le_add_right _ _

/- An edit at one place: from the block `b` on the blocks up to `back` become `inner`, and every
write is below `hi`, where `back` begins. `onto` leads to `back`. -/
theorem Shows.rewrite {mid hi} (shown : Shows m head (front ++ b::(mid ++ back)))
    (before : ∀ x ∈ front, x.stop ≤ b.addr) (after : ∀ x ∈ back, hi ≤ x.addr) (within : Within m n b.addr hi)
    {onto} (tail : Chain (link m) onto (back.map Block.addr)) (inner : List Block) (rest)
    (first : inner.map Block.addr = b.addr::rest)
    (onward : Chain (link n) onto (back.map Block.addr) → Chain (link n) (link n b.addr) (rest ++ back.map Block.addr))
    (holds : ∀ x ∈ inner, sizeAt n x.addr = x.size ∧ isFreeAt n x.addr = x.free) : Shows n head (front ++ inner ++ back) := by
  have chain : Chain (link m) (pointer head) (front.map Block.addr ++ b.addr::(mid ++ back).map Block.addr) := by
    have whole := shown.chain
    rwa [map_append,map_cons] at whole
  have frontApart x (member : x ∈ front) : x.addr+blockHeaderSize ≤ b.addr :=
    le_trans x.headerInside (before x member)
  have headers x (here : x ∈ front ++ inner ++ back) : sizeAt n x.addr = x.size ∧ isFreeAt n x.addr = x.free := by
    have kept (apart : x.addr+blockHeaderSize ≤ b.addr ∨ hi ≤ x.addr) (old : x ∈ front ++ b::(mid ++ back)) :
        sizeAt n x.addr = x.size ∧ isFreeAt n x.addr = x.free := by
      obtain ⟨size,_,mark⟩ := within.header apart
      exact ⟨size.trans (shown.size x old),mark.trans (shown.mark x old)⟩
    rcases mem_append.mp here with earlier | inBack
    · rcases mem_append.mp earlier with inFront | inInner
      · exact kept (.inl (frontApart x inFront)) (mem_append_left _ inFront)
      · exact holds x inInner
    · exact kept (.inr (after x inBack)) (mem_append_right _ (mem_cons_of_mem b (mem_append_right mid inBack)))
  refine ⟨?_,fun x here => (headers x here).1,fun x here => (headers x here).2⟩
  rw [append_assoc,map_append,map_append,first,cons_append]
  refine chainSplice ?_ chain (onward ?_)
  · intro y there
    obtain ⟨x,inFront,rfl⟩ := mem_map.mp there
    exact within.link (.inl (frontApart x inFront))
  refine chainCongr ?_ tail
  intro y there
  obtain ⟨x,inBack,rfl⟩ := mem_map.mp there
  exact within.link (.inr (after x inBack))

section

variable (shown : Shows m head (front ++ b::back))
include shown

theorem Shows.tail : Chain (link m) (link m b.addr) (back.map Block.addr) := by
  have whole := shown.chain
  rw [map_append,map_cons] at whole
  exact (chainFrom whole).2

theorem Shows.edit (laid : Laid (front ++ b::back)) (within : Within m n b.addr b.stop) (inner : List Block) (rest)
    (first : inner.map Block.addr = b.addr::rest) (onward : Chain (link n) (link m b.addr) (back.map Block.addr) →
    Chain (link n) (link n b.addr) (rest ++ back.map Block.addr))
    (holds : ∀ x ∈ inner, sizeAt n x.addr = x.size ∧ isFreeAt n x.addr = x.free) : Shows n head (front ++ inner ++ back) := by
  obtain ⟨before,after,_⟩ := laid.around
  exact @Shows.rewrite m n head front back b [] b.stop shown before after within _ shown.tail inner rest first onward
    holds

theorem setIsFreeShows (laid : Laid (front ++ b::back)) (free) :
    Shows (setIsFree m b.addr free) head (front ++ ⟨b.addr,b.size,free⟩::back) := by
  have within := (setIsFreeWithin m b.addr free).wider (le_refl _) b.headerInside
  obtain ⟨size,next,mark⟩ := @setIsFreeHeader m b.addr free
  have sized := shown.size b (mem_append_right _ mem_cons_self)
  have linked : link (setIsFree m b.addr free) b.addr = link m b.addr := by
    unfold link
    rw [next]
  have edited := shown.edit laid within [⟨b.addr,b.size,free⟩] [] rfl (fun tail => by rw [linked]; exact tail)
    (forall_mem_singleton.mpr ⟨size.trans sized,mark⟩)
  rwa [append_assoc] at edited

end

theorem Laid.small (laid : Laid blocks) (member : b ∈ blocks) : b.addr ≠ 0 ∧ b.stop < 2^64 ∧ b.size < 2^64 := by
  have window := laid.window b member
  unfold Block.stop kernelBase pmmDirectMapEnd blockHeaderSize at *
  omega

theorem Laid.flag (laid : Laid (front ++ b::back)) (free) : Laid (front ++ ⟨b.addr,b.size,free⟩::back) :=
  laid.swap (le_refl _) (le_refl _) (laid.aligned b (mem_append_right _ mem_cons_self))

def remainder (size : Nat) (b : Block) : Block :=
  ⟨b.addr+blockHeaderSize+size,b.size-size-blockHeaderSize,true⟩

theorem writesApart (apart : c+blockHeaderSize ≤ a ∨ a + blockHeaderSize ≤ c) :
    (∀ m s, sizeAt (setSize m a s) c = sizeAt m c ∧ nextAt (setSize m a s) c = nextAt m c ∧
    isFreeAt (setSize m a s) c = isFreeAt m c) ∧
    (∀ m s, sizeAt (setNext m a s) c = sizeAt m c ∧ nextAt (setNext m a s) c = nextAt m c ∧
    isFreeAt (setNext m a s) c = isFreeAt m c) ∧
    ∀ m s, sizeAt (setIsFree m a s) c = sizeAt m c ∧ nextAt (setIsFree m a s) c = nextAt m c ∧
    isFreeAt (setIsFree m a s) c = isFreeAt m c :=
  ⟨fun m s => (setSizeWithin m a s).header apart,fun m s => (setNextWithin m a s).header apart,
    fun m s => (setIsFreeWithin m a s).header apart⟩

theorem splitHeaders {size r} (large : ¬ sizeAt m a < size+minSplit) (small : a+blockHeaderSize + sizeAt m a < 2^64)
    (rest : a+blockHeaderSize+size = r) :
    (sizeAt (split m a size) a = size ∧ nextAt (split m a size) a = r ∧ isFreeAt (split m a size) a = isFreeAt m a) ∧
    (sizeAt (split m a size) r = sizeAt m a - size - blockHeaderSize ∧ nextAt (split m a size) r = nextAt m a ∧
    isFreeAt (split m a size) r = true) ∧ Within m (split m a size) a (r+blockHeaderSize) := by
  have after : a+blockHeaderSize ≤ r := by omega
  have bounds : size < 2^64 ∧ r < 2^64 ∧ sizeAt m a - size - blockHeaderSize < 2^64 := by omega
  have atA := @writesApart r a (.inl after)
  have atR := @writesApart a r (.inr after)
  unfold split
  rw [if_neg large,rest]
  dsimp only
  refine ⟨?_,?_,?_⟩
  · simp only [setNextHeader bounds.2.1,setSizeHeader bounds.1,atA,and_self]
  · simp only [atR,atA,setNextHeader (nextSmall _ _),setIsFreeHeader,setSizeHeader bounds.2.2,and_self]
  have low : a ≤ r := by omega
  have high : a+blockHeaderSize ≤ r+blockHeaderSize := by omega
  exact (((((setSizeWithin m r _).wider low (le_refl _)).trans ((setIsFreeWithin _ r _).wider low (le_refl _))).trans
    ((setNextWithin _ r _).wider low (le_refl _))).trans ((setSizeWithin _ a _).wider (le_refl _) high)).trans
    ((setNextWithin _ a r).wider (le_refl _) high)

def carve (size : Nat) (b : Block) : List Block :=
  if b.size < size + minSplit then [⟨b.addr,b.size,false⟩] else [⟨b.addr,size,false⟩,remainder size b]

theorem carveLaid {size} (laid : Laid (front ++ b::back)) (whole : size % heapAlign = 0)
    (positive : heapAlign ≤ size) : Laid (front ++ carve size b ++ back) := by
  have aligned := laid.aligned b (mem_append_right _ mem_cons_self)
  unfold carve
  split
  · have flagged := laid.flag false
    rwa [append_assoc]
  rename_i large
  have inner : (⟨b.addr,size,false⟩ : Block).stop ≤ (remainder size b).addr ∧ (remainder size b).stop ≤ b.stop ∧
      (remainder size b).addr % heapAlign = 0 ∧ (remainder size b).size % heapAlign = 0 ∧
      heapAlign ≤ (remainder size b).size ∧ b.addr ≤ (remainder size b).addr := by
    unfold remainder Block.stop minSplit heapAlign blockHeaderSize at *
    dsimp only
    omega
  obtain ⟨order,ends,addr,sized,least,starts⟩ := inner
  obtain ⟨before,_,_⟩ := laid.around
  have window := laid.window b (mem_append_right _ mem_cons_self)
  have last := laid.swap starts ends ⟨addr,sized,least⟩
  rw [append_assoc]
  refine last.insert before (forall_mem_cons.mpr ⟨order,fun x member => le_trans order ?_⟩) ⟨window.1,?_⟩
    ⟨aligned.1,whole,positive⟩
  · exact le_trans (le_trans (le_add_right _ _) (Block.headerInside _)) (last.around.2.1 x member)
  · exact le_trans (le_trans order (le_trans (le_add_right _ _) (Block.headerInside _))) (le_trans ends window.2)

abbrev Block.join (b d : Block) : Block := ⟨b.addr,b.size + (d.size+blockHeaderSize),b.free⟩

theorem absorbShows (shown : Shows m head (front ++ b::d::back)) (laid : Laid (front ++ b::d::back)) (touch : b.stop = d.addr) :
    Shows (absorb m b.addr d.addr) head (front ++ b.join d::back) ∧
    Within m (absorb m b.addr d.addr) b.addr (b.addr+blockHeaderSize) ∧
    Laid (front ++ b.join d::back) := by
  have hereB : b ∈ front ++ b::d::back := mem_append_right _ mem_cons_self
  have hereD : d ∈ front ++ b::d::back := mem_append_right _ (mem_cons_of_mem b mem_cons_self)
  have sizeB := shown.size b hereB
  have sizeD := shown.size d hereD
  have bounds := laid.small hereD
  have apart : b.addr+blockHeaderSize ≤ d.addr := touch ▸ b.headerInside
  obtain ⟨before,after,across⟩ := laid.around
  have whole : (b.join d).stop = d.stop := by
    unfold Block.stop at *
    dsimp only
    omega
  have size : b.size + (d.size+blockHeaderSize) < 2^64 := by unfold Block.stop at *; omega
  have far := @writesApart b.addr d.addr (.inr apart)
  unfold absorb
  rw [sizeB,sizeD]
  have within := (setSizeWithin m b.addr (b.size + (d.size+blockHeaderSize))).trans (setNextWithin _ b.addr
    (nextAt (setSize m b.addr (b.size + (d.size+blockHeaderSize))) d.addr))
  have behind x (member : x ∈ back) : b.addr+blockHeaderSize ≤ x.addr :=
    le_trans b.headerInside (after x (mem_cons_of_mem d member))
  refine ⟨?_,within,?_⟩
  · have edited := @Shows.rewrite m _ head front back b [d] (b.addr+blockHeaderSize) shown before behind within _
      shown.tail.2 [b.join d] [] rfl (fun tail => ?_)
      (forall_mem_singleton.mpr ?_)
    · rwa [append_assoc] at edited
    · convert tail using 1
      · exact congrArg pointer ((setNextHeader (nextSmall _ _)).2.1.trans (far.1 _ _).2.1)
      · rfl
    simp only [setNextHeader (nextSmall _ _),setSizeHeader size,shown.mark b hereB,and_self]
  have alignedB := laid.aligned b hereB
  have alignedD := laid.aligned d hereD
  refine (laid.fewer (((sublist_cons_self d back).trans (sublist_cons_self b _)).append_left front)).insert before
    (fun x member => ?_) ⟨(laid.window b hereB).1,?_⟩ ?_
  · rw [whole]
    exact (pairwise_cons.mp (pairwise_cons.mp (pairwise_append.mp laid.spaced).2.1).2).1 x member
  · rw [whole]
    exact (laid.window d hereD).2
  dsimp only
  unfold heapAlign blockHeaderSize at *
  omega

abbrev Block.Touches (b d : Block) : Prop := b.free = true ∧ d.free = true ∧ b.stop = d.addr

def swallow (b : Block) : List Block → List Block
  | [] => [b]
  | d::rest => if b.free = true ∧ d.free = true ∧ b.stop = d.addr
      then ⟨b.addr,b.size + (d.size+blockHeaderSize),b.free⟩::rest else b::d::rest

theorem swallowTouching {rest} (both : b.Touches d) :
    swallow b (d::rest) = b.join d::rest := if_pos both

theorem swallowApart {rest} (apart : ¬ b.Touches d) :
    swallow b (d::rest) = b::d::rest := if_neg apart

theorem swallowHead (b : Block) (rest) : ∃ c tail, swallow b rest = c::tail ∧ c.addr = b.addr ∧ c.free = b.free := by
  cases rest with
  | nil => exact ⟨b,[],rfl,rfl,rfl⟩
  | cons d rest =>
    by_cases both : b.Touches d
    · exact ⟨_,rest,swallowTouching both,rfl,rfl⟩
    · exact ⟨b,d::rest,swallowApart both,rfl,rfl⟩

theorem chainNext {α} {next : α → Option α} {first nodes x y}
    (chain : Chain next first nodes) (member : x ∈ nodes) (points : next x = some y) : y ∈ nodes.tail := by
  induction nodes generalizing first with
  | nil => cases member
  | cons z rest ih =>
  rcases mem_cons.mp member with here | later
  · subst here
    cases rest with
    | nil =>
      rw [chainEmpty chain.2] at points
      cases points
    | cons w more =>
      rw [chain.2.1] at points
      cases points
      exact mem_cons_self
  · exact mem_of_mem_tail (ih chain.2 later)

theorem linkIs {x y} (nonzero : y ≠ 0) : (nextAt m x == y) = true ↔ link m x = some y := by
  rw [beq_iff_eq]
  constructor
  · intro same
    unfold link
    rw [same]
    exact pointerSet nonzero
  intro points
  exact (pointerSome points).1

theorem findPrev {first before after x} (chain : Chain (link m) first (before ++ x::after)) (nonzero : x ≠ 0) :
    (before ++ x::after).find? (fun prev => nextAt m prev == x) = before.getLast? := by
  have distinct := chainNodup chain
  induction before generalizing first with
  | nil =>
    rw [List.getLast?_nil,List.find?_eq_none]
    intro y member points
    have behind := chainNext chain member ((linkIs nonzero).mp points)
    rw [nil_append,nodup_cons] at distinct
    exact distinct.1 behind
  | cons y rest ih =>
  rw [cons_append,nodup_cons] at distinct
  have onward : Chain (link m) (link m y) (rest ++ x::after) := chain.2
  rw [cons_append]
  cases rest with
  | nil =>
    have points : link m y = some x := onward.1
    have hit := (linkIs nonzero).mpr points
    simp only [List.find?_cons,hit]
    rfl
  | cons z more =>
  have points : link m y = some z := onward.1
  have other : z ≠ x := by
    rintro rfl
    have later := distinct.2
    rw [cons_append,nodup_cons] at later
    exact later.1 (mem_append_right _ mem_cons_self)
  have missed : (nextAt m y == x) = false := by
    rw [← Bool.not_eq_true,linkIs nonzero,points]
    intro same
    exact other (Option.some.inj same)
  rw [List.find?_cons,missed,List.getLast?_cons_cons]
  exact ih onward distinct.2

def released (front : List Block) (b : Block) (back : List Block) : List Block :=
  match front.getLast? with
  | none => swallow ⟨b.addr,b.size,true⟩ back
  | some c => front.dropLast ++ swallow c (swallow ⟨b.addr,b.size,true⟩ back)

def Touched (front : List Block) (b : Block) (x : Nat) : Prop :=
  (b.addr ≤ x ∧ x < b.addr+blockHeaderSize) ∨ ∃ c ∈ front, c.free = true ∧ c.addr ≤ x ∧ x < c.addr+blockHeaderSize

theorem lastBelowChain {p fuel start before after x}
    (chain : Chain (link m) (pointer start) (before ++ x::after)) (below : ∀ y ∈ before, y < p) (belowLast : x < p)
    (above : ∀ y ∈ after, p ≤ y) (enough : before.length < fuel) : lastBelow m p fuel start = some x := by
  induction before generalizing start fuel with
  | nil =>
    cases fuel with
    | zero => omega
    | succ fuel =>
    obtain ⟨same,_⟩ := pointerSome chain.1
    subst same
    unfold lastBelow
    refine if_neg (fun more => ?_)
    cases after with
    | nil => exact more.1 (pointerNone chain.2)
    | cons y rest =>
      have next := (pointerSome chain.2.1).1
      have high := above y mem_cons_self
      omega
  | cons y rest ih =>
  cases fuel with
  | zero => omega
  | succ fuel =>
  obtain ⟨same,_⟩ := pointerSome chain.1
  subst same
  have onward : Chain (link m) (pointer (nextAt m start)) (rest ++ x::after) := chain.2
  have next : nextAt m start ≠ 0 ∧ nextAt m start < p := by
    cases rest with
    | nil =>
      obtain ⟨here,nonzero⟩ := pointerSome onward.1
      exact ⟨here ▸ nonzero,here ▸ belowLast⟩
    | cons z more =>
      obtain ⟨here,nonzero⟩ := pointerSome onward.1
      exact ⟨here ▸ nonzero,here ▸ below z (mem_cons_of_mem start mem_cons_self)⟩
  unfold lastBelow
  rw [if_pos next]
  rw [length_cons] at enough
  exact ih onward (fun z member => below z (mem_cons_of_mem start member)) (by omega)

theorem splitAt {p len} (spaced : blocks.Pairwise (fun x y => x.stop ≤ y.addr))
    (apart : ∀ x ∈ blocks, x.stop ≤ p ∨ p + len ≤ x.addr) :
    (∀ x ∈ blocks, p + len ≤ x.addr) ∨ ∃ front c back, blocks = front ++ c::back ∧
    (∀ x ∈ front, x.stop ≤ p) ∧ c.stop ≤ p ∧ ∀ x ∈ back, p + len ≤ x.addr := by
  induction blocks with
  | nil => exact .inl (fun x member => by cases member)
  | cons y rest ih =>
  obtain ⟨after,tail⟩ := pairwise_cons.mp spaced
  rcases apart y mem_cons_self with low | high
  · rcases ih tail (fun x member => apart x (mem_cons_of_mem y member)) with all | ⟨front,c,back,same,a,b,d⟩
    · exact .inr ⟨[],y,rest,rfl,fun x member => (by cases member),low,all⟩
    refine .inr ⟨y::front,c,back,by rw [same]; rfl,fun x member => ?_,b,d⟩
    rcases mem_cons.mp member with here | later
    · exact here ▸ low
    · exact a x later
  refine .inl (fun x member => ?_)
  rcases mem_cons.mp member with here | later
  · exact here ▸ high
  have order := after x later
  have inside := y.headerInside
  omega

theorem freshHeader (m : Memory) (free : Bool) {p size} (small : size < 2^64) :
    sizeAt (setNext (setIsFree (setSize m p size) p free) p 0) p = size ∧
    nextAt (setNext (setIsFree (setSize m p size) p free) p 0) p = 0 ∧
    isFreeAt (setNext (setIsFree (setSize m p size) p free) p 0) p = free ∧
    Within m (setNext (setIsFree (setSize m p size) p free) p 0) p (p+blockHeaderSize) := by
  have h1 := @setSizeHeader m p size small
  have h2 := @setIsFreeHeader (setSize m p size) p free
  have h3 := @setNextHeader (setIsFree (setSize m p size) p free) p 0 (by decide)
  refine ⟨?_,h3.2.1,?_,((setSizeWithin m p size).trans (setIsFreeWithin _ p free)).trans (setNextWithin _ p 0)⟩
  · rw [h3.1,h2.1,h1.1]
  · rw [h3.2.2,h2.2.2]

structure Room (blocks : List Block) (p len : Nat) : Prop where
  low : kernelBase ≤ p
  high : p+len ≤ kernelBase+pmmDirectMapEnd
  start : p % heapAlign = 0
  whole : len % heapAlign = 0
  large : minSplit ≤ len
  apart : ∀ x ∈ blocks, x.stop ≤ p ∨ p + len ≤ x.addr

theorem Room.block {p len} (room : Room blocks p len) (free : Bool) :
    (⟨p,len-blockHeaderSize,free⟩ : Block).stop = p+len ∧ p ≠ 0 ∧ p < 2^64 ∧ len - blockHeaderSize < 2^64 ∧
    (len-blockHeaderSize) % heapAlign = 0 ∧ heapAlign ≤ len-blockHeaderSize := by
  obtain ⟨low,high,start,whole,large,_⟩ := room
  unfold Block.stop minSplit heapAlign blockHeaderSize kernelBase pmmDirectMapEnd at *
  dsimp only
  omega

theorem Room.clear {p len} (room : Room blocks p len) :
    ∀ x ∈ blocks, x.addr + blockHeaderSize ≤ p ∨ p + blockHeaderSize ≤ x.addr := by
  intro x member
  rcases room.apart x member with below | above
  · exact .inl (le_trans x.headerInside below)
  refine .inr (le_trans ?_ above)
  have large := room.large
  unfold minSplit at large
  omega

section

variable (shown : Shows m head (front ++ b::back))
include shown

theorem splitShows {size} (laid : Laid (front ++ b::back))
    (large : ¬ b.size < size+minSplit) :
    Shows (split m b.addr size) head (front ++ [⟨b.addr,size,b.free⟩,remainder size b] ++ back) ∧
    Within m (split m b.addr size) b.addr b.stop := by
  have here : b ∈ front ++ b::back := mem_append_right _ mem_cons_self
  have sized := shown.size b here
  have bounds := (laid.small here).2.1
  have room := large
  rw [← sized] at large
  have ends : b.addr+blockHeaderSize+size+blockHeaderSize ≤ b.stop := by
    unfold Block.stop minSplit blockHeaderSize at *
    omega
  obtain ⟨first,second,inside⟩ := splitHeaders large (by rw [sized]; exact bounds) rfl
  have within := inside.wider (le_refl _) ends
  refine ⟨shown.edit laid within _ [b.addr+blockHeaderSize+size] rfl (fun tail => ?_)
    (forall_mem_cons.mpr ⟨⟨first.1,first.2.2.trans (shown.mark b here)⟩,forall_mem_singleton.mpr ⟨?_,second.2.2⟩⟩),within⟩
  · refine ⟨(congrArg pointer first.2.1).trans (pointerSet (by unfold blockHeaderSize; omega)),?_⟩
    convert tail using 1
    · exact congrArg pointer second.2.1
    · rfl
  · rw [sized] at second
    exact second.1

theorem claimShows {size} (laid : Laid (front ++ b::back)) :
    Shows (split (setIsFree m b.addr false) b.addr size) head (front ++ carve size b ++ back) ∧
    Within m (split (setIsFree m b.addr false) b.addr size) b.addr b.stop := by
  have marked := setIsFreeShows shown laid false
  have within := (setIsFreeWithin m b.addr false).wider (le_refl _) b.headerInside
  have sized := marked.size ⟨b.addr,b.size,false⟩ (mem_append_right _ mem_cons_self)
  unfold carve
  by_cases small : b.size < size+minSplit
  · have unsplit : split (setIsFree m b.addr false) b.addr size = setIsFree m b.addr false := by
      unfold split
      rw [sized]
      exact if_pos small
    rw [unsplit,if_pos small,append_assoc]
    exact ⟨marked,within⟩
  rw [if_neg small]
  obtain ⟨shows_,inside⟩ := @splitShows _ _ _ _ ⟨b.addr,b.size,false⟩ marked size (laid.flag false) small
  exact ⟨shows_,within.trans inside⟩

theorem insertShows {p len} (laid : Laid (front ++ b::back))
    (room : Room (front ++ b::back) p len) (before : ∀ x ∈ front, x.stop ≤ p) (beforeB : b.stop ≤ p)
    (after : ∀ x ∈ back, p + len ≤ x.addr) (size : sizeAt m p = len-blockHeaderSize) (mark : isFreeAt m p = false) :
    Shows (setNext (setNext m p (nextAt m b.addr)) b.addr p) head (front ++ b::⟨p,len-blockHeaderSize,false⟩::back) ∧
    Laid (front ++ b::⟨p,len-blockHeaderSize,false⟩::back) := by
  obtain ⟨ends,nonzero,small,_,sizeWhole,sizeLarge⟩ := room.block false
  obtain ⟨order,_,_⟩ := laid.around
  have here : b ∈ front ++ b::back := mem_append_right _ mem_cons_self
  have apart : b.addr+blockHeaderSize ≤ p := le_trans b.headerInside beforeB
  have atB := @writesApart p b.addr (.inl apart)
  have atP := @writesApart b.addr p (.inr apart)
  have within : Within m (setNext (setNext m p (nextAt m b.addr)) b.addr p) b.addr (p+blockHeaderSize) :=
    ((setNextWithin m p _).wider (by omega) (le_refl _)).trans ((setNextWithin _ b.addr p).wider (le_refl _) (by omega))
  have behind x (member : x ∈ back) : p+blockHeaderSize ≤ x.addr := by
    refine le_trans ?_ (after x member)
    have large := room.large
    unfold minSplit at large
    omega
  refine ⟨?_,?_⟩
  · have edited := @Shows.rewrite m _ head front back b [] (p+blockHeaderSize) shown order behind within _ shown.tail
      [b,⟨p,len-blockHeaderSize,false⟩] [p] rfl (fun tail => ?_) (forall_mem_cons.mpr ⟨?_,forall_mem_singleton.mpr ?_⟩)
    · rwa [append_assoc] at edited
    · refine ⟨(congrArg pointer (setNextHeader small).2.1).trans (pointerSet nonzero),?_⟩
      convert tail using 1
      · exact congrArg pointer ((atP.2.1 _ _).2.1.trans (setNextHeader (nextSmall _ _)).2.1)
      · rfl
    · simp only [setNextHeader small,atB,shown.size b here,shown.mark b here,and_self]
    · simp only [atP,setNextHeader (nextSmall _ _),size,mark,and_self]
  have grown := @Laid.insert (front ++ [b]) back ⟨p,len-blockHeaderSize,false⟩ (by rwa [← append_cons])
    (fun x member => ?_) (fun x member => ?_) ⟨room.low,?_⟩ ⟨room.start,sizeWhole,sizeLarge⟩
  · rwa [← append_cons] at grown
  · rcases mem_append.mp member with inFront | isB
    · exact before x inFront
    cases mem_singleton.mp isB
    exact beforeB
  · rw [ends]
    exact after x member
  rw [ends]
  exact room.high

end

section

variable (shown : Shows m head blocks)
include shown

theorem adjacentIff (member : b ∈ blocks) (x : Nat) :
    adjacent m b.addr x = true ↔ b.stop = x := by
  unfold adjacent Block.stop
  rw [shown.size b member,beq_iff_eq]

theorem Shows.beside {p len} (room : Room blocks p len)
    (within : Within m n p (p+blockHeaderSize)) : Shows n head blocks := by
  refine ⟨chainCongr ?_ shown.chain,fun x member => ?_,fun x member => ?_⟩
  · intro y there
    obtain ⟨x,member,rfl⟩ := mem_map.mp there
    exact within.link (room.clear x member)
  · rw [(within.header (room.clear x member)).1]
    exact shown.size x member
  rw [(within.header (room.clear x member)).2.2]
  exact shown.mark x member

theorem prependShows {p len} (laid : Laid blocks) (room : Room blocks p len)
    (all : ∀ x ∈ blocks, p + len ≤ x.addr) (size : sizeAt m p = len-blockHeaderSize) (mark : isFreeAt m p = false) :
    (head = 0 ∨ p < head) ∧ Shows (setNext m p head) p (⟨p,len-blockHeaderSize,false⟩::blocks) ∧
    Laid (⟨p,len-blockHeaderSize,false⟩::blocks) := by
  obtain ⟨ends,nonzero,_,_,sizeWhole,sizeLarge⟩ := room.block false
  have first : (head = 0 ∨ p < head) ∧ head < 2^64 := by
    cases blocks with
    | nil =>
      have none := pointerNone shown.chain
      omega
    | cons x rest =>
      have here := (pointerSome shown.chain.1).1
      have above := all x mem_cons_self
      have bound := (laid.window x mem_cons_self).2
      have inside := x.headerInside
      unfold minSplit heapAlign blockHeaderSize kernelBase pmmDirectMapEnd at *
      omega
  have header := @setNextHeader m p head first.2
  have within := setNextWithin m p head
  have linked : link (setNext m p head) p = pointer head := by
    unfold link
    rw [header.2.1]
  have kept := shown.beside room within
  refine ⟨first.1,⟨⟨pointerSet nonzero,?_⟩,?_,?_⟩,?_⟩
  · rw [linked]
    exact kept.chain
  · intro x member
    rcases mem_cons.mp member with new | old
    · subst new
      exact header.1.trans size
    · exact kept.size x old
  · intro x member
    rcases mem_cons.mp member with new | old
    · subst new
      exact header.2.2.trans mark
    · exact kept.mark x old
  refine @Laid.insert [] blocks ⟨p,len-blockHeaderSize,false⟩ laid (fun x member => by cases member)
    (fun x member => ?_) ⟨room.low,?_⟩ ⟨room.start,sizeWhole,sizeLarge⟩
  · rw [ends]
    exact all x member
  rw [ends]
  exact room.high

theorem kExpandHeapShows {size phys len} (laid : Laid blocks)
    (sized : numPages size * pageSize = len) (room : Room blocks (physToVirt phys) len) :
    ∃ n first front b back, kExpandHeap ⟨m,head⟩ size phys = some (b.addr,⟨n,first⟩) ∧
    Shows n first (front ++ b::back) ∧ Laid (front ++ b::back) ∧ Grown blocks (physToVirt phys) len front b back ∧
    ∀ x, Spared blocks (physToVirt phys) x → n x = m x := by
  obtain ⟨ends,nonzero,small,sizeSmall,_,_⟩ := room.block false
  have header := @freshHeader m false (physToVirt phys) (len-blockHeaderSize) sizeSmall
  unfold kExpandHeap
  dsimp only
  rw [sized]
  generalize physToVirt phys = p at *
  generalize setNext (setIsFree (setSize m p (len-blockHeaderSize)) p false) p 0 = m1 at *
  obtain ⟨freshSize,_,freshMark,w1⟩ := header
  have shown1 := shown.beside room w1
  rcases splitAt laid.spaced room.apart with all | ⟨front,c,back,rfl,before,beforeC,after⟩
  · obtain ⟨first,shows_,laid_⟩ := prependShows shown1 laid room all freshSize freshMark
    rw [if_pos first]
    exact ⟨_,_,[],⟨p,len-blockHeaderSize,false⟩,blocks,rfl,shows_,laid_,
      .fresh rfl (fun x member => by cases member) all (fun c member => by cases member),
      fun x spared => (w1.trans (setNextWithin m1 p head)) x spared.1⟩
  have here : c ∈ front ++ c::back := mem_append_right _ mem_cons_self
  have chain := shown1.chain
  rw [map_append,map_cons] at chain
  have lower (x : Block) (stops : x.stop ≤ p) : x.addr < p := by
    have inside := x.headerInside
    unfold blockHeaderSize at inside
    omega
  have notFirst : ¬ (head = 0 ∨ p < head) := by
    cases front with
    | nil =>
      obtain ⟨same,set⟩ := pointerSome chain.1
      have low := lower c beforeC
      omega
    | cons x rest =>
      obtain ⟨same,set⟩ := pointerSome chain.1
      have low := lower x (before x mem_cons_self)
      omega
  have walked : lastBelow m1 p walkLimit head = some c.addr := by
    refine lastBelowChain chain ?_ (lower c beforeC) ?_ ?_
    · intro y there
      obtain ⟨x,member,rfl⟩ := mem_map.mp there
      exact lower x (before x member)
    · intro y there
      obtain ⟨x,member,rfl⟩ := mem_map.mp there
      exact le_trans (le_add_right p len) (after x member)
    have count := laid.length
    rw [length_append,length_cons] at count
    rw [length_map]
    omega
  obtain ⟨inserted,laidInserted⟩ := insertShows shown1 laid room before beforeC after freshSize freshMark
  rw [if_neg notFirst,walked,Option.map_some]
  have hereIn : c ∈ front ++ c::⟨p,len-blockHeaderSize,false⟩::back := mem_append_right _ mem_cons_self
  have frame x (spared : Spared (front ++ c::back) p x) :
      setNext (setNext m1 p (nextAt m1 c.addr)) c.addr p x = m x := by
    rw [setNextOther (by have link := (spared.2 c here).1; omega),setNextWithin m1 p _ x spared.1]
    exact w1 x spared.1
  generalize setNext (setNext m1 p (nextAt m1 c.addr)) c.addr p = m3 at *
  have touching : (isFreeAt m3 c.addr = true ∧ adjacent m3 c.addr p = true) ↔ (c.free = true ∧ c.stop = p) := by
    rw [inserted.mark c hereIn,adjacentIff inserted hereIn]
  by_cases both : c.free = true ∧ c.stop = p
  · rw [if_pos (touching.mpr both)]
    obtain ⟨joined,within,laidJoined⟩ := @absorbShows m3 head front back c ⟨p,len-blockHeaderSize,false⟩ inserted
      laidInserted both.2
    have total : c.size + (len-blockHeaderSize+blockHeaderSize) = c.size+len := by
      have large := room.large
      unfold minSplit at large
      omega
    simp only [Block.join,total,both.1] at joined laidJoined
    refine ⟨_,_,front,⟨c.addr,c.size+len,true⟩,back,rfl,joined,laidJoined,.joined rfl both.1 both.2 after,fun x spared => ?_⟩
    exact (within x ((spared.2 c here).2 both.1)).trans (frame x spared)
  rw [if_neg (fun yes => both (touching.mp yes))]
  refine ⟨_,_,front ++ [c],⟨p,len-blockHeaderSize,false⟩,back,rfl,?_,?_,.fresh ?_ ?_ after ?_,frame⟩
  · rwa [← append_cons]
  · rwa [← append_cons]
  · rw [← append_cons]
  · intro x member
    rcases mem_append.mp member with inFront | isC
    · exact before x inFront
    cases mem_singleton.mp isC
    exact beforeC
  intro x last
  rw [List.getLast?_concat] at last
  cases last
  exact both

end

theorem swallowShows (shown : Shows m head (front ++ b::d::back)) (laid : Laid (front ++ b::d::back)) (freeD : d.free = true) :
    Shows (mergePrev m b.addr d.addr) head (front ++ swallow b (d::back)) ∧ Laid (front ++ swallow b (d::back)) ∧
    (b.free = true → Within m (mergePrev m b.addr d.addr) b.addr (b.addr+blockHeaderSize)) ∧
    (b.free = false → mergePrev m b.addr d.addr = m) := by
  have here : b ∈ front ++ b::d::back := mem_append_right _ mem_cons_self
  have touching : (isFreeAt m b.addr = true ∧ adjacent m b.addr d.addr = true) ↔ b.Touches d := by
    rw [shown.mark b here,adjacentIff shown here]
    simp only [Block.Touches,freeD,true_and]
  unfold mergePrev
  by_cases both : b.Touches d
  · rw [if_pos (touching.mpr both),swallowTouching both]
    obtain ⟨joined,within,after⟩ := absorbShows shown laid both.2.2
    refine ⟨joined,after,fun _ => within,fun used => ?_⟩
    rw [both.1] at used
    cases used
  rw [if_neg (fun yes => both (touching.mp yes)),swallowApart both]
  exact ⟨shown,laid,fun _ x _ => rfl,fun _ => rfl⟩

theorem mergeNextShows (shown : Shows m head (front ++ b::back)) (laid : Laid (front ++ b::back)) (freeB : b.free = true) :
    Shows (mergeNext m b.addr) head (front ++ swallow b back) ∧ Laid (front ++ swallow b back) ∧
    Within m (mergeNext m b.addr) b.addr (b.addr+blockHeaderSize) := by
  have here : b ∈ front ++ b::back := mem_append_right _ mem_cons_self
  have tail := shown.tail
  unfold mergeNext
  cases back with
  | nil =>
    have last : nextAt m b.addr = 0 := pointerNone tail
    rw [if_neg (fun yes => yes.1 last)]
    exact ⟨shown,laid,fun x _ => rfl⟩
  | cons d rest =>
  obtain ⟨next,nonzero⟩ := pointerSome tail.1
  have hereD : d ∈ front ++ b::d::rest := mem_append_right _ (mem_cons_of_mem b mem_cons_self)
  have touching : (nextAt m b.addr ≠ 0 ∧ isFreeAt m (nextAt m b.addr) = true ∧
      adjacent m b.addr (nextAt m b.addr) = true) ↔ b.Touches d := by
    rw [next,shown.mark d hereD,adjacentIff shown here]
    simp only [Block.Touches,freeB,true_and,ne_eq,nonzero,not_false_eq_true]
  by_cases both : b.Touches d
  · rw [if_pos (touching.mpr both),swallowTouching both,next]
    obtain ⟨joined,within,after⟩ := absorbShows shown laid both.2.2
    exact ⟨joined,after,within⟩
  rw [if_neg (fun yes => both (touching.mp yes)),swallowApart both]
  exact ⟨shown,laid,fun x _ => rfl⟩

theorem kFreeShows (shown : Shows m head (front ++ b::back)) (laid : Laid (front ++ b::back)) :
    ∃ n, kFree ⟨m,head⟩ (b.addr+blockHeaderSize) = some ⟨n,head⟩ ∧ Shows n head (released front b back) ∧
    Laid (released front b back) ∧ ∀ x, ¬ Touched front b x → n x = m x := by
  have here : b ∈ front ++ b::back := mem_append_right _ mem_cons_self
  have nonzero := (laid.small here).1
  have marked := setIsFreeShows shown laid true
  have w0 := setIsFreeWithin m b.addr true
  obtain ⟨merged,laidMerged,w1⟩ := mergeNextShows marked (laid.flag true) rfl
  obtain ⟨c,tail,swallowed,sameAddr,freeC⟩ := swallowHead ⟨b.addr,b.size,true⟩ back
  have within := w0.trans w1
  unfold kFree
  rw [if_neg (by unfold blockHeaderSize; omega),Nat.add_sub_cancel]
  dsimp only
  generalize mergeNext (setIsFree m b.addr true) b.addr = k at merged within ⊢
  have chain := merged.chain
  rw [swallowed,map_append,map_cons,sameAddr] at chain
  have count := laidMerged.length
  rw [swallowed] at count
  have found : search (link k) (fun prev => nextAt k prev == b.addr) walkLimit (pointer head) =
      some ((front.map Block.addr ++ b.addr::tail.map Block.addr).find? (fun prev => nextAt k prev == b.addr)) :=
    searchChain chain (by simpa using count)
  rw [found,findPrev chain nonzero,List.getLast?_map,Option.map_some]
  unfold released
  cases last : front.getLast? with
  | none =>
    have empty : front = [] := List.getLast?_eq_none_iff.mp last
    subst empty
    refine ⟨k,rfl,merged,laidMerged,fun x untouched => within x ?_⟩
    by_contra inside
    exact untouched (.inl ⟨by omega,by omega⟩)
  | some p =>
  have whole : front.dropLast ++ [p] = front := dropLast_append_getLast? p last
  have inFront : p ∈ front := mem_of_getLast? last
  have listed : front ++ swallow ⟨b.addr,b.size,true⟩ back = front.dropLast ++ p::c::tail := by
    rw [swallowed,append_cons front.dropLast p,whole]
  rw [listed] at merged laidMerged
  obtain ⟨joined,laidJoined,touching,untouching⟩ := swallowShows merged laidMerged freeC
  rw [sameAddr] at joined touching untouching
  rw [swallowed]
  refine ⟨mergePrev k p.addr b.addr,rfl,joined,laidJoined,fun x untouched => ?_⟩
  have outside : k x = m x := within x (by
    by_contra inside
    exact untouched (.inl ⟨by omega,by omega⟩))
  cases free : p.free with
  | false => rw [untouching free,outside]
  | true =>
    refine (touching free x ?_).trans outside
    by_contra inside
    exact untouched (.inr ⟨p,inFront,free,by omega,by omega⟩)

end Miviex.Heap
