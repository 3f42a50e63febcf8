import Mathlib.Data.List.Find
import Mathlib.Data.List.Pairwise
import Miviex.HeapBlocks

/-! Runs of the kernel heap. The blocks tile the pages the heap got, and a step leaves the bytes
of the other used blocks alone but for the link of the block in front of a new run. -/
namespace Miviex
open List Runs Function

open FlatMemory PointerChain Machine

namespace Heap

variable {front back : List Block} {b d : Block}

def blocks (h : Heap) : Option (List Block) :=
  (collect (link h.mem) walkLimit (pointer h.freeList)).map
    (fun nodes => nodes.map (fun a => ⟨a,sizeAt h.mem a,isFreeAt h.mem a⟩))

theorem Shows.blocks {h : Heap} {list} (shown : Shows h.mem h.freeList list) (laid : Laid list) : h.blocks = some list := by
  unfold Heap.blocks
  rw [collectChain shown.chain (by rw [length_map]; exact laid.length),Option.map_some,map_map]
  congr 1
  refine (map_congr_left (fun b member => ?_)).trans (map_id list)
  rw [comp_apply,shown.size b member,shown.mark b member]
  rfl

def Covers (list : List Block) (x : Nat) : Prop := ∃ b ∈ list, b.addr ≤ x ∧ x < b.stop

theorem coversAppend {xs ys x} : Covers (xs ++ ys) x ↔ Covers xs x ∨ Covers ys x := by
  unfold Covers
  simp only [mem_append,or_and_right,exists_or]

theorem coversCons {xs x} : Covers (b::xs) x ↔ (b.addr ≤ x ∧ x < b.stop) ∨ Covers xs x := by
  unfold Covers
  simp only [mem_cons,or_and_right,exists_or,exists_eq_left]

theorem coversNil {x} : ¬ Covers [] x := by
  rintro ⟨b,member,_⟩
  cases member

theorem coversCarve (size x) (b : Block) : Covers (carve size b) x ↔ b.addr ≤ x ∧ x < b.stop := by
  unfold carve
  split
  · rw [coversCons]
    simp only [coversNil,or_false]
    rfl
  rename_i large
  rw [coversCons,coversCons]
  simp only [coversNil,or_false]
  unfold remainder Block.stop minSplit heapAlign blockHeaderSize at *
  dsimp only
  omega

theorem coversSwallow (b rest x) : Covers (swallow b rest) x ↔ Covers (b::rest) x := by
  cases rest with
  | nil => exact Iff.rfl
  | cons d rest =>
  by_cases both : b.Touches d
  · rw [swallowTouching both,coversCons,coversCons,coversCons]
    obtain ⟨_,_,touch⟩ := both
    have joined : (b.addr ≤ x ∧ x < (b.join d).stop) ↔
        (b.addr ≤ x ∧ x < b.stop) ∨ (d.addr ≤ x ∧ x < d.stop) := by
      unfold Block.join Block.stop blockHeaderSize at *
      dsimp only
      omega
    rw [← or_assoc,← joined]
  · rw [swallowApart both]

theorem swallowKeeps {x rest} (member : x ∈ b::rest) (used : x.free = false) : x ∈ swallow b rest := by
  cases rest with
  | nil => exact member
  | cons d rest =>
  by_cases both : b.Touches d
  · rw [swallowTouching both]
    rcases mem_cons.mp member with isB | more
    · rw [isB,both.1] at used
      cases used
    rcases mem_cons.mp more with isD | later
    · rw [isD,both.2.1] at used
      cases used
    · exact mem_cons_of_mem _ later
  rw [swallowApart both]
  exact member

theorem releasedConcat (front : List Block) (c b back) : released (front ++ [c]) b back =
    front ++ swallow c (swallow ⟨b.addr,b.size,true⟩ back) := by
  unfold released
  rw [getLast?_concat,dropLast_concat]

theorem releasedCovers (front b back x) : Covers (released front b back) x ↔ Covers (front ++ b::back) x := by
  have flagged : Covers (⟨b.addr,b.size,true⟩::back) x ↔ Covers (b::back) x := by
    rw [coversCons,coversCons]
    exact Iff.rfl
  rcases eq_nil_or_concat' front with rfl | ⟨init,c,rfl⟩
  · exact (coversSwallow _ _ x).trans flagged
  rw [releasedConcat,coversAppend,coversSwallow,coversCons,coversSwallow,flagged,← coversCons,← coversAppend,append_cons init c]

theorem releasedKeeps {x} (member : x ∈ front ++ b::back) (used : x.free = false) (other : x ≠ b) :
    x ∈ released front b back := by
  have inTail : x ∈ back → x ∈ swallow ⟨b.addr,b.size,true⟩ back := fun inBack =>
    swallowKeeps (mem_cons_of_mem _ inBack) used
  rcases eq_nil_or_concat' front with rfl | ⟨init,c,rfl⟩
  · exact inTail ((mem_cons.mp member).resolve_left other)
  rw [← append_cons,mem_append,mem_cons,mem_cons] at member
  rw [releasedConcat,mem_append]
  rcases member with early | isC | isB | inBack
  · exact .inl early
  · exact .inr (swallowKeeps (isC ▸ mem_cons_self) used)
  · exact absurd isB other
  · exact .inr (swallowKeeps (mem_cons_of_mem _ (inTail inBack)) used)

def Coalesced (list : List Block) : Prop :=
  list.IsChain (fun x y => ¬ (x.free = true ∧ y.free = true ∧ x.stop = y.addr))

theorem coalescedAppend {xs ys} : Coalesced (xs ++ ys) ↔ Coalesced xs ∧ Coalesced ys ∧
    ∀ x ∈ xs.getLast?, ∀ y ∈ ys.head?, ¬ x.Touches y :=
  isChain_append

theorem coalescedCons {xs} : Coalesced (b::xs) ↔
    (∀ y ∈ xs.head?, ¬ b.Touches y) ∧ Coalesced xs :=
  isChain_cons

theorem swallowCoalesced {rest} (good : Coalesced rest) : Coalesced (swallow b rest) := by
  cases rest with
  | nil => exact isChain_singleton b
  | cons d rest =>
  by_cases both : b.Touches d
  · rw [swallowTouching both,coalescedCons]
    obtain ⟨seam,tail⟩ := coalescedCons.mp good
    refine ⟨fun y first clash => seam y first ⟨both.2.1,clash.2.1,?_⟩,tail⟩
    obtain ⟨_,_,touch⟩ := clash
    obtain ⟨_,_,meets⟩ := both
    unfold Block.stop at *
    dsimp only at touch
    omega
  rw [swallowApart both,coalescedCons]
  refine ⟨fun y first => ?_,good⟩
  cases first
  exact both

theorem releasedCoalesced (good : Coalesced (front ++ b::back)) : Coalesced (released front b back) := by
  obtain ⟨goodFront,goodTail,_⟩ := coalescedAppend.mp good
  have goodBack := (coalescedCons.mp goodTail).2
  have merged := @swallowCoalesced ⟨b.addr,b.size,true⟩ back goodBack
  rcases eq_nil_or_concat' front with rfl | ⟨init,c,rfl⟩
  · exact merged
  rw [releasedConcat]
  obtain ⟨goodInit,_,seam⟩ := coalescedAppend.mp goodFront
  refine coalescedAppend.mpr ⟨goodInit,swallowCoalesced merged,fun x isLast y isFirst clash => ?_⟩
  obtain ⟨e,tail,same,addr,free⟩ := swallowHead c (swallow ⟨b.addr,b.size,true⟩ back)
  rw [same] at isFirst
  cases isFirst
  exact seam x isLast c rfl ⟨clash.1,free ▸ clash.2.1,addr ▸ clash.2.2⟩

theorem carveCoalesced {size} (goodFront : Coalesced front) (goodBack : Coalesced back)
    (seam : ¬ b.size < size+minSplit → ∀ y ∈ back.head?, ¬ (y.free = true ∧ b.stop = y.addr)) :
    Coalesced (front ++ carve size b ++ back) := by
  have used : ∀ x : Block, x.free = false → ∀ y : Block, ¬ x.Touches y := by
    intro x off y clash
    cases off.symm.trans clash.1
  have usedRight : ∀ x y : Block, y.free = false → ¬ x.Touches y := by
    intro x y off clash
    cases off.symm.trans clash.2.1
  rw [append_assoc]
  unfold carve
  split
  · refine coalescedAppend.mpr ⟨goodFront,coalescedCons.mpr ⟨fun y _ => used _ rfl y,goodBack⟩,fun x _ y first => ?_⟩
    cases first
    exact usedRight x _ rfl
  rename_i large
  refine coalescedAppend.mpr ⟨goodFront,coalescedCons.mpr ⟨fun y _ => used _ rfl y,coalescedCons.mpr
    ⟨fun y first clash => ?_,goodBack⟩⟩,fun x _ y first => ?_⟩
  · refine seam large y first ⟨clash.2.1,?_⟩
    have touch := clash.2.2
    unfold remainder Block.stop minSplit blockHeaderSize at *
    dsimp only at touch
    omega
  cases first
  exact usedRight x _ rfl

theorem carveClash {size} (large : ¬ b.size < size+minSplit) (free : d.free = true) (touch : b.stop = d.addr) :
    ¬ Coalesced (front ++ carve size b ++ d::back) := by
  intro good
  rw [append_assoc] at good
  unfold carve at good
  rw [if_neg large] at good
  have tail := (coalescedCons.mp (coalescedAppend.mp good).2.1).2
  refine (coalescedCons.mp tail).1 d rfl ⟨rfl,free,?_⟩
  unfold remainder Block.stop minSplit blockHeaderSize at *
  dsimp only
  omega

theorem Laid.apart {list} (laid : Laid list) {x y} (left : x ∈ list) (right : y ∈ list)
    (other : x ≠ y) : x.stop ≤ y.addr ∨ y.stop ≤ x.addr := by
  have symmetric : Std.Symm (fun x y : Block => x.stop ≤ y.addr ∨ y.stop ≤ x.addr) := ⟨fun _ _ => Or.symm⟩
  have either : list.Pairwise (fun x y => x.stop ≤ y.addr ∨ y.stop ≤ x.addr) := laid.spaced.imp .inl
  exact either.forall left right other

theorem Block.nonempty (b : Block) : b.addr < b.stop := by
  unfold Block.stop blockHeaderSize
  omega

theorem Laid.follows (laid : Laid (front ++ b::back)) (member : d ∈ front ++ b::back) (touch : b.stop = d.addr) :
    ∃ rest, back = d::rest := by
  obtain ⟨before,after,_⟩ := laid.around
  have filled := b.nonempty
  rcases mem_append.mp member with inFront | more
  · have below := before d inFront
    have inside := d.nonempty
    omega
  rcases mem_cons.mp more with same | inBack
  · subst same
    omega
  cases back with
  | nil => cases inBack
  | cons y rest =>
    rcases mem_cons.mp inBack with same | later
    · exact ⟨rest,by rw [same]⟩
    have spaced := (pairwise_cons.mp (pairwise_cons.mp (pairwise_append.mp laid.spaced).2.1).2).1 d later
    have first := after y mem_cons_self
    have inside := y.nonempty
    omega

theorem Laid.precedes (laid : Laid (front ++ b::back)) (member : d ∈ front ++ b::back) (touch : d.stop = b.addr) :
    front.getLast? = some d := by
  obtain ⟨before,after,_⟩ := laid.around
  have filled := b.nonempty
  have here : b ∈ front ++ b::back := mem_append_right _ mem_cons_self
  obtain ⟨early,rest,split⟩ := append_of_mem member
  rw [split] at here laid
  obtain ⟨others,follows⟩ := laid.follows here touch
  rw [follows,append_cons early] at split
  have parts := (append_cons_inj_of_notMem (fun inFront => (lt_of_lt_of_le filled (before b inFront)).false)
    (fun inBack => (lt_of_lt_of_le filled (after b inBack)).false)).mp split
  rw [parts.1,getLast?_concat]

theorem alignSizeSpec {size} (positive : 0 < size) (small : size < 2^32) :
    alignSize size % heapAlign = 0 ∧ heapAlign ≤ alignSize size ∧ size ≤ alignSize size := by
  have fits : (size+heapAlign-1) % 2^64 = size+heapAlign-1 := by
    refine Nat.mod_eq_of_lt ?_
    unfold heapAlign
    omega
  unfold alignSize
  unfold heapAlign
  omega

theorem numPagesSpec {size} (large : heapAlign ≤ size) :
    size + blockHeaderSize ≤ numPages size * pageSize ∧ numPages size * pageSize % heapAlign = 0 ∧
    minSplit ≤ numPages size * pageSize := by
  unfold numPages minSplit heapAlign blockHeaderSize pageSize at *
  omega

theorem kFindFreeBlockShows {h : Heap} {list size} (shown : Shows h.mem h.freeList list)
    (laid : Laid list) : h.kFindFreeBlock size =
    some ((list.find? (fun b => b.free && decide (b.size ≥ size))).map Block.addr) := by
  unfold kFindFreeBlock
  rw [searchChain shown.chain (by rw [length_map]; exact laid.length),List.find?_map]
  congr 2
  refine List.find?_congr ?_
  intro b member
  rw [comp_apply,shown.size b member,shown.mark b member]

end Heap

namespace HeapUse

open Heap

/- The blocks behind a state: they tile the page runs, and what was handed out are payloads
of used ones. -/
structure Kept (s : HeapUse) (list : List Block) : Prop where
  shown : Shows s.heap.mem s.heap.freeList list
  laid : Laid list
  covered : ∀ x, Covers list x ↔ ∃ r ∈ s.runs, r.1 ≤ x ∧ x < r.1+r.2
  handed : ∀ p ∈ s.out, ∃ b ∈ list, p.1 = b.addr+blockHeaderSize ∧ b.free = false ∧ p.2 ≤ b.size
  distinct : (s.out.map Prod.fst).Nodup

variable {s t : HeapUse} {list after : List Block}

theorem Kept.room {pages phys} (kept : Kept s list) (granted : grants s.runs pages (some phys) = true)
    (large : minSplit ≤ pages * pageSize) : Room list (physToVirt phys) (pages * pageSize) := by
  unfold grants at granted
  rw [Bool.and_eq_true,decide_eq_true_eq,all_eq_true] at granted
  obtain ⟨⟨_,start,high⟩,clear⟩ := granted
  have base : physToVirt phys = phys+kernelBase := rfl
  refine ⟨by omega,by omega,?_,?_,large,?_⟩
  · unfold heapAlign kernelBase pageSize at *
    omega
  · unfold heapAlign pageSize
    omega
  intro b member
  have filled := b.nonempty
  have wide : 0 < pages * pageSize := lt_of_lt_of_le (by decide) large
  have outside : ∀ x, physToVirt phys ≤ x → x < physToVirt phys + pages * pageSize → ¬ Covers list x := by
    intro x low top inside
    obtain ⟨r,inRuns,from_,to_⟩ := (kept.covered x).mp inside
    have apart := of_decide_eq_true (clear r inRuns)
    omega
  by_contra overlap
  rcases le_total b.addr (physToVirt phys) with first | second
  · exact outside (physToVirt phys) (le_refl _) (by omega) ⟨b,member,first,by omega⟩
  · exact outside b.addr second (by omega) ⟨b,member,le_refl _,filled⟩

inductive Malloced (s : HeapUse) (list : List Block) (size : Nat) (answer : Option Nat) :
    HeapUse → List Block → Prop where
  | took {front back b m} (old : list = front ++ b::back)
      (free : b.free = true) (fits : alignSize size ≤ b.size) (within : Within s.heap.mem m b.addr b.stop)
      (shown : Shows m s.heap.freeList (front ++ carve (alignSize size) b ++ back))
      (laid : Laid (front ++ carve (alignSize size) b ++ back)) :
      Malloced s list size answer ⟨⟨m,s.heap.freeList⟩,s.runs,(b.addr+blockHeaderSize,size)::s.out⟩
        (front ++ carve (alignSize size) b ++ back)
  | refused (full : ∀ b ∈ list, b.free = true → b.size < alignSize size) (none : answer = none) :
      Malloced s list size answer s list
  | grew {front back b m n head phys}
      (full : ∀ b ∈ list, b.free = true → b.size < alignSize size) (found : answer = some phys)
      (room : Room list (physToVirt phys) (numPages (alignSize size) * pageSize))
      (grown : Grown list (physToVirt phys) (numPages (alignSize size) * pageSize) front b back)
      (whole : Laid (front ++ b::back)) (spared : ∀ x, Spared list (physToVirt phys) x → n x = s.heap.mem x)
      (within : Within n m b.addr b.stop)
      (shown : Shows m head (front ++ carve (alignSize size) b ++ back))
      (laid : Laid (front ++ carve (alignSize size) b ++ back)) :
      Malloced s list size answer ⟨⟨m,head⟩,(physToVirt phys,numPages (alignSize size) * pageSize)::s.runs,
          (b.addr+blockHeaderSize,size)::s.out⟩
        (front ++ carve (alignSize size) b ++ back)

theorem kMallocShows {size answer} (kept : Kept s list) (positive : 0 < size)
    (small : size < 2^32) (granted : grants s.runs (numPages (alignSize size)) answer = true) :
    ∃ t after, s.perform (.malloc size answer) = some t ∧ Malloced s list size answer t after := by
  obtain ⟨whole,large,_⟩ := alignSizeSpec positive small
  have search := @kFindFreeBlockShows s.heap list (alignSize size) kept.shown kept.laid
  have nonzero : ¬ size = 0 := by omega
  unfold perform taken Heap.kMalloc
  dsimp only
  rw [if_neg nonzero,search,Option.bind_some]
  cases found : list.find? (fun b => b.free && decide (b.size ≥ alignSize size)) with
  | some b =>
    have hit := List.find?_some found
    rw [Bool.and_eq_true,decide_eq_true_eq] at hit
    obtain ⟨front,back,old⟩ := append_of_mem (mem_of_find?_eq_some found)
    have shown := kept.shown
    have laid := kept.laid
    rw [old] at shown laid
    obtain ⟨after,within⟩ := @claimShows _ _ _ _ b shown (alignSize size) laid
    exact ⟨_,_,rfl,.took old hit.1 hit.2 within after (carveLaid laid whole large)⟩
  | none =>
  have full b (member : b ∈ list) (free : b.free = true) : b.size < alignSize size := by
    have miss := List.find?_eq_none.mp found b member
    rw [Bool.and_eq_true,decide_eq_true_eq,not_and] at miss
    exact Nat.lt_of_not_le (miss free)
  cases answer with
  | none => exact ⟨_,_,rfl,.refused full rfl⟩
  | some phys =>
  have room := kept.room granted (numPagesSpec large).2.2
  obtain ⟨n,head,front,b,back,expanded,shown,laid,grown,spared⟩ :=
    kExpandHeapShows kept.shown kept.laid rfl room
  obtain ⟨after,within⟩ := @claimShows _ _ _ _ b shown (alignSize size) laid
  dsimp only [Option.map_none]
  rw [expanded,Option.map_some]
  exact ⟨_,_,rfl,.grew full rfl room grown laid spared within after (carveLaid laid whole large)⟩

section

variable {p len : Nat} (grown : Grown list p len front b back)
include grown

theorem Grown.stops (large : minSplit ≤ len) : b.stop = p+len := by
  cases grown
  all_goals
    unfold minSplit Block.stop at *
    dsimp only
    omega

theorem Grown.survive {x}
    (member : x ∈ list) (other : x.free = false ∨ p ≤ x.addr) : x ∈ front ∨ x ∈ back := by
  cases grown with
  | fresh old _ _ _ =>
    rw [old] at member
    exact mem_append.mp member
  | @joined _ c old free touch _ =>
  rw [old,mem_append,mem_cons] at member
  rcases member with inFront | rfl | inBack
  · exact .inl inFront
  · have filled := x.nonempty
    rw [free,or_iff_right (by decide)] at other
    omega
  · exact .inr inBack

theorem Grown.covers {x} (large : minSplit ≤ len) :
    Covers (front ++ b::back) x ↔ (p ≤ x ∧ x < p+len) ∨ Covers list x := by
  have stops := Grown.stops grown large
  cases grown with
  | fresh old _ _ _ => rw [old,coversAppend,coversCons,coversAppend,stops,or_left_comm]
  | @joined _ c old free touch _ =>
    have span : (c.addr ≤ x ∧ x < p+len) ↔ (p ≤ x ∧ x < p+len) ∨ (c.addr ≤ x ∧ x < c.stop) := by
      have filled := c.nonempty
      omega
    rw [old,coversAppend,coversCons,coversAppend,coversCons,stops,span,or_assoc,or_left_comm]

theorem Grown.coalesced (good : Coalesced list) :
    Coalesced front ∧ Coalesced back := by
  cases grown with
  | fresh old _ _ _ =>
    rw [old] at good
    obtain ⟨goodFront,goodBack,_⟩ := coalescedAppend.mp good
    exact ⟨goodFront,goodBack⟩
  | joined old _ _ _ =>
    rw [old] at good
    obtain ⟨goodFront,goodTail,_⟩ := coalescedAppend.mp good
    exact ⟨goodFront,(coalescedCons.mp goodTail).2⟩

/- When a free rest of the new block is left. -/
theorem Grown.rest {n} (laid : Laid list)
    (whole : Laid (front ++ b::back)) (enough : n+blockHeaderSize ≤ len) : n+minSplit ≤ b.size ↔
    n + minSplit ≤ len-blockHeaderSize ∨ ∃ c ∈ list, c.free = true ∧ c.stop = p := by
  cases grown with
  | fresh old _ _ gap =>
    refine (or_iff_left ?_).symm
    rintro ⟨c,member,free,touch⟩
    rw [old] at member
    exact gap c (whole.precedes (((sublist_cons_self _ back).append_left front).subset member) touch) ⟨free,touch⟩
  | @joined _ c old free touch _ =>
    have here : c ∈ list := old ▸ mem_append_right _ mem_cons_self
    have least := (laid.aligned c here).2.2
    refine ⟨fun _ => .inr ⟨c,here,free,touch⟩,fun _ => ?_⟩
    dsimp only
    unfold minSplit
    omega

theorem Grown.block {size}
    (room : Room list p len) (laid : Laid list) (enough : size+blockHeaderSize ≤ len) :
    size ≤ b.size ∧ ∀ x ∈ list, x.free = false → x.stop ≤ b.addr ∨ b.stop ≤ x.addr := by
  rw [Grown.stops grown room.large]
  cases grown with
  | fresh old _ _ _ => exact ⟨by dsimp only; omega,fun x member _ => room.apart x member⟩
  | @joined _ c old free touch _ =>
  refine ⟨by dsimp only; omega,fun x member used => ?_⟩
  have here : c ∈ list := old ▸ mem_append_right _ mem_cons_self
  have other : x ≠ c := by
    intro same
    rw [same,free] at used
    cases used
  have clear := room.apart x member
  have apart := laid.apart member here other
  have filled := x.nonempty
  dsimp only
  omega

end

theorem carveFirst {size b} (fits : size ≤ b.size) : ∃ c ∈ carve size b, c.addr = b.addr ∧ c.free = false ∧ size ≤ c.size := by
  unfold carve
  split
  · exact ⟨_,mem_singleton.mpr rfl,rfl,rfl,fits⟩
  · exact ⟨_,mem_cons_self,rfl,rfl,le_refl _⟩

theorem Kept.handOut {front back b n size head m runs} (kept : Kept s list) (shown : Shows m head (front ++ carve n b ++ back))
    (laid : Laid (front ++ carve n b ++ back)) (covered : ∀ x, Covers (front ++ b::back) x ↔ ∃ r ∈ runs, r.1 ≤ x ∧ x < r.1+r.2)
    (survive : ∀ x ∈ list, x.free = false → x ∈ front ∨ x ∈ back)
    (elsewhere : ∀ x ∈ list, x.free = false → x.stop ≤ b.addr ∨ b.stop ≤ x.addr) (fits : n ≤ b.size)
    (asked : size ≤ n) : Kept ⟨⟨m,head⟩,runs,(b.addr+blockHeaderSize,size)::s.out⟩ (front ++ carve n b ++ back) := by
  refine ⟨shown,laid,fun x => ?_,?_,?_⟩
  · rw [← covered x,append_assoc,coversAppend,coversAppend,coversCarve,coversAppend,coversCons]
  · intro p member
    rcases mem_cons.mp member with isNew | old
    · obtain ⟨c,inCarve,addr,used,large⟩ := carveFirst fits
      rw [isNew]
      exact ⟨c,mem_append_left _ (mem_append_right _ inCarve),by rw [addr],used,le_trans asked large⟩
    obtain ⟨c,inList,addr,used,large⟩ := kept.handed p old
    refine ⟨c,?_,addr,used,large⟩
    rcases survive c inList used with inFront | inBack
    · exact mem_append_left _ (mem_append_left _ inFront)
    · exact mem_append_right _ inBack
  rw [map_cons,nodup_cons]
  refine ⟨fun already => ?_,kept.distinct⟩
  obtain ⟨p,old,same⟩ := mem_map.mp already
  obtain ⟨c,inList,addr,used,_⟩ := kept.handed p old
  have apart := elsewhere c inList used
  unfold Block.stop blockHeaderSize at *
  omega

theorem usedElsewhere {front back b x} (laid : Laid (front ++ b::back)) (free : b.free = true)
    (member : x ∈ front ++ b::back) (used : x.free = false) : (x ∈ front ∨ x ∈ back) ∧ (x.stop ≤ b.addr ∨ b.stop ≤ x.addr) := by
  have other : x ≠ b := by
    intro same
    rw [same,free] at used
    cases used
  refine ⟨?_,laid.apart member (mem_append_right _ mem_cons_self) other⟩
  rcases mem_append.mp member with inFront | more
  · exact .inl inFront
  · exact .inr ((mem_cons.mp more).resolve_left other)

theorem Malloced.kept {size answer} (did : Malloced s list size answer t after) (kept : Kept s list)
    (positive : 0 < size) (small : size < 2^32) : Kept t after := by
  obtain ⟨_,large,asked⟩ := alignSizeSpec positive small
  have laidBefore := kept.laid
  cases did with
  | refused _ _ => exact kept
  | @took front back b m old free fits _ shown laid =>
    subst old
    exact kept.handOut shown laid kept.covered (fun x member used => (usedElsewhere laidBefore free member used).1)
      (fun x member used => (usedElsewhere laidBefore free member used).2) fits asked
  | @grew front back b m n head phys _ _ room grown _ _ _ shown laid =>
    have pages := numPagesSpec large
    obtain ⟨fits,elsewhere⟩ := Grown.block grown room laidBefore pages.1
    refine kept.handOut shown laid (fun x => ?_) (fun x member used => Grown.survive grown member (.inl used)) elsewhere fits asked
    rw [Grown.covers grown pages.2.2,kept.covered x]
    simp only [mem_cons,or_and_right,exists_or,exists_eq_left]

def InLink (b : Block) (x : Nat) : Prop := b.addr+8 ≤ x ∧ x < b.addr+16

theorem Malloced.spares {size x answer c} (did : Malloced s list size answer t after)
    (kept : Kept s list) (positive : 0 < size) (small : size < 2^32) (member : c ∈ list) (used : c.free = false)
    (low : c.addr ≤ x) (high : x < c.stop) (elsewhere : ¬ InLink c x) : t.heap.mem x = s.heap.mem x := by
  have large := (alignSizeSpec positive small).2.1
  have laidBefore := kept.laid
  cases did with
  | refused _ _ => rfl
  | took old free _ within _ _ =>
    subst old
    have apart := (usedElsewhere laidBefore free member used).2
    exact within x (by omega)
  | @grew front back b m n head phys _ _ room grown _ spared within _ _ =>
  have apart := (Grown.block grown room laidBefore (numPagesSpec large).1).2 c member used
  refine (within x (by omega)).trans (spared x ⟨?_,fun d inList => ?_⟩)
  · have clear := room.apart c member
    have wide := room.large
    unfold minSplit at wide
    omega
  by_cases same : c = d
  · subst same
    refine ⟨elsewhere,fun free => ?_⟩
    rw [used] at free
    cases free
  have distinct := laidBefore.apart member inList same
  unfold Block.stop blockHeaderSize at *
  omega

structure Freed (s : HeapUse) (list : List Block) (ptr : Nat) (t : HeapUse) (front : List Block) (b : Block)
    (back : List Block) : Prop where
  old : list = front ++ b::back
  addr : ptr = b.addr+blockHeaderSize
  used : b.free = false
  runs : t.runs = s.runs
  out : t.out = s.out.filter (fun p => p.1 != ptr)
  shown : Shows t.heap.mem t.heap.freeList (released front b back)
  laid : Laid (released front b back)
  untouched : ∀ x, ¬ Touched front b x → t.heap.mem x = s.heap.mem x

theorem freedShows {ptr} (kept : Kept s list) (held : s.out.any (fun p => p.1 == ptr) = true) :
    ∃ t front b back, s.perform (.free ptr) = some t ∧ Freed s list ptr t front b back := by
  obtain ⟨p,member,same⟩ := any_eq_true.mp held
  have isPtr : p.1 = ptr := beq_iff_eq.mp same
  obtain ⟨b,inList,addr,used,_⟩ := kept.handed p member
  obtain ⟨front,back,old⟩ := append_of_mem inList
  have shown := kept.shown
  have laid := kept.laid
  rw [old] at shown laid
  obtain ⟨n,result,after,laidAfter,untouched⟩ := kFreeShows shown laid
  refine ⟨⟨⟨n,s.heap.freeList⟩,s.runs,s.out.filter (fun q => q.1 != ptr)⟩,front,b,back,?_,
    old,isPtr ▸ addr,used,rfl,rfl,after,laidAfter,untouched⟩
  unfold perform
  dsimp only
  rw [← isPtr,addr,result,Option.map_some]

theorem Freed.kept {ptr front back b} (did : Freed s list ptr t front b back)
    (kept : Kept s list) : Kept t (released front b back) := by
  refine ⟨did.shown,did.laid,fun x => ?_,fun p member => ?_,?_⟩
  · rw [releasedCovers,← did.old,did.runs]
    exact kept.covered x
  · rw [did.out] at member
    obtain ⟨held,other⟩ := mem_filter.mp member
    obtain ⟨c,inList,addr,used,large⟩ := kept.handed p held
    refine ⟨c,releasedKeeps (did.old ▸ inList) used (fun same => ?_),addr,used,large⟩
    rw [bne_iff_ne] at other
    exact other (by rw [addr,same,did.addr])
  rw [did.out]
  exact kept.distinct.sublist (filter_sublist.map _)

theorem Freed.spares {ptr x front back b c} (did : Freed s list ptr t front b back)
    (kept : Kept s list) (member : c ∈ list) (used : c.free = false) (other : ptr ≠ c.addr+blockHeaderSize)
    (low : c.addr ≤ x) (high : x < c.stop) : t.heap.mem x = s.heap.mem x := by
  have apart d (inList : d ∈ list) (different : d ≠ c) : x < d.addr ∨ d.addr + blockHeaderSize ≤ x := by
    have clear := kept.laid.apart inList member different
    unfold Block.stop blockHeaderSize at *
    omega
  refine did.untouched x ?_
  rintro (inHeader | ⟨d,inFront,free,inHeader⟩)
  · have clear := apart b (did.old ▸ mem_append_right _ mem_cons_self) (fun same => other (same ▸ did.addr))
    omega
  have clear := apart d (did.old ▸ mem_append_left _ inFront) (fun same => by rw [same,used] at free; cases free)
  omega

theorem Shows.payload {m n head} (shown : Shows m head list)
    (same : ∀ b ∈ list, ∀ x, b.addr ≤ x → x < b.addr+blockHeaderSize → n x = m x) : Shows n head list := by
  have header b (member : b ∈ list) : sizeAt n b.addr = sizeAt m b.addr ∧ nextAt n b.addr = nextAt m b.addr ∧
    isFreeAt n b.addr = isFreeAt m b.addr := headerCongr (same b member)
  refine ⟨PointerChain.chainCongr (fun a inChain => ?_) shown.chain,fun b member => ?_,fun b member => ?_⟩
  · obtain ⟨b,member,rfl⟩ := mem_map.mp inChain
    unfold link
    rw [(header b member).2.1]
  · rw [(header b member).1,shown.size b member]
  · rw [(header b member).2.2,shown.mark b member]

theorem Kept.store {addr} (byte) (kept : Kept s list) (fair : s.writable addr = true) :
    Kept {s with heap := {s.heap with mem := update s.heap.mem addr byte}} list := by
  refine ⟨Shows.payload kept.shown (fun b member x low high => ?_),kept.laid,kept.covered,kept.handed,kept.distinct⟩
  refine update_of_ne (fun same => ?_) _ _
  rw [writable,Bool.or_eq_true] at fair
  rcases fair with payload | foreign
  · obtain ⟨p,held,inside⟩ := any_eq_true.mp payload
    obtain ⟨c,inList,start,_,large⟩ := kept.handed p held
    have span := of_decide_eq_true inside
    by_cases isC : b = c
    · subst isC
      omega
    have apart := kept.laid.apart member inList isC
    unfold Block.stop blockHeaderSize at *
    omega
  have covered : Covers list x := ⟨b,member,low,lt_of_lt_of_le high b.headerInside⟩
  obtain ⟨r,inRuns,from_,to_⟩ := (kept.covered x).mp covered
  have outside := of_decide_eq_true (all_eq_true.mp foreign r inRuns)
  omega

inductive Stepped (s : HeapUse) (list : List Block) : Event → HeapUse → List Block → Prop where
  | malloc {size answer t after} (positive : 0 < size)
      (small : size < 2^32) (did : Malloced s list size answer t after) : Stepped s list (.malloc size answer) t after
  | free {ptr t front back b} (did : Freed s list ptr t front b back) :
      Stepped s list (.free ptr) t (released front b back)
  | store {addr byte} (fair : s.writable addr = true) : Stepped s list (.store addr byte)
      {s with heap := {s.heap with mem := update s.heap.mem addr byte}} list

theorem stepShows {e} (kept : Kept s list) (fair : s.allowed e = true) :
    ∃ t after, s.step e = some t ∧ Stepped s list e t after := by
  unfold step
  rw [if_pos fair]
  cases e with
  | malloc size answer =>
    unfold allowed at fair
    rw [Bool.and_eq_true,decide_eq_true_eq] at fair
    obtain ⟨⟨positive,small⟩,granted⟩ := fair
    obtain ⟨t,after,performed,did⟩ := kMallocShows kept positive small granted
    exact ⟨t,after,performed,.malloc positive small did⟩
  | free ptr =>
    obtain ⟨t,front,b,back,performed,did⟩ := freedShows kept fair
    exact ⟨t,_,performed,.free did⟩
  | store addr byte => exact ⟨_,list,rfl,.store fair⟩

theorem stepSpec {e} (kept : Kept s list) (moved : s.step e = some t) : ∃ after, Stepped s list e t after := by
  have fair : s.allowed e = true := by
    by_contra refused
    unfold step at moved
    rw [if_neg refused] at moved
    cases moved
  obtain ⟨t',after,performed,did⟩ := stepShows kept fair
  rw [moved] at performed
  cases performed
  exact ⟨after,did⟩

theorem Stepped.kept {e} (did : Stepped s list e t after) (kept : Kept s list) : Kept t after := by
  cases did with
  | malloc positive small did => exact did.kept kept positive small
  | free did => exact did.kept kept
  | store fair => exact kept.store _ fair

theorem emptyKept (mem) : Kept ⟨⟨mem,0⟩,[],[]⟩ [] := by
  refine ⟨⟨rfl,?_,?_⟩,⟨List.Pairwise.nil,?_,?_⟩,fun x => ?_,?_,nodup_nil⟩
  case refine_5 => exact ⟨fun inside => absurd inside coversNil,fun ⟨r,member,_⟩ => by cases member⟩
  all_goals
    intro b member
    cases member

theorem startKept (mem) {answer} (granted : grants [] 1 answer = true) :
    ∃ list, Kept (start mem answer) list ∧ Coalesced list := by
  cases answer with
  | none => exact ⟨[],emptyKept mem,isChain_nil⟩
  | some phys =>
  have room := (emptyKept mem).room granted (by decide)
  rw [Nat.one_mul] at room
  obtain ⟨ends,nonzero,_,sizeSmall,whole,least⟩ := room.block true
  obtain ⟨sized,next,marked,_⟩ := @freshHeader mem true (physToVirt phys) (pageSize-blockHeaderSize) sizeSmall
  refine ⟨[⟨physToVirt phys,pageSize-blockHeaderSize,true⟩],⟨⟨⟨pointerSet nonzero,?_⟩,
    forall_mem_singleton.mpr sized,forall_mem_singleton.mpr marked⟩,⟨pairwise_singleton _ _,
    forall_mem_singleton.mpr ⟨room.low,room.high⟩,forall_mem_singleton.mpr ⟨room.start,whole,least⟩⟩,
    fun x => ?_,?_,nodup_nil⟩,isChain_singleton _⟩
  · unfold start kHeapInit link
    rw [next]
    rfl
  · unfold Covers start
    rw [Option.map_some,Option.toList_some]
    simp only [mem_singleton,exists_eq_left,ends]
  intro p member
  cases member

theorem visitedKept {mem answer} (granted : grants [] 1 answer = true)
    (events) : ∀ t ∈ visited step (start mem answer) events, ∃ list, Kept t list := by
  obtain ⟨list,kept,_⟩ := startKept mem granted
  refine visitedAlways (fun s e t before moved => ?_) ⟨list,kept⟩
  obtain ⟨list,kept⟩ := before
  obtain ⟨after,did⟩ := stepSpec kept moved
  exact ⟨after,did.kept kept⟩

def Event.spares : Event → Nat → Prop
  | .malloc _ _, _ => True
  | .free ptr, other => ptr ≠ other
  | .store _ _, _ => False

theorem Stepped.spares {e c x} (did : Stepped s list e t after) (kept : Kept s list)
    (member : c ∈ list) (used : c.free = false) (other : e.spares (c.addr+blockHeaderSize)) (low : c.addr ≤ x)
    (high : x < c.stop) (elsewhere : ¬ InLink c x) : t.heap.mem x = s.heap.mem x := by
  cases did with
  | malloc positive small did => exact did.spares kept positive small member used low high elsewhere
  | free did => exact did.spares kept member used other low high
  | store _ => cases other

/- The kernel heap in every state of every run: the list, where it lies, the payloads that are
out, and what a further call can do to them. -/
theorem heapBlocks (mem : FlatMemory.Memory) (answer : Option Nat) (granted : grants [] 1 answer = true)
    (events : List Event) : ∀ s ∈ visited step (start mem answer) events, ∃ list, s.heap.blocks = some list ∧
    list.Pairwise (fun x y => x.addr < y.addr ∧ x.stop ≤ y.addr) ∧
    (∀ b ∈ list, ∀ x, b.addr ≤ x → x < b.stop → ∃ r ∈ s.runs, r.1 ≤ x ∧ x < r.1+r.2) ∧ (s.out.map Prod.fst).Nodup ∧
    (∀ p ∈ s.out, p.1 % heapAlign = 0 ∧ ∃ b ∈ list, p.1 = b.addr+blockHeaderSize ∧ p.2 ≤ b.size ∧ b.free = false ∧
    ∀ e t, s.step e = some t → e.spares p.1 → ∀ x, b.addr ≤ x → x < b.stop → ¬ InLink b x → t.heap.mem x = s.heap.mem x) ∧
    ∀ e, s.allowed e = true → (s.step e).isSome = true := by
  intro s reached
  obtain ⟨list,kept⟩ := visitedKept granted events s reached
  have ordered : ∀ {x y : Block}, x.stop ≤ y.addr → x.addr < y.addr ∧ x.stop ≤ y.addr := by
    intro x y below
    unfold Block.stop blockHeaderSize at *
    omega
  refine ⟨list,kept.shown.blocks kept.laid,kept.laid.spaced.imp ordered,?_,kept.distinct,?_,?_⟩
  · intro b member x low high
    exact (kept.covered x).mp ⟨b,member,low,high⟩
  · intro p held
    obtain ⟨b,member,addr,used,large⟩ := kept.handed p held
    refine ⟨?_,b,member,addr,large,used,fun e t moved other x low high elsewhere => ?_⟩
    · have aligned := (kept.laid.aligned b member).1
      unfold heapAlign blockHeaderSize at *
      omega
    obtain ⟨after,did⟩ := stepSpec kept moved
    exact did.spares kept member used (addr ▸ other) low high elsewhere
  intro e fair
  obtain ⟨t,after,moved,_⟩ := stepShows kept fair
  rw [moved]
  rfl

theorem freedPagesTile : ∃ s, Runs.run step (start (fun _ => 0) (some 0x200000))
    [.malloc 100 none,.malloc 5000 (some 0x1FE000),.free (physToVirt 0x200020)] = some s ∧
    s.out = [(physToVirt 0x1FE020,5000)] ∧ ∃ list, s.heap.blocks = some list ∧
    list.Pairwise (fun x y => x.addr < y.addr ∧ x.stop ≤ y.addr) := by
  have observed : (Runs.run step (start (fun _ => 0) (some 0x200000))
      [.malloc 100 none,.malloc 5000 (some 0x1FE000),.free (physToVirt 0x200020)]).map (fun s => s.out) =
      some [(physToVirt 0x1FE020,5000)] := by
    decide +kernel
  obtain ⟨s,reached,out⟩ := Option.map_eq_some_iff.mp observed
  obtain ⟨list,shown,ordered,_⟩ := heapBlocks (fun _ => 0) (some 0x200000) (by decide)
    [.malloc 100 none,.malloc 5000 (some 0x1FE000),.free (physToVirt 0x200020)] s (visitedLast reached)
  exact ⟨s,reached,out,list,shown,ordered⟩

theorem linkRewritten : ∃ s ∈ visited step (start (fun _ => 0) (some 0x200000)) [.malloc 4064 none],
    (physToVirt 0x200020,4064) ∈ s.out ∧ ∃ t, s.step (.malloc 16 (some 0x300000)) = some t ∧
    ∃ x, physToVirt 0x200000 ≤ x ∧ x < physToVirt 0x200020 ∧ t.heap.mem x ≠ s.heap.mem x := by
  have observed : (Runs.run step (start (fun _ => 0) (some 0x200000)) [.malloc 4064 none]).bind (fun s =>
      (s.step (.malloc 16 (some 0x300000))).map (fun t =>
        (s.out,s.heap.mem (physToVirt 0x20000A),t.heap.mem (physToVirt 0x20000A)))) =
      some ([(physToVirt 0x200020,4064)],0,0x30) := by
    decide +kernel
  obtain ⟨s,reached,stepped⟩ := Option.bind_eq_some_iff.mp observed
  obtain ⟨t,moved,values⟩ := Option.map_eq_some_iff.mp stepped
  obtain ⟨out,before,after⟩ : s.out = [(physToVirt 0x200020,4064)] ∧ s.heap.mem (physToVirt 0x20000A) = 0 ∧
      t.heap.mem (physToVirt 0x20000A) = 0x30 := by
    simpa only [Prod.mk.injEq] using values
  refine ⟨s,visitedLast reached,out ▸ mem_singleton.mpr rfl,t,moved,physToVirt 0x20000A,by decide,
    by decide,?_⟩
  rw [before,after]
  decide

theorem Coalesced.range {lo hi} (good : Coalesced list) (laid : Laid list) (some_ : lo < hi)
    (covered : ∀ x, lo ≤ x → x < hi → Covers list x) (free : ∀ b ∈ list, b.addr < hi → lo < b.stop → b.free = true) :
    ∃ b ∈ list, b.free = true ∧ b.addr ≤ lo ∧ hi ≤ b.stop := by
  obtain ⟨b,member,low,high⟩ := covered lo (le_refl _) some_
  have bFree := free b member (by omega) high
  by_cases whole : hi ≤ b.stop
  · exact ⟨b,member,bFree,low,whole⟩
  exfalso
  -- the block of the byte after `b` touches `b` and follows it in the list
  obtain ⟨d,there,dLow,dHigh⟩ := covered b.stop (by omega) (by omega)
  have dFree := free d there (by omega) (by omega)
  have other : b ≠ d := by
    intro same
    subst same
    omega
  have touch : b.stop = d.addr := by
    have apart := laid.apart member there other
    omega
  obtain ⟨front,back,rfl⟩ := append_of_mem member
  obtain ⟨rest,follows⟩ := laid.follows there touch
  rw [follows] at good
  exact (coalescedCons.mp (coalescedAppend.mp good).2.1).1 d rfl ⟨bFree,dFree,touch⟩

def Whole (s : HeapUse) : Prop := ∃ list, s.heap.blocks = some list ∧ Coalesced list ∧
  ∀ lo hi, lo < hi → (∀ x, lo ≤ x → x < hi → ∃ r ∈ s.runs, r.1 ≤ x ∧ x < r.1+r.2) →
    (∀ b ∈ list, b.addr < hi → lo < b.stop → b.free = true) → ∃ b ∈ list, b.free = true ∧ b.addr ≤ lo ∧ hi ≤ b.stop

/- `k_malloc` takes a run of pages that ends where a free block starts, and leaves a free rest
of it: the run is larger than what was asked for, or it joined a free block before it. -/
def Clash (s : HeapUse) : Event → Prop
  | .malloc size (some phys) => ∃ list, s.heap.blocks = some list ∧
      (∀ b ∈ list, b.free = true → b.size < alignSize size) ∧
      (∃ d ∈ list, d.free = true ∧ physToVirt phys + numPages (alignSize size) * pageSize = d.addr) ∧
      (alignSize size + minSplit ≤ numPages (alignSize size) * pageSize - blockHeaderSize ∨
        ∃ c ∈ list, c.free = true ∧ c.stop = physToVirt phys)
  | _ => False

theorem Malloced.coalesced {size answer} (did : Malloced s list size answer t after)
    (kept : Kept s list) (positive : 0 < size) (small : size < 2^32) (good : Coalesced list)
    (safe : ¬ s.Clash (.malloc size answer)) : Coalesced after := by
  have pages := numPagesSpec (alignSizeSpec positive small).2.1
  cases did with
  | refused _ _ => exact good
  | took old free _ _ _ _ =>
    rw [old] at good
    obtain ⟨goodFront,goodTail,_⟩ := coalescedAppend.mp good
    obtain ⟨seam,goodBack⟩ := coalescedCons.mp goodTail
    exact carveCoalesced goodFront goodBack (fun _ y first clash => seam y first ⟨free,clash.1,clash.2⟩)
  | @grew front back b m n head phys full found room grown whole _ _ _ _ =>
  subst found
  obtain ⟨goodFront,goodBack⟩ := Grown.coalesced grown good
  refine carveCoalesced goodFront goodBack (fun large y first clash => ?_)
  have touch := (Grown.stops grown room.large).symm.trans clash.2
  have member : y ∈ list := by
    cases grown with
    | fresh old _ _ _ => exact old ▸ mem_append_right _ (mem_of_mem_head? first)
    | joined old _ _ _ => exact old ▸ mem_append_right _ (mem_cons_of_mem _ (mem_of_mem_head? first))
  have rest := (Grown.rest grown kept.laid whole pages.1).mp (Nat.le_of_not_lt large)
  exact safe ⟨list,kept.shown.blocks kept.laid,full,⟨y,member,clash.1,touch⟩,rest⟩

theorem Malloced.clash {size answer} (did : Malloced s list size answer t after)
    (kept : Kept s list) (positive : 0 < size) (small : size < 2^32) (bad : s.Clash (.malloc size answer)) :
    ¬ Coalesced after := by
  have pages := numPagesSpec (alignSizeSpec positive small).2.1
  cases answer with
  | none => cases bad
  | some phys =>
  obtain ⟨_,shown,full,⟨d,member,free,touch⟩,rest⟩ := bad
  rw [kept.shown.blocks kept.laid] at shown
  cases shown
  cases did with
  | refused _ none => cases none
  | took old bFree fits _ _ _ =>
    have tooSmall := full _ (old ▸ mem_append_right _ mem_cons_self) bFree
    omega
  | @grew front back b m n head _ _ found room grown whole _ _ _ _ =>
  cases found
  have stops := (Grown.stops grown room.large).trans touch
  have inList : d ∈ front ++ b::back := by
    rcases Grown.survive grown member (.inr (by omega)) with inFront | inBack
    · exact mem_append_left _ inFront
    · exact mem_append_right _ (mem_cons_of_mem _ inBack)
  obtain ⟨others,follows⟩ := whole.follows inList stops
  have large := (Grown.rest grown kept.laid whole pages.1).mpr rest
  rw [follows]
  exact carveClash (Nat.not_lt_of_le large) free stops

theorem keptWhole (kept : Kept s list) (good : Coalesced list) : s.Whole :=
  ⟨list,kept.shown.blocks kept.laid,good,fun _ _ some_ covered free =>
    Coalesced.range good kept.laid some_ (fun x low high => (kept.covered x).mpr (covered x low high)) free⟩

/- Free neighbours are merged as long as no new run of pages ends at a free block with a free
rest of its own. -/
theorem heapCoalesced (mem : FlatMemory.Memory) (answer : Option Nat) (granted : grants [] 1 answer = true)
    (events : List Event) : (∀ t ∈ visited step (start mem answer) events, t.Whole) ↔
    ∀ m ∈ moves step (start mem answer) events, ¬ m.1.Clash m.2 := by
  refine @visitedIff _ _ step (fun s => ∃ list, Kept s list ∧ Coalesced list) Whole Clash
    (fun s ⟨list,kept,good⟩ => keptWhole kept good) ?_ ?_ _ _ (startKept mem granted)
  · rintro s e t ⟨list,kept,good⟩ safe moved
    obtain ⟨after,did⟩ := stepSpec kept moved
    refine ⟨after,did.kept kept,?_⟩
    cases did with
    | malloc positive small did => exact did.coalesced kept positive small good safe
    | free did => exact releasedCoalesced (did.old ▸ good)
    | store _ => exact good
  rintro s e t ⟨list,kept,good⟩ bad moved ⟨_,shown,coalesced,_⟩
  obtain ⟨after,did⟩ := stepSpec kept moved
  have keptAfter := did.kept kept
  rw [keptAfter.shown.blocks keptAfter.laid] at shown
  cases shown
  cases did with
  | malloc positive small did => exact did.clash kept positive small bad coalesced
  | free | store => cases bad

theorem firstPageWhole : grants [] 1 (some 0x200000) = true ∧ ∀ t ∈ visited step (start (fun _ => 0) (some 0x200000))
    [.malloc 100 none,.malloc 100 none,.free (physToVirt 0x200020),.free (physToVirt 0x2000B0)], t.Whole := by
  refine ⟨by decide,(heapCoalesced (fun _ => 0) (some 0x200000) (by decide) _).mpr (fun m member clash => ?_)⟩
  have event := movesEvent m member
  simp only [mem_cons,not_mem_nil,or_false] at event
  rcases event with isEvent | isEvent | isEvent | isEvent
  all_goals
    rw [isEvent] at clash
    cases clash

theorem restNotMerged : ∃ t ∈ visited step (start (fun _ => 0) (some 0x200000)) [.malloc 5000 (some 0x1FE000)], ¬ t.Whole := by
  have observed : (Runs.run step (start (fun _ => 0) (some 0x200000)) [.malloc 5000 (some 0x1FE000)]).bind
      (fun t => t.heap.blocks) = some [⟨physToVirt 0x1FE000,5008,false⟩,⟨physToVirt 0x1FF3B0,3120,true⟩,
        ⟨physToVirt 0x200000,4064,true⟩] := by
    decide +kernel
  obtain ⟨t,reached,shown⟩ := Option.bind_eq_some_iff.mp observed
  refine ⟨t,visitedLast reached,?_⟩
  rintro ⟨list,found,coalesced,_⟩
  rw [shown] at found
  cases found
  exact (coalescedCons.mp (coalescedCons.mp coalesced).2).1 _ rfl ⟨rfl,rfl,by decide⟩

end HeapUse
end Miviex
