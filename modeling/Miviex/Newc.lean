import Mathlib.Tactic.IntervalCases
import Miviex.Runs
import Miviex.UnpackedTree

/-! The newc format of cpio, as it is specified: a magic number, thirteen numbers of eight
hexadecimal digits, a name, contents, both padded to four bytes, and a trailer at the end. A round
of `initramfs_parse` reads one entry of it. -/
namespace Miviex.Initramfs
open List Nat Runs
open Vfs

def lowerDigits : List UInt8 := [48,49,50,51,52,53,54,55,56,57,97,98,99,100,101,102]
def upperDigits : List UInt8 := [48,49,50,51,52,53,54,55,56,57,65,66,67,68,69,70]

def Digit (c : UInt8) (v : Nat) : Prop := lowerDigits[v]? = some c ∨ upperDigits[v]? = some c

def Number (bytes : List UInt8) (v : Nat) : Prop :=
  ∃ digits, List.Forall₂ Digit bytes digits ∧ digits.length = 8 ∧ digits.foldl (fun n d => 16 * n + d) 0 = v

def padded (n : Nat) : Nat := (n+3) / 4 * 4

def dataAt (a : Nat) (name : List UInt8) : Nat := padded (a+headerSize + (name.length+1))

def after (a : Nat) (name data : List UInt8) : Nat := padded (dataAt a name + data.length)

structure Stored (mem : Image) (a : Nat) (h : Header) (name data : List UInt8) : Prop where
  magicBytes : bytesAt mem a 6 = magic
  mode : Number (bytesAt mem (a+14) 8) h.mode.toNat
  uid : Number (bytesAt mem (a+22) 8) h.uid.toNat
  gid : Number (bytesAt mem (a+30) 8) h.gid.toNat
  mtime : Number (bytesAt mem (a+46) 8) h.mtime.toNat
  filesize : Number (bytesAt mem (a+54) 8) h.filesize.toNat
  namesize : Number (bytesAt mem (a+94) 8) h.namesize.toNat
  nameLength : h.namesize.toNat = name.length+1
  dataLength : h.filesize.toNat = data.length
  nameBytes : bytesAt mem (a+headerSize) (name.length+1) = name ++ [0]
  dataBytes : bytesAt mem (dataAt a name) data.length = data

namespace Entry

def text (e : Entry) : List UInt8 := if e.path = [] then dot else [slash].intercalate e.path

def header (e : Entry) : Header where
  mode := e.mode
  uid := e.uid
  gid := e.gid
  mtime := e.mtime
  filesize := .ofNat 32 e.data.length
  namesize := .ofNat 32 (e.text.length+1)

end Entry

/- Entries one after the other from `a`, then the trailer, and only zeros up to `stop`. -/
def Archive (mem : Image) (stop : Nat) : Nat → List Entry → Prop
  | a, [] => ∃ h, Stored mem a h trailer [] ∧ after a trailer [] ≤ stop ∧
      ∀ i, after a trailer [] ≤ i → i < stop → mem i = 0
  | a, e::rest => Stored mem a e.header e.text e.data ∧ Archive mem stop (after a e.text e.data) rest

theorem digitSmall {c v} (digit : Digit c v) : v < 16 := by
  rcases digit with found | found <;> exact (List.getElem?_eq_some_iff.mp found).1

theorem digitRead {c v} (digit : Digit c v) : hexDigit c = some (.ofNat 32 v) := by
  have small := digitSmall digit
  rcases digit with found | found <;> interval_cases v <;> cases found <;> rfl

theorem shiftedIn (n v) (small : v < 16) : (BitVec.ofNat 32 n <<< 4) ||| BitVec.ofNat 32 v = BitVec.ofNat 32 (16 * n + v) := by
  have high : (n % 2^32) <<< 4 % 2^32 = (n % 2^28) <<< 4 := by omega
  apply BitVec.eq_of_toNat_eq
  rw [BitVec.toNat_or,BitVec.toNat_shiftLeft,BitVec.toNat_ofNat,BitVec.toNat_ofNat,BitVec.toNat_ofNat,high,
    mod_eq_of_lt (show v < 2^32 by omega),← shiftLeft_add_eq_or_of_lt (by omega),shiftLeft_eq]
  omega

theorem digitsFolded {bytes digits} {f : BitVec 32 → UInt8 → BitVec 32}
    (shifts : ∀ num c d, Digit c d → f num c = (num <<< 4) ||| .ofNat 32 d) (same : Forall₂ Digit bytes digits) (n : Nat) :
    bytes.foldl f (.ofNat 32 n) = .ofNat 32 (digits.foldl (fun n d => 16 * n + d) n) := by
  induction same generalizing n with
  | nil => rfl
  | cons digit _ ih => rw [foldl_cons,foldl_cons,← ih,shifts _ _ _ digit,shiftedIn _ _ (digitSmall digit)]

theorem numberRead {bytes v} (number : Number bytes v.toNat) : hexToUint bytes = v := by
  obtain ⟨digits,same,eight,value⟩ := number
  refine (digitsFolded (fun num c d digit => ?_) same 0).trans (by rw [value,BitVec.ofNat_toNat,BitVec.setWidth_eq])
  simp only [digitRead digit]

theorem headerRead {mem a h name data} (stored : Stored mem a h name data) : headerAt mem a = h := by
  unfold headerAt
  rw [numberRead stored.mode,numberRead stored.uid,numberRead stored.gid,numberRead stored.mtime,
    numberRead stored.filesize,numberRead stored.namesize]

theorem stringRead {mem a n name} (bytes : bytesAt mem a (name.length+1) = name ++ [0])
    (ends : 0 ∉ name) (enough : name.length < n) : stringAt mem n a = some name := by
  induction name generalizing a n with
  | nil =>
    obtain ⟨n,rfl⟩ := exists_eq_succ_of_ne_zero (ne_of_gt enough)
    have zero : mem a = 0 := by simpa [bytesAt] using bytes
    rw [stringAt,if_pos zero]
  | cons c rest ih =>
  obtain ⟨n,rfl⟩ := exists_eq_succ_of_ne_zero (ne_of_gt (zero_lt_of_lt enough))
  rw [bytesAt,length_cons,range_succ_eq_map,map_cons,map_map,cons_append] at bytes
  obtain ⟨first,tail⟩ := List.cons.inj bytes
  have tail : bytesAt mem (a+1) (rest.length+1) = rest ++ [0] := by
    rw [← tail,bytesAt]
    refine map_congr_left (fun i _ => ?_)
    simp [add_comm 1 i,add_assoc]
  rw [add_zero] at first
  rw [mem_cons,not_or] at ends
  rw [stringAt,first,if_neg (Ne.symm ends.1),ih tail ends.2 (lt_of_succ_lt_succ enough)]
  rfl

theorem alignedUp {n} (fits : n+3 < 2^32) : align4 n = padded n := by
  rw [align4,padded,mod_eq_of_lt fits]

theorem paddedLe (n) : n ≤ padded n ∧ padded n % 4 = 0 := by
  unfold padded
  omega

theorem zerosSkipped {mem stop fuel a} (zeros : ∀ i, a ≤ i → i < stop → mem i = 0) (aligned : a % 4 = 0)
    (whole : stop % 4 = 0) (low : stop < 2^32) (enough : stop ≤ a+fuel) : stop ≤ skipZeros mem stop fuel a := by
  induction fuel generalizing a with
  | zero => exact enough
  | succ fuel ih =>
  unfold skipZeros
  by_cases inside : a < stop
  · have word : bytesAt mem a 4 = [0,0,0,0] := by
      simp only [bytesAt,range_succ_eq_map,range_zero,map_cons,map_nil]
      rw [zeros _ (by omega) (by omega),zeros _ (by omega) (by omega),zeros _ (by omega) (by omega),
        zeros _ (by omega) (by omega)]
    have next : (a+4) % 2^32 = a+4 := mod_eq_of_lt (by omega)
    rw [if_pos ⟨inside,word⟩,next]
    exact ih (fun i above below => zeros i (by omega) below) (by omega) (by omega)
  rw [if_neg (fun both => inside both.1)]
  omega

section

variable {mem : Image} {m : Memory} {clock : Nat → Nat} {stop fuel round a : Nat} {u : Unpacking} {h : Header}
  {name data : List UInt8}

section

variable (stored : Stored mem a h name data) (inside : after a name data ≤ stop) (whole : stop % 4 = 0)
include stored inside whole

theorem Stored.places (low : stop < 2^32) : align4 (a+headerSize+h.namesize.toNat) = dataAt a name ∧
    align4 (dataAt a name + data.length) = after a name data ∧ a < stop := by
  have one := paddedLe (a+headerSize + (name.length+1))
  have two := paddedLe (dataAt a name + data.length)
  rw [stored.nameLength]
  unfold after dataAt at *
  exact ⟨alignedUp (by omega),alignedUp (by omega),by omega⟩

theorem parseEntry (low : stop < 2^32) (ends : 0 ∉ name) (named : name ≠ trailer) (short : name.length < maxPath) :
    initramfsParse mem m clock stop (fuel+1) round a u =
    (Unpacking.entry m h name data (m.room round) {u with vfs := {u.vfs with now := clock round}}).bind (fun u =>
    initramfsParse mem m clock stop fuel (round+1) (after a name data) u) := by
  obtain ⟨first,second,before⟩ := stored.places inside whole low
  have size : ¬ h.namesize.toNat > maxPath := by
    rw [stored.nameLength]
    omega
  have reads : stringAt mem (2^32) (a+headerSize) = some name :=
    stringRead stored.nameBytes ends (lt_trans short (by decide))
  rw [initramfsParse,if_neg (not_not_intro before),if_neg (not_not_intro stored.magicBytes),headerRead stored,reads]
  simp only [Option.bind_some,first,second,named,if_false,size,not_le.mpr short,ge_iff_le,stored.dataLength,stored.dataBytes]

end

theorem parseTrailer (stored : Stored mem a h trailer []) (inside : after a trailer [] ≤ stop) (whole : stop % 4 = 0)
    (low : stop < 2^32) (zeros : ∀ i, after a trailer [] ≤ i → i < stop → mem i = 0) :
    initramfsParse mem m clock stop (fuel+1) round a u = some (0,u) := by
  obtain ⟨first,second,before⟩ := stored.places inside whole low
  have reads : stringAt mem (2^32) (a+headerSize) = some trailer :=
    stringRead stored.nameBytes (by decide) (by decide)
  have skipped : stop ≤ skipZeros mem stop (2^32) (after a trailer []) :=
    zerosSkipped zeros (paddedLe _).2 whole low (by omega)
  rw [initramfsParse,if_neg (not_not_intro before),if_neg (not_not_intro stored.magicBytes),headerRead stored,reads]
  simp only [Option.bind_some,first,stored.dataLength,second,if_true,skipped]

end

/- One round of the loop over the headers: where it goes on, if it does not return. -/
def goesOn (mem : Image) (stop a : Nat) (_ : Unit) : Option Nat :=
  if ¬ a < stop ∨ bytesAt mem a 6 ≠ magic then none
  else
    let h := headerAt mem a
    let next := align4 (align4 (a+headerSize+h.namesize.toNat) + h.filesize.toNat)
    if stringAt mem (2^32) (a+headerSize) = some trailer then
      let next := skipZeros mem stop (2^32) next
      if stop ≤ next then none else some next
    else some next

/- What the round unpacks on the way, wherever it goes on. -/
def unpacks (mem : Image) (m : Memory) (clock : Nat → Nat) (round a : Nat) (u : Unpacking) : Option Unpacking :=
  let h := headerAt mem a
  (stringAt mem (2^32) (a+headerSize)).bind (fun name =>
    if name = trailer ∨ h.namesize.toNat > maxPath then some u
    else if name.length ≥ maxPath then none
    else {u with vfs := {u.vfs with now := clock round}}.entry m h name
      (bytesAt mem (align4 (a+headerSize+h.namesize.toNat)) h.filesize.toNat) (m.room round))

section

variable {mem : Image} {m : Memory} {clock : Nat → Nat} {stop fuel round a b : Nat} {u : Unpacking}

theorem goesOnHeader (more : goesOn mem stop a () = some b) : a < stop ∧ bytesAt mem a 6 = magic := by
  unfold goesOn at more
  split at more
  · cases more
  rename_i header
  rwa [not_or,not_not,not_not] at header

theorem parseGoesOn (more : goesOn mem stop a () = some b) : initramfsParse mem m clock stop (fuel+1) round a u =
    (unpacks mem m clock round a u).bind (initramfsParse mem m clock stop fuel (round+1) b) := by
  obtain ⟨below,header⟩ := goesOnHeader more
  rw [goesOn,if_neg (by simp [below,header])] at more
  rw [initramfsParse,unpacks,if_neg (not_not_intro below),if_neg (not_not_intro header)]
  dsimp only at more ⊢
  cases read : stringAt mem (2^32) (a+headerSize) with
  | none => rfl
  | some name =>
  rw [Option.bind_some,Option.bind_some]
  by_cases last : name = trailer
  · simp only [read,last,true_or,if_true] at more ⊢
    split at more
    · cases more
    rename_i further
    rw [if_neg further,Option.some.inj more]
    rfl
  simp only [read,Option.some.injEq,last,false_or,if_false] at more ⊢
  rw [more]
  split
  · rfl
  split <;> rfl

theorem parseReturns (m clock) (last : goesOn mem stop a () = none) :
    ∃ code, ∀ fuel round u, initramfsParse mem m clock stop (fuel+1) round a u = some (code,u) := by
  unfold goesOn at last
  unfold initramfsParse
  by_cases below : a < stop
  swap
  · exact ⟨-1,fun fuel round u => by simp [below]⟩
  by_cases header : bytesAt mem a 6 = magic
  · rw [if_neg (by simp [below,header])] at last
    dsimp only at last
    split at last
    · rename_i ends
      split at last
      · rename_i past
        exact ⟨0,fun fuel round u => by simp only [below,not_true,if_false,header,ne_eq,ends,Option.bind_some,if_true,past]⟩
      · cases last
    · cases last
  · exact ⟨-1,fun fuel round u => by simp [below,header]⟩

def headerEnd (mem : Image) (a : Nat) : Nat :=
  padded (padded (a+headerSize + (headerAt mem a).namesize.toNat) + (headerAt mem a).filesize.toNat)

theorem nextHeader (mem : Image) (a) : align4 (align4 (a+headerSize + (headerAt mem a).namesize.toNat) +
    (headerAt mem a).filesize.toNat) = headerEnd mem a % 2^32 := by
  unfold headerEnd align4 padded
  omega

/- The data of every header ends below 2^32, and so does the word after `stop`. -/
structure Fits (mem : Image) (start stop : Nat) : Prop where
  word : stop+4 ≤ 2^32
  headers : ∀ a, start ≤ a → a < stop → bytesAt mem a 6 = magic → headerEnd mem a < 2^32

theorem skipZerosForward (word : stop+4 ≤ 2^32) : a ≤ skipZeros mem stop fuel a := by
  induction fuel generalizing a with
  | zero => exact le_refl _
  | succ fuel ih =>
    unfold skipZeros
    split
    · rw [mod_eq_of_lt (by omega)]
      exact le_trans (le_add_right a 4) ih
    · exact le_refl _

theorem Fits.forward {start} (fits : Fits mem start stop) (above : start ≤ a) (more : goesOn mem stop a () = some b) : a < b := by
  obtain ⟨below,header⟩ := goesOnHeader more
  have past : a < headerEnd mem a := by
    unfold headerEnd padded headerSize
    omega
  rw [goesOn,if_neg (by simp [below,header])] at more
  dsimp only at more
  rw [nextHeader,mod_eq_of_lt (fits.headers a above below header)] at more
  split at more
  · split at more
    · cases more
    · exact lt_of_lt_of_le past (Option.some.inj more ▸ skipZerosForward fits.word)
  · exact Option.some.inj more ▸ past

def Increases (mem : Image) (stop start : Nat) : Prop :=
  ∀ rounds, ∀ a ∈ visited (goesOn mem stop) start rounds, ∀ b, goesOn mem stop a () = some b → a < b

section

variable (increases : Increases mem stop a)
include increases

theorem Increases.next (more : goesOn mem stop a () = some b) :
    a < b ∧ Increases mem stop b := by
  refine ⟨increases [] a (visitedStart a []) b more,fun rounds x here => increases (()::rounds) x ?_⟩
  rw [visited,more]
  exact mem_cons_of_mem a here

theorem Increases.stops (enough : stop-a < fuel) :
    Runs.run (goesOn mem stop) a (replicate fuel ()) = none := by
  induction fuel generalizing a with
  | zero => omega
  | succ fuel ih =>
    rw [replicate_succ,Runs.run]
    cases more : goesOn mem stop a () with
    | none => rfl
    | some b =>
      obtain ⟨forward,onwards⟩ := increases.next more
      have below := (goesOnHeader more).1
      exact ih onwards (by omega)

theorem Increases.parsed {more} (enough : stop-a < fuel) (plenty : stop-a < more) :
    initramfsParse mem m clock stop fuel round a u = initramfsParse mem m clock stop more round a u := by
  induction fuel generalizing a more round u with
  | zero => omega
  | succ fuel ih =>
  obtain ⟨more,rfl⟩ := exists_eq_succ_of_ne_zero (ne_of_gt (zero_lt_of_lt plenty))
  cases on : goesOn mem stop a () with
  | none =>
    obtain ⟨code,returns⟩ := parseReturns m clock on
    rw [returns,returns]
  | some b =>
    obtain ⟨forward,onwards⟩ := increases.next on
    have below := (goesOnHeader on).1
    rw [parseGoesOn on,parseGoesOn on]
    refine congrArg (Option.bind _) (funext (fun v => ?_))
    exact ih onwards (by omega) (by omega)

end

end

end Miviex.Initramfs
