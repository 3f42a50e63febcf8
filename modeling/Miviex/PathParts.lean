import Miviex.PathWalk

/-! Paths in parts: a path that goes on after a slash is walked part by part, and a path with
a last name is its directory part, the name and the slashes after it. -/
namespace Miviex.Vfs
open List Option

variable {D cur : Addr} {s : Vfs} {c : Cred} {k : Hooks} {memory : Bool}

variable {follow : Bool} {path : List UInt8}

theorem componentExtends {nested goOn further last comp rest back b r result}
    (after : rest ≠ []) (name : b ≠ slash) (inside : b ∈ back)
    (goes : ∀ next nd, goOn next nd = some (.ok r) → further next nd = result)
    (walked : s.component k c memory follow cur comp rest nested goOn = some (.ok r)) :
    s.component k c memory last cur comp (rest ++ back) nested further = result := by
  have words : ∀ next, ¬ s.slashAfterFile next (rest ++ back) := by
    intro next only
    exact name (only.2.2 b (mem_append_right rest inside))
  have onward next nd (done : s.onward rest goOn next nd = some (.ok r)) :
      s.onward (rest ++ back) further next nd = result := by
    unfold Vfs.onward at done ⊢
    rw [if_neg (words next)]
    split at done
    · cases done
    · exact goes next nd done
  have longer : rest ++ back ≠ [] := by simp [after]
  unfold component at walked ⊢
  split at walked
  · cases walked
  rename_i short
  rw [if_neg short]
  split at walked
  · cases walked
  rename_i dir
  rw [if_neg dir]
  split at walked
  · cases walked
  rename_i opens
  rw [if_neg opens]
  obtain ⟨found,stepped,walked⟩ := bind_eq_some_iff.mp walked
  rw [stepped]
  split at walked
  · cases walked
  rename_i next
  obtain ⟨nd,named,walked⟩ := bind_eq_some_iff.mp walked
  simp only [bind_some,named]
  by_cases link : (s.inodes next).type = .symlink
  · simp only [link,after,longer,ne_eq,not_false_eq_true,true_or,and_true,if_true] at walked ⊢
    cases nested with
    | none => cases walked
    | some follows =>
    dsimp only at walked ⊢
    split at walked
    · cases walked
    rename_i room
    rw [if_neg room]
    split at walked
    · cases walked
    rename_i target _
    obtain ⟨found,reached,walked⟩ := bind_eq_some_iff.mp walked
    rw [reached]
    cases found with
    | error e => cases walked
    | ok place => exact onward place.1 place.2 walked
  simp only [link,false_and,if_false] at walked ⊢
  exact onward next nd walked

theorem walkPathSkip {nested d one two} (same : one.dropWhile (· == slash) = two.dropWhile (· == slash)) :
    s.walkPath k c memory nested one follow cur d = s.walkPath k c memory nested two follow cur d := by
  cases split : two.dropWhile (· == slash) with
  | nil => rw [walkPathDone (same.trans split),walkPathDone split]
  | cons first more => rw [walkPathOn (same.trans split),walkPathOn split]

theorem splitAtSlash {front more} (back) {first} (ends : ∀ x ∈ front.getLast?, x = slash)
    (split : front.dropWhile (· == slash) = first::more) : (front ++ back).dropWhile (· == slash) = first::(more ++ back) ∧
    (more ++ back).takeWhile (· != slash) = more.takeWhile (· != slash) ∧
    (more ++ back).dropWhile (· != slash) = more.dropWhile (· != slash) ++ back ∧
    more.dropWhile (· != slash) ≠ [] ∧ ∀ x ∈ (more.dropWhile (· != slash)).getLast?, x = slash := by
  have word : first ≠ slash := by
    have head := List.head?_dropWhile_not (fun b => b == slash) front
    rw [split] at head
    simpa using head
  have tail : (first::more).getLast? = front.getLast? := by
    have parts := takeWhile_append_dropWhile (p := fun b => b == slash) (l := front)
    rw [split] at parts
    rw [← List.getLast?_append_of_ne_nil _ (cons_ne_nil first more),parts]
  have shown : (first::more).getLast? = some slash := by exact congrArg some (ends _ tail.symm)
  have last : more.getLast? = some slash := by
    cases more with
    | nil => exact absurd (Option.some.inj shown) word
    | cons x rest => simpa using shown
  have member : slash ∈ more := mem_of_getLast? last
  have left : more.dropWhile (· != slash) ≠ [] := by
    intro empty
    exact absurd (dropWhile_eq_nil_iff.mp empty slash member) (by simp)
  refine ⟨?_,?_,?_,left,?_⟩
  · rw [dropWhile_append,split]
    rfl
  · rw [takeWhile_append,if_neg]
    intro whole
    have all : more.dropWhile (· != slash) = [] := by
      have parts := congrArg List.length (takeWhile_append_dropWhile (p := fun b => b != slash) (l := more))
      rw [length_append] at parts
      exact length_eq_zero_iff.mp (by omega)
    exact left all
  · rw [dropWhile_append,if_neg (by simpa using left)]
  intro x isLast
  rw [← takeWhile_append_dropWhile (p := fun b => b != slash) (l := more),
    List.getLast?_append_of_ne_nil _ left,isLast] at last
  exact Option.some.inj last

theorem walkPathAppend {nested} (last) {n d e front back b} (name : b ≠ slash) (inside : b ∈ back)
    (ends : ∀ x ∈ front.getLast?, x = slash) (walked : s.walkPath k c memory nested front follow cur d = some (.ok (n,e))) :
    s.walkPath k c memory nested (front ++ back) last cur d = s.walkPath k c memory nested back last n e := by
  fun_induction walkPath s k c memory nested front follow cur d with
  | case1 front cur d split =>
    cases walked
    exact walkPathSkip (by rw [dropWhile_append,split]; rfl)
  | case2 front cur d first more split later =>
    obtain ⟨whole,comp,rest,after,closed⟩ := splitAtSlash back ends split
    rw [walkPathOn whole,comp,rest]
    exact componentExtends after name inside (fun next nd done => later next nd closed done) walked

theorem pathParts (named : lastName path ≠ []) :
    path = directoryPart path ++ (lastName path ++ path.rtakeWhile (· == slash)) := by
  have short : path.rdropWhile (· == slash) ≠ [] := by
    intro empty
    apply named
    have all := rdropWhile_eq_nil_iff.mp empty
    unfold lastName trimmed
    rw [if_pos empty]
    cases path with
    | nil => rfl
    | cons first more =>
      cases eq_of_beq (all first mem_cons_self)
      rfl
  have trim : trimmed path = path.rdropWhile (· == slash) := if_neg short
  rw [← append_assoc,directoryPart,lastName,rdropWhile_append_rtakeWhile,trim,rdropWhile_append_rtakeWhile]

theorem lastNameSplits (named : lastName path ≠ []) : ∃ first more, lastName path = first::more ∧
    first ≠ slash ∧ ∀ b ∈ more, b ≠ slash := by
  have letters b (inside : b ∈ lastName path) : b ≠ slash := by simpa using mem_rtakeWhile_imp inside
  cases split : lastName path with
  | nil => exact absurd split named
  | cons first more =>
    rw [split] at letters
    exact ⟨first,more,rfl,letters first mem_cons_self,fun b inside => letters b (mem_cons_of_mem first inside)⟩

theorem directoryEnds : ∀ x ∈ (directoryPart path).getLast?, x = slash := by
  intro x last
  by_cases empty : directoryPart path = []
  · rw [empty] at last
    cases last
  rw [List.getLast?_eq_some_getLast empty] at last
  cases last
  have stops := rdropWhile_last_not (fun b => b != slash) (trimmed path) empty
  rw [bne_iff_ne,not_not] at stops
  exact stops

theorem parentWalked {base name} (leads : s.vfsParent k c memory base path = some (.ok (D,name))) :
    lastName path ≠ [] ∧ ¬ (lastName path).length > nameMax ∧ (directoryPart path = [] ∧ base = D ∨
    directoryPart path ≠ [] ∧ ∃ d, s.walk k c memory maxSymlinks base (directoryPart path) true = some (.ok (D,d))) := by
  unfold vfsParent at leads
  dsimp only at leads
  split at leads
  · cases leads
  rename_i short
  split at leads
  · cases leads
  rename_i named
  refine ⟨fun empty => named (.inl empty),short,?_⟩
  split at leads
  · rename_i here
    cases leads
    exact .inl ⟨here,rfl⟩
  rename_i there
  refine .inr ⟨there,?_⟩
  split at leads
  · cases leads
  obtain ⟨found,resolved,leads⟩ := map_eq_some_iff.mp leads
  obtain ⟨walked,reached,rfl⟩ := map_eq_some_iff.mp resolved
  rw [vfsResolveDentry,if_neg there] at reached
  rcases walked with e | ⟨n,d⟩
  · cases leads
  simp only [Except.map] at leads
  split at leads
  · cases leads
    exact ⟨d,reached⟩
  · cases leads

end Miviex.Vfs
