import Miviex.AddressSpaces
import Miviex.Runs

/-! Sequences of calls on address spaces. `held` are frames that the caller took from the
physical allocator itself, to map them; mapping one hands it over. -/
namespace Miviex

open Machine

structure SpaceUse where
  machine : Machine
  spaces : List AddressSpace
  held : List Frame

namespace SpaceUse

inductive Event where
  | take
  | create
  | map (as : AddressSpace) (va : Nat) (phys : Frame) (flags : BitVec 12)
  | allocRange (as : AddressSpace) (start stop : Nat) (flags : BitVec 12)
  | freeRange (as : AddressSpace) (start stop : Nat)
  | clone (src : AddressSpace)
  | destroy (as : AddressSpace)

def step (s : SpaceUse) : Event → Option SpaceUse
  | .take =>
    match s.machine.pmmAllocPage with
    | (none,m) => some {s with machine := m}
    | (some f,m) => some {s with machine := m, held := f::s.held}
  | .create =>
    match s.machine.vmmCreateAddressSpace with
    | (none,m) => some {s with machine := m}
    | (some as,m) => some {s with machine := m, spaces := as::s.spaces}
  | .map as va phys flags =>
    if as ∈ s.spaces then
      match s.machine.vmmMapPage as va phys flags with
      | (false,m) => some {s with machine := m}
      | (true,m) => some {s with machine := m, held := s.held.erase phys}
    else none
  | .allocRange as start stop flags =>
    if as ∈ s.spaces then some {s with machine := (s.machine.vmmAllocRange as start stop flags).2} else none
  | .freeRange as start stop =>
    if as ∈ s.spaces then some {s with machine := s.machine.vmmFreeRange as start stop} else none
  | .clone src =>
    if src ∈ s.spaces then
      match s.machine.vmmClone src with
      | (none,m) => some {s with machine := m}
      | (some dst,m) => some {s with machine := m, spaces := dst::s.spaces}
    else none
  | .destroy as =>
    if as ∈ s.spaces then
      some {s with machine := s.machine.vmmDestroyAddressSpace as, spaces := s.spaces.erase as}
    else none

end SpaceUse
end Miviex
