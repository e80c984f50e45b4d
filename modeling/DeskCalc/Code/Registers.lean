/-!
# Registers

The target machine has 26 registers, named by letters.  They are handed out in the order of the
alphabet, and none is ever given back.
-/

namespace DeskCalc

/-- The registers not handed out yet, the next one first. -/
structure RegisterPool where
  free : List Char
  deriving DecidableEq

namespace RegisterPool

/-- All registers. -/
def full : RegisterPool :=
  ⟨['a', 'b', 'c', 'd', 'e', 'f', 'g', 'h', 'i', 'j', 'k', 'l', 'm',
    'n', 'o', 'p', 'q', 'r', 's', 't', 'u', 'v', 'w', 'x', 'y', 'z']⟩

/-- Hands out a register. -/
def take? (p : RegisterPool) : Option (Char × RegisterPool) :=
  match p.free with
  | [] => none
  | r :: rest => some (r, ⟨rest⟩)

/-- How many registers are left. -/
def remaining (p : RegisterPool) : Nat := p.free.length

theorem remaining_full : full.remaining = 26 := rfl

theorem take?_eq_none_iff {p : RegisterPool} : p.take? = none ↔ p.remaining = 0 := by
  unfold take? remaining
  split <;> simp_all

theorem remaining_of_take? {p p' : RegisterPool} {r : Char} (h : p.take? = some (r, p')) :
    p.remaining = p'.remaining + 1 := by
  unfold take? at h
  split at h <;> cases h
  simp_all [remaining]

end RegisterPool

end DeskCalc
