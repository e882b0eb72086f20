/-!
# Digits

Numbers in positional notation, in any radix up to sixteen.
-/

namespace ReplicaRing.Digits

/-- The number that a digit of either case stands for. -/
def value? (radix : Nat) (c : Char) : Option Nat :=
  let n := if '0' ≤ c ∧ c ≤ '9' then c.toNat - 48
    else if 'a' ≤ c ∧ c ≤ 'f' then c.toNat - 87
    else if 'A' ≤ c ∧ c ≤ 'F' then c.toNat - 55
    else radix
  if n < radix then some n else none

/-- The number that a text spells; none if it has no digits, or not only digits. -/
def number? (radix : Nat) (s : List Char) : Option Nat :=
  if s.isEmpty then none
  else s.foldlM (fun n c => (value? radix c).map fun d => n * radix + d) 0

end ReplicaRing.Digits
