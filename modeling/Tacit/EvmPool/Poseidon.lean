import Tacit.Lib.Frontier
/-!
# Poseidon as the pool's programs call it

A field element is a natural number, its representative, and so is a `uint256`; `reduce` is what the field makes of
a word. A digest may be any natural, which is what lets an injective Poseidon exist.
-/
namespace Tacit

/-- circomlib's Poseidon over the BN254 scalar field, by its list of inputs. -/
structure Poseidon where
  reduce : Nat → Nat
  hash : List Nat → Nat

/-- Poseidon is injective and never the empty leaf; its digests, the empty leaf among them, are representatives. -/
structure Poseidon.Ideal (H : Poseidon) : Prop where
  injective : ∀ {l l' : List Nat}, l.length = l'.length → H.hash l = H.hash l' → l = l'
  nonzero : ∀ l, H.hash l ≠ 0
  reduce_hash : ∀ l, H.reduce (H.hash l) = H.hash l
  reduce_zero : H.reduce 0 = 0

namespace Poseidon

variable (H : Poseidon)

/-- `PoseidonT3.hash([left, right])`: the inputs are taken modulo the field order. -/
def hash2 (left right : Nat) : Nat := H.hash [H.reduce left, H.reduce right]

/-- `zero(level)`: the empty subtree at each height. -/
def zero (level : Nat) : Nat := Merkle.zeros H.hash2 0 level

/-- `_root` (TacitEvmPoolCheckpoints.sol:88): the root of a tree of `size` leaves whose right edge is `filled`; of the
words only the first 32 are read. -/
def edgeRoot (size : Nat) (filled : Nat → Nat) : Nat :=
  (List.range 32).foldl (fun cur level =>
    if size / 2 ^ level % 2 = 1 then H.hash2 (filled level) cur else H.hash2 cur (H.zero level)) 0

end Poseidon

end Tacit
