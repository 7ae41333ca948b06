import Mathlib.Data.Int.Order.Basic
import Tacit.Lib.InsertionMap
import Tacit.Lib.Prog
import Tacit.Lib.Rows
/-!
# The wallet's trees (dapp/evm-pool-zk.js:67-174)

The plain tree over the pool's leaves and the incremental one, over the hash of two field elements. What an array has no element
for (`undefined`) or holds no value at (`null`) is `none`. A `Number` is exact; `^` and `>>` act on 32 bits.
-/
namespace Tacit

namespace EvmPool

namespace Wallet

open Prog

def EVM_TREE_DEPTH : Nat := 32

abbrev Path := List (Option Nat)

/-! ## Numbers and their texts -/

/-- `x ^ 1`. -/
def xorOne (x : Int) : Int :=
  let y := x.bmod (2 ^ 32)
  if y % 2 = 0 then y + 1 else y - 1

/-- `x >> 1`. -/
def shrOne (x : Int) : Int := x.bmod (2 ^ 32) / 2

/-- `l[i]`. -/
def elementAt (l : List Nat) (i : Int) : Option Nat := if i < 0 then none else l[i.toNat]?

/-- `String(x)`. -/
def text : Option Nat → String
  | some n => n.repr
  | none => "null"

/-- `BigInt(s)` of a decimal text; `none` where it throws. -/
def readDecimal (s : String) : Option Nat := if s.toList.all Char.isDigit then some (Nat.ofDigitChars 10 s.toList 0) else none

section

variable (H : Nat → Nat → Nat)

/-- `zeros` (dapp/btc-pool-zk.js:171). -/
def zeros (i : Nat) : Nat := Merkle.zeros H 0 i

/-! ## The plain tree -/

structure Tree where
  layers : List (List Nat)
  root : Nat
  size : Nat

/-- The loop of `tree` (:70): a layer and `n` above it; a last node without a partner is paired with the empty subtree. -/
def layersFrom : Nat → Nat → List Nat → List (List Nat)
  | 0, _, cur => [cur]
  | n + 1, d, cur => cur :: layersFrom n (d + 1) (Merkle.levelUp H (zeros H d) cur)

/-- `tree` (:68). -/
def tree (leaves : List Nat) : Tree :=
  let layers := layersFrom H EVM_TREE_DEPTH 0 leaves
  ⟨layers, (layers.getD EVM_TREE_DEPTH []).headD (zeros H EVM_TREE_DEPTH), leaves.length⟩

/-- The loop of `siblings` (:81), on `n` layers from `d` up. -/
def siblingsFrom (t : Tree) : Nat → Nat → Int → Path
  | 0, _, _ => []
  | n + 1, d, i =>
    let sib := xorOne i
    let layer := t.layers.getD d []
    (if sib < layer.length then elementAt layer sib else some (zeros H d)) :: siblingsFrom t n (d + 1) (shrOne i)

/-- `siblings` (:78). -/
def Tree.siblings (t : Tree) (level : Nat) (index : Int) : Path := siblingsFrom H t (EVM_TREE_DEPTH - level) level index

/-- `path` (:88). -/
def Tree.path (t : Tree) (index : Nat) : Except String Path := do
  refuse (t.size ≤ index) "evm-pool-zk: index out of range"
  return t.siblings H 0 index

/-! ## The incremental tree -/

structure IncTree where
  size : Nat
  root : Nat
  filled : List Nat
  tracked : InsertionMap Nat Path

/-- What `toJSON` returns. -/
structure Saved where
  size : Nat
  root : String
  filled : List String
  tracked : List (String × List String)

/-- One tracked leaf as it was saved. -/
def readTracked (e : String × List String) : Option (Nat × Path) := do
  let i ← readDecimal e.1
  let path ← e.2.mapM readDecimal
  return (i, path.map some)

/-- `incTree` (:98). -/
def incTree : Option Saved → Option IncTree
  | none => some ⟨0, zeros H EVM_TREE_DEPTH, (List.range EVM_TREE_DEPTH).map (zeros H), .empty⟩
  | some state => do
    let root ← readDecimal state.root
    let filled ← state.filled.mapM readDecimal
    let tracked ← state.tracked.mapM readTracked
    return ⟨state.size, root, filled, .ofEntries tracked⟩

/-- `toJSON` (:161); the integer keys of an object come in ascending order. -/
def IncTree.toJSON (t : IncTree) : Saved where
  size := t.size
  root := t.root.repr
  filled := t.filled.map Nat.repr
  tracked := (t.tracked.entries.mergeSort fun a b => a.1 ≤ b.1).map fun e => (e.1.repr, e.2.map text)

/-- The state of the loop of `append` (:119). -/
structure Climb where
  filled : List Nat
  tracked : InsertionMap Nat Path
  cur : List Nat
  lo : Nat

/-- What a level makes of the path of leaf `i` (:122). -/
def patch (L lo hi prevFilled : Nat) (cur : List Nat) (i : Nat) (path : Path) : Path :=
  let s := xorOne (i / 2 ^ L : Nat)
  if (lo : Int) ≤ s ∧ s ≤ hi then path.set L (elementAt cur (s - lo))
  else if path[L]? = some none then path.set L (some (if s < lo then prevFilled else zeros H L))
  else path

/-- One level of `append` (:119). -/
def Climb.level (L : Nat) (c : Climb) : Climb :=
  let hi := c.lo + c.cur.length - 1
  let prevFilled := c.filled.getD L 0
  let lastEven := if hi % 2 = 0 then hi else hi - 1
  let nlo := c.lo / 2
  let nhi := hi / 2
  { tracked := c.tracked.mapValues (patch H L c.lo hi prevFilled c.cur)
    filled := if c.lo ≤ lastEven then c.filled.set L (c.cur.getD (lastEven - c.lo) 0) else c.filled
    cur := (List.range' nlo (nhi + 1 - nlo)).map fun p =>
      H (if 2 * p < c.lo then prevFilled else c.cur.getD (2 * p - c.lo) 0)
        (if 2 * p + 1 ≤ hi then c.cur.getD (2 * p + 1 - c.lo) 0 else zeros H L)
    lo := nlo }

/-- `n` levels from `L` up. -/
def climbFrom : Nat → Nat → Climb → Climb
  | 0, _, c => c
  | n + 1, L, c => climbFrom n (L + 1) (c.level H L)

/-- A leaf to be tracked (:113). -/
def track (start n i : Nat) : Prog IncTree String Unit := do
  check (i < start ∨ start + n ≤ i) "evm-pool-zk: tracked index outside the batch"
  modify fun t => { t with tracked := t.tracked.set i (List.replicate EVM_TREE_DEPTH none) }

/-- `append` (:107). -/
def append (leaves tracks : List Nat) : Prog IncTree String Unit :=
  if leaves = [] then pure ()
  else do
    let t ← get
    let start := t.size
    let n := leaves.length
    check (2 ^ EVM_TREE_DEPTH < start + n) "evm-pool-zk: tree full"
    forEach tracks.eraseDups (track start n)
    modify fun t =>
      let c := climbFrom H EVM_TREE_DEPTH 0 ⟨t.filled, t.tracked, leaves, start⟩
      ⟨start + n, c.cur.getD 0 0, c.filled, c.tracked⟩

/-- `has` (:147). -/
def IncTree.has (t : IncTree) (i : Nat) : Bool := t.tracked.has i

/-- `path` (:148). -/
def IncTree.path (t : IncTree) (i : Nat) : Except String Path := need (t.tracked.get? i) "evm-pool-zk: leaf is not tracked"

/-- `siblings` (:154). -/
def IncTree.siblings (t : IncTree) (level index : Int) : Except String Path := do
  refuse (level ≠ 1 ∨ index ≠ shrOne t.size) "evm-pool-zk: only the next pair slot"
  return (List.range' 1 (EVM_TREE_DEPTH - 1)).map fun d => if t.size / 2 ^ d % 2 = 1 then t.filled[d]? else some (zeros H d)

/-- `untrack` (:160). -/
def untrack (i : Nat) : Prog IncTree String Unit := modify fun t => { t with tracked := t.tracked.delete i }

/-- A round trip: what `clone` returns (:162), and `incTree` of what `toJSON` returned. -/
def reload : Prog IncTree String Unit := do
  let t ← get
  let t ← orThrow (incTree H (some t.toJSON)) "Cannot convert to a BigInt"
  modify fun _ => t

/-! ## The insertion -/

/-- One level of `insert` (:170) and of `rootFromPath` (dapp/btc-pool-zk.js:205); `none` where Poseidon is handed no sibling. -/
def foldLevel (i : Nat) (path : Path) (cur : Option Nat) (d : Nat) : Option Nat := do
  let cur ← cur
  let sib ← path[d]?.join
  return if i / 2 ^ d % 2 = 1 then H sib cur else H cur sib

/-- `insert` (:167). -/
def insert (pair : Nat × Nat) (start : Nat) (insPath : Path) : Option Nat :=
  (List.range (EVM_TREE_DEPTH - 1)).foldl (foldLevel H (start / 2) insPath) (some (H pair.1 pair.2))

/-! ## Runs -/

inductive Step
  | append (leaves tracks : List Nat)
  | untrack (i : Nat)
  | reload

def Step.run : Step → Prog IncTree String Unit
  | .append leaves tracks => Wallet.append H leaves tracks
  | .untrack i => Wallet.untrack i
  | .reload => Wallet.reload H

end

/-- The leaves that some steps append. -/
def leavesOf (steps : List Step) : List Nat := steps.flatMap fun
  | .append leaves _ => leaves
  | _ => []

/-- Every tracked leaf is one of its batch, `n` being the size before. -/
def Tracks : Nat → List Step → Prop
  | _, [] => True
  | n, .append leaves tracks :: steps => (∀ i ∈ tracks, n ≤ i ∧ i < n + leaves.length) ∧ Tracks (n + leaves.length) steps
  | n, _ :: steps => Tracks n steps

end Wallet

end EvmPool

end Tacit
