import Tacit.Evm
import Tacit.EvmPool.Poseidon
/-!
# The checkpoint registries (contracts/src/checkpoints)

`TacitEvmPoolCheckpoints` keeps points of one pool, `TacitEvmPoolCheckpointsHub` of any pool, and the hub reads through to
the registry it wraps. What a pool answers when it is asked for the size at a root is an input of the call: no
answer stands for a revert, and in a batch also for anything that is not one word.
-/
namespace Tacit

open Prog

namespace Checkpoints

structure Point where
  blockNumber : Nat
  prev : Nat
  postedAt : Nat
  filled : Nat → Nat

/-- An entry never written. -/
def Point.none : Point := ⟨0, 0, 0, fun _ => 0⟩

/-- One pool's points and newest count: the single-pool registry, and the hub's two mappings at a pool. -/
structure Registry where
  latest : Nat
  points : Nat → Point

def Registry.empty : Registry := ⟨0, fun _ => .none⟩

/-- What `post` and `_keep` write. -/
def Registry.store (r : Registry) (size : Nat) (p : Point) : Registry :=
  ⟨if size > r.latest then size else r.latest, Function.update r.points size p⟩

/-- The custom errors of both registries; `poolReverted` is the pool's own revert. -/
inductive CheckpointError
  | notEven | badBlock | known | notHeld | poolReverted
deriving DecidableEq

/-- A block's timestamp. -/
structure Time where
  val : Nat
  pos : 0 < val
  lt : val < 2 ^ 64

/-- What a poster sends, with the time of the block and what the pool answers for a root. -/
structure Submission where
  size : Nat
  blockNumber : Nat
  filled : Nat → Nat
  time : Time
  rootSize : Nat → Option Nat

/-- The entry written for a submission; `newest` is the newest count then. -/
def Submission.point (q : Submission) (newest : Nat) : Point :=
  ⟨q.blockNumber % 2 ^ 64, newest % 2 ^ 64, q.time.val % 2 ^ 64, q.filled⟩

/-- The checks of `post`, `known` being the time of the point already there. -/
def postChecks (H : Poseidon) (q : Submission) (known : Nat) : Except CheckpointError Unit := do
  refuse (q.size = 0 ∨ q.size % 2 = 1) .notEven
  refuse (q.blockNumber ≥ 2 ^ 64) .badBlock
  refuse (known ≠ 0) .known
  let held ← need (q.rootSize (H.edgeRoot q.size q.filled)) .poolReverted
  refuse (held ≠ q.size) .notHeld

/-- `post` of the single-pool registry (TacitEvmPoolCheckpoints.sol:105). -/
def Registry.post (H : Poseidon) (q : Submission) : Prog Registry CheckpointError Unit := do
  let r ← get
  ofExcept (postChecks H q (r.points q.size).postedAt)
  modify fun r => r.store q.size (q.point r.latest)

/-! ## The hub -/

/-- The hub and the registry it wraps. -/
structure World where
  previous : Registry
  pools : Address → Registry

/-- `PREVIOUS_POOL`: the pool of the wrapped registry, zero for a hub that wraps none. -/
structure Config where
  previousPool : Address

def World.deployed : World := ⟨.empty, fun _ => .empty⟩

namespace World

/-- `_wraps` (:134). -/
def wraps (cfg : Config) (pool : Address) : Bool := pool = cfg.previousPool ∧ pool ≠ 0

/-- `latest` (:140). -/
def latest (cfg : Config) (w : World) (pool : Address) : Nat :=
  let size := (w.pools pool).latest
  if wraps cfg pool then (if w.previous.latest > size then w.previous.latest else size) else size

/-- `pointAt` (:152), with the time of the point. -/
def pointAt (cfg : Config) (w : World) (pool : Address) (size : Nat) : Point :=
  let p := (w.pools pool).points size
  if p.postedAt = 0 ∧ wraps cfg pool then w.previous.points size else p

/-- `postedAt` (:164). -/
def postedAt (cfg : Config) (w : World) (pool : Address) (size : Nat) : Nat :=
  let time := ((w.pools pool).points size).postedAt
  if time = 0 ∧ wraps cfg pool then (w.previous.points size).postedAt else time

/-- `_keep` (:228). -/
def keep (cfg : Config) (w : World) (pool : Address) (q : Submission) : World :=
  { w with pools := Function.update w.pools pool ((w.pools pool).store q.size (q.point (latest cfg w pool))) }

end World

/-- `post` of the hub (:190). -/
def hubPost (H : Poseidon) (cfg : Config) (pool : Address) (q : Submission) : Prog World CheckpointError Unit := do
  let w ← get
  ofExcept (postChecks H q (w.postedAt cfg pool q.size))
  modify fun w => w.keep cfg pool q

/-- One turn of the loop of `postMany` (:207-:212): kept, or passed over. A batch too low on gas reverts whole. -/
def postManyStep (H : Poseidon) (cfg : Config) (w : World) (p : Address × Submission) : World :=
  if p.2.size = 0 ∨ p.2.size % 2 = 1 ∨ p.2.blockNumber ≥ 2 ^ 64 then w
  else if w.postedAt cfg p.1 p.2.size ≠ 0 then w
  else if p.2.rootSize (H.edgeRoot p.2.size p.2.filled) ≠ some p.2.size then w
  else w.keep cfg p.1 p.2

/-- `postMany` (:204). -/
def postMany (H : Poseidon) (cfg : Config) (posts : List (Address × Submission)) : Prog World CheckpointError Unit :=
  modify fun w => posts.foldl (postManyStep H cfg) w

/-- A call on one of the two registries, by anyone. -/
inductive Call
  | previousPost (q : Submission)
  | post (pool : Address) (q : Submission)
  | postMany (posts : List (Address × Submission))

/-- The world after a call; the wrapped registry knows nothing of the hub. -/
def Call.run (H : Poseidon) (cfg : Config) (w : World) : Call → World
  | previousPost q => { w with previous := (Registry.post H q).call w.previous }
  | post pool q => (hubPost H cfg pool q).call w
  | postMany posts => (Checkpoints.postMany H cfg posts).call w

def run (H : Poseidon) (cfg : Config) (calls : List Call) : World := calls.foldl (Call.run H cfg) .deployed

/-- The submissions of a call that name `pool`. -/
def Call.submissions (cfg : Config) (pool : Address) : Call → List Submission
  | previousPost q => if World.wraps cfg pool then [q] else []
  | post p q => if p = pool then [q] else []
  | postMany posts => (posts.filter fun p => p.1 = pool).map Prod.snd

end Checkpoints

end Tacit
