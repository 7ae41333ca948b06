import Tacit.Lib.Chunks
import Tacit.Pool.ReflectionLib
/-!
# Effects past the surfacing caps (sp1/confidential/src/reflect.rs)

What a cycle cannot surface is hashed, eight leaves a chunk, and only the chunks' roots are published; past 64
roots the roots themselves are chunked, level by level, until what is left fits. The leaves come in the order
spends, redemptions, locks, metas, calls, so that a chunk is always what one `drainOverflow` can take.
-/
namespace Tacit

open ReflectionLib

namespace ReflectGuest

def maxCbtcLocksSurfaced : Nat := 16
def maxCbtcSpentSurfaced : Nat := 32
def maxCbtcRedeemedSurfaced : Nat := 32
def maxMetasSurfaced : Nat := 8
def maxBtcCallPairsSurfaced : Nat := 16
def overflowChunk : Nat := 8
def maxOverflowRootsSurfaced : Nat := 64

/-- One effect of a cycle. -/
inductive Item
  | spent (o : Word)
  | redeemed (o : Word)
  | lock (f : CbtcLockFolded)
  | asset (m : AssetMeta)
  | call (id record : Word)
deriving DecidableEq

/-- A lock's value is a nonzero `u64` (`fold_cbtc_lock` refuses zero), a ticker is a `bytes16`. -/
def Item.Fits : Item → Prop
  | .lock f => f.vBtc ≠ 0 ∧ f.vBtc < 2 ^ 64
  | .asset m => m.ticker.length = 16
  | _ => True

/-- What the folds of a cycle collected; `btcCalls` are the pairs of the flat `btc_calls_folded`. -/
structure Cycle where
  cbtcSpent : List Word
  cbtcRedeemed : List Word
  cbtcFolded : List CbtcLockFolded
  attestedMetas : List AssetMeta
  btcCalls : List (Word × Word)
  folded_fit : ∀ f ∈ cbtcFolded, (Item.lock f).Fits
  metas_fit : ∀ m ∈ attestedMetas, (Item.asset m).Fits

/-- The flat vector of a list of pairs. -/
def flatPairs (l : List (Word × Word)) : List Word := l.flatMap fun p => [p.1, p.2]

section
variable (K : Keccak)

/-- `absorb` (:2673): one leaf. -/
def absorb (tag : Nat) (payload : Bytes) : Word := K.kn [[tag], payload]

/-- The leaves past the caps (:2679-:2707). -/
def overflowLeaves (c : Cycle) : List Word :=
  (c.cbtcSpent.drop maxCbtcSpentSurfaced).map (fun o => absorb K 0x04 o.bytes) ++
  (c.cbtcRedeemed.drop maxCbtcRedeemedSurfaced).map (fun o => absorb K 0x05 o.bytes) ++
  (c.cbtcFolded.drop maxCbtcLocksSurfaced).map (fun f =>
    absorb K 0x01 (f.outpoint.bytes ++ beBytes 8 f.vBtc ++ f.commitment.bytes)) ++
  (c.attestedMetas.drop maxMetasSurfaced).map (fun m =>
    absorb K 0x02 (m.assetId.bytes ++ m.ticker ++ [m.tickerLen] ++ [m.decimals] ++ m.cid.bytes)) ++
  (c.btcCalls.drop maxBtcCallPairsSurfaced).map (fun p => absorb K 0x03 (p.1.bytes ++ p.2.bytes))

/-- `fold_chunk_roots` (:2711). -/
def foldChunkRoots (leaves : List Word) : List Word :=
  (chunks overflowChunk leaves).map fun chunk => chunk.foldl (fun acc leaf => K.kn [acc.bytes ++ leaf.bytes]) 0

theorem foldChunkRoots_length (leaves : List Word) :
    (foldChunkRoots K leaves).length = (chunks overflowChunk leaves).length := by simp [foldChunkRoots]

/-- The leaves of a round of the loop (:2741-:2744). -/
def wrappedLeaves (roots : List Word) : List Word := roots.map fun root => absorb K 0x06 root.bytes

/-- Eight roots to one: past the cap each round leaves fewer. -/
theorem wrapped_length_lt {roots : List Word} (hcap : maxOverflowRootsSurfaced < roots.length) :
    (foldChunkRoots K (wrappedLeaves K roots)).length < roots.length := by
  have hlen : (wrappedLeaves K roots).length = roots.length := List.length_map _
  have h1 : 1 < (wrappedLeaves K roots).length := hlen ▸ lt_trans (by decide) hcap
  have hlt := length_chunks_lt (n := overflowChunk) (by decide) h1
  rwa [hlen, ← foldChunkRoots_length K] at hlt

/-- The loop over the levels (:2739-:2747): what is surfaced and `overflow_root_level`. -/
def wrapRoots (roots : List Word) (level : Nat) : List Word × Nat :=
  if maxOverflowRootsSurfaced < roots.length then
    wrapRoots (foldChunkRoots K (wrappedLeaves K roots)) (level + 1)
  else (roots, level)
termination_by roots.length
decreasing_by exact wrapped_length_lt K ‹_›

/-- The roots a cycle publishes and their level. -/
def overflowRoots (c : Cycle) : List Word × Nat := wrapRoots K (foldChunkRoots K (overflowLeaves K c)) 1

/-- The fields of the public values that carry effects (:2748-:2785); the others are `r`'s. -/
def Cycle.publish (c : Cycle) (r : BitcoinRelayPublicValues) : BitcoinRelayPublicValues :=
  { r with
    cbtcLocksFolded := c.cbtcFolded.take maxCbtcLocksSurfaced
    cbtcLocksSpent := c.cbtcSpent.take maxCbtcSpentSurfaced
    cbtcLocksRedeemed := c.cbtcRedeemed.take maxCbtcRedeemedSurfaced
    attestedAssetMetas := c.attestedMetas.take maxMetasSurfaced
    btcCallsFolded := flatPairs (c.btcCalls.take maxBtcCallPairsSurfaced)
    overflowRoots := (overflowRoots K c).1
    overflowRootLevel := (overflowRoots K c).2 }

end

/-! ## The deferred effects -/

/-- The effects of a cycle, in leaf order. -/
def Cycle.effects (c : Cycle) : List Item :=
  c.cbtcSpent.map .spent ++ c.cbtcRedeemed.map .redeemed ++ c.cbtcFolded.map .lock ++ c.attestedMetas.map .asset ++
    c.btcCalls.map fun p => .call p.1 p.2

/-- Those past the caps. -/
def Cycle.deferred (c : Cycle) : List Item :=
  (c.cbtcSpent.drop maxCbtcSpentSurfaced).map .spent ++ (c.cbtcRedeemed.drop maxCbtcRedeemedSurfaced).map .redeemed ++
    (c.cbtcFolded.drop maxCbtcLocksSurfaced).map .lock ++ (c.attestedMetas.drop maxMetasSurfaced).map .asset ++
    (c.btcCalls.drop maxBtcCallPairsSurfaced).map fun p => .call p.1 p.2

/-- The deferred effects, chunk by chunk. -/
def Cycle.overflowChunks (c : Cycle) : List (List Item) := chunks overflowChunk c.deferred

/-- The leaf of an effect. -/
def Item.leaf (K : Keccak) : Item → Word
  | .spent o => terminalLeaf K true o
  | .redeemed o => terminalLeaf K false o
  | .lock f => lockLeaf K f
  | .asset m => metaLeaf K m
  | .call id record => K.kn [[0x03], id.bytes, record.bytes]

/-- The place of an effect's kind in the leaf order. -/
def Item.kind : Item → Nat
  | .spent _ => 0
  | .redeemed _ => 1
  | .lock _ => 2
  | .asset _ => 3
  | .call _ _ => 4

variable {K : Keccak}

/-- The guest's leaves are the contract's. -/
theorem overflowLeaves_eq (c : Cycle) : overflowLeaves K c = c.deferred.map (Item.leaf K) := by
  have hlock : ∀ f ∈ c.cbtcFolded.drop maxCbtcLocksSurfaced,
      absorb K 0x01 (f.outpoint.bytes ++ beBytes 8 f.vBtc ++ f.commitment.bytes) = lockLeaf K f := by
    intro f hf
    have hfit := (c.folded_fit f (List.mem_of_mem_drop hf)).2
    rw [lockLeaf, Nat.mod_eq_of_lt hfit]
    simp [absorb, Keccak.kn]
  simp only [overflowLeaves, Cycle.deferred, List.map_append, List.map_map]
  rw [List.map_congr_left hlock]
  congr 1
  · congr 1
    exact List.map_congr_left fun m _ => by simp [absorb, Item.leaf, metaLeaf, Keccak.kn]
  · exact List.map_congr_left fun p _ => by simp [absorb, Item.leaf, Keccak.kn]

theorem foldChunkRoots_eq (leaves : List Word) :
    foldChunkRoots K leaves = (chunks overflowChunk leaves).map (chainRoot K) := by
  refine List.map_congr_left fun chunk _ => ?_
  have : (fun acc leaf => K.kn [acc.bytes ++ leaf.bytes]) = K.k2 := by
    funext acc leaf
    simp [Keccak.k2, Keccak.kn]
  rw [chainRoot, this]

/-- A root for each chunk. -/
theorem chunkRoots_eq (c : Cycle) :
    foldChunkRoots K (overflowLeaves K c) = c.overflowChunks.map fun k => chainRoot K (k.map (Item.leaf K)) := by
  rw [overflowLeaves_eq, foldChunkRoots_eq, chunks_map, List.map_map]
  rfl

/-- A round of the loop: a wrapped root for each chunk of roots. -/
theorem wrappedRoots_eq (roots : List Word) :
    foldChunkRoots K (wrappedLeaves K roots) = (chunks overflowChunk roots).map (metaRoot K) := by
  rw [foldChunkRoots_eq, wrappedLeaves, chunks_map, List.map_map]
  rfl

/-- Whatever the number of roots, the loop ends with at most as many as an attest queues. -/
theorem wrapRoots_length (roots : List Word) (level : Nat) :
    (wrapRoots K roots level).1.length ≤ maxOverflowRootsSurfaced := by
  induction roots, level using wrapRoots.induct K with
  | case1 roots level hcap ih =>
    rw [wrapRoots, if_pos hcap]
    exact ih
  | case2 roots level hcap =>
    rw [wrapRoots, if_neg hcap]
    exact not_lt.1 hcap

/-- The effects up to the caps, in leaf order. -/
def Cycle.surfaced (c : Cycle) : List Item :=
  (c.cbtcSpent.take maxCbtcSpentSurfaced).map .spent ++ (c.cbtcRedeemed.take maxCbtcRedeemedSurfaced).map .redeemed ++
    (c.cbtcFolded.take maxCbtcLocksSurfaced).map .lock ++ (c.attestedMetas.take maxMetasSurfaced).map .asset ++
    (c.btcCalls.take maxBtcCallPairsSurfaced).map fun p => .call p.1 p.2

/-- Each effect is surfaced or in one chunk. -/
theorem Cycle.effects_split (c : Cycle) : c.effects.Perm (c.surfaced ++ c.overflowChunks.flatten) := by
  rw [Cycle.overflowChunks, chunks_flatten, List.perm_iff_count]
  intro e
  have hcut : ∀ {β : Type} (f : β → Item) (n : Nat) (l : List β),
      (l.map f).count e = ((l.take n).map f).count e + ((l.drop n).map f).count e := by
    intro β f n l
    rw [← List.count_append, ← List.map_append, List.take_append_drop]
  simp only [Cycle.effects, Cycle.surfaced, Cycle.deferred, List.count_append]
  have h₁ := hcut .spent maxCbtcSpentSurfaced c.cbtcSpent
  have h₂ := hcut .redeemed maxCbtcRedeemedSurfaced c.cbtcRedeemed
  have h₃ := hcut .lock maxCbtcLocksSurfaced c.cbtcFolded
  have h₄ := hcut .asset maxMetasSurfaced c.attestedMetas
  have h₅ := hcut (fun p => .call p.1 p.2) maxBtcCallPairsSurfaced c.btcCalls
  omega

/-- Deferred effects fit and come in leaf order. -/
theorem Cycle.deferred_fits (c : Cycle) : ∀ e ∈ c.deferred, e.Fits := by
  intro e he
  simp only [Cycle.deferred, List.mem_append, List.mem_map] at he
  rcases he with (((⟨o, -, rfl⟩ | ⟨o, -, rfl⟩) | ⟨f, hf, rfl⟩) | ⟨m, hm, rfl⟩) | ⟨p, -, rfl⟩
  · trivial
  · trivial
  · exact c.folded_fit f (List.mem_of_mem_drop hf)
  · exact c.metas_fit m (List.mem_of_mem_drop hm)
  · trivial

/-- Effects in leaf order. -/
def Ordered (l : List Item) : Prop := l.Pairwise fun a b => a.kind ≤ b.kind

theorem Ordered.append {l l' : List Item} {n : Nat} (h : Ordered l) (h' : Ordered l') (hl : ∀ a ∈ l, a.kind ≤ n)
    (hl' : ∀ b ∈ l', n ≤ b.kind) : Ordered (l ++ l') :=
  List.pairwise_append.2 ⟨h, h', fun a ha b hb => (hl a ha).trans (hl' b hb)⟩

theorem Ordered.map {β : Type} (f : β → Item) (hf : ∀ a b, (f a).kind = (f b).kind) (l : List β) : Ordered (l.map f) :=
  List.pairwise_map.2 (List.pairwise_of_forall fun a b => (hf a b).le)

theorem Cycle.deferred_ordered (c : Cycle) : Ordered c.deferred := by
  have h₁ := Ordered.map .spent (fun _ _ => rfl) (c.cbtcSpent.drop maxCbtcSpentSurfaced)
  have h₂ := Ordered.map .redeemed (fun _ _ => rfl) (c.cbtcRedeemed.drop maxCbtcRedeemedSurfaced)
  have h₃ := Ordered.map .lock (fun _ _ => rfl) (c.cbtcFolded.drop maxCbtcLocksSurfaced)
  have h₄ := Ordered.map .asset (fun _ _ => rfl) (c.attestedMetas.drop maxMetasSurfaced)
  have h₅ := Ordered.map (fun p => .call p.1 p.2) (fun _ _ => rfl) (c.btcCalls.drop maxBtcCallPairsSurfaced)
  refine Ordered.append (n := 4) (Ordered.append (n := 3) (Ordered.append (n := 2) (Ordered.append (n := 1) h₁ h₂ ?_ ?_)
    h₃ ?_ ?_) h₄ ?_ ?_) h₅ ?_ ?_
  all_goals
    intro e he
    simp only [List.mem_append, List.mem_map] at he
    grind [Item.kind]

end ReflectGuest

end Tacit
