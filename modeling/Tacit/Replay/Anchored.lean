import Tacit.Replay.Standing
/-!
# Paths at an anchor in a standing state (worker/src/btc-shielded-pool.js:343-406)

The heights of the leaves are sorted, so the search for the leaves at or below a height finds those of the blocks up to it, and the
path over them leads to the root of the block at that height.
-/
namespace Tacit

namespace Replay

open Merkle

section

variable {P : Type} {L : Library P} {g : History} {st : BtcPoolState} {a : Int} {i : Nat}

/-- The leaves up to a height, in a tree of which the search can halve every sum. -/
theorem Standing.leafCountAt (hst : Standing L g st) (hsmall : g.leaves.length ≤ 2 ^ 30) (a : Int) :
    leafCountAt st a = some (g.below (a + 1)).leaves.length := by
  have hheights : st.leafHeights = g.leaves.map LeafRecord.height := hst.rests.content.heights
  have hlen : st.leafHeights.length = g.leaves.length := by rw [hheights, List.length_map]
  have hstamped := hst.rests.coherent.leaves_stamped
  have hsorted : st.leafHeights.Pairwise fun h h' => h' ≤ a → h ≤ a := by
    rw [hheights, List.pairwise_map]
    exact hstamped.sorted.imp fun hle hle' => hle.trans hle'
  have hcount : st.leafHeights.countP (· ≤ a) = (g.below (a + 1)).leaves.length := by
    rw [hheights, ← hst.rests.coherent.countP_heights]
    simp only [Int.lt_add_one_iff]
  rw [Replay.leafCountAt, if_pos (hlen.trans_le hsmall), partitionPoint_getD hsorted, hcount]

/-- **The path over the leaves up to a height** is the one in the tree of that block. -/
theorem Standing.rootAndPathAt (hst : Standing L g st) (hi : i < (g.below (a + 1)).leaves.length) (hsmall : g.leaves.length ≤ 2 ^ 30) :
    st.tree.rootAndPathAt L i (g.below (a + 1)).leaves.length = some (PoseidonTree.answer L (g.below (a + 1)).values i) := by
  have hle : (g.below (a + 1)).leaves.length ≤ g.values.length := by
    rw [History.leaves_take, History.values_length]
    exact List.length_take_le' ..
  have hlen : g.values.length ≤ 2 ^ 30 := History.values_length.trans_le hsmall
  rw [hst.rests.content.tree, PoseidonTree.rootAndPathAt_of (by omega) hi hle, History.values_take]

theorem History.Coherent.below_field (h : g.Coherent) : ∀ v ∈ (g.below a).values, v < P_FR := by
  intro v hv
  obtain ⟨l, hl, rfl⟩ := List.mem_map.1 hv
  rw [leaves_take] at hl
  exact h.field l (List.mem_of_mem_take hl)

/-- **It leads to the block's root.** -/
theorem History.Coherent.path_leads (h : g.Coherent) (hnode : ∀ a b, L.poseidon2 a b < P_FR) (hi : i < (g.below (a + 1)).leaves.length) :
    rootFromPath L (bigTo32 (g.values.getD i 0)) i (PoseidonTree.answer L (g.below (a + 1)).values i).2 = some (g.rootAt L a) := by
  have hleaf : g.values.getD i 0 = (g.below (a + 1)).values.getD i 0 := by
    rw [values_take, List.getD_eq_getElem?_getD, List.getD_eq_getElem?_getD, List.getElem?_take_of_lt hi]
  have hsize : (g.below (a + 1)).values.length ≤ MAX_LEAVES := by
    have hle : (g.below (a + 1)).leaves.length ≤ g.leaves.length := by
      rw [leaves_take]
      exact List.length_take_le' ..
    exact values_length.trans_le (hle.trans h.fits)
  rw [hleaf]
  exact PoseidonTree.rootFromPath_answer hnode h.below_field (values_length.symm ▸ hi) hsize

theorem Standing.leaf (hst : Standing L g st) (i : Nat) : st.tree.leaf i = bigTo32 (g.values.getD i 0) := by
  have hlevel : st.tree.levels.headD [] = g.values := by
    rw [hst.rests.content.tree]
    rfl
  rw [PoseidonTree.leaf, hlevel]

end

end Replay

end Tacit
