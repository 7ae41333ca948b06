import Tacit.Lib.Stamped
import Tacit.Replay.Paths
/-!
# The blocks that stand (worker/src/btc-shielded-pool.js:408-615)

A history is the committed blocks from a first height on. The replay's state stands at a history when its tree, its nullifiers and
its exits are those of the blocks, its roots those of the anchors that the next block may name, and every undo record it has that of
its block. An open block is a block behind the history whose roots and undo record are not there yet.
-/
namespace Tacit

namespace Replay

open Merkle

/-- What a block has committed. -/
structure Block where
  leaves : List LeafRecord
  nullifiers : List NullifierRecord
  exits : List ExitRecord

def Pending.block (b : Pending) : Block := ⟨b.leaves, b.nullifiers, b.exits⟩

/-- Its records carry its height. -/
structure Block.At (b : Block) (h : Int) : Prop where
  leaves : ∀ l ∈ b.leaves, l.height = h
  nullifiers : ∀ n ∈ b.nullifiers, n.height = h
  exits : ∀ x ∈ b.exits, x.height = h

/-- The blocks from a first height on. -/
structure History where
  start : Int
  blocks : List Block

namespace History

variable (g : History)

/-- The height of the next block. -/
def next : Int := g.start + g.blocks.length

def push (b : Block) : History := { g with blocks := g.blocks ++ [b] }

/-- The blocks below a height. -/
def below (h : Int) : History := { g with blocks := g.blocks.take (h - g.start).toNat }

/-- The block at a height, if it is not below the first. -/
def block? (h : Int) : Option Block := g.blocks[(h - g.start).toNat]?

def leaves : List LeafRecord := g.blocks.flatMap Block.leaves

def nullifiers : List NullifierRecord := g.blocks.flatMap Block.nullifiers

def exits : List ExitRecord := g.blocks.flatMap Block.exits

def values : List Nat := g.leaves.map fun l => bytesToBig l.leaf

/-- What every chain of blocks has that the replay commits. -/
structure Coherent : Prop where
  heights : ∀ (i : Nat) b, g.blocks[i]? = some b → b.At (g.start + i)
  indices : g.leaves.map LeafRecord.leafIndex = List.range g.leaves.length
  field : ∀ l ∈ g.leaves, bytesToBig l.leaf < P_FR
  fits : g.leaves.length ≤ MAX_LEAVES
  nullifiers_nodup : (g.nullifiers.map NullifierRecord.nf).Nodup
  exits_nodup : (g.exits.map ExitRecord.key).Nodup
  words : ∀ n ∈ g.nullifiers, n.nf.length = 64

/-! ## One block more -/

variable {g} {b : Block} {h : Int}

theorem next_push : (g.push b).next = g.next + 1 := by
  simp only [next, push, List.length_append, List.length_singleton, Nat.cast_add, Nat.cast_one]
  omega

@[simp] theorem leaves_push : (g.push b).leaves = g.leaves ++ b.leaves := by simp [leaves, push]

@[simp] theorem nullifiers_push : (g.push b).nullifiers = g.nullifiers ++ b.nullifiers := by simp [nullifiers, push]

@[simp] theorem exits_push : (g.push b).exits = g.exits ++ b.exits := by simp [exits, push]

@[simp] theorem values_push : (g.push b).values = g.values ++ b.leaves.map fun l => bytesToBig l.leaf := by simp [values]

theorem leaves_push_congr {c : Block} (h : c.leaves = b.leaves) : (g.push c).leaves = (g.push b).leaves := by
  rw [leaves_push, leaves_push, h]

theorem nullifiers_push_congr {c : Block} (h : c.nullifiers = b.nullifiers) :
    (g.push c).nullifiers = (g.push b).nullifiers := by
  rw [nullifiers_push, nullifiers_push, h]

theorem exits_push_congr {c : Block} (h : c.exits = b.exits) : (g.push c).exits = (g.push b).exits := by
  rw [exits_push, exits_push, h]

theorem values_length : g.values.length = g.leaves.length := List.length_map _

theorem below_of_next_le (hh : g.next ≤ h) : g.below h = g := by
  have hall : g.blocks.take (h - g.start).toNat = g.blocks := List.take_of_length_le (by unfold next at hh; omega)
  rw [below, hall]

theorem below_push (hh : h ≤ g.next) : (g.push b).below h = g.below h := by
  have htake : (g.blocks ++ [b]).take (h - g.start).toNat = g.blocks.take (h - g.start).toNat :=
    List.take_append_of_le_length (by unfold next at hh; omega)
  exact congrArg (History.mk g.start) htake

theorem below_push_next : (g.push b).below g.next = g := by
  rw [below_push le_rfl, below_of_next_le le_rfl]

theorem below_below {h' : Int} (hh : h' ≤ h) : (g.below h).below h' = g.below h' := by
  have hmin : min (h' - g.start).toNat (h - g.start).toNat = (h' - g.start).toNat := by omega
  exact congrArg (History.mk g.start) (List.take_take.trans (congrArg (List.take · g.blocks) hmin))

theorem next_below (hstart : g.start ≤ h) (hh : h ≤ g.next) : (g.below h).next = h := by
  unfold next at hh
  simp only [next, below, List.length_take]
  omega

theorem block?_push (hstart : g.start ≤ h) (hh : h < g.next) : (g.push b).block? h = g.block? h := by
  show (g.blocks ++ [b])[(h - g.start).toNat]? = g.blocks[(h - g.start).toNat]?
  exact List.getElem?_append_left (by unfold next at hh; omega)

theorem block?_push_next : (g.push b).block? g.next = some b := by
  have hindex : (g.next - g.start).toNat = g.blocks.length := by
    unfold next
    omega
  show (g.blocks ++ [b])[(g.next - g.start).toNat]? = some b
  rw [hindex, List.getElem?_concat_length]

/-- A history that is not empty ends with a block. -/
theorem exists_push (hne : g.start < g.next) : ∃ g' b, g = push g' b := by
  have hblocks : g.blocks ≠ [] := by
    intro h
    rw [next, h, List.length_nil] at hne
    omega
  exact ⟨⟨g.start, g.blocks.dropLast⟩, g.blocks.getLast hblocks,
    congrArg (History.mk g.start) (List.dropLast_append_getLast hblocks).symm⟩

theorem Coherent.of_push (h : (g.push b).Coherent) : g.Coherent := by
  obtain ⟨heights, indices, field, fits, hnf, hex, words⟩ := h
  rw [leaves_push] at indices field fits
  rw [nullifiers_push] at words
  rw [nullifiers_push, List.map_append] at hnf
  rw [exits_push, List.map_append] at hex
  refine ⟨fun i c hc => heights i c ?_, ?_, fun l hl => field l (List.mem_append_left _ hl), ?_, hnf.of_append_left,
    hex.of_append_left, fun n hn => words n (List.mem_append_left _ hn)⟩
  · exact (List.getElem?_append_left (List.getElem?_eq_some_iff.1 hc).1).trans hc
  · rw [List.map_append, List.length_append, List.range_add] at indices
    exact (List.append_inj indices (by simp)).1
  · rw [List.length_append] at fits
    omega

theorem Coherent.last (h : (g.push b).Coherent) : b.At g.next :=
  h.heights g.blocks.length b List.getElem?_concat_length

theorem Coherent.heights_push (h : g.Coherent) (hb : b.At g.next) (i : Nat) (c : Block) (hc : (g.push b).blocks[i]? = some c) :
    c.At (g.start + i) := by
  have hc : (g.blocks ++ [b])[i]? = some c := hc
  rw [List.getElem?_append] at hc
  split_ifs at hc with hi
  · exact h.heights i c hc
  · obtain ⟨hlt, heq⟩ := List.getElem?_eq_some_iff.1 hc
    obtain rfl := List.mem_singleton.1 (heq ▸ List.getElem_mem hlt)
    rw [List.length_singleton] at hlt
    obtain rfl : i = g.blocks.length := by omega
    exact hb

theorem Coherent.leaves_stamped (h : g.Coherent) : Stamped LeafRecord.height Block.leaves g.start g.blocks :=
  fun i b hb => (h.heights i b hb).leaves

theorem Coherent.nullifiers_stamped (h : g.Coherent) : Stamped NullifierRecord.height Block.nullifiers g.start g.blocks :=
  fun i b hb => (h.heights i b hb).nullifiers

theorem Coherent.exits_stamped (h : g.Coherent) : Stamped ExitRecord.height Block.exits g.start g.blocks :=
  fun i b hb => (h.heights i b hb).exits

/-- As many leaves carry a smaller height as there are below it. -/
theorem Coherent.countP_heights (hg : g.Coherent) (h : Int) :
    (g.leaves.map LeafRecord.height).countP (· < h) = (g.below h).leaves.length := by
  have hfilter : (g.leaves.filter fun l => l.height < h) = (g.below h).leaves := hg.leaves_stamped.filter_lt
  rw [List.countP_map, ← hfilter, List.countP_eq_length_filter]
  rfl

/-- The leaves of the blocks up to a height. -/
theorem Coherent.leaves_below (hg : g.Coherent) (a : Int) : (g.below (a + 1)).leaves = g.leaves.filter fun l => l.height ≤ a := by
  have hfilter : (g.leaves.filter fun l => l.height < a + 1) = (g.below (a + 1)).leaves := hg.leaves_stamped.filter_lt
  rw [← hfilter]
  simp only [Int.lt_add_one_iff]

/-- The leaves of the blocks below a height come first. -/
theorem leaves_take (h : Int) : (g.below h).leaves = g.leaves.take (g.below h).leaves.length := by
  have hsplit : g.leaves = (g.below h).leaves ++ (g.blocks.drop (h - g.start).toNat).flatMap Block.leaves := by
    rw [leaves, leaves, below, ← List.flatMap_append, List.take_append_drop]
  rw [hsplit, List.take_left]

theorem values_take (h : Int) : (g.below h).values = g.values.take (g.below h).leaves.length :=
  (congrArg (List.map _) (leaves_take h)).trans List.map_take

end History

end Replay

end Tacit
