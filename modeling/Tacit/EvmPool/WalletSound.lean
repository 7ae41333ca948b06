import Tacit.EvmPool.WalletTree
import Tacit.Lib.Batch
/-!
# The wallet's incremental tree is the plain one

An incremental tree `Represents` some leaves when it has their size and root, the last left node of each height, and for each
tracked leaf the siblings of its path. A level of `append` makes its part of this right (`Climb.level_climbing`), whatever the
alignment of the batch: the nodes of the batch are the window of that height, the stored left node stands in for the one before
it, and a path element outside the window is the old one, or for a new leaf the stored node or an empty subtree.
-/
namespace Tacit

namespace EvmPool

namespace Wallet

open Prog Merkle

section

variable {H : Nat → Nat → Nat}

/-! ## Numbers -/

theorem xorOne_eq {k : Nat} (h : k < 2 ^ 31) : xorOne k = sibling k := by
  have hmod : Int.bmod k (2 ^ 32) = k := Int.bmod_eq_of_le (by omega) (by omega)
  unfold xorOne
  rw [hmod]
  by_cases hk : k % 2 = 0
  · rw [if_pos (by omega), sibling, if_pos hk]
    rfl
  · rw [if_neg (by omega), sibling, if_neg hk]
    omega

theorem shrOne_eq {k : Nat} (h : k < 2 ^ 31) : shrOne k = (k / 2 : Nat) := by
  have hmod : Int.bmod k (2 ^ 32) = k := Int.bmod_eq_of_le (by omega) (by omega)
  rw [shrOne, hmod]
  rfl

theorem elementAt_natCast (l : List Nat) (k : Nat) : elementAt l k = l[k]? := if_neg (by omega)

theorem readDecimal_repr (n : Nat) : readDecimal n.repr = some n := by
  have hdigits : n.repr.toList = Nat.toDigits 10 n := Nat.toList_repr
  have hall : (Nat.toDigits 10 n).all Char.isDigit = true :=
    List.all_eq_true.2 fun _ hc => Nat.isDigit_of_mem_toDigits (by decide) (by decide) hc
  rw [readDecimal, hdigits, if_pos hall, Nat.ofDigitChars_ten_toDigits]

/-! ## The plain tree -/

/-- The siblings of slot `m` from height `i` up. -/
def pathFrom (H : Nat → Nat → Nat) (l : List Nat) (i m : Nat) : Path :=
  (List.range' i (EVM_TREE_DEPTH - i)).map fun d => some (nodesAt H (pad 0 l) d (sibling (m / 2 ^ d)))

theorem layersFrom_eq (l : List Nat) : ∀ n d, layersFrom H n d (row H 0 l d) = rows H 0 l d (n + 1)
  | 0, _ => rfl
  | n + 1, d => congrArg (row H 0 l d :: ·) (layersFrom_eq l n (d + 1))

theorem tree_layers {l : List Nat} {d : Nat} (hd : d ≤ EVM_TREE_DEPTH) : (tree H l).layers.getD d [] = row H 0 l d := by
  have hlayers : layersFrom H EVM_TREE_DEPTH 0 l = rows H 0 l 0 (EVM_TREE_DEPTH + 1) := layersFrom_eq l EVM_TREE_DEPTH 0
  unfold tree
  dsimp only
  rw [hlayers, List.getD_eq_getElem?_getD, rows_getElem? l (Nat.lt_succ_of_le hd), Nat.zero_add, Option.getD_some]

/-- The plain tree's root is that of the tree over its leaves and zeros behind them. -/
theorem tree_root {l : List Nat} (h : l.length ≤ 2 ^ EVM_TREE_DEPTH) : (tree H l).root = treeRoot H EVM_TREE_DEPTH (pad 0 l) := by
  have htop : (tree H l).root = ((tree H l).layers.getD EVM_TREE_DEPTH []).headD (zeros H EVM_TREE_DEPTH) := by
    unfold tree
    with_reducible rfl
  rw [htop, tree_layers (le_refl _)]
  by_cases hnil : l = []
  · have hroot : treeRoot H EVM_TREE_DEPTH (pad 0 l) = nodesAt H (pad 0 l) (0 + EVM_TREE_DEPTH) 0 := treeRoot_nodesAt _ _ 0
    have hnode : (row H 0 l EVM_TREE_DEPTH).getD 0 _ = nodesAt H (pad 0 l) EVM_TREE_DEPTH 0 := row_getD l _ 0
    rw [hroot, Nat.zero_add, ← hnode, zeros]
    cases row H 0 l EVM_TREE_DEPTH with
    | nil => rw [List.headD_nil, List.getD_nil]
    | cons a r => rw [List.headD_cons, List.getD_cons_zero]
  · rw [row_top hnil h]
    rfl

/-- The plain tree's siblings, of a slot `m` whose index at `level` is taken. -/
theorem tree_siblings {l : List Nat} {m : Nat} (hm : m < 2 ^ 31) : ∀ n i, i + n ≤ EVM_TREE_DEPTH →
    siblingsFrom H (tree H l) n i (m / 2 ^ i : Nat) =
      (List.range' i n).map fun d => some (nodesAt H (pad 0 l) d (sibling (m / 2 ^ d)))
  | 0, _, _ => rfl
  | n + 1, i, hi => by
    have hlt : m / 2 ^ i < 2 ^ 31 := Nat.lt_of_le_of_lt (Nat.div_le_self _ _) hm
    have hnext : siblingsFrom H (tree H l) n (i + 1) (m / 2 ^ (i + 1) : Nat) = _ := tree_siblings hm n (i + 1) (by omega)
    rw [div_pow_succ] at hnext
    rw [siblingsFrom, List.range'_succ, List.map_cons, xorOne_eq hlt, shrOne_eq hlt, hnext, tree_layers (by omega)]
    congr 1
    rw [row_length, elementAt_natCast]
    split_ifs with hin
    · exact row_getElem? l (Int.ofNat_lt.1 hin)
    · rw [nodesAt_past (Nat.le_of_not_lt fun h => hin (Int.ofNat_lt.2 h))]
      rfl

theorem tree_path {l : List Nat} {i : Nat} (hi : i < l.length) (hl : l.length < 2 ^ 31) :
    (tree H l).path H i = .ok (pathFrom H l 0 i) := by
  have hpath := tree_siblings (H := H) (l := l) (Nat.lt_trans hi hl) EVM_TREE_DEPTH 0 (le_refl _)
  rw [pow_zero, Nat.div_one] at hpath
  have hrefuse : refuse ((tree H l).size ≤ i) "evm-pool-zk: index out of range" = .ok () := refuse_eq_ok.2 (Nat.not_le.2 hi)
  rw [Tree.path, hrefuse]
  exact congrArg Except.ok hpath

/-! ## A level of `append` -/

/-- The incremental tree of some leaves. -/
structure Represents (H : Nat → Nat → Nat) (l : List Nat) (t : IncTree) : Prop where
  size : t.size = l.length
  root : t.root = treeRoot H EVM_TREE_DEPTH (pad 0 l)
  filled : ∀ d < EVM_TREE_DEPTH, t.filled[d]? = some (nodesAt H (pad 0 l) d (lastLeft l.length d))
  paths : ∀ e ∈ t.tracked.entries, e.1 < l.length ∧ e.2 = pathFrom H l 0 e.1

/-- The path of leaf `i` before level `L`: below, it is right for the leaves with the batch; above, it is still that of the leaves
before, or for a new leaf absent. -/
structure PathClimbing (H : Nat → Nat → Nat) (l t : List Nat) (L i : Nat) (p : Path) : Prop where
  inside : i < (l ++ t).length
  length : p.length = EVM_TREE_DEPTH
  below : ∀ d < L, d < EVM_TREE_DEPTH → p[d]? = some (some (nodesAt H (pad 0 (l ++ t)) d (sibling (i / 2 ^ d))))
  above : (i < l.length ∧ ∀ d, L ≤ d → d < EVM_TREE_DEPTH → p[d]? = some (some (nodesAt H (pad 0 l) d (sibling (i / 2 ^ d))))) ∨
    (l.length ≤ i ∧ ∀ d, L ≤ d → d < EVM_TREE_DEPTH → p[d]? = some none)

/-- The loop of `append` before level `L`. -/
structure Climbing (H : Nat → Nat → Nat) (l t : List Nat) (L : Nat) (c : Climb) : Prop where
  lo : c.lo = l.length / 2 ^ L
  cur : c.cur = window (nodesAt H (pad 0 (l ++ t)) L) (l.length / 2 ^ L) (((l ++ t).length - 1) / 2 ^ L)
  below : ∀ d < L, d < EVM_TREE_DEPTH → c.filled[d]? = some (nodesAt H (pad 0 (l ++ t)) d (lastLeft (l ++ t).length d))
  above : ∀ d, L ≤ d → d < EVM_TREE_DEPTH → c.filled[d]? = some (nodesAt H (pad 0 l) d (lastLeft l.length d))
  paths : ∀ e ∈ c.tracked.entries, PathClimbing H l t L e.1 e.2

variable {l t : List Nat} {L i : Nat}

/-- **The new element of a path**, whatever it was before. -/
theorem patch_getElem? (ht : t ≠ []) (hlen : (l ++ t).length < 2 ^ 31) (hL : L < EVM_TREE_DEPTH) {p : Path}
    (h : PathClimbing H l t L i p) :
    (patch H L (l.length / 2 ^ L) (((l ++ t).length - 1) / 2 ^ L) (nodesAt H (pad 0 l) L (lastLeft l.length L))
      (window (nodesAt H (pad 0 (l ++ t)) L) (l.length / 2 ^ L) (((l ++ t).length - 1) / 2 ^ L)) i p)[L]? =
      some (some (nodesAt H (pad 0 (l ++ t)) L (sibling (i / 2 ^ L)))) := by
  have hs : xorOne (i / 2 ^ L : Nat) = sibling (i / 2 ^ L) :=
    xorOne_eq (Nat.lt_of_le_of_lt (Nat.div_le_self _ _) (Nat.lt_trans h.inside hlen))
  have hedge : sibling (i / 2 ^ L) < l.length / 2 ^ L → l.length ≤ i →
      l.length / 2 ^ L % 2 = 1 ∧ sibling (i / 2 ^ L) = l.length / 2 ^ L - 1 := by
    intro hlt hnew
    have hle : l.length / 2 ^ L ≤ i / 2 ^ L := Nat.div_le_div_right hnew
    unfold sibling at hlt ⊢
    split_ifs at hlt ⊢ <;> omega
  have hlength : L < p.length := by rw [h.length]; exact hL
  unfold patch
  dsimp only
  rw [hs]
  generalize hsib : sibling (i / 2 ^ L) = s at hedge ⊢
  by_cases hin : l.length / 2 ^ L ≤ s ∧ s ≤ ((l ++ t).length - 1) / 2 ^ L
  · have hcast : (s : Int) - (l.length / 2 ^ L : Nat) = (s - l.length / 2 ^ L : Nat) := by omega
    rw [if_pos ⟨Int.ofNat_le.2 hin.1, Int.ofNat_le.2 hin.2⟩, hcast, elementAt_natCast, window_getElem? hin.1 hin.2,
      List.getElem?_set_self hlength]
  · rw [if_neg fun hcast => hin ⟨Int.ofNat_le.1 hcast.1, Int.ofNat_le.1 hcast.2⟩]
    rcases h.above with ⟨-, hold⟩ | ⟨hnew, hnone⟩
    · -- the element is there, and its node lies outside the window
      have hget := hold L (le_refl _) hL
      rw [hsib] at hget
      rw [hget, if_neg (by simp), hget]
      by_cases hlt : s < l.length / 2 ^ L
      · rw [nodesAt_before hlt]
      · have hgt : ((l ++ t).length - 1) / 2 ^ L < s := Nat.lt_of_not_le fun hle => hin ⟨Nat.le_of_not_lt hlt, hle⟩
        rw [nodesAt_behind ht hgt, nodesAt_behind_old ht hgt]
    · rw [hnone L (le_refl _) hL, if_pos rfl, List.getElem?_set_self hlength]
      by_cases hlt : s < l.length / 2 ^ L
      · obtain ⟨hodd, hs'⟩ := hedge hlt hnew
        rw [if_pos (Int.ofNat_lt.2 hlt), hs', nodesAt_stored hodd]
      · have hgt : ((l ++ t).length - 1) / 2 ^ L < s := Nat.lt_of_not_le fun hle => hin ⟨Nat.le_of_not_lt hlt, hle⟩
        rw [if_neg fun hcast => hlt (Int.ofNat_lt.1 hcast), nodesAt_behind ht hgt, zeros]

/-- The other elements stay. -/
theorem patch_other {lo hi prevFilled : Nat} {cur : List Nat} {p : Path} {d : Nat} (hd : d ≠ L) :
    (patch H L lo hi prevFilled cur i p)[d]? = p[d]? := by
  unfold patch
  dsimp only
  split_ifs
  · exact List.getElem?_set_ne (Ne.symm hd)
  · exact List.getElem?_set_ne (Ne.symm hd)
  · exact List.getElem?_set_ne (Ne.symm hd)
  · rfl

theorem patch_length {lo hi prevFilled : Nat} {cur : List Nat} {p : Path} :
    (patch H L lo hi prevFilled cur i p).length = p.length := by
  unfold patch
  dsimp only
  split_ifs <;> simp

theorem PathClimbing.patched (ht : t ≠ []) (hlen : (l ++ t).length < 2 ^ 31) (hL : L < EVM_TREE_DEPTH) {p : Path}
    (h : PathClimbing H l t L i p) :
    PathClimbing H l t (L + 1) i
      (patch H L (l.length / 2 ^ L) (((l ++ t).length - 1) / 2 ^ L) (nodesAt H (pad 0 l) L (lastLeft l.length L))
        (window (nodesAt H (pad 0 (l ++ t)) L) (l.length / 2 ^ L) (((l ++ t).length - 1) / 2 ^ L)) i p) := by
  refine ⟨h.inside, patch_length.trans h.length, ?_, ?_⟩
  · intro d hd hD
    rcases Nat.lt_succ_iff_lt_or_eq.1 hd with hd | rfl
    · rw [patch_other (Nat.ne_of_lt hd), h.below d hd hD]
    · exact patch_getElem? ht hlen hL h
  · refine h.above.imp (fun ⟨hold, habove⟩ => ⟨hold, fun d hd hD => ?_⟩) fun ⟨hnew, habove⟩ => ⟨hnew, fun d hd hD => ?_⟩
    · rw [patch_other (by omega), habove d (by omega) hD]
    · rw [patch_other (by omega), habove d (by omega) hD]

/-- The next window, node by node. -/
theorem window_next (ht : t ≠ []) {p : Nat} (hlo : l.length / 2 ^ L / 2 ≤ p) (hhi : p ≤ ((l ++ t).length - 1) / 2 ^ L / 2) :
    H (if 2 * p < l.length / 2 ^ L then nodesAt H (pad 0 l) L (lastLeft l.length L)
        else (window (nodesAt H (pad 0 (l ++ t)) L) (l.length / 2 ^ L) (((l ++ t).length - 1) / 2 ^ L)).getD
          (2 * p - l.length / 2 ^ L) 0)
      (if 2 * p + 1 ≤ ((l ++ t).length - 1) / 2 ^ L then
        (window (nodesAt H (pad 0 (l ++ t)) L) (l.length / 2 ^ L) (((l ++ t).length - 1) / 2 ^ L)).getD
          (2 * p + 1 - l.length / 2 ^ L) 0
        else zeros H L) = nodesAt H (pad 0 (l ++ t)) (L + 1) p := by
  show _ = H (nodesAt H (pad 0 (l ++ t)) L (2 * p)) (nodesAt H (pad 0 (l ++ t)) L (2 * p + 1))
  congr 1
  · split_ifs with hlt
    · have hodd : l.length / 2 ^ L % 2 = 1 := by
        generalize l.length / 2 ^ L = a at *
        omega
      have hp : 2 * p = l.length / 2 ^ L - 1 := by
        generalize l.length / 2 ^ L = a at *
        omega
      rw [hp, nodesAt_stored hodd]
    · refine window_getD (Nat.le_of_not_lt hlt) ?_ 0
      generalize ((l ++ t).length - 1) / 2 ^ L = b at *
      omega
  · split_ifs with hle
    · refine window_getD ?_ hle 0
      generalize l.length / 2 ^ L = a at *
      omega
    · rw [nodesAt_behind ht (Nat.lt_of_not_le hle), zeros]

/-- **A level of `append`.** -/
theorem Climb.level_climbing (ht : t ≠ []) (hlen : (l ++ t).length < 2 ^ 31) (hL : L < EVM_TREE_DEPTH) {c : Climb}
    (h : Climbing H l t L c) : Climbing H l t (L + 1) (c.level H L) := by
  have hne := window_nonempty l t ht L
  have hpos : 0 < (l ++ t).length := List.length_pos_iff.2 (List.append_ne_nil_of_right_ne_nil l ht)
  have hhi : c.lo + c.cur.length - 1 = ((l ++ t).length - 1) / 2 ^ L := by
    rw [h.lo, h.cur, window_length]
    generalize l.length / 2 ^ L = a at *
    generalize ((l ++ t).length - 1) / 2 ^ L = b at *
    omega
  have hprev : c.filled.getD L 0 = nodesAt H (pad 0 l) L (lastLeft l.length L) := by
    rw [List.getD_eq_getElem?_getD, h.above L (le_refl _) hL, Option.getD_some]
  have hfilled : L < c.filled.length := (List.getElem?_eq_some_iff.1 (h.above L (le_refl _) hL)).1
  have hlast : (if ((l ++ t).length - 1) / 2 ^ L % 2 = 0 then ((l ++ t).length - 1) / 2 ^ L
      else ((l ++ t).length - 1) / 2 ^ L - 1) = lastLeft (l ++ t).length L := by
    rw [lastLeft, rowLength_pred hpos]
    generalize ((l ++ t).length - 1) / 2 ^ L = b
    split_ifs <;> omega
  have hright : lastLeft (l ++ t).length L ≤ ((l ++ t).length - 1) / 2 ^ L := by
    rw [lastLeft, rowLength_pred hpos]
    exact Nat.div_mul_le_self _ _
  unfold Climb.level
  rw [hhi, hprev, h.lo, h.cur]
  dsimp only
  rw [hlast]
  refine ⟨(div_pow_succ _ _).symm, ?_, ?_, ?_, ?_⟩
  · rw [div_pow_succ, div_pow_succ, window]
    refine List.map_congr_left fun p hp => ?_
    rw [List.mem_range'_1] at hp
    exact window_next ht hp.1 (by omega)
  · intro d hd hD
    rcases Nat.lt_succ_iff_lt_or_eq.1 hd with hd | rfl
    · split_ifs
      · rw [List.getElem?_set_ne (Nat.ne_of_gt hd), h.below d hd hD]
      · exact h.below d hd hD
    · split_ifs with hle
      · rw [List.getElem?_set_self hfilled, window_getD hle hright]
      · -- the batch is a single right node, and the stored node is its sibling
        have hodd : l.length / 2 ^ d % 2 = 1 ∧ lastLeft (l ++ t).length d = l.length / 2 ^ d - 1 := by
          rw [lastLeft, rowLength_pred hpos] at hle ⊢
          generalize l.length / 2 ^ d = a at *
          generalize ((l ++ t).length - 1) / 2 ^ d = b at *
          omega
        rw [h.above d (le_refl _) hD, hodd.2, nodesAt_stored hodd.1]
  · intro d hd hD
    have hne : L ≠ d := by omega
    split_ifs
    · rw [List.getElem?_set_ne hne, h.above d (by omega) hD]
    · exact h.above d (by omega) hD
  · intro e he
    obtain ⟨e', he', rfl⟩ := List.mem_map.1 he
    dsimp only
    exact (h.paths e' he').patched ht hlen hL

theorem climbFrom_climbing (ht : t ≠ []) (hlen : (l ++ t).length < 2 ^ 31) : ∀ (n L : Nat) {c : Climb}, L + n ≤ EVM_TREE_DEPTH →
    Climbing H l t L c → Climbing H l t (L + n) (climbFrom H n L c)
  | 0, _, _, _, h => h
  | n + 1, L, _, hn, h => by
    have hnext := climbFrom_climbing ht hlen n (L + 1) (by omega) (Climb.level_climbing ht hlen (by omega) h)
    rwa [Nat.add_right_comm, Nat.add_assoc] at hnext

/-! ## The operations -/

theorem pathFrom_length (m : Nat) : (pathFrom H l 0 m).length = EVM_TREE_DEPTH := by
  rw [pathFrom, List.length_map, List.length_range', Nat.sub_zero]

theorem pathFrom_getElem? {m d : Nat} (hd : d < EVM_TREE_DEPTH) :
    (pathFrom H l 0 m)[d]? = some (some (nodesAt H (pad 0 l) d (sibling (m / 2 ^ d)))) := by
  rw [pathFrom, List.getElem?_map, List.getElem?_range' (by rwa [Nat.sub_zero]), Option.map_some, Nat.one_mul, Nat.zero_add]

theorem pathFrom_ext {p : Path} {m : Nat} (hlength : p.length = EVM_TREE_DEPTH)
    (h : ∀ d < EVM_TREE_DEPTH, p[d]? = some (some (nodesAt H (pad 0 l) d (sibling (m / 2 ^ d))))) : p = pathFrom H l 0 m := by
  refine List.ext_getElem? fun d => ?_
  by_cases hd : d < EVM_TREE_DEPTH
  · rw [h d hd, pathFrom_getElem? hd]
  · rw [List.getElem?_eq_none (by omega), List.getElem?_eq_none (by rw [pathFrom_length]; omega)]

theorem empty_represents {t : IncTree} (h : incTree H none = some t) : Represents H [] t ∧ ∀ i, t.has i = false := by
  cases h
  refine ⟨⟨rfl, ?_, ?_, ?_⟩, fun _ => rfl⟩
  · show zeros H EVM_TREE_DEPTH = _
    rw [treeRoot_pad_nil, zeros]
  · intro d hd
    have hd' : d < ((List.range EVM_TREE_DEPTH).map (zeros H)).length := by rwa [List.length_map, List.length_range]
    show ((List.range EVM_TREE_DEPTH).map (zeros H))[d]? = _
    rw [List.getElem?_eq_getElem hd', List.getElem_map, List.getElem_range, zeros,
      nodesAt_empty (z := 0) d fun j _ => pad_of_le 0 (Nat.zero_le j)]
  · exact fun _ he => absurd he List.not_mem_nil

/-- What the tracking of a batch's leaves does. -/
theorem track_spec {start n : Nat} : ∀ {tracks : List Nat} {t : IncTree}, (∀ i ∈ tracks, start ≤ i ∧ i < start + n) →
    wp False (forEach tracks (track start n)) t (fun _ _ => False) fun _ u => u.filled = t.filled ∧
      (∀ e ∈ u.tracked.entries, e ∈ t.tracked.entries ∨ (e.1 ∈ tracks ∧ e.2 = List.replicate EVM_TREE_DEPTH none)) ∧
      ∀ i, u.has i = true ↔ i ∈ tracks ∨ t.has i = true
  | [], _, _ => ⟨rfl, fun _ he => .inl he, fun i => by simp⟩
  | k :: tracks, t, h => by
    have hk := h k List.mem_cons_self
    rw [forEach, wp_bind', track, wp_bind, wp_check]
    refine ⟨fun hout => by omega, fun _ => ?_⟩
    rw [wp_modify]
    refine wp_mono (track_spec fun i hi => h i (List.mem_cons_of_mem _ hi)) id (fun _ _ => id) ?_
    rintro _ u ⟨hfilled, hentries, hhas⟩
    refine ⟨hfilled, fun e he => ?_, fun i => ?_⟩
    · rcases hentries e he with he | ⟨hmem, hpath⟩
      · rcases InsertionMap.mem_set he with rfl | he
        · exact .inr ⟨List.mem_cons_self, rfl⟩
        · exact .inl he
      · exact .inr ⟨List.mem_cons_of_mem _ hmem, hpath⟩
    · rw [hhas i, IncTree.has, IncTree.has, InsertionMap.has_set, List.mem_cons]
      tauto

theorem climbFrom_has (k : Nat) : ∀ (n L : Nat) (c : Climb), (climbFrom H n L c).tracked.has k = c.tracked.has k
  | 0, _, _ => rfl
  | n + 1, L, _ => (climbFrom_has k n (L + 1) _).trans InsertionMap.has_mapValues

/-- The loop starts with the batch as its window. -/
theorem climbing_start {u : IncTree} {t : List Nat} (ht : t ≠ [])
    (hfilled : ∀ d < EVM_TREE_DEPTH, u.filled[d]? = some (nodesAt H (pad 0 l) d (lastLeft l.length d)))
    (hpaths : ∀ e ∈ u.tracked.entries, (e.1 < l.length ∧ e.2 = pathFrom H l 0 e.1) ∨
      (l.length ≤ e.1 ∧ e.1 < (l ++ t).length ∧ e.2 = List.replicate EVM_TREE_DEPTH none)) :
    Climbing H l t 0 ⟨u.filled, u.tracked, t, l.length⟩ := by
  refine ⟨by simp, ?_, fun d hd => absurd hd (Nat.not_lt_zero d), fun d _ hd => hfilled d hd, fun e he => ?_⟩
  · rw [pow_zero, Nat.div_one, Nat.div_one]
    exact (window_leaves l t ht).symm
  · rcases hpaths e he with ⟨hold, hpath⟩ | ⟨hnew, hin, hpath⟩
    · refine ⟨?_, ?_, fun d hd => absurd hd (Nat.not_lt_zero d), .inl ⟨hold, fun d _ hd => ?_⟩⟩
      · rw [List.length_append]
        omega
      · rw [hpath, pathFrom_length]
      · rw [hpath, pathFrom_getElem? hd]
    · refine ⟨hin, ?_, fun d hd => absurd hd (Nat.not_lt_zero d), .inr ⟨hnew, fun d _ hd => ?_⟩⟩
      · rw [hpath, List.length_replicate]
      · rw [hpath, List.getElem?_replicate, if_pos hd]

/-- **`append`**: the tree of the leaves with the batch, the tracked leaves with those of the batch. -/
theorem append_represents {u : IncTree} (h : Represents H l u) {leaves tracks : List Nat} (hlen : (l ++ leaves).length < 2 ^ 31)
    (htracks : ∀ i ∈ tracks, l.length ≤ i ∧ i < l.length + leaves.length) :
    ∃ v, append H leaves tracks u = .ok () v ∧ Represents H (l ++ leaves) v ∧
      ∀ i, v.has i = true ↔ i ∈ tracks ∨ u.has i = true := by
  by_cases hnil : leaves = []
  · subst hnil
    rw [List.append_nil]
    refine ⟨u, rfl, h, fun i => ⟨.inr, fun hi => hi.resolve_left fun hmem => ?_⟩⟩
    have := htracks i hmem
    simp at this
    omega
  · have hdups : ∀ i ∈ tracks.eraseDups, u.size ≤ i ∧ i < u.size + leaves.length := by
      intro i hi
      rw [h.size]
      exact htracks i (List.mem_eraseDups.1 hi)
    suffices hwp : wp False (append H leaves tracks) u (fun _ _ => False) fun _ v => Represents H (l ++ leaves) v ∧
        ∀ i, v.has i = true ↔ i ∈ tracks ∨ u.has i = true by
      obtain ⟨_, v, hrun, hv⟩ := ok_of_wp hwp
      exact ⟨v, hrun, hv⟩
    have hroom : ¬2 ^ EVM_TREE_DEPTH < u.size + leaves.length := by
      rw [h.size, ← List.length_append]
      exact Nat.not_lt.2 (Nat.le_trans hlen.le (by decide))
    rw [append, if_neg hnil, wp_bind, wp_get, wp_bind, wp_check]
    refine ⟨fun hfull => hroom hfull, fun _ => ?_⟩
    rw [wp_bind]
    refine wp_mono (track_spec hdups) id (fun _ _ => id) ?_
    rintro _ u' ⟨hfilled, hentries, hhas⟩
    rw [wp_modify, h.size]
    have hstart : Climbing H l leaves 0 ⟨u'.filled, u'.tracked, leaves, l.length⟩ := by
      refine climbing_start hnil (by rw [hfilled]; exact h.filled) fun e he => ?_
      rcases hentries e he with he | ⟨hmem, hpath⟩
      · exact .inl (h.paths e he)
      · have := htracks e.1 (List.mem_eraseDups.1 hmem)
        exact .inr ⟨this.1, by rw [List.length_append]; exact this.2, hpath⟩
    have hend := climbFrom_climbing hnil hlen EVM_TREE_DEPTH 0 (le_refl _) hstart
    rw [Nat.zero_add] at hend
    refine ⟨⟨(List.length_append).symm, ?_, fun d hd => hend.below d hd hd, fun e he => ?_⟩, fun i => ?_⟩
    · -- the window of the top has one node
      have hlast : ((l ++ leaves).length - 1) / 2 ^ EVM_TREE_DEPTH = 0 :=
        Nat.div_eq_of_lt (Nat.lt_of_le_of_lt (Nat.sub_le _ _) (Nat.lt_trans hlen (by decide)))
      have hfirst : l.length / 2 ^ EVM_TREE_DEPTH = 0 := Nat.le_zero.1 (hlast ▸ window_nonempty l leaves hnil EVM_TREE_DEPTH)
      show (climbFrom H EVM_TREE_DEPTH 0 _).cur.getD 0 0 = _
      have hroot : treeRoot H EVM_TREE_DEPTH (pad 0 (l ++ leaves)) = nodesAt H (pad 0 (l ++ leaves)) (0 + EVM_TREE_DEPTH) 0 :=
        treeRoot_nodesAt _ _ 0
      rw [hend.cur, hlast, hfirst, hroot, Nat.zero_add]
      exact window_getD (le_refl 0) (le_refl 0) 0
    · have hpath := hend.paths e he
      exact ⟨hpath.inside, pathFrom_ext hpath.length fun d hd => hpath.below d hd hd⟩
    · show (climbFrom H EVM_TREE_DEPTH 0 _).tracked.has i = true ↔ _
      rw [climbFrom_has, ← List.mem_eraseDups]
      exact hhas i

theorem untrack_represents {u : IncTree} (h : Represents H l u) (k : Nat) :
    ∃ v, untrack k u = .ok () v ∧ Represents H l v ∧ ∀ i, v.has i = true ↔ i ≠ k ∧ u.has i = true :=
  ⟨_, rfl, ⟨h.size, h.root, h.filled, fun e he => h.paths e (List.mem_filter.1 he).1⟩, fun _ => InsertionMap.has_delete⟩

theorem mapM_readDecimal : ∀ l : List Nat, (l.map Nat.repr).mapM readDecimal = some l
  | [] => rfl
  | n :: l => by
    rw [List.map_cons, List.mapM_cons, readDecimal_repr, mapM_readDecimal l]
    rfl

/-- A path without absent elements is read as it was saved. -/
theorem readTracked_saved (k : Nat) (q : List Nat) : readTracked (k.repr, (q.map some).map text) = some (k, q.map some) := by
  have htext : (q.map some).map text = q.map Nat.repr := by
    rw [List.map_map]
    rfl
  rw [readTracked, htext, readDecimal_repr, mapM_readDecimal]
  rfl

theorem mapM_readTracked : ∀ {entries : List (Nat × Path)}, (∀ e ∈ entries, ∃ q : List Nat, e.2 = q.map some) →
    (entries.map fun e => (e.1.repr, e.2.map text)).mapM readTracked = some entries
  | [], _ => rfl
  | (k, p) :: entries, h => by
    obtain ⟨q, rfl⟩ := h _ List.mem_cons_self
    rw [List.map_cons, List.mapM_cons, readTracked_saved, mapM_readTracked fun e he => h e (List.mem_cons_of_mem _ he)]
    rfl

theorem pathFrom_some (m : Nat) : ∃ q : List Nat, pathFrom H l 0 m = q.map some :=
  ⟨_, (List.map_map (g := some) (f := fun d => nodesAt H (pad 0 l) d (sibling (m / 2 ^ d)))).symm⟩

/-- **A round trip** gives the same tree back. -/
theorem reload_represents {u : IncTree} (h : Represents H l u) :
    ∃ v, reload H u = .ok () v ∧ Represents H l v ∧ ∀ i, v.has i = u.has i := by
  obtain ⟨size, root, filled, tracked⟩ := u
  have hperm := List.mergeSort_perm tracked.entries fun a b => a.1 ≤ b.1
  have hsaved : incTree H (some (IncTree.toJSON ⟨size, root, filled, tracked⟩)) =
      some ⟨size, root, filled, .ofEntries (tracked.entries.mergeSort fun a b => a.1 ≤ b.1)⟩ := by
    have htracked : ∀ e ∈ tracked.entries.mergeSort (fun a b => a.1 ≤ b.1), ∃ q : List Nat, e.2 = q.map some := by
      intro e he
      rw [(h.paths e (hperm.mem_iff.1 he)).2]
      exact pathFrom_some e.1
    rw [incTree, IncTree.toJSON, readDecimal_repr, mapM_readDecimal, mapM_readTracked htracked]
    rfl
  refine ⟨_, bind_eq_ok.2 ⟨_, _, rfl, bind_eq_ok.2 ⟨_, _, orThrow_eq_ok.2 ⟨hsaved, rfl⟩, rfl⟩⟩,
    ⟨h.size, h.root, h.filled, ?_⟩, ?_⟩
  · exact fun e he => h.paths e (hperm.mem_iff.1 (InsertionMap.mem_ofEntries he))
  · intro i
    rw [Bool.eq_iff_iff, IncTree.has, IncTree.has, InsertionMap.has_ofEntries, InsertionMap.has_iff]
    exact (hperm.map Prod.fst).mem_iff

/-! ## Runs -/

/-- The tracked leaves after some steps, those before being `tracked`. -/
def trackedAfter : List Step → (Nat → Prop) → Nat → Prop
  | [], tracked => tracked
  | .append _ tracks :: steps, tracked => trackedAfter steps fun i => i ∈ tracks ∨ tracked i
  | .untrack k :: steps, tracked => trackedAfter steps fun i => i ≠ k ∧ tracked i
  | .reload :: steps, tracked => trackedAfter steps tracked

/-- **Every run** ends at the tree of all its leaves. -/
theorem run_represents : ∀ (steps : List Step) (tracked : Nat → Prop) {l : List Nat} {u : IncTree}, Represents H l u →
    (∀ i, u.has i = true ↔ tracked i) → Tracks l.length steps → (l ++ leavesOf steps).length < 2 ^ 31 →
    ∃ v, forEach steps (Step.run H) u = .ok () v ∧ Represents H (l ++ leavesOf steps) v ∧
      ∀ i, v.has i = true ↔ trackedAfter steps tracked i
  | [], _, _, u, h, hhas, _, _ => ⟨u, rfl, by rwa [leavesOf, List.flatMap_nil, List.append_nil], hhas⟩
  | .append leaves tracks :: steps, tracked, l, _, h, hhas, htracks, hlen => by
    obtain ⟨hin, hrest⟩ := htracks
    have hleaves : l ++ leavesOf (.append leaves tracks :: steps) = (l ++ leaves) ++ leavesOf steps := by
      rw [List.append_assoc]
      rfl
    rw [hleaves] at hlen ⊢
    have hbatch : (l ++ leaves).length < 2 ^ 31 := by
      rw [List.length_append] at hlen
      omega
    obtain ⟨v, hrun, hv, hvhas⟩ := append_represents h hbatch hin
    rw [← List.length_append] at hrest
    obtain ⟨w, hrun', hw, hwhas⟩ := run_represents steps (fun i => i ∈ tracks ∨ tracked i) hv
      (fun i => by rw [hvhas, hhas]) hrest hlen
    exact ⟨w, forEach_cons_eq_ok.2 ⟨v, hrun, hrun'⟩, hw, hwhas⟩
  | .untrack k :: steps, tracked, _, _, h, hhas, htracks, hlen => by
    obtain ⟨v, hrun, hv, hvhas⟩ := untrack_represents h k
    obtain ⟨w, hrun', hw, hwhas⟩ := run_represents steps (fun i => i ≠ k ∧ tracked i) hv
      (fun i => by rw [hvhas, hhas]) htracks hlen
    exact ⟨w, forEach_cons_eq_ok.2 ⟨v, hrun, hrun'⟩, hw, hwhas⟩
  | .reload :: steps, tracked, _, _, h, hhas, htracks, hlen => by
    obtain ⟨v, hrun, hv, hvhas⟩ := reload_represents h
    obtain ⟨w, hrun', hw, hwhas⟩ := run_represents steps tracked hv (fun i => by rw [hvhas, hhas]) htracks hlen
    exact ⟨w, forEach_cons_eq_ok.2 ⟨v, hrun, hrun'⟩, hw, hwhas⟩

/-! ## What the two trees answer -/

theorem Represents.path_eq {u : IncTree} (h : Represents H l u) (hlen : l.length < 2 ^ 31) {i : Nat} (hi : u.has i = true) :
    ∃ p, u.path i = .ok p ∧ (tree H l).path H i = .ok p := by
  obtain ⟨p, hget, hmem⟩ := InsertionMap.get?_of_has hi
  obtain ⟨hin, hpath⟩ := h.paths _ hmem
  refine ⟨p, need_eq_ok.2 hget, ?_⟩
  rw [tree_path hin hlen]
  exact congrArg Except.ok hpath.symm

/-- The siblings of the next pair slot. -/
theorem Represents.siblings_eq {u : IncTree} (h : Represents H l u) :
    u.siblings H 1 (shrOne u.size) = .ok (pathFrom H l 1 l.length) := by
  have hrefuse : refuse ((1 : Int) ≠ 1 ∨ shrOne u.size ≠ shrOne u.size) "evm-pool-zk: only the next pair slot" = .ok () :=
    refuse_eq_ok.2 (by simp)
  rw [IncTree.siblings, hrefuse]
  refine congrArg Except.ok (List.map_congr_left fun d hd => ?_)
  have hd : d < EVM_TREE_DEPTH := by
    rw [List.mem_range'_1] at hd
    exact hd.2
  have hedge := rowLength_edge l.length d
  rw [h.size]
  unfold sibling
  split_ifs with hodd heven
  · omega
  · rw [h.filled d hd, lastLeft_odd hodd]
  · rw [nodesAt_past hedge.2, zeros]
  · omega

theorem tree_siblings_next (hlen : l.length < 2 ^ 31) :
    (tree H l).siblings H 1 (shrOne l.length) = pathFrom H l 1 l.length := by
  have hsiblings := tree_siblings (H := H) (l := l) hlen (EVM_TREE_DEPTH - 1) 1 (by decide)
  rw [shrOne_eq hlen]
  exact hsiblings

/-- The levels of `insert` and of `rootFromPath` fold the way up. -/
theorem foldl_foldLevel (i : Nat) : ∀ {q : List Nat} {pre : Path} {d h : Nat}, pre.length = d →
    (List.range' d q.length).foldl (foldLevel H i (pre ++ q.map some)) (some h) = some (rootFrom H h (i / 2 ^ d) q)
  | [], _, _, _, _ => rfl
  | s :: q, pre, d, h, hpre => by
    have hget : (pre ++ (s :: q).map some)[d]?.join = some s := by
      rw [List.getElem?_append_right hpre.le, hpre, Nat.sub_self]
      rfl
    have hshift : pre ++ (s :: q).map some = (pre ++ [some s]) ++ q.map some := by
      rw [List.append_assoc]
      rfl
    have hlevel : foldLevel H i (pre ++ (s :: q).map some) (some h) d =
        some (if i / 2 ^ d % 2 = 0 then H h s else H s h) := by
      simp only [foldLevel, hget, Option.bind_eq_bind, Option.bind_some, Option.pure_def]
      split_ifs with hodd heven heven
      · omega
      · rfl
      · rfl
      · omega
    rw [List.length_cons, List.range'_succ, List.foldl_cons, hlevel, hshift, foldl_foldLevel i (by simp [hpre]), rootFrom,
      div_pow_succ]

/-- The path of the next pair slot on the level above the leaves. -/
def insertionPath (H : Nat → Nat → Nat) (l : List Nat) : List Nat :=
  pathOf H (EVM_TREE_DEPTH - 1) (level H (pad 0 l)) (l.length / 2)

theorem insertionPath_length : (insertionPath H l).length = EVM_TREE_DEPTH - 1 := pathOf_length _ _ _

theorem pathFrom_next (H : Nat → Nat → Nat) (l : List Nat) : pathFrom H l 1 l.length = (insertionPath H l).map some := by
  have hlevels : pathOf H (EVM_TREE_DEPTH - 1) (level H (pad 0 l)) (l.length / 2 ^ 1) = _ :=
    pathOf_nodesAt (pad 0 l) l.length (EVM_TREE_DEPTH - 1) 1
  rw [pow_one] at hlevels
  rw [insertionPath, hlevels, List.map_map]
  rfl

/-- **The fold of a pair** along the path of the next slot is the root of the tree with the pair behind its leaves. -/
theorem rootFrom_insertionPath (hlen : l.length < 2 ^ 31) (heven : l.length % 2 = 0) (a b : Nat) :
    rootFrom H (H a b) (l.length / 2) (insertionPath H l) = (tree H (l ++ [a, b])).root := by
  have hroot : (tree H (l ++ [a, b])).root = treeRoot H (EVM_TREE_DEPTH - 1) (level H (pad 0 (l ++ [a, b]))) := by
    refine tree_root ?_
    rw [List.length_append]
    have hroom : 2 ^ 31 + 2 ≤ 2 ^ EVM_TREE_DEPTH := by decide
    exact Nat.le_trans (Nat.add_le_add_right hlen.le 2) hroom
  rw [hroot, level_pad_pair heven]
  exact rootFrom_write (Nat.lt_of_le_of_lt (Nat.div_le_self _ _) hlen) _

/-- **`insert`** of a pair gives the root of the tree with the pair behind its leaves. -/
theorem insert_eq (hlen : l.length < 2 ^ 31) (heven : l.length % 2 = 0) (pair : Nat × Nat) :
    insert H pair l.length (pathFrom H l 1 l.length) = some (tree H (l ++ [pair.1, pair.2])).root := by
  have hfold : (List.range' 0 (insertionPath H l).length).foldl (foldLevel H (l.length / 2) ([] ++ (insertionPath H l).map some))
      (some (H pair.1 pair.2)) = some (rootFrom H (H pair.1 pair.2) (l.length / 2 / 2 ^ 0) (insertionPath H l)) :=
    foldl_foldLevel _ List.length_nil
  rw [insertionPath_length, List.nil_append, ← pathFrom_next, pow_zero, Nat.div_one, rootFrom_insertionPath hlen heven] at hfold
  rw [insert, List.range_eq_range']
  exact hfold

/-- A pair of empty leaves changes no root. -/
theorem tree_root_empty_pair (hlen : l.length < 2 ^ 31) : (tree H (l ++ [0, 0])).root = (tree H l).root := by
  have hroom : 2 ^ 31 + 2 ≤ 2 ^ EVM_TREE_DEPTH := by decide
  have hlonger : (l ++ [0, 0]).length ≤ 2 ^ EVM_TREE_DEPTH := by
    rw [List.length_append]
    exact Nat.le_trans (Nat.add_le_add_right hlen.le 2) hroom
  rw [tree_root hlonger, tree_root (Nat.le_trans hlen.le (by decide)), pad_append_empty]

end

end Wallet

end EvmPool

end Tacit
