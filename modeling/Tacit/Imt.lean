import Tacit.Keccak
import Tacit.Lib.LinkedTree
/-!
# The Keccak trees and the indexed Merkle tree (lib.rs:2881-3119, :3182-3215)

`imt_insert_transition` never sees the set it inserts into: it has the prior root and a witness chosen
by the prover. `imt_run_inv` carries through every run of accepted inserts from `imt_empty_root` that
the root is the root of a sorted linked list (`SortedLinks.Linked`) of the inserted keys and the zero
sentinel; `imt_run_sound_complete` reads the set semantics off it.
-/
namespace Tacit

open SortedLinks

/-- `KECCAK_TREE_DEPTH` (lib.rs:3012). -/
def keccakTreeDepth : Nat := 32

section Trees

variable (K : Keccak)

/-- `merkle_root_from` (lib.rs:2893). -/
def merkleRootFrom (leaf : Word) (index : Nat) (path : List Word) : Option Word :=
  if path.length ≠ keccakTreeDepth then none else some (Merkle.rootFrom K.k2 leaf index path)

/-- `keccak_merkle_verify` (lib.rs:2881). -/
def keccakMerkleVerify (leaf : Word) (index : Nat) (path : List Word) (root : Word) : Bool :=
  match merkleRootFrom K leaf index path with
  | some h => h == root
  | none => false

/-- `keccak_tree_append_transition` (lib.rs:2908). -/
def keccakTreeAppendTransition (priorRoot : Word) (nextIndex : Nat) (path : List Word) (leaf : Word) :
    Option Word :=
  if !keccakMerkleVerify K 0 nextIndex path priorRoot then none else merkleRootFrom K leaf nextIndex path

/-- `keccak_merkle_root` (lib.rs:3027). -/
def keccakMerkleRoot (leaves : List Word) : Word :=
  if leaves.isEmpty then Nat.repeat (fun h => K.kn [h.bytes, h.bytes]) keccakTreeDepth 0
  else (Merkle.levels K.k2 0 keccakTreeDepth 0 leaves).headD 0

/-- `imt_leaf` (lib.rs:2924). -/
def imtLeaf (value next : Word) : Word := K.kn [value.bytes, next.bytes]

/-- `imt_non_membership` (lib.rs:2932). -/
def imtNonMembership (root nu lowValue lowNext : Word) (lowIndex : Nat) (lowPath : List Word) : Bool :=
  let leaf := imtLeaf K lowValue lowNext
  if !keccakMerkleVerify K leaf lowIndex lowPath root then false
  else if !beLt lowValue nu then false
  else if lowNext = 0 then true
  else beLt nu lowNext

/-- `imt_membership` (lib.rs:2955). -/
def imtMembership (root nu next : Word) (index : Nat) (path : List Word) : Bool :=
  keccakMerkleVerify K (imtLeaf K nu next) index path root

/-- The body `imt_insert_transition` and `utxo_insert_transition` share: the low link's successor is
rewired to `key`, then `key` with the displaced successor fills the empty slot at `newIndex` of the
rewired tree. -/
def linkInsertTransition {ν : Type} (leaf : Link Word ν → Word) (priorRoot key : Word) (value : ν)
    (low : Link Word ν) (lowIndex : Nat) (lowPath : List Word) (newIndex : Nat) (newPath : List Word) :
    Option Word :=
  if key = 0 ∨ !beLt low.key key then none
  else if low.next ≠ 0 ∧ !beLt key low.next then none
  else if !keccakMerkleVerify K (leaf low) lowIndex lowPath priorRoot then none
  else do
    let intermediate ← merkleRootFrom K (leaf { low with next := key }) lowIndex lowPath
    if !keccakMerkleVerify K 0 newIndex newPath intermediate then none
    else merkleRootFrom K (leaf ⟨key, low.next, value⟩) newIndex newPath

/-- `imt_insert_transition` (lib.rs:2992). -/
def imtInsertTransition (priorRoot nu lowValue lowNext : Word) (lowIndex : Nat) (lowPath : List Word)
    (newIndex : Nat) (newPath : List Word) : Option Word :=
  linkInsertTransition K (fun l : Link Word Unit => imtLeaf K l.key l.next) priorRoot nu ()
    ⟨lowValue, lowNext, ()⟩ lowIndex lowPath newIndex newPath

/-- `utxo_leaf` (lib.rs:3183). -/
def utxoLeaf (key next value : Word) : Word := K.kn [key.bytes, next.bytes, value.bytes]

/-- `utxo_membership` (lib.rs:2968). -/
def utxoMembership (root key next value : Word) (index : Nat) (path : List Word) : Bool :=
  keccakMerkleVerify K (utxoLeaf K key next value) index path root

/-- `utxo_insert_transition` (lib.rs:3193). -/
def utxoInsertTransition (priorRoot key value lowKey lowNext lowValue : Word) (lowIndex : Nat)
    (lowPath : List Word) (newIndex : Nat) (newPath : List Word) : Option Word :=
  linkInsertTransition K (fun l : Link Word Word => utxoLeaf K l.key l.next l.val) priorRoot key value
    ⟨lowKey, lowNext, lowValue⟩ lowIndex lowPath newIndex newPath

/-- `imt_root` (lib.rs:3057). -/
def imtRoot (links : List (Link Word Unit)) : Word :=
  keccakMerkleRoot K (links.map fun l => imtLeaf K l.key l.next)

/-- `imt_empty_root` (lib.rs:3066). -/
def imtEmptyRoot : Word := keccakMerkleRoot K [imtLeaf K 0 0]

end Trees

/-! ## `ImtAccumulator` (lib.rs:3077) -/

structure ImtAccumulator where
  links : List (Link Word Unit)

def ImtAccumulator.new : ImtAccumulator := ⟨[⟨0, 0, ()⟩]⟩

def ImtAccumulator.lowIndex (a : ImtAccumulator) (nu : Word) : Option Nat :=
  a.links.findIdx? fun l => beLt l.key nu && (l.next == 0 || beLt nu l.next)

/-- `insert`; `none` = one of its two panics. -/
def ImtAccumulator.insert (a : ImtAccumulator) (nu : Word) : Option ImtAccumulator :=
  if nu = 0 then none
  else do
    let i ← a.lowIndex nu
    let low ← a.links[i]?
    some ⟨a.links.set i { low with next := nu } ++ [⟨nu, low.next, ()⟩]⟩

def ImtAccumulator.root (K : Keccak) (a : ImtAccumulator) : Word := imtRoot K a.links

/-! ## The trees as linked trees -/

section Specs

variable {K : Keccak}

theorem keccakMerkleVerify_iff {leaf root : Word} {index : Nat} {path : List Word} :
    keccakMerkleVerify K leaf index path root = true ↔
      path.length = 32 ∧ Merkle.rootFrom K.k2 leaf index path = root := by
  unfold keccakMerkleVerify merkleRootFrom keccakTreeDepth
  by_cases h : path.length = 32 <;> simp [h]

theorem merkleRootFrom_eq_some {leaf r : Word} {index : Nat} {path : List Word} :
    merkleRootFrom K leaf index path = some r ↔
      path.length = 32 ∧ Merkle.rootFrom K.k2 leaf index path = r := by
  unfold merkleRootFrom keccakTreeDepth
  by_cases h : path.length = 32 <;> simp [h]

theorem repeat_zeros (z : Word) : ∀ n, Nat.repeat (fun h => K.kn [h.bytes, h.bytes]) n z = Merkle.zeros K.k2 z n
  | 0 => rfl
  | n + 1 => by rw [Nat.repeat, repeat_zeros z n]; rfl

/-- A list build is the depth-32 tree with zero leaves after the list. -/
theorem keccakMerkleRoot_eq (leaves : List Word) :
    keccakMerkleRoot K leaves = Merkle.treeRoot K.k2 32 (Merkle.pad 0 leaves) := by
  have h := @Merkle.levels_root _ K.k2 0 32 0 leaves
  rw [Merkle.zeros] at h
  rw [h]
  unfold keccakMerkleRoot keccakTreeDepth
  cases leaves with
  | nil => rw [Merkle.levels_nil]; exact repeat_zeros 0 32
  | cons a t =>
    have hne := @Merkle.levels_ne_nil _ K.k2 0 32 0 (a :: t) (by simp)
    rw [if_neg (by simp)]
    generalize Merkle.levels K.k2 0 32 0 (a :: t) = L at hne ⊢
    cases L with
    | nil => exact absurd rfl hne
    | cons b L => rfl

/-- The spent-set tree: links without a value. -/
def imtHashing (K : Keccak) : LinkedTree.Hashing Word Word Unit :=
  ⟨K.k2, fun l => imtLeaf K l.key l.next, 0⟩

/-- The burn and outpoint trees: links with a value. -/
def utxoHashing (K : Keccak) : LinkedTree.Hashing Word Word Word :=
  ⟨K.k2, fun l => utxoLeaf K l.key l.next l.val, 0⟩

theorem imtHashing_ideal (hK : K.Ideal) : (imtHashing K).Ideal where
  node_inj := hK.k2_injective
  leaf_inj p q h := by
    have := @Keccak.Ideal.k2_injective _ hK p.key q.key p.next q.next h
    obtain ⟨k, n, v⟩ := p
    obtain ⟨k', n', v'⟩ := q
    simp_all
  leaf_ne _ := hK.kn_ne_zero _

theorem utxoHashing_ideal (hK : K.Ideal) : (utxoHashing K).Ideal where
  node_inj := hK.k2_injective
  leaf_inj p q h := by
    obtain ⟨k, n, v⟩ := p
    obtain ⟨k', n', v'⟩ := q
    have := hK.kn_inj (by simp [Word.len]) h
    simp only [List.cons.injEq, and_true] at this
    rw [Word.ext this.1, Word.ext this.2.1, Word.ext this.2.2]
  leaf_ne _ := hK.kn_ne_zero _

theorem imtRoot_eq (links : List (Link Word Unit)) : imtRoot K links = LinkedTree.root (imtHashing K) 32 links :=
  keccakMerkleRoot_eq _

theorem straddles_iff {ν : Type} {k n x : Word} {v : ν} :
    Straddles (⟨k, n, v⟩ : Link Word ν) x ↔ k < x ∧ (n = 0 ∨ x < n) := Iff.rfl

/-- An accepted insert is the abstract one: no check is missing and none is added. -/
theorem linkInsertTransition_eq_some {ν : Type} {H : LinkedTree.Hashing Word Word ν} (hn : H.node = K.k2)
    (he : H.empty = 0) {r key r' : Word} {value : ν} {low : Link Word ν} {lowIndex newIndex : Nat}
    {lowPath newPath : List Word} :
    linkInsertTransition K H.leaf r key value low lowIndex lowPath newIndex newPath = some r' ↔
      LinkedTree.Inserts H 32 r key value low lowIndex lowPath newIndex newPath r' := by
  constructor
  · intro h
    unfold linkInsertTransition at h
    split at h
    · cases h
    · rename_i hkey
      split at h
      · cases h
      · rename_i hnext
        split at h
        · cases h
        · rename_i hlow
          obtain ⟨m, hm, h⟩ := Option.bind_eq_some_iff.1 h
          split at h
          · cases h
          · rename_i hslot
            obtain ⟨hll, hlow⟩ := keccakMerkleVerify_iff.1 (by simpa using hlow)
            obtain ⟨hnl, hslot⟩ := keccakMerkleVerify_iff.1 (by simpa using hslot)
            obtain ⟨-, rfl⟩ := merkleRootFrom_eq_some.1 hm
            obtain ⟨-, h⟩ := merkleRootFrom_eq_some.1 h
            rw [← hn] at hlow hslot h
            rw [← he] at hslot
            refine ⟨⟨?_, ?_⟩, hll, hnl, hlow, hslot, h⟩
            · simp at hkey; exact hkey.2
            · simp at hnext; rw [bot_eq_zero]; tauto
  · rintro ⟨⟨hlt, hnext⟩, hll, hnl, hlow, hslot, h⟩
    rw [hn] at hlow hslot h
    rw [he] at hslot
    have hkey : key ≠ 0 := fun e => not_lt_bot (e ▸ hlt)
    unfold linkInsertTransition
    rw [if_neg (by simp [hkey, hlt]), if_neg (by rw [bot_eq_zero] at hnext; simp; tauto),
      if_neg (by simp [keccakMerkleVerify_iff.2 ⟨hll, hlow⟩]), merkleRootFrom_eq_some.2 ⟨hll, rfl⟩]
    simp only [Option.bind_eq_bind, Option.bind_some]
    rw [if_neg (by simp [keccakMerkleVerify_iff.2 ⟨hnl, hslot⟩]), merkleRootFrom_eq_some.2 ⟨hnl, h⟩]

theorem imtInsertTransition_eq_some {r nu lowValue lowNext r' : Word} {lowIndex newIndex : Nat}
    {lowPath newPath : List Word} :
    imtInsertTransition K r nu lowValue lowNext lowIndex lowPath newIndex newPath = some r' ↔
      LinkedTree.Inserts (imtHashing K) 32 r nu () ⟨lowValue, lowNext, ()⟩ lowIndex lowPath newIndex newPath r' :=
  linkInsertTransition_eq_some (H := imtHashing K) rfl rfl

theorem utxoInsertTransition_eq_some {r key value lowKey lowNext lowValue r' : Word} {lowIndex newIndex : Nat}
    {lowPath newPath : List Word} :
    utxoInsertTransition K r key value lowKey lowNext lowValue lowIndex lowPath newIndex newPath = some r' ↔
      LinkedTree.Inserts (utxoHashing K) 32 r key value ⟨lowKey, lowNext, lowValue⟩ lowIndex lowPath newIndex
        newPath r' :=
  linkInsertTransition_eq_some (H := utxoHashing K) rfl rfl

/-! ## Runs of accepted inserts -/

/-- The sets an adversarial prover can reach: accepted inserts from the empty root, each at the running
leaf count, with any low link, indices and paths. The list is the inserted keys in order. -/
inductive ImtRun (K : Keccak) : List Word → Word → Prop
  | empty : ImtRun K [] (imtEmptyRoot K)
  | insert {S : List Word} {r nu lowValue lowNext r' : Word} {lowIndex : Nat} {lowPath newPath : List Word} :
      ImtRun K S r → S.length + 1 < 2 ^ 32 →
      imtInsertTransition K r nu lowValue lowNext lowIndex lowPath (S.length + 1) newPath = some r' →
      ImtRun K (S ++ [nu]) r'

/-- The honest accumulator after inserting `S` in order; `none` = a panic. -/
def ImtAccumulator.insertAll (S : List Word) : Option ImtAccumulator := S.foldlM ImtAccumulator.insert .new

/-- The accumulator `a` is the sorted linked list of `S`. -/
structure ImtAccumulator.Holds (a : ImtAccumulator) (S : List Word) : Prop where
  built : insertAll S = some a
  linked : Linked a.links
  keys_eq : keys a.links = 0 :: S

theorem ImtAccumulator.Holds.length {a : ImtAccumulator} {S : List Word} (h : a.Holds S) :
    a.links.length = S.length + 1 := by
  have := congrArg List.length h.keys_eq
  simpa [keys] using this

theorem ImtAccumulator.holds_new : ImtAccumulator.new.Holds [] :=
  ⟨rfl, linked_empty (κ := Word) (), rfl⟩

theorem straddles_of_low {l : Link Word Unit} {nu : Word} :
    (beLt l.key nu && (l.next == 0 || beLt nu l.next)) = true ↔ Straddles l nu := by
  rw [Straddles, bot_eq_zero]
  simp

/-- The accumulator finds the one straddling link. -/
theorem ImtAccumulator.lowIndex_eq {a : ImtAccumulator} (h : Linked a.links) {i : Nat} {p : Link Word Unit}
    {nu : Word} (hi : a.links[i]? = some p) (hs : Straddles p nu) : a.lowIndex nu = some i := by
  obtain ⟨hil, rfl⟩ := List.getElem?_eq_some_iff.1 hi
  refine List.findIdx?_eq_some_iff_getElem.2 ⟨hil, straddles_of_low.2 hs, ?_⟩
  intro j hj hc
  have hk := h.straddles_unique (List.getElem_mem (by omega)) (List.getElem_mem hil) (straddles_of_low.1 hc) hs
  have hinj := (List.nodup_iff_injective_get.1 h.nodup).eq_iff (a := ⟨j, by simp [keys]; omega⟩)
    (b := ⟨i, by simpa [keys] using hil⟩)
  have := congrArg Fin.val (hinj.1 (by simp [keys, hk]))
  simp only at this
  omega

theorem ImtAccumulator.insert_eq {a : ImtAccumulator} (h : Linked a.links) {i : Nat} {p : Link Word Unit}
    {nu : Word} (hi : a.links[i]? = some p) (hs : Straddles p nu) :
    a.insert nu = some ⟨insertAt a.links i p nu ()⟩ := by
  have h0 : nu ≠ 0 := fun e => not_lt_bot (e ▸ hs.1)
  simp [ImtAccumulator.insert, h0, lowIndex_eq h hi hs, hi, insertAt]

/-- Inserting through a straddling link keeps the accumulator. -/
theorem ImtAccumulator.Holds.insert {a : ImtAccumulator} {S : List Word} (h : a.Holds S) {i : Nat}
    {p : Link Word Unit} {nu : Word} (hi : a.links[i]? = some p) (hs : Straddles p nu) :
    (⟨insertAt a.links i p nu ()⟩ : ImtAccumulator).Holds (S ++ [nu]) where
  built := by
    have := h.built
    unfold insertAll at this ⊢
    rw [List.foldlM_append, this]
    simpa using insert_eq h.linked hi hs
  linked := h.linked.insertAt hi hs ()
  keys_eq := by rw [keys_insertAt hi, h.keys_eq]; rfl

/-- **Run invariant.** Whatever the witnesses, the root is that of the honest accumulator. -/
theorem imt_run_inv (hK : K.Ideal) {S : List Word} {r : Word} (h : ImtRun K S r) :
    ∃ a : ImtAccumulator, a.Holds S ∧ r = a.root K ∧ a.links.length ≤ 2 ^ 32 := by
  induction h with
  | empty => exact ⟨.new, ImtAccumulator.holds_new, rfl, by simp [ImtAccumulator.new]⟩
  | @insert S r nu lowValue lowNext r' lowIndex lowPath newPath _ hlt hins ih =>
    obtain ⟨a, ha, rfl, -⟩ := ih
    have hlen := ha.length
    rw [← hlen] at hins hlt
    have hI := imtInsertTransition_eq_some.1 hins
    rw [ImtAccumulator.root, imtRoot_eq] at hI
    obtain ⟨hi, rfl⟩ := hI.root_eq (imtHashing_ideal hK) hlt
    refine ⟨_, ha.insert hi hI.straddles, (imtRoot_eq _).symm, ?_⟩
    simp [insertAt]
    omega

theorem imtMembership_iff {r nu next : Word} {i : Nat} {path : List Word} :
    imtMembership K r nu next i path = true ↔
      path.length = 32 ∧ Merkle.rootFrom K.k2 (imtLeaf K nu next) i path = r := keccakMerkleVerify_iff

theorem imtNonMembership_iff {r nu lowValue lowNext : Word} {i : Nat} {path : List Word} :
    imtNonMembership K r nu lowValue lowNext i path = true ↔
      (path.length = 32 ∧ Merkle.rootFrom K.k2 (imtLeaf K lowValue lowNext) i path = r) ∧
        lowValue < nu ∧ (lowNext = 0 ∨ nu < lowNext) := by
  rw [← keccakMerkleVerify_iff, ← beLt_iff, ← beLt_iff]
  unfold imtNonMembership
  by_cases h0 : lowNext = 0 <;> simp [h0]

end Specs

section Semantics

variable {K : Keccak} {a : ImtAccumulator} {S : List Word}

theorem ImtAccumulator.Holds.not_mem_of_nonMembership (hK : K.Ideal) (h : a.Holds S)
    {nu lowValue lowNext : Word} {i : Nat} {path : List Word}
    (hn : imtNonMembership K (a.root K) nu lowValue lowNext i path = true) : nu ∉ S := by
  obtain ⟨⟨hl, hr⟩, hs⟩ := imtNonMembership_iff.1 hn
  rw [ImtAccumulator.root, imtRoot_eq] at hr
  have hm := LinkedTree.member_spec (imtHashing_ideal hK) (p := ⟨lowValue, lowNext, ()⟩) hl hr
  have := h.linked.not_mem_of_straddles (List.mem_of_getElem? hm) hs
  rw [h.keys_eq] at this
  exact fun hx => this (List.mem_cons_of_mem _ hx)

theorem ImtAccumulator.Holds.mem_of_membership (hK : K.Ideal) (h : a.Holds S)
    {nu next : Word} {i : Nat} {path : List Word}
    (hn : imtMembership K (a.root K) nu next i path = true) : nu ∈ S ∨ nu = 0 := by
  obtain ⟨hl, hr⟩ := imtMembership_iff.1 hn
  rw [ImtAccumulator.root, imtRoot_eq] at hr
  have hm := LinkedTree.member_spec (imtHashing_ideal hK) (p := ⟨nu, next, ()⟩) hl hr
  have := mem_keys (List.mem_of_getElem? hm)
  rw [h.keys_eq] at this
  rcases List.mem_cons.1 this with h0 | hS
  · exact Or.inr h0
  · exact Or.inl hS

theorem ImtAccumulator.Holds.nodup (h : a.Holds S) : 0 ∉ S ∧ S.Nodup := by
  have := h.linked.nodup
  rw [h.keys_eq] at this
  exact List.nodup_cons.1 this

theorem ImtAccumulator.Holds.exists_straddles (h : a.Holds S) {nu : Word} (h0 : nu ≠ 0) (hS : nu ∉ S) :
    ∃ (i : Nat) (p : Link Word Unit), a.links[i]? = some p ∧ Straddles p nu := by
  have hk : nu ∉ keys a.links := by rw [h.keys_eq]; simp [h0, hS]
  obtain ⟨p, hp, hs⟩ := h.linked.exists_straddles hk
  obtain ⟨i, hi⟩ := List.mem_iff_getElem?.1 hp
  exact ⟨i, p, hi, hs⟩

/-- Every absent nonzero key has a non-membership proof. -/
theorem ImtAccumulator.Holds.exists_nonMembership (h : a.Holds S) (hlen : a.links.length ≤ 2 ^ 32) {nu : Word}
    (h0 : nu ≠ 0) (hS : nu ∉ S) :
    ∃ lowValue lowNext i path, imtNonMembership K (a.root K) nu lowValue lowNext i path = true := by
  obtain ⟨i, p, hi, hs⟩ := h.exists_straddles h0 hS
  obtain ⟨path, hl, hr⟩ := LinkedTree.exists_member (H := imtHashing K) hlen hi
  rw [← imtRoot_eq] at hr
  exact ⟨p.key, p.next, i, path, imtNonMembership_iff.2 ⟨⟨hl, hr⟩, hs⟩⟩

/-- While a slot is left, one low link serves the non-membership proof and the insert. -/
theorem ImtAccumulator.Holds.exists_insert (h : a.Holds S) (hlen : a.links.length < 2 ^ 32) {nu : Word}
    (h0 : nu ≠ 0) (hS : nu ∉ S) :
    ∃ lowValue lowNext i lowPath newPath r',
      imtNonMembership K (a.root K) nu lowValue lowNext i lowPath = true ∧
      imtInsertTransition K (a.root K) nu lowValue lowNext i lowPath a.links.length newPath = some r' := by
  obtain ⟨i, p, hi, hs⟩ := h.exists_straddles h0 hS
  obtain ⟨lowPath, newPath, hI⟩ := LinkedTree.exists_inserts (H := imtHashing K) hlen () hi hs
  rw [← imtRoot_eq] at hI
  exact ⟨p.key, p.next, i, lowPath, newPath, _, imtNonMembership_iff.2 ⟨⟨hI.lowLen, hI.lowIn⟩, hs⟩,
    imtInsertTransition_eq_some.2 hI⟩

/-- **Soundness and completeness of the indexed Merkle tree.** After any run of accepted inserts `S`, the
root is the root of the depth-32 tree holding the sorted linked list of `S` and the zero sentinel; accepted
non-membership and membership proofs mean absence and presence; no key was inserted twice; and every absent
nonzero key has a low link accepted by `imt_non_membership` and, while a slot is left, by
`imt_insert_transition`. -/
theorem imt_run_sound_complete (hK : K.Ideal) {r : Word} (h : ImtRun K S r) :
    (∃ a, ImtAccumulator.insertAll S = some a ∧ r = a.root K ∧ Linked a.links ∧ keys a.links = 0 :: S) ∧
    (∀ nu lowValue lowNext i path, imtNonMembership K r nu lowValue lowNext i path = true → nu ∉ S) ∧
    (∀ nu next i path, imtMembership K r nu next i path = true → nu ∈ S ∨ nu = 0) ∧
    S.Nodup ∧
    (∀ nu, nu ≠ 0 → nu ∉ S → ∃ lowValue lowNext i lowPath,
      imtNonMembership K r nu lowValue lowNext i lowPath = true ∧
      (S.length + 1 < 2 ^ 32 → ∃ newPath r',
        imtInsertTransition K r nu lowValue lowNext i lowPath (S.length + 1) newPath = some r')) := by
  obtain ⟨a, ha, rfl, hlen⟩ := imt_run_inv hK h
  refine ⟨⟨a, ha.built, rfl, ha.linked, ha.keys_eq⟩, ?_, ?_, ha.nodup.2, ?_⟩
  · intro nu lowValue lowNext i path hn
    exact ha.not_mem_of_nonMembership hK hn
  · intro nu next i path hn
    exact ha.mem_of_membership hK hn
  · intro nu h0 hS
    rw [← ha.length]
    by_cases hlt : a.links.length < 2 ^ 32
    · obtain ⟨lowValue, lowNext, i, lowPath, newPath, r', hn, hins⟩ := ha.exists_insert (K := K) hlt h0 hS
      exact ⟨lowValue, lowNext, i, lowPath, hn, fun _ => ⟨newPath, r', hins⟩⟩
    · obtain ⟨lowValue, lowNext, i, lowPath, hn⟩ := ha.exists_nonMembership (K := K) hlen h0 hS
      exact ⟨lowValue, lowNext, i, lowPath, hn, fun hc => absurd hc hlt⟩

/-- A first insert into the empty set, with the ideal hash `codeKeccak`. -/
theorem imt_run_one_sound_complete : ∃ nu r, ImtRun codeKeccak [nu] r ∧ nu ≠ 0 ∧
    ∀ x lowValue lowNext i path, imtNonMembership codeKeccak r x lowValue lowNext i path = true → x ∉ [nu] := by
  have h0 : wordOfNat 1 ≠ 0 := by decide
  have hS : wordOfNat 1 ∉ ([] : List Word) := by simp
  obtain ⟨lowValue, lowNext, i, lowPath, newPath, r', -, hins⟩ :=
    ImtAccumulator.holds_new.exists_insert (K := codeKeccak) (by simp [ImtAccumulator.new]) h0 hS
  have hrun : ImtRun codeKeccak ([] ++ [wordOfNat 1]) r' := .insert .empty (by simp) hins
  exact ⟨wordOfNat 1, r', hrun, h0, (imt_run_sound_complete codeKeccak_ideal hrun).2.1⟩

end Semantics

-- no proof after this one computes a root
attribute [irreducible] keccakMerkleRoot imtEmptyRoot

end Tacit
