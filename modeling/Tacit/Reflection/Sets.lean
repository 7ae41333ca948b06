import Tacit.Reflection.Folds
/-!
# What the roots of the reflection stand for

The state keeps its growing sets by root and count. `ImtSet r n S` says that a root and a count stand for the
set `S` of an indexed tree without values, `MapSet` the same for a tree with values, `NoteTree r n L` that they
stand for the appended leaves `L`. Each elementary fold is then an operation on the set: whatever witness is
accepted, the new root stands for the set with the key (`ImtSet.insert`), so two accepted witnesses give one
root (`ImtSet.insert_unique`), and an accepted membership claim is a member (`ImtSet.mem`).
-/
namespace Tacit

open SortedLinks

variable {K : Keccak} {r r' r'' : Word} {n : Nat}

/-! ## Indexed trees -/

/-- `r` and `n` are the root and the leaf count of the indexed tree of the keys `S`, the sentinel apart. -/
def ImtSet (K : Keccak) (r : Word) (n : Nat) (S : List Word) : Prop :=
  ∃ l, LinkedTree.Commits (imtHashing K) 32 r n l ∧ keys l = 0 :: S

/-- The same for a tree whose links carry a value. -/
def MapSet (K : Keccak) (r : Word) (n : Nat) (S : List Word) : Prop :=
  ∃ l, LinkedTree.Commits (utxoHashing K) 32 r n l ∧ keys l = 0 :: S

/-- An accepted insert witness of `read_spent_insert`. -/
def SpentInsert.Accepted (K : Keccak) (w : SpentInsert) (r : Word) (n : Nat) (nu r' : Word) : Prop :=
  imtInsertTransition K r nu w.lowValue w.lowNext w.lowIndex w.lowPath n w.newPath = some r'

/-- An accepted insert witness of `read_burn_insert`. -/
def BurnInsert.Accepted (K : Keccak) (w : BurnInsert) (r : Word) (n : Nat) (key value r' : Word) : Prop :=
  utxoInsertTransition K r key value w.lowKey w.lowNext w.lowValue w.lowIndex w.lowPath n w.newPath = some r'

section Imt

variable {S : List Word} {nu : Word} {w w' : SpentInsert}

theorem imtSet_empty : ImtSet K (imtEmptyRoot K) 1 [] := by
  refine ⟨[⟨0, 0, ()⟩], ?_, rfl⟩
  have h := LinkedTree.commits_empty (H := imtHashing K) (d := 32) ()
  rw [← imtRoot_eq] at h
  rwa [imtEmptyRoot]

theorem ImtSet.mem (hK : K.Ideal) (h : ImtSet K r n S) {next : Word} {i : Nat} {path : List Word}
    (hm : imtMembership K r nu next i path = true) : nu = 0 ∨ nu ∈ S := by
  obtain ⟨l, hc, hk⟩ := h
  obtain ⟨hl, hr⟩ := imtMembership_iff.1 hm
  have := mem_keys (hc.mem_of_path (imtHashing_ideal hK) (p := ⟨nu, next, ()⟩) hl hr)
  rwa [hk, List.mem_cons] at this

theorem ImtSet.not_mem (hK : K.Ideal) (h : ImtSet K r n S) {lowValue lowNext : Word} {i : Nat} {path : List Word}
    (hm : imtNonMembership K r nu lowValue lowNext i path = true) : nu ≠ 0 ∧ nu ∉ S := by
  obtain ⟨l, hc, hk⟩ := h
  obtain ⟨⟨hl, hr⟩, hs⟩ := imtNonMembership_iff.1 hm
  have hp := hc.mem_of_path (imtHashing_ideal hK) (p := ⟨lowValue, lowNext, ()⟩) hl hr
  have := hc.linked.not_mem_of_straddles hp hs
  rw [hk, List.mem_cons, not_or] at this
  exact this

theorem ImtSet.nodup (h : ImtSet K r n S) : 0 ∉ S ∧ S.Nodup := by
  obtain ⟨l, hc, hk⟩ := h
  have := hc.linked.nodup
  rw [hk] at this
  exact List.nodup_cons.1 this

theorem ImtSet.count (h : ImtSet K r n S) : n = S.length + 1 := by
  obtain ⟨l, hc, hk⟩ := h
  have := congrArg List.length hk
  simp [keys, hc.length_eq] at this
  exact this

/-- An accepted insert is of a new key and stands for the set with it. -/
theorem ImtSet.insert (hK : K.Ideal) (h : ImtSet K r n S) (hw : w.Accepted K r n nu r') :
    (nu ≠ 0 ∧ nu ∉ S) ∧ ImtSet K r' (n + 1) (S ++ [nu]) := by
  obtain ⟨l, hc, hk⟩ := h
  have hI := imtInsertTransition_eq_some.1 hw
  have hn := hc.not_mem_of_inserts (imtHashing_ideal hK) hI
  obtain ⟨hlow, hc'⟩ := hc.insert (imtHashing_ideal hK) hI
  rw [hk, List.mem_cons, not_or] at hn
  refine ⟨hn, _, hc', ?_⟩
  rw [keys_insertAt hlow, hk, List.cons_append]

theorem SpentInsert.Accepted.low_lt (hw : w.Accepted K r n nu r') : w.lowValue < nu :=
  (imtInsertTransition_eq_some.1 hw).straddles.1

theorem ImtSet.insert_unique (hK : K.Ideal) (h : ImtSet K r n S) (hw : w.Accepted K r n nu r')
    (hw' : w'.Accepted K r n nu r'') : r' = r'' := by
  obtain ⟨l, hc, -⟩ := h
  exact hc.insert_unique (imtHashing_ideal hK) (imtInsertTransition_eq_some.1 hw) (imtInsertTransition_eq_some.1 hw')

/-- A new nonzero key has an accepted witness while the tree is not full. -/
theorem ImtSet.exists_insert (h : ImtSet K r n S) (hn : n < 2 ^ 32) (h0 : nu ≠ 0) (hS : nu ∉ S) :
    ∃ (w : SpentInsert) (r' : Word), w.Accepted K r n nu r' := by
  obtain ⟨l, hc, hk⟩ := h
  obtain ⟨low, i, lowPath, newPath, r', hI⟩ := hc.exists_insert (x := nu) hn (by rw [hk]; simp [h0, hS]) ()
  exact ⟨⟨low.key, low.next, i, lowPath, newPath⟩, r', imtInsertTransition_eq_some.2 hI⟩

theorem ImtSet.exists_mem (h : ImtSet K r n S) (hS : nu ∈ S) :
    ∃ next i path, imtMembership K r nu next i path = true := by
  obtain ⟨l, hc, hk⟩ := h
  have hm : nu ∈ keys l := by rw [hk]; exact List.mem_cons_of_mem _ hS
  obtain ⟨p, hp, rfl⟩ := List.mem_map.1 hm
  obtain ⟨i, path, hl, hr⟩ := hc.exists_path hp
  exact ⟨p.next, i, path, imtMembership_iff.2 ⟨hl, hr⟩⟩

theorem ImtSet.exists_not_mem (h : ImtSet K r n S) (h0 : nu ≠ 0) (hS : nu ∉ S) :
    ∃ lowValue lowNext i path, imtNonMembership K r nu lowValue lowNext i path = true := by
  obtain ⟨l, hc, hk⟩ := h
  obtain ⟨p, hp, hs⟩ := hc.linked.exists_straddles (x := nu) (by rw [hk]; simp [h0, hS])
  obtain ⟨i, path, hl, hr⟩ := hc.exists_path hp
  exact ⟨p.key, p.next, i, path, imtNonMembership_iff.2 ⟨⟨hl, hr⟩, hs⟩⟩

end Imt

/-- The root and the count of the spent set. -/
def ScanReflection.spentSet (s : ScanReflection) : Word × Nat := (s.spentRoot, s.spentCount)

/-- The spent set of a state, as a list of nullifiers. -/
def ScanReflection.Spent (K : Keccak) (s : ScanReflection) (S : List Word) : Prop :=
  ImtSet K s.spentRoot s.spentCount S

theorem ScanReflection.Spent.congr {s t : ScanReflection} {S : List Word} (h : s.Spent K S) (he : t.spentSet = s.spentSet) :
    t.Spent K S := by
  have h1 : t.spentRoot = s.spentRoot := congrArg Prod.fst he
  have h2 : t.spentCount = s.spentCount := congrArg Prod.snd he
  unfold Spent at h ⊢
  rw [h1, h2]
  exact h

/-! ## The note tree -/

/-- `r` and `n` are the root and the count of the appended leaves `L`. -/
structure NoteTree (K : Keccak) (r : Word) (n : Nat) (L : List Word) : Prop where
  root_eq : r = keccakMerkleRoot K L
  count_eq : L.length = n
  fits : n ≤ 2 ^ 32
  nonzero : ∀ x ∈ L, x ≠ 0

theorem noteTree_empty : NoteTree K (keccakMerkleRoot K []) 0 [] := ⟨rfl, rfl, by simp, by simp⟩

theorem append_eq_some {path : List Word} {leaf : Word} :
    keccakTreeAppendTransition K r n path leaf = some r' ↔
      path.length = 32 ∧ Merkle.rootFrom K.k2 0 n path = r ∧ Merkle.rootFrom K.k2 leaf n path = r' := by
  unfold keccakTreeAppendTransition
  by_cases h : keccakMerkleVerify K 0 n path r = true
  · obtain ⟨hl, hr⟩ := keccakMerkleVerify_iff.1 h
    simp [h, merkleRootFrom_eq_some, hl, hr]
  · have h' := h
    rw [keccakMerkleVerify_iff] at h'
    simp only [h, Bool.not_false, if_true, reduceCtorEq, false_iff]
    rintro ⟨hl, hr, -⟩
    exact h' ⟨hl, hr⟩

/-- Two accepted paths at one root and index are one path, so they append alike. -/
theorem append_unique (hK : K.Ideal) {path path' : List Word} {leaf : Word}
    (h : keccakTreeAppendTransition K r n path leaf = some r')
    (h' : keccakTreeAppendTransition K r n path' leaf = some r'') : r' = r'' := by
  obtain ⟨hl, hr, rfl⟩ := append_eq_some.1 h
  obtain ⟨hl', hr', rfl⟩ := append_eq_some.1 h'
  obtain ⟨-, rfl⟩ := Merkle.rootFrom_inj hK.k2_injective (hl.trans hl'.symm) (hr.trans hr'.symm)
  rfl

section NoteTree

variable {L : List Word} {leaf : Word}

/-- An accepted append is at an empty slot and stands for the list with the leaf. -/
theorem NoteTree.append (hK : K.Ideal) (h : NoteTree K r n L) (h0 : leaf ≠ 0) {path : List Word}
    (ha : keccakTreeAppendTransition K r n path leaf = some r') : NoteTree K r' (n + 1) (L ++ [leaf]) := by
  obtain ⟨hl, hr, rfl⟩ := append_eq_some.1 ha
  rw [h.root_eq, keccakMerkleRoot_eq] at hr
  obtain ⟨hz, hp⟩ := Merkle.rootFrom_binding hK.k2_injective 32 _ _ n path hl hr
  -- a full tree has no empty slot at `2 ^ 32`, which is slot 0
  have hn : n < 2 ^ 32 := by
    rcases Nat.lt_or_ge n (2 ^ 32) with hn | hn
    · exact hn
    have hnd : n = 2 ^ 32 := Nat.le_antisymm h.fits hn
    have hlen : 0 < L.length := by rw [h.count_eq, hnd]; exact Nat.two_pow_pos 32
    rw [hnd, Nat.mod_self, Merkle.pad_of_lt _ hlen] at hz
    exact absurd hz.symm (h.nonzero _ (List.getElem_mem hlen))
  rw [Nat.mod_eq_of_lt hn] at hp
  refine ⟨?_, by simp [h.count_eq], hn, ?_⟩
  · rw [keccakMerkleRoot_eq, Merkle.pad_append, h.count_eq, hp, Merkle.rootFrom_write hn]
  · intro x hx
    rcases List.mem_append.1 hx with hx | hx
    · exact h.nonzero x hx
    · rw [List.mem_singleton.1 hx]; exact h0

theorem NoteTree.exists_append (h : NoteTree K r n L) (hn : n < 2 ^ 32) (leaf : Word) :
    ∃ path r', keccakTreeAppendTransition K r n path leaf = some r' := by
  have hp := @Merkle.rootFrom_pathOf _ K.k2 32 (Merkle.pad 0 L) n hn
  rw [Merkle.pad_of_le _ h.count_eq.le, ← keccakMerkleRoot_eq, ← h.root_eq] at hp
  exact ⟨_, _, append_eq_some.2 ⟨Merkle.pathOf_length .., hp, rfl⟩⟩

theorem NoteTree.mem_of_verify (hK : K.Ideal) (h : NoteTree K r n L) (h0 : leaf ≠ 0) {i : Nat} {path : List Word}
    (hv : keccakMerkleVerify K leaf i path r = true) : leaf ∈ L := by
  obtain ⟨hl, hr⟩ := keccakMerkleVerify_iff.1 hv
  rw [h.root_eq, keccakMerkleRoot_eq] at hr
  obtain ⟨he, -⟩ := Merkle.rootFrom_binding hK.k2_injective 32 _ _ i path hl hr
  rcases Nat.lt_or_ge (i % 2 ^ 32) L.length with hi | hi
  · rw [Merkle.pad_of_lt _ hi] at he
    rw [he]
    exact List.getElem_mem hi
  · rw [Merkle.pad_of_le _ hi] at he
    exact absurd he h0

theorem NoteTree.exists_verify (h : NoteTree K r n L) (hm : leaf ∈ L) :
    ∃ i path, keccakMerkleVerify K leaf i path r = true := by
  obtain ⟨i, hi, rfl⟩ := List.getElem_of_mem hm
  have hlt : i < 2 ^ 32 := by have := h.fits; have := h.count_eq; omega
  have hp := @Merkle.rootFrom_pathOf _ K.k2 32 (Merkle.pad 0 L) i hlt
  rw [Merkle.pad_of_lt _ hi, ← keccakMerkleRoot_eq, ← h.root_eq] at hp
  exact ⟨i, _, keccakMerkleVerify_iff.2 ⟨Merkle.pathOf_length .., hp⟩⟩

end NoteTree

/-! ## The elementary folds -/

section Folds

open Prog

variable {s t : ScanReflection} {a : Unit}

theorem foldSpent_eq_ok {nu : Word} {w : SpentInsert} :
    foldSpent K nu w s = .ok a t ↔ ∃ r, w.Accepted K s.spentRoot s.spentCount nu r ∧
      t = { s with spentRoot := r, spentCount := s.spentCount + 1 } := by
  simp [foldSpent, SpentInsert.Accepted]

theorem foldNoteAppend_eq_ok {leaf : Word} {path : List Word} :
    foldNoteAppend K leaf path s = .ok a t ↔ ∃ r, keccakTreeAppendTransition K s.poolRoot s.noteCount path leaf = some r ∧
      t = { s with poolRoot := r, noteCount := s.noteCount + 1 } := by
  simp [foldNoteAppend]

theorem liveInsert_eq_ok {outpoint : Word} {n : LiveNote} :
    liveInsert outpoint n s = .ok a t ↔ s.live.get outpoint = none ∧ t = { s with live := s.live.set outpoint n } := by
  simp [liveInsert, SortedMap.insert_eq_some, and_assoc]

/-- `s` with one more note. -/
def ScanReflection.withNote (s : ScanReflection) (root outpoint : Word) (n : LiveNote) : ScanReflection :=
  { s with poolRoot := root, noteCount := s.noteCount + 1, live := s.live.set outpoint n }

theorem foldOutputTagged_eq_ok {bound : Bool} {leaf outpoint ch asset auth : Word} {path : List Word} :
    foldOutputTagged K bound leaf path outpoint ch asset auth s = .ok a t ↔
      ∃ r, keccakTreeAppendTransition K s.poolRoot s.noteCount path leaf = some r ∧ s.live.get outpoint = none ∧
        t = s.withNote r outpoint ⟨ch, asset, auth, bound⟩ := by
  unfold foldOutputTagged
  simp only [bind_eq_ok, foldNoteAppend_eq_ok, liveInsert_eq_ok]
  constructor
  · rintro ⟨_, _, ⟨r, hr, rfl⟩, hl, rfl⟩
    exact ⟨r, hr, hl, rfl⟩
  · rintro ⟨r, hr, hl, rfl⟩
    exact ⟨(), _, ⟨r, hr, rfl⟩, hl, rfl⟩

theorem onboardNote_eq_ok {C : Crypto} {asset : Word} {c : Bytes} {auth outpoint : Word} {path : List Word} {e e' : String} :
    onboardNote C asset c auth outpoint path e e' s = .ok a t ↔
      ∃ pt r, C.decompress c = some pt ∧
        keccakTreeAppendTransition C.toKeccak s.poolRoot s.noteCount path (btcNoteLeaf C.toKeccak asset pt.x pt.y auth) = some r ∧
        s.live.get outpoint = none ∧
        t = s.withNote r outpoint ⟨commitmentHash C.toKeccak pt.x pt.y, asset, auth, false⟩ := by
  unfold onboardNote reflectedNoteLeaf commitmentHashCompressed foldOutput
  cases hpt : C.decompress c with
  | none => simp
  | some pt => simp [foldOutputTagged_eq_ok]

end Folds

/-! ## Cross-outs -/

section Crossout

open Prog

variable {C : Crypto} {s : ScanReflection}

/-- A presence claim about a well-formed set is true exactly of its members. -/
theorem ethCrossoutImt_iff (hK : C.toKeccak.Ideal) {leaf root : Word} {X : List Word} (hX : ImtSet C.toKeccak root n X)
    (h0 : leaf ≠ 0) {w : CrossoutWitness} {b : Bool} (h : ethCrossoutImt C.toKeccak leaf root w = some b) :
    b = true ↔ leaf ∈ X := by
  unfold ethCrossoutImt at h
  split at h
  · split at h
    · rename_i hm
      cases h
      have := hX.mem hK hm
      simpa [h0] using this
    · cases h
  · split at h
    · rename_i hm
      cases h
      simpa using (hX.not_mem hK hm).2
    · cases h

/-- What the mint of a member cross-out leaves: the state as it was, if the claim is consumed already, or one more
note. -/
def MintsTo (C : Crypto) (asset claimId cx cy outpoint auth : Word) (w : CrossoutWitness) (s t : ScanReflection) : Prop :=
  (w.consumed.lowValue = claimId ∧ imtMembership C.toKeccak s.consumedCrossoutRoot claimId w.consumed.lowNext
    w.consumed.lowIndex w.consumed.lowPath = true ∧ t = s) ∨
  (∃ r p, w.consumed.Accepted C.toKeccak s.consumedCrossoutRoot s.consumedCrossoutCount claimId r ∧
    keccakTreeAppendTransition C.toKeccak s.poolRoot s.noteCount w.notePath
      (btcNoteLeaf C.toKeccak asset cx cy auth) = some p ∧ s.live.get outpoint = none ∧
    t = { s.withNote p outpoint ⟨commitmentHash C.toKeccak cx cy, asset, auth, false⟩ with
      consumedCrossoutRoot := r, consumedCrossoutCount := s.consumedCrossoutCount + 1,
      foldedCrossoutCount := s.foldedCrossoutCount + 1 })

theorem wp_mintCrossout {asset claimId cx cy outpoint auth : Word} {w : CrossoutWitness} :
    wp True (mintCrossout C asset claimId cx cy outpoint auth w) s (fun _ _ => False)
      (fun _ t => MintsTo C asset claimId cx cy outpoint auth w s t) := by
  unfold mintCrossout MintsTo
  rw [wp_bind, wp_get, wp_ite]
  constructor
  · intro hl
    rw [wp_assert]
    exact ⟨fun hm => Or.inl ⟨hl, hm, rfl⟩, fun _ => trivial⟩
  · intro hl
    simp only [wp_bind, wp_orPanic, wp_expect, wp_modify, implies_true, true_and, foldOutput]
    intro r hr
    rw [wp_iff_ok]
    rintro _ t ht
    obtain ⟨p, hp, hlive, rfl⟩ := foldOutputTagged_eq_ok.1 ht
    exact Or.inr ⟨r, p, hr, hp, hlive, rfl⟩

end Crossout

end Tacit
