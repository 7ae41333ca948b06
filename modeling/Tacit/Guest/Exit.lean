import Tacit.Guest.Controller
/-!
# Leaving a position

From a sound world a stamped receipt can be unbonded on its own: the guest takes a signature of the owner and a release
note, the pool has both nullifiers of the receipt unspent, and the controller closes what it has stamped.
-/
namespace Tacit

open Prog ConfidentialPool

namespace SettleGuest

/-- What the schemes give an honest prover: a signature under every key, and a commitment with a proof, in every context,
that it opens to the value. -/
structure Complete (C : Proofs) (value : U 64) : Prop where
  signs (key : Word) : XOnly C.toCrypto key → ∀ msg, ∃ sig, C.bip340Verify sig msg key = true
  opens : ∃ cx cy, ∀ ctxt, ∃ sigR sigZ, Opening.opens C ⟨cx, cy, sigR, sigZ⟩ value.val ctxt = true

variable {C : Proofs} {D : Deployment} {R : ReceiptController C.toKeccak}

/-- A header of the pool's own lane: its current root, and no other. -/
def ownLane (D : Deployment) (s : ConfidentialPool.Storage) : Header :=
  ⟨D.chainBinding, s.notes.currentRoot, 0, 0, 0, 0⟩

/-- A batch without payouts, bridges, locks or reserves. -/
def plainBatch (D : Deployment) (spendRoot : Word) (nullifiers leaves deposits : List Word) (mints : List CdpMint)
    (closes : List CdpClose) (memoRoot : Word) : PublicValues :=
  { PublicValues.none D.chainBinding with
    spendRoot := spendRoot
    nullifiers := nullifiers
    leaves := leaves
    depositsConsumed := deposits
    cdpMints := mints
    cdpCloses := closes
    memoRoot := memoRoot }

/-- The batch of one unbond without a fee. -/
def unbondBatch (C : Proofs) (D : Deployment) (s : ConfidentialPool.Storage) (w : FarmUnbond) : PublicValues :=
  plainBatch D s.notes.currentRoot [w.receipt.nullifier C.toKeccak]
    [leaf C.toKeccak w.asset w.note.cx w.note.cy w.releaseOwner] [] [] [unbondClose C.toKeccak w.controller w.receipt]
    (C.k2 0 (C.hash []))

/-- A receipt of the tree has a path to its root. -/
theorem exists_path {s : ConfidentialPool.Storage} {leaves : List Word} {x : Word} (htree : s.notes.Holds D.keccak leaves)
    (hroom : s.notes.nextLeafIndex < 2 ^ 32) (hx : x ∈ leaves) :
    ∃ (i : U 64) (path : List Word), keccakMerkleVerify D.keccak x i.val path s.notes.currentRoot = true := by
  obtain ⟨i, hi, rfl⟩ := List.mem_iff_getElem.1 hx
  have hlen : i < 2 ^ 32 := hi.trans (htree.frontier.next_eq ▸ hroom)
  refine ⟨⟨i, hlen.trans (by decide)⟩, Merkle.pathOf D.keccak.k2 32 (Merkle.pad 0 leaves) i, ?_⟩
  rw [keccakMerkleVerify_iff, ← Merkle.pad_of_lt 0 hi, Merkle.rootFrom_pathOf 32 _ i hlen]
  exact ⟨Merkle.pathOf_length .., htree.frontier.root_eq.symm⟩

/-- **The guest** takes the unbond of a receipt of its tree. -/
theorem exists_farmUnbond {H : Header} {r : Receipt} (hcomplete : Complete C r.shares) (hkey : XOnly C.toCrypto r.owner)
    (hpos : 0 < r.shares.val) (hfarm : r.farm = controller32 R.address) (hroot : H.spendRoot ≠ 0)
    (hspent : H.bitcoinSpentRoot = 0) {i : U 64} {path : List Word}
    (hpath : keccakMerkleVerify C.toKeccak (r.leaf C.toKeccak) i.val path H.spendRoot = true) (releaseOwner : Word) :
    ∃ w : FarmUnbond, w.receipt = r ∧ w.controller = R.address ∧ w.fee.val = 0 ∧ w.releaseOwner = releaseOwner ∧
      (∃ ctxt, w.note.opens C r.shares.val ctxt = true) ∧ (farmUnbond C H w).isSome := by
  obtain ⟨cx, cy, hopen⟩ := hcomplete.opens
  obtain ⟨sigR, sigZ, hopens⟩ := hopen (intentContext C.toKeccak "tacit-farm-unbond-release-v1" H.chainBinding
    r.asset r.nonce [(cx, cy, releaseOwner)] [r.shares.val, 0])
  obtain ⟨sig, hsig⟩ := hcomplete.signs r.owner hkey (evmLpUnbondOwnerMsg C.toKeccak (controller32 R.address)
    (r.leaf C.toKeccak) r.shares.val 0 r.asset cx cy releaseOwner)
  have hreceipt : (⟨controller32 R.address, r.asset, r.shares, r.owner, r.nonce⟩ : Receipt) = r := by rw [← hfarm]
  refine ⟨⟨R.address, r.asset, r.shares, r.owner, r.nonce, ⟨0, by decide⟩, i, path, ⟨0, 0, ⟨0, by decide⟩, []⟩, releaseOwner,
    ⟨cx, cy, sigR, sigZ⟩, sig⟩, hreceipt, rfl, rfl, rfl, ⟨_, hopens⟩, ?_⟩
  have hquantized : feeIsQuantized 0 = true := rfl
  simp [farmUnbond, FarmUnbond.receipt, hreceipt, hpos, hroot, hpath, absent, hspent, hopens, hsig, hquantized]

theorem main_unbond {s : ConfidentialPool.Storage} {w : FarmUnbond} (hfee : w.fee.val = 0)
    (h : (farmUnbond C (ownLane D s) w).isSome) :
    main C (ownLane D s) [C.hash []] [.farmUnbond w] = some (unbondBatch C D s w) := by
  obtain ⟨e, he⟩ := Option.isSome_iff_exists.1 h
  have hall : [Op.farmUnbond w].mapM (Op.run C (ownLane D s)) = some [e] := by simp [Op.run, he]
  have heffects : [e].foldr (· ++ ·) ({} : Effects) = {
      nullifiers := [w.receipt.nullifier C.toKeccak]
      leaves := [leaf C.toKeccak w.asset w.note.cx w.note.cy w.releaseOwner]
      cdpCloses := [unbondClose C.toKeccak w.controller w.receipt] } := by
    rw [farmUnbond_eq_some he, relayFee, if_pos hfee]
    rfl
  have hlane : (ownLane D s).authenticated = false := by simp [Header.authenticated, ownLane]
  simp [main, hall, heffects, maxOps, hlane]
  rfl

/-- A plain batch of the pool's own lane is accepted when its sections are. -/
theorem settle_plain {env : Env} {s s₁ s₂ s₃ s₄ s₅ : ConfidentialPool.Storage} {root memoRoot : Word}
    {nullifiers leaves deposits : List Word} {mints : List CdpMint} {closes : List CdpClose} {memos : List Bytes}
    (hverified : env.verified = true) (hhome : homeOf root s = .ok false)
    (hgate : s.successor = 0 ∨ mints = []) (hmemos : memos.length = leaves.length) (hmemo : memoChain D.keccak memos = memoRoot)
    (hspend : forEach nullifiers spendNullifier s = .ok () s₁)
    (hcdp : cdpSection D env (plainBatch D root nullifiers leaves deposits mints closes memoRoot) s₁ = .ok () s₂)
    (hcount : countNullifiers (plainBatch D root nullifiers leaves deposits mints closes memoRoot) false s₂ = .ok () s₃)
    (hdeposits : forEach deposits consumeDeposit s₃ = .ok () s₄)
    (hleaf : leafSection D (plainBatch D root nullifiers leaves deposits mints closes memoRoot) s₄ = .ok () s₅) :
    settle D env (plainBatch D root nullifiers leaves deposits mints closes memoRoot) memos s = .ok () s₅ := by
  generalize hpv : plainBatch D root nullifiers leaves deposits mints closes memoRoot = pv at *
  have hretired : retirementGate pv false s = .ok () := by
    unfold retirementGate
    split
    case isTrue hne =>
      obtain rfl := hgate.resolve_left hne
      simp [requireLocalExitOnly, ← hpv, plainBatch, PublicValues.none]
    case isFalse => rfl
  have hchecks : settleChecks D env pv s = .ok false := by
    simp only [settleChecks, except_bind_eq_ok, refuse_eq_ok, except_pure_eq_ok]
    refine ⟨(), by simp [hverified], (), ?_, (), ?_, (), ?_, (), ?_, false, ?_, (), ?_, (), hretired, rfl⟩
    all_goals simp [← hpv, plainBatch, PublicValues.none, hhome]
  have hroots : rootChecks D pv memos s = .ok () := by
    simp [rootChecks, ← hpv, plainBatch, PublicValues.none, hmemo, hmemos]
  have hspend' : spendSection D pv s = .ok () s₁ := by
    have hlocks : insertLeaves D.keccak [] s₁.lockTree = .ok () s₁.lockTree := rfl
    have hnullifiers : pv.nullifiers = nullifiers := by rw [← hpv, plainBatch]
    simp [spendSection, hnullifiers, hspend]
    simp [← hpv, plainBatch, PublicValues.none, hlocks]
  have hdeposits' : forEach pv.depositsConsumed consumeDeposit s₃ = .ok () s₄ := by
    rw [← hpv]
    exact hdeposits
  simp only [settle, bind_eq_ok, get_eq_ok, ofExcept_eq_ok]
  refine ⟨s, s, ⟨rfl, rfl⟩, false, s, ⟨hchecks, rfl⟩, (), s, rfl, (), s, ⟨hroots, rfl⟩, (), s₁, hspend', (), s₂, hcdp,
    (), s₂, ?_, (), s₃, hcount, (), s₄, hdeposits', (), s₄, ?_, (), s₅, hleaf, (), s₅, ?_, (), s₅, ?_, (), s₅, ?_, ?_⟩
  · simp [cbtcSection, ← hpv, plainBatch, PublicValues.none]
  · simp [bridgeSection, mintBurns, ← hpv, plainBatch, PublicValues.none]
  · simp [payoutSection, ← hpv, plainBatch, PublicValues.none]
  · simp [recordCrossOuts, ← hpv, plainBatch, PublicValues.none]
  · simp [← hpv, plainBatch, PublicValues.none]
  · simp [← hpv, plainBatch, PublicValues.none]

/-- Every nullifier is counted where none is a bridge burn. -/
theorem countNullifiers_ok {s : ConfidentialPool.Storage} {pv : PublicValues} (hburns : pv.bitcoinBurnsConsumed = [])
    (h : s.evmNullifiersSpent + pv.nullifiers.length < 2 ^ 256) :
    countNullifiers pv false s = .ok () { s with evmNullifiersSpent := s.evmNullifiersSpent + pv.nullifiers.length } := by
  have hadded : pv.nullifiers.countP (fun n => n ∉ pv.bitcoinBurnsConsumed) = pv.nullifiers.length := by simp [hburns]
  simp only [countNullifiers, hadded, onlyIf_eq_ok, bind_eq_ok, get_eq_ok, orThrow_eq_ok, uint256_eq_some, modify_eq_ok]
  exact Or.inl ⟨trivial, s, s, ⟨rfl, rfl⟩, _, s, ⟨⟨h, rfl⟩, rfl⟩, rfl⟩

/-- Leaves that fit, above the floor. -/
theorem leafSection_ok {s : ConfidentialPool.Storage} {pv : PublicValues} {tree : Tree}
    (h : insertLeaves D.keccak pv.leaves s.notes = .ok () tree) (hfloor : s.evmNullifiersSpent ≤ tree.nextLeafIndex) :
    leafSection D pv s = .ok () { s with notes := tree } := by
  simp only [leafSection, bind_eq_ok, zoom_eq_ok, get_eq_ok, check_eq_ok]
  exact ⟨(), _, ⟨tree, h, rfl⟩, _, _, ⟨rfl, rfl⟩, not_lt.2 hfloor, rfl⟩

/-- **The pool** takes the batch: both nullifiers are unspent, there is room for the release note, and the controller
closes. -/
theorem settle_unbondBatch (hD : D.keccak = C.toKeccak) {env : Env} {s : ConfidentialPool.Storage} {w : FarmUnbond}
    {leaves : List Word} (htree : s.notes.Holds D.keccak leaves) (hroom : s.notes.nextLeafIndex < 2 ^ 32) (hs : Floored s)
    (hroot : s.notes.currentRoot ≠ 0) (hverified : env.verified = true) (hcode : env.hasCode w.controller.val = true)
    (hcall : env.succeeds (.onCdpClose (unbondClose C.toKeccak w.controller w.receipt)) = true)
    (hquiet : env.reenters (.onCdpClose (unbondClose C.toKeccak w.controller w.receipt)) = [])
    (hnull : s.nullifierSpent (w.receipt.nullifier C.toKeccak) = false)
    (hpos : s.cdpPositionSpent (w.receipt.nullifier C.toKeccak) = false) :
    ∃ t, settle D env (unbondBatch C D s w) [[]] s = .ok () t := by
  obtain ⟨tree, htree'⟩ := exists_insertLeaves [leaf C.toKeccak w.asset w.note.cx w.note.cy w.releaseOwner] htree (by
    rw [htree.frontier.next_eq] at hroom
    exact hroom)
  have hnext := (htree.insertLeaves htree').frontier.next_eq
  have hfloor := hs.floor
  rw [List.length_append, List.length_singleton, ← htree.frontier.next_eq] at hnext
  have hfits : s.evmNullifiersSpent + 1 ≤ tree.nextLeafIndex := by omega
  have hcount : s.evmNullifiersSpent + 1 < 2 ^ 256 := by omega
  -- The nullifier, the position and the count, each on the storage that the section before left.
  let s₁ := { s with nullifierSpent := marked s.nullifierSpent [w.receipt.nullifier C.toKeccak] }
  let s₂ := { s₁ with cdpPositionSpent := marked s.cdpPositionSpent [w.receipt.nullifier C.toKeccak] }
  have hspend : forEach [w.receipt.nullifier C.toKeccak] spendNullifier s = .ok () s₁ := by
    simp [spendNullifier, markOnce_eq_ok, hnull, s₁]
  have hcdp : cdpSection D env (unbondBatch C D s w) s₁ = .ok () s₂ := by
    simp [cdpSection, cdpRootCheck, cdpMints, cdpClose, ckController, spendCdpPosition, callOut, unbondBatch, plainBatch,
      PublicValues.none, markOnce_eq_ok, hcall, hquiet, s₁, s₂]
    exact ⟨rfl, hcode, hpos, rfl⟩
  refine ⟨_, settle_plain hverified ?_ (Or.inr rfl) rfl ?_ hspend hcdp (countNullifiers_ok rfl hcount) rfl
    (leafSection_ok htree' hfits)⟩
  · simp [homeOf, hroot, hs.known]
  · rw [memoChain, hD]
    rfl

/-! ## The exit -/

/-- A batch of one unbond without a fee takes the receipt's position out: the guest commits it, with a note that is
proven to open to the receipt's shares as its one leaf, the pool accepts it wherever the controller's call goes through,
and the controller takes that call. -/
def World.Exits (D : Deployment) (w : World R) (s : R.St) (r : Receipt) : Prop :=
  ∀ releaseOwner, ∃ (u : FarmUnbond) (pv : PublicValues) (t : R.St), u.receipt = r ∧ u.fee.val = 0 ∧
    (∃ ctxt, u.note.opens C r.shares.val ctxt = true) ∧
    main C (ownLane D w.pool) [C.hash []] [.farmUnbond u] = some pv ∧
    pv.leaves = [leaf C.toKeccak r.asset u.note.cx u.note.cy releaseOwner] ∧ R.Hears w.now pv s t ∧
    ∀ env : Env, env.verified = true → env.hasCode R.address.val = true →
      (∀ c, env.succeeds (.onCdpClose c) = true ∧ env.reenters (.onCdpClose c) = []) →
      ∃ pool, ConfidentialPool.settle D env pv [[]] w.pool = .ok () pool

/-- Each stamp is that of a receipt with an unspent nullifier and an owner that is a key; once its lock-up has passed, and
while the note tree has room, it has its exit. -/
def World.AllExit (D : Deployment) (w : World R) : Prop :=
  ∀ s, w.controller = some s → ∀ x, R.stamped s x = true →
    ∃ r : Receipt, r.leaf C.toKeccak = x ∧ r.farm = controller32 R.address ∧
      w.pool.nullifierSpent (r.nullifier C.toKeccak) = false ∧ XOnly C.toCrypto r.owner ∧
      (Complete C r.shares → R.ready w.now s r → w.pool.notes.nextLeafIndex < 2 ^ 32 → w.Exits D s r)

theorem noteRoot_ne_zero {K : Keccak} (hK : K.Ideal) (l : List Word) : noteRoot K l ≠ 0 := hK.kn_ne_zero _

/-- **From a sound world** every stamped receipt has its exit. -/
theorem World.Sound.exits (hC : C.toKeccak.Ideal) (hD : D.keccak = C.toKeccak) {w : World R} (hw : w.Sound D) :
    w.AllExit D := by
  intro s hs x hx
  obtain ⟨leaves, htree, hstamps⟩ := hw.stamps
  obtain ⟨r, hheld, hkey⟩ := hstamps s hs x hx
  refine ⟨r, hheld.leaf_eq, hheld.farm_eq, hheld.unspent, hkey, fun hcomplete hready hroom releaseOwner => ?_⟩
  have hroot : w.pool.notes.currentRoot ≠ 0 := by
    rw [htree.frontier.root_eq, hD]
    exact noteRoot_ne_zero hC leaves
  obtain ⟨i, path, hpath⟩ := exists_path htree hroom hheld.leaf_mem
  rw [hD, ← hheld.leaf_eq] at hpath
  obtain ⟨u, rfl, haddr, hfee, hrelease, hopens, hsome⟩ := exists_farmUnbond (H := ownLane D w.pool) hcomplete hkey
    hheld.shares_pos hheld.farm_eq hroot rfl hpath releaseOwner
  obtain ⟨t, hclose⟩ := R.exits (hw.controller s hs) (hheld.leaf_eq.symm ▸ hx) hready
  have hpos : w.pool.cdpPositionSpent (u.receipt.nullifier C.toKeccak) = false := by
    by_contra hspent
    have := hw.positions u.receipt (Bool.not_eq_false _ ▸ hspent)
    rw [hheld.unspent] at this
    cases this
  refine ⟨u, unbondBatch C D w.pool u, t, rfl, hfee, hopens, main_unbond hfee hsome, ?_, ?_, ?_⟩
  · rw [← hrelease]
    rfl
  · refine ⟨R.start s, R.start s, t, rfl, rfl, ?_, rfl⟩
    have hfilter : (unbondBatch C D w.pool u).cdpCloses.filter (fun c => c.controller = R.address.val) =
        [unbondClose C.toKeccak u.controller u.receipt] := by
      simp [unbondBatch, plainBatch, unbondClose, haddr]
    rw [hfilter, haddr]
    exact ⟨t, hclose, rfl⟩
  · intro env hverified hcode hcall
    rw [← haddr] at hcode
    exact settle_unbondBatch hD htree hroom hw.floored hroot hverified hcode (hcall _).1 (hcall _).2 hheld.unspent hpos

end SettleGuest

end Tacit
