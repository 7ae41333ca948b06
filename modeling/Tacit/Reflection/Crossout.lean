import Mathlib.Data.Finset.Card
import Tacit.Reflection.Independence
import Tacit.Reflection.Updates
/-!
# One Bitcoin-side mint per Ethereum cross-out

`fold_crossout` reads two accumulators by prover-chosen witnesses: membership in the set of cross-outs that Ethereum
committed to, and consumption of the claim in a set of the reflection's own. `CrossoutRun` is a run of the fold with
any witnesses, any other fold and any number of generations in between; it logs a cross-out once for every note its
fold appends. The consumed set stands for the claims of the log (`CrossoutRun.claims`), so that a claim is logged once.
-/
namespace Tacit

open Prog

/-- `EthCrossOut` (eth_reflection.rs:72). -/
structure EthCrossOut where
  claimId : Word
  destChain : U 16
  destCommitment : Word
  assetId : Word

/-- `eth_crossout_leaf` (eth_reflection.rs:82). -/
def EthCrossOut.leaf (K : Keccak) (co : EthCrossOut) : Word :=
  K.kn [co.claimId.bytes, beBytes 2 co.destChain.val, co.destCommitment.bytes, co.assetId.bytes]

theorem EthCrossOut.leaf_injective {K : Keccak} (hK : K.Ideal) {a b : EthCrossOut} (h : a.leaf K = b.leaf K) : a = b := by
  obtain ⟨claimId, destChain, destCommitment, assetId⟩ := a
  obtain ⟨claimId', destChain', destCommitment', assetId'⟩ := b
  have hl := hK.kn_inj (by simp [Word.len, beBytes_length]) h
  simp only [List.cons.injEq, and_true] at hl
  obtain ⟨h₁, h₂, h₃, h₄⟩ := hl
  have hchain : destChain = destChain' := Fin.ext (beBytes_inj destChain.isLt destChain'.isLt h₂)
  rw [Word.ext h₁, hchain, Word.ext h₃, Word.ext h₄]

/-- The arguments of `fold_crossout` that the confirmed transaction and the batch fix. -/
structure CrossoutMint where
  asset : Word
  claimId : Word
  cx : Word
  cy : Word
  setRoot : Word
  outpoint : Word
  destAuthKey : Word

namespace CrossoutMint

variable (C : Crypto)

def fold (m : CrossoutMint) (w : CrossoutWitness) : Fold Unit :=
  foldCrossout C m.asset m.claimId m.cx m.cy m.setRoot m.outpoint m.destAuthKey w

/-- The cross-out to Bitcoin that authorizes the mint: the same claim, asset and commitment. -/
def crossOut (m : CrossoutMint) : EthCrossOut :=
  ⟨m.claimId, 1, btcNoteLeaf C.toKeccak m.asset m.cx m.cy m.destAuthKey, m.asset⟩

/-- Ethereum's cross-out set, committed to by the root the mint was checked against, has the cross-out. -/
def Authorized (m : CrossoutMint) : Prop :=
  ∀ n (X : List EthCrossOut), ImtSet C.toKeccak m.setRoot n (X.map (EthCrossOut.leaf C.toKeccak)) → m.crossOut C ∈ X

/-- What a mint leaves: one note more, one claim consumed. -/
def minted (m : CrossoutMint) (s : ScanReflection) (consumedRoot poolRoot : Word) : ScanReflection :=
  { s.withNote poolRoot m.outpoint ⟨commitmentHash C.toKeccak m.cx m.cy, m.asset, m.destAuthKey, false⟩ with
    consumedCrossoutRoot := consumedRoot, consumedCrossoutCount := s.consumedCrossoutCount + 1,
    foldedCrossoutCount := s.foldedCrossoutCount + 1 }

variable {C} {m : CrossoutMint} {w : CrossoutWitness} {s : ScanReflection}

/-- **The fold changes nothing, or mints**: an authorized cross-out whose claim was not consumed. A refused fold, a
fake and a replay change nothing. -/
theorem fold_spec (hK : C.toKeccak.Ideal) : wp True (m.fold C w) s (fun _ t => t = s) fun _ t => t = s ∨
    (m.Authorized C ∧ ∃ r p, w.consumed.Accepted C.toKeccak s.consumedCrossoutRoot s.consumedCrossoutCount m.claimId r ∧
      t = m.minted C s r p) := by
  simp only [fold, foldCrossout, wp_bind, wp_check, wp_orPanic, wp_ite, wp_pure, eq_self, implies_true, true_and, true_or]
  intro _ _ _ real hreal hmint
  have hreal' : real = true := by simpa using hmint
  subst hreal'
  refine wp_mono wp_mintCrossout id (fun _ _ h => h.elim) fun _ t ht => ?_
  rcases ht with ⟨-, -, rfl⟩ | ⟨r, p, hr, -, -, rfl⟩
  · exact Or.inl rfl
  · refine Or.inr ⟨?_, r, p, hr, rfl⟩
    intro n X hX
    have hmem := (ethCrossoutImt_iff hK hX (hK.kn_ne_zero _) hreal).1 rfl
    obtain ⟨co, hco, heq⟩ := List.mem_map.1 hmem
    rwa [EthCrossOut.leaf_injective hK (a := co) (b := m.crossOut C) heq] at hco

end CrossoutMint

/-- The part of the state that the cross-out fold alone writes. -/
def ScanReflection.claims (s : ScanReflection) : Word × Nat × Nat :=
  (s.consumedCrossoutRoot, s.consumedCrossoutCount, s.foldedCrossoutCount)

/-- The log after a fold: the cross-out once for every note the fold appended. -/
def logMint (m : CrossoutMint) (s t : ScanReflection) (log : List CrossoutMint) : List CrossoutMint :=
  log ++ List.replicate (t.noteCount - s.noteCount) m

/-- A run of the reflection from genesis, with the mints of the generations before and of the last one: cross-out
folds with any arguments and witnesses, message folds, the rebase of a successor generation, and whatever else leaves
the claims alone. -/
inductive CrossoutRun (C : Crypto) : ScanReflection → List CrossoutMint → List CrossoutMint → Prop
  | genesis : CrossoutRun C (.genesis C.toKeccak) [] []
  | fold {s t : ScanReflection} {old log : List CrossoutMint} {m : CrossoutMint} {w : CrossoutWitness} :
      CrossoutRun C s old log → m.fold C w s = .ok () t → CrossoutRun C t old (logMint m s t log)
  | refused {s t : ScanReflection} {old log : List CrossoutMint} {m : CrossoutMint} {w : CrossoutWitness} {e : String} :
      CrossoutRun C s old log → m.fold C w s = .err e t → CrossoutRun C t old (logMint m s t log)
  | message {s t : ScanReflection} {old log : List CrossoutMint} {msgId record root : Word} {w : EthMsgWitness} :
      CrossoutRun C s old log → foldEthMessage C msgId record root w s = .ok () t → CrossoutRun C t old log
  | other {s t : ScanReflection} {old log : List CrossoutMint} :
      CrossoutRun C s old log → t.claims = s.claims → CrossoutRun C t old log
  | rebase {s : ScanReflection} {old log : List CrossoutMint} :
      CrossoutRun C s old log → CrossoutRun C s.rebase (old ++ log) []

/-- The consumed set is that of the claims minted, the counter that of the last generation. -/
structure Claimed (C : Crypto) (s : ScanReflection) (old log : List CrossoutMint) : Prop where
  consumed : ImtSet C.toKeccak s.consumedCrossoutRoot s.consumedCrossoutCount ((old ++ log).map CrossoutMint.claimId)
  folded : s.foldedCrossoutCount = log.length
  authorized : ∀ m ∈ old ++ log, m.Authorized C

section Run

variable {C : Crypto} {s t : ScanReflection} {old log : List CrossoutMint}

theorem Claimed.congr (h : Claimed C s old log) (hc : t.claims = s.claims) : Claimed C t old log := by
  simp only [ScanReflection.claims, Prod.mk.injEq] at hc
  obtain ⟨hroot, hcount, hfolded⟩ := hc
  refine ⟨?_, ?_, h.authorized⟩
  · rw [hroot, hcount]
    exact h.consumed
  · rw [hfolded]
    exact h.folded

theorem logMint_self (m : CrossoutMint) (s : ScanReflection) (log : List CrossoutMint) : logMint m s s log = log := by
  simp [logMint]

theorem Claimed.fold (hK : C.toKeccak.Ideal) (h : Claimed C s old log) (m : CrossoutMint) (w : CrossoutWitness) :
    wp True (m.fold C w) s (fun _ t => Claimed C t old (logMint m s t log))
      (fun _ t => Claimed C t old (logMint m s t log)) := by
  refine wp_mono (CrossoutMint.fold_spec hK) id ?_ ?_
  · rintro _ t rfl
    rwa [logMint_self]
  · rintro _ t (rfl | ⟨hauth, r, p, hr, rfl⟩)
    · rwa [logMint_self]
    · have hlog : logMint m s (m.minted C s r p) log = log ++ [m] := by
        simp [logMint, CrossoutMint.minted, ScanReflection.withNote]
      rw [hlog]
      obtain ⟨-, hset⟩ := h.consumed.insert hK hr
      refine ⟨?_, ?_, ?_⟩
      · simpa [CrossoutMint.minted, ← List.append_assoc] using hset
      · simp [CrossoutMint.minted, h.folded]
      · intro m' hm'
        rw [← List.append_assoc, List.mem_append, List.mem_singleton] at hm'
        rcases hm' with hm' | rfl
        · exact h.authorized m' hm'
        · exact hauth

theorem foldEthMessage_claims {msgId record root : Word} {w : EthMsgWitness} {x : Unit}
    (h : foldEthMessage C msgId record root w s = .ok x t) : t.claims = s.claims := by
  refine Within.of_ok (R := fun s t => t.claims = s.claims) ?_ h
  intro s
  simp only [foldEthMessage, wp_bind, wp_check, wp_get, wp_ite, wp_assert, wp_orPanic, wp_modify, eq_self, implies_true,
    true_and, and_true]
  exact fun _ _ _ _ _ => rfl

theorem CrossoutRun.claimed (hK : C.toKeccak.Ideal) (h : CrossoutRun C s old log) : Claimed C s old log := by
  induction h with
  | genesis => exact ⟨imtSet_empty, rfl, by simp⟩
  | @fold s t old log m w _ hf ih =>
    have ht := wp_of_ok (ih.fold hK m w) hf
    exact ht
  | @refused s t old log m w e _ hf ih =>
    have ht := wp_of_err (ih.fold hK m w) hf
    exact ht
  | message _ hf ih => exact ih.congr (foldEthMessage_claims hf)
  | other _ hc ih => exact ih.congr hc
  | rebase _ ih => exact ⟨by simpa [ScanReflection.rebase] using ih.consumed, rfl, by simpa using ih.authorized⟩

end Run

/-- **One mint per cross-out.** Over a whole run, whatever the witnesses, a claim credits at most one note; the counter
is the number of claims folded since the last rebase; every note credited is one that Ethereum's cross-out set
authorizes, with its destination, asset and commitment; and the fold of a cross-out that is not in that set leaves the
state as it is. -/
theorem crossout_mints_once {C : Crypto} (hK : C.toKeccak.Ideal) {s : ScanReflection} {old log : List CrossoutMint}
    (hrun : CrossoutRun C s old log) :
    ((old ++ log).map CrossoutMint.claimId).Nodup ∧
    s.foldedCrossoutCount = (log.map CrossoutMint.claimId).toFinset.card ∧
    (∀ m ∈ old ++ log, m.Authorized C) ∧
    ∀ (m : CrossoutMint) (w : CrossoutWitness) (n : Nat) (X : List EthCrossOut) (t : ScanReflection),
      ImtSet C.toKeccak m.setRoot n (X.map (EthCrossOut.leaf C.toKeccak)) → m.crossOut C ∉ X →
      m.fold C w s = .ok () t → t = s := by
  have h := hrun.claimed hK
  have hnodup := h.consumed.nodup.2
  refine ⟨hnodup, ?_, h.authorized, ?_⟩
  · rw [List.map_append] at hnodup
    rw [List.toFinset_card_of_nodup (List.nodup_append.1 hnodup).2.1, List.length_map]
    exact h.folded
  · intro m w n X t hX hm hf
    rcases (wp_of_ok (CrossoutMint.fold_spec hK) hf :) with rfl | ⟨hauth, -⟩
    · rfl
    · exact absurd (hauth n X hX) hm

section Demo

variable {K : Keccak}

def demoMint (setRoot : Word) : CrossoutMint := ⟨0, secpG.x, secpG.x, secpG.y, setRoot, 0, secpG.x⟩

/-- The first mint of a reflection, against a set of one cross-out. -/
theorem exists_mint (hK : K.Ideal) : ∃ setRoot w t,
    ImtSet K setRoot 2 [((demoMint setRoot).crossOut (curveCrypto K)).leaf K] ∧
    (demoMint setRoot).fold (curveCrypto K) w (.genesis K) = .ok () t ∧ t.noteCount = 1 := by
  have hpt : (curveCrypto K).fromAffineXy secpG.x secpG.y = some secpG := by
    have h : secpOnCurve secpG.x secpG.y = true := by decide +kernel
    simp [Crypto.fromAffineXy, curveCrypto, h]
  have hauth : secpG.x ≠ 0 := by decide
  -- the cross-out does not depend on the root, so that the set can be built from it
  let leaf := ((demoMint 0).crossOut (curveCrypto K)).leaf K
  have hleaf : leaf ≠ 0 := hK.kn_ne_zero _
  obtain ⟨v, root, hv⟩ := (imtSet_empty (K := K)).exists_insert (by decide) hleaf (by simp)
  have hset : ImtSet K root 2 [leaf] := ((imtSet_empty (K := K)).insert hK hv).2
  obtain ⟨next, i, path, hmem⟩ := hset.exists_mem (List.mem_singleton.2 rfl)
  have hroot : root ≠ 0 := by
    rw [← (imtMembership_iff.1 hmem).2]
    exact Merkle.rootFrom_ne (fun a b => hK.kn_ne_zero _) path i (hK.kn_ne_zero _)
  obtain ⟨c, r, hc⟩ := (imtSet_empty (K := K)).exists_insert (by decide) hauth (by simp)
  obtain ⟨notePath, p, hp⟩ := (noteTree_empty (K := K)).exists_append (by decide) (btcNoteLeaf K 0 secpG.x secpG.y secpG.x)
  let w : CrossoutWitness := ⟨true, next, 0, i, path, notePath, c⟩
  refine ⟨root, w, (demoMint root).minted (curveCrypto K) (.genesis K) r p, hset, ?_, rfl⟩
  have hreal : ethCrossoutImt K leaf root w = some true := by simp [ethCrossoutImt, w, hmem]
  have hfresh : c.lowValue ≠ secpG.x := hc.low_lt.ne
  have hnote : foldOutput K (btcNoteLeaf K 0 secpG.x secpG.y secpG.x) notePath 0 (commitmentHash K secpG.x secpG.y) 0 secpG.x
      (.genesis K) = .ok () _ := foldOutputTagged_eq_ok.2 ⟨p, hp, rfl, rfl⟩
  have hmint : mintCrossout (curveCrypto K) 0 secpG.x secpG.x secpG.y 0 secpG.x w (.genesis K) =
      .ok () ((demoMint root).minted (curveCrypto K) (.genesis K) r p) := by
    refine bind_eq_ok.2 ⟨_, _, get_eq_ok.2 ⟨rfl, rfl⟩, ?_⟩
    rw [if_neg hfresh]
    refine bind_eq_ok.2 ⟨r, _, orPanic_eq_ok.2 ⟨hc, rfl⟩, ?_⟩
    exact bind_eq_ok.2 ⟨(), _, expect_eq_ok.2 hnote, modify_eq_ok.2 rfl⟩
  refine bind_eq_ok.2 ⟨(), _, check_eq_ok.2 ⟨by simp [demoMint, hpt], rfl⟩, ?_⟩
  refine bind_eq_ok.2 ⟨(), _, check_eq_ok.2 ⟨hauth, rfl⟩, ?_⟩
  refine bind_eq_ok.2 ⟨(), _, check_eq_ok.2 ⟨hroot, rfl⟩, ?_⟩
  exact bind_eq_ok.2 ⟨true, _, orPanic_eq_ok.2 ⟨hreal, rfl⟩, hmint⟩

end Demo

/-- One cross-out, minted: the counter is one, and the mint is authorized. -/
theorem crossout_mints_once_one_mint : ∃ s m, CrossoutRun (curveCrypto codeKeccak) s [] [m] ∧ s.foldedCrossoutCount = 1 ∧
    m.Authorized (curveCrypto codeKeccak) ∧ s.noteCount = 1 := by
  obtain ⟨setRoot, w, t, -, hfold, hcount⟩ := exists_mint codeKeccak_ideal
  have hrun := (CrossoutRun.genesis (C := curveCrypto codeKeccak)).fold hfold
  have hlog : logMint (demoMint setRoot) (.genesis codeKeccak) t [] = [demoMint setRoot] := by
    simp [logMint, hcount, ScanReflection.genesis]
  rw [show (curveCrypto codeKeccak).toKeccak = codeKeccak from rfl, hlog] at hrun
  obtain ⟨-, hfolded, hauth, -⟩ := crossout_mints_once codeKeccak_ideal hrun
  exact ⟨t, demoMint setRoot, hrun, hfolded, hauth _ (by simp), hcount⟩

/-! ## The guest -/

section Guest

variable {G : BatchCrypto} {B : Chain} {ctx : ScanCtx} {tx : Tx} {w : TxWitness} {s t : ScanReflection}
  {old log : List CrossoutMint}

/-- **The guest's pass over a transaction continues the run.** -/
theorem CrossoutRun.scanTx (h : CrossoutRun G.toCrypto s old log) {x : Unit} (ht : scanTx G B ctx tx w s = .ok x t) :
    ∃ log', CrossoutRun G.toCrypto t old log' := by
  obtain ⟨spends, u, hvin, henv⟩ := bind_eq_ok.1 ht
  have hu : u.claims = s.claims :=
    Within.of_ok (R := Same ScanReflection.claims) (fixes_scanVin (fun _ _ => rfl) (fun _ _ _ => rfl) (fun _ _ _ => rfl) tx w) hvin
  have hrun := h.other hu
  by_cases hmint : ∃ asset claimId cx cy, tx.envelope = some (.crossoutMint asset claimId cx cy)
  · obtain ⟨asset, claimId, cx, cy, he⟩ := hmint
    let m : CrossoutMint := ⟨asset, claimId, cx, cy, ctx.crossoutSetRoot, outpointKey G.toKeccak (tx.txid, 0), tx.outputAuth 0⟩
    rw [scanEnvelope, he] at henv
    simp only [swallow, bind_eq_ok, attempt_eq_ok, pure_eq_ok] at henv
    obtain ⟨_, _, ⟨e, -, hf⟩ | ⟨y, -, hf⟩, -, rfl⟩ := henv
    · exact ⟨_, hrun.refused (m := m) (w := w.crossout) hf⟩
    · exact ⟨_, hrun.fold (m := m) (w := w.crossout) hf⟩
  · refine ⟨log, hrun.other ?_⟩
    refine (Within.of_ok updates_scanEnvelope henv).keeps (I := fun v => v.claims = u.claims) ?_ rfl
    intro v v' hv hc
    cases hv with
    | crossout he => exact absurd ⟨_, _, _, _, he⟩ hmint
    | _ => exact hc

end Guest

end Tacit
