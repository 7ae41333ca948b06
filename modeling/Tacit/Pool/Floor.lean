import Tacit.Pool.NoteTree
/-!
# The note tree covers the spent nullifiers

After every accepted call the current root is a known one, and the tree holds at least as many leaves as native
nullifiers have been spent: `settle` checks the floor once the leaves are in, and nothing after it, nor any other call,
moves either count.
-/
namespace Tacit

open Prog

namespace ConfidentialPool

variable {K : Keccak} {D : Deployment} {env : Env}

structure Floored (s : Storage) : Prop where
  known : s.notes.everKnownRoot s.notes.currentRoot = true
  floor : s.evmNullifiersSpent ≤ s.notes.nextLeafIndex

theorem insertLeaves_known {leaves : List Word} {t t' : Tree} {u : Unit} (h : t.everKnownRoot t.currentRoot = true)
    (hok : insertLeaves K leaves t = .ok u t') : t'.everKnownRoot t'.currentRoot = true := by
  obtain ⟨-, hok⟩ | ⟨-, rfl⟩ := onlyIf_eq_ok.1 hok
  · obtain ⟨_, v, -, hmark⟩ := bind_eq_ok.1 hok
    obtain rfl := modify_eq_ok.1 hmark
    exact Function.update_self _ _ _
  · exact h

/-- The note tree and the count of spent nullifiers are as they were. -/
def SameFloor (s t : Storage) : Prop := t.notes = s.notes ∧ t.evmNullifiersSpent = s.evmNullifiersSpent

instance : IsPreorder Storage SameFloor where
  refl _ := ⟨rfl, rfl⟩
  trans _ _ _ h h' := ⟨h'.1.trans h.1, h'.2.trans h.2⟩

theorem still_sameFloor : Still SameFloor where
  preorder := inferInstance
  pair _ _ _ _ _ _ _ := ⟨rfl, rfl⟩
  reflection _ _ := ⟨rfl, rfl⟩
  registry _ _ _ := ⟨rfl, rfl⟩
  release _ _ _ := ⟨rfl, rfl⟩
  shares _ _ := ⟨rfl, rfl⟩
  farms _ _ _ := ⟨rfl, rfl⟩
  positions _ _ _ := ⟨rfl, rfl⟩
  harvests _ _ := ⟨rfl, rfl⟩
  lockTree _ _ := ⟨rfl, rfl⟩

theorem SameFloor.floored {s t : Storage} (h : SameFloor s t) (hs : Floored s) : Floored t := by
  obtain ⟨hnotes, hcount⟩ := h
  exact ⟨by rw [hnotes]; exact hs.known, by rw [hnotes, hcount]; exact hs.floor⟩

theorem registerDeposit_sameFloor (id : Word) : Keeps SameFloor (registerDeposit id) :=
  .bind .get fun _ => .bind .check fun _ => .modify fun _ => ⟨rfl, rfl⟩

theorem recordCrossOuts_sameFloor (pv : PublicValues) : ∀ (seen : List Word) (l : List CrossOut),
    Keeps SameFloor (recordCrossOuts D pv seen l)
  | _, [] => .pure
  | seen, c :: l =>
    .bind .check fun _ => .bind .check fun _ => .bind .check fun _ => .bind .check fun _ => .bind .check fun _ =>
      .bind (.modify fun _ => ⟨rfl, rfl⟩) fun _ => recordCrossOuts_sameFloor pv _ l

theorem updatePool_sameFloor (id : Word) (f : Pool → Except PoolError Pool) : Keeps SameFloor (updatePool id f) :=
  .bind .get fun _ => .bind .ofExcept fun _ => .modify fun _ => ⟨rfl, rfl⟩

/-- What `leafSection` checks is true to the end of the batch. -/
theorem settle_floored {pv : PublicValues} {memos : List Bytes} {s t : Storage} {u : Unit}
    (hs : s.notes.everKnownRoot s.notes.currentRoot = true) (hok : settle D env pv memos s = .ok u t) : Floored t := by
  have hknown : t.notes.everKnownRoot t.notes.currentRoot = true := insertLeaves_known hs (settle_notes hok)
  obtain ⟨b, s₁, s₂, s₃, s₄, s₅, s₆, s₇, s₈, s₉, s₁₀, h⟩ := settle_sections hok
  obtain ⟨_, v, -, hrest⟩ := bind_eq_ok.1 h.leaf
  obtain ⟨_, _, hget, hfloor⟩ := bind_eq_ok.1 hrest
  obtain ⟨rfl, rfl⟩ := get_eq_ok.1 hget
  obtain ⟨hfloor, rfl⟩ := check_eq_ok.1 hfloor
  have hreserves : Keeps SameFloor (reserveSection pv) :=
    .bind (.forEach fun w _ => updatePool_sameFloor _ _) fun _ => .forEach fun l _ => updatePool_sameFloor _ _
  have hpayouts : SameFloor s₈ s₉ := still_sameFloor.payoutSection h.payouts
  have hcross : SameFloor s₉ s₁₀ := recordCrossOuts_sameFloor pv _ _ h.crossOuts
  obtain ⟨hnotes, hcount⟩ := trans_of SameFloor (trans_of SameFloor hpayouts hcross) (hreserves h.reserves)
  refine ⟨hknown, ?_⟩
  rw [hnotes, hcount]
  exact Nat.not_lt.1 hfloor

theorem Deployed.floored {s : Storage} (hs : Deployed D s) : Floored s := by
  obtain ⟨env, g, digest, last, hok⟩ := hs
  have hsame : SameFloor (Storage.blank D.keccak digest last) s := still_sameFloor.construct g hok
  refine hsame.floored ⟨?_, Nat.le_refl _⟩
  simp [Storage.blank, Tree.empty]

/-- Every accepted call keeps both. -/
theorem call_floored {c : Call} {s t : Storage} (hs : Floored s) (hok : c.prog D env s = .ok () t) : Floored t := by
  cases hc : c.batch with
  | none =>
    have hsame : SameFloor s t := still_sameFloor.call (fun _ _ => ⟨rfl, rfl⟩) registerDeposit_sameFloor
      (fun _ _ => ⟨rfl, rfl⟩) (fun _ _ _ _ _ _ => ⟨rfl, rfl⟩) hc hok
    exact hsame.floored hs
  | some pv =>
    cases c with
    | settle pv memos => exact settle_floored hs.known hok
    | createPairAndSettle assetA assetB feeBps pv memos =>
      obtain ⟨id, v, hpair, hsettle⟩ := bind_eq_ok.1 hok
      have hsame : SameFloor s v := still_sameFloor.ensurePair hpair
      exact settle_floored (hsame.floored hs).known hsettle
    | _ => cases hc

end ConfidentialPool

end Tacit
