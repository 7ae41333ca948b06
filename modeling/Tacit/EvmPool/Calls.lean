import Tacit.EvmPool.Contract
/-!
# An accepted call on the pool

`Accepted` is what an accepted `transact` has checked. Its transfers come in any order with any other calls, so what they do
is stated for any relation `T d s t` that composes, its amounts adding up (`Flow`): between the writes of the call and
its event the pool gains at least `extAmount - fee`, whatever its callbacks keep.
-/
namespace Tacit

open Prog

namespace EvmPool

variable {cfg : Config} {value : Nat} {c : TransactCall} {x : ExtData} {cb : Callbacks} {s t : Storage} {u : Unit}

/-- What an accepted call has checked. -/
structure Accepted (cfg : Config) (c : TransactCall) (s : Storage) : Prop where
  asset : c.pub.asset = cfg.assetField
  head : c.pub.inserts = true → c.pub.oldRoot = s.root ∧ c.pub.startIndex = s.nextIndex ∧ s.nextIndex + 2 ≤ 2 ^ 32
  known : s.sizeOf c.pub.root ≠ 0
  ext : -valueMax < c.ext.extAmount ∧ c.ext.extAmount < valueMax
  fee : c.ext.fee < valueMax
  fresh0 : c.pub.nf0 ≠ 0 → s.nullified c.pub.nf0 = false
  distinct : c.pub.nf1 ≠ 0 → c.pub.nf1 ≠ c.pub.nf0
  fresh1 : c.pub.nf1 ≠ 0 → s.nullified c.pub.nf1 = false
  amount : c.pub.publicAmount = publicAmount c.ext.extAmount c.ext.fee
  proved : cfg.verify c.proof c.pub = true

theorem insertionChecks_ok {p : PublicInputs} (h : insertionChecks p s = .ok u) :
    p.oldRoot = s.root ∧ p.startIndex = s.nextIndex ∧ s.nextIndex + 2 ≤ 2 ^ 32 := by
  simp only [insertionChecks, except_bind_eq_ok, refuse_eq_ok, exists_and_left, exists_const] at h
  obtain ⟨hroot, hstart, hfull⟩ := h
  exact ⟨not_not.1 hroot, not_not.1 hstart, not_lt.1 hfull⟩

theorem nullifierChecks_ok {p : PublicInputs} (h : nullifierChecks p s = .ok u) :
    (p.nf0 ≠ 0 → s.nullified p.nf0 = false) ∧ (p.nf1 ≠ 0 → p.nf1 ≠ p.nf0) ∧ (p.nf1 ≠ 0 → s.nullified p.nf1 = false) := by
  simp only [nullifierChecks, except_bind_eq_ok, refuse_eq_ok, exists_and_left, exists_const, not_and,
    Bool.not_eq_true] at h
  exact h

theorem boundaryChecks_ok (h : boundaryChecks x = .ok u) :
    (-valueMax < x.extAmount ∧ x.extAmount < valueMax) ∧ x.fee < valueMax := by
  simp only [boundaryChecks, except_bind_eq_ok, refuse_eq_ok, exists_and_left, exists_const, not_or, not_le] at h
  obtain ⟨⟨hlow, hhigh⟩, hfee, -⟩ := h
  exact ⟨⟨hlow, by omega⟩, by omega⟩

theorem headChecks_ok {p : PublicInputs} (h : headChecks p s = .ok u) :
    p.inserts = true → p.oldRoot = s.root ∧ p.startIndex = s.nextIndex ∧ s.nextIndex + 2 ≤ 2 ^ 32 := by
  intro hins
  rw [headChecks, if_pos hins] at h
  exact insertionChecks_ok h

theorem transactChecks_ok (h : transactChecks cfg c s = .ok u) : Accepted cfg c s := by
  simp only [transactChecks, except_bind_eq_ok, refuse_eq_ok, exists_and_left, exists_const] at h
  obtain ⟨hasset, -, _, hhead, hknown, _, hbound, _, hnull, -, hamount, hproved⟩ := h
  obtain ⟨hrange, hfee⟩ := boundaryChecks_ok hbound
  obtain ⟨hfresh0, hdistinct, hfresh1⟩ := nullifierChecks_ok hnull
  exact ⟨not_not.1 hasset, headChecks_ok hhead, hknown, hrange, hfee, hfresh0, hdistinct, hfresh1, not_not.1 hamount,
    by simpa using hproved⟩

/-- A relation of states in which gains add up, and the pool's balance may change freely. -/
structure Flow (T : Int → Storage → Storage → Prop) : Prop where
  refl : ∀ s, T 0 s s
  trans : ∀ {d d' s t u}, T d s t → T d' t u → T (d + d') s u
  mono : ∀ {d d' s t}, d' ≤ d → T d s t → T d' s t
  balance : ∀ (s : Storage) (b : Nat), T ((b : Int) - s.balance) s { s with balance := b }

variable {T : Int → Storage → Storage → Prop}

/-- The callbacks lose nothing. -/
def Around.Flows (T : Int → Storage → Storage → Prop) (cb : Around) : Prop := (∀ s, T 0 s (cb.before s)) ∧ ∀ s, T 0 s (cb.after s)

theorem Flow.payOut (hT : Flow T) {cb : Around} (hcb : cb.Flows T) {payee : Address} {amount : Nat}
    (hok : payOut cfg payee amount cb s = .ok u t) : T (-amount) s t := by
  simp only [EvmPool.payOut, bind_eq_ok, get_eq_ok, modify_eq_ok, check_eq_ok] at hok
  obtain ⟨_, s', rfl, _, _, ⟨rfl, rfl⟩, _, _, ⟨hle, rfl⟩, _, _, rfl, rfl⟩ := hok
  have hmove := hT.balance (cb.before s) (if payee = cfg.self then (cb.before s).balance else (cb.before s).balance - amount)
  have hall := hT.trans (hT.trans (hcb.1 s) hmove) (hcb.2 _)
  refine hT.mono ?_ hall
  by_cases hself : payee = cfg.self
  · simp [hself]
  · simp only [if_neg hself]
    omega

theorem Flow.pullIn (hT : Flow T) {cb : Around} (hcb : cb.Flows T) {amount : Nat}
    (hok : pullIn amount cb s = .ok u t) : T amount s t := by
  simp only [EvmPool.pullIn, bind_eq_ok, get_eq_ok, modify_eq_ok, check_eq_ok, orThrow_eq_ok] at hok
  obtain ⟨_, s, ⟨rfl, rfl⟩, _, _, rfl, _, _, rfl, _, _, rfl, _, _, ⟨rfl, rfl⟩, _, _, ⟨-, rfl⟩, -, rfl⟩ := hok
  have hmove := hT.balance (cb.before s) ((cb.before s).balance + amount)
  have hall := hT.trans (hT.trans (hcb.1 s) hmove) (hcb.2 _)
  refine hT.mono ?_ hall
  omega

/-- The callbacks of a call lose nothing. -/
def Callbacks.Flows (T : Int → Storage → Storage → Prop) (cb : Callbacks) : Prop :=
  cb.pull.Flows T ∧ cb.pay.Flows T ∧ cb.tip.Flows T

/-- A call starts with its ETH in the pool. -/
def Storage.credited (cfg : Config) (value : Nat) (s : Storage) : Storage :=
  { s with balance := if cfg.asset = 0 then s.balance + value else s.balance }

theorem Flow.settleIn (hT : Flow T) {cb : Around} (hcb : cb.Flows T)
    (hok : settleIn cfg value x cb (s.credited cfg value) = .ok u t) : T x.extAmount.toNat s t := by
  unfold EvmPool.settleIn Storage.credited at hok
  by_cases heth : cfg.asset = 0
  · simp only [if_pos heth, check_eq_ok, not_not] at hok
    obtain ⟨rfl, rfl⟩ := hok
    refine hT.mono ?_ (hT.balance s (s.balance + x.extAmount.toNat))
    omega
  · simp only [if_neg heth, bind_eq_ok, check_eq_ok, onlyIf_eq_ok] at hok
    obtain ⟨_, _, ⟨-, rfl⟩, ⟨-, hpull⟩ | ⟨hnone, rfl⟩⟩ := hok
    · exact hT.pullIn hcb hpull
    · have hzero : x.extAmount.toNat = 0 := by omega
      rw [hzero]
      exact hT.refl s

theorem Flow.onlyIf_payOut (hT : Flow T) {cb : Around} (hcb : cb.Flows T) {b : Prop} [Decidable b] {payee : Address}
    {amount : Nat} (hb : ¬ b → amount = 0) (hok : onlyIf b (EvmPool.payOut cfg payee amount cb) s = .ok u t) :
    T (-amount) s t := by
  rcases onlyIf_eq_ok.1 hok with ⟨-, hpay⟩ | ⟨hnone, rfl⟩
  · exact hT.payOut hcb hpay
  · rw [hb hnone]
    exact hT.refl t

/-- **The settlement**, with the ETH of the call. -/
theorem Flow.settle (hT : Flow T) (hcb : cb.Flows T) (hok : settle cfg value x cb (s.credited cfg value) = .ok u t) :
    T (x.extAmount - x.fee) s t := by
  simp only [EvmPool.settle, bind_eq_ok] at hok
  obtain ⟨_, s₁, hin, _, s₂, hpay, htip⟩ := hok
  have h₁ := hT.settleIn hcb.1 hin
  have h₂ := hT.onlyIf_payOut hcb.2.1 (by omega) hpay
  have h₃ := hT.onlyIf_payOut hcb.2.2 (by omega) htip
  refine hT.mono ?_ (hT.trans (hT.trans h₁ h₂) h₃)
  omega

/-- **An accepted call**: its checks, its writes, the settlement and the event. -/
theorem transact_ok (hT : Flow T) (hcb : cb.Flows T) (hok : transact cfg value c cb s = .ok u t) :
    Accepted cfg c s ∧ ∃ t', T (c.ext.extAmount - c.ext.fee) (s.record c.pub) t' ∧
      t = { t' with log := t'.log ++ [c.event s] } := by
  simp only [transact, bind_eq_ok, modify_eq_ok, get_eq_ok, ofExcept_eq_ok] at hok
  obtain ⟨_, _, rfl, _, s₁, ⟨rfl, rfl⟩, _, _, ⟨hchecks, rfl⟩, _, _, rfl, _, t', hsettle, rfl⟩ := hok
  have hacc := transactChecks_ok hchecks
  refine ⟨⟨hacc.asset, hacc.head, hacc.known, hacc.ext, hacc.fee, hacc.fresh0, hacc.distinct, hacc.fresh1, hacc.amount,
    hacc.proved⟩, t', hT.settle hcb hsettle, rfl⟩

theorem transact_accepted (hok : transact cfg value c cb s = .ok u t) : Accepted cfg c s := by
  have hflow : Flow fun _ _ _ => True := ⟨fun _ => trivial, fun _ _ => trivial, fun _ _ => trivial, fun _ _ => trivial⟩
  have hquiet : ∀ cb : Around, cb.Flows fun _ _ _ => True := fun _ => ⟨fun _ => trivial, fun _ => trivial⟩
  exact (transact_ok hflow ⟨hquiet _, hquiet _, hquiet _⟩ hok).1

/-! ## Any calls -/

theorem Flow.donate (hT : Flow T) (s : Storage) (amount : Nat) : T 0 s { s with balance := s.balance + amount } := by
  refine hT.mono ?_ (hT.balance s (s.balance + amount))
  omega

mutual

/-- What every call keeps, whatever is called from it, every act keeps. -/
theorem Flow.exec (hT : Flow T)
    (hcall : ∀ value c cb s, cb.Flows T → T 0 s ((transact cfg value c cb).call s)) : ∀ (a : Act) (s : Storage),
    T 0 s (a.exec cfg s)
  | .donate amount, s => hT.donate s amount
  | .transact value c prePull postPull prePay postPay preTip postTip, s => by
    rw [Act.exec]
    refine hcall value c _ s ⟨⟨?_, ?_⟩, ⟨?_, ?_⟩, ⟨?_, ?_⟩⟩
    · exact Flow.execAll hT hcall prePull
    · exact Flow.execAll hT hcall postPull
    · exact Flow.execAll hT hcall prePay
    · exact Flow.execAll hT hcall postPay
    · exact Flow.execAll hT hcall preTip
    · exact Flow.execAll hT hcall postTip

theorem Flow.execAll (hT : Flow T)
    (hcall : ∀ value c cb s, cb.Flows T → T 0 s ((transact cfg value c cb).call s)) : ∀ (acts : List Act) (s : Storage),
    T 0 s (execAll cfg acts s)
  | [], s => hT.refl s
  | a :: acts, s => hT.trans (Flow.exec hT hcall a s) (Flow.execAll hT hcall acts _)

end

end EvmPool

end Tacit
