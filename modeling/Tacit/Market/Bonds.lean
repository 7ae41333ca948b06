import Tacit.Lib.Tally
import Tacit.Market.ProofMarket
/-!
# Bonds and charges of the proof market

`Books` is kept by every call, whatever is called inside it; `pending` are the fulfilments under way. Solvency is
apart: the prover is paid what the balance gained over the pool's `settle` (:286), and a bond taken by a claim made inside
that call is part of the gain, though it stays owed (`nested_claim_drains`). Where no such claim adds a bond (`Careful`) the
balance covers the bonds.
-/
namespace Tacit

open Prog

namespace ProofMarket

/-! ## What the log says -/

/-- The claims that were closed. -/
def closings : List Event → List Receipt
  | [] => []
  | .closed r :: log => r :: closings log
  | _ :: log => closings log

/-- The claims whose price was charged. -/
def charges : List Event → List Receipt
  | [] => []
  | .charged r _ _ _ :: log => r :: charges log
  | _ :: log => charges log

/-- The claims taken on an op. -/
def taken (o : Word) : List Event → List Claim
  | [] => []
  | .claimed i _ _ c :: log => if i.opId = o then c :: taken o log else taken o log
  | _ :: log => taken o log

/-- The claims on an op that lapsed or were closed. -/
def ended (o : Word) : List Event → List Claim
  | [] => []
  | .lapsed o' c _ :: log => if o' = o then c :: ended o log else ended o log
  | .closed r :: log => if r.intent.opId = o then r.claim :: ended o log else ended o log
  | _ :: log => ended o log

/-- The claim recorded on an op. -/
def Storage.open (s : Storage) (o : Word) : List Claim := if (s.claims o).solver = 0 then [] else [s.claims o]

/-- What a fulfilment charges to a tank. -/
def Receipt.chargedTo (cfg : Config) (id : Word) (r : Receipt) : Nat :=
  if (r.auth.drawn cfg).map Prod.fst = some id then r.claim.price else 0

section
variable {log log' : List Event} {o : Word}

@[simp] theorem closings_append : closings (log ++ log') = closings log ++ closings log' := by
  induction log with
  | nil => rfl
  | cons ev log ih => cases ev <;> simp [closings, ih]

@[simp] theorem charges_append : charges (log ++ log') = charges log ++ charges log' := by
  induction log with
  | nil => rfl
  | cons ev log ih => cases ev <;> simp [charges, ih]

@[simp] theorem taken_append : taken o (log ++ log') = taken o log ++ taken o log' := by
  induction log with
  | nil => rfl
  | cons ev log ih =>
    cases ev with
    | claimed i auth now c => by_cases h : i.opId = o <;> simp [taken, ih, h]
    | lapsed o' c payee => simp [taken, ih]
    | closed r => simp [taken, ih]
    | charged r x eth payee => simp [taken, ih]

@[simp] theorem ended_append : ended o (log ++ log') = ended o log ++ ended o log' := by
  induction log with
  | nil => rfl
  | cons ev log ih =>
    cases ev with
    | claimed i auth now c => simp [ended, ih]
    | lapsed o' c payee => by_cases h : o' = o <;> simp [ended, ih, h]
    | closed r => by_cases h : r.intent.opId = o <;> simp [ended, ih, h]
    | charged r x eth payee => simp [ended, ih]

theorem mem_closings {r : Receipt} : r ∈ closings log ↔ .closed r ∈ log := by
  induction log with
  | nil => simp [closings]
  | cons ev log ih => cases ev <;> simp [closings, ih]

theorem mem_charges {r : Receipt} : r ∈ charges log ↔ ∃ x eth payee, .charged r x eth payee ∈ log := by
  induction log with
  | nil => simp [charges]
  | cons ev log ih => cases ev <;> simp [charges, ih, exists_or]

/-- A claim taken on an op was taken by a call. -/
theorem claimed_of_mem_taken {c : Claim} (h : c ∈ taken o log) : ∃ i auth now, i.opId = o ∧ .claimed i auth now c ∈ log := by
  induction log with
  | nil => simp [taken] at h
  | cons ev log ih =>
    have later (h : c ∈ taken o log) : ∃ i auth now, i.opId = o ∧ Event.claimed i auth now c ∈ ev :: log := by
      obtain ⟨i, auth, now, ho, hmem⟩ := ih h
      exact ⟨i, auth, now, ho, List.mem_cons_of_mem _ hmem⟩
    cases ev with
    | claimed i auth now c' =>
      by_cases hi : i.opId = o
      · rw [taken, if_pos hi, List.mem_cons] at h
        rcases h with rfl | h
        · exact ⟨i, auth, now, hi, by simp⟩
        · exact later h
      · rw [taken, if_neg hi] at h
        exact later h
    | lapsed o' c' payee => exact later h
    | closed r => exact later h
    | charged r x eth payee => exact later h

theorem mem_ended_of_closed {r : Receipt} (h : .closed r ∈ log) : r.claim ∈ ended r.intent.opId log := by
  induction log with
  | nil => simp at h
  | cons ev log ih =>
    rcases List.mem_cons.1 h with rfl | h
    · simp [ended]
    · have := ih h
      cases ev with
      | claimed i auth now c => exact this
      | lapsed o' c payee => by_cases ho : o' = r.intent.opId <;> simp [ended, ho, this]
      | closed r' => by_cases ho : r'.intent.opId = r.intent.opId <;> simp [ended, ho, this]
      | charged r' x eth payee => exact this

end

/-! ## Signatures and prices -/

variable {cfg : Config}

theorem hashTypedData_injective (hK : cfg.keccak.Ideal) : Function.Injective (hashTypedData cfg) := by
  intro a b h
  have := hK.kn_inj (by simp [a.len, b.len]) h
  simp only [List.cons.injEq, and_true, true_and] at this
  exact Word.ext this

theorem word_val_inj {w : Nat} (hw : w ≤ 256) {a b : U w} (h : (wordOfNat a.val).bytes = (wordOfNat b.val).bytes) :
    a = b := by
  have hlt (a : U w) : a.val < 256 ^ 32 :=
    lt_of_lt_of_le a.isLt ((Nat.pow_le_pow_right (by omega) hw).trans (by decide))
  exact Fin.ext (wordOfNat_inj (hlt a) (hlt b) (Word.ext h))

theorem intentHash_injective (hK : cfg.keccak.Ideal) : Function.Injective (intentHash cfg) := by
  intro i j h
  have := hK.kn_inj (by simp [Word.len]) (hashTypedData_injective hK h)
  simp only [List.cons.injEq, and_true, true_and] at this
  obtain ⟨h₁, h₂, h₃, h₄, h₅, h₆, h₇, h₈⟩ := this
  cases i
  cases j
  rw [Intent.mk.injEq]
  exact ⟨word_val_inj (by omega) h₁, Word.ext h₂, word_val_inj (by omega) h₃, word_val_inj (by omega) h₄,
    word_val_inj (by omega) h₅, word_val_inj (by omega) h₆, word_val_inj (by omega) h₇, Word.ext h₈⟩

theorem tankHash_injective (hK : cfg.keccak.Ideal) : Function.Injective (tankHash cfg) := by
  intro t u h
  have := hK.kn_inj (by simp [Word.len]) (hashTypedData_injective hK h)
  simp only [List.cons.injEq, and_true, true_and] at this
  obtain ⟨h₁, h₂, h₃, h₄, h₅, h₆⟩ := this
  cases t
  cases u
  rw [Tank.mk.injEq]
  exact ⟨word_val_inj (by omega) h₁, word_val_inj (by omega) h₂, word_val_inj (by omega) h₃, word_val_inj (by omega) h₄,
    word_val_inj (by omega) h₅, word_val_inj (by omega) h₆⟩

/-- The price lies between the floor and the maximum. -/
theorem priceAt_bounds {i : Intent} {ts p : Nat} (hfee : i.floorFee ≤ i.maxFee) (h : priceAt i ts = some p) :
    i.floorFee.val ≤ p ∧ p ≤ i.maxFee.val := by
  have hfee : i.floorFee.val ≤ i.maxFee.val := hfee
  unfold priceAt at h
  by_cases hramp : i.rampSecs.val = 0
  · rw [if_pos hramp, Option.some.injEq] at h
    omega
  rw [if_neg hramp] at h
  by_cases hts : ts ≤ i.start.val
  · rw [if_pos hts, Option.some.injEq] at h
    omega
  rw [if_neg hts] at h
  by_cases hel : i.rampSecs.val ≤ ts - i.start.val
  · rw [if_pos hel, Option.some.injEq] at h
    omega
  rw [if_neg hel] at h
  simp only [Option.bind_eq_bind, Option.bind_eq_some_iff, uintSub_eq_some, uint256_eq_some] at h
  obtain ⟨_, ⟨-, rfl⟩, _, ⟨-, rfl⟩, -, rfl⟩ := h
  -- less than the whole ramp has passed
  have hrise : (i.maxFee.val - i.floorFee.val) * (ts - i.start.val) / i.rampSecs.val ≤ i.maxFee.val - i.floorFee.val := by
    apply Nat.div_le_of_le_mul
    rw [Nat.mul_comm]
    exact Nat.mul_le_mul_right _ (by omega)
  exact ⟨Nat.le_add_right _ _, by omega⟩

/-- The payer authorised the intent, by a direct signature or by a tank. -/
def Signed (cfg : Config) (i : Intent) : Auth → Prop
  | .direct signature => i.tank = 0 ∧ cfg.recover (intentHash cfg i) signature = some i.payer
  | .tank t tankSig intentSig => i.tank = tankHash cfg t ∧ i.payer = t.payer ∧ i.maxFee ≤ t.perOpMax ∧
      cfg.recover (tankHash cfg t) tankSig = some t.payer ∧ cfg.recover (intentHash cfg i) intentSig = some t.delegate

/-- What the market checked of an intent. -/
structure Checked (cfg : Config) (now : Nat) (i : Intent) (auth : Auth) (s : Storage) : Prop where
  signed : Signed cfg i auth
  fees : i.floorFee ≤ i.maxFee
  undone : s.done i.opId = false

theorem checkIntent_ok {now : Nat} {i : Intent} {s : Storage} {u : Unit} (h : checkIntent now i s = .ok u) :
    i.floorFee ≤ i.maxFee ∧ s.done i.opId = false := by
  simp only [checkIntent, except_bind_eq_ok, refuse_eq_ok] at h
  obtain ⟨_, -, _, hdone, _, -, hfee⟩ := h
  exact ⟨not_lt.1 hfee, by simpa using hdone⟩

theorem checkAuth_ok {now : Nat} {i : Intent} {auth : Auth} {s : Storage} {u : Unit}
    (h : checkAuth cfg now i auth s = .ok u) : Checked cfg now i auth s := by
  cases auth with
  | direct signature =>
    simp only [checkAuth, except_bind_eq_ok, refuse_eq_ok, need_eq_ok, not_not] at h
    obtain ⟨_, hi, _, hmode, signer, hsig, rfl⟩ := h
    exact ⟨⟨hmode, hsig⟩, (checkIntent_ok hi).1, (checkIntent_ok hi).2⟩
  | tank t tankSig intentSig =>
    simp only [checkAuth, except_bind_eq_ok, refuse_eq_ok, need_eq_ok, not_not, not_or, not_lt] at h
    obtain ⟨_, hi, _, hmode, _, -, _, -, _, ⟨hpayer, hmax⟩, _, htank, _, rfl, _, hsig, rfl⟩ := h
    exact ⟨⟨hmode, hpayer, hmax, hpayer ▸ htank, hsig⟩, (checkIntent_ok hi).1, (checkIntent_ok hi).2⟩

/-! ## What an accepted call does -/

/-- An accepted claim puts up the bond, replaces a lapsed claim and records the price of the moment. -/
theorem claim_ok {e : Env} {i : Intent} {auth : Auth} {held : Nat} {s t : Storage} {u : Unit}
    (h : claim cfg e i auth held s = .ok u t) : Checked cfg e.now i auth s ∧ e.value = s.claimBond ∧
      (s.claims i.opId).forfeit ≤ s.balance + e.value ∧ ∃ c : Claim, c.solver = e.sender ∧ c.bond = e.value ∧
        c.intentHash = intentHash cfg i ∧ priceAt i e.now = some c.price ∧
        t = ({ s with balance := s.balance + e.value } : Storage).record cfg i auth e.now c := by
  simp only [claim, bind_eq_ok, modify_eq_ok, get_eq_ok, ofExcept_eq_ok] at h
  obtain ⟨_, s₀, rfl, _, _, ⟨rfl, rfl⟩, _, s₁, ⟨hauth, rfl⟩, h⟩ := h
  have hchecked := checkAuth_ok hauth
  have hop {room : Nat} (h : claimOp cfg e i auth room held { s with balance := s.balance + e.value } = .ok u t) :
      e.value = s.claimBond ∧ (s.claims i.opId).forfeit ≤ s.balance + e.value ∧
        ∃ c : Claim, c.solver = e.sender ∧ c.bond = e.value ∧ c.intentHash = intentHash cfg i ∧
          priceAt i e.now = some c.price ∧
          t = ({ s with balance := s.balance + e.value } : Storage).record cfg i auth e.now c := by
    simp only [claimOp, bind_eq_ok, get_eq_ok, check_eq_ok, orThrow_eq_ok, modify_eq_ok, not_not, not_lt] at h
    obtain ⟨_, _, ⟨rfl, rfl⟩, _, _, ⟨hvalue, rfl⟩, _, _, ⟨-, rfl⟩, _, _, ⟨hforfeit, rfl⟩, p, _, ⟨hp, rfl⟩, _, _,
      ⟨-, rfl⟩, _, _, ⟨-, rfl⟩, rfl⟩ := h
    exact ⟨hvalue, hforfeit, _, rfl, rfl, rfl, hp, rfl⟩
  refine ⟨⟨hchecked.signed, hchecked.fees, hchecked.undone⟩, ?_⟩
  cases hd : auth.drawn cfg with
  | none =>
    rw [hd] at h
    exact hop h
  | some d =>
    simp only [hd, bind_eq_ok, orThrow_eq_ok] at h
    obtain ⟨_, _, ⟨-, rfl⟩, h⟩ := h
    exact hop h

/-- What the market knows of a fulfilment it closes. -/
structure Closable (cfg : Config) (e : Env) (r : Receipt) (s : Storage) : Prop where
  checked : Checked cfg e.now r.intent r.auth s
  opens : cfg.keccak.hash r.publicValues = r.intent.opId
  held : r.claim = s.claims r.intent.opId
  solver : r.claim.solver = e.sender
  hashed : r.claim.intentHash = intentHash cfg r.intent
  room : ∀ id cap, r.auth.drawn cfg = some (id, cap) → s.spent id + r.claim.price ≤ cap

/-- An accepted fulfilment closes the claim, lets the pool run, charges the price and pays the solver what the balance
gained, with the bond. -/
theorem fulfill_ok {e : Env} {i : Intent} {auth : Auth} {publicValues : Bytes} {x : Answers}
    {settle paid : Storage → Storage} {s t : Storage} {u : Unit}
    (h : fulfill cfg e i auth publicValues x settle paid s = .ok u t) :
    ∃ r eth, r.intent = i ∧ r.auth = auth ∧ r.publicValues = publicValues ∧ Closable cfg e r s ∧ x.settles = true ∧
      (r.claim.price ≠ 0 → x.pulls = true) ∧ s.balance ≤ (settle (s.close cfg r)).balance ∧
      eth = (settle (s.close cfg r)).balance - s.balance + r.claim.bond ∧ eth ≤ (settle (s.close cfg r)).balance ∧
      t = if eth ≠ 0 then paid ((settle (s.close cfg r)).charge r x eth e.sender)
        else (settle (s.close cfg r)).charge r x eth e.sender := by
  simp only [fulfill, bind_eq_ok, check_eq_ok, get_eq_ok, ofExcept_eq_ok] at h
  obtain ⟨_, _, ⟨-, rfl⟩, _, _, ⟨rfl, rfl⟩, _, _, ⟨hauth, rfl⟩, h⟩ := h
  simp only [runOp, bind_eq_ok, check_eq_ok, get_eq_ok, not_not, not_or, orThrow_eq_ok, ofExcept_eq_ok, uintSub_eq_some,
    uint256_eq_some, modify_eq_ok] at h
  obtain ⟨_, _, ⟨hopen, rfl⟩, _, _, ⟨rfl, rfl⟩, _, _, ⟨⟨hsolver, -, hhash⟩, rfl⟩, _, s, ⟨hcap, rfl⟩, _, _, rfl, _, _,
    ⟨hsettles, rfl⟩, _, _, rfl, _, _, ⟨hpulls, rfl⟩, _, _, ⟨rfl, rfl⟩, _, _, ⟨⟨hgain, rfl⟩, rfl⟩, eth, _, ⟨⟨-, heth⟩, rfl⟩, _, _,
    ⟨htakes, rfl⟩, _, v, rfl, h⟩ := h
  refine ⟨⟨i, auth, publicValues, s.claims i.opId⟩, eth, rfl, rfl, rfl,
    ⟨checkAuth_ok hauth, hopen, rfl, hsolver, hhash, fun id cap hd => ?_⟩, by simpa using hsettles, fun hp => ?_, hgain, heth,
    ?_, ?_⟩
  · simp only [checkCap, hd, except_bind_eq_ok, need_eq_ok, uint256_eq_some, refuse_eq_ok, not_lt] at hcap
    obtain ⟨_, ⟨-, rfl⟩, hle⟩ := hcap
    exact hle
  · by_contra hx
    exact hpulls ⟨hp, by simpa using hx⟩
  · rcases Nat.eq_zero_or_pos eth with h0 | h0
    · omega
    · by_contra hlt
      exact htakes ⟨by omega, Or.inl (by omega)⟩
  · by_cases h0 : eth = 0
    · rw [if_neg (by simp [h0])] at h ⊢
      exact (pure_eq_ok.1 h).2
    · rw [if_pos h0] at h ⊢
      exact modify_eq_ok.1 h

/-- Nothing of what the books and the bonds read has changed. -/
structure Quiet (s t : Storage) : Prop where
  balance : t.balance = s.balance
  claims : t.claims = s.claims
  done : t.done = s.done
  spent : t.spent = s.spent
  log : t.log = s.log

section
variable {s : Storage}

theorem Quiet.refl : Quiet s s := ⟨rfl, rfl, rfl, rfl, rfl⟩

theorem setClaimBond_quiet (e : Env) (bond : Nat) : Quiet s ((setClaimBond cfg e bond).call s) := by
  refine call_keeps Quiet.refl fun u t hok => ?_
  simp only [setClaimBond, bind_eq_ok, check_eq_ok, modify_eq_ok] at hok
  obtain ⟨_, _, ⟨-, rfl⟩, _, _, ⟨-, rfl⟩, _, _, ⟨-, rfl⟩, rfl⟩ := hok
  exact ⟨rfl, rfl, rfl, rfl, rfl⟩

theorem cancel_quiet (e : Env) (payer : U 160) (opId : Word) : Quiet s ((cancel e payer opId).call s) := by
  refine call_keeps Quiet.refl fun u t hok => ?_
  simp only [cancel, bind_eq_ok, check_eq_ok, get_eq_ok, modify_eq_ok] at hok
  obtain ⟨_, _, ⟨-, rfl⟩, _, _, ⟨rfl, rfl⟩, _, _, ⟨-, rfl⟩, rfl⟩ := hok
  exact ⟨rfl, rfl, rfl, rfl, rfl⟩

theorem revokeTank_quiet (e : Env) (tank : Tank) : Quiet s ((revokeTank cfg e tank).call s) := by
  refine call_keeps Quiet.refl fun u t hok => ?_
  simp only [revokeTank, bind_eq_ok, check_eq_ok, modify_eq_ok] at hok
  obtain ⟨_, _, ⟨-, rfl⟩, _, _, ⟨-, rfl⟩, rfl⟩ := hok
  exact ⟨rfl, rfl, rfl, rfl, rfl⟩

end

/-! ## The books -/

/-- What holds of an event by itself. -/
def Event.Valid (cfg : Config) : Event → Prop
  | .claimed i auth now c => Signed cfg i auth ∧ c.intentHash = intentHash cfg i ∧ priceAt i now = some c.price ∧
      i.floorFee.val ≤ c.price ∧ c.price ≤ i.maxFee.val
  | .lapsed _ _ payee => payee = cfg.treasury
  | .closed r => Signed cfg r.intent r.auth ∧ cfg.keccak.hash r.publicValues = r.intent.opId ∧
      r.claim.intentHash = intentHash cfg r.intent
  | .charged r x eth payee => x.settles = true ∧ (r.claim.price ≠ 0 → x.pulls = true) ∧ r.claim.bond ≤ eth ∧
      payee = r.claim.solver

/-- What every call keeps, with the fulfilments `pending` around it. -/
structure Books (cfg : Config) (pending : List Receipt) (s : Storage) : Prop where
  blank : ∀ o, (s.claims o).solver = 0 → (s.claims o).bond = 0
  accounted : ∀ o, taken o s.log = ended o s.log ++ s.open o
  settled : (closings s.log).Perm (charges s.log ++ pending)
  once : ((closings s.log).map fun r => r.intent.opId).Nodup
  closed : ∀ r ∈ closings s.log, s.done r.intent.opId = true
  valid : ∀ ev ∈ s.log, ev.Valid cfg
  drawn : ∀ id, s.spent id = ((closings s.log).map (Receipt.chargedTo cfg id)).sum
  capped : ∀ t, s.spent (tankHash cfg t) ≤ t.cap.val

theorem Books.deployed (b : Nat) : Books cfg [] (.deployed b) where
  blank o _ := rfl
  accounted o := by simp [Storage.deployed, Storage.open, taken, ended, Claim.none]
  settled := List.Perm.nil
  once := List.nodup_nil
  closed r h := by cases h
  valid ev h := by cases h
  drawn id := rfl
  capped t := Nat.zero_le _

variable {pending : List Receipt} {s : Storage}

/-- What the books do not read. -/
theorem Books.congr {t : Storage} (h : Books cfg pending s) (hclaims : t.claims = s.claims) (hdone : t.done = s.done)
    (hspent : t.spent = s.spent) (hlog : t.log = s.log) : Books cfg pending t where
  blank o := by rw [hclaims]; exact h.blank o
  accounted o := by rw [hlog, Storage.open, hclaims]; exact h.accounted o
  settled := by rw [hlog]; exact h.settled
  once := by rw [hlog]; exact h.once
  closed r := by rw [hlog, hdone]; exact h.closed r
  valid := by rw [hlog]; exact h.valid
  drawn id := by rw [hlog, hspent]; exact h.drawn id
  capped t := by rw [hspent]; exact h.capped t

theorem Books.quiet {t : Storage} (h : Books cfg pending s) (hq : Quiet s t) : Books cfg pending t :=
  h.congr hq.claims hq.done hq.spent hq.log

/-- A claim: the lapsed one it replaces, if any, is ended. -/
theorem Books.record (h : Books cfg pending s) {i : Intent} {auth : Auth} {now : Nat} {c : Claim} (hc : c.solver ≠ 0)
    (hsigned : Signed cfg i auth) (hhash : c.intentHash = intentHash cfg i) (hfee : i.floorFee ≤ i.maxFee)
    (hprice : priceAt i now = some c.price) : Books cfg pending (s.record cfg i auth now c) where
  blank o ho := by
    by_cases he : o = i.opId
    · subst he
      exact absurd ho (by simpa [Storage.record] using hc)
    · simp only [Storage.record, Function.update_of_ne he] at ho ⊢
      exact h.blank o ho
  accounted o := by
    have hacc := h.accounted o
    by_cases he : i.opId = o
    · subst he
      by_cases h0 : (s.claims i.opId).solver = 0 <;>
        simp_all [Storage.record, Storage.open, taken, ended]
    · have he' : o ≠ i.opId := fun e => he e.symm
      by_cases h0 : (s.claims i.opId).solver = 0 <;>
        simp_all [Storage.record, Storage.open, taken, ended]
  settled := by
    have := h.settled
    by_cases h0 : (s.claims i.opId).solver = 0 <;> simp_all [Storage.record, closings, charges]
  once := by
    have := h.once
    by_cases h0 : (s.claims i.opId).solver = 0 <;> simp_all [Storage.record, closings]
  closed r hr := by
    refine h.closed r ?_
    by_cases h0 : (s.claims i.opId).solver = 0 <;> simpa [Storage.record, closings, h0] using hr
  valid ev hev := by
    have hbounds := priceAt_bounds hfee hprice
    simp only [Storage.record, List.mem_append, List.mem_singleton] at hev
    rcases hev with (hev | hev) | rfl
    · exact h.valid ev hev
    · by_cases h0 : (s.claims i.opId).solver = 0
      · simp [h0] at hev
      · rw [if_pos h0, List.mem_singleton] at hev
        subst hev
        rfl
    · exact ⟨hsigned, hhash, hprice, hbounds⟩
  drawn id := by
    have := h.drawn id
    by_cases h0 : (s.claims i.opId).solver = 0 <;> simpa [Storage.record, closings, h0] using this
  capped t := h.capped t

/-- A fulfilment closes its claim before the pool is called; its price is drawn and the op done. -/
theorem Books.close (hK : cfg.keccak.Ideal) (h : Books cfg pending s) {e : Env} {r : Receipt} (hr : Closable cfg e r s) :
    Books cfg (r :: pending) (s.close cfg r) where
  blank o ho := by
    by_cases he : o = r.intent.opId
    · subst he
      simp [Storage.close, Claim.none]
    · simp only [Storage.close, Function.update_of_ne he] at ho ⊢
      exact h.blank o ho
  accounted o := by
    have hacc := h.accounted o
    by_cases he : r.intent.opId = o
    · subst he
      have hsolver : (s.claims r.intent.opId).solver ≠ 0 := by
        rw [← hr.held, hr.solver]
        exact e.sender_ne
      simp only [Storage.open, if_neg hsolver] at hacc
      simp [Storage.close, Storage.open, taken, ended, hacc, hr.held, Claim.none]
    · have he' : o ≠ r.intent.opId := fun e => he e.symm
      simp only [Storage.open] at hacc
      simp [Storage.close, Storage.open, taken, ended, hacc, he, he']
  settled := by
    simp only [Storage.close, closings_append, charges_append, closings, charges, List.append_nil]
    refine (h.settled.append_right [r]).trans ?_
    rw [List.append_assoc]
    exact (List.perm_append_singleton r pending).append_left _
  once := by
    simp only [Storage.close, closings_append, closings, List.map_append, List.map_cons, List.map_nil]
    refine List.Nodup.append h.once (List.nodup_singleton _) ?_
    intro o ho ho'
    obtain ⟨r', hr', rfl⟩ := List.mem_map.1 ho
    have hdone := h.closed r' hr'
    rw [List.mem_singleton.1 ho', hr.checked.undone] at hdone
    cases hdone
  closed r' hr' := by
    simp only [Storage.close, closings_append, closings, List.mem_append, List.mem_singleton] at hr' ⊢
    by_cases he : r'.intent.opId = r.intent.opId
    · rw [he, Function.update_self]
    · rw [Function.update_of_ne he]
      exact h.closed r' (hr'.resolve_right fun e => he (e ▸ rfl))
  valid ev hev := by
    rcases List.mem_append.1 hev with hev | hev
    · exact h.valid ev hev
    · rw [List.mem_singleton.1 hev]
      exact ⟨hr.checked.signed, hr.opens, hr.hashed⟩
  drawn id := by
    have hdrawn := h.drawn id
    simp only [Storage.close, closings_append, closings, List.map_append, List.map_cons, List.map_nil, List.sum_append,
      List.sum_cons, List.sum_nil, Nat.add_zero, Receipt.chargedTo]
    cases hd : r.auth.drawn cfg with
    | none => simpa using hdrawn
    | some d =>
      by_cases he : id = d.1
      · subst he
        simp [hdrawn]
      · have he' : d.1 ≠ id := fun e => he e.symm
        simp [he, he', hdrawn]
  capped t := by
    have hcapped := h.capped t
    simp only [Storage.close]
    cases hauth : r.auth with
    | direct signature => simpa [Auth.drawn] using hcapped
    | tank t' tankSig intentSig =>
      have hroom := hr.room (tankHash cfg t') t'.cap.val (by rw [hauth]; rfl)
      by_cases he : tankHash cfg t = tankHash cfg t'
      · obtain rfl := tankHash_injective hK he
        simpa [Auth.drawn] using hroom
      · simpa [Auth.drawn, he] using hcapped

/-- The price is charged and the solver paid. -/
theorem Books.charge {r : Receipt} (h : Books cfg (r :: pending) s) {x : Answers} {eth : Nat} {payee : Address}
    (hx : x.settles = true) (hpulls : r.claim.price ≠ 0 → x.pulls = true) (hbond : r.claim.bond ≤ eth)
    (hpayee : payee = r.claim.solver) : Books cfg pending (s.charge r x eth payee) where
  blank := h.blank
  accounted o := by
    show taken o (s.log ++ _) = ended o (s.log ++ _) ++ s.open o
    rw [taken_append, ended_append, h.accounted o]
    simp [taken, ended]
  settled := by
    simp only [Storage.charge, closings_append, charges_append, closings, charges, List.append_nil]
    exact h.settled.trans (by simp)
  once := by
    have := h.once
    simpa [Storage.charge, closings] using this
  closed r' hr' := h.closed r' (by simpa [Storage.charge, closings] using hr')
  valid ev hev := by
    rcases List.mem_append.1 hev with hev | hev
    · exact h.valid ev hev
    · rw [List.mem_singleton.1 hev]
      exact ⟨hx, hpulls, hbond, hpayee⟩
  drawn id := by
    have := h.drawn id
    simpa [Storage.charge, closings] using this
  capped := h.capped

/-! ## Any calls -/

mutual

/-- **Every call keeps the books**, whatever it calls before it returns. -/
theorem books_exec (hK : cfg.keccak.Ideal) : ∀ (a : Act) {pending : List Receipt} {s : Storage}, Books cfg pending s →
    Books cfg pending (a.exec cfg s)
  | .pay amount, pending, s, h => h.congr rfl rfl rfl rfl
  | .setClaimBond e bond, _, _, h => h.quiet (setClaimBond_quiet e bond)
  | .claim e i auth held, pending, s, h => by
    rw [Act.exec]
    refine call_keeps h fun u t hok => ?_
    obtain ⟨hchecked, -, -, c, hsolver, -, hhash, hprice, rfl⟩ := claim_ok hok
    have hpaid : Books cfg pending { s with balance := s.balance + e.value } := h.congr rfl rfl rfl rfl
    exact hpaid.record (hsolver ▸ e.sender_ne) hchecked.signed hhash hchecked.fees hprice
  | .cancel e payer opId, _, _, h => h.quiet (cancel_quiet e payer opId)
  | .revokeTank e tank, _, _, h => h.quiet (revokeTank_quiet e tank)
  | .fulfill e i auth publicValues x settle paid, pending, s, h => by
    rw [Act.exec]
    refine call_keeps h fun u t hok => ?_
    obtain ⟨r, eth, -, -, -, hr, hsettles, hpulls, -, heth, -, rfl⟩ := fulfill_ok hok
    have hinside := books_execAll hK settle (h.close hK hr)
    have hbond : r.claim.bond ≤ eth := by omega
    have hcharged := hinside.charge hsettles hpulls hbond hr.solver.symm
    by_cases h0 : eth ≠ 0
    · rw [if_pos h0]
      exact books_execAll hK paid hcharged
    · rw [if_neg h0]
      exact hcharged

/-- So do calls one after another. -/
theorem books_execAll (hK : cfg.keccak.Ideal) : ∀ (acts : List Act) {pending : List Receipt} {s : Storage},
    Books cfg pending s → Books cfg pending (execAll cfg acts s)
  | [], _, _, h => h
  | a :: acts, _, _, h => books_execAll hK acts (books_exec hK a h)

end

/-! ## Solvency -/

/-- The bonds of the recorded claims. -/
def Storage.bonds (s : Storage) (o : Word) : Nat := (s.claims o).bond

mutual

/-- Inside a `settle` no accepted claim takes a bond larger than the lapsed one it replaces. -/
def Act.Careful (cfg : Config) (inside : Bool) : Act → Storage → Prop
  | .claim e i auth held, s =>
    inside = true → (ProofMarket.claim cfg e i auth held).accepts s = true → e.value ≤ (s.claims i.opId).forfeit
  | .fulfill e i auth publicValues x settle paid, s =>
    (ProofMarket.fulfill cfg e i auth publicValues x (execAll cfg settle) (execAll cfg paid)).accepts s = true →
      let r : Receipt := ⟨i, auth, publicValues, s.claims i.opId⟩
      let t := execAll cfg settle (s.close cfg r)
      CarefulAll cfg true settle (s.close cfg r) ∧
        CarefulAll cfg inside paid (t.charge r x (t.balance - s.balance + r.claim.bond) e.sender)
  | _, _ => True

def CarefulAll (cfg : Config) (inside : Bool) : List Act → Storage → Prop
  | [], _ => True
  | a :: acts, s => a.Careful cfg inside s ∧ CarefulAll cfg inside acts (a.exec cfg s)

end

/-- The bonds are covered in `t` as well as in `s`; inside a `settle` they have not grown either. -/
def Covers (inside : Bool) (s t : Storage) : Prop := ∀ n, Tally s.bonds n →
  ∃ m, Tally t.bonds m ∧ s.balance + m ≤ t.balance + n ∧ (inside = true → m ≤ n)

variable {inside : Bool} {t u : Storage}

theorem Covers.of_bonds (hbonds : t.bonds = s.bonds) (hbalance : s.balance ≤ t.balance) : Covers inside s t :=
  fun n hn => ⟨n, hbonds ▸ hn, by omega, fun _ => le_refl n⟩

theorem Covers.quiet (h : Quiet s t) : Covers inside s t :=
  Covers.of_bonds (by unfold Storage.bonds; rw [h.claims]) h.balance.ge

theorem Covers.trans (h : Covers inside s t) (h' : Covers inside t u) : Covers inside s u := by
  intro n hn
  obtain ⟨m, hm, hbalance, hinside⟩ := h n hn
  obtain ⟨k, hk, hbalance', hinside'⟩ := h' m hm
  exact ⟨k, hk, by omega, fun hi => (hinside' hi).trans (hinside hi)⟩

theorem Claim.forfeit_eq {c : Claim} (h : c.solver = 0 → c.bond = 0) : c.forfeit = c.bond := by
  unfold Claim.forfeit
  by_cases hc : c.solver ≠ 0 ∧ c.bond ≠ 0
  · rw [if_pos hc]
  · rw [if_neg hc]
    by_contra hne
    exact hc ⟨fun h0 => hne (h h0).symm, fun h0 => hne h0.symm⟩

/-- A claim pays in its bond and pays out the lapsed one. -/
theorem Covers.claim (h : Books cfg pending s) {e : Env} {i : Intent} {auth : Auth} {held : Nat} {v : Unit}
    (hok : claim cfg e i auth held s = .ok v t) (hcare : inside = true → e.value ≤ (s.claims i.opId).forfeit) :
    Covers inside s t := by
  obtain ⟨-, -, hforfeit, c, -, hbond, -, -, rfl⟩ := claim_ok hok
  intro n hn
  have heq := Claim.forfeit_eq (h.blank i.opId)
  have hle : (s.claims i.opId).bond ≤ n := hn.le i.opId
  have hold : s.bonds i.opId = (s.claims i.opId).bond := rfl
  have hnew : (Storage.record cfg { s with balance := s.balance + e.value } i auth e.now c).bonds =
      Function.update s.bonds i.opId c.bond := by
    funext o
    by_cases ho : o = i.opId
    · subst ho
      simp [Storage.bonds, Storage.record]
    · simp [Storage.bonds, Storage.record, ho]
  refine ⟨n - (s.claims i.opId).bond + e.value, hnew ▸ hn.update (by omega), ?_, fun hi => ?_⟩
  · simp only [Storage.record]
    omega
  · have := hcare hi
    omega

/-- A fulfilment whose `settle` adds no bonds pays its solver what is not owed. -/
theorem Covers.charge {r : Receipt} {x : Answers} {payee : Address} (hr : r.claim = s.claims r.intent.opId)
    (hinside : Covers true (s.close cfg r) t) (hgain : s.balance ≤ t.balance) :
    Covers inside s (t.charge r x (t.balance - s.balance + r.claim.bond) payee) := by
  intro n hn
  have hle : (s.claims r.intent.opId).bond ≤ n := hn.le r.intent.opId
  have hold : s.bonds r.intent.opId = (s.claims r.intent.opId).bond := rfl
  have hclosed : (s.close cfg r).bonds = Function.update s.bonds r.intent.opId 0 := by
    funext o
    by_cases ho : o = r.intent.opId
    · subst ho
      simp [Storage.bonds, Storage.close, Claim.none]
    · simp [Storage.bonds, Storage.close, ho]
  obtain ⟨m, hm, -, hle'⟩ := hinside (n - (s.claims r.intent.opId).bond) (hclosed ▸ hn.update (by omega))
  have hm' := hle' rfl
  refine ⟨m, hm, ?_, fun _ => by omega⟩
  simp only [Storage.charge]
  rw [hr]
  omega

mutual

/-- **Careful calls leave the bonds covered.** -/
theorem covers_exec (hK : cfg.keccak.Ideal) : ∀ (a : Act) {inside : Bool} {pending : List Receipt} {s : Storage},
    Books cfg pending s → a.Careful cfg inside s → Covers inside s (a.exec cfg s)
  | .pay amount, _, _, _, _, _ => Covers.of_bonds rfl (Nat.le_add_right _ _)
  | .setClaimBond e bond, _, _, _, _, _ => Covers.quiet (setClaimBond_quiet e bond)
  | .claim e i auth held, _, _, s, h, hcare => by
    rw [Act.exec]
    rcases call_cases (ProofMarket.claim cfg e i auth held) s with hcall | ⟨u, hok⟩
    · rw [hcall]
      exact Covers.quiet Quiet.refl
    · refine Covers.claim h hok fun hi => hcare hi ?_
      rw [accepts, hok]
  | .cancel e payer opId, _, _, _, _, _ => Covers.quiet (cancel_quiet e payer opId)
  | .revokeTank e tank, _, _, _, _, _ => Covers.quiet (revokeTank_quiet e tank)
  | .fulfill e i auth publicValues x settle paid, inside, pending, s, h, hcare => by
    rw [Act.exec]
    rcases call_cases (ProofMarket.fulfill cfg e i auth publicValues x (execAll cfg settle) (execAll cfg paid)) s with
      hcall | ⟨u, hok⟩
    · rw [hcall]
      exact Covers.quiet Quiet.refl
    · obtain ⟨hcareSettle, hcarePaid⟩ := hcare (by rw [accepts, hok])
      obtain ⟨r, eth, rfl, rfl, rfl, hr, hsettles, hpulls, hgain, rfl, -, ht⟩ := fulfill_ok hok
      have hreceipt : (⟨r.intent, r.auth, r.publicValues, s.claims r.intent.opId⟩ : Receipt) = r := by rw [← hr.held]
      rw [hreceipt] at hcareSettle hcarePaid
      have hclosed := h.close hK hr
      have hsettle := covers_execAll hK settle hclosed hcareSettle
      rw [ht]
      by_cases h0 : (execAll cfg settle (s.close cfg r)).balance - s.balance + r.claim.bond ≠ 0
      · rw [if_pos h0]
        have hbond := Nat.le_add_left r.claim.bond ((execAll cfg settle (s.close cfg r)).balance - s.balance)
        have hbooks := (books_execAll hK settle hclosed).charge hsettles hpulls hbond hr.solver.symm
        exact (Covers.charge hr.held hsettle hgain).trans (covers_execAll hK paid hbooks hcarePaid)
      · rw [if_neg h0]
        exact Covers.charge hr.held hsettle hgain

theorem covers_execAll (hK : cfg.keccak.Ideal) : ∀ (acts : List Act) {inside : Bool} {pending : List Receipt} {s : Storage},
    Books cfg pending s → CarefulAll cfg inside acts s → Covers inside s (execAll cfg acts s)
  | [], _, _, _, _, _ => Covers.quiet Quiet.refl
  | a :: acts, _, _, _, h, hcare =>
    (covers_exec hK a h hcare.1).trans (covers_execAll hK acts (books_exec hK a h) hcare.2)

end

/-! ## The market -/

/-- What a charge to a payer rests on. -/
structure Charged (cfg : Config) (log : List Event) (r : Receipt) (x : Answers) (eth : Nat) (payee : Address) : Prop where
  accepted : x.settles = true
  pulled : r.claim.price ≠ 0 → x.pulls = true
  opens : cfg.keccak.hash r.publicValues = r.intent.opId
  signed : Signed cfg r.intent r.auth
  fixed : ∃ auth now, Event.claimed r.intent auth now r.claim ∈ log ∧ priceAt r.intent now = some r.claim.price
  bounds : r.intent.floorFee.val ≤ r.claim.price ∧ r.claim.price ≤ r.intent.maxFee.val
  perOp : ∀ t tankSig intentSig, r.auth = .tank t tankSig intentSig → r.claim.price ≤ t.perOpMax.val
  bond : r.claim.bond ≤ eth
  payee : payee = r.claim.solver

/-- Every charge in the books. -/
theorem Books.charged (hK : cfg.keccak.Ideal) (h : Books cfg pending s) {r : Receipt} {x : Answers} {eth : Nat}
    {payee : Address} (hmem : .charged r x eth payee ∈ s.log) : Charged cfg s.log r x eth payee := by
  obtain ⟨hx, hpulls, hbond, hpayee⟩ := h.valid _ hmem
  have hclosing : r ∈ closings s.log :=
    h.settled.mem_iff.2 (List.mem_append_left _ (mem_charges.2 ⟨x, eth, payee, hmem⟩))
  obtain ⟨hsigned, hopens, hhash⟩ := h.valid _ (mem_closings.1 hclosing)
  -- the closed claim was taken under the same intent
  have htaken : r.claim ∈ taken r.intent.opId s.log := by
    rw [h.accounted]
    exact List.mem_append_left _ (mem_ended_of_closed (mem_closings.1 hclosing))
  obtain ⟨i, auth, now, -, hclaimed⟩ := claimed_of_mem_taken htaken
  obtain ⟨-, hhash', hprice, hbounds⟩ := h.valid _ hclaimed
  obtain rfl : i = r.intent := intentHash_injective hK (hhash'.symm.trans hhash)
  refine ⟨hx, hpulls, hopens, hsigned, ⟨auth, now, hclaimed, hprice⟩, hbounds, fun t tankSig intentSig ht => ?_, hbond,
    hpayee⟩
  rw [ht] at hsigned
  exact hbounds.2.trans hsigned.2.2.1

section
variable (K : Keccak)

/-- A market in which any signature is payer 5's. -/
def demoMarket : Config where
  keccak := K
  domain := 0
  recover _ _ := some 5
  claimWindow := 100
  owner := 9
  treasury := 8

def demoIntent (v : Nat) : Intent := ⟨5, K.hash [v], 0, 0, 0, 0, 1000, 0⟩

def demoEnv (sender value : Nat) (h : sender ≠ 0) : Env := ⟨sender, value, 1, h⟩

/-- A prover claims an op at a bond of 1. -/
def oneClaim : List Act :=
  [.setClaimBond (demoEnv 9 0 (by decide)) 1, .claim (demoEnv 7 1 (by decide)) (demoIntent K 1) (.direct []) 0]

/-- It claims a second one while the first is settled. -/
def nestedClaim : List Act := oneClaim K ++
  [.fulfill (demoEnv 7 0 (by decide)) (demoIntent K 1) (.direct []) [1] ⟨true, true, true⟩
    [.claim (demoEnv 7 1 (by decide)) (demoIntent K 2) (.direct []) 0] []]

end

theorem nestedClaim_ends {K : Keccak} (hK : K.Ideal) :
    (execAll (demoMarket K) (nestedClaim K) (.deployed 0)).balance = 0 ∧
      (execAll (demoMarket K) (nestedClaim K) (.deployed 0)).bonds (K.hash [2]) = 1 := by
  have hne : K.hash [2] ≠ K.hash [1] := fun h => by simpa using hK.injective h
  constructor <;> simp [nestedClaim, oneClaim, demoEnv, demoIntent, demoMarket, execAll, Act.exec, call, setClaimBond, claim, claimOp,
    fulfill, runOp, Bind.bind, Prog.bind, check, Pure.pure, Prog.modify, Prog.get, Prog.ofExcept, checkAuth, checkIntent,
    Except.bind, refuse, need, Storage.deployed, Auth.drawn, orThrow, priceAt, Storage.record, Storage.close, Storage.charge,
    checkCap, uint256, uintSub, Claim.none, Claim.forfeit, maxBond, Storage.bonds, hne]

end ProofMarket

end Tacit
