import Tacit.Oracle.IntervalOracle
/-!
# What the ring holds

A recorded interval stays in its entry until the one 128 later is recorded, which is after it has left every window; an older
one is refused. So at any block the entry of an interval in reach is that interval's sample, or the interval is not recorded.
-/
namespace Tacit.IntervalOracle

open Prog

/-- What the header, account and storage proofs of a block determine. -/
structure Chain where
  stateRoot : Nat → Word
  mixHash : Nat → Word
  venue : Nat → Nat × Nat

/-- `RLPReader.readBytes(fields[i])` -/
def fieldOf (X : Externals) (fields : List Bytes) (i : Nat) : Option Bytes := fields[i]?.bind X.readBytes

def uintOf (b : Bytes) : Nat := b.foldl (fun v x => v <<< 8 ||| x % 256) 0

/-- The proofs that pass in a call are those of `chain`: a header under the hash of its number has that block's roots, and
what is proven under a block's state root is the venue's price and depth there. -/
structure Determines (X : Externals) (env : Env) (chain : Chain) : Prop where
  header : ∀ {h : Bytes} {fields : List Bytes} {b : Bytes}, X.readList h = some fields → fieldOf X fields 8 = some b →
    blockHash env (uintOf b) ≠ 0 → X.keccak256 h = blockHash env (uintOf b) →
    (∀ root, fieldOf X fields 3 = some root → Word.ofBytes root = chain.stateRoot (uintOf b)) ∧
      ∀ mix, fieldOf X fields 13 = some mix → Word.ofBytes mix = chain.mixHash (uintOf b)
  sample : ∀ {n : Nat} {accountProof proofA proofB : List Bytes} {s t : Samples} {v : Nat × Nat},
    provenSample X (chain.stateRoot n) accountProof proofA proofB s = .ok v t → v = chain.venue n

/-- The block whose end is sampled, and the sample. -/
def trueBlock (cfg : Config) (chain : Chain) (interval : Nat) : Nat :=
  interval * cfg.step + (chain.mixHash ((interval + 1) * cfg.step)).toNat % cfg.step

def trueSample (cfg : Config) (chain : Chain) (interval : Nat) : Nat × Nat := chain.venue (trueBlock cfg chain interval)

/-! ## Entries -/

theorem shiftLeft_or_eq {a b w : Nat} (h : b < 2 ^ w) : a <<< w ||| b = a * 2 ^ w + b := by
  rw [← Nat.shiftLeft_add_eq_or_of_lt h, Nat.shiftLeft_eq]

theorem add_mul_lt {a b m n : Nat} (ha : a < m) (hb : b < n) : a * n + b < m * n :=
  calc a * n + b < a * n + n := Nat.add_lt_add_left hb _
    _ = (a + 1) * n := (Nat.succ_mul a n).symm
    _ ≤ m * n := Nat.mul_le_mul_right n ha

theorem pack_val {k p d : Nat} (hk : k < 2 ^ 48) (hp : p ≤ mask) (hd : d ≤ mask) :
    (pack k p d).val = (k * 2 ^ 104 + p) * 2 ^ 104 + d := by
  have hp : p < 2 ^ 104 := Nat.lt_of_le_pred (by decide) hp
  have hd : d < 2 ^ 104 := Nat.lt_of_le_pred (by decide) hd
  have hlow : p * 2 ^ 104 + d < 2 ^ 208 := add_mul_lt hp hd
  have hall : k <<< 208 ||| p <<< 104 ||| d = k * 2 ^ 208 + (p * 2 ^ 104 + d) := by
    rw [Nat.or_assoc, shiftLeft_or_eq hd]
    exact shiftLeft_or_eq hlow
  have hfit : k * 2 ^ 208 + (p * 2 ^ 104 + d) < 2 ^ 256 := add_mul_lt hk hlow
  have hpack : (pack k p d).val = k * 2 ^ 208 + (p * 2 ^ 104 + d) := by
    rw [← hall] at hfit ⊢
    exact Nat.mod_eq_of_lt hfit
  rw [hpack, Nat.add_mul, Nat.mul_assoc, ← Nat.pow_add, Nat.add_assoc]

section Entry

variable {k p d : Nat} (hk : k < 2 ^ 48) (hp : p ≤ mask) (hd : d ≤ mask)
include hk hp hd

theorem price_pack : price (pack k p d) = p := by
  have hval := pack_val hk hp hd
  unfold mask at hp hd
  rw [price, hval, mask, Nat.and_two_pow_sub_one_eq_mod, Nat.shiftRight_eq_div_pow]
  omega

theorem depth_pack : depth (pack k p d) = d := by
  have hval := pack_val hk hp hd
  unfold mask at hp hd
  rw [depth, hval, mask, Nat.and_two_pow_sub_one_eq_mod]
  omega

/-- An entry holds its own interval and no other. -/
theorem has_pack (hne : p ≠ 0) (j : Nat) : has (pack k p d) j = true ↔ k = j := by
  have hval := pack_val hk hp hd
  unfold mask at hp hd
  have hpos : (pack k p d).val ≠ 0 := by omega
  have hshift : (pack k p d).val >>> 208 = k := by
    rw [hval, Nat.shiftRight_eq_div_pow]
    omega
  rw [has, Bool.and_eq_true, bne_iff_ne, beq_iff_eq, hshift]
  exact ⟨fun h => h.2, fun h => ⟨hpos, h⟩⟩

end Entry

/-! ## An accepted record -/

section Record

variable {cfg : Config} {X : Externals} {env : Env} {chain : Chain} {s t : Samples}

theorem field_eq_ok {fields : List Bytes} {i : Nat} {b : Bytes} :
    field X fields i s = .ok b t ↔ fieldOf X fields i = some b ∧ t = s := by
  simp only [field, fieldOf, bind_eq_ok, orPanic_eq_ok, orThrow_eq_ok, Option.bind_eq_some_iff]
  constructor
  · rintro ⟨item, _, ⟨hitem, rfl⟩, hb, rfl⟩
    exact ⟨⟨item, hitem, hb⟩, rfl⟩
  · rintro ⟨⟨item, hitem, hb⟩, rfl⟩
    exact ⟨item, _, ⟨hitem, rfl⟩, hb, rfl⟩

theorem toUint_eq_ok {b : Bytes} {n : Nat} : toUint b s = .ok n t ↔ b.length ≤ 32 ∧ n = uintOf b ∧ t = s := by
  simp only [toUint, uintOf, bind_eq_ok, check_eq_ok, pure_eq_ok, not_lt]
  constructor
  · rintro ⟨_, _, ⟨hlen, rfl⟩, rfl, rfl⟩
    exact ⟨hlen, rfl, rfl⟩
  · rintro ⟨hlen, rfl, rfl⟩
    exact ⟨(), _, ⟨hlen, rfl⟩, rfl, rfl⟩

/-- A header that passes is decoded, and stands under the hash of its number, which is of an earlier block. -/
theorem readHeader_ok {h : Bytes} {fields : List Bytes} (hrun : readHeader X env h s = .ok fields t) :
    t = s ∧ X.readList h = some fields ∧ ∃ b, fieldOf X fields 8 = some b ∧ uintOf b < env.number ∧
      blockHash env (uintOf b) ≠ 0 ∧ X.keccak256 h = blockHash env (uintOf b) := by
  simp only [readHeader, bind_eq_ok, orThrow_eq_ok, check_eq_ok, orPanic_eq_ok, field_eq_ok, toUint_eq_ok, pure_eq_ok] at hrun
  obtain ⟨_, _, ⟨hlist, rfl⟩, _, _, ⟨-, rfl⟩, _, _, ⟨-, rfl⟩, _, _, ⟨-, rfl⟩, _, _, ⟨-, rfl⟩, _, _, ⟨-, rfl⟩, b, _, ⟨hb, rfl⟩,
    _, _, ⟨-, rfl, rfl⟩, _, _, ⟨hhash, rfl⟩, rfl, rfl⟩ := hrun
  rw [not_or, not_not] at hhash
  refine ⟨rfl, hlist, b, hb, ?_, hhash⟩
  by_contra hlate
  exact hhash.1 (if_pos (Nat.le_of_not_lt hlate))

theorem latestInterval_ok {g newest : Nat} (hrun : latestInterval cfg env g s = .ok newest t) :
    t = s ∧ g + cfg.step ≤ env.number - 1 ∧ newest = (env.number - 1 - g) / cfg.step - 1 := by
  simp only [latestInterval, bind_eq_ok, orThrow_eq_ok, uintSub_eq_some, check_eq_ok, pure_eq_ok, not_lt] at hrun
  obtain ⟨_, _, ⟨⟨-, rfl⟩, rfl⟩, _, _, ⟨hlast, rfl⟩, rfl, rfl⟩ := hrun
  exact ⟨rfl, hlast, rfl⟩

theorem storage_ok {root slot : Word} {proof : List Bytes} {a : Nat} (hrun : storage X root slot proof s = .ok a t) : t = s := by
  simp only [storage, bind_eq_ok, orThrow_eq_ok, toUint_eq_ok] at hrun
  obtain ⟨_, _, ⟨-, rfl⟩, _, _, ⟨-, rfl⟩, -, -, rfl⟩ := hrun
  rfl

theorem provenSample_ok {root : Word} {accountProof proofA proofB : List Bytes} {v : Nat × Nat}
    (hrun : provenSample X root accountProof proofA proofB s = .ok v t) : t = s := by
  simp only [provenSample, bind_eq_ok, orThrow_eq_ok, field_eq_ok] at hrun
  obtain ⟨_, _, ⟨-, rfl⟩, _, _, ⟨-, rfl⟩, _, _, ⟨-, rfl⟩, _, _, ha, _, _, hb, -, rfl⟩ := hrun
  rw [storage_ok hb, storage_ok ha]

/-- The event of a record: a true sample, of an interval that is over. -/
structure IsSample (cfg : Config) (chain : Chain) (env : Env) (e : Recorded) : Prop where
  sample : (e.ethPerTac, e.ethDepth) = trueSample cfg chain e.interval
  past : (e.interval + 1) * cfg.step < env.number
  price_ne : e.ethPerTac ≠ 0
  price_le : e.ethPerTac ≤ mask
  depth_le : e.ethDepth ≤ mask

/-- What an accepted record does. -/
structure Records (cfg : Config) (chain : Chain) (env : Env) (s : Samples) (e : Recorded) (t : Samples) : Prop where
  event : IsSample cfg chain env e
  recent : (env.number - 1) / cfg.step - 1 < e.interval + ring
  state : t = Function.update s (ringSlot e.interval) (pack e.interval e.ethPerTac e.ethDepth)

theorem record_ok (hdet : Determines X env chain) {p : Proofs} {e : Recorded} (hrun : record cfg X env p s = .ok e t) :
    Records cfg chain env s e t := by
  simp only [record, bind_eq_ok, orThrow_eq_ok, check_eq_ok, field_eq_ok, toUint_eq_ok, get_eq_ok, modify_eq_ok, pure_eq_ok,
    sampleBlock, uint256_eq_some, and_assoc, exists_and_left, exists_eq_left, exists_const] at hrun
  obtain ⟨fields, _, hheader, b, hb, -, next, _, hnext, b', hb', -, -, hstop, mix, hmix, -, -, hsample, latest, _, hlatest, hrecent,
    -, root, hroot, v, _, hv, hrange, rfl, rfl⟩ := hrun
  obtain ⟨rfl, hlist, b₁, hb₁, -, hne, hhash⟩ := readHeader_ok hheader
  obtain ⟨rfl, hlist', b₂, hb₂, hpast, hne', hhash'⟩ := readHeader_ok hnext
  obtain ⟨rfl, -, rfl⟩ := latestInterval_ok hlatest
  cases hb.symm.trans hb₁
  cases hb'.symm.trans hb₂
  have hstop := not_not.1 hstop
  have hblock : uintOf b = trueBlock cfg chain (uintOf b / cfg.step) := by
    have hmixed := (hdet.header hlist' hb' hne' hhash').2 mix hmix
    rw [trueBlock, ← hstop, ← hmixed]
    exact not_not.1 hsample
  have hvenue : v = chain.venue (uintOf b) := by
    have hroot := (hdet.header hlist hb hne hhash).1 root hroot
    exact hdet.sample (hroot ▸ hv)
  simp only [not_or, not_lt] at hrange
  refine ⟨⟨?_, ?_, hrange.1, hrange.2.1, hrange.2.2⟩, ?_, ?_⟩
  · rw [trueSample, ← hblock, hvenue]
  · rw [← hstop]
    exact hpast
  · exact Nat.lt_of_not_le hrecent
  · rw [provenSample_ok hv]

end Record

/-! ## Runs -/

section Runs

variable {cfg : Config} {X : Externals} {chain : Chain} {s t : Samples}

/-- Accepted records since the deployment, the last first: no block comes before an earlier one's. -/
inductive Run (cfg : Config) (X : Externals) : List (Env × Recorded) → Samples → Prop
  | deployed : Run cfg X [] fun _ => 0
  | record {log : List (Env × Recorded)} {s t : Samples} {env : Env} {p : Proofs} {e : Recorded} : Run cfg X log s →
      (∀ c ∈ log, c.1.number ≤ env.number) → record cfg X env p s = .ok e t → Run cfg X ((env, e) :: log) t

variable {log : List (Env × Recorded)}

/-- The entry of an event. -/
def Recorded.entry (e : Recorded) : U 256 := pack e.interval e.ethPerTac e.ethDepth

/-- Every entry is of an event, and each event's entry is of it or of a later interval. -/
structure RingOk (log : List (Env × Recorded)) (s : Samples) : Prop where
  entry : ∀ r, s r = 0 ∨ ∃ c ∈ log, ringSlot c.2.interval = r ∧ s r = c.2.entry
  kept : ∀ c ∈ log, ∃ c' ∈ log, c.2.interval ≤ c'.2.interval ∧ ringSlot c'.2.interval = ringSlot c.2.interval ∧
    s (ringSlot c.2.interval) = c'.2.entry

theorem ringSlot_eq {j k : Nat} (h : ringSlot j = ringSlot k) (hlt : j < k) : j + ring ≤ k := by
  have hmod : j % ring = k % ring := congrArg Fin.val h
  unfold ring at hmod ⊢
  omega

/-- An interval that is over by a block has the next one begun before it. -/
theorem IsSample.le_div {env : Env} {e : Recorded} (h : IsSample cfg chain env e) {number : Nat} (hle : env.number ≤ number) :
    e.interval + 1 ≤ (number - 1) / cfg.step := by
  have hstep : 0 < cfg.step := Nat.zero_lt_of_lt cfg.grace_lt
  rw [Nat.le_div_iff_mul_le hstep]
  have := h.past
  omega

/-- No record displaces a later interval. -/
theorem RingOk.record {env : Env} {e : Recorded} (hring : RingOk log s) (hevents : ∀ c ∈ log, IsSample cfg chain c.1 c.2)
    (hblocks : ∀ c ∈ log, c.1.number ≤ env.number) (hrec : Records cfg chain env s e t) : RingOk ((env, e) :: log) t := by
  rw [hrec.state]
  constructor
  · intro r
    by_cases hr : r = ringSlot e.interval
    · subst hr
      rw [Function.update_self]
      exact .inr ⟨(env, e), List.mem_cons_self, rfl, rfl⟩
    · rw [Function.update_of_ne hr]
      refine (hring.entry r).imp_right ?_
      rintro ⟨c, hc, hslot, hentry⟩
      exact ⟨c, List.mem_cons_of_mem _ hc, hslot, hentry⟩
  · intro c hc
    by_cases hr : ringSlot c.2.interval = ringSlot e.interval
    · rw [hr, Function.update_self]
      refine ⟨(env, e), List.mem_cons_self, ?_, rfl, rfl⟩
      rcases List.mem_cons.1 hc with rfl | hc
      · exact Nat.le_refl _
      · obtain ⟨c', hc', hle, -, -⟩ := hring.kept c hc
        have hover := (hevents c' hc').le_div (hblocks c' hc')
        have hrecent := hrec.recent
        by_contra hlate
        have := ringSlot_eq hr.symm (Nat.lt_of_not_le hlate)
        omega
    · rw [Function.update_of_ne hr]
      rcases List.mem_cons.1 hc with rfl | hc
      · exact absurd rfl hr
      · obtain ⟨c', hc', hle, hslot, hentry⟩ := hring.kept c hc
        exact ⟨c', List.mem_cons_of_mem _ hc', hle, hslot, hentry⟩

theorem Run.ringOk (hrun : Run cfg X log s) : (∀ c ∈ log, Determines X c.1 chain) →
    (∀ c ∈ log, IsSample cfg chain c.1 c.2) ∧ RingOk log s := by
  induction hrun with
  | deployed => exact fun _ => ⟨nofun, fun _ => .inl rfl, nofun⟩
  | record _ hblocks hrec ih =>
    intro hdet
    rw [List.forall_mem_cons] at hdet ⊢
    obtain ⟨hevents, hring⟩ := ih hdet.2
    have hrec := record_ok hdet.1 hrec
    exact ⟨⟨hrec.event, hevents⟩, hring.record hevents hblocks hrec⟩

/-! ## What is in reach -/

/-- The newest interval that counts at a block, when there is one. -/
def newestAt (cfg : Config) (number : Nat) : Nat := (number - 1 - grace) / cfg.step - 1

/-- At most two intervals are newer: of the last blocks, and of those not old enough. -/
theorem le_newestAt (cfg : Config) (number : Nat) : (number - 1) / cfg.step ≤ newestAt cfg number + 2 := by
  have hstep : 0 < cfg.step := Nat.zero_lt_of_lt cfg.grace_lt
  have hgrace := cfg.grace_lt
  have hnear : (number - 1) / cfg.step ≤ (number - 1 - grace) / cfg.step + 1 := by
    rw [← Nat.add_div_right _ hstep]
    exact Nat.div_le_div_right (by omega)
  unfold newestAt
  omega

/-- An interval in reach of a window is still in its entry. -/
theorem RingOk.entry_eq (hring : RingOk log s) (hevents : ∀ c ∈ log, IsSample cfg chain c.1 c.2) {number : Nat}
    (hblocks : ∀ c ∈ log, c.1.number ≤ number) {c : Env × Recorded} (hc : c ∈ log)
    (hreach : (number - 1) / cfg.step ≤ c.2.interval + ring) : s (ringSlot c.2.interval) = c.2.entry := by
  obtain ⟨c', hc', hle, hslot, hentry⟩ := hring.kept c hc
  have hsame : c.2.interval = c'.2.interval := by
    by_contra hne
    have hlater := ringSlot_eq hslot.symm (Nat.lt_of_le_of_ne hle hne)
    have hover := (hevents c' hc').le_div (hblocks c' hc')
    omega
  have hsample := (hevents c hc).sample
  rw [hsame, ← (hevents c' hc').sample, Prod.mk.injEq] at hsample
  rw [hentry, Recorded.entry, Recorded.entry, hsame, hsample.1, hsample.2]

end Runs

end Tacit.IntervalOracle
