import Mathlib.Data.List.Flatten
import Tacit.Pool.Frames
/-!
# What a settlement consumes

A batch consumes nullifiers, locks, deposits, bridge burns and positions, and writes two logs. `Delta` is what a
step consumed and logged, `Applied s d t` that `d` was unspent in `s` and is exactly what `t` has in addition.
Deltas compose, so the delta of a history is that of its accepted batches in order, and what a deployed pool
has consumed is a list without repeats.
-/
namespace Tacit

open Prog

namespace ConfidentialPool

/-! ## Logs -/

theorem Log.count_foldl (l : List (Word × Word)) (log : Log) :
    (l.foldl Log.push log).count = log.count + l.length := by
  induction l generalizing log with
  | nil => rfl
  | cons e l ih =>
    rw [List.foldl_cons, ih]
    simp only [Log.push, List.length_cons]
    omega

/-- Slots below the count are not written again. -/
theorem Log.logAt_foldl_lt (l : List (Word × Word)) (log : Log) {i : Nat} (hi : i < log.count) :
    (l.foldl Log.push log).logAt i = log.logAt i := by
  induction l generalizing log with
  | nil => rfl
  | cons e l ih =>
    rw [List.foldl_cons, ih _ (by simp only [Log.push]; omega)]
    exact Function.update_of_ne (by omega) _ _

/-- The new slots hold the new keys in order. -/
theorem Log.logAt_foldl_add (l : List (Word × Word)) (log : Log) {i : Nat} (hi : i < l.length) :
    (l.foldl Log.push log).logAt (log.count + i) = (l[i]).1 := by
  induction l generalizing log i with
  | nil => simp at hi
  | cons e l ih =>
    rw [List.foldl_cons]
    cases i with
    | zero =>
      rw [Log.logAt_foldl_lt l _ (by simp [Log.push])]
      simp [Log.push]
    | succ i =>
      have h := ih (log.push e) (i := i) (by simpa using hi)
      simp only [Log.push] at h
      rw [show log.count + (i + 1) = log.count + 1 + i by omega]
      simpa [Log.push] using h

/-- An entry whose key is not among the new ones keeps its value. -/
theorem Log.entry_foldl_of_not_mem (l : List (Word × Word)) (log : Log) {k : Word} (hk : k ∉ l.map Prod.fst) :
    (l.foldl Log.push log).entry k = log.entry k := by
  induction l generalizing log with
  | nil => rfl
  | cons e l ih =>
    simp only [List.map_cons, List.mem_cons, not_or] at hk
    rw [List.foldl_cons, ih _ hk.2]
    exact Function.update_of_ne hk.1 _ _

/-- With distinct keys every entry holds the value it was pushed with. -/
theorem Log.entry_foldl_of_mem {l : List (Word × Word)} (log : Log) (hnodup : (l.map Prod.fst).Nodup) {e : Word × Word}
    (he : e ∈ l) : (l.foldl Log.push log).entry e.1 = e.2 := by
  induction l generalizing log with
  | nil => simp at he
  | cons a l ih =>
    rw [List.map_cons, List.nodup_cons] at hnodup
    rw [List.foldl_cons]
    rcases List.mem_cons.1 he with rfl | he
    · rw [Log.entry_foldl_of_not_mem l _ hnodup.1]
      simp [Log.push]
    · exact ih _ hnodup.2 he

/-! ## Deltas -/

/-- What a step consumes and logs. -/
@[ext] structure Delta where
  nullifiers : List Word := []
  locks : List Word := []
  deposits : List Word := []
  burns : List Word := []
  positions : List Word := []
  consumed : List (Word × Word) := []
  crossOuts : List (Word × Word) := []

instance : Append Delta where
  append d e := ⟨d.nullifiers ++ e.nullifiers, d.locks ++ e.locks, d.deposits ++ e.deposits, d.burns ++ e.burns,
    d.positions ++ e.positions, d.consumed ++ e.consumed, d.crossOuts ++ e.crossOuts⟩

theorem Delta.append_def (d e : Delta) : d ++ e = ⟨d.nullifiers ++ e.nullifiers, d.locks ++ e.locks,
    d.deposits ++ e.deposits, d.burns ++ e.burns, d.positions ++ e.positions, d.consumed ++ e.consumed,
    d.crossOuts ++ e.crossOuts⟩ := rfl

theorem Delta.append_nil (d : Delta) : d ++ ({} : Delta) = d := by simp [Delta.append_def]

theorem Delta.nil_append (d : Delta) : ({} : Delta) ++ d = d := by simp [Delta.append_def]

/-- The list was unmarked, has no repeats, and is exactly what is marked in addition. -/
def Marks (m : Word → Bool) (l : List Word) (m' : Word → Bool) : Prop := Fresh m l ∧ m' = marked m l

theorem Marks.refl (m : Word → Bool) : Marks m [] m := ⟨fresh_nil m, (marked_nil m).symm⟩

theorem Marks.trans {m m' m'' : Word → Bool} {l l' : List Word} (h : Marks m l m') (h' : Marks m' l' m'') :
    Marks m (l ++ l') m'' := by
  obtain ⟨hf, rfl⟩ := h
  obtain ⟨hf', rfl⟩ := h'
  exact ⟨fresh_append.2 ⟨hf, hf'⟩, marked_marked m l l'⟩

/-- The deposits that are consumed. -/
def Storage.depositDone (s : Storage) : Word → Bool := fun id => s.depositStatus id = 2

structure Applied (s : Storage) (d : Delta) (t : Storage) : Prop where
  nullifiers : Marks s.nullifierSpent d.nullifiers t.nullifierSpent
  locks : Marks s.lockSpent d.locks t.lockSpent
  deposits : Marks s.depositDone d.deposits t.depositDone
  burns : Marks s.bridgeMinted d.burns t.bridgeMinted
  positions : Marks s.cdpPositionSpent d.positions t.cdpPositionSpent
  consumed : t.consumed = d.consumed.foldl Log.push s.consumed
  crossOuts : t.crossOuts = d.crossOuts.foldl Log.push s.crossOuts

theorem Applied.refl (s : Storage) : Applied s {} s :=
  ⟨.refl _, .refl _, .refl _, .refl _, .refl _, rfl, rfl⟩

theorem Applied.trans {s t u : Storage} {d e : Delta} (h : Applied s d t) (h' : Applied t e u) : Applied s (d ++ e) u where
  nullifiers := h.nullifiers.trans h'.nullifiers
  locks := h.locks.trans h'.locks
  deposits := h.deposits.trans h'.deposits
  burns := h.burns.trans h'.burns
  positions := h.positions.trans h'.positions
  consumed := by
    show _ = (d.consumed ++ e.consumed).foldl Log.push _
    rw [h'.consumed, h.consumed, List.foldl_append]
  crossOuts := by
    show _ = (d.crossOuts ++ e.crossOuts).foldl Log.push _
    rw [h'.crossOuts, h.crossOuts, List.foldl_append]

/-- A step that consumes and logs nothing. -/
def Inert (s t : Storage) : Prop := Applied s {} t

instance : IsPreorder Storage Inert where
  refl s := Applied.refl s
  trans s t u h h' := by
    have := h.trans h'
    rwa [Delta.append_nil] at this

/-- The seven slots of a delta are unchanged. -/
theorem inert_of_eq {s t : Storage} (h₁ : t.nullifierSpent = s.nullifierSpent) (h₂ : t.lockSpent = s.lockSpent)
    (h₃ : t.depositDone = s.depositDone) (h₄ : t.bridgeMinted = s.bridgeMinted)
    (h₅ : t.cdpPositionSpent = s.cdpPositionSpent) (h₆ : t.consumed = s.consumed) (h₇ : t.crossOuts = s.crossOuts) :
    Inert s t :=
  ⟨h₁ ▸ .refl _, h₂ ▸ .refl _, h₃ ▸ .refl _, h₄ ▸ .refl _, h₅ ▸ .refl _, h₆, h₇⟩

theorem blind_inert : Blind Inert where
  preorder := inferInstance
  pair _ _ _ _ _ _ _ := inert_of_eq rfl rfl rfl rfl rfl rfl rfl
  reflection _ _ := inert_of_eq rfl rfl rfl rfl rfl rfl rfl
  registry _ _ _ := inert_of_eq rfl rfl rfl rfl rfl rfl rfl
  release _ _ _ := inert_of_eq rfl rfl rfl rfl rfl rfl rfl
  shares _ _ := inert_of_eq rfl rfl rfl rfl rfl rfl rfl
  farms _ _ _ := inert_of_eq rfl rfl rfl rfl rfl rfl rfl
  positions _ _ _ := inert_of_eq rfl rfl rfl rfl rfl rfl rfl
  harvests _ _ := inert_of_eq rfl rfl rfl rfl rfl rfl rfl
  lockTree _ _ := inert_of_eq rfl rfl rfl rfl rfl rfl rfl
  evmCount _ _ := inert_of_eq rfl rfl rfl rfl rfl rfl rfl

/-! ## Programs and their deltas -/

/-- Every accepted run consumes and logs exactly `d`. -/
def Records {α : Type} (d : Delta) (m : Prog Storage PoolError α) : Prop := ∀ ⦃s a t⦄, m s = .ok a t → Applied s d t

variable {D : Deployment} {env : Env} {α β : Type} {m : Prog Storage PoolError α}

theorem Records.of_keeps (h : Keeps Inert m) : Records {} m := h

theorem Records.bind {d e : Delta} {k : α → Prog Storage PoolError β} (h : Records d m) (hk : ∀ a, Records e (k a)) :
    Records (d ++ e) (m >>= k) := by
  intro s b t hok
  obtain ⟨a, u, hm, hrest⟩ := bind_eq_ok.1 hok
  exact (h hm).trans (hk a hrest)

/-- A step that consumes nothing before one that does. -/
theorem Records.after {d : Delta} {k : α → Prog Storage PoolError β} (h : Keeps Inert m) (hk : ∀ a, Records d (k a)) :
    Records d (m >>= k) := by
  have := Records.bind (Records.of_keeps h) hk
  rwa [Delta.nil_append] at this

/-- A step that consumes nothing after one that does. -/
theorem Records.before {d : Delta} {k : α → Prog Storage PoolError β} (h : Records d m) (hk : ∀ a, Keeps Inert (k a)) :
    Records d (m >>= k) := by
  have := Records.bind h fun a => Records.of_keeps (hk a)
  rwa [Delta.append_nil] at this

/-- A loop whose every round consumes one word into the same slot. -/
theorem Records.forEach {ι : List Word → Delta} (h0 : ι [] = {}) (hcons : ∀ x l, ι (x :: l) = ι [x] ++ ι l)
    {f : β → Word} {m : β → Prog Storage PoolError Unit} (h : ∀ b, Records (ι [f b]) (m b)) (l : List β) :
    Records (ι (l.map f)) (forEach l m) := by
  induction l with
  | nil =>
    intro s u t hok
    obtain rfl := forEach_nil_eq_ok.1 hok
    rw [List.map_nil, h0]
    exact .refl t
  | cons b l ih =>
    intro s u t hok
    obtain ⟨v, hb, hl⟩ := forEach_cons_eq_ok.1 hok
    rw [List.map_cons, hcons]
    exact (h b hb).trans (ih hl)

theorem spendNullifier_records (n : Word) : Records { nullifiers := [n] } (spendNullifier n) := by
  intro s u t hok
  obtain ⟨m, hm, rfl⟩ := zoom_eq_ok.1 hok
  obtain ⟨hn, rfl⟩ := markOnce_eq_ok.1 hm
  exact ⟨⟨⟨by simp, by simpa using hn⟩, rfl⟩, .refl _, .refl _, .refl _, .refl _, rfl, rfl⟩

theorem spendLock_records (l : Word) : Records { locks := [l] } (spendLock l) := by
  intro s u t hok
  obtain ⟨m, hm, rfl⟩ := zoom_eq_ok.1 hok
  obtain ⟨hn, rfl⟩ := markOnce_eq_ok.1 hm
  exact ⟨.refl _, ⟨⟨by simp, by simpa using hn⟩, rfl⟩, .refl _, .refl _, .refl _, rfl, rfl⟩

theorem mintBurn_records (id : Word) : Records { burns := [id] } (mintBurn id) := by
  intro s u t hok
  obtain ⟨m, hm, rfl⟩ := zoom_eq_ok.1 hok
  obtain ⟨hn, rfl⟩ := markOnce_eq_ok.1 hm
  exact ⟨.refl _, .refl _, .refl _, ⟨⟨by simp, by simpa using hn⟩, rfl⟩, .refl _, rfl, rfl⟩

theorem spendCdpPosition_records (p : Word) : Records { positions := [p] } (spendCdpPosition p) := by
  intro s u t hok
  obtain ⟨m, hm, rfl⟩ := zoom_eq_ok.1 hok
  obtain ⟨hn, rfl⟩ := markOnce_eq_ok.1 hm
  exact ⟨.refl _, .refl _, .refl _, .refl _, ⟨⟨by simp, by simpa using hn⟩, rfl⟩, rfl, rfl⟩

/-- A pending deposit becomes a consumed one. -/
theorem consumeDeposit_records (id : Word) : Records { deposits := [id] } (consumeDeposit id) := by
  intro s u t hok
  simp only [consumeDeposit, bind_eq_ok, get_eq_ok, check_eq_ok, modify_eq_ok] at hok
  obtain ⟨_, _, ⟨rfl, rfl⟩, _, s₀, ⟨hpending, rfl⟩, rfl⟩ := hok
  have h1 : s₀.depositStatus id = 1 := not_not.1 hpending
  refine ⟨.refl _, .refl _, ⟨⟨by simp, ?_⟩, ?_⟩, .refl _, .refl _, rfl, rfl⟩
  · simp [Storage.depositDone, h1]
  · funext x
    by_cases hx : x = id
    · simp [Storage.depositDone, marked, hx]
    · simp [Storage.depositDone, marked, hx]

/-- A new deposit is not a consumed one. -/
theorem registerDeposit_inert (id : Word) : Keeps Inert (registerDeposit id) := by
  intro s u t hok
  simp only [registerDeposit, bind_eq_ok, get_eq_ok, check_eq_ok, modify_eq_ok] at hok
  obtain ⟨_, _, ⟨rfl, rfl⟩, _, s₀, ⟨hnew, rfl⟩, rfl⟩ := hok
  have h0 : s₀.depositStatus id = 0 := not_not.1 hnew
  refine inert_of_eq rfl rfl ?_ rfl rfl rfl rfl
  funext x
  by_cases hx : x = id
  · simp [Storage.depositDone, hx, h0]
  · simp [Storage.depositDone, hx]

theorem deaf_inert : Deaf Inert where
  toBlind := blind_inert
  escrow _ _ := inert_of_eq rfl rfl rfl rfl rfl rfl rfl
  deposit := registerDeposit_inert
  pools _ _ := inert_of_eq rfl rfl rfl rfl rfl rfl rfl
  cbtc _ _ := inert_of_eq rfl rfl rfl rfl rfl rfl rfl
  lineage _ _ _ _ _ _ := inert_of_eq rfl rfl rfl rfl rfl rfl rfl

/-! ## The sections of a batch -/

theorem consumeBitcoin_records (pv : PublicValues) :
    Records { consumed := pv.consumption D.keccak } (consumeBitcoin D pv) := by
  intro s u t hok
  simp only [consumeBitcoin, onlyIf_eq_ok, bind_eq_ok, get_eq_ok, check_eq_ok, orThrow_eq_ok, modify_eq_ok] at hok
  obtain ⟨-, _, _, ⟨-, rfl⟩, _, _, ⟨rfl, rfl⟩, _, _, ⟨-, rfl⟩, rfl⟩ | ⟨hnone, rfl⟩ := hok
  · exact ⟨.refl _, .refl _, .refl _, .refl _, .refl _, rfl, rfl⟩
  · have hnil : pv.consumption D.keccak = [] := by
      simp [PublicValues.consumption, not_not.1 hnone]
    rw [hnil]
    exact .refl _

theorem spendSection_records (pv : PublicValues) :
    Records { nullifiers := pv.nullifiers, locks := pv.lockNullifiers } (spendSection D pv) := by
  have hn := Records.forEach (ι := fun l => { nullifiers := l }) rfl (fun _ _ => rfl) spendNullifier_records pv.nullifiers
  have hl := Records.forEach (ι := fun l => { locks := l }) rfl (fun _ _ => rfl) spendLock_records pv.lockNullifiers
  simp only [List.map_id'] at hn hl
  have h : Records _ (spendSection D pv) :=
    .bind hn fun _ => .before hl fun _ => .zoom fun s t => blind_inert.lockTree s t
  simpa [Delta.append_def] using h

/-- The positions a batch spends, in order. -/
def PublicValues.positions (pv : PublicValues) : List Word :=
  pv.cdpTopups.map CdpTopup.oldPositionNullifier ++
    (pv.cdpCloses.map CdpClose.positionNullifier ++ pv.cdpLiquidations.map CdpClose.positionNullifier)

theorem cdpSection_records (pv : PublicValues) : Records { positions := pv.positions } (cdpSection D env pv) := by
  have htopup : ∀ t : CdpTopup, Records { positions := [t.oldPositionNullifier] } (cdpTopup D env t) := fun t =>
    .after .check fun _ => .after .check fun _ => .before (spendCdpPosition_records _) fun _ =>
      .bind blind_inert.insertCdpPositionLeaf fun _ => blind_inert.callOut _
  have hclose : ∀ c : CdpClose, Records { positions := [c.positionNullifier] } (cdpClose D env c) := fun c =>
    .after .check fun _ => .before (spendCdpPosition_records _) fun _ => blind_inert.callOut _
  have hliquidate : ∀ q : CdpClose, Records { positions := [q.positionNullifier] } (cdpLiquidate D env q) := fun q =>
    .after .check fun _ => .before (spendCdpPosition_records _) fun _ => blind_inert.callOut _
  have hcons : ∀ (x : Word) (l : List Word),
      ({ positions := x :: l } : Delta) = { positions := [x] } ++ { positions := l } := fun _ _ => rfl
  have hsplit : ({ positions := pv.positions } : Delta) =
      { positions := pv.cdpTopups.map CdpTopup.oldPositionNullifier } ++
        ({ positions := pv.cdpCloses.map CdpClose.positionNullifier } ++
          { positions := pv.cdpLiquidations.map CdpClose.positionNullifier }) := rfl
  rw [hsplit]
  refine .after .get fun _ => .after .ofExcept fun _ => .after blind_inert.cdpMints fun _ => .after .check fun _ => ?_
  refine .after (.onlyIf blind_inert.markCdpRoot) fun _ => ?_
  refine .bind (.forEach (ι := fun l => { positions := l }) rfl hcons htopup _) fun _ => ?_
  refine .after (.onlyIf blind_inert.markCdpRoot) fun _ => ?_
  exact .bind (.forEach (ι := fun l => { positions := l }) rfl hcons hclose _) fun _ =>
    .forEach (ι := fun l => { positions := l }) rfl hcons hliquidate _

theorem mintBurns_records (nullifiers : List Word) : ∀ (seen : List Word) (l : List (Word × Word)),
    Records { burns := l.map Prod.snd } (mintBurns nullifiers seen l)
  | _, [] => Records.of_keeps .pure
  | seen, (n, id) :: l => .after .check fun _ => .after .check fun _ =>
      .bind (mintBurn_records id) fun _ => mintBurns_records nullifiers (seen ++ [n]) l

theorem bridgeSection_records (pv : PublicValues) :
    Records { burns := pv.bitcoinBurnIdsConsumed } (bridgeSection pv) := by
  intro s u t hok
  obtain ⟨_, _, h₀, hrest⟩ := bind_eq_ok.1 hok
  obtain ⟨-, rfl⟩ := check_eq_ok.1 h₀
  obtain ⟨_, _, h₁, hmint⟩ := bind_eq_ok.1 hrest
  obtain ⟨hlen, rfl⟩ := check_eq_ok.1 h₁
  have hids : (pv.bitcoinBurnsConsumed.zip pv.bitcoinBurnIdsConsumed).map Prod.snd = pv.bitcoinBurnIdsConsumed :=
    List.map_snd_zip (by omega)
  have h := mintBurns_records pv.nullifiers [] (pv.bitcoinBurnsConsumed.zip pv.bitcoinBurnIdsConsumed)
  rw [hids] at h
  exact Records.before h (fun _ => .bind .get fun _ => .check) hmint

theorem leafSection_inert (pv : PublicValues) : Keeps Inert (leafSection D pv) :=
  .bind (.zoom fun _ _ => inert_of_eq rfl rfl rfl rfl rfl rfl rfl) fun _ => .bind .get fun _ => .check

/-! ## The batch as a whole -/

/-- What a batch consumes and logs. -/
def PublicValues.delta (K : Keccak) (btcHomed : Bool) (pv : PublicValues) : Delta where
  nullifiers := pv.nullifiers
  locks := pv.lockNullifiers
  deposits := pv.depositsConsumed
  burns := pv.bitcoinBurnIdsConsumed
  positions := pv.positions
  consumed := if btcHomed then pv.consumption K else []
  crossOuts := pv.crossOuts.map fun c => (c.claimId, c.destCommitment)

/-- What acceptance says of a batch's log entries: the cross-outs are the claims of distinct nullifiers that the
batch spends, and a Bitcoin-homed batch has a source for each nullifier. -/
structure PublicValues.Valid (K : Keccak) (btcHomed : Bool) (pv : PublicValues) : Prop where
  claim : ∀ c ∈ pv.crossOuts, c.claim K = c.claimId
  nullified : ∀ c ∈ pv.crossOuts, c.nullifier ∈ pv.nullifiers
  nodup : (pv.crossOuts.map CrossOut.nullifier).Nodup
  sources : btcHomed = true → (pv.consumption K).map Prod.fst = pv.nullifiers

theorem recordCrossOuts_ok (pv : PublicValues) : ∀ {seen : List Word} {l : List CrossOut} {s t : Storage} {u : Unit},
    recordCrossOuts D pv seen l s = .ok u t →
    Applied s { crossOuts := l.map fun c => (c.claimId, c.destCommitment) } t ∧
      (∀ c ∈ l, c.claim D.keccak = c.claimId ∧ c.nullifier ∈ pv.nullifiers ∧ c.nullifier ∉ seen) ∧
      (l.map CrossOut.nullifier).Nodup
  | seen, [], s, t, u, hok => by
    obtain ⟨-, rfl⟩ := pure_eq_ok.1 hok
    exact ⟨.refl _, by simp, by simp⟩
  | seen, c :: l, s, t, u, hok => by
    simp only [recordCrossOuts, bind_eq_ok, check_eq_ok, modify_eq_ok] at hok
    obtain ⟨_, _, ⟨hclaim, rfl⟩, _, _, ⟨-, rfl⟩, _, _, ⟨hspent, rfl⟩, _, _, ⟨hseen, rfl⟩, _, s₀, ⟨-, rfl⟩, _, _, rfl, hrest⟩ :=
      hok
    obtain ⟨happlied, hl, hnodup⟩ := recordCrossOuts_ok pv hrest
    have hpush : Applied s₀ { crossOuts := [(c.claimId, c.destCommitment)] }
        { s₀ with crossOuts := s₀.crossOuts.push (c.claimId, c.destCommitment) } :=
      ⟨.refl _, .refl _, .refl _, .refl _, .refl _, rfl, rfl⟩
    refine ⟨hpush.trans happlied, ?_, ?_⟩
    · intro e he
      rcases List.mem_cons.1 he with rfl | he
      · exact ⟨not_not.1 hclaim, not_not.1 hspent, hseen⟩
      · obtain ⟨h₁, h₂, h₃⟩ := hl e he
        exact ⟨h₁, h₂, fun h => h₃ (by simp [h])⟩
    · rw [List.map_cons, List.nodup_cons]
      refine ⟨?_, hnodup⟩
      intro hmem
      obtain ⟨e, he, heq⟩ := List.mem_map.1 hmem
      exact (hl e he).2.2 (by simp [heq])

theorem consumeBitcoin_sources {pv : PublicValues} {s t : Storage} {u : Unit} (hok : consumeBitcoin D pv s = .ok u t) :
    (pv.consumption D.keccak).map Prod.fst = pv.nullifiers := by
  simp only [consumeBitcoin, onlyIf_eq_ok, bind_eq_ok, get_eq_ok, check_eq_ok, orThrow_eq_ok, modify_eq_ok] at hok
  have hmap : (pv.consumption D.keccak).map Prod.fst = (pv.nullifiers.zip pv.bitcoinConsumedSources).map Prod.fst := by
    simp [PublicValues.consumption]
  rw [hmap]
  obtain ⟨-, _, _, ⟨hlen, -⟩, -⟩ | ⟨hnone, -⟩ := hok
  · exact List.map_fst_zip (by omega)
  · rw [not_not.1 hnone]
    rfl

theorem settleChecks_homeOf {pv : PublicValues} {s : Storage} {b : Bool} (h : settleChecks D env pv s = .ok b) :
    homeOf pv.spendRoot s = .ok b := by
  simp only [settleChecks, except_bind_eq_ok, refuse_eq_ok, except_pure_eq_ok] at h
  obtain ⟨-, -, -, -, -, -, -, -, -, -, b', hhome, -, -, -, -, rfl⟩ := h
  exact hhome

theorem homeSection_applied {pv : PublicValues} {b : Bool} {s₀ s t : Storage} {u : Unit}
    (hok : homeSection D pv s₀ b s = .ok u t) :
    Applied s { consumed := if b then pv.consumption D.keccak else [] } t ∧
      (b = true → (pv.consumption D.keccak).map Prod.fst = pv.nullifiers) := by
  obtain ⟨rfl, hok⟩ | ⟨hb, rfl⟩ := onlyIf_eq_ok.1 hok
  · obtain ⟨_, _, h₀, hconsume⟩ := bind_eq_ok.1 hok
    obtain ⟨-, rfl⟩ := ofExcept_eq_ok.1 h₀
    exact ⟨consumeBitcoin_records pv hconsume, fun _ => consumeBitcoin_sources hconsume⟩
  · rw [if_neg hb]
    exact ⟨.refl _, fun h => absurd h hb⟩

/-- **An accepted batch** consumes what it names, all of it unspent and without repeats, and logs what it
names. -/
theorem settle_applied {pv : PublicValues} {memos : List Bytes} {s t : Storage} {u : Unit}
    (hok : settle D env pv memos s = .ok u t) :
    ∃ b, homeOf pv.spendRoot s = .ok b ∧ Applied s (pv.delta D.keccak b) t ∧ pv.Valid D.keccak b := by
  obtain ⟨b, s₁, s₂, s₃, s₄, s₅, s₆, s₇, s₈, s₉, s₁₀, h⟩ := settle_sections hok
  obtain ⟨hconsumed, hsources⟩ := homeSection_applied h.home
  obtain ⟨hcross, hclaims, hnodup⟩ := recordCrossOuts_ok pv h.crossOuts
  have hdeposits := Records.forEach (ι := fun l => { deposits := l }) rfl (fun _ _ => rfl) consumeDeposit_records
    pv.depositsConsumed h.deposits
  rw [List.map_id'] at hdeposits
  have hspent := (hconsumed.trans (spendSection_records pv h.spend)).trans (cdpSection_records pv h.cdp)
  have hcounted := (hspent.trans (deaf_inert.cbtcSection pv h.cbtc)).trans (blind_inert.countNullifiers h.counts)
  have hbridged := ((hcounted.trans hdeposits).trans (bridgeSection_records pv h.bridge)).trans
    (leafSection_inert pv h.leaf)
  have hall := ((hbridged.trans (blind_inert.payoutSection h.payouts)).trans hcross).trans
    (deaf_inert.reserveSection pv h.reserves)
  refine ⟨b, settleChecks_homeOf h.checks, ?_, ?_⟩
  · simpa [Delta.append_def, PublicValues.delta] using hall
  · exact ⟨fun c hc => (hclaims c hc).1, fun c hc => (hclaims c hc).2.1, hnodup, hsources⟩

/-! ## Histories -/

/-- Whether a batch is Bitcoin-homed. -/
def homed (s : Storage) (pv : PublicValues) : Bool :=
  match homeOf pv.spendRoot s with
  | .ok b => b
  | .error _ => false

theorem homed_eq {s : Storage} {pv : PublicValues} {b : Bool} (h : homeOf pv.spendRoot s = .ok b) : homed s pv = b := by
  simp [homed, h]

/-- Creating a pair does not change whose note trees are known. -/
theorem homeOf_ensurePair {assetA assetB : Word} {feeBps : Nat} {s t : Storage} {id : Word}
    (hok : ensurePair D assetA assetB feeBps 0 0 0 false s = .ok id t) (root : Word) : homeOf root t = homeOf root s := by
  simp only [ensurePair, bind_eq_ok, get_eq_ok, check_eq_ok, ite_eq_ok, pure_eq_ok, modify_eq_ok] at hok
  obtain ⟨_, _, ⟨rfl, rfl⟩, _, _, ⟨-, rfl⟩, _, _, ⟨-, rfl⟩, _, _, ⟨-, rfl⟩,
    ⟨-, _, _, ⟨-, rfl⟩, -, rfl⟩ | ⟨-, _, _, rfl, -, rfl⟩⟩ := hok
  · rfl
  · rfl

/-- What an accepted call consumes and logs. -/
def Call.delta (D : Deployment) (s : Storage) (c : Call) : Delta :=
  match c.batch with
  | some pv => pv.delta D.keccak (homed s pv)
  | none => {}

theorem call_applied {c : Call} {s t : Storage} (hok : c.prog D env s = .ok () t) :
    Applied s (c.delta D s) t ∧ ∀ pv, c.batch = some pv → pv.Valid D.keccak (homed s pv) := by
  cases hc : c.batch with
  | none =>
    rw [Call.delta, hc]
    exact ⟨deaf_inert.call hc hok, by simp⟩
  | some pv =>
    rw [Call.delta, hc]
    have hbatch : ∃ b, homeOf pv.spendRoot s = .ok b ∧ Applied s (pv.delta D.keccak b) t ∧ pv.Valid D.keccak b := by
      cases c with
      | settle pv' memos =>
        cases hc
        exact settle_applied hok
      | createPairAndSettle assetA assetB feeBps pv' memos =>
        cases hc
        obtain ⟨id, u, hpair, hsettle⟩ := bind_eq_ok.1 hok
        obtain ⟨b, hhome, happlied, hvalid⟩ := settle_applied hsettle
        rw [homeOf_ensurePair hpair] at hhome
        have h := (blind_inert.ensurePair hpair).trans happlied
        rw [Delta.nil_append] at h
        exact ⟨b, hhome, h, hvalid⟩
      | _ => cases hc
    obtain ⟨b, hhome, happlied, hvalid⟩ := hbatch
    rw [← homed_eq hhome] at happlied hvalid
    exact ⟨happlied, fun pv' h => by cases h; exact hvalid⟩

/-- The accepted batches of a history, each with its home. -/
def batches (D : Deployment) : Storage → List (Env × Call) → List (Bool × PublicValues)
  | _, [] => []
  | s, c :: calls =>
    (if (c.2.prog D c.1).accepts s then (c.2.batch.map fun pv => (homed s pv, pv)).toList else []) ++
      batches D ((c.2.prog D c.1).call s) calls

/-- What a list of batches consumes and logs. -/
def total (K : Keccak) (B : List (Bool × PublicValues)) : Delta where
  nullifiers := B.flatMap fun b => b.2.nullifiers
  locks := B.flatMap fun b => b.2.lockNullifiers
  deposits := B.flatMap fun b => b.2.depositsConsumed
  burns := B.flatMap fun b => b.2.bitcoinBurnIdsConsumed
  positions := B.flatMap fun b => b.2.positions
  consumed := B.flatMap fun b => (b.2.delta K b.1).consumed
  crossOuts := B.flatMap fun b => (b.2.delta K b.1).crossOuts

theorem total_append (K : Keccak) (B B' : List (Bool × PublicValues)) : total K (B ++ B') = total K B ++ total K B' := by
  simp [total, Delta.append_def]

theorem batches_append (s : Storage) (calls more : List (Env × Call)) :
    batches D s (calls ++ more) = batches D s calls ++ batches D (run D s calls) more := by
  induction calls generalizing s with
  | nil => rfl
  | cons c calls ih =>
    rw [List.cons_append, batches, batches, ih, List.append_assoc]
    rfl

/-- **A history consumes and logs what its accepted batches name**, in their order. -/
theorem run_applied (s : Storage) (calls : List (Env × Call)) :
    Applied s (total D.keccak (batches D s calls)) (run D s calls) ∧
      ∀ b ∈ batches D s calls, b.2.Valid D.keccak b.1 := by
  induction calls generalizing s with
  | nil => exact ⟨.refl s, by simp [batches]⟩
  | cons c calls ih =>
    obtain ⟨happlied, hvalid⟩ := ih ((c.2.prog D c.1).call s)
    have hfirst : Applied s (total D.keccak (if (c.2.prog D c.1).accepts s then
          (c.2.batch.map fun pv => (homed s pv, pv)).toList else [])) ((c.2.prog D c.1).call s) ∧
        ∀ b ∈ (if (c.2.prog D c.1).accepts s then (c.2.batch.map fun pv => (homed s pv, pv)).toList else []),
          b.2.Valid D.keccak b.1 := by
      by_cases hacc : (c.2.prog D c.1).accepts s = true
      · rw [if_pos hacc]
        obtain ⟨_, hok⟩ := ok_of_accepts hacc
        obtain ⟨h, hv⟩ := call_applied hok
        cases hb : c.2.batch with
        | none =>
          rw [Call.delta, hb] at h
          exact ⟨h, by simp⟩
        | some pv =>
          rw [Call.delta, hb] at h
          refine ⟨?_, ?_⟩
          · simpa [total, PublicValues.delta] using h
          · simpa using hv pv hb
      · rw [if_neg hacc]
        refine ⟨?_, by simp⟩
        rcases call_cases (c.2.prog D c.1) s with hsame | ⟨a, hok⟩
        · rw [hsame]
          exact .refl s
        · exact absurd (by simp [accepts, hok]) hacc
    rw [batches, total_append]
    refine ⟨hfirst.1.trans happlied, ?_⟩
    intro b hb
    rcases List.mem_append.1 hb with hb | hb
    · exact hfirst.2 b hb
    · exact hvalid b hb

/-! ## Spend once -/

/-- The list has no repeats and is what the mapping marks. -/
def Once (m : Word → Bool) (l : List Word) : Prop := l.Nodup ∧ ∀ x, m x = true ↔ x ∈ l

/-- The log is the list, in order and without repeats. -/
structure Log.Holds (log : Log) (l : List Word) : Prop where
  count_eq : log.count = l.length
  at_eq : ∀ (i : Nat) (h : i < l.length), log.logAt i = l[i]
  nodup : l.Nodup

/-- The later log keeps the slots of the earlier one and the entries of its keys. -/
structure Log.Extends (log later : Log) : Prop where
  count_le : log.count ≤ later.count
  slot : ∀ i < log.count, later.logAt i = log.logAt i
  entry : ∀ i < log.count, later.entry (log.logAt i) = log.entry (log.logAt i)

/-- What the batches `B` left in the storage `t`. -/
structure SpentOnce (B : List (Bool × PublicValues)) (t : Storage) : Prop where
  nullifiers : Once t.nullifierSpent (B.flatMap fun b => b.2.nullifiers)
  locks : Once t.lockSpent (B.flatMap fun b => b.2.lockNullifiers)
  deposits : Once t.depositDone (B.flatMap fun b => b.2.depositsConsumed)
  burns : Once t.bridgeMinted (B.flatMap fun b => b.2.bitcoinBurnIdsConsumed)
  positions : Once t.cdpPositionSpent (B.flatMap fun b => b.2.positions)
  consumed : t.consumed.Holds ((B.filter fun b => b.1).flatMap fun b => b.2.nullifiers)
  crossOuts : t.crossOuts.Holds (B.flatMap fun b => b.2.crossOuts.map CrossOut.claimId)

theorem Marks.once {l : List Word} {m : Word → Bool} (h : Marks (fun _ => false) l m) : Once m l := by
  obtain ⟨⟨hnodup, -⟩, rfl⟩ := h
  refine ⟨hnodup, fun x => ?_⟩
  simp [marked]

/-- A log that began empty is the list of the keys pushed on it. -/
theorem Log.holds_foldl {l : List (Word × Word)} (hnodup : (l.map Prod.fst).Nodup) {log : Log} (h0 : log.count = 0) :
    (l.foldl Log.push log).Holds (l.map Prod.fst) where
  count_eq := by rw [Log.count_foldl, h0, List.length_map, Nat.zero_add]
  at_eq i hi := by
    rw [List.length_map] at hi
    have h := Log.logAt_foldl_add l log hi
    rw [h0, Nat.zero_add] at h
    rw [h, List.getElem_map]
  nodup := hnodup

/-- The keys of the consumption log are the nullifiers of the Bitcoin-homed batches. -/
theorem consumed_keys {K : Keccak} {B : List (Bool × PublicValues)} (hB : ∀ b ∈ B, b.2.Valid K b.1) :
    (total K B).consumed.map Prod.fst = (B.filter fun b => b.1).flatMap fun b => b.2.nullifiers := by
  show (B.flatMap fun b => (b.2.delta K b.1).consumed).map Prod.fst = _
  induction B with
  | nil => rfl
  | cons b B ih =>
    have ih := ih fun b hb => hB b (by simp [hb])
    rw [List.flatMap_cons, List.map_append, ih]
    cases hb : b.1 with
    | false => simp [PublicValues.delta, hb]
    | true =>
      have hsources := (hB b (by simp)).sources hb
      simp [PublicValues.delta, hb, hsources]

theorem crossOut_keys {K : Keccak} (B : List (Bool × PublicValues)) :
    (total K B).crossOuts.map Prod.fst = B.flatMap fun b => b.2.crossOuts.map CrossOut.claimId := by
  show (B.flatMap fun b => (b.2.delta K b.1).crossOuts).map Prod.fst = _
  simp [List.map_flatMap, PublicValues.delta, Function.comp_def]

/-- A claim id determines the nullifier. -/
theorem CrossOut.nullifier_eq {K : Keccak} (hK : K.Ideal) {c c' : CrossOut} (h : c.claim K = c'.claim K) :
    c.nullifier = c'.nullifier := by
  have := hK.kn_inj (by simp [c.destCommitment.len, c.nullifier.len, c.assetId.len, c'.destCommitment.len,
    c'.nullifier.len, c'.assetId.len]) h
  simp only [List.cons.injEq] at this
  exact Word.ext this.2.2.1

/-- The nullifiers of the cross-outs of batches without a common nullifier are distinct. -/
theorem crossOut_nullifiers_nodup {K : Keccak} {B : List (Bool × PublicValues)} (hB : ∀ b ∈ B, b.2.Valid K b.1)
    (hnodup : (B.flatMap fun b => b.2.nullifiers).Nodup) :
    ((B.flatMap fun b => b.2.crossOuts).map CrossOut.nullifier).Nodup := by
  rw [List.map_flatMap, List.nodup_flatMap]
  rw [List.nodup_flatMap] at hnodup
  refine ⟨fun b hb => (hB b hb).nodup, ?_⟩
  refine hnodup.2.imp_of_mem fun {a b} ha hb hdisj x hxa hxb => ?_
  obtain ⟨c, hc, rfl⟩ := List.mem_map.1 hxa
  obtain ⟨c', hc', heq⟩ := List.mem_map.1 hxb
  exact hdisj ((hB a ha).nullified c hc) (heq ▸ (hB b hb).nullified c' hc')

/-- The claim ids are distinct. -/
theorem claims_nodup {K : Keccak} (hK : K.Ideal) {B : List (Bool × PublicValues)} (hB : ∀ b ∈ B, b.2.Valid K b.1)
    (hnodup : (B.flatMap fun b => b.2.nullifiers).Nodup) :
    (B.flatMap fun b => b.2.crossOuts.map CrossOut.claimId).Nodup := by
  have hnull := crossOut_nullifiers_nodup hB hnodup
  have hclaim : ∀ c ∈ B.flatMap fun b => b.2.crossOuts, c.claim K = c.claimId := by
    intro c hc
    obtain ⟨b, hb, hc⟩ := List.mem_flatMap.1 hc
    exact (hB b hb).claim c hc
  rw [← List.map_flatMap]
  refine List.Nodup.map_on ?_ hnull.of_map
  intro c hc c' hc' heq
  refine List.inj_on_of_nodup_map hnull hc hc' (CrossOut.nullifier_eq hK ?_)
  rw [hclaim c hc, hclaim c' hc', heq]

/-- Nothing is spent and nothing is logged in a deployed pool. -/
theorem Deployed.unspent {s : Storage} (hs : Deployed D s) :
    s.nullifierSpent = (fun _ => false) ∧ s.lockSpent = (fun _ => false) ∧ s.depositDone = (fun _ => false) ∧
      s.bridgeMinted = (fun _ => false) ∧ s.cdpPositionSpent = (fun _ => false) ∧ s.consumed.count = 0 ∧
      s.crossOuts.count = 0 := by
  obtain ⟨digest, last, h⟩ := hs.blind blind_inert
  refine ⟨?_, ?_, ?_, ?_, ?_, ?_, ?_⟩
  · exact h.nullifiers.2.trans (marked_nil _)
  · exact h.locks.2.trans (marked_nil _)
  · exact h.deposits.2.trans (marked_nil _)
  · exact h.burns.2.trans (marked_nil _)
  · exact h.positions.2.trans (marked_nil _)
  · rw [h.consumed]
    rfl
  · rw [h.crossOuts]
    rfl

theorem run_spentOnce (hK : D.keccak.Ideal) {s₀ : Storage} (h₀ : Deployed D s₀) (calls : List (Env × Call)) :
    SpentOnce (batches D s₀ calls) (run D s₀ calls) := by
  obtain ⟨hn, hl, hd, hb, hp, hc, hx⟩ := h₀.unspent
  obtain ⟨h, hvalid⟩ := run_applied (D := D) s₀ calls
  have hnull : Once _ _ := (hn ▸ h.nullifiers).once
  have hconsumed : ((batches D s₀ calls).filter fun b => b.1).flatMap (fun b => b.2.nullifiers) |>.Nodup :=
    ((List.filter_sublist).flatMap _).nodup hnull.1
  refine ⟨hnull, (hl ▸ h.locks).once, (hd ▸ h.deposits).once, (hb ▸ h.burns).once, (hp ▸ h.positions).once, ?_, ?_⟩
  · rw [h.consumed, ← consumed_keys hvalid]
    rw [← consumed_keys hvalid] at hconsumed
    exact Log.holds_foldl hconsumed hc
  · rw [h.crossOuts, ← crossOut_keys (K := D.keccak)]
    refine Log.holds_foldl ?_ hx
    rw [crossOut_keys]
    exact claims_nodup hK hvalid hnull.1

/-- Pushing keys that are new keeps every slot and entry there was. -/
theorem Log.Holds.extends_foldl {log : Log} {l : List Word} (h : log.Holds l) {more : List (Word × Word)}
    (hnodup : (l ++ more.map Prod.fst).Nodup) : log.Extends (more.foldl Log.push log) where
  count_le := by
    rw [Log.count_foldl]
    omega
  slot i hi := Log.logAt_foldl_lt more log hi
  entry i hi := by
    refine Log.entry_foldl_of_not_mem more log ?_
    rw [h.count_eq] at hi
    rw [h.at_eq i hi]
    exact fun hmem => (List.nodup_append.1 hnodup).2.2 _ (List.getElem_mem hi) _ hmem rfl

/-- **Spend once.** After any calls from a deployment, what the accepted batches consumed (nullifiers, locks,
deposits, bridge burns, positions) has no repeats and is what is marked; the consumption log is the list of the
nullifiers of the Bitcoin-homed batches and the cross-out log that of the claim ids, both without repeats; and
whatever is called afterwards, both logs are only appended to and no entry of a logged key changes. -/
theorem settle_spend_once (hK : D.keccak.Ideal) {s₀ : Storage} (h₀ : Deployed D s₀) (calls more : List (Env × Call)) :
    SpentOnce (batches D s₀ calls) (run D s₀ calls) ∧
    (run D s₀ calls).consumed.Extends (run D s₀ (calls ++ more)).consumed ∧
    (run D s₀ calls).crossOuts.Extends (run D s₀ (calls ++ more)).crossOuts := by
  have hspent := run_spentOnce hK h₀ calls
  have hlater := run_spentOnce hK h₀ (calls ++ more)
  obtain ⟨h, hvalid⟩ := run_applied (D := D) (run D s₀ calls) more
  have hrun : run D s₀ (calls ++ more) = run D (run D s₀ calls) more := by
    rw [run, run, run, List.foldl_append]
  rw [batches_append, hrun] at hlater
  rw [hrun]
  refine ⟨hspent, ?_, ?_⟩
  · rw [h.consumed]
    refine hspent.consumed.extends_foldl ?_
    have := hlater.consumed.nodup
    rwa [List.filter_append, List.flatMap_append, ← consumed_keys hvalid] at this
  · rw [h.crossOuts]
    refine hspent.crossOuts.extends_foldl ?_
    have := hlater.crossOuts.nodup
    rwa [List.flatMap_append, ← crossOut_keys (K := D.keccak) (batches D (run D s₀ calls) more)] at this

/-! One batch that spends one note and makes one. -/

def demoSpend (K : Keccak) : PublicValues :=
  { PublicValues.none (demoDeployment K).chainBinding with
    spendRoot := (Tree.empty K).currentRoot
    nullifiers := [wordOfNat 9]
    leaves := [wordOfNat 3]
    memoRoot := memoChain K [[]] }

theorem demoSpend_accepts {K : Keccak} (hK : K.Ideal) :
    ((Call.settle (demoSpend K) [[]]).prog (demoDeployment K) demoEnv).accepts (Storage.blank K 0 0) = true := by
  have hroot : Merkle.zeros K.k2 0 treeLevels ≠ 0 := hK.nonzero _
  have hslot : 0 < 2 ^ treeLevels := Nat.two_pow_pos _
  have hok : ∃ t, settle (demoDeployment K) demoEnv (demoSpend K) [[]] (Storage.blank K 0 0) = .ok () t := by
    simp [settle, settleChecks, homeOf, demoSpend, PublicValues.none, retirementGate, rootChecks, spendSection,
      spendNullifier, insertLeaves, cdpSection, cdpRootCheck, cdpMints, cbtcSection, countNullifiers, bridgeSection,
      mintBurns, leafSection, appendLeaves, insertTreeLeaf, markRoot, payoutSection, recordCrossOuts, demoEnv,
      demoDeployment, Storage.blank, markOnce_eq_ok, Tree.empty, hroot, hslot]
  obtain ⟨t, hok⟩ := hok
  simp [Call.prog, accepts, hok]

/-- The note is spent, once. -/
theorem settle_spend_once_one_batch :
    (run (demoDeployment codeKeccak) (Storage.blank codeKeccak 0 0)
      [(demoEnv, .settle (demoSpend codeKeccak) [[]])]).nullifierSpent (wordOfNat 9) = true ∧
    SpentOnce (batches (demoDeployment codeKeccak) (Storage.blank codeKeccak 0 0)
        [(demoEnv, .settle (demoSpend codeKeccak) [[]])])
      (run (demoDeployment codeKeccak) (Storage.blank codeKeccak 0 0)
        [(demoEnv, .settle (demoSpend codeKeccak) [[]])]) := by
  have h := (settle_spend_once (D := demoDeployment codeKeccak) codeKeccak_ideal (demo_deployed codeKeccak)
    [(demoEnv, .settle (demoSpend codeKeccak) [[]])] []).1
  refine ⟨?_, h⟩
  rw [h.nullifiers.2]
  simp only [batches, demoSpend_accepts codeKeccak_ideal, if_true]
  simp [Call.batch, demoSpend]

end ConfidentialPool

end Tacit
