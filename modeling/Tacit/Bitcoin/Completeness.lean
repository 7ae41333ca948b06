import Tacit.Bitcoin.Block
/-!
# A header determines the block's body

Two transaction lists under one Merkle root are the same list or one is a level of the other's tree. Then the coinbase of
the shorter is a node: two digests, the first of which would hold the null outpoint's zeros. So the lists agree on what the
root commits to, and where the coinbase commits to the witnesses, on those too.
-/
namespace Tacit

namespace Bitcoin

variable {tx stripped : Bytes} {dsha256 : Bytes → Word}

theorem checkedAdd_eq_some {a b c : Nat} : checkedAdd a b = some c ↔ a + b < 2 ^ 32 ∧ c = a + b := by
  unfold checkedAdd
  split
  · simp_all [eq_comm]
  · simp_all

/-! ## Reading -/

theorem take_cons_eq {first k : Nat} {rest l : Bytes} (h : l.take (k + 1) = (first :: rest).take (k + 1))
    (hlen : k ≤ rest.length) : ∃ rest', l = first :: rest' ∧ rest'.take k = rest.take k ∧ k ≤ rest'.length := by
  cases l with
  | nil => simp at h
  | cons first' rest' =>
    simp only [List.take_succ_cons, List.cons.injEq] at h
    obtain ⟨rfl, htake⟩ := h
    have := congrArg List.length htake
    rw [List.length_take, List.length_take] at this
    exact ⟨rest', rfl, htake, by omega⟩

/-- A varint is read off its own bytes. -/
theorem varint_spec {l : Bytes} {v n : Nat} (h : varint l = some (v, n)) :
    n ≤ l.length ∧ 0 < n ∧ n ≤ 9 ∧ ∀ l', l'.take n = l.take n → varint l' = some (v, n) := by
  cases l with
  | nil => cases h
  | cons first rest =>
    rw [varint] at h
    by_cases h₁ : first < 0xfd
    · rw [if_pos h₁] at h
      cases h
      refine ⟨by simp, by decide, by decide, fun l' hl' => ?_⟩
      obtain ⟨rest', rfl, -, -⟩ := take_cons_eq hl' (Nat.zero_le _)
      rw [varint, if_pos h₁]
    rw [if_neg h₁] at h
    by_cases h₂ : first = 0xfd
    · rw [if_pos h₂] at h
      split at h
      · cases h
      · next hlen =>
        cases h
        refine ⟨by rw [List.length_cons]; omega, by decide, by decide, fun l' hl' => ?_⟩
        obtain ⟨rest', rfl, htake, hlen'⟩ := take_cons_eq hl' (not_lt.1 hlen)
        rw [varint, if_neg h₁, if_pos h₂, if_neg (not_lt.2 hlen'), htake]
    rw [if_neg h₂] at h
    by_cases h₃ : first = 0xfe
    · rw [if_pos h₃] at h
      split at h
      · cases h
      · next hlen =>
        cases h
        refine ⟨by rw [List.length_cons]; omega, by decide, by decide, fun l' hl' => ?_⟩
        obtain ⟨rest', rfl, htake, hlen'⟩ := take_cons_eq hl' (not_lt.1 hlen)
        rw [varint, if_neg h₁, if_neg h₂, if_pos h₃, if_neg (not_lt.2 hlen'), htake]
    rw [if_neg h₃] at h
    split at h
    · cases h
    next hlen =>
      dsimp only at h
      split at h
      · cases h
      next hval =>
        cases h
        refine ⟨by rw [List.length_cons]; omega, by decide, by decide, fun l' hl' => ?_⟩
        obtain ⟨rest', rfl, htake, hlen'⟩ := take_cons_eq hl' (not_lt.1 hlen)
        rw [varint, if_neg h₁, if_neg h₂, if_neg h₃, if_neg (not_lt.2 hlen'), htake]
        dsimp only
        rw [if_neg hval]

theorem readVarint_pos {p v n : Nat} (h : readVarint tx p = some (v, n)) : p + n ≤ tx.length := by
  have hspec := (varint_spec h).1
  have hpos := (varint_spec h).2.1
  rw [List.length_drop] at hspec
  omega

/-- Each reader moves on. -/
theorem skipInput_le {p q : Nat} (h : skipInput tx p = some q) : p ≤ q := by
  simp only [skipInput, Option.bind_eq_bind, Option.bind_eq_some_iff, checkedAdd_eq_some] at h
  obtain ⟨_, ⟨-, rfl⟩, _, -, _, ⟨-, rfl⟩, _, ⟨-, rfl⟩, -, rfl⟩ := h
  omega

theorem skipOutput_le {p q : Nat} (h : skipOutput tx p = some q) : p ≤ q := by
  simp only [skipOutput, Option.bind_eq_bind, Option.bind_eq_some_iff, checkedAdd_eq_some] at h
  obtain ⟨_, ⟨-, rfl⟩, _, -, _, ⟨-, rfl⟩, -, rfl⟩ := h
  omega

theorem skipMany_le {step : Nat → Option Nat} (hstep : ∀ p q, step p = some q → p ≤ q) : ∀ {count p q : Nat},
    skipMany step count p = some q → p ≤ q
  | 0, p, q, h => (Option.some.inj h).le
  | count + 1, p, q, h => by
    obtain ⟨m, hm, h⟩ := Option.bind_eq_some_iff.1 h
    exact (hstep p m hm).trans (skipMany_le hstep h)

/-! ## Without the marker

`stripped` has from byte 4 what `tx` has from byte 6, up to `stop`. -/

/-- The bytes that the two share. -/
structure Shares (tx stripped : Bytes) (stop : Nat) : Prop where
  get (i : Nat) : 4 ≤ i → i + 2 < stop → stripped[i]? = tx[i + 2]?
  inside : stop ≤ tx.length
  length : stop ≤ stripped.length + 2

variable {stop : Nat}

theorem Shares.slice (hs : Shares tx stripped stop) {p n : Nat} (hp : 4 ≤ p) (hn : p + 2 + n ≤ stop) :
    (stripped.drop p).take n = (tx.drop (p + 2)).take n := by
  apply List.ext_getElem?
  intro i
  rw [List.getElem?_take, List.getElem?_take]
  by_cases hi : i < n
  · rw [if_pos hi, if_pos hi, List.getElem?_drop, List.getElem?_drop, hs.get _ (by omega) (by omega)]
    congr 1
    omega
  · rw [if_neg hi, if_neg hi]

theorem Shares.readVarint (hs : Shares tx stripped stop) {p v n : Nat} (h : readVarint tx (p + 2) = some (v, n)) (hp : 4 ≤ p)
    (hn : p + 2 + n ≤ stop) : Bitcoin.readVarint stripped p = some (v, n) :=
  (varint_spec h).2.2.2 _ (hs.slice hp hn)

/-- `step` on `tx` is `step'` on `stripped`, two bytes further. -/
def Shifts (step step' : Nat → Option Nat) (stop : Nat) : Prop :=
  ∀ p q, 4 ≤ p → step (p + 2) = some q → q ≤ stop → ∃ q', q = q' + 2 ∧ p ≤ q' ∧ step' p = some q'

theorem Shares.skipInput (hs : Shares tx stripped stop) : Shifts (skipInput tx) (skipInput stripped) stop := by
  intro p q hp h hq
  simp only [Bitcoin.skipInput, Option.bind_eq_bind, Option.bind_eq_some_iff, checkedAdd_eq_some] at h
  obtain ⟨_, ⟨h₁, rfl⟩, ⟨slen, vl⟩, hv, _, ⟨h₂, rfl⟩, _, ⟨h₃, rfl⟩, h₄, rfl⟩ := h
  have hv : Bitcoin.readVarint tx (p + 36 + 2) = some (slen, vl) := by
    rw [show p + 36 + 2 = p + 2 + 36 by omega]
    exact hv
  have hv' := hs.readVarint hv (by omega) (by omega)
  refine ⟨p + 36 + vl + slen + 4, by omega, by omega, ?_⟩
  simp only [Bitcoin.skipInput, Option.bind_eq_bind, Option.bind_eq_some_iff, checkedAdd_eq_some]
  exact ⟨_, ⟨by omega, rfl⟩, _, hv', _, ⟨by omega, rfl⟩, _, ⟨by omega, rfl⟩, by omega, rfl⟩

theorem Shifts.many {step step' : Nat → Option Nat} (hmono : ∀ p q, step p = some q → p ≤ q) (hs : Shifts step step' stop) :
    ∀ count, Shifts (skipMany step count) (skipMany step' count) stop
  | 0, p, q, _, h, _ => ⟨p, (Option.some.inj h).symm, le_rfl, rfl⟩
  | count + 1, p, q, hp, h, hq => by
    obtain ⟨m, hm, h⟩ := Option.bind_eq_some_iff.1 h
    obtain ⟨m', rfl, hle, hm'⟩ := hs p m hp hm ((skipMany_le hmono h).trans hq)
    obtain ⟨q', rfl, hle', hq'⟩ := Shifts.many hmono hs count m' q (hp.trans hle) h hq
    exact ⟨q', rfl, hle.trans hle', Option.bind_eq_some_iff.2 ⟨m', hm', hq'⟩⟩

/-- The scan of the outputs, where they can be skipped. -/
theorem Shares.scanOutputs (hs : Shares tx stripped stop) : ∀ {count p q : Nat} (acc : Option Word), 4 ≤ p →
    skipMany (skipOutput tx) count (p + 2) = some q → q ≤ stop →
    ∃ c, Bitcoin.scanOutputs tx count (p + 2, acc) = some (q, c) ∧ ∃ q', Bitcoin.scanOutputs stripped count (p, acc) = some (q', c)
  | 0, p, q, acc, _, h, _ => ⟨acc, by rw [Bitcoin.scanOutputs, Option.some.inj h], p, rfl⟩
  | count + 1, p, q, acc, hp, h, hq => by
    obtain ⟨m, hm, h⟩ := Option.bind_eq_some_iff.1 h
    have hmq := (skipMany_le (fun _ _ => skipOutput_le) h).trans hq
    simp only [skipOutput, Option.bind_eq_bind, Option.bind_eq_some_iff, checkedAdd_eq_some] at hm
    obtain ⟨_, ⟨h₁, rfl⟩, ⟨slen, vl⟩, hv, _, ⟨h₂, rfl⟩, h₃, rfl⟩ := hm
    have hv₂ : Bitcoin.readVarint tx (p + 8 + 2) = some (slen, vl) := by
      rw [show p + 8 + 2 = p + 2 + 8 by omega]
      exact hv
    dsimp only at h h₂ h₃ hmq ⊢
    have hv' := hs.readVarint hv₂ (by omega) (by omega)
    have hnext : p + 2 + 8 + vl + slen = p + 8 + vl + slen + 2 := by omega
    have hscript : (tx.drop (p + 2 + 8 + vl)).take slen = (stripped.drop (p + 8 + vl)).take slen := by
      rw [hs.slice (by omega) (by omega)]
      congr 2
      omega
    rw [hnext] at h hmq
    obtain ⟨c, hc, q', hq'⟩ := hs.scanOutputs ((commitmentOf ((stripped.drop (p + 8 + vl)).take slen)).or acc) (by omega) h hq
    have hinside := hs.inside
    have hlength := hs.length
    refine ⟨c, ?_, q', ?_⟩
    · simp only [Bitcoin.scanOutputs, Option.bind_eq_bind, Option.bind_eq_some_iff, checkedAdd_eq_some, Option.guard_eq_some']
      refine ⟨_, ⟨h₁, rfl⟩, _, hv, _, ⟨h₂, rfl⟩, _, ⟨h₃, rfl⟩, (), by omega, ?_⟩
      rw [hscript, hnext]
      exact hc
    · simp only [Bitcoin.scanOutputs, Option.bind_eq_bind, Option.bind_eq_some_iff, checkedAdd_eq_some, Option.guard_eq_some']
      exact ⟨_, ⟨by omega, rfl⟩, _, hv', _, ⟨by omega, rfl⟩, _, ⟨by omega, rfl⟩, (), by omega, hq'⟩

theorem skipBody_eq_some {p c q : Nat} (h : skipBody tx p = some (c, q)) : c ≠ 0 ∧ ∃ vl o ol m, readVarint tx p = some (c, vl) ∧
    p + vl < 2 ^ 32 ∧ skipMany (skipInput tx) c (p + vl) = some m ∧ readVarint tx m = some (o, ol) ∧ m + ol < 2 ^ 32 ∧
    skipMany (skipOutput tx) o (m + ol) = some q := by
  simp only [skipBody, Option.bind_eq_bind, Option.bind_eq_some_iff, checkedAdd_eq_some, Option.guard_eq_some',
    Option.pure_def, Option.some.injEq, Prod.mk.injEq] at h
  obtain ⟨⟨c', vl⟩, hv, -, hc, _, ⟨h₁, rfl⟩, m, hm, ⟨o, ol⟩, ho, -, -, _, ⟨h₂, rfl⟩, q', hq, rfl, rfl⟩ := h
  exact ⟨hc, vl, o, ol, m, hv, h₁, hm, ho, h₂, hq⟩

/-- The coinbase's scan is that of its stripped form. -/
theorem Shares.scanCoinbase {c : Nat} (hs : Shares tx stripped stop) (hbody : skipBody tx 6 = some (c, stop)) :
    ∃ found, Bitcoin.scanCoinbase tx 6 = some (stop, found) ∧ ∃ q, Bitcoin.scanCoinbase stripped 4 = some (q, found) := by
  obtain ⟨-, vl, o, ol, m, hv, h₁, hm, ho, h₂, hq⟩ := skipBody_eq_some hbody
  have hmq : m + ol ≤ stop := skipMany_le (fun _ _ => skipOutput_le) hq
  have hvm : 6 + vl ≤ m := skipMany_le (fun _ _ => skipInput_le) hm
  have hv' := hs.readVarint (p := 4) hv le_rfl (by omega)
  have hpos : 6 + vl = 4 + vl + 2 := by omega
  rw [hpos] at hm
  obtain ⟨m', rfl, hle, hm'⟩ := hs.skipInput.many (fun _ _ => skipInput_le) c (4 + vl) m (by omega) hm (by omega)
  have ho' := hs.readVarint ho (by omega) hmq
  have hpos' : m' + 2 + ol = m' + ol + 2 := by omega
  rw [hpos'] at hq
  obtain ⟨found, hfound, q', hq'⟩ := hs.scanOutputs none (by omega) hq le_rfl
  refine ⟨found, ?_, q', ?_⟩
  · simp only [Bitcoin.scanCoinbase, Option.bind_eq_bind, Option.bind_eq_some_iff, checkedAdd_eq_some]
    exact ⟨_, hv, _, ⟨h₁, rfl⟩, _, hpos.symm ▸ hm, _, ho, _, ⟨h₂, rfl⟩, hpos'.symm ▸ hfound⟩
  · simp only [Bitcoin.scanCoinbase, Option.bind_eq_bind, Option.bind_eq_some_iff, checkedAdd_eq_some]
    exact ⟨_, hv', _, ⟨by omega, rfl⟩, _, hm', _, ho', _, ⟨by omega, rfl⟩, hq'⟩

/-- What `compute_txid` hashes, of a transaction with a witness. -/
theorem strippedTx_segwit (h : strippedTx tx = some stripped) (hsegwit : isSegwit tx = true) :
    ∃ c stop, skipBody tx 6 = some (c, stop) ∧ Shares tx stripped stop ∧ stripped.length = stop + 2 ∧ 6 ≤ stop := by
  have h64 : ¬ (tx.length = 64 ∧ isSegwit tx = false ∧ nonwitnessTxExactLen tx = false) := by simp [hsegwit]
  rw [strippedTx, if_neg h64, if_neg (by simp [hsegwit])] at h
  simp only [Option.bind_eq_bind, Option.bind_eq_some_iff, checkedAdd_eq_some, Option.guard_eq_some',
    Option.pure_def, Option.some.injEq] at h
  obtain ⟨⟨c, stop⟩, hbody, q, hwitness, _, ⟨-, rfl⟩, -, ⟨hinside, hend⟩, -, -, rfl⟩ := h
  dsimp only at hinside hend ⊢
  obtain ⟨-, vl, o, ol, m, -, -, hm, -, -, ho⟩ := skipBody_eq_some hbody
  have h₁ : 6 + vl ≤ m := skipMany_le (fun _ _ => skipInput_le) hm
  have h₂ : m + ol ≤ stop := skipMany_le (fun _ _ => skipOutput_le) ho
  have hlength : (tx.take 4 ++ (tx.drop 6).take (stop - 6) ++ (tx.drop q).take 4).length = stop + 2 := by
    simp only [List.length_append, List.length_take, List.length_drop]
    omega
  refine ⟨c, stop, hbody, ⟨fun i hi hi' => ?_, hinside, by omega⟩, hlength, by omega⟩
  rw [List.append_assoc, List.getElem?_append_right (by rw [List.length_take]; omega), List.getElem?_append_left (by
    simp only [List.length_take, List.length_drop]
    omega), List.getElem?_take, List.length_take, if_pos (by omega), List.getElem?_drop]
  congr 1
  omega

theorem strippedTx_plain (h : strippedTx tx = some stripped) (hplain : isSegwit tx = false) : stripped = tx := by
  unfold strippedTx at h
  split at h
  · cases h
  · exact (Option.some.inj h).symm

/-! ## The coinbase -/

/-- The commitment is that of the stripped form. -/
theorem parseOutput_stripped (h : strippedTx tx = some stripped) :
    parseCoinbaseCommitmentOutput tx = parseCoinbaseCommitmentOutput stripped := by
  cases hsegwit : isSegwit tx with
  | false => rw [strippedTx_plain h hsegwit]
  | true =>
    obtain ⟨c, stop, hbody, hshares, hlength, hstop⟩ := strippedTx_segwit h hsegwit
    obtain ⟨hc, vl, _, ol, m, hv, -, hm, -, -, ho⟩ := skipBody_eq_some hbody
    have h₁ : 6 + vl ≤ m := skipMany_le (fun _ _ => skipInput_le) hm
    have h₂ : m + ol ≤ stop := skipMany_le (fun _ _ => skipOutput_le) ho
    obtain ⟨-, hvl, -, -⟩ := varint_spec hv
    -- the count of the inputs stands where the marker would
    have hplain : isSegwit stripped = false := by
      by_contra hmarker
      rw [Bool.not_eq_false, isSegwit] at hmarker
      simp only [Bool.and_eq_true, beq_iff_eq] at hmarker
      have hzero := (hshares.get 4 le_rfl (by omega)).symm.trans hmarker.1.2
      have hdrop : tx.drop 6 = 0 :: tx.drop 7 := by
        obtain ⟨hlt, hget⟩ := List.getElem?_eq_some_iff.1 hzero
        rw [List.drop_eq_getElem_cons hlt, hget]
      rw [readVarint, hdrop] at hv
      cases hv
      exact hc rfl
    obtain ⟨found, hfound, q, hq⟩ := hshares.scanCoinbase hbody
    have hlen : 4 ≤ tx.length := by
      have := hshares.inside
      omega
    have hlen' : 4 ≤ stripped.length := by omega
    simp [parseCoinbaseCommitmentOutput, hsegwit, hplain, hfound, hq, hlen, hlen']

/-- From byte 4 on, a count of one input, in any form that `read_varint` takes, and then zeros. -/
def OpensNull (w : Word) : Prop := ∃ n, varint (w.bytes.drop 4) = some (1, n) ∧ ∀ x ∈ w.bytes.drop (4 + n), x = 0

/-- The count of a coinbase and the null outpoint after it. -/
theorem coinbase_opens (h : strippedTx tx = some stripped) (hcoinbase : isCoinbase tx = true) (hlen : stripped.length = 64) :
    ∃ n, varint (stripped.drop 4) = some (1, n) ∧ ∀ i, 4 + n ≤ i → i < 32 → stripped[i]? = some 0 := by
  unfold isCoinbase at hcoinbase
  generalize hp : (if isSegwit tx = true then 6 else 4) = p at hcoinbase
  cases hv : readVarint tx p with
  | none => simp [hv] at hcoinbase
  | some e =>
    obtain ⟨count, n⟩ := e
    simp only [hv, Bool.and_eq_true, beq_iff_eq, decide_eq_true_eq] at hcoinbase
    obtain ⟨-, ⟨⟨rfl, -⟩, hnull⟩, -⟩ := hcoinbase
    obtain ⟨-, hpos, hnine, -⟩ := varint_spec hv
    have hzero : ∀ j, p + n ≤ j → j < p + n + 32 → tx[j]? = some 0 := by
      intro j hj hj'
      have hget := congrArg (fun l => l[j - (p + n)]?) hnull
      simp only [List.getElem?_take, List.getElem?_drop, List.getElem?_replicate] at hget
      rw [if_pos (by omega), if_pos (by omega), show p + n + (j - (p + n)) = j by omega] at hget
      exact hget
    cases hsegwit : isSegwit tx with
    | false =>
      rw [hsegwit] at hp
      obtain rfl : 4 = p := hp
      rw [strippedTx_plain h hsegwit]
      exact ⟨n, hv, fun i hi hi' => hzero i (by omega) (by omega)⟩
    | true =>
      rw [hsegwit] at hp
      obtain rfl : 6 = p := hp
      obtain ⟨c, stop, -, hshares, hlength, -⟩ := strippedTx_segwit h hsegwit
      refine ⟨n, hshares.readVarint hv le_rfl (by omega), fun i hi hi' => ?_⟩
      rw [hshares.get i (by omega) (by omega)]
      exact hzero (i + 2) (by omega) (by omega)

/-! ## The tree of a block -/

theorem merkleNode_injective (hinj : Function.Injective dsha256) : Function.Injective2 (merkleNode dsha256) := by
  intro a a' b b' h
  obtain ⟨hl, hr⟩ := List.append_inj (hinj h) (a.len.trans a'.len.symm)
  exact ⟨Word.ext hl, Word.ext hr⟩

theorem mapM_eq_some {α β : Type} {f : α → Option β} : ∀ {l : List α} {l' : List β}, l.mapM f = some l' → l.map f = l'.map some
  | [], l', h => by
    rw [List.mapM_nil] at h
    cases h
    rfl
  | a :: l, l', h => by
    simp only [List.mapM_cons, Option.bind_eq_bind, Option.bind_eq_some_iff, Option.pure_def, Option.some.injEq] at h
    obtain ⟨b, hb, bs, hbs, rfl⟩ := h
    rw [List.map_cons, List.map_cons, hb, mapM_eq_some hbs]

/-- The ids of a block that starts with a coinbase. -/
structure BlockIds (dsha256 : Bytes → Word) (txs : List Bytes) (ids : List Word) : Prop where
  ids_eq : txs.map (computeTxid dsha256) = ids.map some
  coinbase : ∃ tx ∈ txs.head?, isCoinbase tx = true

theorem BlockIds.digest {txs : List Bytes} {ids : List Word} (h : BlockIds dsha256 txs ids) {x : Word} (hx : x ∈ ids) :
    ∃ b, x = dsha256 b := by
  obtain ⟨tx, -, htx⟩ := List.mem_map.1 (h.ids_eq ▸ List.mem_map_of_mem hx : some x ∈ txs.map (computeTxid dsha256))
  obtain ⟨b, -, rfl⟩ := Option.map_eq_some_iff.1 htx
  exact ⟨b, rfl⟩

theorem BlockIds.ne_nil {txs : List Bytes} {ids : List Word} (h : BlockIds dsha256 txs ids) : ids ≠ [] := by
  obtain ⟨tx, htx, -⟩ := h.coinbase
  rintro rfl
  have hnil : txs = [] := List.map_eq_nil_iff.1 h.ids_eq
  rw [hnil] at htx
  cases htx

/-- **No coinbase is a node** over a digest and another. -/
theorem BlockIds.head_ne (hinj : Function.Injective dsha256) (hnull : ∀ b, ¬ OpensNull (dsha256 b)) {txs : List Bytes}
    {ids : List Word} (h : BlockIds dsha256 txs ids) {a b : Word} (ha : ∃ c, a = dsha256 c) :
    ids.head? ≠ some (merkleNode dsha256 a b) := by
  intro hhead
  obtain ⟨tx, htx, hcoinbase⟩ := h.coinbase
  have htxid : computeTxid dsha256 tx = some (merkleNode dsha256 a b) := by
    have hids := congrArg List.head? h.ids_eq
    rw [List.head?_map, List.head?_map, hhead, Option.mem_def.1 htx] at hids
    exact Option.some.inj hids
  obtain ⟨stripped, hstripped, hnode⟩ := Option.map_eq_some_iff.1 htxid
  obtain ⟨c, rfl⟩ := ha
  have hpre : stripped = (dsha256 c).bytes ++ b.bytes := hinj hnode
  have hlen : stripped.length = 64 := by rw [hpre, List.length_append, Word.len, Word.len]
  obtain ⟨n, hn, hzeros⟩ := coinbase_opens hstripped hcoinbase hlen
  obtain ⟨-, -, hnine, -⟩ := varint_spec hn
  refine hnull c ⟨n, (varint_spec hn).2.2.2 _ ?_, fun v hv => ?_⟩
  · -- the count lies within the first digest
    rw [hpre, List.drop_append_of_le_length (by rw [Word.len]; decide), List.take_append_of_le_length (by
      rw [List.length_drop, Word.len]
      omega)]
  · obtain ⟨j, hj⟩ := List.mem_iff_getElem?.1 hv
    rw [List.getElem?_drop] at hj
    have hlt : 4 + n + j < 32 := by
      obtain ⟨hlt, -⟩ := List.getElem?_eq_some_iff.1 hj
      rwa [Word.len] at hlt
    have hget := hzeros (4 + n + j) (by omega) hlt
    rw [hpre, List.getElem?_append_left (by rwa [Word.len]), hj] at hget
    exact Option.some.inj hget

/-- **No block is a higher level of another's tree**. -/
theorem BlockIds.eq (hinj : Function.Injective dsha256) (hnull : ∀ b, ¬ OpensNull (dsha256 b))
    {txs txs' : List Bytes} {ids ids' : List Word} {root : Word} (h : BlockIds dsha256 txs ids) (h' : BlockIds dsha256 txs' ids')
    (hroot : PairedTree.rootDistinct (merkleNode dsha256) ids = some root)
    (hroot' : PairedTree.rootDistinct (merkleNode dsha256) ids' = some root) : ids = ids' :=
  PairedTree.eq_of_heads (merkleNode_injective hinj) (fun _ _ => ⟨_, rfl⟩) (fun _ => h.digest) (fun _ => h'.digest)
    (fun _ _ => h.head_ne hinj hnull) (fun _ _ => h'.head_ne hinj hnull) h.ne_nil h'.ne_nil hroot hroot'

/-! ## The witnesses -/

theorem verifyWitnessCommitment_true {txs : List Bytes} (h : verifyWitnessCommitment dsha256 txs = some true) :
    ∃ coinbase commitment reserved witnessRoot, txs.head? = some coinbase ∧
      parseCoinbaseCommitmentOutput coinbase = some commitment ∧
      PairedTree.rootDistinct (merkleNode dsha256) (0 :: txs.tail.map dsha256) = some witnessRoot ∧
      merkleNode dsha256 witnessRoot reserved = commitment := by
  simp only [verifyWitnessCommitment, Option.bind_eq_bind, Option.bind_eq_some_iff] at h
  obtain ⟨coinbase, hhead, commitment, hout, h⟩ := h
  split at h
  · cases h
  split at h
  · cases h
  next found reserved _ heq =>
    split at h
    · cases h
    next witnessRoot hroot =>
      rw [Option.some.injEq, beq_iff_eq] at h
      rw [computeMerkleRootChecked, if_neg (List.cons_ne_nil _ _)] at hroot
      exact ⟨coinbase, commitment, reserved, witnessRoot, hhead, hout, hroot, h.trans (not_not.1 heq)⟩

/-- A coinbase with a commitment is never taken for one of a block without witnesses. -/
theorem verifyWitnessCommitment_ne_none {txs : List Bytes} {coinbase : Bytes} {commitment : Word}
    (hhead : txs.head? = some coinbase) (hout : parseCoinbaseCommitmentOutput coinbase = some commitment) :
    verifyWitnessCommitment dsha256 txs ≠ none := by
  simp only [verifyWitnessCommitment, hhead, hout, Option.bind_eq_bind, Option.bind_some]
  split
  · simp
  split
  · simp
  split <;> simp

theorem checkBlock_eq_some {root : Word} {txs : List Bytes} {w : Bool} (h : checkBlock dsha256 root txs = some w) :
    ∃ ids, BlockIds dsha256 txs ids ∧ PairedTree.rootDistinct (merkleNode dsha256) ids = some root ∧
      verifyWitnessCommitment dsha256 txs = if w then some true else none := by
  simp only [checkBlock, Option.bind_eq_bind, Option.bind_eq_some_iff, Option.guard_eq_some'] at h
  obtain ⟨ids, hids, -, hroot, coinbase, hhead, -, hcoinbase, -, -, h⟩ := h
  have hmap := mapM_eq_some hids
  have hne : ids ≠ [] := by
    rintro rfl
    rw [List.map_nil, List.map_eq_nil_iff] at hmap
    rw [hmap] at hhead
    cases hhead
  rw [computeMerkleRootChecked, if_neg hne] at hroot
  refine ⟨ids, ⟨hmap, coinbase, hhead, hcoinbase⟩, hroot, ?_⟩
  cases hverify : verifyWitnessCommitment dsha256 txs with
  | none =>
    rw [hverify] at h
    cases h
    rfl
  | some b =>
    rw [hverify] at h
    cases b with
    | false => cases h
    | true =>
      cases h
      rfl

end Bitcoin

open Bitcoin

/-- Two blocks under one root, of which the first commits to its witnesses: so does the second, and to the same. -/
theorem Bitcoin.witnesses_eq {dsha256 : Bytes → Word} (hinj : Function.Injective dsha256) {txs txs' : List Bytes}
    (hstripped : txs.map strippedTx = txs'.map strippedTx) (hsome : ∀ tx ∈ txs.head?, (strippedTx tx).isSome)
    (h : verifyWitnessCommitment dsha256 txs = some true) (h' : verifyWitnessCommitment dsha256 txs' ≠ some false) :
    verifyWitnessCommitment dsha256 txs' = some true ∧ txs.tail = txs'.tail := by
  obtain ⟨coinbase, commitment, reserved, witnessRoot, hhead, hout, hroot, hnode⟩ := verifyWitnessCommitment_true h
  obtain ⟨rest, rfl⟩ : ∃ rest, txs = coinbase :: rest := by
    cases txs with
    | nil => cases hhead
    | cons t rest =>
      cases hhead
      exact ⟨rest, rfl⟩
  cases txs' with
  | nil => cases hstripped
  | cons coinbase' rest' =>
    obtain ⟨hcoinbase, hrest⟩ := List.cons.inj hstripped
    obtain ⟨stripped, hs⟩ := Option.isSome_iff_exists.1 (hsome coinbase rfl)
    have hout' : parseCoinbaseCommitmentOutput coinbase' = some commitment := by
      rw [parseOutput_stripped (hcoinbase ▸ hs), ← parseOutput_stripped hs, hout]
    have htrue : verifyWitnessCommitment dsha256 (coinbase' :: rest') = some true := by
      cases hverify : verifyWitnessCommitment dsha256 (coinbase' :: rest') with
      | none => exact absurd hverify (verifyWitnessCommitment_ne_none rfl hout')
      | some b =>
        cases b with
        | false => exact absurd hverify h'
        | true => rfl
    refine ⟨htrue, ?_⟩
    obtain ⟨_, commitment', reserved', witnessRoot', hhead', hout'', hroot', hnode'⟩ := verifyWitnessCommitment_true htrue
    cases hhead'
    obtain rfl := Option.some.inj (hout'.symm.trans hout'')
    obtain ⟨rfl, -⟩ := merkleNode_injective hinj (hnode.trans hnode'.symm)
    have hlen : rest.length = rest'.length := by simpa using congrArg List.length hrest
    have hwtxids := PairedTree.rootDistinct_inj (merkleNode_injective hinj) (by simp [hlen]) hroot hroot'
    exact List.map_injective_iff.2 hinj (List.cons.inj hwtxids).2

/-- **The header determines the body**, where no digest opens with a count of one and a null outpoint: of two lists that pass
the checks against one Merkle root, the stripped transactions are the same, and either both commit to their witnesses, which
are the same too, or neither does. A list of distinct transactions passes the checked root with the value of the plain one, to
which each honest path leads. -/
theorem header_determines_body {dsha256 : Bytes → Word} (hinj : Function.Injective dsha256)
    (hnull : ∀ b, ¬ OpensNull (dsha256 b)) :
    (∀ (root : Word) (txs txs' : List Bytes) (w w' : Bool), checkBlock dsha256 root txs = some w →
      checkBlock dsha256 root txs' = some w' →
      txs.length = txs'.length ∧ txs.map strippedTx = txs'.map strippedTx ∧ w = w' ∧ (w = true → txs.tail = txs'.tail)) ∧
    ∀ (txs : List Bytes) (txids : List Word), txs.mapM (computeTxid dsha256) = some txids → (txs.map strippedTx).Nodup →
      computeMerkleRootChecked dsha256 txids = some (computeMerkleRoot dsha256 txids) ∧
      ∀ (i : Nat) (txid : Word), txids[i]? = some txid →
        verifyMerklePath dsha256 txid (PairedTree.siblings (merkleNode dsha256) txids i) i = computeMerkleRoot dsha256 txids := by
  constructor
  · intro root txs txs' w w' h h'
    obtain ⟨ids, hids, hroot, hverify⟩ := checkBlock_eq_some h
    obtain ⟨ids', hids', hroot', hverify'⟩ := checkBlock_eq_some h'
    obtain rfl := hids.eq hinj hnull hids' hroot hroot'
    have hmap : (txs.map strippedTx).map (Option.map dsha256) = (txs'.map strippedTx).map (Option.map dsha256) := by
      rw [List.map_map, List.map_map]
      exact hids.ids_eq.trans hids'.ids_eq.symm
    have hstripped := List.map_injective_iff.2 (Option.map_injective hinj) hmap
    have hsome : ∀ {txs : List Bytes}, BlockIds dsha256 txs ids → ∀ tx ∈ txs.head?, (strippedTx tx).isSome := by
      intro txs hids tx htx
      obtain ⟨x, -, hx⟩ := List.mem_map.1 (hids.ids_eq ▸ List.mem_map_of_mem (List.mem_of_mem_head? htx))
      obtain ⟨b, hb, -⟩ := Option.map_eq_some_iff.1 hx.symm
      exact Option.isSome_iff_exists.2 ⟨b, hb⟩
    refine ⟨by simpa using congrArg List.length hstripped, hstripped, ?_⟩
    cases w with
    | true =>
      obtain ⟨htrue, htail⟩ := witnesses_eq hinj hstripped (hsome hids) hverify (by rw [hverify']; cases w' <;> simp)
      refine ⟨?_, fun _ => htail⟩
      cases w' with
      | true => rfl
      | false => rw [htrue] at hverify'; cases hverify'
    | false =>
      refine ⟨?_, nofun⟩
      cases w' with
      | false => rfl
      | true =>
        obtain ⟨htrue, -⟩ := witnesses_eq hinj hstripped.symm (hsome hids') hverify' (by rw [hverify]; simp)
        rw [htrue] at hverify
        cases hverify
  · intro txs txids htxids hnodup
    have hmap := mapM_eq_some htxids
    have hids : txids.Nodup := by
      refine List.Nodup.of_map some ?_
      have hcompose : txs.map (computeTxid dsha256) = (txs.map strippedTx).map (Option.map dsha256) := by
        rw [List.map_map]
        rfl
      rw [← hmap, hcompose]
      exact hnodup.map (Option.map_injective hinj)
    have hroot : ∀ {i : Nat} {txid : Word}, txids[i]? = some txid →
        PairedTree.root (merkleNode dsha256) txids = some (computeMerkleRoot dsha256 txids) := by
      intro i txid htxid
      rw [computeMerkleRoot, PairedTree.rootFrom_siblings htxid]
      rfl
    constructor
    · cases txids with
      | nil =>
        rw [computeMerkleRoot, PairedTree.root]
        rfl
      | cons x rest =>
        rw [computeMerkleRootChecked, if_neg (List.cons_ne_nil _ _),
          PairedTree.rootDistinct_of_nodup (merkleNode_injective hinj) hids]
        exact hroot (i := 0) rfl
    · intro i txid htxid
      exact Option.some.inj ((PairedTree.rootFrom_siblings htxid).symm.trans (hroot htxid))

/-! ## Two runs -/

namespace Bitcoin

/-- An injective hash none of whose digests ends in zeros. -/
def codeSha (b : Bytes) : Word := ⟨(Encodable.encode b + 1) :: List.replicate 31 1, by simp⟩

theorem codeSha_injective : Function.Injective codeSha := by
  intro a b h
  have := congrArg (fun w : Word => w.bytes.head?) h
  simpa [codeSha] using this

theorem checkBlock_unwitnessed {root : Word} {rest : List Bytes} {ids : List Word}
    (hids : (tx :: rest).mapM (computeTxid dsha256) = some ids) (hroot : computeMerkleRootChecked dsha256 ids = some root)
    (hcoinbase : isCoinbase tx = true) (hrest : ∀ t ∈ rest, isCoinbase t = false)
    (hout : parseCoinbaseCommitmentOutput tx = none) : checkBlock dsha256 root (tx :: rest) = some false := by
  have hverify : verifyWitnessCommitment dsha256 (tx :: rest) = none := by simp [verifyWitnessCommitment, hout]
  have htail : ∀ t ∈ (tx :: rest).tail, isCoinbase t = false := hrest
  rw [checkBlock, hids, Option.bind_eq_bind, Option.bind_some, hroot, hverify, List.head?_cons]
  simp only [guard, if_true, hcoinbase, Option.bind_eq_bind, Option.pure_def, Option.bind_some]
  rw [if_pos htail]
  rfl

theorem checkBlock_one (hstripped : strippedTx tx = some stripped) (hcoinbase : isCoinbase tx = true)
    (hout : parseCoinbaseCommitmentOutput tx = none) : checkBlock dsha256 (dsha256 stripped) [tx] = some false := by
  refine checkBlock_unwitnessed (?_ : [tx].mapM (computeTxid dsha256) = some [dsha256 stripped]) ?_ hcoinbase nofun hout
  · simp [computeTxid, hstripped]
  · rw [computeMerkleRootChecked, PairedTree.rootDistinct]
    rfl

/-- One input of the null outpoint and one empty output. -/
def demoBody : Bytes :=
  1 :: (List.replicate 32 0 ++ List.replicate 4 255 ++ 0 :: List.replicate 4 255 ++ 1 :: List.replicate 9 0)

def demoCoinbase : Bytes := [1, 0, 0, 0] ++ demoBody ++ [0, 0, 0, 0]

/-- The same with a witness. -/
def demoWitnessCoinbase : Bytes := [1, 0, 0, 0, 0, 1] ++ demoBody ++ [1, 1, 7] ++ [0, 0, 0, 0]

end Bitcoin

/-- Two serialisations of a block of a coinbase alone. -/
theorem header_determines_body_coinbase :
    checkBlock codeSha (codeSha demoCoinbase) [demoCoinbase] = some false ∧
    checkBlock codeSha (codeSha demoCoinbase) [demoWitnessCoinbase] = some false ∧
    [demoCoinbase].map strippedTx = [demoWitnessCoinbase].map strippedTx := by
  have hplain : checkBlock codeSha (codeSha demoCoinbase) [demoCoinbase] = some false :=
    checkBlock_one (by decide +kernel) (by decide +kernel) (by decide +kernel)
  have hwitness : checkBlock codeSha (codeSha demoCoinbase) [demoWitnessCoinbase] = some false :=
    checkBlock_one (by decide +kernel) (by decide +kernel) (by decide +kernel)
  refine ⟨hplain, hwitness, ?_⟩
  have hnull : ∀ b, ¬ OpensNull (codeSha b) := by
    rintro b ⟨n, hn, hzeros⟩
    have hone : varint ((codeSha b).bytes.drop 4) = some (1, 1) := by simp [codeSha, varint, List.replicate]
    cases hone.symm.trans hn
    exact one_ne_zero (hzeros 1 (by simp [codeSha]))
  exact ((header_determines_body codeSha_injective hnull).1 _ _ _ _ _ hplain hwitness).2.1

namespace Bitcoin

/-- The first half of a coinbase that writes its count of one input in five bytes. -/
def aliasLeft : Word := ⟨[0, 0, 0, 0, 254, 1] ++ List.replicate 26 0, by simp⟩

def aliasRight : Word :=
  ⟨List.replicate 9 0 ++ List.replicate 4 255 ++ 0 :: List.replicate 4 255 ++ 1 :: List.replicate 13 0, by simp⟩

/-- A transaction that spends another outpoint. -/
def demoSpendTx : Bytes :=
  [1, 0, 0, 0, 1, 7] ++ List.replicate 35 0 ++ 0 :: List.replicate 4 255 ++ 1 :: List.replicate 9 0 ++ [0, 0, 0, 0]

/-- A hash under which the two halves are digests. -/
def aliasSha (b : Bytes) : Word := if b = demoCoinbase then aliasLeft else if b = demoSpendTx then aliasRight else codeSha b

theorem aliasSha_injective : Function.Injective aliasSha := by
  have hleft : ∀ b, codeSha b ≠ aliasLeft := by
    intro b h
    have := congrArg (fun w : Word => w.bytes.head?) h
    simp [codeSha, aliasLeft] at this
  have hright : ∀ b, codeSha b ≠ aliasRight := by
    intro b h
    have := congrArg (fun w : Word => w.bytes.head?) h
    simp [codeSha, aliasRight, List.replicate] at this
  have hne : aliasLeft ≠ aliasRight := by decide
  intro a b h
  unfold aliasSha at h
  by_cases ha : a = demoCoinbase
  · rw [if_pos ha] at h
    split_ifs at h with hb hb'
    · exact ha.trans hb.symm
    · exact absurd h hne
    · exact absurd h.symm (hleft b)
  rw [if_neg ha] at h
  by_cases ha' : a = demoSpendTx
  · rw [if_pos ha'] at h
    split_ifs at h with hb hb'
    · exact absurd h.symm hne
    · exact ha'.trans hb'.symm
    · exact absurd h.symm (hright b)
  · rw [if_neg ha'] at h
    split_ifs at h with hb hb'
    · exact absurd h (hleft a)
    · exact absurd h (hright a)
    · exact codeSha_injective h

/-- None of its digests has bytes 5 to 31 all zero. -/
theorem aliasSha_digests (b : Bytes) : ∃ x ∈ (aliasSha b).bytes.drop 5, x ≠ 0 := by
  unfold aliasSha
  split_ifs
  · exact ⟨1, by decide, one_ne_zero⟩
  · exact ⟨255, by decide, by decide⟩
  · exact ⟨1, by simp [codeSha], one_ne_zero⟩

end Bitcoin

/-- Digests whose bytes 5 to 31 are not all zero are not enough: with a count of five bytes, a block of two transactions has
the root of a block of a coinbase alone. -/
theorem long_count_alias : ¬ ∀ dsha256 : Bytes → Word, Function.Injective dsha256 →
    (∀ b, ∃ x ∈ (dsha256 b).bytes.drop 5, x ≠ 0) → ∀ (root : Word) (txs txs' : List Bytes) (w w' : Bool),
    checkBlock dsha256 root txs = some w → checkBlock dsha256 root txs' = some w' → txs.length = txs'.length := by
  intro hall
  have hmerged : checkBlock aliasSha (aliasSha (aliasLeft.bytes ++ aliasRight.bytes)) [aliasLeft.bytes ++ aliasRight.bytes] =
      some false := checkBlock_one (by decide +kernel) (by decide +kernel) (by decide +kernel)
  have hpair : checkBlock aliasSha (aliasSha (aliasLeft.bytes ++ aliasRight.bytes)) [demoCoinbase, demoSpendTx] = some false := by
    have hleft : computeTxid aliasSha demoCoinbase = some aliasLeft := by
      have hstripped : strippedTx demoCoinbase = some demoCoinbase := by decide +kernel
      rw [computeTxid, hstripped, Option.map_some, aliasSha, if_pos rfl]
    have hright : computeTxid aliasSha demoSpendTx = some aliasRight := by
      have hstripped : strippedTx demoSpendTx = some demoSpendTx := by decide +kernel
      have hne : demoSpendTx ≠ demoCoinbase := by decide +kernel
      rw [computeTxid, hstripped, Option.map_some, aliasSha, if_neg hne, if_pos rfl]
    have hroot : computeMerkleRootChecked aliasSha [aliasLeft, aliasRight] =
        some (aliasSha (aliasLeft.bytes ++ aliasRight.bytes)) := by
      rw [computeMerkleRootChecked, if_neg (List.cons_ne_nil _ _)]
      exact PairedTree.rootDistinct_pair (by decide)
    have hids : [demoCoinbase, demoSpendTx].mapM (computeTxid aliasSha) = some [aliasLeft, aliasRight] := by
      rw [List.mapM_cons, hleft, List.mapM_cons, hright]
      rfl
    have hspend : ∀ t ∈ [demoSpendTx], isCoinbase t = false := by decide +kernel
    exact checkBlock_unwitnessed hids hroot (by decide +kernel) hspend (by decide +kernel)
  exact absurd (hall aliasSha aliasSha_injective aliasSha_digests _ _ _ _ _ hmerged hpair) (by decide)

end Tacit
