import Mathlib.Data.List.Enum
import Tacit.Lib.Caught
import Tacit.Replay.Accepting
/-!
# A block's carriers (worker/src/btc-shielded-pool.js:254-300, :466-506; worker-relay/src/btc-pool-indexer.js:167-214)

Which envelopes of a transaction the pool reads, the aggregate that covers its proofless spends, and the loop of `processBlock` over
the transactions. What the carriers' contexts and the aggregate's verifier answer is part of the block (`Answers`).
-/
namespace Tacit

namespace Replay

open Prog
open Indexer (bytesToHex)

/-! ## The envelopes of a transaction -/

/-- An envelope that the pool reads. -/
structure Item where
  vin : Nat
  opcode : Nat
  payload : Bytes

/-- `isPool` (:293). -/
def isPool (opcode vin : Nat) : Prop := opcode = T_BTC_SHIELD ∨ opcode = T_BTC_SPEND ∨ (opcode = T_BTC_AGG ∧ 0 < vin)

instance (opcode vin : Nat) : Decidable (isPool opcode vin) := inferInstanceAs (Decidable (_ ∨ _ ∨ _ ∧ _))

def itemOf (payload : Bytes) (vin : Nat) : Item := ⟨vin, payload.headD 0, payload⟩

/-- The envelope of one input (:297). -/
def poolItem (e : Option Bytes × Nat) : Option Item :=
  e.1.bind fun payload => if isPool (payload.headD 0) e.2 then some (itemOf payload e.2) else none

/-- `carrierPoolEnvelopes` (:291), of the payloads of a transaction's inputs: whether the first is a foreign one, and the items. -/
def carrierPoolEnvelopes (envs : List (Option Bytes)) : Bool × List Item :=
  let foreign := fun payload : Bytes => decide ¬isPool (payload.headD 0) 0
  let e0 := envs.head?.join
  match e0.filter fun payload => payload.headD 0 = T_BTC_SHIELD with
  | some payload => (foreign payload, [itemOf payload 0])
  | none => (e0.any foreign, envs.zipIdx.filterMap poolItem)

/-! ## The aggregate of a carrier -/

section

variable {P : Type} (L : Library P)

/-- `spendPublicsNow` (:469). -/
def spendPublicsNow (st : BtcPoolState) (s : Spend) : Option (List Nat) := do
  let b ← st.pending
  guard ¬((s.hAnchor : Int) < b.height - ANCHOR_WINDOW ∨ b.height - 1 < s.hAnchor)
  let root ← st.roots.get? s.hAnchor
  let exitC ← s.exit.elim (some none) fun x => (L.verifyBoundary x.boundary).map some
  return spendPublicsOf L s root exitC

def AGG_DOMAIN : Bytes := ascii "tacit-btc-pool-agg-v1"

/-- `aggregateStatement` (:254). -/
def aggregateStatement (vkDigest : String) (publicsList : List (List Nat)) : Except Error Bytes := do
  let vk ← need (hexToBytes vkDigest) (.message "bad hex")
  refuse (∃ pubs ∈ publicsList, pubs.length ≠ 12) (.message "twelve publics per spend")
  return L.sha256 (AGG_DOMAIN ++ vk ++ leBytes 4 publicsList.length ++ publicsList.flatMap fun pubs => pubs.flatMap bigTo32)

/-- What a block is answered: by the validator of transparent notes, and by the verifiers of a spend and of an aggregate. -/
structure Answers where
  vkHash : String
  /-- The answer to the `i`-th call of transaction `tx`. -/
  resolveInput : (tx i : Nat) → Outpoint → (assetHex : String) → Except Error (Option (Bytes × Bytes))
  /-- Absent when it is not a function. -/
  verify : Option ((tx k : Nat) → (proof : Bytes) → (publics : List Nat) → Except Error Bool)
  /-- Absent when it is not a function. -/
  verifyAggregate : Option ((tx wrap : Nat) → (proof statement : Bytes) → Except Error Bool)

/-- What `aggregateFor` returns: `publics` of each envelope of the carrier that it covers. -/
structure Covering where
  ok : Bool
  reason : Option String
  publics : List (Option (List Nat))

def Covering.no (reason : String) : Covering := ⟨false, some reason, []⟩

/-- A spend that carries no proof. -/
def proofless : Option Envelope → Option Spend
  | some (.spend s) => if s.proofLen = 0 then some s else none
  | _ => none

def aggregateOf : Option Envelope → Option Aggregate
  | some (.aggregate a) => some a
  | _ => none

/-- `aggregateFor` (:488), of transaction `tx`. -/
def aggregateFor (A : Answers) (tx : Nat) (st : BtcPoolState) (parsed : List (Option Envelope)) : Except Error (Option Covering) :=
  let covered := parsed.filterMap proofless
  if covered = [] then .ok none
  else match parsed.filterMap aggregateOf with
    | [] => .ok (some (.no "proofless spend without an aggregate"))
    | _ :: _ :: _ => .ok (some (.no "more than one aggregate in the carrier"))
    | [a] =>
      if a.n ≠ covered.length then .ok (some (.no "aggregate n differs from the proofless spends"))
      else match covered.mapM (spendPublicsNow L st) with
        | none => .ok (some (.no "a covered spend has no derivable public inputs"))
        | some publics => do
          let verifyAggregate ← need A.verifyAggregate .verifierUnavailable
          let statement ← aggregateStatement L A.vkHash publics
          let ok ← verifyAggregate tx a.wrap a.proof statement
          return some (if ok then ⟨true, none, parsed.map fun p => (proofless p).bind (spendPublicsNow L st)⟩
            else .no "aggregate does not verify")

end

/-! ## The envelopes of a carrier, in order -/

section

variable {P : Type} [AddCommGroup P] [DecidableEq P] (L : Library P)

/-- Hex in display order. -/
def displayHex (b : Bytes) : String := bytesToHex b.reverse

def Result.reason : Result → Option String
  | .rejected reason => some reason
  | _ => none

/-- A row of the envelopes, without its height. -/
structure EnvelopeRow where
  txIndex : Nat
  vin : Nat
  txid : String
  opcode : Nat
  accepted : Bool
  reason : Option String

/-- What `acceptShield` is called with (:196). -/
def shieldContext (A : Answers) (i k : Nat) (tx : Indexer.Tx) : Context where
  txid := displayHex tx.txid.bytes
  inputs := some (tx.vin.map fun v => ⟨displayHex v.txid, v.vout⟩)
  outputs := none
  vin0TacitOp := false
  resolveInput := A.resolveInput i
  verifyProof := A.verify.map fun verify => verify i k
  aggregate := none

/-- What `acceptSpend` is called with (:204). -/
def spendContext (A : Answers) (i k : Nat) (tx : Indexer.Tx) (vin0TacitOp : Bool) (aggregate : Option Covering) : Context where
  txid := displayHex tx.txid.bytes
  inputs := some (tx.vin.map fun v => ⟨displayHex v.txid, v.vout⟩)
  outputs := some (tx.vout.map fun o => ⟨o.value, o.scriptPubKey⟩)
  vin0TacitOp := vin0TacitOp
  resolveInput := A.resolveInput i
  verifyProof := A.verify.map fun verify => verify i k
  aggregate := aggregate.map fun c => ⟨c.ok, c.reason, c.publics[k]?.join⟩

/-- The verdict on one item (:187). -/
def acceptItem (A : Answers) (i : Nat) (tx : Indexer.Tx) (vin0TacitOp : Bool) (aggregate : Option Covering) (k : Nat) (item : Item) :
    Run (Bool × Option String) :=
  match parseEnvelope L item.payload with
  | none => pure (false, some "non-canonical envelope")
  | some (.aggregate _) => pure ((aggregate.map fun c => (c.ok, c.reason)).getD (false, some "aggregate covers no proofless spend"))
  | some (.shield s) =>
    if item.vin ≠ 0 then pure (false, some "T_BTC_SHIELD must ride vin[0]")
    else do
      let res ← acceptShield L (.shield s) (shieldContext A i k tx)
      return (res.accepted, res.reason)
  | some (.spend s) => do
    let res ← acceptSpend L (.spend s) (spendContext A i k tx vin0TacitOp aggregate)
    return (res.accepted, res.reason)

/-- The key of a row, within its height. -/
def EnvelopeRow.place (r : EnvelopeRow) : Nat × Nat := (r.txIndex, r.vin)

def rowOf (i : Nat) (tx : Indexer.Tx) (item : Item) (verdict : Bool × Option String) : EnvelopeRow :=
  ⟨i, item.vin, displayHex tx.txid.bytes, item.opcode, verdict.1, verdict.2⟩

/-- One transaction (:174). -/
def applyCarrier (A : Answers) (e : Indexer.Tx × Nat) : Run (List EnvelopeRow) := do
  let (vin0TacitOp, items) := carrierPoolEnvelopes (Indexer.txEnvelopes e.1)
  let st ← get
  let aggregate ← ofExcept (aggregateFor L A e.2 st (items.map fun item => parseEnvelope L item.payload))
  mapAll (fun r : Item × Nat => do
    let verdict ← acceptItem L A e.2 e.1 vin0TacitOp aggregate r.2 r.1
    return rowOf e.2 e.1 r.1 verdict) items.zipIdx

/-- The transactions of a block, its coinbase skipped, and the end of the block (:173). -/
def applyBlock (A : Answers) (txs : List Indexer.Tx) : Run (Delta × List EnvelopeRow) := do
  let rows ← mapAll (applyCarrier L A) (txs.zipIdx.drop 1)
  let delta ← endBlock L
  return (delta, rows.flatten)

variable {L} {g : History} {st : BtcPoolState} {A : Answers}

/-- No input is read twice. -/
theorem carrierPoolEnvelopes_nodup (envs : List (Option Bytes)) : ((carrierPoolEnvelopes envs).2.map Item.vin).Nodup := by
  have hvin : ∀ e item, poolItem e = some item → item.vin = e.2 := by
    intro e item h
    obtain ⟨payload, -, hitem⟩ := Option.bind_eq_some_iff.1 h
    split_ifs at hitem
    cases hitem
    rfl
  have hsub : ∀ l : List (Option Bytes × Nat), ((l.filterMap poolItem).map Item.vin).Sublist (l.map Prod.snd) := by
    intro l
    induction l with
    | nil => exact .slnil
    | cons e l ih =>
      cases h : poolItem e with
      | none => exact (List.filterMap_cons_none h).symm ▸ ih.cons _
      | some item =>
        rw [List.filterMap_cons_some h, List.map_cons, List.map_cons, hvin e item h]
        exact ih.cons_cons _
  unfold carrierPoolEnvelopes
  dsimp only
  split
  · exact List.nodup_singleton _
  · refine (hsub _).nodup ?_
    rw [List.zipIdx_map_snd]
    exact List.nodup_range'

theorem Opens.acceptItem (hst : Opens L g st) {i k : Nat} {tx : Indexer.Tx} {vin0TacitOp : Bool} {aggregate : Option Covering}
    {item : Item} : wp False (acceptItem L A i tx vin0TacitOp aggregate k item) st (fun _ t => Opens L g t) fun _ t => Opens L g t := by
  unfold Replay.acceptItem
  cases hparse : parseEnvelope L item.payload with
  | none => exact hst
  | some env =>
    cases env with
    | aggregate a => exact hst
    | shield s =>
      dsimp only
      rw [wp_ite]
      refine ⟨fun _ => hst, fun _ => ?_⟩
      rw [wp_bind]
      exact wp_mono hst.acceptShield id (fun _ _ ht => ht ▸ hst) fun _ _ => id
    | spend s =>
      dsimp only
      rw [wp_bind]
      exact wp_mono (hst.acceptSpend (parseEnvelope_wellFormed hparse) (parseEnvelope_whole hparse)) id (fun _ _ ht => ht ▸ hst) fun _ _ => id

/-- The rows of one transaction. -/
def RowsOf (i : Nat) (rows : List EnvelopeRow) : Prop := (rows.map EnvelopeRow.place).Nodup ∧ ∀ r ∈ rows, r.txIndex = i

theorem rowsOf_map {i : Nat} {tx : Indexer.Tx} : ∀ {items : List (Item × Nat)} {rows : List EnvelopeRow},
    List.Forall₂ (fun r row => ∃ verdict, row = rowOf i tx r.1 verdict) items rows →
    rows.map EnvelopeRow.place = items.map fun r => (i, r.1.vin)
  | _, _, .nil => rfl
  | _, _, .cons ⟨verdict, h⟩ hrest => by
    rw [List.map_cons, List.map_cons, rowsOf_map hrest, h]
    rfl

theorem Opens.applyCarrier (hst : Opens L g st) {e : Indexer.Tx × Nat} :
    wp False (applyCarrier L A e) st (fun _ t => Opens L g t) fun rows t => Opens L g t ∧ RowsOf e.2 rows := by
  unfold Replay.applyCarrier
  simp only [wp_bind, wp_get, wp_ofExcept]
  refine ⟨fun _ _ => hst, fun aggregate _ => ?_⟩
  refine wp_mono (wp_mapAll (R := fun r row => ∃ verdict, row = rowOf e.2 e.1 r.1 verdict) (fun r _ t ht => ?_) hst) id
    (fun _ _ => id) ?_
  · rw [wp_bind]
    exact wp_mono ht.acceptItem id (fun _ _ => id) fun verdict _ h => ⟨h, verdict, rfl⟩
  · rintro rows t ⟨ht, hrows⟩
    have hplaces := rowsOf_map hrows
    refine ⟨ht, ?_, fun r hr => ?_⟩
    · have hitems : (carrierPoolEnvelopes (Indexer.txEnvelopes e.1)).2.zipIdx.map (fun r => (e.2, r.1.vin)) =
          ((carrierPoolEnvelopes (Indexer.txEnvelopes e.1)).2.map Item.vin).map (Prod.mk e.2) := by
        conv_rhs => rw [← List.zipIdx_map_fst 0 (carrierPoolEnvelopes (Indexer.txEnvelopes e.1)).2, List.map_map, List.map_map]
        rfl
      rw [hplaces, hitems]
      exact (carrierPoolEnvelopes_nodup _).map (Prod.mk_right_injective e.2)
    · have hmem := List.mem_map_of_mem (f := EnvelopeRow.place) hr
      rw [hplaces] at hmem
      obtain ⟨_, -, heq⟩ := List.mem_map.1 hmem
      exact (congrArg Prod.fst heq).symm

theorem txIndex_mem : ∀ {txs : List (Indexer.Tx × Nat)} {rows : List (List EnvelopeRow)},
    List.Forall₂ (fun e => RowsOf e.2) txs rows → ∀ r ∈ rows.flatten, r.txIndex ∈ txs.map Prod.snd
  | _, _, .nil, r, hr => (List.not_mem_nil hr).elim
  | e :: _, _, .cons hrows hrest, r, hr => by
    rw [List.map_cons]
    rcases List.mem_append.1 (List.flatten_cons ▸ hr) with hr | hr
    · exact List.mem_cons.2 (.inl (hrows.2 r hr))
    · exact List.mem_cons_of_mem _ (txIndex_mem hrest r hr)

/-- The rows of a block's transactions have keys of their own. -/
theorem places_nodup : ∀ {txs : List (Indexer.Tx × Nat)} {rows : List (List EnvelopeRow)},
    List.Forall₂ (fun e => RowsOf e.2) txs rows → (txs.map Prod.snd).Nodup → (rows.flatten.map EnvelopeRow.place).Nodup
  | _, _, .nil, _ => List.nodup_nil
  | e :: txs, rows :: rest, .cons hrows hrest, hnodup => by
    obtain ⟨hnot, hnodup⟩ := List.nodup_cons.1 hnodup
    rw [List.flatten_cons, List.map_append, List.nodup_append']
    refine ⟨hrows.1, places_nodup hrest hnodup, ?_⟩
    rw [List.disjoint_left]
    intro place h h'
    obtain ⟨r, hr, rfl⟩ := List.mem_map.1 h
    obtain ⟨r', hr', heq⟩ := List.mem_map.1 h'
    have hindex : r'.txIndex = e.2 := (congrArg Prod.fst heq).trans (hrows.2 r hr)
    exact hnot (hindex ▸ txIndex_mem hrest r' hr')

/-- **The transactions of a block** leave it open, whatever they are and wherever they throw; its end leads to the next history. -/
theorem Opens.applyBlock (hst : Opens L g st) {txs : List Indexer.Tx} : wp False (applyBlock L A txs) st (fun _ t => Opens L g t)
    fun r t => ∃ b, (Standing L (g.push b) t ∧ t.undo.has g.next = true) ∧ (r.2.map EnvelopeRow.place).Nodup ∧ r.1.height = g.next ∧
      r.1.root = (g.push b).rootAt L g.next ∧ r.1.leaves = b.leaves ∧ r.1.nullifiers = b.nullifiers ∧ r.1.exits = b.exits := by
  rw [Replay.applyBlock, wp_bind]
  refine wp_mono (wp_mapAll (fun _ _ _ ht => Opens.applyCarrier ht) hst) id (fun _ _ => id) ?_
  rintro rows t ⟨⟨b, hopen⟩, hrows⟩
  rw [wp_bind]
  refine wp_mono hopen.endBlock id (fun _ _ => False.elim) ?_
  rintro d u ⟨⟨hstanding, hundo⟩, hd⟩
  have hdepth : (0 : Int) < UNDO_DEPTH := by decide
  have hindices : ((txs.zipIdx.drop 1).map Prod.snd).Nodup := by
    rw [List.map_drop, List.zipIdx_map_snd]
    exact (List.drop_sublist ..).nodup List.nodup_range'
  exact ⟨b.block, ⟨hstanding, (hundo g.next).2 ⟨by omega, .inl rfl⟩⟩, places_nodup hrows hindices, hd⟩

/-! ### Without envelopes of the pool -/

/-- No transaction after the coinbase carries an envelope of the pool. -/
def Quiet (txs : List Indexer.Tx) : Prop := ∀ t ∈ txs.drop 1, (carrierPoolEnvelopes (Indexer.txEnvelopes t)).2 = []

theorem applyCarrier_quiet {e : Indexer.Tx × Nat} (h : (carrierPoolEnvelopes (Indexer.txEnvelopes e.1)).2 = []) :
    applyCarrier L A e st = .ok [] st := by
  unfold Replay.applyCarrier
  generalize carrierPoolEnvelopes (Indexer.txEnvelopes e.1) = c at h
  obtain ⟨vin0TacitOp, items⟩ := c
  obtain rfl : items = [] := h
  rfl

/-- Such transactions do not fail, and add nothing to the block. -/
theorem Open.applyBlock_quiet {b : Pending} (hst : Open L g b st) {txs : List Indexer.Tx} (hquiet : Quiet txs) :
    wp False (applyBlock L A txs) st (fun _ _ => False) fun r _ =>
      r.1.leaves = b.leaves ∧ r.1.nullifiers = b.nullifiers ∧ r.1.exits = b.exits := by
  have hrows : mapAll (applyCarrier L A) (txs.zipIdx.drop 1) st = .ok ((txs.zipIdx.drop 1).map fun _ => []) st := by
    refine mapAll_of_ok fun e he => applyCarrier_quiet (hquiet e.1 ?_)
    rw [← List.zipIdx_map_fst 0 txs, ← List.map_drop]
    exact List.mem_map_of_mem he
  rw [Replay.applyBlock, wp_bind, wp_ran hrows, wp_bind]
  exact wp_mono hst.endBlock id (fun _ _ => id) fun _ _ hd => hd.2.2.2


end

end Replay

end Tacit
