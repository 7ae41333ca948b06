import Tacit.Lib.Parallel
import Tacit.Replay.Consistent
/-!
# A block's outcome depends on the history alone (worker/src/btc-shielded-pool.js:408-598)

Two states that stand at one history differ in the order of their maps and in their undo records. Neither is read by the acceptance
of a block, so that a block gives the same rows from both.
-/
namespace Tacit

namespace Replay

open Prog
open Indexer (bytesToHex)

/-- States that a block cannot tell apart. -/
structure Alike (st st' : BtcPoolState) : Prop where
  pending : st.pending = st'.pending
  tree : st.tree = st'.tree
  heights : st.leafHeights = st'.leafHeights
  limit : st.maxLeaves = st'.maxLeaves
  nullifiers : st.nullifiers.entries.Perm st'.nullifiers.entries
  exits : st.exits.entries.Perm st'.exits.entries
  roots : st.roots.get? = st'.roots.get?

section

variable {P : Type} {L : Library P} {g : History} {b b' : Pending} {st st' : BtcPoolState}

theorem Open.alike (h : Open L g b st) (h' : Open L g b st') : Alike st st' where
  pending := h.pending.trans h'.pending.symm
  tree := h.content.tree.trans h'.content.tree.symm
  heights := h.content.heights.trans h'.content.heights.symm
  limit := h.content.limit.trans h'.content.limit.symm
  nullifiers := h.content.nullifiers.trans h'.content.nullifiers.symm
  exits := h.content.exits.trans h'.content.exits.symm
  roots := funext fun a => (h.records.roots a).trans (h'.records.roots a).symm

/-- **States at one history** are alike. -/
theorem Standing.alike (hst : Standing L g st) (hst' : Standing L g st') : Alike st st' where
  pending := hst.rests.closed.trans hst'.rests.closed.symm
  tree := hst.rests.content.tree.trans hst'.rests.content.tree.symm
  heights := hst.rests.content.heights.trans hst'.rests.content.heights.symm
  limit := hst.rests.content.limit.trans hst'.rests.content.limit.symm
  nullifiers := hst.rests.content.nullifiers.trans hst'.rests.content.nullifiers.symm
  exits := hst.rests.content.exits.trans hst'.rests.content.exits.symm
  roots := funext fun a => (hst.rests.records.roots a).trans (hst'.rests.records.roots a).symm

theorem Alike.has_nullifier (h : Alike st st') : st.nullifiers.has = st'.nullifiers.has := funext fun k => InsertionMap.has_congr h.nullifiers k

theorem Alike.has_exit (h : Alike st st') : st.exits.has = st'.exits.has := funext fun k => InsertionMap.has_congr h.exits k

/-! ## The writes -/

theorem Alike.modifyPending (h : Alike st st') (f : Pending → Pending) : Alike (modifyPending f st) (modifyPending f st') :=
  ⟨congrArg (Option.map f) h.pending, h.tree, h.heights, h.limit, h.nullifiers, h.exits, h.roots⟩

theorem Alike.recordNullifier (h : Alike st st') {height : Int} {txid nf : String} :
    Parallel Alike (recordNullifier height txid nf) (recordNullifier height txid nf) st st' := by
  have hset : Alike { st with nullifiers := st.nullifiers.set nf ⟨nf, height, txid⟩ }
      { st' with nullifiers := st'.nullifiers.set nf ⟨nf, height, txid⟩ } :=
    ⟨h.pending, h.tree, h.heights, h.limit, InsertionMap.set_perm h.nullifiers, h.exits, h.roots⟩
  exact .modify (hset.modifyPending _)

theorem Alike.appendLeaf (h : Alike st st') {height : Int} {asset : Bytes} {txid : String} {o : Output} :
    Parallel Alike (appendLeaf L height asset txid o) (appendLeaf L height asset txid o) st st' := by
  unfold Replay.appendLeaf
  refine .get_bind ?_
  rw [h.tree]
  refine .bind (.bind (.check Iff.rfl h) fun _ t t' ht => .modify ?_) fun _ t t' ht =>
    .bind (.modify (ht.modifyPending _)) fun _ _ _ => .pure
  exact ⟨ht.pending, congrArg (PoseidonTree.append L · _) ht.tree, congrArg (· ++ [height]) ht.heights, ht.limit, ht.nullifiers,
    ht.exits, ht.roots⟩

theorem Alike.appendLeaves {height : Int} {asset : Bytes} {txid : String} : ∀ {outputs : List Output} {st st' : BtcPoolState},
    Alike st st' → Parallel Alike (appendLeaves L height asset txid outputs) (appendLeaves L height asset txid outputs) st st'
  | [], _, _, h => .pure h
  | _ :: _, _, _, h => h.appendLeaf.bind fun _ _ _ ht => (Alike.appendLeaves ht).bind fun _ _ _ => .pure

theorem Alike.recordExit (h : Alike st st') {height : Int} {asset : Bytes} {txid : String} {x : Exit} :
    Parallel Alike (recordExit L height asset txid x) (recordExit L height asset txid x) st st' := by
  unfold Replay.recordExit
  refine .bind (.orThrow h) fun p t t' ht => .bind (.modify (Alike.modifyPending ?_ _)) fun _ _ _ => .pure
  exact ⟨ht.pending, ht.tree, ht.heights, ht.limit, ht.nullifiers, InsertionMap.set_perm ht.exits, ht.roots⟩

theorem Alike.recordWant (h : Alike st st') {txid : String} {w : Want} :
    Parallel Alike (recordWant txid w) (recordWant txid w) st st' := .bind (.modify (h.modifyPending _)) fun _ _ _ => .pure

theorem Alike.whenSome {α β : Type} {m : α → Run β} (h : Alike st st') (hm : ∀ a, ∀ {t t'}, Alike t t' → Parallel Alike (m a) (m a) t t')
    (o : Option α) : Parallel Alike (whenSome o m) (whenSome o m) st st' := by
  cases o with
  | none => exact .pure h
  | some a => exact (hm a h).bind fun _ _ _ => .pure

theorem Alike.stopped {α : Type} {k : α → Run Result} (h : Alike st st') (hk : ∀ a, Parallel Alike (k a) (k a) st st')
    (r : Except Stop α) : Parallel Alike (stopped r k) (stopped r k) st st' := by
  match r with
  | .ok a => exact hk a
  | .error (.reject _) => exact .pure h
  | .error (.throws _) => exact .throw h

/-! ## The acceptances -/

theorem refuse_congr {ε : Type} {p q : Prop} [Decidable p] [Decidable q] {e : ε} (h : p ↔ q) : refuse p e = refuse q e := by
  unfold refuse
  exact if_congr h rfl rfl

theorem Alike.refuse_claimed (h : Alike st st') (b : Pending) (ctx : Context) (vout : Nat) (e : Stop) :
    refuse (claimed st b ctx vout) e = refuse (claimed st' b ctx vout) e :=
  refuse_congr (by rw [claimed, claimed, h.has_exit])

theorem Alike.refuse_spent (h : Alike st st') (nfs : List String) (e : Stop) :
    refuse (∃ nf ∈ nfs, st.nullifiers.has nf = true) e = refuse (∃ nf ∈ nfs, st'.nullifiers.has nf = true) e :=
  refuse_congr (by rw [h.has_nullifier])

theorem Alike.spendChecks (h : Alike st st') (env : Envelope) (ctx : Context) : spendChecks L st env ctx = spendChecks L st' env ctx := by
  have hexit : ∀ b, exitChecks L st b ctx = exitChecks L st' b ctx := by
    intro b
    funext x
    simp only [exitChecks, h.refuse_claimed]
  have hwant : ∀ b exit, wantChecks L st b ctx exit = wantChecks L st' b ctx exit := by
    intro b exit
    funext w
    simp only [wantChecks, h.refuse_claimed]
  simp only [Replay.spendChecks, h.pending, h.tree, h.limit, h.roots, h.refuse_spent, hexit, hwant]

theorem Alike.acceptSpend (h : Alike st st') (env : Envelope) (ctx : Context) :
    Parallel Alike (acceptSpend L env ctx) (acceptSpend L env ctx) st st' := by
  unfold Replay.acceptSpend
  refine .get_bind ?_
  rw [h.spendChecks]
  refine h.stopped (fun _ => ?_) _
  exact (Parallel.forEach (fun _ _ _ ht => ht.recordNullifier) h).bind fun _ _ _ h₁ => h₁.appendLeaves.bind fun _ _ _ h₂ =>
    (h₂.whenSome (fun _ _ _ ht => ht.recordExit) _).bind fun _ _ _ h₃ => (h₃.whenSome (fun _ _ _ ht => ht.recordWant) _).bind
      fun _ _ _ => .pure

end

section

variable {P : Type} [AddCommGroup P] [DecidableEq P] {L : Library P} {g : History} {b : Pending} {st st' : BtcPoolState} {A : Answers}

theorem Alike.acceptShield (h : Alike st st') (env : Envelope) (ctx : Context) :
    Parallel Alike (acceptShield L env ctx) (acceptShield L env ctx) st st' := by
  have hchecks : shieldChecks L st env ctx = shieldChecks L st' env ctx := by
    simp only [shieldChecks, h.pending, h.tree, h.limit]
  unfold Replay.acceptShield
  refine .get_bind ?_
  rw [hchecks]
  exact h.stopped (fun _ => h.appendLeaves.bind fun _ _ _ => .pure) _

theorem Alike.acceptItem (h : Alike st st') {i k : Nat} {tx : Indexer.Tx} {vin0TacitOp : Bool} {aggregate : Option Covering} {item : Item} :
    Parallel Alike (acceptItem L A i tx vin0TacitOp aggregate k item) (acceptItem L A i tx vin0TacitOp aggregate k item) st st' := by
  unfold Replay.acceptItem
  cases parseEnvelope L item.payload with
  | none => exact .pure h
  | some env =>
    cases env with
    | aggregate a => exact .pure h
    | shield s =>
      dsimp only
      split_ifs
      · exact .pure h
      · exact (h.acceptShield _ _).bind fun _ _ _ => .pure
    | spend s => exact (h.acceptSpend _ _).bind fun _ _ _ => .pure

theorem Alike.applyCarrier (h : Alike st st') (e : Indexer.Tx × Nat) :
    Parallel Alike (applyCarrier L A e) (applyCarrier L A e) st st' := by
  have hpublics : spendPublicsNow L st = spendPublicsNow L st' := by
    funext s
    simp only [spendPublicsNow, h.pending, h.roots]
  have haggregate : ∀ parsed, aggregateFor L A e.2 st parsed = aggregateFor L A e.2 st' parsed := by
    intro parsed
    simp only [aggregateFor, hpublics]
  unfold Replay.applyCarrier
  refine .get_bind ?_
  rw [haggregate]
  exact (Parallel.ofExcept h).bind fun _ _ _ h₁ => Parallel.mapAll (fun _ _ _ ht => ht.acceptItem.bind fun _ _ _ => .pure) h₁

/-! ## A block and a replay -/

/-- The transactions of a block, from two states with the same block open. -/
theorem Open.applyBlock (h : Open L g b st) (h' : Open L g b st') {txs : List Indexer.Tx} {d : Delta} {envelopes : List EnvelopeRow}
    {t : BtcPoolState} (hrun : applyBlock L A txs st = .ok (d, envelopes) t) :
    ∃ c d' t', applyBlock L A txs st' = .ok (d', envelopes) t' ∧ (Standing L (g.push c) t ∧ Standing L (g.push c) t') ∧
      ∀ hash, Entry.of d' hash envelopes = Entry.of d hash envelopes ∧ (Entry.of d hash envelopes).block = c := by
  obtain ⟨rows, u, hrows, hrun⟩ := bind_eq_ok.1 hrun
  obtain ⟨d₁, v, hend, hrun⟩ := bind_eq_ok.1 hrun
  obtain ⟨heq, rfl⟩ := pure_eq_ok.1 hrun
  obtain ⟨rfl, rfl⟩ := Prod.mk.inj heq
  have hparallel := Parallel.mapAll (m := Replay.applyCarrier L A) (l := txs.zipIdx.drop 1) (fun e _ _ ht => ht.applyCarrier e)
    (h.alike h')
  obtain ⟨u', hrows', halike⟩ := hparallel.ok hrows
  have hkeeps : ∀ {s : BtcPoolState}, Open L g b s →
      wp False (mapAll (Replay.applyCarrier L A) (txs.zipIdx.drop 1)) s (fun _ t => Opens L g t) fun as t =>
        Opens L g t ∧ List.Forall₂ (fun e => RowsOf e.2) (txs.zipIdx.drop 1) as :=
    fun hs => wp_mapAll (fun _ _ _ ht => Opens.applyCarrier ht) ⟨_, hs⟩
  obtain ⟨⟨c, hopen⟩, -⟩ := wp_of_ok (hkeeps h) hrows
  obtain ⟨⟨c', hopen'⟩, -⟩ := wp_of_ok (hkeeps h') hrows'
  obtain rfl : c = c' := Option.some.inj (hopen.pending.symm.trans (halike.pending.trans hopen'.pending))
  obtain ⟨⟨hv, -⟩, hheight, hroot, hleaves, hnullifiers, hexits⟩ := wp_of_ok hopen.endBlock hend
  obtain ⟨d', v', hend', ⟨hv', -⟩, hheight', hroot', hleaves', hnullifiers', hexits'⟩ := ok_of_wp hopen'.endBlock
  refine ⟨c.block, d', v', bind_eq_ok.2 ⟨_, _, hrows', bind_eq_ok.2 ⟨_, _, hend', rfl⟩⟩, ⟨hv, hv'⟩, fun hash => ⟨?_, ?_⟩⟩
  · rw [Entry.of, Entry.of, hheight, hheight', hroot, hroot', hleaves, hleaves', hnullifiers, hnullifiers', hexits, hexits']
  · rw [Entry.of, hleaves, hnullifiers, hexits]
    rfl

/-- **A block gives the same rows** from any two states that stand at one history. -/
theorem Standing.replayOne (hst : Standing L g st) (hst' : Standing L g st') {w : Work} {e : Entry} {t : BtcPoolState}
    (h : replayOne L w g.next st = .ok e t) : Standing L (g.push e.block) t ∧
      ∃ t', replayOne L w g.next st' = .ok e t' ∧ Standing L (g.push e.block) t' := by
  obtain ⟨_, st₁, hbegin, hopen⟩ := ok_of_wp hst.beginBlock
  obtain ⟨_, st₁', hbegin', hopen'⟩ := ok_of_wp hst'.beginBlock
  obtain ⟨_, u, hu, h⟩ := bind_eq_ok.1 h
  cases hbegin.symm.trans hu
  obtain ⟨⟨d, envelopes⟩, u, happly, h⟩ := bind_eq_ok.1 h
  obtain ⟨rfl, rfl⟩ := pure_eq_ok.1 h
  obtain ⟨c, d', t', happly', ⟨ht, ht'⟩, hsame⟩ := hopen.applyBlock hopen' happly
  obtain ⟨hentry, hblock⟩ := hsame w.block.header.hash
  refine ⟨hblock ▸ ht, t', ?_, hblock ▸ ht'⟩
  rw [← hentry]
  exact bind_eq_ok.2 ⟨_, _, hbegin', bind_eq_ok.2 ⟨_, _, happly', rfl⟩⟩

/-- A replay stands at the blocks that it gave. -/
theorem Standing.replayAll : ∀ {ws : List Work} {g : History} {st t : BtcPoolState} {log : List Entry}, Standing L g st →
    replayAll L g.next ws st = .ok log t → Standing L ⟨g.start, g.blocks ++ log.map Entry.block⟩ t ∧ log.length = ws.length
  | [], g, st, t, log, hst, h => by
    obtain ⟨rfl, rfl⟩ := pure_eq_ok.1 h
    rw [List.map_nil, List.append_nil]
    exact ⟨hst, rfl⟩
  | w :: ws, g, st, t, log, hst, h => by
    obtain ⟨e, u, hone, h⟩ := bind_eq_ok.1 h
    obtain ⟨rest, v, hrest, h⟩ := bind_eq_ok.1 h
    obtain ⟨rfl, rfl⟩ := pure_eq_ok.1 h
    obtain ⟨hu, -⟩ := hst.replayOne hst hone
    rw [← History.next_push (b := e.block)] at hrest
    obtain ⟨hv, hlen⟩ := Standing.replayAll hu hrest
    refine ⟨?_, congrArg Nat.succ hlen⟩
    rw [List.map_cons]
    have happend : g.blocks ++ e.block :: rest.map Entry.block = (g.push e.block).blocks ++ rest.map Entry.block := by simp [History.push]
    rw [happend]
    exact hv

/-- A replay of the first blocks gives the first rows. -/
theorem replayAll_take : ∀ {ws : List Work} {h : Int} {st t : BtcPoolState} {log : List Entry} (n : Nat),
    replayAll L h ws st = .ok log t → ∃ u, replayAll L h (ws.take n) st = .ok (log.take n) u
  | _, _, st, _, _, 0, _ => ⟨st, rfl⟩
  | [], _, st, _, _, n + 1, hrun => by
    obtain ⟨rfl, rfl⟩ := pure_eq_ok.1 hrun
    exact ⟨_, rfl⟩
  | w :: ws, h, st, t, log, n + 1, hrun => by
    obtain ⟨e, u, hone, hrun⟩ := bind_eq_ok.1 hrun
    obtain ⟨rest, v, hrest, hrun⟩ := bind_eq_ok.1 hrun
    obtain ⟨rfl, rfl⟩ := pure_eq_ok.1 hrun
    obtain ⟨v', hv'⟩ := replayAll_take n hrest
    exact ⟨v', bind_eq_ok.2 ⟨e, u, hone, bind_eq_ok.2 ⟨_, _, hv', rfl⟩⟩⟩

/-- One block more. -/
theorem replayAll_concat {w : Work} {e : Entry} {u : BtcPoolState} : ∀ {ws : List Work} {h : Int} {st t : BtcPoolState}
    {log : List Entry}, replayAll L h ws st = .ok log t → replayOne L w (h + ws.length) t = .ok e u →
    replayAll L h (ws ++ [w]) st = .ok (log ++ [e]) u
  | [], h, st, t, log, hrun, hone => by
    obtain ⟨rfl, rfl⟩ := pure_eq_ok.1 hrun
    rw [List.length_nil, Nat.cast_zero, add_zero] at hone
    exact bind_eq_ok.2 ⟨e, u, hone, bind_eq_ok.2 ⟨[], u, rfl, rfl⟩⟩
  | w' :: ws, h, st, t, log, hrun, hone => by
    obtain ⟨e', v, hfirst, hrun⟩ := bind_eq_ok.1 hrun
    obtain ⟨rest, v', hrest, hrun⟩ := bind_eq_ok.1 hrun
    obtain ⟨rfl, rfl⟩ := pure_eq_ok.1 hrun
    have hheight : h + (w' :: ws).length = h + 1 + ws.length := by
      rw [List.length_cons, Nat.cast_succ]
      ring
    rw [hheight] at hone
    exact bind_eq_ok.2 ⟨e', v, hfirst, bind_eq_ok.2 ⟨rest ++ [e], u, replayAll_concat hrest hone, rfl⟩⟩

/-- A replay of one block more replays that block. -/
theorem replayOne_of_concat {w : Work} : ∀ {ws : List Work} {h : Int} {st t u : BtcPoolState} {log log' : List Entry},
    replayAll L h ws st = .ok log t → replayAll L h (ws ++ [w]) st = .ok log' u →
    ∃ e, replayOne L w (h + ws.length) t = .ok e u
  | [], h, st, t, u, log, log', hrun, hmore => by
    obtain ⟨rfl, rfl⟩ := pure_eq_ok.1 hrun
    obtain ⟨e, v, hone, hmore⟩ := bind_eq_ok.1 hmore
    obtain ⟨_, _, hnil, hmore⟩ := bind_eq_ok.1 hmore
    obtain ⟨-, rfl⟩ := pure_eq_ok.1 hnil
    obtain ⟨-, rfl⟩ := pure_eq_ok.1 hmore
    rw [List.length_nil, Nat.cast_zero, add_zero]
    exact ⟨e, hone⟩
  | w' :: ws, h, st, t, u, log, log', hrun, hmore => by
    obtain ⟨e', v, hfirst, hrun⟩ := bind_eq_ok.1 hrun
    obtain ⟨rest, v', hrest, hrun⟩ := bind_eq_ok.1 hrun
    obtain ⟨-, rfl⟩ := pure_eq_ok.1 hrun
    obtain ⟨e'', x, hfirst', hmore⟩ := bind_eq_ok.1 hmore
    obtain ⟨rest', x', hrest', hmore⟩ := bind_eq_ok.1 hmore
    obtain ⟨-, rfl⟩ := pure_eq_ok.1 hmore
    cases hfirst.symm.trans hfirst'
    have hheight : h + (w' :: ws).length = h + 1 + ws.length := by
      rw [List.length_cons, Nat.cast_succ]
      ring
    rw [hheight]
    exact replayOne_of_concat hrest hrest'

end

end Replay

end Tacit
