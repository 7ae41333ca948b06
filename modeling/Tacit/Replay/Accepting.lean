import Tacit.Replay.Abort
import Tacit.Replay.Standing
/-!
# Accepted envelopes in the open block (worker/src/btc-shielded-pool.js:424-579)

An acceptance writes into the open block what it adds to the state, each record once: a nullifier and an exit that are new, a leaf
at the next index while the tree has room.
-/
namespace Tacit

namespace Replay

open Prog Merkle
open Indexer (bytesToHex)

section

variable {P : Type} {L : Library P} {g : History} {st : BtcPoolState} {b : Pending}

/-- Some block is open behind the history. -/
def Opens (L : Library P) (g : History) (st : BtcPoolState) : Prop := ∃ b, Open L g b st

/-! ## The nullifiers of an envelope -/

theorem bytesToHex_length (b : Bytes) : (bytesToHex b).length = 2 * b.length := by
  rw [bytesToHex, String.length_ofList, List.length_flatMap, Nat.mul_comm]
  simp only [List.length_cons, List.length_nil, List.map_const', List.sum_replicate_nat]

theorem readNullifiers_length {e : Bytes} : ∀ {n p : Nat} {nfs : List Bytes}, readNullifiers e p n = some nfs → p + 32 * n ≤ e.length →
    ∀ nf ∈ nfs, nf.length = 32
  | 0, _, _, h, _, nf, hnf => by
    rw [readNullifiers] at h
    cases h
    cases hnf
  | n + 1, p, nfs, h, hle, nf, hnf => by
    simp only [readNullifiers, Option.bind_eq_bind, Option.bind_eq_some_iff, Option.pure_def, Option.some.injEq] at h
    obtain ⟨_, -, rest, hrest, rfl⟩ := h
    rcases List.mem_cons.1 hnf with rfl | hnf
    · rw [slice, List.length_take, List.length_drop]
      omega
    · exact readNullifiers_length hrest (by omega) nf hnf

theorem parseSpend_nullifiers {e : Bytes} {s : Spend} (h : parseSpend L e = some s) : ∀ nf ∈ s.nullifiers, nf.length = 32 := by
  simp only [parseSpend, Option.bind_eq_bind, Option.bind_eq_some_iff, Option.guard_eq_some', Option.pure_def, Option.some.injEq] at h
  obtain ⟨-, -, -, -, -, hlong, nullifiers, hnullifiers, _, -, _, -, _, -, _, -, _, -, _, -, -, -, -, -, -, -, rfl⟩ := h
  exact readNullifiers_length hnullifiers (by omega)

/-- The nullifiers of a spend are whole words. -/
def Envelope.Whole : Envelope → Prop
  | .spend s => ∀ nf ∈ s.nullifiers, nf.length = 32
  | _ => True

theorem parseEnvelope_whole {e : Bytes} {env : Envelope} (h : parseEnvelope L e = some env) : env.Whole := by
  match e with
  | [] => cases h
  | opcode :: rest =>
    rw [parseEnvelope] at h
    split_ifs at h
    · obtain ⟨s, -, rfl⟩ := Option.map_eq_some_iff.1 h
      trivial
    · obtain ⟨s, hs, rfl⟩ := Option.map_eq_some_iff.1 h
      exact parseSpend_nullifiers hs
    · obtain ⟨a, -, rfl⟩ := Option.map_eq_some_iff.1 h
      trivial

/-! ## The writes -/

theorem Open.recordNullifier (hst : Open L g b st) {nf txid : String} (hword : nf.length = 64) (hfresh : st.nullifiers.has nf = false) :
    wp False (recordNullifier g.next txid nf) st (fun _ _ => False) fun _ t => (Opens L g t ∧ t.exits = st.exits ∧ t.tree = st.tree) ∧
      t.nullifiers.entries = st.nullifiers.entries ++ [(nf, ⟨nf, g.next, txid⟩)] := by
  obtain ⟨hpending, hheight, hstart, hcoherent, hcontent, hrecords, htip⟩ := hst
  have hset := InsertionMap.set_entries (v := (⟨nf, g.next, txid⟩ : NullifierRecord)) hfresh
  have hnew : nf ∉ (g.push b.block).nullifiers.map NullifierRecord.nf := by
    have hkeys := hcontent.nullifiers.map Prod.fst
    rw [List.map_map] at hkeys
    exact fun hmem => InsertionMap.has_eq_false.1 hfresh (hkeys.mem_iff.2 hmem)
  have hlast := hcoherent.last
  let b' : Pending := { b with nullifiers := b.nullifiers ++ [⟨nf, g.next, txid⟩] }
  have hleaves : (g.push b'.block).leaves = (g.push b.block).leaves := History.leaves_push_congr rfl
  have hexits : (g.push b'.block).exits = (g.push b.block).exits := History.exits_push_congr rfl
  have hvalues : (g.push b'.block).values = (g.push b.block).values := congrArg (List.map _) hleaves
  have hnullifiers : (g.push b'.block).nullifiers = (g.push b.block).nullifiers ++ [⟨nf, g.next, txid⟩] := by
    rw [History.nullifiers_push, History.nullifiers_push, List.append_assoc]
    rfl
  have hat : b'.block.At g.next := by
    refine ⟨hlast.leaves, fun n hn => ?_, hlast.exits⟩
    rcases List.mem_append.1 hn with hn | hn
    · exact hlast.nullifiers n hn
    · rw [List.mem_singleton.1 hn]
  simp only [Replay.recordNullifier, wp_modify]
  refine ⟨⟨⟨b', pending_modifyPending hpending, hheight, hstart, ?_, ?_, ⟨hrecords.roots, hrecords.undo⟩, htip⟩, rfl, rfl⟩, hset⟩
  · refine ⟨hcoherent.of_push.heights_push hat, hleaves ▸ hcoherent.indices, hleaves ▸ hcoherent.field, hleaves ▸ hcoherent.fits, ?_,
      hexits ▸ hcoherent.exits_nodup, ?_⟩
    · rw [hnullifiers, List.map_append, List.nodup_append']
      exact ⟨hcoherent.nullifiers_nodup, List.nodup_singleton _, by simpa using hnew⟩
    · rw [hnullifiers]
      intro n hn
      rcases List.mem_append.1 hn with hn | hn
      · exact hcoherent.words n hn
      · rw [List.mem_singleton.1 hn]
        exact hword
  · refine ⟨hvalues ▸ hcontent.tree, hleaves ▸ hcontent.heights, ?_, hexits ▸ hcontent.exits, hcontent.limit⟩
    show (st.nullifiers.set nf _).entries.Perm _
    rw [hset, hnullifiers, List.map_append]
    exact hcontent.nullifiers.append_right _

theorem Open.recordExit (hst : Open L g b st) {asset : Bytes} {txid : String} {x : Exit}
    (hpoint : (pointFromCompressed L x.boundary.cSecp).isSome) (hfresh : st.exits.has (outKey txid x.exitVout) = false) :
    wp False (recordExit L g.next asset txid x) st (fun _ _ => False) fun _ t => Opens L g t := by
  obtain ⟨hpending, hheight, hstart, hcoherent, hcontent, hrecords, htip⟩ := hst
  obtain ⟨p, hp⟩ := Option.isSome_iff_exists.1 hpoint
  have hlast := hcoherent.last
  let record : ExitRecord := ⟨txid, x.exitVout, asset, (pointXY L p).1, (pointXY L p).2, g.next⟩
  have hset : (st.exits.set record.key record).entries = _ := InsertionMap.set_entries (v := record) hfresh
  have hnew : record.key ∉ (g.push b.block).exits.map ExitRecord.key := by
    have hkeys := hcontent.exits.map Prod.fst
    rw [List.map_map] at hkeys
    exact fun hmem => InsertionMap.has_eq_false.1 hfresh (hkeys.mem_iff.2 hmem)
  let b' : Pending := { b with exits := b.exits ++ [record] }
  have hleaves : (g.push b'.block).leaves = (g.push b.block).leaves := History.leaves_push_congr rfl
  have hnullifiers : (g.push b'.block).nullifiers = (g.push b.block).nullifiers := History.nullifiers_push_congr rfl
  have hvalues : (g.push b'.block).values = (g.push b.block).values := congrArg (List.map _) hleaves
  have hexits : (g.push b'.block).exits = (g.push b.block).exits ++ [record] := by
    rw [History.exits_push, History.exits_push, List.append_assoc]
    rfl
  have hat : b'.block.At g.next := by
    refine ⟨hlast.leaves, hlast.nullifiers, fun n hn => ?_⟩
    rcases List.mem_append.1 hn with hn | hn
    · exact hlast.exits n hn
    · rw [List.mem_singleton.1 hn]
  simp only [Replay.recordExit, hp, wp_bind, wp_orThrow, wp_modify, wp_pure]
  refine ⟨fun h => (Option.some_ne_none _ h).elim, ?_⟩
  rintro _ ⟨⟩
  refine ⟨b', pending_modifyPending hpending, hheight, hstart, ?_, ?_, ⟨hrecords.roots, hrecords.undo⟩, htip⟩
  · refine ⟨hcoherent.of_push.heights_push hat, hleaves ▸ hcoherent.indices, hleaves ▸ hcoherent.field, hleaves ▸ hcoherent.fits,
      hnullifiers ▸ hcoherent.nullifiers_nodup, ?_, hnullifiers ▸ hcoherent.words⟩
    rw [hexits, List.map_append, List.nodup_append']
    exact ⟨hcoherent.exits_nodup, List.nodup_singleton _, by simpa using hnew⟩
  · refine ⟨hvalues ▸ hcontent.tree, hleaves ▸ hcontent.heights, hnullifiers ▸ hcontent.nullifiers, ?_, hcontent.limit⟩
    show (st.exits.set record.key record).entries.Perm _
    rw [hset, hexits, List.map_append]
    exact hcontent.exits.append_right _

theorem Open.recordWant (hst : Open L g b st) {txid : String} {w : Want} :
    wp False (recordWant txid w) st (fun _ _ => False) fun _ t => Opens L g t := by
  obtain ⟨hpending, hheight, hstart, hcoherent, hcontent, hrecords, htip⟩ := hst
  simp only [Replay.recordWant, wp_bind, wp_modify, wp_pure]
  exact ⟨_, pending_modifyPending hpending, hheight, hstart, hcoherent,
    ⟨hcontent.tree, hcontent.heights, hcontent.nullifiers, hcontent.exits, hcontent.limit⟩, ⟨hrecords.roots, hrecords.undo⟩, htip⟩

theorem Open.appendLeaf (hst : Open L g b st) {asset : Bytes} {txid : String} {o : Output} (hfit : st.tree.size < MAX_LEAVES) :
    wp False (appendLeaf L g.next asset txid o) st (fun _ _ => False) fun _ t => Opens L g t ∧ t.exits = st.exits ∧
      t.tree.size = st.tree.size + 1 := by
  obtain ⟨hpending, hheight, hstart, hcoherent, hcontent, hrecords, htip⟩ := hst
  have hfield : ¬P_FR ≤ bytesToBig o.leaf := not_le.2 o.field
  have hlast := hcoherent.last
  let record : LeafRecord := ⟨o.leaf, txid, asset, o.pkEph, o.ctNote, st.tree.size, g.next⟩
  let b' : Pending := { b with leaves := b.leaves ++ [record] }
  have hnullifiers : (g.push b'.block).nullifiers = (g.push b.block).nullifiers := History.nullifiers_push_congr rfl
  have hexits : (g.push b'.block).exits = (g.push b.block).exits := History.exits_push_congr rfl
  have hleaves : (g.push b'.block).leaves = (g.push b.block).leaves ++ [record] := by
    rw [History.leaves_push, History.leaves_push, List.append_assoc]
    rfl
  have hvalues : (g.push b'.block).values = (g.push b.block).values ++ [bytesToBig o.leaf] := by
    rw [History.values, hleaves, List.map_append]
    rfl
  have hsize : st.tree.size = (g.push b.block).leaves.length := by
    rw [hcontent.tree, PoseidonTree.of_size, History.values_length]
  have hat : b'.block.At g.next := by
    refine ⟨fun n hn => ?_, hlast.nullifiers, hlast.exits⟩
    rcases List.mem_append.1 hn with hn | hn
    · exact hlast.leaves n hn
    · rw [List.mem_singleton.1 hn]
  have htree : st.tree.append L (bytesToBig o.leaf) = .of L (g.push b'.block).values := by
    rw [hcontent.tree, PoseidonTree.append_of, hvalues]
  simp only [Replay.appendLeaf, pushLeaf, wp_bind, wp_get, wp_check, wp_modify, wp_pure]
  refine ⟨hfield, fun _ => ⟨⟨b', pending_modifyPending hpending, hheight, hstart, ?_, ?_, ⟨hrecords.roots, hrecords.undo⟩, htip⟩, rfl,
    ?_⟩⟩
  · refine ⟨hcoherent.of_push.heights_push hat, ?_, ?_, ?_, hnullifiers ▸ hcoherent.nullifiers_nodup, hexits ▸ hcoherent.exits_nodup,
      hnullifiers ▸ hcoherent.words⟩
    · rw [hleaves, List.map_append, hcoherent.indices, List.length_append, List.length_singleton, List.range_succ, ← hsize]
      rfl
    · rw [hleaves]
      intro l hl
      rcases List.mem_append.1 hl with hl | hl
      · exact hcoherent.field l hl
      · rw [List.mem_singleton.1 hl]
        exact o.field
    · rw [hleaves, List.length_append, List.length_singleton, ← hsize]
      exact hfit
  · refine ⟨htree, ?_, hnullifiers ▸ hcontent.nullifiers, hexits ▸ hcontent.exits, hcontent.limit⟩
    show st.leafHeights ++ [g.next] = _
    rw [hcontent.heights, hleaves, List.map_append]
    rfl
  · show (st.tree.append L (bytesToBig o.leaf)).size = _
    rw [htree, PoseidonTree.of_size, hvalues, List.length_append, hsize, History.values_length]
    rfl

theorem Opens.recordNullifiers {txid : String} : ∀ {nfs : List String} {st : BtcPoolState}, Opens L g st → nfs.Nodup →
    (∀ nf ∈ nfs, nf.length = 64) → (∀ nf ∈ nfs, st.nullifiers.has nf = false) →
    wp False (forEach nfs (Replay.recordNullifier g.next txid)) st (fun _ _ => False) fun _ t =>
      Opens L g t ∧ t.exits = st.exits ∧ t.tree = st.tree
  | [], _, hst, _, _, _ => ⟨hst, rfl, rfl⟩
  | nf :: nfs, st, ⟨b, hst⟩, hnodup, hwords, hfresh => by
    obtain ⟨hnot, hnodup⟩ := List.nodup_cons.1 hnodup
    rw [forEach, wp_bind']
    refine wp_mono (hst.recordNullifier (hwords nf List.mem_cons_self) (hfresh nf List.mem_cons_self)) id (fun _ _ => id) ?_
    rintro _ t ⟨⟨hopens, hex, htree⟩, hset⟩
    -- the others are still new
    have hfresh' : ∀ nf' ∈ nfs, t.nullifiers.has nf' = false := by
      intro nf' hmem
      have hold := InsertionMap.has_eq_false.1 (hfresh nf' (List.mem_cons_of_mem _ hmem))
      rw [InsertionMap.has_eq_false, hset, List.map_append, List.mem_append]
      rintro (h | h)
      · exact hold h
      · obtain rfl : nf' = nf := by simpa using h
        exact hnot hmem
    refine wp_mono (Opens.recordNullifiers hopens hnodup (fun nf' h => hwords nf' (List.mem_cons_of_mem _ h)) hfresh') id (fun _ _ => id) ?_
    rintro _ u ⟨hopens', hex', htree'⟩
    exact ⟨hopens', hex'.trans hex, htree'.trans htree⟩

theorem Opens.appendLeaves {asset : Bytes} {txid : String} : ∀ {outputs : List Output} {st : BtcPoolState}, Opens L g st →
    st.tree.size + outputs.length ≤ MAX_LEAVES →
    wp False (Replay.appendLeaves L g.next asset txid outputs) st (fun _ _ => False) fun _ t => Opens L g t ∧ t.exits = st.exits
  | [], _, hst, _ => ⟨hst, rfl⟩
  | o :: outputs, st, ⟨b, hst⟩, hfit => by
    rw [List.length_cons] at hfit
    rw [Replay.appendLeaves, wp_bind]
    refine wp_mono (hst.appendLeaf (by omega)) id (fun _ _ => id) ?_
    rintro _ t ⟨hopens, hex, hsize⟩
    rw [wp_bind]
    refine wp_mono (Opens.appendLeaves hopens (by omega)) id (fun _ _ => id) ?_
    rintro _ u ⟨hopens', hex'⟩
    exact ⟨hopens', hex'.trans hex⟩

theorem Opens.whenSome {α β : Type} {o : Option α} {m : α → Run β} (hst : Opens L g st)
    (h : ∀ a ∈ o, wp False (m a) st (fun _ _ => False) fun _ t => Opens L g t) :
    wp False (whenSome o m) st (fun _ _ => False) fun _ t => Opens L g t := by
  cases o with
  | none => exact hst
  | some a =>
    rw [Replay.whenSome, wp_bind]
    exact wp_mono (h a rfl) id (fun _ _ => id) fun _ _ h => h

theorem Opens.stopped {α : Type} {r : Except Stop α} {k : α → Run Result} (hst : Opens L g st)
    (hk : ∀ a, r = .ok a → wp False (k a) st (fun _ _ => False) fun _ t => Opens L g t) :
    wp False (stopped r k) st (fun _ t => t = st) fun _ t => Opens L g t := by
  match r, hk with
  | .ok a, hk => exact wp_mono (hk a rfl) id (fun _ _ h => h.elim) fun _ _ => id
  | .error (.reject _), _ => exact hst
  | .error (.throws _), _ => exact rfl

/-! ## The acceptances -/

theorem spendChecks_room {env : Envelope} {ctx : Context} {b : Pending} {s : Spend} (h : spendChecks L st env ctx = .ok (b, s)) :
    st.pending = some b ∧ st.tree.size + s.outputs.length ≤ st.maxLeaves := by
  simp only [spendChecks, except_bind_eq_ok, need_eq_ok, refuse_eq_ok, except_pure_eq_ok, Prod.mk.injEq, not_lt] at h
  obtain ⟨_, hb, _, -, _, -, _, -, _, -, _, -, _, -, _, -, _, -, _, hroom, _, -, _, -, rfl, rfl⟩ := h
  exact ⟨hb, hroom⟩

theorem Open.height_of_pending {b b' : Pending} (hst : Open L g b st) (hb : st.pending = some b') : b'.height = g.next := by
  cases hst.pending.symm.trans hb
  exact hst.height

theorem Opens.acceptSpend (hst : Opens L g st) {env : Envelope} {ctx : Context} (hwf : env.WellFormed L)
    (hwhole : env.Whole) : wp False (acceptSpend L env ctx) st (fun _ t => t = st) fun _ t => Opens L g t := by
  obtain ⟨b₀, hopen⟩ := hst
  rw [Replay.acceptSpend, wp_bind, wp_get]
  refine Opens.stopped ⟨b₀, hopen⟩ ?_
  rintro ⟨b, s⟩ hchecks
  obtain ⟨hb, hroom⟩ := spendChecks_room hchecks
  obtain ⟨rfl, hnodup, hfresh, hexit⟩ := spendChecks_ok hchecks
  rw [hopen.content.limit] at hroom
  dsimp only
  have hwords : ∀ nf ∈ s.nullifiers.map bytesToHex, nf.length = 64 := by
    intro nf hnf
    obtain ⟨b, hb, rfl⟩ := List.mem_map.1 hnf
    rw [bytesToHex_length, hwhole b hb]
  rw [hopen.height_of_pending hb, wp_bind]
  refine wp_mono (Opens.recordNullifiers ⟨b₀, hopen⟩ hnodup hwords hfresh) id (fun _ _ => id) ?_
  rintro _ t₁ ⟨hopens₁, hex₁, htree₁⟩
  rw [wp_bind]
  refine wp_mono (Opens.appendLeaves hopens₁ (htree₁ ▸ hroom)) id (fun _ _ => id) ?_
  rintro _ t₂ ⟨⟨b₂, hopen₂⟩, hex₂⟩
  rw [wp_bind]
  refine wp_mono (Opens.whenSome ⟨b₂, hopen₂⟩ fun x hx => hopen₂.recordExit (hwf x hx) ?_) id (fun _ _ => id) ?_
  · rw [hex₂, hex₁]
    exact hexit x hx
  rintro _ t₃ ⟨b₃, hopen₃⟩
  rw [wp_bind]
  exact wp_mono (Opens.whenSome ⟨b₃, hopen₃⟩ fun _ _ => hopen₃.recordWant) id (fun _ _ => id) fun _ _ h => h

end

section

variable {P : Type} [AddCommGroup P] [DecidableEq P] {L : Library P} {g : History} {st : BtcPoolState}

theorem shieldChecks_room {env : Envelope} {ctx : Context} {b : Pending} {s : Shield} (h : shieldChecks L st env ctx = .ok (b, s)) :
    st.pending = some b ∧ st.tree.size + s.outputs.length ≤ st.maxLeaves := by
  simp only [shieldChecks, except_bind_eq_ok, need_eq_ok, refuse_eq_ok, except_pure_eq_ok, Prod.mk.injEq, not_lt] at h
  obtain ⟨_, hb, _, -, _, hroom, _, -, _, -, _, -, _, -, _, -, _, -, _, -, _, -, rfl, rfl⟩ := h
  exact ⟨hb, hroom⟩

theorem Opens.acceptShield (hst : Opens L g st) {env : Envelope} {ctx : Context} :
    wp False (acceptShield L env ctx) st (fun _ t => t = st) fun _ t => Opens L g t := by
  obtain ⟨b₀, hopen⟩ := hst
  rw [Replay.acceptShield, wp_bind, wp_get]
  refine Opens.stopped ⟨b₀, hopen⟩ ?_
  rintro ⟨b, s⟩ hchecks
  obtain ⟨hb, hroom⟩ := shieldChecks_room hchecks
  rw [hopen.content.limit] at hroom
  dsimp only
  rw [hopen.height_of_pending hb, wp_bind]
  exact wp_mono (Opens.appendLeaves ⟨b₀, hopen⟩ hroom) id (fun _ _ => id) fun _ _ h => h.1

/-- **An acceptance** that throws changes nothing; after any other the block is still open. -/
theorem Opens.run (hst : Opens L g st) (a : Acceptance L) :
    wp False (a.run L) st (fun _ t => t = st) fun _ t => Opens L g t := by
  cases a with
  | shield env ctx => exact hst.acceptShield
  | spend env ctx =>
    obtain ⟨env, e, he⟩ := env
    exact hst.acceptSpend (parseEnvelope_wellFormed he) (parseEnvelope_whole he)

end

end Replay

end Tacit
