import Tacit.Replay.Reach
/-!
# A rejected envelope and an aborted block (worker/src/btc-shielded-pool.js:408-579)

Both acceptances check everything before they write, and what they write then cannot fail: a parsed output is a field element and
a parsed exit a point. Whatever they have written since `beginBlock` is what the open block lists (`Since`), so `abortBlock` takes
back exactly that.
-/
namespace Tacit

namespace Replay

open Prog
open Indexer (bytesToHex)

section

variable {P : Type} (L : Library P)

/-- What the calls of the open block have added to the state `s₀` before it. -/
structure Since (s₀ st : BtcPoolState) : Prop where
  grown : ∃ leaves added, s₀.tree = .of L leaves ∧ s₀.leafHeights.length = leaves.length ∧
    st.tree = .of L (leaves ++ added) ∧ s₀.leafHeights <+: st.leafHeights
  listed : ∃ b, st.pending = some b ∧ b.leafStart = s₀.tree.size ∧
    st.nullifiers.entries = s₀.nullifiers.entries ++ b.nullifiers.map (fun n => (n.nf, n)) ∧
    st.exits.entries = s₀.exits.entries ++ b.exits.map (fun x => (x.key, x))
  closed : s₀.pending = none
  rest : st.roots = s₀.roots ∧ st.undo = s₀.undo ∧ st.tip = s₀.tip ∧ st.maxLeaves = s₀.maxLeaves

/-- Whatever block is open, `t` is a later state of it. -/
def Later (st t : BtcPoolState) : Prop := ∀ s₀, Since L s₀ st → Since L s₀ t

variable {L} {st t u : BtcPoolState}

theorem Later.refl : Later L st st := fun _ h => h

theorem Later.trans (h : Later L st t) (h' : Later L t u) : Later L st u := fun s₀ hs => h' s₀ (h s₀ hs)

/-! ## The writes -/

theorem pending_modifyPending {f : Pending → Pending} {b : Pending} (hb : st.pending = some b) :
    (modifyPending f st).pending = some (f b) := congrArg (Option.map f) hb

/-- A write of an accepted envelope: it cannot fail, and keeps the exits. -/
def Writes {α : Type} (L : Library P) (m : Run α) (st : BtcPoolState) : Prop :=
  wp False m st (fun _ _ => False) fun _ t => Later L st t ∧ t.exits = st.exits

theorem recordNullifier_writes {height : Int} {txid nf : String} (hfresh : st.nullifiers.has nf = false) :
    wp False (recordNullifier height txid nf) st (fun _ _ => False) fun _ t => (Later L st t ∧ t.exits = st.exits) ∧
      t.nullifiers.entries = st.nullifiers.entries ++ [(nf, ⟨nf, height, txid⟩)] := by
  have hset := InsertionMap.set_entries (v := (⟨nf, height, txid⟩ : NullifierRecord)) hfresh
  simp only [recordNullifier, wp_modify]
  refine ⟨⟨fun s₀ h => ⟨h.grown, ?_, h.closed, h.rest⟩, rfl⟩, hset⟩
  obtain ⟨b, hb, hstart, hnf, hex⟩ := h.listed
  refine ⟨_, pending_modifyPending hb, hstart, ?_, hex⟩
  show (st.nullifiers.set nf _).entries = _
  rw [hset, hnf, List.append_assoc, List.map_append]
  rfl

theorem recordNullifiers_writes {height : Int} {txid : String} : ∀ {nfs : List String} {st : BtcPoolState}, nfs.Nodup →
    (∀ nf ∈ nfs, st.nullifiers.has nf = false) → Writes L (forEach nfs (recordNullifier height txid)) st
  | [], _, _, _ => ⟨.refl, rfl⟩
  | nf :: nfs, st, hnodup, hfresh => by
    obtain ⟨hnot, hnodup⟩ := List.nodup_cons.1 hnodup
    rw [Writes, forEach, wp_bind']
    refine wp_mono (recordNullifier_writes (L := L) (hfresh nf List.mem_cons_self)) id (fun _ _ => id) ?_
    rintro _ t ⟨⟨hlater, hex⟩, hset⟩
    -- the others are still new
    have hfresh' : ∀ nf' ∈ nfs, t.nullifiers.has nf' = false := by
      intro nf' hmem
      have hold := InsertionMap.has_eq_false.1 (hfresh nf' (List.mem_cons_of_mem _ hmem))
      rw [InsertionMap.has_eq_false, hset, List.map_append, List.mem_append]
      rintro (h | h)
      · exact hold h
      · obtain rfl : nf' = nf := by simpa using h
        exact hnot hmem
    refine wp_mono (recordNullifiers_writes hnodup hfresh') id (fun _ _ => id) ?_
    rintro _ u ⟨hlater', hex'⟩
    exact ⟨hlater.trans hlater', hex'.trans hex⟩

theorem appendLeaf_writes {height : Int} {asset : Bytes} {txid : String} {o : Output} :
    Writes L (appendLeaf L height asset txid o) st := by
  have hfield : ¬P_FR ≤ bytesToBig o.leaf := not_le.2 o.field
  simp only [Writes, appendLeaf, pushLeaf, wp_bind, wp_get, wp_check, wp_modify, wp_pure]
  refine ⟨hfield, fun _ => ⟨fun s₀ h => ⟨?_, ?_, h.closed, h.rest⟩, rfl⟩⟩
  · obtain ⟨leaves, added, htree, hlen, hgrown, hheights⟩ := h.grown
    refine ⟨leaves, added ++ [bytesToBig o.leaf], htree, hlen, ?_, hheights.trans (List.prefix_append _ _)⟩
    show st.tree.append L _ = _
    rw [hgrown, PoseidonTree.append_of, List.append_assoc]
  · obtain ⟨b, hb, hstart, hnf, hex⟩ := h.listed
    exact ⟨_, pending_modifyPending hb, hstart, hnf, hex⟩

theorem appendLeaves_writes {height : Int} {asset : Bytes} {txid : String} : ∀ {outputs : List Output} {st : BtcPoolState},
    Writes L (appendLeaves L height asset txid outputs) st
  | [], _ => ⟨.refl, rfl⟩
  | o :: outputs, st => by
    rw [Writes, appendLeaves, wp_bind]
    refine wp_mono appendLeaf_writes id (fun _ _ => id) fun _ t ⟨hlater, hex⟩ => ?_
    rw [wp_bind]
    exact wp_mono appendLeaves_writes id (fun _ _ => id) fun _ u ⟨hlater', hex'⟩ => ⟨hlater.trans hlater', hex'.trans hex⟩

theorem recordExit_writes {height : Int} {asset : Bytes} {txid : String} {x : Exit}
    (hpoint : (pointFromCompressed L x.boundary.cSecp).isSome) (hfresh : st.exits.has (outKey txid x.exitVout) = false) :
    wp False (recordExit L height asset txid x) st (fun _ _ => False) fun _ t => Later L st t := by
  obtain ⟨p, hp⟩ := Option.isSome_iff_exists.1 hpoint
  simp only [recordExit, hp, wp_bind, wp_orThrow, wp_modify, wp_pure]
  refine ⟨by simp, ?_⟩
  rintro _ ⟨⟩ s₀ h
  refine ⟨h.grown, ?_, h.closed, h.rest⟩
  obtain ⟨b, hb, hstart, hnf, hex⟩ := h.listed
  refine ⟨_, pending_modifyPending hb, hstart, hnf, ?_⟩
  show (st.exits.set (outKey txid x.exitVout) _).entries = _
  rw [InsertionMap.set_entries hfresh, hex, List.append_assoc, List.map_append]
  rfl

theorem recordWant_writes {txid : String} {w : Want} :
    wp False (recordWant txid w) st (fun _ _ => False) fun _ t => Later L st t := by
  simp only [recordWant, wp_bind, wp_modify, wp_pure]
  intro s₀ h
  obtain ⟨b, hb, hstart, hnf, hex⟩ := h.listed
  exact ⟨h.grown, ⟨_, pending_modifyPending hb, hstart, hnf, hex⟩, h.closed, h.rest⟩

theorem whenSome_writes {α β : Type} {o : Option α} {m : α → Run β}
    (h : ∀ a ∈ o, wp False (m a) st (fun _ _ => False) fun _ t => Later L st t) :
    wp False (whenSome o m) st (fun _ _ => False) fun _ t => Later L st t := by
  cases o with
  | none => exact .refl
  | some a =>
    rw [whenSome, wp_bind]
    exact wp_mono (h a rfl) id (fun _ _ => id) fun _ _ h => h

theorem stopped_spec {α : Type} {r : Except Stop α} {k : α → Run Result}
    (hk : ∀ a, r = .ok a → wp False (k a) st (fun _ _ => False) fun res t => res.accepted = true ∧ Later L st t) :
    wp False (stopped r k) st (fun _ t => t = st) fun res t => (res.accepted = false → t = st) ∧ Later L st t := by
  match r, hk with
  | .ok a, hk =>
    refine wp_mono (hk a rfl) id (fun _ _ h => h.elim) fun res t ⟨haccepted, hlater⟩ => ⟨fun hnot => ?_, hlater⟩
    rw [haccepted] at hnot
    cases hnot
  | .error (.reject _), _ => exact ⟨fun _ => rfl, .refl⟩
  | .error (.throws _), _ => exact rfl

/-! ## The acceptances -/

theorem spendChecks_ok {env : Envelope} {ctx : Context} {b : Pending} {s : Spend} (h : spendChecks L st env ctx = .ok (b, s)) :
    env = .spend s ∧ (s.nullifiers.map bytesToHex).Nodup ∧
    (∀ nf ∈ s.nullifiers.map bytesToHex, st.nullifiers.has nf = false) ∧
    ∀ x ∈ s.exit, st.exits.has (outKey ctx.txid x.exitVout) = false := by
  simp only [spendChecks, except_bind_eq_ok, need_eq_ok, refuse_eq_ok, except_pure_eq_ok, Prod.mk.injEq, not_not] at h
  obtain ⟨_, -, _, hs, _, -, _, -, _, -, _, hnodup, _, hfresh, _, hexit, _, -, _, -, _, -, _, -, rfl, rfl⟩ := h
  refine ⟨?_, hnodup, ?_, ?_⟩
  · cases env with
    | spend s => cases hs; rfl
    | shield s => cases hs
    | aggregate a => cases hs
  · intro nf hnf
    exact Bool.eq_false_of_not_eq_true fun h => hfresh ⟨nf, hnf, h⟩
  · intro x hx
    rw [Option.mem_def.1 hx] at hexit
    simp only [Option.elim_some, exitChecks, except_bind_eq_ok, refuse_eq_ok] at hexit
    obtain ⟨_, -, _, -, _, hclaimed, -⟩ := hexit
    exact Bool.eq_false_of_not_eq_true fun h => hclaimed (.inl h)

/-- **Nothing fails once `acceptSpend` writes.** -/
theorem acceptSpend_spec {env : Envelope} {ctx : Context} (hwf : env.WellFormed L) :
    wp False (acceptSpend L env ctx) st (fun _ t => t = st) fun res t => (res.accepted = false → t = st) ∧ Later L st t := by
  rw [acceptSpend, wp_bind, wp_get]
  refine stopped_spec fun ⟨b, s⟩ hchecks => ?_
  obtain ⟨rfl, hnodup, hfresh, hexit⟩ := spendChecks_ok hchecks
  rw [wp_bind]
  refine wp_mono (recordNullifiers_writes (L := L) hnodup hfresh) id (fun _ _ => id) fun _ t₁ ⟨hlater₁, hex₁⟩ => ?_
  rw [wp_bind]
  refine wp_mono appendLeaves_writes id (fun _ _ => id) fun _ t₂ ⟨hlater₂, hex₂⟩ => ?_
  rw [wp_bind]
  refine wp_mono (whenSome_writes fun x hx => recordExit_writes (hwf x hx) ?_) id (fun _ _ => id) fun _ t₃ hlater₃ => ?_
  · rw [hex₂, hex₁]
    exact hexit x hx
  rw [wp_bind]
  exact wp_mono (whenSome_writes fun _ _ => recordWant_writes) id (fun _ _ => id) fun _ t₄ hlater₄ =>
    ⟨rfl, ((hlater₁.trans hlater₂).trans hlater₃).trans hlater₄⟩

/-! ## The ends of the open block -/

theorem beginBlock_since (hst : Whole L st) {height : Int} (h : beginBlock height st = .ok () t) : Since L st t := by
  obtain ⟨leaves, htree, hlen⟩ := hst
  simp only [beginBlock, bind_eq_ok, get_eq_ok, check_eq_ok, modify_eq_ok] at h
  obtain ⟨_, _, ⟨rfl, rfl⟩, _, _, ⟨hpending, rfl⟩, _, _, ⟨-, rfl⟩, rfl⟩ := h
  refine ⟨⟨leaves, [], htree, hlen, ?_, List.prefix_refl _⟩, ⟨_, rfl, rfl, ?_, ?_⟩, by simpa using hpending, rfl, rfl, rfl,
    rfl⟩
  · rw [List.append_nil]
    exact htree
  · exact (List.append_nil _).symm
  · exact (List.append_nil _).symm

/-- **What the open block has added is taken back.** -/
theorem abortBlock_since {s₀ : BtcPoolState} (h : Since L s₀ st) : abortBlock L st = .ok () s₀ := by
  obtain ⟨⟨leaves, added, htree₀, hlen, htree, heights, hheights⟩, ⟨b, hb, hstart, hnf, hex⟩, hclosed, hrest⟩ := h
  obtain ⟨hroots, hundo, htip, hmax⟩ := hrest
  have hsize : b.leafStart = leaves.length := by rw [hstart, htree₀, PoseidonTree.of_size]
  have hfit : ¬st.tree.size < b.leafStart := by
    rw [htree, PoseidonTree.of_size, hsize, List.length_append]
    omega
  have htree' : st.tree.truncate L b.leafStart = s₀.tree := by
    rw [htree, hsize, PoseidonTree.truncate_of (by simp), List.take_left, htree₀]
  have hheights' : st.leafHeights.take b.leafStart = s₀.leafHeights := by
    rw [← hheights, hsize, ← hlen, List.take_left]
  have hnf' : (b.nullifiers.map NullifierRecord.nf).foldl InsertionMap.delete st.nullifiers = s₀.nullifiers := by
    have hdelete := InsertionMap.deleteAll_added hnf
    rwa [List.map_map] at hdelete
  have hex' : (b.exits.map ExitRecord.key).foldl InsertionMap.delete st.exits = s₀.exits := by
    have hdelete := InsertionMap.deleteAll_added hex
    rwa [List.map_map] at hdelete
  rw [ok_iff_wp]
  simp only [abortBlock, wp_bind, wp_get, hb, truncateTo, deleteAdded, wp_check, wp_modify, hfit, not_false_eq_true,
    forall_true_left, htree', hheights', hnf', hex', hroots, hundo, htip, hmax, ← hclosed, true_and, and_true]
  exact fun h => h

end

section

variable {P : Type} [AddCommGroup P] [DecidableEq P] {L : Library P} {st t : BtcPoolState}

/-- **Nothing fails once `acceptShield` writes.** -/
theorem acceptShield_spec {env : Envelope} {ctx : Context} :
    wp False (acceptShield L env ctx) st (fun _ t => t = st) fun res t => (res.accepted = false → t = st) ∧ Later L st t := by
  rw [acceptShield, wp_bind, wp_get]
  refine stopped_spec fun ⟨b, s⟩ _ => ?_
  rw [wp_bind]
  exact wp_mono appendLeaves_writes id (fun _ _ => id) fun _ t ⟨hlater, _⟩ => ⟨rfl, hlater⟩

theorem run_spec (a : Acceptance L) : wp False (a.run L) st (fun _ t => t = st) fun res t =>
    (res.accepted = false → t = st) ∧ Later L st t := by
  cases a with
  | shield env ctx => exact acceptShield_spec
  | spend env ctx =>
    obtain ⟨env, e, he⟩ := env
    exact acceptSpend_spec (parseEnvelope_wellFormed he)

/-- The acceptances of a block, each with its result or its throw. -/
def attempts (acceptances : List (Acceptance L)) : Run Unit :=
  forEach acceptances fun a => attempt (ε := Error) (a.run L) >>= fun _ => pure ()

theorem attempts_spec : ∀ {acceptances : List (Acceptance L)} {st : BtcPoolState},
    wp False (attempts acceptances) st (fun _ _ => False) fun _ t => Later L st t
  | [], _ => .refl
  | a :: acceptances, st => by
    simp only [attempts, forEach, wp_bind', wp_bind, wp_attempt, wp_pure]
    have hrest : ∀ t, wp False (attempts acceptances) t (fun _ _ => False) fun _ u => Later L t u := fun _ => attempts_spec
    refine wp_mono (run_spec a) id ?_ ?_
    · rintro e t rfl
      exact hrest t
    · rintro res t ⟨-, hlater⟩
      exact wp_mono (hrest t) id (fun _ _ => id) fun _ u hlater' => hlater.trans hlater'

/-- **A rejected envelope and an aborted block leave no trace**, in every state reached. -/
theorem rejected_or_aborted_unchanged (hst : Reachable L st) :
    (st.pending.isSome → ∀ a : Acceptance L,
      wp False (a.run L) st (fun _ t => t = st) fun res t => res.accepted = false → t = st) ∧
    ∀ height t, beginBlock height st = .ok () t → ∀ acceptances : List (Acceptance L),
      (attempts acceptances >>= fun _ => abortBlock L) t = .ok () st := by
  constructor
  · exact fun _ a => wp_mono (run_spec a) id (fun _ _ => id) fun _ _ => And.left
  · intro height t hbegin acceptances
    have hall : wp False (attempts acceptances) t (fun _ _ => False) fun _ u => Later L t u := attempts_spec
    obtain ⟨_, u, hrun, hlater⟩ := ok_of_wp hall
    exact bind_eq_ok.2 ⟨_, u, hrun, abortBlock_since (hlater st (beginBlock_since hst.whole hbegin))⟩

end

/-! ## A block of the first state -/

def GENERATOR_X : Nat := 0x79be667ef9dcbbac55a06295ce870b07029bfcdb2dce28d959f2815b16f81798
def GENERATOR_Y : Nat := 0x483ada7726a3c4655da4fbfc0e1108a8fd17b448a68554199c47d08ffb10d4b8

/-- A library that knows one point, the generator. -/
def generatorOnly : Library ℤ where
  base := 1
  fromHex b := if b = 0x02 :: bigTo32 GENERATOR_X then some 1 else none
  fromAffine _ _ := none
  toAffine _ := (GENERATOR_X, GENERATOR_Y)
  sha256 _ := List.replicate 32 0
  poseidon2 _ _ := 1
  verifyBoundary _ := none
  spendPublics p := [p.root]

/-- A spend of nullifier 5 into the leaf 7. -/
def spendOfFive : Bytes :=
  T_BTC_SPEND :: List.replicate 32 1 ++ leBytes 4 6 ++ List.replicate 36 0 ++ [1] ++ bigTo32 5 ++ [1] ++ bigTo32 7 ++
    0x02 :: bigTo32 GENERATOR_X ++ List.replicate 24 9 ++ [0, 0] ++ leBytes 2 0

def parsedSpend : Parsed generatorOnly :=
  ⟨(parseEnvelope generatorOnly spendOfFive).get (by decide +kernel), spendOfFive, (Option.some_get _).symm⟩

/-- A carrier with one input and one output. -/
def loneCarrier : Context where
  txid := "aa"
  inputs := some [⟨"bb", 0⟩]
  outputs := some [⟨1000, []⟩]
  vin0TacitOp := false
  resolveInput _ _ _ := .ok none
  verifyProof := none
  aggregate := none

theorem rejected_or_aborted_unchanged_new :
    (attempts [.shield parsedSpend loneCarrier, .spend parsedSpend loneCarrier] >>= fun _ => abortBlock generatorOnly)
      { BtcPoolState.new with pending := some ⟨7, 0, [], [], [], []⟩ } = .ok () .new :=
  (rejected_or_aborted_unchanged .new).2 7 _ rfl _

end Replay

end Tacit
