import Tacit.Lib.Chunks
import Tacit.Replay.Spending
/-!
# What a wallet owns (dapp/btc-pool-client.js:184-211)

A wallet tries the leaves of the feed that it has not tried, in batches, and keeps what it found. Over any readings that is what trying
all of the feed would find, as long as leaves of one index and one value open alike. Its notes are spent by the list of nullifiers alone.
-/
namespace Tacit

namespace Replay

open Prog

/-! ## The scan -/

/-- A leaf that was tried, and what it opened to. -/
structure Tried (ν : Type) where
  leaf : Bytes
  found : Option ν

section

variable {ν : Type} (tryReceive : LeafRecord → Option ν) (leafIndexOf : ν → Nat)

/-- One batch (:194): `pool.scan` and the answers kept. -/
def scanBatch (memo : InsertionMap Nat (Tried ν)) (batch : List LeafRecord) : InsertionMap Nat (Tried ν) :=
  let found := InsertionMap.ofEntries ((batch.filterMap tryReceive).map fun x => (leafIndexOf x, x))
  (batch.map fun f => (f.leafIndex, (⟨f.leaf, found.get? f.leafIndex⟩ : Tried ν))).foldl (fun m e => m.set e.1 e.2) memo

/-- `scanMine` (:188), with the wallet's memo before and after. -/
def scanMine (memo : InsertionMap Nat (Tried ν)) (feed : List LeafRecord) : List ν × InsertionMap Nat (Tried ν) :=
  let todo := feed.filter fun f => (memo.get? f.leafIndex).map Tried.leaf ≠ some f.leaf
  let memo := (chunks 16 todo).foldl (scanBatch tryReceive leafIndexOf) memo
  (feed.filterMap fun f => (memo.get? f.leafIndex).bind Tried.found, memo)

/-- What opens carries its index. -/
def Indexed : Prop := ∀ f x, tryReceive f = some x → leafIndexOf x = f.leafIndex

/-- Leaves of one index and one value open alike. -/
def Alone (feed : List LeafRecord) : Prop :=
  ∀ f ∈ feed, ∀ f' ∈ feed, f.leafIndex = f'.leafIndex → f.leaf = f'.leaf → tryReceive f = tryReceive f'

/-- The memo holds what was found of leaves of the feed. -/
def Remembered (seen : List LeafRecord) (memo : InsertionMap Nat (Tried ν)) : Prop :=
  ∀ i s, memo.get? i = some s → ∃ f ∈ seen, f.leafIndex = i ∧ s = ⟨f.leaf, tryReceive f⟩

variable {tryReceive leafIndexOf} {memo : InsertionMap Nat (Tried ν)} {feed batch seen : List LeafRecord}

theorem index_unique (hindices : (feed.map LeafRecord.leafIndex).Nodup) {f f' : LeafRecord} (hf : f ∈ feed) (hf' : f' ∈ feed)
    (h : f.leafIndex = f'.leafIndex) : f = f' := List.inj_on_of_nodup_map hindices hf hf' h

/-- A batch of distinct indices finds of each what it opens to. -/
theorem found_get? (hindexed : Indexed tryReceive leafIndexOf) (hindices : (batch.map LeafRecord.leafIndex).Nodup) {f : LeafRecord}
    (hf : f ∈ batch) :
    (InsertionMap.ofEntries ((batch.filterMap tryReceive).map fun x => (leafIndexOf x, x))).get? f.leafIndex = tryReceive f := by
  have hentry : ∀ x, x ∈ batch.filterMap tryReceive → leafIndexOf x = f.leafIndex → tryReceive f = some x := by
    intro x hx heq
    obtain ⟨f', hf', hfound⟩ := List.mem_filterMap.1 hx
    rw [hindexed f' x hfound] at heq
    rw [← index_unique hindices hf' hf heq, hfound]
  cases hfound : tryReceive f with
  | none =>
    refine InsertionMap.get?_eq_none.2 (Bool.eq_false_iff.2 fun hhas => ?_)
    rw [InsertionMap.has_ofEntries, List.map_map] at hhas
    obtain ⟨x, hx, heq⟩ := List.mem_map.1 hhas
    rw [hentry x hx heq] at hfound
    cases hfound
  | some x =>
    have hsame : ∀ y ∈ batch.filterMap tryReceive, leafIndexOf y = leafIndexOf x → y = x := by
      intro y hy heq
      exact Option.some.inj ((hentry y hy (heq.trans (hindexed f x hfound))).symm.trans hfound)
    rw [← hindexed f x hfound]
    exact InsertionMap.get?_ofEntries hsame (List.mem_filterMap.2 ⟨f, hf, hfound⟩)

variable (memo) in
/-- **A batch** is tried, and nothing else changes. -/
theorem scanBatch_get? (hindexed : Indexed tryReceive leafIndexOf) (hindices : (batch.map LeafRecord.leafIndex).Nodup) :
    (∀ f ∈ batch, (scanBatch tryReceive leafIndexOf memo batch).get? f.leafIndex = some ⟨f.leaf, tryReceive f⟩) ∧
    ∀ i, i ∉ batch.map LeafRecord.leafIndex → (scanBatch tryReceive leafIndexOf memo batch).get? i = memo.get? i := by
  have hkeys : ∀ found : InsertionMap Nat ν,
      (batch.map fun f => (f.leafIndex, (⟨f.leaf, found.get? f.leafIndex⟩ : Tried ν))).map Prod.fst = batch.map LeafRecord.leafIndex := by
    intro found
    rw [List.map_map]
    rfl
  constructor
  · intro f hf
    rw [scanBatch, InsertionMap.get?_setAll (v := ⟨f.leaf, tryReceive f⟩), hkeys, if_pos (List.mem_map_of_mem hf)]
    intro e he heq
    obtain ⟨f', hf', rfl⟩ := List.mem_map.1 he
    rw [index_unique hindices hf' hf heq, found_get? hindexed hindices hf]
  · intro i hi
    have hnone : ∀ found : InsertionMap Nat ν,
        ∀ e ∈ batch.map fun f => (f.leafIndex, (⟨f.leaf, found.get? f.leafIndex⟩ : Tried ν)), e.1 = i → e.2 = ⟨[], none⟩ := by
      intro found e he heq
      exact (hi (heq ▸ hkeys found ▸ List.mem_map_of_mem he)).elim
    rw [scanBatch, InsertionMap.get?_setAll (hnone _), hkeys, if_neg hi]

/-- **All batches**, one after the other. -/
theorem scanBatches_get? (hindexed : Indexed tryReceive leafIndexOf) : ∀ {batches : List (List LeafRecord)}
    (memo : InsertionMap Nat (Tried ν)), (batches.flatten.map LeafRecord.leafIndex).Nodup →
    (∀ f ∈ batches.flatten, (batches.foldl (scanBatch tryReceive leafIndexOf) memo).get? f.leafIndex = some ⟨f.leaf, tryReceive f⟩) ∧
    ∀ i, i ∉ batches.flatten.map LeafRecord.leafIndex →
      (batches.foldl (scanBatch tryReceive leafIndexOf) memo).get? i = memo.get? i
  | [], memo, _ => ⟨fun f hf => (List.not_mem_nil hf).elim, fun _ _ => rfl⟩
  | batch :: batches, memo, hindices => by
    rw [List.flatten_cons, List.map_append, List.nodup_append'] at hindices
    obtain ⟨hbatch, hrest, hdisjoint⟩ := hindices
    obtain ⟨htried, hkept⟩ := scanBatch_get? memo hindexed hbatch
    obtain ⟨hlater, hsame⟩ := scanBatches_get? hindexed (scanBatch tryReceive leafIndexOf memo batch) hrest
    rw [List.foldl_cons, List.flatten_cons]
    constructor
    · intro f hf
      rcases List.mem_append.1 hf with hf | hf
      · rw [hsame _ (List.disjoint_left.1 hdisjoint (List.mem_map_of_mem hf)), htried f hf]
      · exact hlater f hf
    · intro i hi
      rw [List.map_append, List.mem_append, not_or] at hi
      rw [hsame i hi.2, hkept i hi.1]

/-- **A scan** finds what trying the whole feed would, and remembers it. -/
theorem scanMine_spec (hindexed : Indexed tryReceive leafIndexOf) (hmemo : Remembered tryReceive seen memo)
    (hindices : (feed.map LeafRecord.leafIndex).Nodup) (halone : Alone tryReceive (seen ++ feed)) :
    (scanMine tryReceive leafIndexOf memo feed).1 = feed.filterMap tryReceive ∧
      Remembered tryReceive (seen ++ feed) (scanMine tryReceive leafIndexOf memo feed).2 := by
  let todo := feed.filter fun f => (memo.get? f.leafIndex).map Tried.leaf ≠ some f.leaf
  have htodo : ∀ f, f ∈ todo ↔ f ∈ feed ∧ (memo.get? f.leafIndex).map Tried.leaf ≠ some f.leaf := by
    intro f
    rw [List.mem_filter, decide_eq_true_iff]
  have hdistinct : ((chunks 16 todo).flatten.map LeafRecord.leafIndex).Nodup := by
    rw [chunks_flatten]
    exact ((List.filter_sublist ..).map _).nodup hindices
  obtain ⟨htried, hkept⟩ := scanBatches_get? hindexed memo hdistinct
  rw [chunks_flatten] at htried hkept
  have hmissing : ∀ f ∈ feed, f ∉ todo → f.leafIndex ∉ todo.map LeafRecord.leafIndex := by
    intro f hf hnot hmem
    obtain ⟨f', hf', heq⟩ := List.mem_map.1 hmem
    exact hnot (index_unique hindices ((htodo f').1 hf').1 hf heq ▸ hf')
  constructor
  · refine List.filterMap_congr fun f hf => ?_
    by_cases hnew : f ∈ todo
    · exact (congrArg (fun o => o.bind Tried.found) (htried f hnew))
    · have hold : (memo.get? f.leafIndex).map Tried.leaf = some f.leaf := by
        by_contra hother
        exact hnew ((htodo f).2 ⟨hf, hother⟩)
      obtain ⟨s, hs, hleaf⟩ := Option.map_eq_some_iff.1 hold
      obtain ⟨f₀, hf₀, hindex, rfl⟩ := hmemo _ _ hs
      have hsame := halone f₀ (List.mem_append_left _ hf₀) f (List.mem_append_right _ hf) hindex hleaf
      rw [← hsame]
      exact congrArg (fun o => o.bind Tried.found) ((hkept _ (hmissing f hf hnew)).trans hs)
  · intro i s hs
    by_cases hnew : i ∈ todo.map LeafRecord.leafIndex
    · obtain ⟨f, hf, rfl⟩ := List.mem_map.1 hnew
      have htry := (htried f hf).symm.trans hs
      exact ⟨f, List.mem_append_right _ ((htodo f).1 hf).1, rfl, (Option.some.inj htry).symm⟩
    · obtain ⟨f, hf, hindex, hfound⟩ := hmemo i s ((hkept i hnew).symm.trans hs)
      exact ⟨f, List.mem_append_left _ hf, hindex, hfound⟩

variable (tryReceive leafIndexOf) in
/-- The memo after any readings, of the leaves `seen`. -/
inductive Scans : List LeafRecord → InsertionMap Nat (Tried ν) → Prop
  | start : Scans [] .empty
  | read {seen feed : List LeafRecord} {memo : InsertionMap Nat (Tried ν)} : Scans seen memo → (feed.map LeafRecord.leafIndex).Nodup →
      Alone tryReceive (seen ++ feed) → Scans (seen ++ feed) (scanMine tryReceive leafIndexOf memo feed).2

theorem Scans.remembered (hindexed : Indexed tryReceive leafIndexOf) (h : Scans tryReceive leafIndexOf seen memo) :
    Remembered tryReceive seen memo := by
  induction h with
  | start => exact fun i s hs => (Option.some_ne_none _ hs.symm).elim
  | read _ hindices halone ih => exact (scanMine_spec hindexed ih hindices halone).2

/-- **A wallet's scan**, after any readings, finds exactly what trying every leaf of the feed would. -/
theorem Scans.finds_all (hindexed : Indexed tryReceive leafIndexOf) (h : Scans tryReceive leafIndexOf seen memo)
    (hindices : (feed.map LeafRecord.leafIndex).Nodup) (halone : Alone tryReceive (seen ++ feed)) :
    (scanMine tryReceive leafIndexOf memo feed).1 = feed.filterMap tryReceive :=
  (scanMine_spec hindexed (h.remembered hindexed) hindices halone).1

/-- A wallet that the leaf 7 opens to. -/
def openSeven (f : LeafRecord) : Option Nat := if f.leaf = [7] then some f.leafIndex else none

theorem openSeven_indexed : Indexed openSeven id := by
  intro f x h
  unfold openSeven at h
  split_ifs at h
  exact (Option.some.inj h).symm

theorem openSeven_alone (feed : List LeafRecord) : Alone openSeven feed := by
  intro f _ f' _ hindex hleaf
  rw [openSeven, openSeven, hindex, hleaf]

def sevens : List LeafRecord := [⟨[7], "", [], [], [], 0, 1⟩, ⟨[8], "", [], [], [], 1, 1⟩, ⟨[7], "", [], [], [], 2, 2⟩]

theorem sevens_scanned : Scans openSeven id (sevens.take 1) (scanMine openSeven id .empty (sevens.take 1)).2 :=
  Scans.read .start (by decide) (openSeven_alone _)

theorem Scans.finds_all_sevens :
    (scanMine openSeven id (scanMine openSeven id .empty (sevens.take 1)).2 sevens).1 = sevens.filterMap openSeven :=
  Scans.finds_all openSeven_indexed sevens_scanned (by decide) (openSeven_alone _)

end

/-! ## The notes -/

/-- A note of the wallet's: where its leaf is, and whether it is spent if it has a nullifier. -/
structure Owned (ν : Type) where
  note : ν
  height : Int
  txid : String
  spent : Option Bool

section

variable {ν : Type} (tryReceive : LeafRecord → Option ν) (leafIndexOf : ν → Nat) (nullifierOf : ν → Option String)

/-- What was found, with the height and the transaction of its leaf (:205). -/
def ownedNotes (feed : List LeafRecord) (found : List ν) : Option (List (Owned ν)) :=
  let byIndex := InsertionMap.ofEntries (feed.map fun n => (n.leafIndex, n))
  found.mapM fun x => (byIndex.get? (leafIndexOf x)).map fun n => ⟨x, n.height, n.txid, none⟩

/-- `walletNotes` (:202) over a feed, with the list of nullifiers that is kept before and after; the replica serves the list, so that no
check names a note. -/
def walletNotes (memo : InsertionMap Nat (Tried ν)) (spent : Option Memo) (feed : List LeafRecord) (r : Replica) (rs : List Replica) :
    Except Refusal (List (Owned ν) × Option Memo) := do
  let mine ← need (ownedNotes leafIndexOf feed (scanMine tryReceive leafIndexOf memo feed).1) .failed
  if ∃ x ∈ mine, (nullifierOf x.note).isSome then do
    let list ← spentList spent r rs
    return (mine.map fun x => { x with spent := (nullifierOf x.note).map list.map.has }, some list)
  else return (mine, spent)

end

section

variable {P : Type} [AddCommGroup P] [DecidableEq P] {L : Library P} {sha256d : Bytes → Word} {start : Int} {ws ws' : List Work}
  {wss : List (List Work)} {r : Replica} {rs : List Replica} {ν : Type} {tryReceive : LeafRecord → Option ν} {leafIndexOf : ν → Nat}
  {nullifierOf : ν → Option String} {feed : List LeafRecord}

theorem mapM_keeps {α β : Type} {f : α → Option β} {g : β → α} (hf : ∀ a b, f a = some b → g b = a) :
    ∀ {l : List α} {l' : List β}, l.mapM f = some l' → l'.map g = l ∧ ∀ b ∈ l', f (g b) = some b
  | [], l', h => by
    rw [List.mapM_nil] at h
    cases h
    exact ⟨rfl, fun b hb => (List.not_mem_nil hb).elim⟩
  | a :: l, l', h => by
    simp only [List.mapM_cons, Option.bind_eq_bind, Option.bind_eq_some_iff, Option.pure_def, Option.some.injEq] at h
    obtain ⟨b, hb, bs, hbs, rfl⟩ := h
    obtain ⟨hmap, hkept⟩ := mapM_keeps hf hbs
    refine ⟨by rw [List.map_cons, hmap, hf a b hb], fun b' hb' => ?_⟩
    rcases List.mem_cons.1 hb' with rfl | hb'
    · rw [hf a b' hb, hb]
    · exact hkept b' hb'

/-- Each note has the height and the transaction of the leaf that opened. -/
theorem ownedNotes_spec (hindexed : Indexed tryReceive leafIndexOf) (hindices : (feed.map LeafRecord.leafIndex).Nodup)
    {mine : List (Owned ν)} (h : ownedNotes leafIndexOf feed (feed.filterMap tryReceive) = some mine) :
    mine.map Owned.note = feed.filterMap tryReceive ∧
      ∀ e ∈ mine, ∃ f ∈ feed, tryReceive f = some e.note ∧ e = ⟨e.note, f.height, f.txid, none⟩ := by
  obtain ⟨hnotes, hrows⟩ := mapM_keeps (g := Owned.note) (fun x e hx => by
    obtain ⟨n, -, rfl⟩ := Option.map_eq_some_iff.1 hx
    rfl) h
  refine ⟨hnotes, fun e he => ?_⟩
  have hfound : e.note ∈ feed.filterMap tryReceive := hnotes ▸ List.mem_map_of_mem he
  obtain ⟨f, hf, hopens⟩ := List.mem_filterMap.1 hfound
  have hbyIndex : (InsertionMap.ofEntries (feed.map fun n => (n.leafIndex, n))).get? f.leafIndex = some f :=
    InsertionMap.get?_ofEntries (fun n hn heq => index_unique hindices hn hf heq) hf
  have hrow := hrows e he
  rw [hindexed f e.note hopens, hbyIndex, Option.map_some] at hrow
  exact ⟨f, hf, hopens, (Option.some.inj hrow).symm⟩

def sevenNotes : List (Owned Nat) := [⟨0, 1, "", none⟩, ⟨2, 2, "", none⟩]

theorem sevenNotes_owned : ownedNotes id sevens (sevens.filterMap openSeven) = some sevenNotes := rfl

end

end Replay

end Tacit
