import Tacit.Replay.Runs
/-!
# A pass follows its source (worker-relay/src/btc-pool-indexer.js:145-250)

A pass asks its source for one hash, and from that one on trusts the links: two chains that agree at a height agree below it. So a
pass that comes to its end leaves no block that the source's chain does not have, and without a limit it leaves every confirmed one. It
undoes no block that both have, unless the undo records do not reach so far.
-/
namespace Tacit

namespace Replay

open Prog

section

variable (sha256d : Bytes → Word) (start : Int)

/-- The source answers from one chain, of these headers, up to this tip. -/
structure Source.Serves (S : Source) (chain : Int → Bytes) (chainTip : Int) : Prop where
  tip : ∀ h, S.tipHeight = .ok h → h = chainTip
  hash : ∀ h ≤ chainTip, ∀ w, S.blockHash h = .ok w → w = sha256d (chain h)
  raw : ∀ h ≤ chainTip, ∀ b, S.rawBlock (sha256d (chain h)) = .ok b → b.take 80 = chain h
  linked : ∀ h, start < h → h ≤ chainTip → ((chain h).drop 4).take 32 = (sha256d (chain (h - 1))).bytes

/-- Up to the source's tip, the blocks that stand are those of its chain. -/
def Follows (chain : Int → Bytes) (chainTip : Int) (ws : List Work) : Prop := ∀ (i : Nat) w, ws[i]? = some w →
  start + i ≤ chainTip → w.block.header.hash = sha256d (chain (start + i))

/-- No header of a block that stands has the hash of another one in the chain. -/
def NoCollision (chain : Int → Bytes) (ws : List Work) : Prop := ∀ w ∈ ws, ∀ h, w.block.header.hash = sha256d (chain h) →
  w.block.raw = chain h

variable {sha256d start} {S : Source} {chain : Int → Bytes} {chainTip : Int} {ws : List Work}

/-! ## Agreement goes down -/

theorem Source.Serves.agree_before (hs : S.Serves sha256d start chain chainTip) (hheaded : ∀ w ∈ ws, w.Headed sha256d) (hlinked : Linked ws)
    (hclear : NoCollision sha256d chain ws) {i : Nat} {v w : Work} (hv : ws[i]? = some v) (hw : ws[i + 1]? = some w)
    (hle : start + (i + 1 : Nat) ≤ chainTip) (h : w.block.header.hash = sha256d (chain (start + (i + 1 : Nat)))) :
    v.block.header.hash = sha256d (chain (start + i)) := by
  obtain ⟨hlt, hget⟩ := List.getElem?_eq_some_iff.1 hw
  have hname : v.block.header.hash.bytes = w.block.header.prevHash := by
    have hchain := List.isChain_iff_getElem.1 hlinked i hlt
    rwa [hget, (List.getElem?_eq_some_iff.1 hv).2] at hchain
  have hmem : w ∈ ws := List.mem_of_getElem? hw
  have hbelow : start + ((i + 1 : Nat) : Int) - 1 = start + i := by omega
  apply Word.bytes_injective
  rw [hname, ← (hheaded w hmem).prev, hclear w hmem _ h, hs.linked _ (by omega) hle, hbelow]

/-- Two chains that agree at a height agree below it. -/
theorem Source.Serves.agree_below (hs : S.Serves sha256d start chain chainTip) (hheaded : ∀ w ∈ ws, w.Headed sha256d) (hlinked : Linked ws)
    (hclear : NoCollision sha256d chain ws) {i : Nat} {w : Work} (hw : ws[i]? = some w) (hle : start + i ≤ chainTip)
    (h : w.block.header.hash = sha256d (chain (start + i))) : Follows sha256d start chain chainTip (ws.take (i + 1)) := by
  induction i generalizing w with
  | zero =>
    intro j v hv _
    rw [List.getElem?_take] at hv
    split_ifs at hv with hj
    obtain rfl : j = 0 := by omega
    obtain rfl := Option.some.inj (hw.symm.trans hv)
    exact h
  | succ i ih =>
    obtain ⟨v, hv⟩ : ∃ v, ws[i]? = some v := by
      obtain ⟨hlt, -⟩ := List.getElem?_eq_some_iff.1 hw
      exact ⟨_, List.getElem?_eq_getElem (by omega)⟩
    have hbefore := ih hv (by omega) (hs.agree_before hheaded hlinked hclear hv hw hle h)
    intro j u hu hj
    rw [List.getElem?_take] at hu
    split_ifs at hu with hlt
    by_cases hlast : j = i + 1
    · subst hlast
      obtain rfl := Option.some.inj (hw.symm.trans hu)
      exact h
    · exact hbefore j u (by rw [List.getElem?_take, if_pos (by omega)]; exact hu) hj

theorem Follows.take (h : Follows sha256d start chain chainTip ws) (n : Nat) : Follows sha256d start chain chainTip (ws.take n) := by
  intro i w hw
  rw [List.getElem?_take] at hw
  split_ifs at hw
  exact h i w hw

theorem Follows.push (h : Follows sha256d start chain chainTip ws) {w : Work}
    (hw : start + ws.length ≤ chainTip → w.block.header.hash = sha256d (chain (start + ws.length))) :
    Follows sha256d start chain chainTip (ws ++ [w]) := by
  intro i v hv hle
  rw [List.getElem?_append] at hv
  split_ifs at hv with hi
  · exact h i v hv hle
  · obtain ⟨hlt, hget⟩ := List.getElem?_eq_some_iff.1 hv
    obtain rfl : v = w := by
      rw [← hget]
      exact List.mem_singleton.1 (List.getElem_mem hlt)
    rw [List.length_singleton] at hlt
    obtain rfl : i = ws.length := by omega
    exact hw hle

/-! ## The fork -/

variable {blockHash : Int → Except Error Word} {db : Tables}

/-- The fork is above a block that the source has. -/
theorem findForkFrom_eq_some {f : Int} : ∀ {n : Nat} {h : Int}, findForkFrom chainTip blockHash db n h = .ok (some f) →
    f - 1 ≤ chainTip ∧ ∃ b, db.block (f - 1) = some b ∧ blockHash (f - 1) = .ok b.hash
  | 0, _, hrun => by
    rw [findForkFrom] at hrun
    cases hrun
  | n + 1, h, hrun => by
    rw [findForkFrom] at hrun
    cases hb : db.block h with
    | none =>
      rw [hb] at hrun
      cases hrun
    | some b =>
      rw [hb] at hrun
      dsimp only at hrun
      split_ifs at hrun with hle
      · obtain ⟨w, hw, hrun⟩ := except_bind_eq_ok.1 hrun
        split_ifs at hrun with heq
        · obtain rfl : f = h + 1 := Option.some.inj (except_pure_eq_ok.1 hrun)
          rw [Int.add_sub_cancel]
          exact ⟨hle, b, hb, heq ▸ hw⟩
        · exact findForkFrom_eq_some hrun
      · exact findForkFrom_eq_some hrun

/-- A block below the fork, of those looked at, is the highest that the source has. -/
theorem findForkFrom_highest {o : Option Int} : ∀ {n : Nat} {h : Int}, findForkFrom chainTip blockHash db n h = .ok o → ∀ k ≤ h,
    h - n < k → (∀ f ∈ o, f ≤ k) → (∀ j, k ≤ j → j ≤ h → ∃ b, db.block j = some b) → k ≤ chainTip →
    ∃ b w, db.block k = some b ∧ blockHash k = .ok w ∧ w ≠ b.hash
  | 0, h, _, k, hk, hn, _, _, _ => by omega
  | n + 1, h, hrun, k, hk, hn, ho, hblocks, htip => by
    obtain ⟨b, hb⟩ := hblocks h hk le_rfl
    have hrest : k ≠ h → findForkFrom chainTip blockHash db n (h - 1) = .ok o →
        ∃ b w, db.block k = some b ∧ blockHash k = .ok w ∧ w ≠ b.hash := fun hne hrun =>
      findForkFrom_highest hrun k (by omega) (by omega) ho (fun j hj hj' => hblocks j hj (by omega)) htip
    rw [findForkFrom, hb] at hrun
    dsimp only at hrun
    split_ifs at hrun with hle
    · obtain ⟨w, hw, hrun⟩ := except_bind_eq_ok.1 hrun
      split_ifs at hrun with heq
      · have hfork := ho (h + 1) (except_pure_eq_ok.1 hrun)
        omega
      · by_cases hlast : k = h
        · subst hlast
          exact ⟨b, w, hb, hw, heq⟩
        · exact hrest hlast hrun
    · exact hrest (by omega) hrun

end

section

variable {P : Type} [AddCommGroup P] [DecidableEq P] {L : Library P} {sha256d : Bytes → Word} {start : Int} {S : Source}
  {chain : Int → Bytes} {chainTip : Int} {ws : List Work} {r : Replica}

variable (sha256d start chain chainTip ws r) in
/-- The source's chain has this block too, and it can be gone back to. -/
structure Survives (i : Nat) (w : Work) : Prop where
  stands : ws[i]? = some w
  same : w.block.header.hash = sha256d (chain (start + i))
  tip : start + i ≤ chainTip
  depth : ws.length ≤ i + UNDO_DEPTH
  undo : ∀ h, start + i < h → h < start + ws.length → r.state.undo.has h = true

/-- A row that the source has too. -/
theorem Replayed.follows {g : History} {log : List Entry} (hr : Replayed L sha256d start ws r g log)
    (hs : S.Serves sha256d start chain chainTip) (hclear : NoCollision sha256d chain ws) {h : Int} {b : BlockRow}
    (hb : r.db.block h = some b) (hle : h ≤ chainTip) (hsame : S.blockHash h = .ok b.hash) :
    Follows sha256d start chain chainTip (ws.take (h + 1 - start).toNat) := by
  have hstart : start ≤ h := by
    rw [hr.holds.db, hr.holds.logs.block, hr.first] at hb
    split_ifs at hb with hstart
    exact hstart
  obtain ⟨i, rfl⟩ : ∃ i : Nat, h = start + i := ⟨(h - start).toNat, by omega⟩
  have hrow := hr.block i
  rw [hb] at hrow
  obtain ⟨w, hw, hhash⟩ := Option.map_eq_some_iff.1 hrow.symm
  have hcount : (start + (i : Int) + 1 - start).toNat = i + 1 := by omega
  rw [hcount]
  exact hs.agree_below hr.headed hr.linked hclear hw hle (hhash.trans (hs.hash _ hle _ hsame))

/-- A rescan leaves no block. -/
theorem Indexes.rescan_ends (hstart : 0 ≤ start) (h : Indexes L sha256d start ws r) (io : Option Error) :
    wp False (Replay.rescan io) r (fun _ t => Indexes L sha256d start ws t) fun _ t => Indexes L sha256d start [] t := by
  obtain ⟨g, log, hr⟩ := h.replayed hstart
  have hends := hr.holds.rescan (hr.first ▸ hstart) io
  cases hrun : Replay.rescan io r with
  | panic => exact (ne_panic_of_wp hends hrun).elim
  | err e t =>
    obtain ⟨-, rfl⟩ := wp_of_err hends hrun
    exact (wp_ended hrun).2 h
  | ok _ t =>
    have hlen := (wp_of_ok hends hrun).db
    refine (wp_ran hrun).2 ?_
    have ht := h.rescan (.inl hrun)
    rwa [hlen, Tables.of, List.map_nil, List.length_nil, List.take_zero] at ht

/-- A rollback leaves no block at its height or above. -/
theorem Indexes.rollback_ends (hstart : 0 ≤ start) (h : Indexes L sha256d start ws r) {read : Tables → Rows} (hread : Faithful read)
    (io : Option Error) (height : Int) : wp False (Replay.rollback L io read height) r (fun _ t => Indexes L sha256d start ws t) fun _ t =>
      ∃ n ≤ (height - start).toNat, Indexes L sha256d start (ws.take n) t ∧
        ((∀ h, height ≤ h → h < start + ws.length → r.state.undo.has h = true) → n = min (height - start).toNat ws.length) := by
  obtain ⟨g, log, hr⟩ := h.replayed hstart
  have hends := hr.holds.rollback (hr.first ▸ hstart) hread io height
  cases hrun : Replay.rollback L io read height r with
  | panic => exact (ne_panic_of_wp hends hrun).elim
  | err e t =>
    have hdb : t.db.blocks.length = ws.length := by
      rw [(wp_of_err hends hrun).db, Tables.of, List.length_map, hr.length.1]
    have ht := h.rollback hread (.inr ⟨e, hrun⟩)
    rw [hdb, List.take_length] at ht
    exact (wp_ended hrun).2 ht
  | ok _ t =>
    have hlen := hr.length.1
    have hnext := hr.next
    refine (wp_ran hrun).2 ⟨_, ?_, h.rollback hread (.inl hrun), fun hundo => ?_⟩
    · rcases wp_of_ok hends hrun with ht | ⟨ht, -⟩
      · rw [ht.db, Tables.of, List.length_map, List.length_take, hr.first]
        exact Nat.min_le_left _ _
      · rw [ht.db]
        exact Nat.zero_le _
    · rcases wp_of_ok hends hrun with ht | ⟨-, k, hle, hlt, hmissing⟩
      · rw [ht.db, Tables.of, List.length_map, List.length_take, hr.first, hlen]
      · rw [hundo k hle (hnext ▸ hlt)] at hmissing
        cases hmissing

/-- The fork is above every block that survives. -/
theorem Survives.below_fork {i : Nat} {w : Work} (hi : Survives sha256d start chain chainTip ws r i w) {g : History} {log : List Entry}
    (hr : Replayed L sha256d start ws r g log) (hs : S.Serves sha256d start chain chainTip) {tip : Int}
    (htip : tip + 1 = start + ws.length) {o : Option Int} (hrun : findFork start chainTip S.blockHash r.db tip = .ok o) :
    ∃ f ∈ o, start + i < f := by
  obtain ⟨hlt, -⟩ := List.getElem?_eq_some_iff.1 hi.stands
  have hdepth := hi.depth
  by_contra hnone
  push Not at hnone
  have hblocks : ∀ j, start + i ≤ j → j ≤ tip → ∃ b, r.db.block j = some b := by
    intro j hj hj'
    obtain ⟨n, rfl⟩ : ∃ n : Nat, j = start + n := ⟨(j - start).toNat, by omega⟩
    have hrow := hr.block n
    rw [List.getElem?_eq_getElem (by omega)] at hrow
    obtain ⟨b, hb, -⟩ := Option.map_eq_some_iff.1 hrow
    exact ⟨b, hb⟩
  obtain ⟨b, hash, hb, hhash, hne⟩ := findForkFrom_highest hrun _ (by omega) (by omega) hnone hblocks hi.tip
  have hrow := hr.block i
  rw [hb, hi.stands] at hrow
  have hsame : b.hash = w.block.header.hash := Option.some.inj hrow
  exact hne (by rw [hs.hash _ hi.tip _ hhash, hsame, hi.same])

/-- **The reorg check** leaves some of the first blocks, all of them in the source's chain, and every one that survives. -/
theorem Indexes.checkReorg_follows (hstart : 0 ≤ start) (h : Indexes L sha256d start ws r) (hs : S.Serves sha256d start chain chainTip)
    (hclear : NoCollision sha256d chain ws) {read : Tables → Rows} (hread : Faithful read) (io : Option Error) :
    wp False (checkReorg L start chainTip S.blockHash io read) r (fun _ t => Indexes L sha256d start ws t) fun _ t =>
      ∃ n, Indexes L sha256d start (ws.take n) t ∧ Follows sha256d start chain chainTip (ws.take n) ∧
        ∀ i w, Survives sha256d start chain chainTip ws r i w → i < n := by
  obtain ⟨g, log, hr⟩ := h.replayed hstart
  have hnext := hr.nextHeight
  have hall : Follows sha256d start chain chainTip ws → ∃ n, Indexes L sha256d start (ws.take n) r ∧
      Follows sha256d start chain chainTip (ws.take n) ∧ ∀ i w, Survives sha256d start chain chainTip ws r i w → i < n := by
    intro hfollows
    refine ⟨ws.length, ?_⟩
    rw [List.take_length]
    refine ⟨h, hfollows, fun i w hi => ?_⟩
    obtain ⟨hlt, -⟩ := List.getElem?_eq_some_iff.1 hi.stands
    exact hlt
  unfold checkReorg
  rw [wp_bind, wp_get]
  cases htip : r.state.tip with
  | none =>
    rw [nextHeight, htip] at hnext
    refine hall fun i w hw => ?_
    obtain ⟨hlt, -⟩ := List.getElem?_eq_some_iff.1 hw
    simp only [Option.map_none, Option.getD_none] at hnext
    omega
  | some tip =>
    rw [nextHeight, htip, Option.map_some, Option.getD_some] at hnext
    dsimp only
    rw [wp_ite]
    refine ⟨fun hbelow => hall fun i w _ hle => by omega, fun hreached => ?_⟩
    simp only [wp_bind, wp_ofExcept, wp_ite]
    refine ⟨fun _ _ => h, fun same hsame => ⟨fun htrue => hall ?_, fun _ => ⟨fun _ _ => h, fun fork hfork => ?_⟩⟩⟩
    · rw [sameBlock] at hsame
      cases hb : r.db.block (min tip chainTip) with
      | none =>
        rw [hb] at hsame
        obtain rfl := Except.ok.inj hsame
        cases htrue
      | some b =>
        rw [hb] at hsame
        cases hhash : S.blockHash (min tip chainTip) with
        | error e =>
          rw [hhash] at hsame
          cases hsame
        | ok w =>
          rw [hhash] at hsame
          obtain rfl := Except.ok.inj hsame
          obtain rfl := of_decide_eq_true htrue
          have hfollows := hr.follows hs hclear hb (min_le_right _ _) hhash
          intro i v hv hle
          refine hfollows i v ?_ hle
          obtain ⟨hlt, -⟩ := List.getElem?_eq_some_iff.1 hv
          rw [List.getElem?_take, if_pos (by omega)]
          exact hv
    · cases fork with
      | none =>
        refine wp_mono (h.rescan_ends hstart io) id (fun _ _ => id) fun _ t ht => ⟨0, ?_⟩
        rw [List.take_zero]
        refine ⟨ht, fun i w hw => (Option.some_ne_none w hw.symm).elim, fun i w hi => ?_⟩
        obtain ⟨f, hf, -⟩ := hi.below_fork hr hs hnext hfork
        cases hf
      | some fork =>
        obtain ⟨hle, b, hb, hhash⟩ := findForkFrom_eq_some hfork
        refine wp_mono (h.rollback_ends hstart hread io fork) id (fun _ _ => id) ?_
        rintro _ t ⟨n, hn, ht, hundone⟩
        refine ⟨n, ht, ?_, fun i w hi => ?_⟩
        · have hfollows := hr.follows hs hclear hb hle hhash
          rw [Int.sub_add_cancel] at hfollows
          have htake := hfollows.take n
          rwa [List.take_take, Nat.min_eq_left hn] at htake
        · obtain ⟨f, hf, hlt⟩ := hi.below_fork hr hs hnext hfork
          obtain rfl := Option.some.inj hf
          obtain ⟨hstands, -⟩ := List.getElem?_eq_some_iff.1 hi.stands
          have hcount := hundone fun k hk hk' => hi.undo k (by omega) hk'
          omega

/-- A block that goes on from the last one joins the blocks that stand, or leaves them. -/
theorem Indexes.processBlock_ends (hstart : 0 ≤ start) (h : Indexes L sha256d start ws r) {w : Work} (hext : w.Extends sha256d start r)
    (io : Option Error) : wp False (Replay.processBlock L w io (start + ws.length)) r (fun _ t => Indexes L sha256d start ws t)
      fun _ t => Indexes L sha256d start (ws ++ [w]) t := by
  obtain ⟨g, log, hr⟩ := h.replayed hstart
  have hends := hr.holds.processBlock w io
  rw [hr.next, ← hr.nextHeight] at hends
  rw [← hr.nextHeight]
  cases hrun : Replay.processBlock L w io (nextHeight start r.state) r with
  | panic => exact (ne_panic_of_wp hends hrun).elim
  | err e t => exact (wp_ended hrun).2 (h.failed hrun)
  | ok _ t => exact (wp_ran hrun).2 (h.block hext hrun)

/-- A block of the source's chain goes on from the last one. -/
theorem Indexes.extendsTip (hstart : 0 ≤ start) (h : Indexes L sha256d start ws r) (hs : S.Serves sha256d start chain chainTip)
    (hfollows : Follows sha256d start chain chainTip ws) (hpos : 0 < ws.length) (hle : start + ws.length ≤ chainTip)
    {b : Indexer.Block} {raw : Bytes} (hraw : S.rawBlock (sha256d (chain (start + ws.length))) = .ok raw) {hash : Option Word}
    (hparse : Indexer.parseBlock sha256d raw hash = .ok b) : Replay.extendsTip r.db (start + ws.length) b.header := by
  obtain ⟨g, log, hr⟩ := h.replayed hstart
  have hbefore : start + (ws.length : Int) - 1 = start + (ws.length - 1 : Nat) := by omega
  have hlast : ws[ws.length - 1]? = some (ws.get ⟨ws.length - 1, by omega⟩) := List.getElem?_eq_getElem (by omega)
  have hrow := hr.block (ws.length - 1)
  rw [hlast, Option.map_some] at hrow
  obtain ⟨row, hrow, hhash⟩ := Option.map_eq_some_iff.1 hrow
  have haccepted := Indexer.parseBlock_eq_ok.1 hparse
  have hheader := haccepted.header
  unfold Indexer.parseHeader at hheader
  split_ifs at hheader
  have hprev := congrArg Indexer.Header.prevHash (Except.ok.inj hheader)
  refine ⟨row, hbefore ▸ hrow, ?_⟩
  rw [hhash, hfollows _ _ hlast (by omega), ← hprev, haccepted.raw_eq, hs.raw _ hle _ hraw, hs.linked _ (by omega) hle, hbefore]

/-- **The loop** adds blocks of the source's chain, and below its tip never breaks off. -/
theorem Indexes.replayBlocks_follows (hstart : 0 ≤ start) (hs : S.Serves sha256d start chain chainTip) : ∀ {n : Nat} {ws : List Work}
    {r : Replica}, Indexes L sha256d start ws r → Follows sha256d start chain chainTip ws →
    wp False (replayBlocks L sha256d S start n (start + ws.length)) r
      (fun _ t => ∃ ws', Indexes L sha256d start (ws ++ ws') t ∧ Follows sha256d start chain chainTip (ws ++ ws'))
      fun _ t => ∃ ws', Indexes L sha256d start (ws ++ ws') t ∧ Follows sha256d start chain chainTip (ws ++ ws') ∧
        (start + ws.length + n ≤ chainTip + 1 → ws'.length = n)
  | 0, ws, r, h, hfollows => ⟨[], by rwa [List.append_nil], by rwa [List.append_nil], fun _ => rfl⟩
  | n + 1, ws, r, h, hfollows => by
    have hends : ∀ {t}, Indexes L sha256d start ws t →
        ∃ ws', Indexes L sha256d start (ws ++ ws') t ∧ Follows sha256d start chain chainTip (ws ++ ws') :=
      fun ht => ⟨[], by rwa [List.append_nil], by rwa [List.append_nil]⟩
    rw [replayBlocks]
    simp only [wp_bind, wp_ofExcept, wp_get, wp_ite]
    refine ⟨fun _ _ => hends h, fun hash hhash => ⟨fun _ _ => hends h, fun raw hraw => ⟨fun _ _ => hends h, fun b hb => ?_⟩⟩⟩
    have hparse : Indexer.parseBlock sha256d raw (some hash) = .ok b := by
      cases hrun : Indexer.parseBlock sha256d raw (some hash) with
      | error e => rw [hrun] at hb; cases hb
      | ok b' => rw [hrun] at hb; cases hb; rfl
    have hheader : b.header.hash = hash := (Indexer.parseBlock_eq_ok.1 hparse).expected _ rfl
    refine ⟨?_, fun hnext => ⟨fun _ _ => hends h, fun _ _ => ?_⟩⟩
    · rintro ⟨hlt, hbroken⟩
      refine ⟨[], by rwa [List.append_nil], by rwa [List.append_nil], fun hroom => (hbroken ?_).elim⟩
      obtain rfl := hs.hash _ (by omega) _ hhash
      exact h.extendsTip hstart hs hfollows (by omega) (by omega) hraw hparse
    · obtain ⟨g, log, hr⟩ := h.replayed hstart
      have hext : Work.Extends sha256d start ⟨S.answers (start + ws.length), b⟩ r := by
        refine ⟨⟨raw, hheader.symm ▸ hparse⟩, fun hlt => ?_⟩
        rw [hr.nextHeight] at hlt ⊢
        exact not_not.1 (not_and.1 hnext hlt)
      refine wp_mono (h.processBlock_ends hstart hext _) id (fun _ _ => hends) ?_
      rintro _ t ht
      have hfollows' := hfollows.push (w := ⟨S.answers (start + ws.length), b⟩) fun hle => by
        rw [hheader]
        exact hs.hash _ hle _ hhash
      have hrest := replayBlocks_follows hstart hs (n := n) ht hfollows'
      rw [List.length_append, List.length_singleton, Nat.cast_add, Nat.cast_one, ← Int.add_assoc] at hrest
      refine wp_mono hrest id ?_ ?_
      · rintro _ u ⟨ws', hu, hu'⟩
        rw [List.append_assoc] at hu hu'
        exact ⟨_, hu, hu'⟩
      · rintro _ u ⟨ws', hu, hu', hlen⟩
        rw [List.append_assoc] at hu hu'
        refine ⟨_, hu, hu', fun hroom => ?_⟩
        rw [List.singleton_append, List.length_cons, hlen (by omega)]

def plainSource : Source where
  tipHeight := .ok 0
  blockHash _ := .ok plainWork.block.header.hash
  rawBlock _ := .ok plainBytes
  checkHeader _ _ := .ok ()
  answers _ := plainWork.answers
  commits _ := none

theorem plainSource_serves : plainSource.Serves Bitcoin.codeSha 0 (fun _ => plainWork.block.raw) 0 where
  tip _ h := (Except.ok.inj h).symm
  hash _ _ _ h := (Except.ok.inj h).symm
  raw _ _ _ h := by
    obtain rfl := Except.ok.inj h
    exact (Indexer.parseBlock_eq_ok.1 plainWork_parsed).raw_eq.symm
  linked _ h h' := (not_lt_of_ge h' h).elim

end

end Replay

end Tacit
