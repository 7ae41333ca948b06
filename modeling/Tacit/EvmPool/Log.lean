import Tacit.EvmPool.Calls
/-!
# The pool keeps the right tree

The contract stores the roots it is told. With a sound proof and an injective Poseidon the root it is told next is the root
of its own tree with the pair in the next place (`Tree.insert`): the insertion's path leads from an empty pair to the
head, so it is the path of that place. Calls insert while others settle, so what a call does is stated as a growth of
the sequence of pairs (`Grows`); an event carries the place of its pair.
-/
namespace Tacit

open Prog

namespace EvmPool

/-- The verifier accepts only what has a witness. -/
def Config.Sound (cfg : Config) (G : Gadgets) : Prop :=
  ∀ proof p, cfg.verify proof p = true → ∃ w : Witness, w.Satisfies G p

/-- The leaves of a sequence of pairs. -/
def leavesOf (S : List (Nat × Nat)) : List Nat := S.flatMap fun p => [p.1, p.2]

/-- The root of the depth-32 tree over leaves, zero leaves after them. -/
def rootOf (G : Gadgets) (l : List Nat) : Nat := Merkle.treeRoot (node G) 32 (Merkle.pad 0 l)

/-- The leaf pairs of the inserting calls with their places, in the order of the events. -/
def insertions (log : List Event) : List (Nat × Nat × Nat) :=
  log.filterMap fun ev =>
    if ev.outLeaf0 ≠ 0 ∨ ev.outLeaf1 ≠ 0 then some (ev.firstIndex, ev.outLeaf0, ev.outLeaf1) else none

/-- A sequence of pairs with their places, `n` pairs before them. -/
def numbered : Nat → List (Nat × Nat) → List (Nat × Nat × Nat)
  | _, [] => []
  | n, p :: S => (2 * n, p.1, p.2) :: numbered (n + 1) S

variable {G : Gadgets} {cfg : Config} {s t : Storage} {S T : List (Nat × Nat)}

/-! ## Roots of pairs -/

theorem leavesOf_length (S : List (Nat × Nat)) : (leavesOf S).length = 2 * S.length := by
  induction S with
  | nil => rfl
  | cons p S ih =>
    simp only [leavesOf, List.flatMap_cons, List.length_append, List.length_cons, List.length_nil] at ih ⊢
    omega

theorem leavesOf_take (S : List (Nat × Nat)) : ∀ j, leavesOf (S.take j) = (leavesOf S).take (2 * j) := by
  induction S with
  | nil => intro j; simp [leavesOf]
  | cons p S ih =>
    intro j
    cases j with
    | zero => rfl
    | succ j =>
      have hj : 2 * (j + 1) = 2 * j + 1 + 1 := by omega
      simp only [leavesOf, List.take_succ_cons, List.flatMap_cons, List.cons_append, List.nil_append, hj] at ih ⊢
      rw [ih j]

theorem levelUp_leavesOf (S : List (Nat × Nat)) (z : Nat) :
    Merkle.levelUp (node G) z (leavesOf S) = S.map fun p => node G p.1 p.2 := by
  induction S with
  | nil => rfl
  | cons p S ih =>
    simp only [leavesOf, List.flatMap_cons, List.cons_append, List.nil_append, Merkle.levelUp, List.map_cons] at ih ⊢
    rw [ih]

/-- The level above the leaves. -/
def pairNodes (G : Gadgets) (S : List (Nat × Nat)) : Nat → Nat := Merkle.pad (emptyPair G) (S.map fun p => node G p.1 p.2)

theorem rootOf_leavesOf (S : List (Nat × Nat)) : rootOf G (leavesOf S) = Merkle.treeRoot (node G) 31 (pairNodes G S) := by
  show Merkle.treeRoot (node G) 31 (Merkle.level (node G) (Merkle.pad 0 (leavesOf S))) = _
  rw [Merkle.level_pad, levelUp_leavesOf]
  rfl

theorem emptyRoot_eq : emptyRoot G = rootOf G (leavesOf []) := (Merkle.treeRoot_pad_nil 0 32).symm

/-- Every pair has a leaf. -/
def Full (S : List (Nat × Nat)) : Prop := ∀ p ∈ S, p.1 ≠ 0 ∨ p.2 ≠ 0

theorem emptyPair_not_mem (hG : G.Ideal) (hS : Full S) : emptyPair G ∉ S.map fun p => node G p.1 p.2 := by
  intro h
  obtain ⟨p, hp, heq⟩ := List.mem_map.1 h
  obtain ⟨h0, h1⟩ := node_injective hG heq
  rcases hS p hp with hne | hne
  · exact hne h0
  · exact hne h1

/-- **A root determines its sequence of pairs.** -/
theorem rootOf_injective (hG : G.Ideal) (hS : Full S) (hT : Full T) (hSlen : S.length ≤ 2 ^ 31) (hTlen : T.length ≤ 2 ^ 31)
    (h : rootOf G (leavesOf S) = rootOf G (leavesOf T)) : S = T := by
  rw [rootOf_leavesOf, rootOf_leavesOf] at h
  have hnodes : S.map (fun p => node G p.1 p.2) = T.map fun p => node G p.1 p.2 := by
    refine Merkle.pad_inj (emptyPair_not_mem hG hS) (emptyPair_not_mem hG hT) (n := 2 ^ 31) (by simpa using hSlen)
      (by simpa using hTlen) fun i hi => ?_
    exact Merkle.treeRoot_injective (node_injective hG) h hi
  refine List.map_injective_iff.2 (fun p q hpq => ?_) hnodes
  obtain ⟨h0, h1⟩ := node_injective hG hpq
  exact Prod.ext h0 h1

/-! ## The stored roots -/

/-- The storage holds the roots of the prefixes of `S`, with their sizes. -/
structure Tree (G : Gadgets) (S : List (Nat × Nat)) (s : Storage) : Prop where
  root : s.root = rootOf G (leavesOf S)
  size : ∀ j ≤ S.length, s.sizeOf (rootOf G (leavesOf (S.take j))) = 2 * j + 1
  known : ∀ r, s.sizeOf r ≠ 0 → ∃ j ≤ S.length, r = rootOf G (leavesOf (S.take j))
  full : Full S
  room : S.length ≤ 2 ^ 31

theorem Tree.deployed (b : Nat) : Tree G [] (.deployed G b) where
  root := emptyRoot_eq
  size j hj := by
    obtain rfl : j = 0 := by simpa using hj
    rw [List.take_nil, ← emptyRoot_eq]
    exact Function.update_self (f := fun _ => 0) (emptyRoot G) 1
  known r hr := by
    refine ⟨0, le_refl 0, ?_⟩
    by_contra hne
    rw [List.take_nil, ← emptyRoot_eq] at hne
    simp only [Storage.deployed, Function.update_of_ne hne] at hr
    exact hr rfl
  full p hp := by cases hp
  room := Nat.zero_le _

theorem Tree.congr (h : Tree G S s) (hroot : t.root = s.root) (hsize : t.sizeOf = s.sizeOf) : Tree G S t where
  root := hroot ▸ h.root
  size := hsize ▸ h.size
  known := hsize ▸ h.known
  full := h.full
  room := h.room

theorem Tree.nextIndex (h : Tree G S s) : s.nextIndex = 2 * S.length := by
  have hsize := h.size S.length (le_refl _)
  rw [List.take_length, ← h.root] at hsize
  rw [Storage.nextIndex, hsize]
  rfl

/-- The storage has one sequence of pairs. -/
theorem Tree.unique (hG : G.Ideal) (h : Tree G S s) (h' : Tree G T s) : S = T :=
  rootOf_injective hG h.full h'.full h.room h'.room (h.root.symm.trans h'.root)

/-! ## An insertion -/

theorem pairNodes_append (p : Nat × Nat) :
    pairNodes G (S ++ [p]) = Function.update (pairNodes G S) S.length (node G p.1 p.2) := by
  rw [pairNodes, List.map_append, List.map_singleton, Merkle.pad_append, List.length_map]
  rfl

theorem leavesOf_append (S T : List (Nat × Nat)) : leavesOf (S ++ T) = leavesOf S ++ leavesOf T := List.flatMap_append ..

variable {p : PublicInputs} {w : Witness}

/-- **The new root** of an insertion on the head. -/
theorem Tree.newRoot (hG : G.Ideal) (h : Tree G S s) (hw : w.Inserts G p) (hins : p.inserts = true)
    (hold : p.oldRoot = s.root) (hstart : p.startIndex = s.nextIndex) (hroom : s.nextIndex + 2 ≤ 2 ^ 32) :
    p.newRoot = rootOf G (leavesOf (S ++ [(p.outLeaf0, p.outLeaf1)])) := by
  rw [h.nextIndex] at hstart hroom
  have hn : S.length < 2 ^ 31 := by omega
  have hs := hw.s_eq hstart hn
  -- the path is the one of the next pair
  have hbefore := hw.before hins
  rw [hs, hold, h.root, rootOf_leavesOf] at hbefore
  obtain ⟨-, hpath⟩ := Merkle.rootFrom_binding (node_injective hG) 31 (pairNodes G S) _ S.length w.insPath hw.path hbefore
  rw [Nat.mod_eq_of_lt hn] at hpath
  have hafter := hw.after hins
  rw [hs, hpath, Merkle.rootFrom_write hn] at hafter
  rw [← hafter, rootOf_leavesOf, pairNodes_append]

/-- The pair fits below the capacity: its insertion has a path. -/
theorem Tree.exists_insertion (h : Tree G S s) (hold : p.oldRoot = s.root) (hstart : p.startIndex = s.nextIndex)
    (hroom : s.nextIndex + 2 ≤ 2 ^ 32) (hnew : p.newRoot = rootOf G (leavesOf (S ++ [(p.outLeaf0, p.outLeaf1)])))
    (hins : p.inserts = true) (w : Witness) :
    { w with s := S.length, insPath := Merkle.pathOf (node G) 31 (pairNodes G S) S.length }.Inserts G p := by
  rw [h.nextIndex] at hstart hroom
  have hn : S.length < 2 ^ 31 := by omega
  have hnext : pairNodes G S S.length = emptyPair G := Merkle.pad_of_le _ (by rw [List.length_map])
  refine ⟨by rw [hstart], hn, Merkle.pathOf_length .., fun _ => ?_, fun _ => ?_, fun hno => absurd hins hno⟩
  · rw [hold, h.root, rootOf_leavesOf, ← hnext]
    exact Merkle.rootFrom_pathOf 31 _ _ hn
  · rw [hnew, rootOf_leavesOf, pairNodes_append]
    exact Merkle.rootFrom_write hn _

/-- **An insertion** moves the head and leaves the sizes of the old roots. -/
theorem Tree.insert (hG : G.Ideal) (h : Tree G S s) (hw : w.Inserts G p) (hins : p.inserts = true)
    (hold : p.oldRoot = s.root) (hstart : p.startIndex = s.nextIndex) (hroom : s.nextIndex + 2 ≤ 2 ^ 32) :
    Tree G (S ++ [(p.outLeaf0, p.outLeaf1)]) (s.record p) := by
  have hnew := h.newRoot hG hw hins hold hstart hroom
  have hnext := h.nextIndex
  have hfull : Full (S ++ [(p.outLeaf0, p.outLeaf1)]) := by
    intro q hq
    rcases List.mem_append.1 hq with hq | hq
    · exact h.full q hq
    · rw [List.mem_singleton.1 hq]
      exact inserts_iff.1 hins
  have hlen : (S ++ [(p.outLeaf0, p.outLeaf1)]).length = S.length + 1 := List.length_append
  -- no prefix has the new root
  have hne : ∀ j ≤ S.length, rootOf G (leavesOf (S.take j)) ≠ p.newRoot := by
    intro j hj heq
    rw [hnew] at heq
    have hpre := rootOf_injective hG (fun q hq => h.full q (List.mem_of_mem_take hq)) hfull
      (by rw [List.length_take]; have := h.room; omega) (by omega) heq
    have := congrArg List.length hpre
    rw [List.length_take, hlen] at this
    omega
  have hsize : (s.record p).sizeOf = Function.update s.sizeOf p.newRoot (s.nextIndex + 3) := if_pos hins
  refine ⟨?_, fun j hj => ?_, fun r hr => ?_, hfull, by omega⟩
  · rw [← hnew]
    exact if_pos hins
  · rw [hsize]
    rcases Nat.lt_or_ge S.length j with hlt | hle
    · obtain rfl : j = (S ++ [(p.outLeaf0, p.outLeaf1)]).length := by omega
      rw [List.take_length, ← hnew, Function.update_self, hnext, hlen]
      omega
    · rw [List.take_append_of_le_length hle, Function.update_of_ne (hne j hle)]
      exact h.size j hle
  · by_cases hr' : r = p.newRoot
    · refine ⟨(S ++ [(p.outLeaf0, p.outLeaf1)]).length, le_refl _, ?_⟩
      rw [List.take_length, hr', hnew]
    · rw [hsize, Function.update_of_ne hr'] at hr
      obtain ⟨j, hj, rfl⟩ := h.known r hr
      exact ⟨j, by omega, by rw [List.take_append_of_le_length hj]⟩

/-- A call without leaves writes no root. -/
theorem record_of_not_inserts (h : p.inserts = false) : (s.record p).root = s.root ∧ (s.record p).sizeOf = s.sizeOf := by
  simp [Storage.record, h]

/-! ## Any calls -/

theorem numbered_append (S T : List (Nat × Nat)) : ∀ n, numbered n (S ++ T) = numbered n S ++ numbered (n + S.length) T := by
  induction S with
  | nil => intro n; rfl
  | cons p S ih =>
    intro n
    rw [List.cons_append, numbered, numbered, ih, List.length_cons, Nat.add_right_comm, Nat.add_assoc]
    rfl

theorem insertions_append (log : List Event) (ev : Event) : insertions (log ++ [ev]) = insertions log ++ insertions [ev] :=
  List.filterMap_append

/-- The sequence of pairs grows, and the events tell by what; the gains do not matter. -/
def Grows (G : Gadgets) (_ : Int) (s t : Storage) : Prop := ∀ S, Tree G S s →
  ∃ T, Tree G (S ++ T) t ∧ (insertions t.log).Perm (insertions s.log ++ numbered S.length T)

theorem flow_grows (G : Gadgets) : Flow (Grows G) where
  refl s S h := ⟨[], by rwa [List.append_nil], by simp [numbered]⟩
  trans {d d' s t u} hst htu := by
    intro S h
    obtain ⟨T, hT, hlog⟩ := hst S h
    obtain ⟨U, hU, hlog'⟩ := htu (S ++ T) hT
    refine ⟨T ++ U, by rwa [← List.append_assoc], hlog'.trans ?_⟩
    rw [numbered_append, ← List.append_assoc, List.length_append]
    exact hlog.append_right _
  mono _ h := h
  balance s b S h := ⟨[], by rw [List.append_nil]; exact h.congr rfl rfl, by simp [numbered]⟩

/-- **A call** grows the sequence by its pair, if any, and by what is called from it. -/
theorem grows_transact (hG : G.Ideal) (hsound : cfg.Sound G) {value : Nat} {c : TransactCall} {cb : Callbacks}
    (hcb : cb.Flows (Grows G)) : Grows G 0 s ((transact cfg value c cb).call s) := by
  rcases call_cases (transact cfg value c cb) s with hcall | ⟨u, hok⟩
  · rw [hcall]
    exact (flow_grows G).refl s
  obtain ⟨hacc, t, hsettle, ht⟩ := transact_ok (flow_grows G) hcb hok
  obtain ⟨w, hw⟩ := hsound _ _ hacc.proved
  rw [ht]
  intro S h
  by_cases hins : c.pub.inserts = true
  · obtain ⟨hold, hstart, hroom⟩ := hacc.head hins
    obtain ⟨T, hT, hlog⟩ := hsettle _ (h.insert hG hw.insertion hins hold hstart hroom)
    refine ⟨(c.pub.outLeaf0, c.pub.outLeaf1) :: T, ?_, ?_⟩
    · rw [List.append_assoc] at hT
      exact hT.congr rfl rfl
    · have hev : insertions [c.event s] = [(2 * S.length, c.pub.outLeaf0, c.pub.outLeaf1)] := by
        rw [← h.nextIndex]
        simp [insertions, TransactCall.event, inserts_iff.1 hins]
      rw [insertions_append, hev, numbered]
      rw [List.length_append, List.length_singleton] at hlog
      refine (hlog.append_right _).trans ?_
      rw [List.append_assoc]
      exact (List.perm_append_singleton _ _).append_left _
  · have hno : c.pub.inserts = false := by simpa using hins
    obtain ⟨hroot, hsize⟩ := record_of_not_inserts (s := s) hno
    obtain ⟨T, hT, hlog⟩ := hsettle S (h.congr hroot hsize)
    refine ⟨T, hT.congr rfl rfl, ?_⟩
    have hev : insertions [c.event s] = [] := by
      have hzero : ¬ (c.pub.outLeaf0 ≠ 0 ∨ c.pub.outLeaf1 ≠ 0) := fun hne => hins (inserts_iff.2 hne)
      simp [insertions, TransactCall.event, hzero]
    rw [insertions_append, hev, List.append_nil]
    exact hlog

theorem grows_execAll (hG : G.Ideal) (hsound : cfg.Sound G) (acts : List Act) (s : Storage) :
    Grows G 0 s (execAll cfg acts s) :=
  (flow_grows G).execAll (fun _ _ _ _ => grows_transact hG hsound) acts s

/-- The same head and the same sizes of roots. -/
def SameHead (_ : Int) (s t : Storage) : Prop := t.root = s.root ∧ t.sizeOf = s.sizeOf

theorem flow_sameHead : Flow SameHead where
  refl _ := ⟨rfl, rfl⟩
  trans hst htu := ⟨htu.1.trans hst.1, htu.2.trans hst.2⟩
  mono _ h := h
  balance _ _ := ⟨rfl, rfl⟩

/-- A call without leaves leaves the head, if what is called from it does. -/
theorem transact_sameHead {value : Nat} {c : TransactCall} {cb : Callbacks} {u : Unit} (hins : c.pub.inserts = false)
    (hcb : cb.Flows SameHead) (hok : transact cfg value c cb s = .ok u t) : SameHead 0 s t := by
  obtain ⟨-, t', hsettle, rfl⟩ := transact_ok flow_sameHead hcb hok
  obtain ⟨hroot, hsize⟩ := record_of_not_inserts (s := s) hins
  exact ⟨hsettle.1.trans hroot, hsettle.2.trans hsize⟩

/-- What a tree says of the roots. -/
theorem Tree.everKnownRoot_iff (h : Tree G S s) (r : Nat) :
    s.everKnownRoot r = true ↔ ∃ j ≤ S.length, r = rootOf G ((leavesOf S).take (2 * j)) := by
  rw [Storage.everKnownRoot, decide_eq_true_iff]
  constructor
  · intro hr
    obtain ⟨j, hj, rfl⟩ := h.known r hr
    exact ⟨j, hj, by rw [leavesOf_take]⟩
  · rintro ⟨j, hj, rfl⟩
    rw [← leavesOf_take, h.size j hj]
    omega

theorem Tree.rootSize (h : Tree G S s) {j : Nat} (hj : j ≤ S.length) :
    s.rootSize (rootOf G ((leavesOf S).take (2 * j))) = .ok (2 * j) := by
  rw [← leavesOf_take, Storage.rootSize, h.size j hj]
  rfl

/-- Later calls leave the size of a known root. -/
theorem Tree.rootSize_execAll (hG : G.Ideal) (hsound : cfg.Sound G) (h : Tree G S s) (acts : List Act) {r n : Nat}
    (hr : s.rootSize r = .ok n) : (execAll cfg acts s).rootSize r = .ok n := by
  have hknown : s.sizeOf r ≠ 0 := by
    intro h0
    rw [Storage.rootSize, h0] at hr
    cases hr
  obtain ⟨j, hj, rfl⟩ := h.known r hknown
  obtain ⟨T, hT, -⟩ := grows_execAll hG hsound acts s S h
  have hj' : j ≤ (S ++ T).length := by
    rw [List.length_append]
    omega
  have hsame := hT.rootSize hj'
  rw [← leavesOf_take, List.take_append_of_le_length hj] at hsame
  rw [leavesOf_take, h.rootSize hj] at hr
  rw [hsame, ← hr]

/-- The checks of the head on an insertion that names it. -/
theorem headChecks_eq (hins : p.inserts = true) (hold : p.oldRoot = s.root) (hstart : p.startIndex = s.nextIndex) :
    headChecks p s = if s.nextIndex + 2 > 2 ^ 32 then .error .poolFull else .ok () := by
  rw [headChecks, if_pos hins, insertionChecks, hold, hstart]
  simp only [ne_eq, not_true_eq_false]
  rfl

end EvmPool

open EvmPool in
/-- **A pool that never hashes keeps the right tree**, at the end of any calls with any calls inside them. -/
theorem evm_pool_tree {G : Gadgets} (hG : G.Ideal) {cfg : EvmPool.Config} (hsound : cfg.Sound G) (b : Nat)
    (acts : List EvmPool.Act) :
    let s := EvmPool.execAll cfg acts (.deployed G b)
    -- the pairs of the inserting calls, in order
    ∃ S, (insertions s.log).Perm (numbered 0 S) ∧
      s.root = rootOf G (leavesOf S) ∧ s.nextIndex = (leavesOf S).length ∧ Even s.nextIndex ∧
      (∀ r, s.everKnownRoot r = true ↔ ∃ j ≤ S.length, r = rootOf G ((leavesOf S).take (2 * j))) ∧
      (∀ j ≤ S.length, s.rootSize (rootOf G ((leavesOf S).take (2 * j))) = .ok (2 * j)) ∧
      (∀ more r n, s.rootSize r = .ok n → (EvmPool.execAll cfg more s).rootSize r = .ok n) ∧
      (∀ value c cb u t, c.pub.inserts = false → cb.Flows SameHead → EvmPool.transact cfg value c cb s = .ok u t →
        SameHead 0 s t) ∧
      -- up to size 2^32 - 2 a pair fits: the call is not refused as full, and its insertion has a path
      (∀ p : PublicInputs, p.inserts = true → p.oldRoot = s.root → p.startIndex = s.nextIndex →
        p.newRoot = rootOf G (leavesOf S ++ [p.outLeaf0, p.outLeaf1]) → s.nextIndex ≤ 2 ^ 32 - 2 →
        headChecks p s = .ok () ∧ ∀ w : Witness, ∃ i path, { w with s := i, insPath := path }.Inserts G p) ∧
      -- the tree is never larger, and at size 2^32 it is full
      s.nextIndex ≤ 2 ^ 32 ∧
      (s.nextIndex = 2 ^ 32 → ∀ value c cb u t, c.pub.inserts = true → EvmPool.transact cfg value c cb s ≠ .ok u t) := by
  intro s
  obtain ⟨S, h, hlog⟩ := grows_execAll hG hsound acts _ [] (Tree.deployed b)
  rw [List.nil_append] at h
  change Tree G S s at h
  have hnext := h.nextIndex
  have hroom := h.room
  refine ⟨S, hlog, h.root, hnext.trans (leavesOf_length S).symm, ⟨S.length, ?_⟩, h.everKnownRoot_iff, fun j => h.rootSize,
    fun more r n => h.rootSize_execAll hG hsound more, fun value c cb u t => transact_sameHead, ?_, ?_, ?_⟩
  · omega
  · intro p hins hold hstart hnew hfits
    have hroom' : s.nextIndex + 2 ≤ 2 ^ 32 := by omega
    have hpair : leavesOf S ++ [p.outLeaf0, p.outLeaf1] = leavesOf (S ++ [(p.outLeaf0, p.outLeaf1)]) := by
      rw [leavesOf_append]
      rfl
    refine ⟨?_, fun w => ⟨_, _, h.exists_insertion hold hstart hroom' (hpair ▸ hnew) hins w⟩⟩
    rw [headChecks_eq hins hold hstart, if_neg (by omega)]
  · omega
  · intro hfull value c cb u t hins hok
    have := ((transact_accepted hok).head hins).2.2
    omega

/-! ### A deposit into an empty pool -/

namespace EvmPool

section
variable (K : Keccak) (G : Gadgets)

def demoBase : Config := ⟨K, 1, 5, 0, fun _ _ => false⟩

/-- One unit of ETH comes in. -/
def demoExt : ExtData := ⟨0, 1, 0, 0, [], []⟩

def demoLeaf : Nat := noteLeaf G (demoBase K).assetField 1 7 8

def demoPub : PublicInputs where
  root := emptyRoot G
  oldRoot := emptyRoot G
  newRoot := rootOf G [demoLeaf K G, 0]
  startIndex := 0
  publicAmount := 1
  extDataHash := (demoBase K).extDataHash demoExt
  asset := (demoBase K).assetField
  nf0 := 0
  nf1 := 0
  outLeaf0 := demoLeaf K G
  outLeaf1 := 0

/-- An empty input slot. -/
def emptyInput : Input := ⟨0, 0, 0, (0, 0), 0, List.replicate 32 0, (0, 0), 0⟩

def demoWitness : Witness where
  in0 := emptyInput
  in1 := emptyInput
  out0 := ⟨1, 7, 8⟩
  out1 := ⟨0, 0, 0⟩
  s := 0
  insPath := Merkle.pathOf (node G) 31 (pairNodes G []) 0

/-- A pool whose verifier accepts the deposit only. -/
def demoPool : Config := { demoBase K with verify := fun _ p => p = demoPub K G }

def demoCall : TransactCall := ⟨⟨(0, 0), ((0, 0), (0, 0)), (0, 0)⟩, demoPub K G, demoExt⟩

def demoDeposit : Act := .transact 1 (demoCall K G) [] [] [] [] [] []

end

variable {K : Keccak}

theorem emptyInput_satisfies (p : PublicInputs) : emptyInput.Satisfies G p 0 where
  range := by decide
  empty _ := rfl
  key := by decide
  index := by decide
  path := rfl
  member h := absurd rfl h
  nullifier h := absurd rfl h
  signed h := absurd rfl h

theorem demoPub_inserts (hG : G.Ideal) : (demoPub K G).inserts = true :=
  inserts_iff.2 (Or.inl (noteLeaf_ne_zero hG _ _ _ _))

theorem demoWitness_satisfies (hG : G.Ideal) : (demoWitness G).Satisfies G (demoPub K G) where
  in0 := emptyInput_satisfies _
  in1 := emptyInput_satisfies _
  out0 := ⟨show 1 < 2 ^ 120 by decide, fun h => absurd h (noteLeaf_ne_zero hG _ _ _ _), fun _ => rfl⟩
  out1 := ⟨show 0 < 2 ^ 120 by decide, fun _ => rfl, fun h => absurd rfl h⟩
  sum := rfl
  insertion := by
    have h : Tree G [] (.deployed G 0) := Tree.deployed 0
    refine h.exists_insertion rfl h.nextIndex.symm ?_ rfl (demoPub_inserts hG) (demoWitness G)
    rw [h.nextIndex]
    decide

theorem demoPool_sound (hG : G.Ideal) : (demoPool K G).Sound G := by
  intro proof p hp
  obtain rfl : p = demoPub K G := by simpa [demoPool] using hp
  exact ⟨demoWitness G, demoWitness_satisfies hG⟩

theorem demo_settle (cb : Callbacks) : settle (demoPool K G) 1 demoExt cb s = .ok () s := by
  have hin : settleIn (demoPool K G) 1 demoExt cb.pull s = .ok () s := by
    rw [settleIn, if_pos (show (demoPool K G).asset = 0 from rfl)]
    exact check_eq_ok.2 ⟨by decide, rfl⟩
  rw [settle, bind_eq_ok]
  refine ⟨(), s, hin, ?_⟩
  rw [bind_eq_ok]
  exact ⟨(), s, onlyIf_eq_ok.2 (Or.inr ⟨by decide, rfl⟩), onlyIf_eq_ok.2 (Or.inr ⟨by decide, rfl⟩)⟩

theorem demo_checks (hG : G.Ideal) {b : Nat} : transactChecks (demoPool K G) (demoCall K G) (.deployed G b) = .ok () := by
  have hnext : (Storage.deployed G b).nextIndex = 0 := (Tree.deployed b).nextIndex
  have hknown : (Storage.deployed G b).sizeOf (emptyRoot G) ≠ 0 := by simp [Storage.deployed]
  have hhead : headChecks (demoPub K G) (.deployed G b) = .ok () := by
    rw [headChecks_eq (demoPub_inserts hG) rfl hnext.symm, hnext]
    rfl
  simp only [transactChecks, except_bind_eq_ok, refuse_eq_ok, exists_and_left, exists_const]
  refine ⟨not_not.2 rfl, hknown, (), hhead, hknown, (), rfl, (), rfl, not_not.2 rfl, not_not.2 rfl, ?_⟩
  simp [demoPool, demoCall]

/-- The deposit is accepted. -/
theorem demoDeposit_ok (hG : G.Ideal) : (demoDeposit K G).exec (demoPool K G) (.deployed G 0) =
    { (Storage.deployed G 1).record (demoPub K G) with log := [(demoCall K G).event (.deployed G 1)] } := by
  rw [demoDeposit, Act.exec]
  refine call_of_ok (a := ()) ?_
  simp only [transact, bind_eq_ok, modify_eq_ok, get_eq_ok, ofExcept_eq_ok]
  exact ⟨(), .deployed G 1, rfl, _, _, ⟨rfl, rfl⟩, (), _, ⟨demo_checks hG, rfl⟩, (), _, rfl, (), _, demo_settle _, rfl⟩

theorem demo_insertions (hG : G.Ideal) :
    insertions ((demoDeposit K G).exec (demoPool K G) (.deployed G 0)).log = [(0, demoLeaf K G, 0)] := by
  have hne : demoLeaf K G ≠ 0 := noteLeaf_ne_zero hG _ _ _ _
  rw [demoDeposit_ok hG]
  simp [insertions, TransactCall.event, demoCall, demoPub, hne, (Tree.deployed 1).nextIndex]

theorem demo_pairs (hG : G.Ideal)
    (hlog : (insertions (execAll (demoPool K G) [demoDeposit K G] (.deployed G 0)).log).Perm (numbered 0 S)) :
    S = [(demoLeaf K G, 0)] := by
  rw [execAll, execAll, demo_insertions hG, List.singleton_perm] at hlog
  cases S with
  | nil => cases hlog
  | cons p T =>
    cases T with
    | nil =>
      simp only [numbered, List.cons.injEq, Prod.mk.injEq] at hlog
      rw [hlog.1.2.1, hlog.1.2.2]
    | cons q T => simp [numbered] at hlog

/-- After it the tree has the deposit's pair of leaves. -/
theorem evm_pool_tree_deposit :
    let s := execAll (demoPool codeKeccak codeGadgets) [demoDeposit codeKeccak codeGadgets] (.deployed codeGadgets 0)
    s.root = rootOf codeGadgets (leavesOf [(demoLeaf codeKeccak codeGadgets, 0)]) ∧ s.nextIndex = 2 := by
  obtain ⟨S, hlog, hroot, hnext, -⟩ :=
    evm_pool_tree codeGadgets_ideal (demoPool_sound codeGadgets_ideal) 0 [demoDeposit codeKeccak codeGadgets]
  rw [demo_pairs codeGadgets_ideal hlog] at hroot hnext
  exact ⟨hroot, hnext⟩

end EvmPool

end Tacit
