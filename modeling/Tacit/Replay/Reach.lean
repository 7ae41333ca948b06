import Tacit.Lib.Traceless
import Tacit.Replay.State
/-!
# The states the replay reaches

A call may be handed any parsed envelope and any context, and may throw; the state it leaves is one the indexer goes on with. In
every one of them the tree is the tree of its leaves, and every leaf has its height (`Whole`).
-/
namespace Tacit

namespace Replay

open Prog

section

variable {P : Type} (L : Library P)

/-- The tree is that of its leaves, and every leaf has its height. -/
def Whole (st : BtcPoolState) : Prop := ∃ leaves, st.tree = .of L leaves ∧ st.leafHeights.length = leaves.length

variable {L}

theorem new_whole : Whole L .new := ⟨[], PoseidonTree.of_nil.symm, rfl⟩

/-! ## Every operation keeps the tree whole -/

theorem upholds_modify_elsewhere {f : BtcPoolState → BtcPoolState} (htree : ∀ st, (f st).tree = st.tree)
    (hheights : ∀ st, (f st).leafHeights = st.leafHeights) : Upholds (Whole L) (modify f : Run Unit) :=
  .modify fun st ⟨leaves, h, hlen⟩ => ⟨leaves, (htree st).trans h, (congrArg List.length (hheights st)).trans hlen⟩

theorem upholds_truncateTo (n : Nat) : Upholds (Whole L) (truncateTo L n) := by
  rintro st ⟨leaves, htree, hlen⟩
  simp only [truncateTo, wp_bind, wp_get, wp_check, wp_modify]
  refine ⟨fun _ => ⟨leaves, htree, hlen⟩, fun hn => ?_⟩
  rw [htree, PoseidonTree.of_size, not_lt] at hn
  refine ⟨leaves.take n, ?_, ?_⟩
  · rw [htree, PoseidonTree.truncate_of hn]
  · simp [hlen]

theorem upholds_pushLeaf (leaf : Bytes) (height : Int) : Upholds (Whole L) (pushLeaf L leaf height) := by
  refine .bind .check fun _ => .modify ?_
  rintro st ⟨leaves, htree, hlen⟩
  refine ⟨leaves ++ [bytesToBig leaf], ?_, ?_⟩
  · show st.tree.append L _ = _
    rw [htree, PoseidonTree.append_of]
  · simp [hlen]

theorem upholds_deleteAdded (nullifiers exits : List String) : Upholds (Whole L) (deleteAdded nullifiers exits) :=
  upholds_modify_elsewhere (fun _ => rfl) fun _ => rfl

theorem upholds_beginBlock (height : Int) : Upholds (Whole L) (beginBlock height) :=
  .bind .get fun _ => .bind .check fun _ => .bind .check fun _ => upholds_modify_elsewhere (fun _ => rfl) fun _ => rfl

theorem upholds_abortBlock : Upholds (Whole L) (abortBlock L) := by
  refine .bind .get fun st => ?_
  cases st.pending with
  | none => exact .pure
  | some b =>
    exact .bind (upholds_truncateTo _) fun _ => .bind (upholds_deleteAdded _ _) fun _ =>
      upholds_modify_elsewhere (fun _ => rfl) fun _ => rfl

theorem upholds_appendLeaves (height : Int) (asset : Bytes) (txid : String) :
    ∀ outputs, Upholds (Whole L) (appendLeaves L height asset txid outputs)
  | [] => .pure
  | _ :: outputs =>
    .bind (.bind .get fun _ => .bind (upholds_pushLeaf _ _) fun _ =>
      .bind (upholds_modify_elsewhere (fun _ => rfl) fun _ => rfl) fun _ => .pure) fun _ =>
      .bind (upholds_appendLeaves height asset txid outputs) fun _ => .pure

theorem upholds_endBlock : Upholds (Whole L) (endBlock L) :=
  .bind .get fun _ => .bind .orThrow fun _ => .bind (upholds_modify_elsewhere (fun _ => rfl) fun _ => rfl) fun _ => .pure

theorem upholds_rollbackFrom (height : Int) : Upholds (Whole L) (rollbackFrom L height) := by
  have hone : ∀ h, Upholds (Whole L) (rollbackOne L h) := fun h =>
    .bind .get fun _ => .bind .orThrow fun _ => .bind (upholds_truncateTo _) fun _ => .bind (upholds_deleteAdded _ _) fun _ =>
      upholds_modify_elsewhere (fun _ => rfl) fun _ => rfl
  refine .bind upholds_abortBlock fun _ => .bind .get fun st => ?_
  cases st.tip with
  | none => exact .pure
  | some tip =>
    dsimp only
    split_ifs
    · exact .pure
    · exact .bind (.forEach fun _ _ => .check) fun _ => .bind (.forEach fun h _ => hone h) fun _ =>
        upholds_modify_elsewhere (fun _ => rfl) fun _ => rfl

theorem upholds_restore (r : Rows) : Upholds (Whole L) (restore L r) := by
  have hundo : ∀ (rootMap : InsertionMap Int Bytes) n h, Upholds (Whole L) (restoreUndo r rootMap n h) := by
    intro rootMap n
    induction n with
    | zero => exact fun _ => .pure
    | succ n ih =>
      intro h
      unfold restoreUndo
      split_ifs
      · exact .pure
      · exact .bind (upholds_modify_elsewhere (fun _ => rfl) fun _ => rfl) fun _ => ih _
  unfold restore
  cases r.tip with
  | none => exact .pure
  | some tip =>
    exact .bind (upholds_modify_elsewhere (fun _ => rfl) fun _ => rfl) fun _ =>
      .bind (.forEach fun _ _ => .bind .check fun _ => upholds_pushLeaf _ _) fun _ =>
        .bind (upholds_modify_elsewhere (fun _ => rfl) fun _ => rfl) fun _ => hundo _ _ _

end

section

variable {P : Type} [AddCommGroup P] [DecidableEq P] (L : Library P)

/-- An envelope that the parser returned. -/
def Parsed : Type := { env : Envelope // ∃ e, parseEnvelope L e = some env }

/-- What an open block is given. -/
inductive Acceptance
  | shield (env : Parsed L) (ctx : Context)
  | spend (env : Parsed L) (ctx : Context)

def Acceptance.run : Acceptance L → Run Result
  | .shield env ctx => acceptShield L env.1 ctx
  | .spend env ctx => acceptSpend L env.1 ctx

inductive Call
  | beginBlock (height : Int)
  | accept (a : Acceptance L)
  | abortBlock
  | endBlock
  | rollbackFrom (height : Int)

/-- A call whose result is not looked at. -/
def Call.run : Call L → Run Unit
  | .beginBlock height => Replay.beginBlock height
  | .accept a => a.run L >>= fun _ => pure ()
  | .abortBlock => Replay.abortBlock L
  | .endBlock => Replay.endBlock L >>= fun _ => pure ()
  | .rollbackFrom height => Replay.rollbackFrom L height

/-- A call came back, with a result or a throw. -/
def Ends {α : Type} (m : Run α) (st t : BtcPoolState) : Prop := (∃ a, m st = .ok a t) ∨ ∃ e, m st = .err e t

inductive Reachable : BtcPoolState → Prop
  | new : Reachable .new
  | restore {r : Rows} {t : BtcPoolState} : restore L r .new = .ok () t → Reachable t
  | call {st t : BtcPoolState} (c : Call L) : Reachable st → Ends (c.run L) st t → Reachable t

variable {L}

theorem Ends.of_upholds {α : Type} {m : Run α} {st t : BtcPoolState} {I : BtcPoolState → Prop} (h : Ends m st t) (hm : Upholds I m)
    (hst : I st) : I t := by
  rcases h with ⟨a, ha⟩ | ⟨e, he⟩
  · exact wp_of_ok (hm hst) ha
  · exact wp_of_err (E := fun _ t => I t) (hm hst) he

theorem upholds_stopped {α : Type} {I : BtcPoolState → Prop} {r : Except Stop α} {k : α → Run Result} (hk : ∀ a, Upholds I (k a)) :
    Upholds I (stopped r k) := by
  match r with
  | .ok a => exact hk a
  | .error (.reject _) => exact .pure
  | .error (.throws _) => exact .throw

theorem upholds_whenSome {α β : Type} {I : BtcPoolState → Prop} {o : Option α} {m : α → Run β} (hm : ∀ a, Upholds I (m a)) :
    Upholds I (whenSome o m) := by
  cases o with
  | none => exact .pure
  | some a => exact .bind (hm a) fun _ => .pure

theorem upholds_run (a : Acceptance L) : Upholds (Whole L) (a.run L) := by
  cases a with
  | shield env ctx => exact .bind .get fun _ => upholds_stopped fun _ => .bind (upholds_appendLeaves _ _ _ _) fun _ => .pure
  | spend env ctx =>
    have hexit : ∀ (height : Int) (asset : Bytes) (x : Exit), Upholds (Whole L) (recordExit L height asset ctx.txid x) :=
      fun _ _ _ => .bind .orThrow fun _ => .bind (upholds_modify_elsewhere (fun _ => rfl) fun _ => rfl) fun _ => .pure
    have hwant : ∀ w, Upholds (Whole L) (recordWant ctx.txid w) :=
      fun _ => .bind (upholds_modify_elsewhere (fun _ => rfl) fun _ => rfl) fun _ => .pure
    refine .bind .get fun _ => upholds_stopped fun _ => ?_
    exact .bind (.forEach fun _ _ => upholds_modify_elsewhere (fun _ => rfl) fun _ => rfl) fun _ =>
      .bind (upholds_appendLeaves _ _ _ _) fun _ => .bind (upholds_whenSome (hexit _ _)) fun _ =>
        .bind (upholds_whenSome hwant) fun _ => .pure

theorem upholds_call (c : Call L) : Upholds (Whole L) (c.run L) := by
  cases c with
  | beginBlock height => exact upholds_beginBlock height
  | accept a => exact .bind (upholds_run a) fun _ => .pure
  | abortBlock => exact upholds_abortBlock
  | endBlock => exact .bind upholds_endBlock fun _ => .pure
  | rollbackFrom height => exact upholds_rollbackFrom height

/-- **Every state reached is whole.** -/
theorem Reachable.whole {st : BtcPoolState} (h : Reachable L st) : Whole L st := by
  induction h with
  | new => exact new_whole
  | restore h => exact (wp_ran h).1 (upholds_restore _ new_whole)
  | call c _ hends ih => exact hends.of_upholds (upholds_call c) ih

end

end Replay

end Tacit
