import Tacit.Lib.Reader
import Tacit.BtcPool.Secp
/-!
# The body of a pool spend (btc-pool-core/src/lib.rs:36-265)

Every field has a fixed width and the reader requires exact consumption, so a body is parsed exactly when it is the encoding of
a spend within the bounds whose points are points.
-/
namespace Tacit

namespace BtcPool

open Cursor
open Wire (Octets)

/-! ## The record -/

/-- `BtcPoolOutput` (:69). -/
structure BtcPoolOutput where
  cx : Octets 32
  cy : Octets 32
  spendKey : Octets 32
  nkPub : Octets 33
  pkEph : Octets 33
  ctNote : Octets 56

/-- `BtcPoolExit` (:86). -/
structure BtcPoolExit where
  exitVout : U 32
  cx : Octets 32
  cy : Octets 32
  destSpkHash : Octets 32

/-- `BtcPoolWant` (:95). -/
structure BtcPoolWant where
  vout : U 32
  value : U 64
  spkHash : Octets 32

/-- `BtcPoolSpendBody` (:106). -/
structure BtcPoolSpendBody where
  asset : Octets 32
  hAnchor : U 32
  bind : Octets 36
  nullifiers : List (Octets 32)
  outputs : List BtcPoolOutput
  exit : Option BtcPoolExit
  want : Option BtcPoolWant

def T_BTC_SPEND_OPCODE : UInt8 := 0x6D
def BTC_POOL_MAX_IN : Nat := 2
def BTC_POOL_MAX_OUT : Nat := 3

/-! ## The writer -/

def BtcPoolOutput.encode (o : BtcPoolOutput) : List UInt8 :=
  o.cx.val ++ o.cy.val ++ o.spendKey.val ++ o.nkPub.val ++ o.pkEph.val ++ o.ctNote.val

def BtcPoolExit.encode (e : BtcPoolExit) : List UInt8 := toLe 4 e.exitVout.val ++ e.cx.val ++ e.cy.val ++ e.destSpkHash.val

def BtcPoolWant.encode (w : BtcPoolWant) : List UInt8 := toLe 4 w.vout.val ++ toLe 8 w.value.val ++ w.spkHash.val

/-- A flag, and what it announces: the two `match`es of `encode`. -/
def encodeOptional {α : Type} (encode : α → List UInt8) : Option α → List UInt8
  | none => [0]
  | some a => 1 :: encode a

/-- `BtcPoolSpendBody::encode` (:218). -/
def BtcPoolSpendBody.encode (s : BtcPoolSpendBody) : List UInt8 :=
  [T_BTC_SPEND_OPCODE] ++ s.asset.val ++ toLe 4 s.hAnchor.val ++ s.bind.val ++ [UInt8.ofNat s.nullifiers.length] ++
    (s.nullifiers.map Subtype.val).flatten ++ [UInt8.ofNat s.outputs.length] ++ (s.outputs.map BtcPoolOutput.encode).flatten ++
    encodeOptional BtcPoolExit.encode s.exit ++ encodeOptional BtcPoolWant.encode s.want

/-! ## The reader -/

/-- A method of `Reader` (:116). -/
abbrev BodyReader := Reader UInt8 String

namespace BodyReader

/-- `take` (:122); a `pos + n` past the machine's range is past the buffer's end too, and refused alike. -/
def take (n : Nat) : BodyReader (List UInt8) := Reader.take n "btc-pool: body truncated"

/-- `arr` (:128). -/
def arr (n : Nat) : BodyReader (Octets n) := do
  let l ← take n
  return ⟨(l ++ List.replicate n 0).take n, by simp⟩

/-- `u8` (:133). -/
def u8 : BodyReader UInt8 := do
  let l ← take 1
  return l.headD 0

/-- `u32_le` and `u64_le` (:136). -/
def le (w k : Nat) : BodyReader (U w) := do
  let a ← arr k
  return U.wrap w (fromLe a.val)

def u32Le : BodyReader (U 32) := le 32 4
def u64Le : BodyReader (U 64) := le 64 8

/-- The flag of an optional field, and the field. -/
def optional {α : Type} (err : String) (m : BodyReader α) : BodyReader (Option α) := do
  let flag ← u8
  if flag = 0 then return none
  else if flag = 1 then do
    let a ← m
    return some a
  else throw err

section

variable {E : Type} (S : Secp E)

/-- `point_xy` (:143). -/
def pointXy : BodyReader (Octets 32 × Octets 32) := do
  let cx ← arr 32
  let cy ← arr 32
  Reader.refuse (S.fromAffineXy (octetWord cx) (octetWord cy)).isNone "btc-pool: commitment not a curve point"
  return (cx, cy)

/-- `xonly_key` (:150). -/
def xonlyKey : BodyReader (Octets 32) := do
  let k ← arr 32
  Reader.refuse (S.decompress (2 :: octetBytes k.val)).isNone "btc-pool: spend_key not an x-only key"
  return k

/-- `compressed_point` (:159). -/
def compressedPoint (err : String) : BodyReader (Octets 33) := do
  let p ← arr 33
  Reader.refuse (¬(p.val.headD 0 = 2 ∨ p.val.headD 0 = 3) ∨ (S.decompress (octetBytes p.val)).isNone) err
  return p

def output : BodyReader BtcPoolOutput := do
  let c ← pointXy S
  let spendKey ← xonlyKey S
  let nkPub ← compressedPoint S "btc-pool: nk_pub not a compressed point"
  let pkEph ← compressedPoint S "btc-pool: pk_eph not a compressed point"
  let ctNote ← arr 56
  return ⟨c.1, c.2, spendKey, nkPub, pkEph, ctNote⟩

def exit : BodyReader BtcPoolExit := do
  let exitVout ← u32Le
  let c ← pointXy S
  let destSpkHash ← arr 32
  return ⟨exitVout, c.1, c.2, destSpkHash⟩

def want : BodyReader BtcPoolWant := do
  let vout ← u32Le
  let value ← u64Le
  let spkHash ← arr 32
  return ⟨vout, value, spkHash⟩

def body : BodyReader BtcPoolSpendBody := do
  let opcode ← u8
  Reader.refuse (opcode ≠ T_BTC_SPEND_OPCODE) "btc-pool: body opcode"
  let asset ← arr 32
  let hAnchor ← u32Le
  let bind ← arr 36
  let nIn ← u8
  Reader.refuse (nIn.toNat = 0 ∨ nIn.toNat > BTC_POOL_MAX_IN) "btc-pool: n_in out of range"
  let nullifiers ← Reader.readN (arr 32) nIn.toNat
  let nOut ← u8
  Reader.refuse (nOut.toNat > BTC_POOL_MAX_OUT) "btc-pool: n_out out of range"
  let outputs ← Reader.readN (output S) nOut.toNat
  let exit ← optional "btc-pool: bad has_exit" (exit S)
  let want ← optional "btc-pool: bad has_want" want
  Reader.refuse (nOut.toNat = 0 ∧ exit.isNone) "btc-pool: spend has no outputs"
  return ⟨asset, hAnchor, bind, nullifiers, outputs, exit, want⟩

end

end BodyReader

/-- `BtcPoolSpendBody::parse` (:178). -/
def BtcPoolSpendBody.parse {E : Type} (S : Secp E) (body : List UInt8) : Except String BtcPoolSpendBody :=
  Reader.parse (BodyReader.body S) "btc-pool: trailing bytes in body" body

/-! ## The bounds -/

section

variable {E : Type} (S : Secp E)

def IsPoint (cx cy : Octets 32) : Prop := (S.fromAffineXy (octetWord cx) (octetWord cy)).isSome

def IsXonly (k : Octets 32) : Prop := (S.decompress (2 :: octetBytes k.val)).isSome

def IsCompressed (p : Octets 33) : Prop :=
  (p.val.headD 0 = 2 ∨ p.val.headD 0 = 3) ∧ (S.decompress (octetBytes p.val)).isSome

structure BtcPoolOutput.Valid (o : BtcPoolOutput) : Prop where
  commitment : IsPoint S o.cx o.cy
  spendKey : IsXonly S o.spendKey
  nkPub : IsCompressed S o.nkPub
  pkEph : IsCompressed S o.pkEph

/-- The bounds and the point checks of a body. -/
structure BtcPoolSpendBody.Valid (s : BtcPoolSpendBody) : Prop where
  nullifiers : s.nullifiers.length = 1 ∨ s.nullifiers.length = 2
  outputs : s.outputs.length ≤ 3 ∧ ∀ o ∈ s.outputs, o.Valid S
  exit : ∀ e ∈ s.exit, IsPoint S e.cx e.cy
  some_output : s.outputs ≠ [] ∨ s.exit ≠ none

end

/-! ## The reader inverts the writer, piece by piece -/

section Pieces

open BodyReader Reader

theorem arr_inverts (n : Nat) : Inverts (quiet (arr n)) Subtype.val fun _ => True := by
  have h : Inverts (quiet (arr n)) (fun a => id a.val ++ []) fun _ => True := by
    refine (Inverts.takes n _).field (fun l hl => .done fun a => ?_) fun a _ => a.property
    have hcut : (l ++ List.replicate n 0).take n = l := List.take_left' hl
    constructor
    · rintro ⟨rfl, -⟩
      exact Subtype.ext hcut.symm
    · rintro rfl
      exact ⟨hcut, trivial⟩
  exact h.congr (fun _ => Iff.rfl) fun _ _ => (List.append_nil _).symm

theorem u8_inverts : Inverts (quiet u8) (fun b => [b]) fun _ => True := by
  have h : Inverts (quiet u8) (fun b => id [b] ++ []) fun _ => True := by
    refine (Inverts.takes 1 _).field (fun l hl => .done fun b => ?_) fun _ _ => rfl
    obtain ⟨c, rfl⟩ := List.length_eq_one_iff.1 hl
    simp
  exact h

theorem le_inverts {w k : Nat} (hw : 2 ^ w = 256 ^ k) : Inverts (quiet (le w k)) (fun v => toLe k v.val) fun _ => True := by
  have h : Inverts (quiet (le w k)) (fun v => (⟨toLe k v.val, toLe_length k _⟩ : Octets k).val ++ []) fun _ => True := by
    refine (arr_inverts k).field (fun a _ => .done fun v => ?_) fun _ _ => trivial
    obtain ⟨l, rfl⟩ := a
    have hlt : fromLe l < 2 ^ w := by
      rw [hw]
      exact fromLe_lt l
    have hv : fromLe (toLe l.length v.val) = v.val := by
      refine fromLe_toLe ?_
      rw [← hw]
      exact v.isLt
    constructor
    · rintro ⟨heq, -⟩
      refine Fin.ext ?_
      rw [← congrArg Subtype.val heq]
      simp only [U.wrap, hv, Nat.mod_eq_of_lt v.isLt]
    · rintro rfl
      refine ⟨Subtype.ext ?_, trivial⟩
      simp only [U.wrap, Nat.mod_eq_of_lt hlt, toLe_fromLe]
  exact h.congr (fun _ => Iff.rfl) fun _ _ => (List.append_nil _).symm

theorem u32Le_inverts : Inverts (quiet u32Le) (fun v => toLe 4 v.val) fun _ => True := le_inverts (by norm_num)

theorem u64Le_inverts : Inverts (quiet u64Le) (fun v => toLe 8 v.val) fun _ => True := le_inverts (by norm_num)

theorem optional_inverts {α : Type} {m : BodyReader α} {w : α → List UInt8} {v : α → Prop} (hm : Inverts (quiet m) w v)
    (err : String) : Inverts (quiet (optional err m)) (encodeOptional w) fun r => ∀ a ∈ r, v a := by
  have h : Inverts (quiet (optional err m)) (fun r => [r.elim 0 fun _ => (1 : UInt8)] ++ r.elim [] w) fun r => ∀ a ∈ r, v a := by
    refine u8_inverts.field (fun flag _ => ?_) fun _ _ => trivial
    by_cases hzero : flag = 0
    · subst hzero
      rw [if_pos rfl]
      refine (Inverts.done (a := none) fun r => ?_).congr (fun _ => Iff.rfl) ?_
      · cases r <;> simp
      · rintro (_ | a) ⟨h, -⟩
        · rfl
        · cases h
    · by_cases hone : flag = 1
      · subst hone
        rw [if_neg hzero, if_pos rfl]
        refine hm.present.congr (fun r => ?_) fun _ _ => rfl
        constructor
        · rintro ⟨hflag, hr⟩
          cases r with
          | none => cases hflag
          | some a => exact ⟨a, rfl, hr a rfl⟩
        · rintro ⟨a, rfl, ha⟩
          exact ⟨rfl, by simpa using ha⟩
      · rw [if_neg hzero, if_neg hone]
        refine .never ?_
        rintro (_ | a) ⟨h, -⟩
        · exact hzero h.symm
        · exact hone h.symm
  refine h.congr (fun _ => Iff.rfl) fun r _ => ?_
  cases r <;> rfl

variable {E : Type} {S : Secp E}

theorem not_isNone_iff {α : Type} {o : Option α} : ¬o.isNone ↔ o.isSome := by cases o <;> simp

/-- A field that must pass a check. -/
theorem checked_inverts {α : Type} {m : BodyReader α} {w : α → List UInt8} {p : α → Prop} [DecidablePred p] {err : String}
    (hm : Inverts (quiet m) w fun _ => True) :
    Inverts (quiet (m >>= fun a => Reader.refuse (p a) err >>= fun _ => Pure.pure a)) w fun a => ¬p a := by
  have h : Inverts (quiet (m >>= fun a => Reader.refuse (p a) err >>= fun _ => Pure.pure a)) (fun a => w a ++ [])
      fun a => ¬p a := by
    refine hm.field (fun a _ => .refuse (fun hp => .done fun b => ?_) ?_) fun _ _ => trivial
    · constructor
      · exact fun h => h.1
      · rintro rfl
        exact ⟨rfl, hp⟩
    · rintro hp b ⟨rfl, hb⟩
      exact hb hp
  exact h.congr (fun _ => Iff.rfl) fun _ _ => (List.append_nil _).symm

theorem pointXy_inverts : Inverts (quiet (pointXy S)) (fun c => c.1.val ++ c.2.val) fun c => IsPoint S c.1 c.2 := by
  have h : Inverts (quiet (pointXy S)) (fun c => c.1.val ++ (c.2.val ++ [])) fun c => IsPoint S c.1 c.2 := by
    refine (arr_inverts 32).field (fun cx _ => ?_) fun _ _ => trivial
    refine (arr_inverts 32).field (fun cy _ => ?_) fun _ _ => trivial
    refine .refuse (fun hp => .done fun c => ?_) ?_
    · constructor
      · rintro ⟨rfl, rfl, -⟩
        rfl
      · rintro rfl
        exact ⟨rfl, rfl, not_isNone_iff.1 hp⟩
    · rintro hp c ⟨rfl, rfl, hc⟩
      exact not_isNone_iff.2 hc hp
  exact h.congr (fun _ => Iff.rfl) fun _ _ => by rw [List.append_nil]

theorem xonlyKey_inverts : Inverts (quiet (xonlyKey S)) Subtype.val (IsXonly S) :=
  (checked_inverts (arr_inverts 32)).congr (fun _ => not_isNone_iff.symm) fun _ _ => rfl

theorem compressedPoint_inverts {err : String} : Inverts (quiet (compressedPoint S err)) Subtype.val (IsCompressed S) :=
  (checked_inverts (arr_inverts 33)).congr (fun _ => by rw [not_or, not_not, not_isNone_iff, IsCompressed]) fun _ _ => rfl

theorem output_inverts : Inverts (quiet (output S)) BtcPoolOutput.encode (BtcPoolOutput.Valid S) := by
  have h : Inverts (quiet (output S)) (fun o => (o.cx.val ++ o.cy.val) ++ (o.spendKey.val ++ (o.nkPub.val ++ (o.pkEph.val ++
      (o.ctNote.val ++ []))))) (BtcPoolOutput.Valid S) := by
    refine pointXy_inverts.field (f := fun o : BtcPoolOutput => (o.cx, o.cy)) (fun c h₁ => ?_) fun o ho => ho.commitment
    refine xonlyKey_inverts.field (fun spendKey h₂ => ?_) fun o ho => ho.2.spendKey
    refine compressedPoint_inverts.field (fun nkPub h₃ => ?_) fun o ho => ho.2.2.nkPub
    refine compressedPoint_inverts.field (fun pkEph h₄ => ?_) fun o ho => ho.2.2.2.pkEph
    refine (arr_inverts 56).field (fun ctNote _ => ?_) fun _ _ => trivial
    refine .done fun o => ⟨?_, ?_⟩
    · rintro ⟨rfl, rfl, rfl, rfl, rfl, -⟩
      rfl
    · rintro rfl
      exact ⟨rfl, rfl, rfl, rfl, rfl, ⟨h₁, h₂, h₃, h₄⟩⟩
  exact h.congr (fun _ => Iff.rfl) fun _ _ => by simp only [BtcPoolOutput.encode, List.append_assoc, List.append_nil]

theorem exit_inverts : Inverts (quiet (BodyReader.exit S)) BtcPoolExit.encode fun e => IsPoint S e.cx e.cy := by
  have h : Inverts (quiet (BodyReader.exit S)) (fun e => toLe 4 e.exitVout.val ++ ((e.cx.val ++ e.cy.val) ++
      (e.destSpkHash.val ++ []))) fun e => IsPoint S e.cx e.cy := by
    refine u32Le_inverts.field (fun exitVout _ => ?_) fun _ _ => trivial
    refine pointXy_inverts.field (f := fun e : BtcPoolExit => (e.cx, e.cy)) (fun c h₁ => ?_) fun e he => he.2
    refine (arr_inverts 32).field (fun destSpkHash _ => ?_) fun _ _ => trivial
    refine .done fun e => ⟨?_, ?_⟩
    · rintro ⟨rfl, rfl, rfl, -⟩
      rfl
    · rintro rfl
      exact ⟨rfl, rfl, rfl, h₁⟩
  exact h.congr (fun _ => Iff.rfl) fun _ _ => by simp only [BtcPoolExit.encode, List.append_assoc, List.append_nil]

theorem want_inverts : Inverts (quiet BodyReader.want) BtcPoolWant.encode fun _ => True := by
  have h : Inverts (quiet BodyReader.want) (fun w => toLe 4 w.vout.val ++ (toLe 8 w.value.val ++ (w.spkHash.val ++ [])))
      fun _ => True := by
    refine u32Le_inverts.field (fun vout _ => ?_) fun _ _ => trivial
    refine u64Le_inverts.field (fun value _ => ?_) fun _ _ => trivial
    refine (arr_inverts 32).field (fun spkHash _ => ?_) fun _ _ => trivial
    refine .done fun w => ⟨?_, ?_⟩
    · rintro ⟨rfl, rfl, rfl, -⟩
      rfl
    · rintro rfl
      exact ⟨rfl, rfl, rfl, trivial⟩
  exact h.congr (fun _ => Iff.rfl) fun _ _ => by simp only [BtcPoolWant.encode, List.append_assoc, List.append_nil]

/-- A count of at most three is read back from its byte. -/
theorem count_eq_iff {n : Nat} {b : UInt8} (hn : n < 256) : UInt8.ofNat n = b ↔ n = b.toNat := by
  rw [← UInt8.toNat_inj, UInt8.toNat_ofNat', Nat.mod_eq_of_lt hn]

theorem body_inverts : Inverts (quiet (body S)) BtcPoolSpendBody.encode (BtcPoolSpendBody.Valid S) := by
  have h : Inverts (quiet (body S)) (fun s => [T_BTC_SPEND_OPCODE] ++ (s.asset.val ++ (toLe 4 s.hAnchor.val ++ (s.bind.val ++
      ([UInt8.ofNat s.nullifiers.length] ++ ((s.nullifiers.map Subtype.val).flatten ++ ([UInt8.ofNat s.outputs.length] ++
        ((s.outputs.map BtcPoolOutput.encode).flatten ++ (encodeOptional BtcPoolExit.encode s.exit ++
          (encodeOptional BtcPoolWant.encode s.want ++ [])))))))))) (BtcPoolSpendBody.Valid S) := by
    refine u8_inverts.field (f := fun _ => T_BTC_SPEND_OPCODE) (fun opcode _ => ?_) fun _ _ => trivial
    refine .refuse (fun hopcode => ?_) fun hopcode s hs => hopcode hs.1.symm
    refine (arr_inverts 32).field (fun asset _ => ?_) fun _ _ => trivial
    refine u32Le_inverts.field (fun hAnchor _ => ?_) fun _ _ => trivial
    refine (arr_inverts 36).field (fun bind _ => ?_) fun _ _ => trivial
    refine u8_inverts.field (fun nIn _ => ?_) fun _ _ => trivial
    have hcountIn {s : BtcPoolSpendBody} (hs : s.Valid S) (h : UInt8.ofNat s.nullifiers.length = nIn) :
        s.nullifiers.length = nIn.toNat := (count_eq_iff (by have := hs.nullifiers; omega)).1 h
    refine .refuse (fun hin => ?_) ?_
    swap
    · rintro hin s ⟨hn, -, -, -, -, hs⟩
      have := hcountIn hs hn
      have := hs.nullifiers
      unfold BTC_POOL_MAX_IN at hin
      omega
    refine ((arr_inverts 32).times nIn.toNat).field (fun nullifiers h₅ => ?_) ?_
    swap
    · rintro s ⟨hn, -, -, -, -, hs⟩
      exact ⟨hcountIn hs hn, fun _ _ => trivial⟩
    refine u8_inverts.field (fun nOut _ => ?_) fun _ _ => trivial
    have hcountOut {s : BtcPoolSpendBody} (hs : s.Valid S) (h : UInt8.ofNat s.outputs.length = nOut) :
        s.outputs.length = nOut.toNat := (count_eq_iff (by have := hs.outputs; omega)).1 h
    refine .refuse (fun hout => ?_) ?_
    swap
    · rintro hout s ⟨hn, -, -, -, -, -, -, hs⟩
      have := hcountOut hs hn
      have := hs.outputs.1
      unfold BTC_POOL_MAX_OUT at hout
      omega
    refine (output_inverts.times nOut.toNat).field (fun outputs h₇ => ?_) ?_
    swap
    · rintro s ⟨hn, -, -, -, -, -, -, hs⟩
      exact ⟨hcountOut hs hn, hs.outputs.2⟩
    refine (optional_inverts exit_inverts _).field (fun exit h₈ => ?_) ?_
    swap
    · rintro s ⟨-, -, -, -, -, -, -, -, hs⟩
      exact hs.exit
    refine (optional_inverts want_inverts _).field (fun want _ => ?_) fun _ _ _ _ => trivial
    refine .refuse (fun hsome => .done fun s => ?_) ?_
    · constructor
      · rintro ⟨rfl, rfl, rfl, -, rfl, -, rfl, rfl, rfl, -, -⟩
        rfl
      · rintro rfl
        have hbyte : ∀ n : UInt8, UInt8.ofNat n.toNat = n := fun n => (count_eq_iff n.toNat_lt).2 rfl
        have hvalid : BtcPoolSpendBody.Valid S ⟨asset, hAnchor, bind, nullifiers, outputs, exit, want⟩ := by
          have hcounts : (nIn.toNat = 1 ∨ nIn.toNat = 2) ∧ nOut.toNat ≤ 3 := by
            unfold BTC_POOL_MAX_IN at hin
            unfold BTC_POOL_MAX_OUT at hout
            omega
          refine ⟨h₅.1.symm ▸ hcounts.1, ⟨h₇.1.symm ▸ hcounts.2, h₇.2⟩, h₈, ?_⟩
          rw [not_and_or, ← h₇.1, List.length_eq_zero_iff] at hsome
          exact hsome.imp id fun hexit hnone => hexit (Option.isNone_iff_eq_none.2 hnone)
        refine ⟨rfl, rfl, rfl, ?_, rfl, ?_, rfl, rfl, rfl, (not_not.1 hopcode).symm, hvalid⟩
        · rw [h₇.1, hbyte]
        · rw [h₅.1, hbyte]
    · rintro ⟨hzero, hnone⟩ s ⟨-, hexit, houtputs, -, -, -, -, -, -, -, hs⟩
      rcases hs.some_output with h | h
      · refine h (List.length_eq_zero_iff.1 ?_)
        rw [houtputs, h₇.1, hzero]
      · exact h (hexit.trans (Option.isNone_iff_eq_none.1 hnone))
  exact h.congr (fun _ => Iff.rfl) fun _ _ => by simp only [BtcPoolSpendBody.encode, List.append_assoc, List.append_nil]

end Pieces

/-- A body is parsed exactly when it is the encoding of a valid spend. -/
theorem parse_eq_ok {E : Type} {S : Secp E} {x : List UInt8} {s : BtcPoolSpendBody} :
    BtcPoolSpendBody.parse S x = .ok s ↔ s.Valid S ∧ s.encode = x := body_inverts.parse_eq_ok

end BtcPool

end Tacit
