import Mathlib.Data.List.Perm.Subperm
import Tacit.Lib.Tables
/-!
# Reading a table page by page

A page is the first rows, in the order of a unique key, behind a cursor; the next cursor stands at the last row's key. A reader that
goes on until a page is not full has every row that was there when it began, however the table grows while it reads.
-/
namespace Tacit

variable {κ ρ : Type} [LinearOrder κ] (key : ρ → κ) (limit : Nat)

/-- `SELECT … WHERE c ORDER BY key LIMIT limit`. -/
def page (c : κ → Bool) (table : List ρ) : List ρ := (orderBy key (table.filter fun r => c (key r))).take limit

/-- Pages read one after the other, each from the table as it stands then; at the end one that is not full, or no table is left. -/
inductive ReadsPages : (κ → Bool) → List (List ρ) → List ρ → (ended : Bool) → Prop
  | out {c : κ → Bool} : ReadsPages c [] [] false
  | last {c : κ → Bool} {t : List ρ} {ts : List (List ρ)} : (page key limit c t).length < limit →
      ReadsPages c (t :: ts) (page key limit c t) true
  | more {c : κ → Bool} {t : List ρ} {ts : List (List ρ)} {r : ρ} {rows : List ρ} {ended : Bool} :
      (page key limit c t).length = limit → r ∈ (page key limit c t).getLast? →
      ReadsPages (fun k => decide (key r < k)) ts rows ended → ReadsPages c (t :: ts) (page key limit c t ++ rows) ended

variable {key limit} {c : κ → Bool} {t : List ρ} {ts : List (List ρ)} {r : ρ} {rows : List ρ} {ended : Bool}

theorem mem_page (h : r ∈ page key limit c t) : r ∈ t ∧ c (key r) = true := by
  have hmem := (orderBy_perm _).mem_iff.1 (List.mem_of_mem_take h)
  exact ⟨(List.mem_filter.1 hmem).1, (List.mem_filter.1 hmem).2⟩

theorem page_sorted (c : κ → Bool) (t : List ρ) : (page key limit c t).Pairwise fun a b => key a ≤ key b :=
  (orderBy_sorted _).sublist (List.take_sublist ..)

/-- A row behind the cursor is on the page, or behind the page. -/
theorem page_reaches (hr : r ∈ t) (hc : c (key r) = true) : r ∈ page key limit c t ∨
    (page key limit c t).length = limit ∧ ∀ a ∈ page key limit c t, key a ≤ key r := by
  have hmem : r ∈ orderBy key (t.filter fun r => c (key r)) := (orderBy_perm _).mem_iff.2 (List.mem_filter.2 ⟨hr, hc⟩)
  rw [← List.take_append_drop limit (orderBy key _), List.mem_append] at hmem
  refine hmem.imp id fun hdrop => ⟨?_, fun a ha => ?_⟩
  · have hpos := List.length_pos_of_mem hdrop
    rw [List.length_drop] at hpos
    rw [page, List.length_take]
    omega
  · have hsorted := orderBy_sorted (f := key) (t.filter fun r => c (key r))
    rw [← List.take_append_drop limit (orderBy key _), List.pairwise_append] at hsorted
    exact hsorted.2.2 a ha r hdrop

/-- What is read was in some table. -/
theorem ReadsPages.sound (h : ReadsPages key limit c ts rows ended) : ∀ r ∈ rows, ∃ t ∈ ts, r ∈ t := by
  induction h with
  | out => exact fun r hr => (List.not_mem_nil hr).elim
  | last => exact fun r hr => ⟨_, List.mem_cons_self, (mem_page hr).1⟩
  | more _ _ _ ih =>
    intro r hr
    rcases List.mem_append.1 hr with hr | hr
    · exact ⟨_, List.mem_cons_self, (mem_page hr).1⟩
    · obtain ⟨t, ht, hrt⟩ := ih r hr
      exact ⟨t, List.mem_cons_of_mem _ ht, hrt⟩

/-- What is read is behind the first cursor. -/
theorem ReadsPages.behind (h : ReadsPages key limit c ts rows ended) (hup : ∀ k k', k ≤ k' → c k = true → c k' = true) :
    ∀ r ∈ rows, c (key r) = true := by
  induction h with
  | out => exact fun r hr => (List.not_mem_nil hr).elim
  | last => exact fun r hr => (mem_page hr).2
  | @more c t ts last rows ended _ hlast _ ih =>
    intro r hr
    rcases List.mem_append.1 hr with hr | hr
    · exact (mem_page hr).2
    · have hlt := ih (fun k k' hle hk => decide_eq_true ((of_decide_eq_true hk).trans_le hle)) r hr
      exact hup _ _ (of_decide_eq_true hlt).le (mem_page (List.mem_of_mem_getLast? hlast)).2

/-- Nothing is read twice, and all in order. -/
theorem ReadsPages.sorted (h : ReadsPages key limit c ts rows ended) (hkeys : ∀ t ∈ ts, (t.map key).Nodup) :
    rows.Pairwise fun a b => key a < key b := by
  have hpage : ∀ c t, (t.map key).Nodup → (page key limit c t).Pairwise fun a b => key a < key b := by
    intro c t hnodup
    have hmap : ((page key limit c t).map key).Nodup := by
      refine List.Nodup.sublist ((List.take_sublist ..).map key) ?_
      refine ((orderBy_perm _).map key).nodup_iff.2 ?_
      exact List.Nodup.sublist ((List.filter_sublist ..).map key) hnodup
    exact (page_sorted c t).imp₂ (fun a b hle hne => lt_of_le_of_ne hle hne) (List.pairwise_map.1 hmap)
  induction h with
  | out => exact List.Pairwise.nil
  | last => exact hpage _ _ (hkeys _ List.mem_cons_self)
  | @more c t ts last rows ended _ hlast hrest ih =>
    refine List.pairwise_append.2 ⟨hpage _ _ (hkeys t List.mem_cons_self), ih fun u hu => hkeys u (List.mem_cons_of_mem _ hu), ?_⟩
    intro a ha b hb
    have hlt := hrest.behind (fun k k' hle hk => decide_eq_true ((of_decide_eq_true hk).trans_le hle)) b hb
    refine lt_of_le_of_lt ?_ (of_decide_eq_true hlt)
    obtain ⟨init, hinit⟩ := List.getLast?_eq_some_iff.1 hlast
    have hordered : (page key limit c t).Pairwise fun a b => key a ≤ key b := page_sorted c t
    rw [hinit] at ha hordered
    rcases List.mem_append.1 ha with ha | ha
    · exact (List.pairwise_append.1 hordered).2.2 a ha last List.mem_cons_self
    · rw [List.mem_singleton.1 ha]

/-- **Every row** that was there when the reading began is read. -/
theorem ReadsPages.complete (h : ReadsPages key limit c ts rows ended) (hended : ended = true) (hkeys : ∀ t ∈ ts, (t.map key).Nodup)
    (hgrow : ts.IsChain (· ⊆ ·)) : ∀ t ∈ ts.head?, ∀ r ∈ t, c (key r) = true → r ∈ rows := by
  induction h with
  | out => cases hended
  | @last c t ts hshort =>
    intro _ ht r hr hc
    obtain rfl := Option.some.inj ht
    exact (page_reaches hr hc).resolve_right fun hfull => Nat.ne_of_lt hshort hfull.1
  | @more c t ts last rows ended _ hlast hrest ih =>
    intro _ ht r hr hc
    obtain rfl := Option.some.inj ht
    by_cases hpage : r ∈ page key limit c t
    · exact List.mem_append_left _ hpage
    · have hbehind : ∀ a ∈ page key limit c t, key a ≤ key r := ((page_reaches hr hc).resolve_left hpage).2
      have hmem := List.mem_of_mem_getLast? hlast
      have hne : key last ≠ key r := fun heq =>
        hpage (List.inj_on_of_nodup_map (hkeys t List.mem_cons_self) (mem_page hmem).1 hr heq ▸ hmem)
      have hlt : key last < key r := lt_of_le_of_ne (hbehind last hmem) hne
      cases ts with
      | nil =>
        cases hrest
        cases hended
      | cons t' ts' =>
        have hstep := List.isChain_cons_cons.1 hgrow
        exact List.mem_append_right _ (ih hended (fun u hu => hkeys u (List.mem_cons_of_mem _ hu)) hstep.2 t' rfl r (hstep.1 hr)
          (decide_eq_true hlt))

/-- A reading that ran out of tables read full pages. -/
theorem ReadsPages.full (h : ReadsPages key limit c ts rows ended) (hended : ended = false) : rows.length = limit * ts.length := by
  induction h with
  | out => rfl
  | last => cases hended
  | more hlength _ _ ih => rw [List.length_append, hlength, ih hended, List.length_cons, Nat.mul_succ, Nat.add_comm]

/-- **It ends** if there are more pages than rows to fill them. -/
theorem ReadsPages.ends (h : ReadsPages key limit c ts rows ended) (hkeys : ∀ t ∈ ts, (t.map key).Nodup) {all : List ρ}
    (hall : ∀ t ∈ ts, t ⊆ all) (hroom : all.length < limit * ts.length) : ended = true := by
  by_contra hnot
  have hfull := h.full (Bool.eq_false_iff.2 hnot)
  have hnodup : rows.Nodup := (h.sorted hkeys).imp fun hlt heq => hlt.ne (congrArg key heq)
  have hsubset : rows ⊆ all := fun r hr => by
    obtain ⟨t, ht, hrt⟩ := h.sound r hr
    exact hall t ht hrt
  have hle := (List.subperm_of_subset hnodup hsubset).length_le
  omega

end Tacit
