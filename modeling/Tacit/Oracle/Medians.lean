import Tacit.Lib.Ranks
import Tacit.Oracle.Ring
/-!
# What the views read off the ring

`prices` sorts the recorded values of a window and takes two of them, by indices that count the missing ones as least for the
one and as greatest for the other. So whichever intervals are recorded, the two bracket the medians of all.
-/
namespace Tacit.IntervalOracle

open Prog InPlace

/-! ## The window -/

/-- How many intervals a window spans. -/
def points (cfg : Config) (window : Nat) : Nat := window / (cfg.step * blockSeconds)

def Admissible (cfg : Config) (window : Nat) : Prop := cfg.step * blockSeconds ≤ window ∧ window ≤ cfg.maxWindow

/-- The values that `_collect` finds `k` intervals from the `i`-th back. -/
def foundFrom (s : Samples) (newest : Nat) (value : U 256 → Nat) (i k : Nat) : List Nat :=
  ((List.range' i k).filter fun i => decide (i ≤ newest) && has (s (ringSlot (newest - i))) (newest - i)).map fun i =>
    value (s (ringSlot (newest - i)))

section Views

variable {cfg : Config} {env : Env} {s : Samples} {window : Nat}

theorem points_pos (h : Admissible cfg window) : 0 < points cfg window := by
  have hstep : 0 < cfg.step := Nat.zero_lt_of_lt cfg.grace_lt
  exact Nat.div_pos h.1 (Nat.mul_pos hstep (by decide))

theorem points_lt (h : Admissible cfg window) : points cfg window < ring :=
  (Nat.div_le_div_right h.2).trans_lt cfg.window_lt

/-- Every interval of a window is in reach. -/
theorem Admissible.reach (h : Admissible cfg window) {number i : Nat} (hi : i < points cfg window) (hle : i ≤ newestAt cfg number) :
    (number - 1) / cfg.step ≤ newestAt cfg number - i + ring := by
  have hnear := le_newestAt cfg number
  have hpoints := points_lt h
  unfold ring at hpoints ⊢
  omega

theorem length_foundFrom_le (newest : Nat) (value : U 256 → Nat) (i k : Nat) : (foundFrom s newest value i k).length ≤ k := by
  rw [foundFrom, List.length_map]
  exact (List.length_filter_le _ _).trans_eq List.length_range'

theorem foundFrom_before {newest i : Nat} (h : newest < i) (value : U 256 → Nat) (k : Nat) : foundFrom s newest value i k = [] := by
  rw [foundFrom, List.map_eq_nil_iff, List.filter_eq_nil_iff]
  intro j hj
  have hj := List.mem_range'_1.1 hj
  rw [decide_eq_false (by omega), Bool.false_and]
  exact Bool.false_ne_true

theorem foundFrom_succ {newest i : Nat} (value : U 256 → Nat) (k : Nat) (h : i ≤ newest) : foundFrom s newest value i (k + 1) =
    if has (s (ringSlot (newest - i))) (newest - i) then
      value (s (ringSlot (newest - i))) :: foundFrom s newest value (i + 1) k
    else foundFrom s newest value (i + 1) k := by
  rw [foundFrom, List.range'_succ, List.filter_cons, decide_eq_true h, Bool.true_and]
  split <;> rfl

/-- The loop writes the values it finds, one after the other, over zeros. -/
theorem gather_eq (newest : Nat) (value : U 256 → Nat) (t : Samples) : ∀ (k i m : Nat) (vs : List Nat), k ≤ m →
    gather s newest value k i (vs ++ List.replicate m 0) vs.length t = .ok (vs ++ foundFrom s newest value i k ++
      List.replicate (m - (foundFrom s newest value i k).length) 0, (vs ++ foundFrom s newest value i k).length) t
  | 0, i, m, vs, _ => by
    rw [foundFrom, List.range'_zero, List.filter_nil, List.map_nil, List.append_nil]
    rfl
  | k + 1, i, 0, vs, hk => absurd hk (Nat.not_succ_le_zero k)
  | k + 1, i, m + 1, vs, hk => by
    rw [gather]
    by_cases hi : i ≤ newest
    · rw [if_pos hi, foundFrom_succ value k hi]
      by_cases hhas : has (s (ringSlot (newest - i))) (newest - i) = true
      · rw [if_pos hhas, if_pos hhas, bind_eq_ok]
        refine ⟨_, t, setAt_append vs 0 (List.replicate m 0) _, ?_⟩
        have ih := gather_eq newest value t k (i + 1) m (vs ++ [value (s (ringSlot (newest - i)))]) (Nat.le_of_succ_le_succ hk)
        rw [List.length_append, List.length_singleton] at ih
        simpa using ih
      · rw [if_neg hhas, if_neg hhas]
        exact gather_eq newest value t k (i + 1) (m + 1) vs (Nat.le_of_succ_le hk)
    · rw [if_neg hi, foundFrom_before (Nat.lt_of_not_le hi), List.append_nil]
      rfl

variable (cfg env s window) in
/-- What `_collect` finds. -/
def found (value : U 256 → Nat) : List Nat := foundFrom s (newestAt cfg env.number) value 0 (points cfg window)

theorem length_found_le (value : U 256 → Nat) : (found cfg env s window value).length ≤ points cfg window :=
  length_foundFrom_le _ _ _ _

/-- What `_collect` accepts: both middles fall on a recorded value. -/
structure Enough (n points : Nat) : Prop where
  low : points - n ≤ (points - 1) / 2
  high : points / 2 < n

/-- The array is the values found, then zeros. -/
theorem collect_spec (b : Bool) (value : U 256 → Nat) (hvalue : (if b then price else depth) = value) :
    wp False (collect cfg env window b) s (fun _ _ => True) fun r t => t = s ∧ Admissible cfg window ∧
      r = (found cfg env s window value ++ List.replicate (points cfg window - (found cfg env s window value).length) 0,
        (found cfg env s window value).length, points cfg window) ∧
      Enough (found cfg env s window value).length (points cfg window) := by
  have hgather := gather_eq (s := s) (newestAt cfg env.number) value s (points cfg window) 0 (points cfg window) [] (Nat.le_refl _)
  simp only [collect, latestInterval, wp_bind, wp_check, wp_orThrow, wp_get, wp_pure, uintSub_eq_some]
  refine ⟨fun _ => trivial, fun hwindow => ⟨fun _ => trivial, ?_⟩⟩
  rintro _ ⟨-, rfl⟩
  refine ⟨fun _ => trivial, fun _ => ?_⟩
  rw [hvalue]
  refine (wp_ran hgather).2 ⟨fun _ => trivial, fun henough => ?_⟩
  rw [List.nil_append] at henough ⊢
  simp only [not_or, not_lt, not_le] at hwindow henough
  exact ⟨rfl, hwindow, rfl, henough.2.1, henough.2.2⟩

/-- The array after `_sort`: an access before `n` is to the value of that rank. -/
theorem sorted_found (F r : List Nat) : ∃ a, (sort (F ++ r) F.length : OracleM (List Nat)) s = .ok a s ∧
    ∀ k < F.length, ∃ q, ranked F k = some q ∧ (getAt a k : OracleM Nat) s = .ok q s := by
  obtain ⟨l, hl, hperm, hsort⟩ := sort_spec (ε := OracleError) (s := s) (F ++ r) (n := F.length) (by simp)
  rw [List.take_left] at hperm
  refine ⟨_, hsort, fun k hk => ?_⟩
  obtain ⟨q, hq⟩ := ranked_isSome hk
  have hget : l[k]? = some q := by rw [← hq, ranked_of_sorted hl hperm]
  refine ⟨q, hq, ?_⟩
  rw [getAt, List.getElem?_append_left (hperm.length_eq ▸ hk), hget]
  rfl

/-- What `prices` reads, where it reads: it stays inside the array. -/
theorem prices_spec : wp False (prices cfg env window) s (fun _ _ => True) fun r t =>
    t = s ∧ Admissible cfg window ∧ Enough (found cfg env s window price).length (points cfg window) ∧
      ranked (found cfg env s window price)
        ((points cfg window - 1) / 2 - (points cfg window - (found cfg env s window price).length)) = some r.1 ∧
      ranked (found cfg env s window price) (points cfg window / 2) = some r.2 := by
  rw [prices, wp_bind]
  refine wp_mono (collect_spec true price rfl) id (fun _ _ h => h) ?_
  rintro _ t ⟨ht, hwindow, rfl, henough⟩
  rw [ht]
  have hle : (found cfg env s window price).length ≤ points cfg window := length_found_le price
  generalize found cfg env s window price = F at *
  obtain ⟨a, hsort, hget⟩ := sorted_found (s := s) F (List.replicate (points cfg window - F.length) 0)
  obtain ⟨low, hlow, hgetLow⟩ := hget ((points cfg window - 1) / 2 - (points cfg window - F.length))
    (by have := henough.low; have := points_pos hwindow; omega)
  obtain ⟨high, hhigh, hgetHigh⟩ := hget (points cfg window / 2) henough.high
  rw [wp_bind, wp_ran hsort]
  simp only [wp_bind, wp_orThrow, uintSub_eq_some]
  refine ⟨fun _ => trivial, ?_⟩
  rintro _ ⟨-, rfl⟩
  rw [wp_ran hgetLow, wp_ran hgetHigh]
  exact ⟨rfl, hwindow, henough, hlow, hhigh⟩

theorem depthMin_spec : wp False (depthMin cfg env window) s (fun _ _ => True) fun d t =>
    t = s ∧ Admissible cfg window ∧ (found cfg env s window depth).length = points cfg window ∧
      ranked (found cfg env s window depth) 0 = some d := by
  rw [depthMin, wp_bind]
  refine wp_mono (collect_spec false depth rfl) id (fun _ _ h => h) ?_
  rintro _ t ⟨ht, hwindow, rfl, -⟩
  rw [ht]
  generalize found cfg env s window depth = F at *
  simp only [wp_bind, wp_check, ne_eq, not_not]
  refine ⟨fun _ => trivial, fun hall => ?_⟩
  obtain ⟨a, hsort, hget⟩ := sorted_found (s := s) F (List.replicate (points cfg window - F.length) 0)
  obtain ⟨d, hd, hgetMin⟩ := hget 0 (hall ▸ points_pos hwindow)
  rw [wp_ran hsort, wp_ran hgetMin]
  exact ⟨rfl, hwindow, hall, hd⟩

end Views

/-! ## The truth -/

def recordedIn (log : List (Env × Recorded)) (interval : Nat) : Bool := log.any fun c => c.2.interval == interval

def recordedAt (log : List (Env × Recorded)) (newest i : Nat) : Bool := decide (i ≤ newest) && recordedIn log (newest - i)

/-- The true value of the `i`-th interval back, `before` standing for those of a window that begins before the chain. -/
def trueAt (cfg : Config) (chain : Chain) (value : Nat × Nat → Nat) (before : Nat → Nat) (newest i : Nat) : Nat :=
  if i ≤ newest then value (trueSample cfg chain (newest - i)) else before i

/-- An interval of a window of a call at block `number`. -/
def InWindow (cfg : Config) (number window interval : Nat) : Prop :=
  ∃ i < points cfg window, i ≤ newestAt cfg number ∧ interval = newestAt cfg number - i

/-- What two prices say of a window of `n` intervals. -/
structure Brackets (n : Nat) (truth : Nat → Nat) (recorded : Nat → Bool) (low high : Nat) : Prop where
  medians : ∃ lo hi, lowerMedian ((List.range n).map truth) = some lo ∧ upperMedian ((List.range n).map truth) = some hi ∧
    low ≤ lo ∧ hi ≤ high ∧ ((∀ i < n, recorded i) → low = lo ∧ high = hi)
  ordered : low ≤ high
  low_le : ∀ p, 2 * (List.range n).countP (fun i => !recorded i || decide (p < truth i)) < n → low ≤ p
  le_high : ∀ p, 2 * (List.range n).countP (fun i => !recorded i || decide (truth i < p)) < n → p ≤ high

section Truth

variable {cfg : Config} {X : Externals} {chain : Chain} {log : List (Env × Recorded)} {s : Samples} {number : Nat}

theorem recordedIn_iff {k : Nat} : recordedIn log k = true ↔ ∃ c ∈ log, c.2.interval = k := by
  simp only [recordedIn, List.any_eq_true, beq_iff_eq]

variable (hring : RingOk log s) (hevents : ∀ c ∈ log, IsSample cfg chain c.1 c.2) (hblocks : ∀ c ∈ log, c.1.number ≤ number)
  (hfits : number ≤ 2 ^ 48 * cfg.step)

include hevents hblocks hfits in
theorem interval_lt {c : Env × Recorded} (hc : c ∈ log) : c.2.interval < 2 ^ 48 := by
  have hstep : 0 < cfg.step := Nat.zero_lt_of_lt cfg.grace_lt
  have hover := (hevents c hc).le_div (hblocks c hc)
  have hlate : (number - 1) / cfg.step ≤ 2 ^ 48 :=
    Nat.div_le_of_le_mul (Nat.mul_comm _ _ ▸ (Nat.sub_le number 1).trans hfits)
  omega

include hring hevents hblocks hfits

/-- In reach, an entry is read as of an interval exactly when that was recorded. -/
theorem has_eq {k : Nat} (hreach : (number - 1) / cfg.step ≤ k + ring) : has (s (ringSlot k)) k = recordedIn log k := by
  have hentry {c : Env × Recorded} (hc : c ∈ log) (j : Nat) : has c.2.entry j = true ↔ c.2.interval = j :=
    has_pack (interval_lt hevents hblocks hfits hc) (hevents c hc).price_le (hevents c hc).depth_le (hevents c hc).price_ne j
  rw [Bool.eq_iff_iff, recordedIn_iff]
  constructor
  · intro hhas
    rcases hring.entry (ringSlot k) with hzero | ⟨c, hc, -, heq⟩
    · rw [hzero] at hhas
      cases hhas
    · rw [heq, hentry hc] at hhas
      exact ⟨c, hc, hhas⟩
  · rintro ⟨c, hc, rfl⟩
    rw [hring.entry_eq hevents hblocks hc hreach, hentry hc]

theorem sample_of_recorded {k : Nat} (hreach : (number - 1) / cfg.step ≤ k + ring) (hrec : recordedIn log k = true) :
    (price (s (ringSlot k)), depth (s (ringSlot k))) = trueSample cfg chain k := by
  obtain ⟨c, hc, rfl⟩ := recordedIn_iff.1 hrec
  have hk := interval_lt hevents hblocks hfits hc
  have hevent := hevents c hc
  rw [hring.entry_eq hevents hblocks hc hreach, ← hevent.sample, Recorded.entry,
    price_pack hk hevent.price_le hevent.depth_le, depth_pack hk hevent.price_le hevent.depth_le]

/-- The values found are the true ones of the recorded intervals. -/
theorem found_eq {env : Env} (henv : env.number = number) {window : Nat} (hwindow : Admissible cfg window) (value : U 256 → Nat)
    (tv : Nat × Nat → Nat) (hvalue : ∀ x, value x = tv (price x, depth x)) (before : Nat → Nat) :
    found cfg env s window value = ((List.range (points cfg window)).filter (recordedAt log (newestAt cfg number))).map
      (trueAt cfg chain tv before (newestAt cfg number)) := by
  rw [found, foundFrom, henv, ← List.range_eq_range']
  have hfilter : (List.range (points cfg window)).filter (fun i => decide (i ≤ newestAt cfg number) &&
      has (s (ringSlot (newestAt cfg number - i))) (newestAt cfg number - i)) =
      (List.range (points cfg window)).filter (recordedAt log (newestAt cfg number)) := by
    refine List.filter_congr fun i hi => ?_
    by_cases hle : i ≤ newestAt cfg number
    · rw [recordedAt, has_eq hring hevents hblocks hfits (hwindow.reach (List.mem_range.1 hi) hle)]
    · rw [recordedAt, decide_eq_false hle, Bool.false_and, Bool.false_and]
  rw [hfilter]
  refine List.map_congr_left fun i hi => ?_
  obtain ⟨hi, hrec⟩ := List.mem_filter.1 hi
  rw [recordedAt, Bool.and_eq_true, decide_eq_true_iff] at hrec
  rw [trueAt, if_pos hrec.1, hvalue, sample_of_recorded hring hevents hblocks hfits (hwindow.reach (List.mem_range.1 hi) hrec.1) hrec.2]

/-- So `prices` brackets the true medians. -/
theorem prices_brackets {env : Env} (henv : env.number = number) {window low high : Nat} {t : Samples}
    (hrun : prices cfg env window s = .ok (low, high) t) (before : Nat → Nat) :
    Brackets (points cfg window) (trueAt cfg chain Prod.fst before (newestAt cfg number)) (recordedAt log (newestAt cfg number))
      low high := by
  obtain ⟨-, hwindow, henough, hlow, hhigh⟩ := wp_of_ok prices_spec hrun
  have hfound := found_eq hring hevents hblocks hfits henv hwindow price Prod.fst (fun _ => rfl) before
  rw [hfound] at henough hlow hhigh
  generalize trueAt cfg chain Prod.fst before (newestAt cfg number) = truth at *
  generalize recordedAt log (newestAt cfg number) = recorded at *
  generalize points cfg window = n at *
  have hwhole : ((List.range n).map truth).length = n := by rw [List.length_map, List.length_range]
  have hsub : (((List.range n).filter recorded).map truth).Subperm ((List.range n).map truth) :=
    (List.filter_sublist.map truth).subperm
  have hlen : (((List.range n).filter recorded).map truth).length + (n - (((List.range n).filter recorded).map truth).length) =
      ((List.range n).map truth).length := by
    have hle := hsub.length_le
    rw [hwhole] at hle ⊢
    exact Nat.add_sub_cancel' hle
  obtain ⟨lo, hi, hlo, hhi, hle, hmid, hge⟩ := medians_bracket hsub hlen (by rw [hwhole]; exact henough.low)
    (by rw [hwhole]; exact hlow) (by rw [hwhole]; exact hhigh)
  refine ⟨⟨lo, hi, hlo, hhi, hle, hge, ?_⟩, hle.trans (hmid.trans hge), ?_, ?_⟩
  · intro hall
    have hfilter : (List.range n).filter recorded = List.range n := List.filter_eq_self.2 fun i hi => hall i (List.mem_range.1 hi)
    rw [hfilter, hwhole, Nat.sub_self, Nat.sub_zero] at hlow
    rw [hfilter] at hhigh
    rw [lowerMedian, hwhole, hlow] at hlo
    rw [upperMedian, hwhole, hhigh] at hhi
    exact ⟨Option.some.inj hlo, Option.some.inj hhi⟩
  · intro p hfew
    refine hle.trans (lowerMedian_le hlo ?_)
    rw [hwhole, List.countP_map]
    refine Nat.lt_of_le_of_lt (Nat.mul_le_mul_left 2 (List.countP_mono_left fun i _ hi => ?_)) hfew
    rw [Bool.or_eq_true]
    exact .inr hi
  · intro p hfew
    refine (le_upperMedian hhi ?_).trans hge
    rw [hwhole, List.countP_map]
    refine Nat.lt_of_le_of_lt (Nat.mul_le_mul_left 2 (List.countP_mono_left fun i _ hi => ?_)) hfew
    rw [Bool.or_eq_true]
    exact .inr hi

theorem depthMin_least {env : Env} (henv : env.number = number) {window d : Nat} {t : Samples}
    (hrun : depthMin cfg env window s = .ok d t) (before : Nat → Nat) :
    (∀ i < points cfg window, recordedAt log (newestAt cfg number) i) ∧
      IsLeast {x | ∃ i < points cfg window, x = trueAt cfg chain Prod.snd before (newestAt cfg number) i} d := by
  obtain ⟨-, hwindow, hall, hd⟩ := wp_of_ok depthMin_spec hrun
  have hfound := found_eq hring hevents hblocks hfits henv hwindow depth Prod.snd (fun _ => rfl) before
  rw [hfound] at hall hd
  have hfilter : (List.range (points cfg window)).filter (recordedAt log (newestAt cfg number)) = List.range (points cfg window) := by
    refine List.filter_sublist.eq_of_length ?_
    rw [List.length_map] at hall
    rw [hall, List.length_range]
  rw [hfilter] at hd
  obtain ⟨hmem, hleast⟩ := ranked_zero hd
  refine ⟨fun i hi => List.filter_eq_self.1 hfilter i (List.mem_range.2 hi), ?_, ?_⟩
  · obtain ⟨i, hi, rfl⟩ := List.mem_map.1 hmem
    exact ⟨i, List.mem_range.1 hi, rfl⟩
  · rintro _ ⟨i, hi, rfl⟩
    exact hleast _ (List.mem_map_of_mem (List.mem_range.2 hi))

end Truth

/-! ## Two runs

A venue whose price over four intervals from `first` on is 1, 2, 3 and 4, and records of the first three. A header is one
byte, its number's place among the four. -/

def demoConfig : Config where
  step := 11
  maxWindow := 396
  minCoverageBps := 6000
  grace_lt := by decide
  step_fits := by decide
  step_le := by decide
  window_lt := by decide
  coverage_ne := by decide
  coverage_le := by decide

def demoFields (first x : Nat) : List Bytes :=
  [[], [], [], 0 :: (wordOfNat x).bytes, [], [], [], [], 0 :: beBytes 8 (11 * (first + x)), [], [], [], [],
    List.replicate 33 0, List.replicate 9 0]

def demoExternals (first : Nat) : Externals where
  readList h := if h.length = 1 then some (demoFields first (h.headD 0)) else some [[], [], h]
  readBytes b := some (if b.length = 32 then b else b.drop 1)
  keccak256 h := if h ∈ [[0], [1], [2], [3]] then wordOfNat 1 else 0
  trieGet _ _ root := some root.bytes
  pool := []
  slots := (0, 0)
  read a _ := some (a + 1, 7)

def demoEnv (first : Nat) : Env where
  number := 11 * (first + 4) + 1
  blockhash _ := wordOfNat 1
  history _ := none

def demoChain (first : Nat) : Chain where
  stateRoot n := wordOfNat (n / 11 - first)
  mixHash _ := 0
  venue n := (uintOf (wordOfNat (n / 11 - first)).bytes + 1, 7)

theorem demo_determines {first : Nat} (hfirst : first = 0 ∨ first = 2 ^ 48 - 2) :
    Determines (demoExternals first) (demoEnv first) (demoChain first) := by
  constructor
  · intro h fields b hlist hb hne hhash
    have hknown : h ∈ [[0], [1], [2], [3]] := by
      by_contra hother
      have hzero : (demoExternals first).keccak256 h = 0 := if_neg hother
      exact hne (hhash.symm.trans hzero)
    have hroot : ∀ h ∈ [[0], [1], [2], [3]], Word.ofBytes ((0 :: (wordOfNat (h.headD 0)).bytes).drop 1) =
        wordOfNat (uintOf (beBytes 8 (11 * (first + h.headD 0))) / 11 - first) := by
      rcases hfirst with rfl | rfl <;> decide +kernel
    have hlen : h.length = 1 := by
      have : ∀ h ∈ [[0], [1], [2], [3]], h.length = 1 := by decide
      exact this h hknown
    have hfields : (demoExternals first).readList h = some (demoFields first (h.headD 0)) := if_pos hlen
    cases hfields.symm.trans hlist
    cases hb
    constructor
    · rintro _ ⟨⟩
      exact hroot h hknown
    · rintro _ ⟨⟩
      rfl
  · intro n accountProof proofA proofB s t v hrun
    have hread (w : Word) : (demoExternals first).readBytes w.bytes = some w.bytes := congrArg some (if_pos w.len)
    have hlist (w : Word) : (demoExternals first).readList w.bytes = some [[], [], w.bytes] := if_neg (by rw [w.len]; decide)
    have hword (w : Word) : Word.ofBytes w.bytes = w := Word.ext (List.take_left' w.len)
    simp only [provenSample, storage, bind_eq_ok, orThrow_eq_ok, field_eq_ok, toUint_eq_ok] at hrun
    obtain ⟨_, _, ⟨haccount, rfl⟩, _, _, ⟨hitems, rfl⟩, _, _, ⟨hroot, rfl⟩, _, _, ⟨_, _, ⟨hleaf, rfl⟩, _, _, ⟨hb, rfl⟩, -, rfl, rfl⟩,
      _, _, -, hv, rfl⟩ := hrun
    cases haccount
    cases (hlist _).symm.trans hitems
    cases (hread _).symm.trans hroot
    cases hleaf
    cases (hread _).symm.trans hb
    rw [hword] at hv
    exact (Option.some.inj hv).symm

def demoEvent (first x : Nat) : Recorded := ⟨first + x, 11 * (first + x), x + 1, 7⟩

def demoState (first : Nat) : Nat → Samples
  | 0 => fun _ => 0
  | x + 1 => Function.update (demoState first x) (ringSlot (first + x)) (pack (first + x) (x + 1) 7)

def demoLog (first : Nat) : Nat → List (Env × Recorded)
  | 0 => []
  | x + 1 => (demoEnv first, demoEvent first x) :: demoLog first x

theorem demo_blocks (first n : Nat) : ∀ c ∈ demoLog first n, c.1.number ≤ (demoEnv first).number := by
  induction n with
  | zero => nofun
  | succ n ih => exact List.forall_mem_cons.2 ⟨Nat.le_refl _, ih⟩

theorem demo_run {first : Nat} (hfirst : first = 0 ∨ first = 2 ^ 48 - 2) :
    Run demoConfig (demoExternals first) (demoLog first 3) (demoState first 3) := by
  have hrecord (x : Nat) (hx : x < 3) : record demoConfig (demoExternals first) (demoEnv first) ⟨[x], [x + 1], [], [], []⟩
      (demoState first x) = .ok (demoEvent first x) (demoState first (x + 1)) := by
    obtain rfl | rfl | rfl : x = 0 ∨ x = 1 ∨ x = 2 := by omega
    all_goals rcases hfirst with rfl | rfl <;> rfl
  exact .record (.record (.record .deployed (demo_blocks first 0) (hrecord 0 (by decide))) (demo_blocks first 1) (hrecord 1 (by decide)))
    (demo_blocks first 2) (hrecord 2 (by decide))

theorem demo_log_determines {first : Nat} (hfirst : first = 0 ∨ first = 2 ^ 48 - 2) (n : Nat) :
    ∀ c ∈ demoLog first n, Determines (demoExternals first) c.1 (demoChain first) := by
  induction n with
  | zero => nofun
  | succ n ih => exact List.forall_mem_cons.2 ⟨demo_determines hfirst, ih⟩

/-! ## Any records -/

/-- Whatever is recorded, in whatever order: an entry in a window is its interval's true sample or none, the prices bracket
the true medians, and the least depth is that. -/
theorem records_only_widen_prices {cfg : Config} {X : Externals} {chain : Chain} {log : List (Env × Recorded)} {s : Samples}
    (hrun : Run cfg X log s) (hdet : ∀ c ∈ log, Determines X c.1 chain) (env : Env) (hblocks : ∀ c ∈ log, c.1.number ≤ env.number)
    (hfits : env.number ≤ 2 ^ 48 * cfg.step) (before : Nat → Nat) (window : Nat) :
    (∀ interval, Admissible cfg window → InWindow cfg env.number window interval →
      has (s (ringSlot interval)) interval = recordedIn log interval ∧
        (recordedIn log interval → sampleOf s interval = trueSample cfg chain interval)) ∧
    prices cfg env window s ≠ .panic ∧ depthMin cfg env window s ≠ .panic ∧
    (∀ low high t, prices cfg env window s = .ok (low, high) t → Brackets (points cfg window)
      (trueAt cfg chain Prod.fst before (newestAt cfg env.number)) (recordedAt log (newestAt cfg env.number)) low high) ∧
    ∀ d t, depthMin cfg env window s = .ok d t → (∀ i < points cfg window, recordedAt log (newestAt cfg env.number) i) ∧
      IsLeast {x | ∃ i < points cfg window, x = trueAt cfg chain Prod.snd before (newestAt cfg env.number) i} d := by
  obtain ⟨hevents, hring⟩ := hrun.ringOk hdet
  refine ⟨?_, ne_panic_of_wp prices_spec, ne_panic_of_wp depthMin_spec,
    fun _ _ _ h => prices_brackets hring hevents hblocks hfits rfl h before,
    fun _ _ h => depthMin_least hring hevents hblocks hfits rfl h before⟩
  rintro _ hwindow ⟨i, hi, hle, rfl⟩
  have hreach := hwindow.reach hi hle
  have hhas := has_eq hring hevents hblocks hfits hreach
  refine ⟨hhas, fun hrec => ?_⟩
  rw [sampleOf, hhas, if_pos hrec, sample_of_recorded hring hevents hblocks hfits hreach hrec]

theorem records_only_widen_prices_three :
    prices demoConfig (demoEnv 0) 396 (demoState 0 3) = .ok (2, 2) (demoState 0 3) ∧
      Brackets 3 (trueAt demoConfig (demoChain 0) Prod.fst (fun _ => 0) 2) (recordedAt (demoLog 0 3) 2) 2 2 := by
  have hblocks : ∀ c ∈ demoLog 0 3, c.1.number ≤ (demoEnv 0).number := demo_blocks 0 3
  have hprices : prices demoConfig (demoEnv 0) 396 (demoState 0 3) = .ok (2, 2) (demoState 0 3) := rfl
  refine ⟨hprices, ?_⟩
  exact (records_only_widen_prices (demo_run (.inl rfl)) (demo_log_determines (.inl rfl) 3) (demoEnv 0) hblocks (by decide)
    (fun _ => 0) 396).2.2.2.1 2 2 _ hprices

/-- An entry keeps 48 bits of its interval: with all three recorded, the last is not found, and the lower median is not read. -/
theorem interval_past_48_bits_not_found :
    Run demoConfig (demoExternals (2 ^ 48 - 2)) (demoLog (2 ^ 48 - 2) 3) (demoState (2 ^ 48 - 2) 3) ∧
    (∀ c ∈ demoLog (2 ^ 48 - 2) 3, Determines (demoExternals (2 ^ 48 - 2)) c.1 (demoChain (2 ^ 48 - 2))) ∧
    (∀ c ∈ demoLog (2 ^ 48 - 2) 3, c.1.number ≤ (demoEnv (2 ^ 48 - 2)).number) ∧
    newestAt demoConfig (demoEnv (2 ^ 48 - 2)).number = 2 ^ 48 ∧ points demoConfig 396 = 3 ∧
    (∀ i < 3, recordedAt (demoLog (2 ^ 48 - 2) 3) (2 ^ 48) i) ∧
    sampleOf (demoState (2 ^ 48 - 2) 3) (2 ^ 48) = (0, 0) ∧ trueSample demoConfig (demoChain (2 ^ 48 - 2)) (2 ^ 48) = (3, 7) ∧
    prices demoConfig (demoEnv (2 ^ 48 - 2)) 396 (demoState (2 ^ 48 - 2) 3) = .ok (1, 2) (demoState (2 ^ 48 - 2) 3) ∧
    lowerMedian ((List.range 3).map (trueAt demoConfig (demoChain (2 ^ 48 - 2)) Prod.fst (fun _ => 0) (2 ^ 48))) = some 2 :=
  ⟨demo_run (.inr rfl), demo_log_determines (.inr rfl) 3, demo_blocks _ 3, by decide, by decide, by decide, by decide +kernel,
    by decide +kernel, rfl, by decide +kernel⟩

end Tacit.IntervalOracle
