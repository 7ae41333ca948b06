import Mathlib.Data.List.Basic
/-!
# Lists cut into chunks

`chunks n l` is `l` in pieces of `n`, the last one shorter. Joined again the pieces are `l`; cutting at least
two elements into pieces of at least two leaves fewer pieces than elements.
-/
namespace Tacit

variable {α β : Type} {n : Nat}

/-- `slice::chunks(n)`. -/
def chunks (n : Nat) : List α → List (List α)
  | [] => []
  | a :: l => (a :: l.take (n - 1)) :: chunks n (l.drop (n - 1))
termination_by l => l.length
decreasing_by
  rw [List.length_drop, List.length_cons]
  omega

@[simp] theorem chunks_nil : chunks n ([] : List α) = [] := by rw [chunks]

theorem chunks_cons (a : α) (l : List α) :
    chunks n (a :: l) = (a :: l.take (n - 1)) :: chunks n (l.drop (n - 1)) := by rw [chunks]

/-- Induction along the cuts. -/
theorem chunks_induction {P : List α → Prop} (n : Nat) (hnil : P [])
    (hcons : ∀ a l, P (l.drop (n - 1)) → P (a :: l)) (l : List α) : P l := by
  induction l using chunks.induct n with
  | case1 => exact hnil
  | case2 a l ih => exact hcons a l ih

/-- Nothing is lost at a cut. -/
theorem chunks_flatten (l : List α) : (chunks n l).flatten = l := by
  induction l using chunks_induction n with
  | hnil => simp
  | hcons a l ih => rw [chunks_cons, List.flatten_cons, ih, List.cons_append, List.take_append_drop]

theorem length_le_of_mem_chunks (hn : 0 < n) (l : List α) : ∀ c ∈ chunks n l, c.length ≤ n := by
  induction l using chunks_induction n with
  | hnil => simp
  | hcons a l ih =>
    intro c hc
    rw [chunks_cons, List.mem_cons] at hc
    rcases hc with rfl | hc
    · rw [List.length_cons, List.length_take]
      omega
    · exact ih c hc

theorem ne_nil_of_mem_chunks (l : List α) : ∀ c ∈ chunks n l, c ≠ [] := by
  induction l using chunks_induction n with
  | hnil => simp
  | hcons a l ih =>
    intro c hc
    rw [chunks_cons, List.mem_cons] at hc
    rcases hc with rfl | hc
    · simp
    · exact ih c hc

theorem sublist_of_mem_chunks (l : List α) : ∀ c ∈ chunks n l, c.Sublist l := by
  induction l using chunks_induction n with
  | hnil => simp
  | hcons a l ih =>
    intro c hc
    rw [chunks_cons, List.mem_cons] at hc
    rcases hc with rfl | hc
    · exact (List.take_sublist _ _).cons_cons a
    · exact ((ih c hc).trans (List.drop_sublist _ _)).cons a

theorem chunks_map (f : α → β) (l : List α) : chunks n (l.map f) = (chunks n l).map (List.map f) := by
  induction l using chunks_induction n with
  | hnil => simp
  | hcons a l ih =>
    rw [List.map_cons, chunks_cons, chunks_cons, List.map_cons, List.map_cons, List.map_take, ← ih, List.map_drop]

theorem length_chunks_le (l : List α) : (chunks n l).length ≤ l.length := by
  induction l using chunks_induction n with
  | hnil => simp
  | hcons a l ih =>
    rw [chunks_cons, List.length_cons, List.length_cons]
    rw [List.length_drop] at ih
    omega

/-- Cutting shortens. -/
theorem length_chunks_lt (hn : 1 < n) {l : List α} (hl : 1 < l.length) : (chunks n l).length < l.length := by
  cases l with
  | nil => simp at hl
  | cons a l =>
    have hrest := length_chunks_le (n := n) (l.drop (n - 1))
    rw [List.length_cons] at hl
    rw [chunks_cons, List.length_cons, List.length_cons]
    rw [List.length_drop] at hrest
    omega

end Tacit
