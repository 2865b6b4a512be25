import Mathlib.Order.Interval.Finset.Nat
import Optimer.Lib.SpanningTree
import Optimer.Tsp.Subtour

/-! 1-trees: a spanning tree of the vertices from `1` on and two edges at vertex `0`. Every tour is
one. -/

namespace Optimer.Tsp
open SpanningTree

/-- The edges at vertex `0` are written from it. -/
def IsOneTree (n : ℕ) (edges : List Edge) : Prop :=
  ∃ tree a b, edges.Perm (tree ++ [(0, a), (0, b)]) ∧ IsTree (Finset.Ico 1 n) tree ∧
    a ≠ b ∧ a ∈ Finset.Ico 1 n ∧ b ∈ Finset.Ico 1 n

/-- A 1-tree of `n` different edges, with its cost, and no 1-tree is cheaper. -/
structure IsMinOneTree {T : Type*} [AddCommMonoid T] [LE T] (n : ℕ) (matrix : ℕ → ℕ → T)
    (value : T) (edges : List Edge) : Prop where
  oneTree : IsOneTree n edges
  length : edges.length = n
  nodup : (edges.map fun e => s(e.1, e.2)).Nodup
  value_eq : value = SpanningTree.cost matrix edges
  least : ∀ other, IsOneTree n other → value ≤ SpanningTree.cost matrix other

/-- The matrix is symmetric at the vertices. -/
def SymmetricOn {T : Type*} (n : ℕ) (matrix : ℕ → ℕ → T) : Prop :=
  ∀ i < n, ∀ j < n, matrix i j = matrix j i

instance {T : Type*} [DecidableEq T] {n : ℕ} {matrix : ℕ → ℕ → T} : Decidable (SymmetricOn n matrix) :=
  inferInstanceAs (Decidable (∀ i < n, ∀ j < n, matrix i j = matrix j i))

section Adj

variable {n a b c i j : ℕ} {tree : List Edge}

theorem adj_zero (h : IsTree (Finset.Ico 1 n) tree) :
    Adj (tree ++ [(0, a), (0, b)]) 0 c → c = a ∨ c = b := by
  have hpos : ∀ e ∈ tree, 1 ≤ e.1 ∧ 1 ≤ e.2 := fun e he =>
    ⟨(Finset.mem_Ico.mp (h.mem e he).1).1, (Finset.mem_Ico.mp (h.mem e he).2).1⟩
  rintro (hc | hc) <;> rcases List.mem_append.mp hc with hc | hc
  · exact absurd (hpos _ hc).1 (Nat.not_succ_le_zero 0)
  · exact (List.mem_pair.mp hc).imp (fun h => (Prod.mk.inj h).2) fun h => (Prod.mk.inj h).2
  · exact absurd (hpos _ hc).2 (Nat.not_succ_le_zero 0)
  · rcases List.mem_pair.mp hc with h | h <;> cases h
    exacts [.inl rfl, .inr rfl]

theorem adj_of_pos (hi : 1 ≤ i) (hj : 1 ≤ j) (h : Adj (tree ++ [(0, a), (0, b)]) i j) : Adj tree i j := by
  refine h.imp (fun h => ?_) fun h => ?_
  all_goals
    refine (List.mem_append.mp h).resolve_right fun h => ?_
    rcases List.mem_pair.mp h with h | h <;> cases h
    all_goals omega

end Adj

/-- A minimum 1-tree contains the edges of another 1-tree that are cheaper than all the rest. -/
theorem IsMinOneTree.adj_of_cheap {T : Type*} [AddCommMonoid T] [PartialOrder T]
    [IsOrderedCancelAddMonoid T] {n : ℕ} {matrix : ℕ → ℕ → T} {value : T} {edges other G : List Edge}
    (H : IsMinOneTree n matrix value edges) (hother : IsOneTree n other) (hG : ∀ e ∈ G, Adj other e.1 e.2)
    (hcheap : ∀ i j k l, Adj G i j → k < n → l < n → k ≠ l → ¬ Adj G k l → matrix i j < matrix k l)
    {e : Edge} (he : e ∈ G) : Adj edges e.1 e.2 := by
  classical
  obtain ⟨tree, a, b, hperm, htree, hab, ha, hb⟩ := H.oneTree
  obtain ⟨tree', a', b', hperm', htree', _, ha', hb'⟩ := hother
  have hrange : ∀ {c}, c ∈ Finset.Ico 1 n → 1 ≤ c ∧ c < n := Finset.mem_Ico.mp
  have hsub : ∀ {i j}, Adj G i j → Adj (tree' ++ [(0, a'), (0, b')]) i j := fun h =>
    (h.elim (hG _) fun h => (hG _ h).symm).mono fun _ => hperm'.mem_iff.mp
  have hvalue : ∀ x y F, IsTree (Finset.Ico 1 n) F → x ≠ y → x ∈ Finset.Ico 1 n → y ∈ Finset.Ico 1 n →
      SpanningTree.cost matrix tree + (matrix 0 a + matrix 0 b) ≤
        SpanningTree.cost matrix F + (matrix 0 x + matrix 0 y) := by
    intro x y F hF hxy hx hy
    have hle := H.least (F ++ [(0, x), (0, y)]) ⟨F, x, y, .refl _, hF, hxy, hx, hy⟩
    rw [H.value_eq, cost_perm hperm] at hle
    simpa [SpanningTree.cost] using hle
  refine Adj.mono (fun _ => hperm.mem_iff.mpr) ?_
  -- An edge at `0` would take the place of one of the two that the other 1-tree has not.
  have hzero : ∀ c, Adj G 0 c → c = a ∨ c = b := by
    intro c hc
    by_contra hno
    obtain ⟨hca, hcb⟩ := not_or.mp hno
    have hcab : c = a' ∨ c = b' := adj_zero htree' (hsub hc)
    have hcU : c ∈ Finset.Ico 1 n := by
      rcases hcab with rfl | rfl
      exacts [ha', hb']
    have hfree : ¬ Adj G 0 a ∨ ¬ Adj G 0 b := by
      by_contra hboth
      obtain ⟨hGa, hGb⟩ := not_or.mp hboth
      have ha2 : a = a' ∨ a = b' := adj_zero htree' (hsub (not_not.mp hGa))
      have hb2 : b = a' ∨ b = b' := adj_zero htree' (hsub (not_not.mp hGb))
      omega
    have hn : 0 < n := Nat.zero_lt_of_lt (hrange ha).2
    rcases hfree with hx | hx
    · have hlt := hcheap 0 c 0 a hc hn (hrange ha).2 (Nat.ne_of_lt (hrange ha).1) hx
      have hle := hvalue c b tree htree hcb hcU hb
      exact absurd (lt_of_lt_of_le (add_lt_add_right (add_lt_add_left hlt _) _) hle) (lt_irrefl _)
    · have hlt := hcheap 0 c 0 b hc hn (hrange hb).2 (Nat.ne_of_lt (hrange hb).1) hx
      have hle := hvalue a c tree htree (Ne.symm hca) ha hcU
      exact absurd (lt_of_lt_of_le (add_lt_add_right (add_lt_add_right hlt _) _) hle) (lt_irrefl _)
  have hends : Adj (tree ++ [(0, a), (0, b)]) 0 a ∧ Adj (tree ++ [(0, a), (0, b)]) 0 b :=
    ⟨.inl (by simp), .inl (by simp)⟩
  rcases Nat.eq_zero_or_pos e.1 with h1 | h1
  · rw [h1]
    rcases hzero e.2 (.inl (h1 ▸ he)) with h | h <;> rw [h]
    exacts [hends.1, hends.2]
  rcases Nat.eq_zero_or_pos e.2 with h2 | h2
  · rw [h2]
    rcases hzero e.1 (.inr (h2 ▸ he)) with h | h <;> rw [h]
    exacts [hends.1.symm, hends.2.symm]
  refine Adj.mono (fun _ => List.mem_append_left _) ?_
  have hmin : ∀ F, IsTree (Finset.Ico 1 n) F → SpanningTree.cost matrix tree ≤ SpanningTree.cost matrix F :=
    fun F hF => le_of_add_le_add_right (hvalue a b F hF hab ha hb)
  refine htree.adj_of_least (G := G.filter fun g => Adj tree' g.1 g.2) hmin htree'
    (fun g hg => of_decide_eq_true (List.mem_filter.mp hg).2)
    (List.mem_filter.mpr ⟨he, decide_eq_true (adj_of_pos h1 h2 (hsub (.inl he)))⟩) fun f hf hno => ?_
  obtain ⟨hf1, hf2⟩ := htree.mem f hf
  refine hcheap _ _ _ _ (.inl he) (hrange hf1).2 (hrange hf2).2 (htree.ne hf) fun hadj => hno ?_
  have hadj' : Adj tree' f.1 f.2 := adj_of_pos (hrange hf1).1 (hrange hf2).1 (hsub hadj)
  refine hadj.imp (fun h => ?_) fun h => ?_
  exacts [List.mem_filter.mpr ⟨h, decide_eq_true hadj'⟩, List.mem_filter.mpr ⟨h, decide_eq_true hadj'.symm⟩]

section Tour

variable {T : Type*} {n : ℕ} {p : ℕ → ℕ}

theorem IsTour.period (h : IsTour n p) (hn : 0 < n) : Function.minimalPeriod p 0 = n :=
  (h.perm.isTour_iff hn).mp h

theorem IsTour.iterate_ne_zero (h : IsTour n p) {k : ℕ} (hk : 0 < k) (hkn : k < n) : p^[k] 0 ≠ 0 := by
  intro hzero
  have := Function.IsPeriodicPt.minimalPeriod_le hk hzero
  rw [h.period (by omega)] at this
  omega

theorem IsTour.iterate_self (h : IsTour n p) (hn : 0 < n) : p^[n] 0 = 0 := by
  conv_lhs => rw [← h.period hn]
  exact Function.iterate_minimalPeriod

theorem IsTour.exists_iterate (h : IsTour n p) {i : ℕ} (hi : i < n) : ∃ k < n, p^[k] 0 = i := by
  obtain ⟨k, hk, rfl⟩ := List.mem_map.mp (h.mem_orbit (Nat.zero_lt_of_lt hi) i hi)
  exact ⟨k, h.period (Nat.zero_lt_of_lt hi) ▸ List.mem_range.mp hk, rfl⟩

theorem IsTour.iterate_inj (h : IsTour n p) {k l : ℕ} (hk : k < n) (hl : l < n)
    (heq : p^[k] 0 = p^[l] 0) : k = l := by
  have hper := h.period (Nat.zero_lt_of_lt hk)
  exact Function.iterate_injOn_Iio_minimalPeriod (by simpa [hper] using hk) (by simpa [hper] using hl)
    heq

/-- A tour of at least three vertices does not turn back. -/
theorem IsTour.apply_apply_ne (h : IsTour n p) (hn : 3 ≤ n) {i : ℕ} (hi : i < n) : p (p i) ≠ i := by
  intro hback
  have hall : {i, p i} = Finset.range n := by
    refine h.eq_range (fun k hk => ?_) ⟨i, Finset.mem_insert_self _ _⟩ fun k hk => ?_
    · rcases Finset.mem_insert.mp hk with rfl | hk
      · exact Finset.mem_range.mpr hi
      · exact Finset.mem_range.mpr (Finset.mem_singleton.mp hk ▸ h.perm.lt hi)
    · rcases Finset.mem_insert.mp hk with rfl | hk
      · exact Finset.mem_insert_of_mem (Finset.mem_singleton_self _)
      · rw [Finset.mem_singleton.mp hk, hback]
        exact Finset.mem_insert_self _ _
  have hcard := congrArg Finset.card hall
  rw [Finset.card_range] at hcard
  have := Finset.card_le_two (a := i) (b := p i)
  omega

/-- A tour passes no edge twice. -/
theorem IsTour.edges_nodup (h : IsTour n p) (hn : 3 ≤ n) :
    ((List.range n).map fun i => s(i, p i)).Nodup := by
  refine List.Nodup.map_on (fun i hi j hj heq => ?_) List.nodup_range
  rcases Sym2.eq_iff.mp heq with ⟨h1, _⟩ | ⟨rfl, h2⟩
  · exact h1
  · exact absurd h2 (h.apply_apply_ne hn (List.mem_range.mp hj))

/-- A tour comes to every vertex once before it is back at `0`. -/
theorem IsTour.iterates_perm (h : IsTour n p) :
    ((List.range n).map fun k => p^[k] 0).Perm (List.range n) := by
  refine (List.Nodup.subperm ?_ fun i hi => ?_).perm_of_length_le (by simp)
  · exact List.Nodup.map_on (fun k hk l hl heq =>
      h.iterate_inj (List.mem_range.mp hk) (List.mem_range.mp hl) heq) List.nodup_range
  · obtain ⟨k, hk, rfl⟩ := List.mem_map.mp hi
    exact List.mem_range.mpr (h.iterate_lt (Nat.zero_lt_of_lt (List.mem_range.mp hk)) k)

/-- What the edges of a tour cost, in the order in which they are passed from `0` on. -/
theorem IsTour.sum_eq [AddCommMonoid T] (h : IsTour n p) (matrix : ℕ → ℕ → T) :
    ∑ i ∈ Finset.range n, matrix i (p i) =
      ((List.range n).map fun k => matrix (p^[k] 0) (p^[k + 1] 0)).sum := by
  have hsum : ∑ i ∈ Finset.range n, matrix i (p i) =
      ((List.range n).map fun i => matrix i (p i)).sum := rfl
  rw [hsum, ← (h.iterates_perm.map _).sum_eq, List.map_map]
  simp only [Function.comp_def, Function.iterate_succ_apply']

/-- The part of a tour that does not touch `0`. -/
def tourPath (n : ℕ) (p : ℕ → ℕ) : List Edge :=
  (List.range (n - 2)).map fun k => (p^[k + 1] 0, p^[k + 2] 0)

theorem IsTour.isTree_path (h : IsTour n p) (hn : 3 ≤ n) :
    IsTree (Finset.Ico 1 n) (tourPath n p) where
  mem e he := by
    obtain ⟨k, hk, rfl⟩ := List.mem_map.mp he
    have hk := List.mem_range.mp hk
    have hmem : ∀ l, 0 < l → l < n → p^[l] 0 ∈ Finset.Ico 1 n := fun l hl hln =>
      Finset.mem_Ico.mpr ⟨Nat.pos_of_ne_zero (h.iterate_ne_zero hl hln), h.iterate_lt (by omega) l⟩
    exact ⟨hmem _ (by omega) (by omega), hmem _ (by omega) (by omega)⟩
  joined := by
    have hone : ∀ k, k + 1 < n → Joined (tourPath n p) (p^[k + 1] 0) (p^[1] 0) := by
      intro k
      induction k with
      | zero => exact fun _ => .refl
      | succ k ih =>
        intro hk
        refine .head (.inr ?_) (ih (by omega))
        exact List.mem_map.mpr ⟨k, List.mem_range.mpr (by omega), rfl⟩
    have hall : ∀ a ∈ Finset.Ico 1 n, Joined (tourPath n p) a (p^[1] 0) := by
      intro a ha
      rw [Finset.mem_Ico] at ha
      obtain ⟨k, hk, rfl⟩ := h.exists_iterate ha.2
      cases k with
      | zero => exact absurd ha.1 (by simp)
      | succ k => exact hone k hk
    exact fun a ha b hb => (hall a ha).trans (hall b hb).symm
  length := by
    rw [tourPath, List.length_map, List.length_range, Nat.card_Ico]
    omega

/-- A tour is a 1-tree of the same cost. -/
theorem IsTour.exists_oneTree [AddCommMonoid T] (h : IsTour n p) (hn : 3 ≤ n)
    {matrix : ℕ → ℕ → T} (hsymm : SymmetricOn n matrix) :
    ∃ edges, IsOneTree n edges ∧
      SpanningTree.cost matrix edges = ∑ i ∈ Finset.range n, matrix i (p i) := by
  have hlt := h.iterate_lt (show 0 < n by omega)
  have hmem : ∀ l, 0 < l → l < n → p^[l] 0 ∈ Finset.Ico 1 n := fun l hl hln =>
    Finset.mem_Ico.mpr ⟨Nat.pos_of_ne_zero (h.iterate_ne_zero hl hln), hlt l⟩
  refine ⟨tourPath n p ++ [(0, p^[1] 0), (0, p^[n - 1] 0)], ⟨_, _, _, .refl _, h.isTree_path hn,
    fun heq => ?_, hmem 1 (by omega) (by omega), hmem (n - 1) (by omega) (by omega)⟩, ?_⟩
  · have := h.iterate_inj (by omega) (by omega) heq
    omega
  · obtain ⟨k, rfl⟩ : ∃ k, n = k + 2 := ⟨n - 2, by omega⟩
    have hback : matrix 0 (p^[k + 1] 0) = matrix (p^[k + 1] 0) (p^[k + 2] 0) := by
      rw [h.iterate_self (by omega)]
      exact hsymm 0 (by omega) _ (hlt _)
    rw [h.sum_eq, List.range_succ, List.range_succ_eq_map, SpanningTree.cost, tourPath]
    simp only [Nat.add_sub_cancel, List.map_append, List.map_cons, List.map_nil, List.map_map,
      List.sum_append, List.sum_cons, List.sum_nil, add_zero, Function.comp_def]
    rw [show k + 2 - 1 = k + 1 by omega, hback]
    rw [← add_assoc, add_comm (List.sum _)]
    rfl

/-- The value of a minimum 1-tree is a lower bound for every tour. -/
theorem IsMinOneTree.le_tour [AddCommMonoid T] [LE T] {matrix : ℕ → ℕ → T} {value : T}
    {edges : List Edge} (H : IsMinOneTree n matrix value edges) (hn : 3 ≤ n)
    (hsymm : SymmetricOn n matrix) (h : IsTour n p) :
    value ≤ ∑ i ∈ Finset.range n, matrix i (p i) := by
  obtain ⟨tree, htree, hcost⟩ := h.exists_oneTree hn hsymm
  exact hcost ▸ H.least tree htree

end Tour

end Optimer.Tsp
