import Mathlib.Data.List.Permutation
import Mathlib.Tactic.Linarith
import Mathlib.Tactic.Ring
import Optimer.Lib.LocalSearch
import Optimer.Tsp.Tour

/-! `two_opt` is a local search by exchanges of two consecutive vertices. It ends with the same vertices
between the same ends and keeps the value, but it never tries the last exchange. -/

namespace Optimer.Tsp

variable {n k first v : ℕ} {matrix : ℕ → ℕ → ValueType} {route route' l : List ℕ} {sol sol' : Solution}

/-! ### The value of a route -/

theorem calcValue_cons (a b : ℕ) (l : List ℕ) :
    calcValue matrix (a :: b :: l) = matrix a b + calcValue matrix (b :: l) := by
  simp [calcValue]

theorem calcValue_append (l : List ℕ) (a : ℕ) (r : List ℕ) :
    calcValue matrix (l ++ a :: r) = calcValue matrix (l ++ [a]) + calcValue matrix (a :: r) := by
  induction l with
  | nil => simp [calcValue]
  | cons b l ih =>
    cases l with
    | nil =>
      simp only [List.nil_append, List.cons_append, calcValue_cons]
      simp [calcValue]
    | cons c l =>
      simp only [List.cons_append, calcValue_cons] at ih ⊢
      rw [ih, add_assoc]

theorem calcValue_concat (h : route.getLast? = some v) (w : ℕ) :
    calcValue matrix (route ++ [w]) = calcValue matrix route + matrix v w := by
  obtain ⟨l, rfl⟩ := List.getLast?_eq_some_iff.mp h
  rw [List.append_assoc, List.singleton_append, calcValue_append]
  simp [calcValue]

/-! ### `two_opt` -/

/-- The same vertices between the same ends. -/
structure Rearranged (route route' : List ℕ) : Prop where
  perm : route'.Perm route
  head : route'.head? = route.head?
  last : route'.getLast? = route.getLast?

namespace Rearranged

theorem trans (h : Rearranged route route') (h' : Rearranged route' l) : Rearranged route l :=
  ⟨h'.perm.trans h.perm, h'.head.trans h.head, h'.last.trans h.last⟩

theorem closedRoute (h : Rearranged route route') (hr : ClosedRoute n route) : ClosedRoute n route' := by
  obtain ⟨v, l, hperm, rfl⟩ := hr
  obtain ⟨hp, hh, hl⟩ := h
  rw [List.head?_cons] at hh
  rw [← List.cons_append, List.getLast?_append] at hl
  obtain ⟨r, rfl⟩ := List.head?_eq_some_iff.mp hh
  have hne : r ≠ [] := by
    rintro rfl
    simpa using hp.length_eq
  obtain ⟨m, rfl⟩ : ∃ m, r = m ++ [v] := by
    refine List.getLast?_eq_some_iff.mp ?_
    rwa [List.getLast?_cons_of_ne_nil hne] at hl
  refine ⟨v, m, .trans (.cons v ?_) hperm, rfl⟩
  exact (List.perm_append_right_iff [v]).mp ((List.perm_cons v).mp hp)

/-- The vertices between the ends. -/
theorem interior (h : Rearranged route route') (h2 : 2 ≤ route.length) :
    route'.tail.dropLast.Perm route.tail.dropLast := by
  have hends : ∀ r : List ℕ, 2 ≤ r.length → ∃ v w, r.head? = some v ∧ r.getLast? = some w ∧
      r = v :: (r.tail.dropLast ++ [w]) := fun r hr => by
    obtain ⟨v, r, rfl⟩ := List.exists_cons_of_length_pos (Nat.lt_of_lt_of_le Nat.zero_lt_two hr)
    have hne : r ≠ [] := List.ne_nil_of_length_pos (Nat.lt_of_succ_lt_succ hr)
    exact ⟨v, r.getLast hne, rfl, by rw [List.getLast?_cons_of_ne_nil hne, List.getLast?_eq_some_getLast hne],
      by rw [List.tail_cons, List.dropLast_append_getLast]⟩
  obtain ⟨v, w, hv, hw, hroute⟩ := hends route h2
  obtain ⟨v', w', hv', hw', hroute'⟩ := hends route' (h.perm.length_eq.symm ▸ h2)
  obtain rfl : v' = v := Option.some.inj (hv'.symm.trans (h.head.trans hv))
  obtain rfl : w' = w := Option.some.inj (hw'.symm.trans (h.last.trans hw))
  have hperm := h.perm
  rw [hroute, hroute'] at hperm
  exact (List.perm_append_right_iff [w']).mp ((List.perm_cons v').mp hperm)

end Rearranged

/-- What an exchange does: the route gets cheaper, and the value keeps step with it. -/
structure Improves (matrix : ℕ → ℕ → ValueType) (sol sol' : Solution) : Prop where
  rearranged : Rearranged sol.route sol'.route
  value : sol'.value - calcValue matrix sol'.route = sol.value - calcValue matrix sol.route
  less : calcValue matrix sol'.route < calcValue matrix sol.route

theorem Improves.trans {sol'' : Solution} (h : Improves matrix sol sol')
    (h' : Improves matrix sol' sol'') : Improves matrix sol sol'' :=
  ⟨h.rearranged.trans h'.rearranged, h'.value.trans h.value, h'.less.trans h.less⟩

/-! ### One exchange -/

/-- The route with the vertices at positions `k` and `k + 1` exchanged. -/
def exchange (k : ℕ) (route : List ℕ) : List ℕ :=
  (route.set k (route.getD (k + 1) 0)).set (k + 1) (route.getD k 0)

/-- The `delta` of an exchange. -/
def delta (matrix : ℕ → ℕ → ValueType) (k : ℕ) (route : List ℕ) : ValueType :=
  let a := route.getD (k - 1) 0
  let x := route.getD k 0
  let y := route.getD (k + 1) 0
  let b := route.getD (k + 2) 0
  (matrix a x + matrix x y + matrix y b) - (matrix a y + matrix y x + matrix x b)

/-- The four vertices an exchange is about. -/
theorem exists_window (h1 : 1 ≤ k) (h2 : k + 2 < route.length) :
    ∃ pre a x y b post, route = pre ++ a :: x :: y :: b :: post ∧ pre.length + 1 = k := by
  obtain ⟨k, rfl⟩ := Nat.exists_eq_add_of_le' h1
  have hlen : (route.drop k).length = route.length - k := List.length_drop
  match hd : route.drop k with
  | [] | [_] | [_, _] | [_, _, _] =>
    rw [hd] at hlen
    simp at hlen
    omega
  | a :: x :: y :: b :: post =>
    refine ⟨route.take k, a, x, y, b, post, ?_, ?_⟩
    · rw [← hd, List.take_append_drop]
    · rw [List.length_take]
      omega

/-- An exchange between the ends lowers the cost by `delta`, whatever the direction of the arcs. -/
theorem exchange_spec (matrix : ℕ → ℕ → ValueType) (h1 : 1 ≤ k) (h2 : k + 2 < route.length) :
    Rearranged route (exchange k route) ∧
      calcValue matrix (exchange k route) = calcValue matrix route - delta matrix k route := by
  obtain ⟨pre, a, x, y, b, post, rfl, rfl⟩ := exists_window h1 h2
  have ha : (pre ++ a :: x :: y :: b :: post).getD pre.length 0 = a := by simp
  have hx : (pre ++ a :: x :: y :: b :: post).getD (pre.length + 1) 0 = x := by simp
  have hy : (pre ++ a :: x :: y :: b :: post).getD (pre.length + 1 + 1) 0 = y := by
    simp [Nat.add_assoc]
  have hb : (pre ++ a :: x :: y :: b :: post).getD (pre.length + 1 + 2) 0 = b := by
    simp [Nat.add_assoc]
  have hset : exchange (pre.length + 1) (pre ++ a :: x :: y :: b :: post) =
      pre ++ a :: y :: x :: b :: post := by
    rw [exchange, hx, hy]
    simp [Nat.add_assoc]
  have hvalue : ∀ x y, calcValue matrix (pre ++ a :: x :: y :: b :: post) =
      calcValue matrix (pre ++ [a]) + (matrix a x + matrix x y + matrix y b) +
        calcValue matrix (b :: post) := fun x y => by
    rw [calcValue_append, calcValue_cons, calcValue_cons, calcValue_cons]
    ring
  rw [hset]
  refine ⟨⟨?_, ?_, ?_⟩, ?_⟩
  · exact .append_left pre (.cons a (.swap x y _))
  · cases pre <;> simp
  · cases post <;> simp
  · simp only [delta, Nat.add_sub_cancel, ha, hx, hy, hb, hvalue]
    ring

/-- An exchange leaves alone what comes after it. -/
theorem exchange_drop {j : ℕ} (h : k + 2 ≤ j) : (exchange k route).drop j = route.drop j := by
  rw [exchange, List.drop_set_of_lt (by omega), List.drop_set_of_lt (by omega)]

@[simp] theorem exchange_length : (exchange k route).length = route.length := by
  simp [exchange]

theorem delta_pos_iff (h1 : 1 ≤ k) (h2 : k + 2 < route.length) :
    0 < delta matrix k route ↔ calcValue matrix (exchange k route) < calcValue matrix route := by
  rw [(exchange_spec matrix h1 h2).2, sub_lt_self_iff]

/-! ### The passes -/

/-- What the inner loop does to the route: it tries the exchanges at `1, …, size - 4`. -/
def sweep (matrix : ℕ → ℕ → ValueType) (route : List ℕ) : List ℕ :=
  LocalSearch.sweep (calcValue matrix) exchange (List.range' 1 (route.length - 4)) route

/-- No exchange of a sweep reaches the last two entries. -/
theorem sweep_drop (matrix : ℕ → ℕ → ValueType) (route : List ℕ) :
    (sweep matrix route).length = route.length ∧
      (sweep matrix route).drop (route.length - 2) = route.drop (route.length - 2) := by
  refine LocalSearch.sweep_induction (P := fun r : List ℕ => r.length = route.length ∧
    r.drop (route.length - 2) = route.drop (route.length - 2)) (fun k hk r hr => ?_) ⟨rfl, rfl⟩
  obtain ⟨h1, h2⟩ := List.mem_range'_1.mp hk
  rw [exchange_length, exchange_drop (by omega)]
  exact hr

theorem iterate_sweep_drop (matrix : ℕ → ℕ → ValueType) (route : List ℕ) (m : ℕ) :
    ((sweep matrix)^[m] route).length = route.length ∧
      ((sweep matrix)^[m] route).drop (route.length - 2) = route.drop (route.length - 2) := by
  induction m with
  | zero => exact ⟨rfl, rfl⟩
  | succ m ih =>
    obtain ⟨hlen, hdrop⟩ := sweep_drop matrix ((sweep matrix)^[m] route)
    rw [Function.iterate_succ_apply']
    rw [ih.1] at hlen hdrop
    exact ⟨hlen, hdrop.trans ih.2⟩

/-- One round of the inner loop. -/
theorem twoOptStep_cases (matrix : ℕ → ℕ → ValueType) {s : Solution × Bool} (h1 : 1 ≤ first)
    (h2 : first + 3 < s.1.route.length) :
    (twoOptStep matrix s first).1.route =
        LocalSearch.step (calcValue matrix) exchange s.1.route first ∧
      (twoOptStep matrix s first = s ∨
        (twoOptStep matrix s first).2 = true ∧ Improves matrix s.1 (twoOptStep matrix s first).1) := by
  have hpos : 0 < delta matrix first s.1.route ↔
      calcValue matrix (exchange first s.1.route) < calcValue matrix s.1.route :=
    delta_pos_iff h1 (by omega)
  obtain ⟨hre, hvalue⟩ := exchange_spec matrix h1 (show first + 2 < s.1.route.length by omega)
  have hstep : twoOptStep matrix s first = if 0 < delta matrix first s.1.route then
      (⟨s.1.value - delta matrix first s.1.route, exchange first s.1.route⟩, true) else s := rfl
  rw [hstep, LocalSearch.step]
  split
  · next hdelta =>
    refine ⟨(if_pos (hpos.mp hdelta)).symm, .inr ⟨rfl, hre, ?_, hpos.mp hdelta⟩⟩
    simp only [hvalue]
    ring
  · next hdelta => exact ⟨(if_neg (hpos.not.mp hdelta)).symm, .inl rfl⟩

/-- The inner loop. -/
theorem twoOptPass_cases (matrix : ℕ → ℕ → ValueType) (sol : Solution) :
    (twoOptPass matrix sol).1.route = sweep matrix sol.route ∧
      (twoOptPass matrix sol = (sol, false) ∨
        (twoOptPass matrix sol).2 = true ∧ Improves matrix sol (twoOptPass matrix sol).1) := by
  have hfold : ∀ (is : List ℕ) (s : Solution × Bool),
      (∀ i ∈ is, 1 ≤ i ∧ i + 3 < s.1.route.length) →
      s = (sol, false) ∨ s.2 = true ∧ Improves matrix sol s.1 →
      (is.foldl (twoOptStep matrix) s).1.route =
          LocalSearch.sweep (calcValue matrix) exchange is s.1.route ∧
        (is.foldl (twoOptStep matrix) s = (sol, false) ∨
          (is.foldl (twoOptStep matrix) s).2 = true ∧
            Improves matrix sol (is.foldl (twoOptStep matrix) s).1) := by
    intro is
    induction is with
    | nil => exact fun s _ hs => ⟨rfl, hs⟩
    | cons i is ih =>
      intro s his hs
      obtain ⟨h1, h2⟩ := his i List.mem_cons_self
      obtain ⟨hroute, hcases⟩ := twoOptStep_cases matrix h1 h2
      have hlen : (twoOptStep matrix s i).1.route.length = s.1.route.length := by
        rcases hcases with h | ⟨_, h⟩
        · rw [h]
        · exact h.rearranged.perm.length_eq
      obtain ⟨hroute', hcases'⟩ := ih (twoOptStep matrix s i)
        (fun j hj => hlen ▸ his j (List.mem_cons_of_mem i hj)) (by
          rcases hcases with h | ⟨hb, h⟩
          · rwa [h]
          · refine .inr ⟨hb, ?_⟩
            rcases hs with rfl | ⟨_, hs⟩
            exacts [h, hs.trans h])
      refine ⟨?_, hcases'⟩
      rw [hroute] at hroute'
      exact hroute'
  refine hfold _ _ (fun i hi => ?_) (.inl rfl)
  obtain ⟨k, hk, rfl⟩ := List.mem_range'.mp hi
  show 1 ≤ 1 + 1 * k ∧ 1 + 1 * k + 3 < sol.route.length
  omega

/-- `two_opt` ends with a route that another pass would not change; either it changed nothing, or it
made the route cheaper. -/
theorem twoOpt_spec (matrix : ℕ → ℕ → ValueType) {fuel : ℕ} (hf : sol.route.length.factorial < fuel) :
    ∃ r, twoOpt fuel matrix sol = some r ∧
      (r = (sol, false) ∨ r.2 = true ∧ Improves matrix sol r.1) ∧
      sweep matrix r.1.route = r.1.route ∧ ∃ m, (sweep matrix)^[m] sol.route = r.1.route := by
  let S : Finset (List ℕ) := sol.route.permutations.toFinset
  have hS : ∀ s : Solution × Bool, s = (sol, false) ∨ s.2 = true ∧ Improves matrix sol s.1 →
      s.1.route ∈ S := fun s hs => by
    rw [List.mem_toFinset, List.mem_permutations]
    rcases hs with rfl | ⟨_, hs⟩
    exacts [.refl _, hs.rearranged.perm]
  refine Loop.iterate_total
    (fun s => (s = (sol, false) ∨ s.2 = true ∧ Improves matrix sol s.1) ∧
      ∃ m, (sweep matrix)^[m] sol.route = s.1.route)
    (fun s => (LocalSearch.cheaper (calcValue matrix) S s.1.route).card) (fun s ⟨hs, m, hm⟩ => ?_)
    ⟨.inl rfl, 0, rfl⟩ ?_
  · obtain ⟨hroute, h | ⟨hb, h⟩⟩ := twoOptPass_cases matrix s.1
    · rw [h] at hroute
      exact .inr ⟨(s.1, s.2), by simp [twoOptBody, h], hs, hroute.symm, m, hm⟩
    · have himp : Improves matrix sol (twoOptPass matrix s.1).1 := by
        rcases hs with rfl | ⟨_, hs⟩
        exacts [h, hs.trans h]
      refine .inl ⟨((twoOptPass matrix s.1).1, true), by simp [twoOptBody, hb],
        ⟨.inr ⟨rfl, himp⟩, m + 1, ?_⟩, LocalSearch.card_cheaper_lt (hS (_, true) (.inr ⟨rfl, himp⟩)) h.less⟩
      rw [Function.iterate_succ_apply', hm, hroute]
  · refine Nat.lt_of_le_of_lt ((Finset.card_filter_le _ _).trans ?_) hf
    rw [← List.length_permutations]
    exact List.toFinset_card_le _

/-! ### What `two_opt` promises -/

/-- A solution as `two_opt` takes it: a closed route below `n` with its own cost. -/
structure TwoOptInput (n : ℕ) (matrix : ℕ → ℕ → ValueType) (sol : Solution) : Prop where
  two_le : 2 ≤ sol.route.length
  closed : sol.route.head? = sol.route.getLast?
  lt : ∀ v ∈ sol.route, v < n
  value : sol.value = calcValue matrix sol.route

theorem twoOpt_value {r : Solution × Bool} (h : sol.value = calcValue matrix sol.route)
    (hr : r = (sol, false) ∨ r.2 = true ∧ Improves matrix sol r.1) :
    r.1.value = calcValue matrix r.1.route := by
  rcases hr with rfl | ⟨_, himp⟩
  · exact h
  · have := himp.value
    linarith

/-- `two_opt` ends, rearranges the vertices between the ends, keeps the value equal to the cost and
makes it smaller if and only if it returns `true`. -/
theorem twoOpt_improves (h : TwoOptInput n matrix sol) :
    ∃ r, (∀ fuel, sol.route.length.factorial < fuel → twoOpt fuel matrix sol = some r) ∧
      r.1.route.head? = sol.route.head? ∧ r.1.route.getLast? = sol.route.getLast? ∧
      r.1.route.tail.dropLast.Perm sol.route.tail.dropLast ∧
      r.1.value = calcValue matrix r.1.route ∧ r.1.value ≤ sol.value ∧
      (r.2 = true ↔ r.1.value < sol.value) := by
  obtain ⟨r, hrun, hcases, _⟩ := twoOpt_spec matrix (Nat.lt_succ_self sol.route.length.factorial)
  have hvalue := twoOpt_value h.value hcases
  refine ⟨r, fun fuel hf => Loop.iterate_mono hrun hf, ?_⟩
  rcases hcases with rfl | ⟨hb, himp⟩
  · exact ⟨rfl, rfl, .refl _, hvalue, le_rfl, by simp⟩
  · have hless : r.1.value < sol.value := by
      rw [hvalue, h.value]
      exact himp.less
    exact ⟨himp.rearranged.head, himp.rearranged.last, himp.rearranged.interior h.two_le, hvalue,
      hless.le, iff_of_true hb hless⟩

/-- The sides of a square of length `1`, and its diagonals. -/
def square (i j : ℕ) : ValueType := if i = j then mVal else if (i + 2) % 4 = j then 10 else 1

/-- A route along both diagonals. -/
def crossed : Solution := { value := 22, route := [0, 1, 3, 2, 0] }

theorem crossed_input : TwoOptInput 4 square crossed where
  two_le := by decide
  closed := rfl
  lt := by decide
  value := by decide +kernel

/-- Another route along both diagonals. -/
def bowTie : Solution := { value := 22, route := [0, 2, 1, 3, 0] }

theorem bowTie_input : TwoOptInput 4 square bowTie where
  two_le := by decide
  closed := rfl
  lt := by decide
  value := by decide +kernel

theorem twoOpt_improves_bowTie :
    ∃ r, (∀ fuel, Nat.factorial 5 < fuel → twoOpt fuel square bowTie = some r) ∧
      r.2 = true ∧ r.1.value < 22 := by
  obtain ⟨r, hrun, _, _, _, _, _, hiff⟩ := twoOpt_improves bowTie_input
  have htrue : (twoOpt 121 square bowTie).map Prod.snd = some true := by decide +kernel
  rw [hrun 121 (by decide), Option.map_some, Option.some.injEq] at htrue
  exact ⟨r, hrun, htrue, hiff.mp htrue⟩

/-- No exchange of two consecutive vertices between the ends is cheaper. -/
def LocalOptimum (matrix : ℕ → ℕ → ValueType) (route : List ℕ) : Prop :=
  ∀ k, 1 ≤ k → k + 2 < route.length → calcValue matrix route ≤ calcValue matrix (exchange k route)

theorem sweep_eq_self_iff : sweep matrix route = route ↔ ∀ k, 1 ≤ k → k + 3 < route.length →
    calcValue matrix route ≤ calcValue matrix (exchange k route) := by
  rw [sweep, LocalSearch.sweep_eq_self_iff]
  constructor
  · exact fun h k h1 h2 => h k (List.mem_range'_1.mpr ⟨h1, by omega⟩)
  · intro h k hk
    obtain ⟨h1, h2⟩ := List.mem_range'_1.mp hk
    exact h k h1 (by omega)

/-- Where the passes end, only the last exchange may still be cheaper. -/
theorem localOptimum_iff (h : sweep matrix route = route) : LocalOptimum matrix route ↔
    (4 ≤ route.length →
      calcValue matrix route ≤ calcValue matrix (exchange (route.length - 3) route)) := by
  constructor
  · exact fun hopt h4 => hopt (route.length - 3) (by omega) (by omega)
  · intro hlast k h1 h2
    rcases Nat.lt_or_ge (k + 3) route.length with hk | hk
    · exact sweep_eq_self_iff.mp h k h1 hk
    · obtain rfl : k = route.length - 3 := by omega
      exact hlast (by omega)

/-- The vertices `x` and `y` may come to stand before the last two entries, which stay where they are. -/
def MayPrecede (route : List ℕ) (x y : ℕ) : Prop :=
  ∃ pre, Rearranged route (pre ++ x :: y :: route.drop (route.length - 2))

theorem MayPrecede.length_eq {x y : ℕ} {pre : List ℕ}
    (h : Rearranged route (pre ++ x :: y :: route.drop (route.length - 2))) :
    pre.length + 4 = route.length := by
  have hlen := h.perm.length_eq
  simp only [List.length_append, List.length_cons, List.length_drop] at hlen
  omega

/-- In a route of four entries nothing moves. -/
theorem MayPrecede.unique {x y x' y' : ℕ} (hlen : route.length = 4) (h : MayPrecede route x y)
    (h' : MayPrecede route x' y') : x = x' ∧ y = y' := by
  obtain ⟨pre, hre⟩ := h
  obtain ⟨pre', hre'⟩ := h'
  obtain rfl : pre = [] := List.eq_nil_of_length_eq_zero (by have := length_eq hre; omega)
  obtain rfl : pre' = [] := List.eq_nil_of_length_eq_zero (by have := length_eq hre'; omega)
  obtain rfl : x = x' := Option.some.inj (hre.head.trans hre'.head.symm)
  have hy : ([y] : List ℕ).Perm [y'] :=
    (List.perm_append_right_iff (route.drop (route.length - 2))).mp
      ((List.perm_cons x).mp (hre.perm.trans hre'.perm.symm))
  exact ⟨rfl, by simpa using hy⟩

/-- The `delta` of the last exchange, were `x` and `y` to stand before the last two entries. -/
def lastDelta (matrix : ℕ → ℕ → ValueType) (route : List ℕ) (x y : ℕ) : ValueType :=
  delta matrix 1 (x :: y :: route.drop (route.length - 2))

/-- The last exchange of a rearranged route. -/
theorem exists_mayPrecede (matrix : ℕ → ℕ → ValueType) (h4 : 4 ≤ route.length) (hre : Rearranged route route')
    (hdrop : route'.drop (route.length - 2) = route.drop (route.length - 2)) :
    ∃ x y, MayPrecede route x y ∧
      (calcValue matrix route' ≤ calcValue matrix (exchange (route'.length - 3) route') ↔
        lastDelta matrix route x y ≤ 0) := by
  have hlen : route'.length = route.length := hre.perm.length_eq
  have h1 : 1 ≤ route'.length - 3 := by omega
  have h2 : route'.length - 3 + 2 < route'.length := by omega
  rw [← not_lt, ← delta_pos_iff h1 h2, not_lt]
  obtain ⟨pre, x, y, z, e, post, hroute, hpre⟩ := exists_window h1 h2
  obtain rfl : post = [] := by
    have hcount := congrArg List.length hroute
    simp only [List.length_append, List.length_cons] at hcount
    exact List.eq_nil_of_length_eq_zero (by omega)
  have htail : route.drop (route.length - 2) = [z, e] := by
    rw [← hdrop, ← hlen, hroute, show pre ++ [x, y, z, e] = (pre ++ [x, y]) ++ [z, e] by simp]
    exact List.drop_left' (by simp)
  refine ⟨x, y, ⟨pre, ?_⟩, ?_⟩
  · rwa [htail, ← hroute]
  · rw [lastDelta, htail, ← hpre, hroute]
    simp [delta, Nat.add_assoc]

/-- The result of `two_opt` is a local optimum if the exchange that it never tries does not pay, whichever
two vertices come to stand before the last two entries; it is none if the exchange always pays. For a
route of at most four entries the condition is exact. -/
theorem twoOpt_localOptimum (h : TwoOptInput n matrix sol) :
    ∃ r, (∀ fuel, sol.route.length.factorial < fuel → twoOpt fuel matrix sol = some r) ∧
      r.1.value = calcValue matrix r.1.route ∧
      ((∀ x y, MayPrecede sol.route x y → lastDelta matrix sol.route x y ≤ 0) →
        LocalOptimum matrix r.1.route) ∧
      (4 ≤ sol.route.length →
        (∀ x y, MayPrecede sol.route x y → 0 < lastDelta matrix sol.route x y) →
        ¬ LocalOptimum matrix r.1.route) ∧
      (sol.route.length ≤ 4 → LocalOptimum matrix r.1.route →
        ∀ x y, MayPrecede sol.route x y → lastDelta matrix sol.route x y ≤ 0) := by
  obtain ⟨r, hrun, hcases, hfix, m, hm⟩ := twoOpt_spec matrix (Nat.lt_succ_self sol.route.length.factorial)
  obtain ⟨hlen, hdrop⟩ := iterate_sweep_drop matrix sol.route m
  rw [hm] at hlen hdrop
  have hre : Rearranged sol.route r.1.route := by
    rcases hcases with rfl | ⟨_, himp⟩
    exacts [⟨.refl _, rfl, rfl⟩, himp.rearranged]
  refine ⟨r, fun fuel hf => Loop.iterate_mono hrun hf, twoOpt_value h.value hcases, ?_, ?_, ?_⟩
  · refine fun hnever => (localOptimum_iff hfix).mpr fun h4 => ?_
    obtain ⟨x, y, hxy, hiff⟩ := exists_mayPrecede matrix (hlen ▸ h4) hre hdrop
    exact hiff.mpr (hnever x y hxy)
  · intro h4 halways hopt
    obtain ⟨x, y, hxy, hiff⟩ := exists_mayPrecede matrix h4 hre hdrop
    exact absurd (hiff.mp ((localOptimum_iff hfix).mp hopt (hlen ▸ h4))) (not_le.mpr (halways x y hxy))
  · intro hle hopt x' y' hxy'
    have h4 : 4 ≤ sol.route.length := by
      obtain ⟨pre, hpre⟩ := hxy'
      have := MayPrecede.length_eq hpre
      omega
    obtain ⟨x, y, hxy, hiff⟩ := exists_mayPrecede matrix h4 hre hdrop
    obtain ⟨rfl, rfl⟩ := hxy.unique (Nat.le_antisymm hle h4) hxy'
    exact hiff.mp ((localOptimum_iff hfix).mp hopt (hlen ▸ h4))

theorem twoOpt_localOptimum_bowTie : ∃ r, (∀ fuel, Nat.factorial 5 < fuel →
    twoOpt fuel square bowTie = some r) ∧ LocalOptimum square r.1.route := by
  obtain ⟨r, hrun, _, hnever, _⟩ := twoOpt_localOptimum bowTie_input
  refine ⟨r, hrun, hnever fun x y hxy => ?_⟩
  obtain ⟨pre, hre⟩ := hxy
  obtain ⟨p, rfl⟩ := List.length_eq_one_iff.mp
    (Nat.add_right_cancel (MayPrecede.length_eq hre))
  obtain rfl : p = 0 := Option.some.inj hre.head
  have hpair : ([x, y] : List ℕ).Perm [2, 1] :=
    (List.perm_append_right_iff [3, 0]).mp ((List.perm_cons 0).mp hre.perm)
  rcases List.perm_pair.mp hpair with h | h
  · obtain ⟨rfl, rfl⟩ : x = 2 ∧ y = 1 := by simpa using h
    decide +kernel
  · obtain ⟨rfl, rfl⟩ : x = 1 ∧ y = 2 := by simpa using h
    decide +kernel

/-- The exchange of `3` and `2`, the last one, would lead around the square. -/
theorem twoOpt_misses_last : TwoOptInput 4 square crossed ∧
    twoOpt 1 square crossed = some (crossed, false) ∧ ¬ LocalOptimum square crossed.route := by
  have hcost : twoOpt 1 square crossed = some (crossed, false) ∧
      calcValue square (exchange 2 crossed.route) < calcValue square crossed.route := by decide +kernel
  exact ⟨crossed_input, hcost.1, fun h => absurd (h 2 (by decide) (by decide)) (not_le.mpr hcost.2)⟩

end Optimer.Tsp
