import Mathlib.Algebra.BigOperators.Group.List.Basic
import Mathlib.Algebra.Order.Group.Defs
import Mathlib.Data.Finset.Card
import Mathlib.Data.Sym.Sym2
import Mathlib.Logic.Relation
import Mathlib.Tactic.Abel

/-! Spanning trees as lists of edges, and the growth of one along cheapest crossing edges. -/

namespace SpanningTree

variable {V T : Type*} {E F : List (V × V)} {U S : Finset V} {a b r s u v : V}

/-- Joined by an edge, in either direction. -/
def Adj (E : List (V × V)) (a b : V) : Prop := (a, b) ∈ E ∨ (b, a) ∈ E

instance [DecidableEq V] (E : List (V × V)) (a b : V) : Decidable (Adj E a b) :=
  inferInstanceAs (Decidable ((a, b) ∈ E ∨ (b, a) ∈ E))

abbrev Joined (E : List (V × V)) : V → V → Prop := Relation.ReflTransGen (Adj E)

/-- A spanning tree of `U`: it joins all vertices, with one edge less than there are vertices. -/
structure IsTree (U : Finset V) (E : List (V × V)) : Prop where
  mem : ∀ e ∈ E, e.1 ∈ U ∧ e.2 ∈ U
  joined : ∀ a ∈ U, ∀ b ∈ U, Joined E a b
  length : E.length + 1 = U.card

def cost [AddCommMonoid T] (w : V → V → T) (E : List (V × V)) : T :=
  (E.map fun e => w e.1 e.2).sum

theorem Adj.symm (h : Adj E a b) : Adj E b a := Or.symm h

theorem Joined.symm (h : Joined E a b) : Joined E b a :=
  h.swap.lift id fun _ _ => Adj.symm

theorem Adj.mono (h : ∀ e ∈ E, e ∈ F) (hab : Adj E a b) : Adj F a b := hab.imp (h _) (h _)

theorem Joined.mono (h : ∀ e ∈ E, e ∈ F) (hab : Joined E a b) : Joined F a b :=
  hab.lift id fun _ _ => Adj.mono h

theorem cost_perm [AddCommMonoid T] {w : V → V → T} (h : E.Perm F) : cost w E = cost w F :=
  (h.map _).sum_eq

theorem cost_erase [AddCommMonoid T] [DecidableEq V] {w : V → V → T} {f : V × V} (hf : f ∈ E) :
    w f.1 f.2 + cost w (E.erase f) = cost w E := by
  rw [cost_perm (List.perm_cons_erase hf), cost, cost, List.map_cons, List.sum_cons]

/-- Every vertex of `U` is joined to one of `S`. -/
def Spans (U S : Finset V) (E : List (V × V)) : Prop := ∀ v ∈ U, ∃ s ∈ S, Joined E v s

/-- A way into `S` has a first edge that ends in it. -/
theorem exists_crossing (hs : s ∈ S) (h : Joined E v s) (hv : v ∉ S) :
    ∃ x y, x ∉ S ∧ y ∈ S ∧ Adj E x y ∧
      Relation.ReflTransGen (fun a b => Adj E a b ∧ a ∉ S ∧ b ∉ S) v x := by
  induction h using Relation.ReflTransGen.head_induction_on with
  | refl => exact absurd hs hv
  | @head v c hadj _ ih =>
    by_cases hc : c ∈ S
    · exact ⟨v, c, hv, hc, hadj, .refl⟩
    · obtain ⟨x, y, hx, hy, hxy, hpath⟩ := ih hc
      exact ⟨x, y, hx, hy, hxy, .head ⟨hadj, hv, hc⟩ hpath⟩

section Exchange

variable [DecidableEq V]

/-- An edge that is not the one taken away stays. -/
theorem Adj.erase {f : V × V} (h : Adj E a b) (hf : f ≠ (a, b)) (hf' : f ≠ (b, a)) :
    Adj (E.erase f) a b :=
  h.imp (List.mem_erase_of_ne hf.symm).mpr (List.mem_erase_of_ne hf'.symm).mpr

/-- When `v` is added to `S`, an edge between `S` and the rest can be given up. -/
theorem exchange (hspan : Spans U S E) (hv : v ∈ U) (hvS : v ∉ S) :
    ∃ x y f, x ∉ S ∧ y ∈ S ∧ f ∈ E ∧ (f = (x, y) ∨ f = (y, x)) ∧
      Spans U (insert v S) (E.erase f) := by
  obtain ⟨s, hs, hvs⟩ := hspan v hv
  obtain ⟨x, y, hx, hy, hxy, hpath⟩ := exists_crossing hs hvs hvS
  obtain ⟨f, hf, hfxy⟩ : ∃ f ∈ E, f = (x, y) ∨ f = (y, x) :=
    hxy.elim (fun h => ⟨_, h, .inl rfl⟩) fun h => ⟨_, h, .inr rfl⟩
  -- The way from `v` to `x` keeps outside `S` and so does not use the edge.
  have hvx : Joined (E.erase f) v x := by
    refine hpath.lift id fun a b ⟨hab, ha, hb⟩ => hab.erase ?_ ?_
    · rintro rfl
      rcases hfxy with h | h
      exacts [hb ((Prod.mk.inj h).2 ▸ hy), ha ((Prod.mk.inj h).1 ▸ hy)]
    · rintro rfl
      rcases hfxy with h | h
      exacts [ha ((Prod.mk.inj h).2 ▸ hy), hb ((Prod.mk.inj h).1 ▸ hy)]
  refine ⟨x, y, f, hx, hy, hf, hfxy, fun z hz => ?_⟩
  obtain ⟨t, ht, hzt⟩ := hspan z hz
  clear hz
  induction hzt using Relation.ReflTransGen.head_induction_on with
  | refl => exact ⟨t, Finset.mem_insert_of_mem ht, .refl⟩
  | @head z c hadj _ ih =>
    obtain ⟨t', ht', hct'⟩ := ih
    by_cases hzx : z = x
    · exact ⟨v, Finset.mem_insert_self v S, hzx ▸ hvx.symm⟩
    by_cases hzy : z = y
    · exact ⟨y, Finset.mem_insert_of_mem hy, hzy ▸ .refl⟩
    refine ⟨t', ht', .head (hadj.erase ?_ ?_) hct'⟩
    · rintro rfl
      rcases hfxy with h | h
      exacts [hzx (Prod.mk.inj h).1, hzy (Prod.mk.inj h).1]
    · rintro rfl
      rcases hfxy with h | h
      exacts [hzy (Prod.mk.inj h).2, hzx (Prod.mk.inj h).2]

/-- To join vertices to those of `S` takes as many edges as there are other ones. -/
theorem Spans.card_le (h : Spans U S E) : U.card ≤ S.card + E.length := by
  obtain ⟨k, hk⟩ : ∃ k, E.length = k := ⟨_, rfl⟩
  induction k generalizing S E with
  | zero =>
    obtain rfl := List.length_eq_zero_iff.mp hk
    refine Finset.card_le_card fun v hv => ?_
    obtain ⟨s, hs, hvs⟩ := h v hv
    cases hvs using Relation.ReflTransGen.head_induction_on with
    | refl => exact hs
    | head hadj _ _ => exact absurd hadj (by simp [Adj])
  | succ k ih =>
    by_cases hall : U ⊆ S
    · exact (Finset.card_le_card hall).trans (Nat.le_add_right ..)
    · obtain ⟨v, hv, hvS⟩ := Finset.not_subset.mp hall
      obtain ⟨_, _, f, _, _, hf, _, hspan⟩ := exchange h hv hvS
      have hlen : (E.erase f).length + 1 = E.length := List.length_erase_add_one hf
      have := ih hspan (by omega)
      rw [Finset.card_insert_of_notMem hvS] at this
      omega

/-- An edge of a spanning tree is the only way between its ends. -/
theorem IsTree.not_joined_erase {e : V × V} (h : IsTree U E) (he : e ∈ E) :
    ¬ Joined (E.erase e) e.1 e.2 := by
  intro hjoin
  have hspan : Spans U {e.1} (E.erase e) := by
    refine fun v hv => ⟨e.1, Finset.mem_singleton_self _, ?_⟩
    refine (h.joined v hv e.1 (h.mem e he).1).head_induction_on .refl fun {a b} hab _ ih => ?_
    by_cases ha : a = e.1
    · exact ha ▸ .refl
    by_cases hb : a = e.2
    · exact hb ▸ hjoin.symm
    refine .head (hab.erase ?_ ?_) ih
    · rintro rfl
      exact ha rfl
    · rintro rfl
      exact hb rfl
  have := hspan.card_le
  have hlen : (E.erase e).length + 1 = E.length := List.length_erase_add_one he
  have := h.length
  rw [Finset.card_singleton] at *
  omega

/-- No edge of a spanning tree leads back to its vertex. -/
theorem IsTree.ne {e : V × V} (h : IsTree U E) (he : e ∈ E) : e.1 ≠ e.2 := fun hloop =>
  h.not_joined_erase he (hloop ▸ .refl)

/-- A new edge between vertices that some edges of a spanning tree do not join takes the place of another
one that they do not join. -/
theorem IsTree.swap {x y : V} {G : List (V × V)} (h : IsTree U E) (hsub : ∀ f ∈ G, f ∈ E) (hx : x ∈ U)
    (hy : y ∈ U) (hno : ¬ Joined G x y) :
    ∃ f ∈ E, ¬ Joined G f.1 f.2 ∧ IsTree U ((x, y) :: E.erase f) := by
  classical
  have hmem : ∀ {z}, z ∈ U.filter (Joined G · y) ↔ z ∈ U ∧ Joined G z y := Finset.mem_filter
  have hspan : Spans U (U.filter (Joined G · y)) E := fun v hv =>
    ⟨y, hmem.mpr ⟨hy, .refl⟩, h.joined v hv y hy⟩
  obtain ⟨a, b, f, ha, hb, hf, hfab, hspan⟩ := exchange hspan hx fun hmx => hno (hmem.mp hmx).2
  obtain ⟨_, hby⟩ := hmem.mp hb
  have hfG : ¬ Joined G f.1 f.2 := by
    rcases hfab with rfl | rfl
    · exact fun hj => ha (hmem.mpr ⟨(h.mem _ hf).1, hj.trans hby⟩)
    · exact fun hj => ha (hmem.mpr ⟨(h.mem _ hf).2, hj.symm.trans hby⟩)
  have hkeep : ∀ g ∈ G, g ∈ (x, y) :: E.erase f := fun g hg => by
    refine List.mem_cons_of_mem _ ((List.mem_erase_of_ne ?_).mpr (hsub g hg))
    rintro rfl
    exact hfG (.single (.inl hg))
  have hall : ∀ v ∈ U, Joined ((x, y) :: E.erase f) v y := fun v hv => by
    obtain ⟨s, hs, hvs⟩ := hspan v hv
    refine (hvs.mono fun _ => List.mem_cons_of_mem _).trans ?_
    rcases Finset.mem_insert.mp hs with rfl | hs
    · exact .single (.inl List.mem_cons_self)
    · exact (hmem.mp hs).2.mono hkeep
  refine ⟨f, hf, hfG, fun e he => ?_, fun v hv w hw => (hall v hv).trans (hall w hw).symm, ?_⟩
  · rcases List.mem_cons.mp he with rfl | he
    exacts [⟨hx, hy⟩, h.mem e (List.mem_of_mem_erase he)]
  · have hlen : (E.erase f).length + 1 = E.length := List.length_erase_add_one hf
    rw [List.length_cons, hlen, h.length]

/-- A cheapest spanning tree contains the edges of another one that are cheaper than all the rest. -/
theorem IsTree.adj_of_least [AddCommMonoid T] [PartialOrder T] [IsOrderedCancelAddMonoid T]
    {w : V → V → T} {G : List (V × V)} {e : V × V} (h : IsTree U E)
    (hmin : ∀ E', IsTree U E' → cost w E ≤ cost w E') (hF : IsTree U F)
    (hG : ∀ g ∈ G, Adj F g.1 g.2) (he : e ∈ G)
    (hw : ∀ f ∈ E, ¬ Adj G f.1 f.2 → w e.1 e.2 < w f.1 f.2) : Adj E e.1 e.2 := by
  classical
  by_contra hno
  obtain ⟨g, hg, hge⟩ : ∃ g ∈ F, g = e ∨ g = (e.2, e.1) :=
    (hG e he).elim (fun h => ⟨_, h, .inl rfl⟩) fun h => ⟨_, h, .inr rfl⟩
  have hgU := hF.mem g hg
  have heU : e.1 ∈ U ∧ e.2 ∈ U := by
    rcases hge with rfl | rfl
    exacts [hgU, hgU.symm]
  -- The edges that both trees have do not join the ends of `e`, since `F` has no cycle.
  have hopen : ¬ Joined (E.filter fun f => Adj G f.1 f.2) e.1 e.2 := by
    intro hjoin
    have hlift : Joined (F.erase g) e.1 e.2 := by
      refine hjoin.lift id fun a b hab => ?_
      obtain ⟨hEab, hGab⟩ : Adj E a b ∧ Adj G a b := by
        rcases hab with hab | hab
        · exact ⟨.inl (List.mem_filter.mp hab).1, of_decide_eq_true (List.mem_filter.mp hab).2⟩
        · exact ⟨.inr (List.mem_filter.mp hab).1, (of_decide_eq_true (List.mem_filter.mp hab).2 : Adj G b a).symm⟩
      have hFab : Adj F a b := hGab.elim (hG _) fun h => (hG _ h).symm
      refine hFab.erase ?_ ?_
      · rintro rfl
        rcases hge with h | h <;> cases h
        exacts [hno hEab, hno hEab.symm]
      · rintro rfl
        rcases hge with h | h <;> cases h
        exacts [hno hEab.symm, hno hEab]
    refine hF.not_joined_erase hg ?_
    rcases hge with rfl | rfl
    exacts [hlift, hlift.symm]
  obtain ⟨f, hf, hfG, htree⟩ :=
    h.swap (fun f hf => (List.mem_filter.mp hf).1) heU.1 heU.2 hopen
  have hlt := hw f hf fun hadj => hfG (.single (.inl (List.mem_filter.mpr ⟨hf, decide_eq_true hadj⟩)))
  have hle : w f.1 f.2 + cost w (E.erase f) ≤ w e.1 e.2 + cost w (E.erase f) := by
    rw [cost_erase hf]
    exact (hmin _ htree).trans_eq (by rw [cost, List.map_cons, List.sum_cons, cost])
  exact absurd (lt_of_lt_of_le (add_lt_add_left hlt _) hle) (lt_irrefl _)

end Exchange

/-- Edges `E` that join the vertices of `S` to `r` and can be completed to a tree of `U` as cheap
as any. -/
structure Grown [AddCommMonoid T] [LE T] (w : V → V → T) (U : Finset V) (r : V) (S : Finset V)
    (E : List (V × V)) : Prop where
  subset : S ⊆ U
  root : r ∈ S
  mem : ∀ e ∈ E, e.1 ∈ S ∧ e.2 ∈ S
  joined : ∀ a ∈ S, Joined E a r
  length : E.length + 1 = S.card
  nodup : (E.map fun e => s(e.1, e.2)).Nodup
  least : ∀ F, IsTree U F → ∃ F', (∀ e ∈ F', e.1 ∈ U ∧ e.2 ∈ U) ∧ F'.length + S.card = U.card ∧
    Spans U S F' ∧ cost w E + cost w F' ≤ cost w F

namespace Grown

variable [AddCommMonoid T] [PartialOrder T] {w : V → V → T}

theorem start (hr : r ∈ U) : Grown w U r {r} [] where
  subset := Finset.singleton_subset_iff.mpr hr
  root := Finset.mem_singleton_self r
  mem := by simp
  joined a ha := Finset.mem_singleton.mp ha ▸ .refl
  length := by simp
  nodup := .nil
  least F hF := by
    refine ⟨F, hF.mem, by simpa using hF.length, fun v hv => ?_, by simp [cost]⟩
    exact ⟨r, Finset.mem_singleton_self r, hF.joined v hv r hr⟩

/-- Growth along a cheapest edge that leaves `S`. -/
theorem step [DecidableEq V] [IsOrderedAddMonoid T] (G : Grown w U r S E)
    (hsymm : ∀ a ∈ U, ∀ b ∈ U, w a b = w b a) (hu : u ∈ S)
    (hv : v ∈ U) (hvS : v ∉ S) (hmin : ∀ x ∈ S, ∀ y ∈ U, y ∉ S → w u v ≤ w x y) :
    Grown w U r (insert v S) (E ++ [(u, v)]) where
  subset := Finset.insert_subset hv G.subset
  root := Finset.mem_insert_of_mem G.root
  mem e he := by
    rcases List.mem_append.mp he with he | he
    · exact (G.mem e he).imp Finset.mem_insert_of_mem Finset.mem_insert_of_mem
    · cases List.mem_singleton.mp he
      exact ⟨Finset.mem_insert_of_mem hu, Finset.mem_insert_self v S⟩
  joined a ha := by
    have hold : ∀ {a}, a ∈ S → Joined (E ++ [(u, v)]) a r := fun ha =>
      (G.joined _ ha).mono fun e he => List.mem_append_left _ he
    rcases Finset.mem_insert.mp ha with rfl | ha
    · exact .head (.inr (by simp)) (hold hu)
    · exact hold ha
  length := by
    rw [List.length_append, List.length_singleton, Finset.card_insert_of_notMem hvS, G.length]
  nodup := by
    rw [List.map_append, List.map_singleton]
    refine List.nodup_append'.mpr ⟨G.nodup, List.nodup_singleton _, fun x hx hx' => ?_⟩
    obtain ⟨e, he, rfl⟩ := List.mem_map.mp hx
    obtain ⟨h1, h2⟩ := G.mem e he
    rcases Sym2.eq_iff.mp (List.mem_singleton.mp hx') with h | h
    exacts [hvS ((show e.2 = v from h.2) ▸ h2), hvS ((show e.1 = v from h.1) ▸ h1)]
  least F hF := by
    obtain ⟨F', hmem, hlen, hspan, hcost⟩ := G.least F hF
    obtain ⟨x, y, f, hx, hy, hf, hfxy, hspan'⟩ := exchange hspan hv hvS
    have hw : w u v ≤ w f.1 f.2 := by
      obtain ⟨h1, h2⟩ := hmem f hf
      rcases hfxy with rfl | rfl
      · exact hsymm _ h1 _ h2 ▸ hmin y hy x h1 hx
      · exact hmin y hy x h2 hx
    have hlen' : (F'.erase f).length + 1 = F'.length := List.length_erase_add_one hf
    refine ⟨F'.erase f, fun e he => hmem e (List.mem_of_mem_erase he), ?_, hspan', ?_⟩
    · rw [Finset.card_insert_of_notMem hvS]
      omega
    · calc cost w (E ++ [(u, v)]) + cost w (F'.erase f)
          = cost w E + (w u v + cost w (F'.erase f)) := by simp [cost, add_assoc]
        _ ≤ cost w E + (w f.1 f.2 + cost w (F'.erase f)) := by gcongr
        _ = cost w E + cost w F' := by rw [cost_erase hf]
        _ ≤ cost w F := hcost

theorem isTree (G : Grown w U r S E) (hS : U ⊆ S) : IsTree U E := by
  have hSU : S = U := G.subset.antisymm hS
  subst hSU
  exact ⟨G.mem, fun a ha b hb => (G.joined a ha).trans (G.joined b hb).symm, G.length⟩

theorem cost_le (G : Grown w U r S E) (hS : U ⊆ S) (hF : IsTree U F) : cost w E ≤ cost w F := by
  obtain ⟨F', _, hlen, _, hcost⟩ := G.least F hF
  have hnil : F' = [] := by
    have hSU : S = U := G.subset.antisymm hS
    rw [hSU] at hlen
    exact List.length_eq_zero_iff.mp (by omega)
  simpa [hnil, cost] using hcost

end Grown

end SpanningTree
