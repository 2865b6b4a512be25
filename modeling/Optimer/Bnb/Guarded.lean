import Optimer.Bnb.Serial

/-! Searches whose `branch` is only known to be good on the nodes they take: they run like a search
that meets the contract everywhere. -/

namespace Optimer
open Transition

variable {N X : Type*} {S : Solver N} {cost : X → ValueType} {sols : N → Set X} {init v : ValueType}
  {good : N → ValueType → Prop} {c : Container} {s : Search N}

/-- `S`, where a call of `branch` that is not good leaves the record `v` and no node. -/
noncomputable def Solver.guarded (S : Solver N) (good : N → ValueType → Prop) (v : ValueType) :
    Solver N where
  rank := S.rank
  initialNode := S.initialNode
  initialSolution := S.initialSolution
  branch n r sol :=
    open Classical in
    if good n r then S.branch n r sol else { record := min r v, sol, nodes := [], released := [] }
  less := S.less
  less_irrefl := S.less_irrefl
  less_trans := S.less_trans

namespace Search

/-- Some run takes the node `n` from the container while the record is `r`. -/
def Takes (S : Solver N) (c : Container) (start : BnbState N) (n : N) (r : ValueType) : Prop :=
  ∃ s i rest, Reaches (Step S c) start (.search s) ∧ s.interrupted = false ∧ s.record = r ∧
    c.Pop S Prod.fst s.nodes (n, i) rest

/-- A search that only takes good nodes is totally correct if the guarded search meets the contract. -/
theorem guarded_correct (C : (S.guarded good v).Contract cost sols)
    (hs : Inv (S.guarded good v) cost sols init (.search s))
    (hgood : ∀ n r, Takes S c (.search s) n r → r ≤ init → good n r) :
    TotallyCorrect (Step S c) (.search s)
      fun st => ∃ v, S.Optimal cost sols init v ∧ Returns v st := by
  have hbody : ∀ t : Search N, ∀ n i rest, good n t.record →
      t.body (S.guarded good v) n i rest = t.body S n i rest := by
    intro t n i rest hn
    unfold body
    rw [show (S.guarded good v).branch n t.record t.sol = S.branch n t.record t.sol from if_pos hn]
  refine .of_agree (inv_preserved C) hs (fun st hr hinv st' => ?_) (search_correct C c hs)
  have htaken : ∀ t n i rest, st = .search t → t.interrupted = false →
      c.Pop S Prod.fst t.nodes (n, i) rest →
      t.body (S.guarded good v) n i rest = t.body S n i rest := by
    rintro t n i rest rfl hi hp
    exact hbody t n i rest (hgood n t.record ⟨t, i, rest, hr, hi, rfl, hp⟩ hinv.2.2.le_init)
  constructor
  · intro hst
    cases hst with
    | @body t n i rest hi hp =>
      exact htaken t n i rest rfl hi hp ▸ Step.body (S := S.guarded good v) hi hp
    | leave hl => exact .leave hl
    | drop hp => exact .drop hp
    | ret hnil => exact .ret hnil
  · intro hst
    cases hst with
    | @body t n i rest hi hp =>
      exact (htaken t n i rest rfl hi hp).symm ▸ Step.body (S := S) hi hp
    | leave hl => exact .leave hl
    | drop hp => exact .drop hp
    | ret hnil => exact .ret hnil

/-- A search from the record `init` whose first call of `branch` leaves the record `v` and no node. -/
def Single (S : Solver N) (init v : ValueType) : BnbState N → Prop
  | .search s => s.interrupted = false ∧
      (s.record = init ∧ s.sol = {} ∧ s.nodes.map Prod.fst = [S.initialNode] ∨
        s.record = v ∧ s.nodes = [])
  | .clean s => s.record = v
  | .returned sol _ => sol.value = v

theorem Single.start : Single S init v (.search (.init S init)) := ⟨rfl, .inl ⟨rfl, rfl, rfl⟩⟩

theorem single_preserved (hb : (S.branch S.initialNode init {}).record = v ∧
    (S.branch S.initialNode init {}).nodes = []) : Preserved (Step S c) (Single S init v) := by
  intro st st' hst hstep
  cases hstep with
  | @body s n i rest _ hp =>
    obtain ⟨hi, hs⟩ := hst
    obtain ⟨hrec, hsol, hroot⟩ := hs.resolve_right fun h => hp.ne_nil h.2
    have hperm := hp.perm.map Prod.fst
    rw [hroot, List.singleton_perm, List.map_cons, List.cons.injEq] at hperm
    obtain ⟨rfl, hnil⟩ := hperm
    obtain rfl := List.map_eq_nil_iff.mp hnil.symm
    rw [← hrec, ← hsol] at hb
    exact ⟨hi, .inr ⟨hb.1, by simp [body, hb.2, Container.pushAll]⟩⟩
  | @leave s h =>
    obtain ⟨hi, hs⟩ := hst
    have hnil := h.resolve_right (by simp [hi])
    exact (hs.resolve_left fun h => by simp [hnil] at h).1
  | drop _ => exact hst
  | ret _ => exact hst

/-- Such a search can return, with the value `v`. -/
theorem single_returns (hb : (S.branch S.initialNode init {}).record = v ∧
    (S.branch S.initialNode init {}).nodes = []) (c : Container) :
    ∃ sol s, Reaches (Step S c) (.search (.init S init)) (.returned sol s) ∧ sol.value = v := by
  have hpop : c.Pop S Prod.fst [(S.initialNode, 0)] (S.initialNode, 0) [] := by
    cases c with
    | lifo => rfl
    | priority => exact ⟨.refl _, fun _ h => absurd h List.not_mem_nil⟩
  have hbody := Step.body (S := S) (c := c) (s := .init S init) rfl hpop
  have hnil : ((Search.init S init).body S S.initialNode 0 []).nodes = [] := by
    simp [body, Search.init, hb.2, Container.pushAll]
  exact ⟨_, _, ((Relation.ReflTransGen.single hbody).tail (.leave (.inl hnil))).tail (.ret hnil), hb.1⟩

/-- Such a search only takes the root. -/
theorem Takes.eq_root {n : N} {r : ValueType} (hb : (S.branch S.initialNode init {}).record = v ∧
    (S.branch S.initialNode init {}).nodes = []) (h : Takes S c (.search (.init S init)) n r) :
    n = S.initialNode ∧ r = init := by
  obtain ⟨s, i, rest, hr, _, rfl, hp⟩ := h
  obtain ⟨_, hs⟩ := (single_preserved hb).reaches Single.start hr
  obtain ⟨hrec, _, hroot⟩ := hs.resolve_right fun h => hp.ne_nil h.2
  have hmem := (hp.perm.map Prod.fst).mem_iff.mpr List.mem_cons_self
  rw [hroot] at hmem
  exact ⟨List.mem_singleton.mp hmem, hrec⟩

/-- A search that gets a node back from its own call of `branch` does not end. -/
theorem Takes.not_terminates {n : N} {r : ValueType} {start : BnbState N} (h : Takes S c start n r)
    (hb : ∀ sol, S.branch n r sol = { record := r, sol, nodes := [n], released := [] }) :
    ¬ Terminates (Step S c) start := by
  obtain ⟨s, i, rest, hr, hi, hrec, hp⟩ := h
  intro hend
  have hend := hend.tail hr
  generalize hst : BnbState.search s = st at hend
  induction hend generalizing s i with
  | intro st _ ih =>
    subst hst
    have hbody := Step.body (S := S) hi hp
    have hs : s.body S n i rest = { s with
        nodes := (n, s.created) :: rest
        created := s.created + 1
        released := i :: s.released } := by
      simp [body, hrec, hb, Container.pushAll]
    refine ih _ hbody (s.body S n i rest) s.created (hr.tail hbody) (by rw [hs, hi]) (by rw [hs, hrec])
      ?_ rfl
    rw [hs]
    cases c with
    | lifo => rfl
    | priority => exact ⟨.refl _, hp.2⟩

end Search

end Optimer
