import Optimer.Bnb.Guarded

/-! Searches that give up solutions by less than a tolerance: what an uninterrupted run returns when it
ends. -/

namespace Optimer
open Transition

variable {N X : Type*} {S : Solver N} {cost : X → ValueType} {sols : Set X} {holds : N → X → Prop}
  {P : N → Prop} {eps r v : ValueType} {c : Container} {n : N} {opened rest : List N} {sol : Solution}

/-- What one call of `branch` does: a record is no better than some solution, and a solution of the node
that is better than the record by more than `eps` is one of a returned node. -/
structure Solver.Keeps (S : Solver N) (cost : X → ValueType) (sols : Set X) (holds : N → X → Prop)
    (P : N → Prop) (eps : ValueType) (n : N) (r : ValueType) (sol : Solution) : Prop where
  le : (S.branch n r sol).record ≤ r
  record : (S.branch n r sol).record = r ∨ ∃ x ∈ sols, cost x ≤ (S.branch n r sol).record
  cover : ∀ x ∈ sols, holds n x → cost x + eps < (S.branch n r sol).record →
    ∃ m ∈ (S.branch n r sol).nodes, holds m x
  nodes : ∀ m ∈ (S.branch n r sol).nodes, P m

/-- The open nodes and the record during such a search. -/
structure Near (cost : X → ValueType) (sols : Set X) (holds : N → X → Prop) (P : N → Prop)
    (eps : ValueType) (opened : List N) (record : ValueType) : Prop where
  attained : ∃ x ∈ sols, cost x ≤ record
  covered : ∀ x ∈ sols, cost x + eps < record → ∃ n ∈ opened, holds n x
  nodes : ∀ n ∈ opened, P n

namespace Near

theorem perm (F : Near cost sols holds P eps opened r) (h : opened.Perm rest) :
    Near cost sols holds P eps rest r where
  attained := F.attained
  covered x hx hlt := (F.covered x hx hlt).imp fun _ hn => ⟨h.mem_iff.mp hn.1, hn.2⟩
  nodes n hn := F.nodes n (h.mem_iff.mpr hn)

theorem branch (F : Near cost sols holds P eps (n :: rest) r)
    (hk : S.Keeps cost sols holds P eps n r sol) :
    Near cost sols holds P eps ((S.branch n r sol).nodes ++ rest) (S.branch n r sol).record where
  attained := hk.record.elim (fun heq => by rw [heq]; exact F.attained) id
  covered x hx hlt := by
    obtain ⟨m, hm, hxm⟩ := F.covered x hx (hlt.trans_le hk.le)
    rcases List.mem_cons.mp hm with rfl | hm
    · obtain ⟨m, hm, hxm⟩ := hk.cover x hx hxm hlt
      exact ⟨m, List.mem_append_left _ hm, hxm⟩
    · exact ⟨m, List.mem_append_right _ hm, hxm⟩
  nodes m hm := (List.mem_append.mp hm).elim (hk.nodes m) fun hm => F.nodes m (List.mem_cons_of_mem _ hm)

end Near

namespace Search

/-- What holds at the points of a run. -/
def NearInv (cost : X → ValueType) (sols : Set X) (holds : N → X → Prop) (P : N → Prop)
    (eps : ValueType) : BnbState N → Prop
  | .search s => s.interrupted = false ∧ Near cost sols holds P eps (s.nodes.map Prod.fst) s.record
  | .clean s => s.nodes = [] ∧ Near cost sols holds P eps [] s.record
  | .returned sol _ => Near cost sols holds P eps [] sol.value

/-- A run whose calls of `branch` all keep the solutions returns a value between the least cost and the
tolerance above it. -/
theorem near_correct {start : BnbState N} (hstart : NearInv cost sols holds P eps start)
    (hkeeps : ∀ n r, Takes S c start n r → P n → ∀ sol, S.Keeps cost sols holds P eps n r sol)
    {sol : Solution} {s : Search N} (hr : Reaches (Step S c) start (.returned sol s)) :
    (∃ x ∈ sols, cost x ≤ sol.value) ∧ ∀ x ∈ sols, sol.value ≤ cost x + eps := by
  have hinv : ∀ {st}, Reaches (Step S c) start st → NearInv cost sols holds P eps st := by
    intro st hst
    induction hst with
    | refl => exact hstart
    | tail hr hstep ih =>
      cases hstep with
      | @body s n i rest hi hp =>
        obtain ⟨_, F⟩ := ih
        have F := F.perm (hp.perm.map Prod.fst)
        have hk := hkeeps n s.record ⟨s, i, rest, hr, hi, rfl, hp⟩ (F.nodes n List.mem_cons_self) s.sol
        exact ⟨hi, (F.branch hk).perm (pushAll_nodes S s n i rest).symm⟩
      | leave h =>
        obtain ⟨hi, F⟩ := ih
        have hnil := h.resolve_right (by simp [hi])
        rw [hnil] at F
        exact ⟨hnil, F⟩
      | drop hp => exact absurd ih.1 hp.ne_nil
      | ret _ => exact ih.2
  have F : Near cost sols holds P eps [] sol.value := hinv hr
  refine ⟨F.attained, fun x hx => ?_⟩
  by_contra hlt
  obtain ⟨n, hn, _⟩ := F.covered x hx (not_le.mp hlt)
  exact absurd hn List.not_mem_nil

end Search

end Optimer
