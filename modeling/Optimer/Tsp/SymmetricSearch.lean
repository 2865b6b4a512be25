import Optimer.Tsp.SymmetricBranch

/-! What the loop of `branch` over the new nodes does, for either symmetric solver. -/

namespace Optimer.Stsp
open Optimer.Tsp

variable {transform : Node → ValueType → Option Node} {eps : ValueType} {b b' b'' : Branched Node}
  {new m : Node} {news : List Node}

/-- The calls of `transform_node` in the loop over the new nodes, each with the record at that time. -/
inductive Calls (transform : Node → ValueType → Option Node) (eps : ValueType) :
    Branched Node → List Node → Node → ValueType → Prop
  | head {b : Branched Node} {new : Node} {news : List Node} :
      Calls transform eps b (new :: news) new b.record
  | tail {b b' : Branched Node} {new m : Node} {news : List Node} {r : ValueType} :
      branchChild transform eps b new = some b' → Calls transform eps b' news m r →
        Calls transform eps b (new :: news) m r

/-- What working through new nodes does: a record comes from a relaxation that is a tour, and a new node
that is not returned is at the record. -/
structure Processed (transform : Node → ValueType → Option Node) (eps : ValueType) (news : List Node)
    (b b' : Branched Node) : Prop where
  le : b'.record ≤ b.record
  record : b'.record = b.record ∨ ∃ new ∈ news, ∃ r ≤ b.record, Calls transform eps b news new r ∧
    ∃ m, transform new r = some m ∧ m.data.value + eps < r ∧ m.data.value = b'.record ∧
      ∃ route, buildTour m.data.relaxation = some route ∧ route ≠ []
  nodes : ∀ m ∈ b'.nodes, m ∈ b.nodes ∨ ∃ new ∈ news, ∃ r ≤ b.record, Calls transform eps b news new r ∧
    transform new r = some m ∧ m.data.value + eps < r ∧ buildTour m.data.relaxation = some []
  kept : ∀ m ∈ b.nodes, m ∈ b'.nodes
  covered : ∀ new ∈ news, ∃ r ≤ b.record, b'.record ≤ r ∧ Calls transform eps b news new r ∧
    ∃ m, transform new r = some m ∧ (m ∈ b'.nodes ∨ b'.record ≤ m.data.value + eps)

theorem Processed.nil : Processed transform eps [] b b :=
  ⟨le_rfl, .inl rfl, fun _ hm => .inl hm, fun _ hm => hm, fun _ h => absurd h List.not_mem_nil⟩

theorem Calls.cons {r : ValueType} (h : Calls transform eps b [new] m r) :
    Calls transform eps b (new :: news) m r := by
  cases h with
  | head => exact .head
  | tail _ h => exact nomatch h

theorem Processed.cons (hrun : branchChild transform eps b new = some b')
    (h : Processed transform eps [new] b b') (h' : Processed transform eps news b' b'') :
    Processed transform eps (new :: news) b b'' where
  le := h'.le.trans h.le
  record := by
    rcases h'.record with heq | ⟨n, hn, r, hr, hcall, rest⟩
    · rw [heq]
      refine h.record.imp_right fun ⟨n, hn, r, hr, hcall, rest⟩ => ⟨n, ?_, r, hr, hcall.cons, rest⟩
      exact List.mem_singleton.mp hn ▸ List.mem_cons_self
    · exact .inr ⟨n, List.mem_cons_of_mem _ hn, r, hr.trans h.le, .tail hrun hcall, rest⟩
  nodes m hm := by
    rcases h'.nodes m hm with hm | ⟨n, hn, r, hr, hcall, rest⟩
    · refine (h.nodes m hm).imp_right fun ⟨n, hn, r, hr, hcall, rest⟩ =>
        ⟨n, ?_, r, hr, hcall.cons, rest⟩
      exact List.mem_singleton.mp hn ▸ List.mem_cons_self
    · exact .inr ⟨n, List.mem_cons_of_mem _ hn, r, hr.trans h.le, .tail hrun hcall, rest⟩
  kept m hm := h'.kept m (h.kept m hm)
  covered n hn := by
    rcases List.mem_cons.mp hn with rfl | hn
    · obtain ⟨r, hr, hle, hcall, m, hm, hopen⟩ := h.covered n (List.mem_singleton_self n)
      exact ⟨r, hr, h'.le.trans hle, hcall.cons, m, hm, hopen.imp (h'.kept m) h'.le.trans⟩
    · obtain ⟨r, hr, hle, hcall, rest⟩ := h'.covered n hn
      exact ⟨r, hr.trans h.le, hle, .tail hrun hcall, rest⟩

/-- What one round of the loop does: the child is at the record, is no tour, or is one. -/
theorem branchChild_cases (h : branchChild transform eps b new = some b') :
    ∃ m, transform new b.record = some m ∧
      (b.record ≤ m.data.value + eps ∧ b' = { b with released := b.released ++ [m] } ∨
        m.data.value + eps < b.record ∧ ∃ route, buildTour m.data.relaxation = some route ∧
          (route = [] ∧ b' = { b with sol := { b.sol with route }, nodes := b.nodes ++ [m] } ∨
            route ≠ [] ∧ b' = { b with
              record := m.data.value
              sol := { value := m.data.value, route }
              released := b.released ++ [m] })) := by
  obtain ⟨m, hm, h⟩ := Option.bind_eq_some_iff.mp h
  refine ⟨m, hm, ?_⟩
  split at h
  · next hle => exact .inl ⟨hle, (Option.some.inj h).symm⟩
  next hlt =>
  obtain ⟨route, hroute, h⟩ := Option.bind_eq_some_iff.mp h
  refine .inr ⟨not_le.mp hlt, route, hroute, ?_⟩
  split at h
  · next hnil => exact .inl ⟨hnil, (Option.some.inj h).symm⟩
  · next hne => exact .inr ⟨hne, (Option.some.inj h).symm⟩

/-- One new node. -/
theorem branchChild_processed (heps : 0 ≤ eps) (h : branchChild transform eps b new = some b') :
    Processed transform eps [new] b b' := by
  obtain ⟨m, hm, ⟨hle, rfl⟩ | ⟨hlt, route, hroute, ⟨rfl, rfl⟩ | ⟨hne, rfl⟩⟩⟩ := branchChild_cases h
  · exact ⟨le_rfl, .inl rfl, fun _ hm => .inl hm, fun _ hm => hm,
      List.forall_mem_singleton.mpr ⟨b.record, le_rfl, le_rfl, .head, m, hm, .inr hle⟩⟩
  · refine ⟨le_rfl, .inl rfl, fun x hx => (List.mem_append.mp hx).imp_right fun hx => ?_,
      fun _ hx => List.mem_append_left _ hx, List.forall_mem_singleton.mpr
      ⟨b.record, le_rfl, le_rfl, .head, m, hm,
        .inl (List.mem_append_right _ (List.mem_singleton_self m))⟩⟩
    obtain rfl := List.mem_singleton.mp hx
    exact ⟨new, List.mem_singleton_self new, b.record, le_rfl, .head, hm, hlt, hroute⟩
  · have hval : m.data.value ≤ b.record := (le_add_of_nonneg_right heps).trans hlt.le
    refine ⟨hval, .inr ⟨new, List.mem_singleton_self new, b.record, le_rfl, .head, m, hm, hlt, rfl,
      route, hroute, hne⟩, fun _ hx => .inl hx, fun _ hx => hx, List.forall_mem_singleton.mpr
      ⟨b.record, le_rfl, hval, .head, m, hm, .inr (le_add_of_nonneg_right heps)⟩⟩

/-- A new node that can be transformed and whose relaxation is in range does not stop the loop. -/
theorem branchChild_total (htransform : transform new b.record = some m)
    (hn : 0 < m.data.relaxation.length) (hin : Within m.data.relaxation.length m.data.relaxation) :
    ∃ b', branchChild transform eps b new = some b' := by
  obtain ⟨route, hroute⟩ := exists_buildTour hn hin
  unfold branchChild
  simp only [htransform, hroute, Option.bind_eq_bind, Option.bind_some]
  split
  · exact ⟨_, rfl⟩
  · split
    exacts [⟨_, rfl⟩, ⟨_, rfl⟩]

/-- All new nodes. -/
theorem branchChildren_processed (heps : 0 ≤ eps)
    (h : news.foldlM (branchChild transform eps) b = some b') : Processed transform eps news b b' := by
  induction news generalizing b with
  | nil => exact Option.some.inj h ▸ .nil
  | cons new news ih =>
    rw [List.foldlM_cons] at h
    obtain ⟨b₁, h₁, h⟩ := Option.bind_eq_some_iff.mp h
    exact .cons h₁ (branchChild_processed heps h₁) (ih h)

/-- The loop does not stop if it can transform all new nodes. -/
theorem branchChildren_total (h : ∀ new ∈ news, ∀ r, ∃ m, transform new r = some m ∧
    0 < m.data.relaxation.length ∧ Within m.data.relaxation.length m.data.relaxation) :
    ∃ b', news.foldlM (branchChild transform eps) b = some b' := by
  induction news generalizing b with
  | nil => exact ⟨b, rfl⟩
  | cons new news ih =>
    obtain ⟨m, hm, hlen, hin⟩ := h new List.mem_cons_self b.record
    obtain ⟨b₁, h₁⟩ := branchChild_total hm hlen hin
    obtain ⟨b', h'⟩ := ih fun new hnew => h new (List.mem_cons_of_mem _ hnew)
    exact ⟨b', by rw [List.foldlM_cons, h₁]; exact h'⟩

end Optimer.Stsp
