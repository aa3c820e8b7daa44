import Mathlib.Algebra.BigOperators.Fin
import Mathlib.Data.Finite.Sigma
import Mathlib.Data.Finite.Sum
import Mathlib.Logic.Relation
import Mathlib.Order.WellFounded
import Mathlib.SetTheory.Cardinal.NatCard

/-!
# Depth first over an acyclic graph

A graph is given by the list of successors of each node, so that an edge may be there more than
once. `Dag.postorder` is the order in which a recursion that keeps no record of where it has been
visits the nodes: the successors one after the other, and then the node itself.

A node is visited once for each walk to it (`count_postorder`): never missed where it can be
reached, and twice where it can be reached in two ways. All that can be reached from a node has
been visited before it, at each of its visits (`preceded_postorder`).
-/

/-- A graph without infinite walks. -/
structure Dag (α : Type*) where
  succ : α → List α
  acyclic : WellFounded fun b a => b ∈ succ a

namespace Dag

variable {α β : Type*}

/-- One edge. -/
def Edge (succ : α → List α) (a b : α) : Prop := b ∈ succ a

/-- A rank that each edge lowers rules out cycles. -/
theorem acyclic_of_rank {succ : α → List α} (rank : α → Nat)
    (lower : ∀ a, ∀ b ∈ succ a, rank b < rank a) (a : α) :
    ¬ Relation.TransGen (Edge succ) a a := by
  have hrank : ∀ b, Relation.TransGen (Edge succ) a b → rank b < rank a := by
    intro b h
    induction h with
    | single he => exact lower _ _ he
    | tail _ he ih => exact Nat.lt_trans (lower _ _ he) ih
  exact fun h => Nat.lt_irrefl _ (hrank a h)

/-- Among finitely many nodes, no infinite walk means no cycle. -/
def ofFinite [Finite α] (succ : α → List α)
    (acyclic : ∀ a, ¬ Relation.TransGen (Edge succ) a a) : Dag α where
  succ := succ
  acyclic := by
    have hback : ∀ a, ¬ Relation.TransGen (Function.swap (Edge succ)) a a :=
      fun a h => acyclic a (Relation.transGen_swap.mp h)
    have hirrefl : Std.Irrefl (Relation.TransGen (Function.swap (Edge succ))) := ⟨hback⟩
    have hwf := Finite.wellFounded_of_trans_of_irrefl
      (Relation.TransGen (Function.swap (Edge succ)))
    exact Subrelation.wf (fun {_ _} h => Relation.TransGen.single h) hwf

variable (d : Dag α)

theorem induction {P : α → Prop} (step : ∀ a, (∀ b ∈ d.succ a, P b) → P a) (a : α) : P a :=
  d.acyclic.induction a step

theorem not_transGen_self (a : α) : ¬ Relation.TransGen (Edge d.succ) a a := by
  induction a using d.induction with
  | step a ih =>
    intro h
    obtain ⟨b, hb, hrest⟩ := Relation.TransGen.head'_iff.mp h
    exact ih b hb (Relation.TransGen.tail' hrest hb)

/-- The nodes in the order of their visits. -/
def postorder (d : Dag α) (a : α) : List α :=
  (d.succ a).flatMap (fun b => d.postorder b) ++ [a]
termination_by d.acyclic.wrap a
decreasing_by assumption

theorem postorder_eq (a : α) : d.postorder a = (d.succ a).flatMap d.postorder ++ [a] := by
  rw [postorder]

/-- A recursion that turns to the successors first goes through the nodes in this order. -/
theorem foldl_postorder {σ : Type*} {run visit : α → σ → σ}
    (h : ∀ a s, run a s = visit a ((d.succ a).foldl (fun s b => run b s) s)) (a : α) (s : σ) :
    run a s = (d.postorder a).foldl (fun s b => visit b s) s := by
  induction a using d.induction generalizing s with
  | step a ih =>
    rw [h, postorder_eq, List.foldl_append, List.foldl_flatMap]
    exact congrArg (visit a) (List.foldl_ext _ _ s fun s b hb => ih b hb s)

/-- What is visited is what can be reached. -/
theorem mem_postorder {a b : α} :
    b ∈ d.postorder a ↔ Relation.ReflTransGen (Edge d.succ) a b := by
  induction a using d.induction with
  | step a ih =>
    rw [postorder_eq, List.mem_append, List.mem_flatMap, List.mem_singleton,
      Relation.ReflTransGen.cases_head_iff]
    constructor
    · rintro (⟨c, hc, hb⟩ | rfl)
      · exact .inr ⟨c, hc, (ih c hc).mp hb⟩
      · exact .inl rfl
    · rintro (rfl | ⟨c, hc, hb⟩)
      · exact .inr rfl
      · exact .inl ⟨c, hc, (ih c hc).mpr hb⟩

/-! ## Walks -/

/-- A walk to `b`, edge by edge; parallel edges are told apart. -/
inductive Walk (succ : α → List α) (b : α) : α → Type _
  | nil : Walk succ b b
  | cons {a : α} (k : Fin (succ a).length) (rest : Walk succ b (succ a)[k]) : Walk succ b a

/-- A walk is empty, or an edge and the rest. -/
def Walk.equiv (succ : α → List α) (b a : α) :
    Walk succ b a ≃ PLift (a = b) ⊕ Σ k : Fin (succ a).length, Walk succ b (succ a)[k] where
  toFun
    | .nil => .inl ⟨rfl⟩
    | .cons k rest => .inr ⟨k, rest⟩
  invFun
    | .inl ⟨h⟩ => h ▸ .nil
    | .inr ⟨k, rest⟩ => .cons k rest
  left_inv
    | .nil => rfl
    | .cons _ _ => rfl
  right_inv
    | .inl ⟨h⟩ => by subst h; rfl
    | .inr _ => rfl

theorem finite_walk (a b : α) : Finite (Walk d.succ b a) := by
  induction a using d.induction with
  | step a ih =>
    have hrest : ∀ k : Fin (d.succ a).length, Finite (Walk d.succ b (d.succ a)[k]) :=
      fun k => ih _ (List.getElem_mem k.isLt)
    exact Finite.of_equiv _ (Walk.equiv d.succ b a).symm

/-- A node is visited once for each walk to it. -/
theorem count_postorder [DecidableEq α] (a b : α) :
    (d.postorder a).count b = Nat.card (Walk d.succ b a) := by
  induction a using d.induction with
  | step a ih =>
    have hfinite : ∀ k : Fin (d.succ a).length, Finite (Walk d.succ b (d.succ a)[k]) :=
      fun k => d.finite_walk _ b
    have hsame : Nat.card (PLift (a = b)) = [a].count b := by
      by_cases h : a = b
      · subst h
        rw [List.count_singleton_self]
        exact Nat.card_eq_one_iff_unique.mpr ⟨inferInstance, ⟨⟨rfl⟩⟩⟩
      · have hempty : IsEmpty (PLift (a = b)) := ⟨fun h' => h h'.down⟩
        rw [List.count_singleton, if_neg (by simpa using h)]
        exact Nat.card_of_isEmpty
    have hsum : ∑ k : Fin (d.succ a).length, Nat.card (Walk d.succ b (d.succ a)[k]) =
        ((d.succ a).map fun c => Nat.card (Walk d.succ b c)).sum :=
      Fin.sum_univ_fun_getElem (d.succ a) fun c => Nat.card (Walk d.succ b c)
    rw [Nat.card_congr (Walk.equiv d.succ b a), Nat.card_sum, Nat.card_sigma, hsum, hsame,
      postorder_eq, List.count_append, List.count_flatMap, Nat.add_comm]
    congr 2
    exact List.map_congr_left ih

/-- An element that stands for one node only is there once for each walk to that node. -/
theorem count_flatMap_postorder [BEq β] [LawfulBEq β] (a b : α) {f : α → List β} {x : β}
    (owner : ∀ c, x ∈ f c → c = b) :
    ((d.postorder a).flatMap f).count x = Nat.card (Walk d.succ b a) * (f b).count x := by
  classical
  have hown : ∀ c, (f c).count x = if c = b then (f b).count x else 0 := by
    intro c
    split
    · next heq => rw [heq]
    · next hne => exact List.count_eq_zero.mpr fun h => hne (owner c h)
  rw [← d.count_postorder, List.count_flatMap]
  induction d.postorder a with
  | nil => rw [List.map_nil, List.sum_nil, List.count_nil, Nat.zero_mul]
  | cons c cs ih =>
    rw [List.map_cons, List.sum_cons, ih, Function.comp, hown, List.count_cons, Nat.add_mul,
      Nat.add_comm]
    simp only [beq_iff_eq, ite_mul, Nat.one_mul, Nat.zero_mul]

theorem nonempty_walk_iff {a b : α} :
    Nonempty (Walk d.succ b a) ↔ Relation.ReflTransGen (Edge d.succ) a b := by
  classical
  have hfinite := d.finite_walk a b
  rw [← Finite.card_pos_iff, ← d.count_postorder, List.count_pos_iff, mem_postorder]

/-- Where no node has two edges, walks do not part. -/
theorem subsingleton_walk (single : ∀ a, (d.succ a).length ≤ 1) (a b : α) :
    Subsingleton (Walk d.succ b a) := by
  have hcycle : ∀ k : Fin (d.succ b).length, ¬ Nonempty (Walk d.succ b (d.succ b)[k]) := by
    intro k hwalk
    have hedge : Edge d.succ b (d.succ b)[k] := List.getElem_mem k.isLt
    exact d.not_transGen_self b (.head' hedge (d.nonempty_walk_iff.mp hwalk))
  refine ⟨fun w w' => ?_⟩
  induction w with
  | nil =>
    cases w' with
    | nil => rfl
    | cons k rest => exact absurd ⟨rest⟩ (hcycle k)
  | @cons a k rest ih =>
    cases w' with
    | nil => exact absurd ⟨rest⟩ (hcycle k)
    | cons k' rest' =>
      obtain rfl : k = k' := by
        have hone := single a
        exact Fin.ext (by omega)
      exact congrArg (Walk.cons k) (ih rest')

/-! ## What comes before what -/

/-- Before an element stands all that `r` asks for. -/
def Preceded (r : α → α → Prop) (l : List α) : Prop :=
  ∀ before a after, l = before ++ a :: after → ∀ b, r a b → b ∈ before

variable {r : α → α → Prop} {l l' : List α}

theorem preceded_nil : Preceded r [] := by
  intro before a after h
  cases List.append_eq_nil_iff.mp h.symm with
  | intro _ hcons => cases hcons

theorem Preceded.append (h : Preceded r l) (h' : ∀ before a after, l' = before ++ a :: after →
    ∀ b, r a b → b ∈ l ++ before) : Preceded r (l ++ l') := by
  intro before a after heq b hb
  rcases List.append_eq_append_iff.mp heq with ⟨rest, rfl, hrest⟩ | ⟨rest, rfl, hrest⟩
  · exact h' rest a after hrest b hb
  · cases rest with
    | nil =>
      have hin := h' [] a after hrest.symm b hb
      rwa [List.append_nil, List.append_nil] at hin
    | cons c rest =>
      cases hrest
      exact h before a rest rfl b hb

theorem Preceded.of_append (h : Preceded r (l ++ l')) : Preceded r l := by
  rintro before a after rfl
  exact h before a (after ++ l') (by rw [List.append_assoc, List.cons_append])

theorem preceded_flatMap {f : β → List α} {bs : List β} (h : ∀ b ∈ bs, Preceded r (f b)) :
    Preceded r (bs.flatMap f) := by
  induction bs using List.reverseRecOn with
  | nil => exact preceded_nil
  | append_singleton bs b ih =>
    rw [List.flatMap_append, List.flatMap_singleton]
    refine (ih fun c hc => h c (List.mem_append_left _ hc)).append fun before a after heq c hc => ?_
    exact List.mem_append_right _ (h b (by simp) before a after heq c hc)

/-- The same for lists that stand for the elements. -/
theorem Preceded.flatMap (h : Preceded r l) {f : α → List β} {q : β → β → Prop}
    (hq : ∀ a, ∀ x ∈ f a, ∀ y, q x y → ∃ b, r a b ∧ y ∈ f b) : Preceded q (l.flatMap f) := by
  induction l using List.reverseRecOn with
  | nil => exact preceded_nil
  | append_singleton l a ih =>
    rw [List.flatMap_append, List.flatMap_singleton]
    refine (ih h.of_append).append fun before x after heq y hxy => ?_
    obtain ⟨b, hb, hy⟩ := hq a x (by rw [heq]; simp) y hxy
    exact List.mem_append_left _ (List.mem_flatMap.mpr ⟨b, h l a [] rfl b hb, hy⟩)

/-- Where nothing stands twice, nothing comes after what it has to precede. -/
theorem Preceded.pairwise (h : Preceded r l) (nodup : l.Nodup) :
    l.Pairwise fun a b => ¬ r a b := by
  induction l using List.reverseRecOn with
  | nil => exact .nil
  | append_singleton l b ih =>
    obtain ⟨hnodup, -, hfresh⟩ := List.nodup_append.mp nodup
    refine List.pairwise_append.mpr ⟨ih h.of_append hnodup, List.pairwise_singleton _ _, ?_⟩
    intro a ha c hc hr
    rw [List.mem_singleton.mp hc] at hr
    obtain ⟨before, after, rfl⟩ := List.append_of_mem ha
    have hb : b ∈ before := h.of_append before a after rfl b hr
    exact hfresh b (List.mem_append_left _ hb) b (List.mem_singleton_self b) rfl

/-- All that can be reached from a node is visited before it. -/
theorem preceded_postorder (a : α) :
    Preceded (Relation.TransGen (Edge d.succ)) (d.postorder a) := by
  induction a using d.induction with
  | step a ih =>
    rw [postorder_eq]
    refine (preceded_flatMap ih).append fun before c after heq b hb => ?_
    have hlast : c = a := List.mem_singleton.mp (by rw [heq]; simp)
    rw [hlast] at hb
    obtain ⟨e, he, hrest⟩ := Relation.TransGen.head'_iff.mp hb
    have hin : b ∈ (d.succ a).flatMap d.postorder :=
      List.mem_flatMap.mpr ⟨e, he, d.mem_postorder.mpr hrest⟩
    exact List.mem_append_left _ hin

end Dag
