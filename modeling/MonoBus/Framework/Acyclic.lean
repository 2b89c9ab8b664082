import Mathlib.Data.Fintype.Card
import Mathlib.Logic.Relation
import Mathlib.Tactic

/-!
# Walks that come to an end

A walk goes from node to node by a relation `r`.  If it reaches finitely many nodes from its
root, and none of them from itself, it comes to an end on every way (`acc_of_acyclic`), and a
recursion along it needs a finite fuel (`enough_of_acyclic`).  There is no cycle where each step
lowers a measure (`acyclic_of_measure`), nor where the root has a cost and each node leads to
nodes of lower cost (`acyclic_of_cost`).
-/

namespace MonoBus

variable {α : Type*} {r : α → α → Prop} {root : α}

/-- No node that is reached from the root is reached from itself by steps. -/
def Acyclic (r : α → α → Prop) (root : α) : Prop :=
  ∀ c, Relation.ReflTransGen r root c → ¬ Relation.TransGen r c c

/-- On a finite graph the absence of cycles makes every walk end. -/
theorem acc_of_acyclic (hfinite : {c | Relation.ReflTransGen r root c}.Finite)
    (h : Acyclic r root) : Acc (fun a b => r b a) root := by
  set reached := {c | Relation.ReflTransGen r root c} with hreached
  have : Finite reached := hfinite
  -- the transitive closure on the nodes that are reached, against the direction of the steps
  let later : reached → reached → Prop := fun a b => Relation.TransGen r b.1 a.1
  have : IsTrans reached later := ⟨fun _ _ _ hab hbc => hbc.trans hab⟩
  have : Std.Irrefl later := ⟨fun a => h a.1 a.2⟩
  have hacc (c : reached) : Acc (fun a b => r b a) c.1 := by
    induction c using (Finite.wellFounded_of_trans_of_irrefl later).induction with
    | _ c ih =>
        refine ⟨c.1, fun d hd => ?_⟩
        exact ih ⟨d, c.2.tail hd⟩ (Relation.TransGen.single hd)
  exact hacc ⟨root, Relation.ReflTransGen.refl⟩

/-- A recursion along a walk without cycles has enough fuel.  Here `E n c` says that `n` units are
enough at `c`, and a node has enough as soon as all its successors have. -/
theorem enough_of_acyclic {E : ℕ → α → Prop}
    (hfinite : {c | Relation.ReflTransGen r root c}.Finite) (h : Acyclic r root)
    (hstep : ∀ c n, (∀ d, r c d → ∀ m ≥ n, E m d) → ∃ n', ∀ m ≥ n', E m c) :
    ∃ n, ∀ m ≥ n, E m root := by
  have hall (c : α) (hacc : Acc (fun a b => r b a) c) :
      Relation.ReflTransGen r root c → ∃ n, ∀ m ≥ n, E m c := by
    induction hacc with
    | intro c _ ih =>
        intro hc
        have hnext : ∀ d, ∃ n, r c d → ∀ m ≥ n, E m d := by
          intro d
          by_cases hd : r c d
          · obtain ⟨n, hn⟩ := ih d hd (hc.tail hd)
            exact ⟨n, fun _ => hn⟩
          · exact ⟨0, fun hd' => absurd hd' hd⟩
        choose n hn using hnext
        have hbounded : BddAbove (n '' {d | r c d}) :=
          ((hfinite.subset fun d hd => hc.tail hd).image n).bddAbove
        obtain ⟨bound, hbound⟩ := hbounded
        refine hstep c bound fun d hd m hm => hn d hd m ?_
        exact (hbound (Set.mem_image_of_mem n hd)).trans hm
  exact hall root (acc_of_acyclic hfinite h) Relation.ReflTransGen.refl

/-- A measure that each step from an admissible node lowers rules out cycles. -/
theorem acyclic_of_measure {P : α → Prop} (μ : α → ℕ) (hroot : P root)
    (hstep : ∀ c d, Relation.ReflTransGen r root c → P c → r c d → P d ∧ μ d < μ c) :
    Acyclic r root := by
  have hP : ∀ c, Relation.ReflTransGen r root c → P c := by
    intro c hc
    induction hc with
    | refl => exact hroot
    | tail hc hcd ih => exact (hstep _ _ hc ih hcd).1
  have hlower : ∀ {c d}, Relation.ReflTransGen r root c → Relation.TransGen r c d →
      μ d < μ c := by
    intro c d hc hcd
    induction hcd with
    | single hcd => exact (hstep _ _ hc (hP c hc) hcd).2
    | tail hcd hde ih =>
        have hd := hc.trans hcd.to_reflTransGen
        exact (hstep _ _ hd (hP _ hd) hde).2.trans ih
  exact fun c hc hcc => lt_irrefl _ (hlower hc hcc)

/-- If a node of cost `n` leads to nodes of lower cost only, and the root has a cost, no cycle
is reached. -/
theorem acyclic_of_cost {Q : ℕ → α → Prop} {n : ℕ} (hroot : Q n root)
    (hstep : ∀ n c d, Q n c → r c d → ∃ m < n, Q m d) : Acyclic r root := by
  have hreach : ∀ c, Relation.ReflTransGen r root c → ∃ m, Q m c := by
    intro c hc
    induction hc with
    | refl => exact ⟨n, hroot⟩
    | tail _ hcd ih =>
        obtain ⟨m, hm⟩ := ih
        obtain ⟨m', -, hm'⟩ := hstep m _ _ hm hcd
        exact ⟨m', hm'⟩
  have hlower : ∀ {m c d}, Q m c → Relation.TransGen r c d → ∃ m' < m, Q m' d := by
    intro m c d hm hcd
    induction hcd with
    | single hcd => exact hstep m c _ hm hcd
    | tail _ hde ih =>
        obtain ⟨m', hlt, hm'⟩ := ih
        obtain ⟨m'', hlt', hm''⟩ := hstep m' _ _ hm' hde
        exact ⟨m'', hlt'.trans hlt, hm''⟩
  -- going round a cycle would lower the cost forever
  have hnone : ∀ m c, Relation.TransGen r c c → ¬ Q m c := by
    intro m
    induction m using Nat.strong_induction_on with
    | _ m ih =>
        intro c hcc hm
        obtain ⟨m', hlt, hm'⟩ := hlower hm hcc
        exact ih m' hlt c hcc hm'
  intro c hc hcc
  obtain ⟨m, hm⟩ := hreach c hc
  exact hnone m c hcc hm

end MonoBus
