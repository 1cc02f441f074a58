import Mathlib

/-!
# Dependency Graphs

A graph is given by the dependencies of each node. A **chain** starts at a node and follows
dependencies; the **level** of a node is the length of its longest chain. A node whose
dependencies all have levels below `k`, one of them `k - 1`, has level `k`, and a graph in which
every node has a level has no cycle.

## Main results

* `Level.succ`: the level of a node from the levels of its dependencies.
* `acyclic_of_level`: levels exclude cycles.
* `IsCycle.not_acyclic`: a closed walk is a cycle.
-/

namespace AuxStorage.Dependency

variable {V : Type*} {deps : V → List V}

/-- A chain of `k` dependencies starts at the node. -/
inductive Chain (deps : V → List V) : V → ℕ → Prop
  | nil (v : V) : Chain deps v 0
  | cons {v d : V} {k : ℕ} (hdep : d ∈ deps v) (hchain : Chain deps d k) : Chain deps v (k + 1)

/-- The longest chain from the node has `k` dependencies. -/
def Level (deps : V → List V) (v : V) (k : ℕ) : Prop :=
  Chain deps v k ∧ ∀ m, Chain deps v m → m ≤ k

/-- No node depends on itself, directly or through others. -/
def Acyclic (deps : V → List V) : Prop :=
  ∀ v, ¬ Relation.TransGen (fun a b => b ∈ deps a) v v

/-- A walk along dependencies that ends where it started. -/
def IsCycle (deps : V → List V) (walk : List V) : Prop :=
  ∃ v middle, walk = v :: middle ++ [v] ∧ walk.IsChain fun a b => b ∈ deps a

theorem Level.zero {v : V} (h : ∀ d ∈ deps v, False) : Level deps v 0 := by
  refine ⟨.nil v, fun m hchain => ?_⟩
  cases hchain with
  | nil => exact le_rfl
  | cons hdep _ => exact (h _ hdep).elim

theorem Level.succ {v d : V} {k : ℕ} (hdep : d ∈ deps v) (hlevel : Level deps d k)
    (hall : ∀ d' ∈ deps v, ∃ i ≤ k, Level deps d' i) : Level deps v (k + 1) := by
  refine ⟨.cons hdep hlevel.1, fun m hchain => ?_⟩
  cases hchain with
  | nil => exact Nat.zero_le _
  | cons hdep' hchain =>
    obtain ⟨i, hi, hlevel'⟩ := hall _ hdep'
    exact Nat.succ_le_succ ((hlevel'.2 _ hchain).trans hi)

theorem Level.lt {v d : V} {i j : ℕ} (hv : Level deps v i) (hdep : d ∈ deps v)
    (hd : Level deps d j) : j < i :=
  hv.2 (j + 1) (.cons hdep hd.1)

/-- Levels decrease along paths. -/
theorem Level.lt_of_transGen {v u : V} {i j : ℕ} (h : ∀ v, ∃ k, Level deps v k)
    (hv : Level deps v i) (hpath : Relation.TransGen (fun a b => b ∈ deps a) v u)
    (hu : Level deps u j) : j < i := by
  induction hpath generalizing j with
  | single hdep => exact hv.lt hdep hu
  | @tail b c hpath hdep ih =>
    obtain ⟨k, hb⟩ := h b
    exact (hb.lt hdep hu).trans (ih hb)

/-- A graph in which every node has a level has no cycle. -/
theorem acyclic_of_level (h : ∀ v, ∃ k, Level deps v k) : Acyclic deps := by
  intro v hcycle
  obtain ⟨k, hk⟩ := h v
  exact lt_irrefl k (hk.lt_of_transGen h hcycle hk)

theorem transGen_of_isChain {a b : V} {middle : List V}
    (h : (a :: middle ++ [b]).IsChain fun a b => b ∈ deps a) :
    Relation.TransGen (fun a b => b ∈ deps a) a b := by
  induction middle generalizing a with
  | nil => exact .single (by simpa using h)
  | cons c rest ih =>
    rw [List.cons_append, List.cons_append, List.isChain_cons_cons] at h
    exact .head h.1 (ih (by simpa using h.2))

theorem IsCycle.not_acyclic {walk : List V} (h : IsCycle deps walk) : ¬ Acyclic deps := by
  obtain ⟨v, middle, rfl, hchain⟩ := h
  exact fun hacyclic => hacyclic v (transGen_of_isChain hchain)

end AuxStorage.Dependency
