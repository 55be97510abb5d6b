/-!
# Dependency order

Dependency order: every item after the items it depends on, each one once. An item whose dependencies lead back to
itself fails the order.
-/

namespace MaskLayout

variable {α κ : Type}

/-- Whether an item is one of the roots, or depended on by an item that they lead to. -/
inductive Needed (deps : α → List α) (roots : List α) : α → Prop
  | root {a : α} (h : a ∈ roots) : Needed deps roots a
  | dep {a b : α} (h : Needed deps roots a) (hb : b ∈ deps a) : Needed deps roots b

namespace Needed

variable {deps : α → List α}

theorem of_cons {a b : α} {roots : List α} (h : Needed deps (a :: roots) b) :
    Needed deps [a] b ∨ Needed deps roots b := by
  induction h with
  | root h =>
    rcases List.mem_cons.1 h with rfl | h
    · exact .inl (.root List.mem_cons_self)
    · exact .inr (.root h)
  | dep _ hb ih => exact ih.imp (·.dep hb) (·.dep hb)

theorem of_singleton {a b : α} (h : Needed deps [a] b) : b = a ∨ Needed deps (deps a) b := by
  induction h with
  | root h => exact .inl (List.mem_singleton.1 h)
  | dep _ hb ih =>
    rcases ih with rfl | ih
    · exact .inr (.root hb)
    · exact .inr (ih.dep hb)

theorem exists_items {roots : List α} (h : ∀ a ∈ roots, ∃ items : List α, ∀ b, Needed deps [a] b → b ∈ items) :
    ∃ items : List α, ∀ b, Needed deps roots b → b ∈ items := by
  induction roots with
  | nil =>
    refine ⟨[], fun b hb => ?_⟩
    induction hb with
    | root h => exact h
    | dep _ _ ih => cases ih
  | cons a roots ih =>
    obtain ⟨items, hitems⟩ := h a List.mem_cons_self
    obtain ⟨more, hmore⟩ := ih fun b hb => h b (List.mem_cons_of_mem a hb)
    exact ⟨items ++ more, fun b hb => List.mem_append.2 (hb.of_cons.imp (hitems b) (hmore b))⟩

/-- Items whose dependencies are smaller lead to finitely many items. -/
theorem finite_of_size (size : α → Nat) (h : ∀ a, ∀ b ∈ deps a, size b < size a) (roots : List α) :
    ∃ items : List α, ∀ b, Needed deps roots b → b ∈ items := by
  suffices hsingle : ∀ n, ∀ a, size a < n → ∃ items : List α, ∀ b, Needed deps [a] b → b ∈ items by
    exact exists_items fun a _ => hsingle _ a (Nat.lt_succ_self _)
  intro n
  induction n with
  | zero => exact fun a ha => absurd ha (Nat.not_lt_zero _)
  | succ n ih =>
    intro a ha
    obtain ⟨items, hitems⟩ := exists_items fun b hb => ih b (Nat.lt_of_lt_of_le (h a b hb) (Nat.le_of_lt_succ ha))
    refine ⟨a :: items, fun b hb => ?_⟩
    rcases hb.of_singleton with rfl | hb
    · exact List.mem_cons_self
    · exact List.mem_cons_of_mem a (hitems b hb)

end Needed

/-- Roots that lead to finitely many items. Items of one key are the same item. -/
structure DepGraph (α κ : Type) where
  key : α → κ
  deps : α → List α
  roots : List α
  finite : ∃ items : List α, ∀ a, Needed deps roots a → a ∈ items

/-- The items already in order, and those whose dependencies are being put in order. -/
structure OrderState (α : Type) where
  done : List α
  pending : List α

namespace DepGraph

variable [DecidableEq κ] (g : DepGraph α κ)

/-- An item that the roots lead to. -/
abbrev Item := {a : α // Needed g.deps g.roots a}

/-- The dependencies of an item. -/
def next (a : g.Item) : List g.Item := (g.deps a.1).pmap Subtype.mk fun _ hb => a.2.dep hb

/-- Whether an item is among some others. -/
def among (items : List α) (a : α) : Bool := items.any fun b => g.key b = g.key a

/-- How many items are not pending. -/
noncomputable def free (pending : List α) : Nat := g.finite.choose.countP fun a => !g.among pending a

theorem free_lt {pending : List α} (a : g.Item) (ha : ¬ g.among pending a.1) :
    g.free (a.1 :: pending) < g.free pending := by
  obtain ⟨before, after, hitems⟩ := List.append_of_mem (g.finite.choose_spec a.1 a.2)
  have hself : ¬ (!g.among (a.1 :: pending) a.1) = true := by simp [among]
  have hfree : (!g.among pending a.1) = true := by simpa using ha
  have hmono (l : List α) : l.countP (fun b => !g.among (a.1 :: pending) b) ≤ l.countP fun b => !g.among pending b := by
    refine List.countP_mono_left fun b _ hb => ?_
    simp only [among, List.any_cons, Bool.not_or, Bool.and_eq_true] at hb
    exact hb.2
  have hbefore := hmono before
  have hafter := hmono after
  rw [free, free, hitems, List.countP_append, List.countP_append, List.countP_cons_of_neg (p := fun b => !g.among (a.1 :: pending) b) hself,
    List.countP_cons_of_pos (p := fun b => !g.among pending b) hfree]
  omega

theorem filter_pending {pending : List α} {a : α} (ha : ¬ g.among pending a) :
    ((a :: pending).filter fun b => g.key b ≠ g.key a) = pending := by
  rw [List.filter_cons_of_neg (by simp), List.filter_eq_self]
  intro b hb
  simp only [decide_eq_true_eq]
  intro heq
  exact ha (List.any_eq_true.2 ⟨b, hb, by simpa using heq⟩)

/-- Put an item in order after its dependencies, or fail with the item if it is pending already. The item is pending
meanwhile, and no longer. -/
def visit (s : OrderState α) (a : g.Item) : Except α {s' : OrderState α // s'.pending = s.pending} :=
  if g.among s.done a.1 then .ok ⟨s, rfl⟩
  else if hfree : g.among s.pending a.1 then .error a.1
  else do
    let start : {t : OrderState α // t.pending = a.1 :: s.pending} := ⟨{ s with pending := a.1 :: s.pending }, rfl⟩
    let t ← (g.next a).foldlM (fun t b => do
      let u ← visit t.1 b
      return ⟨u.1, u.2.trans t.2⟩) start
    return ⟨⟨t.1.done ++ [a.1], t.1.pending.filter fun b => g.key b ≠ g.key a.1⟩, by rw [t.2, g.filter_pending hfree]⟩
termination_by g.free s.pending
decreasing_by
  -- Each visit within makes one more of the finitely many items pending.
  rw [t.2]
  exact g.free_lt a hfree

/-- Visit an item while some others are pending. -/
def visitWith (pending : List α) (t : {t : OrderState α // t.pending = pending}) (b : g.Item) :
    Except α {t : OrderState α // t.pending = pending} := do
  let u ← g.visit t.1 b
  return ⟨u.1, u.2.trans t.2⟩

/-- The items that the roots lead to, in dependency order, or an item on a cycle. -/
def order : Except α (List α) := do
  let s ← (g.roots.pmap Subtype.mk fun _ h => .root h : List g.Item).foldlM (g.visitWith []) ⟨⟨[], []⟩, rfl⟩
  return s.1.done

end DepGraph

namespace Order

theorem finite_graph (graph : List (List Nat)) (roots : List Nat) :
    ∃ items : List Nat, ∀ a, Needed (fun i => (graph[i]?).getD []) roots a → a ∈ items := by
  refine ⟨roots ++ graph.flatten, fun a ha => ?_⟩
  cases ha with
  | root h => exact List.mem_append_left _ h
  | @dep b _ _ hb =>
    cases hget : graph[b]? with
    | none => simp [hget] at hb
    | some ds =>
      rw [hget, Option.getD_some] at hb
      exact List.mem_append_right _ (List.mem_flatten.2 ⟨ds, List.mem_of_getElem? hget, hb⟩)

/-- The dependency order of a graph whose item `i` depends on the items of the `i`-th list, if there is one. -/
def ofGraph (graph : List (List Nat)) (roots : List Nat) : Except Nat (List Nat) :=
  (DepGraph.mk (fun i => i) _ roots (finite_graph graph roots)).order

end Order

end MaskLayout
