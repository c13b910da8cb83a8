import Mathlib.Data.List.Nodup
import Mathlib.Data.List.Perm.Basic
import Mathlib.Data.List.Perm.Lattice
import Mathlib.Logic.Relation

/-!
# Trees given by parents

A tree is a list of nodes, each with a parent nearer to the root.  The walk from the root, which
goes from each node to the nodes it is the parent of, comes to every node exactly once
(`walk_root_perm`).
-/

set_option autoImplicit false

namespace Vtfs.Library

/-- A root and the nodes below it, each with a parent of lower rank. -/
structure ParentTree (ν : Type) where
  root : ν
  below : List ν
  parent : ν → ν
  rank : ν → ℕ
  nodup : (root :: below).Nodup
  parent_mem : ∀ v ∈ below, parent v ∈ root :: below
  rank_parent : ∀ v ∈ below, rank (parent v) < rank v

namespace ParentTree

variable {ν : Type} [DecidableEq ν] (t : ParentTree ν)

/-- The nodes. -/
def nodes : List ν := t.root :: t.below

/-- The nodes with this parent. -/
def children (v : ν) : List ν := t.below.filter fun u => t.parent u = v

/-- The walk from a node, at most so many levels down. -/
def walk : ℕ → ν → List ν
  | 0, v => [v]
  | depth + 1, v => v :: (t.children v).flatMap (walk depth)

/-- One step up. -/
def Up (u v : ν) : Prop := u ∈ t.below ∧ t.parent u = v

variable {t}

omit [DecidableEq ν] in

/-- A node ranks at least as high as what is above it. -/
theorem rank_le_of_up {u v : ν} (h : Relation.ReflTransGen t.Up u v) : t.rank v ≤ t.rank u := by
  induction h with
  | refl => exact Nat.le_refl _
  | tail _ hstep ih =>
      obtain ⟨hbelow, rfl⟩ := hstep
      exact Nat.le_trans (Nat.le_of_lt (t.rank_parent _ hbelow)) ih

/-- The children of a node are those directly below it. -/
theorem mem_children_iff {u v : ν} : u ∈ t.children v ↔ t.Up u v := by
  simp [children, Up]

omit [DecidableEq ν] in
/-- Two nodes above a third are one above the other. -/
theorem up_total {u v w : ν} (hv : Relation.ReflTransGen t.Up u v)
    (hw : Relation.ReflTransGen t.Up u w) :
    Relation.ReflTransGen t.Up v w ∨ Relation.ReflTransGen t.Up w v :=
  Relation.ReflTransGen.total_of_right_unique
    (fun _ _ _ h h' => h.2.symm.trans h'.2) hv hw

omit [DecidableEq ν] in
/-- A node with the same parent as another is not above it, unless it is the same. -/
theorem eq_of_up_of_parent {v c c' : ν} (hc : t.Up c v) (hc' : t.Up c' v)
    (h : Relation.ReflTransGen t.Up c c') : c = c' := by
  rcases Relation.ReflTransGen.cases_head h with heq | ⟨w, hstep, hrest⟩
  · exact heq
  · -- one step up from `c` is `v`, which lies strictly above `c'`
    obtain rfl : v = w := hc.2.symm.trans hstep.2
    have hlow := rank_le_of_up hrest
    have hrank := t.rank_parent _ hc'.1
    rw [hc'.2] at hrank
    omega

/-- The walk comes to nodes below its start only, and to none twice. -/
theorem walk_nodup (depth : ℕ) (v : ν) :
    (t.walk depth v).Nodup ∧ ∀ u ∈ t.walk depth v, Relation.ReflTransGen t.Up u v := by
  induction depth generalizing v with
  | zero => simp [walk, Relation.ReflTransGen.refl]
  | succ depth ih =>
      have hup : ∀ c ∈ t.children v, ∀ u ∈ t.walk depth c, Relation.ReflTransGen t.Up u v :=
        fun c hc u hu => ((ih c).2 u hu).tail (mem_children_iff.mp hc)
      refine ⟨List.nodup_cons.mpr ⟨?_, ?_⟩, ?_⟩
      · intro hmem
        obtain ⟨c, hc, hmem⟩ := List.mem_flatMap.mp hmem
        obtain ⟨hbelow, hparent⟩ := mem_children_iff.mp hc
        have hlow := rank_le_of_up ((ih c).2 v hmem)
        have hrank := t.rank_parent c hbelow
        rw [hparent] at hrank
        omega
      · refine List.nodup_flatMap.mpr ⟨fun c _ => (ih c).1, ?_⟩
        have hdistinct : (t.children v).Nodup := (List.nodup_cons.mp t.nodup).2.filter _
        refine hdistinct.imp_of_mem fun {c c'} hc hc' hne u hu hu' => hne ?_
        rcases up_total ((ih c).2 u hu) ((ih c').2 u hu') with h | h
        · exact eq_of_up_of_parent (mem_children_iff.mp hc) (mem_children_iff.mp hc') h
        · exact (eq_of_up_of_parent (mem_children_iff.mp hc') (mem_children_iff.mp hc) h).symm
      · intro u hu
        rcases List.mem_cons.mp hu with rfl | hu
        · exact .refl
        · obtain ⟨c, hc, hu⟩ := List.mem_flatMap.mp hu
          exact hup c hc u hu

/-- With enough depth a walk comes to everything below its start. -/
theorem mem_walk {depth : ℕ} {u v : ν} (h : Relation.ReflTransGen t.Up u v)
    (hdepth : t.rank u ≤ t.rank v + depth) : u ∈ t.walk depth v := by
  induction depth generalizing v with
  | zero =>
      rcases Relation.ReflTransGen.cases_tail h with heq | ⟨c, hrest, hstep⟩
      · simp [walk, heq]
      · have hlow := rank_le_of_up hrest
        have hrank := t.rank_parent c hstep.1
        rw [hstep.2] at hrank
        omega
  | succ depth ih =>
      rcases Relation.ReflTransGen.cases_tail h with heq | ⟨c, hrest, hstep⟩
      · simp [walk, heq]
      · have hrank := t.rank_parent c hstep.1
        rw [hstep.2] at hrank
        exact List.mem_cons_of_mem _
          (List.mem_flatMap.mpr ⟨c, mem_children_iff.mpr hstep, ih hrest (by omega)⟩)

omit [DecidableEq ν] in

/-- Every node is below the root. -/
theorem up_root {u : ν} (hu : u ∈ t.root :: t.below) : Relation.ReflTransGen t.Up u t.root := by
  induction hn : t.rank u using Nat.strongRecOn generalizing u with
  | ind n ih =>
      rcases List.mem_cons.mp hu with rfl | hbelow
      · exact .refl
      · have hrank := t.rank_parent u hbelow
        exact .head ⟨hbelow, rfl⟩ (ih _ (hn ▸ hrank) (t.parent_mem u hbelow) rfl)

omit [DecidableEq ν] in

/-- What is below a node is a node. -/
theorem mem_nodes_of_up {u v : ν} (h : Relation.ReflTransGen t.Up u v)
    (hv : v ∈ t.root :: t.below) : u ∈ t.root :: t.below := by
  rcases Relation.ReflTransGen.cases_head h with rfl | ⟨w, hstep, -⟩
  · exact hv
  · exact List.mem_cons_of_mem _ hstep.1

variable (t) in
/-- **The walk from the root comes to every node exactly once**, when it may go deep enough. -/
theorem walk_root_perm (depth : ℕ) (hdepth : ∀ u ∈ t.nodes, t.rank u ≤ t.rank t.root + depth) :
    (t.walk depth t.root).Perm t.nodes := by
  obtain ⟨hnodup, hup⟩ := walk_nodup (t := t) depth t.root
  refine (List.perm_ext_iff_of_nodup hnodup t.nodup).mpr fun u => ⟨fun hu => ?_, fun hu => ?_⟩
  · exact mem_nodes_of_up (hup u hu) List.mem_cons_self
  · exact mem_walk (up_root hu) (hdepth u hu)

end ParentTree

/-! ## Lists cut by a key -/

section Keyed

variable {α β κ : Type}

/-- A pass over a list is a pass over the items with a property and one over the others. -/
theorem flatMap_perm_filter (l : List α) (p : α → Bool) (f : α → List β) :
    (l.flatMap f).Perm
      ((l.filter p).flatMap f ++ (l.filter fun a => !p a).flatMap f) := by
  rw [← List.flatMap_append]
  exact ((List.filter_append_perm p l).flatMap_right f).symm

/-- Cutting a list by different keys gives the items with one of the keys. -/
theorem flatMap_filter_perm [DecidableEq κ] {keys : List κ} (hkeys : keys.Nodup) (l : List α)
    (key : α → κ) :
    (keys.flatMap fun k => l.filter fun a => key a = k).Perm (l.filter fun a => key a ∈ keys) := by
  induction keys with
  | nil => simp
  | cons k ks ih =>
      obtain ⟨hk, hks⟩ := List.nodup_cons.mp hkeys
      have hsplit := List.filter_append_perm (fun a => key a = k)
        (l.filter fun a => key a ∈ k :: ks)
      have hfirst : (l.filter fun a => key a ∈ k :: ks).filter (fun a => key a = k) =
          l.filter fun a => key a = k := by
        rw [List.filter_filter]
        apply List.filter_congr
        intro a _
        by_cases h : key a = k <;> simp [h]
      have hrest : (l.filter fun a => key a ∈ k :: ks).filter (fun a => !decide (key a = k)) =
          l.filter fun a => key a ∈ ks := by
        rw [List.filter_filter]
        apply List.filter_congr
        intro a _
        by_cases h : key a = k
        · simp [h, hk]
        · simp [h]
      rw [hfirst, hrest] at hsplit
      rw [List.flatMap_cons]
      exact ((ih hks).append_left _).trans hsplit

end Keyed

end Vtfs.Library
